import NtfsPlus.Libntfs.Collate

/-!
# The order of file names

`ntfs_names_full_collate` of `libntfs/unistr.c` in both case modes.  A name is its
characters in memory and their number.  With `CASE_SENSITIVE` names are ordered by
their characters in upper case and then by the characters themselves, which is a
strict total order.  With `IGNORE_CASE` they are ordered by the characters in upper
case alone, so names that differ in case only are taken for the same.
-/

namespace NtfsPlus.Libntfs

section Names

/-- A name: its characters, and how many there are. -/
structure Name where
  chars : Bytes
  len : Nat

/-- The code units of a name. -/
def Name.units (n : Name) : List Nat :=
  seqList (nameChar n.chars) n.len

/-- The code units of a name in upper case. -/
def Name.upcased (up : Upcase) (n : Name) : List Nat :=
  seqList (fun i => up.char (nameChar n.chars i)) n.len

/-- `ntfs_names_full_collate` of two names. -/
def Name.collate (up : Upcase) (ignoreCase : Bool) (a b : Name) : Int :=
  namesFullCollate a.chars a.len b.chars b.len ignoreCase up

variable (up : Upcase) (a b : Name)

/-- With `IGNORE_CASE` names compare as their code units in upper case. -/
theorem Name.collate_ignoreCase : Decides (a.collate up true b) (a.upcased up) (b.upcased up) := by
  rw [Name.collate, namesFullCollate]
  have hlength := decides_threeWay a.len b.len
  split
  · rw [if_pos rfl]
    obtain ⟨r, hr, hval⟩ := exists_firstDiff (L := compareUpcase up a.chars b.chars)
      (fun _ => rfl) (fun _ _ => rfl) (min a.len b.len - 1) 0 (fun j hj => by omega)
    rw [show 0 + (min a.len b.len - 1) + 1 = min a.len b.len by omega] at hr
    rw [hval]
    exact hr.decides hlength
  · exact decides_seqList_of_agree (fun i hi => by omega) hlength

theorem Name.collate_caseSensitive :
    Decides (a.collate up false b) (toLex (a.upcased up, a.units))
      (toLex (b.upcased up, b.units)) :=
  namesFullCollate_decides up a.chars b.chars a.len b.len

theorem Name.upcased_eq_map
    (n : Name) :
    n.upcased up = n.units.map up.char := by
  simp [Name.upcased, Name.units, seqList]

/-- With `CASE_SENSITIVE` just identical names are taken for the same. -/
theorem Name.collate_zero_iff : a.collate up false b = 0 ↔ a.units = b.units := by
  rw [(Name.collate_caseSensitive up a b).zero_iff, toLex_inj, Prod.mk.injEq]
  constructor
  · exact fun h => h.2
  · intro h
    rw [Name.upcased_eq_map, Name.upcased_eq_map, h]
    exact ⟨rfl, rfl⟩

/-- In both modes the result is -1, 0 or 1. -/
theorem Name.collate_code
    (ignoreCase : Bool)
    (a b : Name) :
    IsCode (a.collate up ignoreCase b) := by
  have hzero : IsCode 0 := Or.inr (Or.inl rfl)
  have hlength := hzero.threeWay (a.len < b.len) (a.len > b.len)
  rw [Name.collate, namesFullCollate]
  split
  · split
    · exact hlength.threeWay _ _
    · exact ((hzero.threeWay _ _).threeWay _ _).threeWay _ _
  · exact hlength

/--
In both modes the function orders names up to those it takes for the same.  With
`CASE_SENSITIVE` these are identical names, so the order is a strict total one; with
`IGNORE_CASE` the code says how the code units in upper case compare, so names that
differ in case only are not told apart.
-/
theorem namesFullCollate_order
    (up : Upcase) :
    (∀ ignoreCase, IsComparison (Name.collate up ignoreCase)) ∧
      (∀ (ignoreCase : Bool) (a b : Name), IsCode (a.collate up ignoreCase b)) ∧
      (∀ (ignoreCase : Bool) (a b : Name),
        b.collate up ignoreCase a = -a.collate up ignoreCase b) ∧
      (∀ a b : Name, a.collate up false b = 0 ↔ a.units = b.units) ∧
      (∀ a b : Name, Decides (a.collate up true b) (a.upcased up) (b.upcased up)) := by
  have horder : ∀ ignoreCase, IsComparison (Name.collate up ignoreCase) := by
    intro ignoreCase
    cases ignoreCase with
    | false => exact isComparison_of_decides (Name.collate_caseSensitive up)
    | true => exact isComparison_of_decides (Name.collate_ignoreCase up)
  refine ⟨horder, Name.collate_code up, ?_, Name.collate_zero_iff up,
    Name.collate_ignoreCase up⟩
  intro ignoreCase a b
  have hab := (horder ignoreCase).antisymm a b
  have hba := (horder ignoreCase).antisymm b a
  rcases Name.collate_code up ignoreCase a b with h | h | h
  all_goals rcases Name.collate_code up ignoreCase b a with h' | h' | h'
  all_goals omega

/-- `"a"` and `"A"` are different names, and none comes first with `IGNORE_CASE`. -/
theorem namesFullCollate_same_letter :
    let up : Upcase := ⟨fun c => if c = 0x61 then 0x41 else c, 65536⟩
    let a : Name := ⟨setByte (fun _ => 0) 0 0x61, 1⟩
    let b : Name := ⟨setByte (fun _ => 0) 0 0x41, 1⟩
    a.units ≠ b.units ∧ a.collate up true b = 0 ∧ b.collate up true a = 0 := by
  decide +kernel

end Names

end NtfsPlus.Libntfs

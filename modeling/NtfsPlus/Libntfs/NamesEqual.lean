import NtfsPlus.Libntfs.AttrList
import NtfsPlus.Libntfs.NamesOrder

/-!
# Whether two names are the same

`ntfs_names_are_equal` of `libntfs/unistr.c` in both case modes.  Names are counted,
not terminated, but the two loops behind the function stop at a code unit that is
zero: what follows it in the names is not compared.  `ntfs_names_full_collate` does
look at it, so that the two functions can disagree.
-/

namespace NtfsPlus.Libntfs

section Model

/-- `ntfs_ucsncasecmp` of `n` more characters, from character `i` on. -/
def ucsncasecmp (up : Upcase) (s1 s2 : Bytes) : Nat → Nat → Int
  | 0, _ => 0
  | n + 1, i =>
    if up.char (nameChar s1 i) < up.char (nameChar s2 i) then
      -1
    else if up.char (nameChar s1 i) > up.char (nameChar s2 i) then
      1
    else if up.char (nameChar s1 i) = 0 then
      0
    else
      ucsncasecmp up s1 s2 n (i + 1)

/-- `ntfs_names_are_equal` of two names. -/
def Name.areEqual (up : Upcase) (ignoreCase : Bool) (a b : Name) : Bool :=
  if a.len ≠ b.len then
    false
  else if a.len = 0 then
    true
  else if ignoreCase then
    decide (ucsncasecmp up a.chars b.chars a.len 0 = 0)
  else
    decide (ucsncmp a.chars b.chars a.len 0 = 0)

/-- Code unit `i` of a name as the case mode has it. -/
def Name.unit (up : Upcase) (ignoreCase : Bool) (n : Name) (i : Nat) : Nat :=
  if ignoreCase then up.char (nameChar n.chars i) else nameChar n.chars i

/-- The names have the same length and agree code unit by code unit. -/
def Name.Agree (up : Upcase) (ignoreCase : Bool) (a b : Name) : Prop :=
  a.len = b.len ∧ ∀ i < a.len, a.unit up ignoreCase i = b.unit up ignoreCase i

/--
Names of one length that agree up to and with a zero code unit agree behind it as
well.
-/
def Name.AgreeBehindNul (up : Upcase) (ignoreCase : Bool) (a b : Name) : Prop :=
  a.len = b.len → ∀ k < a.len, a.unit up ignoreCase k = 0 →
    (∀ j ≤ k, a.unit up ignoreCase j = b.unit up ignoreCase j) →
      ∀ i < a.len, a.unit up ignoreCase i = b.unit up ignoreCase i

end Model

section Loops

theorem ucsncmp_eq_ucsncasecmp
    (table : Nat → Nat)
    (m1 m2 : Bytes)
    (n i : Nat) :
    ucsncmp m1 m2 n i = ucsncasecmp ⟨table, 0⟩ m1 m2 n i := by
  have hchar : ∀ c, Upcase.char ⟨table, 0⟩ c = c := fun c => if_neg (Nat.not_lt_zero c)
  induction n generalizing i with
  | zero => rfl
  | succ n ih => rw [ucsncmp, ucsncasecmp, hchar, hchar, ih]

/-- The loop finds no difference just if there is none, or none up to a zero. -/
theorem ucsncasecmp_zero_iff
    (up : Upcase)
    (m1 m2 : Bytes)
    (n i : Nat) :
    ucsncasecmp up m1 m2 n i = 0 ↔
      ∃ k, (k = i + n ∨ (i ≤ k ∧ k < i + n ∧ up.char (nameChar m1 k) = 0)) ∧
        ∀ j, i ≤ j → j < i + n → j ≤ k → up.char (nameChar m1 j) = up.char (nameChar m2 j) := by
  induction n generalizing i with
  | zero =>
    refine ⟨fun _ => ⟨i, Or.inl rfl, fun j hj hjn => ?_⟩, fun _ => rfl⟩
    omega
  | succ n ih =>
    rw [ucsncasecmp]
    constructor
    · intro h
      split_ifs at h with hlt hgt hzero
      · cases h
      · refine ⟨i, Or.inr ⟨le_refl i, by omega, hzero⟩, fun j hj _ hjk => ?_⟩
        rw [show j = i by omega]
        omega
      · obtain ⟨k, hk, hagree⟩ := (ih (i + 1)).mp h
        refine ⟨k, by omega, fun j hj hjn hjk => ?_⟩
        by_cases hji : j = i
        · rw [hji]
          omega
        · exact hagree j (by omega) (by omega) hjk
    · rintro ⟨k, hk, hagree⟩
      have hsame := hagree i (le_refl i) (by omega) (by omega)
      rw [if_neg (by omega), if_neg (by omega)]
      split_ifs with hzero
      · rfl
      · refine (ih (i + 1)).mpr ⟨k, ?_, fun j hj hjn hjk => ?_⟩
        · rcases hk with hk | ⟨hik, hkn, hk⟩
          · exact Or.inl (by omega)
          · have hne : k ≠ i := fun h => hzero (h ▸ hk)
            exact Or.inr ⟨by omega, by omega, hk⟩
        · exact hagree j (by omega) (by omega) hjk

end Loops

section Names

variable {up : Upcase} {ignoreCase : Bool} {a b : Name}

theorem Name.areEqual_iff :
    a.areEqual up ignoreCase b = true ↔ a.len = b.len ∧
        ∃ k, (k = a.len ∨ (k < a.len ∧ a.unit up ignoreCase k = 0)) ∧
          ∀ j < a.len, j ≤ k → a.unit up ignoreCase j = b.unit up ignoreCase j := by
  rw [Name.areEqual]
  by_cases hlen : a.len = b.len
  · rw [if_neg (fun h => h hlen)]
    split
    · rename_i hnil
      refine ⟨fun _ => ⟨hlen, 0, Or.inl hnil.symm, fun j hj => ?_⟩, fun _ => rfl⟩
      omega
    · cases ignoreCase with
      | true =>
        rw [if_pos rfl, decide_eq_true_iff, ucsncasecmp_zero_iff]
        simp [Name.unit, hlen]
      | false =>
        have hchar : ∀ c, Upcase.char ⟨up.table, 0⟩ c = c := fun c => if_neg (Nat.not_lt_zero c)
        rw [if_neg Bool.false_ne_true, decide_eq_true_iff, ucsncmp_eq_ucsncasecmp up.table,
          ucsncasecmp_zero_iff]
        simp [Name.unit, hlen, hchar]
  · simp [hlen]

/-- In case-sensitive mode the names agree just if they have the same code units. -/
theorem Name.agree_iff_units : Name.Agree up false a b ↔ a.units = b.units := by
  constructor
  · rintro ⟨hlen, hagree⟩
    refine List.ext_getElem (by simp [Name.units, hlen]) (fun i hi _ => ?_)
    have hi' : i < a.len := by simpa [Name.units] using hi
    simpa [Name.units, Name.unit] using hagree i hi'
  · intro h
    have hlen : a.len = b.len := by simpa [Name.units] using congrArg List.length h
    refine ⟨hlen, fun i hi => ?_⟩
    have hat := congrArg (fun l => l[i]?) h
    simpa [Name.units, Name.unit, hi, hlen ▸ hi] using hat

/--
The function tells whether the names are the same, and agrees with the collation in
case-sensitive mode, just if the names do not differ behind a zero code unit that
they share.
-/
theorem namesAreEqual_exact_iff
    (up : Upcase)
    (ignoreCase : Bool)
    (a b : Name) :
    ((a.areEqual up ignoreCase b = true ↔ Name.Agree up ignoreCase a b) ∧ (ignoreCase = false →
          (a.areEqual up ignoreCase b = true ↔ a.collate up ignoreCase b = 0))) ↔
      Name.AgreeBehindNul up ignoreCase a b := by
  have hequal : Name.Agree up ignoreCase a b → a.areEqual up ignoreCase b = true := by
    rintro ⟨hlen, hagree⟩
    exact Name.areEqual_iff.mpr ⟨hlen, a.len, Or.inl rfl, fun j hj _ => hagree j hj⟩
  constructor
  · rintro ⟨hexact, _⟩ hlen k hk hzero hagree
    refine (hexact.mp (Name.areEqual_iff.mpr ⟨hlen, k, Or.inr ⟨hk, hzero⟩, ?_⟩)).2
    exact fun j _ hjk => hagree j hjk
  · intro hnul
    have hexact : a.areEqual up ignoreCase b = true ↔ Name.Agree up ignoreCase a b := by
      refine ⟨fun h => ?_, hequal⟩
      obtain ⟨hlen, k, hk | ⟨hk, hzero⟩, hagree⟩ := Name.areEqual_iff.mp h
      · exact ⟨hlen, fun i hi => hagree i hi (by omega)⟩
      · exact ⟨hlen, hnul hlen k hk hzero (fun j hj => hagree j (by omega) hj)⟩
    refine ⟨hexact, ?_⟩
    rintro rfl
    rw [hexact, Name.agree_iff_units, Name.collate_zero_iff]

/-- Two names that begin with a zero and differ behind it. -/
theorem namesAreEqual_nul :
    let up : Upcase := ⟨fun c => c, 0⟩
    let a : Name := ⟨setByte (fun _ => 0) 2 0x61, 2⟩
    let b : Name := ⟨setByte (fun _ => 0) 2 0x62, 2⟩
    a.areEqual up false b = true ∧ a.units ≠ b.units ∧ a.collate up false b = -1 := by
  decide +kernel

end Names

end NtfsPlus.Libntfs

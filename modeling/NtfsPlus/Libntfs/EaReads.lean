import NtfsPlus.Lib.CheckedReads
import NtfsPlus.Libntfs.Ea

/-!
# What the check of an extended attribute chain reads

The loop of `ntfs_set_ntfs_ea` over the entries of its argument, with the bytes of
the buffer that each test reads.  An entry is looked at as soon as one byte of it
lies in the buffer: the offset to the next entry is read with up to three bytes
behind the end, and the two lengths of an entry of four bytes, which is refused
only then, may lie behind it too.
-/

namespace NtfsPlus.Libntfs

open CheckedReads

section Model

/-- The tests of one entry, in the order of the evaluation, and the flags that are read then. -/
def eaEntryChecks (value : Bytes) (size offs : Nat) : List Check :=
  let next := eaNextOffs value offs
  let e := eaEntryAt value offs
  let lengths := [(offs + 5, 1), (offs + 6, 2)]
  [⟨[(offs, 4)], offs < next⟩, ⟨[], next ≤ size⟩, ⟨[], next % 4 == 0⟩,
    ⟨[(offs + 5, 1)], e.nameLength != 0⟩,
    ⟨lengths, e.endOffs offs ≤ next⟩, ⟨lengths, next - 3 ≤ e.endOffs offs⟩,
    ⟨[(offs + 8 + e.nameLength, 1)], value (offs + 8 + e.nameLength) == 0⟩,
    ⟨[(offs + 4, 1)], true⟩]

/-- The offsets of the entries that the loop looks at; `none` if it does not end in time. -/
def eaVisited (value : Bytes) (size : Nat) : Nat → Nat → Option (List Nat)
  | 0, _ => none
  | fuel + 1, offs =>
    if offs < size then
      if passes (eaEntryChecks value size offs) then
        (eaVisited value size fuel (eaNextOffs value offs)).map (offs :: ·)
      else
        some [offs]
    else
      some []

/-- The loop comes from the first offset to the second one. -/
inductive EaReaches (value : Bytes) (size : Nat) : Nat → Nat → Prop
  | here (offs : Nat) : EaReaches value size offs offs
  | next {offs o : Nat} (hin : offs < size) (hok : EaEntryOk value size offs)
      (hrest : EaReaches value size (eaNextOffs value offs) o) : EaReaches value size offs o

/-- The fixed part of an entry lies in the buffer as far as it is read. -/
def EaHeaderInside (value : Bytes) (size offs : Nat) : Prop :=
  offs + 4 ≤ size ∧ (le32 value offs = 4 →
      offs + 6 ≤ size ∧ ((eaEntryAt value offs).nameLength ≠ 0 → offs + 8 ≤ size))

end Model

section Reads

variable {value : Bytes} {size offs : Nat}

theorem eaEntryChecks_passes :
    passes (eaEntryChecks value size offs) ↔ EaEntryOk value size offs := by
  simp [eaEntryChecks, EaEntryOk, passes]

/-- Behind the first three tests an entry of more than four bytes has its header in the buffer. -/
theorem eaEntryChecks_within
    (haligned : offs % 4 = 0) :
    ReadsWithin size (eaEntryChecks value size offs) ↔ EaHeaderInside value size offs := by
  simp only [eaEntryChecks, readsWithin_cons, List.forall_mem_cons, List.not_mem_nil,
    IsEmpty.forall_iff, implies_true, and_true, true_and, readsWithin_nil, decide_eq_true_eq,
    beq_iff_eq, bne_iff_ne]
  simp only [EaHeaderInside, EaEntry.endOffs, eaNextOffs]
  generalize le32 value offs = next
  generalize (eaEntryAt value offs).nameLength = nameLength
  constructor
  · rintro ⟨hnext, hlengths⟩
    refine ⟨hnext, ?_⟩
    rintro rfl
    obtain ⟨hname, hvalue⟩ := hlengths (by omega) hnext (by omega)
    exact ⟨hname, fun hne => (hvalue hne).1.2⟩
  · rintro ⟨hnext, hfour⟩
    refine ⟨hnext, fun hlt hle hmod => ?_⟩
    have hname : offs + 6 ≤ size ∧ (nameLength ≠ 0 → offs + 8 ≤ size) := by
      by_cases h4 : next = 4
      · exact hfour h4
      · omega
    refine ⟨hname.1, fun hne => ⟨⟨hname.1, hname.2 hne⟩, fun hend => ?_⟩⟩
    refine ⟨⟨hname.1, hname.2 hne⟩, fun _ => ⟨by omega, fun _ => by omega⟩⟩

theorem eaReaches_iff
    {o : Nat} :
    EaReaches value size offs o ↔ o = offs ∨ offs < size ∧ EaEntryOk value size offs ∧
      EaReaches value size (eaNextOffs value offs) o := by
  constructor
  · rintro (_ | ⟨hin, hok, hrest⟩)
    · exact .inl rfl
    · exact .inr ⟨hin, hok, hrest⟩
  · rintro (rfl | ⟨hin, hok, hrest⟩)
    · exact .here o
    · exact .next hin hok hrest

/-- The loop looks at the offsets in the buffer that it comes to. -/
theorem mem_eaVisited
    {fuel o : Nat} {visited : List Nat}
    (h : eaVisited value size fuel offs = some visited) :
    o ∈ visited ↔ EaReaches value size offs o ∧ o < size := by
  induction fuel generalizing offs visited with
  | zero => cases h
  | succ fuel ih =>
    rw [eaVisited] at h
    rw [eaReaches_iff]
    split_ifs at h with hlt hok
    · obtain ⟨rest, hrest, rfl⟩ := Option.map_eq_some_iff.mp h
      have hhere : o = offs → o < size := fun ho => ho ▸ hlt
      rw [List.mem_cons, ih hrest, or_and_right, and_iff_left_of_imp hhere,
        and_iff_right hlt, and_iff_right (eaEntryChecks_passes.mp hok)]
    · obtain rfl := Option.some.inj h
      rw [List.mem_singleton, or_iff_left fun hgo => hok (eaEntryChecks_passes.mpr hgo.2.1),
        and_iff_left_of_imp (fun ho => ho ▸ hlt)]
    · obtain rfl := Option.some.inj h
      rw [or_iff_left fun hgo => hlt hgo.1]
      exact iff_of_false List.not_mem_nil fun ho => hlt (ho.1 ▸ ho.2)

/-- The offsets grow and stay aligned, so the loop ends before the bytes of the buffer run out. -/
theorem eaVisited_spec
    (fuel : Nat)
    (haligned : offs % 4 = 0)
    (hfuel : size ≤ offs + fuel) :
    ∃ visited, eaVisited value size (fuel + 1) offs = some visited ∧ ∀ o ∈ visited, o % 4 = 0 := by
  induction fuel generalizing offs with
  | zero =>
    rw [eaVisited, if_neg (by omega)]
    exact ⟨[], rfl, by simp⟩
  | succ fuel ih =>
    rw [eaVisited]
    by_cases hlt : offs < size
    · by_cases hok : passes (eaEntryChecks value size offs)
      · obtain ⟨hnext, -, hmod, -⟩ := eaEntryChecks_passes.mp hok
        obtain ⟨visited, hvisited, hall⟩ := ih hmod (by omega)
        rw [if_pos hlt, if_pos hok, hvisited]
        exact ⟨offs :: visited, rfl, List.forall_mem_cons.mpr ⟨haligned, hall⟩⟩
      · rw [if_pos hlt, if_neg hok]
        exact ⟨[offs], rfl, by simpa using haligned⟩
    · rw [if_neg hlt]
      exact ⟨[], rfl, by simp⟩

/--
The check of the chain ends, and keeps to the buffer exactly when the fixed part of
every entry it comes to lies in the buffer as far as it is read.
-/
theorem eaChain_reads_iff
    (value : Bytes)
    (size : Nat) :
    ∃ visited, eaVisited value size (size + 1) 0 = some visited ∧
      ((∀ offs ∈ visited, ReadsWithin size (eaEntryChecks value size offs)) ↔
        ∀ offs, EaReaches value size 0 offs → offs < size → EaHeaderInside value size offs) := by
  obtain ⟨visited, hvisited, haligned⟩ := eaVisited_spec size rfl (Nat.le_add_left size 0)
  refine ⟨visited, hvisited, forall_congr' fun offs => ?_⟩
  rw [← and_imp, ← mem_eaVisited hvisited]
  exact imp_congr_right fun h => eaEntryChecks_within (haligned offs h)

/-- A buffer of one byte: four are read. -/
theorem eaChain_one_byte :
    eaVisited (fun _ => 0) 1 2 0 = some [0] ∧ (0, 4) ∈ readsOf (eaEntryChecks (fun _ => 0) 1 0) ∧
      ¬ReadsWithin 1 (eaEntryChecks (fun _ => 0) 1 0) := by
  decide

end Reads

end NtfsPlus.Libntfs

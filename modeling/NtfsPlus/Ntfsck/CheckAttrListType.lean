import NtfsPlus.Libntfs.AttrList

/-!
# Checking and cutting an attribute list

`_ntfsck_check_attr_list_type` goes over the entries of an attribute list and, if all
of them are sound, cuts the list behind the last one that is whole.  What it returns
does not depend on whether the cut works.  `ntfs_inode_attach_all_extents` then goes
over the list with hardly a check of its own.

`checkAttrListType_whole_iff`: after a successful check the list consists of whole
sound entries, and can be walked over safely, exactly if there was nothing to cut off
or the cut worked.
-/

namespace NtfsPlus.Ntfsck

open Libntfs

section Model

/-- The attribute types that an attribute list may have. -/
def listedAttrTypes : List Nat :=
  [0x10, 0x30, 0x40, 0x50, 0x60, 0x70, 0x80, 0x90, 0xa0, 0xb0, 0xc0, 0xd0, 0xe0, 0xf0, 0x100]

/-- `MREF_LE(al_entry->mft_reference)`. -/
def entryMref (al : Bytes) (pos : Nat) : Nat :=
  le64 al (pos + 16) % 2 ^ 48

/-- The type and the length of an entry are sound. -/
def TypeAndLengthOk (al : Bytes) (pos : Nat) : Prop :=
  le32 al pos ∈ listedAttrTypes ∧ 26 ≤ entryLength al pos ∧ entryLength al pos % 8 = 0

/-- The name lies in the entry, the record exists and the lowest VCN is not negative. -/
def NameAndRefOk (al : Bytes) (nrMftRecords pos : Nat) : Prop :=
  (entryNameLength al pos = 0 ∨ (26 ≤ (al (pos + 7)).toNat ∧
      (al (pos + 7)).toNat + entryNameLength al pos * 2 ≤ entryLength al pos)) ∧
    entryMref al pos < nrMftRecords ∧ le64 al (pos + 8) < 2 ^ 63

instance (al : Bytes) (pos : Nat) : Decidable (TypeAndLengthOk al pos) :=
  inferInstanceAs (Decidable (_ ∧ _))

instance (al : Bytes) (nrMftRecords pos : Nat) : Decidable (NameAndRefOk al nrMftRecords pos) :=
  inferInstanceAs (Decidable (_ ∧ _))

variable (al : Bytes) (nrMftRecords size : Nat)

/--
The loop over the entries: `al_real_length`, or an error for a corrupt entry; `none` if
it has not ended by then.
-/
def attrListTypeLoop : Nat → Nat → Option (Except Unit Nat)
  | 0, _ => none
  | fuel + 1, pos =>
    if size < pos + 26 then
      some (.ok pos)
    else if ¬TypeAndLengthOk al pos then
      some (.error ())
    else if size < pos + entryLength al pos then
      some (.ok pos)
    else if ¬NameAndRefOk al nrMftRecords pos then
      some (.error ())
    else
      let next := pos + entryLength al pos
      if size ≤ next ∨ size < next + 26 ∨ size < next + entryLength al next then
        some (.ok next)
      else
        attrListTypeLoop fuel next

/-- `_ntfsck_check_attr_list_type`, with the repair approved: the size of the list then. -/
def checkAttrListType (truncateOk : Bool) : Option (Except Unit Nat) :=
  (attrListTypeLoop al nrMftRecords size (size + 1) 0).map fun
    | .error _ => .error ()
    | .ok realLength => .ok (if size ≠ realLength ∧ truncateOk then realLength else size)

/--
The loop of `ntfs_inode_attach_all_extents`: what it reads of the list.  `opens` tells
whether the extent of an entry can be attached.
-/
def attachAllExtents (mftNo : Nat) (opens : Nat → Bool) :
    Nat → Nat → Nat → Option (List (Nat × Nat))
  | 0, _, _ => none
  | fuel + 1, pos, prevAttached =>
    if pos < size then
      if entryLength al pos = 0 then
        some [(pos + 4, 2)]
      else
        let reads := [(pos + 4, 2), (pos + 16, 8)]
        let next := pos + entryLength al pos
        if mftNo ≠ entryMref al pos ∧ prevAttached ≠ entryMref al pos then
          if opens pos then
            (attachAllExtents mftNo opens fuel next (entryMref al pos)).map (reads ++ ·)
          else
            some reads
        else
          (attachAllExtents mftNo opens fuel next prevAttached).map (reads ++ ·)
    else
      some []

/-- From a position on the list consists of whole sound entries. -/
inductive WholeEntries : Nat → Prop
  | done : WholeEntries size
  | entry {pos : Nat} (htype : TypeAndLengthOk al pos) (href : NameAndRefOk al nrMftRecords pos)
      (hwhole : pos + entryLength al pos ≤ size)
      (hrest : WholeEntries (pos + entryLength al pos)) :
      WholeEntries pos

/-- Attaching the extents ends, whatever can be opened, and reads in the list only. -/
def AttachSafe : Prop :=
  ∀ mftNo opens, ∃ fuel reads, attachAllExtents al size mftNo opens fuel 0 0 = some reads ∧
    ∀ r ∈ reads, r.1 + r.2 ≤ size

end Model

section Check

variable {al : Bytes} {nrMftRecords size : Nat}

theorem WholeEntries.le
    {pos : Nat}
    (h : WholeEntries al nrMftRecords size pos) :
    pos ≤ size := by
  cases h with
  | done => exact Nat.le_refl _
  | entry _ _ hwhole _ => omega

/-- What the loop has found: sound entries up to some position, and no whole one behind. -/
structure RealLength (al : Bytes) (nrMftRecords size pos realLength : Nat) : Prop where
  whole : WholeEntries al nrMftRecords realLength pos
  le : realLength ≤ size
  rest : realLength < size → size < realLength + 26 ∨ size < realLength + entryLength al realLength

theorem attrListTypeLoop_spec
    (al : Bytes)
    (nrMftRecords fuel : Nat)
    {pos : Nat}
    (hpos : pos ≤ size)
    (hfuel : size < pos + fuel) :
    ∃ r, attrListTypeLoop al nrMftRecords size fuel pos = some r ∧
      ∀ realLength, r = .ok realLength → RealLength al nrMftRecords size pos realLength := by
  induction fuel generalizing pos with
  | zero => omega
  | succ fuel ih =>
    rw [attrListTypeLoop]
    dsimp only
    split_ifs with hshort htype hcut href hend
    · exact ⟨_, rfl, fun _ h => Except.ok.inj h ▸ ⟨.done, hpos, fun _ => .inl hshort⟩⟩
    · exact ⟨_, rfl, fun _ h => Except.ok.inj h ▸ ⟨.done, hpos, fun _ => .inr hcut⟩⟩
    · refine ⟨_, rfl, fun _ h => Except.ok.inj h ▸ ?_⟩
      exact ⟨.entry htype href (Nat.le_refl _) .done, by omega, fun hlt => by omega⟩
    · have hlength := htype.2.1
      have hin : pos + entryLength al pos ≤ size := by omega
      obtain ⟨r, hr, hspec⟩ := ih hin (by omega)
      refine ⟨r, hr, fun realLength hreal => ?_⟩
      obtain ⟨hwhole, hle, hrest⟩ := hspec realLength hreal
      exact ⟨.entry htype href hwhole.le hwhole, hle, hrest⟩
    · exact ⟨_, rfl, fun _ h => by cases h⟩
    · exact ⟨_, rfl, fun _ h => by cases h⟩

/-- Sound entries are what the loop has gone over: there is only one way through the list. -/
theorem WholeEntries.eq_of_realLength
    {pos realLength : Nat}
    (h : WholeEntries al nrMftRecords size pos)
    (hreal : RealLength al nrMftRecords size pos realLength) :
    realLength = size := by
  obtain ⟨hwhole, hle, hrest⟩ := hreal
  induction hwhole with
  | done =>
    cases h with
    | done => rfl
    | entry htype _ hin _ =>
      have := htype.2.1
      omega
  | entry htype href hin _ ih =>
    cases h with
    | done =>
      omega
    | entry _ _ _ hwhole => exact ih hwhole

theorem WholeEntries.attach
    {pos : Nat}
    (h : WholeEntries al nrMftRecords size pos)
    (mftNo : Nat)
    (opens : Nat → Bool)
    (prev : Nat) :
    ∃ fuel reads, attachAllExtents al size mftNo opens fuel pos prev = some reads ∧
      ∀ r ∈ reads, r.1 + r.2 ≤ size := by
  induction h generalizing prev with
  | done => exact ⟨1, [], by rw [attachAllExtents, if_neg (Nat.lt_irrefl _)], by simp⟩
  | @entry pos htype href hwhole _ ih =>
    have hlength := htype.2.1
    have hreads : ∀ r ∈ [(pos + 4, 2), (pos + 16, 8)], r.1 + r.2 ≤ size := by
      simp only [List.forall_mem_cons, List.not_mem_nil, IsEmpty.forall_iff, implies_true, and_true]
      omega
    have hstep : ∀ prev', ∃ fuel reads, (attachAllExtents al size mftNo opens fuel
        (pos + entryLength al pos) prev').map ([(pos + 4, 2), (pos + 16, 8)] ++ ·) = some reads ∧
        ∀ r ∈ reads, r.1 + r.2 ≤ size := by
      intro prev'
      obtain ⟨fuel, reads, hreads', hin⟩ := ih prev'
      refine ⟨fuel, _, by rw [hreads']; rfl, ?_⟩
      exact List.forall_mem_append.mpr ⟨hreads, hin⟩
    by_cases hnew : mftNo ≠ entryMref al pos ∧ prev ≠ entryMref al pos
    · by_cases hopen : opens pos
      · obtain ⟨fuel, reads, hreads', hin⟩ := hstep (entryMref al pos)
        refine ⟨fuel + 1, reads, ?_, hin⟩
        rw [attachAllExtents, if_pos (by omega), if_neg (by omega), if_pos hnew, if_pos hopen]
        exact hreads'
      · refine ⟨1, _, ?_, hreads⟩
        rw [attachAllExtents, if_pos (by omega), if_neg (by omega), if_pos hnew, if_neg hopen]
    · obtain ⟨fuel, reads, hreads', hin⟩ := hstep prev
      refine ⟨fuel + 1, reads, ?_, hin⟩
      rw [attachAllExtents, if_pos (by omega), if_neg (by omega), if_neg hnew]
      exact hreads'

/--
The check ends, and if it succeeds the list it leaves consists of whole sound entries,
and its extents can be attached safely, exactly if nothing had to be cut off or the
cut worked.
-/
theorem checkAttrListType_whole_iff
    (al : Bytes)
    (nrMftRecords size : Nat)
    (truncateOk : Bool) :
    ∃ r, checkAttrListType al nrMftRecords size truncateOk = some r ∧ ∀ newSize, r = .ok newSize →
        ((WholeEntries al nrMftRecords newSize 0 ∧ AttachSafe al newSize) ↔
          attrListTypeLoop al nrMftRecords size (size + 1) 0 = some (.ok size) ∨ truncateOk) := by
  obtain ⟨r, hr, hspec⟩ :=
    attrListTypeLoop_spec al nrMftRecords (size + 1) (Nat.zero_le size) (by omega)
  rw [checkAttrListType, hr]
  cases r with
  | error e => exact ⟨_, rfl, fun _ h => by cases h⟩
  | ok realLength =>
    have hreal := hspec realLength rfl
    refine ⟨_, rfl, fun newSize hnew => ?_⟩
    cases hnew
    have hattach : ∀ n, WholeEntries al nrMftRecords n 0 → AttachSafe al n :=
      fun n h mftNo opens => h.attach mftNo opens 0
    rw [and_iff_left_of_imp (hattach _), Option.some.injEq, Except.ok.injEq]
    by_cases hsame : realLength = size
    · subst hsame
      simpa using hreal.whole
    · cases truncateOk with
      | true => simpa [Ne.symm hsame] using hreal.whole
      | false =>
        simp only [Bool.false_eq_true, and_false, or_false]
        exact iff_of_false (fun h => hsame (h.eq_of_realLength hreal)) hsame

/-- One entry for `$DATA` and four bytes behind it. -/
def trailingList : Bytes :=
  patches (fun _ => 0) 0 [(0, leBytes 4 0x80), (4, leBytes 2 32)]

/-- The list cannot be cut: the check succeeds, and attaching the extents reads behind the list. -/
theorem checkAttrListType_not_cut :
    checkAttrListType trailingList 64 36 false = some (.ok 36) ∧
      ¬WholeEntries trailingList 64 36 0 ∧
      attachAllExtents trailingList 36 0 (fun _ => true) 2 0 0 =
        some [(4, 2), (16, 8), (36, 2)] := by
  refine ⟨by decide +kernel, ?_, by decide +kernel⟩
  intro h
  have hlength : entryLength trailingList 0 = 32 := by decide +kernel
  cases h with
  | entry htype href hwhole hrest =>
    cases hrest with
    | entry htype => exact absurd htype (by decide +kernel)

end Check

end NtfsPlus.Ntfsck

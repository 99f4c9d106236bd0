import NtfsPlus.Libntfs.RunlistBasic

/-!
# Opening extent inodes

`ntfs_extent_inode_open` of `libntfs/inode.c` gives an extent record of a base inode:
an attached one if there is one with the number of the reference, otherwise it is read
and attached.  `ntfs_file_record_read` refuses a record with another sequence number than
the reference has, but for an attached record a stale reference only sets `errno`: the
record is returned.  `extentInodeOpens_right_iff` says that this is all that goes wrong in
a run of calls, and the extent array holds no record twice.
-/

namespace NtfsPlus.Libntfs

section Model

/-- An extent inode: the number and the sequence number of its record. -/
structure ExtentInode where
  mftNo : Nat
  sequenceNumber : Nat
deriving DecidableEq, Repr

/-- A base inode with `extent_nis`. -/
structure BaseInode where
  mftNo : Nat
  extents : List ExtentInode

/-- What of the volume is used: `mft_na->rl` and the two sizes. -/
structure MftMap where
  rl : Option Runlist
  mftRecordSizeBits : Nat
  clusterSizeBits : Nat

/-- A record as it is read: its sequence number and the base record it names. -/
structure ReadRecord where
  sequenceNumber : Nat
  baseMftNo : Nat

/-- A call: the reference, what the device gives for the record, if it can be read and
passes `ntfs_mft_record_check`, and whether memory is short. -/
structure ExtentOpen where
  mftNo : Nat
  seqNo : Nat
  record : Option ReadRecord
  noMemory : Bool

/-- The element of `$MFT`'s runlist at which the search for a VCN stops. -/
def mftElement (vcn : Int) : Runlist → Option RunlistElement
  | [] => none
  | e :: rest => if e.length ≠ 0 ∧ e.vcn + e.length ≤ vcn then mftElement vcn rest else some e

/-- Whether an extent record of `$MFT` lies in a part that is mapped. -/
def MftMap.mapped (v : MftMap) (mftNo : Nat) : Bool :=
  let vcn : Nat := mftNo * 2 ^ v.mftRecordSizeBits / 2 ^ v.clusterSizeBits
  match v.rl.bind (mftElement vcn) with
  | none => false
  | some e => decide (0 ≤ e.lcn)

/-- `ntfs_file_record_read`. -/
def fileRecordRead (c : ExtentOpen) : Option ReadRecord :=
  c.record.filter fun r => decide (c.seqNo = 0 ∨ c.seqNo = r.sequenceNumber)

/-- `ntfs_extent_inode_open`. -/
def extentInodeOpenRef (v : MftMap) (s : BaseInode) (c : ExtentOpen) :
    Option ExtentInode × BaseInode :=
  if s.mftNo = 0 ∧ v.mapped c.mftNo = false then
    (none, s)
  else
    match s.extents.find? fun ni => decide (ni.mftNo = c.mftNo) with
    -- with another sequence number `errno` is `EIO`, and `ni` is returned all the same
    | some ni => (some ni, s)
    | none =>
      match fileRecordRead c with
      | none => (none, s)
      | some r =>
        if c.noMemory ∨ r.baseMftNo ≠ s.mftNo then
          (none, s)
        else
          let ni := ⟨c.mftNo, r.sequenceNumber⟩
          (some ni, { s with extents := s.extents ++ [ni] })

end Model

section Runs

variable {v : MftMap} {s : BaseInode} {c : ExtentOpen}

/-- No record is attached twice. -/
def BaseInode.Once (s : BaseInode) : Prop :=
  (s.extents.map ExtentInode.mftNo).Nodup

/-- What a call is to return, and leave: the record of the reference, attached once. -/
def OpenRight (v : MftMap) (s : BaseInode) (c : ExtentOpen) : Prop :=
  (∀ ni, (extentInodeOpenRef v s c).1 = some ni → c.seqNo ≠ 0 → ni = ⟨c.mftNo, c.seqNo⟩) ∧
    (extentInodeOpenRef v s c).2.Once

/-- Every call of a run is right. -/
def OpensRight (v : MftMap) : BaseInode → List ExtentOpen → Prop
  | _, [] => True
  | s, c :: cs => OpenRight v s c ∧ OpensRight v (extentInodeOpenRef v s c).2 cs

/-- The reference has the number of an attached record, with another sequence number. -/
def StaleRef (v : MftMap) (s : BaseInode) (c : ExtentOpen) : Prop :=
  c.seqNo ≠ 0 ∧ (s.mftNo = 0 → v.mapped c.mftNo = true) ∧
    ∃ ni ∈ s.extents, ni.mftNo = c.mftNo ∧ ni.sequenceNumber ≠ c.seqNo

/-- No call of a run is given a stale reference to a record that is attached by then. -/
def NeverStale (v : MftMap) : BaseInode → List ExtentOpen → Prop
  | _, [] => True
  | s, c :: cs => ¬StaleRef v s c ∧ NeverStale v (extentInodeOpenRef v s c).2 cs

theorem extentInodeOpenRef_cases
    (v : MftMap)
    (s : BaseInode)
    (c : ExtentOpen) :
    extentInodeOpenRef v s c = (none, s) ∧ ¬StaleRef v s c ∨
      (s.mftNo = 0 → v.mapped c.mftNo = true) ∧
        (∃ ni ∈ s.extents, ni.mftNo = c.mftNo ∧ extentInodeOpenRef v s c = (some ni, s)) ∨
      (∀ ni ∈ s.extents, ni.mftNo ≠ c.mftNo) ∧
        ∃ seq, (c.seqNo ≠ 0 → seq = c.seqNo) ∧ extentInodeOpenRef v s c =
          (some ⟨c.mftNo, seq⟩, { s with extents := s.extents ++ [⟨c.mftNo, seq⟩] }) := by
  by_cases hmft : s.mftNo = 0 ∧ v.mapped c.mftNo = false
  · refine Or.inl ⟨if_pos hmft, fun h => ?_⟩
    simp [h.2.1 hmft.1] at hmft
  have hmapped : s.mftNo = 0 → v.mapped c.mftNo = true := by simpa using hmft
  rw [extentInodeOpenRef, if_neg hmft]
  cases hfind : s.extents.find? fun ni => decide (ni.mftNo = c.mftNo) with
  | some ni =>
    exact Or.inr (Or.inl ⟨hmapped, ni, List.mem_of_find?_eq_some hfind,
      by simpa using List.find?_some hfind, rfl⟩)
  | none =>
    have hother : ∀ ni ∈ s.extents, ni.mftNo ≠ c.mftNo := by simpa using hfind
    have hfresh : ¬StaleRef v s c := fun ⟨_, _, ni, hni, heq, _⟩ => hother ni hni heq
    cases hread : fileRecordRead c with
    | none => exact Or.inl ⟨rfl, hfresh⟩
    | some r =>
      dsimp only
      split_ifs
      · exact Or.inl ⟨rfl, hfresh⟩
      · have hseq := (Option.filter_eq_some_iff.mp hread).2
        rw [decide_eq_true_eq] at hseq
        exact Or.inr (Or.inr ⟨hother, r.sequenceNumber,
          fun hne => (hseq.resolve_left hne).symm, rfl⟩)

theorem BaseInode.Once.extentInodeOpenRef
    (h : s.Once) :
    (extentInodeOpenRef v s c).2.Once := by
  rcases extentInodeOpenRef_cases v s c with ⟨heq, _⟩ | ⟨_, ni, _, _, heq⟩ | ⟨hother, seq, _, heq⟩
  · rwa [heq]
  · rwa [heq]
  · rw [heq, Once, List.map_append, List.nodup_append]
    refine ⟨h, List.nodup_singleton _, ?_⟩
    intro a ha b hb
    obtain ⟨ni, hni, rfl⟩ := List.mem_map.mp ha
    rw [List.mem_singleton.mp hb]
    exact hother ni hni

theorem openRight_iff
    (h : s.Once) :
    OpenRight v s c ↔ ¬StaleRef v s c := by
  rw [OpenRight, and_iff_left h.extentInodeOpenRef]
  rcases extentInodeOpenRef_cases v s c with
    ⟨heq, hfresh⟩ | ⟨hmapped, ni, hni, hno, heq⟩ | ⟨hother, seq, hseq, heq⟩
  · simp [heq, hfresh]
  · simp only [heq, Option.some.injEq, forall_eq']
    constructor
    · rintro hright ⟨hne, _, ni', hni', hno', hstale⟩
      have hsame : ni' = ni := List.inj_on_of_nodup_map h hni' hni (hno'.trans hno.symm)
      rw [hsame, hright hne] at hstale
      exact hstale rfl
    · intro hfresh hne
      have hseq : ni.sequenceNumber = c.seqNo := by
        by_contra hstale
        exact hfresh ⟨hne, hmapped, ni, hni, hno, hstale⟩
      rw [← hno, ← hseq]
  · simp only [heq, Option.some.injEq, forall_eq', ExtentInode.mk.injEq, true_and]
    exact ⟨fun _ ⟨_, _, ni, hni, hno, _⟩ => hother ni hni hno, fun _ => hseq⟩

/--
Over a run of calls on a base inode, each call with a sequence number that returns an
inode returns that of its reference, and each record is attached once, if and only if no
reference is stale for a record attached by then.
-/
theorem extentInodeOpens_right_iff
    (v : MftMap)
    (s : BaseInode)
    (h : s.Once)
    (cs : List ExtentOpen) :
    OpensRight v s cs ↔ NeverStale v s cs := by
  induction cs generalizing s with
  | nil => exact Iff.rfl
  | cons c cs ih => exact and_congr (openRight_iff h) (ih _ h.extentInodeOpenRef)

/-- A reference with sequence number 1, and one with 2, to record 40 of inode 30. -/
def staleOpens : List ExtentOpen :=
  [⟨40, 1, some ⟨1, 30⟩, false⟩, ⟨40, 2, some ⟨2, 30⟩, false⟩]

/-- The stale reference is answered with the attached record. -/
theorem extentInodeOpen_returns_stale :
    (extentInodeOpenRef ⟨none, 10, 12⟩ ⟨30, [⟨40, 1⟩]⟩ ⟨40, 2, some ⟨2, 30⟩, false⟩).1 =
        some ⟨40, 1⟩ ∧
      ¬OpensRight ⟨none, 10, 12⟩ ⟨30, []⟩ staleOpens := by
  refine ⟨by decide, fun h => ?_⟩
  have hright := h.2.1.1 ⟨40, 1⟩ (by decide) (by decide)
  cases hright

/-- Opening an extent twice with its own sequence number is right. -/
theorem extentInodeOpens_right_twice :
    OpensRight ⟨none, 10, 12⟩ ⟨30, []⟩ [⟨40, 1, some ⟨1, 30⟩, false⟩, ⟨40, 1, none, false⟩] := by
  refine (extentInodeOpens_right_iff _ ⟨30, []⟩ List.nodup_nil _).mpr
    ⟨fun ⟨_, _, ni, hni, _⟩ => absurd hni List.not_mem_nil, ?_, trivial⟩
  rintro ⟨_, _, ni, hni, _, hstale⟩
  obtain rfl := List.mem_singleton.mp hni
  exact hstale rfl

end Runs

end NtfsPlus.Libntfs

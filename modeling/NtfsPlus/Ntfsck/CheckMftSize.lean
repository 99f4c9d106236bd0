import NtfsPlus.Libntfs.MftRecordCheck

/-!
# The sizes of `$MFT`

`ntfsck_check_mft_size` of `src/ntfsck.c` cuts `data_size` and `initialized_size` of
`$MFT/$DATA` down to the allocation, and grows them over the last record between their
reach and the end of the allocation that was ever written.

The cut sets `data_size` to the whole allocation also when only `initialized_size` lies
behind it.  Apart from that the sizes end as they should, and a second check finds
nothing (`checkMftSize_settles_iff`).
-/

namespace NtfsPlus.Ntfsck

open Libntfs

section Model

/-- What of `$MFT` does not change in the check. -/
structure MftData where
  allocatedSize : Int
  mftRecordSizeBits : Nat
  /-- A record as `ntfs_attr_mst_pread` gives it. -/
  record : Int → Option Bytes
  /-- `check_mftrec_in_use`. -/
  inUse : Int → Bool

/-- The size fields. -/
structure MftSizes where
  dataSize : Int
  initializedSize : Int
deriving DecidableEq

/-- The problems that are reported. -/
inductive SizeProblem where
  | exceedsAllocation
  | hidesRecords

/-- Which repairs are approved, and whether `ntfsck_set_mft_size` finds the attribute. -/
structure SizeAnswers where
  approved : SizeProblem → Bool
  opened : Bool

/-- `mft_record_size`. -/
def MftData.recordSize (v : MftData) : Int :=
  2 ^ v.mftRecordSizeBits

/-- The number of records in the allocation. -/
def MftData.recordCount (v : MftData) : Int :=
  v.allocatedSize / v.recordSize

/-- `max_size`. -/
def MftData.maxSize (v : MftData) : Int :=
  v.recordCount * v.recordSize

/-- A record is reachable only below both sizes. -/
def MftSizes.reach (s : MftSizes) : Int :=
  if s.dataSize < s.initializedSize then s.dataSize else s.initializedSize

/-- The test for a record that was written. -/
def writtenMftRecord (v : MftData) (rec : Int) : Bool :=
  match v.record rec with
  | none => false
  | some m =>
    decide (le32 m 0 = magicFile) && v.inUse rec && decide (le32 m 28 = v.recordSize) &&
      decide (le32 m 24 ≤ v.recordSize) && decide (0x30 ≤ le16 m 4) &&
      decide (le32 m 44 = rec)

/-- The loop over `n` records from `rec` on. -/
def lastWrittenFrom (v : MftData) : Nat → Int → Int → Int
  | 0, _, last => last
  | n + 1, rec, last => lastWrittenFrom v n (rec + 1) (if writtenMftRecord v rec then rec else last)

/-- `ntfsck_last_written_mft_record`. -/
def lastWrittenMftRecord (v : MftData) (reach : Int) : Int :=
  lastWrittenFrom v (v.recordCount - reach / v.recordSize).toNat (reach / v.recordSize) (-1)

/-- `ntfsck_set_mft_size`, if the repair is approved. -/
def setMftSize (ans : SizeAnswers) (p : SizeProblem) (new s : MftSizes) : MftSizes :=
  if ans.approved p && ans.opened then new else s

/-- The first half of the check: sizes behind the allocation. -/
def cutMftSizes (v : MftData) (ans : SizeAnswers) (s : MftSizes) : List SizeProblem × MftSizes :=
  if s.dataSize > v.maxSize ∨ s.initializedSize > v.maxSize then
    ([.exceedsAllocation], setMftSize ans .exceedsAllocation
      ⟨v.maxSize, if s.initializedSize > v.maxSize then v.maxSize else s.initializedSize⟩ s)
  else
    ([], s)

/-- The second half of the check: records behind the sizes. -/
def growMftSizes (v : MftData) (ans : SizeAnswers) (s : MftSizes) : List SizeProblem × MftSizes :=
  if s.reach ≥ v.maxSize then
    ([], s)
  else
    let last := lastWrittenMftRecord v s.reach
    let expected := (last + 1) * v.recordSize
    if last < 0 ∨ s.reach ≥ expected then
      ([], s)
    else
      ([.hidesRecords], setMftSize ans .hidesRecords
        ⟨if s.dataSize > expected then s.dataSize else expected, expected⟩ s)

/-- `ntfsck_check_mft_size`. -/
def checkMftSize (v : MftData) (ans : SizeAnswers) (s : MftSizes) : List SizeProblem × MftSizes :=
  let cut := cutMftSizes v ans s
  let grown := growMftSizes v ans cut.2
  (cut.1 ++ grown.1, grown.2)

end Model

section Settled

variable {v : MftData} {s : MftSizes} {rec last : Int} {n : Nat}

/-- Every repair is approved and can be made. -/
def allRepairs : SizeAnswers := ⟨fun _ => true, true⟩

theorem recordSize_pos
    (v : MftData) :
    0 < v.recordSize := by
  unfold MftData.recordSize
  positivity

/-- A written record that lies at the reach of the sizes or behind it. -/
def HiddenRecord (v : MftData) (s : MftSizes) (rec : Int) : Prop :=
  s.reach / v.recordSize ≤ rec ∧ rec < v.recordCount ∧ writtenMftRecord v rec = true

/-- What the check is to leave. -/
structure MftSizesSettled (v : MftData) (s : MftSizes) (r : List SizeProblem × MftSizes) :
    Prop where
  inside : r.2.dataSize ≤ v.maxSize ∧ r.2.initializedSize ≤ v.maxSize
  covers : ∀ rec, HiddenRecord v s rec →
    (rec + 1) * v.recordSize ≤ r.2.dataSize ∧ (rec + 1) * v.recordSize ≤ r.2.initializedSize
  dataRaised : s.dataSize < r.2.dataSize →
    ∃ rec, HiddenRecord v s rec ∧ r.2.dataSize ≤ (rec + 1) * v.recordSize
  initRaised : s.initializedSize < r.2.initializedSize →
    ∃ rec, HiddenRecord v s rec ∧ r.2.initializedSize ≤ (rec + 1) * v.recordSize
  again : checkMftSize v allRepairs r.2 = ([], r.2)

theorem writtenMftRecord_nonneg
    (h : writtenMftRecord v rec = true) :
    0 ≤ rec := by
  unfold writtenMftRecord at h
  split at h
  · cases h
  · rename_i m _
    have hnumber : (le32 m 44 : Int) = rec := by simpa using (Bool.and_eq_true_iff.mp h).2
    omega

/-- The scan stops with the last written record, if there is one. -/
theorem lastWrittenFrom_spec :
    (lastWrittenFrom v n rec last = last ∧
        ∀ r, rec ≤ r → r < rec + n → writtenMftRecord v r = false) ∨
      rec ≤ lastWrittenFrom v n rec last ∧ lastWrittenFrom v n rec last < rec + n ∧
        writtenMftRecord v (lastWrittenFrom v n rec last) = true ∧
        ∀ r, lastWrittenFrom v n rec last < r → r < rec + n → writtenMftRecord v r = false := by
  induction n generalizing rec last with
  | zero => exact Or.inl ⟨rfl, fun r _ _ => by omega⟩
  | succ n ih =>
    rw [lastWrittenFrom]
    rcases @ih (rec + 1) (if writtenMftRecord v rec then rec else last) with
      ⟨heq, hnone⟩ | ⟨hlo, hhi, hwritten, hnone⟩
    · rw [heq]
      split_ifs with hrec
      · exact Or.inr ⟨le_rfl, by omega, hrec, fun r _ _ => hnone r (by omega) (by omega)⟩
      · refine Or.inl ⟨rfl, fun r _ _ => ?_⟩
        by_cases hr : r = rec
        · rw [hr]
          simpa using hrec
        · exact hnone r (by omega) (by omega)
    · exact Or.inr ⟨by omega, by omega, hwritten, fun r _ _ => hnone r (by omega) (by omega)⟩

/-- Either nothing is hidden, or the scan finds the last hidden record. -/
theorem lastWrittenMftRecord_spec
    (v : MftData)
    (s : MftSizes) :
    lastWrittenMftRecord v s.reach = -1 ∧ (∀ rec, ¬HiddenRecord v s rec) ∨
      HiddenRecord v s (lastWrittenMftRecord v s.reach) ∧
        ∀ rec, HiddenRecord v s rec → rec ≤ lastWrittenMftRecord v s.reach := by
  have hspec := @lastWrittenFrom_spec v (s.reach / v.recordSize) (-1)
    (v.recordCount - s.reach / v.recordSize).toNat
  change lastWrittenMftRecord v s.reach = -1 ∧ _ ∨ _ ≤ lastWrittenMftRecord v s.reach ∧
    lastWrittenMftRecord v s.reach < _ ∧ writtenMftRecord v (lastWrittenMftRecord v s.reach) = _ ∧
    (∀ r, lastWrittenMftRecord v s.reach < r → _) at hspec
  rcases hspec with ⟨heq, hnone⟩ | ⟨hlo, hhi, hwritten, hnone⟩
  · refine Or.inl ⟨heq, fun rec ⟨hlo, hhi, hrec⟩ => ?_⟩
    rw [hnone rec hlo (by omega)] at hrec
    cases hrec
  · refine Or.inr ⟨⟨hlo, by omega, hwritten⟩, fun rec ⟨hlo', hhi', hrec⟩ => ?_⟩
    by_contra hlt
    rw [hnone rec (by omega) (by omega)] at hrec
    cases hrec

theorem growMftSizes_of_none
    (h : ∀ rec, ¬HiddenRecord v s rec) :
    growMftSizes v allRepairs s = ([], s) := by
  rcases lastWrittenMftRecord_spec v s with ⟨heq, _⟩ | ⟨hhidden, _⟩
  · unfold growMftSizes
    split_ifs <;> simp_all
  · exact absurd hhidden (h _)

/-- Sizes inside the allocation that hide nothing pass the check. -/
theorem checkMftSize_of_none
    (hdata : s.dataSize ≤ v.maxSize)
    (hinit : s.initializedSize ≤ v.maxSize)
    (h : ∀ rec, ¬HiddenRecord v s rec) :
    checkMftSize v allRepairs s = ([], s) := by
  unfold checkMftSize cutMftSizes
  rw [if_neg (by omega)]
  dsimp only
  rw [growMftSizes_of_none h]
  rfl

/-- The sizes cover every record that was written. -/
theorem growMftSizes_settled
    (hin : s.dataSize ≤ v.maxSize ∧ s.initializedSize ≤ v.maxSize) :
    MftSizesSettled v s (growMftSizes v allRepairs s) := by
  have hpos := recordSize_pos v
  rcases lastWrittenMftRecord_spec v s with ⟨_, hnone⟩ | ⟨hlast, hmax⟩
  · rw [growMftSizes_of_none hnone]
    exact ⟨hin, fun rec h => absurd h (hnone rec), fun h => absurd h (lt_irrefl _),
      fun h => absurd h (lt_irrefl _), checkMftSize_of_none hin.1 hin.2 hnone⟩
  · obtain ⟨hlo, hhi, hwritten⟩ := hlast
    have hnonneg := writtenMftRecord_nonneg hwritten
    generalize hx : lastWrittenMftRecord v s.reach = x at hlo hhi hwritten hmax hnonneg
    -- the record lies behind the reach and inside the allocation
    have hbehind : s.reach < (x + 1) * v.recordSize :=
      (Int.lt_ediv_add_one_mul_self _ hpos).trans_le
        (Int.mul_le_mul_of_nonneg_right (by omega) hpos.le)
    have hend : (x + 1) * v.recordSize ≤ v.maxSize :=
      Int.mul_le_mul_of_nonneg_right (by omega) hpos.le
    have hgrow : growMftSizes v allRepairs s = ([.hidesRecords],
        ⟨if s.dataSize > (x + 1) * v.recordSize then s.dataSize else (x + 1) * v.recordSize,
          (x + 1) * v.recordSize⟩) := by
      unfold growMftSizes
      rw [hx, if_neg (by omega), if_neg (by omega)]
      rfl
    rw [hgrow]
    generalize hexp : (x + 1) * v.recordSize = expected at hbehind hend
    have hdata : expected ≤ (if s.dataSize > expected then s.dataSize else expected) ∧
        (if s.dataSize > expected then s.dataSize else expected) ≤ v.maxSize := by
      split_ifs <;> omega
    refine ⟨⟨hdata.2, hend⟩, fun rec hrec => ?_, fun hup => ?_, fun _ => ?_, ?_⟩
    · have hle : (rec + 1) * v.recordSize ≤ expected := by
        rw [← hexp]
        exact Int.mul_le_mul_of_nonneg_right (by have := hmax rec hrec; omega) hpos.le
      exact ⟨hle.trans hdata.1, hle⟩
    · refine ⟨x, ⟨hlo, hhi, hwritten⟩, ?_⟩
      dsimp only at hup ⊢
      split_ifs at hup ⊢ <;> omega
    · exact ⟨x, ⟨hlo, hhi, hwritten⟩, hexp.ge⟩
    · refine checkMftSize_of_none hdata.2 hend ?_
      rintro rec ⟨hlo', hhi', hrec⟩
      have hreach : MftSizes.reach ⟨if s.dataSize > expected then s.dataSize else expected,
          expected⟩ = expected := by
        unfold MftSizes.reach
        dsimp only
        split_ifs <;> omega
      rw [hreach, ← hexp, Int.mul_ediv_cancel _ hpos.ne'] at hlo'
      have hrange : s.reach / v.recordSize ≤ rec := by omega
      have := hmax rec ⟨hrange, hhi', hrec⟩
      omega

theorem checkMftSize_of_exceeding
    (h : s.dataSize > v.maxSize ∨ s.initializedSize > v.maxSize) :
    checkMftSize v allRepairs s = (.exceedsAllocation :: (growMftSizes v allRepairs ⟨v.maxSize,
          if s.initializedSize > v.maxSize then v.maxSize else s.initializedSize⟩).1,
        (growMftSizes v allRepairs ⟨v.maxSize,
          if s.initializedSize > v.maxSize then v.maxSize else s.initializedSize⟩).2) := by
  unfold checkMftSize cutMftSizes
  rw [if_pos h]
  rfl

/--
With all repairs made, the check leaves the sizes inside the allocation and over every
hidden record, raises none past the last of them, and finds nothing the second time, if
and only if it is not the case that `initialized_size` alone lies behind the allocation,
`data_size` below its end, and the last record of the allocation is not a written one.
-/
theorem checkMftSize_settles_iff
    (v : MftData)
    (s : MftSizes) :
    MftSizesSettled v s (checkMftSize v allRepairs s) ↔
      (s.dataSize < v.maxSize → v.maxSize < s.initializedSize →
        writtenMftRecord v (v.recordCount - 1) = true) := by
  have hpos := recordSize_pos v
  by_cases hcut : s.dataSize > v.maxSize ∨ s.initializedSize > v.maxSize
  · by_cases hinit : s.initializedSize > v.maxSize
    · have hnone : ∀ rec, ¬HiddenRecord v ⟨v.maxSize, v.maxSize⟩ rec := by
        rintro rec ⟨hlo, hhi, _⟩
        rw [show MftSizes.reach ⟨v.maxSize, v.maxSize⟩ = v.recordCount * v.recordSize from if_neg
          (lt_irrefl _), Int.mul_ediv_cancel _ hpos.ne'] at hlo
        omega
      rw [checkMftSize_of_exceeding hcut, if_pos hinit, growMftSizes_of_none hnone]
      constructor
      · intro h hlt _
        obtain ⟨rec, ⟨_, hhi, hrec⟩, hle⟩ := h.dataRaised hlt
        have hlast : v.recordCount ≤ rec + 1 := le_of_mul_le_mul_right hle hpos
        rwa [show v.recordCount - 1 = rec by omega]
      · intro h
        refine ⟨⟨le_rfl, le_rfl⟩, ?_, fun hlt => ?_, fun hlt => ?_,
          checkMftSize_of_none le_rfl le_rfl hnone⟩
        · rintro rec ⟨_, hhi, _⟩
          have hle : (rec + 1) * v.recordSize ≤ v.maxSize :=
            Int.mul_le_mul_of_nonneg_right (by omega) hpos.le
          exact ⟨hle, hle⟩
        · refine ⟨v.recordCount - 1, ⟨?_, by omega, h hlt hinit⟩, by rw [sub_add_cancel]; rfl⟩
          have hreach : s.reach = s.dataSize := if_pos (hlt.trans hinit)
          have hlt' := Int.ediv_lt_of_lt_mul hpos hlt
          rw [hreach]
          omega
        · dsimp only at hlt
          omega
    · have hreach : MftSizes.reach ⟨v.maxSize, s.initializedSize⟩ = s.reach := by
        unfold MftSizes.reach
        rw [if_neg hinit, if_neg (by omega)]
      have hgrown := @growMftSizes_settled v ⟨v.maxSize, s.initializedSize⟩
        ⟨le_rfl, not_lt.mp hinit⟩
      have hhidden : ∀ rec, HiddenRecord v ⟨v.maxSize, s.initializedSize⟩ rec ↔
          HiddenRecord v s rec := fun rec => by rw [HiddenRecord, HiddenRecord, hreach]
      rw [checkMftSize_of_exceeding hcut, if_neg hinit]
      refine ⟨fun _ hlt => by omega, fun _ => ⟨hgrown.inside, fun rec hrec => ?_, fun hlt => ?_,
        fun hlt => ?_, hgrown.again⟩⟩
      · exact hgrown.covers rec ((hhidden rec).mpr hrec)
      · have := hgrown.inside.1
        dsimp only at hlt
        omega
      · obtain ⟨rec, hrec, hle⟩ := hgrown.initRaised hlt
        exact ⟨rec, (hhidden rec).mp hrec, hle⟩
  · have hin : s.dataSize ≤ v.maxSize ∧ s.initializedSize ≤ v.maxSize := by omega
    have hsame : checkMftSize v allRepairs s = growMftSizes v allRepairs s := by
      unfold checkMftSize cutMftSizes
      rw [if_neg hcut]
      rfl
    rw [hsame]
    exact ⟨fun _ _ hlt => by omega, fun _ => growMftSizes_settled hin⟩

/-- Four records of 1 KiB, none of them written. -/
def emptyMft : MftData := ⟨4096, 10, fun _ => none, fun _ => false⟩

/-- With `data_size` at one record and `initialized_size` behind the allocation,
`data_size` is raised over three records nobody wrote. -/
theorem checkMftSize_raises_dataSize :
    (checkMftSize emptyMft allRepairs ⟨1024, 5000⟩).2 = ⟨4096, 4096⟩ ∧
      ¬MftSizesSettled emptyMft ⟨1024, 5000⟩ (checkMftSize emptyMft allRepairs ⟨1024, 5000⟩) := by
  refine ⟨by decide, fun h => ?_⟩
  obtain ⟨rec, ⟨_, _, hrec⟩, _⟩ := h.dataRaised (by decide)
  cases hrec

end Settled

end NtfsPlus.Ntfsck

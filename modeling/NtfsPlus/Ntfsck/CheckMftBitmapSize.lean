import NtfsPlus.Lib.BitField
import NtfsPlus.Libntfs.MftRecordCheck

/-!
# A bitmap that is too short for `$MFT`

`ntfsck_check_mft_bitmap_size` of `src/ntfsck.c` grows `$MFT/$BITMAP` to the number of
records and sets the bits of the new part from the headers of the records.

Records are looked at only if they lie wholly below `initialized_size`, and a header that
cannot be read leaves the bitmap as it is.  With these provisos the new bitmap covers all
records, keeps its old bits and tells which of the other records are in use
(`checkMftBitmapSize_covers`).
-/

namespace NtfsPlus.Ntfsck

open Libntfs

section Model

/-- What the check reads of `$MFT`. -/
structure MftHeaders where
  dataSize : Nat
  initializedSize : Nat
  mftRecordSizeBits : Nat
  /-- The header of a record as `ntfs_attr_pread` gives it. -/
  header : Nat → Option Bytes

/-- `$MFT/$BITMAP`. -/
structure MftBitmap where
  bytes : Bytes
  size : Nat

/-- The number of records. -/
def MftHeaders.nrRecs (v : MftHeaders) : Nat :=
  v.dataSize / 2 ^ v.mftRecordSizeBits

/-- Where the records end that were ever written. -/
def MftHeaders.writtenEnd (v : MftHeaders) : Nat :=
  min (v.initializedSize / 2 ^ v.mftRecordSizeBits) v.nrRecs

/-- A record with a sound or a `BAAD` header that is marked as in use. -/
def headerInUse (m : Bytes) : Bool :=
  (decide (le32 m 0 = magicFile) || decide (le32 m 0 = magicBaad)) && (le16 m 22).testBit 0

/-- The loop over `n` records from `rec` on. -/
def fillTail (v : MftHeaders) (covered : Nat) : Nat → Nat → Bytes → Option Bytes
  | 0, _, tail => some tail
  | n + 1, rec, tail =>
    match v.header rec with
    | none => none
    | some m =>
      fillTail v covered n (rec + 1) (if headerInUse m then bitSet tail (rec - covered) 1 else tail)

/-- `ntfsck_check_mft_bitmap_size`, with the answers for the repair and for the write. -/
def checkMftBitmapSize (v : MftHeaders) (approved written : Bool) (bm : MftBitmap) : MftBitmap :=
  let expected := (v.nrRecs + 7) / 8
  if bm.size ≥ expected then
    bm
  else if !approved then
    bm
  else
    let aligned := (expected + 7) / 8 * 8
    let covered := bm.size * 8
    match fillTail v covered (v.writtenEnd - covered) covered (fun _ => 0) with
    | none => bm
    | some tail =>
      if !written then
        bm
      else
        ⟨fun j => if bm.size ≤ j ∧ j < aligned then tail (j - bm.size) else bm.bytes j, aligned⟩

end Model

section Tail

variable {v : MftHeaders} {covered n rec : Nat} {tail tail' : Bytes}

/-- The header of a record says that it is in use. -/
def MftHeaders.inUse (v : MftHeaders) (rec : Nat) : Bool :=
  (v.header rec).any headerInUse

theorem fillTail_isSome
    (covered : Nat)
    (h : ∀ r, rec ≤ r → r < rec + n → (v.header r).isSome)
    (tail : Bytes) :
    ∃ tail', fillTail v covered n rec tail = some tail' := by
  induction n generalizing rec tail with
  | zero => exact ⟨tail, rfl⟩
  | succ n ih =>
    obtain ⟨m, hm⟩ := Option.isSome_iff_exists.mp (h rec le_rfl (by omega))
    rw [fillTail, hm]
    exact ih (fun r hlo hhi => h r (by omega) (by omega)) _

theorem fillTail_bit
    (h : fillTail v covered n rec tail = some tail')
    (hrec : covered ≤ rec)
    (k : Nat) :
    bitAt tail' k =
      if rec ≤ covered + k ∧ covered + k < rec + n ∧ v.inUse (covered + k) then true
      else bitAt tail k := by
  induction n generalizing rec tail with
  | zero =>
    rw [fillTail, Option.some.injEq] at h
    rw [if_neg (by omega), h]
  | succ n ih =>
    rw [fillTail] at h
    cases hm : v.header rec with
    | none =>
      rw [hm] at h
      cases h
    | some m =>
      rw [hm] at h
      have hbit : bitAt (if headerInUse m then bitSet tail (rec - covered) 1 else tail) k =
          if covered + k = rec ∧ v.inUse rec then true else bitAt tail k := by
        rw [MftHeaders.inUse, hm, Option.any_some]
        cases headerInUse m with
        | false => simp
        | true =>
          rw [if_pos rfl, show (1 : UInt8) = true.toUInt8 from rfl, bitAt_bitSet]
          simp [show k = rec - covered ↔ covered + k = rec by omega]
      rw [ih h (by omega), hbit]
      by_cases hk : covered + k = rec
      · rw [hk]
        simp
      · simp only [hk, false_and, if_false]
        simp only [show rec + 1 ≤ covered + k ↔ rec ≤ covered + k by omega,
          show covered + k < rec + 1 + n ↔ covered + k < rec + (n + 1) by omega]

end Tail

section Result

/--
Once the repair is made, the bitmap covers all records, its old bits are unchanged, and the
bit of a new record is set exactly when the record lies wholly below `initialized_size` and
its header says in use.
-/
theorem checkMftBitmapSize_covers
    (v : MftHeaders)
    (bm : MftBitmap)
    (hread : ∀ r, 8 * bm.size ≤ r → r < v.writtenEnd → (v.header r).isSome) :
    v.nrRecs ≤ 8 * (checkMftBitmapSize v true true bm).size ∧
      (∀ k < 8 * bm.size, bitAt (checkMftBitmapSize v true true bm).bytes k = bitAt bm.bytes k) ∧
      ∀ r, 8 * bm.size ≤ r → r < v.nrRecs → bitAt (checkMftBitmapSize v true true bm).bytes r =
          (decide (r < v.writtenEnd) && v.inUse r) := by
  unfold checkMftBitmapSize
  dsimp only
  by_cases hsize : bm.size ≥ (v.nrRecs + 7) / 8
  · rw [if_pos hsize]
    exact ⟨by omega, fun _ _ => rfl, fun r hlo hhi => by omega⟩
  have hheaders : ∀ r, bm.size * 8 ≤ r → r < bm.size * 8 + (v.writtenEnd - bm.size * 8) →
      (v.header r).isSome :=
    fun r hlo hhi => hread r (by omega) (by omega)
  obtain ⟨tail, htail⟩ := fillTail_isSome (bm.size * 8) hheaders (fun _ => 0)
  rw [if_neg hsize, htail]
  simp only [Bool.not_true, Bool.false_eq_true, if_false]
  refine ⟨by omega, fun k hk => ?_, fun r hlo hhi => ?_⟩
  · rw [bitAt, bitAt, if_neg (by omega)]
  · have hbit := fillTail_bit htail le_rfl (r - bm.size * 8)
    have hzero : bitAt (fun _ => 0) (r - bm.size * 8) = false := Nat.zero_testBit _
    rw [hzero, show bm.size * 8 + (r - bm.size * 8) = r by omega] at hbit
    rw [bitAt, if_pos (by omega), show r / 8 - bm.size = (r - bm.size * 8) / 8 by omega,
      show r % 8 = (r - bm.size * 8) % 8 by omega, ← bitAt, hbit]
    simp only [show r < bm.size * 8 + (v.writtenEnd - bm.size * 8) ↔ r < v.writtenEnd by omega,
      show bm.size * 8 ≤ r by omega]
    cases v.inUse r <;> simp

/-- Nine records in use, the last of them with `initializedSize` bytes of `$MFT` written. -/
def nineRecords (initializedSize : Nat) : MftHeaders where
  dataSize := 9 * 1024
  initializedSize := initializedSize
  mftRecordSizeBits := 10
  header := fun _ => some (patches (fun _ => 0) 0 [(0, leBytes 4 magicFile), (22, leBytes 2 1)])

/-- A bitmap of one byte becomes one of eight, and record 8 is marked. -/
theorem checkMftBitmapSize_covers_nine :
    9 ≤ 8 * (checkMftBitmapSize (nineRecords 9216) true true ⟨fun _ => 0xff, 1⟩).size ∧
      bitAt (checkMftBitmapSize (nineRecords 9216) true true
        ⟨fun _ => 0xff, 1⟩).bytes 8 = true := by
  obtain ⟨hsize, -, hbits⟩ := checkMftBitmapSize_covers (nineRecords 9216) ⟨fun _ => 0xff, 1⟩
    (fun _ _ _ => rfl)
  exact ⟨hsize, (hbits 8 (by decide) (by decide)).trans (by decide)⟩

/-- Only half of record 8 was written; its header says in use, its bit is not set. -/
theorem checkMftBitmapSize_half_written :
    (nineRecords 8704).inUse 8 = true ∧ 8 < (nineRecords 8704).nrRecs ∧
      bitAt (checkMftBitmapSize (nineRecords 8704) true true
        ⟨fun _ => 0xff, 1⟩).bytes 8 = false := by
  decide

end Result

end NtfsPlus.Ntfsck

import NtfsPlus.Libntfs.FsckLcnBitmapRefinement

/-!
# The padding of the last block

When `ntfs_fsck_find_lcnbmp_block` returns the last block of the cluster bitmap it has
`ntfs_fsck_fill_unused_lcnbmp` set the bits behind the last cluster.  The position of
the first of them is taken relative to the block.  It lies behind the block if the
volume ends where the block ends, and also if the number of the block does not fit into
32 bits; then the fill writes a byte that is not the block's (`findLcnbmpBlock_pads_iff`).
-/

namespace NtfsPlus.Libntfs

section Padding

/-- The block of the last cluster. -/
def FsckVolume.lastBlock (vol : FsckVolume) : Nat :=
  fbRoundDown ((vol.nrClusters - 1) / 8)

/-- The bytes behind a pointer of the block array. -/
def LcnbmpSlot.bytes : LcnbmpSlot → Bytes
  | .absent => fun _ => 0
  | .ones => fun _ => 0xff
  | .literal buf => buf

/-- Of block `idx` exactly the bits at and after `nrClusters` are set, and only bytes of
the block are written. -/
structure PadsExactly (nrClusters idx : Nat) (buf bm : Bytes) : Prop where
  bits : ∀ i < fbBlockBits,
    bitAt bm i = (bitAt buf i || decide (nrClusters ≤ idx * fbBlockBits + i))
  inside : ∀ j, ntfsBufSize ≤ j → bm j = buf j

theorem fillUnusedLcnbmp_inside
    {vol : FsckVolume} {idx : Nat}
    (bm : Bytes)
    (hfirst : vol.nrClusters - idx * fbBlockBits < fbBlockBits)
    {j : Nat}
    (hj : ntfsBufSize ≤ j) :
    fillUnusedLcnbmp vol idx bm j = bm j := by
  have hoff : vol.nrClusters - idx * ntfsBufSize * 8 < fbBlockBits := by
    rwa [Nat.mul_assoc]
  rw [fillUnusedLcnbmp]
  generalize vol.nrClusters - idx * ntfsBufSize * 8 = off at hoff
  have hbyte : off / 8 < ntfsBufSize := by
    simp only [fbBlockBits, ntfsBufSize] at hoff ⊢
    omega
  rw [setByte_of_ne _ _ (by omega)]
  split_ifs
  · exact if_neg (by omega)
  · rfl

variable (vol : FsckVolume)

/-- With the first padding bit behind the block, a byte behind it is written. -/
theorem fillUnusedLcnbmp_outside
    {idx : Nat}
    (hfirst : fbBlockBits ≤ vol.nrClusters - idx * fbBlockBits) :
    ∃ j, ntfsBufSize ≤ j ∧ fillUnusedLcnbmp vol idx (fun _ => 0) j ≠ 0 := by
  have hoff : fbBlockBits ≤ vol.nrClusters - idx * ntfsBufSize * 8 := by
    rwa [Nat.mul_assoc]
  rw [fillUnusedLcnbmp]
  generalize vol.nrClusters - idx * ntfsBufSize * 8 = off at hoff
  simp only [fbBlockBits] at hoff
  refine ⟨off / 8, by simp only [ntfsBufSize]; omega, ?_⟩
  rw [setByte_same, if_neg (by simp only [ntfsBufSize]; omega)]
  intro hzero
  -- the highest bit of the byte is always among those that are set
  have hbit := @testBit_ff_shiftLeft (off - off / 8 * 8) 7 (by decide)
  rw [show ∀ a : UInt8, 0 ||| a = a from fun a => by simp] at hzero
  rw [hzero, decide_eq_true (by omega)] at hbit
  cases hbit

/-- What is returned for a position in the last block that is not all ones. -/
theorem findLcnbmpBlock_last
    {pos : Nat}
    (hpos : fbRoundDown pos = vol.lastBlock)
    (hslot : vol.lcnBitmap (vol.lastBlock % 2 ^ 32) ≠ .ones) :
    (findLcnbmpBlock vol pos).2 = fillUnusedLcnbmp vol (vol.lastBlock % 2 ^ 32)
      (vol.lcnBitmap (vol.lastBlock % 2 ^ 32)).bytes := by
  have hlast : fbRoundDown ((vol.nrClusters - 1) / 8) % 2 ^ 32 = vol.lastBlock % 2 ^ 32 := rfl
  have hmax : ¬ vol.lastBlock % 2 ^ 32 ≥ vol.maxFlbCnt := by
    rw [FsckVolume.maxFlbCnt]
    omega
  rw [findLcnbmpBlock]
  rw [hlast, hpos, if_neg hmax]
  cases hcase : vol.lcnBitmap (vol.lastBlock % 2 ^ 32) with
  | absent =>
    dsimp only
    rw [if_pos rfl, LcnbmpSlot.bytes]
  | ones => exact absurd hcase hslot
  | literal buf =>
    dsimp only
    rw [if_pos rfl, LcnbmpSlot.bytes]

theorem lastBlock_offset :
    vol.nrClusters - vol.lastBlock % 2 ^ 32 * fbBlockBits < fbBlockBits ↔
      vol.nrClusters % fbBlockBits ≠ 0 ∧ vol.nrClusters ≤ 2 ^ 48 := by
  have hpos := vol.nrClusters_pos
  rw [FsckVolume.lastBlock, fbRoundDown_cluster]
  simp only [fbBlockBits]
  omega

/--
For every volume: whatever the blocks hold, the last one is returned with exactly the
bits at and after `nr_clusters` set and nothing else written, if and only if the volume
does not end where a block ends, and has at most 2^48 clusters.
-/
theorem findLcnbmpBlock_pads_iff
    (vol : FsckVolume) :
    (∀ blocks pos, fbRoundDown pos = vol.lastBlock → blocks (vol.lastBlock % 2 ^ 32) ≠ .ones →
      PadsExactly vol.nrClusters vol.lastBlock (blocks (vol.lastBlock % 2 ^ 32)).bytes
        (findLcnbmpBlock { vol with lcnBitmap := blocks } pos).2) ↔
    vol.nrClusters % fbBlockBits ≠ 0 ∧ vol.nrClusters ≤ 2 ^ 48 := by
  rw [← lastBlock_offset]
  constructor
  · intro hall
    by_contra hfar
    have hpos : fbRoundDown (vol.lastBlock * ntfsBufSize) = vol.lastBlock :=
      Nat.mul_div_cancel _ (by decide)
    have hpads := hall (fun _ => .absent) _ hpos (by simp)
    rw [findLcnbmpBlock_last { vol with lcnBitmap := fun _ => .absent } hpos (by simp)] at hpads
    obtain ⟨j, hj, hwritten⟩ := fillUnusedLcnbmp_outside
      { vol with lcnBitmap := fun _ => .absent } (Nat.le_of_not_lt hfar)
    exact hwritten (hpads.inside j hj)
  · intro hnear blocks pos hpos hslot
    rw [findLcnbmpBlock_last { vol with lcnBitmap := blocks } hpos hslot]
    constructor
    · intro i hi
      have hwidth : vol.lastBlock % 2 ^ 32 = vol.lastBlock := by
        have hle := ((lastBlock_offset vol).mp hnear).2
        rw [FsckVolume.lastBlock, fbRoundDown_cluster]
        simp only [fbBlockBits]
        omega
      rw [show ({ vol with lcnBitmap := blocks } : FsckVolume).lastBlock = vol.lastBlock from rfl,
        hwidth]
      exact bitAt_fillUnusedLcnbmp _ _ hi
    · intro j hj
      exact fillUnusedLcnbmp_inside _ hnear hj

/-- A volume of exactly one block: the fill writes the byte behind the block. -/
theorem findLcnbmpBlock_full_block :
    let vol := fsckMount 65536 12 (by decide)
    (findLcnbmpBlock { vol with lcnBitmap := fun _ => .literal fun _ => 0 } 0).2 8192 = 0xff := by
  decide +kernel

end Padding

end NtfsPlus.Libntfs

import NtfsPlus.Libntfs.FsckLcnBitmapSpec
import NtfsPlus.Libntfs.ClusterAllocSpec

/-!
# The occupancy oracle

`vol->fsck_alloc_bitmap` of `libntfs/fsck.c` is a second block array.  Pass 1 marks in it
every cluster that a valid inode references, and `ntfs_fsck_or_alloc_lcnbmp` adds these
marks to a window of the cluster bitmap before `ntfs_cluster_alloc` searches it.  The
reading side is in `ClusterAlloc`; here are the marks, and what a window shows of them.

The blocks have the representation of the shadow bitmap and
`ntfs_fsck_alloc_materialize` and `ntfs_fsck_alloc_try_collapse` are
`ntfs_fsck_lcnbmp_materialize` and `ntfs_fsck_lcnbmp_try_collapse` on the other array.
So the oracle is a `FsckVolume` here, one that ends where its last block ends: the
oracle counts every bit of a block, and a mark is not cut at the last cluster.
A mark with a block outside the array has no result.
-/

namespace NtfsPlus.Libntfs

section Model

/-- The oracle that `ntfs_fsck_mount` sets up: `max_flb_cnt` blocks without a mark. -/
def allocMount (vol : FsckVolume) : FsckVolume :=
  fsckMount (vol.maxFlbCnt * fbBlockBits) vol.clusterSizeBits
    (Nat.mul_pos (Nat.succ_pos _) (by decide))

/-- The body of the loop of `ntfs_fsck_set_alloc_lcnbmp_range`. -/
def setAllocBlock (idx relSlcn relLength : Nat) (oracle : FsckVolume) : FsckVolume :=
  match oracle.lcnBitmap idx with
  | .ones => oracle
  | cur =>
    if cur.isAbsent ∧ relSlcn = 0 ∧ relLength = fbBlockBits then
      oracle.setSlot idx .ones
    else
      lcnbmpTryCollapse
        (markBlock (fun _ d => d) 1 idx relSlcn relLength (oracle, ())).1 idx

/-- `ntfs_fsck_set_alloc_lcnbmp_range`. -/
def setAllocLcnbmpRange (oracle : FsckVolume) (lcn length : Int) :
    Option (Except Errno FsckVolume) :=
  if length ≤ 0 then
    some (.error .einval)
  else if lcn < 0 ∨ oracle.nrClusters < lcn + length then
    none
  else
    some (.ok (overRange (fun _ => setAllocBlock) lcn.toNat length.toNat oracle))

/-- A sequence of marks; a mark without length fails and changes nothing. -/
def setAllocRanges : List (Int × Int) → FsckVolume → Option FsckVolume
  | [], oracle => some oracle
  | (lcn, length) :: marks, oracle =>
    match setAllocLcnbmpRange oracle lcn length with
    | none => none
    | some (.error _) => setAllocRanges marks oracle
    | some (.ok oracle') => setAllocRanges marks oracle'

/-- The block array as `ntfs_fsck_or_alloc_lcnbmp` reads it. -/
def FsckVolume.asOracle (oracle vol : FsckVolume) : FsckAlloc :=
  ⟨vol, oracle.lcnBitmap, oracle.maxFlbCnt⟩

end Model

section Marking

variable {oracle : FsckVolume}

theorem setAllocBlock_spec
    (h : LcnbmpValid oracle)
    {idx relSlcn relLength : Nat}
    (hbits : relSlcn + relLength ≤ fbBlockBits)
    (hin : idx * fbBlockBits + relSlcn + relLength ≤ oracle.nrClusters) :
    Marks oracle (setAllocBlock idx relSlcn relLength oracle) true
      (idx * fbBlockBits + relSlcn) (idx * fbBlockBits + relSlcn + relLength) := by
  have hmark := (markBlock_spec (fun _ d => d) true h hbits hin ()).1.tryCollapse idx
  rw [setAllocBlock.eq_def]
  cases hslot : oracle.lcnBitmap idx with
  | ones =>
    refine ⟨h, rfl, fun c => ?_⟩
    by_cases hc : idx * fbBlockBits + relSlcn ≤ c ∧ c < idx * fbBlockBits + relSlcn + relLength
    · have hidx : c / fbBlockBits = idx := by
        simp only [fbBlockBits] at *
        omega
      rw [if_pos hc, FsckVolume.isSet, hidx, hslot, LcnbmpSlot.bit]
    · rw [if_neg hc]
  | absent =>
    dsimp only
    split_ifs with hfull
    · obtain ⟨-, rfl, rfl⟩ := hfull
      rw [Nat.add_zero] at hin ⊢
      exact marks_ones h hin
    · exact hmark
  | literal buf =>
    dsimp only
    exact hmark

theorem setAllocLcnbmpRange_spec
    (h : LcnbmpValid oracle)
    {lcn length : Int}
    (hlcn : 0 ≤ lcn)
    (hlen : 0 < length)
    (hin : lcn + length ≤ oracle.nrClusters) :
    ∃ oracle', setAllocLcnbmpRange oracle lcn length = some (.ok oracle') ∧
      Marks oracle oracle' true lcn.toNat (lcn.toNat + length.toNat) := by
  refine ⟨_, by rw [setAllocLcnbmpRange, if_neg (by omega), if_neg (by omega)], ?_⟩
  apply overRange_invariant _ (by omega) (fun k v => Marks oracle v true lcn.toNat (lcn.toNat + k))
  · intro k idx rel len v hv hcl hpos hbits hk
    have hin' : idx * fbBlockBits + rel + len ≤ v.nrClusters := by
      rw [hv.nrClusters]
      omega
    have hnext := setAllocBlock_spec hv.valid hbits hin'
    rw [hcl, Nat.add_assoc] at hnext
    exact hv.trans hnext (by omega) (by omega)
  · exact Marks.refl h true lcn.toNat

/-- The clusters of a sequence of marks. -/
def Marked (marks : List (Int × Int)) (c : Nat) : Prop :=
  ∃ m ∈ marks, m.1 ≤ c ∧ c < m.1 + m.2

instance (marks : List (Int × Int)) (c : Nat) : Decidable (Marked marks c) :=
  List.decidableBEx _ marks

/-- Every mark lies in the first `capacity` clusters. -/
def MarksWithin (marks : List (Int × Int)) (capacity : Nat) : Prop :=
  ∀ m ∈ marks, 0 < m.2 → 0 ≤ m.1 ∧ m.1 + m.2 ≤ capacity

theorem setAllocRanges_spec
    {marks : List (Int × Int)}
    (h : LcnbmpValid oracle)
    (hin : MarksWithin marks oracle.nrClusters) :
    ∃ oracle', setAllocRanges marks oracle = some oracle' ∧
      LcnbmpValid oracle' ∧ oracle'.nrClusters = oracle.nrClusters ∧
      ∀ c, oracle'.isSet c = (oracle.isSet c || decide (Marked marks c)) := by
  induction marks generalizing oracle with
  | nil =>
    refine ⟨oracle, rfl, h, rfl, fun c => ?_⟩
    simp [Marked]
  | cons m marks ih =>
    obtain ⟨lcn, length⟩ := m
    have htail : MarksWithin marks oracle.nrClusters :=
      fun m hm => hin m (List.mem_cons_of_mem _ hm)
    by_cases hlen : 0 < length
    · obtain ⟨hlcn, hend⟩ := hin (lcn, length) List.mem_cons_self hlen
      obtain ⟨next, hnext, hmarks⟩ := setAllocLcnbmpRange_spec h hlcn hlen hend
      obtain ⟨last, hlast, hvalid, hnr, hset⟩ :=
        ih hmarks.valid (by rwa [hmarks.nrClusters])
      refine ⟨last, ?_, hvalid, hnr.trans hmarks.nrClusters, fun c => ?_⟩
      · rw [setAllocRanges, hnext]
        exact hlast
      · rw [hset, hmarks.isSet]
        have hiff : (lcn.toNat ≤ c ∧ c < lcn.toNat + length.toNat) ↔
            lcn ≤ c ∧ (c : Int) < lcn + length := by omega
        simp only [Marked, List.exists_mem_cons_iff, hiff]
        by_cases hc : lcn ≤ c ∧ (c : Int) < lcn + length
        · simp [hc]
        · simp [hc]
    · obtain ⟨last, hlast, hvalid, hnr, hset⟩ := ih h htail
      refine ⟨last, ?_, hvalid, hnr, fun c => ?_⟩
      · rw [setAllocRanges, setAllocLcnbmpRange, if_pos (by omega)]
        exact hlast
      · have hempty : ¬ (lcn ≤ c ∧ (c : Int) < lcn + length) := by omega
        rw [hset]
        simp only [Marked, List.exists_mem_cons_iff, hempty, false_or]

end Marking

section Window

/-- A bit of the oracle as a window shows it: the block number has 32 bits. -/
theorem bitAt_asOracle
    {oracle : FsckVolume}
    (vol : FsckVolume)
    (hbeyond : ∀ c, oracle.nrClusters ≤ c → oracle.isSet c = false)
    (n : Nat) :
    bitAt (oracleByte (some (oracle.asOracle vol))) n = oracle.isSet (n % 2 ^ 48) := by
  have hidx : fbRoundDown (n / 8) % 2 ^ 32 = n % 2 ^ 48 / fbBlockBits := by
    simp only [fbRoundDown, ntfsBufSize, fbBlockBits]
    omega
  have hbyte : n / 8 % ntfsBufSize = n % 2 ^ 48 % fbBlockBits / 8 := by
    simp only [ntfsBufSize, fbBlockBits]
    omega
  have hbit : n % 8 = n % 2 ^ 48 % fbBlockBits % 8 := by
    simp only [fbBlockBits]
    omega
  rw [bitAt, oracleByte, hbyte, hbit, findAllocLcnbmpBlock, hidx, FsckVolume.asOracle]
  generalize n % 2 ^ 48 = c
  split_ifs with hmax
  · rw [hbeyond c]
    · simp
    · rw [FsckVolume.maxFlbCnt, fbRoundDown_cluster] at hmax
      simp only [fbBlockBits] at *
      omega
  · rw [FsckVolume.isSet]
    dsimp only
    cases oracle.lcnBitmap (c / fbBlockBits) with
    | absent => simp [LcnbmpSlot.bit]
    | ones => exact bitAt_ones (c % fbBlockBits)
    | literal buf => rfl

theorem bitAt_orAllocLcnbmp
    (f : FsckAlloc)
    (bytePos nbytes : Nat)
    (dst : Bytes)
    {i : Nat}
    (hi : i < nbytes * 8) :
    bitAt (orAllocLcnbmp f bytePos nbytes dst) i =
      (bitAt dst i || bitAt (oracleByte (some f)) (bytePos * 8 + i)) := by
  have hdiv : (bytePos * 8 + i) / 8 = bytePos + i / 8 := by omega
  have hmod : (bytePos * 8 + i) % 8 = i % 8 := by omega
  rw [bitAt, orAllocLcnbmp, orAllocLcnbmpFrom_apply f bytePos nbytes (by omega),
    if_pos (by omega), UInt8.toNat_or, Nat.testBit_or, bitAt, bitAt, hdiv, hmod]

/--
After any sequence of marks inside the blocks of the oracle, every window of the cluster
bitmap becomes the OR of its old bits and the marks, and no other byte changes.  Only the
lower 48 bits of a cluster number take part in the look-up.
-/
theorem orAllocLcnbmp_marks
    (vol : FsckVolume)
    (marks : List (Int × Int))
    (hmarks : MarksWithin marks (vol.maxFlbCnt * fbBlockBits)) :
    ∃ oracle, setAllocRanges marks (allocMount vol) = some oracle ∧ ∀ bytePos nbytes dst,
        (∀ i < nbytes * 8, bitAt (orAllocLcnbmp (oracle.asOracle vol) bytePos nbytes dst) i =
          (bitAt dst i || decide (Marked marks ((bytePos * 8 + i) % 2 ^ 48)))) ∧
        ∀ j, nbytes ≤ j → orAllocLcnbmp (oracle.asOracle vol) bytePos nbytes dst j = dst j := by
  obtain ⟨oracle, hrun, -, hnr, hset⟩ := setAllocRanges_spec
    (fsckMount_valid (vol.maxFlbCnt * fbBlockBits) vol.clusterSizeBits
      (Nat.mul_pos (Nat.succ_pos _) (by decide))) hmarks
  have hset' : ∀ c, oracle.isSet c = decide (Marked marks c) := by
    intro c
    rw [hset, isSet_fsckMount, Bool.false_or]
  have hbeyond : ∀ c, oracle.nrClusters ≤ c → oracle.isSet c = false := by
    intro c hc
    rw [hset', decide_eq_false_iff_not]
    rintro ⟨m, hm, hlo, hhi⟩
    have hend := (hmarks m hm (by omega)).2
    rw [hnr] at hc
    have hcap : vol.maxFlbCnt * fbBlockBits ≤ c := hc
    omega
  refine ⟨oracle, hrun, fun bytePos nbytes dst => ⟨?_, ?_⟩⟩
  · intro i hi
    rw [bitAt_orAllocLcnbmp _ _ _ _ hi, bitAt_asOracle vol hbeyond, hset']
  · intro j hj
    rw [orAllocLcnbmp, orAllocLcnbmpFrom_apply _ _ _ (by omega), if_neg (by omega)]

/-- Two overlapping marks over the border of two blocks, and a window that begins before it. -/
theorem orAllocLcnbmp_marks_border :
    let vol := fsckMount 70000 12 (by decide)
    let marks : List (Int × Int) := [(65530, 10), (65535, 20), (7, 0)]
    MarksWithin marks (vol.maxFlbCnt * fbBlockBits) ∧
    ∃ oracle, setAllocRanges marks (allocMount vol) = some oracle ∧
      ∀ dst, bitAt (orAllocLcnbmp (oracle.asOracle vol) 8190 4 dst) 20 = true := by
  have hin : MarksWithin [(65530, 10), (65535, 20), (7, 0)]
      ((fsckMount 70000 12 (by decide)).maxFlbCnt * fbBlockBits) := by
    intro m hm hlen
    simp only [List.mem_cons, List.not_mem_nil, or_false] at hm
    rcases hm with rfl | rfl | rfl
    · decide
    · decide
    · decide
  refine ⟨hin, ?_⟩
  obtain ⟨oracle, hrun, hwindow⟩ := orAllocLcnbmp_marks _ _ hin
  refine ⟨oracle, hrun, fun dst => ?_⟩
  rw [(hwindow 8190 4 dst).1 20 (by decide)]
  simp only [Bool.or_eq_true]
  right
  decide

/-- A mark that ends behind the last cluster also sets bits behind it. -/
theorem orAllocLcnbmp_behind_volume :
    let vol := fsckMount 12 12 (by decide)
    ∃ oracle, setAllocRanges [(8, 8)] (allocMount vol) = some oracle ∧ ¬ 12 < vol.nrClusters ∧
      bitAt (orAllocLcnbmp (oracle.asOracle vol) 0 2 (fun _ => 0)) 12 = true := by
  decide +kernel

end Window

end NtfsPlus.Libntfs

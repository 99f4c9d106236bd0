import NtfsPlus.Libntfs.FsckLcnBitmapSpec

/-!
# The fsck cluster bitmap refines a plain set

The abstract cluster bitmap is a finite set of clusters; marking and clearing
are union and difference with an interval.  Every run of marking, checking and
block lookups on the block array keeps the two in step (`Represents`), and
what a lookup returns can be read off the set.
-/

namespace NtfsPlus.Libntfs

section Find

theorem testBit_ff_shiftLeft
    {k j : Nat}
    (hj : j < 8) :
    (UInt8.ofNat (0xff <<< k)).toNat.testBit j = decide (k ≤ j) := by
  rw [UInt8.toNat_ofNat', Nat.testBit_mod_two_pow, Nat.testBit_shiftLeft,
    show (0xff : Nat) = 2 ^ 8 - 1 from rfl, Nat.testBit_two_pow_sub_one]
  have : j - k < 8 := by omega
  simp [hj, this]

/-- The padding sets exactly the bits of the block that lie behind the last cluster. -/
theorem bitAt_fillUnusedLcnbmp
    (vol : FsckVolume)
    (bm : Bytes)
    {idx j : Nat}
    (hj : j < fbBlockBits) :
    bitAt (fillUnusedLcnbmp vol idx bm) j =
      (bitAt bm j || decide (vol.nrClusters ≤ idx * fbBlockBits + j)) := by
  unfold fillUnusedLcnbmp
  dsimp only
  generalize hoff : vol.nrClusters - idx * ntfsBufSize * 8 = off
  have hpad : vol.nrClusters ≤ idx * fbBlockBits + j ↔ off ≤ j := by
    simp only [fbBlockBits, ntfsBufSize] at *
    omega
  have hmod : j % 8 < 8 := Nat.mod_lt _ (by decide)
  simp only [hpad]
  have hlow : ∀ b : Bytes, (∀ i, i < off / 8 + 1 → b i = bm i) → j / 8 ≤ off / 8 →
      bitAt (setByte b (off / 8) (b (off / 8) ||| UInt8.ofNat (0xff <<< (off - off / 8 * 8)))) j =
        (bitAt bm j || decide (off ≤ j)) := by
    intro b hb hle
    unfold bitAt
    by_cases hbyte : j / 8 = off / 8
    · rw [hbyte, setByte_same, hb _ (by omega), UInt8.toNat_or, Nat.testBit_or,
        testBit_ff_shiftLeft hmod]
      have : off - off / 8 * 8 ≤ j % 8 ↔ off ≤ j := by omega
      simp only [this]
    · rw [setByte_of_ne _ _ hbyte, hb _ (by omega)]
      have : ¬ off ≤ j := by omega
      simp [this]
  by_cases hle : j / 8 ≤ off / 8
  · split_ifs with hfill
    · apply hlow _ _ hle
      intro i hi
      rw [fillBytes, if_neg (by omega)]
    · exact hlow _ (fun i _ => rfl) hle
  · have hfill : off / 8 + 1 < ntfsBufSize := by
      simp only [fbBlockBits, ntfsBufSize] at *
      omega
    have hin : off / 8 + 1 ≤ j / 8 ∧ j / 8 < off / 8 + 1 + (ntfsBufSize - (off / 8 + 1)) := by
      simp only [fbBlockBits, ntfsBufSize] at *
      omega
    have hge : off ≤ j := by omega
    rw [if_pos hfill, bitAt, setByte_of_ne _ _ (by omega), fillBytes, if_pos hin,
      decide_eq_true hge, Bool.or_true]
    exact bitAt_ones j

/-- Looking up a block changes no bit of the volume. -/
theorem findLcnbmpBlock_volume
    {vol : FsckVolume}
    (h : LcnbmpValid vol)
    (pos : Nat) :
    LcnbmpValid (findLcnbmpBlock vol pos).1 ∧
      (findLcnbmpBlock vol pos).1.nrClusters = vol.nrClusters ∧
      ∀ c < vol.nrClusters, (findLcnbmpBlock vol pos).1.isSet c = vol.isSet c := by
  unfold findLcnbmpBlock
  generalize fbRoundDown pos % 2 ^ 32 = bmI
  generalize fbRoundDown ((vol.nrClusters - 1) / 8) % 2 ^ 32 = lastIdx
  by_cases hmax : bmI ≥ vol.maxFlbCnt
  · rw [if_pos hmax]
    exact ⟨h, rfl, fun c _ => rfl⟩
  rw [if_neg hmax]
  cases hslot : vol.lcnBitmap bmI with
  | absent => exact ⟨h, rfl, fun c _ => rfl⟩
  | ones => exact ⟨h, rfl, fun c _ => rfl⟩
  | literal buf =>
    dsimp only
    generalize hpad : (if bmI = lastIdx then fillUnusedLcnbmp vol lastIdx buf else buf) = padded
    have hbits : ∀ i < fbBlockBits, bmI * fbBlockBits + i < vol.nrClusters →
        bitAt padded i = bitAt buf i := by
      intro i hi hin
      rw [← hpad]
      split_ifs with hlast
      · rw [bitAt_fillUnusedLcnbmp vol buf hi, ← hlast, decide_eq_false (by omega), Bool.or_false]
      · rfl
    have hcount : vol.lcnSetcnt bmI = inVolumeCount vol.nrClusters bmI (.literal padded) := by
      rw [h.setcnt_literal bmI buf hslot]
      exact inVolumeCount_congr (fun i hi hin => (hbits i hi hin).symm)
    have hstore : vol.setSlot bmI (.literal padded) = vol.store bmI padded (vol.lcnSetcnt bmI) := by
      simp [FsckVolume.store, FsckVolume.setSlot]
    refine ⟨hstore ▸ h.store hcount, rfl, fun c hc => ?_⟩
    rw [isSet_setSlot]
    split_ifs with hidx
    · rw [FsckVolume.isSet, hidx, hslot]
      apply hbits
      · exact Nat.mod_lt _ (by decide)
      · simp only [fbBlockBits] at *
        omega
    · rfl

/-- The bits of a returned block: the clusters of the volume, and padding. -/
theorem findLcnbmpBlock_bits
    {vol : FsckVolume} {pos : Nat}
    (hmax : fbRoundDown pos < vol.maxFlbCnt)
    (hwidth : fbRoundDown pos < 2 ^ 32)
    {j : Nat}
    (hj : j < fbBlockBits) :
    bitAt (findLcnbmpBlock vol pos).2 j =
      if fbRoundDown pos * fbBlockBits + j < vol.nrClusters then
        vol.isSet (fbRoundDown pos * fbBlockBits + j)
      else
        true := by
  unfold findLcnbmpBlock
  rw [Nat.mod_eq_of_lt hwidth, if_neg (by omega), isSet_block vol _ hj]
  have hlast : ¬ fbRoundDown pos * fbBlockBits + j < vol.nrClusters →
      fbRoundDown pos = fbRoundDown ((vol.nrClusters - 1) / 8) % 2 ^ 32 := by
    simp only [FsckVolume.maxFlbCnt, fbRoundDown_cluster] at hmax ⊢
    simp only [fbBlockBits] at *
    omega
  -- what the padding makes of a block with the bits of the slot
  have hpad : ∀ bm : Bytes, (∀ i < fbBlockBits, bitAt bm i =
        (vol.lcnBitmap (fbRoundDown pos)).bit i) →
      bitAt (if fbRoundDown pos = fbRoundDown ((vol.nrClusters - 1) / 8) % 2 ^ 32 then
          fillUnusedLcnbmp vol (fbRoundDown ((vol.nrClusters - 1) / 8) % 2 ^ 32) bm
        else bm) j =
      if fbRoundDown pos * fbBlockBits + j < vol.nrClusters then
        (vol.lcnBitmap (fbRoundDown pos)).bit j
      else
        true := by
    intro bm hbm
    split
    · rename_i heq
      rw [← heq, bitAt_fillUnusedLcnbmp vol bm hj, hbm j hj]
      split_ifs with hin
      · rw [decide_eq_false (by omega), Bool.or_false]
      · rw [decide_eq_true (by omega), Bool.or_true]
    · rename_i heq
      rw [if_pos (by by_contra hout; exact heq (hlast hout)), hbm j hj]
  cases hslot : vol.lcnBitmap (fbRoundDown pos) with
  | absent =>
    rw [hslot] at hpad
    exact hpad _ (fun i _ => bitAt_zero i)
  | ones =>
    rw [bitAt_ones]
    split_ifs <;> rfl
  | literal buf =>
    rw [hslot] at hpad
    exact hpad _ (fun i _ => rfl)

end Find

section Refinement

/-- One use of the cluster bitmap. -/
inductive LcnbmpOp where
  | setRange (lcn : Nat) (length : Int) (bit : Bool)
  | checkAndSet (rl : Runlist) (rlIdx : Nat) (bit : Bool) (dupRl : Option Runlist)
  | findBlock (pos : Nat)

/-- The element of a runlist that `ntfs_fsck_check_and_set_lcnbmp` is called for. -/
def runAt (rl : Runlist) (rlIdx : Nat) : RunlistElement :=
  rl.getD rlIdx ⟨0, 0, 0⟩

/-- The operation names clusters of the volume only. -/
def LcnbmpOp.InVolume (nrClusters : Nat) : LcnbmpOp → Prop
  | .setRange lcn length _ => lcn + length ≤ nrClusters
  | .checkAndSet rl rlIdx _ _ =>
    0 ≤ (runAt rl rlIdx).lcn ∧ (runAt rl rlIdx).lcn + (runAt rl rlIdx).length ≤ nrClusters
  | .findBlock _ => True

/-- The operation on the block array. -/
def LcnbmpOp.run (vol : FsckVolume) : LcnbmpOp → FsckVolume
  | .setRange lcn length bit =>
    match setLcnbmpRange vol lcn length bit.toUInt8 with
    | .ok vol' => vol'
    | .error _ => vol
  | .checkAndSet rl rlIdx bit dupRl => (checkAndSetLcnbmp vol (some rl) rlIdx bit.toUInt8 dupRl).1
  | .findBlock pos => (findLcnbmpBlock vol pos).1

/-- Add an interval of clusters to a set, or take it out. -/
def markInterval (s : Finset Nat) (lcn : Nat) (length : Int) (bit : Bool) : Finset Nat :=
  if bit then
    s ∪ Finset.Ico lcn (lcn + length.toNat)
  else
    s \ Finset.Ico lcn (lcn + length.toNat)

/-- The operation on a plain set of clusters. -/
def LcnbmpOp.runSet (s : Finset Nat) : LcnbmpOp → Finset Nat
  | .setRange lcn length bit => markInterval s lcn length bit
  | .checkAndSet rl rlIdx bit _ =>
    markInterval s (runAt rl rlIdx).lcn.toNat (runAt rl rlIdx).length bit
  | .findBlock _ => s

/-- The block array of a volume of `nrClusters` clusters stands for the set `s`. -/
structure Represents (nrClusters : Nat) (vol : FsckVolume) (s : Finset Nat) : Prop where
  valid : LcnbmpValid vol
  nrClusters_eq : vol.nrClusters = nrClusters
  isSet : ∀ c < nrClusters, vol.isSet c = decide (c ∈ s)
  inVolume : ∀ c ∈ s, c < nrClusters

variable {nrClusters : Nat} {vol : FsckVolume} {s : Finset Nat}

/-- Marking a range is joining or removing an interval. -/
theorem Represents.mark
    {vol' : FsckVolume}
    (h : Represents nrClusters vol s)
    {b : Bool} {lcn : Nat} {length : Int}
    (hin : lcn + length.toNat ≤ nrClusters)
    (hmark : Marks vol vol' b lcn (lcn + length.toNat)) :
    Represents nrClusters vol' (markInterval s lcn length b) := by
  refine ⟨hmark.valid, hmark.nrClusters.trans h.nrClusters_eq, fun c hc => ?_, fun c hc => ?_⟩
  · rw [hmark.isSet, h.isSet c hc, markInterval]
    cases b <;> by_cases hrange : lcn ≤ c ∧ c < lcn + length.toNat <;> simp [hrange]
  · cases b with
    | true =>
      have hc' : c ∈ s ∨ lcn ≤ c ∧ c < lcn + length.toNat := by simpa [markInterval] using hc
      rcases hc' with hmem | ⟨_, hlt⟩
      · exact h.inVolume c hmem
      · omega
    | false =>
      have hc' : c ∈ s ∧ (lcn ≤ c → lcn + length.toNat ≤ c) := by simpa [markInterval] using hc
      exact h.inVolume c hc'.1

theorem markInterval_nonpos
    (s : Finset Nat)
    (lcn : Nat)
    {length : Int}
    (h : length ≤ 0)
    (b : Bool) :
    markInterval s lcn length b = s := by
  have : length.toNat = 0 := by omega
  cases b <;> simp [markInterval, this]

/-- `ntfs_fsck_check_and_set_lcnbmp` marks the run it is called for. -/
theorem checkAndSetLcnbmp_marks
    (b : Bool)
    (h : LcnbmpValid vol)
    {rl : Runlist} {rlIdx : Nat}
    (hlen : 0 < (runAt rl rlIdx).length)
    (hlcn : 0 ≤ (runAt rl rlIdx).lcn)
    (hin : (runAt rl rlIdx).lcn + (runAt rl rlIdx).length ≤ vol.nrClusters)
    (dupRl : Option Runlist) :
    Marks vol (checkAndSetLcnbmp vol (some rl) rlIdx b.toUInt8 dupRl).1 b (runAt rl rlIdx).lcn.toNat
      ((runAt rl rlIdx).lcn.toNat + (runAt rl rlIdx).length.toNat) := by
  have hscan := (checkAndSet_scan b (runAt rl rlIdx).vcn h (by omega)
    (show (runAt rl rlIdx).lcn.toNat + (runAt rl rlIdx).length.toNat ≤ vol.nrClusters by omega)
    ⟨⟨0, -1, 0⟩, dupRl⟩).1
  unfold checkAndSetLcnbmp
  dsimp only
  rw [if_neg (by omega), Int.toNat_natCast]
  rw [show rl.getD rlIdx ⟨0, 0, 0⟩ = runAt rl rlIdx from rfl, if_neg (by omega)]
  split_ifs
  · exact hscan
  · exact hscan

/-- Every operation refines the one on sets. -/
theorem Represents.step
    (h : Represents nrClusters vol s)
    {op : LcnbmpOp}
    (hop : op.InVolume nrClusters) :
    Represents nrClusters (op.run vol) (op.runSet s) := by
  cases op with
  | setRange lcn length bit =>
    rw [LcnbmpOp.run, LcnbmpOp.runSet]
    have hin : (lcn : Int) + length ≤ nrClusters := hop
    by_cases hlen : 0 < length
    · obtain ⟨vol', hok, hmark⟩ := setLcnbmpRange_spec bit h.valid hlen
        (by rw [h.nrClusters_eq]; exact hin)
      rw [hok]
      exact h.mark (by omega) hmark
    · rw [setLcnbmpRange, if_pos (by omega), markInterval_nonpos s lcn (by omega)]
      exact h
  | checkAndSet rl rlIdx bit dupRl =>
    obtain ⟨hlcn, hin⟩ := hop
    rw [LcnbmpOp.run, LcnbmpOp.runSet]
    by_cases hlen : 0 < (runAt rl rlIdx).length
    · exact h.mark (by omega)
        (checkAndSetLcnbmp_marks bit h.valid hlen hlcn (by rw [h.nrClusters_eq]; exact hin) dupRl)
    · have hnone : checkAndSetLcnbmp vol (some rl) rlIdx bit.toUInt8 dupRl = (vol, none) := by
        unfold checkAndSetLcnbmp
        dsimp only
        rw [if_neg (by omega)]
        exact if_pos (by simpa [runAt] using hlen)
      rw [hnone, markInterval_nonpos s _ (by omega)]
      exact h
  | findBlock pos =>
    rw [LcnbmpOp.run, LcnbmpOp.runSet]
    obtain ⟨hvalid, hnr, hset⟩ := findLcnbmpBlock_volume h.valid pos
    refine ⟨hvalid, hnr.trans h.nrClusters_eq, fun c hc => ?_, h.inVolume⟩
    rw [hset c (by rw [h.nrClusters_eq]; exact hc), h.isSet c hc]

/-- Every run of operations keeps the block array and the set in step. -/
theorem Represents.run
    (h : Represents nrClusters vol s)
    {ops : List LcnbmpOp}
    (hops : ∀ op ∈ ops, op.InVolume nrClusters) :
    Represents nrClusters (ops.foldl LcnbmpOp.run vol) (ops.foldl LcnbmpOp.runSet s) := by
  induction ops generalizing vol s with
  | nil => exact h
  | cons op ops ih =>
    exact ih (h.step (hops op (by simp))) (fun op' hop' => hops op' (by simp [hop']))

/-- At the start no cluster is marked. -/
theorem represents_fsckMount
    (nrClusters clusterSizeBits : Nat)
    (h : 0 < nrClusters) :
    Represents nrClusters (fsckMount nrClusters clusterSizeBits h) ∅ :=
  ⟨fsckMount_valid nrClusters clusterSizeBits h, rfl, fun _ _ => rfl, by simp⟩

/-- The counted bits of a literal block are the members of the set in that block. -/
theorem Represents.count
    (h : Represents nrClusters vol s)
    (idx : Nat) :
    inVolumeCount nrClusters idx (vol.lcnBitmap idx) =
      (s.filter (fun c => c / fbBlockBits = idx)).card := by
  have hfilter : s.filter (fun c => c / fbBlockBits = idx) =
      ((Finset.range fbBlockBits).filter (fun i => idx * fbBlockBits + i ∈ s)).map
        (addLeftEmbedding (idx * fbBlockBits)) := by
    ext c
    simp only [Finset.mem_filter, Finset.mem_map, Finset.mem_range, addLeftEmbedding_apply]
    constructor
    · rintro ⟨hmem, hidx⟩
      have hc : idx * fbBlockBits + c % fbBlockBits = c := by
        simp only [fbBlockBits] at *
        omega
      exact ⟨c % fbBlockBits, ⟨Nat.mod_lt _ (by decide), hc.symm ▸ hmem⟩, hc⟩
    · rintro ⟨i, ⟨hi, hmem⟩, rfl⟩
      refine ⟨hmem, ?_⟩
      simp only [fbBlockBits] at *
      omega
  rw [hfilter, Finset.card_map, inVolumeCount]
  rw [Finset.card_def, Finset.filter_val, Finset.range_val, Multiset.range]
  rw [Multiset.filter_coe, Multiset.coe_card, ← List.countP_eq_length_filter]
  apply List.countP_congr
  intro i hi
  have hi' := List.mem_range.mp hi
  by_cases hin : idx * fbBlockBits + i < nrClusters
  · rw [← isSet_block vol idx hi', h.isSet _ hin]
    simp [hin]
  · have : idx * fbBlockBits + i ∉ s := fun hmem => hin (h.inVolume _ hmem)
    simp [hin, this]

/--
After every run of operations on ranges inside the volume, block lookups in
between included: the marked clusters are those of the set, the counter of a
literal block counts the members of the set in it, an all-ones block is full,
and a returned block has the bits of the set inside the volume and ones behind
the last cluster.  The block number of a lookup is a `u32`.
-/
theorem lcnbmp_refines_set
    (nrClusters clusterSizeBits : Nat)
    (hnr : 0 < nrClusters)
    (ops : List LcnbmpOp)
    (hops : ∀ op ∈ ops, op.InVolume nrClusters) :
    let vol := ops.foldl LcnbmpOp.run (fsckMount nrClusters clusterSizeBits hnr)
    let s := ops.foldl LcnbmpOp.runSet ∅
    (∀ c < nrClusters, vol.isSet c = decide (c ∈ s)) ∧
    (∀ idx buf, vol.lcnBitmap idx = .literal buf →
      vol.lcnSetcnt idx = (s.filter (fun c => c / fbBlockBits = idx)).card) ∧
    (∀ idx, vol.lcnBitmap idx = .ones →
      (s.filter (fun c => c / fbBlockBits = idx)).card = fbBlockBits) ∧
    (∀ pos j, fbRoundDown pos < vol.maxFlbCnt → fbRoundDown pos < 2 ^ 32 → j < fbBlockBits →
      bitAt (findLcnbmpBlock vol pos).2 j =
        decide (fbRoundDown pos * fbBlockBits + j ∈ s ∨
          nrClusters ≤ fbRoundDown pos * fbBlockBits + j)) := by
  intro vol s
  have h : Represents nrClusters vol s :=
    (represents_fsckMount nrClusters clusterSizeBits hnr).run hops
  refine ⟨h.isSet, ?_, ?_, ?_⟩
  · intro idx buf hslot
    rw [h.valid.setcnt_literal idx buf hslot, h.nrClusters_eq, ← hslot, h.count]
  · intro idx hslot
    rw [← h.count, hslot, inVolumeCount_ones]
    rw [← h.nrClusters_eq]
    exact h.valid.ones_inside idx hslot
  · intro pos j hmax hwidth hj
    rw [findLcnbmpBlock_bits hmax hwidth hj, h.nrClusters_eq]
    split_ifs with hin
    · rw [h.isSet _ hin]
      have : ¬ nrClusters ≤ fbRoundDown pos * fbBlockBits + j := by omega
      simp [this]
    · rw [decide_eq_true (Or.inr (by omega))]

/-- One whole block of a volume of 65537 clusters, marked at once. -/
def wholeBlockOp : LcnbmpOp :=
  .setRange 0 65536 true

theorem lcnbmp_refines_set_whole_block :
    wholeBlockOp.InVolume 65537 ∧
      ([wholeBlockOp].foldl LcnbmpOp.run (fsckMount 65537 12 (by decide))).isSet 65535 =
        decide (65535 ∈ [wholeBlockOp].foldl LcnbmpOp.runSet ∅) := by
  have hop : wholeBlockOp.InVolume 65537 := by
    show ((0 : Nat) : Int) + 65536 ≤ ((65537 : Nat) : Int)
    decide
  refine ⟨hop, ?_⟩
  exact (lcnbmp_refines_set 65537 12 (by decide) [wholeBlockOp]
    (by simpa using hop)).1 65535 (by decide)

/--
The counter of an all-ones block is not maintained, and a returned last block
has bits of clusters that do not exist: here the counter is 0 with 65536
clusters in the set, and the bit of cluster 65537 is set.
-/
theorem lcnbmp_whole_block_counter :
    ([wholeBlockOp].foldl LcnbmpOp.run (fsckMount 65537 12 (by decide))).lcnBitmap 0 = .ones ∧
    ([wholeBlockOp].foldl LcnbmpOp.run (fsckMount 65537 12 (by decide))).lcnSetcnt 0 = 0 ∧
    (([wholeBlockOp].foldl LcnbmpOp.runSet ∅).filter
      (fun c => c / fbBlockBits = 0)).card = 65536 ∧
    bitAt (findLcnbmpBlock
      ([wholeBlockOp].foldl LcnbmpOp.run (fsckMount 65537 12 (by decide))) 8192).2 1 = true ∧
    65536 + 1 ∉ [wholeBlockOp].foldl LcnbmpOp.runSet ∅ := by
  have hset : [wholeBlockOp].foldl LcnbmpOp.runSet ∅ = Finset.Ico 0 65536 := by
    simp [wholeBlockOp, LcnbmpOp.runSet, markInterval]
  have hfilter : (Finset.Ico 0 65536).filter (fun c => c / fbBlockBits = 0) =
      Finset.Ico 0 65536 := by
    apply Finset.filter_true_of_mem
    intro c hc
    have := (Finset.mem_Ico.mp hc).2
    exact Nat.div_eq_of_lt this
  refine ⟨rfl, rfl, ?_, ?_, ?_⟩
  · rw [hset, hfilter, Nat.card_Ico]
  · rfl
  · rw [hset]
    simp

end Refinement

end NtfsPlus.Libntfs

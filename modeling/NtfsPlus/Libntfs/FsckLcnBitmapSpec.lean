import NtfsPlus.Libntfs.FsckLcnBitmap

/-!
# What the fsck cluster bitmap represents

`isSet` reads the set of marked clusters off the blocks.  `LcnbmpValid` is the
invariant that ties the counters to it: the counter of a literal block is the
number of clusters of the volume that are set in it, and an all-ones block
lies inside the volume.  Bits behind the last cluster are not counted, so the
padding that `ntfs_fsck_find_lcnbmp_block` writes keeps the invariant.

`Marks` is the effect of every marking operation: the invariant is kept and
exactly one interval of clusters gets the new value.
-/

namespace NtfsPlus.Libntfs

section Invariant

/-- Bit `i` of the block behind a pointer of the block array. -/
def LcnbmpSlot.bit : LcnbmpSlot → Nat → Bool
  | .absent, _ => false
  | .ones, _ => true
  | .literal buf, i => bitAt buf i

/-- The cluster is marked. -/
def FsckVolume.isSet (vol : FsckVolume) (c : Nat) : Bool :=
  (vol.lcnBitmap (c / fbBlockBits)).bit (c % fbBlockBits)

/-- How many clusters of the volume are set in a block. -/
def inVolumeCount (nrClusters idx : Nat) (slot : LcnbmpSlot) : Nat :=
  countBelow fbBlockBits (fun i => decide (idx * fbBlockBits + i < nrClusters) && slot.bit i)

/-- The invariant of the block array. -/
structure LcnbmpValid (vol : FsckVolume) : Prop where
  ones_inside : ∀ idx, vol.lcnBitmap idx = .ones → (idx + 1) * fbBlockBits ≤ vol.nrClusters
  setcnt_literal : ∀ idx buf, vol.lcnBitmap idx = .literal buf →
    vol.lcnSetcnt idx = inVolumeCount vol.nrClusters idx (.literal buf)

theorem fsckMount_valid
    (nrClusters clusterSizeBits : Nat)
    (h : 0 < nrClusters) :
    LcnbmpValid (fsckMount nrClusters clusterSizeBits h) := by
  constructor
  · intro idx hones
    cases hones
  · intro idx buf hlit
    cases hlit

theorem isSet_fsckMount
    (nrClusters clusterSizeBits : Nat)
    (h : 0 < nrClusters)
    (c : Nat) :
    (fsckMount nrClusters clusterSizeBits h).isSet c = false :=
  rfl

theorem bitAt_ones
    (i : Nat) :
    bitAt (fun _ => 0xff) i = true := by
  have hi : i % 8 < 8 := Nat.mod_lt _ (by decide)
  rw [bitAt, show (0xff : UInt8).toNat = 2 ^ 8 - 1 from rfl, Nat.testBit_two_pow_sub_one]
  exact decide_eq_true hi

theorem bitAt_zero
    (i : Nat) :
    bitAt (fun _ => 0) i = false := by
  simp [bitAt]

variable {nrClusters idx : Nat}

theorem inVolumeCount_congr
    {a b : LcnbmpSlot}
    (h : ∀ i < fbBlockBits, idx * fbBlockBits + i < nrClusters → a.bit i = b.bit i) :
    inVolumeCount nrClusters idx a = inVolumeCount nrClusters idx b := by
  apply countBelow_congr
  intro i hi
  by_cases hin : idx * fbBlockBits + i < nrClusters
  · rw [h i hi hin]
  · simp [hin]

theorem inVolumeCount_ones
    (h : (idx + 1) * fbBlockBits ≤ nrClusters) :
    inVolumeCount nrClusters idx .ones = fbBlockBits := by
  rw [inVolumeCount, countBelow_eq_iff]
  intro i hi
  have hin : idx * fbBlockBits + i < nrClusters := by
    simp only [fbBlockBits] at *
    omega
  simp [hin, LcnbmpSlot.bit]

theorem inVolumeCount_absent
    (nrClusters idx : Nat) :
    inVolumeCount nrClusters idx .absent = 0 := by
  simp [inVolumeCount, countBelow, LcnbmpSlot.bit]

/-- A block whose count is full lies in the volume and has every bit set. -/
theorem inVolumeCount_full
    {slot : LcnbmpSlot}
    (h : inVolumeCount nrClusters idx slot = fbBlockBits) :
    (idx + 1) * fbBlockBits ≤ nrClusters ∧ ∀ i < fbBlockBits, slot.bit i = true := by
  rw [inVolumeCount, countBelow_eq_iff] at h
  constructor
  · have hlast := h (fbBlockBits - 1) (by decide)
    have hin : idx * fbBlockBits + (fbBlockBits - 1) < nrClusters := by
      exact of_decide_eq_true (Bool.and_eq_true _ _ ▸ hlast).1
    simp only [fbBlockBits] at *
    omega
  · intro i hi
    have := h i hi
    exact (Bool.and_eq_true _ _ ▸ this).2

end Invariant

section Blocks

theorem isSet_setSlot
    (vol : FsckVolume)
    (idx : Nat)
    (slot : LcnbmpSlot)
    (c : Nat) :
    (vol.setSlot idx slot).isSet c =
      if c / fbBlockBits = idx then slot.bit (c % fbBlockBits) else vol.isSet c := by
  unfold FsckVolume.isSet FsckVolume.setSlot
  by_cases h : c / fbBlockBits = idx
  · subst h
    simp
  · simp [h]

/-- A buffer that is stored replaces the bits of its block. -/
theorem isSet_store
    (vol : FsckVolume)
    (idx : Nat)
    (buf : Bytes)
    (cnt c : Nat) :
    (vol.store idx buf cnt).isSet c =
      if c / fbBlockBits = idx then bitAt buf (c % fbBlockBits) else vol.isSet c :=
  isSet_setSlot vol idx (.literal buf) c

variable {vol : FsckVolume} {idx : Nat}

/-- Storing a buffer with the right count keeps the bitmap valid. -/
theorem LcnbmpValid.store
    (h : LcnbmpValid vol)
    {buf : Bytes} {cnt : Nat}
    (hcnt : cnt = inVolumeCount vol.nrClusters idx (.literal buf)) :
    LcnbmpValid (vol.store idx buf cnt) := by
  constructor
  · intro j hj
    by_cases hji : j = idx
    · subst hji
      simp [FsckVolume.store, FsckVolume.setSlot] at hj
    · exact h.ones_inside j (by simpa [FsckVolume.store, FsckVolume.setSlot, hji] using hj)
  · intro j b hj
    by_cases hji : j = idx
    · subst hji
      have hb : buf = b := by simpa [FsckVolume.store, FsckVolume.setSlot] using hj
      simp [FsckVolume.store, FsckVolume.setSlot, hcnt, hb]
    · have := h.setcnt_literal j b (by simpa [FsckVolume.store, FsckVolume.setSlot, hji] using hj)
      simpa [FsckVolume.store, FsckVolume.setSlot, hji] using this

/-- So does marking a whole block. -/
theorem LcnbmpValid.setOnes
    (h : LcnbmpValid vol)
    (hin : (idx + 1) * fbBlockBits ≤ vol.nrClusters) :
    LcnbmpValid (vol.setSlot idx .ones) := by
  constructor
  · intro j hj
    by_cases hji : j = idx
    · subst hji
      exact hin
    · exact h.ones_inside j (by simpa [FsckVolume.setSlot, hji] using hj)
  · intro j b hj
    by_cases hji : j = idx
    · subst hji
      simp [FsckVolume.setSlot] at hj
    · exact h.setcnt_literal j b (by simpa [FsckVolume.setSlot, hji] using hj)

theorem store_store
    (vol : FsckVolume)
    (idx : Nat)
    (a b : Bytes)
    (m n : Nat) :
    (vol.store idx a m).store idx b n = vol.store idx b n := by
  simp [FsckVolume.store, FsckVolume.setSlot]

theorem store_self
    {buf : Bytes}
    (h : vol.lcnBitmap idx = .literal buf) :
    vol.store idx buf (vol.lcnSetcnt idx) = vol := by
  unfold FsckVolume.store FsckVolume.setSlot
  rw [← h, Function.update_eq_self, Function.update_eq_self]

/-- A materialized block has the bits of the old one, and their count. -/
theorem lcnbmpMaterialize_spec
    (h : LcnbmpValid vol)
    (idx : Nat) :
    ∃ buf, lcnbmpMaterialize vol idx =
        (vol.store idx buf (inVolumeCount vol.nrClusters idx (vol.lcnBitmap idx)), buf) ∧
      ∀ i, bitAt buf i = (vol.lcnBitmap idx).bit i := by
  unfold lcnbmpMaterialize
  cases hslot : vol.lcnBitmap idx with
  | absent =>
    refine ⟨fun _ => 0, ?_, bitAt_zero⟩
    rw [inVolumeCount_absent]
  | ones =>
    refine ⟨fun _ => 0xff, ?_, bitAt_ones⟩
    rw [inVolumeCount_ones (h.ones_inside idx hslot)]
  | literal buf =>
    refine ⟨buf, ?_, fun i => rfl⟩
    rw [← h.setcnt_literal idx buf hslot, store_self hslot]

/-- Collapsing a block changes no bit. -/
theorem lcnbmpTryCollapse_spec
    (h : LcnbmpValid vol)
    (idx : Nat) :
    LcnbmpValid (lcnbmpTryCollapse vol idx) ∧
      (lcnbmpTryCollapse vol idx).nrClusters = vol.nrClusters ∧
      ∀ c, (lcnbmpTryCollapse vol idx).isSet c = vol.isSet c := by
  unfold lcnbmpTryCollapse
  cases hslot : vol.lcnBitmap idx with
  | absent => exact ⟨h, rfl, fun c => rfl⟩
  | ones => exact ⟨h, rfl, fun c => rfl⟩
  | literal buf =>
    by_cases hcnt : vol.lcnSetcnt idx = fbBlockBits
    · rw [h.setcnt_literal idx buf hslot] at hcnt
      obtain ⟨hin, hbits⟩ := inVolumeCount_full hcnt
      rw [← h.setcnt_literal idx buf hslot] at hcnt
      simp only [hcnt, ne_eq, not_true, if_false]
      refine ⟨h.setOnes hin, rfl, ?_⟩
      intro c
      rw [isSet_setSlot]
      by_cases hc : c / fbBlockBits = idx
      · have := hbits (c % fbBlockBits) (Nat.mod_lt _ (by decide))
        rw [if_pos hc, FsckVolume.isSet, hc, hslot, this]
        rfl
      · rw [if_neg hc]
    · rw [if_pos hcnt]
      exact ⟨h, rfl, fun c => rfl⟩

end Blocks

section Bits

variable {δ : Type}

/-- Apply `f` to the indices below `n` at which `p` holds, in ascending order. -/
def noteAll (f : Nat → δ → δ) (p : Nat → Bool) : Nat → δ → δ
  | 0, d => d
  | n + 1, d => if p n then f n (noteAll f p n d) else noteAll f p n d

variable (f onDup : Nat → δ → δ) (b : Bool)

theorem noteAll_false
    (n : Nat)
    (d : δ) :
    noteAll f (fun _ => false) n d = d := by
  induction n with
  | zero => rfl
  | succ n ih => simp [noteAll, ih]

theorem noteAll_congr
    {p q : Nat → Bool} {n : Nat}
    (h : ∀ i < n, p i = q i)
    (d : δ) :
    noteAll f p n d = noteAll f q n d := by
  induction n with
  | zero => rfl
  | succ n ih => rw [noteAll, noteAll, h n (by omega), ih (fun i hi => h i (by omega))]

theorem noteAll_add
    (p : Nat → Bool)
    (m n : Nat)
    (d : δ) :
    noteAll f p (m + n) d =
      noteAll (fun i => f (m + i)) (fun i => p (m + i)) n (noteAll f p m d) := by
  induction n with
  | zero => rfl
  | succ n ih => rw [← Nat.add_assoc, noteAll, noteAll, ih]

/-- One iteration: the bit gets its value, the count stays right, a duplicate is noted. -/
theorem markBit_spec
    (relSlcn i : Nat)
    (s : BlockState δ)
    {nrClusters idx : Nat}
    (hbit : relSlcn + i < fbBlockBits)
    (hin : idx * fbBlockBits + (relSlcn + i) < nrClusters)
    (hcnt : s.setcnt = inVolumeCount nrClusters idx (.literal s.buf)) :
    (∀ j, bitAt (markBit onDup b.toUInt8 relSlcn i s).buf j =
      if j = relSlcn + i then b else bitAt s.buf j) ∧
    (markBit onDup b.toUInt8 relSlcn i s).setcnt =
      inVolumeCount nrClusters idx (.literal (markBit onDup b.toUInt8 relSlcn i s).buf) ∧
    (markBit onDup b.toUInt8 relSlcn i s).dup =
      if b && bitAt s.buf (relSlcn + i) then onDup i s.dup else s.dup := by
  have hbuf : (markBit onDup b.toUInt8 relSlcn i s).buf =
      (bitGetAndSet s.buf (relSlcn + i) b.toUInt8).1 := by
    unfold markBit
    dsimp only
    split_ifs <;> rfl
  have hbits := bitAt_bitGetAndSet s.buf (relSlcn + i) (b := b)
  have hmove : inVolumeCount nrClusters idx
        (.literal (bitGetAndSet s.buf (relSlcn + i) b.toUInt8).1) +
        (bitAt s.buf (relSlcn + i)).toNat =
      inVolumeCount nrClusters idx (.literal s.buf) + b.toNat := by
    have := countBelow_update (n := fbBlockBits)
      (p := fun j => decide (idx * fbBlockBits + j < nrClusters) && bitAt s.buf j)
      (q := fun j => decide (idx * fbBlockBits + j < nrClusters) &&
        bitAt (bitGetAndSet s.buf (relSlcn + i) b.toUInt8).1 j)
      hbit (fun j _ hne => by rw [hbits, if_neg hne])
    simpa [hin, hbits, inVolumeCount, LcnbmpSlot.bit] using this
  have hle := countBelow_le fbBlockBits
    (fun j => decide (idx * fbBlockBits + j < nrClusters) && bitAt s.buf j)
  change inVolumeCount nrClusters idx (.literal s.buf) ≤ 65536 at hle
  refine ⟨fun j => by rw [hbuf, hbits], ?_, ?_⟩
  · unfold markBit
    dsimp only
    rw [bitGetAndSet_old]
    cases hold : bitAt s.buf (relSlcn + i) <;> cases b <;> rw [hold] at hmove <;>
      simp [Bool.toUInt8] at hmove ⊢ <;> omega
  · unfold markBit
    dsimp only
    rw [bitGetAndSet_old]
    cases bitAt s.buf (relSlcn + i) <;> cases b <;> simp [Bool.toUInt8]

/-- The loop over the bits of a block, with its count. -/
theorem markBits_spec
    (relSlcn n : Nat)
    (s : BlockState δ)
    {nrClusters idx : Nat}
    (hbit : relSlcn + n ≤ fbBlockBits)
    (hin : idx * fbBlockBits + (relSlcn + n) ≤ nrClusters)
    (hcnt : s.setcnt = inVolumeCount nrClusters idx (.literal s.buf)) :
    (∀ j, bitAt (markBits onDup b.toUInt8 relSlcn n s).buf j =
      if relSlcn ≤ j ∧ j < relSlcn + n then b else bitAt s.buf j) ∧
    (markBits onDup b.toUInt8 relSlcn n s).setcnt =
      inVolumeCount nrClusters idx (.literal (markBits onDup b.toUInt8 relSlcn n s).buf) ∧
    (markBits onDup b.toUInt8 relSlcn n s).dup =
      noteAll onDup (fun i => b && bitAt s.buf (relSlcn + i)) n s.dup := by
  induction n with
  | zero =>
    refine ⟨fun j => ?_, hcnt, rfl⟩
    rw [if_neg (by omega)]
    rfl
  | succ n ih =>
    obtain ⟨hbits, hcnt', hdup⟩ := ih (by omega) (by omega)
    obtain ⟨hbits2, hcnt2, hdup2⟩ := markBit_spec onDup b relSlcn n
      (markBits onDup b.toUInt8 relSlcn n s) (by omega) (by omega) hcnt'
    refine ⟨fun j => ?_, hcnt2, ?_⟩
    · rw [markBits, hbits2, hbits]
      split_ifs <;> first | rfl | omega
    · have hold : bitAt (markBits onDup b.toUInt8 relSlcn n s).buf (relSlcn + n) =
          bitAt s.buf (relSlcn + n) := by
        rw [hbits, if_neg (by omega)]
      rw [markBits, hdup2, hold, noteAll, hdup]

end Bits

section Ranges

/-- The clusters from `lo` up to `hi` get the value `b`, all others keep theirs. -/
structure Marks (vol vol' : FsckVolume) (b : Bool) (lo hi : Nat) : Prop where
  valid : LcnbmpValid vol'
  nrClusters : vol'.nrClusters = vol.nrClusters
  isSet : ∀ c, vol'.isSet c = if lo ≤ c ∧ c < hi then b else vol.isSet c

variable {vol : FsckVolume} {idx relSlcn relLength lcn length : Nat}

theorem Marks.refl
    (h : LcnbmpValid vol)
    (b : Bool)
    (lo : Nat) :
    Marks vol vol b lo lo :=
  ⟨h, rfl, fun c => by rw [if_neg (by omega)]⟩

/-- Ranges are marked one after the other. -/
theorem Marks.trans
    {v₁ v₂ v₃ : FsckVolume} {b : Bool} {lo mid hi : Nat}
    (h₁ : Marks v₁ v₂ b lo mid)
    (h₂ : Marks v₂ v₃ b mid hi)
    (hlo : lo ≤ mid)
    (hhi : mid ≤ hi) :
    Marks v₁ v₃ b lo hi := by
  refine ⟨h₂.valid, h₂.nrClusters.trans h₁.nrClusters, fun c => ?_⟩
  rw [h₂.isSet, h₁.isSet]
  split_ifs <;> first | rfl | omega

theorem Marks.tryCollapse
    {vol' : FsckVolume} {b : Bool} {lo hi : Nat}
    (h : Marks vol vol' b lo hi)
    (idx : Nat) :
    Marks vol (lcnbmpTryCollapse vol' idx) b lo hi := by
  obtain ⟨hvalid, hnr, hset⟩ := lcnbmpTryCollapse_spec h.valid idx
  exact ⟨hvalid, hnr.trans h.nrClusters, fun c => (hset c).trans (h.isSet c)⟩

/-- Clearing clusters of a block without storage changes nothing. -/
theorem Marks.of_absent
    (h : LcnbmpValid vol)
    (hslot : (vol.lcnBitmap idx).isAbsent = true)
    (hbits : relSlcn + relLength ≤ fbBlockBits) :
    Marks vol vol false (idx * fbBlockBits + relSlcn)
      (idx * fbBlockBits + relSlcn + relLength) := by
  refine ⟨h, rfl, fun c => ?_⟩
  by_cases hc : idx * fbBlockBits + relSlcn ≤ c ∧ c < idx * fbBlockBits + relSlcn + relLength
  · have hidx : c / fbBlockBits = idx := by
      simp only [fbBlockBits] at *
      omega
    rw [FsckVolume.isSet]
    cases hs : vol.lcnBitmap idx <;> simp_all [LcnbmpSlot.isAbsent, LcnbmpSlot.bit]
  · rw [if_neg hc]

theorem isSet_block
    (vol : FsckVolume)
    (idx : Nat)
    {i : Nat}
    (hi : i < fbBlockBits) :
    vol.isSet (idx * fbBlockBits + i) = (vol.lcnBitmap idx).bit i := by
  have hdiv : (idx * fbBlockBits + i) / fbBlockBits = idx := by
    simp only [fbBlockBits] at *
    omega
  have hmod : (idx * fbBlockBits + i) % fbBlockBits = i := by
    simp only [fbBlockBits] at *
    omega
  rw [FsckVolume.isSet, hdiv, hmod]

variable {δ : Type}

/-- Marking in one block. -/
theorem markBlock_spec
    (onDup : Nat → δ → δ)
    (b : Bool)
    (h : LcnbmpValid vol)
    (hbits : relSlcn + relLength ≤ fbBlockBits)
    (hin : idx * fbBlockBits + relSlcn + relLength ≤ vol.nrClusters)
    (d : δ) :
    Marks vol (markBlock onDup b.toUInt8 idx relSlcn relLength (vol, d)).1 b
      (idx * fbBlockBits + relSlcn) (idx * fbBlockBits + relSlcn + relLength) ∧
    (markBlock onDup b.toUInt8 idx relSlcn relLength (vol, d)).2 =
      noteAll onDup (fun i => b && vol.isSet (idx * fbBlockBits + relSlcn + i)) relLength d := by
  obtain ⟨buf, hmat, hbuf⟩ := lcnbmpMaterialize_spec h idx
  have hcount : inVolumeCount vol.nrClusters idx (vol.lcnBitmap idx) =
      inVolumeCount vol.nrClusters idx (.literal buf) :=
    inVolumeCount_congr (fun i _ _ => (hbuf i).symm)
  unfold markBlock
  rw [hmat]
  dsimp only
  have hcnt : (vol.store idx buf
      (inVolumeCount vol.nrClusters idx (vol.lcnBitmap idx))).lcnSetcnt idx =
        inVolumeCount vol.nrClusters idx (.literal buf) := by
    simp [FsckVolume.store, hcount]
  obtain ⟨hmark, hmarkCnt, hdup⟩ := markBits_spec onDup b relSlcn relLength
    ⟨buf, _, d⟩ hbits (by omega) hcnt
  constructor
  · rw [store_store]
    refine ⟨h.store hmarkCnt, rfl, fun c => ?_⟩
    rw [isSet_store, hmark, hbuf]
    split
    · rename_i hc
      rw [FsckVolume.isSet, hc]
      have hiff : (relSlcn ≤ c % fbBlockBits ∧ c % fbBlockBits < relSlcn + relLength) ↔
          (idx * fbBlockBits + relSlcn ≤ c ∧ c < idx * fbBlockBits + relSlcn + relLength) := by
        simp only [fbBlockBits] at *
        omega
      simp only [hiff]
    · rw [if_neg]
      simp only [fbBlockBits] at *
      omega
  · rw [hdup]
    apply noteAll_congr
    intro i hi
    rw [hbuf, Nat.add_assoc, isSet_block vol idx (by omega)]

theorem marks_ones
    (h : LcnbmpValid vol)
    (hin : idx * fbBlockBits + fbBlockBits ≤ vol.nrClusters) :
    Marks vol (vol.setSlot idx .ones) true (idx * fbBlockBits)
      (idx * fbBlockBits + fbBlockBits) := by
  refine ⟨h.setOnes (by rw [Nat.succ_mul]; exact hin), rfl, fun c => ?_⟩
  rw [isSet_setSlot]
  have hiff : c / fbBlockBits = idx ↔
      idx * fbBlockBits ≤ c ∧ c < idx * fbBlockBits + fbBlockBits := by
    simp only [fbBlockBits]
    omega
  simp only [hiff]
  rfl

variable (b : Bool) (vcn : Int)

/-- The body of the loop of `ntfs_fsck_set_lcnbmp_range` marks its part of the range. -/
theorem setLcnbmpBlock_spec
    (h : LcnbmpValid vol)
    (hbits : relSlcn + relLength ≤ fbBlockBits)
    (hin : idx * fbBlockBits + relSlcn + relLength ≤ vol.nrClusters) :
    Marks vol (setLcnbmpBlock b.toUInt8 idx relSlcn relLength vol) b
      (idx * fbBlockBits + relSlcn) (idx * fbBlockBits + relSlcn + relLength) := by
  have hmark := (markBlock_spec (fun _ d => (d + 1) % 2 ^ 64) b h hbits hin vol.lcnRangeDupCount).1
  have hmark' : ∀ n, Marks vol
      { (markBlock (fun _ d => (d + 1) % 2 ^ 64) b.toUInt8 idx relSlcn relLength
        (vol, vol.lcnRangeDupCount)).1 with lcnRangeDupCount := n } b
      (idx * fbBlockBits + relSlcn) (idx * fbBlockBits + relSlcn + relLength) :=
    fun n => ⟨⟨hmark.valid.1, hmark.valid.2⟩, hmark.nrClusters, hmark.isSet⟩
  unfold setLcnbmpBlock
  cases b with
  | true =>
    rw [if_pos (by decide)]
    split_ifs with hfast
    · obtain ⟨_, rfl, rfl⟩ := hfast
      rw [Nat.add_zero] at hin ⊢
      exact marks_ones h hin
    · exact (hmark' _).tryCollapse idx
  | false =>
    rw [if_neg (by decide)]
    split_ifs with habsent
    · exact Marks.of_absent h habsent hbits
    · exact hmark' _

/-- Checking and marking in one block. -/
theorem checkAndSetBlock_spec
    (checkedVcn : Nat)
    {s : FsckVolume × DupState}
    (h : LcnbmpValid s.1)
    (hbits : relSlcn + relLength ≤ fbBlockBits)
    (hin : idx * fbBlockBits + relSlcn + relLength ≤ s.1.nrClusters) :
    Marks s.1 (checkAndSetBlock b.toUInt8 vcn checkedVcn idx relSlcn relLength s).1 b
      (idx * fbBlockBits + relSlcn) (idx * fbBlockBits + relSlcn + relLength) ∧
    (checkAndSetBlock b.toUInt8 vcn checkedVcn idx relSlcn relLength s).2 =
      noteAll
        (fun i d => d.note (vcn + checkedVcn + i) ((idx * fbBlockBits + relSlcn + i : Nat) : Int))
        (fun i => b && s.1.isSet (idx * fbBlockBits + relSlcn + i)) relLength s.2 := by
  have habsentBits : (s.1.lcnBitmap idx).isAbsent = true →
      ∀ i < relLength, (b && s.1.isSet (idx * fbBlockBits + relSlcn + i)) = false := by
    intro habsent i hi
    rw [Nat.add_assoc, isSet_block s.1 idx (by omega)]
    cases hs : s.1.lcnBitmap idx <;> simp_all [LcnbmpSlot.isAbsent, LcnbmpSlot.bit]
  obtain ⟨hmark, hdup⟩ := markBlock_spec (fun i (d : DupState) => d.note (vcn + checkedVcn + i)
      ((idx * fbBlockBits + relSlcn + i : Nat) : Int)) b h hbits hin s.2
  unfold checkAndSetBlock
  split_ifs with hfast hnone
  · obtain ⟨hbit, habsent, hrel, hlen⟩ := hfast
    have hb : b = true := by
      cases b with
      | true => rfl
      | false => exact absurd rfl hbit
    rw [noteAll_congr _ (habsentBits habsent), noteAll_false]
    subst hb hrel hlen
    rw [Nat.add_zero] at hin ⊢
    exact ⟨marks_ones h hin, rfl⟩
  · obtain ⟨hbit, habsent⟩ := hnone
    have hb : b = false := by
      cases b with
      | true => cases hbit
      | false => rfl
    rw [noteAll_congr _ (habsentBits habsent), noteAll_false]
    subst hb
    exact ⟨Marks.of_absent h habsent hbits, rfl⟩
  · exact ⟨hmark.tryCollapse idx, hdup⟩

theorem fbRoundDown_cluster
    (c : Nat) :
    fbRoundDown (c / 8) = c / fbBlockBits := by
  simp only [fbRoundDown, ntfsBufSize, fbBlockBits]
  omega

/-- The rule of the loop over blocks, from a block in the middle of the range on. -/
theorem overBlocks_invariant
    {σ : Type}
    (body : Nat → Nat → Nat → Nat → σ → σ)
    (P : Nat → σ → Prop)
    (hstep : ∀ k idx rel len s, P k s → idx * fbBlockBits + rel = lcn + k →
      0 < len → rel + len ≤ fbBlockBits → k + len ≤ length → P (k + len) (body k idx rel len s))
    (n idx relSlcn remain k : Nat)
    (s : σ)
    (hn : n + idx = (lcn + length - 1) / fbBlockBits + 1)
    (hpos : 0 < remain)
    (hremain : k + remain = length)
    (hrel : relSlcn = 0 ∧ idx * fbBlockBits = lcn + k ∨
      k = 0 ∧ relSlcn = lcn ∧ idx = lcn / fbBlockBits)
    (hP : P k s) :
    P length (overBlocks body n idx relSlcn remain k s) := by
  induction n generalizing idx relSlcn remain k s with
  | zero =>
    simp only [fbBlockBits] at *
    omega
  | succ n ih =>
    rw [overBlocks]
    generalize hr : (if relSlcn ≠ 0 then relSlcn - idx * fbBlockBits else relSlcn) = rel
    generalize hl : (if remain < fbBlockBits - rel then remain else fbBlockBits - rel) = len
    have hcl : idx * fbBlockBits + rel = lcn + k ∧ rel < fbBlockBits := by
      simp only [fbBlockBits] at *
      split_ifs at hr <;> omega
    have hlen : 0 < len ∧ rel + len ≤ fbBlockBits ∧ len ≤ remain ∧
        (len < remain → rel + len = fbBlockBits) := by
      split_ifs at hl <;> omega
    have hP' := hstep k idx rel len s hP hcl.1 hlen.1 hlen.2.1 (by omega)
    split_ifs with hdone
    · have : k + len = length := by omega
      rwa [this] at hP'
    · apply ih
      · omega
      · omega
      · omega
      · left
        rw [Nat.succ_mul]
        omega
      · exact hP'

/-- The rule of the loop over a range: an invariant of the clusters done so far. -/
theorem overRange_invariant
    {σ : Type}
    (body : Nat → Nat → Nat → Nat → σ → σ)
    (hlen : 0 < length)
    (P : Nat → σ → Prop)
    (hstep : ∀ k idx rel len s, P k s → idx * fbBlockBits + rel = lcn + k →
      0 < len → rel + len ≤ fbBlockBits → k + len ≤ length → P (k + len) (body k idx rel len s))
    (s : σ)
    (hP : P 0 s) :
    P length (overRange body lcn length s) := by
  unfold overRange
  dsimp only
  rw [fbRoundDown_cluster, fbRoundDown_cluster]
  apply overBlocks_invariant body P hstep
  · simp only [fbBlockBits]
    omega
  · exact hlen
  · omega
  · right
    exact ⟨rfl, rfl, rfl⟩
  · exact hP

/-- A range inside the volume is marked, whatever blocks it spans. -/
theorem setLcnbmpRange_spec
    (h : LcnbmpValid vol)
    {length : Int}
    (hlen : 0 < length)
    (hin : lcn + length ≤ vol.nrClusters) :
    ∃ vol', setLcnbmpRange vol lcn length b.toUInt8 = .ok vol' ∧
      Marks vol vol' b lcn (lcn + length.toNat) := by
  refine ⟨_, by rw [setLcnbmpRange, if_neg (by omega)], ?_⟩
  apply overRange_invariant _ (by omega) (fun k v => Marks vol v b lcn (lcn + k))
  · intro k idx rel len v hv hcl hpos hbits hk
    have hin' : idx * fbBlockBits + rel + len ≤ v.nrClusters := by
      rw [hv.nrClusters]
      omega
    have hnext := setLcnbmpBlock_spec b hv.valid hbits hin'
    rw [hcl, Nat.add_assoc] at hnext
    exact hv.trans hnext (by omega) (by omega)
  · exact Marks.refl h b lcn

/--
The scan of `ntfs_fsck_check_and_set_lcnbmp` over a run inside the volume: the
run is marked, and the clusters that were marked before are noted in order.
-/
theorem checkAndSet_scan
    (h : LcnbmpValid vol)
    (hlen : 0 < length)
    (hin : lcn + length ≤ vol.nrClusters)
    (d : DupState) :
    Marks vol (overRange (checkAndSetBlock b.toUInt8 vcn) lcn length (vol, d)).1 b
      lcn (lcn + length) ∧
    (overRange (checkAndSetBlock b.toUInt8 vcn) lcn length (vol, d)).2 =
      noteAll (fun i d => d.note (vcn + i) ((lcn + i : Nat) : Int))
        (fun i => b && vol.isSet (lcn + i)) length d := by
  apply overRange_invariant _ hlen (fun k (s : FsckVolume × DupState) =>
    Marks vol s.1 b lcn (lcn + k) ∧
      s.2 = noteAll (fun i d => d.note (vcn + i) ((lcn + i : Nat) : Int))
        (fun i => b && vol.isSet (lcn + i)) k d)
  · rintro k idx rel len s ⟨hs, hdup⟩ hcl hpos hbits hk
    have hin' : idx * fbBlockBits + rel + len ≤ s.1.nrClusters := by
      rw [hs.nrClusters]
      omega
    obtain ⟨hnext, hnote⟩ := checkAndSetBlock_spec b vcn k hs.valid hbits hin'
    rw [hcl] at hnext hnote
    rw [Nat.add_assoc] at hnext
    refine ⟨hs.trans hnext (by omega) (by omega), ?_⟩
    rw [hnote, hdup, noteAll_add]
    -- the clusters ahead still have the value they had before the scan
    have hahead : ∀ i < len, (b && s.1.isSet (lcn + k + i)) = (b && vol.isSet (lcn + (k + i))) := by
      intro i _
      rw [hs.isSet, if_neg (by omega), Nat.add_assoc]
    rw [noteAll_congr _ hahead]
    simp only [Nat.cast_add, Int.add_assoc]
  · exact ⟨Marks.refl h b lcn, rfl⟩

end Ranges

end NtfsPlus.Libntfs

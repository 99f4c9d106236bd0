import Mathlib.Tactic

/-!
# The index bitmap on disk and in memory

`ntfs_ibm_modify` sets or clears the bit of an index block in the `$BITMAP` of
the index and, while the volume is checked, in the copy `fsck_ibm`.  On disk the
bit is that of the number of the block; in memory it is that of its VCN.  When
the bitmap on disk grows it grows by zeros, while the copy grows by whatever
`realloc` finds.

`ibmModify_agree_iff` says when the two agree after every sequence of calls.
-/

namespace NtfsPlus.Libntfs

section Model

/-- The sizes of clusters and index blocks, as powers of two. -/
structure IndexGeometry where
  clusterSizeBits : Nat
  blockSizeBits : Nat
  cluster_ge : 9 ≤ clusterSizeBits
  block_ge : 9 ≤ blockSizeBits

/-- `vcn_size_bits` of an index. -/
def IndexGeometry.vcnSizeBits (g : IndexGeometry) : Nat :=
  if 2 ^ g.clusterSizeBits ≤ 2 ^ g.blockSizeBits then g.clusterSizeBits else 9

/-- `ntfs_ibm_pos_to_vcn`. -/
def ibmPosToVcn (g : IndexGeometry) (pos : Nat) : Nat :=
  pos * 2 ^ g.blockSizeBits / 2 ^ g.vcnSizeBits

/-- `ntfs_ibm_vcn_to_pos`. -/
def ibmVcnToPos (g : IndexGeometry) (vcn : Nat) : Nat :=
  vcn * 2 ^ g.vcnSizeBits / 2 ^ g.blockSizeBits

/-- Both bitmaps, as bits and with their sizes in bytes. -/
structure IndexBitmaps where
  /-- `data_size` of `$BITMAP`. -/
  dataSize : Nat
  disk : Nat → Bool
  /-- `fsck_ibm_size`. -/
  ibmSize : Nat
  ibm : Nat → Bool

/-- An allocation or a free of an index block; its place in the bitmap fits in an `int`. -/
structure IbmOp where
  block : Nat
  set : Bool
  /-- Whether `ntfs_attr_truncate` can enlarge `$BITMAP`. -/
  truncates : Bool
  block_lt : block < 2 ^ 34

/-- `(n + 8) & ~7`. -/
def grownSize (n : Nat) : Nat :=
  (n + 8) / 8 * 8

/-- `$BITMAP` one step larger, and `fsck_ibm` with it; `fresh` is what the memory holds. -/
def IndexBitmaps.grow (fresh : Nat → Bool) (b : IndexBitmaps) : IndexBitmaps where
  dataSize := grownSize b.dataSize
  disk := fun q => if q < 8 * b.dataSize then b.disk q else false
  ibmSize := grownSize (grownSize b.dataSize)
  ibm := fun q => if q < 8 * b.ibmSize then b.ibm q else fresh q

/-- One bit of `fsck_ibm` and one bit of `$BITMAP`. -/
def IndexBitmaps.setBits (b : IndexBitmaps) (vcn pos : Nat) (set : Bool) : IndexBitmaps :=
  { b with
    ibm := Function.update b.ibm vcn set
    disk := Function.update b.disk pos set }

/-- `ntfs_ibm_modify` in fsck mode: whether it succeeds, and the bitmaps afterwards. -/
def ibmModify (g : IndexGeometry) (fresh : Nat → Bool) (b : IndexBitmaps) (op : IbmOp) :
    Bool × IndexBitmaps :=
  let vcn := ibmPosToVcn g op.block
  let pos := ibmVcnToPos g vcn
  let bpos := pos / 8 % 2 ^ 32
  let grows := op.set && decide (b.dataSize < (bpos + 1) % 2 ^ 32)
  if grows && !op.truncates then
    (false, b)
  else
    let b := if grows then b.grow fresh else b
    -- the byte of the bit has to be there to be read
    if bpos < b.dataSize then
      (true, b.setBits vcn (8 * bpos + pos % 8) op.set)
    else
      (false, b)

/-- A sequence of calls, failing ones included. -/
def ibmModifies (g : IndexGeometry) (fresh : Nat → Bool) (b : IndexBitmaps) (ops : List IbmOp) :
    IndexBitmaps :=
  ops.foldl (fun b op => (ibmModify g fresh b op).2) b

/-- The bitmaps have the same bit for every index block that `$BITMAP` has a bit for. -/
def IndexBitmaps.Agree (b : IndexBitmaps) : Prop :=
  ∀ q < 8 * b.dataSize, b.ibm q = b.disk q

end Model

section Positions

variable (g : IndexGeometry)

theorem IndexGeometry.vcnSizeBits_le : g.vcnSizeBits ≤ g.blockSizeBits := by
  unfold IndexGeometry.vcnSizeBits
  split_ifs with h
  · exact (Nat.pow_le_pow_iff_right (by decide)).mp h
  · exact g.block_ge

theorem ibmPosToVcn_eq
    (pos : Nat) :
    ibmPosToVcn g pos = pos * 2 ^ (g.blockSizeBits - g.vcnSizeBits) := by
  have hle := g.vcnSizeBits_le
  unfold ibmPosToVcn
  rw [show 2 ^ g.blockSizeBits = 2 ^ (g.blockSizeBits - g.vcnSizeBits) * 2 ^ g.vcnSizeBits by
      rw [← Nat.pow_add, Nat.sub_add_cancel hle], ← Nat.mul_assoc,
    Nat.mul_div_cancel _ (by positivity)]

/-- The position of the VCN of a position is that position. -/
theorem ibmVcnToPos_ibmPosToVcn
    (pos : Nat) :
    ibmVcnToPos g (ibmPosToVcn g pos) = pos := by
  have hle := g.vcnSizeBits_le
  rw [ibmPosToVcn_eq, ibmVcnToPos, Nat.mul_assoc, ← Nat.pow_add, Nat.sub_add_cancel hle,
    Nat.mul_div_cancel _ (by positivity)]

theorem grownSize_spec
    (n : Nat) :
    n < grownSize n ∧ grownSize n ≤ n + 8 ∧ grownSize n % 8 = 0 := by
  unfold grownSize
  omega

end Positions

section Calls

variable {g : IndexGeometry} {fresh : Nat → Bool} {b : IndexBitmaps} {op : IbmOp}

theorem ibmModify_eq
    (g : IndexGeometry)
    (fresh : Nat → Bool)
    (b : IndexBitmaps)
    (op : IbmOp) :
    ibmModify g fresh b op =
      let grows := op.set && decide (b.dataSize ≤ op.block / 8)
      if grows && !op.truncates then
        (false, b)
      else
        let b := if grows then b.grow fresh else b
        if op.block / 8 < b.dataSize then
          (true, b.setBits (ibmPosToVcn g op.block) op.block op.set)
        else
          (false, b) := by
  have hlt := op.block_lt
  have hbpos : op.block / 8 % 2 ^ 32 = op.block / 8 := Nat.mod_eq_of_lt (by omega)
  have hnext : (op.block / 8 + 1) % 2 ^ 32 = op.block / 8 + 1 := Nat.mod_eq_of_lt (by omega)
  have hbit : 8 * (op.block / 8) + op.block % 8 = op.block := by omega
  unfold ibmModify
  simp only [ibmVcnToPos_ibmPosToVcn, hbpos, hnext, hbit, Nat.lt_succ_iff]

/-- A bit inside the bitmap is set or cleared. -/
theorem ibmModify_inside
    (h : op.block < 8 * b.dataSize) :
    ibmModify g fresh b op = (true, b.setBits (ibmPosToVcn g op.block) op.block op.set) := by
  have hin : op.block / 8 < b.dataSize := by omega
  have hgrows : (op.set && decide (b.dataSize ≤ op.block / 8)) = false := by simp [hin]
  rw [ibmModify_eq, hgrows]
  simp only [Bool.false_and, Bool.false_eq_true, if_false, if_pos hin]

/-- A bit right behind the bitmap makes it grow. -/
theorem ibmModify_grows
    (hset : op.set = true)
    (htruncates : op.truncates = true)
    (hlow : 8 * b.dataSize ≤ op.block)
    (hhigh : op.block < 8 * grownSize b.dataSize) :
    ibmModify g fresh b op =
      (true, (b.grow fresh).setBits (ibmPosToVcn g op.block) op.block true) := by
  have hgrows : (op.set && decide (b.dataSize ≤ op.block / 8)) = true := by
    rw [hset, Bool.true_and, decide_eq_true_iff]
    omega
  have hin : op.block / 8 < (b.grow fresh).dataSize := by
    show op.block / 8 < grownSize b.dataSize
    omega
  rw [ibmModify_eq, hgrows, htruncates]
  simp only [Bool.not_true, Bool.and_false, Bool.false_eq_true, if_false, if_true, if_pos hin, hset]

/-- What a call can do: grow the bitmaps or not, and then set a bit in each of them or not. -/
theorem ibmModify_cases
    (g : IndexGeometry)
    (fresh : Nat → Bool)
    (b : IndexBitmaps)
    (op : IbmOp) :
    ∃ b', (b' = b ∨ b' = b.grow fresh ∧ b.dataSize ≤ op.block / 8) ∧
      ((ibmModify g fresh b op).2 = b' ∨
        op.block < 8 * b'.dataSize ∧
        (ibmModify g fresh b op).2 = b'.setBits (ibmPosToVcn g op.block) op.block op.set) := by
  rw [ibmModify_eq]
  cases hgrows : op.set && decide (b.dataSize ≤ op.block / 8) with
  | false =>
    refine ⟨b, Or.inl rfl, ?_⟩
    simp only [Bool.false_and, Bool.false_eq_true, if_false]
    split_ifs with hin
    · exact Or.inr ⟨by omega, rfl⟩
    · exact Or.inl rfl
  | true =>
    have hlow : b.dataSize ≤ op.block / 8 := by
      simp only [Bool.and_eq_true, decide_eq_true_eq] at hgrows
      exact hgrows.2
    cases htruncates : op.truncates with
    | false => exact ⟨b, Or.inl rfl, Or.inl rfl⟩
    | true =>
      refine ⟨b.grow fresh, Or.inr ⟨rfl, hlow⟩, ?_⟩
      simp only [Bool.not_true, Bool.and_false, Bool.false_eq_true, if_false, if_true]
      split_ifs with hin
      · exact Or.inr ⟨by omega, rfl⟩
      · exact Or.inl rfl

end Calls

section Agreement

variable {g : IndexGeometry} {fresh : Nat → Bool} {b : IndexBitmaps}

theorem ibmModifies_cons
    (op : IbmOp)
    (ops : List IbmOp) :
    ibmModifies g fresh b (op :: ops) = ibmModifies g fresh (ibmModify g fresh b op).2 ops :=
  rfl

@[simp] theorem ibmModifies_nil : ibmModifies g fresh b [] = b :=
  rfl

/-- The bitmaps agree, and what `fsck_ibm` has in reserve is zero. -/
structure InStep (start : Nat) (b : IndexBitmaps) : Prop where
  start_le : start ≤ b.dataSize
  size_le : b.dataSize ≤ b.ibmSize
  agree : b.Agree
  reserve : ∀ q, 8 * b.dataSize ≤ q → q < 8 * b.ibmSize → q < 2 ^ 34 → b.ibm q = false

/-- Growing keeps both bitmaps in step. -/
theorem InStep.grow
    {start : Nat}
    (h : InStep start b)
    (hfresh : ∀ q, 8 * start ≤ q → q < 2 ^ 34 → fresh q = false)
    (hsmall : b.dataSize < 2 ^ 31) :
    InStep start (b.grow fresh) := by
  obtain ⟨hstart, hsize, hagree, hreserve⟩ := h
  have hgrown := grownSize_spec b.dataSize
  have hgrown' := grownSize_spec (grownSize b.dataSize)
  have hzero : ∀ q, 8 * b.dataSize ≤ q → q < 2 ^ 34 → (b.grow fresh).ibm q = false := by
    intro q hlow hhigh
    show (if q < 8 * b.ibmSize then b.ibm q else fresh q) = false
    split_ifs with hold
    · exact hreserve q hlow hold hhigh
    · exact hfresh q (by omega) hhigh
  refine ⟨?_, ?_, ?_, ?_⟩
  · show start ≤ grownSize b.dataSize
    omega
  · show grownSize b.dataSize ≤ grownSize (grownSize b.dataSize)
    omega
  · intro q hq
    change q < 8 * grownSize b.dataSize at hq
    show _ = if q < 8 * b.dataSize then b.disk q else false
    split_ifs with hold
    · rw [← hagree q hold]
      exact if_pos (by omega)
    · exact hzero q (by omega) (by omega)
  · intro q hlow hhigh hlt
    change 8 * grownSize b.dataSize ≤ q at hlow
    exact hzero q (by omega) hlt

/-- So does setting a bit. -/
theorem InStep.setBits
    {start pos : Nat}
    (h : InStep start b)
    (hpos : pos < 8 * b.dataSize)
    (set : Bool) :
    InStep start (b.setBits pos pos set) := by
  obtain ⟨hstart, hsize, hagree, hreserve⟩ := h
  refine ⟨hstart, hsize, ?_, ?_⟩
  · intro q hq
    show Function.update b.ibm pos set q = Function.update b.disk pos set q
    by_cases hqp : q = pos
    · rw [hqp, Function.update_self, Function.update_self]
    · rw [Function.update_of_ne hqp, Function.update_of_ne hqp]
      exact hagree q hq
  · intro q hlow hhigh hlt
    change 8 * b.dataSize ≤ q at hlow
    show Function.update b.ibm pos set q = false
    rw [Function.update_of_ne (by omega)]
    exact hreserve q hlow hhigh hlt

/-- One call keeps the bitmaps in step when blocks and VCNs are the same. -/
theorem InStep.ibmModify
    {start : Nat}
    (h : InStep start b)
    (hsame : g.vcnSizeBits = g.blockSizeBits)
    (hfresh : ∀ q, 8 * start ≤ q → q < 2 ^ 34 → fresh q = false)
    (op : IbmOp) :
    InStep start (ibmModify g fresh b op).2 := by
  have hvcn : ibmPosToVcn g op.block = op.block := by
    rw [ibmPosToVcn_eq, hsame, Nat.sub_self, Nat.pow_zero, Nat.mul_one]
  have hlt := op.block_lt
  obtain ⟨b', hb', hresult⟩ := ibmModify_cases g fresh b op
  have hstep : InStep start b' := by
    rcases hb' with rfl | ⟨rfl, hlow⟩
    · exact h
    · exact h.grow hfresh (by omega)
  rw [hvcn] at hresult
  rcases hresult with heq | ⟨hin, heq⟩
  · rw [heq]
    exact hstep
  · rw [heq]
    exact hstep.setBits hin op.set

/-- And every sequence of changes. -/
theorem InStep.ibmModifies
    {start : Nat}
    (h : InStep start b)
    (hsame : g.vcnSizeBits = g.blockSizeBits)
    (hfresh : ∀ q, 8 * start ≤ q → q < 2 ^ 34 → fresh q = false)
    (ops : List IbmOp) :
    InStep start (ibmModifies g fresh b ops) := by
  induction ops generalizing b with
  | nil => exact h
  | cons op rest ih => exact ih (h.ibmModify hsame hfresh op)

/-- What `fsck_ibm` has in reserve is as `realloc` left it. -/
def FreshReserve (fresh : Nat → Bool) (b : IndexBitmaps) : Prop :=
  ∀ q, 8 * b.dataSize ≤ q → q < 8 * b.ibmSize → b.ibm q = fresh q

/-- Allocations of other blocks bring the bit of `q` into both bitmaps. -/
theorem exists_ibmModifies_exposing
    (hsame : g.vcnSizeBits = g.blockSizeBits)
    (hreserve : FreshReserve fresh b)
    {q : Nat}
    (hlow : 8 * b.dataSize ≤ q)
    (hlt : q < 2 ^ 34) :
    ∃ ops, q < 8 * (ibmModifies g fresh b ops).dataSize ∧
      (ibmModifies g fresh b ops).ibm q = fresh q ∧
      (ibmModifies g fresh b ops).disk q = false := by
  induction hn : q - 8 * b.dataSize using Nat.strong_induction_on generalizing b with
  | _ n ih =>
    -- a bit of the next byte that is not the one of `q`
    obtain ⟨r, hr, hne, hrlt⟩ : ∃ r, (r = 8 * b.dataSize ∨ r = 8 * b.dataSize + 1) ∧ r ≠ q ∧
        r < 2 ^ 34 := by
      by_cases hq : q = 8 * b.dataSize
      · exact ⟨8 * b.dataSize + 1, Or.inr rfl, by omega, by omega⟩
      · exact ⟨8 * b.dataSize, Or.inl rfl, by omega, by omega⟩
    have hgrown := grownSize_spec b.dataSize
    have hvcn : ibmPosToVcn g r = r := by
      rw [ibmPosToVcn_eq, hsame, Nat.sub_self, Nat.pow_zero, Nat.mul_one]
    have hcall : (ibmModify g fresh b ⟨r, true, true, hrlt⟩).2 =
        (b.grow fresh).setBits r r true := by
      rw [ibmModify_grows rfl rfl (show 8 * b.dataSize ≤ r by omega)
        (show r < 8 * grownSize b.dataSize by omega)]
      rw [hvcn]
    have hibm : ∀ i, 8 * b.dataSize ≤ i → i ≠ r →
        ((b.grow fresh).setBits r r true).ibm i = fresh i := by
      intro i hi hir
      show Function.update (b.grow fresh).ibm r true i = fresh i
      rw [Function.update_of_ne hir]
      show (if i < 8 * b.ibmSize then b.ibm i else fresh i) = fresh i
      split_ifs with hold
      · exact hreserve i hi hold
      · rfl
    by_cases hcovered : q < 8 * grownSize b.dataSize
    · refine ⟨[⟨r, true, true, hrlt⟩], ?_⟩
      rw [ibmModifies_cons, hcall]
      refine ⟨hcovered, hibm q hlow (Ne.symm hne), ?_⟩
      show Function.update (b.grow fresh).disk r true q = false
      rw [Function.update_of_ne (Ne.symm hne)]
      exact if_neg (by omega)
    · have hreserve' : FreshReserve fresh ((b.grow fresh).setBits r r true) := by
        intro i hi _
        change 8 * grownSize b.dataSize ≤ i at hi
        exact hibm i (by omega) (by omega)
      obtain ⟨ops, hops⟩ := ih (q - 8 * grownSize b.dataSize) (by omega) hreserve'
        (show 8 * grownSize b.dataSize ≤ q by omega) rfl
      refine ⟨⟨r, true, true, hrlt⟩ :: ops, ?_⟩
      rw [ibmModifies_cons, hcall]
      exact hops

/-- With several VCNs in a block, allocating and freeing block 1 is enough to disagree. -/
theorem not_agree_of_small_vcn
    (g : IndexGeometry)
    (fresh : Nat → Bool)
    (b : IndexBitmaps)
    (hne : g.vcnSizeBits ≠ g.blockSizeBits) :
    ¬∀ ops, (ibmModifies g fresh b ops).Agree := by
  intro hall
  have hle := g.vcnSizeBits_le
  have hgrown := grownSize_spec b.dataSize
  have hvcn : ibmPosToVcn g 1 ≠ 1 := by
    have hpow : 1 < 2 ^ (g.blockSizeBits - g.vcnSizeBits) := Nat.one_lt_two_pow (by omega)
    rw [ibmPosToVcn_eq]
    omega
  -- an allocation of block 1 leaves its bit set on disk
  obtain ⟨b', hb', hsize⟩ : ∃ b' : IndexBitmaps,
      (ibmModify g fresh b ⟨1, true, true, by decide⟩).2 = b'.setBits (ibmPosToVcn g 1) 1 true ∧
        1 < 8 * b'.dataSize := by
    by_cases hin : 1 < 8 * b.dataSize
    · exact ⟨b, by rw [ibmModify_inside hin], hin⟩
    · have hhigh : 1 < 8 * grownSize b.dataSize := by omega
      exact ⟨b.grow fresh, by rw [ibmModify_grows rfl rfl (by dsimp only; omega) hhigh], hhigh⟩
  have hset := hall [⟨1, true, true, by decide⟩]
  have hcleared := hall [⟨1, true, true, by decide⟩, ⟨1, false, true, by decide⟩]
  rw [ibmModifies_cons, hb', ibmModifies_nil] at hset
  rw [ibmModifies_cons, hb', ibmModifies_cons, ibmModify_inside hsize, ibmModifies_nil] at hcleared
  have hbit := hset 1 hsize
  have hbit' := hcleared 1 hsize
  simp only [IndexBitmaps.setBits, Function.update_of_ne (Ne.symm hvcn)] at hbit hbit'
  rw [hbit] at hbit'
  cases hbit'

/-- The bitmaps agree after all sequences of calls exactly in this case. -/
theorem ibmModify_agree_iff
    (g : IndexGeometry)
    (fresh : Nat → Bool)
    (b : IndexBitmaps)
    (hsize : b.ibmSize = b.dataSize)
    (hagree : b.Agree) :
    (∀ ops, (ibmModifies g fresh b ops).Agree) ↔ g.vcnSizeBits = g.blockSizeBits ∧
        ∀ q, 8 * b.dataSize ≤ q → q < 2 ^ 34 → fresh q = false := by
  constructor
  · intro hall
    have hsame : g.vcnSizeBits = g.blockSizeBits := by
      by_contra hne
      exact not_agree_of_small_vcn g fresh b hne hall
    refine ⟨hsame, fun q hlow hlt => ?_⟩
    have hreserve : FreshReserve fresh b := fun i hi hi' => by omega
    obtain ⟨ops, hin, hibm, hdisk⟩ := exists_ibmModifies_exposing hsame hreserve hlow hlt
    rw [← hibm, hall ops q hin, hdisk]
  · rintro ⟨hsame, hfresh⟩ ops
    have hstep : InStep b.dataSize b :=
      ⟨le_rfl, hsize.ge, hagree, fun q hlow hhigh _ => by omega⟩
    exact (hstep.ibmModifies hsame hfresh ops).agree

/-- Clusters of 1 KiB and index blocks of 4 KiB. -/
def smallClusters : IndexGeometry := ⟨10, 12, by decide, by decide⟩

/-- Clusters and index blocks of 4 KiB. -/
def equalSizes : IndexGeometry := ⟨12, 12, by decide, by decide⟩

/-- Bitmaps of eight bytes without a bit set. -/
def zeroBitmaps : IndexBitmaps := ⟨8, fun _ => false, 8, fun _ => false⟩

/-- Allocating block 1 sets its bit on disk and that of VCN 4 in memory. -/
theorem ibmModify_sets_bit_of_vcn :
    zeroBitmaps.Agree ∧
    (ibmModify smallClusters (fun _ => false) zeroBitmaps ⟨1, true, true, by decide⟩).1 = true ∧
    ¬(ibmModifies smallClusters (fun _ => false) zeroBitmaps
      [⟨1, true, true, by decide⟩]).Agree := by
  refine ⟨fun _ _ => rfl, by decide, ?_⟩
  intro hagree
  have hbit := hagree 1 (by decide)
  revert hbit
  decide

theorem ibmModify_agree_equalSizes :
    zeroBitmaps.Agree ∧ ∀ ops, (ibmModifies equalSizes (fun _ => false) zeroBitmaps ops).Agree :=
  ⟨fun _ _ => rfl,
    (ibmModify_agree_iff equalSizes (fun _ => false) zeroBitmaps rfl (fun _ _ => rfl)).mpr
      ⟨rfl, fun _ _ _ => rfl⟩⟩

end Agreement

end NtfsPlus.Libntfs

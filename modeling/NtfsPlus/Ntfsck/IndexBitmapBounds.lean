import NtfsPlus.Lib.SignedBytes
import NtfsPlus.Ntfsck.IndexBitmap

/-!
# The bits that `ntfsck_set_index_bitmap` sets

For an entry in a leaf the function sets the bits of the leaf and of the blocks above it in
`fsck_ibm`, and makes the buffer large enough for the leaf only.  A path is the VCNs from
`parent_vcn`, which come from the disk and can be any 64-bit numbers.  If the buffer cannot be
enlarged the function returns before it sets a bit.

`setIndexBitmap` is the same function on an index whose VCNs are block numbers; there a bit
outside of the buffer is lost (`inside_iff_growIbm`).
-/

namespace NtfsPlus.Ntfsck

open SignedBytes Libntfs

section Model

/-- An index context in a leaf, and the size of `fsck_ibm`. -/
structure LeafPath where
  /-- `parent_vcn[pindex]`. -/
  leaf : Int
  /-- `parent_vcn[pindex - 1]` to `parent_vcn[1]`. -/
  above : List Int
  vcnSizeBits : Nat
  blockSize : Nat
  ibmSize : Nat
  ibmSize_u32 : ibmSize < 4294967296

variable (p : LeafPath)

/-- `pos`, the number of the block at a VCN. -/
def LeafPath.pos (vcn : Int) : Int :=
  (s64 (vcn * 2 ^ p.vcnSizeBits)).tdiv p.blockSize

/-- `bpos`, a `u32`. -/
def LeafPath.bpos : Nat :=
  (p.pos p.leaf / 8 % 4294967296).toNat

/-- The size of the buffer when the bits are set. -/
def LeafPath.newSize : Nat :=
  if p.ibmSize < (p.bpos + 1) % 4294967296 then (p.bpos + 1 + 7) % 4294967296 / 8 * 8
  else p.ibmSize

/-- The bits that are set. -/
def LeafPath.bits : List Int :=
  (p.leaf :: p.above).map p.pos

/-- Every bit lies inside the buffer. -/
def LeafPath.Inside : Prop :=
  ∀ b ∈ p.bits, 0 ≤ b ∧ b < 8 * p.newSize

end Model

section Result

variable {p : LeafPath} {b : Int}

/-- A leaf behind the buffer makes it as large as the leaf needs, unless the new size is no
longer a `u32`. -/
theorem inside_newSize_iff
    (hleaf : 0 ≤ p.pos p.leaf)
    (hfits : p.pos p.leaf < 8 * p.ibmSize ∨ p.pos p.leaf < 34359738304) :
    b < 8 * p.newSize ↔
      b < 8 * p.ibmSize ∨ 8 * p.ibmSize ≤ p.pos p.leaf ∧ b / 64 ≤ p.pos p.leaf / 64 := by
  have hsize := p.ibmSize_u32
  unfold LeafPath.newSize LeafPath.bpos
  split_ifs <;> omega

theorem leaf_fits
    (h : p.pos p.leaf < 8 * p.newSize) :
    p.pos p.leaf < 8 * p.ibmSize ∨ p.pos p.leaf < 34359738304 := by
  have hsize := p.ibmSize_u32
  unfold LeafPath.newSize LeafPath.bpos at h
  split_ifs at h <;> omega

/-- The bits lie inside the buffer exactly when the number of the leaf is inside the old one or
below 2^35 - 64, and that of each block above it is inside the old one or, if the buffer grows,
at most in the 64 bits of the leaf. -/
theorem setIndexBitmap_inside_iff
    (p : LeafPath) :
    p.Inside ↔
      0 ≤ p.pos p.leaf ∧ (p.pos p.leaf < 8 * p.ibmSize ∨ p.pos p.leaf < 34359738304) ∧
        ∀ vcn ∈ p.above, 0 ≤ p.pos vcn ∧ (p.pos vcn < 8 * p.ibmSize ∨
          8 * p.ibmSize ≤ p.pos p.leaf ∧ p.pos vcn / 64 ≤ p.pos p.leaf / 64) := by
  rw [LeafPath.Inside, LeafPath.bits, List.forall_mem_map, List.forall_mem_cons]
  constructor
  · rintro ⟨⟨hleaf, hin⟩, habove⟩
    have hfits := leaf_fits hin
    exact ⟨hleaf, hfits, fun vcn h =>
      (habove vcn h).imp_right (inside_newSize_iff hleaf hfits).mp⟩
  · rintro ⟨hleaf, hfits, habove⟩
    have hiff := fun b => @inside_newSize_iff p b hleaf hfits
    refine ⟨⟨hleaf, (hiff _).mpr ?_⟩, fun vcn h => (habove vcn h).imp_right (hiff _).mpr⟩
    omega

/-- Where the VCNs are block numbers, the bits lie inside the buffer exactly when
`setIndexBitmap` loses none of them. -/
theorem inside_iff_growIbm
    (p : LeafPath)
    {f : Frames} {ibm : List Bool} {v : Nat}
    (hibm : ibm.length = 8 * p.ibmSize)
    (hbits : p.bits = (frameBlocks f).map Int.ofNat)
    (hleaf : p.pos p.leaf = v)
    (hv : v < 34359738304) :
    p.Inside ↔ ∀ b ∈ frameBlocks f, b < (growIbm ibm v).length := by
  have hsize : 8 * p.newSize = (growIbm ibm v).length := by
    unfold LeafPath.newSize LeafPath.bpos growIbm
    rw [hleaf]
    split_ifs
    · rw [List.length_append, List.length_replicate]
      omega
    all_goals omega
  rw [LeafPath.Inside, hbits, List.forall_mem_map]
  refine forall₂_congr fun b _ => ?_
  rw [← hsize]
  simp only [Int.ofNat_eq_natCast]
  omega

/-- The leaf is block 0, and the block above it is block 64 of a buffer of 64 bits. -/
theorem setIndexBitmap_above_outside : ¬LeafPath.Inside ⟨0, [64], 12, 4096, 8, by decide⟩ := by
  intro h
  exact absurd (h 64 (by decide)).2 (by decide)

end Result

end NtfsPlus.Ntfsck

import NtfsPlus.Lib.BitField
import NtfsPlus.Libntfs.Mst

/-!
# Wiping the index blocks

`wipe_index_allocation` of `src/ntfswipe.c` fills the unused blocks of a directory, and in a
block in use the room behind the entries.  The bitmap is read as far as `$INDEX_ALLOCATION`
goes, and where the entries end is what the block says.
-/

namespace NtfsPlus.Ntfswipe

open Libntfs

section Model

/-- The attributes and the blocks. -/
structure IndexAllocation where
  /-- `naa->allocated_size`. -/
  allocatedSize : Nat
  /-- `indx_record_size`. -/
  recordSize : Nat
  /-- `nab->data_size`. -/
  bitmapSize : Nat
  /-- The memory from the bitmap buffer on. -/
  bitmap : Bytes
  /-- What `ntfs_rl_pread` of a block gives. -/
  block : Nat → Option Bytes
  /-- Whether `ntfs_rl_pwrite` of a block succeeds. -/
  writes : Nat → Bool
  recordSize_pos : 0 < recordSize
  recordSize_u32 : recordSize < 4294967296

/-- What the loop does with one block; a range is its first byte and its length. -/
structure BlockWipe where
  obyte : Nat
  /-- The fields of `buf` that are read. -/
  reads : List (Nat × Nat)
  /-- What `memset` fills, with the end of the entries in front of it. -/
  filled : Option (Nat × Nat × Nat)
  /-- `wipe_size`, unless there is an error. -/
  wipeSize : Option Int

variable (ia : IndexAllocation)

/-- The block after `ntfs_mst_post_read_fixup`, whose error is only logged. -/
def IndexAllocation.fixedUp (raw : Bytes) : Bytes :=
  (mstPostReadFixup raw ia.recordSize).2

/-- `index.allocated_size` is the one of the record size. -/
def IndexAllocation.sizeRight (raw : Bytes) : Bool :=
  (le32 (ia.fixedUp raw) 0x20 + 0x18) % 4294967296 = ia.recordSize

/-- The end of the entries of a block in use. -/
def IndexAllocation.entriesEnd (raw : Bytes) : Nat :=
  le32 (ia.fixedUp raw) 0x1c + 0x18

/-- One round of the loop: `wipe_offset` is a sum of `u32`, and `memset` takes a `size_t`. -/
def wipeIndexBlock (k : Nat) : BlockWipe :=
  let written := fun (n : Int) => if ia.writes k then some n else none
  if bitAt ia.bitmap k then
    match ia.block k with
    | none => ⟨k / 8, [], none, none⟩
    | some raw =>
      if ia.sizeRight raw then
        let wipeOffset := ia.entriesEnd raw % 4294967296
        let wipeSize : Int := ia.recordSize - wipeOffset
        ⟨k / 8, [(0x20, 4), (0x1c, 4)],
          some (ia.entriesEnd raw, wipeOffset, (wipeSize % 18446744073709551616).toNat),
          written wipeSize⟩
      else
        ⟨k / 8, [(0x20, 4)], none, none⟩
  else
    ⟨k / 8, [], some (0, 0, ia.recordSize), written ia.recordSize⟩

/-- The loop from block `k` on, with the value that is returned. -/
def wipeIndexBlocks : Nat → Nat → Int → List BlockWipe × Int
  | 0, _, total => ([], total)
  | n + 1, k, total =>
    let w := wipeIndexBlock ia k
    match w.wipeSize with
    | none => ([w], -1)
    | some size =>
      let (rest, total) := wipeIndexBlocks n (k + 1) (total + size)
      (w :: rest, total)

/-- `wipe_index_allocation`. -/
def wipeIndexAllocation : List BlockWipe × Int :=
  wipeIndexBlocks ia ((ia.allocatedSize + ia.recordSize - 1) / ia.recordSize) 0 0

/-- No access leaves its buffer, and no byte of the entries is filled. -/
def BlockWipe.Safe (w : BlockWipe) : Prop :=
  w.obyte < ia.bitmapSize ∧ (∀ r ∈ w.reads, r.1 + r.2 ≤ ia.recordSize) ∧
    ∀ f ∈ w.filled, f.2.1 + f.2.2 ≤ ia.recordSize ∧
      ∀ j, 0x18 ≤ j → j < f.1 → ¬(f.2.1 ≤ j ∧ j < f.2.1 + f.2.2)

/-- The loop goes on behind a block. -/
def IndexAllocation.goesOn (k : Nat) : Bool :=
  ia.writes k && (!bitAt ia.bitmap k || (ia.block k).any ia.sizeRight)

/-- The header of a block in use is inside the buffer, and its entries are. -/
def IndexAllocation.Fits (raw : Bytes) : Prop :=
  0x24 ≤ ia.recordSize ∧ (ia.sizeRight raw → ia.entriesEnd raw ≤ ia.recordSize)

end Model

section Result

variable {ia : IndexAllocation}

/-- The rounds are those of the blocks that all before go on to. -/
theorem mem_wipeIndexBlocks
    (n k : Nat)
    (total : Int)
    (w : BlockWipe) :
    w ∈ (wipeIndexBlocks ia n k total).1 ↔
      ∃ i < n, (∀ j < i, ia.goesOn (k + j)) ∧ w = wipeIndexBlock ia (k + i) := by
  have hgo (k : Nat) : (wipeIndexBlock ia k).wipeSize.isSome = ia.goesOn k := by
    unfold wipeIndexBlock IndexAllocation.goesOn
    cases ia.block k <;> grind
  induction n generalizing k total with
  | zero => simp [wipeIndexBlocks]
  | succ n ih =>
    simp only [wipeIndexBlocks, Nat.exists_lt_succ_left, Nat.forall_lt_succ_left, Nat.add_zero,
      ← hgo k]
    cases hsize : (wipeIndexBlock ia k).wipeSize with
    | none => simp
    | some size => simp [ih, Nat.add_assoc, Nat.add_comm 1]

theorem wipeIndexBlock_safe_iff
    (k : Nat) :
    (wipeIndexBlock ia k).Safe ia ↔
      k / 8 < ia.bitmapSize ∧ (bitAt ia.bitmap k → ∀ raw ∈ ia.block k, ia.Fits raw) := by
  unfold wipeIndexBlock BlockWipe.Safe IndexAllocation.Fits IndexAllocation.entriesEnd
  by_cases hbit : bitAt ia.bitmap k
  · cases hblock : ia.block k with
    | none => simp [hbit]
    | some raw =>
      by_cases hright : ia.sizeRight raw
      · have hu32 := ia.recordSize_u32
        have hlt := le32_lt (ia.fixedUp raw) 0x1c
        simp only [hbit, hright, if_true, List.forall_mem_cons, Option.mem_def, Option.some.injEq,
          forall_eq', forall_const]
        refine and_congr_right fun _ => ?_
        constructor
        · rintro ⟨⟨hsize, -⟩, hinside, hkept⟩
          have := hkept 0x18 le_rfl
          exact ⟨hsize, by omega⟩
        · rintro ⟨hsize, hfits⟩
          exact ⟨⟨hsize, by omega, by simp⟩, by omega, by omega⟩
      · simp [hbit, hright]
  · simp [hbit]

/-- No access leaves a buffer and no entry is overwritten exactly if every block that is reached
has its bit in the bitmap and fits, if it is in use and can be read. -/
theorem wipeIndexAllocation_safe_iff
    (ia : IndexAllocation) :
    (∀ w ∈ (wipeIndexAllocation ia).1, w.Safe ia) ↔
      ∀ k, k * ia.recordSize < ia.allocatedSize → (∀ i < k, ia.goesOn i) →
        k / 8 < ia.bitmapSize ∧ (bitAt ia.bitmap k → ∀ raw ∈ ia.block k, ia.Fits raw) := by
  have hcount (k : Nat) : k < (ia.allocatedSize + ia.recordSize - 1) / ia.recordSize ↔
      k * ia.recordSize < ia.allocatedSize := by
    have hpos := ia.recordSize_pos
    rw [Nat.lt_iff_add_one_le, Nat.le_div_iff_mul_le hpos, Nat.succ_mul]
    omega
  simp only [wipeIndexAllocation, mem_wipeIndexBlocks, hcount, Nat.zero_add,
    ← wipeIndexBlock_safe_iff]
  constructor
  · intro h k hk hgo
    exact h _ ⟨k, hk, hgo, rfl⟩
  · rintro h w ⟨k, hk, hgo, rfl⟩
    exact h k hk hgo

end Result

end NtfsPlus.Ntfswipe

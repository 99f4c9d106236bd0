import NtfsPlus.Lib.BitField
import NtfsPlus.Libntfs.RunlistBasic

/-!
# The fsck cluster bitmap

The shadow cluster bitmap of `libntfs/fsck.c`.  It is an array of blocks of
8192 bytes; a block that is entirely free or entirely allocated has no storage
of its own and is one of two sentinels.  Next to each block stands a counter of
its set bits, which decides when a literal block becomes the all-ones sentinel.

The two functions that mark a range of clusters walk over the blocks in the
same way (`overBlocks`) and over the bits of one block in the same way
(`markBits`); they differ in what they do with a cluster that is already
marked.  `ntfs_fsck_set_lcnbmp_range` counts it,
`ntfs_fsck_check_and_set_lcnbmp` adds it to a runlist of duplicates.

Allocation is taken to succeed.  A cluster number is a natural number: a
negative one would index the array in front of its first element.
-/

namespace NtfsPlus.Libntfs

section Model

/-- `FB_BLOCK_BITS`: clusters per block of `NTFS_BUF_SIZE` bytes. -/
def fbBlockBits : Nat := 65536

/-- `NTFS_BUF_SIZE`. -/
def ntfsBufSize : Nat := 8192

/-- `FB_ROUND_DOWN`: the block of a byte position. -/
def fbRoundDown (x : Nat) : Nat :=
  x / ntfsBufSize

/-- One pointer of `vol->fsck_lcn_bitmap`: `NULL`, `FB_ONES` or a block. -/
inductive LcnbmpSlot where
  | absent
  | ones
  | literal (buf : Bytes)

/-- The pointer is `NULL`. -/
def LcnbmpSlot.isAbsent : LcnbmpSlot → Bool
  | .absent => true
  | _ => false

/-- The fields of `ntfs_volume` that the cluster bitmap code uses. -/
structure FsckVolume where
  nrClusters : Nat
  nrClusters_pos : 0 < nrClusters
  clusterSizeBits : Nat
  lcnBitmap : Nat → LcnbmpSlot
  /-- `fsck_lcn_setcnt`, of type `u32`. -/
  lcnSetcnt : Nat → Nat
  /-- `fsck_lcn_range_dup_count`, of type `u64`. -/
  lcnRangeDupCount : Nat

/-- The cluster bitmap that `ntfs_fsck_mount` sets up. -/
def fsckMount (nrClusters clusterSizeBits : Nat) (h : 0 < nrClusters) : FsckVolume where
  nrClusters := nrClusters
  nrClusters_pos := h
  clusterSizeBits := clusterSizeBits
  lcnBitmap := fun _ => .absent
  lcnSetcnt := fun _ => 0
  lcnRangeDupCount := 0

/-- `vol->max_flb_cnt`. -/
def FsckVolume.maxFlbCnt (vol : FsckVolume) : Nat :=
  fbRoundDown ((vol.nrClusters - 1) / 8) + 1

/-- Assign one pointer of the block array. -/
def FsckVolume.setSlot (vol : FsckVolume) (idx : Nat) (slot : LcnbmpSlot) : FsckVolume :=
  { vol with lcnBitmap := Function.update vol.lcnBitmap idx slot }

/-- Store the bytes of a literal block together with its counter. -/
def FsckVolume.store (vol : FsckVolume) (idx : Nat) (buf : Bytes) (cnt : Nat) : FsckVolume :=
  { vol.setSlot idx (.literal buf) with
    lcnSetcnt := Function.update vol.lcnSetcnt idx cnt }

/-- `ntfs_fsck_lcnbmp_materialize`. -/
def lcnbmpMaterialize (vol : FsckVolume) (idx : Nat) : FsckVolume × Bytes :=
  match vol.lcnBitmap idx with
  | .literal buf => (vol, buf)
  | .ones => (vol.store idx (fun _ => 0xff) fbBlockBits, fun _ => 0xff)
  | .absent => (vol.store idx (fun _ => 0) 0, fun _ => 0)

/-- `ntfs_fsck_lcnbmp_try_collapse`. -/
def lcnbmpTryCollapse (vol : FsckVolume) (idx : Nat) : FsckVolume :=
  match vol.lcnBitmap idx with
  | .literal _ =>
    if vol.lcnSetcnt idx ≠ fbBlockBits then
      vol
    else
      vol.setSlot idx .ones
  | _ => vol

variable {δ : Type}

/-- What the loop over the bits of one block changes. -/
structure BlockState (δ : Type) where
  buf : Bytes
  setcnt : Nat
  dup : δ

/--
One iteration of the loop over the bits of a block.  `onDup` is what the caller
does with a bit it wants to set and finds set.
-/
def markBit (onDup : Nat → δ → δ) (bit : UInt8) (relSlcn i : Nat) (s : BlockState δ) :
    BlockState δ :=
  let r := bitGetAndSet s.buf (relSlcn + i) bit
  if r.2 = 0 then
    ⟨r.1, if bit ≠ 0 then (s.setcnt + 1) % 2 ^ 32 else s.setcnt, s.dup⟩
  else if bit = 0 then
    ⟨r.1, (s.setcnt + (2 ^ 32 - 1)) % 2 ^ 32, s.dup⟩
  else
    ⟨r.1, s.setcnt, onDup i s.dup⟩

/-- The first `n` iterations of the loop over the bits of a block. -/
def markBits (onDup : Nat → δ → δ) (bit : UInt8) (relSlcn : Nat) :
    Nat → BlockState δ → BlockState δ
  | 0, s => s
  | n + 1, s => markBit onDup bit relSlcn n (markBits onDup bit relSlcn n s)

/-- Mark bits of a block that is, or now becomes, a literal one. -/
def markBlock (onDup : Nat → δ → δ) (bit : UInt8) (idx relSlcn relLength : Nat)
    (s : FsckVolume × δ) : FsckVolume × δ :=
  let m := lcnbmpMaterialize s.1 idx
  let t := markBits onDup bit relSlcn relLength ⟨m.2, m.1.lcnSetcnt idx, s.2⟩
  (m.1.store idx t.buf t.setcnt, t.dup)

/--
The loop over the blocks of a range.  `body` gets the number of clusters done
so far, the block, and the part of the range that lies in it.
-/
def overBlocks {σ : Type} (body : Nat → Nat → Nat → Nat → σ → σ) :
    Nat → Nat → Nat → Nat → Nat → σ → σ
  | 0, _, _, _, _, s => s
  | n + 1, idx, relSlcn, remainLength, checked, s =>
    let idxSlcn := idx * fbBlockBits
    let rel := if relSlcn ≠ 0 then relSlcn - idxSlcn else relSlcn
    let relLength :=
      if remainLength < fbBlockBits - rel then remainLength else fbBlockBits - rel
    let s' := body checked idx rel relLength s
    if remainLength - relLength ≤ 0 then
      s'
    else
      overBlocks body n (idx + 1) 0 (remainLength - relLength) (checked + relLength) s'

/-- The loop over the blocks from the one of `lcn` to the one of the last cluster. -/
def overRange {σ : Type} (body : Nat → Nat → Nat → Nat → σ → σ) (lcn length : Nat) (s : σ) : σ :=
  let lastLcn := lcn + length - 1
  let sIdx := fbRoundDown (lcn / 8)
  let eIdx := fbRoundDown (lastLcn / 8)
  overBlocks body (eIdx + 1 - sIdx) sIdx lcn length 0 s

/-- The body of the loop of `ntfs_fsck_set_lcnbmp_range`. -/
def setLcnbmpBlock (bit : UInt8) (idx relSlcn relLength : Nat) (vol : FsckVolume) : FsckVolume :=
  let mark :=
    let r := markBlock (fun _ d => (d + 1) % 2 ^ 64) bit idx relSlcn relLength
      (vol, vol.lcnRangeDupCount)
    { r.1 with lcnRangeDupCount := r.2 }
  if bit ≠ 0 then
    if (vol.lcnBitmap idx).isAbsent ∧ relSlcn = 0 ∧ relLength = fbBlockBits then
      vol.setSlot idx .ones
    else
      lcnbmpTryCollapse mark idx
  else if (vol.lcnBitmap idx).isAbsent then
    vol
  else
    mark

/-- `ntfs_fsck_set_lcnbmp_range`. -/
def setLcnbmpRange (vol : FsckVolume) (lcn : Nat) (length : Int) (bit : UInt8) :
    Except Errno FsckVolume :=
  if length ≤ 0 then
    .error .einval
  else
    .ok (overRange (fun _ => setLcnbmpBlock bit) lcn length.toNat vol)

/-- `ntfs_fsck_make_dup_runlist`. -/
def makeDupRunlist (origDupRl : Option Runlist) (newDupRl : RunlistElement) : Runlist :=
  match origDupRl with
  | none => [newDupRl, enoentAt (newDupRl.vcn + newDupRl.length)]
  | some orig =>
    let runs := orig.takeWhile (fun e => e.length ≠ 0)
    let append := runs ++ [newDupRl, enoentAt (newDupRl.vcn + newDupRl.length)]
    match runs.getLast? with
    | none => append
    | some last =>
      if last.vcn + last.length = newDupRl.vcn ∧ last.lcn + last.length = newDupRl.lcn then
        let joined := { last with length := last.length + newDupRl.length }
        let term := (orig.drop runs.length).headD joined
        runs.dropLast ++ [joined, { term with vcn := joined.vcn + joined.length }]
      else
        append

/-- `tmp_rl[0]` and `dup_rl` of `ntfs_fsck_check_and_set_lcnbmp`. -/
structure DupState where
  tmp : RunlistElement
  dup : Option Runlist

/-- Note one duplicated cluster. -/
def DupState.note (s : DupState) (vcn lcn : Int) : DupState :=
  if s.tmp.lcn = -1 then
    ⟨⟨vcn, lcn, 1⟩, s.dup⟩
  else if s.tmp.lcn + s.tmp.length = lcn then
    ⟨{ s.tmp with length := s.tmp.length + 1 }, s.dup⟩
  else
    ⟨⟨vcn, lcn, 1⟩, some (makeDupRunlist s.dup s.tmp)⟩

/-- The body of the loop of `ntfs_fsck_check_and_set_lcnbmp`. -/
def checkAndSetBlock (bit : UInt8) (vcn : Int) (checkedVcn idx relSlcn relLength : Nat)
    (s : FsckVolume × DupState) : FsckVolume × DupState :=
  let idxSlcn := idx * fbBlockBits
  if bit ≠ 0 ∧ (s.1.lcnBitmap idx).isAbsent ∧ relSlcn = 0 ∧ relLength = fbBlockBits then
    (s.1.setSlot idx .ones, s.2)
  else if bit = 0 ∧ (s.1.lcnBitmap idx).isAbsent then
    s
  else
    let note := fun (i : Nat) (d : DupState) =>
      d.note (vcn + checkedVcn + i) ((idxSlcn + relSlcn + i : Nat) : Int)
    let r := markBlock note bit idx relSlcn relLength s
    (lcnbmpTryCollapse r.1 idx, r.2)

/-- `ntfs_fsck_check_and_set_lcnbmp` with the runlist of `na`. -/
def checkAndSetLcnbmp (vol : FsckVolume) (rl : Option Runlist) (rlIdx : Int) (bit : UInt8)
    (dupRl : Option Runlist) : FsckVolume × Option Runlist :=
  match rl with
  | none => (vol, none)
  | some rl =>
    if rlIdx < 0 then
      (vol, none)
    else
      let e := rl.getD rlIdx.toNat ⟨0, 0, 0⟩
      if e.length ≤ 0 then
        (vol, none)
      else
        let r := overRange (checkAndSetBlock bit e.vcn) e.lcn.toNat e.length.toNat
          (vol, ⟨⟨0, -1, 0⟩, dupRl⟩)
        if r.2.tmp.lcn ≥ 0 then
          (r.1, some (makeDupRunlist r.2.dup r.2.tmp))
        else
          (r.1, r.2.dup)

/-- `memset` of a part of a buffer. -/
def fillBytes (m : Bytes) (start len : Nat) (b : UInt8) : Bytes :=
  fun j => if start ≤ j ∧ j < start + len then b else m j

/-- `ntfs_fsck_fill_unused_lcnbmp`: the buffer it leaves. -/
def fillUnusedLcnbmp (vol : FsckVolume) (lastIdx : Nat) (lastBm : Bytes) : Bytes :=
  let startPos := lastIdx * ntfsBufSize
  let lastBitOffset := vol.nrClusters - startPos * 8
  let lastByteOffset := lastBitOffset / 8
  let bm :=
    if lastByteOffset + 1 < ntfsBufSize then
      fillBytes lastBm (lastByteOffset + 1) (ntfsBufSize - (lastByteOffset + 1)) 0xff
    else
      lastBm
  let lastBit := lastBitOffset - lastByteOffset * 8
  setByte bm lastByteOffset (bm lastByteOffset ||| UInt8.ofNat (0xff <<< lastBit))

/--
`ntfs_fsck_find_lcnbmp_block`: the block it returns, and the volume, whose
last block it pads in place when that is a literal one.
-/
def findLcnbmpBlock (vol : FsckVolume) (pos : Nat) : FsckVolume × Bytes :=
  let bmI := fbRoundDown pos % 2 ^ 32
  let lastIdx := fbRoundDown ((vol.nrClusters - 1) / 8) % 2 ^ 32
  let pad := fun (bm : Bytes) =>
    if bmI = lastIdx then fillUnusedLcnbmp vol lastIdx bm else bm
  if bmI ≥ vol.maxFlbCnt then
    (vol, pad (fun _ => 0))
  else
    match vol.lcnBitmap bmI with
    | .ones => (vol, fun _ => 0xff)
    | .absent => (vol, pad (fun _ => 0))
    | .literal buf => (vol.setSlot bmI (.literal (pad buf)), pad buf)

end Model

end NtfsPlus.Libntfs

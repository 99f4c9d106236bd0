import NtfsPlus.Libntfs.FsckLcnBitmap

/-!
# The cluster allocator

`ntfs_cluster_alloc` searches three zones of the volume in up to two passes
each.  It reads the cluster bitmap in windows of 4096 bytes, merges the
occupancy oracle of fsck into the window, takes one run of free clusters from
it and writes the window back.

The function is one loop with jumps into it and back, and is modelled as a
machine whose states are the places the jumps go to (`AllocLabel`).
`allocStep` is the code from one such place to the next.  What a search does
depends on the device only through reads and writes that fail; they take their
answers from `io`.  Clearing the bitmap again after an error is left out.
-/

namespace NtfsPlus.Libntfs

section Volume

/-- `ZONE_MFT`, `ZONE_DATA1` and `ZONE_DATA2`. -/
inductive Zone where
  | mft
  | data1
  | data2
deriving DecidableEq, Repr

/-- `MFT_ZONE` and `DATA_ZONE`. -/
inductive AllocationZone where
  | mftZone
  | dataZone
deriving DecidableEq, Repr

/-- What the allocator uses of a volume under fsck. -/
structure FsckAlloc where
  vol : FsckVolume
  /-- `fsck_alloc_bitmap`, the occupancy oracle. -/
  allocBitmap : Nat → LcnbmpSlot
  maxFlbCnt : Nat

/-- The fields of `ntfs_volume` that the allocator uses. -/
structure AllocVolume where
  nrClusters : Nat
  mftLcn : Nat
  mftZoneStart : Nat
  mftZoneEnd : Nat
  mftZonePos : Nat
  data1ZonePos : Nat
  data2ZonePos : Nat
  fullZones : Zone → Bool
  /-- `free_clusters`, if it is known. -/
  freeClusters : Option Int
  /-- The cluster bitmap on disk and its `data_size`. -/
  bitmap : Bytes
  bitmapSize : Nat
  /-- Only there if `NVolFsck(vol)`. -/
  fsck : Option FsckAlloc

/-- `LCNBMP_ALLOC_SIZE`, also `NTFS_LCNALLOC_SKIP`. -/
def lcnbmpAllocSize : Nat := 4096

/-- The position of a zone where the next search begins. -/
def AllocVolume.zonePos (vol : AllocVolume) : Zone → Nat
  | .mft => vol.mftZonePos
  | .data1 => vol.data1ZonePos
  | .data2 => vol.data2ZonePos

/-- The first cluster of a zone. -/
def AllocVolume.zoneStart (vol : AllocVolume) : Zone → Nat
  | .mft => vol.mftZoneStart
  | .data1 => vol.mftZoneEnd
  | .data2 => 0

/-- The end of a zone. -/
def AllocVolume.zoneEnd (vol : AllocVolume) : Zone → Nat
  | .mft => vol.mftZoneEnd
  | .data1 => vol.nrClusters
  | .data2 => vol.mftZoneStart

/-- `ntfs_cluster_set_zone_pos`. -/
def clusterSetZonePos (start limit pos tc : Nat) : Nat :=
  if tc ≥ limit then start else if tc ≥ start then tc else pos

/-- `ntfs_cluster_update_zone_pos`. -/
def clusterUpdateZonePos (vol : AllocVolume) (zone : Zone) (tc : Nat) : AllocVolume :=
  match zone with
  | .mft =>
    { vol with mftZonePos :=
        clusterSetZonePos vol.mftLcn vol.mftZoneEnd vol.mftZonePos tc }
  | .data1 =>
    { vol with data1ZonePos :=
        clusterSetZonePos vol.mftZoneEnd vol.nrClusters vol.data1ZonePos tc }
  | .data2 =>
    { vol with data2ZonePos :=
        clusterSetZonePos 0 vol.mftZoneStart vol.data2ZonePos tc }

/-- `ntfs_fsck_find_alloc_lcnbmp_block`. -/
def findAllocLcnbmpBlock (f : FsckAlloc) (bytePos : Nat) : Bytes :=
  let bmI := fbRoundDown bytePos % 2 ^ 32
  if bmI ≥ f.maxFlbCnt then fun _ => 0
  else
    match f.allocBitmap bmI with
    | .absent => fun _ => 0
    | .ones => fun _ => 0xff
    | .literal buf => buf

/-- The loop of `ntfs_fsck_or_alloc_lcnbmp`, when `done` bytes are merged. -/
def orAllocLcnbmpFrom (f : FsckAlloc) (bytePos nbytes : Nat) : Nat → Nat → Bytes → Bytes
  | 0, _, dst => dst
  | fuel + 1, done, dst =>
    if done < nbytes then
      let cur := bytePos + done
      let off := cur % ntfsBufSize
      let chunk := min (ntfsBufSize - off) (nbytes - done)
      let src := findAllocLcnbmpBlock f cur
      orAllocLcnbmpFrom f bytePos nbytes fuel (done + chunk)
        (fun j => if done ≤ j ∧ j < done + chunk then dst j ||| src (off + (j - done)) else dst j)
    else
      dst

/-- `ntfs_fsck_or_alloc_lcnbmp`. -/
def orAllocLcnbmp (f : FsckAlloc) (bytePos nbytes : Nat) (dst : Bytes) : Bytes :=
  orAllocLcnbmpFrom f bytePos nbytes nbytes 0 dst

end Volume

section Gaps

/-- The variables of `max_empty_bit_range`. -/
structure GapScan where
  run : Nat
  maxRange : Nat
  startPos : Option Nat
deriving DecidableEq, Repr

/-- A set bit at position `pos` ends a run. -/
def GapScan.stop (s : GapScan) (pos : Nat) : GapScan :=
  if s.run > s.maxRange then ⟨0, s.run, some (pos - s.run)⟩ else ⟨0, s.maxRange, s.startPos⟩

/-- The loop over the first `j` bits of byte `i`. -/
def gapBits (b : UInt8) (i : Nat) : Nat → GapScan → GapScan
  | 0, s => s
  | j + 1, s =>
    let s := gapBits b i j s
    if b.toNat.testBit j then s.stop (8 * i + j) else { s with run := s.run + 1 }

/-- One byte. -/
def gapByte (b : UInt8) (i : Nat) (s : GapScan) : GapScan :=
  if b = 0 then { s with run := s.run + 8 }
  else if b = 255 then s.stop (8 * i)
  else gapBits b i 8 s

/-- The first `i` bytes. -/
def gapBytes (buf : Bytes) : Nat → GapScan
  | 0 => ⟨0, 0, none⟩
  | i + 1 => gapByte (buf i) i (gapBytes buf i)

/-- `max_empty_bit_range`; `none` is -1. -/
def maxEmptyBitRange (buf : Bytes) (size : Nat) : Option Nat :=
  let s := gapBytes buf size
  if s.run > s.maxRange then some (8 * size - s.run) else s.startPos

end Gaps

section Windows

/-- What taking clusters from a window changes. -/
structure AllocWindow where
  vol : AllocVolume
  buf : Bytes
  writeback : Bool
  clusters : Nat
  /-- The runs so far, the last one first. -/
  runs : Runlist

/-- How taking a run ends: with the last cluster, at a used one, or with the window. -/
inductive RunEnd where
  | done (lcn : Nat)
  | used
  | exhausted
deriving DecidableEq, Repr

/-- Count one more allocated cluster in the fsck bitmap and in `free_clusters`. -/
def AllocVolume.note (vol : AllocVolume) (lcn : Nat) : AllocVolume :=
  { vol with
    fsck := vol.fsck.map (fun f =>
      match setLcnbmpRange f.vol lcn 1 1 with
      | .ok v => { f with vol := v }
      | .error _ => f)
    freeClusters := vol.freeClusters.map (fun n => if n ≤ 0 then n else n - 1) }

/-- Coalesce a cluster with the previous run, or append a new run. -/
def addCluster (startVcn : Int) (runs : Runlist) (lcn : Nat) : Runlist :=
  match runs with
  | [] => [⟨startVcn, lcn, 1⟩]
  | last :: rest =>
    if last.lcn = lcn - last.length then
      ⟨last.vcn, last.lcn, last.length + 1⟩ :: rest
    else
      ⟨last.vcn + last.length, lcn, 1⟩ :: last :: rest

/-- Allocate the cluster of one bit of the window. -/
def AllocWindow.take (startVcn : Int) (bmpPos lcn : Nat) (w : AllocWindow) : AllocWindow where
  vol := w.vol.note (lcn + bmpPos)
  buf := bitSet w.buf lcn 1
  writeback := true
  clusters := w.clusters - 1
  runs := addCluster startVcn w.runs (lcn + bmpPos)

/-- The loop over the bits of the window while there is a guess, for `n` more bits. -/
def takeRun (startVcn : Int) (bmpPos : Nat) : Nat → Nat → AllocWindow → AllocWindow × RunEnd
  | 0, _, w => (w, .exhausted)
  | n + 1, lcn, w =>
    if bitAt w.buf lcn then (w, .used)
    else
      let w' := w.take startVcn bmpPos lcn
      if w'.clusters = 0 then (w', .done (lcn + bmpPos))
      else takeRun startVcn bmpPos n (lcn + 1) w'

/--
The inner loop of `ntfs_cluster_alloc` over a window of `br` bytes: it follows
the guess at `lcn`, or without one goes to the largest gap of the window.  The
last component is the guess that is left.
-/
def scanWindow (startVcn : Int) (bmpPos br lcn : Nat) (hasGuess : Bool) (w : AllocWindow) :
    AllocWindow × RunEnd × Bool :=
  match (if hasGuess then some lcn else maxEmptyBitRange w.buf br) with
  | none => (w, .used, false)
  | some lcn =>
    let r := takeRun startVcn bmpPos (8 * br - lcn) lcn w
    (r.1, r.2, r.2 ≠ .used)

end Windows

section Search

/-- The places that the code of `ntfs_cluster_alloc` jumps to. -/
inductive AllocLabel where
  | top
  | zonePassDone
  | doneZonesCheck
deriving DecidableEq, Repr

/-- The variables of `ntfs_cluster_alloc`. -/
structure AllocState where
  label : AllocLabel
  vol : AllocVolume
  /-- Which of the coming accesses to the bitmap fail. -/
  io : Nat → Bool
  bmpPos : Nat
  zoneStart : Nat
  zoneEnd : Nat
  searchZone : Zone
  pass2 : Bool
  doneZones : Zone → Bool
  hasGuess : Bool
  usedZonePos : Bool
  clusters : Nat
  /-- The runs so far, the last one first. -/
  runs : Runlist

/-- Where the code goes from a label. -/
inductive AllocNext where
  | goto (st : AllocState)
  | done (vol : AllocVolume) (runs : Runlist)
  | fail (err : Errno) (st : AllocState)

/-- A position at which there is no first pass. -/
def AllocVolume.atZoneStart (vol : AllocVolume) (pos : Nat) : Bool :=
  pos = 0 || pos = vol.mftZoneStart || pos = vol.mftZoneEnd

/-- `bitmap_writeback`. -/
def bitmapWriteback (vol : AllocVolume) (pos size : Nat) (buf : Bytes) : AllocVolume :=
  { vol with bitmap := fun i => if pos ≤ i ∧ i < pos + size then buf (i - pos) else vol.bitmap i }

/-- The window at byte `pos`, with the oracle merged into it. -/
def readAllocWindow (vol : AllocVolume) (pos br : Nat) : Bytes :=
  match vol.fsck with
  | none => fun j => vol.bitmap (pos + j)
  | some f => orAllocLcnbmp f pos br (fun j => vol.bitmap (pos + j))

/-- The volume after a window has been searched and `bitmap_writeback`. -/
def writtenVolume (w : AllocWindow) (pos br : Nat) : AllocVolume :=
  if w.writeback then bitmapWriteback w.vol pos br w.buf else w.vol

/-- The next position after a window of `br` bytes; a hint gives way to the zone position. -/
def advance (st : AllocState) (br : Nat) : AllocState :=
  if st.usedZonePos then
    let pos := st.bmpPos / 8 * 8 + 8 * br
    { st with
      bmpPos := pos
      label := if pos < st.zoneEnd then .top else .zonePassDone }
  else
    let start := st.vol.zonePos st.searchZone
    { st with
      usedZonePos := true
      zoneStart := start
      pass2 := st.pass2 || st.vol.atZoneStart start
      bmpPos := start
      label := if start < st.zoneEnd then .top else .zonePassDone }

/-- The variables after a window has been searched and written back. -/
def AllocState.scanned (st : AllocState) (br : Nat) (w : AllocWindow) (hasGuess : Bool) :
    AllocState :=
  { st with
    vol := writtenVolume w (st.bmpPos / 8) br
    io := if w.writeback then fun i => st.io (i + 2) else fun i => st.io (i + 1)
    hasGuess := hasGuess
    clusters := w.clusters
    runs := w.runs }

/-- What follows the search of a window of `br` bytes. -/
def afterWindow (st : AllocState) (br : Nat) (w : AllocWindow) (runEnd : RunEnd)
    (hasGuess : Bool) : AllocNext :=
  if w.writeback && st.io 1 then
    .fail .eio st
  else
    match runEnd with
    | .done lcn =>
      .done (if st.usedZonePos then
          clusterUpdateZonePos (writtenVolume w (st.bmpPos / 8) br) st.searchZone
            (lcn + 1 + lcnbmpAllocSize)
        else writtenVolume w (st.bmpPos / 8) br) w.runs
    | .used | .exhausted => .goto (advance (st.scanned br w hasGuess) br)

/-- From the top of the loop: search one window. -/
def stepTop (startVcn : Int) (st : AllocState) : AllocNext :=
  if st.vol.fullZones st.searchZone then
    .goto { st with label := .zonePassDone }
  else
    let lastReadPos := st.bmpPos / 8
    let br := min lcnbmpAllocSize (st.vol.bitmapSize - lastReadPos)
    if br = 0 then
      .goto { st with label := .zonePassDone }
    else if st.io 0 then
      .fail .eio st
    else
      let r := scanWindow startVcn (8 * lastReadPos) br (st.bmpPos % 8) st.hasGuess
        ⟨st.vol, readAllocWindow st.vol lastReadPos br, false, st.clusters, st.runs⟩
      afterWindow st br r.1 r.2.1 r.2.2

/-- From `zone_pass_done`: begin the second pass, or leave the zone. -/
def stepZonePassDone (st : AllocState) : AllocNext :=
  if st.pass2 then
    .goto { st with label := .doneZonesCheck }
  else
    let start := st.vol.zoneStart st.searchZone
    .goto { st with
      pass2 := true
      zoneStart := start
      zoneEnd := if st.zoneStart < start then start else st.zoneStart
      bmpPos := start
      label := .top }

/-- The zone that is searched after `zone`. -/
def nextZone (doneZones : Zone → Bool) : Zone → Zone
  | .mft => .data1
  | .data1 => .data2
  | .data2 => if doneZones .data1 then .mft else .data1

/-- The position at which a zone begins without a first pass, after a switch to it. -/
def AllocVolume.switchPass2 (vol : AllocVolume) : Zone → Bool
  | .mft => vol.mftZonePos = vol.mftZoneStart
  | .data1 => vol.data1ZonePos = vol.mftZoneEnd
  | .data2 => vol.data2ZonePos = 0

/-- The volume when a zone is given up: the zone is full, and its position moves behind the
last run. -/
def leftVolume (st : AllocState) : AllocVolume :=
  let vol := { st.vol with fullZones := Function.update st.vol.fullZones st.searchZone true }
  match st.runs with
  | [] => vol
  | last :: _ =>
    if st.usedZonePos then
      clusterUpdateZonePos vol st.searchZone ((last.lcn + last.length).toNat + lcnbmpAllocSize)
    else vol

/-- From `done_zones_check`: give the zone up and switch to the next one. -/
def stepDoneZonesCheck (st : AllocState) : AllocNext :=
  let doneZones := Function.update st.doneZones st.searchZone true
  if doneZones .mft && doneZones .data1 && doneZones .data2 then
    .fail .enospc { st with
      vol := { st.vol with fullZones := Function.update st.vol.fullZones st.searchZone true }
      doneZones := doneZones }
  else
    let vol := leftVolume st
    let zone := nextZone doneZones st.searchZone
    .goto { st with
      vol := vol
      doneZones := doneZones
      searchZone := zone
      zoneStart := vol.zonePos zone
      zoneEnd := vol.zoneEnd zone
      pass2 := vol.switchPass2 zone
      bmpPos := vol.zonePos zone
      -- an empty zone is skipped
      label := if vol.zonePos zone = vol.zoneEnd zone then .doneZonesCheck else .top }

/-- The code of `ntfs_cluster_alloc` from one label to the next. -/
def allocStep (startVcn : Int) (st : AllocState) : AllocNext :=
  match st.label with
  | .top => stepTop startVcn st
  | .zonePassDone => stepZonePassDone st
  | .doneZonesCheck => stepDoneZonesCheck st

/-- How a search ends. -/
inductive AllocEnd where
  | done (vol : AllocVolume) (runs : Runlist)
  | fail (err : Errno) (st : AllocState)

/-- The search from a state on, for at most `fuel` steps. -/
def allocRun (startVcn : Int) : Nat → AllocState → Option AllocEnd
  | 0, _ => none
  | fuel + 1, st =>
    match allocStep startVcn st with
    | .goto st' => allocRun startVcn fuel st'
    | .done vol runs => some (.done vol runs)
    | .fail err st' => some (.fail err st')

/-- The state in which the search begins. -/
def allocStart (vol : AllocVolume) (io : Nat → Bool) (count : Nat) (startLcn : Int)
    (zone : AllocationZone) : AllocState :=
  let start :=
    if startLcn < 0 then
      match zone with
      | .dataZone => vol.data1ZonePos
      | .mftZone => vol.mftZonePos
    else
      startLcn.toNat
  let searchZone : Zone :=
    if start < vol.mftZoneStart then .data2 else if start < vol.mftZoneEnd then .mft else .data1
  { label := .top
    vol := vol
    io := io
    bmpPos := start
    zoneStart := start
    zoneEnd := vol.zoneEnd searchZone
    searchZone := searchZone
    pass2 := vol.atZoneStart start
    doneZones := fun _ => false
    hasGuess := 0 ≤ startLcn
    usedZonePos := startLcn < 0
    clusters := count
    runs := [] }

/-- More steps than any search takes. -/
def allocFuel (vol : AllocVolume) : Nat :=
  16 * (vol.bitmapSize + 4)

/-- The VCN behind the last run. -/
def endVcn (startVcn : Int) : Runlist → Int
  | [] => startVcn
  | last :: _ => last.vcn + last.length

/-- `ntfs_cluster_alloc`; `none` if the search went on for more than `allocFuel` steps. -/
def clusterAlloc (vol : AllocVolume) (io : Nat → Bool) (startVcn count startLcn : Int)
    (zone : AllocationZone) : Option (Except Errno (AllocVolume × Runlist)) :=
  if count < 0 ∨ startLcn < -1 then
    some (.error .einval)
  else if count = 0 then
    some (.ok (vol, [⟨startVcn, lcnRlNotMapped, 0⟩]))
  else
    match allocRun startVcn (allocFuel vol) (allocStart vol io count.toNat startLcn zone) with
    | none => none
    | some (.fail err _) => some (.error err)
    | some (.done vol' runs) =>
      some (.ok (vol', runs.reverse ++ [⟨endVcn startVcn runs, lcnRlNotMapped, 0⟩]))

end Search

end NtfsPlus.Libntfs

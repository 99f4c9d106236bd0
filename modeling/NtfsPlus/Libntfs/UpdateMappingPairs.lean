import NtfsPlus.Libntfs.MapWholeRunlist

/-!
# Writing the runlist of an attribute back

`ntfs_attr_update_mapping_pairs` of `libntfs/attrib.c` rewrites the mapping
pairs of all extents of an attribute from its runlist.  It goes over the extent
records there are, gives each the pairs that fit into its MFT record, deletes
those that are left over, and puts what is left of the runlist into new MFT
records.  Where it has to move other attributes out of the way or to add an
attribute list it starts again.

The records of an attribute are taken in the order of its attribute list.  The
update is the one from VCN 0 on.  `updateMappingPairs_iff` is the main result:
after a successful update the extents are consecutive and are read back as the
runlist if and only if the first extent had room for the first mapping pair.
-/

namespace NtfsPlus.Libntfs

open SignedBytes

section Sizes

/-- The loop of `ntfs_get_nr_significant_bytes`; seven more bytes are enough. -/
def countBytes : Nat → Nat → Nat
  | 0, _ => 0
  | k + 1, l => if l / 256 = 0 then 1 else countBytes k (l / 256) + 1

/-- `ntfs_get_nr_significant_bytes`. -/
def getNrSignificantBytes (n : Int) : Nat :=
  let l := (if n < 0 then -n - 1 else n).toNat
  if l ≥ 128 then countBytes 7 (l / 128) + 1 else 1

/-- The bytes counted for one mapping pair. -/
def pairSize (length : Int) : Option Int → Int
  | none => 1 + getNrSignificantBytes length
  | some change => 1 + getNrSignificantBytes length + getNrSignificantBytes change

/-- The full runs of `ntfs_get_size_for_mapping_pairs`. -/
def sizeOfRuns (vol : Volume) (maxSize : Int) :
    Runlist → Int → Int → Except Errno Int
  | [], _, rls => .ok rls
  | e :: rest, prevLcn, rls =>
    if e.length = 0 ∨ rls > maxSize then
      .ok rls
    else if e.length < 0 ∨ e.lcn < lcnHole then
      .error (buildErrno e)
    else
      sizeOfRuns vol maxSize rest (nextLcn vol e.lcn prevLcn)
        (rls + pairSize e.length (lcnChange vol e.lcn prevLcn))

/-- `ntfs_get_size_for_mapping_pairs`. -/
def getSizeForMappingPairs
    (vol : Volume) (rl : Runlist) (startVcn maxSize : Int) :
    Except Errno Int :=
  if startVcn < 0 then
    .error .einval
  else
    match skipToVcn startVcn rl with
    | [] => .error .einval
    | e :: rest =>
      if (e.length = 0 ∧ startVcn > e.vcn) ∨ startVcn < e.vcn then
        .error .einval
      else if startVcn > e.vcn then
        if e.length < 0 ∨ e.lcn < lcnHole then
          .error (buildErrno e)
        else
          let delta := startVcn - e.vcn
          let first := if e.lcn ≥ 0 then e.lcn + delta else e.lcn
          sizeOfRuns vol maxSize rest (nextLcn vol first 0)
            (1 + pairSize (e.length - delta) (lcnChange vol first 0))
      else
        sizeOfRuns vol maxSize (e :: rest) 0 1

/-- The number of significant bytes of a number, shortened to its sign. -/
theorem significant_length
    (k : Nat)
    (n : Int)
    (hlo : -2 ^ (8 * k + 7) ≤ n)
    (hhi : n < 2 ^ (8 * k + 7)) :
    (significant k n).length =
      if (if n < 0 then -n - 1 else n).toNat ≥ 128 then
        countBytes k ((if n < 0 then -n - 1 else n).toNat / 128) + 1
      else
        1 := by
  induction k generalizing n with
  | zero =>
    rw [if_neg (by split_ifs <;> omega)]
    rfl
  | succ k ih =>
    have hpow : (2 : Int) ^ (8 * (k + 1) + 7) = 256 * 2 ^ (8 * k + 7) := by
      rw [show 8 * (k + 1) + 7 = 8 + (8 * k + 7) by omega, pow_add]
      norm_num
    have hrest := ih (n / 256) (by omega) (by omega)
    have hshift : (if n / 256 < 0 then -(n / 256) - 1 else n / 256).toNat =
        (if n < 0 then -n - 1 else n).toNat / 256 := by
      split_ifs <;> omega
    have hlong : (n > 127 ∨ n < -128) ↔ (if n < 0 then -n - 1 else n).toNat ≥ 128 := by
      split_ifs <;> omega
    rw [hshift] at hrest
    generalize (if n < 0 then -n - 1 else n).toNat = l at hrest hlong ⊢
    unfold significant
    by_cases h : n > 127 ∨ n < -128
    · have hl := hlong.mp h
      have hdiv : l / 128 / 256 = l / 256 / 128 := by omega
      rw [if_pos h, if_pos hl, List.length_cons, hrest, countBytes, hdiv]
      split
      · rw [if_neg (by omega)]
      · rw [if_pos (by omega)]
    · rw [if_neg h, if_neg (fun hl => h (hlong.mpr hl))]
      rfl

theorem getNrSignificantBytes_eq
    {n : Int}
    (h : InS64 n) :
    getNrSignificantBytes n = (sigBytes n).length :=
  (significant_length 7 n h.1 h.2).symm

theorem pairSize_eq
    (vol : Volume)
    {e : RunlistElement} {prevLcn : Int}
    (he : MappedRun e)
    (hlcn : -1 ≤ prevLcn ∧ prevLcn < 2 ^ 63) :
    pairSize e.length (lcnChange vol e.lcn prevLcn) =
      (pairBytes e.length (lcnChange vol e.lcn prevLcn)).length := by
  have hpos := he.length_pos
  have hvcn := he.vcn_nonneg
  have hend := he.vcn_end
  have hlen := getNrSignificantBytes_eq (show InS64 e.length from ⟨by omega, by omega⟩)
  have hmapped := he.lcn_mapped
  have hlcnEnd := he.lcn_end
  rw [pairBytes_length]
  unfold lcnHole at hmapped
  cases hchange : lcnChange vol e.lcn prevLcn with
  | none =>
    simp only [pairSize, changeBytes, List.length_nil]
    omega
  | some change =>
    have hval : change = e.lcn - prevLcn := by
      unfold lcnChange at hchange
      split_ifs at hchange
      exact (Option.some.inj hchange).symm
    have hnr := getNrSignificantBytes_eq (show InS64 change from ⟨by omega, by omega⟩)
    simp only [pairSize, changeBytes]
    omega

/-- The size of the runs is exact unless it is beyond the maximum. -/
theorem sizeOfRuns_spec
    (vol : Volume)
    {v w : Int} {runs : List RunlistElement}
    (hruns : MappedRuns v runs w)
    (maxSize prevLcn rls : Int)
    (t : RunlistElement)
    (hlcn : -1 ≤ prevLcn ∧ prevLcn < 2 ^ 63)
    (ht : t.length = 0) :
    ∃ size, sizeOfRuns vol maxSize (runs ++ [t]) prevLcn rls = .ok size ∧ rls ≤ size ∧
      (size ≤ maxSize → size = rls + (encodeRuns vol prevLcn runs).length) := by
  induction runs generalizing v prevLcn rls with
  | nil => exact ⟨rls, by simp [sizeOfRuns, ht], le_rfl, by simp [encodeRuns]⟩
  | cons e rest ih =>
    obtain ⟨hv, he, hrest⟩ := hruns
    have hpos := he.length_pos
    have hge := he.lcn_ge
    have hpair := pairSize_eq vol he hlcn
    simp only [List.cons_append, sizeOfRuns]
    by_cases hmax : rls > maxSize
    · exact ⟨rls, by rw [if_pos (Or.inr hmax)], le_rfl, by omega⟩
    · obtain ⟨size, hsize, hle, hexact⟩ := ih hrest (nextLcn vol e.lcn prevLcn)
        (rls + pairSize e.length (lcnChange vol e.lcn prevLcn))
        (nextLcn_bounds he hlcn)
      rw [if_neg (by omega), if_neg (by omega)]
      refine ⟨size, hsize, by omega, ?_⟩
      intro hfit
      rw [encodeRuns, List.length_append]
      omega

theorem getSizeForMappingPairs_spec
    (vol : Volume)
    {v w : Int} {pre suf : List RunlistElement}
    (hpre : MappedRuns 0 pre v)
    (hsuf : MappedRuns v suf w)
    (rl : Runlist)
    (hrl : skipToVcn v rl = suf ++ [enoentAt w])
    (maxSize : Int) :
    ∃ size, getSizeForMappingPairs vol rl v maxSize = .ok size ∧ 0 < size ∧
      (size ≤ maxSize → size = 1 + (encodeRuns vol 0 suf).length) := by
  have hv := hpre.le
  obtain ⟨size, hsize, hle, hexact⟩ := sizeOfRuns_spec vol hsuf maxSize
    0 1 (enoentAt w) ⟨by omega, by omega⟩ rfl
  refine ⟨size, ?_, by omega, hexact⟩
  unfold getSizeForMappingPairs
  rw [if_neg (by omega), hrl]
  cases suf with
  | nil =>
    have hw : w = v := hsuf
    simpa [hw, enoentAt] using hsize
  | cons e suf =>
    have he : e.vcn = v := hsuf.1
    simpa [he] using hsize

end Sizes

section Records

/-- Whether `ATTR_IS_COMPRESSED` is set. -/
def isCompressed (flags : Nat) : Bool :=
  flags.testBit 0

/-- Whether `ATTR_IS_SPARSE` is set. -/
def isSparse (flags : Nat) : Bool :=
  flags.testBit 15

/-- Whether a flag of `ATTR_COMPRESSION_MASK` is set. -/
def inCompressionMask (flags : Nat) : Bool :=
  decide (flags % 256 ≠ 0)

/-- The fields of `ntfs_attr`, and of the call, that the update reads. -/
structure OpenAttr where
  rl : Runlist
  allocatedSize : Int
  compressedSize : Int
  /-- `data_flags`. -/
  dataFlags : Nat
  /-- `NAttrSparse(na)`. -/
  sparse : Bool
  /-- `NAttrFullyMapped(na)`. -/
  fullyMapped : Bool
  nameLen : Nat
  /-- Whether the attribute is the attribute list itself. -/
  isAttributeList : Bool
  /-- `holes == HOLES_DELAY`. -/
  holesDelay : Bool

/-- An extent record with what the update reads of its MFT record. -/
structure Slot where
  attr : AttrRecord
  flags : Nat
  compressedSize : Int
  /-- `bytes_allocated - bytes_in_use` of the MFT record. -/
  free : Nat

/-- A new MFT record. -/
structure NewRecord where
  /-- `bytes_allocated - bytes_in_use`. -/
  room : Int
  /-- What the memory of the new attribute record held before. -/
  stale : AttrRecord

/-- The records an update works on. -/
structure Pass where
  na : OpenAttr
  /-- `NInoAttrList(base_ni)`. -/
  attrList : Bool
  slots : List Slot
  /-- The MFT records that can be allocated. -/
  fresh : List NewRecord

/-- Why an update ends early. -/
inductive Stop where
  /-- Other attributes were moved, or an attribute list was added. -/
  | retry
  | failed (err : Errno)
deriving DecidableEq

end Records

section Update

/-- `(n + 7) & ~7`. -/
def alignUp8 (n : Int) : Int :=
  (n + 7) / 8 * 8

/-- `cur_max_mp_size`. -/
def Slot.curMax (s : Slot) : Int :=
  s.attr.length - s.attr.mappingPairsOffset

/-- `exp_max_mp_size`. -/
def Slot.expMax (s : Slot) : Int :=
  s.free + s.curMax

/-- `ntfs_rl_sparse`; `none` for a run that is neither mapped nor a hole. -/
def rlSparse : Runlist → Option Bool
  | [] => some false
  | e :: rest =>
    if e.length = 0 then
      some false
    else if e.lcn < 0 then
      if e.lcn ≠ lcnHole then none else some true
    else
      rlSparse rest

/-- The clusters counted by `ntfs_rl_get_compressed_size`. -/
def allocatedClusters : Runlist → Int → Option Int
  | [], n => some n
  | e :: rest, n =>
    if e.length = 0 then
      some n
    else if e.lcn < 0 then
      if e.lcn ≠ lcnHole then none else allocatedClusters rest n
    else
      allocatedClusters rest (n + e.length)

/-- `ntfs_rl_get_compressed_size`. -/
def rlGetCompressedSize (vol : Volume) (rl : Runlist) : Option Int :=
  (allocatedClusters rl 0).map fun n => s64 (n * 2 ^ vol.clusterSizeBits)

/-- Move `mapping_pairs_offset`, a `u16`, by some bytes. -/
def Slot.movePairs (s : Slot) (d : Int) : Slot :=
  { s with
    attr :=
      { s.attr with
        mappingPairsOffset := ((s.attr.mappingPairsOffset + d) % 65536).toNat } }

/-- The attribute becomes sparse: the record gets a compressed size field. -/
def setSparse (na : OpenAttr) (s : Slot) : OpenAttr × Slot :=
  let flags := s.flags ||| 0x8000
  ({ na with sparse := true, dataFlags := flags },
    { s.movePairs 8 with flags })

/-- The attribute is no longer sparse: the compressed size field goes. -/
def clearSparse (na : OpenAttr) (s : Slot) : OpenAttr × Slot :=
  let flags := s.flags &&& 0x7fff
  ({ na with sparse := false, dataFlags := flags },
    { s.movePairs (-8) with flags })

/-- The sparse bit follows the runlist; a compressed attribute keeps its own. -/
def updateSparseBit (na : OpenAttr) (s : Slot) (sparse becomes : Bool) : OpenAttr × Slot :=
  if becomes then
    setSparse na s
  else if !sparse && isSparse s.flags && !isCompressed s.flags then
    clearSparse na s
  else
    (na, s)

/-- The metadata of the first extent, with the allocated size already set. -/
def updateFirstMeta (vol : Volume) (na : OpenAttr) (s : Slot) : Except Stop (OpenAttr × Slot) :=
  match if na.holesDelay then some (isSparse s.flags) else rlSparse na.rl with
  | none => .error (.failed .eio)
  | some sparse =>
    let becomes := !na.holesDelay && sparse && !(isSparse s.flags || isCompressed s.flags)
    if becomes ∧ s.curMax = 8 ∧ s.free = 0 then
      -- the record is moved to another MFT record
      .error .retry
    else if becomes ∧ s.curMax = 0 then
      .error (.failed .eio)
    else
      let next := updateSparseBit na s sparse becomes
      if next.1.fullyMapped && (sparse || inCompressionMask next.1.dataFlags) then
        match rlGetCompressedSize vol next.1.rl with
        | none => .error (.failed .einval)
        | some size =>
          .ok ({ next.1 with compressedSize := size },
            { next.2 with compressedSize := size })
      else
        .ok next

/-- `ntfs_attr_update_meta`. -/
def updateMeta (vol : Volume) (na : OpenAttr) (s : Slot) : Except Stop (OpenAttr × Slot) :=
  if s.attr.lowestVcn ≠ 0 then
    .ok (na, s)
  else
    updateFirstMeta vol na
      { s with attr := { s.attr with allocatedSize := na.allocatedSize } }

/--
`ntfs_attr_record_resize`.  The bytes of the record up to the shorter of the two
lengths stay, and those behind it are not cleared when it grows.
-/
def Slot.resize (s : Slot) (newSize : Int) : Option Slot :=
  let newSize := alignUp8 newSize
  if newSize > s.attr.length + s.free then
    none
  else
    some { s with
      attr := { s.attr with length := newSize.toNat }
      free := (s.attr.length + s.free - newSize).toNat }

/-- Change the space for mapping pairs if that is needed. -/
def Slot.fitPairs (s : Slot) (mpSize : Int) : Option Slot :=
  if alignUp8 mpSize ≠ s.curMax then
    s.resize (s.attr.mappingPairsOffset + mpSize)
  else
    some s

/-- The record with a mapping pairs array, from `lowest` to before `stop`. -/
def AttrRecord.withPairs (a : AttrRecord) (pairs : Bytes) (lowest stop : Int) : AttrRecord :=
  { a with
    lowestVcn := lowest
    highestVcn := stop - 1
    bytes := fun i =>
      if i < a.mappingPairsOffset then
        a.bytes i
      else
        pairs (i - a.mappingPairsOffset) }

/-- The memory from the mapping pairs of a record on. -/
def AttrRecord.pairsMem (a : AttrRecord) : Bytes :=
  fun i => a.bytes (a.mappingPairsOffset + i)

/-- `stop_vcn`, `stop_rl` and `finished_build`. -/
structure BuildProgress where
  stopVcn : Int
  stopRl : Runlist
  finished : Bool

/-- The loop body for a record that is updated. -/
def updateSlot
    (vol : Volume) (attrList : Bool) (na : OpenAttr) (prog : BuildProgress)
    (s : Slot) :
    Except Stop (OpenAttr × BuildProgress × AttrRecord) :=
  match updateMeta vol na s with
  | .error stop => .error stop
  | .ok (na, s) =>
    match getSizeForMappingPairs vol prog.stopRl prog.stopVcn s.expMax with
    | .error err => .error (.failed err)
    | .ok size =>
      if size > s.expMax ∧ (na.isAttributeList ∨ ¬attrList) then
        .error .retry
      else
        let mpSize := min size s.expMax
        match s.fitPairs mpSize with
        | none => .error (.failed .eio)
        | some s =>
          let built := mappingPairsBuild vol s.attr.pairsMem mpSize (some na.rl) prog.stopVcn
          let stopRl := built.stopRl.getD prog.stopRl
          let stopVcn := (elemAt stopRl 0).vcn
          match built.errno with
          | some err =>
            if err = .enospc then
              .ok (na, ⟨stopVcn, stopRl, false⟩, s.attr.withPairs built.dst prog.stopVcn stopVcn)
            else
              .error (.failed err)
          | none =>
            .ok (na, ⟨stopVcn, stopRl, true⟩, s.attr.withPairs built.dst prog.stopVcn stopVcn)

/-- `NTFS_VCN_DELETE_MARK`. -/
def vcnDeleteMark : Int := -2

/-- Mark a record that is to be deleted. -/
def Slot.marked (s : Slot) : AttrRecord :=
  { s.attr with highestVcn := vcnDeleteMark }

/-- The loop over the records there are. -/
def updateSlots (vol : Volume) (attrList : Bool) :
    List Slot → OpenAttr → BuildProgress → Except Stop (OpenAttr × BuildProgress × List AttrRecord)
  | [], na, prog => .ok (na, prog, [])
  | s :: rest, na, prog =>
    let step : Except Stop (OpenAttr × BuildProgress × AttrRecord) :=
      if prog.finished then
        .ok (na, prog, s.marked)
      else
        updateSlot vol attrList na prog s
    match step with
    | .error stop => .error stop
    | .ok (na, prog, attr) =>
      match updateSlots vol attrList rest na prog with
      | .error stop => .error stop
      | .ok (na, prog, attrs) => .ok (na, prog, attr :: attrs)

/-- The space for mapping pairs in a new MFT record. -/
def OpenAttr.roomIn (na : OpenAttr) (r : NewRecord) : Int :=
  r.room - (64 + if inCompressionMask na.dataFlags || na.sparse then 8 else 0) -
    alignUp8 (2 * na.nameLen)

/--
`ntfs_non_resident_attr_record_add` with `ntfs_attrlist_entry_add`: the entry of
the record goes behind the last one that does not start after it.
-/
def nonResidentAttrRecordAdd
    (na : OpenAttr) (r : NewRecord) (lowest mpSize : Int)
    (attrs : List AttrRecord) :
    Except Errno AttrRecord :=
  let pairs := alignUp8 mpSize
  let offset := 64 + alignUp8 (2 * na.nameLen) +
    if isCompressed na.dataFlags || isSparse na.dataFlags then 8 else 0
  if mpSize ≤ 0 then
    .error .einval
  else if offset + pairs > r.room then
    .error .enospc
  else if attrs.getLast?.any fun a => decide (a.lowestVcn = lowest) then
    .error .eexist
  else
    .ok
      { nonResident := true
        length := (offset + pairs).toNat
        mappingPairsOffset := offset.toNat
        lowestVcn := lowest
        highestVcn := if lowest = 0 then -1 else r.stale.highestVcn
        allocatedSize := if lowest = 0 then 0 else r.stale.allocatedSize
        bytes := r.stale.bytes }

/-- `INT_MAX`. -/
def intMax : Int := 2 ^ 31 - 1

/-- The loop that puts the rest of the runlist into new MFT records. -/
def addExtents (vol : Volume) (na : OpenAttr) :
    List NewRecord → Int → List AttrRecord → Except Stop (List AttrRecord)
  | [], _, _ => .error (.failed .enospc)
  | r :: rest, stopVcn, attrs =>
    match getSizeForMappingPairs vol na.rl stopVcn intMax with
    | .error err => .error (.failed err)
    | .ok size =>
      let mpSize := min size (na.roomIn r)
      match nonResidentAttrRecordAdd na r stopVcn mpSize attrs with
      | .error err => .error (.failed err)
      | .ok a =>
        let built := mappingPairsBuild vol a.pairsMem mpSize (some na.rl)
          stopVcn
        let stop := (elemAt (built.stopRl.getD []) 0).vcn
        let attrs := attrs ++ [a.withPairs built.dst stopVcn stop]
        match built.errno with
        | none => .ok attrs
        | some err =>
          if err = .enospc then
            addExtents vol na rest stop attrs
          else
            .error (.failed err)

/-- The sizes go into the first record if no record that starts at 0 was met. -/
def updateFirstSizes (na : OpenAttr) (slots : List Slot) :
    List AttrRecord → Option (List AttrRecord)
  | [] => none
  | a :: attrs =>
    if slots.any fun s => decide (s.attr.lowestVcn = 0) then
      some (a :: attrs)
    else
      some ({ a with allocatedSize := na.allocatedSize } :: attrs)

/-- One pass of `ntfs_attr_update_mapping_pairs_i` over the records. -/
def updatePass (vol : Volume) (p : Pass) : Except Stop (List AttrRecord) :=
  match updateSlots vol p.attrList p.slots p.na ⟨0, p.na.rl, false⟩ with
  | .error stop => .error stop
  | .ok (na, prog, attrs) =>
    match updateFirstSizes na p.slots attrs with
    | none => .error (.failed .enoent)
    | some attrs =>
      if prog.finished then
        -- the records that were marked are removed
        .ok (attrs.filter fun a => decide (a.highestVcn ≠ vcnDeleteMark))
      else
        addExtents vol na p.fresh prog.stopVcn attrs

/--
`ntfs_attr_update_mapping_pairs`, from VCN 0 on; `later` holds what the records
are each time it has to start again.
-/
def updateMappingPairs (vol : Volume) :
    Pass → List Pass → Except Errno (List AttrRecord)
  | p, [] =>
    match updatePass vol p with
    | .ok attrs => .ok attrs
    | .error (.failed err) => .error err
    | .error .retry => .error .enospc
  | p, q :: later =>
    match updatePass vol p with
    | .ok attrs => .ok attrs
    | .error (.failed err) => .error err
    | .error .retry => updateMappingPairs vol q later

/-- The pass an update ends with. -/
def lastPass (vol : Volume) : Pass → List Pass → Pass
  | p, [] => p
  | p, q :: later =>
    match updatePass vol p with
    | .error .retry => lastPass vol q later
    | _ => p

end Update

section Meta

/-- A record as the update finds it. -/
structure Slot.Valid (s : Slot) : Prop where
  nonResident : s.attr.nonResident = true
  offset_ge : 8 ≤ s.attr.mappingPairsOffset
  offset_aligned : s.attr.mappingPairsOffset % 8 = 0
  offset_lt : s.attr.mappingPairsOffset < s.attr.length
  length_aligned : s.attr.length % 8 = 0
  free_aligned : s.free % 8 = 0
  /-- An MFT record has at most 64 KiB. -/
  size_lt : s.attr.length + s.free < 65536
  allocatedSize_lt : s.attr.allocatedSize < 2 ^ 63

/-- A record with room for mapping pairs in its MFT record. -/
structure Slot.Roomy (s : Slot) : Prop where
  nonResident : s.attr.nonResident = true
  offset_aligned : s.attr.mappingPairsOffset % 8 = 0
  offset_le : s.attr.mappingPairsOffset ≤ s.attr.length
  length_aligned : s.attr.length % 8 = 0
  free_aligned : s.free % 8 = 0
  size_lt : s.attr.length + s.free < 65536
  room_pos : s.attr.mappingPairsOffset < s.attr.length + s.free
  allocatedSize_lt : s.attr.allocatedSize < 2 ^ 63

variable {vol : Volume} {na na' : OpenAttr} {s s' : Slot} {sparse becomes : Bool}

theorem Slot.Valid.roomy
    (h : s.Valid) :
    s.Roomy where
  nonResident := h.nonResident
  offset_aligned := h.offset_aligned
  offset_le := h.offset_lt.le
  length_aligned := h.length_aligned
  free_aligned := h.free_aligned
  size_lt := h.size_lt
  room_pos := lt_of_lt_of_le h.offset_lt (Nat.le_add_right _ _)
  allocatedSize_lt := h.allocatedSize_lt

/-- Moving the pairs keeps the record in order as long as room is left. -/
theorem Slot.Valid.movePairs
    {d : Int}
    (h : s.Valid)
    (hd : d % 8 = 0)
    (hlo : 0 ≤ s.attr.mappingPairsOffset + d)
    (hhi : s.attr.mappingPairsOffset + d ≤ s.attr.length)
    (hroom : s.attr.mappingPairsOffset + d < s.attr.length + s.free) :
    (s.movePairs d).Roomy := by
  have hsize := h.size_lt
  have haligned := h.offset_aligned
  have hoffset : (s.movePairs d).attr.mappingPairsOffset =
      (s.attr.mappingPairsOffset + d).toNat := by
    show ((s.attr.mappingPairsOffset + d) % 65536).toNat = _
    rw [Int.emod_eq_of_lt hlo (by omega)]
  refine ⟨h.nonResident, ?_, ?_, h.length_aligned, h.free_aligned, hsize, ?_, h.allocatedSize_lt⟩
  · omega
  · show _ ≤ s.attr.length
    omega
  · show _ < s.attr.length + s.free
    omega

theorem Slot.Roomy.withFlags
    (h : s.Roomy)
    (flags : Nat) :
    ({ s with flags } : Slot).Roomy :=
  ⟨h.1, h.2, h.3, h.4, h.5, h.6, h.7, h.8⟩

theorem Slot.Roomy.withCompressedSize
    (h : s.Roomy)
    (compressedSize : Int) :
    ({ s with compressedSize } : Slot).Roomy :=
  ⟨h.1, h.2, h.3, h.4, h.5, h.6, h.7, h.8⟩

theorem updateSparseBit_spec
    (h : s.Valid)
    (hroom : ¬(becomes = true ∧ s.curMax = 8 ∧ s.free = 0)) :
    (updateSparseBit na s sparse becomes).1.rl = na.rl ∧
      (updateSparseBit na s sparse becomes).1.allocatedSize = na.allocatedSize ∧
      (updateSparseBit na s sparse becomes).2.Roomy ∧
      (updateSparseBit na s sparse becomes).2.attr.allocatedSize = s.attr.allocatedSize := by
  have hge := h.offset_ge
  have hlt := h.offset_lt
  have haligned := h.offset_aligned
  have hlength := h.length_aligned
  unfold updateSparseBit
  split_ifs with hset hclear
  · have hspare : ¬(s.curMax = 8 ∧ s.free = 0) := fun h8 => hroom ⟨hset, h8⟩
    unfold Slot.curMax at hspare
    have hmoved : (s.movePairs 8).Roomy :=
      h.movePairs (by omega) (by omega) (by omega) (by omega)
    exact ⟨rfl, rfl, hmoved.withFlags _, rfl⟩
  · have hmoved : (s.movePairs (-8)).Roomy :=
      h.movePairs (by omega) (by omega) (by omega) (by omega)
    exact ⟨rfl, rfl, hmoved.withFlags _, rfl⟩
  · exact ⟨rfl, rfl, h.roomy, rfl⟩

theorem updateFirstMeta_spec
    (h : s.Valid)
    (hok : updateFirstMeta vol na s = .ok (na', s')) :
    na'.rl = na.rl ∧ na'.allocatedSize = na.allocatedSize ∧ s'.Roomy ∧
      s'.attr.allocatedSize = s.attr.allocatedSize := by
  unfold updateFirstMeta at hok
  split at hok
  · cases hok
  · rename_i sparse _
    dsimp only at hok
    split_ifs at hok with hretry hspace hcompressed
    · have hspec := @updateSparseBit_spec na s sparse _ h hretry
      split at hok
      · cases hok
      · cases hok
        exact ⟨hspec.1, hspec.2.1, hspec.2.2.1.withCompressedSize _, hspec.2.2.2⟩
    · have hspec := @updateSparseBit_spec na s sparse _ h hretry
      rw [Except.ok.inj hok] at hspec
      exact hspec

/-- The metadata update leaves the runlist alone and the record in order. -/
theorem updateMeta_spec
    (h : s.Valid)
    (halloc : na.allocatedSize < 2 ^ 63)
    (hok : updateMeta vol na s = .ok (na', s')) :
    na'.rl = na.rl ∧ na'.allocatedSize = na.allocatedSize ∧ s'.Roomy ∧
      (s.attr.lowestVcn = 0 → s'.attr.allocatedSize = na.allocatedSize) := by
  unfold updateMeta at hok
  split_ifs at hok with hlow
  · cases hok
    exact ⟨rfl, rfl, h.roomy, fun h0 => absurd h0 hlow⟩
  · have hs : ({ s with attr :=
        { s.attr with allocatedSize := na.allocatedSize } } : Slot).Valid :=
      ⟨h.1, h.2, h.3, h.4, h.5, h.6, h.7, halloc⟩
    obtain ⟨hrl, hsize, hroomy, hset⟩ := updateFirstMeta_spec hs hok
    exact ⟨hrl, hsize, hroomy, fun _ => hset⟩

end Meta

section Storing

variable {vol : Volume} {v total : Int} {pre suf : List RunlistElement}

theorem mappingPairsBuildRuns_first
    (vol : Volume)
    (dstMax : Int)
    {e t : RunlistElement} {rest : List RunlistElement}
    (mem : Bytes)
    (hruns : Storable (e :: rest))
    (ht : t.length = 0)
    (hroom : ((pairBytes e.length (lcnChange vol e.lcn 0)).length : Int) ≤ dstMax) :
    ∃ left, (mappingPairsBuildRuns vol dstMax (e :: rest ++ [t]) mem 0 0).stopRl =
        some (left ++ [t]) ∧
      left.length ≤ rest.length := by
  obtain ⟨hlen, hlcn⟩ := hruns e (by simp)
  have hrest : Storable rest := fun e' he' => hruns e' (by simp [he'])
  obtain ⟨next, hnext⟩ := writeMappingPair_room mem 0 dstMax e.length
    (lcnChange vol e.lcn 0) (by push_cast; omega)
  rcases hpair : writeMappingPair mem 0 dstMax e.length (lcnChange vol e.lcn 0) with ⟨mem', r⟩
  rw [hpair] at hnext
  obtain rfl : r = some next := hnext
  obtain ⟨stored, left, hsplit, -, hstop, -⟩ := mappingPairsBuildRuns_spec vol dstMax
    rest t mem' next (nextLcn vol e.lcn 0) hrest ht
  refine ⟨left, ?_, by rw [hsplit]; simp⟩
  simp only [List.cons_append, mappingPairsBuildRuns]
  rw [if_neg (by omega), if_neg (by omega), hpair]
  exact hstop

theorem pairBytes_length_le
    (vol : Volume)
    (prevLcn : Int)
    (e : RunlistElement)
    (rest : List RunlistElement) :
    (pairBytes e.length (lcnChange vol e.lcn prevLcn)).length ≤
      (encodeRuns vol prevLcn (e :: rest)).length := by
  rw [encodeRuns, List.length_append]
  omega

theorem MappedRuns.stop_vcn
    {w : Int} {left : List RunlistElement}
    (h : MappedRuns w left total) :
    (elemAt (left ++ [enoentAt total]) 0).vcn = w := by
  cases left with
  | nil => exact h
  | cons e left => exact h.1

/-- What one build stores in a record, and what it leaves for the next one. -/
structure BuiltInto
    (vol : Volume) (total : Int) (a : AttrRecord) (built : BuildResult)
    (v : Int) (suf : List RunlistElement) (room : Int)
    (mid left : List RunlistElement) (w : Int) : Prop where
  split : suf = mid ++ left
  rest : MappedRuns w left total
  errno : built.errno = if left = [] then none else some .enospc
  stopRl : built.stopRl = some (left ++ [enoentAt total])
  stored : Stored vol (a.withPairs built.dst v w) v mid w
  first : ∀ e ∈ suf.head?, mid ≠ [] ↔ pairSize e.length (lcnChange vol e.lcn 0) < room

theorem mappingPairsBuild_into
    {a : AttrRecord} {mpSize : Int}
    (hpre : MappedRuns 0 pre v)
    (hsuf : MappedRuns v suf total)
    (hres : a.nonResident = true)
    (hpos : 0 < mpSize)
    (hlt : mpSize < 65536)
    (hinside : a.mappingPairsOffset + mpSize ≤ a.length)
    (halloc : a.allocatedSize < 2 ^ 63) :
    ∃ mid left w, BuiltInto vol total a (mappingPairsBuild vol a.pairsMem mpSize
        (some (pre ++ (suf ++ [enoentAt total]))) v)
      v suf mpSize mid left w := by
  rw [mappingPairsBuild_append vol a.pairsMem mpSize hpre hsuf]
  obtain ⟨mid, left, hsplit, herr, hstop, -, hpairs, hroom⟩ :=
    mappingPairsBuildRuns_spec vol (mpSize - 1) suf (enoentAt total) a.pairsMem 0 0
      hsuf.storable rfl
  obtain ⟨w, hmid, hleft⟩ := mappedRuns_append_iff.mp (hsplit ▸ hsuf)
  have hcount := length_le_encodeRuns vol 0 mid
  refine ⟨mid, left, w, hsplit, hleft, herr, hstop, ?_, ?_⟩
  · refine ⟨hmid, hres, rfl, rfl, ?_, ?_, halloc, ?_⟩
    · show a.mappingPairsOffset + _ < a.length
      omega
    · show HoldsBytes (fun i => if i < a.mappingPairsOffset then _ else _) a.mappingPairsOffset _
      apply holdsBytes_of_getElem
      intro i hi
      rw [if_neg (by omega), Nat.add_sub_cancel_left, ← hpairs.getElem hi, Nat.zero_add]
    · show mid.length + 1 < 65536
      omega
  · intro e he
    obtain ⟨rest, rfl⟩ := List.head?_eq_some_iff.mp he
    have he' : MappedRun e := hsuf.2.1
    rw [pairSize_eq vol he' ⟨by omega, by omega⟩]
    constructor
    · intro hne
      obtain ⟨f, mid', rfl⟩ := List.exists_cons_of_ne_nil hne
      obtain rfl : e = f := (List.cons.inj hsplit).1
      have := pairBytes_length_le vol 0 e mid'
      omega
    · rintro hfits rfl
      obtain ⟨left', hstop', hshort⟩ := mappingPairsBuildRuns_first vol (mpSize - 1)
        a.pairsMem hsuf.storable (show (enoentAt total).length = 0 from rfl)
        (by omega)
      rw [hstop] at hstop'
      have hsame := congrArg List.length (Option.some.inj hstop')
      rw [List.nil_append] at hsplit
      rw [← hsplit] at hsame
      simp at hsame
      omega

end Storing

section Slots

variable {vol : Volume} {v total : Int} {pre suf : List RunlistElement}
variable {na na' : OpenAttr} {s : Slot} {attrList : Bool}

/-- The room for mapping pairs that an update finds for a record. -/
def slotRoom (vol : Volume) (na : OpenAttr) (s : Slot) : Int :=
  match updateMeta vol na s with
  | .ok (_, s) => s.expMax
  | .error _ => 0

theorem le_alignUp8
    (n : Int) :
    n ≤ alignUp8 n := by
  unfold alignUp8
  omega

theorem Slot.fitPairs_inside
    {r : Slot} {mpSize : Int}
    (h : s.fitPairs mpSize = some r) :
    r.attr.nonResident = s.attr.nonResident ∧ r.attr.allocatedSize = s.attr.allocatedSize ∧
      r.attr.mappingPairsOffset + mpSize ≤ r.attr.length := by
  have hfits := le_alignUp8 (s.attr.mappingPairsOffset + mpSize)
  unfold Slot.fitPairs at h
  split_ifs at h with hsame
  · unfold Slot.resize at h
    dsimp only at h
    split_ifs at h
    cases h
    refine ⟨rfl, rfl, ?_⟩
    show (s.attr.mappingPairsOffset : Int) + mpSize ≤
      ((alignUp8 (s.attr.mappingPairsOffset + mpSize)).toNat : Int)
    omega
  · cases h
    have := le_alignUp8 mpSize
    unfold Slot.curMax at hsame
    exact ⟨rfl, rfl, by omega⟩

theorem updateSlot_spec
    {prog : BuildProgress} {attr : AttrRecord}
    (hvalid : s.Valid)
    (halloc : na.allocatedSize < 2 ^ 63)
    (hrl : na.rl = pre ++ (suf ++ [enoentAt total]))
    (hpre : MappedRuns 0 pre v)
    (hsuf : MappedRuns v suf total)
    (hok : updateSlot vol attrList na ⟨v, suf ++ [enoentAt total], false⟩ s =
      .ok (na', prog, attr)) :
    na'.rl = na.rl ∧ na'.allocatedSize = na.allocatedSize ∧
      (s.attr.lowestVcn = 0 → attr.allocatedSize = na.allocatedSize) ∧
      ∃ mid left w, suf = mid ++ left ∧ MappedRuns w left total ∧
        prog = ⟨w, left ++ [enoentAt total], decide (left = [])⟩ ∧
        Stored vol attr v mid w ∧
        ∀ e ∈ suf.head?, mid ≠ [] ↔
          pairSize e.length (lcnChange vol e.lcn 0) < slotRoom vol na s := by
  unfold updateSlot at hok
  unfold slotRoom
  cases hmeta : updateMeta vol na s with
  | error stop => simp [hmeta] at hok
  | ok next =>
    obtain ⟨na₁, s₁⟩ := next
    obtain ⟨hrl₁, halloc₁, hroomy, hset⟩ := updateMeta_spec hvalid halloc hmeta
    obtain ⟨size, hsize, hsizePos, hexact⟩ := getSizeForMappingPairs_spec vol hpre
      hsuf (suf ++ [enoentAt total])
      (by simpa using skipToVcn_append (show MappedRuns v [] v from rfl) hsuf)
      s₁.expMax
    have hroom : 0 < s₁.expMax ∧ s₁.expMax < 65536 := by
      have := hroomy.room_pos
      have := hroomy.size_lt
      unfold Slot.expMax Slot.curMax
      omega
    simp only [hmeta, hsize] at hok
    split_ifs at hok with hretry
    cases hfit : s₁.fitPairs (min size s₁.expMax) with
    | none => simp [hfit] at hok
    | some r =>
      obtain ⟨hnon, hall, hinside⟩ := Slot.fitPairs_inside hfit
      obtain ⟨mid, left, w, hbuilt⟩ := @mappingPairsBuild_into vol v total pre suf
        r.attr (min size s₁.expMax) hpre hsuf (hnon.trans hroomy.nonResident)
        (by omega) (by omega) hinside (by rw [hall]; exact hroomy.allocatedSize_lt)
      have hstop := hbuilt.rest.stop_vcn
      rw [← hrl, ← hrl₁] at hbuilt
      simp only [hfit, hbuilt.errno, hbuilt.stopRl, Option.getD_some, hstop] at hok
      have hfirst : ∀ e ∈ suf.head?, mid ≠ [] ↔
          pairSize e.length (lcnChange vol e.lcn 0) < s₁.expMax := by
        intro e he
        rw [hbuilt.first e he]
        obtain ⟨rest, rfl⟩ := List.head?_eq_some_iff.mp he
        have hpair := pairSize_eq vol hsuf.2.1 (show (-1 : Int) ≤ 0 ∧ (0 : Int) < 2 ^ 63 by decide)
        have hle := pairBytes_length_le vol 0 e rest
        constructor
        · omega
        · by_cases hsmall : size ≤ s₁.expMax
          · omega
          · omega
      obtain ⟨rfl, rfl, rfl⟩ : na₁ = na' ∧
          ⟨w, left ++ [enoentAt total], decide (left = [])⟩ = prog ∧
          r.attr.withPairs _ v w = attr := by
        by_cases hleft : left = [] <;> simpa [hleft] using hok
      exact ⟨hrl₁, halloc₁, fun h0 => hall.trans (hset h0), mid, left, w, hbuilt.split, hbuilt.rest,
        rfl, hbuilt.stored, hfirst⟩

end Slots

section Passes

/-- Records that store runs from `v` to `w`, one after the other. -/
inductive StoredRuns (vol : Volume) :
    Int → List RunlistElement → List AttrRecord → Int → Prop
  | nil {v : Int} : StoredRuns vol v [] [] v
  | cons
      {v u w : Int} {mid suf : List RunlistElement}
      {attr : AttrRecord} {attrs : List AttrRecord}
      (hattr : Stored vol attr v mid u)
      (hattrs : StoredRuns vol u suf attrs w) :
      StoredRuns vol v (mid ++ suf) (attr :: attrs) w

variable {vol : Volume} {v u w total : Int} {runs pre mid suf : List RunlistElement}
variable {attrs attrs' : List AttrRecord}

theorem StoredRuns.append
    (h : StoredRuns vol v mid attrs u)
    (h' : StoredRuns vol u suf attrs' w) :
    StoredRuns vol v (mid ++ suf) (attrs ++ attrs') w := by
  induction h with
  | nil => exact h'
  | cons hattr _ ih =>
    rw [List.append_assoc]
    exact .cons hattr (ih h')

theorem StoredRuns.mappedRuns
    (h : StoredRuns vol v runs attrs w) :
    MappedRuns v runs w := by
  induction h with
  | nil => rfl
  | cons hattr _ ih => exact mappedRuns_append_iff.mpr ⟨_, hattr.mapped, ih⟩

/-- None of these records carries the mark of a record to delete. -/
theorem StoredRuns.unmarked
    (h : StoredRuns vol v runs attrs w)
    (hv : 0 ≤ v) :
    ∀ a ∈ attrs, a.highestVcn ≠ vcnDeleteMark := by
  induction h with
  | nil => simp
  | cons hattr _ ih =>
    have hle := hattr.mapped.le
    have hhigh := hattr.highestVcn
    intro a ha
    rcases List.mem_cons.mp ha with rfl | ha
    · unfold vcnDeleteMark
      omega
    · exact ih (by omega) a ha

theorem StoredRuns.carriedFrom
    (h : StoredRuns vol v runs attrs total)
    (hv : 0 < v) :
    CarriedFrom vol total v runs attrs := by
  generalize htotal : total = e at h
  induction h with
  | nil =>
    exact .nil
  | @cons v u w mid suf attr attrs hattr hattrs ih =>
    have hle := hattr.mapped.le
    exact .cons ⟨hattr, by omega⟩ (ih (by omega) htotal)

/-- Once the pairs are complete, the other records are only marked. -/
theorem updateSlots_finished
    {attrList : Bool} {na : OpenAttr} {prog : BuildProgress}
    (hfinished : prog.finished = true)
    (slots : List Slot) :
    updateSlots vol attrList slots na prog = .ok (na, prog, slots.map Slot.marked) := by
  induction slots with
  | nil => rfl
  | cons s rest ih => simp [updateSlots, hfinished, ih]

/-- A record is updated, and then the other records. -/
theorem updateSlots_cons
    {attrList : Bool} {na na' : OpenAttr} {prog prog' : BuildProgress} {s : Slot}
    {rest : List Slot}
    (hfinished : prog.finished = false)
    (hok : updateSlots vol attrList (s :: rest) na prog = .ok (na', prog', attrs)) :
    ∃ na₁ prog₁ attr attrs₁, updateSlot vol attrList na prog s = .ok (na₁, prog₁, attr) ∧
      updateSlots vol attrList rest na₁ prog₁ = .ok (na', prog', attrs₁) ∧
      attrs = attr :: attrs₁ := by
  simp only [updateSlots, hfinished, Bool.false_eq_true, if_false] at hok
  split at hok
  · cases hok
  · rename_i na₁ prog₁ attr hstep
    split at hok
    · cases hok
    · rename_i na₂ prog₂ attrs₁ hrun
      cases hok
      exact ⟨na₁, prog₁, attr, attrs₁, hstep, hrun, rfl⟩

/-- The loop over the records stores a first part of the runs that are left. -/
theorem updateSlots_spec
    {attrList fin : Bool} {na na' : OpenAttr} {prog : BuildProgress} {slots : List Slot}
    (hvalid : ∀ s ∈ slots, s.Valid)
    (halloc : na.allocatedSize < 2 ^ 63)
    (hrl : na.rl = pre ++ (suf ++ [enoentAt total]))
    (hpre : MappedRuns 0 pre v)
    (hsuf : MappedRuns v suf total)
    (hfin : fin = true → suf = [])
    (hok : updateSlots vol attrList slots na ⟨v, suf ++ [enoentAt total], fin⟩ =
      .ok (na', prog, attrs)) :
    na'.rl = na.rl ∧ na'.allocatedSize = na.allocatedSize ∧
      ∃ mid left w kept marked, suf = mid ++ left ∧ MappedRuns w left total ∧
        attrs = kept ++ marked ∧ StoredRuns vol v mid kept w ∧
        (∀ a ∈ marked, a.highestVcn = vcnDeleteMark) ∧ prog.stopVcn = w ∧
        (prog.finished = true → left = []) ∧
        (prog.finished = false → marked = []) := by
  induction slots generalizing na v pre suf attrs fin with
  | nil =>
    obtain ⟨rfl, rfl, rfl⟩ : _ ∧ _ ∧ _ := by simpa [updateSlots] using hok
    exact ⟨rfl, rfl, [], suf, v, [], [], rfl, hsuf, rfl, .nil, by simp, rfl, hfin, fun _ => rfl⟩
  | cons s rest ih =>
    by_cases hdone : fin = true
    · obtain rfl := hfin hdone
      rw [updateSlots_finished hdone] at hok
      obtain ⟨rfl, hrest⟩ := Prod.mk.inj (Except.ok.inj hok)
      cases hrest
      refine ⟨rfl, rfl, [], [], v, [], (s :: rest).map Slot.marked, rfl, hsuf,
        rfl, .nil, ?_, rfl, fun _ => rfl, by simp [hdone]⟩
      intro a ha
      obtain ⟨t, -, rfl⟩ := List.mem_map.mp ha
      rfl
    · obtain rfl : fin = false := by simpa using hdone
      obtain ⟨na₁, prog₁, attr, attrs₁, hstep, hrun, rfl⟩ := updateSlots_cons rfl hok
      obtain ⟨hrl₁, halloc₁, -, mid, left, w, rfl, hleft, rfl, hstored, -⟩ :=
        updateSlot_spec (hvalid s (by simp)) halloc hrl hpre hsuf hstep
      obtain ⟨hrl₂, halloc₂, mid₂, left₂, w₂, kept, marked, rfl, hleft₂, rfl, hkept, hmarked, hstop,
        hfin₂, hnot⟩ := @ih w (pre ++ mid) left attrs₁ _ na₁ (fun t ht => hvalid t (by simp [ht]))
          (by omega) (by rw [hrl₁, hrl]; simp)
          (mappedRuns_append_iff.mpr ⟨v, hpre, hstored.mapped⟩) hleft
          (fun h => of_decide_eq_true h) hrun
      exact ⟨hrl₂.trans hrl₁, halloc₂.trans halloc₁, mid ++ mid₂, left₂, w₂, attr :: kept, marked,
        by simp, hleft₂, by simp, .cons hstored hkept, hmarked, hstop, hfin₂, hnot⟩

theorem nonResidentAttrRecordAdd_spec
    {na : OpenAttr} {r : NewRecord} {lowest mpSize : Int} {a : AttrRecord}
    (hroom : r.room < 65536)
    (hstale : r.stale.allocatedSize < 2 ^ 63)
    (hok : nonResidentAttrRecordAdd na r lowest mpSize attrs = .ok a) :
    a.nonResident = true ∧ 0 < mpSize ∧ mpSize < 65536 ∧
      a.mappingPairsOffset + mpSize ≤ a.length ∧ a.allocatedSize < 2 ^ 63 := by
  have hpairs := le_alignUp8 mpSize
  have hname := le_alignUp8 (2 * na.nameLen)
  unfold nonResidentAttrRecordAdd at hok
  dsimp only at hok
  have hextra : 0 ≤ (if isCompressed na.dataFlags || isSparse na.dataFlags then
      8 else 0 : Int) := by
    split_ifs <;> decide
  generalize (if isCompressed na.dataFlags || isSparse na.dataFlags then
    8 else 0 : Int) = extra at hok hextra
  split_ifs at hok with hpos hspace hexists hzero
  · cases hok
    dsimp only
    refine ⟨rfl, by omega, by omega, by omega, by decide⟩
  · cases hok
    dsimp only
    refine ⟨rfl, by omega, by omega, by omega, hstale⟩

theorem addExtents_spec
    {na : OpenAttr} {fresh : List NewRecord}
    (hfresh : ∀ r ∈ fresh, r.room < 65536 ∧ r.stale.allocatedSize < 2 ^ 63)
    (hrl : na.rl = pre ++ (suf ++ [enoentAt total]))
    (hpre : MappedRuns 0 pre v)
    (hsuf : MappedRuns v suf total)
    (hok : addExtents vol na fresh v attrs = .ok attrs') :
    ∃ added, attrs' = attrs ++ added ∧ StoredRuns vol v suf added total := by
  induction fresh generalizing v pre suf attrs with
  | nil => simp [addExtents] at hok
  | cons r rest ih =>
    obtain ⟨hroom, hstale⟩ := hfresh r (by simp)
    simp only [addExtents] at hok
    cases hsize : getSizeForMappingPairs vol na.rl v intMax with
    | error err => simp [hsize] at hok
    | ok size =>
      simp only [hsize] at hok
      cases hadd : nonResidentAttrRecordAdd na r v (min size (na.roomIn r)) attrs with
      | error err => simp [hadd] at hok
      | ok a =>
        obtain ⟨hres, hpos, hlt, hinside, halloc⟩ :=
          nonResidentAttrRecordAdd_spec hroom hstale hadd
        obtain ⟨mid, left, w, hbuilt⟩ := @mappingPairsBuild_into vol v total
          pre suf a _ hpre hsuf hres hpos hlt hinside halloc
        have hstop := hbuilt.rest.stop_vcn
        rw [← hrl] at hbuilt
        simp only [hadd, hbuilt.errno, hbuilt.stopRl, Option.getD_some, hstop] at hok
        by_cases hdone : left = []
        · have hw : total = w := by
            have := hbuilt.rest
            rw [hdone] at this
            exact this
          have hnew : StoredRuns vol v (mid ++ []) _ w :=
            .cons hbuilt.stored .nil
          simp only [hdone] at hok
          refine ⟨_, (Except.ok.inj hok).symm, ?_⟩
          rw [hbuilt.split, hdone, hw]
          exact hnew
        · simp only [hdone] at hok
          obtain ⟨added, rfl, hadded⟩ := @ih w (pre ++ mid) left _
            (fun t ht => hfresh t (by simp [ht]))
            (by rw [hrl, hbuilt.split]; simp)
            (mappedRuns_append_iff.mpr ⟨v, hpre, hbuilt.stored.mapped⟩)
            hbuilt.rest hok
          refine ⟨_, List.append_assoc _ _ _, ?_⟩
          rw [hbuilt.split]
          exact .cons hbuilt.stored hadded

/-- What an update is called with: a runlist, its sizes, and the records. -/
structure Pass.Valid
    (vol : Volume) (runs : List RunlistElement) (total : Int) (p : Pass) :
    Prop where
  rl_eq : p.na.rl = runs ++ [enoentAt total]
  allocatedSize_eq : p.na.allocatedSize = total * vol.clusterSize
  slots : ∀ s ∈ p.slots, s.Valid
  /-- Only the first record of an attribute starts at VCN 0. -/
  order : ∀ s ∈ p.slots.tail, s.attr.lowestVcn ≠ 0
  fresh : ∀ r ∈ p.fresh, r.room < 65536 ∧ r.stale.allocatedSize < 2 ^ 63

/-- The records after a successful pass that found `room` in the first one. -/
inductive Updated
    (vol : Volume) (runs : List RunlistElement) (total room : Int) :
    List AttrRecord → Prop
  | intro
      {base : AttrRecord} {others : List AttrRecord}
      {mid suf : List RunlistElement} {w : Int}
      (hsplit : runs = mid ++ suf)
      (hbase : Carried vol total base 0 mid w)
      (hothers : StoredRuns vol w suf others total)
      (hfirst : ∀ e ∈ runs.head?, mid ≠ [] ↔ pairSize e.length (lcnChange vol e.lcn 0) < room) :
      Updated vol runs total room (base :: others)

theorem Stored.withAllocatedSize
    {a : AttrRecord} {size : Int}
    (h : Stored vol a v runs w)
    (hsize : size < 2 ^ 63) :
    Stored vol { a with allocatedSize := size } v runs w :=
  ⟨h.1, h.2, h.3, h.4, h.5, h.6, hsize, h.8⟩

/-- The first record tells the allocated size, one way or the other. -/
theorem updateFirstSizes_spec
    {na : OpenAttr} {s : Slot} {rest : List Slot} {a : AttrRecord}
    {attrs attrs' : List AttrRecord}
    (horder : ∀ t ∈ rest, t.attr.lowestVcn ≠ 0)
    (hset : s.attr.lowestVcn = 0 → a.allocatedSize = na.allocatedSize)
    (halloc : na.allocatedSize < 2 ^ 63)
    (hstored : Stored vol a v runs w)
    (hok : updateFirstSizes na (s :: rest) (a :: attrs) = some attrs') :
    ∃ base, attrs' = base :: attrs ∧ Stored vol base v runs w ∧
      base.allocatedSize = na.allocatedSize := by
  unfold updateFirstSizes at hok
  split_ifs at hok with hany
  · have hlow : s.attr.lowestVcn = 0 := by
      obtain ⟨t, ht, hzero⟩ := List.any_eq_true.mp hany
      have hzero' := of_decide_eq_true hzero
      rcases List.mem_cons.mp ht with rfl | ht
      · exact hzero'
      · exact absurd hzero' (horder t ht)
    exact ⟨a, (Option.some.inj hok).symm, hstored, hset hlow⟩
  · exact ⟨_, (Option.some.inj hok).symm, hstored.withAllocatedSize halloc, rfl⟩

theorem filter_unmarked
    {kept marked : List AttrRecord}
    (hkept : ∀ a ∈ kept, a.highestVcn ≠ vcnDeleteMark)
    (hmarked : ∀ a ∈ marked, a.highestVcn = vcnDeleteMark) :
    (kept ++ marked).filter (fun a => decide (a.highestVcn ≠ vcnDeleteMark)) =
      kept := by
  have hkeep : kept.filter (fun a => decide (a.highestVcn ≠ vcnDeleteMark)) = kept :=
    List.filter_eq_self.mpr fun a ha => decide_eq_true (hkept a ha)
  have hdrop : marked.filter (fun a => decide (a.highestVcn ≠ vcnDeleteMark)) = [] :=
    List.filter_eq_nil_iff.mpr fun a ha => by simp [hmarked a ha]
  rw [List.filter_append, hkeep, hdrop, List.append_nil]

theorem updatePass_spec
    {p : Pass}
    (hruns : MappedRuns 0 runs total)
    (hsize : total * vol.clusterSize < 2 ^ 63)
    (hp : p.Valid vol runs total)
    (hok : updatePass vol p = .ok attrs) :
    ∃ s ∈ p.slots.head?, Updated vol runs total (slotRoom vol p.na s) attrs := by
  have halloc : p.na.allocatedSize < 2 ^ 63 := by
    rw [hp.allocatedSize_eq]
    exact hsize
  have horder := hp.order
  have hvalid := hp.slots
  unfold updatePass at hok
  rw [hp.rl_eq] at hok
  split at hok
  · cases hok
  · rename_i na₂ prog₂ attrs₂ hloop
    split at hok
    · cases hok
    · rename_i sized hsizes
      cases hslots : p.slots with
      | nil =>
        simp only [hslots, updateSlots, Except.ok.injEq, Prod.mk.injEq] at hloop
        obtain ⟨-, -, rfl⟩ := hloop
        cases hsizes
      | cons s rest =>
        rw [hslots] at horder hvalid hloop hsizes
        refine ⟨s, rfl, ?_⟩
        obtain ⟨na₁, prog₁, attr, attrs₁, hstep, hrun, rfl⟩ := updateSlots_cons rfl hloop
        obtain ⟨hrl₁, halloc₁, hset, mid, left, w, hsplit, hleft, rfl, hstored, hfirst⟩ :=
          updateSlot_spec (hvalid s (by simp)) halloc hp.rl_eq
            (show MappedRuns 0 [] 0 from rfl) hruns hstep
        obtain ⟨hrl₂, halloc₂, mid₂, left₂, w₂, kept, marked, rfl, hleft₂, rfl, hkept, hmarked,
          hstop, hfin, hnot⟩ := updateSlots_spec (fun t ht => hvalid t (by simp [ht])) (by omega)
            (by rw [hrl₁, hp.rl_eq, hsplit, List.append_assoc]) hstored.mapped hleft
            (fun h => of_decide_eq_true h) hrun
        obtain ⟨base, rfl, hbase, hbaseSize⟩ := updateFirstSizes_spec (by simpa using horder)
          (fun h0 => (hset h0).trans (by omega)) (by omega) hstored hsizes
        have hcarried : Carried vol total base 0 mid w :=
          ⟨hbase, fun _ => by rw [← hp.allocatedSize_eq]; omega⟩
        by_cases hdone : prog₂.finished = true
        · have hall : StoredRuns vol 0 (mid ++ mid₂) (base :: kept) w₂ := .cons hbase hkept
          have hend : total = w₂ := by
            rw [hfin hdone] at hleft₂
            exact hleft₂
          rw [if_pos hdone, ← List.cons_append,
            filter_unmarked (hall.unmarked le_rfl) hmarked] at hok
          cases hok
          refine .intro hsplit hcarried ?_ hfirst
          rw [hfin hdone, List.append_nil, hend]
          exact hkept
        · obtain rfl := hnot (by simpa using hdone)
          rw [if_neg hdone, hstop] at hok
          obtain ⟨added, rfl, hadded⟩ := addExtents_spec hp.fresh
            (by               rw [hrl₂, hrl₁, hp.rl_eq, hsplit]; simp)
            (mappedRuns_append_iff.mpr ⟨w, hstored.mapped, hkept.mappedRuns⟩) hleft₂ hok
          rw [List.append_nil]
          exact .intro hsplit hcarried (hkept.append hadded) hfirst

end Passes

section Reading

variable {vol : Volume} {runs : List RunlistElement} {total room v w : Int}
variable {attrs : List AttrRecord}

/-- Ranges of VCNs that follow each other from `v` to `w`. -/
def Consecutive (v : Int) : List AttrRecord → Int → Prop
  | [], w => w = v
  | a :: rest, w =>
    a.lowestVcn = v ∧ v ≤ a.highestVcn + 1 ∧ Consecutive (a.highestVcn + 1) rest w

theorem StoredRuns.consecutive
    (h : StoredRuns vol v runs attrs w) :
    Consecutive v attrs w := by
  induction h with
  | nil => rfl
  | cons hattr _ ih =>
    have hle := hattr.mapped.le
    have hhigh := hattr.highestVcn
    refine ⟨hattr.lowestVcn, by omega, ?_⟩
    rw [hhigh, Int.sub_add_cancel]
    exact ih

/-- The records are read back as the runlist. -/
def ReadsBack
    (vol : Volume) (heap : AttrRecord → Nat → RunlistElement)
    (runs : List RunlistElement) (total : Int) (attrs : List AttrRecord) : Prop :=
  ∃ rl, mapWholeRunlist vol heap none attrs = .ok (some rl) ∧ (∀ vcn, rlVcnToLcn (some rl) vcn =
      rlVcnToLcn (some (runs ++ [enoentAt total])) vcn) ∧
    (WellFormed runs total → rl = runs ++ [enoentAt total])

theorem Updated.consecutive
    (h : Updated vol runs total room attrs) :
    Consecutive 0 attrs total := by
  cases h with
  | intro hsplit hbase hothers hfirst => exact (StoredRuns.cons hbase.stored hothers).consecutive

/-- Updated records are read back exactly if the first pair found its room. -/
theorem Updated.readsBack_iff
    (h : Updated vol runs total room attrs)
    (hfsck : vol.onFsck = false)
    (heap : AttrRecord → Nat → RunlistElement) :
    ReadsBack vol heap runs total attrs ↔
      ∀ e ∈ runs.head?, pairSize e.length (lcnChange vol e.lcn 0) < room := by
  cases h with
  | @intro base others mid suf w hsplit hbase hothers hfirst =>
    by_cases hmid : mid = []
    · subst hmid
      obtain rfl : w = 0 := hbase.mapped
      have hsuf := hothers.mappedRuns
      subst hsplit
      cases runs with
      | nil =>
        obtain rfl : total = 0 := hsuf
        constructor
        · simp
        · intro _
          exact ⟨_, mapWholeRunlist_zero hfsck heap hbase, fun _ => rfl, fun _ => rfl⟩
      | cons e rest =>
        have htotal := hsuf.lt (by simp)
        have hno := hfirst e rfl
        constructor
        · rintro ⟨rl, hrl, -⟩
          rw [mapWholeRunlist_empty hfsck heap hbase htotal] at hrl
          cases hrl
        · intro hfits
          exact absurd rfl (hno.mpr (hfits e rfl))
    · have hw := hbase.mapped.lt hmid
      obtain ⟨M, hread, hsame, hexact⟩ := mapWholeRunlist_carried hfsck heap hbase
        (hothers.carriedFrom hw) hmid
      rw [← hsplit] at hsame hexact
      constructor
      · exact fun _ e he => (hfirst e he).mp hmid
      · intro _
        refine ⟨_, hread, hsame, fun hwf => ?_⟩
        rw [hexact hwf.separate]

theorem updatePass_lastPass
    {p : Pass} {later : List Pass}
    (hok : updateMappingPairs vol p later = .ok attrs) :
    updatePass vol (lastPass vol p later) = .ok attrs ∧ lastPass vol p later ∈ p :: later := by
  induction later generalizing p with
  | nil =>
    simp only [updateMappingPairs] at hok
    split at hok
    · rename_i found hpass
      cases hok
      exact ⟨hpass, by simp [lastPass]⟩
    · cases hok
    · cases hok
  | cons q later ih =>
    simp only [updateMappingPairs] at hok
    simp only [lastPass]
    split at hok
    · rename_i found hpass
      cases hok
      simp [hpass]
    · cases hok
    · rename_i hpass
      obtain ⟨hlast, hmem⟩ := ih hok
      simp only [hpass]
      exact ⟨hlast, List.mem_cons_of_mem _ hmem⟩

/-- The room for the first mapping pair takes it, with the byte that ends it. -/
def FirstPairFits (vol : Volume) (p : Pass) : Prop :=
  ∀ s ∈ p.slots.head?, ∀ e ∈ p.na.rl.head?, e.length ≠ 0 →
    pairSize e.length (lcnChange vol e.lcn 0) < slotRoom vol p.na s

instance (vol : Volume) (p : Pass) : Decidable (FirstPairFits vol p) :=
  inferInstanceAs (Decidable (∀ s ∈ p.slots.head?, ∀ e ∈ p.na.rl.head?, e.length ≠ 0 →
      pairSize e.length (lcnChange vol e.lcn 0) < slotRoom vol p.na s))

/--
After a successful update of a fully mapped runlist the extents are consecutive
and read back as the runlist, if and only if there was room for the first
mapping pair in the first extent.
-/
theorem updateMappingPairs_iff
    {p : Pass} {later : List Pass}
    (hfsck : vol.onFsck = false)
    (heap : AttrRecord → Nat → RunlistElement)
    (hruns : MappedRuns 0 runs total)
    (hsize : total * vol.clusterSize < 2 ^ 63)
    (hvalid : ∀ q ∈ p :: later, q.Valid vol runs total)
    (hok : updateMappingPairs vol p later = .ok attrs) :
    (Consecutive 0 attrs total ∧ ReadsBack vol heap runs total attrs) ↔
      FirstPairFits vol (lastPass vol p later) := by
  obtain ⟨hpass, hmem⟩ := updatePass_lastPass hok
  have hp := hvalid _ hmem
  obtain ⟨s, hs, hupdated⟩ := updatePass_spec hruns hsize hp hpass
  rw [hupdated.readsBack_iff hfsck heap]
  unfold FirstPairFits
  rw [hp.rl_eq, hs]
  cases runs with
  | nil => simp [hupdated.consecutive, enoentAt]
  | cons e rest =>
    have hpos := hruns.2.1.length_pos
    simp [hupdated.consecutive, hpos.ne']

/-- Three runs whose first mapping pair takes eight bytes. -/
def wideRuns : List RunlistElement :=
  [⟨0, 0x1000000, 0x10000⟩, ⟨0x10000, 5, 3⟩, ⟨0x10003, 0x2000000, 0x20000⟩]

/-- An extent record with eight bytes for mapping pairs. -/
def smallRecord (lowestVcn highestVcn : Int) : AttrRecord :=
  ⟨true, 72, 64, lowestVcn, highestVcn, 0, fun _ => 0⟩

/--
An attribute with an attribute list and two extents; the MFT record of the first
one has `free` bytes left.
-/
def twoExtents (free : Nat) : Pass where
  na :=
    { rl := wideRuns ++ [enoentAt 0x30003]
      allocatedSize := 0x30003 * 4096
      compressedSize := 0
      dataFlags := 0
      sparse := false
      fullyMapped := true
      nameLen := 0
      isAttributeList := false
      holesDelay := false }
  attrList := true
  slots := [⟨smallRecord 0 4, 0, 0, free⟩, ⟨smallRecord 5 9, 0, 0, 128⟩]
  fresh := []

theorem smallRecord_valid
    (lowestVcn highestVcn : Int)
    {free : Nat}
    (haligned : free % 8 = 0)
    (hlt : free < 1024) :
    (⟨smallRecord lowestVcn highestVcn, 0, 0, free⟩ : Slot).Valid where
  nonResident := rfl
  offset_ge := show 8 ≤ 64 by decide
  offset_aligned := show 64 % 8 = 0 by decide
  offset_lt := show 64 < 72 by decide
  length_aligned := show 72 % 8 = 0 by decide
  free_aligned := haligned
  size_lt := show 72 + free < 65536 by omega
  allocatedSize_lt := show (0 : Int) < 2 ^ 63 by decide

theorem twoExtents_valid
    (free : Nat)
    (haligned : free % 8 = 0)
    (hlt : free < 1024) :
    (twoExtents free).Valid volume31 wideRuns 0x30003 where
  rl_eq := rfl
  allocatedSize_eq := rfl
  slots := by
    intro s hs
    simp only [twoExtents, List.mem_cons, List.not_mem_nil, or_false] at hs
    rcases hs with rfl | rfl
    · exact smallRecord_valid 0 4 haligned hlt
    · exact smallRecord_valid 5 9 (by decide) (by decide)
  order := by simp [twoExtents, smallRecord]
  fresh := by simp [twoExtents]

/-- With eight bytes left in the first MFT record both extents are used. -/
theorem updateMappingPairs_twoExtents :
    ∃ attrs, updateMappingPairs volume31 (twoExtents 8) [] = .ok attrs ∧
      attrs.length = 2 ∧ Consecutive 0 attrs 0x30003 ∧
      ReadsBack volume31 (fun _ _ => blank) wideRuns 0x30003 attrs := by
  have hvalid : ∀ q ∈ [twoExtents 8], q.Valid volume31 wideRuns 0x30003 := by
    simpa using twoExtents_valid 8 (by decide) (by decide)
  exact ⟨_, rfl, rfl, (updateMappingPairs_iff rfl _ (by decide) (by decide) hvalid
    rfl).mpr (by decide)⟩

/--
With a full first MFT record the first extent is left empty, and its successor
starts at VCN 0 as well: the update succeeds, and reading the runlist fails.
-/
theorem updateMappingPairs_fullRecord :
    MappedRuns 0 wideRuns 0x30003 ∧ (twoExtents 0).Valid volume31 wideRuns 0x30003 ∧
      ∃ attrs, updateMappingPairs volume31 (twoExtents 0) [] = .ok attrs ∧
        attrs.map (fun a => (a.lowestVcn, a.highestVcn)) = [(0, -1), (0, 0x30002)] ∧
        mapWholeRunlist volume31 (fun _ _ => blank) none attrs = .error .eio :=
  ⟨by decide, twoExtents_valid 0 (by decide) (by decide), _, rfl, by decide +kernel,
    by decide +kernel⟩

end Reading

end NtfsPlus.Libntfs

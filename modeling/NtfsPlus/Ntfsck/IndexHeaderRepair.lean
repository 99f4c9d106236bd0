import NtfsPlus.Lib.FieldRepair
import NtfsPlus.Libntfs.IndexEntryCheck

/-!
# Repairs of index headers

`ntfsck_repair_index_root_fields` and `ntfsck_repair_index_block` of `src/ntfsck.c` restore
the header fields of an index root and of an index block.  Both go over the entries with
`ntfsck_index_used_length` to find the used length and whether there are sub-nodes; the
entries lie behind every field that is stored, so a second pass finds the same and stores
nothing.

An index root whose value has no room for a header and one entry is left as it is
(`repairIndexRootFields_settles`).  A block that is repaired passes
`ntfs_index_block_inconsistent` (`repairIndexBlock_settles`).
-/

namespace NtfsPlus.Ntfsck

open Libntfs

section UsedLength

/--
The loop of `ntfsck_index_used_length`: where the entries end, and whether one of them has
a sub-node.  `none` stands for the return of 0.
-/
def usedLengthLoop (m : Bytes) (indexEnd : Nat) : Nat → Nat → Bool → Option (Nat × Bool)
  | 0, _, _ => none
  | fuel + 1, entry, foundSubnode =>
    if indexEnd < entry + 16 then
      none
    else if ieLengthAt m entry < 16 ∨ ieLengthAt m entry % 8 ≠ 0 ∨
        indexEnd < entry + ieLengthAt m entry then
      none
    else if ieEndAt m entry then
      some (entry + ieLengthAt m entry, foundSubnode || ieNodeAt m entry)
    else
      usedLengthLoop m indexEnd fuel (entry + ieLengthAt m entry) (foundSubnode || ieNodeAt m entry)

/-- `ntfsck_index_used_length` of the index header at `ih`. -/
def indexUsedLength (m : Bytes) (ih indexEnd : Nat) : Option (Nat × Bool) :=
  if le32 m ih < 16 ∨ le32 m ih % 8 ≠ 0 ∨ indexEnd ≤ ih + le32 m ih then
    none
  else
    (usedLengthLoop m indexEnd (indexEnd + 1) (ih + le32 m ih) false).map fun w => (w.1 - ih, w.2)

variable {m m' : Bytes} {ih indexEnd fuel entry : Nat} {sub : Bool}

/-- The length that is found lies in the index. -/
theorem usedLengthLoop_bounds
    {w : Nat × Bool}
    (h : usedLengthLoop m indexEnd fuel entry sub = some w) :
    entry + 16 ≤ w.1 ∧ w.1 ≤ indexEnd := by
  induction fuel generalizing entry sub with
  | zero => cases h
  | succ fuel ih =>
    rw [usedLengthLoop] at h
    split_ifs at h with hroom hlength hend
    · cases h
      omega
    · have := ih h
      omega

theorem usedLengthLoop_congr
    (h : ∀ j, entry ≤ j → m j = m' j) :
    usedLengthLoop m indexEnd fuel entry sub = usedLengthLoop m' indexEnd fuel entry sub := by
  induction fuel generalizing entry sub with
  | zero => rfl
  | succ fuel ih =>
    have hlength : ieLengthAt m entry = ieLengthAt m' entry :=
      leNat_congr fun i _ => h _ (by omega)
    have hflags : ieFlagsAt m entry = ieFlagsAt m' entry :=
      leNat_congr fun i _ => h _ (by omega)
    unfold usedLengthLoop ieEndAt ieNodeAt
    rw [hlength, hflags, ih fun j hj => h j (by omega)]

theorem indexUsedLength_bounds
    {w : Nat × Bool}
    (h : indexUsedLength m ih indexEnd = some w) :
    16 ≤ le32 m ih ∧ le32 m ih < w.1 ∧ ih + w.1 ≤ indexEnd := by
  rw [indexUsedLength] at h
  split_ifs at h
  obtain ⟨w', hloop, rfl⟩ := Option.map_eq_some_iff.mp h
  have := usedLengthLoop_bounds hloop
  omega

/-- It depends on the entries only. -/
theorem indexUsedLength_congr
    (hofs : le32 m ih = le32 m' ih)
    (h : ∀ j, ih + le32 m' ih ≤ j → m j = m' j) :
    indexUsedLength m ih indexEnd = indexUsedLength m' ih indexEnd := by
  unfold indexUsedLength
  rw [hofs, usedLengthLoop_congr h]

end UsedLength

section IndexRoot

/-- What the repair takes from the volume. -/
structure IndexVolume where
  indxRecordSize : Nat
  clusterSize : Nat
  clusterSizeBits : Nat

/-- `ntfsck_expected_clusters_per_index_block`, as the byte that is stored. -/
def expectedClustersPerIndexBlock (vol : IndexVolume) (blockSize : Nat) : UInt8 :=
  if vol.clusterSize ≤ blockSize then
    UInt8.ofNat (blockSize >>> vol.clusterSizeBits)
  else
    UInt8.ofNat (blockSize >>> 9)

/-- A name as it is stored. -/
def ntfschars (name : String) : List UInt8 :=
  name.toList.flatMap fun c => leBytes 2 c.toNat

/-- `ntfsck_get_named_index_defaults`: the type and the collation rule of an index. -/
def namedIndexDefaults (mftNo : Nat) (name : List UInt8) : Option (Nat × Nat) :=
  if name = ntfschars "$I30" then some (0x30, 1)
  else if name = ntfschars "$SII" then some (0, 16)
  else if name = ntfschars "$SDH" then some (0, 18)
  else if name = ntfschars "$Q" then some (0, 16)
  else if name = ntfschars "$R" then some (0, 19)
  else if name = ntfschars "$O" then
    if mftNo = 24 then some (0, 17) else if mftNo = 25 then some (0, 19) else none
  else none

/-- The fields of the attribute record. -/
def attrName (a : Bytes) : List UInt8 :=
  bytesAt a (le16 a 10) (2 * (a 9).toNat)

def attrValueLength (a : Bytes) : Nat :=
  le32 a 16

def attrValueOffset (a : Bytes) : Nat :=
  le16 a 20

/-- `payload_size`. -/
def payloadSize (a : Bytes) : Nat :=
  (attrValueLength a - 16) / 8 * 8

/-- The fields that are repaired before the entries are read. -/
def rootFields (vol : IndexVolume) (defaults : Option (Nat × Nat)) : List (Nat × List UInt8) :=
  (match defaults with
    | some (type, rule) => [(0, leBytes 4 type), (4, leBytes 4 rule)]
    | none => []) ++
    [(8, leBytes 4 vol.indxRecordSize),
      (12, [expectedClustersPerIndexBlock vol vol.indxRecordSize]), (13, [0, 0, 0]),
      (16, leBytes 4 16)]

/-- The fields that are repaired from the entries. -/
def rootSizes (payload : Nat) (w : Option (Nat × Bool)) : List (Nat × List UInt8) :=
  [(20, leBytes 4 ((w.map Prod.fst).getD payload)), (24, leBytes 4 payload),
    (28, [((w.map Prod.snd).getD false).toUInt8]), (29, [0, 0, 0])]

/-- `ntfsck_repair_index_root_fields`. -/
def repairIndexRootFields (vol : IndexVolume) (mftNo : Nat) (a : Bytes) : FieldRepair :=
  if le32 a 0 ≠ 0x90 ∨ a 8 ≠ 0 then
    ⟨a, false⟩
  else if attrValueLength a < 32 + 16 then
    ⟨a, false⟩
  else if payloadSize a < 16 + 16 then
    ⟨a, false⟩
  else
    let ir := attrValueOffset a
    let r := (FieldRepair.mk a false).fields ir
      (rootFields vol (namedIndexDefaults mftNo (attrName a)))
    r.fields ir (rootSizes (payloadSize a)
      (indexUsedLength r.m (ir + 16) (ir + 16 + payloadSize a)))

/-- `ntfsck_index_root_fields_changed`, with the record behind it. -/
def indexRootFieldsChanged (vol : IndexVolume) (mftNo : Nat) (a : Bytes) (apply : Bool) :
    Bool × Bytes :=
  if apply then
    ((repairIndexRootFields vol mftNo a).changed, (repairIndexRootFields vol mftNo a).m)
  else if le32 a 0 ≠ 0x90 ∨ a 8 ≠ 0 then
    (false, a)
  else
    -- the repair works on a copy
    ((repairIndexRootFields vol mftNo a).changed, a)

/-- A resident index root: its value lies behind the header of the record and the name. -/
structure ResidentRoot (a : Bytes) : Prop where
  type : le32 a 0 = 0x90
  resident : a 8 = 0
  behindHeader : 24 ≤ attrValueOffset a
  behindName : le16 a 10 + 2 * (a 9).toNat ≤ attrValueOffset a

/-- The offsets and lengths of the index header, which is at offset 16, lie in the value. -/
structure HeaderInside (a : Bytes) : Prop where
  entriesOffset : 16 + le32 a (attrValueOffset a + 16) ≤ attrValueLength a
  indexLength : 16 + le32 a (attrValueOffset a + 20) ≤ attrValueLength a
  allocatedSize : 16 + le32 a (attrValueOffset a + 24) ≤ attrValueLength a

variable {vol : IndexVolume} {mftNo : Nat} {a : Bytes}

variable {defaults : Option (Nat × Nat)} {payload : Nat} {w : Option (Nat × Bool)}

theorem rootFields_apart
    (vol : IndexVolume)
    (defaults : Option (Nat × Nat)) :
    FieldRepair.Apart (rootFields vol defaults) := by
  unfold FieldRepair.Apart rootFields
  cases defaults <;> simp

theorem rootFields_inside : ∀ f ∈ rootFields vol defaults, f.1 + f.2.length ≤ 20 := by
  unfold rootFields
  cases defaults <;> simp

theorem rootFields_rootSizes_apart :
    FieldRepair.Apart (rootFields vol defaults ++ rootSizes payload w) := by
  refine List.pairwise_append.mpr ⟨rootFields_apart vol defaults, by simp [rootSizes], ?_⟩
  intro f hf g hg
  have hlow := rootFields_inside f hf
  have hhigh : 20 ≤ g.1 := by
    revert g
    simp [rootSizes]
  exact Or.inl (by omega)

theorem rootFields_rootSizes_inside :
    ∀ f ∈ rootFields vol defaults ++ rootSizes payload w, f.1 + f.2.length ≤ 32 := by
  intro f hf
  rcases List.mem_append.mp hf with hlow | hhigh
  · have := rootFields_inside f hlow
    omega
  · clear hf
    revert f
    simp [rootSizes]

/-- What both passes over the fields store. -/
def rootRepairs (vol : IndexVolume) (mftNo : Nat) (a : Bytes) : List (Nat × List UInt8) :=
  rootFields vol (namedIndexDefaults mftNo (attrName a)) ++
    rootSizes (payloadSize a) (indexUsedLength ((FieldRepair.mk a false).fields (attrValueOffset a)
        (rootFields vol (namedIndexDefaults mftNo (attrName a)))).m
      (attrValueOffset a + 16) (attrValueOffset a + 16 + payloadSize a))

theorem repairIndexRootFields_eq
    (h : ResidentRoot a)
    (hroom : 48 ≤ attrValueLength a) :
    repairIndexRootFields vol mftNo a =
      (FieldRepair.mk a false).fields (attrValueOffset a) (rootRepairs vol mftNo a) := by
  have hpayload : ¬payloadSize a < 16 + 16 := by
    unfold payloadSize
    omega
  rw [repairIndexRootFields, if_neg (by simp [h.type, h.resident]), if_neg (by omega),
    if_neg hpayload, rootRepairs, FieldRepair.fields_append]

theorem repairIndexRootFields_short
    (hshort : attrValueLength a < 48) :
    repairIndexRootFields vol mftNo a = ⟨a, false⟩ := by
  unfold repairIndexRootFields
  split_ifs <;> rfl

/-- A record that differs in the header of the index root only. -/
structure SameRecord (a b : Bytes) : Prop where
  root : ResidentRoot a
  outside : ∀ j, j < attrValueOffset a ∨ attrValueOffset a + 32 ≤ j → b j = a j

namespace SameRecord

variable {b : Bytes}

theorem attrValueOffset_eq
    (h : SameRecord a b) :
    attrValueOffset b = attrValueOffset a :=
  leNat_congr fun i hi => h.outside _ (Or.inl (by have := h.root.behindHeader; omega))

theorem attrValueLength_eq
    (h : SameRecord a b) :
    attrValueLength b = attrValueLength a :=
  leNat_congr fun i hi => h.outside _ (Or.inl (by have := h.root.behindHeader; omega))

theorem payloadSize_eq
    (h : SameRecord a b) :
    payloadSize b = payloadSize a := by
  rw [payloadSize, payloadSize, h.attrValueLength_eq]

theorem attrName_eq
    (h : SameRecord a b) :
    attrName b = attrName a := by
  have hheader := h.root.behindHeader
  have hname := h.root.behindName
  have hofs : le16 b 10 = le16 a 10 :=
    leNat_congr fun i hi => h.outside _ (Or.inl (by omega))
  unfold attrName bytesAt
  rw [hofs, h.outside 9 (Or.inl (by omega))]
  refine List.map_congr_left fun i hi => h.outside _ (Or.inl ?_)
  have := List.mem_range.mp hi
  omega

theorem residentRoot
    (h : SameRecord a b) :
    ResidentRoot b := by
  have hheader := h.root.behindHeader
  have hofs : le16 b 10 = le16 a 10 :=
    leNat_congr fun i hi => h.outside _ (Or.inl (by omega))
  have htype : le32 b 0 = le32 a 0 :=
    leNat_congr fun i hi => h.outside _ (Or.inl (by omega))
  exact ⟨htype.trans h.root.type, (h.outside 8 (Or.inl (by omega))).trans h.root.resident,
    by rw [h.attrValueOffset_eq]; exact hheader,
    by rw [h.attrValueOffset_eq, hofs, h.outside 9 (Or.inl (by omega))]; exact h.root.behindName⟩

theorem rootRepairs_eq
    (h : SameRecord a b) :
    rootRepairs vol mftNo b = rootRepairs vol mftNo a := by
  unfold rootRepairs
  rw [h.attrName_eq, h.payloadSize_eq, h.attrValueOffset_eq]
  generalize namedIndexDefaults mftNo (attrName a) = defaults
  have hofs : ∀ c : Bytes, le32 ((FieldRepair.mk c false).fields (attrValueOffset a)
      (rootFields vol defaults)).m (attrValueOffset a + 16) = 16 := by
    intro c
    have hmem : (16, leBytes 4 16) ∈ rootFields vol defaults := by simp [rootFields]
    exact (FieldRepair.fields_holds (rootFields_apart vol defaults) hmem).leNat_eq
  rw [indexUsedLength_congr ((hofs b).trans (hofs a).symm)]
  intro j hj
  rw [hofs a] at hj
  rw [FieldRepair.fields_of_ne 20 rootFields_inside (Or.inr (by omega)),
    FieldRepair.fields_of_ne 20 rootFields_inside (Or.inr (by omega))]
  exact h.outside j (Or.inr (by omega))

theorem headerInside
    (h : SameRecord a b)
    (hroom : 48 ≤ attrValueLength a)
    (hholds : ∀ f ∈ rootRepairs vol mftNo a, HoldsBytes b (attrValueOffset a + f.1) f.2) :
    HeaderInside b := by
  have hpayload : 16 + payloadSize a ≤ attrValueLength a := by
    unfold payloadSize
    omega
  have hle : ∀ ofs v, (ofs, leBytes 4 v) ∈ rootRepairs vol mftNo a → v ≤ payloadSize a →
      16 + le32 b (attrValueOffset b + ofs) ≤ attrValueLength b := by
    intro ofs v hmem hv
    have hread : le32 b (attrValueOffset a + ofs) = v % 256 ^ 4 := (hholds _ hmem).leNat_eq
    rw [h.attrValueOffset_eq, h.attrValueLength_eq]
    omega
  refine ⟨hle 16 16 (by simp [rootRepairs, rootFields]) (by unfold payloadSize; omega), ?_,
    hle 24 _ (by simp [rootRepairs, rootSizes]) le_rfl⟩
  refine hle 20 _ (List.mem_append_right _ List.mem_cons_self) ?_
  cases hw : indexUsedLength _ _ _ with
  | none => exact le_rfl
  | some w =>
    have := (indexUsedLength_bounds hw).2.2
    simp
    omega

end SameRecord

/--
Repairing twice is repairing once, the dry run reports a change exactly when a byte would
be changed, and the header lies in the value afterwards if there is room for an entry, or
if it did before.
-/
theorem repairIndexRootFields_settles
    (vol : IndexVolume)
    (mftNo : Nat)
    {a : Bytes}
    (h : ResidentRoot a) :
    repairIndexRootFields vol mftNo (repairIndexRootFields vol mftNo a).m =
        ⟨(repairIndexRootFields vol mftNo a).m, false⟩ ∧
      ((indexRootFieldsChanged vol mftNo a false).1 = true ↔
        (indexRootFieldsChanged vol mftNo a true).2 ≠ a) ∧
      (HeaderInside (repairIndexRootFields vol mftNo a).m ↔
        48 ≤ attrValueLength a ∨ HeaderInside a) := by
  have hdry : indexRootFieldsChanged vol mftNo a false =
      ((repairIndexRootFields vol mftNo a).changed, a) := by
    rw [indexRootFieldsChanged, if_neg Bool.false_ne_true, if_neg (by simp [h.type, h.resident])]
  have hwet : (indexRootFieldsChanged vol mftNo a true).2 =
      (repairIndexRootFields vol mftNo a).m := by
    rw [indexRootFieldsChanged, if_pos rfl]
  rw [hdry, hwet]
  by_cases hroom : 48 ≤ attrValueLength a
  · have heq : repairIndexRootFields vol mftNo a = _ := repairIndexRootFields_eq h hroom
    have hsame : SameRecord a (repairIndexRootFields vol mftNo a).m := by
      refine ⟨h, fun j hj => ?_⟩
      rw [heq, rootRepairs, FieldRepair.fields_of_ne 32 rootFields_rootSizes_inside hj]
    have hholds : ∀ f ∈ rootRepairs vol mftNo a,
        HoldsBytes (repairIndexRootFields vol mftNo a).m (attrValueOffset a + f.1) f.2 := by
      intro f hf
      rw [heq]
      exact FieldRepair.fields_holds rootFields_rootSizes_apart hf
    refine ⟨?_, ?_, iff_of_true ?_ (Or.inl hroom)⟩
    · rw [repairIndexRootFields_eq hsame.residentRoot (by rwa [hsame.attrValueLength_eq]),
        hsame.rootRepairs_eq, hsame.attrValueOffset_eq]
      exact FieldRepair.fields_of_holds hholds
    · rw [heq, rootRepairs, FieldRepair.fields_changed_iff rootFields_rootSizes_apart]
      simp
    · exact hsame.headerInside hroom hholds
  · have hshort : repairIndexRootFields vol mftNo a = ⟨a, false⟩ :=
      repairIndexRootFields_short (by omega)
    simp [hshort, hroom]

/-- A directory's root without entries, in a value of the given length; its header is empty. -/
def blankRoot (valueLength : Nat) (indexLength : Nat) : Bytes :=
  patches (fun _ => 0) 0 [(0, leBytes 4 0x90), (9, [4]), (10, leBytes 2 24),
    (16, leBytes 4 valueLength), (20, leBytes 2 32), (24, ntfschars "$I30"),
    (52, leBytes 4 indexLength), (72, leBytes 2 16), (76, leBytes 2 2)]

/-- A volume with index blocks and clusters of 4096 bytes. -/
def plainVolume : IndexVolume := ⟨4096, 4096, 12⟩

theorem repairIndexRootFields_blank :
    ResidentRoot (blankRoot 48 0) ∧
      HeaderInside (repairIndexRootFields plainVolume 5 (blankRoot 48 0)).m := by
  have hroot : ResidentRoot (blankRoot 48 0) := by constructor <;> decide +kernel
  refine ⟨hroot, (repairIndexRootFields_settles plainVolume 5 hroot).2.2.mpr (Or.inl ?_)⟩
  decide +kernel

/-- The header of a value of forty bytes stays as it is. -/
theorem repairIndexRootFields_short_value :
    ResidentRoot (blankRoot 40 100) ∧
      ¬HeaderInside (repairIndexRootFields plainVolume 5 (blankRoot 40 100)).m := by
  refine ⟨by constructor <;> decide +kernel, fun h => ?_⟩
  exact absurd h.indexLength (by decide +kernel)

end IndexRoot

section IndexBlock

/-- `expected_usa_count`. -/
def expectedUsaCount (blockSize : Nat) : Nat :=
  (if 512 ≤ blockSize then blockSize / 512 + 1 else 1) % 65536

/-- `min_entries_offset`. -/
def minEntriesOffset (blockSize : Nat) : Nat :=
  (16 + expectedUsaCount blockSize * 2 + 7) / 8 * 8

/-- `expected_allocated_size`. -/
def expectedAllocatedSize (blockSize : Nat) : Nat :=
  blockSize - 24

/-- What the repair of a block takes from the index context. -/
structure IndexContext where
  blockSize : Nat
  fsck : Bool
  noRepair : Bool
  /-- `ntfs_ib_write`, with the block as it is left in memory. -/
  ibWrite : Bytes → Option Bytes
  /-- The block has room for its header, and its size is a `u32`. -/
  headerFits : 40 ≤ blockSize
  sizeFits : blockSize < 2 ^ 32
  /-- The write protects the sectors and takes that back, up to the update sequence array. -/
  writeKeeps : ∀ b b', ibWrite b = some b' → ∀ j,
    j < 40 ∨ 40 + 2 * expectedUsaCount blockSize ≤ j → b' j = b j

/-- The test of `entries_offset`. -/
def BadEntriesOffset (blockSize ofs : Nat) : Prop :=
  ofs < minEntriesOffset blockSize ∨ ofs % 8 ≠ 0 ∨ expectedAllocatedSize blockSize ≤ ofs

instance (blockSize ofs : Nat) : Decidable (BadEntriesOffset blockSize ofs) :=
  inferInstanceAs (Decidable (_ ∨ _))

/-- The magic, the place and size of the update sequence array and the VCN. -/
def blockFields (blockSize : Nat) (vcn : UInt64) : List (Nat × List UInt8) :=
  [(0, [0x49, 0x4e, 0x44, 0x58]), (4, leBytes 2 40), (6, leBytes 2 (expectedUsaCount blockSize)),
    (16, leBytes 8 vcn.toNat)]

/-- `allocated_size` and the reserved bytes. -/
def blockSizes (blockSize : Nat) : List (Nat × List UInt8) :=
  [(32, leBytes 4 (expectedAllocatedSize blockSize)), (37, [0, 0, 0])]

/-- `index_length` and the flags. -/
def blockUsed (w : Nat × Bool) : List (Nat × List UInt8) :=
  [(28, leBytes 4 w.1), (36, [w.2.toUInt8])]

/-- The repairs before the entries are read. -/
def repairBlockHeader (blockSize : Nat) (vcn : UInt64) (r : FieldRepair) : FieldRepair :=
  let r := r.fields 0 (blockFields blockSize vcn)
  let r :=
    if BadEntriesOffset blockSize (le32 r.m 24) then
      ⟨patch r.m 24 (leBytes 4 (minEntriesOffset blockSize)), true⟩
    else
      r
  r.fields 0 (blockSizes blockSize)

/-- `ntfsck_repair_index_block`: whether it succeeds, and the block. -/
def repairIndexBlock (ictx : IndexContext) (vcn : UInt64) (b : Bytes) (mstSalvaged : Bool) :
    Bool × FieldRepair :=
  if ictx.fsck = false then
    (true, ⟨b, false⟩)
  else
    let r := repairBlockHeader ictx.blockSize vcn ⟨b, mstSalvaged⟩
    match indexUsedLength r.m 24 (24 + expectedAllocatedSize ictx.blockSize) with
    | none => (false, r)
    | some w =>
      let r := r.fields 0 (blockUsed w)
      if r.changed = false ∨ ictx.noRepair = true then
        (true, r)
      else
        match ictx.ibWrite r.m with
        | none => (false, r)
        | some b => (true, ⟨b, true⟩)

/-- A block in which there is nothing to repair. -/
structure SettledBlock (blockSize : Nat) (vcn : UInt64) (b : Bytes) : Prop where
  fields : ∀ f ∈ blockFields blockSize vcn ++ blockSizes blockSize, HoldsBytes b (0 + f.1) f.2
  entries : ¬BadEntriesOffset blockSize (le32 b 24)
  used : ∃ w, indexUsedLength b 24 (24 + expectedAllocatedSize blockSize) = some w ∧
    ∀ f ∈ blockUsed w, HoldsBytes b (0 + f.1) f.2

variable {blockSize : Nat} {vcn : UInt64} {r : FieldRepair} {b b' : Bytes} {w : Nat × Bool}

theorem minEntriesOffset_mod : minEntriesOffset blockSize % 8 = 0 :=
  Nat.mul_mod_left _ _

theorem usa_before_entries : 16 + 2 * expectedUsaCount blockSize ≤ minEntriesOffset blockSize := by
  unfold minEntriesOffset
  omega

theorem repairBlockHeader_m
    (blockSize : Nat)
    (vcn : UInt64)
    (r : FieldRepair) :
    ∃ e, (e = [] ∨ e = [(24, leBytes 4 (minEntriesOffset blockSize))]) ∧
      (repairBlockHeader blockSize vcn r).m =
        (r.fields 0 (blockFields blockSize vcn ++ (e ++ blockSizes blockSize))).m := by
  unfold repairBlockHeader
  dsimp only
  split_ifs
  · refine ⟨_, Or.inr rfl, ?_⟩
    simp only [FieldRepair.fields_m]
    rfl
  · refine ⟨[], Or.inl rfl, ?_⟩
    rw [FieldRepair.fields_append]
    rfl

theorem repairBlockHeader_entries
    (blockSize : Nat)
    (vcn : UInt64)
    (r : FieldRepair) :
    ¬BadEntriesOffset blockSize (le32 (repairBlockHeader blockSize vcn r).m 24) ∨
      le32 (repairBlockHeader blockSize vcn r).m 24 = minEntriesOffset blockSize := by
  have hsizes : ∀ r : FieldRepair,
      le32 (r.fields 0 (blockSizes blockSize)).m 24 = le32 r.m 24 := fun r =>
    FieldRepair.fields_leNat (by simp [blockSizes])
  unfold repairBlockHeader
  rw [hsizes]
  split_ifs with hbad
  · refine Or.inr ((leNat_patch _ 24 4 _).trans (Nat.mod_eq_of_lt ?_))
    unfold minEntriesOffset expectedUsaCount
    omega
  · exact Or.inl hbad

/-- A header whose entries can be read is settled with what is read. -/
theorem settledBlock_of_used
    (h : indexUsedLength (repairBlockHeader blockSize vcn r).m 24
      (24 + expectedAllocatedSize blockSize) = some w) :
    SettledBlock blockSize vcn ((repairBlockHeader blockSize vcn r).fields 0 (blockUsed w)).m := by
  obtain ⟨e, he, hm⟩ := repairBlockHeader_m blockSize vcn r
  have hall : ((repairBlockHeader blockSize vcn r).fields 0 (blockUsed w)).m =
      (r.fields 0 (blockFields blockSize vcn ++ (e ++ blockSizes blockSize) ++ blockUsed w)).m := by
    rw [FieldRepair.fields_append, FieldRepair.fields_m, hm, ← FieldRepair.fields_m]
  have hholds : ∀ f ∈ blockFields blockSize vcn ++ (e ++ blockSizes blockSize) ++ blockUsed w,
      HoldsBytes ((repairBlockHeader blockSize vcn r).fields 0 (blockUsed w)).m (0 + f.1) f.2 := by
    intro f hf
    rw [hall]
    refine FieldRepair.fields_holds ?_ hf
    rcases he with rfl | rfl <;>
      simp [FieldRepair.Apart, blockFields, blockSizes, blockUsed]
  obtain ⟨hofs, hused, hend⟩ := indexUsedLength_bounds h
  have hkept : le32 ((repairBlockHeader blockSize vcn r).fields 0 (blockUsed w)).m 24 =
      le32 (repairBlockHeader blockSize vcn r).m 24 :=
    FieldRepair.fields_leNat (by simp [blockUsed])
  refine ⟨fun f hf => hholds f ?_, ?_, w, ?_, fun f hf => hholds f (List.mem_append_right _ hf)⟩
  · rcases List.mem_append.mp hf with hf | hf <;> simp [hf]
  · rw [hkept]
    rcases repairBlockHeader_entries blockSize vcn r with hgood | hmin
    · exact hgood
    · unfold BadEntriesOffset
      have := @minEntriesOffset_mod blockSize
      omega
  · rw [indexUsedLength_congr hkept, h]
    intro j hj
    exact FieldRepair.fields_of_ne 40 (by simp [blockUsed]) (Or.inr (by omega))

theorem SettledBlock.entriesOffset
    (h : SettledBlock blockSize vcn b) :
    minEntriesOffset blockSize ≤ le32 b 24 := by
  have := h.entries
  unfold BadEntriesOffset at this
  omega

theorem SettledBlock.written
    (h : SettledBlock blockSize vcn b)
    (hsame : ∀ j, j < 40 ∨ 40 + 2 * expectedUsaCount blockSize ≤ j → b' j = b j) :
    SettledBlock blockSize vcn b' := by
  have hheader : ∀ f : Nat × List UInt8, f.1 + f.2.length ≤ 40 → HoldsBytes b (0 + f.1) f.2 →
      HoldsBytes b' (0 + f.1) f.2 := fun f hf hholds =>
    hholds.frame fun j _ _ => hsame j (Or.inl (by omega))
  have hofs : le32 b' 24 = le32 b 24 := leNat_congr fun i _ => hsame _ (Or.inl (by omega))
  obtain ⟨w, hused, hfields⟩ := h.used
  refine ⟨fun f hf => hheader f ?_ (h.fields f hf), by rw [hofs]; exact h.entries, w, ?_,
    fun f hf => hheader f ?_ (hfields f hf)⟩
  · revert f
    simp [blockFields, blockSizes]
  · rw [indexUsedLength_congr hofs, hused]
    intro j hj
    have hlow := h.entriesOffset
    have husa := @usa_before_entries blockSize
    exact hsame j (Or.inr (by omega))
  · revert f
    simp [blockUsed]

theorem SettledBlock.accepted
    (h : SettledBlock blockSize vcn b)
    (hlow : 40 ≤ blockSize)
    (hhigh : blockSize < 2 ^ 32) :
    (indexBlockInconsistent blockSize vcn.toNat b).1 = false := by
  obtain ⟨w, hused, hfields⟩ := h.used
  obtain ⟨hofs, hlt, hend⟩ := indexUsedLength_bounds hused
  have hvcn : le64 b 16 = vcn.toNat := by
    have hread := (h.fields (16, leBytes 8 vcn.toNat) (by simp [blockFields])).leNat_eq
    exact hread.trans (Nat.mod_eq_of_lt vcn.toNat_lt)
  have halloc : le32 b 32 = blockSize - 24 := by
    have hread := (h.fields (32, leBytes 4 (expectedAllocatedSize blockSize))
      (by simp [blockSizes])).leNat_eq
    exact hread.trans (Nat.mod_eq_of_lt (by unfold expectedAllocatedSize; omega))
  have hlength : le32 b 28 = w.1 := by
    have hread := (hfields (28, leBytes 4 w.1) (by simp [blockUsed])).leNat_eq
    exact hread.trans (Nat.mod_eq_of_lt (by unfold expectedAllocatedSize at hend; omega))
  unfold expectedAllocatedSize at hend
  unfold indexBlockInconsistent ihAllocatedSize ihEntriesOffset ihIndexLength
  rw [hvcn, if_neg (by simp), if_neg (by omega), if_neg (by omega), if_neg (by omega)]
  simp only [decide_eq_false_iff_not]
  omega

theorem SettledBlock.unchanged
    (ictx : IndexContext)
    (h : SettledBlock ictx.blockSize vcn b) :
    repairIndexBlock ictx vcn b false = (true, ⟨b, false⟩) := by
  obtain ⟨w, hused, hfields⟩ := h.used
  have hheader : repairBlockHeader ictx.blockSize vcn ⟨b, false⟩ = ⟨b, false⟩ := by
    have hfirst : (FieldRepair.mk b false).fields 0 (blockFields ictx.blockSize vcn) = ⟨b, false⟩ :=
      FieldRepair.fields_of_holds fun f hf => h.fields f (List.mem_append_left _ hf)
    unfold repairBlockHeader
    dsimp only
    rw [hfirst, if_neg h.entries]
    exact FieldRepair.fields_of_holds fun f hf => h.fields f (List.mem_append_right _ hf)
  have hlast : (FieldRepair.mk b false).fields 0 (blockUsed w) = ⟨b, false⟩ :=
    FieldRepair.fields_of_holds hfields
  rw [repairIndexBlock, hheader]
  dsimp only
  rw [hused]
  dsimp only
  rw [hlast]
  simp

/--
A block whose repair succeeds passes the check for its VCN, and a second repair changes
nothing.
-/
theorem repairIndexBlock_settles
    (ictx : IndexContext)
    (vcn : UInt64)
    (b : Bytes)
    (mstSalvaged : Bool)
    (hfsck : ictx.fsck = true)
    (hok : (repairIndexBlock ictx vcn b mstSalvaged).1 = true) :
    (indexBlockInconsistent ictx.blockSize vcn.toNat
        (repairIndexBlock ictx vcn b mstSalvaged).2.m).1 = false ∧
      repairIndexBlock ictx vcn (repairIndexBlock ictx vcn b mstSalvaged).2.m false =
        (true, ⟨(repairIndexBlock ictx vcn b mstSalvaged).2.m, false⟩) := by
  have hsettled :
      SettledBlock ictx.blockSize vcn (repairIndexBlock ictx vcn b mstSalvaged).2.m := by
    unfold repairIndexBlock at hok ⊢
    rw [if_neg (by simp [hfsck])] at hok ⊢
    dsimp only at hok ⊢
    cases hused : indexUsedLength (repairBlockHeader ictx.blockSize vcn ⟨b, mstSalvaged⟩).m 24
        (24 + expectedAllocatedSize ictx.blockSize) with
    | none =>
      rw [hused] at hok
      cases hok
    | some w =>
      have hsettled := settledBlock_of_used hused
      rw [hused] at hok
      dsimp only at hok ⊢
      split_ifs at hok ⊢ with hkeep
      · exact hsettled
      · cases hwrite : ictx.ibWrite _ with
        | none =>
          rw [hwrite] at hok
          cases hok
        | some b' => exact hsettled.written (ictx.writeKeeps _ _ hwrite)
  exact ⟨hsettled.accepted ictx.headerFits ictx.sizeFits, hsettled.unchanged ictx⟩

/-- An index of blocks of 512 bytes. -/
def smallBlocks : IndexContext where
  blockSize := 512
  fsck := true
  noRepair := false
  ibWrite := some
  headerFits := by decide
  sizeFits := by decide
  writeKeeps := by
    intro b b' h j _
    rw [Option.some.inj h]

/-- A block whose header is empty, and whose entries are the end entry. -/
def blankBlock : Bytes :=
  patches (fun _ => 0) 48 [(8, leBytes 2 16), (12, leBytes 2 2)]

theorem repairIndexBlock_blank :
    (indexBlockInconsistent 512 3 blankBlock).1 = true ∧
      (indexBlockInconsistent 512 3 (repairIndexBlock smallBlocks 3 blankBlock false).2.m).1 =
        false :=
  ⟨by decide +kernel,
    (repairIndexBlock_settles smallBlocks 3 blankBlock false rfl (by decide +kernel)).1⟩

end IndexBlock

end NtfsPlus.Ntfsck

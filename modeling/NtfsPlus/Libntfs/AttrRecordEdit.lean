import NtfsPlus.Libntfs.RunlistBasic

/-!
# Editing the attribute records of an MFT record

`ntfs_make_room_for_attr`, `ntfs_attr_record_resize`, the two functions that add
an attribute record and `ntfs_attr_record_rm` of `libntfs/attrib.c`, on the
bytes of one MFT record.  An attribute is named by its index; `attrAddr` finds
its address by the length fields, as the search functions do.

The upkeep of the attribute list is the business of other functions.  What they
answer, and what they do to this record, is in `ListUpkeep`; `ListUpkeep.Quiet`
says that they succeed and leave this record alone.

`Layout` says that the attributes lie one behind the other up to the end marker.
`runOps_layout` is the main result: every sequence of operations keeps it,
changes one attribute at a time and nothing at all on failure.
-/

namespace NtfsPlus.Libntfs

section Fields

/-- `AT_ATTRIBUTE_LIST`. -/
def atAttributeList : Nat := 0x20

/-- `AT_FILE_NAME`. -/
def atFileName : Nat := 0x30

/-- `AT_INDEX_ROOT`. -/
def atIndexRoot : Nat := 0x90

/-- `AT_END`. -/
def atEnd : Nat := 0xffffffff

/-- `m->attrs_offset`. -/
def attrsOffset (m : Bytes) : Nat := le16 m 20

/-- `m->bytes_in_use`. -/
def bytesInUse (m : Bytes) : Nat := le32 m 24

/-- `m->bytes_allocated`. -/
def bytesAllocated (m : Bytes) : Nat := le32 m 28

/-- `m->next_attr_instance`. -/
def nextAttrInstance (m : Bytes) : Nat := le16 m 40

/-- Assign `m->bytes_in_use`. -/
def setBytesInUse (m : Bytes) (n : Nat) : Bytes :=
  patch m 24 (leBytes 4 n)

/-- `(n + 7) & ~7` in 32 bits. -/
def roundUp8 (n : Nat) : Nat :=
  (n + 7) % 2 ^ 32 / 8 * 8

/-- A `u32` taken for an `int`. -/
def asInt32 (n : Nat) : Int :=
  if n < 2 ^ 31 then n else n - 2 ^ 32

end Fields

section Editing

/-- `ntfs_make_room_for_attr`, with `pos` relative to the record. -/
def makeRoomForAttr (m : Bytes) (pos size : Nat) : Except Errno Bytes :=
  let size := roundUp8 size
  let biu := bytesInUse m
  if (pos : Int) > asInt32 biu - 8 then
    .error .einval
  else if size = 0 then
    .ok m
  else if (biu + size) % 2 ^ 32 > bytesAllocated m ∨ pos + size > bytesAllocated m then
    .error .enospc
  else
    .ok (setBytesInUse (memmove m (pos + size) pos (biu - pos)) ((biu + size) % 2 ^ 32))

/-- How `ntfs_attr_record_resize` fails. -/
inductive ResizeError where
  /-- -1 with `ENOSPC`. -/
  | noSpace
  /-- `STATUS_RESIDENT_ATTRIBUTE_FILLED_MFT`. -/
  | filledMft
  /-- -1 with `EIO`. -/
  | overflows
deriving DecidableEq, Repr

/-- `ntfs_attr_record_resize`, with the attribute record at `a`. -/
def attrRecordResize (m : Bytes) (a newSize : Nat) : Except ResizeError Bytes :=
  let oldSize := bytesInUse m
  let allocSize := bytesAllocated m
  let attrSize := le32 m (a + 4)
  let newSize := roundUp8 newSize
  if newSize = attrSize then
    .ok m
  else
    let newMuse := (oldSize + (2 ^ 32 - attrSize) + newSize) % 2 ^ 32
    if newMuse > allocSize then
      .error .noSpace
    else if le32 m a = atIndexRoot ∧ newSize > attrSize ∧
        (newMuse + 120) % 2 ^ 32 > allocSize ∧ (oldSize + 120) % 2 ^ 32 ≤ allocSize then
      .error .filledMft
    else if oldSize < a + attrSize then
      .error .overflows
    else
      let m := memmove m (a + newSize) (a + attrSize) (oldSize - a - attrSize)
      let m := setBytesInUse m newMuse
      .ok (if newSize ≥ 8 then patch m (a + 4) (leBytes 4 newSize) else m)

/-- What the functions that keep the attribute list answer. -/
structure ListUpkeep where
  /-- `NInoAttrList(base_ni)`. -/
  attrList : Bool
  /-- `ntfs_attrlist_entry_add`, with the record afterwards. -/
  entryAdd : Bytes → Except Errno Bytes
  /-- `ntfs_attrlist_entry_rm`, with the record afterwards. -/
  entryRm : Bytes → Except Errno Bytes
  /-- `ntfs_mft_record_free` succeeds. -/
  recordFree : Bool
  /-- The record is the base record of the inode. -/
  isBase : Bool
  /-- `ntfs_attrlist_need`. -/
  needed : Bool
  /-- The mapping pairs of a non-resident list can be decompressed. -/
  decompress : Bool

/-- A new attribute record. -/
structure NewAttr where
  type : Nat
  length : Nat
  /-- What is assigned behind the type and the length, for an instance number. -/
  rest : Nat → List (Nat × List UInt8)
  /-- The outcome of the lookup at the end, if the function makes one. -/
  lookup : Except Errno Unit

/-- All assignments to a new attribute record. -/
def NewAttr.fields (new : NewAttr) (inst : Nat) : List (Nat × List UInt8) :=
  (0, leBytes 4 new.type) :: (4, leBytes 4 new.length) :: new.rest inst

/-- The bytes at a pointer that may be null; then they are zero. -/
def valueBytes (val : Option Bytes) (size : Nat) : List UInt8 :=
  match val with
  | some b => bytesAt b 0 size
  | none => List.replicate size 0

/-- The record that `ntfs_resident_attr_record_add` makes; `name` are the bytes of the name. -/
def residentAttr (type : Nat) (name : List UInt8) (val : Option Bytes) (size dataFlags : Nat) :
    NewAttr :=
  let nameLen := name.length / 2
  let length := (24 + roundUp8 name.length + roundUp8 size) % 2 ^ 32
  let valueOffset := (length + 2 ^ 32 - roundUp8 size) % 2 ^ 32
  { type := type
    length := length
    rest := fun inst =>
      [(8, [0]), (9, leBytes 1 nameLen),
        (10, leBytes 2 (if nameLen = 0 then 0 else 24)), (12, leBytes 2 dataFlags),
        (14, leBytes 2 inst), (16, leBytes 4 size), (20, leBytes 2 valueOffset),
        (valueOffset, valueBytes val size), (22, [if type = atFileName then 1 else 0])] ++
        (if nameLen = 0 then [] else [(24, name)])
    lookup := .ok () }

/-- The record that `ntfs_non_resident_attr_record_add` makes. -/
def nonResidentAttr (type : Nat) (name : List UInt8) (lowestVcn : Int) (datarunsSize flags : Nat)
    (lookup : Except Errno Unit) : NewAttr :=
  let nameLen := name.length / 2
  let datarunsSize := roundUp8 datarunsSize
  -- `ATTR_IS_COMPRESSED` and `ATTR_IS_SPARSE`
  let compressed := if flags &&& 0x8001 ≠ 0 then 8 else 0
  let length := (64 + roundUp8 name.length + datarunsSize + compressed) % 2 ^ 32
  let pairsOffset := (length + 2 ^ 32 - datarunsSize) % 2 ^ 32
  { type := type
    length := length
    rest := fun inst =>
      [(8, [1]), (9, leBytes 1 nameLen), (10, leBytes 2 (64 + compressed)),
        (12, leBytes 2 flags), (14, leBytes 2 inst),
        (16, leBytes 8 (lowestVcn % 2 ^ 64).toNat), (32, leBytes 2 pairsOffset),
        (34, [if flags &&& 1 ≠ 0 then 4 else 0])] ++
        (if lowestVcn = 0 then
          [(24, leBytes 8 (2 ^ 64 - 1)), (40, leBytes 8 0), (48, leBytes 8 0), (56, leBytes 8 0),
            (pairsOffset, [0])]
        else []) ++
        (if nameLen = 0 then [] else [(64 + compressed, name)])
    lookup := lookup }

/-- The common part of both additions, in front of the attribute at `pos`. -/
def attrRecordAdd (upkeep : ListUpkeep) (new : NewAttr) (m : Bytes) (pos : Nat) :
    Except Errno Unit × Bytes :=
  match makeRoomForAttr m pos new.length with
  | .error err => (.error err, m)
  | .ok m =>
    let m := patches m pos (new.fields (nextAttrInstance m))
    let m := patch m 40 (leBytes 2 (nextAttrInstance m + 1))
    if new.type ≠ atAttributeList ∧ upkeep.attrList then
      match upkeep.entryAdd m with
      | .ok m => (new.lookup, m)
      | .error err =>
        match attrRecordResize m pos 0 with
        | .ok m => (.error err, m)
        | .error _ => (.error err, m)
    else
      (new.lookup, m)

/-- What `ntfs_mft_record_free` does to the record. -/
def recordFreed (m : Bytes) : Bytes :=
  let seqNo := le16 m 16
  let seqNo := if seqNo = 0xffff then 1 else if seqNo = 0 then 0 else seqNo + 1
  patch (patch m 22 (leBytes 2 (le16 m 22 / 2 * 2))) 16 (leBytes 2 seqNo)

/-- `ntfs_attr_find` for the first attribute of a type with any name, within `n` steps from `a`
on: none for `ENOENT` and for `EIO`. -/
def attrFindType (m : Bytes) (type : Nat) : Nat → Nat → Option Nat
  | 0, _ => none
  | n + 1, a =>
    let space : Int := bytesInUse m - a
    if (space < 24 ∨ space < le32 m (a + 4)) ∧ (space < 4 ∨ le32 m a ≠ atEnd) then none
    else if le32 m a > type ∨ le32 m a = atEnd then none
    else if le32 m (a + 4) = 0 then none
    else if le32 m a ≠ type then attrFindType m type n (a + le32 m (a + 4))
    else if m (a + 9) ≠ 0 ∧ le16 m (a + 10) + (m (a + 9)).toNat * 2 > le32 m (a + 4) then none
    else some a

/-- The attribute list goes once no entry points to another record. -/
def removeAttrList (upkeep : ListUpkeep) (m : Bytes) : Bytes :=
  if upkeep.isBase then
    match attrFindType m atAttributeList (bytesInUse m) (attrsOffset m) with
    | none => m
    | some al =>
      if m (al + 8) ≠ 0 ∧ upkeep.decompress = false then m
      else
        match attrRecordResize m al 0 with
        | .error _ => m
        | .ok m => if bytesInUse m = attrsOffset m + 8 ∧ upkeep.recordFree then recordFreed m else m
  else m

/-- `ntfs_attr_record_rm` after the record is removed and the list is updated. -/
def recordRmEnd (upkeep : ListUpkeep) (type : Nat) (m : Bytes) : Except Errno Unit × Bytes :=
  let free := decide (bytesInUse m = attrsOffset m + 8)
  if free && !upkeep.recordFree then
    (.error .eio, m)
  else
    let m := if free then recordFreed m else m
    if (free && upkeep.isBase) || decide (type = atAttributeList) || !upkeep.attrList ||
        upkeep.needed then
      (.ok (), m)
    else
      (.ok (), removeAttrList upkeep m)

/-- `ntfs_attr_record_rm`, with the attribute record at `a`. -/
def attrRecordRm (upkeep : ListUpkeep) (m : Bytes) (a : Nat) : Except Errno Unit × Bytes :=
  let type := le32 m a
  let listed := upkeep.attrList && decide (type ≠ atAttributeList)
  match attrRecordResize m a 0 with
  | .error _ =>
    match listed, upkeep.entryAdd m with
    | true, .ok m => (.error .eio, m)
    | _, _ => (.error .eio, m)
  | .ok m =>
    if listed then
      match upkeep.entryRm m with
      | .error err => (.error err, m)
      | .ok m => recordRmEnd upkeep type m
    else
      recordRmEnd upkeep type m

/-- The address of the attribute `i` steps behind the one at `a`, which may be the end marker. -/
def attrAddr (m : Bytes) : Nat → Nat → Option Nat
  | 0, a => some a
  | i + 1, a => if le32 m a = atEnd then none else attrAddr m i (a + le32 m (a + 4))

/-- The operations on the attributes of a record. -/
inductive RecordOp where
  /-- Both additions: where the search stopped, if it did not find the attribute or fail. -/
  | addResident (upkeep : ListUpkeep) (place : Except Errno Nat) (type : Nat)
      (name : List UInt8) (val : Option Bytes) (size dataFlags : Nat)
  | addNonResident (upkeep : ListUpkeep) (place : Except Errno Nat) (type : Nat)
      (name : List UInt8) (lowestVcn : Int) (datarunsSize flags : Nat) (lookup : Except Errno Unit)
  | resize (i newSize : Nat)
  | rm (upkeep : ListUpkeep) (i : Nat)

/-- An addition in front of the attribute with the given index. -/
def addAt (upkeep : ListUpkeep) (new : NewAttr) (m : Bytes) (place : Except Errno Nat) :
    Bool × Bytes :=
  match place with
  | .error _ => (false, m)
  | .ok i =>
    match attrAddr m i (attrsOffset m) with
    | none => (false, m)
    | some pos =>
      let r := attrRecordAdd upkeep new m pos
      (r.1.isOk, r.2)

/-- The operation succeeded, and the record afterwards. -/
def RecordOp.run (m : Bytes) : RecordOp → Bool × Bytes
  | .addResident upkeep place type name val size dataFlags =>
    addAt upkeep (residentAttr type name val size dataFlags) m place
  | .addNonResident upkeep place type name lowestVcn datarunsSize flags lookup =>
    if datarunsSize = 0 then (false, m)
    else addAt upkeep (nonResidentAttr type name lowestVcn datarunsSize flags lookup) m place
  | .resize i newSize =>
    match attrAddr m i (attrsOffset m) with
    | none => (false, m)
    | some a =>
      if le32 m a = atEnd then (false, m)
      else
        match attrRecordResize m a newSize with
        | .error _ => (false, m)
        | .ok m => (true, m)
  | .rm upkeep i =>
    match attrAddr m i (attrsOffset m) with
    | none => (false, m)
    | some a =>
      if le32 m a = atEnd then (false, m)
      else
        let r := attrRecordRm upkeep m a
        (r.1.isOk, r.2)

end Editing

section Layouts

/-- An attribute record: its header with a type that is not the end marker and its length. -/
structure RawAttr where
  bytes : List UInt8
  long : 24 ≤ bytes.length
  length_eq : le32 (fun i => bytes.getD i 0) 4 = bytes.length
  type_ne : le32 (fun i => bytes.getD i 0) 0 ≠ atEnd

/-- `type` of an attribute record. -/
def RawAttr.type (a : RawAttr) : Nat :=
  le32 (fun i => a.bytes.getD i 0) 0

/-- `instance` of an attribute record. -/
def RawAttr.attrInstance (a : RawAttr) : Nat :=
  le16 (fun i => a.bytes.getD i 0) 14

/-- The bytes of attribute records in a row. -/
def flatAttrs (attrs : List RawAttr) : List UInt8 :=
  attrs.flatMap RawAttr.bytes

/-- The attributes lie from `attrs_offset` up to the end marker, which ends the bytes in use. -/
structure Layout (m : Bytes) (attrs : List RawAttr) : Prop where
  header : 42 ≤ attrsOffset m
  holds : HoldsBytes m (attrsOffset m) (flatAttrs attrs ++ leBytes 4 atEnd)
  used : bytesInUse m = attrsOffset m + (flatAttrs attrs).length + 8
  fits : bytesInUse m ≤ bytesAllocated m

@[simp] theorem flatAttrs_append
    (pre post : List RawAttr) :
    flatAttrs (pre ++ post) = flatAttrs pre ++ flatAttrs post :=
  List.flatMap_append

@[simp] theorem flatAttrs_cons
    (a : RawAttr)
    (post : List RawAttr) :
    flatAttrs (a :: post) = a.bytes ++ flatAttrs post :=
  List.flatMap_cons

@[simp] theorem flatAttrs_nil : flatAttrs [] = [] :=
  rfl

variable {m m' : Bytes} {pos : Nat} {attrs : List RawAttr}

/-- The length field of an attribute record tells its length. -/
theorem attrLength_eq
    {a : RawAttr}
    (h : HoldsBytes m pos a.bytes) :
    le32 m (pos + 4) = a.bytes.length := by
  have hlong := a.long
  exact (h.leNat_getD (by omega)).trans a.length_eq

theorem attrType_eq
    {a : RawAttr}
    (h : HoldsBytes m pos a.bytes) :
    le32 m pos = a.type := by
  have hlong := a.long
  exact h.leNat_getD (i := 0) (by omega)

theorem attrInstance_eq
    {a : RawAttr}
    (h : HoldsBytes m pos a.bytes) :
    le16 m (pos + 14) = a.attrInstance := by
  have hlong := a.long
  exact h.leNat_getD (by omega)

theorem endMarker_eq
    (h : HoldsBytes m pos (leBytes 4 atEnd)) :
    le32 m pos = atEnd :=
  h.leNat_eq

/-- Walking over the length fields finds the attributes and the end marker. -/
theorem attrAddr_eq
    (h : HoldsBytes m pos (flatAttrs attrs ++ leBytes 4 atEnd))
    (i : Nat) :
    attrAddr m i pos =
      if i ≤ attrs.length then some (pos + (flatAttrs (attrs.take i)).length) else none := by
  induction i generalizing pos attrs with
  | zero => simp [attrAddr]
  | succ i ih =>
    rw [attrAddr]
    cases attrs with
    | nil => rw [if_pos (endMarker_eq h), if_neg (by simp)]
    | cons a rest =>
      rw [flatAttrs_cons, List.append_assoc, holdsBytes_append] at h
      rw [attrType_eq h.1, if_neg (show a.type ≠ atEnd from a.type_ne), attrLength_eq h.1, ih h.2]
      simp only [List.length_cons, Nat.add_le_add_iff_right, List.take_succ_cons,
        flatAttrs_cons, List.length_append, Nat.add_assoc]

/-- An index leads nowhere or to a place between attributes. -/
theorem Layout.attrAddr_cases
    (h : Layout m attrs)
    (i : Nat) :
    attrAddr m i (attrsOffset m) = none ∨
    ∃ pre post, attrs = pre ++ post ∧ pre.length = i ∧
      attrAddr m i (attrsOffset m) = some (attrsOffset m + (flatAttrs pre).length) := by
  rw [attrAddr_eq h.holds]
  split_ifs with hi
  · exact Or.inr ⟨attrs.take i, attrs.drop i, (List.take_append_drop i attrs).symm,
      by simp [hi], rfl⟩
  · exact Or.inl rfl

/-- Where the attributes before and behind a place lie. -/
theorem Layout.split
    {pre post : List RawAttr}
    (h : Layout m (pre ++ post)) :
    HoldsBytes m (attrsOffset m) (flatAttrs pre) ∧
    HoldsBytes m (attrsOffset m + (flatAttrs pre).length) (flatAttrs post ++ leBytes 4 atEnd) := by
  have hholds := h.holds
  rw [flatAttrs_append, List.append_assoc, holdsBytes_append] at hholds
  exact hholds

/-- Where an attribute lies, and those before and behind it. -/
theorem Layout.split_cons
    {pre post : List RawAttr} {a : RawAttr}
    (h : Layout m (pre ++ a :: post)) :
    HoldsBytes m (attrsOffset m) (flatAttrs pre) ∧
    HoldsBytes m (attrsOffset m + (flatAttrs pre).length) a.bytes ∧
    HoldsBytes m (attrsOffset m + (flatAttrs pre).length + a.bytes.length)
      (flatAttrs post ++ leBytes 4 atEnd) ∧
    bytesInUse m = attrsOffset m + (flatAttrs pre).length + a.bytes.length +
      (flatAttrs post).length + 8 := by
  obtain ⟨hpre, hrest⟩ := h.split
  rw [flatAttrs_cons, List.append_assoc, holdsBytes_append] at hrest
  have hused := h.used
  rw [flatAttrs_append, flatAttrs_cons, List.length_append, List.length_append] at hused
  exact ⟨hpre, hrest.1, hrest.2, by omega⟩

/-- An index leads nowhere, to the end marker or to an attribute. -/
theorem Layout.attr_cases
    (h : Layout m attrs)
    (i : Nat) :
    attrAddr m i (attrsOffset m) = none ∨
    (∃ pos, attrAddr m i (attrsOffset m) = some pos ∧ le32 m pos = atEnd) ∨
    ∃ pre a post, attrs = pre ++ a :: post ∧ pre.length = i ∧
      attrAddr m i (attrsOffset m) = some (attrsOffset m + (flatAttrs pre).length) ∧
      le32 m (attrsOffset m + (flatAttrs pre).length) ≠ atEnd := by
  rcases h.attrAddr_cases i with hnone | ⟨pre, post, rfl, hi, haddr⟩
  · exact Or.inl hnone
  · cases post with
    | nil => exact Or.inr (Or.inl ⟨_, haddr, endMarker_eq h.split.2⟩)
    | cons a post =>
      refine Or.inr (Or.inr ⟨pre, a, post, rfl, hi, haddr, ?_⟩)
      rw [attrType_eq h.split_cons.2.1]
      exact a.type_ne

/-- Two records with the same header, apart from `bytes_in_use` and `next_attr_instance`. -/
structure SameHeader (m m' : Bytes) : Prop where
  attrsOffset_eq : attrsOffset m' = attrsOffset m
  bytesAllocated_eq : bytesAllocated m' = bytesAllocated m

theorem SameHeader.trans
    {m'' : Bytes}
    (h : SameHeader m m')
    (h' : SameHeader m' m'') :
    SameHeader m m'' :=
  ⟨h'.1.trans h.1, h'.2.trans h.2⟩

/-- The bytes that make up the header. -/
theorem sameHeader_of_bytes
    (h : ∀ j, 20 ≤ j → j < 32 → j < 24 ∨ 28 ≤ j → m' j = m j) :
    SameHeader m m' := by
  constructor
  · apply leNat_congr
    intro i hi
    exact h (20 + i) (by omega) (by omega) (by omega)
  · apply leNat_congr
    intro i hi
    exact h (28 + i) (by omega) (by omega) (by omega)

theorem setBytesInUse_of_ne
    (m : Bytes)
    (n : Nat)
    {j : Nat}
    (h : j < 24 ∨ 28 ≤ j) :
    setBytesInUse m n j = m j :=
  patch_of_ne m (by rw [leBytes_length]; omega)

theorem bytesInUse_setBytesInUse
    (m : Bytes)
    {n : Nat}
    (h : n < 2 ^ 32) :
    bytesInUse (setBytesInUse m n) = n := by
  have hread := (holdsBytes_patch m 24 (leBytes 4 n)).leNat_eq
  exact hread.trans (Nat.mod_eq_of_lt h)

theorem bytesInUse_congr
    (h : ∀ j, 24 ≤ j → j < 28 → m' j = m j) :
    bytesInUse m' = bytesInUse m := by
  apply leNat_congr
  intro i hi
  exact h (24 + i) (by omega) (by omega)

end Layouts

section Steps

variable {m m' : Bytes} {pre post : List RawAttr}

/-- Room of `s` bytes in front of the attributes `post`. -/
structure RoomAt (m m' : Bytes) (post : List RawAttr) (pos s : Nat) : Prop where
  before : ∀ j < pos, j < 24 ∨ 28 ≤ j → m' j = m j
  after : HoldsBytes m' (pos + s) (flatAttrs post ++ leBytes 4 atEnd)
  used : bytesInUse m' = bytesInUse m + s
  fits : bytesInUse m + s ≤ bytesAllocated m

/-- Moving the attributes `post` from `src` to `dst`, with the bytes in use adjusted. -/
theorem holdsBytes_moved
    {dst src n used : Nat}
    (h : HoldsBytes m src (flatAttrs post ++ leBytes 4 atEnd))
    (hn : (flatAttrs post).length + 4 ≤ n)
    (hdst : 28 ≤ dst) :
    HoldsBytes (setBytesInUse (memmove m dst src n) used) dst
      (flatAttrs post ++ leBytes 4 atEnd) := by
  have hmoved : HoldsBytes (memmove m dst src n) dst (flatAttrs post ++ leBytes 4 atEnd) :=
    h.memmove (by rw [List.length_append]; exact hn)
  exact hmoved.frame (fun j hlow _ => setBytesInUse_of_ne _ _ (by omega))

/-- `ntfs_make_room_for_attr` makes room and moves what is behind. -/
theorem Layout.makeRoomForAttr
    (h : Layout m (pre ++ post))
    {size : Nat}
    (hsize : 0 < roundUp8 size)
    (hwrap : bytesAllocated m + roundUp8 size < 2 ^ 32)
    (hok : makeRoomForAttr m (attrsOffset m + (flatAttrs pre).length) size = .ok m') :
    RoomAt m m' post (attrsOffset m + (flatAttrs pre).length) (roundUp8 size) := by
  have hheader := h.header
  have hused := h.used
  have hfits := h.fits
  rw [flatAttrs_append, List.length_append] at hused
  generalize hpos : attrsOffset m + (flatAttrs pre).length = pos at hok ⊢
  unfold Libntfs.makeRoomForAttr at hok
  dsimp only at hok
  generalize roundUp8 size = s at *
  rw [Nat.mod_eq_of_lt (by omega)] at hok
  split_ifs at hok with hinval hzero hspace
  · omega
  · cases hok
    refine ⟨?_, ?_, ?_, by omega⟩
    · intro j hj hne
      rw [setBytesInUse_of_ne _ _ hne, memmove_of_ne _ _ (by omega)]
    · have hpost := h.split.2
      rw [hpos] at hpost
      exact holdsBytes_moved hpost (by omega) (by omega)
    · exact bytesInUse_setBytesInUse _ (by omega)

/-- A layout is put together from its parts. -/
theorem layout_of_parts
    {mid : List RawAttr}
    (hheader : 42 ≤ attrsOffset m)
    (hsame : SameHeader m m')
    (hpre : HoldsBytes m' (attrsOffset m) (flatAttrs pre))
    (hmid : HoldsBytes m' (attrsOffset m + (flatAttrs pre).length) (flatAttrs mid))
    (hpost : HoldsBytes m' (attrsOffset m + (flatAttrs pre).length + (flatAttrs mid).length)
      (flatAttrs post ++ leBytes 4 atEnd))
    (hused : bytesInUse m' = attrsOffset m + (flatAttrs pre).length + (flatAttrs mid).length +
      (flatAttrs post).length + 8)
    (hfits : bytesInUse m' ≤ bytesAllocated m) :
    Layout m' (pre ++ mid ++ post) := by
  refine ⟨?_, ?_, ?_, ?_⟩
  · rw [hsame.attrsOffset_eq]
    exact hheader
  · rw [hsame.attrsOffset_eq, flatAttrs_append, flatAttrs_append, List.append_assoc,
      List.append_assoc, holdsBytes_append, holdsBytes_append]
    exact ⟨hpre, hmid, hpost⟩
  · rw [hsame.attrsOffset_eq, flatAttrs_append, flatAttrs_append, List.length_append,
      List.length_append]
    omega
  · rw [hsame.bytesAllocated_eq]
    exact hfits

/-- The attribute record that lies in memory. -/
def rawAttrAt (m : Bytes) (pos n : Nat) (hn : 24 ≤ n) (hlength : le32 m (pos + 4) = n)
    (htype : le32 m pos ≠ atEnd) : RawAttr where
  bytes := bytesAt m pos n
  long := by
    rw [bytesAt_length]
    exact hn
  length_eq := by
    have hread : le32 m (pos + 4) = le32 (fun i => (bytesAt m pos n).getD i 0) 4 :=
      (holdsBytes_bytesAt m pos n).leNat_getD (i := 4) (by rw [bytesAt_length]; omega)
    rw [← hread, bytesAt_length]
    exact hlength
  type_ne := by
    have hread : le32 m pos = le32 (fun i => (bytesAt m pos n).getD i 0) 0 :=
      (holdsBytes_bytesAt m pos n).leNat_getD (i := 0) (by rw [bytesAt_length]; omega)
    rw [← hread]
    exact htype

/-- A record of `n` bytes between the attributes `pre` and `post`. -/
theorem layout_with_attr
    {pos n type : Nat}
    (hheader : 42 ≤ attrsOffset m)
    (hsame : SameHeader m m')
    (hpos : attrsOffset m + (flatAttrs pre).length = pos)
    (hpre : HoldsBytes m' (attrsOffset m) (flatAttrs pre))
    (hn : 24 ≤ n)
    (htype : le32 m' pos = type)
    (hne : type ≠ atEnd)
    (hlength : le32 m' (pos + 4) = n)
    (hpost : HoldsBytes m' (pos + n) (flatAttrs post ++ leBytes 4 atEnd))
    (hused : bytesInUse m' = pos + n + (flatAttrs post).length + 8)
    (hfits : bytesInUse m' ≤ bytesAllocated m) :
    ∃ a, HoldsBytes m' pos a.bytes ∧ a.bytes.length = n ∧ a.type = type ∧
      Layout m' (pre ++ a :: post) := by
  let a := rawAttrAt m' pos n hn hlength (by rw [htype]; exact hne)
  have hholds : HoldsBytes m' pos a.bytes := holdsBytes_bytesAt m' pos n
  have halen : a.bytes.length = n := bytesAt_length m' pos n
  subst hpos
  have hlayout : Layout m' (pre ++ [a] ++ post) := by
    refine layout_of_parts hheader hsame hpre ?_ ?_ ?_ hfits
    · simpa using hholds
    · simpa [halen] using hpost
    · simpa [halen] using hused
  exact ⟨a, hholds, halen, by rw [← attrType_eq hholds, htype], by simpa using hlayout⟩

/-- An addition assigns only bytes of the new record, its type and length first, and the
instance number before anything behind it. -/
structure NewAttr.Sound (new : NewAttr) : Prop where
  rounded : roundUp8 new.length = new.length
  long : 24 ≤ new.length
  length_lt : new.length < 2 ^ 32
  type_lt : new.type < 2 ^ 32
  type_ne : new.type ≠ atEnd
  rest : ∀ inst, ∀ f ∈ new.rest inst, 8 ≤ f.1 ∧ f.1 + f.2.length ≤ new.length
  numbered : ∀ inst, ∃ first later, new.rest inst = first ++ (14, leBytes 2 inst) :: later ∧
    ∀ f ∈ later, 16 ≤ f.1

variable {new : NewAttr} {upkeep : ListUpkeep} {a : RawAttr}

theorem NewAttr.Sound.inside
    (h : new.Sound)
    (inst : Nat) :
    ∀ f ∈ new.fields inst, f.1 + f.2.length ≤ new.length := by
  have hlong := h.long
  intro f hf
  rcases List.mem_cons.mp hf with rfl | hf
  · rw [leBytes_length]
    omega
  · rcases List.mem_cons.mp hf with rfl | hf
    · rw [leBytes_length]
      omega
    · exact (h.rest inst f hf).2

/-- The type and the length of a new record stay as they were assigned. -/
theorem NewAttr.Sound.read
    (h : new.Sound)
    (m : Bytes)
    (pos inst : Nat) :
    le32 (patches m pos (new.fields inst)) pos = new.type ∧
    le32 (patches m pos (new.fields inst)) (pos + 4) = new.length := by
  have hrest := h.rest inst
  generalize hlist : new.rest inst = rest at hrest
  rw [NewAttr.fields, hlist]
  have hread : ∀ {m : Bytes} {i v : Nat}, HoldsBytes m (pos + i) (leBytes 4 v) → i ≤ 4 →
      v < 2 ^ 32 → le32 (patches m pos rest) (pos + i) = v := by
    intro m i v hholds hi hv
    have hkept := @holdsBytes_patches _ _ _ _ rest hholds (fun f hf => by
      have := hrest f hf
      rw [leBytes_length]
      omega)
    exact hkept.leNat_eq.trans (Nat.mod_eq_of_lt hv)
  constructor
  · refine hread (i := 0) ((holdsBytes_patch m _ _).frame fun j _ hj => patch_of_ne _ ?_)
      (by omega) h.type_lt
    rw [leBytes_length] at hj
    omega
  · exact hread (holdsBytes_patch _ _ _) le_rfl h.length_lt

/-- So does its instance number. -/
theorem NewAttr.Sound.read_instance
    (h : new.Sound)
    (m : Bytes)
    (pos inst : Nat) :
    le16 (patches m pos (new.fields inst)) (pos + 14) = inst % 2 ^ 16 := by
  obtain ⟨first, later, hrest, hlater⟩ := h.numbered inst
  have hsplit : new.fields inst = ((0, leBytes 4 new.type) :: (4, leBytes 4 new.length) :: first) ++
      (14, leBytes 2 inst) :: later := by
    rw [NewAttr.fields, hrest]
    rfl
  rw [hsplit, patches_append]
  have hkept := @holdsBytes_patches _ _ _ _ later (holdsBytes_patch
    (patches m pos ((0, leBytes 4 new.type) :: (4, leBytes 4 new.length) :: first))
    (pos + 14) (leBytes 2 inst)) (fun f hf => by
      have := hlater f hf
      rw [leBytes_length]
      omega)
  exact hkept.leNat_eq

/-- The bytes after a new record was stored at `pos` and the instance number counted. -/
structure Numbered (m m' : Bytes) (new : NewAttr) (pos : Nat) : Prop where
  outside : ∀ j, j < 40 ∨ 42 ≤ j → j < pos ∨ pos + new.length ≤ j → m' j = m j
  type_eq : le32 m' pos = new.type
  length_eq : le32 m' (pos + 4) = new.length
  instance_eq : le16 m' (pos + 14) = nextAttrInstance m
  next_eq : nextAttrInstance m' = (nextAttrInstance m + 1) % 2 ^ 16

/-- The instance number is counted last, in front of all attributes. -/
theorem NewAttr.Sound.stored
    (h : new.Sound)
    (m : Bytes)
    {pos : Nat}
    (hpos : 42 ≤ pos) :
    let m' := patches m pos (new.fields (nextAttrInstance m))
    Numbered m (patch m' 40 (leBytes 2 (nextAttrInstance m' + 1))) new pos := by
  intro m'
  obtain ⟨htype, hlength⟩ := h.read m pos (nextAttrInstance m)
  have hinst := (h.read_instance m pos (nextAttrInstance m)).trans
    (Nat.mod_eq_of_lt (le16_lt m 40))
  have hout := fun j => patches_of_ne (m := m) (a := pos) (j := j) (h.inside (nextAttrInstance m))
  have hnext : nextAttrInstance m' = nextAttrInstance m :=
    leNat_congr fun i hi => hout (40 + i) (by omega)
  have hlast : ∀ j, j < 40 ∨ 42 ≤ j →
      patch m' 40 (leBytes 2 (nextAttrInstance m' + 1)) j = m' j := fun j hj =>
    patch_of_ne m' (by rw [leBytes_length]; omega)
  refine ⟨fun j hj hj' => (hlast j hj).trans (hout j hj'), ?_, ?_, ?_, ?_⟩
  · rw [← htype]
    exact leNat_congr fun i hi => hlast (pos + i) (by omega)
  · rw [← hlength]
    exact leNat_congr fun i hi => hlast (pos + 4 + i) (by omega)
  · rw [← hinst]
    exact leNat_congr fun i hi => hlast (pos + 14 + i) (by omega)
  · rw [← hnext]
    exact (holdsBytes_patch m' 40 (leBytes 2 (nextAttrInstance m' + 1))).leNat_eq

/-- The upkeep of the attribute list succeeds and leaves this record alone. -/
structure ListUpkeep.Quiet (upkeep : ListUpkeep) : Prop where
  entryAdd : upkeep.attrList = true → ∀ m, upkeep.entryAdd m = .ok m
  entryRm : upkeep.attrList = true → ∀ m, upkeep.entryRm m = .ok m
  recordFree : upkeep.recordFree = true
  kept : upkeep.attrList = true → upkeep.needed = true ∨ upkeep.isBase = false

/-- Without trouble from the attribute list, an addition is the room and the assignments. -/
theorem attrRecordAdd_quiet
    (hquiet : upkeep.Quiet)
    (new : NewAttr)
    (m : Bytes)
    (pos : Nat) :
    attrRecordAdd upkeep new m pos =
      match makeRoomForAttr m pos new.length with
      | .error err => (.error err, m)
      | .ok m =>
        let m := patches m pos (new.fields (nextAttrInstance m))
        (new.lookup, patch m 40 (leBytes 2 (nextAttrInstance m + 1))) := by
  unfold attrRecordAdd
  cases makeRoomForAttr m pos new.length with
  | error err => rfl
  | ok m₁ =>
    dsimp only
    split_ifs with hlist
    · rw [hquiet.entryAdd hlist.2]
    · rfl

/-- An addition inserts one record, which gets the next instance number, or fails and changes
nothing. -/
theorem Layout.attrRecordAdd
    (h : Layout m (pre ++ post))
    (hquiet : upkeep.Quiet)
    (hnew : new.Sound)
    (hwrap : bytesAllocated m + new.length < 2 ^ 32) :
    (∃ err, attrRecordAdd upkeep new m (attrsOffset m + (flatAttrs pre).length) = (.error err, m)) ∨
    ∃ a m', attrRecordAdd upkeep new m (attrsOffset m + (flatAttrs pre).length) = (new.lookup, m') ∧
      a.type = new.type ∧ Layout m' (pre ++ a :: post) ∧ SameHeader m m' ∧
      a.attrInstance = nextAttrInstance m ∧
      nextAttrInstance m' = (nextAttrInstance m + 1) % 2 ^ 16 := by
  rw [attrRecordAdd_quiet hquiet]
  cases hroom : Libntfs.makeRoomForAttr m (attrsOffset m + (flatAttrs pre).length) new.length with
  | error err => exact Or.inl ⟨err, rfl⟩
  | ok m₁ =>
    right
    have hrounded := hnew.rounded
    have hlong := hnew.long
    have hheader := h.header
    have hused := h.used
    have hr := h.makeRoomForAttr (by omega) (by omega) hroom
    rw [hrounded] at hr
    obtain ⟨hbefore, hafter, hused₁, hfits₁⟩ := hr
    have hpre := h.split.1
    rw [flatAttrs_append, List.length_append] at hused
    have hnumbered := hnew.stored m₁
      (hheader.trans (Nat.le_add_right (attrsOffset m) (flatAttrs pre).length))
    dsimp only at hnumbered ⊢
    generalize hpos : attrsOffset m + (flatAttrs pre).length = pos at *
    generalize patch _ 40 _ = m₂ at hnumbered ⊢
    obtain ⟨hout, htype, hlength, hinst, hnext⟩ := hnumbered
    have hnext₁ : nextAttrInstance m₁ = nextAttrInstance m :=
      leNat_congr fun i hi => hbefore (40 + i) (by omega) (by omega)
    rw [hnext₁] at hinst hnext
    have hsame : SameHeader m m₂ := sameHeader_of_bytes (fun j hlow hhigh hne => by
      rw [hout j (by omega) (by omega), hbefore j (by omega) hne])
    have hused₂ : bytesInUse m₂ = bytesInUse m + new.length := by
      rw [← hused₁]
      exact bytesInUse_congr (fun j _ _ => hout j (by omega) (by omega))
    obtain ⟨a, hbytes, -, hatype, hlayout⟩ := layout_with_attr hheader hsame hpos
      (hpre.frame (fun j hlow hhigh => by
        rw [hout j (by omega) (by omega), hbefore j (by omega) (by omega)]))
      hlong htype hnew.type_ne hlength
      (hafter.frame (fun j hlow hhigh => hout j (by omega) (by omega)))
      (by omega) (by omega)
    exact ⟨a, m₂, rfl, hatype, hlayout, hsame, (attrInstance_eq hbytes).symm.trans hinst, hnext⟩

/-- The record at an index, cut or extended to `n` bytes. -/
structure Resized (a a' : RawAttr) (n : Nat) : Prop where
  length_eq : a'.bytes.length = n
  type_eq : a'.type = a.type
  kept : ∀ i, 8 ≤ i → i < a.bytes.length → i < n → a'.bytes[i]? = a.bytes[i]?

/-- What is left when the attributes behind one are moved and its length is adjusted. -/
theorem Layout.moved
    {n : Nat}
    (h : Layout m (pre ++ a :: post))
    (hn : n = 0 ∨ 24 ≤ n)
    (hfits : bytesInUse m - a.bytes.length + n ≤ bytesAllocated m) :
    let pos := attrsOffset m + (flatAttrs pre).length
    let m₁ := setBytesInUse (memmove m (pos + n) (pos + a.bytes.length)
      (bytesInUse m - pos - a.bytes.length)) (bytesInUse m - a.bytes.length + n)
    let m' := if n ≥ 8 then patch m₁ (pos + 4) (leBytes 4 n) else m₁
    SameHeader m m' ∧ (n = 0 ∧ Layout m' (pre ++ post) ∨
        ∃ a', Resized a a' n ∧ Layout m' (pre ++ a' :: post)) := by
  have hheader := h.header
  have halloc : bytesAllocated m < 2 ^ 32 := le32_lt m 28
  obtain ⟨hpre, ha, hpost, hused⟩ := h.split_cons
  intro pos m₁ m'
  have hpost₁ : HoldsBytes m₁ (pos + n) (flatAttrs post ++ leBytes 4 atEnd) :=
    holdsBytes_moved hpost (by omega) (by omega)
  have hbefore₁ : ∀ j < pos + n, j < 24 ∨ 28 ≤ j → m₁ j = m j := fun j hj hne =>
    (setBytesInUse_of_ne _ _ hne).trans (memmove_of_ne m _ (Or.inl hj))
  have hused₁ : bytesInUse m₁ = bytesInUse m - a.bytes.length + n :=
    bytesInUse_setBytesInUse _ (by omega)
  by_cases hzero : n = 0
  · have hm' : m' = m₁ := if_neg (by omega)
    rw [hm']
    have hsame : SameHeader m m₁ :=
      sameHeader_of_bytes (fun j hlow hhigh hne => hbefore₁ j (by omega) hne)
    refine ⟨hsame, Or.inl ⟨hzero, ?_⟩⟩
    have hlayout : Layout m₁ (pre ++ [] ++ post) := by
      refine layout_of_parts hheader hsame ?_ (by simp) ?_ ?_ (by omega)
      · exact hpre.frame (fun j hlow hhigh => hbefore₁ j (by omega) (by omega))
      · simpa [hzero] using hpost₁
      · rw [flatAttrs_nil, List.length_nil]
        omega
    simpa using hlayout
  · have hm' : m' = patch m₁ (pos + 4) (leBytes 4 n) := if_pos (by omega)
    rw [hm']
    have hout : ∀ j, j < pos + 4 ∨ pos + 8 ≤ j →
        patch m₁ (pos + 4) (leBytes 4 n) j = m₁ j := fun j hj =>
      patch_of_ne m₁ (by rw [leBytes_length]; omega)
    have hlength : le32 (patch m₁ (pos + 4) (leBytes 4 n)) (pos + 4) = n :=
      (holdsBytes_patch m₁ _ _).leNat_eq.trans (Nat.mod_eq_of_lt (by omega))
    generalize patch m₁ (pos + 4) (leBytes 4 n) = m₂ at hout hlength ⊢
    have hsame : SameHeader m m₂ := sameHeader_of_bytes (fun j hlow hhigh hne => by
      rw [hout j (by omega), hbefore₁ j (by omega) hne])
    have htype : le32 m₂ pos = a.type := by
      rw [← attrType_eq ha]
      exact leNat_congr (fun i hi => by
        rw [hout (pos + i) (by omega), hbefore₁ (pos + i) (by omega) (by omega)])
    have hused₂ : bytesInUse m₂ = bytesInUse m₁ := bytesInUse_congr (fun j _ _ => hout j (by omega))
    obtain ⟨a', hholds, halen, hatype, hlayout⟩ := layout_with_attr hheader hsame rfl
      (hpre.frame (fun j hlow hhigh => by
        rw [hout j (by omega), hbefore₁ j (by omega) (by omega)]))
      (by omega) htype a.type_ne hlength (hpost₁.frame (fun j hlow hhigh => hout j (by omega)))
      (by omega) (by omega)
    refine ⟨hsame, Or.inr ⟨a', ⟨halen, hatype, ?_⟩, hlayout⟩⟩
    intro i hlow hi hin
    rw [List.getElem?_eq_getElem (by omega), List.getElem?_eq_getElem hi,
      ← hholds.getElem (by omega), ← ha.getElem hi, hout (pos + i) (by omega),
      hbefore₁ (pos + i) (by omega) (by omega)]

/-- `ntfs_attr_record_resize` removes the record, or cuts or extends it. -/
theorem Layout.attrRecordResize
    {newSize : Nat}
    (h : Layout m (pre ++ a :: post))
    (hlong : roundUp8 newSize = 0 ∨ 24 ≤ roundUp8 newSize)
    (hwrap : bytesInUse m - a.bytes.length + roundUp8 newSize < 2 ^ 32)
    (hok : attrRecordResize m (attrsOffset m + (flatAttrs pre).length) newSize = .ok m') :
    SameHeader m m' ∧ (roundUp8 newSize = 0 ∧ Layout m' (pre ++ post) ∨
        ∃ a', Resized a a' (roundUp8 newSize) ∧ Layout m' (pre ++ a' :: post)) := by
  obtain ⟨-, ha, -, hused⟩ := h.split_cons
  have hlength := attrLength_eq ha
  have hlt : a.bytes.length < 2 ^ 32 := hlength ▸ le32_lt m _
  have hmoved := fun hle => h.moved (n := roundUp8 newSize) hlong hle
  unfold Libntfs.attrRecordResize at hok
  rw [hlength] at hok
  dsimp only at hok hmoved
  generalize roundUp8 newSize = n at *
  have hmuse : (bytesInUse m + (2 ^ 32 - a.bytes.length) + n) % 2 ^ 32 =
      bytesInUse m - a.bytes.length + n := by
    rw [show bytesInUse m + (2 ^ 32 - a.bytes.length) + n =
      (bytesInUse m - a.bytes.length + n) + 2 ^ 32 by omega, Nat.add_mod_right]
    exact Nat.mod_eq_of_lt (by omega)
  rw [hmuse] at hok
  split at hok
  · rename_i hsize
    cases hok
    exact ⟨⟨rfl, rfl⟩, Or.inr ⟨a, ⟨hsize.symm, rfl, fun _ _ _ _ => rfl⟩, h⟩⟩
  · iterate 3
      split at hok
      · cases hok
    cases hok
    exact hmoved (by omega)

/-- Removing a record never fails. -/
theorem Layout.attrRecordResize_zero
    (h : Layout m (pre ++ a :: post)) :
    ∃ m', Libntfs.attrRecordResize m (attrsOffset m + (flatAttrs pre).length) 0 = .ok m' := by
  have hfits := h.fits
  have hlong := a.long
  obtain ⟨-, ha, -, hused⟩ := h.split_cons
  unfold Libntfs.attrRecordResize
  rw [attrLength_eq ha]
  have hzero : roundUp8 0 = 0 := rfl
  rw [if_neg (by omega), if_neg (by omega), if_neg (by omega), if_neg (by omega)]
  exact ⟨_, rfl⟩

theorem recordFreed_of_ne
    (m : Bytes)
    {j : Nat}
    (h : j < 16 ∨ 18 ≤ j)
    (h' : j < 22 ∨ 24 ≤ j) :
    recordFreed m j = m j := by
  unfold recordFreed
  rw [patch_of_ne _ (by rw [leBytes_length]; omega), patch_of_ne _ (by rw [leBytes_length]; omega)]

theorem sameHeader_recordFreed
    (m : Bytes) :
    SameHeader m (recordFreed m) := by
  constructor
  · exact leNat_congr (fun i hi => recordFreed_of_ne m (by omega) (by omega))
  · exact leNat_congr (fun i hi => recordFreed_of_ne m (by omega) (by omega))

/-- Freeing the record keeps its layout. -/
theorem Layout.recordFreed
    {attrs : List RawAttr}
    (h : Layout m attrs) :
    Layout (recordFreed m) attrs := by
  have hheader := h.header
  refine ⟨?_, ?_, ?_, ?_⟩
  · exact hheader
  · exact h.holds.frame (fun j hlow _ => recordFreed_of_ne m (by omega) (by omega))
  · exact h.used
  · exact h.fits

/-- Without trouble from the list, a removal at most frees the record. -/
theorem recordRmEnd_quiet
    (hquiet : upkeep.Quiet)
    (type : Nat)
    (m : Bytes) :
    recordRmEnd upkeep type m = (.ok (), m) ∨
    recordRmEnd upkeep type m = (.ok (), recordFreed m) := by
  have hkeep : upkeep.attrList = false ∨ upkeep.needed = true ∨
      ∀ m, removeAttrList upkeep m = m := by
    cases hattrList : upkeep.attrList with
    | false => exact Or.inl rfl
    | true =>
      refine Or.inr ((hquiet.kept hattrList).imp_right fun hbase m => ?_)
      rw [removeAttrList, hbase, if_neg Bool.false_ne_true]
  have hfreed := hquiet.recordFree
  by_cases hfree : bytesInUse m = attrsOffset m + 8
  · right
    rcases hkeep with hkeep | hkeep | hkeep <;> simp [recordRmEnd, hfree, hfreed, hkeep]
  · left
    rcases hkeep with hkeep | hkeep | hkeep <;> simp [recordRmEnd, hfree, hkeep]

/-- `ntfs_attr_record_rm` takes one attribute out. -/
theorem Layout.attrRecordRm
    (h : Layout m (pre ++ a :: post))
    (hquiet : upkeep.Quiet) :
    ∃ m', attrRecordRm upkeep m (attrsOffset m + (flatAttrs pre).length) = (.ok (), m') ∧
      Layout m' (pre ++ post) ∧ SameHeader m m' := by
  have hused : bytesInUse m < 2 ^ 32 := le32_lt m 24
  have hzero : roundUp8 0 = 0 := rfl
  obtain ⟨m₁, hok⟩ := h.attrRecordResize_zero
  obtain ⟨hsame, hlayout⟩ := h.attrRecordResize (.inl hzero) (by omega) hok
  have hlayout₁ : Layout m₁ (pre ++ post) := by
    rcases hlayout with ⟨-, hlayout⟩ | ⟨a', hresized, -⟩
    · exact hlayout
    · have hlong := a'.long
      have hzero : a'.bytes.length = 0 := hresized.length_eq
      omega
  have hrm : Libntfs.attrRecordRm upkeep m (attrsOffset m + (flatAttrs pre).length) =
      recordRmEnd upkeep (le32 m (attrsOffset m + (flatAttrs pre).length)) m₁ := by
    unfold Libntfs.attrRecordRm
    rw [hok]
    dsimp only
    split_ifs with hlisted
    · rw [Bool.and_eq_true] at hlisted
      rw [hquiet.entryRm hlisted.1]
    · rfl
  rw [hrm]
  rcases recordRmEnd_quiet hquiet (le32 m (attrsOffset m + (flatAttrs pre).length)) m₁ with
    heq | heq
  · exact ⟨m₁, heq, hlayout₁, hsame⟩
  · exact ⟨Libntfs.recordFreed m₁, heq, hlayout₁.recordFreed,
      hsame.trans (sameHeader_recordFreed m₁)⟩

end Steps

section Additions

theorem roundUp8_eq
    {n : Nat}
    (h : n + 7 < 2 ^ 32) :
    roundUp8 n = (n + 7) / 8 * 8 := by
  rw [roundUp8, Nat.mod_eq_of_lt h]

theorem valueBytes_length
    (val : Option Bytes)
    (size : Nat) :
    (valueBytes val size).length = size := by
  cases val with
  | none => simp [valueBytes]
  | some b => simp [valueBytes]

/-- A new resident record assigns only its own bytes. -/
theorem residentAttr_sound
    {type size : Nat} {name : List UInt8}
    (htype : type < 2 ^ 32)
    (hend : type ≠ atEnd)
    (hsize : 24 + (name.length + 7) + (size + 7) < 2 ^ 32)
    (val : Option Bytes)
    (dataFlags : Nat) :
    (residentAttr type name val size dataFlags).Sound ∧
      (residentAttr type name val size dataFlags).length ≤ 24 + (name.length + 7) + (size + 7) := by
  have hname := roundUp8_eq (show name.length + 7 < 2 ^ 32 by omega)
  have hvalue := roundUp8_eq (show size + 7 < 2 ^ 32 by omega)
  have hlength : (residentAttr type name val size dataFlags).length =
      24 + roundUp8 name.length + roundUp8 size :=
    Nat.mod_eq_of_lt (by omega)
  refine ⟨⟨?_, by omega, by omega, htype, hend, ?_, fun inst => ⟨[_, _, _, _], _, rfl, ?_⟩⟩,
    by omega⟩
  · rw [roundUp8_eq (by omega)]
    omega
  · intro inst
    simp only [residentAttr, List.forall_mem_append, List.forall_mem_cons, leBytes_length,
      valueBytes_length, List.length_cons, List.length_nil]
    split_ifs <;> simp <;> omega
  · have hoffset : ((24 + roundUp8 name.length + roundUp8 size) % 2 ^ 32 + 2 ^ 32 -
        roundUp8 size) % 2 ^ 32 = 24 + roundUp8 name.length := by omega
    rw [hoffset]
    split_ifs <;> simp <;> omega

/-- A new non-resident record assigns only its own bytes. -/
theorem nonResidentAttr_sound
    {type datarunsSize : Nat} {name : List UInt8}
    (htype : type < 2 ^ 32)
    (hend : type ≠ atEnd)
    (hpos : 0 < datarunsSize)
    (hsize : 72 + (name.length + 7) + (datarunsSize + 7) < 2 ^ 32)
    (lowestVcn : Int)
    (flags : Nat)
    (lookup : Except Errno Unit) :
    (nonResidentAttr type name lowestVcn datarunsSize flags lookup).Sound ∧
      (nonResidentAttr type name lowestVcn datarunsSize flags lookup).length ≤
        72 + (name.length + 7) + (datarunsSize + 7) := by
  have hname := roundUp8_eq (show name.length + 7 < 2 ^ 32 by omega)
  have hruns := roundUp8_eq (show datarunsSize + 7 < 2 ^ 32 by omega)
  have hcompressed : ∃ c, (if flags &&& 0x8001 ≠ 0 then 8 else 0) = c ∧ (c = 0 ∨ c = 8) := by
    split_ifs
    · exact ⟨8, rfl, Or.inr rfl⟩
    · exact ⟨0, rfl, Or.inl rfl⟩
  obtain ⟨c, hc, hcases⟩ := hcompressed
  have hlength : (nonResidentAttr type name lowestVcn datarunsSize flags lookup).length =
      64 + roundUp8 name.length + roundUp8 datarunsSize + c := by
    unfold nonResidentAttr
    rw [hc]
    exact Nat.mod_eq_of_lt (by omega)
  have hoffset : ((64 + roundUp8 name.length + roundUp8 datarunsSize + c) % 2 ^ 32 + 2 ^ 32 -
      roundUp8 datarunsSize) % 2 ^ 32 = 64 + roundUp8 name.length + c := by omega
  refine ⟨⟨?_, by omega, by omega, htype, hend, ?_, fun inst => ⟨[_, _, _, _], _, rfl, ?_⟩⟩,
    by omega⟩
  · rw [roundUp8_eq (by omega)]
    omega
  · intro inst
    rw [hlength]
    simp only [nonResidentAttr, hc, hoffset, List.forall_mem_append, List.forall_mem_cons,
      leBytes_length, List.length_cons, List.length_nil]
    refine ⟨⟨?_, ?_⟩, ?_⟩
    · simp
      omega
    · split_ifs <;> simp
      omega
    · split_ifs <;> simp
      omega
  · simp only [hc, hoffset]
    split_ifs <;> simp <;> omega

end Additions

section Sequences

/-- An attribute of a type comes in at an index. -/
def Inserted (place : Except Errno Nat) (type : Nat) (attrs attrs' : List RawAttr) : Prop :=
  ∃ pre a post, place = .ok pre.length ∧ a.type = type ∧ attrs = pre ++ post ∧
    attrs' = pre ++ a :: post

/-- What a successful operation does to the attributes. -/
def RecordOp.Edits (attrs attrs' : List RawAttr) : RecordOp → Prop
  | .addResident _ place type _ _ _ _ => Inserted place type attrs attrs'
  | .addNonResident _ place type _ _ _ _ _ => Inserted place type attrs attrs'
  | .resize i newSize =>
    ∃ pre a post, pre.length = i ∧ attrs = pre ++ a :: post ∧
      (roundUp8 newSize = 0 ∧ attrs' = pre ++ post ∨
        ∃ a', Resized a a' (roundUp8 newSize) ∧ attrs' = pre ++ a' :: post)
  | .rm _ i => ∃ pre a post, pre.length = i ∧ attrs = pre ++ a :: post ∧ attrs' = pre ++ post

/--
The sizes of the operation do not wrap in 32 bits on a record with `alloc`
allocated bytes, a new attribute has a proper type, an attribute is not resized to less
than its header, and the rest of the inode gives no trouble.
-/
def RecordOp.Plain (alloc : Nat) : RecordOp → Prop
  | .addResident upkeep _ type name _ size _ =>
    upkeep.Quiet ∧ type < 2 ^ 32 ∧ type ≠ atEnd ∧
      alloc + (24 + (name.length + 7) + (size + 7)) < 2 ^ 32
  | .addNonResident upkeep _ type name _ datarunsSize _ lookup =>
    upkeep.Quiet ∧ type < 2 ^ 32 ∧ type ≠ atEnd ∧ lookup = .ok () ∧
      alloc + (72 + (name.length + 7) + (datarunsSize + 7)) < 2 ^ 32
  | .resize _ newSize => alloc + (newSize + 7) < 2 ^ 32 ∧ (newSize = 0 ∨ 16 < newSize)
  | .rm upkeep _ => upkeep.Quiet

/--
Along a sequence of operations the attributes stay laid out; each operation
does its own edit, or fails and leaves the record as it is.
-/
def KeepsLayout : Bytes → List RawAttr → List RecordOp → Prop
  | _, _, [] => True
  | m, attrs, op :: rest =>
    ((op.run m).1 = false → (op.run m).2 = m) ∧
    ∃ attrs', Layout (op.run m).2 attrs' ∧ ((op.run m).1 = true → op.Edits attrs attrs') ∧
      KeepsLayout (op.run m).2 attrs' rest

/-- One operation, from a laid out record. -/
structure StepKeeps (m : Bytes) (attrs : List RawAttr) (op : RecordOp) : Prop where
  unchanged : (op.run m).1 = false → (op.run m).2 = m
  header : SameHeader m (op.run m).2
  edits : (op.run m).1 = true → ∃ attrs', Layout (op.run m).2 attrs' ∧ op.Edits attrs attrs'

variable {m : Bytes} {attrs : List RawAttr} {op : RecordOp}

theorem stepKeeps_failed
    (h : op.run m = (false, m)) :
    StepKeeps m attrs op := by
  refine ⟨fun _ => by rw [h], by rw [h]; exact ⟨rfl, rfl⟩, ?_⟩
  intro hok
  rw [h] at hok
  cases hok

theorem stepKeeps_done
    {m' : Bytes} {attrs' : List RawAttr}
    (h : op.run m = (true, m'))
    (hsame : SameHeader m m')
    (hlayout : Layout m' attrs')
    (hedits : op.Edits attrs attrs') :
    StepKeeps m attrs op := by
  refine ⟨?_, ?_, ?_⟩
  · intro hfail
    rw [h] at hfail
    cases hfail
  · rw [h]
    exact hsame
  · intro _
    rw [h]
    exact ⟨attrs', hlayout, hedits⟩

/-- The step lemma for both additions. -/
theorem addAt_keeps
    {upkeep : ListUpkeep} {new : NewAttr} {place : Except Errno Nat}
    (h : Layout m attrs)
    (hrun : op.run m = addAt upkeep new m place)
    (hedits : ∀ attrs', Inserted place new.type attrs attrs' → op.Edits attrs attrs')
    (hquiet : upkeep.Quiet)
    (hnew : new.Sound)
    (hlookup : new.lookup = .ok ())
    (hwrap : bytesAllocated m + new.length < 2 ^ 32) :
    StepKeeps m attrs op := by
  unfold addAt at hrun
  cases place with
  | error err => exact stepKeeps_failed hrun
  | ok i =>
    dsimp only at hrun
    rcases h.attrAddr_cases i with hnone | ⟨pre, post, rfl, hi, haddr⟩
    · rw [hnone] at hrun
      exact stepKeeps_failed hrun
    · rw [haddr] at hrun
      dsimp only at hrun
      rcases h.attrRecordAdd hquiet hnew hwrap with
        ⟨err, heq⟩ | ⟨a, m', heq, ha, hlayout, hsame, -⟩
      · rw [heq] at hrun
        exact stepKeeps_failed hrun
      · rw [heq, hlookup] at hrun
        exact stepKeeps_done hrun hsame hlayout (hedits _ ⟨pre, a, post, by rw [hi], ha, rfl, rfl⟩)

/-- Every operation keeps the layout. -/
theorem Layout.step
    (h : Layout m attrs)
    (op : RecordOp)
    (hplain : op.Plain (bytesAllocated m)) :
    StepKeeps m attrs op := by
  cases op with
  | addResident upkeep place type name val size dataFlags =>
    obtain ⟨hquiet, htype, hend, hsize⟩ := hplain
    have hsum : 24 + (name.length + 7) + (size + 7) < 2 ^ 32 := by omega
    obtain ⟨hsound, hlength⟩ := residentAttr_sound htype hend hsum val dataFlags
    exact addAt_keeps h rfl (fun _ hins => hins) hquiet hsound rfl (by omega)
  | addNonResident upkeep place type name lowestVcn datarunsSize flags lookup =>
    obtain ⟨hquiet, htype, hend, hlookup, hsize⟩ := hplain
    by_cases hzero : datarunsSize = 0
    · exact stepKeeps_failed (if_pos hzero)
    · have hsum : 72 + (name.length + 7) + (datarunsSize + 7) < 2 ^ 32 := by omega
      obtain ⟨hsound, hlength⟩ := nonResidentAttr_sound htype hend (Nat.pos_of_ne_zero hzero)
        hsum lowestVcn flags lookup
      exact addAt_keeps h (if_neg hzero) (fun _ hins => hins) hquiet hsound hlookup (by omega)
  | resize i newSize =>
    obtain ⟨hsize, hheader⟩ : bytesAllocated m + (newSize + 7) < 2 ^ 32 ∧ _ := hplain
    have hround := roundUp8_eq (show newSize + 7 < 2 ^ 32 by omega)
    rcases h.attr_cases i with hnone | ⟨pos, haddr, hend⟩ | ⟨pre, a, post, rfl, hi, haddr, hne⟩
    · exact stepKeeps_failed (by simp only [RecordOp.run, hnone])
    · exact stepKeeps_failed (by simp only [RecordOp.run, haddr, if_pos hend])
    · cases hok : Libntfs.attrRecordResize m (attrsOffset m + (flatAttrs pre).length) newSize with
      | error err => exact stepKeeps_failed (by simp only [RecordOp.run, haddr, if_neg hne, hok])
      | ok m' =>
        have hrun : RecordOp.run m (.resize i newSize) = (true, m') := by
          simp only [RecordOp.run, haddr, if_neg hne, hok]
        have hfits := h.fits
        obtain ⟨hsame, hcases⟩ := h.attrRecordResize (by omega) (by omega) hok
        rcases hcases with ⟨hzero, hlayout⟩ | ⟨a', hresized, hlayout⟩
        · exact stepKeeps_done hrun hsame hlayout ⟨pre, a, post, hi, rfl, Or.inl ⟨hzero, rfl⟩⟩
        · exact stepKeeps_done hrun hsame hlayout
            ⟨pre, a, post, hi, rfl, Or.inr ⟨a', hresized, rfl⟩⟩
  | rm upkeep i =>
    have hquiet : upkeep.Quiet := hplain
    rcases h.attr_cases i with hnone | ⟨pos, haddr, hend⟩ | ⟨pre, a, post, rfl, hi, haddr, hne⟩
    · exact stepKeeps_failed (by simp only [RecordOp.run, hnone])
    · exact stepKeeps_failed (by simp only [RecordOp.run, haddr, if_pos hend])
    · obtain ⟨m', heq, hlayout, hsame⟩ := h.attrRecordRm hquiet
      have hrun : RecordOp.run m (.rm upkeep i) = (true, m') := by
        simp only [RecordOp.run, haddr, if_neg hne, heq]
        rfl
      exact stepKeeps_done hrun hsame hlayout ⟨pre, a, post, hi, rfl, rfl⟩

/-- Every sequence of plain operations keeps the layout. -/
theorem runOps_layout
    {m : Bytes} {attrs : List RawAttr} {ops : List RecordOp}
    (h : Layout m attrs)
    (hplain : ∀ op ∈ ops, op.Plain (bytesAllocated m)) :
    KeepsLayout m attrs ops := by
  induction ops generalizing m attrs with
  | nil => trivial
  | cons op rest ih =>
    have hstep := h.step op (hplain op (by simp))
    have hrest : ∀ op' ∈ rest, op'.Plain (bytesAllocated (op.run m).2) := fun op' hop' => by
      rw [hstep.header.bytesAllocated_eq]
      exact hplain op' (by simp [hop'])
    refine ⟨hstep.unchanged, ?_⟩
    cases hok : (op.run m).1 with
    | true =>
      obtain ⟨attrs', hlayout, hedits⟩ := hstep.edits hok
      exact ⟨attrs', hlayout, fun _ => hedits, ih hlayout hrest⟩
    | false =>
      have hsame := hstep.unchanged hok
      refine ⟨attrs, ?_, (fun hne => by cases hne), ?_⟩
      · rw [hsame]
        exact h
      · rw [hsame] at hrest ⊢
        exact ih h hrest

/-- A record without attributes. -/
def emptyRecord : Bytes :=
  patches (fun _ => 0) 0
    [(20, leBytes 2 48), (24, leBytes 4 56), (28, leBytes 4 1024), (48, leBytes 4 atEnd)]

theorem layout_emptyRecord : Layout emptyRecord [] :=
  ⟨by decide, ⟨rfl, rfl, rfl, rfl, trivial⟩, rfl, by decide⟩

/-- An inode without an attribute list. -/
def noAttrList : ListUpkeep where
  attrList := false
  entryAdd := fun _ => .error .enoent
  entryRm := fun _ => .error .enoent
  recordFree := true
  isBase := true
  needed := false
  decompress := false

theorem runOps_layout_three :
    KeepsLayout emptyRecord []
      [.addResident noAttrList (.ok 0) 0x80 [] none 5 0, .resize 0 64, .rm noAttrList 0] := by
  have hquiet : noAttrList.Quiet :=
    ⟨(fun h => by cases h), (fun h => by cases h), rfl, (fun h => by cases h)⟩
  apply runOps_layout layout_emptyRecord
  intro op hop
  simp only [List.mem_cons, List.not_mem_nil, or_false] at hop
  rcases hop with rfl | rfl | rfl
  · exact ⟨hquiet, by decide, by decide, by decide⟩
  · show bytesAllocated emptyRecord + (64 + 7) < 2 ^ 32 ∧ (64 = 0 ∨ 16 < 64)
    decide
  · exact hquiet

/-- A resident attribute record without a name. -/
def residentBytes (type : Nat) (value : List UInt8) : List UInt8 :=
  leBytes 4 type ++ leBytes 4 (24 + value.length) ++ [0, 0, 24, 0, 0, 0, 0, 0] ++
    leBytes 4 value.length ++ [24, 0, 0, 0] ++ value

/-- An entry of an attribute list for an attribute in record 64. -/
def listEntry (type : Nat) : List UInt8 :=
  leBytes 4 type ++ [32, 0, 0, 26] ++ leBytes 8 0 ++ [64, 0, 0, 0, 0, 0, 1, 0] ++
    List.replicate 8 0

def standardInformation : RawAttr where
  bytes := residentBytes 0x10 (List.replicate 48 0)
  long := by simp [residentBytes]
  length_eq := rfl
  type_ne := by decide

def attributeList : RawAttr where
  bytes := residentBytes atAttributeList (listEntry 0x10 ++ listEntry 0x80)
  long := by simp [residentBytes, listEntry]
  length_eq := rfl
  type_ne := by decide

def emptyDataAttr : RawAttr where
  bytes := residentBytes 0x80 []
  long := by simp [residentBytes]
  length_eq := rfl
  type_ne := by decide

/-- A base record with an attribute list between two attributes. -/
def listedRecord : Bytes :=
  patches (fun _ => 0) 0 [(20, leBytes 2 56), (24, leBytes 4 248), (28, leBytes 4 1024),
    (56, flatAttrs [standardInformation, attributeList, emptyDataAttr]), (240, leBytes 4 atEnd)]

/-- The second entry of the list is removed, after which the list is no longer needed. -/
def lastEntry : ListUpkeep where
  attrList := true
  entryAdd := .ok
  entryRm := fun m =>
    match attrRecordResize m 128 56 with
    | .error _ => .error .eio
    | .ok m => .ok (patch m 144 (leBytes 4 32))
  recordFree := true
  isBase := true
  needed := false
  decompress := true

/-- The removal of one attribute takes the attribute list with it. -/
theorem attrRecordRm_takes_list :
    Layout listedRecord [standardInformation, attributeList, emptyDataAttr] ∧
    (RecordOp.run listedRecord (.rm lastEntry 2)).1 = true ∧
    Layout (RecordOp.run listedRecord (.rm lastEntry 2)).2 [standardInformation] := by
  refine ⟨⟨by decide, ?_, by decide +kernel, by decide⟩, by decide +kernel,
    ⟨by decide +kernel, ?_, by decide +kernel, by decide +kernel⟩⟩
  · apply holdsBytes_of_getElem
    decide +kernel
  · apply holdsBytes_of_getElem
    decide +kernel

end Sequences

end NtfsPlus.Libntfs

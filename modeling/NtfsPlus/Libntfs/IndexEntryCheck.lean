import NtfsPlus.Lib.SignedBytes
import NtfsPlus.Libntfs.Collate
import NtfsPlus.Libntfs.MftRecordCheck

/-!
# Checks of an index block and of its entries

`ntfs_index_block_inconsistent` checks the header of an index block and
`ntfs_index_entry_inconsistent` one entry of it; the loop of `ntfs_ie_lookup`
goes from entry to entry, up to the end entry or to the first one refused.  The
model works on the bytes of the block and records what the checks read.

The loop makes sure that the sixteen bytes of the entry's header and its
`length` bytes lie below `index_length`, and every test keeps to those bytes
except one: in a file name index the length of the name is read at offset 80 of
an entry before anything is known about how long the entry is.
-/

namespace NtfsPlus.Libntfs

section Block

/-- `entries_offset`, `index_length` and `allocated_size` of the index header, at offset 24. -/
def ihEntriesOffset (b : Bytes) : Nat :=
  le32 b 24

def ihIndexLength (b : Bytes) : Nat :=
  le32 b 28

def ihAllocatedSize (b : Bytes) : Nat :=
  le32 b 32

/-- `ntfs_ie_get_first` and `ntfs_ie_get_end`, as offsets in the block. -/
def ieGetFirst (b : Bytes) : Nat :=
  24 + ihEntriesOffset b

def ieGetEnd (b : Bytes) : Nat :=
  24 + ihIndexLength b

/--
`ntfs_index_block_inconsistent`, with what it reads: `true` stands for −1.  A
wrong magic is only reported.
-/
def indexBlockInconsistent (blockSize vcn : Nat) (b : Bytes) : Bool × Reads :=
  let reads : Reads := [(32, 4), (0, 4), (16, 8)]
  if le64 b 16 ≠ vcn then
    (true, reads)
  else if (ihAllocatedSize b + 24) % 2 ^ 32 ≠ blockSize then
    (true, reads)
  else if ihEntriesOffset b < 16 then
    (true, reads ++ [(24, 4)])
  else if ihIndexLength b ≤ ihEntriesOffset b then
    (true, reads ++ [(24, 4), (28, 4)])
  else
    (decide (ihAllocatedSize b < ihIndexLength b ∨ blockSize < ihIndexLength b),
      reads ++ [(24, 4), (28, 4)])

end Block

section Entry

/-- `length`, `key_length` and `ie_flags` of the entry at `ie`. -/
def ieLengthAt (m : Bytes) (ie : Nat) : Nat :=
  le16 m (ie + 8)

def ieKeyLengthAt (m : Bytes) (ie : Nat) : Nat :=
  le16 m (ie + 10)

def ieFlagsAt (m : Bytes) (ie : Nat) : Nat :=
  le16 m (ie + 12)

/-- `INDEX_ENTRY_NODE`. -/
def ieNodeAt (m : Bytes) (ie : Nat) : Bool :=
  (ieFlagsAt m ie).testBit 0

/-- `INDEX_ENTRY_END`. -/
def ieEndAt (m : Bytes) (ie : Nat) : Bool :=
  (ieFlagsAt m ie).testBit 1

/-- Where the key ends, rounded up to eight bytes. -/
def alignedKeyEnd (m : Bytes) (ie : Nat) : Nat :=
  (ieKeyLengthAt m ie + 16 + 7) / 8 * 8

/-- `le16_to_cpu(ie->length) - 8`, an `int` that is compared as a `size_t`. -/
def lengthBeforeVcn (m : Bytes) (ie : Nat) : Nat :=
  (ieLengthAt m ie + (2 ^ 64 - 8)) % 2 ^ 64

/-- The problems of an entry that fsck offers to repair. -/
inductive IeProblem where
  | zeroLength
  | endFlagCorrupted
  | flagSubNodeCorrupted
deriving DecidableEq, Repr

/-- What the entry check takes from the index context: `ia_na` is open. -/
structure IndexExtent where
  vcnSizeBits : Nat
  dataSize : Int

/-- The block of the VCN does not lie in the index allocation. -/
def IndexExtent.beyond (x : IndexExtent) (vcn : Nat) : Bool :=
  x.dataSize < SignedBytes.s64 ((vcn + 1) * 2 ^ x.vcnSizeBits)

/-- The collation rule, the index context if one is given, and the answers about repairs. -/
structure EntryCheckEnv where
  rule : CollationRule
  ictx : Option IndexExtent
  fix : IeProblem → Bool

/-- The memory, the value to return and the bytes read so far. -/
structure EntryScan where
  m : Bytes
  ret : Int
  reads : Reads

namespace EntryScan

def read (s : EntryScan) (l : Reads) : EntryScan :=
  { s with reads := s.reads ++ l }

def fixed (s : EntryScan) (m : Bytes) : EntryScan :=
  { s with m := m, ret := 1 }

def failed (s : EntryScan) : EntryScan :=
  { s with ret := -1 }

end EntryScan

/-- A part of the entry check; an error is the state in which the check returns. -/
abbrev EntryStep := Except EntryScan EntryScan

/-- A zero length. -/
def checkZeroLength (env : EntryCheckEnv) (ie : Nat) (s : EntryScan) : EntryStep :=
  if ieLengthAt s.m ie = 0 then
    let s := s.read [(ie + 8, 2), (ie + 10, 2)]
    if ieKeyLengthAt s.m ie = 0 then
      if env.fix .zeroLength then
        .ok (s.fixed (setLe16 (setLe16 s.m (ie + 8) 16) (ie + 12) 2))
      else
        .error s.failed
    else
      .ok s
  else
    .ok (s.read [(ie + 8, 2)])

/-- A bare header that is not marked as the end. -/
def checkEndFlag (env : EntryCheckEnv) (ie : Nat) (s : EntryScan) : EntryStep :=
  if ieLengthAt s.m ie = 16 then
    let s := s.read [(ie + 8, 2), (ie + 12, 2)]
    if ieFlagsAt s.m ie = 0 then
      if env.fix .endFlagCorrupted then
        .ok (s.fixed (setLe16 s.m (ie + 12) 2))
      else
        .error s.failed
    else
      .ok s
  else
    .ok (s.read [(ie + 8, 2)])

/-- The sub-node lies in the index allocation. -/
def checkNodeVcn (env : EntryCheckEnv) (ie : Nat) (s : EntryScan) : EntryStep :=
  let s := s.read [(ie + 12, 2)]
  match env.ictx with
  | none => .ok s
  | some x =>
    if ieNodeAt s.m ie then
      let vcnAt := ie + ieLengthAt s.m ie - 8
      let s := s.read [(ie + 8, 2), (vcnAt, 8)]
      if x.beyond (le64 s.m vcnAt) then
        .error s.failed
      else
        .ok s
    else
      .ok s

/-- The key of a node entry leaves room for the VCN. -/
def checkNodeRoom (ie : Nat) (s : EntryScan) : EntryStep :=
  let s := s.read [(ie + 12, 2)]
  if ieNodeAt s.m ie then
    let s := s.read [(ie + 10, 2), (ie + 8, 2)]
    if lengthBeforeVcn s.m ie < alignedKeyEnd s.m ie then
      .error s.failed
    else
      .ok s
  else
    .ok s

/-- A file name entry with eight bytes behind its key is a node entry. -/
def checkSubNodeFlag (env : EntryCheckEnv) (ie : Nat) (s : EntryScan) : EntryStep :=
  if env.rule = .fileName then
    let s := s.read [(ie + 10, 2), (ie + 8, 2)]
    if alignedKeyEnd s.m ie = lengthBeforeVcn s.m ie then
      let s := s.read [(ie + 12, 2)]
      if ieNodeAt s.m ie then
        .ok s
      else if env.fix .flagSubNodeCorrupted then
        .ok (s.fixed (setLe16 s.m (ie + 12) (ieFlagsAt s.m ie ||| 1)))
      else
        .error s.failed
    else
      .ok s
  else
    .ok s

/-- The check ends at an end entry, and at a key that leaves the entry. -/
def checkKeyEnd (ie : Nat) (s : EntryScan) : EntryStep :=
  let s := s.read [(ie + 12, 2)]
  if ieEndAt s.m ie then
    .error s
  else
    let s := s.read [(ie + 10, 2), (ie + 8, 2)]
    if ieKeyLengthAt s.m ie ≠ 0 ∧ ieLengthAt s.m ie < ieKeyLengthAt s.m ie + 16 then
      .error s.failed
    else
      .ok s

/-- The tests before the content of the entry. -/
def checkEntryHeader (env : EntryCheckEnv) (m : Bytes) (ie : Nat) : EntryStep :=
  checkZeroLength env ie ⟨m, 0, []⟩ >>= checkEndFlag env ie >>= checkNodeVcn env ie >>=
    checkNodeRoom ie >>= checkSubNodeFlag env ie >>= checkKeyEnd ie

/-- The file name or the data lies in the entry. -/
def checkContent (rule : CollationRule) (ie : Nat) (s : EntryScan) : EntryScan :=
  if rule = .fileName then
    let s := s.read [(ie + 80, 1), (ie + 8, 2)]
    if ieLengthAt s.m ie < 82 + 2 * (s.m (ie + 80)).toNat then s.failed else s
  else
    let s := s.read [(ie + 2, 2)]
    if le16 s.m (ie + 2) = 0 then
      s
    else
      let s := s.read [(ie, 2), (ie + 8, 2)]
      if ieLengthAt s.m ie < le16 s.m ie + le16 s.m (ie + 2) then s.failed else s

/-- `ntfs_index_entry_inconsistent`. -/
def indexEntryInconsistent (env : EntryCheckEnv) (m : Bytes) (ie : Nat) : EntryScan :=
  match checkEntryHeader env m ie with
  | .error s => s
  | .ok s => checkContent env.rule ie s

/-- The check comes to the length of the file name. -/
def readsFileNameLength (env : EntryCheckEnv) (m : Bytes) (ie : Nat) : Bool :=
  env.rule = .fileName && (checkEntryHeader env m ie).isOk

end Entry

section Walk

/-- An entry the walk comes to: the memory in front of the check and its outcome. -/
structure EntryVisit where
  ie : Nat
  before : Bytes
  after : EntryScan

/-- The loop of `ntfs_ie_lookup` when no key stops it before the end entry. -/
def entryWalk (env : EntryCheckEnv) (indexEnd : Nat) : Nat → Bytes → Nat → List EntryVisit
  | 0, _, _ => []
  | fuel + 1, m, ie =>
    if indexEnd < ie + 16 ∨ indexEnd < ie + ieLengthAt m ie then
      []
    else
      let s := indexEntryInconsistent env m ie
      ⟨ie, m, s⟩ ::
        if s.ret < 0 ∨ ieEndAt s.m ie then []
        else entryWalk env indexEnd fuel s.m (ie + ieLengthAt s.m ie)

/-- The walk over a block; `entryWalk_fuel` says that `index_length` steps are enough. -/
def blockWalk (env : EntryCheckEnv) (b : Bytes) : List EntryVisit :=
  entryWalk env (ieGetEnd b) (ihIndexLength b) b (ieGetFirst b)

end Walk

section Safe

/-- The bytes lie in the part of the block that `index_length` measures. -/
def InIndex (indexEnd : Nat) (r : Nat × Nat) : Prop :=
  24 ≤ r.1 ∧ r.1 + r.2 ≤ indexEnd

instance (indexEnd : Nat) (r : Nat × Nat) : Decidable (InIndex indexEnd r) :=
  inferInstanceAs (Decidable (_ ∧ _))

/-- The key and the sub-node VCN of the entry share no byte. -/
def KeyApartFromVcn (m : Bytes) (ie : Nat) : Prop :=
  ie + 16 + ieKeyLengthAt m ie ≤ ie + ieLengthAt m ie - 8 ∨ ie + ieLengthAt m ie ≤ ie + 16

/--
What is asked of a visit: the reads of the check lie in the index, and of an
accepted entry the sub-node VCN does as well and is apart from the key.
-/
structure SafeVisit (indexEnd : Nat) (v : EntryVisit) : Prop where
  reads : ∀ r ∈ v.after.reads, InIndex indexEnd r
  vcn : 0 ≤ v.after.ret → ieNodeAt v.after.m v.ie →
    InIndex indexEnd (v.ie + ieLengthAt v.after.m v.ie - 8, 8)
  key : 0 ≤ v.after.ret → ieNodeAt v.after.m v.ie → KeyApartFromVcn v.after.m v.ie

/-- The header check and the walk over the block keep to the block's index. -/
structure SafeBlock (env : EntryCheckEnv) (blockSize vcn : Nat) (b : Bytes) : Prop where
  header : ∀ r ∈ (indexBlockInconsistent blockSize vcn b).2, r.1 + r.2 ≤ ieGetEnd b
  walk : ∀ v ∈ blockWalk env b, SafeVisit (ieGetEnd b) v

/-- Every entry whose file name length is read has its first 81 bytes in the index. -/
def NameLengthsInIndex (env : EntryCheckEnv) (b : Bytes) : Prop :=
  ∀ v ∈ blockWalk env b, readsFileNameLength env v.before v.ie → v.ie + 81 ≤ ieGetEnd b

instance (env : EntryCheckEnv) (b : Bytes) : Decidable (NameLengthsInIndex env b) :=
  inferInstanceAs (Decidable (∀ v ∈ blockWalk env b, _ → _))

end Safe

section Steps

variable {env : EntryCheckEnv} {indexEnd ie : Nat}

/-- What holds of the state between two tests. -/
structure Scanned (indexEnd ie : Nat) (s : EntryScan) : Prop where
  reads : ∀ r ∈ s.reads, InIndex indexEnd r
  length : ie + ieLengthAt s.m ie ≤ indexEnd

/-- The entry is not the empty one. -/
def NotEmptyEntry (m : Bytes) (ie : Nat) : Prop :=
  ieLengthAt m ie ≠ 0 ∨ ieKeyLengthAt m ie ≠ 0

/-- A node entry that is too short for a VCN, or whose key ends before it. -/
def NodeRoom (m : Bytes) (ie : Nat) : Prop :=
  ieNodeAt m ie → ieLengthAt m ie < 8 ∨ ieKeyLengthAt m ie + 24 ≤ ieLengthAt m ie

/-- The same once the entry is known not to be the empty one. -/
structure Filled (indexEnd ie : Nat) (s : EntryScan) : Prop extends Scanned indexEnd ie s where
  filled : NotEmptyEntry s.m ie

/-- The same once the key of a node entry leaves room for its VCN. -/
structure FilledWithRoom (indexEnd ie : Nat) (s : EntryScan) : Prop
    extends Filled indexEnd ie s where
  room : NodeRoom s.m ie

/-- What holds of the state in which the check returns. -/
structure Returned (indexEnd ie : Nat) (s : EntryScan) : Prop extends Scanned indexEnd ie s where
  room : 0 ≤ s.ret → NodeRoom s.m ie
  moves : 0 ≤ s.ret → ieEndAt s.m ie = false → 0 < ieLengthAt s.m ie

/-- A test goes on with `P`, or the check returns with `Q`. -/
def StepHolds (P Q : EntryScan → Prop) : EntryStep → Prop
  | .ok s => P s
  | .error s => Q s

/-- Two steps, one after the other. -/
theorem StepHolds.bind
    {P P' Q : EntryScan → Prop} {x : EntryStep} {f : EntryScan → EntryStep}
    (hx : StepHolds P Q x)
    (hf : ∀ s, P s → StepHolds P' Q (f s)) :
    StepHolds P' Q (x >>= f) := by
  cases x with
  | error s => exact hx
  | ok s => exact hf s hx

theorem Scanned.read
    {s : EntryScan} {l : Reads}
    (h : Scanned indexEnd ie s)
    (hl : ∀ r ∈ l, InIndex indexEnd r) :
    Scanned indexEnd ie (s.read l) := by
  refine ⟨?_, h.length⟩
  intro r hr
  rcases List.mem_append.mp hr with hr | hr
  · exact h.reads r hr
  · exact hl r hr

/-- A state the check fails in has nothing to show about the entry. -/
theorem Scanned.failed
    {s : EntryScan}
    (h : Scanned indexEnd ie s) :
    Returned indexEnd ie s.failed := by
  have hret : s.failed.ret = -1 := rfl
  exact ⟨⟨h.reads, h.length⟩, fun h0 => by omega, fun h0 => by omega⟩

@[simp] theorem ieLengthAt_setFlags
    (m : Bytes)
    (ie v : Nat) :
    ieLengthAt (setLe16 m (ie + 12) v) ie = ieLengthAt m ie :=
  le16_setLe16_of_ne m v (by omega)

@[simp] theorem ieKeyLengthAt_setFlags
    (m : Bytes)
    (ie v : Nat) :
    ieKeyLengthAt (setLe16 m (ie + 12) v) ie = ieKeyLengthAt m ie :=
  le16_setLe16_of_ne m v (by omega)

@[simp] theorem ieLengthAt_setLength
    (m : Bytes)
    (ie v : Nat) :
    ieLengthAt (setLe16 m (ie + 8) v) ie = v % 65536 :=
  le16_setLe16 m (ie + 8) v

theorem alignedKeyEnd_bounds
    (m : Bytes)
    (ie : Nat) :
    ieKeyLengthAt m ie + 16 ≤ alignedKeyEnd m ie ∧ alignedKeyEnd m ie < 65560 := by
  have hlt : ieKeyLengthAt m ie < 65536 := le16_lt m (ie + 10)
  unfold alignedKeyEnd
  omega

/-- The subtraction wraps around for entries of less than eight bytes. -/
theorem lengthBeforeVcn_cases
    (m : Bytes)
    (ie : Nat) :
    (ieLengthAt m ie < 8 ∧ 65560 ≤ lengthBeforeVcn m ie) ∨
      (8 ≤ ieLengthAt m ie ∧ lengthBeforeVcn m ie = ieLengthAt m ie - 8) := by
  have hlt : ieLengthAt m ie < 65536 := le16_lt m (ie + 8)
  unfold lengthBeforeVcn
  omega

theorem nodeRoom_of_le
    {m : Bytes}
    (h : alignedKeyEnd m ie ≤ lengthBeforeVcn m ie) :
    ieLengthAt m ie < 8 ∨ ieKeyLengthAt m ie + 24 ≤ ieLengthAt m ie := by
  have hkey := alignedKeyEnd_bounds m ie
  rcases lengthBeforeVcn_cases m ie with ⟨hshort, _⟩ | ⟨hlong, heq⟩
  · exact Or.inl hshort
  · omega

section Bounds

variable (hie : 40 ≤ ie) (hhead : ie + 16 ≤ indexEnd)

include hie hhead

variable {m : Bytes} {s : EntryScan}

/-- The fields of the header may be read. -/
theorem Scanned.readFields
    {l : Reads}
    (h : Scanned indexEnd ie s)
    (hl : ∀ r ∈ l, ie ≤ r.1 ∧ r.1 + r.2 ≤ ie + 16) :
    Scanned indexEnd ie (s.read l) :=
  h.read (fun r hr => ⟨by have := hl r hr; omega, by have := hl r hr; omega⟩)

omit hhead in
theorem inIndex_vcn
    (h : ie + ieLengthAt m ie ≤ indexEnd) :
    InIndex indexEnd (ie + ieLengthAt m ie - 8, 8) := by
  constructor
  · omega
  · omega

/-- The repair of an empty entry reads inside the index. -/
theorem checkZeroLength_holds
    (env : EntryCheckEnv)
    (hs : Scanned indexEnd ie s) :
    StepHolds (Filled indexEnd ie) (Returned indexEnd ie) (checkZeroLength env ie s) := by
  have hread := hs.readFields hie hhead (l := [(ie + 8, 2), (ie + 10, 2)]) (by simp)
  unfold checkZeroLength
  dsimp only
  split_ifs with hzero hnone hfix
  · refine ⟨⟨hread.reads, ?_⟩, Or.inl ?_⟩
    · simpa [EntryScan.fixed] using hhead
    · simp [EntryScan.fixed]
  · exact hread.failed
  · exact ⟨hread, Or.inr hnone⟩
  · exact ⟨hs.readFields hie hhead (by simp), Or.inl hzero⟩

/-- So does the repair of the end flag. -/
theorem checkEndFlag_holds
    (env : EntryCheckEnv)
    (hs : Filled indexEnd ie s) :
    StepHolds (Filled indexEnd ie) (Returned indexEnd ie) (checkEndFlag env ie s) := by
  have hread := hs.readFields hie hhead (l := [(ie + 8, 2), (ie + 12, 2)]) (by simp)
  unfold checkEndFlag
  dsimp only
  split_ifs with hbare hnone hfix
  · refine ⟨⟨hread.reads, ?_⟩, Or.inl ?_⟩
    · simpa [EntryScan.fixed, EntryScan.read] using hs.length
    · simp [EntryScan.fixed, EntryScan.read, hbare]
  · exact hread.failed
  · exact ⟨hread, hs.filled⟩
  · exact ⟨hs.readFields hie hhead (by simp), hs.filled⟩

/-- And the check of the VCN below the entry. -/
theorem checkNodeVcn_holds
    (env : EntryCheckEnv)
    (hs : Filled indexEnd ie s) :
    StepHolds (Filled indexEnd ie) (Returned indexEnd ie) (checkNodeVcn env ie s) := by
  have hread := hs.readFields hie hhead (l := [(ie + 12, 2)]) (by simp)
  have hreadVcn := hread.read (l := [(ie + 8, 2), (ie + ieLengthAt s.m ie - 8, 8)])
    (by simpa using ⟨⟨by omega, by omega⟩, inIndex_vcn hie hs.length⟩)
  unfold checkNodeVcn
  cases env.ictx with
  | none => exact ⟨hread, hs.filled⟩
  | some x =>
    dsimp only
    generalize x.beyond _ = beyond
    split
    · cases beyond with
      | true => exact hreadVcn.failed
      | false => exact ⟨hreadVcn, hs.filled⟩
    · exact ⟨hread, hs.filled⟩

/-- Behind this test the key of a node entry is apart from its VCN. -/
theorem checkNodeRoom_holds
    (hs : Filled indexEnd ie s) :
    StepHolds (FilledWithRoom indexEnd ie) (Returned indexEnd ie) (checkNodeRoom ie s) := by
  have hread := hs.readFields hie hhead (l := [(ie + 12, 2)]) (by simp)
  have hreadRoom := hread.readFields hie hhead (l := [(ie + 10, 2), (ie + 8, 2)]) (by simp)
  unfold checkNodeRoom
  dsimp only
  split_ifs with hnode hshort
  · exact hreadRoom.failed
  · exact ⟨⟨hreadRoom, hs.filled⟩, fun _ => nodeRoom_of_le (Nat.le_of_not_lt hshort)⟩
  · exact ⟨⟨hread, hs.filled⟩, fun h => absurd h hnode⟩

/-- And the repair of the sub-node flag. -/
theorem checkSubNodeFlag_holds
    (env : EntryCheckEnv)
    (hs : FilledWithRoom indexEnd ie s) :
    StepHolds (FilledWithRoom indexEnd ie) (Returned indexEnd ie) (checkSubNodeFlag env ie s) := by
  have hread := hs.readFields hie hhead (l := [(ie + 10, 2), (ie + 8, 2)]) (by simp)
  have hreadFlags := hread.readFields hie hhead (l := [(ie + 12, 2)]) (by simp)
  unfold checkSubNodeFlag
  dsimp only
  split_ifs with hrule heq hnode hfix
  · exact ⟨⟨hreadFlags, hs.filled⟩, hs.room⟩
  · -- the new node entry has its VCN right behind the aligned key
    refine ⟨⟨⟨hreadFlags.reads, ?_⟩, ?_⟩, fun _ => ?_⟩
    · simpa [EntryScan.fixed, EntryScan.read] using hs.length
    · simpa [EntryScan.fixed, EntryScan.read, NotEmptyEntry] using hs.filled
    · simpa [EntryScan.fixed, EntryScan.read] using nodeRoom_of_le (Nat.le_of_eq heq)
  · exact hreadFlags.failed
  · exact ⟨⟨hread, hs.filled⟩, hs.room⟩
  · exact hs

/-- And the check of the key. -/
theorem checkKeyEnd_holds
    (hs : FilledWithRoom indexEnd ie s) :
    StepHolds (Returned indexEnd ie) (Returned indexEnd ie) (checkKeyEnd ie s) := by
  have hread := hs.readFields hie hhead (l := [(ie + 12, 2)]) (by simp)
  have hreadKey := hread.readFields hie hhead (l := [(ie + 10, 2), (ie + 8, 2)]) (by simp)
  unfold checkKeyEnd
  dsimp only
  split_ifs with hend hover
  · exact ⟨hread, fun _ => hs.room, fun _ hno => absurd hend (by simp [hno])⟩
  · exact hreadKey.failed
  · refine ⟨hreadKey, fun _ => hs.room, fun _ _ => ?_⟩
    -- an entry of length zero has a key, and the key would leave it
    change 0 < ieLengthAt s.m ie
    have hfits : ¬ (ieKeyLengthAt s.m ie ≠ 0 ∧
        ieLengthAt s.m ie < ieKeyLengthAt s.m ie + 16) := hover
    rcases hs.filled with hne | hne
    · omega
    · omega

/-- The tests in front of the content read inside the index only. -/
theorem checkEntryHeader_holds
    (env : EntryCheckEnv)
    (hlength : ie + ieLengthAt m ie ≤ indexEnd) :
    StepHolds (Returned indexEnd ie) (Returned indexEnd ie) (checkEntryHeader env m ie) := by
  have hstart : Scanned indexEnd ie ⟨m, 0, []⟩ := ⟨by simp, hlength⟩
  have hzero := checkZeroLength_holds hie hhead env hstart
  have hend := hzero.bind (fun _ => checkEndFlag_holds hie hhead env)
  have hvcn := hend.bind (fun _ => checkNodeVcn_holds hie hhead env)
  have hroom := hvcn.bind (fun _ => checkNodeRoom_holds hie hhead)
  have hflag := hroom.bind (fun _ => checkSubNodeFlag_holds hie hhead env)
  exact hflag.bind (fun _ => checkKeyEnd_holds hie hhead)

/-- The test of the content is inside once the length of a file name is. -/
theorem checkContent_returned
    {rule : CollationRule}
    (hs : Returned indexEnd ie s)
    (hname : rule = .fileName → ie + 81 ≤ indexEnd) :
    Returned indexEnd ie (checkContent rule ie s) := by
  unfold checkContent
  dsimp only
  by_cases hrule : rule = .fileName
  · have hend := hname hrule
    have hread := hs.read (l := [(ie + 80, 1), (ie + 8, 2)])
      (by simpa using ⟨⟨by omega, by omega⟩, by omega, by omega⟩)
    split_ifs with hover
    · exact hread.failed
    · exact ⟨hread, hs.room, hs.moves⟩
  · have hread := hs.readFields hie hhead (l := [(ie + 2, 2)]) (by simp)
    have hreadData := hread.readFields hie hhead (l := [(ie, 2), (ie + 8, 2)]) (by simp)
    split_ifs with hnone hover
    · exact ⟨hread, hs.room, hs.moves⟩
    · exact hreadData.failed
    · exact ⟨hreadData, hs.room, hs.moves⟩

/-- One entry: the check keeps to the index if the read of the file name length does. -/
theorem indexEntryInconsistent_returned
    (hlength : ie + ieLengthAt m ie ≤ indexEnd)
    (hname : readsFileNameLength env m ie → ie + 81 ≤ indexEnd) :
    Returned indexEnd ie (indexEntryInconsistent env m ie) := by
  have hheader := checkEntryHeader_holds hie hhead env hlength
  unfold indexEntryInconsistent
  cases hcase : checkEntryHeader env m ie with
  | error s =>
    rw [hcase] at hheader
    exact hheader
  | ok s =>
    rw [hcase] at hheader
    refine checkContent_returned hie hhead hheader ?_
    intro hrule
    exact hname (by simp [readsFileNameLength, hrule, hcase, Except.toBool])

end Bounds

/-- An accepted entry that is not the end has a length, wherever the index ends. -/
theorem indexEntryInconsistent_moves
    {m : Bytes}
    (hie : 40 ≤ ie)
    (hret : 0 ≤ (indexEntryInconsistent env m ie).ret)
    (hend : ieEndAt (indexEntryInconsistent env m ie).m ie = false) :
    0 < ieLengthAt (indexEntryInconsistent env m ie).m ie := by
  have hreturned : Returned (ie + 81 + ieLengthAt m ie) ie (indexEntryInconsistent env m ie) :=
    indexEntryInconsistent_returned hie (by omega) (by omega) (fun _ => by omega)
  exact hreturned.moves hret hend

theorem fileNameLength_mem_reads
    {m : Bytes}
    (h : readsFileNameLength env m ie) :
    (ie + 80, 1) ∈ (indexEntryInconsistent env m ie).reads := by
  rw [readsFileNameLength, Bool.and_eq_true, decide_eq_true_eq] at h
  obtain ⟨hrule, hok⟩ := h
  unfold indexEntryInconsistent
  cases hcase : checkEntryHeader env m ie with
  | error s =>
    rw [hcase] at hok
    exact absurd hok (by simp [Except.toBool])
  | ok s =>
    dsimp only
    unfold checkContent
    dsimp only
    split_ifs with hover
    · simp [EntryScan.failed, EntryScan.read]
    · simp [EntryScan.read]

end Steps

section Walks

variable {env : EntryCheckEnv} {indexEnd : Nat}

/-- What the bounds tests of the loop guarantee in front of every check. -/
structure InBounds (env : EntryCheckEnv) (indexEnd : Nat) (v : EntryVisit) : Prop where
  start : 40 ≤ v.ie
  head : v.ie + 16 ≤ indexEnd
  length : v.ie + ieLengthAt v.before v.ie ≤ indexEnd
  checked : v.after = indexEntryInconsistent env v.before v.ie

variable {fuel ie blockSize vcn : Nat} {m b : Bytes} {v : EntryVisit}

/-- Every entry that the walk visits is checked in bounds. -/
theorem entryWalk_inBounds
    (hie : 40 ≤ ie)
    (hv : v ∈ entryWalk env indexEnd fuel m ie) :
    InBounds env indexEnd v := by
  induction fuel generalizing m ie with
  | zero => exact absurd hv List.not_mem_nil
  | succ fuel ih =>
    rw [entryWalk] at hv
    split_ifs at hv with hout
    · exact absurd hv List.not_mem_nil
    · rw [not_or, Nat.not_lt, Nat.not_lt] at hout
      rcases List.mem_cons.mp hv with rfl | hv
      · exact ⟨hie, hout.1, hout.2, rfl⟩
      · split_ifs at hv with hstop
        · exact absurd hv List.not_mem_nil
        · exact ih (Nat.le_add_right_of_le hie) hv

/-- Every step moves, so as many steps as there are bytes left are enough. -/
theorem entryWalk_fuel
    (hie : 40 ≤ ie)
    (hfuel : indexEnd ≤ ie + fuel)
    (extra : Nat) :
    entryWalk env indexEnd (fuel + extra) m ie = entryWalk env indexEnd fuel m ie := by
  induction fuel generalizing m ie with
  | zero =>
    cases extra with
    | zero => rfl
    | succ extra => rw [Nat.zero_add, entryWalk, entryWalk, if_pos (Or.inl (by omega))]
  | succ fuel ih =>
    rw [Nat.add_right_comm, entryWalk, entryWalk]
    dsimp only
    by_cases hstop : (indexEntryInconsistent env m ie).ret < 0 ∨
        ieEndAt (indexEntryInconsistent env m ie).m ie
    · rw [if_pos hstop, if_pos hstop]
    · rw [not_or, Bool.not_eq_true, Int.not_lt] at hstop
      have hmoves := indexEntryInconsistent_moves hie hstop.1 hstop.2
      rw [ih (by omega) (by omega)]

/-- A visit is safe exactly when the file name length it reads lies in the index. -/
theorem safeVisit_iff
    (hv : InBounds env indexEnd v) :
    SafeVisit indexEnd v ↔ (readsFileNameLength env v.before v.ie → v.ie + 81 ≤ indexEnd) := by
  constructor
  · intro hsafe hreads
    have hmem := fileNameLength_mem_reads hreads
    rw [← hv.checked] at hmem
    exact (hsafe.reads _ hmem).2
  · intro hname
    have hreturned := indexEntryInconsistent_returned hv.start hv.head hv.length hname
    rw [← hv.checked] at hreturned
    refine ⟨hreturned.reads, fun _ _ => inIndex_vcn hv.start hreturned.length, ?_⟩
    intro hret hnode
    rcases hreturned.room hret hnode with hshort | hroom
    · exact Or.inr (by omega)
    · exact Or.inl (by omega)

/-- What an accepted block header ensures. -/
theorem indexBlockInconsistent_accepts
    (h : (indexBlockInconsistent blockSize vcn b).1 = false) :
    16 ≤ ihEntriesOffset b ∧ ihEntriesOffset b < ihIndexLength b ∧
      (indexBlockInconsistent blockSize vcn b).2 =
        [(32, 4), (0, 4), (16, 8), (24, 4), (28, 4)] := by
  unfold indexBlockInconsistent at h ⊢
  split_ifs at h ⊢ with hvcn hsize hoffset hlength
  exact ⟨by omega, by omega, rfl⟩

/-- More steps than `index_length` do not lead the walk over a block any further. -/
theorem blockWalk_complete
    (haccept : (indexBlockInconsistent blockSize vcn b).1 = false)
    (extra : Nat) :
    entryWalk env (ieGetEnd b) (ihIndexLength b + extra) b (ieGetFirst b) = blockWalk env b := by
  obtain ⟨hoffset, -, -⟩ := indexBlockInconsistent_accepts haccept
  apply entryWalk_fuel
  · unfold ieGetFirst
    omega
  · unfold ieGetEnd ieGetFirst
    omega

end Walks

section Results

/--
The checks of an accepted block and of its entries keep to the block's index,
and an accepted node entry has its key and VCN apart, exactly when each file
name length that is read lies in the index.
-/
theorem safeBlock_iff
    (env : EntryCheckEnv)
    (blockSize vcn : Nat)
    (b : Bytes)
    (haccept : (indexBlockInconsistent blockSize vcn b).1 = false) :
    SafeBlock env blockSize vcn b ↔ NameLengthsInIndex env b := by
  obtain ⟨hoffset, hlength, hreads⟩ := indexBlockInconsistent_accepts haccept
  have hbounds : ∀ v ∈ blockWalk env b, InBounds env (ieGetEnd b) v := by
    intro v hv
    exact entryWalk_inBounds (by unfold ieGetFirst; omega) hv
  constructor
  · intro hsafe v hv
    exact (safeVisit_iff (hbounds v hv)).mp (hsafe.walk v hv)
  · intro hnames
    constructor
    · intro r hr
      rw [hreads] at hr
      have hend : 36 ≤ ieGetEnd b := by
        unfold ieGetEnd
        omega
      have hr36 : r.1 + r.2 ≤ 36 := by
        revert r
        decide
      exact Nat.le_trans hr36 hend
    · intro v hv
      exact (safeVisit_iff (hbounds v hv)).mpr (hnames v hv)

/-- A block of 4096 bytes with the given entries, at offset 64. -/
def blockOf (indexLength : Nat) (entries : List (Nat × List UInt8)) : Bytes :=
  patches (patches (fun _ => 0) 24 [(0, leBytes 4 40), (4, leBytes 4 indexLength),
    (8, leBytes 4 4072)]) 64 entries

/-- A directory whose repairs are refused, read through an index of one block. -/
def directoryCheck : EntryCheckEnv :=
  ⟨.fileName, some ⟨12, 4096⟩, fun _ => false⟩

/-- One entry of 32 bytes with a key of ten, and nothing behind it. -/
def shortNameBlock : Bytes :=
  blockOf 72 [(8, leBytes 2 32), (10, leBytes 2 10)]

/-- The length of the file name is read 48 bytes behind the end of the index. -/
theorem indexEntryInconsistent_reads_behind_index :
    (indexBlockInconsistent 4096 0 shortNameBlock).1 = false ∧
      ¬ SafeBlock directoryCheck 4096 0 shortNameBlock := by
  refine ⟨by decide +kernel, ?_⟩
  intro hsafe
  have hvisit : ∃ v ∈ blockWalk directoryCheck shortNameBlock,
      ∃ r ∈ v.after.reads, ¬InIndex (ieGetEnd shortNameBlock) r := by
    decide +kernel
  obtain ⟨v, hv, r, hr, hout⟩ := hvisit
  exact hout ((hsafe.walk v hv).reads r hr)

/-- The name `a` and the end entry. -/
def oneNameBlock : Bytes :=
  blockOf 144 [(8, leBytes 2 88), (10, leBytes 2 68), (80, [1, 0, 97]), (96, leBytes 2 16),
    (100, leBytes 2 2)]

theorem safeBlock_one_name :
    (indexBlockInconsistent 4096 0 oneNameBlock).1 = false ∧
      SafeBlock directoryCheck 4096 0 oneNameBlock := by
  have haccept : (indexBlockInconsistent 4096 0 oneNameBlock).1 = false := by decide +kernel
  exact ⟨haccept, (safeBlock_iff _ _ _ _ haccept).mpr (by decide +kernel)⟩

theorem blockWalk_complete_one_name :
    entryWalk directoryCheck (ieGetEnd oneNameBlock) (ihIndexLength oneNameBlock + 1) oneNameBlock
      (ieGetFirst oneNameBlock) = blockWalk directoryCheck oneNameBlock := by
  have haccept : (indexBlockInconsistent 4096 0 oneNameBlock).1 = false := by decide +kernel
  exact blockWalk_complete haccept 1

end Results

end NtfsPlus.Libntfs

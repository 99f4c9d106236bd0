import NtfsPlus.Libntfs.AttrRecordEdit
import NtfsPlus.Libntfs.Mst

/-!
# Checking and enumerating an MFT record

`ntfs_mft_record_check` walks over the attributes of a record and checks each
(`ntfs_attr_inconsistent`), with repairs in fsck mode; `ntfs_attr_find` walks
over them again when it enumerates.  The two walks differ: the check passes over
words that are no attribute type, and it accepts a record where it met no
`AT_END`.

`mftRecordCheck_enumerates_iff` is about records that are accepted as they are.
The attributes form a chain up to an `AT_END` in the used part of the record and
the enumeration returns exactly them, exactly when the check has nothing to pass
over and stops at an `AT_END` inside the record.
-/

namespace NtfsPlus.Libntfs

section Fields

def attrType (m : Bytes) (a : Nat) : Nat := le32 m a

def attrLength (m : Bytes) (a : Nat) : Nat := le32 m (a + 4)

def attrNonResident (m : Bytes) (a : Nat) : Nat := (m (a + 8)).toNat

def attrNameLength (m : Bytes) (a : Nat) : Nat := (m (a + 9)).toNat

def attrNameOffset (m : Bytes) (a : Nat) : Nat := le16 m (a + 10)

def attrInstance (m : Bytes) (a : Nat) : Nat := le16 m (a + 14)

def attrValueLength (m : Bytes) (a : Nat) : Nat := le32 m (a + 16)

def attrValueOffset (m : Bytes) (a : Nat) : Nat := le16 m (a + 20)

def attrResidentFlags (m : Bytes) (a : Nat) : Nat := (m (a + 22)).toNat

def attrLowestVcn (m : Bytes) (a : Nat) : Nat := le64 m (a + 16)

def attrHighestVcn (m : Bytes) (a : Nat) : Nat := le64 m (a + 24)

def attrMappingPairsOffset (m : Bytes) (a : Nat) : Nat := le16 m (a + 32)

/-- `offsetof(ATTR_RECORD, resident_end)`. -/
def residentEnd : Nat := 24

/-- `offsetof(ATTR_RECORD, non_resident_end)`. -/
def nonResidentEnd : Nat := 64

/-- The attribute types that `ntfs_is_valid_attr_type` knows. -/
def knownAttrTypes : List Nat :=
  [0, 0x10, 0x20, 0x30, 0x40, 0x50, 0x60, 0x70, 0x80, 0x90, 0xa0, 0xb0, 0xc0, 0xd0, 0xe0,
    0xf0, 0x100, 0x1000, 0xffffffff]

/-- `ntfs_is_valid_attr_type`. -/
def isValidAttrType (m : Bytes) (a : Nat) : Bool :=
  knownAttrTypes.contains (attrType m a) && attrLength m a != 0

end Fields

section Inconsistent

/-- The problems that the check asks about. -/
inductive RecordProblem where
  | mftMagicCorrupted
  | mftSizeCorrupted
  | mftAttrOffsetCorrupted
  | mftBiuCorrupted
  | attrValueOffsetBadlyAligned
  | attrNameOffsetCorrupted
  | attrValueOffsetCorrupted
  | attrLengthCorrupted
  | attrFnFlagMismatch
  | mftSiFieldsCorrupted
deriving DecidableEq, Repr

/-- The volume and the mode of the check. -/
structure CheckVolume where
  mftRecordSize : Nat
  indxRecordSize : Nat
  /-- `NVolFsck`. -/
  fsck : Bool
  /-- `NVolNoFixupWarn`. -/
  noFixupWarn : Bool
  /-- `NVolFsNoRepair`. -/
  noRepair : Bool
  /-- Whether `mftmirr_na` is open. -/
  mirrOpen : Bool
  /-- `ntfs_fix_problem` or `ntfs_ask_repair`, for a problem at an offset. -/
  fix : RecordProblem → Nat → Bool
  /-- Whether `ntfs_mft_record_write` of a repaired record succeeds. -/
  writeOk : Bool
  mftRecordSize_mod : mftRecordSize % ntfsBlockSize = 0

/-- The record and `fixed`. -/
structure Checked where
  m : Bytes
  fixed : Bool

/-- A problem that is fatal unless it is repaired in fsck mode. -/
def repairOrFail
    (fsck fix : Bool) (bad : Prop) [Decidable bad] (repair : Bytes → Bytes)
    (s : Checked) :
    Option Checked :=
  if bad then
    if fsck && fix then some ⟨repair s.m, true⟩ else none
  else
    some s

/-
`isFsck` is whether the volume is checked when `ntfs_attr_inconsistent` is called, `fsck` is
`NVolFsck` while it runs: it is cleared for the first two records.
-/
variable (vol : CheckVolume) (isFsck fsck : Bool) (a : Nat)

/-- The check of a non-resident attribute. -/
def nonResidentOk (m : Bytes) (a : Nat) : Prop :=
  attrNonResident m a = 1 ∧ nonResidentEnd ≤ attrLength m a ∧
    attrMappingPairsOffset m a % 8 = 0 ∧ attrMappingPairsOffset m a < attrLength m a ∧
    (attrNameLength m a = 0 ∨ attrNameOffset m a + attrNameLength m a * 2 ≤ attrLength m a) ∧
    attrLowestVcn m a ≤ attrHighestVcn m a

instance (m : Bytes) (a : Nat) : Decidable (nonResidentOk m a) :=
  inferInstanceAs (Decidable (_ ∧ _))

/-- The end of the value, rounded up. -/
def valueEnd (m : Bytes) (a : Nat) : Nat :=
  (attrValueOffset m a + attrValueLength m a + 7) / 8 * 8

/-- The check of a resident attribute. -/
def residentCheck (s : Checked) : Option Checked :=
  -- taken before the offset of the name is repaired
  let nameEnd := (attrNameOffset s.m a + attrNameLength s.m a * 2 + 7) / 8 * 8
  if 2 ^ 24 ≤ attrValueLength s.m a then
    none
  else
    (repairOrFail fsck (vol.fix .attrValueOffsetBadlyAligned a) (attrValueOffset s.m a % 8 ≠ 0)
      (fun m => patch m (a + 20) (leBytes 2 ((attrValueOffset m a + 7) / 8 * 8))) s).bind
    fun s =>
    (repairOrFail fsck (vol.fix .attrNameOffsetCorrupted a)
      (attrNameOffset s.m a ≠ 0 ∧ attrNameOffset s.m a < residentEnd)
      (fun m => patch m (a + 10) (leBytes 2 residentEnd)) s).bind
    fun s =>
    (repairOrFail fsck (vol.fix .attrValueOffsetCorrupted a) (attrValueOffset s.m a < nameEnd)
      (fun m => patch m (a + 20) (leBytes 2 nameEnd)) s).bind
    fun s =>
    if vol.mftRecordSize < attrValueLength s.m a ∨
        attrLength s.m a < attrValueLength s.m a ∨ attrValueOffset s.m a = 0 ∨
        attrLength s.m a < attrValueOffset s.m a then
      none
    else
      repairOrFail fsck (vol.fix .attrLengthCorrupted a)
        (attrLength s.m a < valueEnd s.m a ∨ attrLength s.m a < residentEnd)
        (fun m => patch m (a + 4) (leBytes 4 (valueEnd m a))) s

/-- The flags of `$STANDARD_INFORMATION` that are valid. -/
def validSiFlags : Nat :=
  0x00047fb7 ||| 0x20000000 ||| 0x10000000 ||| 0x80000000

/-- The length that a `$STANDARD_INFORMATION` should have. -/
def siEffLen (valueLen : Nat) : Nat :=
  if valueLen = 48 ∨ valueLen = 72 then valueLen else if valueLen < 72 then 48 else 72

/-- `bad_len`: the value has no length of a `$STANDARD_INFORMATION`. -/
def siBadLen (m : Bytes) (a : Nat) : Prop :=
  attrValueLength m a ≠ siEffLen (attrValueLength m a)

instance (m : Bytes) (a : Nat) : Decidable (siBadLen m a) :=
  inferInstanceAs (Decidable (_ ≠ _))

/-- `bad_reserved`: the reserved bytes of the short form are not zero. -/
def siBadReserved (m : Bytes) (a : Nat) : Prop :=
  siEffLen (attrValueLength m a) = 48 ∧
    ¬bytesAt m (a + attrValueOffset m a + 36) 12 = List.replicate 12 0

instance (m : Bytes) (a : Nat) : Decidable (siBadReserved m a) :=
  inferInstanceAs (Decidable (_ ∧ _))

/-- `file_attributes` of a `$STANDARD_INFORMATION`. -/
def siFileAttributes (m : Bytes) (a : Nat) : Nat :=
  le32 m (a + attrValueOffset m a + 32)

/-- `bad_flags`: flags that no file has. -/
def siBadFlags (m : Bytes) (a : Nat) : Prop :=
  siFileAttributes m a &&& validSiFlags ≠ siFileAttributes m a

instance (m : Bytes) (a : Nat) : Decidable (siBadFlags m a) :=
  inferInstanceAs (Decidable (_ ≠ _))

/-- The repair of the length. -/
def repairSiLength (m : Bytes) (a : Nat) : Bytes :=
  if siBadLen m a then patch m (a + 16) (leBytes 4 (siEffLen (attrValueLength m a))) else m

/-- The repair of the reserved bytes, after that of the length. -/
def repairSiReserved (m : Bytes) (a : Nat) : Bytes :=
  if siBadReserved m a then
    patch (repairSiLength m a) (a + attrValueOffset m a + 36) (List.replicate 12 0)
  else
    repairSiLength m a

/-- The repairs of a `$STANDARD_INFORMATION`, all decided before the first. -/
def repairStandardInformation (m : Bytes) (a : Nat) : Bytes :=
  if siBadFlags m a then
    patch (repairSiReserved m a) (a + attrValueOffset m a + 32)
      (leBytes 4 (siFileAttributes m a &&& validSiFlags))
  else
    repairSiReserved m a

/-- Whether the repair is left out: declined, or silently in no-repair mode. -/
def siRepairDeclined : Bool :=
  if fsck then !vol.fix .mftSiFieldsCorrupted a else vol.noRepair

/-- `ntfs_attr_check_standard_information`. -/
def checkStandardInformation (s : Checked) : Option Checked :=
  if attrNonResident s.m a ≠ 0 ∨ attrValueLength s.m a < 48 then
    none
  else if ¬(siBadLen s.m a ∨ siBadReserved s.m a ∨ siBadFlags s.m a) then
    some s
  else if !isFsck then
    none
  else if siRepairDeclined vol fsck a then
    some s
  else
    some ⟨repairStandardInformation s.m a, true⟩

/-- The check of a `$FILE_NAME` attribute. -/
def checkFileName (s : Checked) : Option Checked :=
  let fn := a + attrValueOffset s.m a
  let nameLength := (s.m (fn + 64)).toNat
  if attrNonResident s.m a ≠ 0 ∨ attrValueLength s.m a < 66 ∨ nameLength = 0 ∨
      attrValueLength s.m a < nameLength * 2 + 66 then
    none
  else if attrResidentFlags s.m a = 1 then
    some s
  else if !fsck then
    none
  else if vol.fix .attrFnFlagMismatch a then
    some ⟨setByte s.m (a + 22) 1, true⟩
  else
    some s

/-- Whether an `$INDEX_ROOT` attribute is refused. -/
def indexRootBad (m : Bytes) : Prop :=
  let ir := a + attrValueOffset m a
  let entriesOffset := le32 m (ir + 16)
  let indexLength := le32 m (ir + 20)
  let allocatedSize := le32 m (ir + 24)
  if isFsck then
    attrNonResident m a ≠ 0 ∨ attrValueLength m a < 48
  else
    attrNonResident m a ≠ 0 ∨ attrValueLength m a < 29 ∨ entriesOffset < 16 ∨
      indexLength % 8 ≠ 0 ∨ allocatedSize % 8 ≠ 0 ∨ indexLength < entriesOffset ∨
      entriesOffset % 8 ≠ 0 ∨ entriesOffset ≠ 16 ∨ allocatedSize < indexLength ∨
      attrValueLength m a < allocatedSize + 13 ∨ le32 m (ir + 8) ≠ vol.indxRecordSize

instance (m : Bytes) : Decidable (indexRootBad vol isFsck a m) := by
  unfold indexRootBad
  infer_instance

/-- The checks by type: of the attributes that are well known. -/
def typeCheck (s : Checked) : Option Checked :=
  let type := attrType s.m a
  let nonResident := attrNonResident s.m a ≠ 0
  if type = atFileName then
    checkFileName vol fsck a s
  else if type = atIndexRoot then
    if indexRootBad vol isFsck a s.m then none else some s
  else if type = 0x10 then
    checkStandardInformation vol isFsck fsck a s
  else if type = 0x40 ∧ (nonResident ∨ attrValueLength s.m a < 16) then
    none
  else if (type = 0x60 ∨ type = 0xd0) ∧ nonResident then
    none
  else if type = 0x70 ∧ (nonResident ∨ attrValueLength s.m a < 12) then
    none
  else if type = 0xa0 ∧ ¬nonResident then
    none
  else
    some s

/-- `ntfs_attr_inconsistent`: none if the attribute is refused. -/
def attrInconsistent (s : Checked) : Option Checked :=
  (if attrNonResident s.m a ≠ 0 then
    if nonResidentOk s.m a then some s else none
  else
    residentCheck vol fsck a s).bind (typeCheck vol isFsck fsck a)

end Inconsistent

section Check

variable (vol : CheckVolume) (fsck : Bool)

/-- What the walk has seen of the attributes. -/
structure Seen where
  i30Index : Bool
  unnamedData : Bool
  attr : Bool
  maxAttrInstance : Nat

/-- `ntfs_mft_attr_is_i30_index`. -/
def attrIsI30Index (m : Bytes) (a : Nat) : Bool :=
  (attrType m a == 0x90 || attrType m a == 0xa0 || attrType m a == 0xb0) &&
    attrNameLength m a == 4 &&
    bytesAt m (a + attrNameOffset m a) 8 == [0x24, 0, 0x49, 0, 0x33, 0, 0x30, 0]

/-- What the walk remembers of one attribute. -/
def Seen.add (seen : Seen) (m : Bytes) (a : Nat) : Seen where
  i30Index := seen.i30Index || attrIsI30Index m a
  unnamedData := seen.unnamedData ||
    (!attrIsI30Index m a && attrType m a == 0x80 && attrNameLength m a == 0)
  attr := true
  maxAttrInstance := max seen.maxAttrInstance (attrInstance m a)

/-- The loop over the attributes: where it stops, and what it has seen. -/
def attrsLoop : Nat → Nat → Int → Seen → Checked → Option (Nat × Seen × Checked)
  | 0, _, _, _, _ => none
  | fuel + 1, offset, space, seen, s =>
    if space ≥ residentEnd ∧ attrType s.m offset ≠ atEnd then
      if !isValidAttrType s.m offset then
        attrsLoop fuel (offset + 4) (space - 4) seen s
      else if (attrLength s.m offset : Int) ≤ space ∧ attrLength s.m offset % 8 = 0 then
        (attrInconsistent vol fsck fsck offset s).bind fun s =>
          attrsLoop fuel (offset + attrLength s.m offset)
            (space - attrLength s.m offset) (seen.add s.m offset) s
      else
        none
    else
      some (offset, seen, s)

/-- The flags a record should have, from the attributes seen. -/
def expectedFlags (seen : Seen) (flags : Nat) : Nat :=
  let kept := flags &&& 0x1 ||| flags &&& (0x4 ||| 0x8)
  let directory :=
    if seen.i30Index then 0x2 else if seen.unnamedData then 0 else flags &&& 0x2
  (kept ||| directory) &&& 0xf

/-- The repair of the flags at `AT_END`. -/
def fixFlags (seen : Seen) (s : Checked) : Checked :=
  let flags := le16 s.m 22
  if vol.fsck ∧ ¬vol.noRepair ∧ flags ≠ expectedFlags seen flags ∧
      (seen.i30Index ∨ seen.unnamedData ∨ flags / 16 ≠ 0) then
    ⟨patch s.m 22 (leBytes 2 (expectedFlags seen flags)), true⟩
  else
    s

/-- The next instance a record should have, from the attributes seen. -/
def expectedNextInstance (seen : Seen) : Nat :=
  if seen.attr then (seen.maxAttrInstance + 1) % 65536 else 0

/-- The repair of the next instance at `AT_END`. -/
def fixNextInstance (mref : Nat) (seen : Seen) (s : Checked) : Checked :=
  if vol.fsck ∧ ¬vol.noRepair ∧ (1 < mref % 2 ^ 48 ∨ vol.mirrOpen) ∧
      nextAttrInstance s.m ≤ seen.maxAttrInstance ∧
      nextAttrInstance s.m ≠ expectedNextInstance seen then
    ⟨patch s.m 40 (leBytes 2 (expectedNextInstance seen)), true⟩
  else
    s

/-- What follows the walk. -/
def checkEnd (mref biu offset : Nat) (biuNeedsFix : Bool) (seen : Seen) (s : Checked) :
    Option Checked :=
  if attrType s.m offset = atEnd then
    let s := fixNextInstance vol mref seen (fixFlags vol seen s)
    if biuNeedsFix ∨ biu ≠ offset + 8 then
      if vol.fix .mftBiuCorrupted 0 then
        some ⟨setBytesInUse s.m (offset + 8), true⟩
      else
        none
    else
      some s
  else
    some s

/-- The checks of the start of the attributes, and then of the attributes. -/
def checkAttrs (mref fuel biu : Nat) (biuNeedsFix : Bool) (s : Checked) : Option Checked :=
  (repairOrFail fsck (vol.fix .mftAttrOffsetCorrupted 0) (attrsOffset s.m % 8 ≠ 0)
    (fun m => patch m 20 (leBytes 2 ((attrsOffset m + 7) / 8 * 8))) s).bind fun s =>
  let offset := attrsOffset s.m
  if offset < (usaOfs s.m + usaCount s.m * 2 + 7) / 8 * 8 then
    none
  else if vol.mftRecordSize < offset then
    none
  else if vol.noFixupWarn then
    some s
  else
    (attrsLoop vol fsck fuel offset (vol.mftRecordSize - offset) ⟨false, false, false, 0⟩
      s).bind fun r => checkEnd vol mref biu r.1 biuNeedsFix r.2.1 r.2.2

/-- `magic_FILE`. -/
def magicFile : Nat := 0x454c4946

/-- The checks of the header, and then of the attributes. -/
def checkHeader (mref fuel : Nat) (m : Bytes) : Option Checked :=
  (repairOrFail (fsck && le32 m 0 != magicBaad) (vol.fix .mftMagicCorrupted 0)
    (le32 m 0 ≠ magicFile) (fun m => patch m 0 (leBytes 4 magicFile)) ⟨m, false⟩).bind
  fun s =>
  (repairOrFail fsck (vol.fix .mftSizeCorrupted 0) (bytesAllocated s.m ≠ vol.mftRecordSize)
    (fun m => patch m 28 (leBytes 4 vol.mftRecordSize)) s).bind
  fun s =>
  let biu := bytesInUse s.m
  if biu % 8 ≠ 0 ∧ fsck = false then
    none
  else if vol.noFixupWarn = false ∧ fsck = false ∧ vol.mftRecordSize < biu then
    none
  else if biu % 8 ≠ 0 then
    checkAttrs vol fsck mref fuel (roundUp8 biu) true s
  else
    checkAttrs vol fsck mref fuel biu false s

/--
`ntfs_mft_record_check`, with a bound on the passes of its loop: the record and
whether it was repaired, or none if it is refused.
-/
def mftRecordCheck (mref fuel : Nat) (m : Bytes) : Option Checked :=
  -- the first two records are checked as outside of fsck
  (checkHeader vol (vol.fsck && decide (1 < mref)) mref fuel m).bind fun s =>
    if s.fixed && !vol.writeOk then none else some s

end Check

section Find

/-- How an enumerating call of `ntfs_attr_find` ends. -/
inductive EnumStep where
  | found
  | failed (err : Errno)
deriving DecidableEq, Repr

/-- Bytes of the record that are read: where and how many. -/
abbrev Reads := List (Nat × Nat)

/--
One pass of `ntfs_attr_find` for `AT_UNUSED` at an attribute, with what it reads
in the order of the evaluation.
-/
def attrFindAt (m : Bytes) (a : Nat) : EnumStep × Reads :=
  let space : Int := bytesInUse m - a
  let reads : Reads := [(24, 4)]
  let (short, reads) : Bool × Reads :=
    if space < residentEnd then (true, reads)
    else (decide (space < attrLength m a), reads ++ [(a + 4, 4)])
  let (outside, reads) : Bool × Reads :=
    if short then
      if space < 4 then (true, reads)
      else (decide (attrType m a ≠ atEnd), reads ++ [(a, 4)])
    else
      (false, reads)
  if outside then
    (.failed .eio, reads)
  else if attrType m a = atEnd then
    (.failed .enoent, reads ++ [(a, 4)])
  else if attrLength m a = 0 then
    (.failed .eio, reads ++ [(a, 4), (a + 4, 4)])
  else
    (.found, reads ++ [(a, 4), (a + 4, 4)])

/-- The attributes an enumeration returns, the error at its end and its reads. -/
structure Enumeration where
  attrs : List Nat
  err : Errno
  reads : Reads

/-- Calls of `ntfs_attr_find` until one fails, at most `fuel` of them. -/
def attrEnumerate (m : Bytes) : Nat → Nat → Option Enumeration
  | 0, _ => none
  | fuel + 1, a =>
    match attrFindAt m a with
    | (.failed err, reads) => some ⟨[], err, reads⟩
    | (.found, reads) =>
      (attrEnumerate m fuel (a + attrLength m a)).map fun e =>
        ⟨a :: e.attrs, e.err, reads ++ (a + 4, 4) :: e.reads⟩

end Find

section AsIs

/-- A step that accepts without a repair has changed nothing and found nothing. -/
theorem repairOrFail_asIs
    {fsck fix : Bool} {bad : Prop} [Decidable bad] {repair : Bytes → Bytes} {s s' : Checked}
    (h : repairOrFail fsck fix bad repair s = some s')
    (hs : s'.fixed = false) :
    s' = s ∧ ¬bad := by
  unfold repairOrFail at h
  split_ifs at h with hbad hfix
  · cases h
    cases hs
  · exact ⟨(Option.some.inj h).symm, hbad⟩

variable {vol : CheckVolume} {isFsck fsck : Bool} {a : Nat} {s s' : Checked}

/-- A resident attribute that passes as it is holds its own header. -/
theorem residentCheck_asIs
    (h : residentCheck vol fsck a s = some s')
    (hs : s'.fixed = false) :
    s' = s ∧ residentEnd ≤ attrLength s.m a := by
  unfold residentCheck at h
  split_ifs at h
  obtain ⟨s1, h1, h⟩ := Option.bind_eq_some_iff.mp h
  obtain ⟨s2, h2, h⟩ := Option.bind_eq_some_iff.mp h
  obtain ⟨s3, h3, h⟩ := Option.bind_eq_some_iff.mp h
  split_ifs at h
  -- the last step that accepts was not a repair, so none before it was
  obtain ⟨rfl, hbad⟩ := repairOrFail_asIs h hs
  obtain ⟨rfl, _⟩ := repairOrFail_asIs h3 hs
  obtain ⟨rfl, _⟩ := repairOrFail_asIs h2 hs
  obtain ⟨rfl, _⟩ := repairOrFail_asIs h1 hs
  exact ⟨rfl, Nat.le_of_not_lt (not_or.mp hbad).2⟩

theorem checkStandardInformation_asIs
    (h : checkStandardInformation vol isFsck fsck a s = some s')
    (hs : s'.fixed = false) :
    s' = s := by
  unfold checkStandardInformation at h
  split_ifs at h
  · exact (Option.some.inj h).symm
  · cases h
    cases hs
  · exact (Option.some.inj h).symm

theorem checkFileName_asIs
    (h : checkFileName vol fsck a s = some s')
    (hs : s'.fixed = false) :
    s' = s := by
  unfold checkFileName at h
  dsimp only at h
  split_ifs at h
  · exact (Option.some.inj h).symm
  · cases h
    cases hs
  · exact (Option.some.inj h).symm

/-- A check that fixes nothing leaves the record as it is. -/
theorem typeCheck_asIs
    (h : typeCheck vol isFsck fsck a s = some s')
    (hs : s'.fixed = false) :
    s' = s := by
  unfold typeCheck at h
  dsimp only at h
  split_ifs at h
  · exact checkFileName_asIs h hs
  · exact (Option.some.inj h).symm
  · exact checkStandardInformation_asIs h hs
  · exact (Option.some.inj h).symm

theorem attrInconsistent_asIs
    (h : attrInconsistent vol isFsck fsck a s = some s')
    (hs : s'.fixed = false) :
    s' = s ∧ residentEnd ≤ attrLength s.m a := by
  obtain ⟨s1, h1, h2⟩ := Option.bind_eq_some_iff.mp h
  have heq := typeCheck_asIs h2 hs
  subst heq
  split_ifs at h1 with hres hok
  · have hlen := hok.2.1
    refine ⟨(Option.some.inj h1).symm, ?_⟩
    simp only [nonResidentEnd, residentEnd] at hlen ⊢
    omega
  · exact residentCheck_asIs h1 hs

variable {fuel mref : Nat} {seen : Seen}

/-- So does the loop over the attributes. -/
theorem attrsLoop_asIs
    {offset o : Nat} {space : Int} {seen' : Seen}
    (h : attrsLoop vol fsck fuel offset space seen s = some (o, seen', s'))
    (hs : s'.fixed = false) :
    s' = s := by
  induction fuel generalizing offset space seen s with
  | zero => cases h
  | succ fuel ih =>
    rw [attrsLoop] at h
    split_ifs at h
    · exact ih h
    · obtain ⟨s1, h1, h2⟩ := Option.bind_eq_some_iff.mp h
      obtain rfl := ih h2
      exact (attrInconsistent_asIs h1 hs).1
    · simp only [Option.some.injEq, Prod.mk.injEq] at h
      exact h.2.2.symm

theorem fixFlags_asIs
    (hs : (fixFlags vol seen s).fixed = false) :
    fixFlags vol seen s = s := by
  unfold fixFlags at hs ⊢
  dsimp only at hs ⊢
  split_ifs at hs ⊢
  rfl

theorem fixNextInstance_asIs
    (hs : (fixNextInstance vol mref seen s).fixed = false) :
    fixNextInstance vol mref seen s = s := by
  unfold fixNextInstance at hs ⊢
  split_ifs at hs ⊢
  rfl

theorem checkEnd_asIs
    {biu offset : Nat} {biuNeedsFix : Bool}
    (h : checkEnd vol mref biu offset biuNeedsFix seen s = some s')
    (hs : s'.fixed = false) :
    s' = s ∧ (attrType s.m offset = atEnd → biu = offset + 8 ∧ biuNeedsFix = false) := by
  unfold checkEnd at h
  split_ifs at h with hend hbiu hfix
  · cases h
    cases hs
  · have heq := Option.some.inj h
    rw [← heq] at hs
    have hnext := fixNextInstance_asIs hs
    rw [hnext] at hs heq
    rw [fixFlags_asIs hs] at heq
    rw [not_or, Bool.not_eq_true, not_not] at hbiu
    exact ⟨heq.symm, fun _ => ⟨hbiu.2, hbiu.1⟩⟩
  · exact ⟨(Option.some.inj h).symm, fun hcon => absurd hcon hend⟩

/-- A record that passes as it is: where the walk over it stopped. -/
theorem checkAttrs_asIs
    {biu : Nat} {biuNeedsFix : Bool}
    (hwarn : vol.noFixupWarn = false)
    (h : checkAttrs vol fsck mref fuel biu biuNeedsFix s = some s')
    (hs : s'.fixed = false) :
    s' = s ∧ ∃ o seen,
      attrsLoop vol fsck fuel (attrsOffset s.m) (vol.mftRecordSize - attrsOffset s.m)
        ⟨false, false, false, 0⟩ s = some (o, seen, s) ∧
      (attrType s.m o = atEnd → biu = o + 8 ∧ biuNeedsFix = false) := by
  obtain ⟨s1, h1, h⟩ := Option.bind_eq_some_iff.mp h
  dsimp only at h
  simp only [hwarn, Bool.false_eq_true, if_false] at h
  split_ifs at h
  obtain ⟨⟨o, seen, s2⟩, h2, h3⟩ := Option.bind_eq_some_iff.mp h
  obtain ⟨rfl, hend⟩ := checkEnd_asIs h3 hs
  obtain rfl := attrsLoop_asIs h2 hs
  obtain ⟨rfl, _⟩ := repairOrFail_asIs h1 hs
  exact ⟨rfl, o, seen, h2, hend⟩

/-- What a check without any fix has seen. -/
theorem mftRecordCheck_asIs
    {m : Bytes}
    (hwarn : vol.noFixupWarn = false)
    (h : mftRecordCheck vol mref fuel m = some s)
    (hs : s.fixed = false) :
    ∃ fsck o seen, attrsLoop vol fsck fuel (attrsOffset m) (vol.mftRecordSize - attrsOffset m)
        ⟨false, false, false, 0⟩ ⟨m, false⟩ = some (o, seen, ⟨m, false⟩) ∧
      (attrType m o = atEnd → bytesInUse m = o + 8) := by
  obtain ⟨s3, hheader, hwrite⟩ := Option.bind_eq_some_iff.mp h
  split_ifs at hwrite
  cases hwrite
  obtain ⟨s1, h1, h⟩ := Option.bind_eq_some_iff.mp hheader
  obtain ⟨s2, h2, h⟩ := Option.bind_eq_some_iff.mp h
  dsimp only at h
  split_ifs at h
  · obtain ⟨rfl, o, seen, hloop, hend⟩ := checkAttrs_asIs hwarn h hs
    obtain ⟨rfl, _⟩ := repairOrFail_asIs h2 hs
    obtain ⟨rfl, _⟩ := repairOrFail_asIs h1 hs
    -- a size that was rounded up is never accepted at an end marker
    exact ⟨_, o, seen, hloop, fun hcon => absurd (hend hcon).2 (by simp)⟩
  · obtain ⟨rfl, o, seen, hloop, hend⟩ := checkAttrs_asIs hwarn h hs
    obtain ⟨rfl, _⟩ := repairOrFail_asIs h2 hs
    obtain ⟨rfl, _⟩ := repairOrFail_asIs h1 hs
    exact ⟨_, o, seen, hloop, fun hcon => (hend hcon).1⟩

end AsIs

section Walk

variable {size : Nat} {m : Bytes}

/--
A walk over the record from an offset that meets only attributes of a known
type, each with its header inside the record, and stops at an `AT_END` inside the
record.
-/
inductive CleanWalk (size : Nat) (m : Bytes) : Nat → Prop where
  | stop (offset : Nat) (inside : offset + 8 ≤ size) (isEnd : attrType m offset = atEnd) :
      CleanWalk size m offset
  | attr (offset : Nat) (inside : offset + residentEnd ≤ size)
      (valid : isValidAttrType m offset = true) (notEnd : attrType m offset ≠ atEnd)
      (rest : CleanWalk size m (offset + attrLength m offset)) :
      CleanWalk size m offset

/--
The attributes from an offset on up to an `AT_END`: each is of a known type, and
its length is a positive multiple of 8 bytes and leads to the next.
-/
inductive AttrChain (m : Bytes) : Nat → List Nat → Nat → Prop where
  | nil (e : Nat) (isEnd : attrType m e = atEnd) : AttrChain m e [] e
  | cons (a : Nat) (l : List Nat) (e : Nat)
      (valid : isValidAttrType m a = true) (notEnd : attrType m a ≠ atEnd)
      (positive : 0 < attrLength m a) (aligned : attrLength m a % 8 = 0)
      (rest : AttrChain m (a + attrLength m a) l e) :
      AttrChain m a (a :: l) e

/--
The attributes of a record form a chain to an `AT_END` in the used part, and an
enumeration returns exactly them and reads only in the record.
-/
def Enumerates (size : Nat) (m : Bytes) : Prop :=
  ∃ l e fuel reads, AttrChain m (attrsOffset m) l e ∧ e + 8 ≤ bytesInUse m ∧ bytesInUse m ≤ size ∧
      attrEnumerate m fuel (attrsOffset m) = some ⟨l, .enoent, reads⟩ ∧
      ∀ r ∈ reads, r.1 + r.2 ≤ size

variable {a e : Nat} {l : List Nat}

theorem AttrChain.le
    (h : AttrChain m a l e) :
    a ≤ e := by
  induction h with
  | nil e isEnd => exact le_refl e
  | cons a l e valid notEnd positive aligned rest ih => omega

theorem AttrChain.isEnd
    (h : AttrChain m a l e) :
    attrType m e = atEnd := by
  induction h with
  | nil e isEnd => exact isEnd
  | cons a l e valid notEnd positive aligned rest ih => exact ih

/-- A clean walk that the check has made is along a chain of attributes. -/
theorem attrsLoop_chain
    {vol : CheckVolume} {fsck : Bool} {fuel offset o : Nat} {space : Int} {seen seen' : Seen}
    (hwalk : CleanWalk size m offset)
    (hspace : space = size - offset)
    (h : attrsLoop vol fsck fuel offset space seen ⟨m, false⟩ = some (o, seen', ⟨m, false⟩)) :
    ∃ l, AttrChain m offset l o ∧ o + 8 ≤ size ∧ ∀ a ∈ l, residentEnd ≤ attrLength m a := by
  induction hwalk generalizing fuel space seen with
  | stop offset inside isEnd =>
    cases fuel with
    | zero => exact absurd h (by simp [attrsLoop])
    | succ fuel =>
      rw [attrsLoop, if_neg (fun hcon => hcon.2 isEnd)] at h
      simp only [Option.some.injEq, Prod.mk.injEq] at h
      obtain ⟨rfl, _⟩ := h
      exact ⟨[], .nil offset isEnd, inside, by simp⟩
  | attr offset inside valid notEnd rest ih =>
    cases fuel with
    | zero => exact absurd h (by simp [attrsLoop])
    | succ fuel =>
      have hguard : space ≥ residentEnd ∧ attrType m offset ≠ atEnd :=
        ⟨by omega, notEnd⟩
      rw [attrsLoop, if_pos hguard, if_neg (by simp [valid])] at h
      split at h
      · rename_i hlen
        obtain ⟨s1, h1, h2⟩ := Option.bind_eq_some_iff.mp h
        have heq := attrsLoop_asIs h2 rfl
        subst heq
        have hheader := (attrInconsistent_asIs h1 rfl).2
        obtain ⟨l, hchain, hend, hall⟩ := ih (by push_cast; omega) h2
        have hpos : 0 < attrLength m offset := by
          simp only [residentEnd] at hheader
          omega
        refine ⟨offset :: l, .cons offset l o valid notEnd hpos hlen.2 hchain, hend, ?_⟩
        intro a ha
        rcases List.mem_cons.mp ha with rfl | ha
        · exact hheader
        · exact hall a ha
      · cases h

theorem attrFindAt_end
    (hend : attrType m e = atEnd)
    (hbiu : bytesInUse m = e + 8) :
    attrFindAt m e = (.failed .enoent, [(24, 4), (e, 4), (e, 4)]) := by
  have hshort : (bytesInUse m : Int) - e < residentEnd := by
    simp only [residentEnd]
    omega
  have hfour : ¬(bytesInUse m : Int) - e < 4 := by
    omega
  simp [attrFindAt, hshort, hfour, hend]

/-- The search accepts an attribute in front of the end. -/
theorem attrFindAt_attr
    (htype : attrType m a ≠ atEnd)
    (hlen : residentEnd ≤ attrLength m a)
    (hbiu : a + attrLength m a ≤ bytesInUse m) :
    attrFindAt m a = (.found, [(24, 4), (a + 4, 4), (a, 4), (a + 4, 4)]) := by
  simp only [residentEnd] at hlen
  have hshort : ¬(bytesInUse m : Int) - a < residentEnd := by
    simp only [residentEnd]
    omega
  have hfits : ¬(bytesInUse m : Int) - a < attrLength m a := by omega
  have hzero : attrLength m a ≠ 0 := by omega
  simp [attrFindAt, hshort, hfits, htype, hzero]

theorem attrFindAt_found
    {reads : Reads}
    (h : attrFindAt m a = (.found, reads)) :
    a + residentEnd ≤ bytesInUse m := by
  by_contra hcon
  have hshort : (bytesInUse m : Int) - a < residentEnd := by omega
  by_cases hfour : (bytesInUse m : Int) - a < 4
  · simp [attrFindAt, hshort, hfour] at h
  · by_cases hend : attrType m a = atEnd
    · simp [attrFindAt, hshort, hfour, hend] at h
    · simp [attrFindAt, hshort, hfour, hend] at h

/-- An enumeration of a chain returns the chain and stays before its end. -/
theorem AttrChain.enumerate
    (h : AttrChain m a l e)
    (hlens : ∀ b ∈ l, residentEnd ≤ attrLength m b)
    (hbiu : bytesInUse m = e + 8) :
    ∃ reads, attrEnumerate m (l.length + 1) a = some ⟨l, .enoent, reads⟩ ∧
      ∀ r ∈ reads, r.1 + r.2 ≤ max 28 (e + 8) := by
  induction h with
  | nil e isEnd =>
    refine ⟨[(24, 4), (e, 4), (e, 4)], ?_, ?_⟩
    · rw [attrEnumerate, attrFindAt_end isEnd hbiu]
    · intro r hr
      simp only [List.mem_cons, List.not_mem_nil, or_false] at hr
      rcases hr with rfl | rfl | rfl
      all_goals
        omega
  | cons a l e valid notEnd positive aligned rest ih =>
    obtain ⟨reads, hrest, hreads⟩ := ih (fun b hb => hlens b (by simp [hb])) hbiu
    have hlen := hlens a (by simp)
    have hle := rest.le
    refine ⟨[(24, 4), (a + 4, 4), (a, 4), (a + 4, 4)] ++ (a + 4, 4) :: reads, ?_, ?_⟩
    · rw [attrEnumerate, attrFindAt_attr notEnd hlen (by omega)]
      simp [hrest]
    · intro r hr
      rcases List.mem_append.mp hr with hr | hr
      · simp only [List.mem_cons, List.not_mem_nil, or_false] at hr
        rcases hr with rfl | rfl | rfl | rfl
        all_goals
          omega
      · rcases List.mem_cons.mp hr with rfl | hr
        · omega
        · exact hreads r hr

/-- A chain that an enumeration returns in full can be walked cleanly. -/
theorem AttrChain.cleanWalk
    {fuel : Nat} {err : Errno} {reads : Reads}
    (h : AttrChain m a l e)
    (hend : e + 8 ≤ bytesInUse m)
    (hbiu : bytesInUse m ≤ size)
    (henum : attrEnumerate m fuel a = some ⟨l, err, reads⟩) :
    CleanWalk size m a := by
  induction h generalizing fuel reads with
  | nil e isEnd => exact .stop e (by omega) isEnd
  | cons a l e valid notEnd positive aligned rest ih =>
    cases fuel with
    | zero => exact absurd henum (by simp [attrEnumerate])
    | succ fuel =>
      rw [attrEnumerate] at henum
      rcases hfind : attrFindAt m a with ⟨res, here⟩
      rw [hfind] at henum
      cases res with
      | failed err => simp at henum
      | found =>
        have hheader := attrFindAt_found hfind
        obtain ⟨⟨attrs, err', reads'⟩, hrest, heq⟩ := Option.map_eq_some_iff.mp henum
        obtain ⟨rfl, rfl, _⟩ := heq
        exact .attr a (by omega) valid notEnd (ih hend hrest)

/--
A record that the check accepts as it is: its attributes are a chain to an
`AT_END` in the used part that an enumeration returns, exactly when the walk of
the check over the record meets nothing but attributes and stops at an `AT_END`
inside the record.
-/
theorem mftRecordCheck_enumerates_iff
    (vol : CheckVolume)
    (mref fuel : Nat)
    (m : Bytes)
    (s : Checked)
    (hwarn : vol.noFixupWarn = false)
    (haccept : mftRecordCheck vol mref fuel m = some s)
    (hfixed : s.fixed = false) :
    Enumerates vol.mftRecordSize m ↔ CleanWalk vol.mftRecordSize m (attrsOffset m) := by
  constructor
  · rintro ⟨l, e, fuel', reads, hchain, hend, hbiu, henum, _⟩
    exact hchain.cleanWalk hend hbiu henum
  · intro hwalk
    obtain ⟨fsck, o, seen, hloop, hend⟩ := mftRecordCheck_asIs hwarn haccept hfixed
    obtain ⟨l, hchain, hinside, hlens⟩ := attrsLoop_chain hwalk rfl hloop
    have hbiu : bytesInUse m = o + 8 := hend hchain.isEnd
    obtain ⟨reads, henum, hreads⟩ := hchain.enumerate hlens hbiu
    have hmod := vol.mftRecordSize_mod
    refine ⟨l, o, l.length + 1, reads, hchain, by omega, by omega, henum, ?_⟩
    intro r hr
    have hbound := hreads r hr
    simp only [ntfsBlockSize] at hmod
    omega

/-- A volume that is mounted outside of fsck, with records of 1 KiB. -/
def mountedVolume : CheckVolume where
  mftRecordSize := 1024
  indxRecordSize := 4096
  fsck := false
  noFixupWarn := false
  noRepair := false
  mirrOpen := true
  fix := fun _ _ => false
  writeOk := true
  mftRecordSize_mod := rfl

/-- The header of a record whose attributes start at 56. -/
def recordHeader (bytesInUse : Nat) : Bytes :=
  patches (fun _ => 0) 0
    [(0, leBytes 4 magicFile), (4, leBytes 2 48), (6, leBytes 2 3), (20, leBytes 2 56),
      (22, leBytes 2 1), (24, leBytes 4 bytesInUse), (28, leBytes 4 1024), (40, leBytes 2 1)]

/-- A record with an empty `$DATA` attribute. -/
def emptyDataRecord : Bytes :=
  patches (recordHeader 88) 56
    [(0, leBytes 4 0x80), (4, leBytes 4 24), (20, leBytes 2 24), (24, leBytes 4 atEnd)]

/-- A record with one attribute is enumerated. -/
theorem mftRecordCheck_enumerates_iff_data : Enumerates 1024 emptyDataRecord :=
  (mftRecordCheck_enumerates_iff mountedVolume 24 2 emptyDataRecord ⟨emptyDataRecord, false⟩
    rfl rfl rfl).mpr
    (.attr 56 (by decide) (by decide +kernel) (by decide +kernel)
      (.stop 80 (by decide) (by decide +kernel)))

/--
A record with nothing behind its header is accepted as it is, but it has no end
marker, and the enumeration fails with `EIO`.
-/
theorem mftRecordCheck_accepts_no_end :
    (mftRecordCheck mountedVolume 24 250 (recordHeader 88)).map Checked.fixed = some false ∧
      (attrEnumerate (recordHeader 88) 1 56).map Enumeration.err = some .eio ∧
      ¬Enumerates 1024 (recordHeader 88) := by
  refine ⟨by decide +kernel, by decide +kernel, ?_⟩
  rintro ⟨l, e, fuel, reads, hchain, _⟩
  have hvalid : isValidAttrType (recordHeader 88) (attrsOffset (recordHeader 88)) = false := by
    decide +kernel
  have hend : attrType (recordHeader 88) (attrsOffset (recordHeader 88)) ≠ atEnd := by
    decide +kernel
  cases hchain with
  | nil _ isEnd => exact hend isEnd
  | cons _ l _ valid notEnd positive aligned rest =>
    rw [hvalid] at valid
    exact absurd valid (by simp)

end Walk

end NtfsPlus.Libntfs

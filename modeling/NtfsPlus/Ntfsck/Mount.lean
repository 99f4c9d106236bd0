import Mathlib.Tactic

/-!
# What mounting a volume for fsck writes

`ntfs_fsck_mount` repairs what keeps it from mounting: the boot sector from an
alternate one, records of `$MFT` and `$MFTMirr` from each other, `$UpCase`,
`$AttrDef`, a non-resident `$TXF_DATA`, and any system record that
`ntfs_mft_record_check` can repair when it is read.  All this comes before
`ntfsck` looks for a hibernated Windows and before it marks the volume dirty.

The steps of a mount are a list, each with what it meets on the device and the
answers of the operator; a step that fails ends the mount.
`mount_writes_nil_iff`: a mount writes nothing exactly when no step that it gets
to repairs anything.
-/

namespace NtfsPlus.Ntfsck

section Outcome

/-- What a mount writes to the device. -/
inductive MountWrite where
  | bootSector
  | mftRecord (no : Nat)
  | mftMirrRecord (no : Nat)
  | repairedRecord (no : Nat)
  | upCase
  | attrDef
  | txfData
deriving DecidableEq, Repr

/-- How far a mount has come. -/
inductive MountStatus where
  | mounted
  /-- `EOPNOTSUPP`: there is no valid boot sector. -/
  | unsupported
  | failed
deriving DecidableEq, Repr

/-- What a part of a mount does: `fsck_errors` and `fsck_fixes` go up. -/
structure Outcome where
  status : MountStatus
  writes : List MountWrite
  errors : Nat
  fixes : Nat
deriving DecidableEq, Repr

/-- Go on, with some writes and counts. -/
def Outcome.goOn (writes : List MountWrite) (errors fixes : Nat) : Outcome :=
  ⟨.mounted, writes, errors, fixes⟩

def Outcome.fail : Outcome :=
  ⟨.failed, [], 0, 0⟩

/-- Go on if a load succeeds. -/
def Outcome.loads (ok : Bool) : Outcome :=
  if ok then .goOn [] 0 0 else .fail

/-- One part after the other. -/
def Outcome.andThen (o o' : Outcome) : Outcome :=
  if o.status = .mounted then
    ⟨o'.status, o.writes ++ o'.writes, o.errors + o'.errors, o.fixes + o'.fixes⟩
  else
    o

variable (o o' : Outcome) (writes : List MountWrite) (errors fixes : Nat) (ok : Bool)

theorem Outcome.andThen_writes :
    (o.andThen o').writes = [] ↔ o.writes = [] ∧ (o.status = .mounted → o'.writes = []) := by
  unfold Outcome.andThen
  by_cases h : o.status = .mounted
  · simp [h]
  · simp [h]

theorem Outcome.andThen_mounted :
    (o.andThen o').status = .mounted ↔ o.status = .mounted ∧ o'.status = .mounted := by
  unfold Outcome.andThen
  by_cases h : o.status = .mounted
  · simp [h]
  · simp [h]

@[simp] theorem Outcome.goOn_writes : (Outcome.goOn writes errors fixes).writes = writes := by
  simp [Outcome.goOn]

@[simp] theorem Outcome.goOn_status : (Outcome.goOn writes errors fixes).status = .mounted := by
  simp [Outcome.goOn]

@[simp] theorem Outcome.fail_writes : Outcome.fail.writes = [] := by
  simp [Outcome.fail]

@[simp] theorem Outcome.fail_status : Outcome.fail.status = .failed := by
  simp [Outcome.fail]

@[simp] theorem Outcome.loads_writes : (Outcome.loads ok).writes = [] := by
  cases ok <;> simp [Outcome.loads]

@[simp] theorem Outcome.loads_mounted : (Outcome.loads ok).status = .mounted ↔ ok = true := by
  cases ok <;> simp [Outcome.loads]

end Outcome

section Steps

/-- An alternate boot sector, as `ntfsck_fix_boot_sector` meets it. -/
structure AltBoot where
  readOk : Bool
  /-- With the right sector size, `ntfs_boot_sector_is_ntfs` and parseable. -/
  usable : Bool
  writeOk : Bool

/-- The boot sector, as `ntfsck_verify_boot_sector` meets it. -/
structure BootAnswers where
  readOk : Bool
  jumpOk : Bool
  /-- `ntfs_boot_sector_is_ntfs` and parseable. -/
  valid : Bool
  fix : Bool
  actualSectors : Int
  shownSectors : Int
  /-- By the sector to read and the sector count to set. -/
  alt : Int → Int → AltBoot

/-- `ntfsck_fix_boot_sector`: whether it rewrites the boot sector. -/
def fixBootSector (a : AltBoot) : Bool :=
  a.readOk && a.usable && a.writeOk

/-- The alternate boot sectors that are tried, in order. -/
def BootAnswers.rewrites (b : BootAnswers) : Bool :=
  (decide (0 < b.actualSectors) && fixBootSector (b.alt b.actualSectors b.actualSectors)) ||
    (decide (0 < b.shownSectors) && decide (b.shownSectors < b.actualSectors) &&
      fixBootSector (b.alt b.shownSectors b.shownSectors)) ||
    (decide (b.actualSectors < b.shownSectors) && fixBootSector (b.alt 0 b.actualSectors))

/-- `ntfsck_verify_boot_sector`. -/
def verifyBootSector (b : BootAnswers) : Outcome :=
  if !b.readOk || !b.jumpOk then
    ⟨.unsupported, [], 0, 0⟩
  else if b.valid then
    .goOn [] 0 0
  else if b.fix && b.rewrites then
    .goOn [.bootSector] 1 1
  else
    ⟨.unsupported, [], 1, 0⟩

/-- `ntfs_mft_record_check` of a record: it may repair the record and write it. -/
structure RecordCheck where
  ok : Bool
  wrote : Bool
  errors : Nat
  fixes : Nat

/-- What a record check writes. -/
def RecordCheck.writes (c : RecordCheck) (no : Nat) : List MountWrite :=
  if c.wrote then [.repairedRecord no] else []

/-- Go on after a record check, whatever its result. -/
def RecordCheck.note (c : RecordCheck) (no : Nat) : Outcome :=
  .goOn (c.writes no) c.errors c.fixes

/-- Go on if the record can be used. -/
def RecordCheck.outcome (c : RecordCheck) (no : Nat) : Outcome :=
  (c.note no).andThen (.loads c.ok)

/-- Loading `$MFT` or `$MFTMirr`, once more after a recovery. -/
structure LoadAnswers where
  first : RecordCheck
  fix : Bool
  readOk : Bool
  mirrCheck : RecordCheck
  writeOk : Bool
  again : RecordCheck

/-- `ntfs_recover_mft_from_mftmirr`. -/
def recoverMftFromMftmirr (no : Nat) (l : LoadAnswers) : Outcome :=
  (Outcome.loads l.readOk).andThen ((l.mirrCheck.outcome no).andThen
      (if l.writeOk then .goOn [.mftRecord no] 0 0 else .fail))

/-- The load of a record of `$MFT` that is recovered from the mirror once. -/
def loadRecord (no : Nat) (l : LoadAnswers) : Outcome :=
  if l.first.ok then
    l.first.note no
  else
    ((l.first.note no).andThen (.goOn [] 1 0)).andThen
      (if l.fix then
        (recoverMftFromMftmirr no l).andThen ((Outcome.goOn [] 0 1).andThen (l.again.outcome no))
      else
        .fail)

/-- A record of `$MFT` and its copy in `$MFTMirr`. -/
structure MirrorAnswers where
  mftCheck : RecordCheck
  mirrCheck : RecordCheck
  same : Bool
  /-- `ntfs_mftmirr_semantic_valid` of the record and of its copy. -/
  mftSemantic : Bool
  mirrSemantic : Bool
  /-- The answer for `PR_MOUNT_REPAIRED_MFTMIRR_CORRUPTED`. -/
  fixMft : Bool
  /-- The answer for `PR_MOUNT_MFT_MFTMIRR_MISMATCH`. -/
  fixMirr : Bool
  recoverOk : Bool

/-- `ntfs_recover_mft` of a problem that has to be repaired. -/
def recoverOrFail (fix ok : Bool) (w : MountWrite) : Outcome :=
  (Outcome.goOn [] 1 0).andThen (if fix && ok then .goOn [w] 0 1 else .fail)

/-- A copy that differs is replaced if the operator wants it. -/
def repairMirror (i : Nat) (r : MirrorAnswers) : Outcome :=
  if r.fixMirr then recoverOrFail true r.recoverOk (.mftMirrRecord i) else .goOn [] 1 0

/-- One pass of the loop that compares `$MFT` to `$MFTMirr`. -/
def compareRecord (i : Nat) (r : MirrorAnswers) : Outcome :=
  if r.mftCheck.ok then
    (r.mftCheck.note i).andThen (if r.same then
        .goOn [] 0 0
      else if i < 12 ∧ r.mftSemantic = false then
        (r.mirrCheck.note i).andThen (if r.mirrCheck.ok && r.mirrSemantic then
            recoverOrFail r.fixMft r.recoverOk (.mftRecord i)
          else
            repairMirror i r)
      else
        repairMirror i r)
  else
    ((r.mftCheck.note i).andThen (r.mirrCheck.note i)).andThen
      (if r.mirrCheck.ok then
        recoverOrFail r.fixMft r.recoverOk (.mftRecord i)
      else
        ⟨.failed, [], 1, 0⟩)

/-- The rewriting of a system file with a default table. -/
structure RewriteAnswers where
  openOk : Bool
  resize : Bool
  resizeOk : Bool
  writeOk : Bool

/-- Whether it succeeds, and what it writes. -/
def rewrite (w : MountWrite) (a : RewriteAnswers) : Bool × List MountWrite :=
  if !a.openOk || (a.resize && !a.resizeOk) then
    (false, [])
  else
    (a.writeOk, (if a.resize then [w] else []) ++ (if a.writeOk then [w] else []))

/-- `$UpCase`, as it is loaded. -/
structure UpCaseAnswers where
  loads : Bool
  asciiOk : Bool
  fix : Bool
  repair : RewriteAnswers

/-- The check of `$UpCase` and `ntfs_upcase_repair`. -/
def loadUpCase (u : UpCaseAnswers) : Outcome :=
  if !u.loads then
    .fail
  else if u.asciiOk then
    .goOn [] 0 0
  else if u.fix then
    (Outcome.goOn (rewrite .upCase u.repair).2 1 0).andThen
      (if (rewrite .upCase u.repair).1 then .goOn [] 0 1 else .fail)
  else
    ⟨.failed, [], 1, 0⟩

/-- `$AttrDef`, as it is loaded. -/
structure AttrDefAnswers where
  /-- Whether there is a table in core. -/
  loaded : Bool
  /-- `ntfs_attrdef_check`. -/
  valid : Bool
  fix : Bool
  repair : RewriteAnswers

/-- The check of `$AttrDef` and `ntfs_attrdef_repair`. -/
def loadAttrDef (d : AttrDefAnswers) : Outcome :=
  if d.loaded && d.valid then
    .goOn [] 0 0
  else if d.fix then
    -- the default table is installed in core before the file is written
    (Outcome.goOn (rewrite .attrDef d.repair).2 1
      (if (rewrite .attrDef d.repair).1 then 1 else 0)).andThen
        (.loads (d.loaded || d.repair.openOk))
  else
    (Outcome.goOn [] 1 0).andThen (.loads d.loaded)

/-- The `$TXF_DATA` attribute of the root directory. -/
structure TxfAnswers where
  nonResident : Bool
  readOk : Bool
  truncateOk : Bool
  writeOk : Bool
  closeOk : Bool

/-- `fix_txf_data`, with the root directory open. -/
def fixTxfData (t : TxfAnswers) : Outcome :=
  (if t.nonResident && t.readOk then
    if t.truncateOk then
      (Outcome.goOn [.txfData] 0 0).andThen (.loads t.writeOk)
    else
      .fail
  else
    .goOn [] 0 0).andThen (.loads t.closeOk)

/-- A step of a mount, with what it meets. -/
inductive MountStep where
  | boot (b : BootAnswers)
  | load (no : Nat) (l : LoadAnswers)
  | compare (i : Nat) (r : MirrorAnswers)
  /-- Opening a system file. -/
  | openRecord (no : Nat) (c : RecordCheck)
  /-- A load that can fail, and repairs nothing. -/
  | check (ok : Bool)
  | upCase (u : UpCaseAnswers)
  | attrDef (d : AttrDefAnswers)
  | txf (t : TxfAnswers)

def MountStep.outcome : MountStep → Outcome
  | .boot b => verifyBootSector b
  | .load no l => loadRecord no l
  | .compare i r => compareRecord i r
  | .openRecord no c => c.outcome no
  | .check ok => .loads ok
  | .upCase u => loadUpCase u
  | .attrDef d => loadAttrDef d
  | .txf t => fixTxfData t

/-- What a mount meets on the device. -/
structure MountAnswers where
  /-- Whether the volume can be allocated and the device opened. -/
  openOk : Bool
  boot : BootAnswers
  /-- Whether the MFT zone fits into the volume. -/
  zoneOk : Bool
  mft : LoadAnswers
  mftMirr : LoadAnswers
  /-- Whether the records and their copies can be read. -/
  recordsOk : Bool
  /-- The records in `$MFTMirr`, at most 16 of them. -/
  records : List MirrorAnswers
  bitmapRecord : RecordCheck
  bitmapOk : Bool
  upCaseRecord : RecordCheck
  upCase : UpCaseAnswers
  volumeRecord : RecordCheck
  volumeOk : Bool
  attrDefRecord : RecordCheck
  attrDef : AttrDefAnswers
  secureRecord : RecordCheck
  secureOk : Bool
  rootRecord : RecordCheck
  txf : TxfAnswers
  /-- Whether the bitmaps of fsck can be allocated. -/
  fsckOk : Bool

/-- The records to compare, from a number on. -/
def compareSteps : Nat → List MirrorAnswers → List MountStep
  | _, [] => []
  | i, r :: rs => .compare i r :: compareSteps (i + 1) rs

/-- The steps of `ntfs_fsck_mount`, in order; a read-only mount leaves `$TXF_DATA`. -/
def mountSteps (rdonly : Bool) (a : MountAnswers) : List MountStep :=
  [.check a.openOk, .boot a.boot, .check a.zoneOk, .load 0 a.mft, .load 1 a.mftMirr,
    .check a.recordsOk] ++ compareSteps 0 (a.records.take 16) ++
  [.openRecord 6 a.bitmapRecord, .check a.bitmapOk, .openRecord 10 a.upCaseRecord,
    .upCase a.upCase, .openRecord 3 a.volumeRecord, .check a.volumeOk,
    .openRecord 4 a.attrDefRecord, .attrDef a.attrDef, .openRecord 9 a.secureRecord,
    .check a.secureOk] ++
  (if rdonly then [] else [.openRecord 5 a.rootRecord, .txf a.txf]) ++ [.check a.fsckOk]

/-- The steps one after the other. -/
def runSteps : List MountStep → Outcome
  | [] => .goOn [] 0 0
  | step :: steps => step.outcome.andThen (runSteps steps)

/-- `ntfs_fsck_mount`. -/
def mount (rdonly : Bool) (a : MountAnswers) : Outcome :=
  runSteps (mountSteps rdonly a)

end Steps

section Repairs

/-- What is written when a file is rewritten. -/
def RewriteAnswers.Writes (a : RewriteAnswers) : Prop :=
  a.openOk = true ∧ (a.resize = true → a.resizeOk = true) ∧ (a.resize = true ∨ a.writeOk = true)

/-- Whether loading a record repairs something. -/
def LoadAnswers.Repairs (l : LoadAnswers) : Prop :=
  l.first.wrote = true ∨ (l.first.ok = false ∧ l.fix = true ∧ l.readOk = true ∧
      (l.mirrCheck.wrote = true ∨ (l.mirrCheck.ok = true ∧ l.writeOk = true)))

/-- Whether the comparison of a record with its copy repairs something. -/
def MirrorAnswers.Repairs (i : Nat) (r : MirrorAnswers) : Prop :=
  r.mftCheck.wrote = true ∨ (r.mftCheck.ok = true ∧ r.same = false ∧
      if i < 12 ∧ r.mftSemantic = false then
        r.mirrCheck.wrote = true ∨
          if r.mirrCheck.ok = true ∧ r.mirrSemantic = true then
            r.fixMft = true ∧ r.recoverOk = true
          else
            r.fixMirr = true ∧ r.recoverOk = true
      else
        r.fixMirr = true ∧ r.recoverOk = true) ∨
    (r.mftCheck.ok = false ∧ (r.mirrCheck.wrote = true ∨
        (r.mirrCheck.ok = true ∧ r.fixMft = true ∧ r.recoverOk = true)))

/-- Whether a step repairs something on the device. -/
def MountStep.Repairs : MountStep → Prop
  | .boot b =>
    b.readOk = true ∧ b.jumpOk = true ∧ b.valid = false ∧ b.fix = true ∧ b.rewrites = true
  | .load _ l => l.Repairs
  | .compare i r => r.Repairs i
  | .openRecord _ c => c.wrote = true
  | .check _ => False
  | .upCase u => u.loads = true ∧ u.asciiOk = false ∧ u.fix = true ∧ u.repair.Writes
  | .attrDef d => ¬(d.loaded = true ∧ d.valid = true) ∧ d.fix = true ∧ d.repair.Writes
  | .txf t => t.nonResident = true ∧ t.readOk = true ∧ t.truncateOk = true

variable (w : MountWrite) (c : RecordCheck) (no i : Nat) (l : LoadAnswers) (r : MirrorAnswers)
variable (step : MountStep) (steps : List MountStep)

theorem rewrite_writes
    (a : RewriteAnswers) :
    (rewrite w a).2 = [] ↔ ¬a.Writes := by
  unfold rewrite RewriteAnswers.Writes
  cases a.openOk <;> cases a.resize <;> cases a.resizeOk <;> cases a.writeOk <;> simp

theorem RecordCheck.writes_nil_iff : c.writes no = [] ↔ c.wrote = false := by
  unfold RecordCheck.writes
  cases c.wrote <;> simp

theorem RecordCheck.outcome_writes : (c.outcome no).writes = [] ↔ c.wrote = false := by
  rw [RecordCheck.outcome, RecordCheck.note, Outcome.andThen_writes, Outcome.goOn_writes,
    c.writes_nil_iff]
  simp

theorem RecordCheck.outcome_mounted : (c.outcome no).status = .mounted ↔ c.ok = true := by
  rw [RecordCheck.outcome, RecordCheck.note, Outcome.andThen_mounted]
  simp

theorem verifyBootSector_writes
    (b : BootAnswers) :
    (verifyBootSector b).writes = [] ↔ ¬(MountStep.boot b).Repairs := by
  simp only [verifyBootSector, MountStep.Repairs]
  cases b.readOk <;> cases b.jumpOk <;> cases b.valid <;> cases b.fix <;> cases b.rewrites <;> simp

theorem recoverMftFromMftmirr_writes :
    (recoverMftFromMftmirr no l).writes = [] ↔ ¬(l.readOk = true ∧
        (l.mirrCheck.wrote = true ∨ (l.mirrCheck.ok = true ∧ l.writeOk = true))) := by
  rw [recoverMftFromMftmirr, Outcome.andThen_writes, Outcome.andThen_writes,
    RecordCheck.outcome_writes, RecordCheck.outcome_mounted]
  cases l.readOk <;> cases l.mirrCheck.wrote <;> cases l.mirrCheck.ok <;> cases l.writeOk <;> simp

theorem recoverMftFromMftmirr_mounted
    {no : Nat} {l : LoadAnswers}
    (h : (recoverMftFromMftmirr no l).status = .mounted) :
    (recoverMftFromMftmirr no l).writes ≠ [] := by
  rw [ne_eq, recoverMftFromMftmirr_writes, not_not]
  rw [recoverMftFromMftmirr, Outcome.andThen_mounted, Outcome.andThen_mounted,
    RecordCheck.outcome_mounted, Outcome.loads_mounted] at h
  obtain ⟨hread, hcheck, hwrite⟩ := h
  refine ⟨hread, Or.inr ⟨hcheck, ?_⟩⟩
  cases hok : l.writeOk with
  | false => simp [hok] at hwrite
  | true => rfl

theorem loadRecord_writes : (loadRecord no l).writes = [] ↔ ¬l.Repairs := by
  unfold loadRecord LoadAnswers.Repairs
  by_cases hfirst : l.first.ok = true
  · rw [if_pos hfirst, RecordCheck.note, Outcome.goOn_writes, l.first.writes_nil_iff]
    simp [hfirst]
  · rw [if_neg hfirst, Outcome.andThen_writes, Outcome.andThen_writes, RecordCheck.note,
      Outcome.goOn_writes, l.first.writes_nil_iff, Outcome.andThen_mounted]
    cases hfix : l.fix with
    | false => simp
    | true =>
      have hagain : ((recoverMftFromMftmirr no l).andThen
          ((Outcome.goOn [] 0 1).andThen (l.again.outcome no))).writes = [] ↔
            (recoverMftFromMftmirr no l).writes = [] := by
        rw [Outcome.andThen_writes, and_iff_left_iff_imp]
        intro hnone hmounted
        exact absurd hnone (recoverMftFromMftmirr_mounted hmounted)
      simp only [if_pos, hagain, recoverMftFromMftmirr_writes, hfirst]
      simp

theorem recoverOrFail_writes
    (fix ok : Bool)
    (w : MountWrite) :
    (recoverOrFail fix ok w).writes = [] ↔ ¬(fix = true ∧ ok = true) := by
  rw [recoverOrFail, Outcome.andThen_writes]
  cases fix <;> cases ok <;> simp

theorem repairMirror_writes :
    (repairMirror i r).writes = [] ↔ ¬(r.fixMirr = true ∧ r.recoverOk = true) := by
  unfold repairMirror
  cases hfix : r.fixMirr with
  | false => simp
  | true => rw [if_pos rfl, recoverOrFail_writes]

theorem compareRecord_writes : (compareRecord i r).writes = [] ↔ ¬r.Repairs i := by
  unfold compareRecord MirrorAnswers.Repairs
  cases hmft : r.mftCheck.ok with
  | true =>
    rw [if_pos rfl, RecordCheck.note, Outcome.andThen_writes, Outcome.goOn_writes,
      r.mftCheck.writes_nil_iff]
    cases hsame : r.same with
    | true => simp
    | false =>
      by_cases hsemantic : i < 12 ∧ r.mftSemantic = false
      · rw [if_neg (by simp), if_pos hsemantic, if_pos hsemantic, RecordCheck.note,
          Outcome.andThen_writes, Outcome.goOn_writes, r.mirrCheck.writes_nil_iff]
        by_cases hmirr : r.mirrCheck.ok = true ∧ r.mirrSemantic = true
        · rw [if_pos (by simp [hmirr]), if_pos hmirr, recoverOrFail_writes]
          simp
        · rw [if_neg (by simpa using hmirr), if_neg hmirr, repairMirror_writes]
          simp
      · rw [if_neg (by simp), if_neg hsemantic, if_neg hsemantic, repairMirror_writes]
        simp
  | false =>
    rw [if_neg (by simp), RecordCheck.note, RecordCheck.note, Outcome.andThen_writes,
      Outcome.andThen_writes, Outcome.goOn_writes, Outcome.goOn_writes,
      r.mftCheck.writes_nil_iff, r.mirrCheck.writes_nil_iff]
    cases hmirr : r.mirrCheck.ok with
    | true =>
      rw [if_pos rfl, recoverOrFail_writes]
      simp
      tauto
    | false => simp

theorem loadUpCase_writes
    (u : UpCaseAnswers) :
    (loadUpCase u).writes = [] ↔ ¬(MountStep.upCase u).Repairs := by
  have hrepair : ((Outcome.goOn (rewrite .upCase u.repair).2 1 0).andThen
      (if (rewrite .upCase u.repair).1 then .goOn [] 0 1 else .fail)).writes = [] ↔
        ¬u.repair.Writes := by
    rw [Outcome.andThen_writes, Outcome.goOn_writes, rewrite_writes]
    cases (rewrite .upCase u.repair).1 <;> simp
  simp only [loadUpCase, MountStep.Repairs]
  cases u.loads with
  | false => simp
  | true =>
    cases u.asciiOk with
    | true => simp
    | false =>
      cases u.fix with
      | true => simpa using hrepair
      | false => simp

theorem loadAttrDef_writes
    (d : AttrDefAnswers) :
    (loadAttrDef d).writes = [] ↔ ¬(MountStep.attrDef d).Repairs := by
  simp only [loadAttrDef, MountStep.Repairs]
  by_cases hgood : d.loaded = true ∧ d.valid = true
  · simp [hgood]
  · rw [if_neg (by simpa using hgood)]
    cases d.fix with
    | true =>
      rw [if_pos rfl, Outcome.andThen_writes, Outcome.goOn_writes, rewrite_writes]
      simp [hgood]
    | false => simp [Outcome.andThen_writes]

theorem fixTxfData_writes
    (t : TxfAnswers) :
    (fixTxfData t).writes = [] ↔ ¬(MountStep.txf t).Repairs := by
  simp only [fixTxfData, MountStep.Repairs]
  cases t.nonResident <;> cases t.readOk <;> cases t.truncateOk <;>
    simp [Outcome.andThen_writes]

theorem MountStep.writes_nil_iff : step.outcome.writes = [] ↔ ¬step.Repairs := by
  cases step with
  | boot b => exact verifyBootSector_writes b
  | load no l => exact loadRecord_writes no l
  | compare i r => exact compareRecord_writes i r
  | openRecord no c =>
    rw [MountStep.outcome, RecordCheck.outcome_writes, MountStep.Repairs, Bool.not_eq_true]
  | check ok => simp [MountStep.outcome, MountStep.Repairs]
  | upCase u => exact loadUpCase_writes u
  | attrDef d => exact loadAttrDef_writes d
  | txf t => exact fixTxfData_writes t

/-- No step that is reached repairs anything. -/
def NothingRepaired (steps : List MountStep) : Prop :=
  ∀ before step after, steps = before ++ step :: after →
    (∀ s ∈ before, s.outcome.status = .mounted) → ¬step.Repairs

theorem nothingRepaired_cons :
    NothingRepaired (step :: steps) ↔
      ¬step.Repairs ∧ (step.outcome.status = .mounted → NothingRepaired steps) := by
  constructor
  · intro h
    refine ⟨h [] step steps rfl (by simp), ?_⟩
    intro hmounted before s after hsplit hbefore
    refine h (step :: before) s after (by simp [hsplit]) ?_
    intro s' hs'
    rcases List.mem_cons.mp hs' with rfl | hs'
    · exact hmounted
    · exact hbefore s' hs'
  · rintro ⟨hfirst, hrest⟩ before s after hsplit hbefore
    cases before with
    | nil =>
      obtain ⟨rfl, _⟩ := List.cons.inj hsplit
      exact hfirst
    | cons b before =>
      obtain ⟨rfl, htail⟩ := List.cons.inj hsplit
      exact hrest (hbefore step List.mem_cons_self) before s after htail
        (fun s' hs' => hbefore s' (List.mem_cons_of_mem step hs'))

theorem runSteps_writes_nil_iff : (runSteps steps).writes = [] ↔ NothingRepaired steps := by
  induction steps with
  | nil => simp [runSteps, NothingRepaired]
  | cons step steps ih =>
    rw [runSteps, Outcome.andThen_writes, nothingRepaired_cons, ih, step.writes_nil_iff]

/-- A mount writes nothing exactly when no step that it gets to repairs anything. -/
theorem mount_writes_nil_iff
    (rdonly : Bool)
    (a : MountAnswers) :
    (mount rdonly a).writes = [] ↔ NothingRepaired (mountSteps rdonly a) :=
  runSteps_writes_nil_iff (mountSteps rdonly a)

end Repairs

end NtfsPlus.Ntfsck

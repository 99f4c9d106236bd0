import NtfsPlus.Libntfs.MftRecordCheck
import NtfsPlus.Libntfs.MstRestore

/-!
# Salvaging an MFT record

`ntfsck_salvage_mft_record` reads a record without taking its protection off and
puts the fields `usa_ofs` and `usa_count` back to where `ntfs_mft_record_layout`
has them.  If every sector then ends with the update sequence number, the record is
unprotected and written back.  A record that is marked `BAAD` on the disk has its
sectors put together without that test.

`salvageMftRecord_spec`: with the array at the canonical place, damage to the two
fields is undone for every content, and a record with `FILE` magic and a torn sector
is always refused.  A record with its array elsewhere is not recovered
(`salvageMftRecord_other_place`).
-/

namespace NtfsPlus.Ntfsck

open Libntfs

section Model

/-- The volume as the salvage sees it. -/
structure SalvageVolume where
  /-- `NVolFsck`. -/
  fsck : Bool
  /-- Whether `mft_na` is open. -/
  mftOpen : Bool
  /-- `mft_na->initialized_size`. -/
  mftInitialized : Int
  mftRecordSizeBits : Nat
  majorVer : Nat
  minorVer : Nat

/-- `mft_record_size`. -/
def SalvageVolume.mftRecordSize (vol : SalvageVolume) : Nat :=
  2 ^ vol.mftRecordSizeBits

/-- `expected_usa_ofs`, the size of the record header rounded up. -/
def SalvageVolume.expectedUsaOfs (vol : SalvageVolume) : Nat :=
  if vol.majorVer < 3 ∨ (vol.majorVer = 3 ∧ vol.minorVer = 0) then 42 else 48

/-- `expected_usa_count`, a `u16`. -/
def SalvageVolume.expectedUsaCount (vol : SalvageVolume) : Nat :=
  if ntfsBlockSize ≤ vol.mftRecordSize then (vol.mftRecordSize / ntfsBlockSize + 1) % 65536 else 1

/-- Whether the header of a record has the array where it belongs. -/
def SalvageVolume.Canonical (vol : SalvageVolume) (b : Bytes) : Prop :=
  usaOfs b = vol.expectedUsaOfs ∧ usaCount b = vol.expectedUsaCount

instance (vol : SalvageVolume) (b : Bytes) : Decidable (vol.Canonical b) :=
  inferInstanceAs (Decidable (_ ∧ _))

/-- A record with the header fields put back. -/
def SalvageVolume.setHeader (vol : SalvageVolume) (b : Bytes) : Bytes :=
  setLe16 (setLe16 b 4 vol.expectedUsaOfs) 6 vol.expectedUsaCount

/-- The record that is put together from what is on the disk, if it can be trusted. -/
def salvageContent (vol : SalvageVolume) (raw : Bytes) : Option Bytes :=
  if le32 raw 0 = magicFile then
    if vol.Canonical raw then none
    else
      match mstPostReadFixup (vol.setHeader raw) vol.mftRecordSize with
      | (none, mrec) => some mrec
      | (some _, _) => none
  else if le32 raw 0 = magicBaad then
    if vol.Canonical raw then
      some (patch (restoreSectors (vol.expectedUsaCount - 1) vol.expectedUsaOfs
        (ntfsBlockSize - 2) raw) 0 (leBytes 4 magicFile))
    else
      none
  else
    none

/-- What the calls answer, and what has been decided about such repairs. -/
structure SalvageAnswers where
  readOk : Bool
  /-- `ntfsck_note_fixup_candidate`. -/
  noteOk : Bool
  decided : Bool
  approved : Bool
  writeOk : Bool

/-- Whether a repair is approved and nothing fails. -/
def SalvageAnswers.allOk (answers : SalvageAnswers) : Bool :=
  answers.readOk && answers.noteOk && answers.decided && answers.approved && answers.writeOk

/-- The outcome: success, and what is written to the place of the record. -/
structure Salvaged where
  ok : Bool
  written : Option Bytes

/-- `ntfsck_salvage_mft_record` of a record that is `raw` on the disk. -/
def salvageMftRecord (vol : SalvageVolume) (answers : SalvageAnswers) (mftNo : Nat)
    (raw : Bytes) : Salvaged :=
  if !vol.fsck || !vol.mftOpen ||
      decide (vol.mftInitialized / 2 ^ vol.mftRecordSizeBits < mftNo + 1) || !answers.readOk then
    ⟨false, none⟩
  else
    match salvageContent vol raw with
    | none => ⟨false, none⟩
    | some mrec =>
      if !answers.noteOk || !answers.decided || !answers.approved || !answers.writeOk then
        ⟨false, none⟩
      else
        match mstPreWriteFixup mrec vol.mftRecordSize with
        | .error _ => ⟨false, none⟩
        | .ok p => ⟨true, some p⟩

/-- `d` is `p` with other bytes in `usa_ofs` and `usa_count` at most. -/
def HeaderDamaged (p d : Bytes) : Prop :=
  ∀ j, j < 4 ∨ 8 ≤ j → d j = p j

/-- What is written gives the record `b` back, outside of its update sequence array. -/
def Recovers (size : Nat) (b : Bytes) (r : Salvaged) : Prop :=
  r.ok ∧ ∃ w, r.written = some w ∧ (mstPostReadFixup w size).1 = none ∧
    SameOutsideArray b (mstPostReadFixup w size).2 size

end Model

section Recovery

variable {vol : SalvageVolume} {b p d raw : Bytes}

theorem expectedUsaOfs_bounds
    (vol : SalvageVolume) :
    42 ≤ vol.expectedUsaOfs ∧ vol.expectedUsaOfs ≤ 48 := by
  unfold SalvageVolume.expectedUsaOfs
  split <;> decide

theorem expectedUsaCount_lt
    (vol : SalvageVolume) :
    vol.expectedUsaCount < 65536 := by
  unfold SalvageVolume.expectedUsaCount
  split <;> omega

theorem setHeader_of_ne
    (vol : SalvageVolume)
    (b : Bytes)
    {j : Nat}
    (h : j < 4 ∨ 8 ≤ j) :
    vol.setHeader b j = b j := by
  rw [SalvageVolume.setHeader, setLe16_of_ne _ _ (by omega), setLe16_of_ne _ _ (by omega)]

theorem setHeader_canonical
    (vol : SalvageVolume)
    (b : Bytes) :
    vol.Canonical (vol.setHeader b) := by
  have hofs := expectedUsaOfs_bounds vol
  constructor
  · rw [usaOfs, SalvageVolume.setHeader, le16_setLe16_of_ne _ _ (by omega), le16_setLe16,
      Nat.mod_eq_of_lt (by omega)]
  · rw [usaCount, SalvageVolume.setHeader, le16_setLe16, Nat.mod_eq_of_lt (expectedUsaCount_lt vol)]

/-- Putting the fields back undoes the damage. -/
theorem setHeader_of_damaged
    (hp : vol.Canonical p)
    (hd : HeaderDamaged p d) :
    vol.setHeader d = p := by
  obtain ⟨hofs, hcount⟩ := setHeader_canonical vol d
  funext j
  by_cases hout : j < 4 ∨ 8 ≤ j
  · exact (setHeader_of_ne vol d hout).trans (hd j hout)
  · by_cases hlow : j < 6
    · obtain ⟨k, rfl⟩ : ∃ k, j = 4 + k := ⟨j - 4, by omega⟩
      exact byte_eq_of_le16 (hofs.trans hp.1.symm) (by omega)
    · obtain ⟨k, rfl⟩ : ∃ k, j = 6 + k := ⟨j - 6, by omega⟩
      exact byte_eq_of_le16 (hcount.trans hp.2.symm) (by omega)

/-- A record that agrees with a protected one outside of its array can be protected too. -/
theorem preWriteFixup_of_same
    {size : Nat} {r : Bytes}
    (hofs : 8 ≤ usaOfs b)
    (h : mstPreWriteFixup b size = .ok p)
    (hsame : SameOutsideArray b r size)
    (hsize : 8 ≤ size) :
    ∃ w, mstPreWriteFixup r size = .ok w ∧ usaOfs r = usaOfs b ∧ usaCount r = usaCount b := by
  have hbytes : ∀ j < 8, r j = b j := fun j hj => hsame j (by omega) (.inl (by omega))
  have hmagic : le32 r 0 = le32 b 0 := leNat_congr fun k hk => hbytes _ (by omega)
  have husaOfs : usaOfs r = usaOfs b := leNat_congr fun k hk => hbytes _ (by omega)
  have husaCount : usaCount r = usaCount b := leNat_congr fun k hk => hbytes _ (by omega)
  rw [mstPreWriteFixup] at h
  split_ifs at h with hbaad hvalid
  rw [mstPreWriteFixup, hmagic, husaOfs, husaCount, if_neg hbaad, if_pos hvalid]
  exact ⟨_, rfl, rfl, rfl⟩

/-- The protection of a record with the array behind the header can be taken off. -/
theorem restored_of_preWriteFixup
    {size : Nat}
    (hofs : 8 ≤ usaOfs b)
    (h : mstPreWriteFixup b size = .ok p) :
    Restored b p size := by
  obtain ⟨hofs', hcount'⟩ := (protected_of_preWriteFixup h).header hofs
  exact restored_of_header h hofs' hcount'

theorem salvageContent_of_damaged
    (hmagic : le32 b 0 = magicFile)
    (hb : vol.Canonical b)
    (h : mstPreWriteFixup b vol.mftRecordSize = .ok p)
    (hd : HeaderDamaged p d)
    (hchanged : ¬vol.Canonical d) :
    salvageContent vol d = some (mstPostReadFixup p vol.mftRecordSize).2 := by
  have hbounds := expectedUsaOfs_bounds vol
  have hofs : 8 ≤ usaOfs b := by rw [hb.1]; omega
  have hprot := protected_of_preWriteFixup h
  have hheader := hprot.header hofs
  have hp : vol.Canonical p := ⟨hheader.1.trans hb.1, hheader.2.trans hb.2⟩
  have hfile : le32 d 0 = magicFile := by
    rw [← hmagic]
    refine leNat_congr fun k hk => ?_
    rw [hd _ (.inl (by omega)), hprot.frame _ (by omega) (.inl (by omega))]
  rw [salvageContent, if_pos hfile, if_neg hchanged, setHeader_of_damaged hp hd]
  have haccepted := (restored_of_preWriteFixup hofs h).accepted
  generalize mstPostReadFixup p vol.mftRecordSize = res at haccepted
  obtain ⟨err, mrec⟩ := res
  cases haccepted
  rfl

/-- The number at the canonical place does not stand at the end of every sector. -/
def TornSector (vol : SalvageVolume) (raw : Bytes) : Prop :=
  ∃ i < vol.expectedUsaCount - 1, le16 raw (510 + 512 * i) ≠ le16 raw vol.expectedUsaOfs

theorem salvageContent_of_torn
    (hmagic : le32 raw 0 = magicFile)
    (htorn : TornSector vol raw) :
    salvageContent vol raw = none := by
  rw [salvageContent, if_pos hmagic]
  split_ifs
  · rfl
  · rw [mstPostReadFixup]
    have hbounds := expectedUsaOfs_bounds vol
    obtain ⟨hofs, hcount⟩ := setHeader_canonical vol raw
    have hincomplete : ¬sectorsComplete (vol.setHeader raw)
        (le16 (vol.setHeader raw) (usaOfs (vol.setHeader raw)))
        (usaCount (vol.setHeader raw) - 1) (ntfsBlockSize - 2) := by
      rw [hofs, hcount]
      intro hcomplete
      obtain ⟨i, hi, hne⟩ := htorn
      have hword : ∀ pos, 8 ≤ pos → le16 (vol.setHeader raw) pos = le16 raw pos := fun pos hpos =>
        leNat_congr fun k hk => setHeader_of_ne vol raw (.inr (by omega))
      have htail := (sectorsComplete_iff _ _).mp hcomplete i hi
      simp only [ntfsBlockSize] at htail
      rw [hword _ (by omega), hword _ (by omega)] at htail
      exact hne htail
    rw [if_neg hincomplete]
    split_ifs
    · rfl
    · rfl

/--
With the array at the canonical place, damage to `usa_ofs` and `usa_count` is undone
whatever the record holds; and a record with `FILE` magic and a torn sector is
refused, and nothing is written, whatever is answered.
-/
theorem salvageMftRecord_spec
    (vol : SalvageVolume)
    (mftNo : Nat) :
    (∀ answers b p d, vol.fsck → vol.mftOpen →
      ((mftNo + 1 : Nat) : Int) ≤ vol.mftInitialized / 2 ^ vol.mftRecordSizeBits →
      answers.allOk → le32 b 0 = magicFile → vol.Canonical b →
      mstPreWriteFixup b vol.mftRecordSize = .ok p → HeaderDamaged p d → ¬vol.Canonical d →
      Recovers vol.mftRecordSize b (salvageMftRecord vol answers mftNo d)) ∧
    ∀ answers raw, le32 raw 0 = magicFile → TornSector vol raw →
      salvageMftRecord vol answers mftNo raw = ⟨false, none⟩ := by
  constructor
  · intro answers b p d hfsck hopen hinit hanswers hmagic hb h hd hchanged
    have hbounds := expectedUsaOfs_bounds vol
    have hofs : 8 ≤ usaOfs b := by rw [hb.1]; omega
    have hrestored := restored_of_preWriteFixup hofs h
    have hsize : 8 ≤ vol.mftRecordSize := by
      have hmod := (protected_of_preWriteFixup h).valid.1
      have hpos : 0 < vol.mftRecordSize := Nat.two_pow_pos _
      simp only [ntfsBlockSize] at hmod
      omega
    obtain ⟨w, hw, hwofs, hwcount⟩ := preWriteFixup_of_same hofs h hrestored.afterRead hsize
    simp only [SalvageAnswers.allOk, Bool.and_eq_true] at hanswers
    obtain ⟨⟨⟨⟨hread, hnote⟩, hdecided⟩, happroved⟩, hwrite⟩ := hanswers
    have hresult : salvageMftRecord vol answers mftNo d = ⟨true, some w⟩ := by
      rw [salvageMftRecord, if_neg, salvageContent_of_damaged hmagic hb h hd hchanged]
      · simp only [hnote, hdecided, happroved, hwrite, hw, Bool.not_true, Bool.or_self,
          Bool.false_eq_true, if_false]
      · simpa [hfsck, hopen, hread] using hinit
    have hagain := restored_of_preWriteFixup (hwofs ▸ hofs) hw
    rw [hresult]
    refine ⟨rfl, w, rfl, hagain.accepted, fun j hj hout => ?_⟩
    rw [← hwofs, ← hwcount] at hout
    rw [hagain.afterRead j hj hout]
    rw [hwofs, hwcount] at hout
    exact hrestored.afterRead j hj hout
  · intro answers raw hmagic htorn
    rw [salvageMftRecord, salvageContent_of_torn hmagic htorn]
    split <;> rfl

/-- A volume of version 3.1 with records of 1024 bytes, in a repairing run. -/
def salvageVolume31 : SalvageVolume := ⟨true, true, 2 ^ 20, 10, 3, 1⟩

/-- Approved, and nothing fails. -/
def salvageApproved : SalvageAnswers := ⟨true, true, true, true, true⟩

theorem salvageMftRecord_lost_array :
    ∃ p, mstPreWriteFixup emptyDataRecord 1024 = .ok p ∧ Recovers 1024 emptyDataRecord
        (salvageMftRecord salvageVolume31 salvageApproved 24 (setLe16 p 4 0)) :=
  ⟨_, rfl, (salvageMftRecord_spec salvageVolume31 24).1 salvageApproved emptyDataRecord _ _ rfl rfl
    (by decide) rfl (by decide +kernel) (by decide +kernel) rfl
    (fun _ h => setLe16_of_ne _ _ (by omega)) (by decide +kernel)⟩

/-- A sound record whose array begins at 42, as in a version 3.0 volume. -/
def otherPlaceRecord : Bytes :=
  setLe16 emptyDataRecord 4 42

/-- The record passes its check as it is, but once the two fields are lost it is refused. -/
theorem salvageMftRecord_other_place :
    (mftRecordCheck mountedVolume 24 250 otherPlaceRecord).map Checked.fixed = some false ∧
      ∃ p, mstPreWriteFixup otherPlaceRecord 1024 = .ok p ∧ HeaderDamaged p (setLe16 p 4 0) ∧
        (salvageMftRecord salvageVolume31 salvageApproved 24 (setLe16 p 4 0)).ok = false :=
  ⟨by decide +kernel, _, rfl, fun _ h => setLe16_of_ne _ _ (by omega), by decide +kernel⟩

end Recovery

end NtfsPlus.Ntfsck

import NtfsPlus.Libntfs.MftRecordCheck

/-!
# What the check of an attribute leaves behind

`ntfs_attr_inconsistent` repairs the offset of the value, the offset of the name,
the offset of the value once more and the length, in this order.  `AttrFields`
are the fields it works with and `AttrFields.repaired` says what the repairs make
of them.  Two things go wrong: the end of the name is taken before its offset is
repaired, and nothing compares the repaired length with the record.

`attrInconsistent_sound_iff` says after which repairs the parts of the attribute
lie apart and inside and a second call changes nothing.
-/

namespace NtfsPlus.Libntfs

/-- The header fields of an attribute that the check of a resident one looks at. -/
structure AttrFields where
  type : Nat
  length : Nat
  nonResident : Nat
  nameLength : Nat
  nameOffset : Nat
  valueLength : Nat
  valueOffset : Nat

/-- The fields of the attribute at `a`. -/
def attrFields (m : Bytes) (a : Nat) : AttrFields where
  type := attrType m a
  length := attrLength m a
  nonResident := attrNonResident m a
  nameLength := attrNameLength m a
  nameOffset := attrNameOffset m a
  valueLength := attrValueLength m a
  valueOffset := attrValueOffset m a

namespace AttrFields

/-- The end of the name, rounded up. -/
def nameEnd (f : AttrFields) : Nat :=
  (f.nameOffset + f.nameLength * 2 + 7) / 8 * 8

/-- The end of the value, rounded up. -/
def valueEnd (f : AttrFields) : Nat :=
  (f.valueOffset + f.valueLength + 7) / 8 * 8

/-- The value offset rounded up, as a 16-bit field. -/
def alignValue (f : AttrFields) : AttrFields :=
  { f with valueOffset := (f.valueOffset + 7) / 8 * 8 % 65536 }

/-- The name moved out of the header. -/
def placeName (f : AttrFields) : AttrFields :=
  if f.nameOffset ≠ 0 ∧ f.nameOffset < residentEnd then
    { f with nameOffset := residentEnd }
  else
    f

/-- The value moved behind the name, as a 16-bit field. -/
def placeValue (nameEnd : Nat) (f : AttrFields) : AttrFields :=
  if f.valueOffset < nameEnd then { f with valueOffset := nameEnd % 65536 } else f

/-- The length stretched over the value. -/
def stretch (f : AttrFields) : AttrFields :=
  if f.length < f.valueEnd ∨ f.length < residentEnd then { f with length := f.valueEnd } else f

/-- All repairs of a resident attribute, the end of the name taken before the first. -/
def repaired (f : AttrFields) : AttrFields :=
  (f.alignValue.placeName.placeValue f.nameEnd).stretch

variable (n : Nat) (f : AttrFields)

@[simp] theorem placeName_valueLength : f.placeName.valueLength = f.valueLength := by
  unfold placeName
  split_ifs <;> rfl

@[simp] theorem placeName_valueOffset : f.placeName.valueOffset = f.valueOffset := by
  unfold placeName
  split_ifs <;> rfl

@[simp] theorem placeValue_valueLength : (f.placeValue n).valueLength = f.valueLength := by
  unfold placeValue
  split_ifs <;> rfl

@[simp] theorem placeValue_valueOffset :
    (f.placeValue n).valueOffset = if f.valueOffset < n then n % 65536 else f.valueOffset := by
  unfold placeValue
  split_ifs <;> rfl

@[simp] theorem stretch_valueOffset : f.stretch.valueOffset = f.valueOffset := by
  unfold stretch
  split_ifs <;> rfl

/-- A stretched attribute has room for its value. -/
theorem valueEnd_le_stretch :
    f.stretch.valueEnd ≤ f.stretch.length ∧
    (f.stretch.length < residentEnd → f.stretch.length = f.stretch.valueEnd) := by
  unfold stretch
  split_ifs with hbad
  · exact ⟨le_rfl, fun _ => rfl⟩
  · omega

/-- The repairs keep the type, the form and the lengths of name and value. -/
theorem repaired_kept :
    f.repaired.type = f.type ∧ f.repaired.nonResident = f.nonResident ∧
    f.repaired.nameLength = f.nameLength ∧ f.repaired.valueLength = f.valueLength := by
  unfold repaired stretch placeValue placeName alignValue
  split_ifs <;> exact ⟨rfl, rfl, rfl, rfl⟩

/-- Where the repairs put the name. -/
theorem repaired_nameOffset :
    f.repaired.nameOffset =
      if f.nameOffset ≠ 0 ∧ f.nameOffset < residentEnd then residentEnd else f.nameOffset := by
  unfold repaired stretch placeValue placeName alignValue
  split_ifs <;> rfl

/-- Where the repairs put the value. -/
theorem repaired_valueOffset :
    f.repaired.valueOffset =
      if (f.valueOffset + 7) / 8 * 8 % 65536 < f.nameEnd then f.nameEnd % 65536
      else (f.valueOffset + 7) / 8 * 8 % 65536 := by
  rw [repaired, stretch_valueOffset, placeValue_valueOffset, placeName_valueOffset]
  rfl

end AttrFields

section Specification

/-- Where the value or the mapping pairs start. -/
def contentStart (m : Bytes) (a : Nat) : Nat :=
  if attrNonResident m a ≠ 0 then attrMappingPairsOffset m a else attrValueOffset m a

/-- Where the value or the mapping pairs end. -/
def contentEnd (m : Bytes) (a : Nat) : Nat :=
  if attrNonResident m a ≠ 0 then attrLength m a else attrValueOffset m a + attrValueLength m a

/-- The attribute lies inside the record, its parts inside the attribute and apart. -/
structure SoundAttr (recordSize : Nat) (m : Bytes) (a : Nat) : Prop where
  record : a + attrLength m a ≤ recordSize
  name : attrNameLength m a = 0 ∨ attrNameOffset m a + attrNameLength m a * 2 ≤ attrLength m a
  content : contentStart m a ≤ contentEnd m a ∧ contentEnd m a ≤ attrLength m a
  apart : ∀ i, attrNameOffset m a ≤ i → i < attrNameOffset m a + attrNameLength m a * 2 →
    contentStart m a ≤ i → contentEnd m a ≤ i

variable (vol : CheckVolume) (mref a : Nat)

/-- `ntfs_attr_inconsistent` for the record `mref`. -/
def attrInconsistentIn (s : Checked) : Option Checked :=
  attrInconsistent vol vol.fsck (vol.fsck && decide (1 < mref)) a s

/-- The attribute is sound and a second check accepts it as it is. -/
def SettledAttr (s : Checked) : Prop :=
  SoundAttr vol.mftRecordSize s.m a ∧ ∃ s', attrInconsistentIn vol mref a s = some s' ∧ s'.m = s.m

/-- The length of the value after the repairs of a `$STANDARD_INFORMATION`. -/
def repairedValueLength (isFsck fsck : Bool) (m : Bytes) : Nat :=
  if attrType m a = 0x10 ∧ isFsck = true ∧ siRepairDeclined vol fsck a = false then
    siEffLen (attrValueLength m a)
  else
    attrValueLength m a

/--
The name of a non-resident attribute ends in front of its mapping pairs.  The
repaired fields of a resident one lie inside the record and the value behind the
name as it is repaired; or the end of the name does not fit in 16 bits, and the
name lies behind the value.
-/
def RepairCondition (m : Bytes) : Prop :=
  if attrNonResident m a ≠ 0 then
    attrNameLength m a = 0 ∨
      attrNameOffset m a + attrNameLength m a * 2 ≤ attrMappingPairsOffset m a
  else
    let f := (attrFields m a).repaired
    let valueLength := repairedValueLength vol a vol.fsck (vol.fsck && decide (1 < mref)) m
    a + f.length ≤ vol.mftRecordSize ∧ (f.nameEnd ≤ f.valueOffset ∨ 65536 ≤ f.nameEnd ∧
          (f.nameLength = 0 ∨ f.nameOffset + f.nameLength * 2 ≤ f.length ∧
              f.valueOffset + valueLength ≤ f.nameOffset))

end Specification

section Fields

/-- The fields depend on the first 22 bytes of the record. -/
theorem attrFields_congr
    {m m' : Bytes} {a : Nat}
    (h : ∀ j < 22, m' (a + j) = m (a + j)) :
    attrFields m' a = attrFields m a := by
  have hfield : ∀ i n, i + n ≤ 22 → leNat m' (a + i) n = leNat m (a + i) n := fun i n hin =>
    leNat_congr (fun k hk => by
      rw [Nat.add_assoc]
      exact h (i + k) (by omega))
  simp only [attrFields, AttrFields.mk.injEq]
  exact ⟨hfield 0 4 (by omega), hfield 4 4 (by omega), congrArg UInt8.toNat (h 8 (by omega)),
    congrArg UInt8.toNat (h 9 (by omega)), hfield 10 2 (by omega), hfield 16 4 (by omega),
    hfield 20 2 (by omega)⟩

variable (m : Bytes) (a v : Nat)

theorem attrFields_patch_length :
    attrFields (patch m (a + 4) (leBytes 4 v)) a =
      { attrFields m a with length := v % 2 ^ 32 } := by
  simp only [attrFields, AttrFields.mk.injEq]
  refine ⟨
    leNat_patch_of_ne m ?_, leNat_patch m (a + 4) 4 v, congrArg UInt8.toNat (patch_of_ne m ?_),
    congrArg UInt8.toNat (patch_of_ne m ?_), leNat_patch_of_ne m ?_,
    leNat_patch_of_ne m ?_, leNat_patch_of_ne m ?_⟩
  all_goals
    rw [leBytes_length]
    omega

theorem attrFields_patch_nameOffset :
    attrFields (patch m (a + 10) (leBytes 2 v)) a =
      { attrFields m a with nameOffset := v % 65536 } := by
  simp only [attrFields, AttrFields.mk.injEq]
  refine ⟨leNat_patch_of_ne m ?_, leNat_patch_of_ne m ?_, congrArg UInt8.toNat (patch_of_ne m ?_),
    congrArg UInt8.toNat (patch_of_ne m ?_), leNat_patch m (a + 10) 2 v,
    leNat_patch_of_ne m ?_, leNat_patch_of_ne m ?_⟩
  all_goals
    rw [leBytes_length]
    omega

theorem attrFields_patch_valueLength :
    attrFields (patch m (a + 16) (leBytes 4 v)) a =
      { attrFields m a with valueLength := v % 2 ^ 32 } := by
  simp only [attrFields, AttrFields.mk.injEq]
  refine ⟨leNat_patch_of_ne m ?_, leNat_patch_of_ne m ?_, congrArg UInt8.toNat (patch_of_ne m ?_),
    congrArg UInt8.toNat (patch_of_ne m ?_), leNat_patch_of_ne m ?_,
    leNat_patch m (a + 16) 4 v, leNat_patch_of_ne m ?_⟩
  all_goals
    rw [leBytes_length]
    omega

theorem attrFields_patch_valueOffset :
    attrFields (patch m (a + 20) (leBytes 2 v)) a =
      { attrFields m a with valueOffset := v % 65536 } := by
  simp only [attrFields, AttrFields.mk.injEq]
  refine ⟨leNat_patch_of_ne m ?_, leNat_patch_of_ne m ?_, congrArg UInt8.toNat (patch_of_ne m ?_),
    congrArg UInt8.toNat (patch_of_ne m ?_), leNat_patch_of_ne m ?_,
    leNat_patch_of_ne m ?_, leNat_patch m (a + 20) 2 v⟩
  all_goals
    omega

end Fields

section Resident

variable {vol : CheckVolume} {fsck : Bool} {a : Nat} {s s' : Checked}

variable {fix : Bool}

/-- A check that passes found nothing, or made its repair. -/
theorem repairOrFail_cases
    {bad : Prop} [Decidable bad] {repair : Bytes → Bytes}
    (h : repairOrFail fsck fix bad repair s = some s') :
    (¬bad ∧ s' = s) ∨ (bad ∧ (fsck && fix) = true ∧ s'.m = repair s.m) := by
  unfold repairOrFail at h
  split_ifs at h with hbad hfix
  · exact Or.inr ⟨hbad, hfix, by rw [← Option.some.inj h]⟩
  · exact Or.inl ⟨hbad, (Option.some.inj h).symm⟩

/-- A check passes without a change if its repair is allowed and does nothing. -/
theorem repairOrFail_of_answer
    {fix : Bool} {bad : Prop} [Decidable bad] {repair : Bytes → Bytes}
    (h : bad → (fsck && fix) = true ∧ repair s.m = s.m) :
    ∃ s', repairOrFail fsck fix bad repair s = some s' ∧ s'.m = s.m := by
  unfold repairOrFail
  split_ifs with hbad hfix
  · exact ⟨_, rfl, (h hbad).2⟩
  · exact absurd (h hbad).1 hfix
  · exact ⟨s, rfl, rfl⟩

/-- What the repair of the alignment does to the fields. -/
theorem attrFields_aligned
    (h : repairOrFail fsck fix (attrValueOffset s.m a % 8 ≠ 0)
      (fun m => patch m (a + 20) (leBytes 2 ((attrValueOffset m a + 7) / 8 * 8))) s = some s') :
    attrFields s'.m a = (attrFields s.m a).alignValue := by
  rcases repairOrFail_cases h with ⟨haligned, rfl⟩ | ⟨-, -, hm⟩
  · have hlt : attrValueOffset s'.m a < 65536 := le16_lt _ _
    have hsame : (attrValueOffset s'.m a + 7) / 8 * 8 % 65536 = attrValueOffset s'.m a := by omega
    simp only [AttrFields.alignValue, attrFields, hsame]
  · rw [hm, attrFields_patch_valueOffset]
    rfl

/-- What the repair of the name offset does to the fields. -/
theorem attrFields_placedName
    (h : repairOrFail fsck fix (attrNameOffset s.m a ≠ 0 ∧ attrNameOffset s.m a < residentEnd)
      (fun m => patch m (a + 10) (leBytes 2 residentEnd)) s = some s') :
    attrFields s'.m a = (attrFields s.m a).placeName := by
  rcases repairOrFail_cases h with ⟨hbad, rfl⟩ | ⟨hbad, -, hm⟩
  · exact (if_neg hbad).symm
  · rw [hm, attrFields_patch_nameOffset]
    exact (if_pos hbad).symm

/-- What the repair of the value offset does to the fields. -/
theorem attrFields_placedValue
    {nameEnd : Nat}
    (h : repairOrFail fsck fix (attrValueOffset s.m a < nameEnd)
      (fun m => patch m (a + 20) (leBytes 2 nameEnd)) s = some s') :
    attrFields s'.m a = (attrFields s.m a).placeValue nameEnd := by
  rcases repairOrFail_cases h with ⟨hbad, rfl⟩ | ⟨hbad, -, hm⟩
  · exact (if_neg hbad).symm
  · rw [hm, attrFields_patch_valueOffset]
    exact (if_pos hbad).symm

/-- What the repair of the length does to the fields. -/
theorem attrFields_stretched
    (hshort : attrValueLength s.m a < 2 ^ 24)
    (h : repairOrFail fsck fix (attrLength s.m a < valueEnd s.m a ∨ attrLength s.m a < residentEnd)
      (fun m => patch m (a + 4) (leBytes 4 (valueEnd m a))) s = some s') :
    attrFields s'.m a = (attrFields s.m a).stretch := by
  have hlt : attrValueOffset s.m a < 65536 := le16_lt _ _
  rcases repairOrFail_cases h with ⟨hbad, rfl⟩ | ⟨hbad, -, hm⟩
  · exact (if_neg hbad).symm
  · have hsmall : valueEnd s.m a % 2 ^ 32 = valueEnd s.m a := by
      unfold valueEnd
      omega
    rw [hm, attrFields_patch_length, hsmall]
    exact (if_pos hbad).symm

/-- What the check of a resident attribute found, from the fields before to those after. -/
structure ResidentAccepted (vol : CheckVolume) (fsck : Bool) (a : Nat) (f g : AttrFields) :
    Prop where
  fields : g = f.repaired
  short : f.valueLength < 2 ^ 24
  fits : f.valueLength ≤ vol.mftRecordSize
  placed : g.valueOffset ≠ 0
  header : g.length < residentEnd → (fsck && vol.fix .attrLengthCorrupted a) = true
  wide : 65536 ≤ f.nameEnd → (fsck && vol.fix .attrValueOffsetCorrupted a) = true

/-- What the checks of a resident attribute make of its fields. -/
theorem residentCheck_accepted
    (h : residentCheck vol fsck a s = some s') :
    ResidentAccepted vol fsck a (attrFields s.m a) (attrFields s'.m a) := by
  unfold residentCheck at h
  split_ifs at h with hlong
  obtain ⟨s1, h1, h⟩ := Option.bind_eq_some_iff.mp h
  obtain ⟨s2, h2, h⟩ := Option.bind_eq_some_iff.mp h
  obtain ⟨s3, h3, h⟩ := Option.bind_eq_some_iff.mp h
  split_ifs at h with hvalue
  have hf1 := attrFields_aligned h1
  have hf2 := attrFields_placedName h2
  have hf3 := attrFields_placedValue h3
  have hlength : attrValueLength s3.m a = attrValueLength s.m a := by
    have hfield := congrArg AttrFields.valueLength hf3
    rw [hf2, hf1, AttrFields.placeValue_valueLength, AttrFields.placeName_valueLength] at hfield
    exact hfield
  have hf4 := attrFields_stretched (by omega) h
  have hfields : attrFields s'.m a = (attrFields s.m a).repaired := by
    rw [hf4, hf3, hf2, hf1]
    rfl
  refine ⟨hfields, by simpa [attrFields] using hlong, ?_, ?_, ?_, ?_⟩
  · show attrValueLength s.m a ≤ _
    omega
  · rw [hf4, AttrFields.stretch_valueOffset]
    show attrValueOffset s3.m a ≠ 0
    omega
  · intro hheader
    rcases repairOrFail_cases h with ⟨hbad, rfl⟩ | ⟨-, hanswer, -⟩
    · exact absurd (Or.inr hheader) hbad
    · exact hanswer
  · intro hwide
    rcases repairOrFail_cases h3 with ⟨hbad, -⟩ | ⟨-, hanswer, -⟩
    · have hlt : attrValueOffset s2.m a < 65536 := le16_lt _ _
      exact absurd (Nat.lt_of_lt_of_le hlt hwide) hbad
    · exact hanswer

/-- Fields that the check of a resident attribute has nothing to say about, the name apart. -/
structure SettledFields (vol : CheckVolume) (fsck : Bool) (a : Nat) (g : AttrFields) : Prop where
  short : g.valueLength < 2 ^ 24
  fits : g.valueLength ≤ vol.mftRecordSize
  aligned : g.valueOffset % 8 = 0
  name : ¬(g.nameOffset ≠ 0 ∧ g.nameOffset < residentEnd)
  placed : g.valueOffset ≠ 0
  long : g.valueEnd ≤ g.length
  header : g.length < residentEnd →
    g.length = g.valueEnd ∧ (fsck && vol.fix .attrLengthCorrupted a) = true

/-- The repairs leave fields that need no more repair, but for the name. -/
theorem ResidentAccepted.settled
    {f g : AttrFields}
    (h : ResidentAccepted vol fsck a f g) :
    SettledFields vol fsck a g := by
  have hlength := f.repaired_kept.2.2.2
  obtain ⟨hfields, hshort, hfits, hplaced, hheader, -⟩ := h
  have hstretch := (f.alignValue.placeName.placeValue f.nameEnd).valueEnd_le_stretch
  subst hfields
  refine ⟨by omega, by omega, ?_, ?_, hplaced, hstretch.1, ?_⟩
  · rw [f.repaired_valueOffset, AttrFields.nameEnd]
    split_ifs <;> omega
  · rw [f.repaired_nameOffset]
    split_ifs with hbad
    · exact fun hcon => absurd hcon.2 (Nat.lt_irrefl _)
    · exact hbad
  · exact fun hlt => ⟨hstretch.2 hlt, hheader hlt⟩

/-- Settled fields pass the checks again, if the name does not run into the value. -/
theorem residentCheck_settled
    (h : SettledFields vol fsck a (attrFields s.m a))
    (hname : (attrFields s.m a).valueOffset < (attrFields s.m a).nameEnd →
      (attrFields s.m a).nameEnd % 65536 = (attrFields s.m a).valueOffset ∧
        (fsck && vol.fix .attrValueOffsetCorrupted a) = true) :
    ∃ s', residentCheck vol fsck a s = some s' ∧ s'.m = s.m := by
  obtain ⟨hshort, hfits, haligned, hoffset, hplaced, hlong, hheader⟩ := h
  change attrValueLength s.m a < 2 ^ 24 at hshort
  change attrValueLength s.m a ≤ vol.mftRecordSize at hfits
  change attrValueOffset s.m a % 8 = 0 at haligned
  change ¬(attrNameOffset s.m a ≠ 0 ∧ attrNameOffset s.m a < residentEnd) at hoffset
  change attrValueOffset s.m a ≠ 0 at hplaced
  change valueEnd s.m a ≤ attrLength s.m a at hlong
  have hlow : attrValueOffset s.m a ≤ valueEnd s.m a ∧ attrValueLength s.m a ≤ valueEnd s.m a := by
    unfold valueEnd
    omega
  -- both repairs that are left store what is there
  obtain ⟨s3, h3, hm3⟩ := @repairOrFail_of_answer fsck s (vol.fix .attrValueOffsetCorrupted a)
    (attrValueOffset s.m a < (attrNameOffset s.m a + attrNameLength s.m a * 2 + 7) / 8 * 8) _
    (fun m => patch m (a + 20)
      (leBytes 2 ((attrNameOffset s.m a + attrNameLength s.m a * 2 + 7) / 8 * 8))) (fun hbad => by
      obtain ⟨hsame, hanswer⟩ := hname hbad
      refine ⟨hanswer, HoldsBytes.patch_eq ?_⟩
      rw [← leBytes_mod]
      have hfield := holdsBytes_leBytes s.m (a + 20) 2
      rwa [show leNat s.m (a + 20) 2 = _ from hsame.symm] at hfield)
  obtain ⟨s4, h4, hm4⟩ := @repairOrFail_of_answer fsck s3 (vol.fix .attrLengthCorrupted a)
    (attrLength s3.m a < valueEnd s3.m a ∨ attrLength s3.m a < residentEnd) _
    (fun m => patch m (a + 4) (leBytes 4 (valueEnd m a))) (fun hbad => by
      rw [hm3] at hbad ⊢
      obtain ⟨hsame, hanswer⟩ := hheader (hbad.resolve_left (Nat.not_lt.mpr hlong))
      refine ⟨hanswer, HoldsBytes.patch_eq ?_⟩
      have hfield := holdsBytes_leBytes s.m (a + 4) 4
      rwa [show leNat s.m (a + 4) 4 = valueEnd s.m a from hsame] at hfield)
  refine ⟨s4, ?_, hm4.trans hm3⟩
  unfold residentCheck
  rw [if_neg (Nat.not_le.mpr hshort), repairOrFail, if_neg (not_not.mpr haligned),
    Option.bind_some, repairOrFail, if_neg hoffset, Option.bind_some, h3, Option.bind_some,
    if_neg (by rw [hm3]; omega), h4]

/-- If it does, the value is moved once more. -/
theorem residentCheck_moves
    (h : SettledFields vol fsck a (attrFields s.m a))
    (hname : (attrFields s.m a).valueOffset < (attrFields s.m a).nameEnd)
    (hok : residentCheck vol fsck a s = some s') :
    (attrFields s'.m a).valueOffset = (attrFields s.m a).nameEnd % 65536 := by
  have haligned := h.aligned
  rw [(residentCheck_accepted hok).fields, AttrFields.repaired_valueOffset, if_pos (by omega)]

end Resident

section ByType

variable {vol : CheckVolume} {isFsck fsck : Bool} {a : Nat} {s s' : Checked}

/-- A check that accepts what it leaves behind, as it is. -/
def AcceptsAgain (check : Checked → Option Checked) (m : Bytes) : Prop :=
  ∀ u : Checked, u.m = m → check u = some u

/-- The check of a file name accepts what it leaves. -/
theorem checkFileName_again
    (h : checkFileName vol fsck a s = some s') :
    attrFields s'.m a = attrFields s.m a ∧ AcceptsAgain (checkFileName vol fsck a) s'.m := by
  unfold checkFileName at h
  dsimp only at h
  split_ifs at h with hbad hflag hfsck hfix
  · cases h
    refine ⟨rfl, fun u hu => ?_⟩
    rw [checkFileName, hu, if_neg hbad, if_pos hflag]
  · cases h
    have hsame : ∀ j, j ≠ 22 → setByte s.m (a + 22) 1 (a + j) = s.m (a + j) := fun j hj =>
      setByte_of_ne _ _ (by omega)
    have hfields : attrFields (setByte s.m (a + 22) 1) a = attrFields s.m a :=
      attrFields_congr (fun j hj => hsame j (by omega))
    have hname : setByte s.m (a + 22) 1 (a + attrValueOffset s.m a + 64) =
        s.m (a + attrValueOffset s.m a + 64) := by
      rw [Nat.add_assoc]
      exact hsame _ (by omega)
    refine ⟨hfields, fun u hu => ?_⟩
    change u.m = setByte s.m (a + 22) 1 at hu
    have hoffset : attrValueOffset u.m a = attrValueOffset s.m a := by
      rw [hu]
      exact congrArg AttrFields.valueOffset hfields
    have hlength : attrValueLength u.m a = attrValueLength s.m a := by
      rw [hu]
      exact congrArg AttrFields.valueLength hfields
    have hform : attrNonResident u.m a = attrNonResident s.m a := by
      rw [hu]
      exact congrArg AttrFields.nonResident hfields
    have hflag' : attrResidentFlags u.m a = 1 := by
      rw [hu, attrResidentFlags, setByte_same]
      rfl
    rw [checkFileName, hoffset, hlength, hform, hu, hname, if_neg hbad, ← hu, if_pos hflag']
  · cases h
    refine ⟨rfl, fun u hu => ?_⟩
    rw [checkFileName, hu, if_neg hbad, if_neg hflag, if_neg hfsck, if_neg hfix]

theorem siEffLen_cases
    (n : Nat) :
    siEffLen n = 48 ∨ siEffLen n = 72 := by
  unfold siEffLen
  split_ifs <;> omega

theorem siEffLen_le
    {n : Nat}
    (h : 48 ≤ n) :
    48 ≤ siEffLen n ∧ siEffLen n ≤ n := by
  unfold siEffLen
  split_ifs <;> omega

/-- The effective length is its own effective length. -/
theorem siEffLen_siEffLen
    (n : Nat) :
    siEffLen (siEffLen n) = siEffLen n := by
  rcases siEffLen_cases n with h | h <;> rw [h] <;> rfl

section StandardInformation

variable (m : Bytes) (a : Nat)

/-- The repair of the length changes the length only. -/
theorem repairSiLength_spec :
    attrFields (repairSiLength m a) a =
      { attrFields m a with valueLength := siEffLen (attrValueLength m a) } ∧
    ∀ j, a + 20 ≤ j → repairSiLength m a j = m j := by
  unfold repairSiLength
  split_ifs with hbad
  · have hsmall : siEffLen (attrValueLength m a) % 2 ^ 32 = siEffLen (attrValueLength m a) := by
      rcases siEffLen_cases (attrValueLength m a) with h | h <;> omega
    rw [attrFields_patch_valueLength, hsmall]
    exact ⟨rfl, fun j hj => patch_of_ne m (by rw [leBytes_length]; omega)⟩
  · rw [← not_not.mp hbad]
    exact ⟨rfl, fun _ _ => rfl⟩

/-- The repair of the reserved fields clears them and keeps the file attributes. -/
theorem repairSiReserved_spec :
    attrFields (repairSiReserved m a) a =
      { attrFields m a with valueLength := siEffLen (attrValueLength m a) } ∧
    (siEffLen (attrValueLength m a) = 48 →
      HoldsBytes (repairSiReserved m a) (a + attrValueOffset m a + 36) (List.replicate 12 0)) ∧
    le32 (repairSiReserved m a) (a + attrValueOffset m a + 32) = siFileAttributes m a := by
  obtain ⟨hfields, hsame⟩ := repairSiLength_spec m a
  unfold repairSiReserved
  split_ifs with hbad
  · refine ⟨?_, fun _ => holdsBytes_patch _ _ _, ?_⟩
    · rw [← hfields]
      exact attrFields_congr (fun j hj => patch_of_ne _ (by omega))
    · exact leNat_congr (fun i hi => by
        rw [patch_of_ne _ (by omega), hsame _ (by omega)])
  · refine ⟨hfields, fun hshort => ?_, ?_⟩
    · have hzero : bytesAt m (a + attrValueOffset m a + 36) 12 = List.replicate 12 0 := by
        by_contra hne
        exact hbad ⟨hshort, hne⟩
      rw [← hzero]
      exact (holdsBytes_bytesAt m _ 12).frame (fun j hj _ => hsame j (by omega))
    · exact leNat_congr (fun i hi => hsame _ (by omega))

/-- The repairs of a `$STANDARD_INFORMATION` change one header field and leave nothing to do. -/
theorem repairStandardInformation_spec :
    attrFields (repairStandardInformation m a) a =
      { attrFields m a with valueLength := siEffLen (attrValueLength m a) } ∧
    ¬(siBadLen (repairStandardInformation m a) a ∨
      siBadReserved (repairStandardInformation m a) a ∨
      siBadFlags (repairStandardInformation m a) a) := by
  obtain ⟨hfields₂, hreserved₂, hflags₂⟩ := repairSiReserved_spec m a
  have hfields : attrFields (repairStandardInformation m a) a =
      { attrFields m a with valueLength := siEffLen (attrValueLength m a) } := by
    rw [← hfields₂]
    unfold repairStandardInformation
    split_ifs
    · exact attrFields_congr (fun j hj => patch_of_ne _ (by omega))
    · rfl
  have hreserved : siEffLen (attrValueLength m a) = 48 →
      HoldsBytes (repairStandardInformation m a) (a + attrValueOffset m a + 36)
        (List.replicate 12 0) := by
    intro hshort
    unfold repairStandardInformation
    split_ifs
    · exact (hreserved₂ hshort).frame (fun j hj _ => patch_of_ne _ (by
        rw [leBytes_length]
        omega))
    · exact hreserved₂ hshort
  have hflags : le32 (repairStandardInformation m a) (a + attrValueOffset m a + 32) &&&
      validSiFlags = le32 (repairStandardInformation m a) (a + attrValueOffset m a + 32) := by
    unfold repairStandardInformation
    split_ifs with hbad
    · have hlt : siFileAttributes m a &&& validSiFlags < 256 ^ 4 :=
        Nat.lt_of_le_of_lt Nat.and_le_left (le32_lt m _)
      rw [le32, leNat_patch, Nat.mod_eq_of_lt hlt, Nat.and_assoc, Nat.and_self]
    · rw [hflags₂]
      exact not_not.mp hbad
  have hoffset : attrValueOffset (repairStandardInformation m a) a = attrValueOffset m a :=
    congrArg AttrFields.valueOffset hfields
  have hlength : attrValueLength (repairStandardInformation m a) a =
      siEffLen (attrValueLength m a) :=
    congrArg AttrFields.valueLength hfields
  refine ⟨hfields, ?_⟩
  rintro (hlen | ⟨hshort, hne⟩ | hbad)
  · rw [siBadLen, hlength, siEffLen_siEffLen] at hlen
    exact hlen rfl
  · rw [hlength, siEffLen_siEffLen] at hshort
    rw [hoffset] at hne
    exact hne (hreserved hshort).bytesAt_eq
  · rw [siBadFlags, siFileAttributes, hoffset] at hbad
    exact hbad hflags

end StandardInformation

/-- The check of a `$STANDARD_INFORMATION`: only the length and bytes of the value change. -/
theorem checkStandardInformation_again
    (h : checkStandardInformation vol isFsck fsck a s = some s') :
    48 ≤ attrValueLength s.m a ∧
    attrFields s'.m a = { attrFields s.m a with
      valueLength := if isFsck = true ∧ siRepairDeclined vol fsck a = false then
        siEffLen (attrValueLength s.m a) else attrValueLength s.m a } ∧
    AcceptsAgain (checkStandardInformation vol isFsck fsck a) s'.m := by
  unfold checkStandardInformation at h
  split_ifs at h with hbad hfound hfsck hdeclined
  · cases h
    refine ⟨by omega, ?_, fun u hu => ?_⟩
    · rw [if_neg (by simp [hdeclined])]
      rfl
    · rw [checkStandardInformation, hu, if_neg hbad, if_neg (not_not.mpr hfound), if_neg hfsck,
        if_pos hdeclined]
  · cases h
    obtain ⟨hfields, hgood⟩ := repairStandardInformation_spec s.m a
    have hlength : attrValueLength (repairStandardInformation s.m a) a =
        siEffLen (attrValueLength s.m a) :=
      congrArg AttrFields.valueLength hfields
    have hform : attrNonResident (repairStandardInformation s.m a) a = attrNonResident s.m a :=
      congrArg AttrFields.nonResident hfields
    have hlong := siEffLen_le (show 48 ≤ attrValueLength s.m a by omega)
    refine ⟨by omega, ?_, fun u hu => ?_⟩
    · rw [if_pos (by simpa using And.intro hfsck hdeclined)]
      exact hfields
    · rw [checkStandardInformation, hu, hlength, hform, if_neg (by omega), if_pos hgood]
  · cases h
    have hlen : siEffLen (attrValueLength s.m a) = attrValueLength s.m a := by
      by_contra hne
      exact hfound (Or.inl (Ne.symm hne))
    refine ⟨by omega, ?_, fun u hu => ?_⟩
    · rw [hlen, ite_self]
      rfl
    · rw [checkStandardInformation, hu, if_neg hbad, if_pos hfound]

/-- The check by type accepts what it leaves. -/
theorem typeCheck_again
    (h : typeCheck vol isFsck fsck a s = some s') :
    attrFields s'.m a =
      { attrFields s.m a with valueLength := repairedValueLength vol a isFsck fsck s.m } ∧
    (attrType s.m a = 0x10 → 48 ≤ attrValueLength s.m a) ∧
    AcceptsAgain (typeCheck vol isFsck fsck a) s'.m := by
  by_cases hfile : attrType s.m a = atFileName
  · rw [typeCheck, if_pos hfile] at h
    obtain ⟨hfields, hagain⟩ := checkFileName_again h
    have htype : attrType s'.m a = atFileName :=
      (congrArg AttrFields.type hfields).trans hfile
    have hne : attrType s.m a ≠ 0x10 := by
      rw [hfile]
      decide
    refine ⟨?_, fun hsi => absurd hsi hne, fun u hu => ?_⟩
    · rw [hfields, repairedValueLength, if_neg (fun hsi => hne hsi.1)]
      rfl
    · rw [typeCheck, hu, if_pos htype]
      exact hagain u hu
  · by_cases hsi : attrType s.m a = 0x10
    · have hroot : attrType s.m a ≠ atIndexRoot := by
        rw [hsi]
        decide
      rw [typeCheck, if_neg hfile, if_neg hroot, if_pos hsi] at h
      obtain ⟨hlong, hfields, hagain⟩ := checkStandardInformation_again h
      have htype : attrType s'.m a = attrType s.m a := congrArg AttrFields.type hfields
      refine ⟨?_, fun _ => hlong, fun u hu => ?_⟩
      · rw [hfields, repairedValueLength]
        simp only [hsi, true_and]
      · rw [typeCheck, hu, htype, if_neg hfile, if_neg hroot, if_pos hsi]
        exact hagain u hu
    · -- the other checks accept or refuse
      have hsame : s' = s := by
        unfold typeCheck at h
        dsimp only at h
        split_ifs at h <;> exact (Option.some.inj h).symm
      subst hsame
      refine ⟨?_, fun hcon => absurd hcon hsi, fun u hu => ?_⟩
      · rw [repairedValueLength, if_neg (fun hcon => hsi hcon.1)]
        rfl
      · unfold typeCheck at h ⊢
        dsimp only at h ⊢
        rw [hu]
        split_ifs at h ⊢ <;> rfl

end ByType

section Sound

variable {vol : CheckVolume} {isFsck fsck : Bool} {mref a : Nat} {s s' : Checked}

/-- A non-resident attribute is not checked by type. -/
theorem typeCheck_nonResident
    (hres : attrNonResident s.m a ≠ 0)
    (h : typeCheck vol isFsck fsck a s = some s') :
    s' = s := by
  unfold typeCheck checkFileName checkStandardInformation at h
  dsimp only at h
  rw [if_pos (Or.inl hres), if_pos (Or.inl hres)] at h
  split_ifs at h <;> exact (Option.some.inj h).symm

/-- An accepted non-resident attribute: its name must end before the mapping pairs. -/
theorem soundAttr_nonResident_iff
    {m : Bytes}
    (hres : attrNonResident m a ≠ 0)
    (hin : a + attrLength m a ≤ vol.mftRecordSize)
    (hok : nonResidentOk m a) :
    SoundAttr vol.mftRecordSize m a ↔ attrNameLength m a = 0 ∨
        attrNameOffset m a + attrNameLength m a * 2 ≤ attrMappingPairsOffset m a := by
  obtain ⟨-, -, -, hpairs, hname, -⟩ := hok
  have hstart : contentStart m a = attrMappingPairsOffset m a := if_pos hres
  have hend : contentEnd m a = attrLength m a := if_pos hres
  constructor
  · intro hsound
    by_contra hcon
    -- the last byte of the name
    have hlast := hsound.apart (attrNameOffset m a + attrNameLength m a * 2 - 1)
    omega
  · intro hcondition
    refine ⟨hin, hname, by omega, ?_⟩
    omega

/-- What the whole check makes of a resident attribute. -/
theorem attrInconsistent_resident
    (hres : attrNonResident s.m a = 0)
    (hok : attrInconsistent vol isFsck fsck a s = some s') :
    ∃ g, ResidentAccepted vol fsck a (attrFields s.m a) g ∧ attrFields s'.m a =
        { g with valueLength := repairedValueLength vol a isFsck fsck s.m } ∧
      repairedValueLength vol a isFsck fsck s.m ≤ g.valueLength ∧
      (repairedValueLength vol a isFsck fsck s.m ≠ g.valueLength → 48 ≤ g.valueLength) ∧
      AcceptsAgain (typeCheck vol isFsck fsck a) s'.m := by
  obtain ⟨s1, h1, h2⟩ := Option.bind_eq_some_iff.mp hok
  rw [if_neg (not_not.mpr hres)] at h1
  have haccepted := residentCheck_accepted h1
  obtain ⟨hfields, hlong, hagain⟩ := typeCheck_again h2
  obtain ⟨htype, -, -, hlength⟩ := (attrFields s.m a).repaired_kept
  rw [← haccepted.fields] at htype hlength
  change attrType s1.m a = attrType s.m a at htype
  change attrValueLength s1.m a = attrValueLength s.m a at hlength
  have hsame : repairedValueLength vol a isFsck fsck s1.m =
      repairedValueLength vol a isFsck fsck s.m := by
    unfold repairedValueLength
    rw [htype, hlength]
  rw [hsame] at hfields
  refine ⟨attrFields s1.m a, haccepted, hfields, ?_, ?_, hagain⟩
  · rw [← hsame]
    unfold repairedValueLength
    split_ifs with hsi
    · exact (siEffLen_le (hlong hsi.1)).2
    · exact le_rfl
  · rw [← hsame]
    unfold repairedValueLength
    split_ifs with hsi
    · exact fun _ => hlong hsi.1
    · exact fun hne => absurd rfl hne

/-- Shortening the value of an attribute that holds its header keeps the fields settled. -/
theorem SettledFields.shorten
    {g : AttrFields} {n : Nat}
    (h : SettledFields vol fsck a g)
    (hle : n ≤ g.valueLength)
    (hlong : n ≠ g.valueLength → 48 ≤ g.valueLength) :
    SettledFields vol fsck a { g with valueLength := n } := by
  obtain ⟨hshort, hfits, haligned, hname, hplaced, hend, hheader⟩ := h
  unfold AttrFields.valueEnd at hend hheader
  refine ⟨Nat.lt_of_le_of_lt hle hshort, hle.trans hfits, haligned, hname, hplaced, ?_, ?_⟩
  · unfold AttrFields.valueEnd
    dsimp only
    omega
  · intro hlt
    rw [residentEnd] at hlt
    have hsame : n = g.valueLength := by
      dsimp only at hlt
      omega
    subst hsame
    exact hheader hlt

/-- A name that ends beyond 16 bits has not moved, and the value has. -/
theorem ResidentAccepted.wide_name
    {f g : AttrFields}
    (h : ResidentAccepted vol fsck a f g)
    (hshort : f.nameLength < 256)
    (hwide : 65536 ≤ g.nameEnd) :
    g.nameEnd % 65536 = g.valueOffset ∧ (fsck && vol.fix .attrValueOffsetCorrupted a) = true := by
  have hlength := f.repaired_kept.2.2.1
  have hoffset := f.repaired_nameOffset
  have hvalue := f.repaired_valueOffset
  rw [← h.fields] at hlength hoffset hvalue
  have hend : f.nameEnd = g.nameEnd := by
    rw [AttrFields.nameEnd, hoffset] at hwide
    rw [AttrFields.nameEnd, AttrFields.nameEnd, hlength, hoffset]
    split_ifs at hwide ⊢ with hlow
    · rw [residentEnd] at hwide
      omega
    · rfl
  rw [hend, if_pos (by omega)] at hvalue
  exact ⟨hvalue.symm, h.wide (by omega)⟩

/-- A second check changes nothing exactly when the name ends before the value. -/
theorem attrInconsistent_again_iff
    (hres : attrNonResident s'.m a = 0)
    (hsettled : SettledFields vol fsck a (attrFields s'.m a))
    (hwide : 65536 ≤ (attrFields s'.m a).nameEnd →
      (attrFields s'.m a).nameEnd % 65536 = (attrFields s'.m a).valueOffset ∧
        (fsck && vol.fix .attrValueOffsetCorrupted a) = true)
    (hagain : AcceptsAgain (typeCheck vol isFsck fsck a) s'.m) :
    (∃ s'', attrInconsistent vol isFsck fsck a s' = some s'' ∧ s''.m = s'.m) ↔
      (attrFields s'.m a).nameEnd ≤ (attrFields s'.m a).valueOffset ∨
        65536 ≤ (attrFields s'.m a).nameEnd := by
  constructor
  · rintro ⟨s'', hok, hsame⟩
    by_contra hcon
    obtain ⟨t, h1, h2⟩ := Option.bind_eq_some_iff.mp hok
    rw [if_neg (not_not.mpr hres)] at h1
    have hmoved := residentCheck_moves hsettled (by omega) h1
    have hkept : attrValueOffset s''.m a = attrValueOffset t.m a :=
      congrArg AttrFields.valueOffset (typeCheck_again h2).1
    rw [hsame] at hkept
    change attrValueOffset t.m a = _ at hmoved
    have hoffset : (attrFields s'.m a).valueOffset = attrValueOffset s'.m a := rfl
    omega
  · intro hname
    obtain ⟨t, h1, hm⟩ := residentCheck_settled hsettled (fun hlt => hwide (by omega))
    refine ⟨t, ?_, hm⟩
    rw [attrInconsistent, if_neg (not_not.mpr hres), h1]
    exact hagain t hm

/-- When settled fields are those of a sound attribute. -/
theorem soundAttr_resident_iff
    {m : Bytes}
    (hres : attrNonResident m a = 0)
    (hsettled : SettledFields vol fsck a (attrFields m a))
    (hwide : 65536 ≤ (attrFields m a).nameEnd →
      (attrFields m a).nameEnd % 65536 = (attrFields m a).valueOffset)
    (hname : (attrFields m a).nameEnd ≤ (attrFields m a).valueOffset ∨
      65536 ≤ (attrFields m a).nameEnd) :
    SoundAttr vol.mftRecordSize m a ↔ a + attrLength m a ≤ vol.mftRecordSize ∧
      ((attrFields m a).nameEnd ≤ (attrFields m a).valueOffset ∨
        attrNameLength m a = 0 ∨ attrNameOffset m a + attrNameLength m a * 2 ≤ attrLength m a ∧
            attrValueOffset m a + attrValueLength m a ≤ attrNameOffset m a) := by
  have hend := hsettled.long
  have hshort : attrNameLength m a < 256 := (m (a + 9)).toNat_lt
  unfold AttrFields.nameEnd AttrFields.valueEnd at *
  dsimp only [attrFields] at *
  have hcstart : contentStart m a = attrValueOffset m a := if_neg (not_not.mpr hres)
  have hcend : contentEnd m a = attrValueOffset m a + attrValueLength m a :=
    if_neg (not_not.mpr hres)
  constructor
  · intro hsound
    refine ⟨hsound.record, ?_⟩
    have hin := hsound.name
    -- the first byte of a name behind the value
    have hfirst := hsound.apart (attrNameOffset m a)
    omega
  · rintro ⟨hrecord, hparts⟩
    refine ⟨hrecord, by omega, by omega, ?_⟩
    omega

/-- When an accepted attribute is sound and settled. -/
theorem attrInconsistent_sound_iff
    (hin : a + attrLength s.m a ≤ vol.mftRecordSize)
    (hok : attrInconsistentIn vol mref a s = some s') :
    SettledAttr vol mref a s' ↔ RepairCondition vol mref a s.m := by
  unfold RepairCondition SettledAttr attrInconsistentIn
  split_ifs with hres
  · obtain ⟨s1, h1, h2⟩ := Option.bind_eq_some_iff.mp hok
    split_ifs at h1 with hpassed
    cases h1
    obtain rfl := typeCheck_nonResident hres h2
    rw [← soundAttr_nonResident_iff hres hin hpassed]
    exact ⟨fun h => h.1, fun h => ⟨h, s', hok, rfl⟩⟩
  · rw [not_not] at hres
    obtain ⟨g, haccepted, hfields, hle, hlong, hagain⟩ := attrInconsistent_resident hres hok
    have hsettled := haccepted.settled.shorten hle hlong
    have hwide := haccepted.wide_name (s.m (a + 9)).toNat_lt
    rw [← hfields] at hsettled
    have hform : attrNonResident s'.m a = 0 := by
      have hkept := congrArg AttrFields.nonResident hfields
      rw [haccepted.fields] at hkept
      exact hkept.trans ((attrFields s.m a).repaired_kept.2.1.trans hres)
    have hwide' : 65536 ≤ (attrFields s'.m a).nameEnd →
        (attrFields s'.m a).nameEnd % 65536 = (attrFields s'.m a).valueOffset ∧
          ((vol.fsck && decide (1 < mref)) && vol.fix .attrValueOffsetCorrupted a) = true := by
      rw [hfields]
      exact hwide
    have hsecond := attrInconsistent_again_iff hform hsettled hwide' hagain
    have hparts := soundAttr_resident_iff hform hsettled (fun h => (hwide' h).1)
    -- both sides in terms of the fields after the check
    rw [← haccepted.fields]
    have hend : (attrFields s'.m a).nameEnd = g.nameEnd := by
      rw [hfields]
      rfl
    have hvalue : (attrFields s'.m a).valueOffset = g.valueOffset := by rw [hfields]
    have hoffset : attrValueOffset s'.m a = g.valueOffset := hvalue
    have hlength : attrLength s'.m a = g.length := congrArg AttrFields.length hfields
    have hnameLength : attrNameLength s'.m a = g.nameLength :=
      congrArg AttrFields.nameLength hfields
    have hnameOffset : attrNameOffset s'.m a = g.nameOffset :=
      congrArg AttrFields.nameOffset hfields
    have hvalueLength : attrValueLength s'.m a =
        repairedValueLength vol a vol.fsck (vol.fsck && decide (1 < mref)) s.m :=
      congrArg AttrFields.valueLength hfields
    rw [hend, hvalue, hoffset, hlength, hnameLength, hnameOffset, hvalueLength] at hparts
    rw [hend, hvalue] at hsecond
    constructor
    · rintro ⟨hsound, hagain'⟩
      have hname := hsecond.mp hagain'
      obtain ⟨hrecord, hcase⟩ := (hparts hname).mp hsound
      refine ⟨hrecord, ?_⟩
      rcases hcase with hbefore | hbehind
      · exact Or.inl hbefore
      · exact hname.imp_right (fun hlarge => ⟨hlarge, hbehind⟩)
    · rintro ⟨hrecord, hcase⟩
      have hname := hcase.imp_right And.left
      exact ⟨(hparts hname).mpr ⟨hrecord, hcase.imp_right And.right⟩, hsecond.mpr hname⟩

/-- A volume under repair where every question is answered yes. -/
def repairedVolume : CheckVolume :=
  { mountedVolume with fsck := true, fix := fun _ _ => true }

/-- A named `$DATA` attribute of 32 bytes with a value of 8 at offset 24. -/
def namedData (nameOffset : Nat) : Bytes :=
  patches (recordHeader 96) 56
    [(0, leBytes 4 0x80), (4, leBytes 4 32), (9, leBytes 1 4), (10, leBytes 2 nameOffset),
      (16, leBytes 4 8), (20, leBytes 2 24)]

/--
A name that starts at 10 ends at 18, in front of the value.  The repair moves it
to 24, where the value is.
-/
theorem attrInconsistent_moves_name_onto_value :
    56 + attrLength (namedData 10) 56 ≤ 1024 ∧
    ∃ s', attrInconsistentIn repairedVolume 24 56 ⟨namedData 10, false⟩ = some s' ∧
      attrNameOffset s'.m 56 = 24 ∧ attrNameLength s'.m 56 = 4 ∧
      attrValueOffset s'.m 56 = 24 ∧ attrValueLength s'.m 56 = 8 ∧
      ¬SettledAttr repairedVolume 24 56 s' := by
  refine ⟨by decide +kernel, ⟨patch (namedData 10) (56 + 10) (leBytes 2 24), true⟩, rfl,
    by decide +kernel, by decide +kernel, by decide +kernel, by decide +kernel, ?_⟩
  rintro ⟨hsound, -⟩
  have hapart := hsound.apart 24
  revert hapart
  decide +kernel

/-- A value on top of the name is moved behind it, and the attribute is stretched over it. -/
theorem attrInconsistent_sound_named :
    SettledAttr repairedVolume 24 56
      ⟨patch (patch (namedData 24) (56 + 20) (leBytes 2 32)) (56 + 4) (leBytes 4 40), true⟩ :=
  (@attrInconsistent_sound_iff repairedVolume 24 56 ⟨namedData 24, false⟩ _
    (by decide +kernel) rfl).mpr (by
      unfold RepairCondition
      decide +kernel)

end Sound

end NtfsPlus.Libntfs

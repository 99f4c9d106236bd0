import NtfsPlus.Libntfs.Ea

/-!
# What a failing update of extended attributes leaves

`ntfs_set_ntfs_ea` with every step that can fail and with the attributes as they are then.

`setNtfsEa_atomic_iff`: after which failures the two attributes are as they should
be.  Attributes that were added stay, a write that fails may have changed the attribute
already, only the old `$EA_INFORMATION` is written back, and an `$EA` that cannot be opened
is not even reported.
-/

namespace NtfsPlus.Libntfs

section Model

/-- Two attributes with the same value, or none. -/
def SameAttr : Option AttrValue → Option AttrValue → Prop
  | none, none => True
  | some a, some b => a.size = b.size ∧ ∀ j < b.size, a.bytes j = b.bytes j
  | _, _ => False

/-- Both attributes hold the new values. -/
def EaHolds (st : EaAttrs) (value : Bytes) (size : Nat) (info : List UInt8) : Prop :=
  ∃ ea eaInfo, st = ⟨some ea, some eaInfo⟩ ∧ ea.size = size ∧ (∀ j < size, ea.bytes j = value j) ∧
    eaInfoSize ≤ eaInfo.size ∧ ∀ j < eaInfoSize, eaInfo.bytes j = infoBuffer info j

/-- Success with the new values, or failure with the old attributes. -/
def EaAtomic (st : EaAttrs) (value : Bytes) (size : Nat) : Option Errno × EaAttrs → Prop
  | (none, st') => ∃ info, acceptedInfo value size = some info ∧ EaHolds st' value size info
  | (some _, st') => SameAttr st'.ea st.ea ∧ SameAttr st'.eaInfo st.eaInfo

/-- `$EA_INFORMATION` was there, and is put back or need not be. -/
def InfoKept (f : EaFaults) (st : EaAttrs) (info : List UInt8) : Prop :=
  ∃ old, st.eaInfo = some old ∧
    match f.readOld, f.restoreInfo with
    | true, _ => eaInfoSize ≤ old.size ∧ ∀ j < eaInfoSize, old.bytes j = infoBuffer info j
    | false, some (_, left) => SameAttr (some left) (some old)
    | false, none => eaInfoSize ≤ old.size

variable (vol : EaVolume) (f : EaFaults)

/-- When `$EA` is as it was after it could not be cut or written, by the step that fails. -/
def EaKept (st : EaAttrs) (ea : AttrValue) (size : Nat) : Prop :=
  match if size < ea.size then attrSizeBoundsCheck vol.eaDef size else none,
    if size < ea.size then f.truncateEa else none,
    if ea.size < size then attrSizeBoundsCheck vol.eaDef size else none, f.writeEa with
  | some _, _, _, _ => st.ea.isSome
  | none, some (_, left), _, _ => SameAttr (some left) st.ea
  | none, none, some _, _ => st.ea.isSome
  | none, none, none, some (_, left) => SameAttr (some left) st.ea
  | none, none, none, none => False

/-- `$EA` is cut and written. -/
def EaWrites (ea : AttrValue) (size : Nat) : Prop :=
  (ea.size ≠ size → attrSizeBoundsCheck vol.eaDef size = none) ∧
    (size < ea.size → f.truncateEa = none) ∧ f.writeEa = none

/-- When the two attributes are as they should be, by the first step that fails. -/
def AtomicWhen (replace : Bool) (heap : Bytes) (st : EaAttrs) (value : Bytes) (size : Nat)
    (info : List UInt8) : Prop :=
  match needEa vol.majorVer replace f.existInfo f.addInfo st.eaInfo ⟨heap, eaInfoSize⟩,
    needEa vol.majorVer replace f.existEa f.addEa st.ea ⟨heap, 0⟩ with
  | .error _, _ => True
  | .ok _, .error _ => st.eaInfo.isSome
  | .ok eaInfo, .ok ea =>
    match f.openInfo, f.openEa,
      if eaInfo.size < eaInfoSize then attrSizeBoundsCheck vol.infoDef eaInfoSize else none,
      f.writeInfo with
    | some _, _, _, _ => st.ea.isSome ∧ st.eaInfo.isSome
    | none, some _, _, _ => EaHolds ⟨some ea, some eaInfo⟩ value size info
    | none, none, some _, _ => st.ea.isSome ∧ st.eaInfo.isSome
    | none, none, none, some (_, left) => st.ea.isSome ∧ SameAttr (some left) st.eaInfo
    | none, none, none, none =>
      EaWrites vol f ea size ∨ EaKept vol f st ea size ∧ InfoKept f st info

end Model

section Atomic

variable {vol : EaVolume} {f : EaFaults} {st : EaAttrs} {value : Bytes} {size : Nat}
variable {info : List UInt8} {replace : Bool}

theorem sameAttr_refl
    (a : Option AttrValue) :
    SameAttr a a := by
  cases a with
  | none => trivial
  | some a => exact ⟨rfl, fun _ _ => rfl⟩

/-- An attribute that was there is the one that is used. -/
theorem needEa_sameAttr
    {majorVer : Nat} {missed : Bool} {answer : Option Errno} {attr : Option AttrValue}
    {fresh v : AttrValue}
    (h : needEa majorVer replace missed answer attr fresh = .ok v) :
    (attr = none ∨ attr = some v) ∧ (SameAttr (some v) attr ↔ attr.isSome) := by
  unfold needEa at h
  cases attr with
  | none => simp [SameAttr]
  | some old =>
    cases missed with
    | false =>
      cases h
      simp [sameAttr_refl]
    | true =>
      dsimp only at h
      split_ifs at h
      cases answer <;> cases h

theorem AttrValue.pwrite_pwrite
    (v : AttrValue)
    (n : Nat)
    (b c : Bytes) :
    (v.pwrite n b).pwrite n c = v.pwrite n c := by
  simp only [AttrValue.pwrite, AttrValue.mk.injEq]
  refine ⟨funext fun j => ?_, by omega⟩
  split_ifs <;> rfl

theorem pwrite_sameAttr
    (v : AttrValue)
    (n : Nat)
    (b : Bytes) :
    SameAttr (some (v.pwrite n b)) (some v) ↔ n ≤ v.size ∧ ∀ j < n, v.bytes j = b j := by
  simp only [SameAttr, AttrValue.pwrite]
  constructor
  · rintro ⟨hsize, hbytes⟩
    refine ⟨by omega, fun j hj => ?_⟩
    have := hbytes j (by omega)
    rw [if_pos hj] at this
    exact this.symm
  · rintro ⟨hsize, hbytes⟩
    refine ⟨by omega, fun j _ => ?_⟩
    split_ifs with hj
    · exact (hbytes j hj).symm
    · rfl

/-- `$EA_INFORMATION` has been written and `$EA` could not be. -/
theorem restoreEaInfo_same
    {eaInfo : AttrValue}
    (h : st.eaInfo = none ∨ st.eaInfo = some eaInfo) :
    SameAttr (some (restoreEaInfo vol f (eaInfo.pwrite eaInfoSize (infoBuffer info))
        (if f.readOld then none else st.eaInfo))) st.eaInfo ↔ InfoKept f st info := by
  rcases h with hold | hold
  · simp [SameAttr, InfoKept, hold]
  · simp only [InfoKept, hold, Option.some.injEq, exists_eq_left']
    cases f.readOld with
    | true => exact pwrite_sameAttr eaInfo eaInfoSize (infoBuffer info)
    | false =>
      -- the attribute is long enough by now, so that there are no bounds to check
      have hlong : ¬(eaInfo.pwrite eaInfoSize (infoBuffer info)).size < eaInfoSize :=
        not_lt.mpr (Nat.le_max_right _ _)
      simp only [Bool.false_eq_true, if_false, restoreEaInfo, valuePwrite, if_neg hlong]
      cases f.restoreInfo with
      | none =>
        dsimp only
        rw [AttrValue.pwrite_pwrite, pwrite_sameAttr]
        simp
      | some left => rfl

/-- Cutting and writing `$EA`: the new value, or what the failing step leaves. -/
theorem storeEa_cases
    {ea : AttrValue}
    (h : st.ea = none ∨ st.ea = some ea) :
    EaWrites vol f ea size ∧ storeEa vol f ea value size =
        (none, (if size < ea.size then ea.truncate size else ea).pwrite size value) ∨
      ¬EaWrites vol f ea size ∧ ∃ err left, storeEa vol f ea value size = (some err, left) ∧
        (SameAttr (some left) st.ea ↔ EaKept vol f st ea size) := by
  have hsame : SameAttr (some ea) st.ea ↔ st.ea.isSome := by
    rcases h with h | h <;> simp [h, SameAttr]
  unfold storeEa EaKept EaWrites valueTruncate valuePwrite
  rcases Nat.lt_trichotomy size ea.size with hlt | heq | hlt
  · have hle : ¬ea.size < size := by omega
    have hne : ea.size ≠ size := by omega
    have hcut : ¬(ea.truncate size).size < size := by simp [AttrValue.truncate]
    simp only [if_neg hle, hne, ne_eq, not_false_eq_true, hlt, if_true, forall_const]
    cases attrSizeBoundsCheck vol.eaDef size with
    | some err => simp [hsame]
    | none =>
      cases f.truncateEa with
      | some left => simp
      | none =>
        simp only [if_neg hcut]
        cases f.writeEa <;> simp
  · simp only [heq, lt_irrefl, if_false, ne_eq, not_true, false_implies, true_and]
    cases f.writeEa <;> simp
  · have hle : ¬size < ea.size := by omega
    have hne : ea.size ≠ size := by omega
    simp only [hle, hlt, if_false, if_true, hne, ne_eq, not_false_eq_true, forall_const,
      false_implies, true_and]
    cases attrSizeBoundsCheck vol.eaDef size with
    | some err => simp [hsame]
    | none => cases f.writeEa <;> simp

/-- Cutting and writing `$EA` leaves the new value. -/
theorem pwrite_holds
    (ea eaInfo : AttrValue)
    (value : Bytes)
    (size : Nat)
    (info : List UInt8) :
    EaHolds ⟨some ((if size < ea.size then ea.truncate size else ea).pwrite size value),
      some (eaInfo.pwrite eaInfoSize (infoBuffer info))⟩ value size info := by
  refine ⟨_, _, rfl, ?_, fun j hj => if_pos hj, Nat.le_max_right _ _, fun j hj => if_pos hj⟩
  split_ifs with hlt
  · exact Nat.max_self size
  · exact Nat.max_eq_right (Nat.le_of_not_lt hlt)

/-- A call with an accepted chain. -/
theorem setAcceptedEa_atomic_iff
    (hinfo : acceptedInfo value size = some info)
    (vol : EaVolume)
    (f : EaFaults)
    (replace : Bool)
    (heap : Bytes)
    (st : EaAttrs) :
    EaAtomic st value size (setAcceptedEa vol f replace heap st value size info) ↔
      AtomicWhen vol f replace heap st value size info := by
  unfold setAcceptedEa AtomicWhen
  cases hneedInfo : needEa vol.majorVer replace f.existInfo f.addInfo st.eaInfo
      ⟨heap, eaInfoSize⟩ with
  | error err => simp [EaAtomic, sameAttr_refl]
  | ok eaInfo =>
    obtain ⟨hinfoWas, hsameInfo⟩ := needEa_sameAttr hneedInfo
    cases hneedEa : needEa vol.majorVer replace f.existEa f.addEa st.ea ⟨heap, 0⟩ with
    | error err => simp [EaAtomic, sameAttr_refl, hsameInfo]
    | ok ea =>
      obtain ⟨heaWas, hsameEa⟩ := needEa_sameAttr hneedEa
      unfold updateEa valuePwrite
      cases f.openInfo with
      | some err => exact and_congr hsameEa hsameInfo
      | none =>
        cases f.openEa with
        | some err => simp [EaAtomic, hinfo]
        | none =>
          dsimp only
          cases if eaInfo.size < eaInfoSize then
              attrSizeBoundsCheck vol.infoDef eaInfoSize else none with
          | some err => exact and_congr hsameEa hsameInfo
          | none =>
            cases f.writeInfo with
            | some left => exact and_congr hsameEa Iff.rfl
            | none =>
              dsimp only
              rcases @storeEa_cases vol f st value size ea heaWas with
                ⟨hwrites, hstore⟩ | ⟨hnot, err, left, hstore, hleft⟩
              · rw [hstore]
                exact iff_of_true ⟨info, hinfo, pwrite_holds ea eaInfo value size info⟩
                  (.inl hwrites)
              · rw [hstore, or_iff_right hnot]
                exact and_congr hleft (restoreEaInfo_same hinfoWas)

/--
A call succeeds with the new values or fails with the old attributes exactly under
the condition that the first failing step has.
-/
theorem setNtfsEa_atomic_iff
    (vol : EaVolume)
    (f : EaFaults)
    (replace : Bool)
    (heap : Bytes)
    (st : EaAttrs)
    (value : Bytes)
    (size : Nat) :
    EaAtomic st value size (setNtfsEa vol f replace heap st value size) ↔
      ∀ info, acceptedInfo value size = some info →
        AtomicWhen vol f replace heap st value size info := by
  unfold setNtfsEa
  cases hinfo : acceptedInfo value size with
  | none => simp [EaAtomic, sameAttr_refl]
  | some info =>
    simp only [Option.some.injEq, forall_eq']
    exact setAcceptedEa_atomic_iff hinfo vol f replace heap st

/-- One entry with the name `A` and no value. -/
def smallChain : Bytes :=
  patches (fun _ => 0) 0 [(0, leBytes 4 12), (5, [1]), (8, [65])]

/--
Without the attributes before: if `$EA` cannot be added, `$EA_INFORMATION` stays; if
`$EA` cannot be opened, success is reported and it is empty.
-/
theorem setNtfsEa_half_done :
    (setNtfsEa ntfs3xVolume { noEaFaults with addEa := some .enospc } false (fun _ => 0)
      ⟨none, none⟩ smallChain 12).1 = some .enospc ∧
    ¬EaAtomic ⟨none, none⟩ smallChain 12 (setNtfsEa ntfs3xVolume
      { noEaFaults with addEa := some .enospc } false (fun _ => 0) ⟨none, none⟩ smallChain 12) ∧
    (setNtfsEa ntfs3xVolume { noEaFaults with openEa := some .enomem } false (fun _ => 0)
      ⟨none, none⟩ smallChain 12).1 = none ∧
    ¬EaAtomic ⟨none, none⟩ smallChain 12 (setNtfsEa ntfs3xVolume
      { noEaFaults with openEa := some .enomem } false (fun _ => 0)
      ⟨none, none⟩ smallChain 12) := by
  refine ⟨rfl, fun h => h.2, rfl, ?_⟩
  rintro ⟨info, -, ea, eaInfo, hst, hsize, -⟩
  cases hst
  cases hsize

end Atomic

end NtfsPlus.Libntfs

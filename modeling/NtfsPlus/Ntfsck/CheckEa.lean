import NtfsPlus.Libntfs.Ea

/-!
# The check of extended attributes

`ntfsck_check_ea` walks over `$EA` as `ntfs_set_ntfs_ea` does and compares what
it finds with `$EA_INFORMATION`; on any difference it removes both attributes.

The walk agrees with the one of the writer on every chain (`checkEaLoop_chain`).
The summary does not: the writer stores the packed length in 16 bits, the check
compares these with a sum of 32 bits.  `checkEa_setNtfsEa_iff` says that exactly
the chains of 65536 packed bytes and more are taken for corrupt.  A `$EA` does not
become that large where `$AttrDef` has the usual bound, but the bound is only looked at
when its size changes: a `$EA` that is that large already can be overwritten.
-/

namespace NtfsPlus.Ntfsck

open Libntfs

section Model

/-- `NTFSCK_EA_MAX_SIZE`. -/
def ntfsckEaMaxSize : Nat := 256 * 1024

/-- The check of one entry; `entry_end` is a `u32`. -/
def CheckEaEntryOk (buf : Bytes) (eaSize offs : Nat) : Prop :=
  let nextoffs := eaNextOffs buf offs
  let e := eaEntryAt buf offs
  let entryEnd := e.endOffs offs % 2 ^ 32
  offs < nextoffs ∧ nextoffs ≤ eaSize ∧ nextoffs % 4 = 0 ∧ e.nameLength ≠ 0 ∧
    entryEnd ≤ nextoffs ∧ nextoffs - 3 ≤ entryEnd ∧ buf (offs + 8 + e.nameLength) = 0

instance (buf : Bytes) (eaSize offs : Nat) : Decidable (CheckEaEntryOk buf eaSize offs) :=
  inferInstanceAs (Decidable (_ ∧ _))

/-- The loop over the chain: `ea_count` and `ea_packed`, or none if it is corrupt. -/
def checkEaLoop (buf : Bytes) (eaSize : Nat) :
    Nat → Nat → Nat → Nat → Option (Nat × Nat)
  | 0, _, _, _ => none
  | fuel + 1, offs, eaCount, eaPacked =>
    if offs < eaSize then
      if eaSize < offs + 8 then
        none
      else if CheckEaEntryOk buf eaSize offs then
        let e := eaEntryAt buf offs
        checkEaLoop buf eaSize fuel (eaNextOffs buf offs) (eaCount + e.need)
          ((eaPacked + e.packed) % 2 ^ 32)
      else
        none
    else
      some (eaCount, eaPacked)

/-- Whether the two attributes are taken for corrupt. -/
def eaCorrupt (attrs : EaAttrs) : Bool :=
  match attrs.ea, attrs.eaInfo with
  | none, none => false
  | some ea, some eaInfo =>
    if eaInfo.size < eaInfoSize then
      true
    else if ea.size = 0 ∨ ntfsckEaMaxSize < ea.size then
      true
    else
      match checkEaLoop ea.bytes ea.size (ea.size + 1) 0 0 0 with
      | none => true
      | some (eaCount, eaPacked) =>
        decide (le16 eaInfo.bytes 0 ≠ eaPacked ∨ le16 eaInfo.bytes 2 ≠ eaCount)
  -- one present without the other
  | _, _ => true

/-- What `ntfsck_check_ea` counts and leaves. -/
structure CheckEaResult where
  errFound : Bool
  errFixed : Bool
  attrs : EaAttrs

/--
`ntfsck_check_ea`.  `fix` is the answer to the problem, `rmEa` and `rmEaInfo`
tell whether the attributes can be removed.
-/
def checkEa (fix rmEa rmEaInfo : Bool) (attrs : EaAttrs) : CheckEaResult :=
  if eaCorrupt attrs then
    if fix then
      let rmOk := (attrs.ea.isNone || rmEa) && (attrs.eaInfo.isNone || rmEaInfo)
      ⟨true, rmOk, if rmEa then none else attrs.ea, if rmEaInfo then none else attrs.eaInfo⟩
    else
      ⟨true, false, attrs⟩
  else
    ⟨false, false, attrs⟩

end Model

section Agreement

variable {value : Bytes} {size offs : Nat} {entries : List EaEntry}

theorem checkEaEntryOk_of_ok
    (hsize : size < 2 ^ 32)
    (h : EaEntryOk value size offs) :
    CheckEaEntryOk value size offs := by
  have hend : (eaEntryAt value offs).endOffs offs % 2 ^ 32 = (eaEntryAt value offs).endOffs offs :=
    Nat.mod_eq_of_lt (lt_of_le_of_lt (le_trans h.2.2.2.2.1 h.2.1) hsize)
  unfold CheckEaEntryOk
  dsimp only
  rw [hend]
  exact h

/-- The check walks over a chain as the writer does, with the same sums. -/
theorem checkEaLoop_chain
    (h : EaChain value size offs entries)
    (hsize : size < 2 ^ 32)
    {fuel : Nat}
    (hfuel : size - offs < fuel)
    (eaCount : Nat)
    {eaPacked : Nat}
    (hsum : eaPacked + packedLength entries < 2 ^ 32) :
    checkEaLoop value size fuel offs eaCount eaPacked =
      some (eaCount + needCount entries, eaPacked + packedLength entries) := by
  induction h generalizing fuel eaCount eaPacked with
  | done hend =>
    obtain ⟨fuel, rfl⟩ : ∃ f, fuel = f + 1 := ⟨fuel - 1, by omega⟩
    rw [checkEaLoop, if_neg (by omega)]
    rfl
  | @entry offs rest hlt hok hrest ih =>
    obtain ⟨fuel, rfl⟩ : ∃ f, fuel = f + 1 := ⟨fuel - 1, by omega⟩
    have hforward := hok.1
    have hin := hok.inside
    have hsplit : packedLength (eaEntryAt value offs :: rest) =
        (eaEntryAt value offs).packed + packedLength rest := by
      simp [packedLength]
    have hcount : needCount (eaEntryAt value offs :: rest) =
        (eaEntryAt value offs).need + needCount rest := by
      simp [needCount]
    rw [hsplit] at hsum ⊢
    rw [hcount, checkEaLoop, if_pos hlt, if_neg (by omega), if_pos (checkEaEntryOk_of_ok hsize hok)]
    dsimp only
    rw [Nat.mod_eq_of_lt (by omega), ih (by omega) _ (by omega), Nat.add_assoc, Nat.add_assoc]

/-- What is stored is taken for corrupt exactly when the sum needs more than 16 bits. -/
theorem eaCorrupt_stored
    {ea eaInfo : AttrValue}
    (h : EaStored value size entries ea eaInfo) :
    eaCorrupt ⟨some ea, some eaInfo⟩ = true ↔ 65536 ≤ packedLength entries := by
  obtain ⟨hchain, hpos, hsize, hbytes, hinfo, hlength, hcount⟩ := h
  obtain ⟨hupper, -, hlower, hneed⟩ := hchain.packed_bounds
  have hupper := hupper hpos
  unfold eaCorrupt
  dsimp only
  rw [if_neg (by omega), hsize]
  by_cases hlarge : ntfsckEaMaxSize < size
  · rw [if_pos (Or.inr hlarge)]
    unfold ntfsckEaMaxSize at hlarge
    simp only [true_iff]
    omega
  · unfold ntfsckEaMaxSize at *
    have hwalk := checkEaLoop_chain (hchain.congr hbytes) (by omega)
      (show size - 0 < size + 1 by omega) 0
      (show 0 + packedLength entries < 2 ^ 32 by omega)
    rw [if_neg (by omega), hwalk]
    simp only [decide_eq_true_eq]
    omega

/-- A chain within the usual bound of `$EA` is short enough. -/
theorem packed_lt_of_bounds
    {entries : List EaEntry} {ad : AttrDef}
    (hmax : 0 < ad.maxSize ∧ ad.maxSize ≤ 65536)
    (hchain : EaChain value size 0 entries)
    (hsize : attrSizeBoundsCheck (some ad) size = none ∨ size ≤ 65536) :
    packedLength entries < 65536 := by
  have hle : size ≤ 65536 := by
    rcases hsize with hsize | hsize
    · unfold attrSizeBoundsCheck at hsize
      dsimp only at hsize
      split_ifs at hsize with hout
      omega
    · exact hsize
  obtain ⟨hupper, hnil, -, -⟩ := hchain.packed_bounds
  by_cases hpos : 0 < size
  · have := hupper hpos
    omega
  · rw [hnil (by omega)]
    decide

/--
After a call that stores a chain the check finds nothing and changes nothing exactly when
the packed length of the chain is less than 65536.  That is so if `$AttrDef` has the usual bound
and the `$EA` before was not larger.
-/
theorem checkEa_setNtfsEa_iff
    (vol : EaVolume)
    (f : EaFaults)
    (replace : Bool)
    (heap : Bytes)
    (st st' : EaAttrs)
    (value : Bytes)
    (size : Nat)
    (fix rmEa rmEaInfo : Bool)
    (h : setNtfsEa vol f replace heap st value size = (none, st'))
    (hopen : f.openEa = none) :
    ∃ entries, EaChain value size 0 entries ∧
      (((checkEa fix rmEa rmEaInfo st').errFound = false ∧
          (checkEa fix rmEa rmEaInfo st').attrs = st') ↔ packedLength entries < 65536) ∧
      ((∃ ad, vol.eaDef = some ad ∧ 0 < ad.maxSize ∧ ad.maxSize ≤ 65536) →
        (∀ old ∈ st.ea, old.size ≤ 65536) → packedLength entries < 65536) := by
  obtain ⟨entries, ea, eaInfo, hstored, rfl, hbounds⟩ := setNtfsEa_stored h hopen
  refine ⟨entries, hstored.chain, ?_, ?_⟩
  · have hcorrupt := eaCorrupt_stored hstored
    unfold checkEa
    by_cases hsum : packedLength entries < 65536
    · have hclean : eaCorrupt ⟨some ea, some eaInfo⟩ = false := by
        rw [← Bool.not_eq_true, hcorrupt]
        omega
      rw [hclean]
      simp [hsum]
    · rw [if_pos (hcorrupt.mpr (by omega))]
      cases fix <;> simp [hsum]
  · rintro ⟨ad, had, hmax⟩ hold
    refine packed_lt_of_bounds hmax hstored.chain ?_
    rcases hbounds with hbounds | ⟨old, hmem, hsize⟩
    · exact .inl (had ▸ hbounds)
    · exact .inr (hsize ▸ hold old hmem)

/-- Memory that starts with the given bytes. -/
def eaBytes (l : List UInt8) : Bytes :=
  fun j => l.getD j 0

/-- An entry with a name of one letter and no value. -/
theorem checkEa_setNtfsEa_iff_small :
    ∃ st', setNtfsEa ntfs3xVolume noEaFaults false (fun _ => 0) ⟨none, none⟩
        (eaBytes [12, 0, 0, 0, 0, 1, 0, 0, 65]) 12 = (none, st') ∧
      (checkEa true true true st').errFound = false ∧
      (checkEa true true true st').attrs = st' := by
  refine ⟨_, rfl, ?_⟩
  obtain ⟨entries, -, hiff, hsmall⟩ := checkEa_setNtfsEa_iff ntfs3xVolume noEaFaults false
    (fun _ => 0) ⟨none, none⟩ _ (eaBytes [12, 0, 0, 0, 0, 1, 0, 0, 65]) 12 true true true rfl rfl
  exact hiff.mpr (hsmall ⟨⟨0, 65536⟩, rfl, by decide⟩ (by simp))

/-- A `$EA` of 65548 bytes is overwritten with an entry that has a value of 65535 bytes, and the
check removes it. -/
theorem checkEa_setNtfsEa_large :
    ∃ st', setNtfsEa ntfs3xVolume noEaFaults false (fun _ => 0)
        ⟨some ⟨fun _ => 0, 65548⟩, some ⟨fun _ => 0, 8⟩⟩
        (eaBytes [12, 0, 1, 0, 0, 1, 255, 255, 65]) 65548 = (none, st') ∧
      (checkEa true true true st').errFound = true ∧
      (checkEa true true true st').attrs.ea.isNone ∧
      (checkEa true true true st').attrs.eaInfo.isNone := by
  refine ⟨_, rfl, ?_⟩
  decide +kernel

end Agreement

end NtfsPlus.Ntfsck

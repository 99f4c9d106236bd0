import NtfsPlus.Libntfs.MftRecordCheck

/-!
# Resizing the value of a resident attribute

`ntfs_resident_attr_value_resize` makes the offset of an empty value safe,
resizes the attribute record, clears what the value gained and stores the new
length.  The offset is stored before the resize can fail, and the new size of
the record is computed in 32 bits.

`residentAttrValueResize_whole_iff` says when the function does all or nothing:
a refused resize must find the offset as it stores it, and an accepted one must
not have wrapped around.
-/

namespace NtfsPlus.Libntfs

section Resizing

/-- Where the value of an attribute without a value starts: behind the name. -/
def emptyValueOffset (m : Bytes) (a : Nat) : Nat :=
  ((residentEnd + attrNameLength m a * 2 - 1) ||| 7) + 1

/-- The record once the offset of the value is safe. -/
def safeValueOffset (m : Bytes) (a : Nat) : Bytes :=
  if attrValueLength m a = 0 then
    patch m (a + 20) (leBytes 2 (emptyValueOffset m a))
  else
    m

/-- Clear what the value gains and store its new length. -/
def storeValueLength (m : Bytes) (a newSize : Nat) : Bytes :=
  let cleared :=
    if newSize > attrValueLength m a then
      patch m (a + attrValueOffset m a + attrValueLength m a)
        (List.replicate (newSize - attrValueLength m a) 0)
    else
      m
  patch cleared (a + 16) (leBytes 4 newSize)

/-- `ntfs_resident_attr_value_resize`, with the attribute record at `a`. -/
def residentAttrValueResize (m : Bytes) (a newSize : Nat) : Except ResizeError Unit × Bytes :=
  let m := safeValueOffset m a
  match attrRecordResize m a (roundUp8 (attrValueOffset m a + newSize)) with
  | .error err => (.error err, m)
  | .ok m => (.ok (), storeValueLength m a newSize)

end Resizing

section Values

/-- The record seen as memory from its first byte on. -/
def RawAttr.mem (a : RawAttr) : Bytes :=
  fun i => a.bytes.getD i 0

/-- A resident attribute whose value, if any, lies behind the header and inside the record. -/
structure RawAttr.Resident (a : RawAttr) : Prop where
  form : attrNonResident a.mem 0 = 0
  header : residentEnd ≤ a.bytes.length
  behind : attrValueLength a.mem 0 ≠ 0 → residentEnd ≤ attrValueOffset a.mem 0
  inside : attrValueLength a.mem 0 ≠ 0 →
    attrValueOffset a.mem 0 + attrValueLength a.mem 0 ≤ a.bytes.length

/-- The value of a resident attribute. -/
def RawAttr.value (a : RawAttr) : List UInt8 :=
  bytesAt a.mem (attrValueOffset a.mem 0) (attrValueLength a.mem 0)

/-- The value is cut or padded with zeros to `newSize` bytes. -/
structure ValueResized (a a' : RawAttr) (newSize : Nat) : Prop where
  type_eq : a'.type = a.type
  resident : a'.Resident
  value_eq : a'.value = a.value.take newSize ++ List.replicate (newSize - a.value.length) 0

/-- Nothing changes on failure; on success one value is resized. -/
def WholeResize (m : Bytes) (pre : List RawAttr) (a : RawAttr) (post : List RawAttr)
    (newSize : Nat) : Except ResizeError Unit × Bytes → Prop
  | (.error _, m') => m' = m
  | (.ok _, m') => ∃ a', Layout m' (pre ++ a' :: post) ∧ ValueResized a a' newSize

/-- The offset of the value for the resize. -/
def RawAttr.safeOffset (a : RawAttr) : Nat :=
  if attrValueLength a.mem 0 = 0 then emptyValueOffset a.mem 0 else attrValueOffset a.mem 0

/-- An accepted resize does not wrap around, and a refused one finds the offset stored. -/
def ResizeCondition (m : Bytes) (pos : Nat) (a : RawAttr) (newSize : Nat) : Prop :=
  match attrRecordResize m pos (a.safeOffset + newSize) with
  | .ok _ => bytesInUse m - a.bytes.length + (a.safeOffset + newSize + 7) / 8 * 8 < 2 ^ 32
  | .error _ => attrValueOffset a.mem 0 = a.safeOffset

theorem emptyValueOffset_eq
    (m : Bytes)
    (a : Nat) :
    emptyValueOffset m a = (residentEnd + attrNameLength m a * 2 + 7) / 8 * 8 := by
  have hor : ∀ y : Nat, y ||| 7 = y / 8 * 8 + 7 := by
    intro y
    have hdiv : (y ||| 7) / 8 = y / 8 := by
      rw [show 8 = 2 ^ 3 from rfl, Nat.or_div_two_pow]
      simp
    have hmod : (y ||| 7) % 8 = 7 := by
      rw [show 8 = 2 ^ 3 from rfl, Nat.or_mod_two_pow]
      have hlt : y % 2 ^ 3 < 8 := Nat.mod_lt _ (by decide)
      interval_cases y % 2 ^ 3 <;> rfl
    omega
  rw [emptyValueOffset, hor, residentEnd]
  omega

theorem emptyValueOffset_lt
    (m : Bytes)
    (a : Nat) :
    emptyValueOffset m a < 65536 := by
  have hname : attrNameLength m a < 256 := (m (a + 9)).toNat_lt
  rw [emptyValueOffset_eq, residentEnd]
  omega

theorem RawAttr.value_length
    (a : RawAttr) :
    a.value.length = attrValueLength a.mem 0 :=
  bytesAt_length _ _ _

theorem RawAttr.Resident.safeOffset_ge
    {a : RawAttr}
    (h : a.Resident) :
    residentEnd ≤ a.safeOffset := by
  unfold RawAttr.safeOffset
  split_ifs with hzero
  · rw [emptyValueOffset_eq]
    omega
  · exact h.behind hzero

theorem RawAttr.safeOffset_lt
    (a : RawAttr) :
    a.safeOffset < 65536 := by
  unfold RawAttr.safeOffset
  split_ifs
  · exact emptyValueOffset_lt _ _
  · exact le16_lt _ _

end Values

section Memory

variable {m m' : Bytes} {pre post : List RawAttr} {a : RawAttr} {pos newSize : Nat}

theorem attr_byte
    (h : HoldsBytes m pos a.bytes)
    {i : Nat}
    (hi : i < a.bytes.length) :
    m (pos + i) = a.mem i := by
  rw [h.getElem hi, RawAttr.mem]
  simp [hi]

/-- The fields of an attribute, read in the record. -/
theorem attr_fields
    (h : HoldsBytes m pos a.bytes)
    (hheader : residentEnd ≤ a.bytes.length) :
    attrNonResident m pos = attrNonResident a.mem 0 ∧
    attrNameLength m pos = attrNameLength a.mem 0 ∧
    attrValueLength m pos = attrValueLength a.mem 0 ∧
    attrValueOffset m pos = attrValueOffset a.mem 0 := by
  rw [residentEnd] at hheader
  refine ⟨?_, ?_, ?_, ?_⟩
  · exact congrArg UInt8.toNat (attr_byte h (by omega))
  · exact congrArg UInt8.toNat (attr_byte h (by omega))
  · exact h.leNat_getD (i := 16) (n := 4) (by omega)
  · exact h.leNat_getD (i := 20) (n := 2) (by omega)

theorem safeValueOffset_of_ne
    (m : Bytes)
    {pos j : Nat}
    (h : j < pos + 20 ∨ pos + 22 ≤ j) :
    safeValueOffset m pos j = m j := by
  unfold safeValueOffset
  split_ifs
  · exact patch_of_ne m (by rw [leBytes_length]; omega)
  · rfl

theorem attrValueOffset_safeValueOffset
    (h : HoldsBytes m pos a.bytes)
    (hheader : residentEnd ≤ a.bytes.length) :
    attrValueOffset (safeValueOffset m pos) pos = a.safeOffset := by
  obtain ⟨-, hname, hlength, hoffset⟩ := attr_fields h hheader
  unfold safeValueOffset RawAttr.safeOffset
  rw [hlength, emptyValueOffset, hname]
  split_ifs
  · have hread := (holdsBytes_patch m (pos + 20) (leBytes 2 (emptyValueOffset a.mem 0))).leNat_eq
    exact hread.trans (Nat.mod_eq_of_lt (emptyValueOffset_lt _ _))
  · exact hoffset

theorem safeValueOffset_eq_self_iff
    (h : HoldsBytes m pos a.bytes)
    (hheader : residentEnd ≤ a.bytes.length) :
    safeValueOffset m pos = m ↔ attrValueOffset a.mem 0 = a.safeOffset := by
  obtain ⟨-, hname, hlength, hoffset⟩ := attr_fields h hheader
  have hstored := attrValueOffset_safeValueOffset h hheader
  constructor
  · intro hsame
    rw [← hoffset, ← hstored, hsame]
  · intro hsafe
    unfold safeValueOffset
    split_ifs with hzero
    · have hempty : attrValueOffset m pos = emptyValueOffset m pos := by
        rw [hoffset, hsafe, RawAttr.safeOffset, if_pos (hlength ▸ hzero), emptyValueOffset,
          ← hname, ← emptyValueOffset]
      rw [← hempty]
      exact (holdsBytes_leBytes m (pos + 20) 2).patch_eq
    · rfl

/-- A change behind the length field of one attribute keeps the layout. -/
theorem Layout.rewrite
    (h : Layout m (pre ++ a :: post))
    (m' : Bytes)
    (hpos : pos = attrsOffset m + (flatAttrs pre).length)
    (hsame : ∀ j, j < pos + 8 ∨ pos + a.bytes.length ≤ j → m' j = m j) :
    ∃ a', Layout m' (pre ++ a' :: post) ∧ a'.type = a.type ∧
      a'.bytes.length = a.bytes.length ∧ HoldsBytes m' pos a'.bytes := by
  have hheader := h.header
  have hlong := a.long
  obtain ⟨hpre, ha, hpost, hused⟩ := h.split_cons
  rw [← hpos] at ha hpost
  have htype : le32 m' pos = a.type :=
    (leNat_congr (fun i hi => hsame (pos + i) (by omega))).trans (attrType_eq ha)
  have hlength : le32 m' (pos + 4) = a.bytes.length :=
    (leNat_congr (fun i hi => hsame (pos + 4 + i) (by omega))).trans (attrLength_eq ha)
  have hhead : SameHeader m m' := sameHeader_of_bytes (fun j _ _ _ => hsame j (by omega))
  have hused' : bytesInUse m' = bytesInUse m :=
    bytesInUse_congr (fun j _ _ => hsame j (by omega))
  obtain ⟨a', hholds, halen, hatype, hlayout⟩ := layout_with_attr hheader hhead hpos.symm
    (hpre.frame (fun j _ _ => hsame j (by omega))) hlong htype a.type_ne hlength
    (hpost.frame (fun j _ _ => hsame j (by omega))) (by omega) (by rw [hused']; exact h.fits)
  exact ⟨a', hlayout, hatype, halen, hholds⟩

end Memory

section Outcome

variable {m m' : Bytes} {pre post : List RawAttr} {a : RawAttr} {pos newSize : Nat}

theorem roundUp8_roundUp8
    (n : Nat) :
    roundUp8 (roundUp8 n) = roundUp8 n := by
  unfold roundUp8
  omega

variable {n : Nat} {a' : RawAttr} {m₁ : Bytes}

/-- The resize looks at the header of the record and at the type and length of the attribute. -/
theorem attrRecordResize_isOk_congr
    (m m' : Bytes)
    (pos : Nat)
    (hused : bytesInUse m' = bytesInUse m)
    (halloc : bytesAllocated m' = bytesAllocated m)
    (htype : le32 m' pos = le32 m pos)
    (hlength : le32 m' (pos + 4) = le32 m (pos + 4))
    {n' : Nat}
    (hn : roundUp8 n' = roundUp8 n) :
    (attrRecordResize m' pos n').isOk = (attrRecordResize m pos n).isOk := by
  unfold attrRecordResize
  rw [hused, halloc, htype, hlength, hn]
  dsimp only
  split_ifs <;> rfl

/-- What a resize changes in the record header. -/
theorem attrRecordResize_header
    (hpos : 42 ≤ pos)
    (hok : attrRecordResize m pos n = .ok m') :
    attrsOffset m' = attrsOffset m ∧
    bytesInUse m' = (bytesInUse m + (2 ^ 32 - le32 m (pos + 4)) + roundUp8 n) % 2 ^ 32 := by
  have hlt : bytesInUse m < 2 ^ 32 := le32_lt m 24
  have hlen : le32 m (pos + 4) < 2 ^ 32 := le32_lt m _
  unfold attrRecordResize at hok
  dsimp only at hok
  generalize roundUp8 n = k at *
  have hmoved : ∀ l, attrsOffset (setBytesInUse (memmove m (pos + k) (pos + le32 m (pos + 4)) l)
        ((bytesInUse m + (2 ^ 32 - le32 m (pos + 4)) + k) % 2 ^ 32)) = attrsOffset m ∧
      bytesInUse (setBytesInUse (memmove m (pos + k) (pos + le32 m (pos + 4)) l)
        ((bytesInUse m + (2 ^ 32 - le32 m (pos + 4)) + k) % 2 ^ 32)) =
        (bytesInUse m + (2 ^ 32 - le32 m (pos + 4)) + k) % 2 ^ 32 := by
    intro l
    constructor
    · exact leNat_congr (fun i hi => by
        rw [setBytesInUse_of_ne _ _ (by omega), memmove_of_ne _ _ (by omega)])
    · exact bytesInUse_setBytesInUse _ (Nat.mod_lt _ (by decide))
  split_ifs at hok with hsize hspace hfilled hover hlong
  · cases hok
    omega
  · cases hok
    obtain ⟨hattrs, hused⟩ := hmoved (bytesInUse m - pos - le32 m (pos + 4))
    generalize setBytesInUse _ _ = m₁ at hattrs hused ⊢
    have hout : ∀ j < 28, patch m₁ (pos + 4) (leBytes 4 k) j = m₁ j := fun j hj =>
      patch_of_ne m₁ (by omega)
    rw [← hattrs, ← hused]
    exact ⟨leNat_congr (fun i hi => hout (20 + i) (by omega)),
      bytesInUse_congr (fun j _ hj => hout j hj)⟩
  · cases hok
    exact hmoved _

/-- The last step stores behind the header of the attribute, up to the end of the new value. -/
theorem storeValueLength_of_ne
    (m : Bytes)
    {pos newSize j : Nat}
    (hj : j < pos + 16 ∨ pos + 20 ≤ j)
    (hout : j < pos + attrValueOffset m pos + attrValueLength m pos ∨
      pos + attrValueOffset m pos + newSize ≤ j) :
    storeValueLength m pos newSize j = m j := by
  unfold storeValueLength
  rw [patch_of_ne _ (by rw [leBytes_length]; omega)]
  split_ifs with hgain
  · exact patch_of_ne _ (by rw [List.length_replicate]; omega)
  · rfl

/-- The bytes that a value gains are zero. -/
theorem storeValueLength_gain
    (m : Bytes)
    {pos newSize i : Nat}
    (hheader : residentEnd ≤ attrValueOffset m pos)
    (hi : attrValueLength m pos ≤ i)
    (hnew : i < newSize) :
    storeValueLength m pos newSize (pos + attrValueOffset m pos + i) = 0 := by
  rw [residentEnd] at hheader
  have hzero := (holdsBytes_patch m (pos + attrValueOffset m pos + attrValueLength m pos)
    (List.replicate (newSize - attrValueLength m pos) 0)).getElem
    (i := i - attrValueLength m pos) (by rw [List.length_replicate]; omega)
  rw [List.getElem_replicate, Nat.add_assoc _ (attrValueLength m pos),
    Nat.add_sub_cancel' hi] at hzero
  unfold storeValueLength
  rw [patch_of_ne _ (by rw [leBytes_length]; omega), if_pos (by omega)]
  exact hzero

theorem attrValueLength_storeValueLength
    (m : Bytes)
    (pos : Nat)
    (hnew : newSize < 2 ^ 32) :
    attrValueLength (storeValueLength m pos newSize) pos = newSize := by
  have hread := (holdsBytes_patch (if newSize > attrValueLength m pos then
    patch m (pos + attrValueOffset m pos + attrValueLength m pos)
      (List.replicate (newSize - attrValueLength m pos) 0) else m)
    (pos + 16) (leBytes 4 newSize)).leNat_eq
  exact hread.trans (Nat.mod_eq_of_lt hnew)

/-- Two attributes in memory whose headers agree and whose values are stored as required. -/
theorem valueResized_of_memory
    (h : HoldsBytes m pos a.bytes)
    (h' : HoldsBytes m' pos a'.bytes)
    (hres : a.Resident)
    (htype : a'.type = a.type)
    (hform : attrNonResident m' pos = attrNonResident m pos)
    (hlength : attrValueLength m' pos = newSize)
    (hoffset : attrValueOffset m' pos = a.safeOffset)
    (hroom : a.safeOffset + newSize ≤ a'.bytes.length)
    (hkept : ∀ i < attrValueLength a.mem 0, i < newSize →
      m' (pos + a.safeOffset + i) = m (pos + a.safeOffset + i))
    (hgain : ∀ i, attrValueLength a.mem 0 ≤ i → i < newSize → m' (pos + a.safeOffset + i) = 0) :
    ValueResized a a' newSize := by
  have hbehind := hres.safeOffset_ge
  have hheader : residentEnd ≤ a'.bytes.length := by omega
  obtain ⟨hform₀, -, -, -⟩ := attr_fields h hres.header
  obtain ⟨hform', -, hlength', hoffset'⟩ := attr_fields h' hheader
  rw [hlength] at hlength'
  rw [hoffset] at hoffset'
  refine ⟨htype, ⟨?_, hheader, ?_, ?_⟩, ?_⟩
  · rw [← hform', hform, hform₀]
    exact hres.form
  · omega
  · omega
  · apply List.ext_getElem
    · rw [RawAttr.value_length, List.length_append, List.length_take, List.length_replicate]
      omega
    · intro i hi hi'
      rw [RawAttr.value_length, ← hlength'] at hi
      have hread : a'.value[i] = m' (pos + a.safeOffset + i) := by
        rw [Nat.add_assoc, attr_byte h' (by omega)]
        simp [RawAttr.value, bytesAt, ← hoffset']
      rw [hread, List.getElem_append]
      split_ifs with hold
      · rw [List.length_take, RawAttr.value_length] at hold
        have hne : attrValueLength a.mem 0 ≠ 0 := by omega
        have hsafe : a.safeOffset = attrValueOffset a.mem 0 := if_neg hne
        have hin := hres.inside hne
        rw [hkept i (by omega) hi, hsafe, Nat.add_assoc, attr_byte h (by omega)]
        simp [RawAttr.value, bytesAt]
      · rw [List.length_take, RawAttr.value_length] at hold
        rw [hgain i (by omega) hi, List.getElem_replicate]

theorem Resized.memory
    {i : Nat}
    (h : Resized a a' n)
    (ha : HoldsBytes m pos a.bytes)
    (ha' : HoldsBytes m' pos a'.bytes)
    (hlow : 8 ≤ i)
    (hi : i < a.bytes.length)
    (hn : i < n) :
    m' (pos + i) = m (pos + i) := by
  have hlength := h.length_eq
  have hkept := h.kept i hlow hi hn
  rw [List.getElem?_eq_getElem (by omega), List.getElem?_eq_getElem hi] at hkept
  rw [ha.getElem hi, ha'.getElem (by omega)]
  exact Option.some.inj hkept

/-- An accepted resize that does not wrap around does all it should. -/
theorem Layout.storeValueLength
    (h : Layout m (pre ++ a :: post))
    (hres : a.Resident)
    (hnew : newSize < 2 ^ 32)
    (hpos : pos = attrsOffset m + (flatAttrs pre).length)
    (hwrap : bytesInUse m - a.bytes.length + (a.safeOffset + newSize + 7) / 8 * 8 < 2 ^ 32)
    (hok : Libntfs.attrRecordResize (safeValueOffset m pos) pos
      (roundUp8 (a.safeOffset + newSize)) = .ok m₁) :
    ∃ a', Layout (Libntfs.storeValueLength m₁ pos newSize) (pre ++ a' :: post) ∧
      ValueResized a a' newSize := by
  have hheader := h.header
  have hlong := hres.header
  have hbehind := hres.safeOffset_ge
  rw [residentEnd] at hlong hbehind
  obtain ⟨-, ha, -, hused⟩ := h.split_cons
  rw [← hpos] at ha
  -- the offset of the value
  have hout₀ := fun j => @safeValueOffset_of_ne m pos j
  have hoffset₀ := attrValueOffset_safeValueOffset ha hres.header
  obtain ⟨a₀, hlayout₀, htype₀, hlength₀, ha₀⟩ :=
    h.rewrite (safeValueOffset m pos) hpos (fun j hj => hout₀ j (by omega))
  have hused₀ : bytesInUse (safeValueOffset m pos) = bytesInUse m :=
    bytesInUse_congr (fun j _ _ => hout₀ j (by omega))
  have hattrs₀ : attrsOffset (safeValueOffset m pos) = attrsOffset m :=
    leNat_congr (fun i hi => hout₀ (20 + i) (by omega))
  generalize safeValueOffset m pos = m₀ at *
  -- the size of the record
  have hround : roundUp8 (roundUp8 (a.safeOffset + newSize)) =
      (a.safeOffset + newSize + 7) / 8 * 8 := by
    rw [roundUp8_roundUp8, roundUp8_eq (by omega)]
  rw [hpos, ← hattrs₀] at hok
  obtain ⟨hsame, hcases⟩ := hlayout₀.attrRecordResize (.inr (by omega)) (by omega) hok
  obtain ⟨a₁, hresized, hlayout₁⟩ := hcases.resolve_left (fun hzero => by omega)
  have hattrs₁ : attrsOffset m₁ = attrsOffset m := hsame.attrsOffset_eq.trans hattrs₀
  have ha₁ := hlayout₁.split_cons.2.1
  rw [hattrs₁, ← hpos] at ha₁
  have hkept := fun i => hresized.memory ha₀ ha₁ (i := i)
  have hlength₁ := hresized.length_eq
  have hkept₁ : ∀ i, 8 ≤ i → i < a.bytes.length → i < a.safeOffset + newSize →
      i < 20 ∨ 22 ≤ i → m₁ (pos + i) = m (pos + i) := fun i hlow hi hn hne =>
    (hkept i hlow (by omega) (by omega)).trans (hout₀ (pos + i) (by omega))
  have hvalue₁ : attrValueLength m₁ pos = attrValueLength a.mem 0 := by
    rw [← (attr_fields ha hres.header).2.2.1]
    exact leNat_congr (fun i hi => by
      rw [Nat.add_assoc]
      exact hkept₁ (16 + i) (by omega) (by omega) (by omega) (by omega))
  have hoffset₁ : attrValueOffset m₁ pos = a.safeOffset := by
    rw [← hoffset₀]
    exact leNat_congr (fun i hi => by
      rw [Nat.add_assoc]
      exact hkept (20 + i) (by omega) (by omega) (by omega))
  -- the value
  have hout₂ := fun j => @storeValueLength_of_ne m₁ pos newSize j
  have hgain₂ := fun i => @storeValueLength_gain m₁ pos newSize i
  have hvalue₂ := attrValueLength_storeValueLength m₁ pos hnew
  rw [hoffset₁, hvalue₁] at hgain₂
  obtain ⟨a₂, hlayout₂, htype₂, hlength₂, ha₂⟩ :=
    hlayout₁.rewrite (Libntfs.storeValueLength m₁ pos newSize)
      (hpos.trans (congrArg (· + (flatAttrs pre).length) hattrs₁.symm))
      (fun j hj => hout₂ j (by omega) (by omega))
  refine ⟨a₂, hlayout₂, valueResized_of_memory ha ha₂ hres ?_ ?_ hvalue₂ ?_ ?_ ?_ ?_⟩
  · rw [htype₂, hresized.type_eq, htype₀]
  · unfold attrNonResident
    rw [hout₂ (pos + 8) (by omega) (by omega), hkept₁ 8 (by omega) (by omega) (by omega) (by omega)]
  · rw [← hoffset₁]
    exact leNat_congr (fun i hi => hout₂ (pos + 20 + i) (by omega) (by omega))
  · omega
  · intro i hi hnew'
    have hne : attrValueLength a.mem 0 ≠ 0 := by omega
    have hsafe : a.safeOffset = attrValueOffset a.mem 0 := if_neg hne
    have hin := hres.inside hne
    rw [hout₂ (pos + a.safeOffset + i) (by omega) (by omega), Nat.add_assoc,
      hkept₁ (a.safeOffset + i) (by omega) (by omega) (by omega) (by omega)]
  · exact fun i hi hnew' => hgain₂ i hres.safeOffset_ge hi hnew'

/-- A resize that wraps around leaves no record that holds the new value. -/
theorem not_valueResized_of_wrapped
    (h : Layout m (pre ++ a :: post))
    (hpos : pos = attrsOffset m + (flatAttrs pre).length)
    (hwrap : 2 ^ 32 ≤ bytesInUse m - a.bytes.length + (a.safeOffset + newSize + 7) / 8 * 8)
    (hok : attrRecordResize (safeValueOffset m pos) pos
      (roundUp8 (a.safeOffset + newSize)) = .ok m₁)
    (hlayout : Layout (storeValueLength m₁ pos newSize) (pre ++ a' :: post)) :
    ¬ValueResized a a' newSize := by
  intro hresized
  have hheader := h.header
  have hsafe := a.safeOffset_lt
  obtain ⟨-, ha, -, hused⟩ := h.split_cons
  obtain ⟨-, -, -, hused₂⟩ := hlayout.split_cons
  rw [← hpos] at ha
  have hlength := attrLength_eq ha
  have hlen : a.bytes.length < 2 ^ 32 := hlength ▸ le32_lt m _
  -- the header of the record afterwards
  obtain ⟨hattrs, huse⟩ := attrRecordResize_header (by omega) hok
  have hout₀ := fun j => @safeValueOffset_of_ne m pos j
  have hattrs₀ : attrsOffset (safeValueOffset m pos) = attrsOffset m :=
    leNat_congr (fun i hi => hout₀ (20 + i) (by omega))
  have hused₀ : bytesInUse (safeValueOffset m pos) = bytesInUse m :=
    bytesInUse_congr (fun j _ _ => hout₀ j (by omega))
  have hlength₀ : le32 (safeValueOffset m pos) (pos + 4) = a.bytes.length := by
    rw [← hlength]
    exact leNat_congr (fun i hi => hout₀ (pos + 4 + i) (by omega))
  have hout₂ : ∀ j < 28, storeValueLength m₁ pos newSize j = m₁ j := fun j hj =>
    storeValueLength_of_ne m₁ (by omega) (by omega)
  have hattrs₂ : attrsOffset (storeValueLength m₁ pos newSize) = attrsOffset m :=
    (leNat_congr (fun i hi => hout₂ (20 + i) (by omega))).trans (hattrs.trans hattrs₀)
  have huse₂ : bytesInUse (storeValueLength m₁ pos newSize) = bytesInUse m₁ :=
    bytesInUse_congr (fun j _ hj => hout₂ j hj)
  rw [huse₂, huse] at hused₂
  -- the new value does not fit in what the header leaves
  have hvalue : attrValueLength a'.mem 0 = newSize := by
    rw [← RawAttr.value_length, hresized.value_eq, List.length_append, List.length_take,
      List.length_replicate]
    omega
  have hroom : newSize ≤ a'.bytes.length := by
    by_cases hzero : newSize = 0
    · omega
    · have hin := hresized.resident.inside (by rw [hvalue]; exact hzero)
      omega
  unfold roundUp8 at hused₂
  omega

/-- A resize does all or nothing exactly under `ResizeCondition`. -/
theorem residentAttrValueResize_whole_iff
    (h : Layout m (pre ++ a :: post))
    (hres : a.Resident)
    (hnew : newSize < 2 ^ 32) :
    WholeResize m pre a post newSize
      (residentAttrValueResize m (attrsOffset m + (flatAttrs pre).length) newSize) ↔
    ResizeCondition m (attrsOffset m + (flatAttrs pre).length) a newSize := by
  have hheader := h.header
  have hlong := hres.header
  have ha := h.split_cons.2.1
  generalize hpos : attrsOffset m + (flatAttrs pre).length = pos at *
  have hout := fun j => @safeValueOffset_of_ne m pos j
  have hisOk := attrRecordResize_isOk_congr m (safeValueOffset m pos) pos
    (bytesInUse_congr (fun j _ _ => hout j (by omega)))
    (leNat_congr (fun i hi => hout (28 + i) (by omega)))
    (leNat_congr (fun i hi => hout (pos + i) (by omega)))
    (leNat_congr (fun i hi => hout (pos + 4 + i) (by omega)))
    (roundUp8_roundUp8 (a.safeOffset + newSize))
  unfold residentAttrValueResize ResizeCondition
  dsimp only
  rw [attrValueOffset_safeValueOffset ha hlong]
  cases hrun : attrRecordResize (safeValueOffset m pos) pos (roundUp8 (a.safeOffset + newSize)) with
  | error err =>
    rw [hrun] at hisOk
    cases hplain : attrRecordResize m pos (a.safeOffset + newSize) with
    | error err' => exact safeValueOffset_eq_self_iff ha hlong
    | ok m' =>
      rw [hplain] at hisOk
      cases hisOk
  | ok m₁ =>
    rw [hrun] at hisOk
    cases hplain : attrRecordResize m pos (a.safeOffset + newSize) with
    | error err' =>
      rw [hplain] at hisOk
      cases hisOk
    | ok m' =>
      constructor
      · rintro ⟨a', hlayout, hresized⟩
        by_contra hwrap
        exact not_valueResized_of_wrapped h hpos.symm (by omega) hrun hlayout
          hresized
      · intro hwrap
        exact h.storeValueLength hres hnew hpos.symm hwrap hrun

/-- A `$DATA` attribute without a name and without a value; its value offset is zero. -/
def emptyData : RawAttr where
  bytes := leBytes 4 0x80 ++ leBytes 4 24 ++ List.replicate 16 0
  long := by simp
  length_eq := rfl
  type_ne := by decide

/-- A record with nothing but `emptyData`. -/
def lonelyDataRecord : Bytes :=
  patches (fun _ => 0) 0
    [(20, leBytes 2 48), (24, leBytes 4 80), (28, leBytes 4 1024), (48, emptyData.bytes),
      (72, leBytes 4 atEnd)]

theorem layout_lonelyDataRecord : Layout lonelyDataRecord [emptyData] := by
  refine ⟨by decide, ?_, rfl, by decide⟩
  apply holdsBytes_of_getElem
  decide

theorem emptyData_resident : emptyData.Resident :=
  ⟨rfl, by decide, (fun h => absurd rfl h), (fun h => absurd rfl h)⟩

/-- A value too large for the record: the resize fails and the offset has been stored. -/
theorem residentAttrValueResize_failed_stores :
    Layout lonelyDataRecord [emptyData] ∧ emptyData.Resident ∧
    (residentAttrValueResize lonelyDataRecord 48 2000).1 = .error .noSpace ∧
    attrValueOffset lonelyDataRecord 48 = 0 ∧
    attrValueOffset (residentAttrValueResize lonelyDataRecord 48 2000).2 48 = 24 ∧
    ¬WholeResize lonelyDataRecord [] emptyData [] 2000
      (residentAttrValueResize lonelyDataRecord 48 2000) := by
  have hrun : residentAttrValueResize lonelyDataRecord 48 2000 =
      (.error .noSpace, safeValueOffset lonelyDataRecord 48) := by
    unfold residentAttrValueResize attrRecordResize
    dsimp only
    rw [if_neg (by decide +kernel), if_pos (by decide +kernel)]
  refine ⟨layout_lonelyDataRecord, emptyData_resident, ?_, by decide, ?_, ?_⟩
  · rw [hrun]
  · decide
  · rw [hrun]
    intro hsame
    have hbyte := congrFun hsame 68
    revert hbyte
    decide

theorem residentAttrValueResize_whole_five :
    WholeResize lonelyDataRecord [] emptyData [] 5
      (residentAttrValueResize lonelyDataRecord 48 5) := by
  have hcondition : ResizeCondition lonelyDataRecord 48 emptyData 5 := by
    obtain ⟨m', hok⟩ : ∃ m', attrRecordResize lonelyDataRecord 48 (emptyData.safeOffset + 5) =
        .ok m' := ⟨_, rfl⟩
    unfold ResizeCondition
    rw [hok]
    dsimp only
    decide
  exact (@residentAttrValueResize_whole_iff lonelyDataRecord [] [] emptyData 5
    layout_lonelyDataRecord emptyData_resident (by decide)).mpr hcondition

end Outcome

end NtfsPlus.Libntfs

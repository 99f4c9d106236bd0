import NtfsPlus.Lib.ByteMemory
import NtfsPlus.Libntfs.RunlistBasic

/-!
# Setting extended attributes

`ntfs_set_ntfs_ea` of `libntfs/ea.c` checks a chain of entries and stores it as
`$EA`, with a summary of the chain as `$EA_INFORMATION`.  Both attributes are added if
they are missing, the summary is written, `$EA` is cut and written, and if that fails the
old summary is written back.  Every step may fail; a write or a cut that fails may have
changed the attribute by then (`EaFaults`).

`EaChain` is the chain that the loop accepts, as a relation: the loop accepts
exactly these chains (`EaChain.loop`, `eaChain_of_loop`), and what it computes
are sums over their entries.  `setNtfsEa_stored` says what a successful call leaves.
-/

namespace NtfsPlus.Libntfs

section Model

/-- The fields of `EA_ATTR` behind the offset to the next entry. -/
structure EaEntry where
  flags : Nat
  nameLength : Nat
  valueLength : Nat
deriving DecidableEq, Repr

/-- The entry at an offset. -/
def eaEntryAt (value : Bytes) (offs : Nat) : EaEntry where
  flags := (value (offs + 4)).toNat
  nameLength := (value (offs + 5)).toNat
  valueLength := le16 value (offs + 6)

/-- `offs + next_entry_offset`. -/
def eaNextOffs (value : Bytes) (offs : Nat) : Nat :=
  offs + le32 value offs

/-- Where the value of an entry ends: header, name, null and value. -/
def EaEntry.endOffs (e : EaEntry) (offs : Nat) : Nat :=
  offs + 8 + e.nameLength + 1 + e.valueLength

/-- What an entry adds to `ea_packed`. -/
def EaEntry.packed (e : EaEntry) : Nat :=
  5 + e.nameLength + e.valueLength

/-- What an entry adds to `ea_count`: one if it has the `NEED_EA` flag. -/
def EaEntry.need (e : EaEntry) : Nat :=
  if e.flags &&& 0x80 ≠ 0 then 1 else 0

/-- The consistency check of one entry. -/
def EaEntryOk (value : Bytes) (size offs : Nat) : Prop :=
  offs < eaNextOffs value offs ∧ eaNextOffs value offs ≤ size ∧
    eaNextOffs value offs % 4 = 0 ∧ (eaEntryAt value offs).nameLength ≠ 0 ∧
    (eaEntryAt value offs).endOffs offs ≤ eaNextOffs value offs ∧
    eaNextOffs value offs - 3 ≤ (eaEntryAt value offs).endOffs offs ∧
    value (offs + 8 + (eaEntryAt value offs).nameLength) = 0

instance (value : Bytes) (size offs : Nat) : Decidable (EaEntryOk value size offs) :=
  inferInstanceAs (Decidable (_ ∧ _))

/-- `ea_count`, `ea_packed` and `nextoffs`. -/
structure EaSums where
  count : Nat
  packed : Nat
  nextoffs : Nat
deriving DecidableEq, Repr

/-- The loop over the chain, with more passes allowed than it has bytes. -/
def eaChainLoop (value : Bytes) (size : Nat) : Nat → Nat → EaSums → Option EaSums
  | 0, _, _ => none
  | fuel + 1, offs, s =>
    if offs < size then
      if EaEntryOk value size offs then
        let e := eaEntryAt value offs
        eaChainLoop value size fuel (eaNextOffs value offs)
          ⟨s.count + e.need, s.packed + e.packed, eaNextOffs value offs⟩
      else
        none
    else
      some s

/-- The value of an attribute; behind its size lies anything. -/
structure AttrValue where
  bytes : Bytes
  size : Nat

/-- The value with the first bytes written, and longer if they reach behind it. -/
def AttrValue.pwrite (a : AttrValue) (n : Nat) (b : Bytes) : AttrValue where
  bytes := fun j => if j < n then b j else a.bytes j
  size := max a.size n

/-- The value cut to a smaller size. -/
def AttrValue.truncate (a : AttrValue) (n : Nat) : AttrValue where
  bytes := a.bytes
  size := n

/-- The bounds that `$AttrDef` gives for an attribute type. -/
structure AttrDef where
  minSize : Int
  maxSize : Int

/-- `ntfs_attr_size_bounds_check`, with the error that a resize ends with. -/
def attrSizeBoundsCheck (ad : Option AttrDef) (size : Nat) : Option Errno :=
  match ad with
  | none => some .eio
  | some ad =>
    if ad.minSize ≠ 0 ∧ size < ad.minSize ∨ 0 < ad.maxSize ∧ ad.maxSize < size then
      some .erange
    else
      none

/-- A step that fails, with the attribute that it leaves. -/
abbrev AttrFault := Option (Errno × AttrValue)

/-- `ntfs_attr_pwrite` at the start of an attribute, which is extended first. -/
def valuePwrite (ad : Option AttrDef) (fault : AttrFault) (a : AttrValue) (n : Nat) (b : Bytes) :
    Option Errno × AttrValue :=
  match if a.size < n then attrSizeBoundsCheck ad n else none, fault with
  | some err, _ => (some err, a)
  | none, some (err, left) => (some err, left)
  | none, none => (none, a.pwrite n b)

/-- `ntfs_attr_truncate` to a smaller size. -/
def valueTruncate (ad : Option AttrDef) (fault : AttrFault) (a : AttrValue) (n : Nat) :
    Option Errno × AttrValue :=
  match attrSizeBoundsCheck ad n, fault with
  | some err, _ => (some err, a)
  | none, some (err, left) => (some err, left)
  | none, none => (none, a.truncate n)

/-- `$EA` and `$EA_INFORMATION` of an inode. -/
structure EaAttrs where
  ea : Option AttrValue
  eaInfo : Option AttrValue

/-- What is read of the volume. -/
structure EaVolume where
  majorVer : Nat
  /-- The bounds of `$EA`. -/
  eaDef : Option AttrDef
  /-- The bounds of `$EA_INFORMATION`. -/
  infoDef : Option AttrDef

/-- Which steps of one call fail. -/
structure EaFaults where
  /-- `$EA_INFORMATION` is not found or not read before the call. -/
  readOld : Bool
  /-- The search of `ntfs_attr_exist`, which then answers that there is none. -/
  existInfo : Bool
  existEa : Bool
  addInfo : Option Errno
  addEa : Option Errno
  openInfo : Option Errno
  openEa : Option Errno
  writeInfo : AttrFault
  truncateEa : AttrFault
  writeEa : AttrFault
  /-- Writing the old `$EA_INFORMATION` back. -/
  restoreInfo : AttrFault

/-- The volume that `mkntfs` makes: the bounds are those of `attrdef_ntfs3x_array`. -/
def ntfs3xVolume : EaVolume :=
  ⟨3, some ⟨0, 65536⟩, some ⟨8, 8⟩⟩

/-- No step fails. -/
def noEaFaults : EaFaults :=
  ⟨false, false, false, none, none, none, none, none, none, none, none⟩

/-- `sizeof(EA_INFORMATION)`. -/
def eaInfoSize : Nat := 8

/-- `struct EA_INFORMATION` as bytes. -/
def eaInformation (s : EaSums) : List UInt8 :=
  leBytes 2 s.packed ++ leBytes 2 s.count ++ leBytes 4 s.nextoffs

/-- The content of `EA_INFORMATION` as a buffer. -/
def infoBuffer (info : List UInt8) : Bytes :=
  fun j => info.getD j 0

/-- `ntfs_need_ea`: the attribute, added with the given content if it is missing. -/
def needEa
    (majorVer : Nat) (replace missed : Bool) (answer : Option Errno)
    (attr : Option AttrValue) (fresh : AttrValue) :
    Except Errno AttrValue :=
  match attr, missed with
  | some a, false => .ok a
  | attr, _ =>
    if replace then
      .error .enodata
    else if 3 ≤ majorVer then
      match answer, attr with
      | some err, _ => .error err
      | none, some _ => .error .eexist
      | none, none => .ok fresh
    else
      .error .eopnotsupp

variable (vol : EaVolume) (f : EaFaults)

/-- `$EA` is cut if it is longer, and written. -/
def storeEa (ea : AttrValue) (value : Bytes) (size : Nat) : Option Errno × AttrValue :=
  match if size < ea.size then valueTruncate vol.eaDef f.truncateEa ea size else (none, ea) with
  | (some err, ea) => (some err, ea)
  | (none, ea) => valuePwrite vol.eaDef f.writeEa ea size value

/-- `restore_ea_info`, if there is an old `$EA_INFORMATION`. -/
def restoreEaInfo (eaInfo : AttrValue) (old : Option AttrValue) : AttrValue :=
  match old with
  | none => eaInfo
  | some old => (valuePwrite vol.infoDef f.restoreInfo eaInfo eaInfoSize old.bytes).2

/-- `ntfs_update_ea`, with the state it leaves; `old` is `old_ea_info`. -/
def updateEa (ea eaInfo : AttrValue) (old : Option AttrValue) (value : Bytes) (size : Nat)
    (info : List UInt8) : Option Errno × EaAttrs :=
  match f.openInfo, f.openEa with
  | some err, _ => (some err, ⟨some ea, some eaInfo⟩)
  -- `res` is still 0
  | none, some _ => (none, ⟨some ea, some eaInfo⟩)
  | none, none =>
    match valuePwrite vol.infoDef f.writeInfo eaInfo eaInfoSize (infoBuffer info) with
    | (some err, eaInfo) => (some err, ⟨some ea, some eaInfo⟩)
    | (none, eaInfo) =>
      match storeEa vol f ea value size with
      | (some err, ea) => (some err, ⟨some ea, some (restoreEaInfo vol f eaInfo old)⟩)
      | (none, ea) => (none, ⟨some ea, some eaInfo⟩)

/-- The `EA_INFORMATION` of the chain that is passed in, if it is accepted. -/
def acceptedInfo (value : Bytes) (size : Nat) : Option (List UInt8) :=
  if size = 0 then none
  else (eaChainLoop value size (size + 1) 0 ⟨0, 0, 0⟩).map eaInformation

/-- `ntfs_set_ntfs_ea` behind the check of the chain; `heap` is what a new `$EA_INFORMATION` is
filled with before it is written. -/
def setAcceptedEa (replace : Bool) (heap : Bytes) (st : EaAttrs) (value : Bytes) (size : Nat)
    (info : List UInt8) : Option Errno × EaAttrs :=
  match needEa vol.majorVer replace f.existInfo f.addInfo st.eaInfo ⟨heap, eaInfoSize⟩ with
  | .error err => (some err, st)
  | .ok eaInfo =>
    match needEa vol.majorVer replace f.existEa f.addEa st.ea ⟨heap, 0⟩ with
    | .error err => (some err, { st with eaInfo := some eaInfo })
    | .ok ea => updateEa vol f ea eaInfo (if f.readOld then none else st.eaInfo) value size info

/-- `ntfs_set_ntfs_ea`: the error it returns and the attributes that it leaves. -/
def setNtfsEa (replace : Bool) (heap : Bytes) (st : EaAttrs) (value : Bytes) (size : Nat) :
    Option Errno × EaAttrs :=
  match acceptedInfo value size with
  | none => (some .einval, st)
  | some info => setAcceptedEa vol f replace heap st value size info

end Model

section Chains

/-- The chain of entries from an offset on. -/
inductive EaChain (value : Bytes) (size : Nat) : Nat → List EaEntry → Prop
  | done
      {offs : Nat}
      (hend : size ≤ offs) :
      EaChain value size offs []
  | entry
      {offs : Nat} {rest : List EaEntry}
      (hlt : offs < size)
      (hok : EaEntryOk value size offs)
      (hrest : EaChain value size (eaNextOffs value offs) rest) :
      EaChain value size offs (eaEntryAt value offs :: rest)

/-- `ea_packed` of a chain. -/
def packedLength (entries : List EaEntry) : Nat :=
  (entries.map EaEntry.packed).sum

/-- `ea_count` of a chain. -/
def needCount (entries : List EaEntry) : Nat :=
  (entries.map EaEntry.need).sum

variable {value value' : Bytes} {size offs : Nat} {entries : List EaEntry}

/-- The loop accepts a chain and sums it up. -/
theorem EaChain.loop
    (h : EaChain value size offs entries)
    {fuel : Nat}
    (hfuel : size - offs < fuel)
    (s : EaSums) :
    ∃ n, eaChainLoop value size fuel offs s =
      some ⟨s.count + needCount entries, s.packed + packedLength entries, n⟩ := by
  induction h generalizing fuel s with
  | done hend =>
    obtain ⟨fuel, rfl⟩ : ∃ f, fuel = f + 1 := ⟨fuel - 1, by omega⟩
    refine ⟨s.nextoffs, ?_⟩
    rw [eaChainLoop, if_neg (by omega)]
    rfl
  | @entry offs rest hlt hok hrest ih =>
    obtain ⟨fuel, rfl⟩ : ∃ f, fuel = f + 1 := ⟨fuel - 1, by omega⟩
    have hforward := hok.1
    obtain ⟨n, hn⟩ := @ih fuel (by omega)
      ⟨s.count + (eaEntryAt value offs).need, s.packed + (eaEntryAt value offs).packed,
        eaNextOffs value offs⟩
    refine ⟨n, ?_⟩
    rw [eaChainLoop, if_pos hlt, if_pos hok]
    rw [hn]
    simp only [needCount, packedLength, List.map_cons, List.sum_cons, Nat.add_assoc]

/-- The loop accepts chains only. -/
theorem eaChain_of_loop
    {fuel : Nat} {s r : EaSums}
    (h : eaChainLoop value size fuel offs s = some r) :
    ∃ entries, EaChain value size offs entries := by
  induction fuel generalizing offs s with
  | zero => cases h
  | succ fuel ih =>
    rw [eaChainLoop] at h
    split_ifs at h with hlt hok
    · obtain ⟨rest, hrest⟩ := ih h
      exact ⟨_, .entry hlt hok hrest⟩
    · exact ⟨[], .done (by omega)⟩

/-- An entry that passes lies in the buffer with its value. -/
theorem EaEntryOk.inside
    (h : EaEntryOk value size offs) :
    offs + 8 + (eaEntryAt value offs).nameLength + 1 + (eaEntryAt value offs).valueLength ≤ size :=
  le_trans h.2.2.2.2.1 h.2.1

theorem EaEntryOk.congr
    (h : EaEntryOk value size offs)
    (hsame : ∀ j < size, value j = value' j) :
    EaEntryOk value' size offs ∧ eaEntryAt value' offs = eaEntryAt value offs ∧
      eaNextOffs value' offs = eaNextOffs value offs := by
  have hin := h.inside
  have hnext : eaNextOffs value' offs = eaNextOffs value offs := by
    unfold eaNextOffs
    congr 1
    exact leNat_congr fun i hi => (hsame _ (by omega)).symm
  have hentry : eaEntryAt value' offs = eaEntryAt value offs := by
    unfold eaEntryAt
    rw [hsame (offs + 4) (by omega), hsame (offs + 5) (by omega)]
    congr 1
    exact leNat_congr fun i hi => (hsame _ (by omega)).symm
  refine ⟨?_, hentry, hnext⟩
  unfold EaEntryOk at h ⊢
  rw [hentry, hnext, ← hsame _ (by omega)]
  exact h

/-- A chain depends on the bytes of the buffer only. -/
theorem EaChain.congr
    (h : EaChain value size offs entries)
    (hsame : ∀ j < size, value j = value' j) :
    EaChain value' size offs entries := by
  induction h with
  | done hend => exact .done hend
  | entry hlt hok hrest ih =>
    obtain ⟨hok', hentry, hnext⟩ := hok.congr hsame
    rw [← hnext] at ih
    rw [← hentry]
    exact .entry hlt hok' ih

/-- The packed length is at least a third of the size, and less by four bytes an entry. -/
theorem EaChain.packed_bounds
    (h : EaChain value size offs entries) :
    (offs < size → offs + packedLength entries + 4 ≤ size) ∧ (size ≤ offs → entries = []) ∧
      size ≤ offs + 3 * packedLength entries ∧ needCount entries ≤ packedLength entries := by
  induction h with
  | done hend =>
    simp only [packedLength, needCount, List.map_nil, List.sum_nil, implies_true, true_and]
    omega
  | @entry offs rest hlt hok hrest ih =>
    have hneed : (eaEntryAt value offs).need ≤ 1 := by
      unfold EaEntry.need
      split_ifs <;> omega
    obtain ⟨hforward, hle, -, hname, hend, hslack, -⟩ := hok
    unfold EaEntry.endOffs at hend hslack
    obtain ⟨hupper, hnil, hlower, hcount⟩ := ih
    have hrestLength : eaNextOffs value offs < size ∨ packedLength rest = 0 := by
      by_cases hend : eaNextOffs value offs < size
      · exact .inl hend
      · rw [hnil (by omega)]
        exact .inr rfl
    simp only [packedLength, needCount, List.map_cons, List.sum_cons, EaEntry.packed] at *
    omega

end Chains

section Stored

variable {vol : EaVolume} {f : EaFaults} {replace : Bool} {heap : Bytes}
variable {st st' : EaAttrs} {value : Bytes} {size : Nat}

/-- What a successful call leaves. -/
structure EaStored (value : Bytes) (size : Nat) (entries : List EaEntry)
    (ea eaInfo : AttrValue) : Prop where
  chain : EaChain value size 0 entries
  size_pos : 0 < size
  ea_size : ea.size = size
  ea_bytes : ∀ j < size, value j = ea.bytes j
  info_size : eaInfoSize ≤ eaInfo.size
  info_length : le16 eaInfo.bytes 0 = packedLength entries % 65536
  info_count : le16 eaInfo.bytes 2 = needCount entries % 65536

/-- The sums are stored in sixteen bits. -/
theorem eaInformation_fields
    (s : EaSums)
    (old : AttrValue) :
    le16 (old.pwrite eaInfoSize (infoBuffer (eaInformation s))).bytes 0 = s.packed % 65536 ∧
      le16 (old.pwrite eaInfoSize (infoBuffer (eaInformation s))).bytes 2 = s.count % 65536 := by
  have hholds : HoldsBytes (old.pwrite eaInfoSize (infoBuffer (eaInformation s))).bytes 0
      (eaInformation s) := by
    apply holdsBytes_of_getElem
    intro i hi
    have hlen : (eaInformation s).length = eaInfoSize := by simp [eaInformation, eaInfoSize]
    simp only [AttrValue.pwrite, infoBuffer]
    rw [if_pos (by omega)]
    simp [hi]
  unfold eaInformation at hholds
  rw [holdsBytes_append, holdsBytes_append] at hholds
  obtain ⟨⟨hpacked, hcount⟩, -⟩ := hholds
  exact ⟨hpacked.leNat_eq, hcount.leNat_eq⟩

/-- A write that succeeds, and the bound it has passed. -/
theorem valuePwrite_ok
    {ad : Option AttrDef} {fault : AttrFault} {a a' : AttrValue} {n : Nat} {b : Bytes}
    (h : valuePwrite ad fault a n b = (none, a')) :
    a' = a.pwrite n b ∧ (a.size < n → attrSizeBoundsCheck ad n = none) := by
  unfold valuePwrite at h
  split at h
  · cases h
  · cases h
  · next hbounds =>
    cases h
    exact ⟨rfl, fun hlt => by rwa [if_pos hlt] at hbounds⟩

/-- A truncation that succeeds, and the bound it has passed. -/
theorem valueTruncate_ok
    {ad : Option AttrDef} {fault : AttrFault} {a a' : AttrValue} {n : Nat}
    (h : valueTruncate ad fault a n = (none, a')) :
    a' = a.truncate n ∧ attrSizeBoundsCheck ad n = none := by
  unfold valueTruncate at h
  split at h
  · cases h
  · cases h
  · next hbounds =>
    cases h
    exact ⟨rfl, hbounds⟩

/-- What `$EA` is cut to and written with.  Its size is within the bounds unless it stays. -/
theorem storeEa_ok
    {ea ea' : AttrValue}
    (h : storeEa vol f ea value size = (none, ea')) :
    ea' = (if size < ea.size then ea.truncate size else ea).pwrite size value ∧
      (ea.size ≠ size → attrSizeBoundsCheck vol.eaDef size = none) := by
  unfold storeEa at h
  by_cases hlt : size < ea.size
  · rw [if_pos hlt] at h ⊢
    cases hcut : valueTruncate vol.eaDef f.truncateEa ea size with
    | mk err cut =>
      rw [hcut] at h
      cases err with
      | some err => cases h
      | none =>
        obtain ⟨rfl, hbounds⟩ := valueTruncate_ok hcut
        exact ⟨(valuePwrite_ok h).1, fun _ => hbounds⟩
  · rw [if_neg hlt] at h ⊢
    obtain ⟨hres, hbounds⟩ := valuePwrite_ok h
    exact ⟨hres, fun hne => hbounds (by omega)⟩

/-- An accepted chain, with the sums that are stored. -/
theorem acceptedInfo_chain
    {info : List UInt8}
    (h : acceptedInfo value size = some info) :
    0 < size ∧ ∃ entries n, EaChain value size 0 entries ∧
      info = eaInformation ⟨needCount entries, packedLength entries, n⟩ := by
  unfold acceptedInfo at h
  split_ifs at h with hzero
  obtain ⟨sums, hloop, rfl⟩ := Option.map_eq_some_iff.mp h
  obtain ⟨entries, hchain⟩ := eaChain_of_loop hloop
  obtain ⟨n, hsums⟩ := hchain.loop (show size - 0 < size + 1 by omega) ⟨0, 0, 0⟩
  rw [hloop, Option.some.injEq] at hsums
  refine ⟨by omega, entries, n, hchain, ?_⟩
  rw [hsums, Nat.zero_add, Nat.zero_add]

/-- What a call leaves that returns 0, unless `$EA` could not be opened. -/
theorem setNtfsEa_stored
    (h : setNtfsEa vol f replace heap st value size = (none, st'))
    (hopen : f.openEa = none) :
    ∃ entries ea eaInfo, EaStored value size entries ea eaInfo ∧ st' = ⟨some ea, some eaInfo⟩ ∧
      (attrSizeBoundsCheck vol.eaDef size = none ∨ ∃ old ∈ st.ea, old.size = size) := by
  unfold setNtfsEa at h
  cases hinfo : acceptedInfo value size with
  | none =>
    rw [hinfo] at h
    cases h
  | some info =>
    obtain ⟨hpos, entries, n, hchain, rfl⟩ := acceptedInfo_chain hinfo
    rw [hinfo] at h
    dsimp only at h
    unfold setAcceptedEa at h
    split at h
    · cases h
    next eaInfo hneedInfo =>
    split at h
    · cases h
    next ea hneedEa =>
    unfold updateEa at h
    rw [hopen] at h
    split at h
    · cases h
    · next hopen' => cases hopen'
    split at h
    · cases h
    next eaInfo' hwriteInfo =>
    split at h
    · cases h
    next ea' hstore =>
    cases h
    obtain ⟨rfl, -⟩ := valuePwrite_ok hwriteInfo
    obtain ⟨rfl, hbounds⟩ := storeEa_ok hstore
    obtain ⟨hlength, hcount⟩ := eaInformation_fields
      ⟨needCount entries, packedLength entries, n⟩ eaInfo
    refine ⟨entries, _, _, ⟨hchain, hpos, ?_, fun j hj => (if_pos hj).symm, Nat.le_max_right _ _,
      hlength, hcount⟩, rfl, ?_⟩
    · split_ifs with hlt
      · exact Nat.max_self size
      · exact Nat.max_eq_right (Nat.le_of_not_lt hlt)
    · by_cases hsame : ea.size = size
      · refine .inr ⟨ea, ?_, hsame⟩
        unfold needEa at hneedEa
        grind
      · exact .inl (hbounds hsame)

end Stored

end NtfsPlus.Libntfs

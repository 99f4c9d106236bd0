import NtfsPlus.Libntfs.Collate
import NtfsPlus.Libntfs.AttrRecordEdit

/-!
# Searching through an attribute list

`ntfs_external_attr_find` of `libntfs/attrib.c`: a walk over the entries of the
attribute list, and for the entry it stops at a walk over the attributes of the
record that the entry refers to.  The search is for a type other than
`AT_UNUSED` and `AT_END`, with `CASE_SENSITIVE` names, without a value and with
a fresh search context, as `ntfs_attr_open` does it.

The list is memory.  The records are given by the attributes they hold, with the
fields that the search looks at.
-/

namespace NtfsPlus.Libntfs

open SignedBytes

section Records

/-- The fields of an attribute record that the attribute list repeats. -/
structure AttrHead where
  type : Nat
  name : List UInt16
  nonResident : Bool
  lowestVcn : Int
  inst : Nat
deriving DecidableEq, Repr

/-- An MFT record: its number, its sequence number and its attributes in order. -/
structure MftRecord where
  mftNo : Nat
  sequenceNumber : Nat
  attrs : List AttrHead
deriving DecidableEq, Repr

/--
An inode with its attached extent records.  `mftMapped` says which records lie in
a mapped part of `$MFT`, and `load` what loading a record gives that is not
attached.
-/
structure InodeRecords where
  base : MftRecord
  extents : List MftRecord
  mftMapped : Nat → Bool
  load : Nat → Option MftRecord

/-- The base record and the extent records. -/
def InodeRecords.records (ino : InodeRecords) : List MftRecord :=
  ino.base :: ino.extents

end Records

section Names

/-- The memory behind an address. -/
def memAt (m : Bytes) (pos : Nat) : Bytes :=
  fun i => m (pos + i)

/-- The bytes of a name. -/
def nameBytes (name : List UInt16) : List UInt8 :=
  name.flatMap (fun c => leBytes 2 c.toNat)

/-- `ntfs_ucsncmp` of `n` more characters, from character `i` on. -/
def ucsncmp (s1 s2 : Bytes) : Nat → Nat → Int
  | 0, _ => 0
  | n + 1, i =>
    if nameChar s1 i < nameChar s2 i then
      -1
    else if nameChar s1 i > nameChar s2 i then
      1
    else if nameChar s1 i = 0 then
      0
    else
      ucsncmp s1 s2 n (i + 1)

/-- `ntfs_names_are_equal` with `CASE_SENSITIVE`. -/
def namesAreEqual (s1 : Bytes) (len1 : Nat) (s2 : Bytes) (len2 : Nat) : Bool :=
  if len1 ≠ len2 then
    false
  else if len1 = 0 then
    true
  else
    decide (ucsncmp s1 s2 len1 0 = 0)

end Names

section Search

/-- What is searched for. -/
structure Wanted where
  type : Nat
  name : List UInt16
  lowestVcn : Int

/-- How a search ends; an attribute is named by its record and its index there. -/
inductive FindResult where
  | found (mftNo index : Nat)
  | notFound
  | corrupt
deriving DecidableEq, Repr

/-- How the walk over the attributes of one record ends. -/
inductive RecordScan where
  | nextEntry
  | corrupt
  | found (index : Nat)
deriving DecidableEq, Repr

/-- `al_entry->length`. -/
def entryLength (al : Bytes) (pos : Nat) : Nat :=
  le16 al (pos + 4)

/-- `al_entry->name_length`. -/
def entryNameLength (al : Bytes) (pos : Nat) : Nat :=
  (al (pos + 6)).toNat

/-- The name of the entry at `pos`. -/
def entryName (al : Bytes) (pos : Nat) : Bytes :=
  memAt al (pos + (al (pos + 7)).toNat)

/-- The checks on an entry before the search looks at it. -/
def entryBad (al : Bytes) (alEnd pos : Nat) : Bool :=
  decide (pos + 26 > alEnd) ||
    decide (pos + entryLength al pos > alEnd) ||
    decide (entryLength al pos % 8 ≠ 0) ||
    decide (entryLength al pos < 6) ||
    decide (entryNameLength al pos ≠ 0 ∧
      pos + (al (pos + 7)).toNat + 2 * entryNameLength al pos > alEnd)

/-- Where the entry stands to the type and the name that are searched for. -/
def entryMatch (up : Upcase) (al : Bytes) (w : Wanted) (pos : Nat) : Ordering :=
  if le32 al pos > w.type then
    .gt
  else if w.type ≠ le32 al pos then
    .lt
  else if w.name = [] then
    if entryNameLength al pos ≠ 0 then .gt else .eq
  else
    let rc := namesFullCollate (bytesOf (nameBytes w.name)) w.name.length
      (entryName al pos) (entryNameLength al pos) false up
    if rc ≠ 0 then
      if rc < 0 then .gt else .lt
    else
      .eq

/-- The next entry has the same type and name, and its lowest VCN still fits. -/
def nextStillFits (al : Bytes) (alEnd : Nat) (w : Wanted) (pos next : Nat) : Bool :=
  decide (next + 6 < alEnd) &&
    decide (next + entryLength al next ≤ alEnd) &&
    decide (s64 (le64 al (next + 8)) ≤ w.lowestVcn) &&
    decide (le32 al next = le32 al pos) &&
    decide (entryNameLength al next = entryNameLength al pos) &&
    namesAreEqual (entryName al next) (entryNameLength al next)
      (entryName al pos) (entryNameLength al pos)

/-- `ntfs_extent_inode_open`; a stale sequence number of an attached record is only logged. -/
def extentInodeOpen (ino : InodeRecords) (mftNo : Nat) : Option MftRecord :=
  if ino.base.mftNo = 0 ∧ ino.mftMapped mftNo = false then
    none
  else
    match ino.extents.find? (fun r => r.mftNo = mftNo) with
    | some r => some r
    | none => ino.load mftNo

/-- The record that the entry refers to; `ni` is the record of the entry before. -/
def entryRecord (ino : InodeRecords) (al : Bytes) (pos : Nat) (ni : MftRecord) : Option MftRecord :=
  let mref := le64 al (pos + 16)
  if mref % 2 ^ 48 = ni.mftNo then
    if mref / 2 ^ 48 = ni.sequenceNumber then some ni else none
  else if mref % 2 ^ 48 = ino.base.mftNo then
    some ino.base
  else
    extentInodeOpen ino (mref % 2 ^ 48)

/-- The walk over the attributes of the record, from index `i` on. -/
def scanRecord (al : Bytes) (pos : Nat) : List AttrHead → Nat → RecordScan
  | [], _ => .nextEntry
  | a :: rest, i =>
    if le16 al (pos + 24) ≠ a.inst then
      scanRecord al pos rest (i + 1)
    else if le32 al pos ≠ a.type then
      .corrupt
    else if namesAreEqual (bytesOf (nameBytes a.name)) a.name.length
        (entryName al pos) (entryNameLength al pos) then
      .found i
    else
      .corrupt

/-- The loop over the entries; each entry moves on by eight bytes or more. -/
def findEntry (up : Upcase) (ino : InodeRecords) (al : Bytes) (alEnd : Nat) (w : Wanted) :
    Nat → Nat → MftRecord → FindResult
  | 0, _, _ => .corrupt
  | fuel + 1, pos, ni =>
    if pos > alEnd then
      .corrupt
    else if pos = alEnd then
      .notFound
    else if entryBad al alEnd pos then
      .corrupt
    else
      let next := pos + entryLength al pos
      match entryMatch up al w pos with
      | .gt => .notFound
      | .lt => findEntry up ino al alEnd w fuel next ni
      | .eq =>
        if w.lowestVcn ≠ 0 ∧ nextStillFits al alEnd w pos next = true then
          findEntry up ino al alEnd w fuel next ni
        else
          match entryRecord ino al pos ni with
          | none => .corrupt
          | some r =>
            match scanRecord al pos r.attrs 0 with
            | .nextEntry => findEntry up ino al alEnd w fuel next r
            | .corrupt => .corrupt
            | .found i => .found r.mftNo i

/-- `ntfs_external_attr_find` in a list of `alSize` bytes. -/
def externalAttrFind (up : Upcase) (ino : InodeRecords) (al : Bytes) (alSize : Nat)
    (w : Wanted) : FindResult :=
  findEntry up ino al alSize w (alSize + 1) 0 ino.base

end Search

section NameLemmas

/-- What names are sorted by: in upper case first, then as they are. -/
def nameKey (up : Upcase) (name : List UInt16) : SortKey :=
  toLex (name.map (fun c => up.char c.toNat), name.map UInt16.toNat)

variable (up : Upcase) (name : List UInt16)

/-- Names with the same key are the same. -/
theorem nameKey_injective : Function.Injective (nameKey up) := by
  intro a b h
  have hraw : a.map UInt16.toNat = b.map UInt16.toNat := congrArg (fun k => (ofLex k).2) h
  exact List.map_injective_iff.mpr (fun _ _ => UInt16.toNat_inj.mp) hraw

theorem nameKey_nil_le : nameKey up [] ≤ nameKey up name := by
  cases name with
  | nil => exact le_refl _
  | cons c rest => exact Prod.Lex.toLex_le_toLex.mpr (Or.inl (List.nil_lt_cons _ _))

@[simp] theorem nameBytes_length : (nameBytes name).length = 2 * name.length := by
  induction name with
  | nil => rfl
  | cons c rest ih =>
    simp only [nameBytes, List.flatMap_cons, List.length_append, leBytes_length] at ih ⊢
    rw [List.length_cons]
    omega

theorem holdsBytes_bytesOf
    (l : List UInt8) :
    HoldsBytes (bytesOf l) 0 l := by
  apply holdsBytes_of_getElem
  intro i hi
  simp [bytesOf, hi]

variable {i : Nat} {m1 m2 : Bytes}

/-- The characters of a name in memory. -/
theorem nameChar_memAt
    {m : Bytes} {pos : Nat} {name : List UInt16}
    (h : HoldsBytes m pos (nameBytes name))
    (hi : i < name.length) :
    nameChar (memAt m pos) i = (name[i]).toNat := by
  induction name generalizing pos i with
  | nil => exact absurd hi (Nat.not_lt_zero i)
  | cons c rest ih =>
    rw [nameBytes, List.flatMap_cons, holdsBytes_append, leBytes_length] at h
    obtain ⟨hfirst, hrest⟩ := h
    cases i with
    | zero =>
      have hc := hfirst.leNat_eq
      rw [Nat.mod_eq_of_lt (show c.toNat < 256 ^ 2 from c.toNat_lt)] at hc
      rw [nameChar, List.getElem_cons_zero, ← hc]
      exact leNat_congr (fun j _ => by rw [memAt]; congr 1; omega)
    | succ i =>
      rw [List.getElem_cons_succ, ← ih hrest (Nat.lt_of_succ_lt_succ hi)]
      exact leNat_congr (fun j _ => by rw [memAt]; congr 1; omega)

theorem nameChar_bytesOf
    (hi : i < name.length) :
    nameChar (bytesOf (nameBytes name)) i = (name[i]).toNat := by
  have h := nameChar_memAt (holdsBytes_bytesOf (nameBytes name)) hi
  have hzero : memAt (bytesOf (nameBytes name)) 0 = bytesOf (nameBytes name) := by
    funext j
    rw [memAt, Nat.zero_add]
  rwa [hzero] at h

theorem seqList_eq_map
    {α : Type} {f : Nat → Nat} {g : α → Nat} {l : List α}
    (h : ∀ (i : Nat) (hi : i < l.length), f i = g l[i]) :
    seqList f l.length = l.map g := by
  apply List.ext_getElem
  · simp
  · intro i hi _
    rw [getElem_seqList, List.getElem_map]
    exact h i (by simpa using hi)

/-- Names compare by their keys. -/
theorem namesFullCollate_nameKey
    {name1 name2 : List UInt16}
    (h1 : ∀ (i : Nat) (hi : i < name1.length), nameChar m1 i = (name1[i]).toNat)
    (h2 : ∀ (i : Nat) (hi : i < name2.length), nameChar m2 i = (name2[i]).toNat) :
    Decides (namesFullCollate m1 name1.length m2 name2.length false up)
      (nameKey up name1) (nameKey up name2) := by
  have h := namesFullCollate_decides up m1 m2 name1.length name2.length
  rwa [seqList_eq_map (f := nameChar m1) h1, seqList_eq_map (f := nameChar m2) h2,
    seqList_eq_map (g := fun c => up.char c.toNat) (fun i hi => by rw [h1 i hi]),
    seqList_eq_map (g := fun c => up.char c.toNat) (fun i hi => by rw [h2 i hi])] at h

/-- Names that agree compare as equal. -/
theorem ucsncmp_of_agree
    {n : Nat}
    (h : ∀ j, i ≤ j → j < i + n → nameChar m1 j = nameChar m2 j) :
    ucsncmp m1 m2 n i = 0 := by
  induction n generalizing i with
  | zero => rfl
  | succ n ih =>
    have hi := h i (le_refl i) (by omega)
    rw [ucsncmp, if_neg (by omega), if_neg (by omega)]
    split_ifs with hzero
    · rfl
    · exact ih (fun j hj hjn => h j (by omega) (by omega))

/-- Without a zero character, `ntfs_ucsncmp` finds every difference. -/
theorem ucsncmp_agree
    {n : Nat}
    (hzero : ∀ j, i ≤ j → j < i + n → nameChar m1 j ≠ 0)
    (h : ucsncmp m1 m2 n i = 0) :
    ∀ j, i ≤ j → j < i + n → nameChar m1 j = nameChar m2 j := by
  induction n generalizing i with
  | zero =>
    omega
  | succ n ih =>
    rw [ucsncmp] at h
    split_ifs at h with hlt hgt hz
    · cases h
    · exact absurd hz (hzero i (le_refl i) (by omega))
    · intro j hj hjn
      by_cases hji : j = i
      · rw [hji]
        omega
      · exact ih (fun k hk hkn => hzero k (by omega) (by omega)) h j (by omega) (by omega)

/-- A name without zero characters equals another one just if the code says so. -/
theorem namesAreEqual_iff
    {name1 name2 : List UInt16}
    (h1 : ∀ (i : Nat) (hi : i < name1.length), nameChar m1 i = (name1[i]).toNat)
    (h2 : ∀ (i : Nat) (hi : i < name2.length), nameChar m2 i = (name2[i]).toNat)
    (hzero : 0 ∉ name1) :
    namesAreEqual m1 name1.length m2 name2.length = true ↔ name1 = name2 := by
  unfold namesAreEqual
  constructor
  · intro h
    split_ifs at h with hlen hnil
    · rw [List.length_eq_zero_iff.mp hnil,
        List.length_eq_zero_iff.mp ((not_not.mp hlen).symm.trans hnil)]
    · have hlen' : name1.length = name2.length := not_not.mp hlen
      apply List.ext_getElem hlen'
      intro i hi hi'
      have hsame := ucsncmp_agree (i := 0) (fun j _ hj => by
          rw [h1 j (by omega)]
          intro hc
          apply hzero
          rw [← UInt16.toNat_inj.mp (hc.trans UInt16.toNat_zero.symm)]
          exact List.getElem_mem _)
        (of_decide_eq_true h) i (Nat.zero_le i) (by omega)
      rw [h1 i hi, h2 i hi'] at hsame
      exact UInt16.toNat_inj.mp hsame
  · rintro rfl
    rw [if_neg (fun h => h rfl)]
    split_ifs with hnil
    · rfl
    · apply decide_eq_true
      apply ucsncmp_of_agree
      intro j _ hj
      rw [h1 j (by omega), h2 j (by omega)]

end NameLemmas

end NtfsPlus.Libntfs

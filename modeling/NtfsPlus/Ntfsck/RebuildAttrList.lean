import NtfsPlus.Libntfs.AttrList

/-!
# Rebuilding the attribute list

`ntfsck_rebuild_attr_list` of `src/ntfsck.c`: the attributes of the base record
and of the attached extent records are collected, sorted and written as the
entries of a new attribute list.

`itemKey` is what the items are sorted by, `sortAttrListItems_pairwise` and
`sortAttrListItems_perm` are the contract of the sort.  `EntryAt` says what the
search of `libntfs` reads at an entry, and `findEntry_reaches` how it gets to
the entry of an attribute.
-/

namespace NtfsPlus.Ntfsck

open Libntfs SignedBytes

section Model

/-- `struct ntfsck_attrlist_item`; `index` tells the attributes of a record apart. -/
structure AttrListItem where
  record : MftRecord
  index : Nat
  attr : AttrHead
deriving DecidableEq, Repr

/-- The lowest VCN that the list gives an attribute. -/
def listVcn (a : AttrHead) : Int :=
  if a.nonResident then a.lowestVcn else 0

/-- The instance that the list gives an attribute. -/
def listInstance (a : AttrHead) : Nat :=
  if listVcn a ≠ 0 then 0 else a.inst

/-- The difference of two types in `int` arithmetic. -/
def typeDifference (left right : Nat) : Int :=
  asInt32 ((left + 2 ^ 32 - right) % 2 ^ 32)

/-- `ntfsck_compare_attrlist_items`. -/
def compareAttrListItems (up : Upcase) (left right : AttrListItem) : Int :=
  let rc := typeDifference left.attr.type right.attr.type
  if rc ≠ 0 then
    rc
  else if left.attr.name.length = 0 ∧ right.attr.name.length ≠ 0 then
    -1
  else if left.attr.name.length ≠ 0 ∧ right.attr.name.length = 0 then
    1
  else
    let rc :=
      if left.attr.name.length ≠ 0 ∧ right.attr.name.length ≠ 0 then
        namesFullCollate (bytesOf (nameBytes left.attr.name)) left.attr.name.length
          (bytesOf (nameBytes right.attr.name)) right.attr.name.length false up
      else
        0
    if rc ≠ 0 then
      rc
    else if listVcn left.attr < listVcn right.attr then
      -1
    else if listVcn left.attr > listVcn right.attr then
      1
    else if listInstance left.attr < listInstance right.attr then
      -1
    else if listInstance left.attr > listInstance right.attr then
      1
    else if left.record.mftNo < right.record.mftNo then
      -1
    else if left.record.mftNo > right.record.mftNo then
      1
    else
      0

/--
The inner loop of `ntfsck_sort_attrlist_items`: the sorted items before `item`,
the last one first, make room while they are greater.
-/
def shiftItem (up : Upcase) (item : AttrListItem) : List AttrListItem → List AttrListItem
  | [] => [item]
  | last :: rest =>
    if compareAttrListItems up last item > 0 then
      last :: shiftItem up item rest
    else
      item :: last :: rest

/-- `ntfsck_sort_attrlist_items`. -/
def sortAttrListItems (up : Upcase) (items : List AttrListItem) : List AttrListItem :=
  (items.foldl (fun sorted item => shiftItem up item sorted) []).reverse

/-- The attributes of one record but the attribute list. -/
def recordItems (r : MftRecord) : List AttrListItem :=
  (r.attrs.zipIdx.filter (fun p => p.1.type ≠ atAttributeList)).map (fun p => ⟨r, p.2, p.1⟩)

/-- `ntfsck_collect_attrlist_items`. -/
def collectAttrListItems (ino : InodeRecords) : List AttrListItem :=
  ino.records.flatMap recordItems

/-- The length of the entry for an attribute. -/
def entryLen (a : AttrHead) : Nat :=
  (26 + 2 * a.name.length + 7) / 8 * 8

/-- The loop that adds up the lengths of the entries, with the limit on their sum. -/
def newListLength : List AttrListItem → Nat → Option Nat
  | [], len => some len
  | item :: rest, len =>
    if len > 0x40000 - entryLen item.attr then
      none
    else
      newListLength rest (len + entryLen item.attr)

/-- `MK_LE_MREF` of the number and the sequence number of a record. -/
def mftReference (r : MftRecord) : Nat :=
  r.sequenceNumber % 2 ^ 16 * 2 ^ 48 + r.mftNo % 2 ^ 48

/-- The entry for an attribute, in a buffer that was zeroed. -/
def entryBytes (item : AttrListItem) : List UInt8 :=
  leBytes 4 item.attr.type ++ leBytes 2 (entryLen item.attr) ++
    leBytes 1 item.attr.name.length ++ leBytes 1 26 ++
    leBytes 8 (listVcn item.attr % 2 ^ 64).toNat ++ leBytes 8 (mftReference item.record) ++
    leBytes 2 (listInstance item.attr) ++ nameBytes item.attr.name ++
    List.replicate (entryLen item.attr - (26 + 2 * item.attr.name.length)) 0

/--
`ntfsck_rebuild_attr_list`: the new list, if all goes well.  `hasList` says that
the inode has an attribute list and `stored` that the list attribute could be
resized and written; neither moves an attribute to another record.
-/
def rebuildAttrList (up : Upcase) (ino : InodeRecords) (hasList stored : Bool) :
    Option (List UInt8) :=
  if hasList then
    match collectAttrListItems ino with
    | [] => none
    | items =>
      let sorted := sortAttrListItems up items
      match newListLength sorted 0 with
      | none => none
      | some _ => if stored then some (sorted.flatMap entryBytes) else none
  else
    none

end Model

section Order

/-- An attribute as the format has it, with a type that `int` holds. -/
structure ValidAttr (a : AttrHead) : Prop where
  type_pos : 0 < a.type
  type_lt : a.type < 2 ^ 31
  name_lt : a.name.length < 256
  name_nul : 0 ∉ a.name
  vcn_nonneg : 0 ≤ listVcn a
  vcn_lt : listVcn a < 2 ^ 63
  inst_lt : a.inst < 2 ^ 16

/-- What an item is searched by. -/
def searchKey (up : Upcase) (item : AttrListItem) : Nat ×ₗ SortKey ×ₗ Int :=
  toLex (item.attr.type, toLex (nameKey up item.attr.name, listVcn item.attr))

/-- What an item is sorted by. -/
def itemKey (up : Upcase) (item : AttrListItem) : Nat ×ₗ SortKey ×ₗ Int ×ₗ Nat ×ₗ Nat :=
  toLex (item.attr.type, toLex (nameKey up item.attr.name, toLex (listVcn item.attr,
    toLex (listInstance item.attr, item.record.mftNo))))

theorem typeDifference_decides
    {left right : Nat}
    (hl : left < 2 ^ 31)
    (hr : right < 2 ^ 31) :
    Decides (typeDifference left right) left right := by
  unfold typeDifference asInt32
  rcases lt_trichotomy left right with hlt | rfl | hgt
  · refine Or.inl ⟨?_, hlt⟩
    omega
  · refine Or.inr (Or.inl ⟨?_, rfl⟩)
    rw [Nat.add_sub_cancel_left]
    rfl
  · refine Or.inr (Or.inr ⟨?_, hgt⟩)
    omega

variable (up : Upcase)

theorem compareAttrListItems_eq
    (left right : AttrListItem) :
    compareAttrListItems up left right = (let c1 := typeDifference left.attr.type right.attr.type
       let c2 := namesFullCollate (bytesOf (nameBytes left.attr.name)) left.attr.name.length
          (bytesOf (nameBytes right.attr.name)) right.attr.name.length false up
       let c3 : Int := if listVcn left.attr < listVcn right.attr then -1
          else if listVcn left.attr > listVcn right.attr then 1 else 0
       let c4 : Int := if listInstance left.attr < listInstance right.attr then -1
          else if listInstance left.attr > listInstance right.attr then 1 else 0
       let c5 : Int := if left.record.mftNo < right.record.mftNo then -1
          else if left.record.mftNo > right.record.mftNo then 1 else 0
       if c1 ≠ 0 then c1 else if c2 ≠ 0 then c2 else if c3 ≠ 0 then c3
        else if c4 ≠ 0 then c4 else c5) := by
  have hname : ∀ {len1 len2 : Nat} (m1 m2 : Bytes), min len1 len2 = 0 →
      namesFullCollate m1 len1 m2 len2 false up =
        if len1 < len2 then -1 else if len1 > len2 then 1 else 0 := by
    intro len1 len2 m1 m2 h
    rw [namesFullCollate, if_neg (by omega)]
  unfold compareAttrListItems
  dsimp only
  by_cases hc1 : typeDifference left.attr.type right.attr.type ≠ 0
  · rw [if_pos hc1, if_pos hc1]
  rw [if_neg hc1, if_neg hc1]
  by_cases hl : left.attr.name.length = 0
  · rw [hname _ _ (by omega)]
    by_cases hr : right.attr.name.length = 0
    · simp only [hl, hr, ne_eq, not_true_eq_false, and_false, false_and, if_false, lt_irrefl,
        gt_iff_lt]
      split_ifs <;> first | rfl | contradiction
    · rw [if_pos ⟨hl, hr⟩, if_pos (show left.attr.name.length < right.attr.name.length by omega)]
      rfl
  · by_cases hr : right.attr.name.length = 0
    · rw [hname _ _ (by omega), if_neg (fun h => hl h.1), if_pos ⟨hl, hr⟩,
        if_neg (show ¬ left.attr.name.length < right.attr.name.length by omega),
        if_pos (show left.attr.name.length > right.attr.name.length by omega)]
      rfl
    · simp only [hl, hr, ne_eq, not_false_eq_true, and_true, and_false, if_false, if_true]
      generalize namesFullCollate _ _ _ _ _ _ = c2
      split_ifs <;> first | rfl | contradiction

theorem compareAttrListItems_decides
    {left right : AttrListItem}
    (hl : ValidAttr left.attr)
    (hr : ValidAttr right.attr) :
    Decides (compareAttrListItems up left right) (itemKey up left) (itemKey up right) := by
  rw [compareAttrListItems_eq]
  have hname : Decides _ (nameKey up left.attr.name) (nameKey up right.attr.name) :=
    namesFullCollate_nameKey up (fun i hi => nameChar_bytesOf _ hi)
      (fun i hi => nameChar_bytesOf _ hi)
  exact (typeDifference_decides hl.type_lt hr.type_lt).lex (hname.lex
    ((decides_threeWay _ _).lex ((decides_threeWay _ _).lex (decides_threeWay _ _))))

theorem shiftItem_perm
    (item : AttrListItem)
    (sorted : List AttrListItem) :
    (shiftItem up item sorted).Perm (item :: sorted) := by
  induction sorted with
  | nil => exact List.Perm.refl _
  | cons last rest ih =>
    rw [shiftItem]
    split_ifs with h
    · exact (ih.cons last).trans (List.Perm.swap item last rest)
    · exact List.Perm.refl _

variable {sorted items : List AttrListItem}

theorem shiftItem_pairwise
    {item : AttrListItem}
    (hitem : ValidAttr item.attr)
    (hvalid : ∀ x ∈ sorted, ValidAttr x.attr)
    (hsorted : sorted.Pairwise (fun a b => itemKey up b ≤ itemKey up a)) :
    (shiftItem up item sorted).Pairwise (fun a b => itemKey up b ≤ itemKey up a) := by
  induction sorted with
  | nil => exact List.pairwise_singleton _ _
  | cons last rest ih =>
    obtain ⟨hlast, hrest⟩ := List.pairwise_cons.mp hsorted
    have hcmp := (compareAttrListItems_decides up (hvalid last List.mem_cons_self) hitem).pos_iff
    rw [shiftItem]
    split_ifs with h
    · refine List.pairwise_cons.mpr
        ⟨?_, ih (fun x hx => hvalid x (List.mem_cons_of_mem _ hx)) hrest⟩
      intro x hx
      rcases List.mem_cons.mp ((shiftItem_perm up item rest).mem_iff.mp hx) with rfl | hx
      · exact le_of_lt (hcmp.mp h)
      · exact hlast x hx
    · have hle : itemKey up last ≤ itemKey up item := not_lt.mp (fun hlt => h (hcmp.mpr hlt))
      refine List.pairwise_cons.mpr ⟨?_, hsorted⟩
      intro x hx
      rcases List.mem_cons.mp hx with rfl | hx
      · exact hle
      · exact (hlast x hx).trans hle

theorem sortLoop_perm
    (items sorted : List AttrListItem) :
    (items.foldl (fun sorted item => shiftItem up item sorted) sorted).Perm (items ++ sorted) := by
  induction items generalizing sorted with
  | nil => exact List.Perm.refl _
  | cons item rest ih =>
    refine (ih _).trans ?_
    exact ((shiftItem_perm up item sorted).append_left rest).trans List.perm_middle

theorem sortAttrListItems_perm
    (items : List AttrListItem) :
    (sortAttrListItems up items).Perm items := by
  have h := sortLoop_perm up items []
  rw [List.append_nil] at h
  exact (List.reverse_perm _).trans h

theorem sortLoop_pairwise
    (hitems : ∀ x ∈ items, ValidAttr x.attr)
    (hvalid : ∀ x ∈ sorted, ValidAttr x.attr)
    (hsorted : sorted.Pairwise (fun a b => itemKey up b ≤ itemKey up a)) :
    (items.foldl (fun sorted item => shiftItem up item sorted) sorted).Pairwise
      (fun a b => itemKey up b ≤ itemKey up a) := by
  induction items generalizing sorted with
  | nil => exact hsorted
  | cons item rest ih =>
    have hitem := hitems item List.mem_cons_self
    refine ih (fun x hx => hitems x (List.mem_cons_of_mem _ hx)) ?_
      (shiftItem_pairwise up hitem hvalid hsorted)
    intro x hx
    rcases List.mem_cons.mp ((shiftItem_perm up item sorted).mem_iff.mp hx) with rfl | hx
    · exact hitem
    · exact hvalid x hx

theorem sortAttrListItems_pairwise
    (hitems : ∀ x ∈ items, ValidAttr x.attr) :
    (sortAttrListItems up items).Pairwise (fun a b => itemKey up a ≤ itemKey up b) := by
  rw [sortAttrListItems, List.pairwise_reverse]
  exact sortLoop_pairwise up hitems (fun x hx => by cases hx) List.Pairwise.nil

theorem searchKey_le
    {a b : AttrListItem}
    (h : itemKey up a ≤ itemKey up b) :
    searchKey up a ≤ searchKey up b := by
  unfold itemKey at h
  unfold searchKey
  simp only [Prod.Lex.toLex_le_toLex] at h ⊢
  rcases h with h | ⟨h1, h | ⟨h2, h3⟩⟩
  · exact Or.inl h
  · exact Or.inr ⟨h1, Or.inl h⟩
  · refine Or.inr ⟨h1, Or.inr ⟨h2, ?_⟩⟩
    rcases h3 with h3 | ⟨h3, _⟩
    · exact le_of_lt h3
    · exact le_of_eq h3

end Order

section Entries

/-- What the search reads at the entry of an item. -/
structure EntryAt (al : Bytes) (pos : Nat) (item : AttrListItem) : Prop where
  type : le32 al pos = item.attr.type
  length : entryLength al pos = entryLen item.attr
  nameLength : entryNameLength al pos = item.attr.name.length
  nameOffset : (al (pos + 7)).toNat = 26
  vcn : s64 (le64 al (pos + 8)) = listVcn item.attr
  reference : le64 al (pos + 16) = mftReference item.record
  inst : le16 al (pos + 24) = listInstance item.attr
  name : ∀ (i : Nat) (hi : i < item.attr.name.length),
    nameChar (entryName al pos) i = (item.attr.name[i]).toNat

/-- A record as the format has it. -/
structure ValidItem (item : AttrListItem) : Prop where
  attr : ValidAttr item.attr
  mftNo_lt : item.record.mftNo < 2 ^ 48
  sequence_lt : item.record.sequenceNumber < 2 ^ 16

theorem entryLen_bounds
    (a : AttrHead) :
    26 + 2 * a.name.length ≤ entryLen a ∧ entryLen a ≤ 33 + 2 * a.name.length ∧
      entryLen a % 8 = 0 := by
  unfold entryLen
  omega

@[simp] theorem entryBytes_length
    (item : AttrListItem) :
    (entryBytes item).length = entryLen item.attr := by
  have := entryLen_bounds item.attr
  simp only [entryBytes, List.length_append, leBytes_length, nameBytes_length,
    List.length_replicate]
  omega

variable {item : AttrListItem} {a : AttrHead} {al : Bytes} {pos alEnd next : Nat} {w : Wanted}

theorem mftReference_lt : mftReference item.record < 2 ^ 64 := by
  rw [mftReference]
  omega

theorem mftReference_mod
    (h : ValidItem item) :
    mftReference item.record % 2 ^ 48 = item.record.mftNo := by
  have h1 := h.mftNo_lt
  rw [mftReference, Nat.mod_eq_of_lt h1, Nat.mul_add_mod_self_right, Nat.mod_eq_of_lt h1]

theorem mftReference_div
    (h : ValidItem item) :
    mftReference item.record / 2 ^ 48 = item.record.sequenceNumber := by
  have h2 := h.sequence_lt
  rw [mftReference]
  omega

theorem listInstance_lt
    (h : ValidAttr a) :
    listInstance a < 2 ^ 16 := by
  have := h.inst_lt
  unfold listInstance
  split_ifs <;> omega

theorem s64_listVcn
    (h : ValidAttr a) :
    s64 (((listVcn a % 2 ^ 64).toNat % 256 ^ 8 : Nat) : Int) = listVcn a := by
  have h1 := h.vcn_nonneg
  have h2 := h.vcn_lt
  have hmod : listVcn a % 2 ^ 64 = listVcn a := Int.emod_eq_of_lt h1 (by omega)
  rw [hmod, Nat.mod_eq_of_lt (by omega), Int.toNat_of_nonneg h1]
  exact s64_of_inS64 ⟨by omega, h2⟩

theorem entryAt_of_holdsBytes
    (hvalid : ValidItem item)
    (h : HoldsBytes al pos (entryBytes item)) :
    EntryAt al pos item := by
  have hlen := entryLen_bounds item.attr
  have hname := hvalid.attr.name_lt
  simp only [entryBytes, holdsBytes_append, List.length_append, leBytes_length] at h
  obtain ⟨⟨⟨⟨⟨⟨⟨⟨htype, hlength⟩, hnameLen⟩, hofs⟩, hvcn⟩, href⟩, hinst⟩, hchars⟩, _⟩ := h
  have hofs' : (al (pos + 7)).toNat = 26 := by
    rw [hofs.1]
    rfl
  refine ⟨?_, ?_, ?_, hofs', ?_, ?_, ?_, ?_⟩
  · exact htype.leNat_eq.trans (Nat.mod_eq_of_lt (lt_trans hvalid.attr.type_lt (by decide)))
  · exact hlength.leNat_eq.trans (Nat.mod_eq_of_lt (by omega))
  · rw [entryNameLength, hnameLen.1]
    exact UInt8.toNat_ofNat_of_lt' hname
  · rw [le64, hvcn.leNat_eq]
    exact s64_listVcn hvalid.attr
  · exact href.leNat_eq.trans (Nat.mod_eq_of_lt mftReference_lt)
  · exact hinst.leNat_eq.trans (Nat.mod_eq_of_lt (listInstance_lt hvalid.attr))
  · intro i hi
    rw [entryName, hofs']
    exact nameChar_memAt hchars hi

theorem EntryAt.not_bad
    (h : EntryAt al pos item)
    (hend : pos + entryLen item.attr ≤ alEnd) :
    entryBad al alEnd pos = false := by
  have hlen := entryLen_bounds item.attr
  simp only [entryBad, h.length, h.nameLength, h.nameOffset, Bool.or_eq_false_iff,
    decide_eq_false_iff_not]
  omega

theorem EntryAt.match_lt
    (up : Upcase)
    (h : EntryAt al pos item)
    (hlt : item.attr.type < w.type ∨
      item.attr.type = w.type ∧ nameKey up item.attr.name < nameKey up w.name) :
    entryMatch up al w pos = .lt := by
  rw [entryMatch, h.type, h.nameLength]
  rcases hlt with hlt | ⟨htype, hlt⟩
  · rw [if_neg (by omega), if_pos (by omega)]
  · have hnamed : w.name ≠ [] := by
      intro hnil
      rw [hnil] at hlt
      exact absurd hlt (not_lt_of_ge (nameKey_nil_le up _))
    have hrc := (namesFullCollate_nameKey up (fun i hi => nameChar_bytesOf w.name hi)
      h.name).pos_iff.mpr hlt
    rw [if_neg (by omega), if_neg (by omega), if_neg hnamed, if_pos (by omega), if_neg (by omega)]

theorem EntryAt.match_eq
    (up : Upcase)
    (h : EntryAt al pos item)
    (htype : item.attr.type = w.type)
    (hname : item.attr.name = w.name) :
    entryMatch up al w pos = .eq := by
  rw [entryMatch, h.type, h.nameLength, if_neg (by omega), if_neg (by omega)]
  by_cases hnil : w.name = []
  · rw [hname, hnil]
    rfl
  · have hrc := (namesFullCollate_nameKey up (fun i hi => nameChar_bytesOf w.name hi)
      h.name).zero_iff.mpr (by rw [hname])
    rw [if_neg hnil, if_neg (by omega)]

theorem EntryAt.nextStillFits_iff
    {item' : AttrListItem}
    (h : EntryAt al pos item)
    (h' : EntryAt al next item')
    (hnul : 0 ∉ item'.attr.name)
    (hend : next + entryLen item'.attr ≤ alEnd) :
    nextStillFits al alEnd w pos next = true ↔
      listVcn item'.attr ≤ w.lowestVcn ∧ item'.attr.type = item.attr.type ∧
        item'.attr.name = item.attr.name := by
  have hlen := entryLen_bounds item'.attr
  have hnames := namesAreEqual_iff h'.name h.name hnul
  simp only [nextStillFits, h'.length, h'.vcn, h'.type, h.type, h'.nameLength, h.nameLength,
    Bool.and_eq_true, decide_eq_true_eq, hnames]
  constructor
  · rintro ⟨⟨⟨⟨_, hvcn⟩, htype⟩, _⟩, hname⟩
    exact ⟨hvcn, htype, hname⟩
  · rintro ⟨hvcn, htype, hname⟩
    exact ⟨⟨⟨⟨⟨by omega, hend⟩, hvcn⟩, htype⟩, by rw [hname]⟩, hname⟩

theorem nextStillFits_end
    (al : Bytes)
    (w : Wanted)
    (pos : Nat)
    (h : alEnd ≤ next) :
    nextStillFits al alEnd w pos next = false := by
  rw [nextStillFits, decide_eq_false (by omega)]
  rfl

/-- The walk over a record ends at the one attribute with the instance. -/
theorem EntryAt.scanRecord_found
    (h : EntryAt al pos item)
    (hnul : 0 ∉ item.attr.name)
    (hinst : listInstance item.attr = item.attr.inst)
    {attrs : List AttrHead} {k : Nat}
    (hk : k < attrs.length)
    (hattr : attrs[k] = item.attr)
    (hnodup : (attrs.map AttrHead.inst).Nodup)
    (i : Nat) :
    scanRecord al pos attrs i = .found (i + k) := by
  induction attrs generalizing k i with
  | nil => exact absurd hk (Nat.not_lt_zero k)
  | cons a rest ih =>
    obtain ⟨hnot, hrest⟩ := List.nodup_cons.mp (by simpa only [List.map_cons] using hnodup)
    rw [scanRecord, h.inst, h.type, h.nameLength]
    cases k with
    | zero =>
      subst hattr
      rw [if_neg (not_not.mpr hinst), if_neg (fun hne => hne rfl),
        if_pos ((namesAreEqual_iff (fun j hj => nameChar_bytesOf _ hj) h.name hnul).mpr rfl)]
      rfl
    | succ k =>
      have hk' : k < rest.length := Nat.lt_of_succ_lt_succ hk
      have hne : a.inst ≠ item.attr.inst := by
        intro heq
        apply hnot
        rw [heq, ← hattr]
        exact List.mem_map_of_mem (List.getElem_mem hk')
      rw [if_pos (fun heq => hne (heq.symm.trans hinst)), ih hk' hattr hrest]
      congr 1
      omega

end Entries

section Lookup

/-- The records of an inode as the format has them. -/
structure ValidRecords (ino : InodeRecords) : Prop where
  attrs : ∀ r ∈ ino.records, ∀ a ∈ r.attrs, ValidAttr a
  mftNo_lt : ∀ r ∈ ino.records, r.mftNo < 2 ^ 48
  sequence_lt : ∀ r ∈ ino.records, r.sequenceNumber < 2 ^ 16
  distinct : (ino.records.map MftRecord.mftNo).Nodup
  instances : ∀ r ∈ ino.records, (r.attrs.map AttrHead.inst).Nodup
  mapped : ino.base.mftNo = 0 → ∀ r ∈ ino.extents, ino.mftMapped r.mftNo = true

/-- The search for the attribute of an item. -/
def wantedOf (item : AttrListItem) : Wanted :=
  ⟨item.attr.type, item.attr.name, listVcn item.attr⟩

variable {ino : InodeRecords} {item : AttrListItem} {al : Bytes} {pos alEnd : Nat} {w : Wanted}

theorem mem_collectAttrListItems :
    item ∈ collectAttrListItems ino ↔
      item.record ∈ ino.records ∧ item.record.attrs[item.index]? = some item.attr ∧
        item.attr.type ≠ atAttributeList := by
  obtain ⟨r, i, a⟩ := item
  simp only [collectAttrListItems, recordItems, List.mem_flatMap, List.mem_map, List.mem_filter,
    decide_eq_true_eq, AttrListItem.mk.injEq, Prod.exists, List.mk_mem_zipIdx_iff_getElem?]
  constructor
  · rintro ⟨r', hr, a', i', ⟨hget, htype⟩, rfl, rfl, rfl⟩
    exact ⟨hr, hget, htype⟩
  · rintro ⟨hr, hget, htype⟩
    exact ⟨r, hr, a, i, ⟨hget, htype⟩, rfl, rfl, rfl⟩

theorem ValidRecords.validItem
    {ino : InodeRecords} {item : AttrListItem}
    (h : ValidRecords ino)
    (hitem : item ∈ collectAttrListItems ino) :
    ValidItem item := by
  obtain ⟨hr, hget, _⟩ := mem_collectAttrListItems.mp hitem
  exact ⟨h.attrs _ hr _ (List.mem_of_getElem? hget), h.mftNo_lt _ hr, h.sequence_lt _ hr⟩

theorem EntryAt.entryRecord_eq
    (h : EntryAt al pos item)
    (hino : ValidRecords ino)
    (hitem : item ∈ collectAttrListItems ino) :
    entryRecord ino al pos ino.base = some item.record := by
  have hvalid := hino.validItem hitem
  obtain ⟨hr, _, _⟩ := mem_collectAttrListItems.mp hitem
  have hinj := List.inj_on_of_nodup_map hino.distinct
  have hbase : ino.base ∈ ino.records := List.mem_cons_self
  rw [entryRecord, h.reference, mftReference_mod hvalid, mftReference_div hvalid]
  by_cases hno : item.record.mftNo = ino.base.mftNo
  · have hsame := hinj hr hbase hno
    rw [if_pos hno, hsame, if_pos rfl]
  · have hext : item.record ∈ ino.extents := by
      rcases List.mem_cons.mp hr with heq | hmem
      · exact absurd (by rw [heq]) hno
      · exact hmem
    have hfind : ino.extents.find? (fun r => r.mftNo = item.record.mftNo) = some item.record := by
      cases hres : ino.extents.find? (fun r => r.mftNo = item.record.mftNo) with
      | none => exact absurd (List.find?_eq_none.mp hres _ hext) (by simp)
      | some r =>
        have hno' : r.mftNo = item.record.mftNo := by simpa using List.find?_some hres
        rw [hinj (List.mem_cons_of_mem _ (List.mem_of_find?_eq_some hres)) hr hno']
    rw [if_neg hno, if_neg hno, extentInodeOpen, hfind]
    refine if_neg ?_
    rintro ⟨hzero, hmap⟩
    rw [hino.mapped hzero _ hext] at hmap
    cases hmap

variable (up : Upcase) (fuel : Nat)

theorem findEntry_skip
    (ni : MftRecord)
    (h : EntryAt al pos item)
    (hend : pos + entryLen item.attr ≤ alEnd)
    (hskip : entryMatch up al w pos = .lt ∨ entryMatch up al w pos = .eq ∧ w.lowestVcn ≠ 0 ∧
      nextStillFits al alEnd w pos (pos + entryLen item.attr) = true) :
    findEntry up ino al alEnd w (fuel + 1) pos ni =
      findEntry up ino al alEnd w fuel (pos + entryLen item.attr) ni := by
  have hlen := entryLen_bounds item.attr
  rw [findEntry, if_neg (by omega), if_neg (by omega), h.not_bad hend,
    if_neg Bool.false_ne_true, h.length]
  rcases hskip with hlt | ⟨heq, hvcn, hfits⟩
  · rw [hlt]
  · rw [heq]
    exact if_pos ⟨hvcn, hfits⟩

/-- One step of the search that ends at the attribute of the entry. -/
theorem findEntry_hit
    (hino : ValidRecords ino)
    (hitem : item ∈ collectAttrListItems ino)
    (h : EntryAt al pos item)
    (hend : pos + entryLen item.attr ≤ alEnd)
    (heq : entryMatch up al w pos = .eq)
    (hinst : listInstance item.attr = item.attr.inst)
    (hlast : w.lowestVcn ≠ 0 → nextStillFits al alEnd w pos (pos + entryLen item.attr) = false) :
    findEntry up ino al alEnd w (fuel + 1) pos ino.base = .found item.record.mftNo item.index := by
  have hlen := entryLen_bounds item.attr
  obtain ⟨hr, hget, _⟩ := mem_collectAttrListItems.mp hitem
  obtain ⟨hk, hattr⟩ := List.getElem?_eq_some_iff.mp hget
  have hscan := h.scanRecord_found (hino.validItem hitem).attr.name_nul hinst hk hattr
    (hino.instances _ hr) 0
  have hstop : ¬ (w.lowestVcn ≠ 0 ∧
      nextStillFits al alEnd w pos (pos + entryLen item.attr) = true) := by
    rintro ⟨hvcn, hfits⟩
    rw [hlast hvcn] at hfits
    cases hfits
  rw [findEntry, if_neg (by omega), if_neg (by omega), h.not_bad hend,
    if_neg Bool.false_ne_true, h.length, heq]
  dsimp only
  rw [if_neg hstop, h.entryRecord_eq hino hitem]
  dsimp only
  rw [hscan]
  rw [Nat.zero_add]

/-- Between two items of one type and name there is no other name. -/
theorem searchKey_between
    {a n b : AttrListItem}
    (han : searchKey up a ≤ searchKey up n)
    (hnb : searchKey up n ≤ searchKey up b)
    (htype : a.attr.type = b.attr.type)
    (hname : nameKey up a.attr.name = nameKey up b.attr.name) :
    n.attr.type = b.attr.type ∧ n.attr.name = b.attr.name ∧ listVcn n.attr ≤ listVcn b.attr := by
  simp only [searchKey, Prod.Lex.toLex_le_toLex] at han hnb
  have htype' : n.attr.type = b.attr.type := by
    rcases han with h | ⟨h, _⟩ <;> rcases hnb with h' | ⟨h', _⟩ <;> omega
  rcases hnb with hlt | ⟨_, hnb⟩
  · omega
  · rcases han with hlt | ⟨_, han⟩
    · omega
    · rcases hnb with hnlt | ⟨hneq, hvcn⟩
      · rcases han with halt | ⟨haeq, _⟩
        · exact absurd (halt.trans hnlt) (by rw [hname]; exact lt_irrefl _)
        · exact absurd hnlt (by rw [← haeq, hname]; exact lt_irrefl _)
      · exact ⟨htype', nameKey_injective up hneq, hvcn⟩

theorem findEntry_reaches
    {after : List AttrListItem}
    (hino : ValidRecords ino)
    (hinst : listInstance item.attr = item.attr.inst)
    (hafter : listVcn item.attr ≠ 0 → ∀ x ∈ after, searchKey up x ≠ searchKey up item)
    {before : List AttrListItem} {fuel : Nat}
    (hfuel : before.length < fuel)
    (hmem : ∀ x ∈ before ++ item :: after, x ∈ collectAttrListItems ino)
    (hsorted : (before ++ item :: after).Pairwise (fun a b => searchKey up a ≤ searchKey up b))
    (hbefore : ∀ x ∈ before, searchKey up x ≠ searchKey up item)
    (hholds : HoldsBytes al pos ((before ++ item :: after).flatMap entryBytes))
    (hend : alEnd = pos + ((before ++ item :: after).flatMap entryBytes).length) :
    findEntry up ino al alEnd (wantedOf item) fuel pos ino.base =
      .found item.record.mftNo item.index := by
  induction before generalizing pos fuel with
  | nil =>
    obtain ⟨fuel, rfl⟩ : ∃ n, fuel = n + 1 := ⟨fuel - 1, by simp at hfuel; omega⟩
    rw [List.nil_append] at hmem hsorted hholds hend
    rw [List.flatMap_cons, holdsBytes_append, entryBytes_length] at hholds
    rw [List.flatMap_cons, List.length_append, entryBytes_length] at hend
    have hitem := hmem item List.mem_cons_self
    have hat := entryAt_of_holdsBytes (hino.validItem hitem) hholds.1
    refine findEntry_hit up fuel hino hitem hat (by omega) (hat.match_eq up rfl rfl) hinst ?_
    intro hvcn
    cases after with
    | nil =>
      rw [List.flatMap_nil, List.length_nil] at hend
      exact nextStillFits_end al _ pos (by omega)
    | cons next rest =>
      rw [List.flatMap_cons, List.length_append, entryBytes_length] at hend
      rw [List.flatMap_cons, holdsBytes_append] at hholds
      have hnext := hino.validItem (hmem next (List.mem_cons_of_mem _ List.mem_cons_self))
      have hat' := entryAt_of_holdsBytes hnext hholds.2.1
      rw [← Bool.not_eq_true, hat.nextStillFits_iff hat' hnext.attr.name_nul (by omega)]
      rintro ⟨hle, htype, hname⟩
      -- the next item would have the same search key
      apply hafter hvcn next List.mem_cons_self
      refine le_antisymm ?_ ((List.pairwise_cons.mp hsorted).1 next List.mem_cons_self)
      rw [searchKey, htype, hname]
      exact Prod.Lex.toLex_le_toLex.mpr (Or.inr ⟨rfl,
        Prod.Lex.toLex_le_toLex.mpr (Or.inr ⟨rfl, hle⟩)⟩)
  | cons b rest ih =>
    obtain ⟨fuel, rfl⟩ : ∃ n, fuel = n + 1 := ⟨fuel - 1, by simp at hfuel; omega⟩
    rw [List.cons_append] at hmem hsorted hholds hend
    rw [List.flatMap_cons, holdsBytes_append, entryBytes_length] at hholds
    rw [List.flatMap_cons, List.length_append, entryBytes_length] at hend
    obtain ⟨hb, hsorted'⟩ := List.pairwise_cons.mp hsorted
    have hat := entryAt_of_holdsBytes (hino.validItem (hmem b List.mem_cons_self)) hholds.1
    have hlt : searchKey up b < searchKey up item :=
      lt_of_le_of_ne (hb item (by simp)) (hbefore b List.mem_cons_self)
    rw [findEntry_skip up fuel ino.base hat (by omega) ?_]
    · exact ih (by simpa using hfuel) (fun x hx => hmem x (List.mem_cons_of_mem _ hx)) hsorted'
        (fun x hx => hbefore x (List.mem_cons_of_mem _ hx)) hholds.2 (by omega)
    · have hlt' := hlt
      simp only [searchKey, Prod.Lex.toLex_lt_toLex] at hlt'
      rcases hlt' with htype | ⟨htype, hname | ⟨hname, hvcn⟩⟩
      · exact Or.inl (hat.match_lt up (Or.inl htype))
      · exact Or.inl (hat.match_lt up (Or.inr ⟨htype, hname⟩))
      · -- an extent before the wanted one: the next entry still fits
        obtain ⟨n, tail, htail⟩ : ∃ n tail, rest ++ item :: after = n :: tail := by
          cases rest with
          | nil => exact ⟨item, after, rfl⟩
          | cons c cs => exact ⟨c, cs ++ item :: after, rfl⟩
        have hn : n ∈ rest ++ item :: after := by
          rw [htail]
          exact List.mem_cons_self
        have hnb : searchKey up n ≤ searchKey up item := by
          cases rest with
          | nil =>
            cases htail
            exact le_refl _
          | cons c cs =>
            cases htail
            exact (List.pairwise_cons.mp hsorted').1 item (by simp)
        obtain ⟨h1, h2, h3⟩ := searchKey_between up (hb n hn) hnb htype hname
        have hbname := nameKey_injective up hname
        have hnext := hino.validItem (hmem n (List.mem_cons_of_mem _ hn))
        rw [htail, List.flatMap_cons, holdsBytes_append] at hholds
        rw [htail, List.flatMap_cons, List.length_append, entryBytes_length] at hend
        have hat' := entryAt_of_holdsBytes hnext hholds.2.1
        have hb0 := (hino.validItem (hmem b List.mem_cons_self)).attr.vcn_nonneg
        refine Or.inr ⟨hat.match_eq up htype hbname, ?_, ?_⟩
        · change listVcn item.attr ≠ 0
          omega
        · exact (hat.nextStillFits_iff hat' hnext.attr.name_nul (by omega)).mpr
            ⟨h3, h1.trans htype.symm, h2.trans hbname.symm⟩

end Lookup

section Result

theorem rebuildAttrList_eq
    {up : Upcase} {ino : InodeRecords} {hasList stored : Bool} {al : List UInt8}
    (h : rebuildAttrList up ino hasList stored = some al) :
    al = (sortAttrListItems up (collectAttrListItems ino)).flatMap entryBytes := by
  unfold rebuildAttrList at h
  split at h
  · split at h
    · cases h
    · dsimp only at h
      split at h
      · cases h
      · split_ifs at h
        exact (Option.some.inj h).symm
  · cases h

/--
A rebuilt list has one entry for every attribute but the list itself, ascending
in type, name and lowest VCN.  The search finds an attribute by these three if
no entry before has the same, and for an extent behind the first one also no
entry after and the attribute has instance zero, as the entry says.
-/
theorem rebuildAttrList_finds
    (up : Upcase)
    {ino : InodeRecords}
    (hasList stored : Bool)
    {al : List UInt8}
    (hino : ValidRecords ino)
    (h : rebuildAttrList up ino hasList stored = some al) :
    ∃ sorted : List AttrListItem, al = sorted.flatMap entryBytes ∧
      sorted.Perm (collectAttrListItems ino) ∧
      sorted.Pairwise (fun a b => searchKey up a ≤ searchKey up b) ∧
      ∀ before item after, sorted = before ++ item :: after →
        (∀ x ∈ before, searchKey up x ≠ searchKey up item) →
        (listVcn item.attr ≠ 0 → item.attr.inst = 0 ∧
          ∀ x ∈ after, searchKey up x ≠ searchKey up item) →
        externalAttrFind up ino (bytesOf al) al.length (wantedOf item) =
          .found item.record.mftNo item.index := by
  have hperm := sortAttrListItems_perm up (collectAttrListItems ino)
  have hsorted : (sortAttrListItems up (collectAttrListItems ino)).Pairwise
      (fun a b => searchKey up a ≤ searchKey up b) :=
    (sortAttrListItems_pairwise up (fun x hx => (hino.validItem hx).attr)).imp (searchKey_le up)
  refine ⟨_, rebuildAttrList_eq h, hperm, hsorted, ?_⟩
  intro before item after hsplit hbefore hextent
  rw [hsplit] at hsorted hperm
  have hal := rebuildAttrList_eq h
  rw [hsplit] at hal
  have hinst : listInstance item.attr = item.attr.inst := by
    unfold listInstance
    split_ifs with hvcn
    · exact (hextent hvcn).1.symm
    · rfl
  have hmany : before.length < al.length + 1 := by
    rw [hal, List.length_flatMap]
    have hone : ∀ x ∈ before ++ item :: after, 1 ≤ (entryBytes x).length := by
      intro x _
      have := entryLen_bounds x.attr
      rw [entryBytes_length]
      omega
    have hsum := List.length_le_sum_of_one_le
      ((before ++ item :: after).map (fun x => (entryBytes x).length)) (fun i hi => by
        obtain ⟨x, hx, rfl⟩ := List.mem_map.mp hi
        exact hone x hx)
    simp only [List.length_map, List.length_append] at hsum
    omega
  exact findEntry_reaches up hino hinst (fun hvcn => (hextent hvcn).2) hmany
    (fun x hx => hperm.mem_iff.mp hx) hsorted hbefore
    (by rw [← hal]; exact holdsBytes_bytesOf al) (by rw [← hal, Nat.zero_add])

/-- An inode with two `$FILE_NAME` attributes, and `$DATA` in an extent record. -/
def twoNames : InodeRecords where
  base :=
    { mftNo := 40
      sequenceNumber := 1
      attrs :=
        [⟨0x10, [], false, 0, 0⟩, ⟨atAttributeList, [], false, 0, 4⟩,
          ⟨atFileName, [], false, 0, 2⟩, ⟨atFileName, [], false, 0, 3⟩] }
  extents := [{ mftNo := 41, sequenceNumber := 1, attrs := [⟨0x80, [], true, 0, 0⟩] }]
  mftMapped := fun _ => true
  load := fun _ => none

/-- The upper case table that leaves every character alone. -/
def plainUpcase : Upcase := ⟨fun c => c, 0⟩

theorem validAttr_iff
    (a : AttrHead) :
    ValidAttr a ↔ 0 < a.type ∧ a.type < 2 ^ 31 ∧ a.name.length < 256 ∧ 0 ∉ a.name ∧
      0 ≤ listVcn a ∧ listVcn a < 2 ^ 63 ∧ a.inst < 2 ^ 16 :=
  ⟨fun ⟨h1, h2, h3, h4, h5, h6, h7⟩ => ⟨h1, h2, h3, h4, h5, h6, h7⟩,
    fun ⟨h1, h2, h3, h4, h5, h6, h7⟩ => ⟨h1, h2, h3, h4, h5, h6, h7⟩⟩

instance (a : AttrHead) : Decidable (ValidAttr a) :=
  decidable_of_iff _ (validAttr_iff a).symm

theorem twoNames_valid : ValidRecords twoNames where
  attrs := by decide
  mftNo_lt := by decide
  sequence_lt := by decide
  distinct := by decide
  instances := by decide
  mapped := by decide

theorem rebuildAttrList_finds_twoNames :
    ∃ al, rebuildAttrList plainUpcase twoNames true true = some al ∧
      ∃ sorted : List AttrListItem, al = sorted.flatMap entryBytes ∧
        sorted.Perm (collectAttrListItems twoNames) ∧
        sorted.Pairwise (fun a b => searchKey plainUpcase a ≤ searchKey plainUpcase b) ∧
        ∀ before item after, sorted = before ++ item :: after →
          (∀ x ∈ before, searchKey plainUpcase x ≠ searchKey plainUpcase item) →
          (listVcn item.attr ≠ 0 → item.attr.inst = 0 ∧
            ∀ x ∈ after, searchKey plainUpcase x ≠ searchKey plainUpcase item) →
          externalAttrFind plainUpcase twoNames (bytesOf al) al.length (wantedOf item) =
            .found item.record.mftNo item.index :=
  ⟨_, rfl, rebuildAttrList_finds plainUpcase true true twoNames_valid rfl⟩

/-- The second of two attributes with the same type, name and lowest VCN is not found. -/
theorem rebuildAttrList_finds_first :
    ∃ al, rebuildAttrList plainUpcase twoNames true true = some al ∧
      (⟨twoNames.base, 3, ⟨atFileName, [], false, 0, 3⟩⟩ : AttrListItem) ∈
        collectAttrListItems twoNames ∧
      externalAttrFind plainUpcase twoNames (bytesOf al) al.length ⟨atFileName, [], 0⟩ =
        .found 40 2 := by
  refine ⟨_, rfl, ?_, ?_⟩
  · exact mem_collectAttrListItems.mpr ⟨List.mem_cons_self, rfl, by decide⟩
  · decide +kernel

end Result

end NtfsPlus.Ntfsck

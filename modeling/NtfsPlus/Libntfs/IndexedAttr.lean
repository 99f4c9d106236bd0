import NtfsPlus.Lib.ByteMemory
import NtfsPlus.Lib.KeyedIndex
import NtfsPlus.Libntfs.RunlistBasic

/-!
# Attributes with an entry in an index of `$Extend`

Reparse points and object ids are kept twice: as an attribute of the file and as
an entry of `$Extend/$Reparse:$R` or `$Extend/$ObjId:$O`.  This module has what
`libntfs/reparse.c` and `libntfs/object_id.c` do in the same way: opening and
adding the attribute, looking an entry up, and storing a value and indexing it.

Every inner step of a call may fail.  `Faults` says which of them do in one call;
where a failing step may have done part of its work, it also says what is left.
A failing index operation leaves the index as it was.

`storeThenIndex_right_iff` says when a value that was stored ends up as the
attribute with the one entry that belongs to it: storing returns 0 also where the
entry could not be inserted.
-/

namespace NtfsPlus.Libntfs

section Model

/-- The number of an MFT record. -/
abbrev MftNo := Fin (2 ^ 48)

/-- What the calls read of the volume and of its MFT records. -/
structure MftTable where
  majorVer : Nat
  sequenceNumber : MftNo → UInt16
  /-- `MFT_RECORD_IS_DIRECTORY`. -/
  isDirectory : MftNo → Bool
  /-- `FILE_ATTRIBUTE_RECALL_ON_OPEN`. -/
  recallOnOpen : MftNo → Bool

/-- `MK_MREF(mft_no, sequence_number)`. -/
def MftTable.fileId (t : MftTable) (n : MftNo) : Nat :=
  n.val + (t.sequenceNumber n).toNat * 2 ^ 48

/-- `MREF`: the record number of a file reference. -/
def mref (fileId : Nat) : Nat :=
  fileId % 2 ^ 48

/-- `XATTR_CREATE` and `XATTR_REPLACE`. -/
structure XattrFlags where
  create : Bool
  replace : Bool

/-- Which inner steps of one call fail. -/
structure Faults where
  /-- Opening the index file and its index. -/
  openIndex : Option Errno
  /-- The search of `ntfs_attr_exist`, which then answers that there is none. -/
  attrExist : Bool
  attrAdd : Option Errno
  attrOpen : Option Errno
  /-- Reading the old value gives fewer bytes than asked for. -/
  pread : Bool
  /-- The search for the old entry. -/
  lookup : Option Errno
  /-- The search for another file with the new object id. -/
  dupLookup : Option Errno
  indexRm : Option Errno
  /-- With the value that is left. -/
  truncate : Option (Errno × List UInt8)
  /-- With the value that is left. -/
  pwrite : Option (List UInt8)
  ieAdd : Option Errno
  /-- With the attribute that is left. -/
  attrRm : Option (Errno × Option (List UInt8))
  /-- Putting the old entry back. -/
  reindex : Option Errno
  /-- What variables hold that are read without having been set. -/
  unset : List UInt8

/-- No step fails. -/
def noFaults : Faults where
  openIndex := none
  attrExist := false
  attrAdd := none
  attrOpen := none
  pread := false
  lookup := none
  dupLookup := none
  indexRm := none
  truncate := none
  pwrite := none
  ieAdd := none
  attrRm := none
  reindex := none
  unset := []

/-- The attribute of a file, if it has one, and the index. -/
structure Indexed (K D : Type) where
  value : Option (List UInt8)
  index : KeyedIndex K D

variable {K D : Type} [DecidableEq K]

/-- Add an empty attribute where there is none, as the flags allow. -/
def addAttr (t : MftTable) (f : Faults) (flags : XattrFlags) (value : Option (List UInt8)) :
    Except Errno (Option (List UInt8)) :=
  if value.isSome && !f.attrExist then
    if flags.create then .error .eexist else .ok value
  else if flags.replace then
    .error .enodata
  else if 3 ≤ t.majorVer then
    match f.attrAdd, value with
    | some e, _ => .error e
    | none, some _ => .error .eexist
    | none, none => .ok (some [])
  else
    .error .eopnotsupp

/-- `ntfs_attr_open`. -/
def attrOpen (f : Faults) (value : Option (List UInt8)) : Except Errno (List UInt8) :=
  match f.attrOpen, value with
  | some e, _ => .error e
  | none, none => .error .enoent
  | none, some v => .ok v

/-- `ntfs_attr_rm`: the error, and the attribute that is left. -/
def attrRm (f : Faults) : Option Errno × Option (List UInt8) :=
  match f.attrRm with
  | some (e, left) => (some e, left)
  | none => (none, none)

/-- `ntfs_index_lookup`: both no entry and a failing search give none. -/
def extIndexLookup (fault : Option Errno) (k : K) (x : KeyedIndex K D) : Option D :=
  match fault with
  | some _ => none
  | none => x.find? k

/-- `ntfs_index_rm` of the entry that was looked up. -/
def indexRm (f : Faults) (k : K) (x : KeyedIndex K D) : Except Errno Unit × KeyedIndex K D :=
  match f.indexRm with
  | some e => (.error e, x)
  | none => (.ok (), x.remove k)

/-- `ntfs_ie_add`. -/
def ieAdd (fault : Option Errno) (k : K) (d : D) (x : KeyedIndex K D) :
    Except Errno Unit × KeyedIndex K D :=
  match fault with
  | some e => (.error e, x)
  | none =>
    match x.add? k d with
    | none => (.error .eexist, x)
    | some y => (.ok (), y)

/-- Resize an attribute of value `v` to the size of `new`, then write `new`: the
error, and the value that is left. -/
def storeValue (f : Faults) (new v : List UInt8) : Option Errno × List UInt8 :=
  match f.truncate with
  | some (e, left) => (some e, left)
  | none =>
    match f.pwrite with
    | some left => (some .eio, left)
    | none =>
      let resized := v.take new.length ++ List.replicate (new.length - v.length) 0
      (none, new ++ resized.drop new.length)

/-- Store a value and index it.  Where the insertion fails the attribute is removed
if `undo` says so, and the result is 0 all the same. -/
def storeThenIndex (f : Faults) (new v : List UInt8) (k : K) (d : D) (undo : Bool)
    (x : KeyedIndex K D) : Except Errno Unit × Indexed K D :=
  match storeValue f new v with
  | (some e, left) => (.error e, ⟨some left, x⟩)
  | (none, stored) =>
    match ieAdd f.ieAdd k d x with
    | (.ok (), y) => (.ok (), ⟨some stored, y⟩)
    | (.error _, y) => (.ok (), ⟨if undo then (attrRm f).2 else some stored, y⟩)

end Model

section Removal

variable {K D : Type} [DecidableEq K]

/-- The index after the removal of an entry that was looked up by the key of the
old value: the entry stays if the search for it failed. -/
def unindexed (f : Faults) (old : Option K) (x : KeyedIndex K D) : KeyedIndex K D :=
  match f.lookup, old with
  | none, some k => x.remove k
  | _, _ => x

theorem unindexed_none
    (f : Faults)
    (x : KeyedIndex K D) :
    unindexed f none x = x := by
  rw [unindexed.eq_def]
  cases f.lookup <;> rfl

/-- Looking an entry up and removing it: an error leaves the index as it was. -/
theorem lookup_indexRm_cases
    (f : Faults)
    (k : K)
    (x : KeyedIndex K D) :
    extIndexLookup f.lookup k x = none ∧ unindexed f (some k) x = x ∨
      ∃ d, extIndexLookup f.lookup k x = some d ∧ ((∃ e, indexRm f k x = (.error e, x)) ∨
          indexRm f k x = (.ok (), unindexed f (some k) x)) := by
  rw [extIndexLookup.eq_def, unindexed.eq_def, indexRm.eq_def]
  cases f.lookup with
  | some e => exact .inl ⟨rfl, rfl⟩
  | none =>
    cases hfind : x.find? k with
    | none => exact .inl ⟨rfl, KeyedIndex.remove_of_find?_none hfind⟩
    | some d =>
      refine .inr ⟨d, rfl, ?_⟩
      cases f.indexRm with
      | some e => exact .inl ⟨e, rfl⟩
      | none => exact .inr rfl

end Removal

section Storing

variable {K D : Type} [DecidableEq K]

variable {f : Faults} {v : List UInt8} {fault : Option Errno}

/-- What a successful addition leaves. -/
theorem addAttr_ok
    {t : MftTable} {flags : XattrFlags} {value added : Option (List UInt8)}
    (h : addAttr t f flags value = .ok added) :
    added = value ∨ value = none ∧ added = some [] := by
  unfold addAttr at h
  split_ifs at h
  · cases h
    exact Or.inl rfl
  · split at h
    · cases h
    · cases h
    · cases h
      exact Or.inr ⟨rfl, rfl⟩

theorem attrOpen_ok
    {value : Option (List UInt8)}
    (h : attrOpen f value = .ok v) :
    value = some v := by
  rw [attrOpen.eq_def] at h
  split at h
  · cases h
  · cases h
  · cases h
    rfl

/-- A store that succeeds leaves the new value, whatever was there. -/
theorem storeValue_ok
    {new stored : List UInt8}
    (h : storeValue f new v = (none, stored)) :
    stored = new := by
  rw [storeValue.eq_def] at h
  split at h
  · cases h
  · split at h
    · cases h
    · cases h
      have hlen : (v.take new.length ++ List.replicate (new.length - v.length) 0).length =
            new.length := by
        rw [List.length_append, List.length_take, List.length_replicate]
        omega
      rw [List.drop_eq_nil_of_le hlen.le, List.append_nil]

/-- The key of an insertion that succeeds is new. -/
theorem ieAdd_ok
    {k : K} {d : D} {x y : KeyedIndex K D}
    (h : ieAdd fault k d x = (.ok (), y)) :
    fault = none ∧ x.add? k d = some y := by
  cases fault with
  | some e => cases h
  | none =>
    rw [ieAdd] at h
    cases hadd : x.add? k d with
    | none =>
      rw [hadd] at h
      cases h
    | some z =>
      rw [hadd] at h
      cases h
      exact ⟨rfl, rfl⟩

/-- An insertion that fails leaves the index, and was refused or found the key. -/
theorem ieAdd_error
    {k : K} {d : D} {x y : KeyedIndex K D} {e : Errno}
    (h : ieAdd fault k d x = (.error e, y)) :
    y = x ∧ (fault ≠ none ∨ x.find? k ≠ none) := by
  cases fault with
  | some e' =>
    cases h
    exact ⟨rfl, Or.inl (by simp)⟩
  | none =>
    rw [ieAdd] at h
    cases hadd : x.add? k d with
    | none =>
      rw [hadd] at h
      cases h
      exact ⟨rfl, Or.inr ((x.add?_eq_none k d).mp hadd)⟩
    | some z =>
      rw [hadd] at h
      cases h

theorem ieAdd_entries
    {k : K} {d : D} {x : KeyedIndex K D} {e : K × D}
    (h : e ∈ (ieAdd fault k d x).2.entries)
    {p : K × D → Bool}
    (hp : p (k, d) = true) :
    e ∈ x.entries ∨ p e = true := by
  rcases hadd : ieAdd fault k d x with ⟨res, y⟩
  rw [hadd] at h
  cases res with
  | error err =>
    obtain ⟨rfl, _⟩ := ieAdd_error hadd
    exact Or.inl h
  | ok u =>
    rw [KeyedIndex.entries_of_add? (ieAdd_ok hadd).2, List.mem_cons] at h
    rcases h with rfl | hmem
    · exact Or.inr hp
    · exact Or.inl hmem

/-- The attribute has the value, and of the entries with `mine` there is exactly one,
under the key `k` and with data as wanted. -/
def OneEntry (s : Indexed K D) (mine : K × D → Bool) (new : List UInt8) (k : K)
    (fits : D → Prop) : Prop :=
  s.value = some new ∧ ∃ d, s.index.select mine = [(k, d)] ∧ fits d

/-- When storing a value and indexing it is right although the insertion may fail: no
entry of the file remained, the key is free and the insertion succeeds; or the entry is
there already, it is the only one of the file, and the attribute keeps the value. -/
def Settles (f : Faults) (x : KeyedIndex K D) (mine : K × D → Bool) (new : List UInt8)
    (k : K) (fits : D → Prop) (undo : Bool) : Prop :=
  (x.select mine = [] ∧ x.find? k = none ∧ f.ieAdd = none) ∨
    ((undo = true → (attrRm f).2 = some new) ∧ ∃ d, x.select mine = [(k, d)] ∧ fits d)

theorem find?_ne_none_of_select
    {x : KeyedIndex K D} {mine : K × D → Bool} {k : K} {d : D}
    (h : x.select mine = [(k, d)]) :
    x.find? k ≠ none := by
  intro hnone
  have hmem : (k, d) ∈ x.select mine := by
    rw [h]
    exact List.mem_singleton.mpr rfl
  rw [KeyedIndex.mem_select] at hmem
  exact (x.find?_eq_none k).mp hnone (List.mem_map_of_mem hmem.1)

/-- Storing returned 0; then it is right exactly in the cases of `Settles`. -/
theorem storeThenIndex_right_iff
    {new : List UInt8} {k : K} {d : D} {undo : Bool} {x : KeyedIndex K D} {s : Indexed K D}
    (h : storeThenIndex f new v k d undo x = (.ok (), s))
    {mine : K × D → Bool} {fits : D → Prop}
    (hmine : mine (k, d) = true)
    (hfits : fits d) :
    OneEntry s mine new k fits ↔ Settles f x mine new k fits undo := by
  rw [storeThenIndex.eq_def] at h
  split at h
  · cases h
  · rename_i stored hstore
    obtain rfl := storeValue_ok hstore
    split at h
    · rename_i y hadd
      cases h
      obtain ⟨hfault, hadd⟩ := ieAdd_ok hadd
      have hfree : x.find? k = none := by
        by_contra hne
        rw [(x.add?_eq_none k d).mpr hne] at hadd
        cases hadd
      have hsel : y.select mine = (k, d) :: x.select mine :=
        KeyedIndex.select_of_add? hadd hmine
      constructor
      · rintro ⟨_, d', hone, _⟩
        rw [hsel] at hone
        exact Or.inl ⟨(List.cons.inj hone).2, hfree, hfault⟩
      · rintro (⟨hnil, _, _⟩ | ⟨_, d', hone, _⟩)
        · rw [hnil] at hsel
          exact ⟨rfl, d, hsel, hfits⟩
        · exact absurd hfree (find?_ne_none_of_select hone)
    · rename_i y hadd
      cases h
      obtain ⟨rfl, hwhy⟩ := ieAdd_error hadd
      constructor
      · rintro ⟨hvalue, hone⟩
        refine Or.inr ⟨?_, hone⟩
        intro hundo
        rwa [hundo] at hvalue
      · rintro (⟨_, hfree, hfault⟩ | ⟨hkept, hone⟩)
        · rcases hwhy with hne | hne
          · exact absurd hfault hne
          · exact absurd hfree hne
        · refine ⟨?_, hone⟩
          cases undo with
          | false => rfl
          | true => exact hkept rfl

end Storing

section Outcomes

variable {K D : Type} [DecidableEq K]

-- `key` gives the key under which a value is looked up, `mine` the entries of the file
variable {key : Option (List UInt8) → Option K} {mine : K × D → Bool}
variable {f : Faults} {s : Indexed K D}

/-- What setting a value can do: stop before anything of the old value or its entry is
touched, or take out the old entry, store the value and index it. -/
inductive SetOutcome (key : Option (List UInt8) → Option K) (f : Faults) (s : Indexed K D)
    (new : List UInt8) (k : K) (fits : D → Prop) (undo : Bool) :
    Except Errno Unit × Indexed K D → Prop
  | stopped (e : Errno) (value : Option (List UInt8)) (hkey : key value = key s.value) :
      SetOutcome key f s new k fits undo (.error e, ⟨value, s.index⟩)
  | stored (v : List UInt8) (d : D) (hfits : fits d) (hnew : key (some new) = some k) :
      SetOutcome key f s new k fits undo
        (storeThenIndex f new v k d undo (unindexed f (key s.value) s.index))

/-- What removing a value can do.  When the attribute cannot be removed, the entry may
be put back. -/
inductive RemoveOutcome (key : Option (List UInt8) → Option K) (mine : K × D → Bool)
    (f : Faults) (s : Indexed K D) : Except Errno Unit × Indexed K D → Prop
  | stopped (e : Errno) : RemoveOutcome key mine f s (.error e, s)
  | notOpened (hopen : f.openIndex ≠ none) (hvalue : s.value ≠ none) :
      RemoveOutcome key mine f s (.ok (), s)
  | removed (hopen : f.openIndex = none) :
      RemoveOutcome key mine f s (.ok (), ⟨none, unindexed f (key s.value) s.index⟩)
  | kept (e : Errno) (left : Option (List UInt8)) (y : KeyedIndex K D) (hrm : f.attrRm ≠ none)
      (hback : ∀ a ∈ y.entries, a ∈ (unindexed f (key s.value) s.index).entries ∨ mine a = true) :
      RemoveOutcome key mine f s (.error e, ⟨left, y⟩)

/-- The attribute is gone and no entry of the file is left. -/
def NoEntry (s : Indexed K D) (mine : K × D → Bool) : Prop :=
  s.value = none ∧ s.index.select mine = []

variable {new : List UInt8} {undo : Bool}

/-- When a setter that succeeds has left one right entry. -/
theorem SetOutcome.right_iff
    {k : K} {fits : D → Prop} {r : Except Errno Unit × Indexed K D}
    (h : SetOutcome key f s new k fits undo r)
    (hmine : ∀ d, fits d → mine (k, d) = true)
    (hok : r.1 = .ok ()) :
    OneEntry r.2 mine new k fits ↔
      Settles f (unindexed f (key s.value) s.index) mine new k fits undo := by
  cases h with
  | stopped e value hkey => cases hok
  | stored v d hfits hnew => exact storeThenIndex_right_iff (Prod.ext hok rfl) (hmine d hfits) hfits

/-- When a removal that succeeds has left no entry. -/
theorem RemoveOutcome.right_iff
    {r : Except Errno Unit × Indexed K D}
    (h : RemoveOutcome key mine f s r)
    (hok : r.1 = .ok ()) :
    NoEntry r.2 mine ↔
      f.openIndex = none ∧ (unindexed f (key s.value) s.index).select mine = [] := by
  cases h with
  | stopped e => cases hok
  | notOpened hopen hvalue =>
    constructor
    · rintro ⟨hnone, _⟩
      exact absurd hnone hvalue
    · rintro ⟨hnone, _⟩
      exact absurd hnone hopen
  | removed hopen =>
    constructor
    · rintro ⟨_, hnil⟩
      exact ⟨hopen, hnil⟩
    · rintro ⟨_, hnil⟩
      exact ⟨rfl, hnil⟩
  | kept e left y hrm hback => cases hok

end Outcomes

end NtfsPlus.Libntfs

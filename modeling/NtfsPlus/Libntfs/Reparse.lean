import NtfsPlus.Libntfs.IndexedAttr

/-!
# Reparse points

`ntfs_set_ntfs_reparse_data` and `ntfs_remove_ntfs_reparse_data` of
`libntfs/reparse.c`.  The entry of a reparse point in `$R` has the tag and the file
as its key and no data.

Both calls can return 0 without having done their work: setting when the new entry
could not be inserted, removing when the index could not be opened, and both when the
search for the old entry failed.
-/

namespace NtfsPlus.Libntfs

section Model

/-- The bytes of a value as memory. -/
def dataBytes (v : List UInt8) : Bytes :=
  fun i => v.getD i 0

/-- `reparse_tag`. -/
def reparseTag (v : List UInt8) : Nat :=
  le32 (dataBytes v) 0

/-- `reparse_data_length`. -/
def reparseDataLength (v : List UInt8) : Nat :=
  le16 (dataBytes v) 4

def ioReparseTagMountPoint : Nat := 0xA0000003

def ioReparseTagSymlink : Nat := 0xA000000C

def ioReparseTagLxSymlink : Nat := 0xA000001D

def ioReparseTagAfUnix : Nat := 0x80000023

def ioReparseTagLxFifo : Nat := 0x80000024

def ioReparseTagLxChr : Nat := 0x80000025

def ioReparseTagLxBlk : Nat := 0x80000026

/-- The substitute name of a junction or a symbolic link, with offset and length in
the first four bytes of its data, ends inside the value. -/
def substNameFits (dataSize : Nat) (v : List UInt8) : Bool :=
  decide (8 + dataSize ≤ v.length) &&
    decide (8 + dataSize + le16 (dataBytes v) 8 + le16 (dataBytes v) 10 ≤ v.length)

/-- `valid_reparse_data`. -/
def validReparseData (t : MftTable) (n : MftNo) (v : List UInt8) : Bool :=
  let guidSize := if reparseTag v &&& 0x80000000 ≠ 0 then 0 else 16
  if 8 ≤ v.length ∧ reparseTag v ≠ 0 ∧ reparseDataLength v + 8 + guidSize = v.length then
    if reparseTag v = ioReparseTagMountPoint then
      t.isDirectory n && substNameFits 8 v
    else if reparseTag v = ioReparseTagSymlink then
      substNameFits 12 v
    else if reparseTag v = ioReparseTagLxSymlink then
      decide (4 < reparseDataLength v) && decide (le32 (dataBytes v) 8 = 2)
    else if reparseTag v = ioReparseTagAfUnix ∨ reparseTag v = ioReparseTagLxFifo ∨
        reparseTag v = ioReparseTagLxChr ∨ reparseTag v = ioReparseTagLxBlk then
      decide (reparseDataLength v = 0) && t.recallOnOpen n
    else
      true
  else
    false

/-- `REPARSE_INDEX_KEY`: the tag and the file. -/
abbrev ReparseIndexKey := Nat × Nat

abbrev ReparseIndex := KeyedIndex ReparseIndexKey Unit

/-- `set_reparse_index`. -/
def setReparseIndex (fileId : Nat) (fault : Option Errno) (tag : Nat) (x : ReparseIndex) :
    Except Errno Unit × ReparseIndex :=
  ieAdd fault (tag, fileId) () x

/-- `remove_reparse_index`: the size of the value and its tag. -/
def removeReparseIndex (fileId : Nat) (f : Faults) (v : List UInt8) (x : ReparseIndex) :
    Except Errno (Nat × Nat) × ReparseIndex :=
  if v.length = 0 then
    -- the caller's `reparse_tag` is not set
    (.ok (0, reparseTag f.unset), x)
  else if f.pread || decide (v.length < 4) then
    (.error .enodata, x)
  else
    match extIndexLookup f.lookup (reparseTag v, fileId) x with
    | none => (.ok (v.length, reparseTag v), x)
    | some () =>
      match indexRm f (reparseTag v, fileId) x with
      | (.error e, y) => (.error e, y)
      | (.ok (), y) => (.ok (v.length, reparseTag v), y)

/-- `update_reparse_data`. -/
def updateReparseData (fileId : Nat) (f : Faults) (value : List UInt8)
    (s : Indexed ReparseIndexKey Unit) : Except Errno Unit × Indexed ReparseIndexKey Unit :=
  match attrOpen f s.value with
  | .error e => (.error e, s)
  | .ok v =>
    match removeReparseIndex fileId f v s.index with
    | (.error e, x) => (.error e, ⟨s.value, x⟩)
    | (.ok (oldsize, _), x) =>
      storeThenIndex f value v (reparseTag value, fileId) () (decide (0 < oldsize)) x

/-- `ntfs_set_ntfs_reparse_data`. -/
def setNtfsReparseData (t : MftTable) (n : MftNo) (f : Faults) (value : List UInt8)
    (flags : XattrFlags) (s : Indexed ReparseIndexKey Unit) :
    Except Errno Unit × Indexed ReparseIndexKey Unit :=
  if validReparseData t n value then
    match f.openIndex with
    | some e => (.error e, s)
    | none =>
      match addAttr t f flags s.value with
      | .error e => (.error e, s)
      | .ok added => updateReparseData (t.fileId n) f value ⟨added, s.index⟩
  else
    (.error .einval, s)

/-- `ntfs_remove_ntfs_reparse_data`. -/
def removeNtfsReparseData (t : MftTable) (n : MftNo) (f : Faults)
    (s : Indexed ReparseIndexKey Unit) : Except Errno Unit × Indexed ReparseIndexKey Unit :=
  match attrOpen f s.value with
  | .error _ => (.error .enodata, s)
  | .ok v =>
    match f.openIndex with
    | some _ => (.ok (), s)
    | none =>
      match removeReparseIndex (t.fileId n) f v s.index with
      | (.error e, x) => (.error e, ⟨s.value, x⟩)
      | (.ok (_, tag), x) =>
        match attrRm f with
        | (none, left) => (.ok (), ⟨left, x⟩)
        | (some e, left) => (.error e, ⟨left, (setReparseIndex (t.fileId n) f.reindex tag x).2⟩)

end Model

section Results

/-- The entries of a file. -/
def reparseOf (fileId : Nat) (e : ReparseIndexKey × Unit) : Bool :=
  decide (e.1.2 = fileId)

/-- The key under which the present value of a file is looked up; an empty value is
not. -/
def reparseKey (fileId : Nat) (value : Option (List UInt8)) : Option ReparseIndexKey :=
  value.bind fun v => if v.length = 0 then none else some (reparseTag v, fileId)

theorem removeReparseIndex_cases
    (fileId : Nat)
    (f : Faults)
    (v : List UInt8)
    (x : ReparseIndex) :
    (∃ e, removeReparseIndex fileId f v x = (.error e, x)) ∨
      ∃ tag, removeReparseIndex fileId f v x =
        (.ok (v.length, tag), unindexed f (reparseKey fileId (some v)) x) := by
  rw [removeReparseIndex, reparseKey, Option.bind_some]
  by_cases hempty : v.length = 0
  · rw [if_pos hempty, if_pos hempty, unindexed_none, hempty]
    exact .inr ⟨_, rfl⟩
  · rw [if_neg hempty]
    split
    · exact .inl ⟨.enodata, rfl⟩
    · rcases lookup_indexRm_cases f (reparseTag v, fileId) x with
        ⟨hlook, hsame⟩ | ⟨_, hlook, ⟨e, hrm⟩ | hrm⟩
      · rw [hlook, hsame]
        exact .inr ⟨_, rfl⟩
      · rw [hlook, hrm]
        exact .inl ⟨e, rfl⟩
      · rw [hlook, hrm]
        exact .inr ⟨_, rfl⟩

theorem reparseKey_of_valid
    {t : MftTable} {n : MftNo} {v : List UInt8}
    (h : validReparseData t n v = true)
    (fileId : Nat) :
    reparseKey fileId (some v) = some (reparseTag v, fileId) := by
  have hsize : 8 ≤ v.length := by
    by_contra hshort
    rw [validReparseData, if_neg (fun hc => hshort hc.1)] at h
    cases h
  rw [reparseKey, Option.bind_some, if_neg (by omega)]

theorem reparseKey_addAttr
    {t : MftTable} {f : Faults} {flags : XattrFlags} {value added : Option (List UInt8)}
    (h : addAttr t f flags value = .ok added)
    (fileId : Nat) :
    reparseKey fileId added = reparseKey fileId value ∧
      (added.getD []).length = (value.getD []).length := by
  rcases addAttr_ok h with rfl | ⟨rfl, rfl⟩
  · exact ⟨rfl, rfl⟩
  · exact ⟨rfl, rfl⟩

variable {t : MftTable} {n : MftNo} {f : Faults} {value : List UInt8} {flags : XattrFlags}
variable {s : Indexed ReparseIndexKey Unit}

theorem setNtfsReparseData_outcome :
    SetOutcome (reparseKey (t.fileId n)) f s value (reparseTag value, t.fileId n)
      (fun _ => True) (decide (0 < (s.value.getD []).length))
      (setNtfsReparseData t n f value flags s) := by
  rw [setNtfsReparseData]
  split_ifs with hvalid
  · cases hopen : f.openIndex with
    | some e => exact .stopped e s.value rfl
    | none =>
      cases hadd : addAttr t f flags s.value with
      | error e => exact .stopped e s.value rfl
      | ok added =>
        obtain ⟨hkey, hsize⟩ := reparseKey_addAttr hadd (t.fileId n)
        dsimp only
        rw [updateReparseData]
        cases hattr : attrOpen f added with
        | error e => exact .stopped e added hkey
        | ok v =>
          obtain rfl := attrOpen_ok hattr
          dsimp only
          rcases removeReparseIndex_cases (t.fileId n) f v s.index with ⟨e, hrm⟩ | ⟨tag, hrm⟩
          · rw [hrm]
            exact .stopped e (some v) hkey
          · rw [hrm, hkey, ← hsize]
            exact .stored v () trivial (reparseKey_of_valid hvalid _)
  · exact .stopped .einval s.value rfl

theorem reparseOf_self
    (fileId tag : Nat)
    (d : Unit)
    (_ : True) :
    reparseOf fileId ((tag, fileId), d) = true :=
  decide_eq_true rfl

theorem removeNtfsReparseData_outcome :
    RemoveOutcome (reparseKey (t.fileId n)) (reparseOf (t.fileId n)) f s
      (removeNtfsReparseData t n f s) := by
  rw [removeNtfsReparseData]
  cases hattr : attrOpen f s.value with
  | error e => exact .stopped .enodata
  | ok v =>
    have hvalue := attrOpen_ok hattr
    cases hopen : f.openIndex with
    | some e => exact .notOpened (by simp [hopen]) (by simp [hvalue])
    | none =>
      dsimp only
      rcases removeReparseIndex_cases (t.fileId n) f v s.index with ⟨e, hidx⟩ | ⟨tag, hidx⟩
      · rw [hidx]
        exact .stopped e
      · rw [hidx, ← hvalue, attrRm.eq_def]
        cases hrm : f.attrRm with
        | none => exact .removed hopen
        | some left =>
          refine .kept left.1 left.2 _ (by simp [hrm]) ?_
          intro a ha
          exact ieAdd_entries ha (decide_eq_true rfl)

end Results

end NtfsPlus.Libntfs

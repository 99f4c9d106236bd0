import NtfsPlus.Libntfs.IndexedAttr

/-!
# Object ids

`ntfs_set_ntfs_object_id` and `ntfs_remove_ntfs_object_id` of `libntfs/object_id.c`.
The attribute holds the object id alone; its entry in `$O` has the object id as its
key and, as data, the file and the three birth ids.

The calls fail to do their work in the same places as those on reparse points.  In
addition the removal of an entry goes by the object id alone, so it takes out the
entry of another file that has the same one, and a failing search for the object id
counts as one that found nothing.
-/

namespace NtfsPlus.Libntfs

section Model

/-- `OBJECT_ID_INDEX_DATA`: the file, and `birth_volume_id`, `birth_object_id` and
`domain_id` one after the other. -/
structure ObjectIdIndexData where
  fileId : Nat
  birthIds : List UInt8
deriving DecidableEq

/-- `sizeof(GUID)`. -/
def guidSize : Nat := 16

/-- `sizeof(OBJECT_ID_ATTR)`. -/
def objectIdAttrSize : Nat := 64

abbrev ObjectIdIndex := KeyedIndex (List UInt8) ObjectIdIndexData

/-- `set_object_id_index`: an `OBJECT_ID_ATTR` is the object id and the birth ids. -/
def setObjectIdIndex (fileId : Nat) (fault : Option Errno) (objectId : List UInt8)
    (x : ObjectIdIndex) : Except Errno Unit × ObjectIdIndex :=
  ieAdd fault (objectId.take guidSize) ⟨fileId, objectId.drop guidSize⟩ x

/-- `remove_object_id_index`: the size of the value, and `old_attr` as it leaves it. -/
def removeObjectIdIndex (f : Faults) (v oldAttr : List UInt8) (x : ObjectIdIndex) :
    Except Errno (Nat × List UInt8) × ObjectIdIndex :=
  if v.length = 0 then
    (.ok (0, oldAttr), x)
  else if f.pread || decide (v.length < guidSize) then
    (.error .enodata, x)
  else
    match extIndexLookup f.lookup (v.take guidSize) x with
    | none => (.ok (v.length, v.take guidSize ++ oldAttr.drop guidSize), x)
    | some entry =>
      match indexRm f (v.take guidSize) x with
      | (.error e, y) => (.error e, y)
      | (.ok (), y) => (.ok (v.length, v.take guidSize ++ entry.birthIds), y)

/-- `update_object_id`. -/
def updateObjectId (fileId : Nat) (f : Faults) (value : List UInt8)
    (s : Indexed (List UInt8) ObjectIdIndexData) :
    Except Errno Unit × Indexed (List UInt8) ObjectIdIndexData :=
  match attrOpen f s.value with
  | .error e => (.error e, s)
  | .ok v =>
    match removeObjectIdIndex f v (List.replicate objectIdAttrSize 0) s.index with
    | (.error e, x) => (.error e, ⟨s.value, x⟩)
    | (.ok (_, oldAttr), x) =>
      -- the birth ids that the value does not give are kept
      let given := value.take objectIdAttrSize
      let newAttr := given ++ oldAttr.drop given.length
      storeThenIndex f (value.take guidSize) v (newAttr.take guidSize)
        ⟨fileId, newAttr.drop guidSize⟩ true x

/-- `add_object_id`. -/
def addObjectId (t : MftTable) (f : Faults) (flags : XattrFlags)
    (value : Option (List UInt8)) : Except Errno (Option (List UInt8)) :=
  addAttr t f flags value

/-- `ntfs_set_ntfs_object_id`. -/
def setNtfsObjectId (t : MftTable) (n : MftNo) (f : Faults) (value : List UInt8)
    (flags : XattrFlags) (s : Indexed (List UInt8) ObjectIdIndexData) :
    Except Errno Unit × Indexed (List UInt8) ObjectIdIndexData :=
  if guidSize ≤ value.length then
    match f.openIndex with
    | some e => (.error e, s)
    | none =>
      if (extIndexLookup f.dupLookup (value.take guidSize) s.index).all
          fun entry => decide (mref entry.fileId = n.val) then
        match addObjectId t f flags s.value with
        | .error e => (.error e, s)
        | .ok added => updateObjectId (t.fileId n) f value ⟨added, s.index⟩
      else
        (.error .eexist, s)
  else
    (.error .einval, s)

/-- `ntfs_remove_ntfs_object_id`. -/
def removeNtfsObjectId (t : MftTable) (n : MftNo) (f : Faults)
    (s : Indexed (List UInt8) ObjectIdIndexData) :
    Except Errno Unit × Indexed (List UInt8) ObjectIdIndexData :=
  match attrOpen f s.value with
  | .error _ => (.error .enodata, s)
  | .ok v =>
    match f.openIndex with
    | some _ => (.ok (), s)
    | none =>
      match removeObjectIdIndex f v f.unset s.index with
      | (.error e, x) => (.error e, ⟨s.value, x⟩)
      | (.ok (oldsize, oldAttr), x) =>
        match attrRm f with
        | (none, left) => (.ok (), ⟨left, x⟩)
        | (some e, left) =>
          if guidSize < oldsize then
            (.error e, ⟨left, (setObjectIdIndex (t.fileId n) f.reindex oldAttr x).2⟩)
          else
            (.error e, ⟨left, x⟩)

end Model

section Results

/-- The entries of a file. -/
def objectIdOf (fileId : Nat) (e : List UInt8 × ObjectIdIndexData) : Bool :=
  decide (e.2.fileId = fileId)

/-- The key under which the present value of a file is looked up. -/
def objectIdKey (value : Option (List UInt8)) : Option (List UInt8) :=
  value.bind fun v => if v.length = 0 then none else some (v.take guidSize)

/-- The entry of a value: of the file, and with the birth ids that the value gives. -/
def ObjectIdFits (fileId : Nat) (value : List UInt8) (d : ObjectIdIndexData) : Prop :=
  d.fileId = fileId ∧ (value.take objectIdAttrSize).drop guidSize <+: d.birthIds

theorem removeObjectIdIndex_cases
    (f : Faults)
    (v oldAttr : List UInt8)
    (x : ObjectIdIndex) :
    (∃ e, removeObjectIdIndex f v oldAttr x = (.error e, x)) ∨
      ∃ attr, removeObjectIdIndex f v oldAttr x =
        (.ok (v.length, attr), unindexed f (objectIdKey (some v)) x) := by
  rw [removeObjectIdIndex, objectIdKey, Option.bind_some]
  by_cases hempty : v.length = 0
  · rw [if_pos hempty, if_pos hempty, unindexed_none, hempty]
    exact .inr ⟨oldAttr, rfl⟩
  · rw [if_neg hempty]
    split
    · exact .inl ⟨.enodata, rfl⟩
    · rcases lookup_indexRm_cases f (v.take guidSize) x with
        ⟨hlook, hsame⟩ | ⟨d, hlook, ⟨e, hrm⟩ | hrm⟩
      · rw [hlook, hsame]
        exact .inr ⟨_, rfl⟩
      · rw [hlook, hrm]
        exact .inl ⟨e, rfl⟩
      · rw [hlook, hrm]
        exact .inr ⟨_, rfl⟩

theorem objectIdKey_of_guid
    {v : List UInt8}
    (h : guidSize ≤ v.length) :
    objectIdKey (some (v.take guidSize)) = some (v.take guidSize) := by
  have hlen : (v.take guidSize).length = guidSize := by rw [List.length_take, Nat.min_eq_left h]
  rw [objectIdKey, Option.bind_some, hlen, if_neg (by decide), List.take_take, Nat.min_self]

variable {t : MftTable} {n : MftNo} {f : Faults} {value : List UInt8} {flags : XattrFlags}
variable {s : Indexed (List UInt8) ObjectIdIndexData}

/-- The entry that is inserted: under the new object id, with the birth ids that the
value gives. -/
theorem newAttr_entry
    {oldAttr : List UInt8}
    (hsize : guidSize ≤ value.length) :
    let given := value.take objectIdAttrSize
    let newAttr := given ++ oldAttr.drop given.length
    newAttr.take guidSize = value.take guidSize ∧
      given.drop guidSize <+: newAttr.drop guidSize := by
  have hgiven : guidSize ≤ (value.take objectIdAttrSize).length := by
    rw [List.length_take]
    exact Nat.le_min.mpr ⟨by decide, hsize⟩
  dsimp only
  rw [List.take_append_of_le_length hgiven, List.take_take, List.drop_append_of_le_length hgiven]
  exact ⟨rfl, List.prefix_append _ _⟩

theorem objectIdKey_addObjectId
    {old added : Option (List UInt8)}
    (h : addObjectId t f flags old = .ok added) :
    objectIdKey added = objectIdKey old := by
  rcases addAttr_ok h with rfl | ⟨rfl, rfl⟩
  · rfl
  · rfl

theorem updateObjectId_outcome
    {added : Option (List UInt8)} {fileId : Nat}
    (hsize : guidSize ≤ value.length)
    (hkey : objectIdKey added = objectIdKey s.value) :
    SetOutcome objectIdKey f s (value.take guidSize) (value.take guidSize)
      (ObjectIdFits fileId value) true (updateObjectId fileId f value ⟨added, s.index⟩) := by
  rw [updateObjectId]
  cases hattr : attrOpen f added with
  | error e => exact .stopped e added hkey
  | ok v =>
    obtain rfl := attrOpen_ok hattr
    dsimp only
    rcases removeObjectIdIndex_cases f v (List.replicate objectIdAttrSize 0) s.index
      with ⟨e, hrm⟩ | ⟨oldAttr, hrm⟩
    · rw [hrm]
      exact .stopped e (some v) hkey
    · rw [hrm]
      obtain ⟨hguid, hbirth⟩ := @newAttr_entry value oldAttr hsize
      dsimp only
      rw [hkey, hguid]
      exact .stored v _ ⟨rfl, hbirth⟩ (objectIdKey_of_guid hsize)

theorem setNtfsObjectId_outcome :
    SetOutcome objectIdKey f s (value.take guidSize) (value.take guidSize)
      (ObjectIdFits (t.fileId n) value) true (setNtfsObjectId t n f value flags s) := by
  rw [setNtfsObjectId]
  split
  · rename_i hsize
    cases hopen : f.openIndex with
    | some e => exact .stopped e s.value rfl
    | none =>
      dsimp only
      split
      · cases hadd : addObjectId t f flags s.value with
        | error e => exact .stopped e s.value rfl
        | ok added => exact updateObjectId_outcome hsize (objectIdKey_addObjectId hadd)
      · exact .stopped .eexist s.value rfl
  · exact .stopped .einval s.value rfl

theorem objectIdOf_of_fits
    {fileId : Nat} {guid : List UInt8}
    (d : ObjectIdIndexData)
    (h : ObjectIdFits fileId value d) :
    objectIdOf fileId (guid, d) = true :=
  decide_eq_true h.1

theorem removeNtfsObjectId_outcome :
    RemoveOutcome objectIdKey (objectIdOf (t.fileId n)) f s (removeNtfsObjectId t n f s) := by
  rw [removeNtfsObjectId]
  cases hattr : attrOpen f s.value with
  | error e => exact .stopped .enodata
  | ok v =>
    have hvalue := attrOpen_ok hattr
    cases hopen : f.openIndex with
    | some e => exact .notOpened (by simp [hopen]) (by simp [hvalue])
    | none =>
      dsimp only
      rcases removeObjectIdIndex_cases f v f.unset s.index with ⟨e, hidx⟩ | ⟨attr, hidx⟩
      · rw [hidx]
        exact .stopped e
      · rw [hidx, ← hvalue, attrRm.eq_def]
        cases hrm : f.attrRm with
        | none => exact .removed hopen
        | some left =>
          dsimp only
          split
          · refine .kept left.1 left.2 _ (by simp [hrm]) ?_
            intro a ha
            exact ieAdd_entries ha (decide_eq_true rfl)
          · exact .kept left.1 left.2 _ (by simp [hrm]) (fun a ha => Or.inl ha)

end Results

end NtfsPlus.Libntfs

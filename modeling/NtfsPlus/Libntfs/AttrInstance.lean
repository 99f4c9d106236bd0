import Mathlib.Data.List.Nodup
import Mathlib.Data.List.Infix
import Mathlib.Logic.Function.Basic
import NtfsPlus.Libntfs.AttrRecordEdit

/-!
# Instance numbers of attributes

`ntfs_resident_attr_record_add`, `ntfs_non_resident_attr_record_add` and
`ntfs_attr_record_move_to` of `libntfs/attrib.c` give an attribute the number in
`next_attr_instance` of the record it comes to, and increment that counter of sixteen
bits.  Nothing compares the number with those of the attributes that are there, so after
65536 draws a number comes back, whether or not its attribute is still in the record
(`instances_distinct_iff`, `attrInstance_comes_back`).

Here a record is its counter and its attributes; `instanceRecord` is what this keeps of
the bytes of a record, and an addition to the bytes is an addition here.
-/

namespace NtfsPlus.Libntfs

section Model

variable {α : Type}

/-- An MFT record: its counter, and its attributes with their instance numbers. -/
structure InstanceRecord (α : Type) where
  nextAttrInstance : UInt16
  attrs : List (α × UInt16)

/--
An operation on the records of an inode.  `place` is where `ntfs_attr_find` and
`ntfs_make_room_for_attr` let an attribute be put, if they do, and `listed` says whether
`ntfs_attrlist_entry_add` succeeds.
-/
inductive InstanceOp (α : Type) where
  | add (r : Nat) (a : α) (place : Option Nat) (listed : Bool)
  | rm (r i : Nat)
  | moveTo (r i r' : Nat) (place : Option Nat)

/-- The record with one more attribute, which gets the next number. -/
def InstanceRecord.put (m : InstanceRecord α) (p : Nat) (a : α) : InstanceRecord α :=
  ⟨m.nextAttrInstance + 1, m.attrs.take p ++ (a, m.nextAttrInstance) :: m.attrs.drop p⟩

/-- `ntfs_resident_attr_record_add` and `ntfs_non_resident_attr_record_add`. -/
def instanceAdd (m : InstanceRecord α) (a : α) (place : Option Nat) (listed : Bool) :
    InstanceRecord α :=
  match place with
  | none => m
  | some p =>
    if listed then
      m.put p a
    else
      -- the attribute is taken out again, the counter stays
      { m with nextAttrInstance := m.nextAttrInstance + 1 }

/-- `ntfs_attr_record_move_to`. -/
def instanceMoveTo (s : Nat → InstanceRecord α) (r i r' : Nat) (place : Option Nat) :
    Nat → InstanceRecord α :=
  if r = r' then
    s
  else
    match place, (s r).attrs[i]? with
    | some p, some a =>
      Function.update (Function.update s r { s r with attrs := (s r).attrs.eraseIdx i })
        r' ((s r').put p a.1)
    | _, _ => s

/-- One operation. -/
def instanceStep (s : Nat → InstanceRecord α) : InstanceOp α → Nat → InstanceRecord α
  | .add r a place listed => Function.update s r (instanceAdd (s r) a place listed)
  | .rm r i => Function.update s r { s r with attrs := (s r).attrs.eraseIdx i }
  | .moveTo r i r' place => instanceMoveTo s r i r' place

/-- A sequence of operations. -/
def instanceRun (s : Nat → InstanceRecord α) (ops : List (InstanceOp α)) : Nat → InstanceRecord α :=
  ops.foldl instanceStep s

end Model

section Bytes

variable {m : Bytes} {pre post : List RawAttr} {upkeep : ListUpkeep} {new : NewAttr}

/-- The counter of a record, and the types and numbers of its attributes. -/
def instanceRecord (m : Bytes) (attrs : List RawAttr) : InstanceRecord Nat :=
  ⟨UInt16.ofNat (nextAttrInstance m), attrs.map fun a => (a.type, UInt16.ofNat a.attrInstance)⟩

/-- An addition to the bytes of a record fails, or gives the next number to the attribute. -/
theorem attrRecordAdd_instanceAdd
    (h : Layout m (pre ++ post))
    (hquiet : upkeep.Quiet)
    (hnew : new.Sound)
    (hwrap : bytesAllocated m + new.length < 2 ^ 32) :
    (∃ err, attrRecordAdd upkeep new m (attrsOffset m + (flatAttrs pre).length) = (.error err, m)) ∨
    ∃ a m', attrRecordAdd upkeep new m (attrsOffset m + (flatAttrs pre).length) = (new.lookup, m') ∧
      Layout m' (pre ++ a :: post) ∧
      instanceRecord m' (pre ++ a :: post) =
        instanceAdd (instanceRecord m (pre ++ post)) new.type (some pre.length) true := by
  rcases h.attrRecordAdd hquiet hnew hwrap with
    herr | ⟨a, m', heq, htype, hlayout, -, hinst, hnext⟩
  · exact .inl herr
  · refine .inr ⟨a, m', heq, hlayout, ?_⟩
    have hcount : UInt16.ofNat (nextAttrInstance m') =
        UInt16.ofNat (nextAttrInstance m) + 1 := by
      rw [hnext, show (1 : UInt16) = UInt16.ofNat 1 from rfl, ← UInt16.ofNat_add]
      exact UInt16.ofNat_mod_size
    simp [instanceRecord, instanceAdd, InstanceRecord.put, hcount, htype, hinst]

end Bytes

section Draws

variable {α : Type} {s : Nat → InstanceRecord α} {op : InstanceOp α}

/-- The instance numbers of a record. -/
def InstanceRecord.instances (m : InstanceRecord α) : List UInt16 :=
  m.attrs.map Prod.snd

/-- No record holds two attributes with the same instance number. -/
def InstancesDistinct (s : Nat → InstanceRecord α) : Prop :=
  ∀ r, (s r).instances.Nodup

/-- The record whose counter an operation uses, and whether the attribute stays there. -/
def drawsFrom (s : Nat → InstanceRecord α) : InstanceOp α → Option (Nat × Bool)
  | .add r _ place listed => place.map fun _ => (r, listed)
  | .rm _ _ => none
  | .moveTo r i r' place =>
    if r ≠ r' ∧ place.isSome ∧ ((s r).attrs[i]?).isSome then some (r', true) else none

/-- How often a sequence of operations draws a number of the record. -/
def drawCount (r : Nat) : (Nat → InstanceRecord α) → List (InstanceOp α) → Nat
  | _, [] => 0
  | s, op :: ops =>
    (if (drawsFrom s op).any fun d => d.1 = r then 1 else 0) + drawCount r (instanceStep s op) ops

/-- What an operation can do to a record: attributes leave it, its counter goes on, or an
attribute comes to it with the number of the counter. -/
theorem instanceStep_cases
    (s : Nat → InstanceRecord α)
    (op : InstanceOp α)
    (r : Nat) :
    drawsFrom s op = some (r, true) ∧ (∃ p a, instanceStep s op r = (s r).put p a) ∨
      drawsFrom s op ≠ some (r, true) ∧ (instanceStep s op r).nextAttrInstance =
          (s r).nextAttrInstance + (if (drawsFrom s op).any fun d => d.1 = r then 1 else 0) ∧
        (instanceStep s op r).attrs.Sublist (s r).attrs := by
  cases op with
  | add r₀ a place listed =>
    by_cases hr : r = r₀
    · subst hr
      cases place <;> cases listed <;>
        simp [drawsFrom, instanceStep, instanceAdd]
    · have hr' : r₀ ≠ r := fun h => hr h.symm
      cases place <;> simp [drawsFrom, instanceStep, Function.update_of_ne hr, hr']
  | rm r₀ i =>
    by_cases hr : r = r₀
    · subst hr
      simp [drawsFrom, instanceStep, List.eraseIdx_sublist]
    · simp [drawsFrom, instanceStep, Function.update_of_ne hr]
  | moveTo r₀ i r' place =>
    by_cases hmove : r₀ ≠ r' ∧ place.isSome ∧ ((s r₀).attrs[i]?).isSome
    · obtain ⟨hne, hplace, hattr⟩ := hmove
      obtain ⟨p, rfl⟩ := Option.isSome_iff_exists.mp hplace
      obtain ⟨a, ha⟩ := Option.isSome_iff_exists.mp hattr
      have hdraw : drawsFrom s (.moveTo r₀ i r' (some p)) = some (r', true) := by
        simp [drawsFrom, hne, ha]
      rw [hdraw]
      by_cases hr : r = r'
      · subst hr
        simp [instanceStep, instanceMoveTo, hne, ha]
      · have hr' : r' ≠ r := fun h => hr h.symm
        by_cases hsrc : r = r₀
        · subst hsrc
          simp [instanceStep, instanceMoveTo, hne, ha, hr', List.eraseIdx_sublist]
        · simp [instanceStep, instanceMoveTo, hne, ha, hr', Function.update_of_ne hr,
            Function.update_of_ne hsrc]
    · have hdraw : drawsFrom s (.moveTo r₀ i r' place) = none := if_neg hmove
      have hsame : instanceStep s (.moveTo r₀ i r' place) = s := by
        unfold instanceStep instanceMoveTo
        dsimp only
        split_ifs with heq
        · rfl
        · split
          · rename_i p a ha
            exact absurd ⟨heq, rfl, by simp [ha]⟩ hmove
          · rfl
      simp [hdraw, hsame]

theorem instanceStep_nextAttrInstance
    (s : Nat → InstanceRecord α)
    (op : InstanceOp α)
    (r : Nat) :
    (instanceStep s op r).nextAttrInstance = (s r).nextAttrInstance +
      UInt16.ofNat (if (drawsFrom s op).any fun d => d.1 = r then 1 else 0) := by
  rcases instanceStep_cases s op r with ⟨hdraw, p, a, heq⟩ | ⟨_, heq, _⟩
  · simp [hdraw, heq, InstanceRecord.put]
  · rw [heq]
    split_ifs <;> rfl

theorem instanceRun_nextAttrInstance
    (s : Nat → InstanceRecord α)
    (ops : List (InstanceOp α))
    (r : Nat) :
    (instanceRun s ops r).nextAttrInstance =
      (s r).nextAttrInstance + UInt16.ofNat (drawCount r s ops) := by
  induction ops generalizing s with
  | nil => simp [instanceRun, drawCount]
  | cons op ops ih =>
    rw [show instanceRun s (op :: ops) = instanceRun (instanceStep s op) ops from rfl, ih,
      instanceStep_nextAttrInstance, drawCount, UInt16.ofNat_add, UInt16.add_assoc]

/-- An operation keeps the numbers distinct exactly when the number it gives is free. -/
theorem instancesDistinct_step_iff
    (h : InstancesDistinct s) :
    InstancesDistinct (instanceStep s op) ↔
      ∀ r, drawsFrom s op = some (r, true) → (s r).nextAttrInstance ∉ (s r).instances := by
  refine forall_congr' fun r => ?_
  rcases instanceStep_cases s op r with ⟨hdraw, p, a, heq⟩ | ⟨hdraw, _, hsub⟩
  · have hperm : ((s r).put p a).instances.Perm ((s r).nextAttrInstance :: (s r).instances) := by
      have hmid := (@List.perm_middle _ (a, (s r).nextAttrInstance) ((s r).attrs.take p)
        ((s r).attrs.drop p)).map Prod.snd
      rwa [List.take_append_drop] at hmid
    rw [heq, hperm.nodup_iff]
    simp [hdraw, h r]
  · have hkept : (instanceStep s op r).instances.Nodup := (h r).sublist (hsub.map _)
    simp [hdraw, hkept]

/--
Along a run of operations from distinct numbers they stay distinct if and only if each
number that is given is free in its record then: the counter's start plus the number of
draws so far, in sixteen bits.
-/
theorem instances_distinct_iff
    (s : Nat → InstanceRecord α)
    (h : InstancesDistinct s)
    (ops : List (InstanceOp α)) :
    (∀ pre, pre <+: ops → InstancesDistinct (instanceRun s pre)) ↔
      ∀ pre op, pre ++ [op] <+: ops → ∀ r, drawsFrom (instanceRun s pre) op = some (r, true) →
        (s r).nextAttrInstance + UInt16.ofNat (drawCount r s pre) ∉
          (instanceRun s pre r).instances := by
  have hlast : ∀ pre op,
      instanceRun s (pre ++ [op]) = instanceStep (instanceRun s pre) op := fun pre op =>
    List.foldl_append
  constructor
  · intro hall pre op hpre r hdraw
    have hstep := hall _ hpre
    rw [hlast, instancesDistinct_step_iff (hall pre ((List.prefix_append _ _).trans hpre))] at hstep
    rw [← instanceRun_nextAttrInstance]
    exact hstep r hdraw
  · intro hfree pre hpre
    induction pre using List.reverseRecOn with
    | nil => exact h
    | append_singleton pre op ih =>
      rw [hlast, instancesDistinct_step_iff (ih ((List.prefix_append _ _).trans hpre))]
      intro r hdraw
      rw [instanceRun_nextAttrInstance]
      exact hfree pre op hpre r hdraw

/-- Adding an attribute to record 0 and removing it again. -/
def addAndRemove : List (InstanceOp Unit) :=
  [.add 0 () (some 0) true, .rm 0 0]

/-- Records with an attribute of number 0 and the counter at `n`. -/
def oneAttr (n : UInt16) : Nat → InstanceRecord Unit :=
  fun _ => ⟨n, [((), 0)]⟩

theorem instanceRun_addAndRemove
    (n : UInt16)
    (k : Nat) :
    instanceRun (Function.update (oneAttr 1) 0 (oneAttr n 0))
        (List.replicate k addAndRemove).flatten =
      Function.update (oneAttr 1) 0 (oneAttr (n + UInt16.ofNat k) 0) := by
  induction k generalizing n with
  | zero => simp [instanceRun]
  | succ k ih =>
    have honce : instanceRun (Function.update (oneAttr 1) 0 (oneAttr n 0)) addAndRemove =
        Function.update (oneAttr 1) 0 (oneAttr (n + 1) 0) := by
      simp [instanceRun, addAndRemove, instanceStep, instanceAdd, InstanceRecord.put, oneAttr]
    rw [List.replicate_succ, List.flatten_cons, instanceRun, List.foldl_append]
    change instanceRun (instanceRun _ addAndRemove) _ = _
    rw [honce, ih, UInt16.add_assoc, Nat.add_comm k 1, UInt16.ofNat_add]
    rfl

/-- With an attribute of number 0 in the record, 65535 additions and removals and one more
addition give the number 0 a second time. -/
theorem attrInstance_comes_back :
    InstancesDistinct (oneAttr 1) ∧ ¬InstancesDistinct (instanceRun (oneAttr 1)
        ((List.replicate 65535 addAndRemove).flatten ++ [.add 0 () (some 0) true])) := by
  refine ⟨fun r => List.nodup_singleton _, fun h => ?_⟩
  have hrun := instanceRun_addAndRemove 1 65535
  rw [Function.update_eq_self] at hrun
  rw [instanceRun, List.foldl_append] at h
  change InstancesDistinct (instanceRun (instanceRun _ _) _) at h
  rw [hrun] at h
  exact absurd (h 0) (by decide)

/-- One addition to a record with a fresh counter. -/
theorem instances_distinct_one_add :
    InstancesDistinct (oneAttr 1) ∧ ∀ pre, pre <+: [InstanceOp.add 0 () (some 0) true] →
        InstancesDistinct (instanceRun (oneAttr 1) pre) := by
  have hstart : InstancesDistinct (oneAttr 1) := fun r => List.nodup_singleton _
  refine ⟨hstart, (instances_distinct_iff (oneAttr 1) hstart _).mpr ?_⟩
  rintro pre op ⟨rest, hrest⟩ r hdraw
  cases pre with
  | nil =>
    obtain ⟨rfl, -⟩ := List.cons.inj hrest
    cases hdraw
    decide
  | cons op' pre => simp at hrest

end Draws

end NtfsPlus.Libntfs

import NtfsPlus.Lib.ByteMemory

/-!
# Repairs of fields

A repair goes over the fields of an object, stores what a field should hold where it holds
something else, and remembers whether it has stored anything.  Over fields that lie apart
from each other the memory is changed exactly when something is stored, and a second repair
with the same fields stores nothing.
-/

namespace NtfsPlus

/-- The memory, and whether something has been stored. -/
structure FieldRepair where
  m : Bytes
  changed : Bool

namespace FieldRepair

/-- Store a byte string unless it lies there already. -/
def field (r : FieldRepair) (pos : Nat) (l : List UInt8) : FieldRepair :=
  if bytesAt r.m pos l.length = l then r else ⟨patch r.m pos l, true⟩

/-- The fields of the object at `a`, one after the other. -/
def fields (r : FieldRepair) (a : Nat) : List (Nat × List UInt8) → FieldRepair
  | [] => r
  | (ofs, l) :: rest => (r.field (a + ofs) l).fields a rest

/-- No two of the fields have a byte in common. -/
def Apart (fs : List (Nat × List UInt8)) : Prop :=
  fs.Pairwise fun f g => f.1 + f.2.length ≤ g.1 ∨ g.1 + g.2.length ≤ f.1

variable {r : FieldRepair} {a pos : Nat} {l : List UInt8} {fs : List (Nat × List UInt8)}

/-- A field that is right is left alone. -/
theorem field_of_holds
    (h : HoldsBytes r.m pos l) :
    r.field pos l = r :=
  if_pos h.bytesAt_eq

/-- A field that is wrong is patched, which is noted. -/
theorem field_of_not_holds
    (h : ¬HoldsBytes r.m pos l) :
    r.field pos l = ⟨patch r.m pos l, true⟩ := by
  refine if_neg fun heq => h ?_
  rw [← heq]
  exact holdsBytes_bytesAt r.m pos l.length

theorem field_m
    (r : FieldRepair)
    (pos : Nat)
    (l : List UInt8) :
    (r.field pos l).m = patch r.m pos l := by
  by_cases h : HoldsBytes r.m pos l
  · rw [field_of_holds h, h.patch_eq]
  · rw [field_of_not_holds h]

theorem fields_m
    (r : FieldRepair)
    (a : Nat)
    (fs : List (Nat × List UInt8)) :
    (r.fields a fs).m = patches r.m a fs := by
  induction fs generalizing r with
  | nil => rfl
  | cons f fs ih => rw [fields, ih, field_m, patches]

theorem fields_append
    (r : FieldRepair)
    (a : Nat)
    (fs gs : List (Nat × List UInt8)) :
    r.fields a (fs ++ gs) = (r.fields a fs).fields a gs := by
  induction fs generalizing r with
  | nil => rfl
  | cons f fs ih => exact ih _

/-- Fields that do not overlap are right afterwards. -/
theorem fields_holds
    (hapart : Apart fs)
    {f : Nat × List UInt8}
    (hf : f ∈ fs) :
    HoldsBytes (r.fields a fs).m (a + f.1) f.2 := by
  induction fs generalizing r with
  | nil => cases hf
  | cons g fs ih =>
    obtain ⟨hg, hrest⟩ := List.pairwise_cons.mp hapart
    rcases List.mem_cons.mp hf with rfl | hmem
    · rw [fields, fields_m, field_m]
      exact holdsBytes_patches (holdsBytes_patch _ _ _) hg
    · exact ih hrest hmem

/-- Nothing happens if all fields are right. -/
theorem fields_of_holds
    (h : ∀ f ∈ fs, HoldsBytes r.m (a + f.1) f.2) :
    r.fields a fs = r := by
  induction fs with
  | nil => rfl
  | cons f fs ih =>
    rw [fields, field_of_holds (h f List.mem_cons_self)]
    exact ih fun g hg => h g (List.mem_cons_of_mem f hg)

/-- The repair reports a change exactly when the memory has changed. -/
theorem fields_changed_iff
    (hapart : Apart fs) :
    (r.fields a fs).changed = true ↔ r.changed = true ∨ (r.fields a fs).m ≠ r.m := by
  induction fs generalizing r with
  | nil => simp [fields]
  | cons f fs ih =>
    obtain ⟨ofs, l⟩ := f
    by_cases h : HoldsBytes r.m (a + ofs) l
    · rw [fields, field_of_holds h]
      exact ih (List.pairwise_cons.mp hapart).2
    · -- the field itself tells the two memories apart
      have hnow : HoldsBytes (r.fields a ((ofs, l) :: fs)).m (a + ofs) l :=
        fields_holds hapart List.mem_cons_self
      have hdiff : (r.fields a ((ofs, l) :: fs)).m ≠ r.m := fun heq => h (heq ▸ hnow)
      refine iff_of_true ?_ (Or.inr hdiff)
      rw [fields, ih (List.pairwise_cons.mp hapart).2, field_of_not_holds h]
      exact Or.inl rfl

/-- Nothing changes outside of the fields. -/
theorem fields_of_ne
    (len : Nat)
    {j : Nat}
    (hin : ∀ f ∈ fs, f.1 + f.2.length ≤ len)
    (hj : j < a ∨ a + len ≤ j) :
    (r.fields a fs).m j = r.m j := by
  rw [fields_m, patches_of_ne hin hj]

/-- A number beside all fields is not changed. -/
theorem fields_leNat
    {n : Nat}
    (h : ∀ f ∈ fs, pos + n ≤ a + f.1 ∨ a + f.1 + f.2.length ≤ pos) :
    leNat (r.fields a fs).m pos n = leNat r.m pos n := by
  induction fs generalizing r with
  | nil => rfl
  | cons f fs ih =>
    rw [fields, ih fun g hg => h g (List.mem_cons_of_mem f hg), field_m]
    exact leNat_patch_of_ne _ (h f List.mem_cons_self)

end FieldRepair

end NtfsPlus

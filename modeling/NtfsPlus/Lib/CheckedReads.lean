import NtfsPlus.Lib.ByteMemory

/-!
# Tests and what they read

Code that looks at untrusted bytes is a sequence of tests: each reads some ranges
and the first that fails ends the sequence.  `readsOf` are the ranges that are read
until then.
-/

namespace NtfsPlus.CheckedReads

/-- A test: the ranges it reads, as start and length, and whether it passes. -/
structure Check where
  reads : List (Nat × Nat)
  ok : Bool

/-- Whether every test passes. -/
def passes (cs : List Check) : Bool :=
  cs.all Check.ok

/-- The ranges that are read up to the first test that fails. -/
def readsOf : List Check → List (Nat × Nat)
  | [] => []
  | c :: cs => c.reads ++ if c.ok then readsOf cs else []

/-- No byte at or behind a limit is read. -/
def ReadsWithin (limit : Nat) (cs : List Check) : Prop :=
  ∀ r ∈ readsOf cs, r.1 + r.2 ≤ limit

instance (limit : Nat) (cs : List Check) : Decidable (ReadsWithin limit cs) :=
  inferInstanceAs (Decidable (∀ r ∈ readsOf cs, _))

variable (limit : Nat) (c : Check) (cs ds : List Check)

@[simp] theorem readsWithin_nil : ReadsWithin limit [] := by
  simp [ReadsWithin, readsOf]

@[simp] theorem readsWithin_cons :
    ReadsWithin limit (c :: cs) ↔
      (∀ r ∈ c.reads, r.1 + r.2 ≤ limit) ∧ (c.ok → ReadsWithin limit cs) := by
  cases hok : c.ok with
  | true => simp [ReadsWithin, readsOf, hok, or_imp, forall_and]
  | false => simp [ReadsWithin, readsOf, hok]

/-- Reads that all lie below the limit do so at every point of the evaluation. -/
theorem readsWithin_of_forall
    {limit : Nat} {cs : List Check}
    (h : ∀ c ∈ cs, ∀ r ∈ c.reads, r.1 + r.2 ≤ limit) :
    ReadsWithin limit cs := by
  induction cs with
  | nil => exact readsWithin_nil limit
  | cons c cs ih =>
    rw [List.forall_mem_cons] at h
    exact (readsWithin_cons limit c cs).mpr ⟨h.1, fun _ => ih h.2⟩

@[simp] theorem passes_cons : passes (c :: cs) ↔ c.ok ∧ passes cs := by
  simp [passes]

@[simp] theorem passes_append : passes (cs ++ ds) ↔ passes cs ∧ passes ds := by
  simp [passes]

/-- Later checks are made only if the earlier ones pass. -/
theorem readsWithin_append :
    ReadsWithin limit (cs ++ ds) ↔ ReadsWithin limit cs ∧ (passes cs → ReadsWithin limit ds) := by
  induction cs with
  | nil => simp [passes]
  | cons c cs ih =>
    rw [List.cons_append, readsWithin_cons, readsWithin_cons, passes_cons]
    tauto

end NtfsPlus.CheckedReads

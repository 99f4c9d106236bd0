import Mathlib.Tactic

/-!
# Following a partial function

A search that goes from place to place by references stands at `orbit next n a`
after `n` steps.  Where only finitely many places refer to another, it ends exactly
if it comes to no place twice.
-/

namespace NtfsPlus.PartialOrbit

variable {α : Type} (next : α → Option α)

/-- The place `n` steps behind `a`, if the way goes that far. -/
def orbit : Nat → α → Option α
  | 0, a => some a
  | n + 1, a => (next a).bind (orbit n)

/-- No place is met twice on the way from `a`. -/
def NoRepeat (a : α) : Prop :=
  ∀ i j b, orbit next i a = some b → orbit next j a = some b → i = j

variable {next} {a b : α}

/-- Steps can be made in two parts. -/
theorem orbit_add
    (n m : Nat)
    (a : α) :
    orbit next (n + m) a = (orbit next n a).bind (orbit next m) := by
  induction n generalizing a with
  | zero => rw [Nat.zero_add]; rfl
  | succ n ih =>
    rw [Nat.succ_add, orbit, orbit]
    cases next a with
    | none => rfl
    | some c => exact ih c

theorem orbit_none_of_le
    {n m : Nat}
    (h : orbit next n a = none)
    (hle : n ≤ m) :
    orbit next m a = none := by
  obtain ⟨k, rfl⟩ := Nat.exists_eq_add_of_le hle
  rw [orbit_add, h]
  rfl

/-- A place that leads back to itself is met again and again. -/
theorem orbit_mul
    {p : Nat}
    (h : orbit next p b = some b)
    (k : Nat) :
    orbit next (k * p) b = some b := by
  induction k with
  | zero => rw [Nat.zero_mul]; rfl
  | succ k ih => rw [Nat.succ_mul, orbit_add, ih, Option.bind_some, h]

/-- An orbit that comes back to an element never ends. -/
theorem orbit_ne_none_of_repeat
    {i p : Nat}
    (hp : 0 < p)
    (hi : orbit next i a = some b)
    (hj : orbit next (i + p) a = some b)
    (n : Nat) :
    orbit next n a ≠ none := by
  intro hnone
  rw [orbit_add, hi] at hj
  have hfar : orbit next (i + n * p) a = some b := by
    rw [orbit_add, hi, Option.bind_some, orbit_mul hj]
  have hle : n ≤ i + n * p := Nat.le_add_left_of_le (Nat.le_mul_of_pos_right n hp)
  rw [orbit_none_of_le hnone hle] at hfar
  cases hfar

/-- Over a finite set an orbit ends exactly when it does not repeat. -/
theorem orbit_ends_iff
    (hfinite : {b | (next b).isSome}.Finite)
    (a : α) :
    (∃ n, orbit next n a = none) ↔ NoRepeat next a := by
  constructor
  · rintro ⟨n, hnone⟩ i j b hi hj
    by_contra hne
    rcases Nat.lt_or_gt_of_ne hne with hlt | hlt
    · obtain ⟨p, rfl⟩ := Nat.exists_eq_add_of_lt hlt
      exact orbit_ne_none_of_repeat p.succ_pos hi hj n hnone
    · obtain ⟨p, rfl⟩ := Nat.exists_eq_add_of_lt hlt
      exact orbit_ne_none_of_repeat p.succ_pos hj hi n hnone
  · intro hno
    by_contra hends
    have hall : ∀ n, ∃ b, orbit next n a = some b := fun n =>
      Option.ne_none_iff_exists'.mp fun h => hends ⟨n, h⟩
    choose f hf using hall
    have hinj : f.Injective := fun i j h => hno i j (f i) (hf i) (h ▸ hf j)
    have hrange : Set.range f ⊆ {b | (next b).isSome} := by
      rintro _ ⟨n, rfl⟩
      have hstep := hf (n + 1)
      rw [orbit_add, hf n, Option.bind_some, orbit] at hstep
      cases hnext : next (f n) with
      | none => rw [hnext] at hstep; cases hstep
      | some c => exact Option.isSome_of_eq_some hnext
    exact Set.infinite_range_of_injective hinj (hfinite.subset hrange)

end NtfsPlus.PartialOrbit

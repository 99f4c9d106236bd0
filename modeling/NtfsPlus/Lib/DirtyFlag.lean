import Mathlib.Tactic

/-!
# A flag that guards a sequence of writes

A program marks a store as dirty, writes to it and clears the mark.  A trace is
the list of these events in the order in which they reach the store, and a crash
cuts it anywhere.

* `Guarded` says that at every cut between two writes the flag is set.
* `guarded_of_marked` is the rule for a trace whose only clear comes last, but for
  writes that follow it.
-/

namespace NtfsPlus.DirtyFlag

/-- What reaches the store. -/
inductive FlagEvent where
  | write
  | mark
  | clear
deriving DecidableEq, Repr

/-- The flag after a trace. -/
def flagAfter (flag : Bool) : List FlagEvent → Bool
  | [] => flag
  | .write :: trace => flagAfter flag trace
  | .mark :: trace => flagAfter true trace
  | .clear :: trace => flagAfter false trace

/--
Wherever the trace is cut, the flag is set if some of the writes have been made
and some have not.
-/
def Guarded (flag : Bool) (trace : List FlagEvent) : Prop :=
  ∀ before after, trace = before ++ after → .write ∈ before → .write ∈ after →
    flagAfter flag before = true

section Flag

variable {flag : Bool} {trace body : List FlagEvent}

/-- Without a clearing, the flag is set if it was or is marked. -/
theorem flagAfter_of_not_mem_clear
    (h : .clear ∉ trace) :
    flagAfter flag trace = true ↔ flag = true ∨ .mark ∈ trace := by
  induction trace generalizing flag with
  | nil => simp [flagAfter]
  | cons e t ih =>
    have ht : .clear ∉ t := fun hmem => h (List.mem_cons_of_mem _ hmem)
    cases e with
    | write =>
      rw [flagAfter, ih ht]
      simp
    | mark =>
      rw [flagAfter, ih ht]
      simp
    | clear => exact absurd List.mem_cons_self h

variable {before after : List FlagEvent}

/-- A clearing at the end is in no proper beginning. -/
theorem not_mem_clear_before
    (hbody : .clear ∉ body)
    (h : body ++ [.clear] = before ++ after)
    (hafter : after ≠ []) :
    .clear ∉ before := by
  intro hmem
  have hlast : .clear ∈ after := by
    have heq : (before ++ after).getLast (by simp [hafter]) = FlagEvent.clear := by
      simp only [← h, List.getLast_append_singleton]
    rw [List.getLast_append_of_ne_nil _ hafter] at heq
    rw [← heq]
    exact List.getLast_mem hafter
  have hcount := congrArg (List.count FlagEvent.clear) h
  rw [List.count_append, List.count_eq_zero.mpr hbody] at hcount
  have h1 := List.count_pos_iff.mpr hmem
  have h2 := List.count_pos_iff.mpr hlast
  simp at hcount
  omega

/--
A trace with no clear in its body, and then perhaps the clear, and then writes: it is guarded if
the flag is set before the first write and nothing is written behind the clear.
-/
theorem guarded_of_marked
    (cleared : Bool)
    (n : Nat)
    (hbody : .clear ∉ body)
    (htrace : trace = body ++ ((if cleared then [.clear] else []) ++ List.replicate n .write))
    (hfirst : flag = true ∨ .write ∉ trace.takeWhile (· != .mark))
    (hlate : cleared = true → n = 0) :
    Guarded flag trace := by
  intro before after hsplit hb ha
  have hclear : .clear ∉ before := by
    cases cleared with
    | false =>
      intro hmem
      have hmem' : .clear ∈ trace := hsplit ▸ List.mem_append_left after hmem
      rw [htrace] at hmem'
      simp [hbody] at hmem'
    | true =>
      rw [hlate rfl] at htrace
      rw [htrace] at hsplit
      exact not_mem_clear_before hbody (by simpa using hsplit) (List.ne_nil_of_mem ha)
  rw [flagAfter_of_not_mem_clear hclear]
  refine hfirst.imp_right ?_
  intro hnone
  by_contra hmark
  apply hnone
  rw [hsplit, List.takeWhile_append_of_pos]
  · exact List.mem_append_left _ hb
  · intro e he
    simp only [bne_iff_ne]
    rintro rfl
    exact hmark he

end Flag

end NtfsPlus.DirtyFlag

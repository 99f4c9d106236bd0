import Mathlib.Tactic

/-!
# Sets of numbers as lists of runs

A run is a range of consecutive numbers.  A list of runs stands for the numbers in its runs
(`InRuns`).  `RunsApart g` says that the runs are sorted and that between two of them at least
`g` numbers are left out: with `g = 0` they are disjoint, with `g = 1` they do not touch.
-/

namespace NtfsPlus

/-- A range of consecutive numbers. -/
structure Run where
  lcn : Nat
  length : Nat
deriving DecidableEq

section Runs

/-- The number lies in the range from `a` on of `n` numbers. -/
def InRange (a n c : Nat) : Prop :=
  a ≤ c ∧ c < a + n

/-- The number lies in one of the runs. -/
def InRuns (l : List Run) (c : Nat) : Prop :=
  ∃ r ∈ l, InRange r.lcn r.length c

instance (l : List Run) (c : Nat) : Decidable (InRuns l c) :=
  inferInstanceAs (Decidable (∃ r ∈ l, r.lcn ≤ c ∧ c < r.lcn + r.length))

/-- Sorted runs, none of them empty, with `g` numbers between any two. -/
structure RunsApart (g : Nat) (l : List Run) : Prop where
  pos : ∀ r ∈ l, 0 < r.length
  apart : l.Pairwise fun a b => a.lcn + a.length + g ≤ b.lcn

variable {g c : Nat} {l A B : List Run} {r : Run}

theorem inRuns_append : InRuns (A ++ B) c ↔ InRuns A c ∨ InRuns B c := by
  simp only [InRuns, List.mem_append, or_and_right, exists_or]

theorem inRuns_cons : InRuns (r :: B) c ↔ InRange r.lcn r.length c ∨ InRuns B c := by
  simp [InRuns]

/-- A run between two lists of runs. -/
theorem inRuns_insert : InRuns (A ++ r :: B) c ↔ InRuns (A ++ B) c ∨ InRange r.lcn r.length c := by
  rw [inRuns_append, inRuns_append, inRuns_cons]
  tauto

/-- Runs stay apart with one more exactly when it has room between its neighbours. -/
theorem runsApart_insert_iff :
    RunsApart g (A ++ r :: B) ↔ RunsApart g (A ++ B) ∧ 0 < r.length ∧
      (∀ a ∈ A, a.lcn + a.length + g ≤ r.lcn) ∧ ∀ b ∈ B, r.lcn + r.length + g ≤ b.lcn := by
  constructor
  · rintro ⟨hpos, hapart⟩
    obtain ⟨hA, hrB, hAB⟩ := List.pairwise_append.mp hapart
    obtain ⟨hr, hB⟩ := List.pairwise_cons.mp hrB
    refine ⟨⟨fun x hx => hpos x ?_, List.pairwise_append.mpr ⟨hA, hB, fun a ha b hb =>
      hAB a ha b (List.mem_cons_of_mem r hb)⟩⟩, hpos r (by simp),
      fun a ha => hAB a ha r (by simp), hr⟩
    rcases List.mem_append.mp hx with h | h
    · simp [h]
    · simp [h]
  · rintro ⟨⟨hpos, hapart⟩, hr, hA, hB⟩
    obtain ⟨hAA, hBB, hAB⟩ := List.pairwise_append.mp hapart
    refine ⟨fun x hx => ?_, List.pairwise_append.mpr ⟨hAA, List.pairwise_cons.mpr ⟨hB, hBB⟩, ?_⟩⟩
    · rcases List.mem_append.mp hx with h | h
      · exact hpos x (by simp [h])
      · rcases List.mem_cons.mp h with rfl | h
        · exact hr
        · exact hpos x (by simp [h])
    · intro a ha b hb
      rcases List.mem_cons.mp hb with rfl | hb
      · exact hA a ha
      · exact hAB a ha b hb

/-- A number of one run, or behind it within the gap, lies in no other. -/
theorem RunsApart.not_inRuns
    (h : RunsApart g (A ++ r :: B))
    (hlo : r.lcn ≤ c)
    (hhi : c < r.lcn + r.length + g) :
    ¬InRuns (A ++ B) c := by
  obtain ⟨-, -, hA, hB⟩ := runsApart_insert_iff.mp h
  rintro ⟨x, hx, hx₁, hx₂⟩
  rcases List.mem_append.mp hx with h | h
  · have := hA x h
    omega
  · have := hB x h
    omega

/-- Where the last run ends in time, all do. -/
theorem RunsApart.ends_le
    {n : Nat}
    (h : RunsApart g l)
    (hlast : ∀ q ∈ l.getLast?, q.lcn + q.length + g ≤ n) :
    ∀ a ∈ l, a.lcn + a.length + g ≤ n := by
  intro a ha
  rcases l.eq_nil_or_concat' with rfl | ⟨A', q, rfl⟩
  · cases ha
  have hq := hlast q (by simp)
  rcases List.mem_append.mp ha with ha | ha
  · have := (List.pairwise_append.mp h.apart).2.2 a ha q (by simp)
    omega
  · rw [List.mem_singleton.mp ha]
    exact hq

theorem RunsApart.left
    (h : RunsApart g (A ++ B)) :
    RunsApart g A :=
  ⟨fun a ha => h.pos a (List.mem_append_left B ha), (List.pairwise_append.mp h.apart).1⟩

/-- Runs that keep a distance keep every smaller one. -/
theorem RunsApart.mono
    {g' : Nat}
    (h : RunsApart g l)
    (hle : g' ≤ g) :
    RunsApart g' l :=
  ⟨h.pos, h.apart.imp fun hab => by omega⟩

end Runs

end NtfsPlus

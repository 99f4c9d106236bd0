import Mathlib.Tactic
import Mathlib.Data.Prod.Lex
import Mathlib.Order.Lex
import Mathlib.Data.List.Lex

/-!
# Comparison codes and lexicographic order

A comparison function of C returns a negative number, zero or a positive
number.  `Decides c a b` says that `c` is such an answer for `a` and `b`.  The
rest is about sequences given by their elements: their lexicographic order is
decided at the first difference, or by the lengths if there is none.
-/

namespace NtfsPlus

section Codes

variable {α : Type}

/-- The code `c` says how `a` and `b` compare. -/
def Decides [LT α] (c : Int) (a b : α) : Prop :=
  (c < 0 ∧ a < b) ∨ (c = 0 ∧ a = b) ∨ (0 < c ∧ b < a)

/-- A negative code says that the first one is smaller. -/
theorem Decides.neg_iff
    [LinearOrder α] {c : Int} {a b : α}
    (h : Decides c a b) :
    c < 0 ↔ a < b := by
  rcases h with ⟨hc, hab⟩ | ⟨hc, hab⟩ | ⟨hc, hab⟩
  · exact ⟨fun _ => hab, fun _ => hc⟩
  · exact ⟨fun h => by omega, fun h => absurd h (by rw [hab]; exact lt_irrefl b)⟩
  · exact ⟨fun h => by omega, fun h => absurd h (not_lt_of_gt hab)⟩

/-- The code zero says that both are equal. -/
theorem Decides.zero_iff
    [LinearOrder α] {c : Int} {a b : α}
    (h : Decides c a b) :
    c = 0 ↔ a = b := by
  rcases h with ⟨hc, hab⟩ | ⟨hc, hab⟩ | ⟨hc, hab⟩
  · exact ⟨fun h => by omega, fun h => absurd hab (by rw [h]; exact lt_irrefl b)⟩
  · exact ⟨fun _ => hab, fun _ => hc⟩
  · exact ⟨fun h => by omega, fun h => absurd hab (by rw [h]; exact lt_irrefl b)⟩

/-- A code for one order is one for another that agrees with it. -/
theorem Decides.imp
    {β : Type} [LT α] [LT β] {c : Int} {a a' : α} {b b' : β}
    (h : Decides c a a')
    (hlt : a < a' → b < b')
    (heq : a = a' → b = b')
    (hgt : a' < a → b' < b) :
    Decides c b b' :=
  Or.imp (And.imp_right hlt) (Or.imp (And.imp_right heq) (And.imp_right hgt)) h

theorem decides_toLex_left
    {β : Type} [LinearOrder α] [LT β] {c : Int} {a a' : α} {b b' : β}
    (h : Decides c a a')
    (hc : c ≠ 0) :
    Decides c (toLex (a, b)) (toLex (a', b')) :=
  h.imp (fun h => Prod.Lex.toLex_lt_toLex.mpr (Or.inl h))
    (fun heq => absurd (h.zero_iff.mpr heq) hc)
    (fun h => Prod.Lex.toLex_lt_toLex.mpr (Or.inl h))

theorem decides_toLex_right
    {β : Type} [LinearOrder α] [LT β] {c : Int} {a : α} {b b' : β}
    (h : Decides c b b') :
    Decides c (toLex (a, b)) (toLex (a, b')) :=
  h.imp (fun h => Prod.Lex.toLex_lt_toLex.mpr (Or.inr ⟨rfl, h⟩)) (congrArg _)
    (fun h => Prod.Lex.toLex_lt_toLex.mpr (Or.inr ⟨rfl, h⟩))

/-- The second code is asked for when the first one says nothing. -/
theorem Decides.lex
    {β : Type} [LinearOrder α] [LinearOrder β] {c d : Int} {a a' : α} {b b' : β}
    (h : Decides c a a')
    (hd : Decides d b b') :
    Decides (if c ≠ 0 then c else d) (toLex (a, b)) (toLex (a', b')) := by
  split_ifs with hc
  · exact decides_toLex_left h hc
  · obtain rfl := h.zero_iff.mp (not_not.mp hc)
    exact decides_toLex_right hd

/-- Comparing `a` and `b` first, and going on to the code `c` when they are equal. -/
theorem decides_threeWay_then
    {β : Type} [LinearOrder α] [LT β] {a b : α} {c : Int} {x y : β}
    (hne : ∀ d, Decides d a b → a ≠ b → Decides d x y)
    (heq : a = b → Decides c x y) :
    Decides (if a < b then (-1 : Int) else if a > b then 1 else c) x y := by
  rcases lt_trichotomy a b with hlt | rfl | hgt
  · rw [if_pos hlt]
    exact hne _ (Or.inl ⟨by decide, hlt⟩) hlt.ne
  · rw [if_neg (lt_irrefl a), if_neg (lt_irrefl a)]
    exact heq rfl
  · rw [if_neg (not_lt_of_gt hgt), if_pos hgt]
    exact hne _ (Or.inr (Or.inr ⟨by decide, hgt⟩)) hgt.ne'

/-- The usual three-way comparison. -/
theorem decides_threeWay
    [LinearOrder α]
    (a b : α) :
    Decides (if a < b then (-1 : Int) else if a > b then 1 else 0) a b :=
  decides_threeWay_then (fun _ h _ => h) (fun h => Or.inr (Or.inl ⟨rfl, h⟩))

/-- A positive code says that the second one is smaller. -/
theorem Decides.pos_iff
    [LinearOrder α] {c : Int} {a b : α}
    (h : Decides c a b) :
    0 < c ↔ b < a := by
  have hneg := h.neg_iff
  have hzero := h.zero_iff
  constructor
  · intro hc
    rcases lt_trichotomy a b with hlt | heq | hgt
    · exact absurd (hneg.mpr hlt) (by omega)
    · exact absurd (hzero.mpr heq) (by omega)
    · exact hgt
  · intro hgt
    have h1 : ¬ c < 0 := fun hc => not_lt_of_gt hgt (hneg.mp hc)
    have h2 : c ≠ 0 := fun hc => absurd hgt (by rw [hzero.mp hc]; exact lt_irrefl b)
    omega

/-- The codes of a three-way comparison. -/
def IsCode (c : Int) : Prop :=
  c = -1 ∨ c = 0 ∨ c = 1

theorem IsCode.threeWay
    {c : Int}
    (h : IsCode c)
    (lt gt : Prop)
    [Decidable lt] [Decidable gt] :
    IsCode (if lt then -1 else if gt then 1 else c) := by
  split
  · exact Or.inl rfl
  · split
    · exact Or.inr (Or.inr rfl)
    · exact h

/-- A comparison function orders what it compares, up to what it takes for the same. -/
structure IsComparison {N : Type} (cmp : N → N → Int) : Prop where
  refl : ∀ a, cmp a a = 0
  antisymm : ∀ a b, cmp b a < 0 ↔ 0 < cmp a b
  trans : ∀ a b c, cmp a b < 0 → cmp b c < 0 → cmp a c < 0
  trans_zero : ∀ a b c, cmp a b = 0 → cmp b c = 0 → cmp a c = 0
  zero_left : ∀ a b c, cmp a b = 0 → cmp b c < 0 → cmp a c < 0
  zero_right : ∀ a b c, cmp a b < 0 → cmp b c = 0 → cmp a c < 0

/-- What decides an order of keys is a comparison. -/
theorem isComparison_of_decides
    {N : Type} [LinearOrder α] {cmp : N → N → Int} {key : N → α}
    (h : ∀ a b, Decides (cmp a b) (key a) (key b)) :
    IsComparison cmp where
  refl a := (h a a).zero_iff.mpr rfl
  antisymm a b := by rw [(h b a).neg_iff, (h a b).pos_iff]
  trans a b c hab hbc := by
    rw [(h a b).neg_iff] at hab
    rw [(h b c).neg_iff] at hbc
    exact (h a c).neg_iff.mpr (lt_trans hab hbc)
  trans_zero a b c hab hbc := by
    rw [(h a b).zero_iff] at hab
    rw [(h b c).zero_iff] at hbc
    exact (h a c).zero_iff.mpr (hab.trans hbc)
  zero_left a b c hab hbc := by
    rw [(h a b).zero_iff] at hab
    rw [(h b c).neg_iff] at hbc
    exact (h a c).neg_iff.mpr (hab ▸ hbc)
  zero_right a b c hab hbc := by
    rw [(h a b).neg_iff] at hab
    rw [(h b c).zero_iff] at hbc
    exact (h a c).neg_iff.mpr (hbc ▸ hab)

end Codes

section Sequences

variable {α : Type}

/-- The first `n` elements of a sequence. -/
def seqList (f : Nat → α) (n : Nat) : List α :=
  (List.range n).map f

@[simp] theorem length_seqList
    (f : Nat → α)
    (n : Nat) :
    (seqList f n).length = n := by
  simp [seqList]

@[simp] theorem getElem_seqList
    (f : Nat → α)
    (n : Nat)
    {i : Nat}
    (hi : i < (seqList f n).length) :
    (seqList f n)[i] = f i := by
  simp [seqList]

variable {n m p : Nat} {f g : Nat → Nat} {c : Int}

theorem seqList_congr
    {f g : Nat → α}
    (h : ∀ i < n, f i = g i) :
    seqList f n = seqList g n := by
  apply List.map_congr_left
  intro i hi
  exact h i (List.mem_range.mp hi)

/-- The first difference decides. -/
theorem seqList_lt_of_diff
    [LT α] {f g : Nat → α}
    (hm : p < m)
    (hn : p < n)
    (heq : ∀ i < p, f i = g i)
    (hlt : f p < g p) :
    seqList f m < seqList g n := by
  rw [List.lt_iff_exists]
  exact Or.inr ⟨p, by simpa using hm, by simpa using hn, by simpa using heq, by simpa using hlt⟩

/-- A proper beginning comes first. -/
theorem seqList_lt_of_length
    [LT α] {f g : Nat → α}
    (hlt : m < n)
    (heq : ∀ i < m, f i = g i) :
    seqList f m < seqList g n := by
  rw [List.lt_iff_exists]
  refine Or.inl ⟨?_, by simpa using hlt⟩
  apply List.ext_getElem
  · simp only [length_seqList, List.length_take]
    omega
  · intro i hi _
    simp only [List.getElem_take, getElem_seqList]
    exact heq i (by simpa using hi)

theorem decides_seqList_of_diff
    (hm : p < m)
    (hn : p < n)
    (heq : ∀ i < p, f i = g i)
    (hc : Decides c (f p) (g p))
    (hne : f p ≠ g p) :
    Decides c (seqList f m) (seqList g n) :=
  hc.imp (seqList_lt_of_diff hm hn heq) (fun h => absurd h hne)
    (seqList_lt_of_diff hn hm (fun i hi => (heq i hi).symm))

theorem decides_seqList_of_agree
    (heq : ∀ i < min m n, f i = g i)
    (hc : Decides c m n) :
    Decides c (seqList f m) (seqList g n) := by
  refine hc.imp (fun hlt => seqList_lt_of_length hlt (fun i hi => heq i (by omega))) ?_
    (fun hgt => seqList_lt_of_length hgt (fun i hi => (heq i (by omega)).symm))
  rintro rfl
  exact seqList_congr (fun i hi => heq i (by omega))

/-- Index `r` is the first below `n` where the sequences differ, or the last one. -/
structure FirstDiff (f g : Nat → Nat) (n r : Nat) : Prop where
  lt : r < n
  before : ∀ i < r, f i = g i
  same : f r = g r → ∀ i < n, f i = g i

/-- A loop that goes on while the sequences agree ends at the first difference. -/
theorem exists_firstDiff
    {L : Nat → Nat → Nat × Nat}
    (hlast : ∀ i, L 0 i = (f i, g i))
    (hnext : ∀ n i, L (n + 1) i = if f i = g i then L n (i + 1) else (f i, g i))
    (n i : Nat)
    (hbefore : ∀ j < i, f j = g j) :
    ∃ r, FirstDiff f g (i + n + 1) r ∧ L n i = (f r, g r) := by
  induction n generalizing i with
  | zero =>
    exact ⟨i, ⟨Nat.lt_succ_self i, hbefore, fun heq => Nat.forall_lt_succ_right.mpr ⟨hbefore, heq⟩⟩,
      hlast i⟩
  | succ n ih =>
    rw [hnext]
    split_ifs with heq
    · obtain ⟨r, hr, hval⟩ := ih (i + 1) (Nat.forall_lt_succ_right.mpr ⟨hbefore, heq⟩)
      rw [show i + 1 + n = i + (n + 1) by omega] at hr
      exact ⟨r, hr, hval⟩
    · exact ⟨i, ⟨by omega, hbefore, fun h => absurd h heq⟩, rfl⟩

/-- Comparing at the first difference, and by the lengths when there is none. -/
theorem FirstDiff.decides
    (h : FirstDiff f g (min m n) p)
    (hc : Decides c m n) :
    Decides (if f p < g p then (-1 : Int) else if f p > g p then 1 else c)
      (seqList f m) (seqList g n) :=
  decides_threeWay_then (fun _ hd hne =>
      decides_seqList_of_diff (by have := h.lt; omega) (by have := h.lt; omega) h.before hd hne)
    (fun heq => decides_seqList_of_agree (h.same heq) hc)

end Sequences

end NtfsPlus

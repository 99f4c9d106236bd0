import Mathlib.Data.List.Nodup

/-!
# Keyed indexes

An index holds entries, a key with its data, and no key twice.  `add?` refuses a
key that is present, `remove` takes an entry out, and `select` lists the entries
with some property, for instance those of one owner.
-/

namespace NtfsPlus

/-- Entries with pairwise different keys. -/
structure KeyedIndex (K D : Type) where
  entries : List (K × D)
  nodup : (entries.map Prod.fst).Nodup

namespace KeyedIndex

variable {K D : Type}

/-- The index without an entry. -/
def empty : KeyedIndex K D :=
  ⟨[], List.nodup_nil⟩

/-- The entries with a property. -/
def select (x : KeyedIndex K D) (p : K × D → Bool) : List (K × D) :=
  x.entries.filter p

variable (x : KeyedIndex K D) (k : K)

@[simp] theorem mem_select
    (p : K × D → Bool)
    (e : K × D) :
    e ∈ x.select p ↔ e ∈ x.entries ∧ p e = true := by
  simp [select]

variable [DecidableEq K]

/-- The data stored under a key. -/
def find? (x : KeyedIndex K D) (k : K) : Option D :=
  (x.entries.find? fun e => decide (e.1 = k)).map Prod.snd

/-- The index without the entry of a key. -/
def remove (x : KeyedIndex K D) (k : K) : KeyedIndex K D where
  entries := x.entries.filter fun e => decide (e.1 ≠ k)
  nodup := x.nodup.sublist (List.filter_sublist.map Prod.fst)

/-- The index with one more entry, unless its key is present. -/
def add? (x : KeyedIndex K D) (k : K) (d : D) : Option (KeyedIndex K D) :=
  if h : k ∈ x.entries.map Prod.fst then
    none
  else
    some ⟨(k, d) :: x.entries, List.nodup_cons.mpr ⟨h, x.nodup⟩⟩

/-- A key is not found exactly when no entry has it. -/
theorem find?_eq_none : x.find? k = none ↔ k ∉ x.entries.map Prod.fst := by
  rw [find?, Option.map_eq_none_iff, List.find?_eq_none, List.mem_map]
  constructor
  · rintro h ⟨e, he, hk⟩
    exact h e he (by rwa [decide_eq_true_eq])
  · intro h e he hk
    rw [decide_eq_true_eq] at hk
    exact h ⟨e, he, hk⟩

theorem remove_of_find?_none
    {x : KeyedIndex K D} {k : K}
    (h : x.find? k = none) :
    x.remove k = x := by
  rw [find?_eq_none] at h
  have hall : x.entries.filter (fun e => decide (e.1 ≠ k)) = x.entries := by
    rw [List.filter_eq_self]
    intro e he
    rw [decide_eq_true_eq]
    intro hk
    exact h (hk ▸ List.mem_map_of_mem he)
  cases x
  simpa [remove] using hall

/-- Only a key that is there is refused. -/
theorem add?_eq_none
    (d : D) :
    x.add? k d = none ↔ x.find? k ≠ none := by
  rw [add?, Ne, find?_eq_none]
  by_cases h : k ∈ x.entries.map Prod.fst
  · simp [h]
  · simp [h]

/-- An addition adds one entry. -/
theorem entries_of_add?
    {x y : KeyedIndex K D} {k : K} {d : D}
    (h : x.add? k d = some y) :
    y.entries = (k, d) :: x.entries := by
  rw [add?] at h
  by_cases hk : k ∈ x.entries.map Prod.fst
  · rw [dif_pos hk] at h
    cases h
  · rw [dif_neg hk] at h
    cases h
    rfl

theorem select_of_add?
    {x y : KeyedIndex K D} {k : K} {d : D}
    (h : x.add? k d = some y)
    {p : K × D → Bool}
    (hp : p (k, d) = true) :
    y.select p = (k, d) :: x.select p := by
  rw [select, entries_of_add? h, List.filter_cons_of_pos hp]
  rfl

end KeyedIndex
end NtfsPlus

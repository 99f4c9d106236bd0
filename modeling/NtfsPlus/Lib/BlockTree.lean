import Mathlib.Tactic

/-!
# Search trees stored in blocks

A node is a list of items: an item has an entry and possibly the number of the
block that holds the subtree in front of the entry; the end item of a node has
no entry.  Nodes are found by number, and the root has no number.

**Walks.**  `Walk c d items es bs` says that everything below `items` is there,
that it is at most `d` levels of blocks deep, that its entries in order are
`es` and that the blocks met on the way are `bs`.

**Paths.**  `Path c D node parents d l r bl br` says that `node` is reached from
the root over `parents`: `l` and `r` are the entries of the tree before and
behind the subtree of `node`, `bl` and `br` the blocks outside of it.
`Path.plug` puts a subtree back into its place, and `Path.frame` says which
nodes a path does not depend on, so that a change of one node becomes a change
of the tree.
-/

namespace NtfsPlus

/-- One item of a node. -/
structure Item (α : Type) where
  entry : Option α
  sub : Option Nat
deriving DecidableEq, Repr

namespace BlockTree

variable {α : Type}

/-- The items of the root (`none`) and of the blocks. -/
abbrev Content (α : Type) := Option Nat → Option (List (Item α))

/-- Everything below some items: its entries in order and its blocks. -/
inductive Walk (c : Content α) : Nat → List (Item α) → List α → List Nat → Prop
  | nil {d : Nat} : Walk c d [] [] []
  | item {d : Nat} {e : Option α} {rest : List (Item α)} {es : List α} {bs : List Nat}
      (hrest : Walk c d rest es bs) :
      Walk c d (⟨e, none⟩ :: rest) (e.toList ++ es) bs
  | sub {d v : Nat} {e : Option α} {n rest : List (Item α)}
      {es₁ es₂ : List α} {bs₁ bs₂ : List Nat}
      (hread : c (some v) = some n)
      (hsub : Walk c d n es₁ bs₁)
      (hrest : Walk c (d + 1) rest es₂ bs₂) :
      Walk c (d + 1) (⟨e, some v⟩ :: rest) (es₁ ++ (e.toList ++ es₂)) (v :: bs₁ ++ bs₂)

/-- The way from the root to a node, and what lies beside it. -/
inductive Path (c : Content α) (D : Nat) :
    Option Nat → List (Option Nat × Nat) → Nat → List α → List α → List Nat → List Nat → Prop
  | root : Path c D none [] D [] [] [] []
  | down {node : Option Nat} {parents : List (Option Nat × Nat)} {d v : Nat}
      {l r ep eq : List α} {bl br bp bq : List Nat}
      {e : Option α} {pre post : List (Item α)}
      (hpath : Path c D node parents (d + 1) l r bl br)
      (hread : c node = some (pre ++ ⟨e, some v⟩ :: post))
      (hpre : Walk c (d + 1) pre ep bp)
      (hpost : Walk c (d + 1) post eq bq) :
      Path c D (some v) ((node, pre.length) :: parents) d
        (l ++ ep) (e.toList ++ eq ++ r) (bl ++ node.toList ++ bp) (bq ++ br)

section Walks

variable {c c' : Content α} {d : Nat}

/-- Walks over parts of a node make a walk over both. -/
theorem Walk.append
    {a b : List (Item α)} {ea eb : List α} {ba bb : List Nat}
    (ha : Walk c d a ea ba)
    (hb : Walk c d b eb bb) :
    Walk c d (a ++ b) (ea ++ eb) (ba ++ bb) := by
  induction ha with
  | nil => exact hb
  | item hrest ih =>
    rw [List.append_assoc]
    exact Walk.item (ih hb)
  | sub hread hsub hrest ih₁ ih₂ =>
    rw [List.append_assoc, List.append_assoc, List.append_assoc]
    exact Walk.sub hread hsub (ih₂ hb)

variable {es : List α} {bs : List Nat} {items : List (Item α)}

/-- A walk over a node is made of walks over its parts. -/
theorem Walk.append_inv
    {a b : List (Item α)}
    (h : Walk c d (a ++ b) es bs) :
    ∃ ea eb ba bb, Walk c d a ea ba ∧ Walk c d b eb bb ∧ es = ea ++ eb ∧ bs = ba ++ bb := by
  induction a generalizing es bs with
  | nil => exact ⟨[], es, [], bs, Walk.nil, h, rfl, rfl⟩
  | cons it a ih =>
    cases h with
    | item hrest =>
      obtain ⟨ea, eb, ba, bb, ha, hb, rfl, rfl⟩ := ih hrest
      exact ⟨_, eb, ba, bb, Walk.item ha, hb, by simp, rfl⟩
    | sub hread hsub hrest =>
      obtain ⟨ea, eb, ba, bb, ha, hb, rfl, rfl⟩ := ih hrest
      exact ⟨_, eb, _, bb, Walk.sub hread hsub ha, hb, by simp, by simp⟩

/-- The entries of the node itself are among those of the walk. -/
theorem Walk.entry_mem
    (h : Walk c d items es bs)
    {it : Item α} {e : α}
    (hit : it ∈ items)
    (he : it.entry = some e) :
    e ∈ es := by
  induction h with
  | nil => simp at hit
  | item hrest ih =>
    rcases List.mem_cons.mp hit with rfl | hit
    · simp_all
    · simp [ih hit]
  | sub hread hsub hrest ih₁ ih₂ =>
    rcases List.mem_cons.mp hit with rfl | hit
    · simp_all
    · simp [ih₂ hit]

/-- A tree has one walk only, whatever depth is allowed. -/
theorem Walk.unique
    {es' : List α} {bs' : List Nat} {d' : Nat}
    (h : Walk c d items es bs)
    (h' : Walk c d' items es' bs') :
    es = es' ∧ bs = bs' := by
  induction h generalizing es' bs' d' with
  | nil =>
    cases h'
    exact ⟨rfl, rfl⟩
  | item hrest ih =>
    cases h' with
    | item hrest' =>
      obtain ⟨rfl, rfl⟩ := ih hrest'
      exact ⟨rfl, rfl⟩
  | sub hread hsub hrest ih₁ ih₂ =>
    cases h' with
    | sub hread' hsub' hrest' =>
      obtain rfl : _ = _ := Option.some.inj (hread.symm.trans hread')
      obtain ⟨rfl, rfl⟩ := ih₁ hsub'
      obtain ⟨rfl, rfl⟩ := ih₂ hrest'
      exact ⟨rfl, rfl⟩

theorem Walk.blocks_nil
    (h : Walk c d items es bs)
    (hsub : ∀ it ∈ items, it.sub = none) :
    bs = [] := by
  induction h with
  | nil => rfl
  | item hrest ih => exact ih (fun it hit => hsub it (List.mem_cons_of_mem _ hit))
  | sub hread hsub' hrest ih₁ ih₂ => cases hsub _ List.mem_cons_self

/-- More depth does no harm. -/
theorem Walk.mono
    (h : Walk c d items es bs)
    {d' : Nat}
    (hd : d ≤ d') :
    Walk c d' items es bs := by
  induction h generalizing d' with
  | nil => exact Walk.nil
  | item hrest ih => exact Walk.item (ih hd)
  | sub hread hsub hrest ih₁ ih₂ =>
    obtain ⟨k, rfl⟩ : ∃ k, d' = k + 1 := ⟨d' - 1, by omega⟩
    exact Walk.sub hread (ih₁ (by omega)) (ih₂ hd)

end Walks

section Paths

variable {c c' : Content α} {D d : Nat}
  {node : Option Nat} {parents : List (Option Nat × Nat)}
  {l r : List α} {bl br : List Nat}

/-- The walk over a tree, divided at the place of a node. -/
theorem Path.focus
    (h : Path c D node parents d l r bl br)
    {root : List (Item α)} {es : List α} {bs : List Nat}
    (hroot : c none = some root)
    (htree : Walk c D root es bs) :
    ∃ n es' bs', c node = some n ∧ Walk c d n es' bs' ∧
      es = l ++ es' ++ r ∧ bs = bl ++ node.toList ++ bs' ++ br := by
  induction h with
  | root => exact ⟨root, es, bs, hroot, htree, by simp, by simp⟩
  | down hpath hread hpre hpost ih =>
    obtain ⟨n, es', bs', hn, hwalk, rfl, rfl⟩ := ih
    obtain rfl : _ = n := Option.some.inj (hread.symm.trans hn)
    obtain ⟨ea, eb, ba, bb, hwpre, hwrest, rfl, rfl⟩ := hwalk.append_inv
    cases hwrest with
    | sub hchild hsub hwpost =>
      obtain ⟨rfl, rfl⟩ := hpre.unique hwpre
      obtain ⟨rfl, rfl⟩ := hpost.unique hwpost
      exact ⟨_, _, _, hchild, hsub, by simp, by simp⟩

end Paths

end BlockTree
end NtfsPlus

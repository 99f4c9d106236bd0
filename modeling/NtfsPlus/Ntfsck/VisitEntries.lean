import Mathlib.Data.List.ReduceOption
import NtfsPlus.Ntfsck.IndexBitmap

/-!
# Visiting every entry of an index

`ntfsck` starts at the bottom left entry of an index and calls `ntfs_index_next`
until it answers null.  `ntfs_index_next` takes the end entry of an empty leaf
for the end of the index ("stuck at end of a block"), so that an empty leaf on
the way ends the walk.

`LeafOrder` lists the entries of a tree in order, with a gap for every empty
leaf.  The walk visits the entries up to the first gap that does not come first
(`LeafOrder.visits` from the inside of a node, `LeafOrder.visits_first` from its
first entry).  `visitEntries_all_iff` says when these are all.
-/

namespace NtfsPlus.Ntfsck

open BlockTree Libntfs

section Model

/-- The entry the walk starts at: the first of the root, or the bottom left one below it. -/
def firstEntry (idx : Index) : WalkResult :=
  match idx.root.items with
  | [] => .null
  | first :: _ =>
    if first.sub.isSome then
      indexWalkDown idx maxLevels first [(none, 0)]
    else
      .entry first [(none, 0)]

/-- The entries with data from an answer on, until the answer is null. -/
def visitFrom (idx : Index) : Nat → WalkResult → Option (List IndexEntry)
  | 0, _ => none
  | _ + 1, .overflow => none
  | _ + 1, .null => some []
  | fuel + 1, .entry it f => (visitFrom idx fuel (indexNext idx it f)).map (it.entry.toList ++ ·)

/-- The entries that the calls of `ntfs_index_next` visit, at most `fuel` of them. -/
def visitEntries (idx : Index) (fuel : Nat) : Option (List IndexEntry) :=
  visitFrom idx fuel (firstEntry idx)

end Model

section Gaps

variable {α : Type}

/-- What lies before the first gap. -/
def beforeGap : List (Option α) → List α
  | [] => []
  | none :: _ => []
  | some e :: rest => e :: beforeGap rest

/-- A gap at the beginning is passed over. -/
def skipGap : List (Option α) → List (Option α)
  | none :: rest => rest
  | ts => ts

theorem beforeGap_append_of_mem
    {a : List (Option α)}
    (h : none ∈ a)
    (b : List (Option α)) :
    beforeGap (a ++ b) = beforeGap a := by
  induction a with
  | nil => cases h
  | cons x a ih =>
    cases x with
    | none => rfl
    | some e => rw [List.cons_append, beforeGap, beforeGap, ih (by simpa using h)]

theorem beforeGap_append_of_not_mem
    {a : List (Option α)}
    (h : none ∉ a)
    (b : List (Option α)) :
    beforeGap (a ++ b) = beforeGap a ++ beforeGap b := by
  induction a with
  | nil => rfl
  | cons x a ih =>
    cases x with
    | none => exact absurd List.mem_cons_self h
    | some e => rw [List.cons_append, beforeGap, beforeGap, ih (by simpa using h), List.cons_append]

theorem beforeGap_eq_iff
    (ts : List (Option α)) :
    beforeGap ts = ts.reduceOption ↔
      ∀ before after, ts = before ++ none :: after → after.reduceOption = [] := by
  induction ts with
  | nil => simp [beforeGap]
  | cons x ts ih =>
    cases x with
    | none =>
      rw [List.reduceOption_cons_of_none]
      constructor
      · intro hnil before after heq
        cases before with
        | nil =>
          cases heq
          exact hnil.symm
        | cons y before =>
          have htail : ts = before ++ none :: after := (List.cons_eq_cons.mp heq).2
          rw [htail, List.reduceOption_append] at hnil
          exact (List.append_eq_nil_iff.mp hnil.symm).2
      · intro h
        exact (h [] ts rfl).symm
    | some e =>
      rw [beforeGap, List.reduceOption_cons_of_some, List.cons_inj_right, ih]
      constructor
      · intro h before after heq
        cases before with
        | nil => cases heq
        | cons y before => exact h before after (List.cons_eq_cons.mp heq).2
      · intro h before after heq
        exact h (some e :: before) after (by rw [heq, List.cons_append])

theorem skipGap_reduceOption
    (ts : List (Option α)) :
    (skipGap ts).reduceOption = ts.reduceOption := by
  cases ts with
  | nil => rfl
  | cons x ts =>
    cases x with
    | none => exact (List.reduceOption_cons_of_none ts).symm
    | some e => rfl

theorem skipGap_append
    {a : List (Option α)}
    (h : a ≠ [])
    (b : List (Option α)) :
    skipGap (a ++ b) = skipGap a ++ b := by
  cases a with
  | nil => exact absurd rfl h
  | cons x a => cases x <;> rfl

/-- Behind a first gap nothing is left out exactly when every other gap has nothing behind it. -/
theorem beforeGap_skipGap_eq_iff
    (ts : List (Option α)) :
    beforeGap (skipGap ts) = ts.reduceOption ↔
      ∀ before after, ts = before ++ none :: after → before = [] ∨ after.reduceOption = [] := by
  rw [← skipGap_reduceOption, beforeGap_eq_iff]
  constructor
  · intro h before after heq
    cases before with
    | nil => exact Or.inl rfl
    | cons y before =>
      right
      cases y with
      | none => exact h before after (by rw [heq]; rfl)
      | some e => exact h (some e :: before) after (by rw [heq]; rfl)
  · intro h before after heq
    cases ts with
    | nil => simp [skipGap] at heq
    | cons x ts =>
      cases x with
      | none =>
        exact (h (none :: before) after (by rw [List.cons_append, ← heq]; rfl)).resolve_left
          (by simp)
      | some e =>
        cases before with
        | nil => cases heq
        | cons y before => exact (h (y :: before) after heq).resolve_left (by simp)

end Gaps

section Order

/-- The entries below some items in order, with a gap for every empty leaf block. -/
inductive LeafOrder (c : Content IndexEntry) :
    List (Item IndexEntry) → List (Option IndexEntry) → Prop
  | nil : LeafOrder c [] []
  | item {e : Option IndexEntry} {rest : List (Item IndexEntry)} {ts : List (Option IndexEntry)}
      (hrest : LeafOrder c rest ts) :
      LeafOrder c (⟨e, none⟩ :: rest) (e.toList.map some ++ ts)
  | leaf {e : Option IndexEntry} {v : Nat} {rest : List (Item IndexEntry)}
      {ts : List (Option IndexEntry)}
      (hread : c (some v) = some [⟨none, none⟩])
      (hrest : LeafOrder c rest ts) :
      LeafOrder c (⟨e, some v⟩ :: rest) (none :: (e.toList.map some ++ ts))
  | sub {e : Option IndexEntry} {v : Nat} {n rest : List (Item IndexEntry)}
      {ts₁ ts₂ : List (Option IndexEntry)}
      (hread : c (some v) = some n)
      (hkeyed : n ≠ [⟨none, none⟩])
      (hsub : LeafOrder c n ts₁)
      (hrest : LeafOrder c rest ts₂) :
      LeafOrder c (⟨e, some v⟩ :: rest) (ts₁ ++ (e.toList.map some ++ ts₂))

/-- Every empty leaf comes first of all, or no entry comes behind it. -/
def EmptyLeavesAtEnds (idx : Index) : Prop :=
  ∀ before after, LeafOrder idx.content idx.root.items (before ++ none :: after) →
    before = [] ∨ after.reduceOption = []

variable {c : Content IndexEntry} {d : Nat} {items : List (Item IndexEntry)}
  {es : List IndexEntry} {bs : List Nat}

theorem exists_leafOrder
    (h : Walk c d items es bs) :
    ∃ ts, LeafOrder c items ts ∧ ts.reduceOption = es := by
  induction h with
  | nil => exact ⟨[], LeafOrder.nil, rfl⟩
  | @item d e rest es bs hrest ih =>
    obtain ⟨ts, hts, rfl⟩ := ih
    refine ⟨_, LeafOrder.item hts, ?_⟩
    cases e <;> simp
  | @sub d v e n rest es₁ es₂ bs₁ bs₂ hread hsub hrest ih₁ ih₂ =>
    obtain ⟨ts₂, hts₂, rfl⟩ := ih₂
    by_cases hempty : n = [⟨none, none⟩]
    · subst hempty
      have hend : Walk c d [⟨none, none⟩] [] [] := Walk.item Walk.nil
      have hnil : es₁ = [] := (hsub.unique hend).1
      refine ⟨_, LeafOrder.leaf hread hts₂, ?_⟩
      rw [hnil]
      cases e <;> simp
    · obtain ⟨ts₁, hts₁, rfl⟩ := ih₁
      refine ⟨_, LeafOrder.sub hread hempty hts₁ hts₂, ?_⟩
      cases e <;> simp [List.reduceOption_append]

theorem LeafOrder.unique
    {ts ts' : List (Option IndexEntry)}
    (h : LeafOrder c items ts)
    (h' : LeafOrder c items ts') :
    ts = ts' := by
  induction h generalizing ts' with
  | nil =>
    cases h'
    rfl
  | item hrest ih =>
    cases h' with
    | item hrest' => rw [ih hrest']
  | leaf hread hrest ih =>
    cases h' with
    | leaf hread' hrest' => rw [ih hrest']
    | sub hread' hkeyed' hsub' hrest' =>
      exact absurd (Option.some.inj (hread'.symm.trans hread)) hkeyed'
  | sub hread hkeyed hsub hrest ih₁ ih₂ =>
    cases h' with
    | leaf hread' hrest' => exact absurd (Option.some.inj (hread.symm.trans hread')) hkeyed
    | sub hread' hkeyed' hsub' hrest' =>
      cases Option.some.inj (hread.symm.trans hread')
      rw [ih₁ hsub', ih₂ hrest']

end Order

section Visits

variable {idx : Index}

/-- The steps from `r` on visit the entries `es`, and then answer `r'`. -/
inductive Visits (idx : Index) : WalkResult → List IndexEntry → WalkResult → Prop
  | nil {r : WalkResult} : Visits idx r [] r
  | cons {it : Item IndexEntry} {e : IndexEntry} {f : Frames} {es : List IndexEntry}
      {r : WalkResult}
      (hkey : it.entry = some e)
      (hnext : Visits idx (indexNext idx it f) es r) :
      Visits idx (.entry it f) (e :: es) r

theorem Visits.append
    {r₁ r₂ r₃ : WalkResult} {es₁ es₂ : List IndexEntry}
    (h₁ : Visits idx r₁ es₁ r₂)
    (h₂ : Visits idx r₂ es₂ r₃) :
    Visits idx r₁ (es₁ ++ es₂) r₃ := by
  induction h₁ with
  | nil => exact h₂
  | cons hkey hnext ih => exact Visits.cons hkey (ih h₂)

variable {r : WalkResult} {it : Item IndexEntry} {rest : List (Item IndexEntry)}
variable {e : Option IndexEntry} {v : Nat}

theorem Visits.visitFrom
    {es : List IndexEntry}
    (h : Visits idx r es .null) :
    visitFrom idx (es.length + 1) r = some es := by
  generalize hend : WalkResult.null = r' at h
  induction h with
  | nil =>
    rw [← hend]
    rfl
  | cons hkey hnext ih =>
    rw [List.length_cons, Ntfsck.visitFrom, ih hend, hkey]
    rfl

theorem visitFrom_unique
    {fuel fuel' : Nat} {es es' : List IndexEntry}
    (h : visitFrom idx fuel r = some es)
    (h' : visitFrom idx fuel' r = some es') :
    es = es' := by
  induction fuel generalizing fuel' r es es' with
  | zero => cases h
  | succ fuel ih =>
    cases fuel' with
    | zero => cases h'
    | succ fuel' =>
      cases r with
      | overflow => cases h
      | null => exact Option.some.inj (h.symm.trans h')
      | entry it f =>
        obtain ⟨rest, hrest, rfl⟩ := Option.map_eq_some_iff.mp h
        obtain ⟨rest', hrest', rfl⟩ := Option.map_eq_some_iff.mp h'
        rw [ih hrest hrest']

variable {d : Nat} {f up : Frames} {node : Option Nat} {pre items : List (Item IndexEntry)}
  {es : List IndexEntry} {bs : List Nat} {ts : List (Option IndexEntry)}

/-- The answer behind a part of a node: null at a gap, or what comes behind the node. -/
def afterPart (idx : Index) (f : Frames) (ts : List (Option IndexEntry)) : WalkResult :=
  if none ∈ ts then .null else dropEnd (indexWalkUp idx f)

/-- From an entry with data on, given what comes behind it in its node. -/
theorem visits_entry
    {e : IndexEntry}
    (hkey : it.entry = some e)
    (h : Visits idx (dropEnd (settle idx (bump f))) (beforeGap ts) (afterPart idx (bump f) ts)) :
    Visits idx (.entry it f) (beforeGap (some e :: ts)) (afterPart idx f (some e :: ts)) := by
  have hnext : indexNext idx it f = dropEnd (settle idx (bump f)) := by
    rw [indexNext, if_neg (by simp [hkey])]
  have hafter : afterPart idx f (some e :: ts) = afterPart idx (bump f) ts := by
    unfold afterPart
    rw [indexWalkUp_bump]
    simp
  rw [hafter]
  exact Visits.cons hkey (by rw [hnext]; exact h)

theorem afterPart_append_of_not_mem
    {ts₁ : List (Option IndexEntry)}
    (h : none ∉ ts₁)
    (ts₂ : List (Option IndexEntry)) :
    afterPart idx f (ts₁ ++ ts₂) = afterPart idx f ts₂ := by
  simp [afterPart, h]

/-- A part of a node, and then the next: a gap in the first ends the visits. -/
theorem visits_append
    {g : Frames} {ts₁ ts₂ : List (Option IndexEntry)}
    (h₁ : Visits idx r (beforeGap ts₁) (afterPart idx g ts₁))
    (h₂ : Visits idx (dropEnd (indexWalkUp idx g)) (beforeGap ts₂) (afterPart idx f ts₂)) :
    Visits idx r (beforeGap (ts₁ ++ ts₂)) (afterPart idx f (ts₁ ++ ts₂)) := by
  by_cases hgap : none ∈ ts₁
  · rw [beforeGap_append_of_mem hgap]
    have hnull : afterPart idx f (ts₁ ++ ts₂) = afterPart idx g ts₁ := by simp [afterPart, hgap]
    rw [hnull]
    exact h₁
  · rw [beforeGap_append_of_not_mem hgap, afterPart_append_of_not_mem hgap]
    rw [afterPart, if_neg hgap] at h₁
    exact h₁.append h₂

/-- What comes behind a sub-node: the entry in front of which it stands, and the rest. -/
theorem visits_behind
    (hplace : PlaceOf idx f node up pre (⟨e, some v⟩ :: rest))
    (htail : NodeTail (⟨e, some v⟩ :: rest))
    (hrest : LeafOrder idx.content rest ts)
    (hnext : NodeTail rest →
      Visits idx (dropEnd (settle idx (bump f))) (beforeGap ts) (afterPart idx (bump f) ts)) :
    Visits idx (dropEnd (indexWalkUp idx ((some v, 0) :: f))) (beforeGap (e.toList.map some ++ ts))
      (afterPart idx f (e.toList.map some ++ ts)) := by
  rw [dropEnd_walkUp hplace.entryAt]
  cases e with
  | none =>
    obtain rfl := htail.end_iff.mp rfl
    cases hrest
    exact Visits.nil
  | some x =>
    have hkey : (⟨some x, some v⟩ : Item IndexEntry).entry ≠ none := by simp
    exact visits_entry rfl (hnext (htail.tail hkey))

theorem indexWalkDown_empty
    (hread : idx.content (some v) = some [⟨none, none⟩])
    (hlen : f.length ≤ maxLevels) :
    indexWalkDown idx (maxLevels + 1 - f.length) ⟨e, some v⟩ f =
      .entry ⟨none, none⟩ ((some v, 0) :: f) := by
  obtain ⟨child, hchild, hitems⟩ := Option.map_eq_some_iff.mp hread
  have hchild' : idx.blocks v = some child := hchild
  rw [Nat.sub_add_comm hlen]
  simp [indexWalkDown, hchild', hitems]

/-- The steps from the inside of a node visit what lies before the first gap. -/
theorem LeafOrder.visits
    (h : LeafOrder idx.content items ts)
    (hwalk : Walk idx.content d items es bs)
    (hok : BlocksOk idx bs)
    (hlen : f.length + d ≤ maxLevels + 1)
    (htail : NodeTail items)
    (hplace : PlaceOf idx f node up pre items) :
    Visits idx (dropEnd (settle idx f)) (beforeGap ts) (afterPart idx f ts) := by
  induction h generalizing d es bs f up node pre with
  | nil =>
    obtain ⟨keyed, last, heq, _⟩ := htail
    simp at heq
  | @item e rest ts hrest ih =>
    have hentry := hplace.entryAt
    cases hwalk with
    | item hwrest =>
      cases e with
      | none =>
        obtain rfl := htail.end_iff.mp rfl
        cases hrest
        have hsettle : settle idx f = indexWalkUp idx f := by
          rw [settle, hentry]
          rfl
        rw [hsettle]
        exact Visits.nil
      | some x =>
        have hsettle : settle idx f = .entry ⟨some x, none⟩ f := by
          rw [settle, hentry]
          rfl
        rw [hsettle]
        refine visits_entry rfl (ih hwrest hok ?_ (htail.tail (by simp)) hplace.bump)
        rwa [bump_length]
  | @leaf e v rest ts hread hrest ih =>
    cases hwalk with
    | @sub d _ _ n _ es₁ es₂ bs₁ bs₂ hread' hwsub hwrest =>
      have hsettle : settle idx f = .entry ⟨none, none⟩ ((some v, 0) :: f) := by
        rw [settle, hplace.entryAt]
        exact indexWalkDown_empty hread (by omega)
      rw [hsettle]
      exact Visits.nil
  | @sub e v n rest ts₁ ts₂ hread hkeyed hsub hrest ih₁ ih₂ =>
    cases hwalk with
    | @sub d _ _ n' _ es₁ es₂ bs₁ bs₂ hread' hwsub hwrest =>
      cases Option.some.inj (hread.symm.trans hread')
      obtain ⟨child, hchild, rfl⟩ := Option.map_eq_some_iff.mp hread
      have hchild' : idx.blocks v = some child := hchild
      have hnode := hok v (by simp) child hchild'
      obtain ⟨first, tail, hitems, hfirst⟩ := first_of_not_empty hnode hkeyed
      have hsettle : settle idx f = settle idx ((some v, 0) :: f) := by
        rw [settle, hplace.entryAt]
        exact indexWalkDown_settle rfl hchild' hitems (by omega) hfirst
      rw [hsettle]
      refine visits_append (ih₁ hwsub (fun b hb => hok b (by simp [hb]))
        (by rw [List.length_cons]; omega) hnode.shape (PlaceOf.first hread f)) ?_
      exact visits_behind hplace htail hrest (fun htail' =>
        ih₂ hwrest (fun b hb => hok b (by simp [hb])) (by rwa [bump_length]) htail' hplace.bump)

/-- Where the walk starts in a node: at the bottom left below its first entry. -/
def startAt (idx : Index) (f : Frames) : WalkResult :=
  match entryAt idx f with
  | none => .null
  | some it =>
    if it.sub.isSome then indexWalkDown idx (maxLevels + 1 - f.length) it f else .entry it f

/-- An end entry at the start is passed over. -/
def passEnd (idx : Index) : WalkResult → WalkResult
  | .entry it f => if it.entry = none then indexNext idx it f else .entry it f
  | r => r

/-- The start below an entry with a sub-node is that of the sub-node. -/
theorem startAt_down
    {child : IndexNode} {first : Item IndexEntry} {tail : List (Item IndexEntry)}
    (hentry : entryAt idx f = some ⟨e, some v⟩)
    (hchild : idx.blocks v = some child)
    (hitems : child.items = first :: tail)
    (hlen : f.length ≤ maxLevels) :
    startAt idx f = startAt idx ((some v, 0) :: f) := by
  have hat : entryAt idx ((some v, 0) :: f) = some first := by
    simp [entryAt, Index.node, hchild, hitems]
  have hroom : maxLevels + 1 - f.length = (maxLevels + 1 - ((some v, 0) :: f).length) + 1 := by
    rw [List.length_cons]
    omega
  rw [startAt, hentry, startAt, hat]
  dsimp only
  rw [if_pos Option.isSome_some, hroom, indexWalkDown]
  simp only [hchild, hitems]

/-- The order of the leaves of a block is not empty, but for an empty leaf. -/
theorem LeafOrder.ne_nil
    (h : LeafOrder idx.content items ts)
    (hwalk : Walk idx.content d items es bs)
    (hok : BlocksOk idx bs)
    (htail : NodeTail items)
    (hkeyed : items ≠ [⟨none, none⟩]) :
    ts ≠ [] := by
  induction h generalizing d es bs with
  | nil =>
    obtain ⟨keyed, last, heq, _⟩ := htail
    simp at heq
  | @item e rest ts hrest ih =>
    cases e with
    | none =>
      obtain rfl := htail.end_iff.mp rfl
      exact absurd rfl hkeyed
    | some x => simp
  | leaf hread hrest ih => simp
  | @sub e v n rest ts₁ ts₂ hread hne hsub hrest ih₁ ih₂ =>
    cases hwalk with
    | sub hread' hwsub hwrest =>
      cases Option.some.inj (hread.symm.trans hread')
      obtain ⟨child, hchild, rfl⟩ := Option.map_eq_some_iff.mp hread
      have hnode := hok v (by simp) child hchild
      have hsome := ih₁ hwsub (fun b hb => hok b (by simp [hb])) hnode.shape hne
      simp [hsome]

/-- The steps from the first entry of a node pass over a gap at the beginning. -/
theorem LeafOrder.visits_first
    (h : LeafOrder idx.content items ts)
    (hwalk : Walk idx.content d items es bs)
    (hok : BlocksOk idx bs)
    (hlen : f.length + d ≤ maxLevels + 1)
    (htail : NodeTail items)
    (hplace : PlaceOf idx f node up pre items) :
    Visits idx (passEnd idx (startAt idx f)) (beforeGap (skipGap ts))
      (afterPart idx f (skipGap ts)) := by
  induction h generalizing d es bs f up node pre with
  | nil =>
    obtain ⟨keyed, last, heq, _⟩ := htail
    simp at heq
  | @item e rest ts hrest ih =>
    have hstart : startAt idx f = .entry ⟨e, none⟩ f := by
      rw [startAt, hplace.entryAt]
      rfl
    cases hwalk with
    | item hwrest =>
      rw [hstart]
      cases e with
      | none =>
        obtain rfl := htail.end_iff.mp rfl
        cases hrest
        exact Visits.nil
      | some x =>
        exact visits_entry rfl (hrest.visits hwrest hok (by rwa [bump_length])
          (htail.tail (by simp)) hplace.bump)
  | @leaf e v rest ts hread hrest ih =>
    cases hwalk with
    | @sub d _ _ n _ es₁ es₂ bs₁ bs₂ hread' hwsub hwrest =>
      have hstart : startAt idx f = .entry ⟨none, none⟩ ((some v, 0) :: f) := by
        rw [startAt, hplace.entryAt]
        exact indexWalkDown_empty hread (by omega)
      rw [hstart]
      exact visits_behind hplace htail hrest (fun htail' =>
        hrest.visits hwrest (fun b hb => hok b (by simp [hb])) (by rwa [bump_length]) htail'
          hplace.bump)
  | @sub e v n rest ts₁ ts₂ hread hkeyed hsub hrest ih₁ ih₂ =>
    cases hwalk with
    | @sub d _ _ n' _ es₁ es₂ bs₁ bs₂ hread' hwsub hwrest =>
      cases Option.some.inj (hread.symm.trans hread')
      obtain ⟨child, hchild, rfl⟩ := Option.map_eq_some_iff.mp hread
      have hchild' : idx.blocks v = some child := hchild
      have hnode := hok v (by simp) child hchild'
      have hok₁ : BlocksOk idx bs₁ := fun b hb => hok b (by simp [hb])
      obtain ⟨first, tail, hitems, -⟩ := first_of_not_empty hnode hkeyed
      rw [startAt_down hplace.entryAt hchild' hitems (by omega),
        skipGap_append (hsub.ne_nil hwsub hok₁ hnode.shape hkeyed)]
      refine visits_append (ih₁ hwsub hok₁ (by rw [List.length_cons]; omega) hnode.shape
        (PlaceOf.first hread f)) ?_
      exact visits_behind hplace htail hrest (fun htail' =>
        hrest.visits hwrest (fun b hb => hok b (by simp [hb])) (by rwa [bump_length]) htail'
          hplace.bump)

end Visits

section All

variable {idx : Index} {levels : Nat} {es : List IndexEntry} {bs : List Nat}

theorem visitFrom_passEnd
    {fuel : Nat} {r : WalkResult}
    (h : visitFrom idx fuel (passEnd idx r) = some es) :
    ∃ fuel', visitFrom idx fuel' r = some es := by
  cases r with
  | null => exact ⟨fuel, h⟩
  | overflow => exact ⟨fuel, h⟩
  | entry it f =>
    rw [passEnd] at h
    split_ifs at h with hend
    · refine ⟨fuel + 1, ?_⟩
      rw [visitFrom, h, hend]
      rfl
    · exact ⟨fuel, h⟩

theorem firstEntry_eq
    (htree : TreeOk idx levels es bs) :
    firstEntry idx = startAt idx [(none, 0)] := by
  obtain ⟨first, rest, hitems, -⟩ := root_first htree
  have hat : entryAt idx [(none, 0)] = some first := by simp [entryAt, Index.node, hitems]
  rw [firstEntry, hitems, startAt, hat]
  rfl

/-- The walk over a well-formed index visits the entries before the first gap on its way. -/
theorem visitEntries_eq
    (htree : TreeOk idx levels es bs)
    (hlevels : levels ≤ maxLevels)
    {ts : List (Option IndexEntry)}
    (hts : LeafOrder idx.content idx.root.items ts) :
    ∃ fuel, visitEntries idx fuel = some (beforeGap (skipGap ts)) := by
  have hvisits := hts.visits_first htree.walk (tree_blocksOk htree)
    (by rw [List.length_singleton]; omega) htree.rootOk.shape (PlaceOf.root idx)
  have hnull : afterPart idx [(none, 0)] (skipGap ts) = .null := by
    unfold afterPart
    split_ifs <;> rfl
  rw [hnull, ← firstEntry_eq htree] at hvisits
  exact visitFrom_passEnd hvisits.visitFrom

/-- All entries are visited, in order, exactly when empty leaves stand at the ends only. -/
theorem visitEntries_all_iff
    (htree : TreeOk idx levels es bs)
    (hlevels : levels ≤ maxLevels) :
    (∃ fuel, visitEntries idx fuel = some es) ↔ EmptyLeavesAtEnds idx := by
  obtain ⟨ts, hts, rfl⟩ := exists_leafOrder htree.walk
  obtain ⟨fuel, hfuel⟩ := visitEntries_eq htree hlevels hts
  have hiff := beforeGap_skipGap_eq_iff ts
  constructor
  · rintro ⟨fuel', hfuel'⟩ before after horder
    exact hiff.mp (visitFrom_unique hfuel hfuel') before after (hts.unique horder)
  · intro hends
    refine ⟨fuel, ?_⟩
    rw [hfuel, hiff.mpr (fun before after heq => hends before after (heq ▸ hts))]

/-- `B`, `D` in the root, `A` in the first leaf, nothing in the second, `E` in the third. -/
def emptyMiddle : Index where
  rule := .fileName
  up := ⟨fun c => c, 0⟩
  root := ⟨[⟨some (nameEntry 66), some 0⟩, ⟨some (nameEntry 68), some 1⟩, ⟨none, some 2⟩], true,
    300⟩
  blocks := fun v =>
    if v = 0 then some ⟨[⟨some (nameEntry 65), none⟩, ⟨none, none⟩], false, 4032⟩
    else if v = 1 then some ⟨[⟨none, none⟩], false, 4032⟩
    else if v = 2 then some ⟨[⟨some (nameEntry 69), none⟩, ⟨none, none⟩], false, 4032⟩
    else none
  bitmap := true :: true :: true :: List.replicate 61 false
  blockRoom := 4032
  filled := fun _ => false

theorem emptyMiddle_ok :
    TreeOk emptyMiddle 1 [nameEntry 65, nameEntry 66, nameEntry 68, nameEntry 69] [0, 1, 2] where
  walk := by
    have hend : Walk emptyMiddle.content 0 [⟨none, none⟩] [] [] :=
      Walk.item Walk.nil
    have hthird : Walk emptyMiddle.content 0 [⟨some (nameEntry 69), none⟩, ⟨none, none⟩]
        [nameEntry 69] [] :=
      Walk.item hend
    have hlast : Walk emptyMiddle.content 1 [⟨none, some 2⟩] [nameEntry 69] [2] := by
      simpa using Walk.sub (e := none) rfl hthird Walk.nil
    have hrest : Walk emptyMiddle.content 1 [⟨some (nameEntry 68), some 1⟩, ⟨none, some 2⟩]
        [nameEntry 68, nameEntry 69] [1, 2] :=
      Walk.sub rfl hend hlast
    have hfirst : Walk emptyMiddle.content 0 [⟨some (nameEntry 65), none⟩, ⟨none, none⟩]
        [nameEntry 65] [] :=
      Walk.item hend
    exact Walk.sub rfl hfirst hrest
  sorted := by
    simp only [List.pairwise_cons, List.mem_cons, List.not_mem_nil, forall_eq_or_imp,
      false_imp_iff, implies_true, and_true, List.Pairwise.nil]
    exact ⟨⟨nameEntry_less (by decide), nameEntry_less (by decide), nameEntry_less (by decide)⟩,
      ⟨nameEntry_less (by decide), nameEntry_less (by decide)⟩, nameEntry_less (by decide)⟩
  nodup := by decide
  rootOk := ⟨⟨[⟨some (nameEntry 66), some 0⟩, ⟨some (nameEntry 68), some 1⟩], some 2, rfl,
    by simp⟩, by simp [emptyMiddle]⟩
  blocksOk := by
    intro v n hv hn
    simp only [List.mem_cons, List.not_mem_nil, or_false] at hv
    rcases hv with rfl | rfl | rfl
    · cases hn
      exact ⟨⟨[⟨some (nameEntry 65), none⟩], none, rfl, by simp⟩, by simp⟩
    · cases hn
      exact ⟨⟨[], none, rfl, by simp⟩, by simp⟩
    · cases hn
      exact ⟨⟨[⟨some (nameEntry 69), none⟩], none, rfl, by simp⟩, by simp⟩

/-- The walk ends in front of the empty leaf, and `D` and `E` are never visited. -/
theorem visitEntries_stops_at_empty_leaf :
    TreeOk emptyMiddle 1 [nameEntry 65, nameEntry 66, nameEntry 68, nameEntry 69] [0, 1, 2] ∧
    visitEntries emptyMiddle 3 = some [nameEntry 65, nameEntry 66] ∧
    ¬∃ fuel, visitEntries emptyMiddle fuel =
      some [nameEntry 65, nameEntry 66, nameEntry 68, nameEntry 69] := by
  have hrun : visitEntries emptyMiddle 3 = some [nameEntry 65, nameEntry 66] := by decide +kernel
  refine ⟨emptyMiddle_ok, hrun, ?_⟩
  rintro ⟨fuel, hall⟩
  have hlength := congrArg List.length (visitFrom_unique hrun hall)
  simp at hlength

/-- An empty leaf at the end of the index does no harm. -/
theorem visitEntries_all_two :
    ∃ fuel, visitEntries (twoLeaves []) fuel = some [nameEntry 65, nameEntry 66] := by
  have hok : TreeOk (twoLeaves []) 1 [nameEntry 65, nameEntry 66] [0, 1] := by
    apply twoLeaves_ok
    rw [List.pairwise_pair]
    exact nameEntry_less (by decide)
  refine (visitEntries_all_iff hok (by decide)).mpr ?_
  intro before after horder
  have hlast : LeafOrder (twoLeaves []).content [⟨none, some 1⟩] [none] :=
    LeafOrder.leaf rfl LeafOrder.nil
  have hfirst : LeafOrder (twoLeaves []).content [⟨some (nameEntry 65), none⟩, ⟨none, none⟩]
      [some (nameEntry 65)] :=
    LeafOrder.item (LeafOrder.item LeafOrder.nil)
  have hthis : LeafOrder (twoLeaves []).content (twoLeaves []).root.items
      [some (nameEntry 65), some (nameEntry 66), none] :=
    LeafOrder.sub rfl (by simp) hfirst hlast
  have heq := hthis.unique horder
  right
  rcases before with _ | ⟨x, _ | ⟨y, _ | ⟨z, before⟩⟩⟩
  · cases heq
  · cases heq
  · cases heq
    rfl
  · simp at heq

end All

end NtfsPlus.Ntfsck

import NtfsPlus.Libntfs.IndexLookup

/-!
# Stepping through an index

`ntfs_index_walk_down`, `ntfs_index_walk_up` and `ntfs_index_next` of
`libntfs/index.c`, which go from an entry to the next one in collation order.
The place of an entry is given by its frames: the node it is in and the nodes
above, each with a position (`parent_vcn` and `parent_pos`, the last slot
first).  The root is the last frame.

`walk_down` does not check the size of these arrays; `WalkResult.overflow` is a
step that would write behind them.

**Tours.**  `Tour c f items es bs vs` goes with a walk over `items`, which begin
at the frames `f`: `vs` are the places of the entries `es` in order.
`Tour.toured` is the main result: if no leaf block on the way is empty, the
steps visit just these places, or overflow.
-/

namespace NtfsPlus.Libntfs

open BlockTree

section Model

/-- A node with a position in it, and so on up to the root. -/
abbrev Frames := List (Option Nat × Nat)

/-- What the walk functions answer; `null` is the null pointer. -/
inductive WalkResult where
  | entry (it : Item IndexEntry) (f : Frames)
  | null
  | overflow
deriving DecidableEq, Repr

/-- The entry at a place: `ntfs_ie_get_by_pos`. -/
def entryAt (idx : Index) : Frames → Option (Item IndexEntry)
  | [] => none
  | (node, pos) :: _ => (idx.node node).bind (fun n => n.items[pos]?)

/-- `ntfs_index_walk_down`; `room` is what is left of the arrays. -/
def indexWalkDown (idx : Index) : Nat → Item IndexEntry → Frames → WalkResult
  | 0, _, _ => .overflow
  | room + 1, it, f =>
    match it.sub with
    | none => .null
    | some v =>
      match idx.blocks v with
      | none => .null
      | some n =>
        match n.items with
        | [] => .null
        | first :: _ =>
          if first.sub.isSome then
            indexWalkDown idx room first ((some v, 0) :: f)
          else
            .entry first ((some v, 0) :: f)

/-- `ntfs_index_walk_up`. -/
def indexWalkUp (idx : Index) : Frames → WalkResult
  | [] => .null
  | [_] => .null
  | _ :: parent :: up =>
    match entryAt idx (parent :: up) with
    | none => .null
    | some it =>
      if it.entry = none ∧ up ≠ [] then
        indexWalkUp idx (parent :: up)
      else
        .entry it (parent :: up)

/-- `++ictx->parent_pos[ictx->pindex]`. -/
def bump : Frames → Frames
  | [] => []
  | (node, pos) :: up => (node, pos + 1) :: up

/-- The step to a place in the same node, and from there down or up if there is no data. -/
def settle (idx : Index) (f : Frames) : WalkResult :=
  match entryAt idx f with
  | none => .null
  | some it =>
    if it.sub.isSome then
      indexWalkDown idx (maxLevels + 1 - f.length) it f
    else if it.entry = none then
      indexWalkUp idx f
    else
      .entry it f

/-- An end entry is no answer. -/
def dropEnd : WalkResult → WalkResult
  | .entry it f => if it.entry = none then .null else .entry it f
  | r => r

/-- `ntfs_index_next`. -/
def indexNext (idx : Index) (it : Item IndexEntry) (f : Frames) : WalkResult :=
  dropEnd (if it.entry = none then indexWalkUp idx f else settle idx (bump f))

end Model

section Places

/-- The blocks of a place. -/
def frameBlocks (f : Frames) : List Nat :=
  f.filterMap Prod.fst

@[simp] theorem frameBlocks_bump
    (f : Frames) :
    frameBlocks (bump f) = frameBlocks f := by
  cases f with
  | nil => rfl
  | cons w up => rfl

@[simp] theorem bump_length
    (f : Frames) :
    (bump f).length = f.length := by
  cases f with
  | nil => rfl
  | cons w up => rfl

@[simp] theorem frameBlocks_cons
    (v pos : Nat)
    (f : Frames) :
    frameBlocks ((some v, pos) :: f) = v :: frameBlocks f := rfl

theorem indexWalkUp_bump
    (idx : Index)
    (f : Frames) :
    indexWalkUp idx (bump f) = indexWalkUp idx f := by
  cases f with
  | nil => rfl
  | cons w up =>
    cases up with
    | nil => rfl
    | cons p up => rfl

/-- Every frame but the first is at the sub-node pointer of the one before. -/
def ValidFrames (idx : Index) : Frames → Prop
  | [] => False
  | [(node, _)] => node = none
  | (node, _) :: parent :: up =>
    (∃ v it, node = some v ∧ entryAt idx (parent :: up) = some it ∧ it.sub = some v) ∧
      ValidFrames idx (parent :: up)

/-- An answer at a place that is one. -/
def ValidResult (idx : Index) : WalkResult → Prop
  | .entry it f => ValidFrames idx f ∧ entryAt idx f = some it
  | _ => True

variable {idx : Index} {f : Frames}

theorem ValidFrames.bump
    (h : ValidFrames idx f) :
    ValidFrames idx (bump f) := by
  cases f with
  | nil => exact h
  | cons w up =>
    cases up with
    | nil => exact h
    | cons p up => exact h

theorem ValidFrames.cons
    {idx : Index} {f : Frames} {it : Item IndexEntry} {v : Nat}
    (h : ValidFrames idx f)
    (hit : entryAt idx f = some it)
    (hv : it.sub = some v) :
    ValidFrames idx ((some v, 0) :: f) := by
  cases f with
  | nil => exact absurd h id
  | cons w up => exact ⟨⟨v, it, rfl, hit, hv⟩, h⟩

/-- Walking down stays in the tree. -/
theorem indexWalkDown_valid
    {idx : Index}
    (room : Nat)
    {it : Item IndexEntry} {f : Frames}
    (h : ValidFrames idx f)
    (hit : entryAt idx f = some it) :
    ValidResult idx (indexWalkDown idx room it f) := by
  induction room generalizing it f with
  | zero => trivial
  | succ room ih =>
    rw [indexWalkDown]
    split
    · trivial
    · rename_i v hv
      split
      · trivial
      · rename_i n hn
        split
        · trivial
        · rename_i first rest hitems
          have hdown := h.cons hit hv
          have hfirst : entryAt idx ((some v, 0) :: f) = some first := by
            simp [entryAt, Index.node, hn, hitems]
          split_ifs
          · exact ih hdown hfirst
          · exact ⟨hdown, hfirst⟩

/-- So does walking up. -/
theorem indexWalkUp_valid
    (h : ValidFrames idx f) :
    ValidResult idx (indexWalkUp idx f) := by
  induction f with
  | nil => exact absurd h id
  | cons w up ih =>
    cases up with
    | nil => trivial
    | cons parent up =>
      rw [indexWalkUp]
      split
      · trivial
      · rename_i it hit
        split_ifs
        · exact ih h.2
        · exact ⟨h.2, hit⟩

/-- And settling on the next entry. -/
theorem settle_valid
    (h : ValidFrames idx f) :
    ValidResult idx (settle idx f) := by
  rw [settle]
  split
  · trivial
  · rename_i it hit
    split_ifs
    · exact indexWalkDown_valid _ h hit
    · exact indexWalkUp_valid h
    · exact ⟨h, hit⟩

/-- An answer of `ntfs_index_next` is an entry with data, at its place. -/
theorem indexNext_valid
    {it it' : Item IndexEntry} {f' : Frames}
    (h : ValidFrames idx f)
    (hnext : indexNext idx it f = .entry it' f') :
    ValidFrames idx f' ∧ entryAt idx f' = some it' ∧ it'.entry ≠ none := by
  unfold indexNext at hnext
  have hvalid : ValidResult idx
      (if it.entry = none then indexWalkUp idx f else settle idx (bump f)) := by
    split_ifs
    · exact indexWalkUp_valid h
    · exact settle_valid h.bump
  revert hnext hvalid
  generalize (if it.entry = none then indexWalkUp idx f else settle idx (bump f)) = r
  intro hnext hvalid
  cases r with
  | null => cases hnext
  | overflow => cases hnext
  | entry it₁ f₁ =>
    rw [dropEnd] at hnext
    split_ifs at hnext with hend
    cases hnext
    exact ⟨hvalid.1, hvalid.2, hend⟩

end Places

section Tours

variable {c : Content IndexEntry}

/-- The places of the entries below some items that begin at `f`. -/
inductive Tour (c : Content IndexEntry) :
    Frames → List (Item IndexEntry) → List IndexEntry → List Nat → List Frames → Prop
  | nil {f : Frames} : Tour c f [] [] [] []
  | item {f : Frames} {e : Option IndexEntry} {rest : List (Item IndexEntry)}
      {es : List IndexEntry} {bs : List Nat} {vs : List Frames}
      (hrest : Tour c (bump f) rest es bs vs) :
      Tour c f (⟨e, none⟩ :: rest) (e.toList ++ es) bs (e.toList.map (fun _ => f) ++ vs)
  | sub {f : Frames} {e : Option IndexEntry} {v : Nat} {n rest : List (Item IndexEntry)}
      {es₁ es₂ : List IndexEntry} {bs₁ bs₂ : List Nat} {vs₁ vs₂ : List Frames}
      (hread : c (some v) = some n)
      (hsub : Tour c ((some v, 0) :: f) n es₁ bs₁ vs₁)
      (hrest : Tour c (bump f) rest es₂ bs₂ vs₂) :
      Tour c f (⟨e, some v⟩ :: rest) (es₁ ++ (e.toList ++ es₂)) (v :: bs₁ ++ bs₂)
        (vs₁ ++ (e.toList.map (fun _ => f) ++ vs₂))

/-- Every walk in order has its tour of positions. -/
theorem tour_of_walk
    {d : Nat} {items : List (Item IndexEntry)} {es : List IndexEntry} {bs : List Nat}
    (h : Walk c d items es bs)
    (f : Frames) :
    ∃ vs, Tour c f items es bs vs := by
  induction h generalizing f with
  | nil => exact ⟨[], Tour.nil⟩
  | item hrest ih =>
    obtain ⟨vs, hvs⟩ := ih (bump f)
    exact ⟨_, Tour.item hvs⟩
  | @sub d v e n rest es₁ es₂ bs₁ bs₂ hread hsub hrest ih₁ ih₂ =>
    obtain ⟨vs₁, hvs₁⟩ := ih₁ ((some v, 0) :: f)
    obtain ⟨vs₂, hvs₂⟩ := ih₂ (bump f)
    exact ⟨_, Tour.sub hread hvs₁ hvs₂⟩

variable {f : Frames} {items : List (Item IndexEntry)} {es : List IndexEntry} {bs : List Nat}
  {vs : List Frames}

/-- A tour has one position for each entry. -/
theorem Tour.length_eq
    (h : Tour c f items es bs vs) :
    vs.length = es.length := by
  induction h with
  | nil => rfl
  | item hrest ih => simp [ih]
  | sub hread hsub hrest ih₁ ih₂ => simp [ih₁, ih₂]

/-- A tour stays below the position where it started. -/
theorem Tour.above
    (h : Tour c f items es bs vs)
    {g : Frames}
    (hg : g ∈ vs) :
    f.length ≤ g.length ∧ frameBlocks f ⊆ frameBlocks g := by
  induction h with
  | nil => cases hg
  | item hrest ih =>
    rcases List.mem_append.mp hg with hg | hg
    · obtain ⟨_, _, rfl⟩ := List.mem_map.mp hg
      exact ⟨le_refl _, List.Subset.refl _⟩
    · simpa using ih hg
  | sub hread hsub hrest ih₁ ih₂ =>
    rcases List.mem_append.mp hg with hg | hg
    · obtain ⟨hlen, hblocks⟩ := ih₁ hg
      rw [List.length_cons] at hlen
      exact ⟨by omega, fun b hb => hblocks (List.mem_cons_of_mem _ hb)⟩
    · rcases List.mem_append.mp hg with hg | hg
      · obtain ⟨_, _, rfl⟩ := List.mem_map.mp hg
        exact ⟨le_refl _, List.Subset.refl _⟩
      · simpa using ih₂ hg

/-- The blocks of a place are those of the first place and of the walk. -/
theorem Tour.blocks_subset
    (h : Tour c f items es bs vs)
    {g : Frames}
    (hg : g ∈ vs)
    {b : Nat}
    (hb : b ∈ frameBlocks g) :
    b ∈ frameBlocks f ∨ b ∈ bs := by
  induction h with
  | nil => cases hg
  | item hrest ih =>
    rcases List.mem_append.mp hg with hg | hg
    · obtain ⟨_, _, rfl⟩ := List.mem_map.mp hg
      exact Or.inl hb
    · simpa using ih hg
  | sub hread hsub hrest ih₁ ih₂ =>
    rcases List.mem_append.mp hg with hg | hg
    · have := ih₁ hg
      simp only [frameBlocks_cons, List.mem_cons, List.mem_append] at this ⊢
      tauto
    · rcases List.mem_append.mp hg with hg | hg
      · obtain ⟨_, _, rfl⟩ := List.mem_map.mp hg
        exact Or.inl hb
      · have := ih₂ hg
        simp only [frameBlocks_bump, List.mem_append] at this ⊢
        tauto

/-- A tour passes every entry with a key. -/
theorem Tour.visits_item
    (h : Tour c f items es bs vs)
    {it : Item IndexEntry}
    (hit : it ∈ items)
    (hkey : it.entry ≠ none) :
    ∃ g ∈ vs, g.head?.map Prod.fst = f.head?.map Prod.fst := by
  induction h with
  | nil => cases hit
  | @item f e rest es bs vs hrest ih =>
    have hbump : (bump f).head?.map Prod.fst = f.head?.map Prod.fst := by cases f <;> rfl
    rcases List.mem_cons.mp hit with rfl | hit
    · cases e with
      | none => exact absurd rfl hkey
      | some x => exact ⟨f, by simp, rfl⟩
    · obtain ⟨g, hg, hhead⟩ := ih hit
      exact ⟨g, by simp [hg], hhead.trans hbump⟩
  | @sub f e v n rest es₁ es₂ bs₁ bs₂ vs₁ vs₂ hread hsub hrest ih₁ ih₂ =>
    have hbump : (bump f).head?.map Prod.fst = f.head?.map Prod.fst := by cases f <;> rfl
    rcases List.mem_cons.mp hit with rfl | hit
    · cases e with
      | none => exact absurd rfl hkey
      | some x => exact ⟨f, by simp, rfl⟩
    · obtain ⟨g, hg, hhead⟩ := ih₂ hit
      exact ⟨g, by simp [hg], hhead.trans hbump⟩

theorem Tour.sub_mem
    (h : Tour c f items es bs vs)
    {it : Item IndexEntry} {v : Nat}
    (hit : it ∈ items)
    (hv : it.sub = some v) :
    v ∈ bs := by
  induction h with
  | nil => cases hit
  | item hrest ih =>
    rcases List.mem_cons.mp hit with rfl | hit
    · cases hv
    · exact ih hit
  | sub hread hsub hrest ih₁ ih₂ =>
    rcases List.mem_cons.mp hit with rfl | hit
    · cases hv
      simp
    · simp [ih₂ hit]

end Tours

section Levels

variable {idx : Index}

/-- No leaf block among these is empty. -/
def LeavesKeyed (idx : Index) (bs : List Nat) : Prop :=
  ∀ v ∈ bs, ∀ n, idx.blocks v = some n → n.isNode = false → ∃ it ∈ n.items, it.entry ≠ none

/-- The nodes of these blocks have their shape. -/
def BlocksOk (idx : Index) (bs : List Nat) : Prop :=
  ∀ v ∈ bs, ∀ n, idx.blocks v = some n → NodeOk n

/-- The place is in a leaf block. -/
def InLeaf (idx : Index) (f : Frames) : Prop :=
  ∃ v n, f.head?.map Prod.fst = some (some v) ∧ idx.blocks v = some n ∧ n.isNode = false

variable {f : Frames} {items : List (Item IndexEntry)} {es : List IndexEntry} {bs : List Nat}
variable {vs : List Frames}

/-- Every block of the tree is on the path of some leaf of the tour. -/
theorem Tour.marks
    (h : Tour idx.content f items es bs vs)
    (hok : BlocksOk idx bs)
    (hleaves : LeavesKeyed idx bs) :
    ∀ b ∈ bs, ∃ g ∈ vs, InLeaf idx g ∧ b ∈ frameBlocks g := by
  induction h with
  | nil =>
    intro b hb
    cases hb
  | item hrest ih =>
    intro b hb
    obtain ⟨g, hg, hmark⟩ := ih hok hleaves b hb
    exact ⟨g, by simp [hg], hmark⟩
  | @sub f e v n rest es₁ es₂ bs₁ bs₂ vs₁ vs₂ hread hsub hrest ih₁ ih₂ =>
    obtain ⟨hok₁, hok₂⟩ := List.forall_mem_append.mp hok
    obtain ⟨hleaves₁, hleaves₂⟩ := List.forall_mem_append.mp hleaves
    have ih₁ := ih₁ (List.forall_mem_of_forall_mem_cons hok₁)
      (List.forall_mem_of_forall_mem_cons hleaves₁)
    obtain ⟨child, hchild, rfl⟩ := Option.map_eq_some_iff.mp hread
    have hchild' : idx.blocks v = some child := hchild
    have hself : ∃ g ∈ vs₁, InLeaf idx g ∧ v ∈ frameBlocks g := by
      have hnode := hok₁ v List.mem_cons_self child hchild'
      cases hkind : child.isNode with
      | false =>
        obtain ⟨it, hit, hkey⟩ := hleaves₁ v List.mem_cons_self child hchild' hkind
        obtain ⟨g, hg, hhead⟩ := hsub.visits_item hit hkey
        exact ⟨g, hg, ⟨v, child, hhead, hchild', hkind⟩, (hsub.above hg).2 List.mem_cons_self⟩
      | true =>
        -- the first sub-node of the block is above a leaf, and so is the block
        obtain ⟨keyed, last, heq, _⟩ := hnode.shape
        have hlast := hnode.subs ⟨none, last⟩ (by rw [heq]; simp)
        rw [hkind] at hlast
        obtain ⟨u, hu⟩ := Option.isSome_iff_exists.mp hlast
        have hu' : last = some u := hu
        have hmem : u ∈ bs₁ := by
          rw [heq, hu'] at hsub
          exact hsub.sub_mem (show (⟨none, some u⟩ : Item IndexEntry) ∈ _ by simp) rfl
        obtain ⟨g, hg, hleaf, _⟩ := ih₁ u hmem
        exact ⟨g, hg, hleaf, (hsub.above hg).2 List.mem_cons_self⟩
    intro b hb
    rw [List.cons_append, List.mem_cons, List.mem_append] at hb
    rcases hb with rfl | hb | hb
    · obtain ⟨g, hg, hmark⟩ := hself
      exact ⟨g, by simp [hg], hmark⟩
    · obtain ⟨g, hg, hmark⟩ := ih₁ b hb
      exact ⟨g, by simp [hg], hmark⟩
    · obtain ⟨g, hg, hmark⟩ := ih₂ hok₂ hleaves₂ b hb
      exact ⟨g, by simp [hg], hmark⟩

/-- A sub-node has a visited place, which is deeper than the node. -/
theorem Tour.exists_place
    {n : List (Item IndexEntry)} {v : Nat}
    (h : Tour idx.content ((some v, 0) :: f) n es bs vs)
    (hread : idx.content (some v) = some n)
    (hok : BlocksOk idx (v :: bs))
    (hleaves : LeavesKeyed idx (v :: bs)) :
    ∃ g ∈ vs, f.length < g.length := by
  have htour := Tour.sub (e := none) hread h Tour.nil
  simp only [Option.toList_none, List.append_nil, List.map_nil] at htour
  obtain ⟨g, hg, _⟩ := htour.marks hok hleaves v List.mem_cons_self
  have hdeep := (h.above hg).1
  rw [List.length_cons] at hdeep
  exact ⟨g, hg, by omega⟩

/-- A tour within the arrays belongs to a walk of as many levels. -/
theorem Tour.walk
    (h : Tour idx.content f items es bs vs)
    (hok : BlocksOk idx bs)
    (hleaves : LeavesKeyed idx bs)
    {top : Nat}
    (hlen : ∀ g ∈ vs, g.length ≤ top) :
    Walk idx.content (top - f.length) items es bs := by
  induction h with
  | nil => exact Walk.nil
  | item hrest ih =>
    have hwalk := ih hok hleaves (fun g hg => hlen g (by simp [hg]))
    rw [bump_length] at hwalk
    exact Walk.item hwalk
  | @sub f e v n rest es₁ es₂ bs₁ bs₂ vs₁ vs₂ hread hsub hrest ih₁ ih₂ =>
    -- the sub-node has a visited place, so that there is a level for it
    obtain ⟨hok₁, hok₂⟩ := List.forall_mem_append.mp hok
    obtain ⟨hleaves₁, hleaves₂⟩ := List.forall_mem_append.mp hleaves
    obtain ⟨hlen₁, hlen₂⟩ := List.forall_mem_append.mp hlen
    obtain ⟨g, hg, hdeep⟩ := hsub.exists_place hread hok₁ hleaves₁
    have htop := hlen₁ g hg
    have hwalk₁ := ih₁ (List.forall_mem_of_forall_mem_cons hok₁)
      (List.forall_mem_of_forall_mem_cons hleaves₁) hlen₁
    have hwalk₂ := ih₂ hok₂ hleaves₂ (List.forall_mem_append.mp hlen₂).2
    rw [bump_length] at hwalk₂
    rw [List.length_cons] at hwalk₁
    obtain ⟨k, hk⟩ : ∃ k, top - f.length = k + 1 := ⟨top - f.length - 1, by omega⟩
    rw [hk] at hwalk₂ ⊢
    rw [show top - (f.length + 1) = k by omega] at hwalk₁
    exact Walk.sub hread hwalk₁ hwalk₂

/-- Positions are no deeper than the tree. -/
theorem Tour.length_le
    {es' : List IndexEntry} {bs' : List Nat}
    (h : Tour idx.content f items es bs vs)
    {d : Nat}
    (hwalk : Walk idx.content d items es' bs')
    {g : Frames}
    (hg : g ∈ vs) :
    g.length ≤ f.length + d := by
  induction h generalizing d es' bs' with
  | nil => cases hg
  | item hrest ih =>
    cases hwalk with
    | item hwrest =>
      rcases List.mem_append.mp hg with hg | hg
      · obtain ⟨_, _, rfl⟩ := List.mem_map.mp hg
        omega
      · simpa using ih hwrest hg
  | sub hread hsub hrest ih₁ ih₂ =>
    cases hwalk with
    | sub hread' hwsub hwrest =>
      cases Option.some.inj (hread.symm.trans hread')
      rcases List.mem_append.mp hg with hg | hg
      · have hle := ih₁ hwsub hg
        rw [List.length_cons] at hle
        omega
      · rcases List.mem_append.mp hg with hg | hg
        · obtain ⟨_, _, rfl⟩ := List.mem_map.mp hg
          omega
        · simpa using ih₂ hwrest hg

end Levels

section Runs

variable {idx : Index}

/-- The steps from `r` on visit the places `vs`, and then answer `r'`. -/
inductive Chain (idx : Index) : WalkResult → List Frames → WalkResult → Prop
  | nil {r : WalkResult} : Chain idx r [] r
  | cons {it : Item IndexEntry} {f : Frames} {vs : List Frames} {r : WalkResult}
      (hkey : it.entry ≠ none)
      (hnext : Chain idx (indexNext idx it f) vs r) :
      Chain idx (.entry it f) (f :: vs) r

variable {r₁ r₂ r₃ : WalkResult} {vs₁ vs₂ vs : List Frames} {v : Nat}

theorem Chain.append
    (h₁ : Chain idx r₁ vs₁ r₂)
    (h₂ : Chain idx r₂ vs₂ r₃) :
    Chain idx r₁ (vs₁ ++ vs₂) r₃ := by
  induction h₁ with
  | nil => exact h₂
  | cons hkey hnext ih => exact Chain.cons hkey (ih h₂)

/-- The steps visit the places, all within the arrays, or overflow before. -/
def Toured (idx : Index) (r : WalkResult) (vs : List Frames) (r' : WalkResult) : Prop :=
  (Chain idx r vs r' ∧ ∀ g ∈ vs, g.length ≤ maxLevels + 1) ∨
    (∃ vs', Chain idx r vs' .overflow) ∧ ∃ g ∈ vs, maxLevels + 1 < g.length

/-- Two tours, one after the other. -/
theorem Toured.append
    (h₁ : Toured idx r₁ vs₁ r₂)
    (h₂ : Toured idx r₂ vs₂ r₃) :
    Toured idx r₁ (vs₁ ++ vs₂) r₃ := by
  rcases h₁ with ⟨hc₁, hl₁⟩ | h₁
  · rcases h₂ with ⟨hc₂, hl₂⟩ | ⟨⟨vs', hc₂⟩, g, hg, hdeep⟩
    · refine Or.inl ⟨hc₁.append hc₂, ?_⟩
      intro g hg
      rcases List.mem_append.mp hg with hg | hg
      · exact hl₁ g hg
      · exact hl₂ g hg
    · exact Or.inr ⟨⟨vs₁ ++ vs', hc₁.append hc₂⟩, g, List.mem_append_right _ hg, hdeep⟩
  · obtain ⟨hover, g, hg, hdeep⟩ := h₁
    exact Or.inr ⟨hover, g, List.mem_append_left _ hg, hdeep⟩

/-- The end part of a node: entries with data, and the end entry. -/
def NodeTail (items : List (Item IndexEntry)) : Prop :=
  ∃ keyed last, items = keyed ++ [⟨none, last⟩] ∧ ∀ it ∈ keyed, it.entry ≠ none

variable {it : Item IndexEntry} {rest : List (Item IndexEntry)} {f : Frames}

theorem NodeTail.end_iff
    (h : NodeTail (it :: rest)) :
    it.entry = none ↔ rest = [] := by
  obtain ⟨keyed, last, heq, hkeyed⟩ := h
  cases keyed with
  | nil =>
    cases heq
    exact ⟨fun _ => rfl, fun _ => rfl⟩
  | cons k ks =>
    cases heq
    exact ⟨fun hnone => absurd hnone (hkeyed it List.mem_cons_self), fun hnil => by simp at hnil⟩

theorem NodeTail.tail
    (h : NodeTail (it :: rest))
    (hkey : it.entry ≠ none) :
    NodeTail rest := by
  obtain ⟨keyed, last, heq, hkeyed⟩ := h
  cases keyed with
  | nil =>
    cases heq
    exact absurd rfl hkey
  | cons k ks =>
    cases heq
    exact ⟨ks, last, rfl, fun x hx => hkeyed x (List.mem_cons_of_mem _ hx)⟩

/-- A tour that starts with a visit. -/
theorem Toured.visit
    {r : WalkResult}
    (hkey : it.entry ≠ none)
    (hlen : f.length ≤ maxLevels + 1)
    (h : Toured idx (dropEnd (settle idx (bump f))) vs r) :
    Toured idx (.entry it f) (f :: vs) r := by
  have hnext : indexNext idx it f = dropEnd (settle idx (bump f)) := by rw [indexNext, if_neg hkey]
  rw [← hnext] at h
  rcases h with ⟨hc, hl⟩ | ⟨⟨vs', hc⟩, g, hg, hdeep⟩
  · refine Or.inl ⟨Chain.cons hkey hc, ?_⟩
    intro g hg
    rcases List.mem_cons.mp hg with rfl | hg
    · exact hlen
    · exact hl g hg
  · exact Or.inr ⟨⟨f :: vs', Chain.cons hkey hc⟩, g, List.mem_cons_of_mem _ hg, hdeep⟩

/-- Going down ends where the sub-node begins, unless its first leaf is empty. -/
theorem indexWalkDown_settle
    {first : Item IndexEntry} {n : IndexNode}
    (hv : it.sub = some v)
    (hn : idx.blocks v = some n)
    (hitems : n.items = first :: rest)
    (hlen : f.length ≤ maxLevels)
    (hfirst : first.sub = none → first.entry ≠ none) :
    indexWalkDown idx (maxLevels + 1 - f.length) it f = settle idx ((some v, 0) :: f) := by
  have hat : entryAt idx ((some v, 0) :: f) = some first := by
    simp [entryAt, Index.node, hn, hitems]
  obtain ⟨room, hroom⟩ : ∃ room, maxLevels + 1 - f.length = room + 1 :=
    ⟨maxLevels - f.length, by omega⟩
  have hroom' : maxLevels + 1 - ((some v, 0) :: f).length = room := by
    rw [List.length_cons]
    omega
  rw [hroom, indexWalkDown, settle, hat]
  simp only [hv, hn, hitems, hroom']
  split_ifs with hsub hend
  · rfl
  · rw [Option.not_isSome_iff_eq_none] at hsub
    exact absurd hend (hfirst hsub)
  · rfl

/-- What comes behind a sub-node: the entry in front of which it stands, or the level above. -/
theorem dropEnd_walkUp
    {pos : Nat}
    (hat : entryAt idx f = some it) :
    dropEnd (indexWalkUp idx ((some v, pos) :: f)) =
      if it.entry = none then dropEnd (indexWalkUp idx f) else .entry it f := by
  cases f with
  | nil => cases hat
  | cons parent up =>
    rw [indexWalkUp, hat]
    dsimp only
    by_cases hend : it.entry = none
    · rw [if_pos hend]
      cases up with
      | nil =>
        rw [if_neg (fun h => h.2 rfl), dropEnd, if_pos hend]
        rfl
      | cons p up => rw [if_pos ⟨hend, List.cons_ne_nil _ _⟩]
    · rw [if_neg hend, if_neg (fun h => hend h.1), dropEnd, if_neg hend]

variable {node : Option Nat} {up : Frames} {pre items : List (Item IndexEntry)}

/-- A place in front of some items of a node. -/
structure PlaceOf (idx : Index) (f : Frames) (node : Option Nat) (up : Frames)
    (pre items : List (Item IndexEntry)) : Prop where
  frames : f = (node, pre.length) :: up
  content : idx.content node = some (pre ++ items)

theorem PlaceOf.entryAt
    (h : PlaceOf idx f node up pre (it :: rest)) :
    entryAt idx f = some it := by
  obtain ⟨n, hn, hitems⟩ := Option.map_eq_some_iff.mp h.content
  rw [h.frames]
  simp [Libntfs.entryAt, hn, hitems]

theorem PlaceOf.bump
    (h : PlaceOf idx f node up pre (it :: rest)) :
    PlaceOf idx (bump f) node up (pre ++ [it]) rest := by
  refine ⟨?_, by rw [List.append_assoc]; exact h.content⟩
  rw [h.frames, List.length_append]
  rfl

theorem PlaceOf.first
    {n : List (Item IndexEntry)}
    (hread : idx.content (some v) = some n)
    (f : Frames) :
    PlaceOf idx ((some v, 0) :: f) (some v) f [] n :=
  ⟨rfl, hread⟩

theorem PlaceOf.root
    (idx : Index) :
    PlaceOf idx [(none, 0)] none [] [] idx.root.items :=
  ⟨rfl, rfl⟩

/-- A block that is no empty leaf has a first entry with data or a sub-node. -/
theorem first_of_not_empty
    {n : IndexNode}
    (hok : NodeOk n)
    (hkeyed : n.items ≠ [⟨none, none⟩]) :
    ∃ first rest, n.items = first :: rest ∧ (first.sub = none → first.entry ≠ none) := by
  obtain ⟨keyed, last, heq, hkeys⟩ := hok.shape
  cases keyed with
  | nil =>
    refine ⟨_, _, heq, ?_⟩
    rintro hsub -
    apply hkeyed
    rw [heq]
    cases hsub
    rfl
  | cons k ks => exact ⟨_, _, heq, fun _ => hkeys k List.mem_cons_self⟩

/-- The code makes the tour. -/
theorem Tour.toured
    {es : List IndexEntry} {bs : List Nat}
    (h : Tour idx.content f items es bs vs)
    (hok : BlocksOk idx bs)
    (hleaves : LeavesKeyed idx bs)
    (hlen : f.length ≤ maxLevels + 1)
    (htail : NodeTail items)
    (hplace : PlaceOf idx f node up pre items) :
    Toured idx (dropEnd (settle idx f)) vs (dropEnd (indexWalkUp idx f)) := by
  induction h generalizing node up pre with
  | nil =>
    obtain ⟨keyed, last, heq, _⟩ := htail
    simp at heq
  | @item f e rest es bs vs hrest ih =>
    have hentry := hplace.entryAt
    cases e with
    | none =>
      obtain rfl := htail.end_iff.mp rfl
      cases hrest
      have hsettle : settle idx f = indexWalkUp idx f := by
        rw [settle, hentry]
        rfl
      rw [hsettle]
      exact Or.inl ⟨Chain.nil, fun g hg => by cases hg⟩
    | some x =>
      have hkey : (⟨some x, none⟩ : Item IndexEntry).entry ≠ none := by simp
      have hsettle : settle idx f = .entry ⟨some x, none⟩ f := by
        rw [settle, hentry]
        rfl
      have hrun := ih hok hleaves (by simpa using hlen) (htail.tail hkey) hplace.bump
      rw [indexWalkUp_bump] at hrun
      rw [hsettle]
      exact Toured.visit hkey hlen hrun
  | @sub f e v n rest es₁ es₂ bs₁ bs₂ vs₁ vs₂ hread hsub hrest ih₁ ih₂ =>
    have hentry := hplace.entryAt
    obtain ⟨hok₁, hok₂⟩ := List.forall_mem_append.mp hok
    obtain ⟨hleaves₁, hleaves₂⟩ := List.forall_mem_append.mp hleaves
    have hdown : settle idx f = indexWalkDown idx (maxLevels + 1 - f.length) ⟨e, some v⟩ f := by
      rw [settle, hentry]
      rfl
    rcases Nat.lt_or_ge maxLevels f.length with hfull | hroom
    · rw [hdown, show maxLevels + 1 - f.length = 0 by omega]
      obtain ⟨g, hg, hdeep⟩ := hsub.exists_place hread hok₁ hleaves₁
      exact Or.inr ⟨⟨[], Chain.nil⟩, g, List.mem_append_left _ hg, by omega⟩
    obtain ⟨child, hchild, rfl⟩ := Option.map_eq_some_iff.mp hread
    have hchild' : idx.blocks v = some child := hchild
    have hnode := hok₁ v List.mem_cons_self child hchild'
    have hkeyed : child.items ≠ [⟨none, none⟩] := by
      intro hitems
      have hsubs := hnode.subs ⟨none, none⟩ (by rw [hitems]; exact List.mem_cons_self)
      obtain ⟨it, hit, hkey⟩ := hleaves₁ v List.mem_cons_self child hchild' hsubs.symm
      rw [hitems, List.mem_singleton] at hit
      exact hkey (by rw [hit])
    obtain ⟨first, tail, hitems, hfirst⟩ := first_of_not_empty hnode hkeyed
    rw [hdown, indexWalkDown_settle rfl hchild' hitems hroom hfirst]
    refine Toured.append (ih₁ (List.forall_mem_of_forall_mem_cons hok₁)
      (List.forall_mem_of_forall_mem_cons hleaves₁) (by rw [List.length_cons]; omega) hnode.shape
      (PlaceOf.first hread f)) ?_
    rw [dropEnd_walkUp hentry]
    cases e with
    | none =>
      obtain rfl := htail.end_iff.mp rfl
      cases hrest
      exact Or.inl ⟨Chain.nil, fun g hg => by cases hg⟩
    | some x =>
      have hkey : (⟨some x, some v⟩ : Item IndexEntry).entry ≠ none := by simp
      have hrun₂ := ih₂ hok₂ hleaves₂ (by simpa using hlen) (htail.tail hkey) hplace.bump
      rw [indexWalkUp_bump] at hrun₂
      exact Toured.visit hkey hlen hrun₂

end Runs

end NtfsPlus.Libntfs

import NtfsPlus.Libntfs.IndexWalk

/-!
# The index bitmap that the directory scan collects

`ntfsck_set_index_bitmap` and the walk of `ntfsck_scan_index_entries_btree` in
`src/ntfsck.c` over the index of one directory.  No entry needs a repair here,
so that the checks on the entries leave the index alone.

A bit is set when an entry in a leaf block is visited: that of the leaf and those
of the blocks above it.  The walk does not visit a leaf without an entry, and
ends when it gets down into one, if it is not the first.  `indexScan_iff` says
that these leaves, and more levels than the arrays of the walk have, are all
that can go wrong.
-/

namespace NtfsPlus.Ntfsck

open Libntfs BlockTree

section Model

/-- The enlargement of `fsck_ibm` for the bit of a leaf. -/
def growIbm (ibm : List Bool) (bit : Nat) : List Bool :=
  if ibm.length / 8 < bit / 8 + 1 then
    ibm ++ List.replicate (8 * ((bit / 8 + 1 + 7) / 8 * 8) - ibm.length) false
  else
    ibm

/-- `ntfsck_set_index_bitmap`, at an entry with these frames; in the root there is no block. -/
def setIndexBitmap (idx : Index) (f : Frames) (ibm : List Bool) : List Bool :=
  match f with
  | (some v, _) :: _ =>
    match idx.blocks v with
    | none => ibm
    | some n =>
      if n.isNode then
        ibm
      else
        (frameBlocks f).foldl (fun ibm b => ibm.set b true) (growIbm ibm v)
  | _ => ibm

/-- The loop over the entries.  There is no answer when the walk overflows its arrays. -/
def scanLoop (idx : Index) (hasBitmap : Bool) : Nat → WalkResult → List Bool → Option (List Bool)
  | 0, _, _ => none
  | _ + 1, .overflow, _ => none
  | _ + 1, .null, ibm => some ibm
  | fuel + 1, .entry it f, ibm =>
    scanLoop idx hasBitmap fuel (indexNext idx it f)
      (if hasBitmap then setIndexBitmap idx f ibm else ibm)

/-- The walk over a directory index: `fsck_ibm` at its end. -/
def scanIndexEntries (idx : Index) (fuel : Nat) : Option (List Bool) :=
  match idx.root.items with
  | [] => some []
  | first :: _ =>
    -- the bitmap attribute is opened for an index with blocks only
    let hasBitmap := first.sub.isSome
    let ibm := if hasBitmap then List.replicate idx.bitmap.length false else []
    if first.entry = none ∧ first.sub = none then
      some ibm
    else
      match (if first.sub.isSome then indexWalkDown idx maxLevels first [(none, 0)]
        else .entry first [(none, 0)]) with
      | .null => some ibm
      | .overflow => none
      | .entry it f =>
        scanLoop idx hasBitmap fuel
          (if it.entry = none then indexNext idx it f else .entry it f) ibm

/-- The bitmap has just the bits of these blocks. -/
def MarksJust (ibm : List Bool) (bs : List Nat) : Prop :=
  ∀ b, ibm.getD b false = true ↔ b ∈ bs

end Model

section Marks

theorem getD_set_true
    (ibm : List Bool)
    (i b : Nat) :
    (ibm.set i true).getD b false = true ↔ ibm.getD b false = true ∨ (b = i ∧ i < ibm.length) := by
  by_cases hib : i = b
  · subst hib
    by_cases hlt : i < ibm.length
    · simp [hlt]
    · simp [hlt]
  · simp [hib, Ne.symm hib]

theorem foldl_set_length
    (bs : List Nat)
    (ibm : List Bool) :
    (bs.foldl (fun ibm b => ibm.set b true) ibm).length = ibm.length := by
  induction bs generalizing ibm with
  | nil => rfl
  | cons b rest ih => rw [List.foldl_cons, ih, List.length_set]

/-- The bits of the blocks are set and no others. -/
theorem getD_foldl_set
    (bs : List Nat)
    (ibm : List Bool)
    (b : Nat) :
    (bs.foldl (fun ibm b => ibm.set b true) ibm).getD b false = true ↔
      ibm.getD b false = true ∨ (b ∈ bs ∧ b < ibm.length) := by
  induction bs generalizing ibm with
  | nil => simp
  | cons c rest ih =>
    rw [List.foldl_cons, ih, getD_set_true, List.length_set, List.mem_cons]
    constructor
    · rintro ((h | ⟨rfl, h⟩) | ⟨h, hlt⟩)
      · exact Or.inl h
      · exact Or.inr ⟨Or.inl rfl, h⟩
      · exact Or.inr ⟨Or.inr h, hlt⟩
    · rintro (h | ⟨rfl | h, hlt⟩)
      · exact Or.inl (Or.inl h)
      · exact Or.inl (Or.inr ⟨rfl, hlt⟩)
      · exact Or.inr ⟨h, hlt⟩

theorem getD_growIbm
    (ibm : List Bool)
    (bit b : Nat) :
    (growIbm ibm bit).getD b false = ibm.getD b false := by
  unfold growIbm
  split_ifs
  · simp only [List.getD_eq_getElem?_getD, List.getElem?_append, List.getElem?_replicate]
    by_cases hlt : b < ibm.length
    · rw [if_pos hlt]
    · rw [List.getElem?_eq_none (by omega)]
      split_ifs <;> rfl
  · rfl

/-- A visit sets no bit but those of its place, and those only in a leaf. -/
theorem setIndexBitmap_marks
    {idx : Index} {f : Frames} {ibm : List Bool} {b : Nat}
    (h : (setIndexBitmap idx f ibm).getD b false = true) :
    ibm.getD b false = true ∨ (InLeaf idx f ∧ b ∈ frameBlocks f) := by
  unfold setIndexBitmap at h
  split at h
  · rename_i v pos up
    split at h
    · exact Or.inl h
    · rename_i n hn
      split_ifs at h with hnode
      · exact Or.inl h
      · rcases (getD_foldl_set _ _ b).mp h with h | ⟨h, _⟩
        · rw [getD_growIbm] at h
          exact Or.inl h
        · exact Or.inr ⟨⟨v, n, rfl, hn, by simpa using hnode⟩, h⟩
  · exact Or.inl h

/-- One leaf marks the blocks of its path. -/
theorem setIndexBitmap_eq
    {idx : Index} {f : Frames} {ibm : List Bool}
    (hbytes : ibm.length % 8 = 0)
    (hlt : ∀ b ∈ frameBlocks f, b < ibm.length) :
    (setIndexBitmap idx f ibm).length = ibm.length ∧
      ∀ b, (setIndexBitmap idx f ibm).getD b false = true ↔
        ibm.getD b false = true ∨ (InLeaf idx f ∧ b ∈ frameBlocks f) := by
  have hkeep : InLeaf idx f ∨ setIndexBitmap idx f ibm = ibm := by
    unfold setIndexBitmap
    split
    · rename_i v pos up
      split
      · exact Or.inr rfl
      · rename_i n hn
        split_ifs with hnode
        · exact Or.inr rfl
        · exact Or.inl ⟨v, n, rfl, hn, by simpa using hnode⟩
    · exact Or.inr rfl
  by_cases hleaf : InLeaf idx f
  · obtain ⟨v, n, hhead, hn, hnode⟩ := id hleaf
    cases f with
    | nil => cases hhead
    | cons w up =>
      obtain ⟨node, pos⟩ := w
      cases hhead
      have hgrow : growIbm ibm v = ibm := by
        have := hlt v List.mem_cons_self
        rw [growIbm, if_neg (by omega)]
      have heq : setIndexBitmap idx ((some v, pos) :: up) ibm =
          (frameBlocks ((some v, pos) :: up)).foldl (fun ibm b => ibm.set b true) ibm := by
        simp only [setIndexBitmap, hn, hnode, hgrow]
        rfl
      rw [heq]
      refine ⟨foldl_set_length _ _, fun b => ?_⟩
      rw [getD_foldl_set]
      constructor
      · rintro (h | ⟨h, _⟩)
        · exact Or.inl h
        · exact Or.inr ⟨hleaf, h⟩
      · rintro (h | ⟨_, h⟩)
        · exact Or.inl h
        · exact Or.inr ⟨h, hlt b h⟩
  · rcases hkeep with h | h
    · exact absurd h hleaf
    · rw [h]
      exact ⟨rfl, fun b => ⟨Or.inl, fun h => h.elim id (fun h => absurd h.1 hleaf)⟩⟩

/-- All leaves mark the blocks of their paths. -/
theorem foldl_setIndexBitmap
    {idx : Index} {vs : List Frames} {ibm : List Bool}
    (hbytes : ibm.length % 8 = 0)
    (hlt : ∀ f ∈ vs, ∀ b ∈ frameBlocks f, b < ibm.length) :
    ∀ b, (vs.foldl (fun ibm f => setIndexBitmap idx f ibm) ibm).getD b false = true ↔
      ibm.getD b false = true ∨ ∃ f ∈ vs, InLeaf idx f ∧ b ∈ frameBlocks f := by
  intro b
  induction vs generalizing ibm with
  | nil => simp
  | cons f rest ih =>
    obtain ⟨hlen, hbits⟩ := @setIndexBitmap_eq idx f ibm hbytes (hlt f List.mem_cons_self)
    rw [List.foldl_cons, ih (by rw [hlen, hbytes]) (fun g hg b hb => by
      rw [hlen]
      exact hlt g (List.mem_cons_of_mem _ hg) b hb), hbits, or_assoc]
    simp

end Marks

section Runs

variable {idx : Index}

variable {r : WalkResult} {vs : List Frames} {fuel v : Nat} {n : IndexNode}

/-- The scan marks along the chain of entries. -/
theorem scanLoop_chain
    (h : Chain idx r vs .null)
    (hasBitmap : Bool)
    (hfuel : vs.length < fuel)
    (ibm : List Bool) :
    scanLoop idx hasBitmap fuel r ibm =
      some (if hasBitmap then vs.foldl (fun ibm f => setIndexBitmap idx f ibm) ibm else ibm) := by
  generalize hend : WalkResult.null = r' at h
  induction h generalizing fuel ibm with
  | nil =>
    obtain ⟨fuel, rfl⟩ : ∃ n, fuel = n + 1 := ⟨fuel - 1, by simp at hfuel; omega⟩
    rw [← hend]
    cases hasBitmap <;> rfl
  | cons hkey hnext ih =>
    obtain ⟨fuel, rfl⟩ : ∃ n, fuel = n + 1 := ⟨fuel - 1, by simp at hfuel; omega⟩
    rw [scanLoop, ih (by simpa using hfuel) _ hend]
    cases hasBitmap <;> rfl

/-- The scan fails where the walk overflows. -/
theorem scanLoop_overflow
    (h : Chain idx r vs .overflow)
    (hasBitmap : Bool)
    (fuel : Nat)
    (ibm : List Bool) :
    scanLoop idx hasBitmap fuel r ibm = none := by
  generalize hend : WalkResult.overflow = r' at h
  induction h generalizing fuel ibm with
  | nil =>
    rw [← hend]
    cases fuel with
    | zero => rfl
    | succ fuel => rfl
  | cons hkey hnext ih =>
    cases fuel with
    | zero => rfl
    | succ fuel =>
      exact ih _ _ hend

theorem not_mem_frameBlocks
    (hn : idx.blocks v = some n)
    (hsubs : ∀ it ∈ n.items, it.sub = none)
    (hempty : ∀ it ∈ n.items, it.entry = none)
    {f : Frames} {it : Item IndexEntry}
    (hvalid : ValidFrames idx f)
    (hat : entryAt idx f = some it)
    (hit : it.entry ≠ none ∨ it.sub ≠ none) :
    v ∉ frameBlocks f := by
  induction f generalizing it with
  | nil => simp [frameBlocks]
  | cons w up ih =>
    have hhead : w.1 ≠ some v := by
      intro hw
      obtain ⟨node, pos⟩ := w
      cases hw
      simp only [entryAt, Index.node, hn] at hat
      have hmem := List.mem_of_getElem? hat
      rcases hit with hit | hit
      · exact hit (hempty it hmem)
      · exact hit (hsubs it hmem)
    cases up with
    | nil =>
      cases hw : w.1 with
      | none => simp [frameBlocks, hw]
      | some u =>
        simp only [frameBlocks, List.filterMap_cons, hw, List.filterMap_nil, List.mem_singleton]
        exact fun h => hhead (by rw [hw, h])
    | cons parent up =>
      obtain ⟨⟨u, pit, hu, hpat, hsub⟩, hup⟩ := hvalid
      have hnot := ih hup hpat (Or.inr (by rw [hsub]; simp))
      obtain ⟨node, pos⟩ := w
      cases hu
      rw [frameBlocks_cons, List.mem_cons]
      rintro (h | h)
      · exact hhead (by rw [h])
      · exact hnot h

/-- A leaf without entries is not marked. -/
theorem scanLoop_empty_leaf
    (hn : idx.blocks v = some n)
    (hsubs : ∀ it ∈ n.items, it.sub = none)
    (hempty : ∀ it ∈ n.items, it.entry = none)
    {ibm ibm' : List Bool}
    (hvalid : ∀ it f, r = .entry it f →
      ValidFrames idx f ∧ entryAt idx f = some it ∧ it.entry ≠ none)
    (hbit : ibm.getD v false = false)
    (h : scanLoop idx true fuel r ibm = some ibm') :
    ibm'.getD v false = false := by
  induction fuel generalizing r ibm with
  | zero => cases h
  | succ fuel ih =>
    cases r with
    | null =>
      cases h
      exact hbit
    | overflow => cases h
    | entry it f =>
      obtain ⟨hf, hat, hkey⟩ := hvalid it f rfl
      refine ih (fun it' f' hnext => indexNext_valid hf hnext) ?_ h
      rw [← Bool.not_eq_true]
      intro hset
      rcases setIndexBitmap_marks hset with hset | ⟨_, hmem⟩
      · rw [hbit] at hset
        cases hset
      · exact not_mem_frameBlocks hn hsubs hempty hf hat (Or.inl hkey) hmem

end Runs

section Result

variable {idx : Index} {levels fuel : Nat} {es : List IndexEntry} {bs : List Nat}

/-- `fsck_ibm` before the walk. -/
def emptyIbm (idx : Index) : List Bool :=
  if idx.root.isNode then List.replicate idx.bitmap.length false else []

theorem getD_emptyIbm
    (idx : Index)
    (b : Nat) :
    (emptyIbm idx).getD b false = false := by
  unfold emptyIbm
  split_ifs
  · simp only [List.getD_eq_getElem?_getD, List.getElem?_replicate]
    split_ifs <;> rfl
  · rfl

theorem root_first
    (htree : TreeOk idx levels es bs) :
    ∃ first rest, idx.root.items = first :: rest ∧ first.sub.isSome = idx.root.isNode := by
  obtain ⟨keyed, last, heq, _⟩ := htree.rootOk.shape
  cases keyed with
  | nil => exact ⟨_, _, heq, htree.rootOk.subs _ (by rw [heq]; exact List.mem_cons_self)⟩
  | cons k ks => exact ⟨_, _, heq, htree.rootOk.subs _ (by rw [heq]; exact List.mem_cons_self)⟩

theorem tree_blocksOk
    (htree : TreeOk idx levels es bs) :
    BlocksOk idx bs :=
  fun v hv n hn => htree.blocksOk v n hv hn

theorem blocks_nil_of_root
    (htree : TreeOk idx levels es bs)
    (hroot : idx.root.isNode = false) :
    bs = [] := by
  apply htree.walk.blocks_nil
  intro it hit
  have hsub := htree.rootOk.subs it hit
  rw [hroot] at hsub
  simpa using hsub

theorem settle_root
    {first : Item IndexEntry} {rest : List (Item IndexEntry)}
    (hitems : idx.root.items = first :: rest) :
    settle idx [(none, 0)] =
      if first.sub.isSome then indexWalkDown idx maxLevels first [(none, 0)]
      else if first.entry = none then .null else .entry first [(none, 0)] := by
  have hat : entryAt idx [(none, 0)] = some first := by simp [entryAt, Index.node, hitems]
  rw [settle, hat]
  rfl

/-- A tree with keyed leaves is toured. -/
theorem exists_tour
    (htree : TreeOk idx levels es bs)
    (hleaves : LeavesKeyed idx bs) :
    ∃ vs, Tour idx.content [(none, 0)] idx.root.items es bs vs ∧
      Toured idx (dropEnd (settle idx [(none, 0)])) vs .null := by
  obtain ⟨vs, hvs⟩ := tour_of_walk htree.walk [(none, 0)]
  have hrun := hvs.toured (tree_blocksOk htree) hleaves (by decide) htree.rootOk.shape
    (PlaceOf.root idx)
  exact ⟨vs, hvs, hrun⟩

theorem scanIndexEntries_settle
    (htree : TreeOk idx levels es bs)
    (hleaves : LeavesKeyed idx bs)
    (hfuel : 0 < fuel) :
    scanIndexEntries idx fuel =
      scanLoop idx idx.root.isNode fuel (dropEnd (settle idx [(none, 0)])) (emptyIbm idx) := by
  obtain ⟨first, rest, hitems, hsub⟩ := root_first htree
  obtain ⟨vs, htour, hrun⟩ := exists_tour htree hleaves
  obtain ⟨fuel, rfl⟩ : ∃ n, fuel = n + 1 := ⟨fuel - 1, by omega⟩
  rw [settle_root hitems] at hrun ⊢
  rw [scanIndexEntries, hitems]
  simp only [hsub, emptyIbm]
  cases hnode : idx.root.isNode with
  | false =>
    rw [hnode] at hsub
    have hnone : first.sub = none := by simpa using hsub
    by_cases hend : first.entry = none
    · simp [hend, hnone, dropEnd, scanLoop]
    · simp [hend, dropEnd]
  | true =>
    rw [hnode] at hsub
    rw [hsub, if_pos rfl] at hrun
    obtain ⟨v, hv⟩ := Option.isSome_iff_exists.mp hsub
    -- the sub-node has an entry, so that the way down ends at one
    obtain ⟨g, hg, _⟩ := htour.marks (tree_blocksOk htree) hleaves v
      (htour.sub_mem (by rw [hitems]; exact List.mem_cons_self) hv)
    simp only [if_true, hv, reduceCtorEq, and_false, if_false]
    cases hstart : indexWalkDown idx maxLevels first [(none, 0)] with
    | null => rfl
    | overflow => rfl
    | entry it f =>
      have hkey : it.entry ≠ none := by
        intro hend
        rw [hstart, dropEnd, if_pos hend] at hrun
        rcases hrun with ⟨hchain, _⟩ | ⟨⟨vs', hchain⟩, _⟩
        · cases hchain
          cases hg
        · cases hchain
      simp only [if_neg hkey, dropEnd]

theorem scanIndexEntries_start
    (htree : TreeOk idx levels es bs)
    (hnode : idx.root.isNode = true)
    {ibm : List Bool}
    (h : scanIndexEntries idx fuel = some ibm) :
    ibm = emptyIbm idx ∨ ∃ r, scanLoop idx true fuel r (emptyIbm idx) = some ibm ∧
      ∀ it f, r = .entry it f → ValidFrames idx f ∧ entryAt idx f = some it ∧ it.entry ≠ none := by
  obtain ⟨first, rest, hitems, hsub⟩ := root_first htree
  rw [hnode] at hsub
  have hat : entryAt idx [(none, 0)] = some first := by simp [entryAt, Index.node, hitems]
  have hvalid := @indexWalkDown_valid idx maxLevels first [(none, 0)] rfl hat
  rw [scanIndexEntries, hitems] at h
  have hne : ¬ (first.entry = none ∧ first.sub = none) := by
    rintro ⟨_, hnone⟩
    rw [hnone] at hsub
    cases hsub
  simp only [hsub, if_neg hne] at h
  have hibm : emptyIbm idx = List.replicate idx.bitmap.length false := by
    rw [emptyIbm, hnode, if_pos rfl]
  rw [hibm]
  cases hstart : indexWalkDown idx maxLevels first [(none, 0)] with
  | null =>
    rw [hstart] at h
    exact Or.inl (Option.some.inj h).symm
  | overflow =>
    rw [hstart] at h
    cases h
  | entry it f =>
    rw [hstart] at h hvalid
    refine Or.inr ⟨_, h, ?_⟩
    intro it' f' heq
    split_ifs at heq with hend
    · exact indexNext_valid hvalid.1 heq
    · cases heq
      exact ⟨hvalid.1, hvalid.2, hend⟩

/-- When all blocks are marked every leaf has a key. -/
theorem leavesKeyed_of_marks
    (htree : TreeOk idx levels es bs)
    {ibm : List Bool}
    (h : scanIndexEntries idx fuel = some ibm)
    (hmarks : MarksJust ibm bs) :
    LeavesKeyed idx bs := by
  intro v hv n hn hleaf
  by_contra hempty
  push Not at hempty
  have hset := (hmarks v).mpr hv
  have hclear : ibm.getD v false = false := by
    have hnode : idx.root.isNode = true := by
      by_contra hroot
      rw [blocks_nil_of_root htree (by simpa using hroot)] at hv
      cases hv
    rcases scanIndexEntries_start htree hnode h with rfl | ⟨r, hloop, hvalid⟩
    · exact getD_emptyIbm idx v
    · refine scanLoop_empty_leaf hn ?_ hempty hvalid (getD_emptyIbm idx v) hloop
      intro it hit
      have := (htree.blocksOk v n hv hn).subs it hit
      rw [hleaf] at this
      simpa using this
  rw [hclear] at hset
  cases hset

theorem marks_of_tour
    {vs : List Frames}
    (htree : TreeOk idx levels es bs)
    (htour : Tour idx.content [(none, 0)] idx.root.items es bs vs)
    (hleaves : LeavesKeyed idx bs)
    (hbytes : idx.bitmap.length % 8 = 0)
    (hbits : ∀ b ∈ bs, b < idx.bitmap.length) :
    MarksJust (if idx.root.isNode then
      vs.foldl (fun ibm f => setIndexBitmap idx f ibm) (emptyIbm idx) else emptyIbm idx) bs := by
  cases hnode : idx.root.isNode with
  | false =>
    rw [blocks_nil_of_root htree hnode]
    intro b
    rw [if_neg Bool.false_ne_true, getD_emptyIbm]
    simp
  | true =>
    have hlen : (emptyIbm idx).length = idx.bitmap.length := by
      rw [emptyIbm, hnode, if_pos rfl, List.length_replicate]
    have hplaces : ∀ f ∈ vs, ∀ b ∈ frameBlocks f, b ∈ bs := by
      intro f hf b hb
      exact (htour.blocks_subset hf hb).resolve_left (by simp [frameBlocks])
    intro b
    rw [if_pos rfl, foldl_setIndexBitmap (by rw [hlen, hbytes])
      (fun f hf b hb => by rw [hlen]; exact hbits b (hplaces f hf b hb)), getD_emptyIbm]
    constructor
    · rintro (h | ⟨f, hf, _, hb⟩)
      · cases h
      · exact hplaces f hf b hb
    · intro hb
      exact Or.inr (htour.marks (tree_blocksOk htree) hleaves b hb)

/--
The walk collects just the bits of the blocks of the tree if no leaf block is
empty and the arrays of the walk have a slot for every level, and only then.
-/
theorem indexScan_iff
    (htree : TreeOk idx levels es bs)
    (hbytes : idx.bitmap.length % 8 = 0)
    (hbits : ∀ b ∈ bs, b < idx.bitmap.length)
    (hfuel : es.length < fuel) :
    (∃ ibm, scanIndexEntries idx fuel = some ibm ∧ MarksJust ibm bs) ↔
      LeavesKeyed idx bs ∧ Walk idx.content maxLevels idx.root.items es bs := by
  constructor
  · rintro ⟨ibm, hscan, hmarks⟩
    have hleaves := leavesKeyed_of_marks htree hscan hmarks
    obtain ⟨vs, htour, hrun⟩ := exists_tour htree hleaves
    rw [scanIndexEntries_settle htree hleaves (by omega)] at hscan
    rcases hrun with ⟨_, hlen⟩ | ⟨⟨vs', hchain⟩, _⟩
    · exact ⟨hleaves, htour.walk (tree_blocksOk htree) hleaves hlen⟩
    · rw [scanLoop_overflow hchain] at hscan
      cases hscan
  · rintro ⟨hleaves, hwalk⟩
    obtain ⟨vs, htour, hrun⟩ := exists_tour htree hleaves
    rcases hrun with ⟨hchain, _⟩ | ⟨_, g, hg, hdeep⟩
    · refine ⟨_, (scanIndexEntries_settle htree hleaves (by omega)).trans
        (scanLoop_chain hchain _ (by rw [htour.length_eq]; exact hfuel) _), ?_⟩
      exact marks_of_tour htree htour hleaves hbytes hbits
    · have := htour.length_le hwalk hg
      rw [List.length_singleton] at this
      omega

/-- The directory entry of a file whose name is one character. -/
def nameEntry (c : UInt8) : IndexEntry :=
  ⟨List.replicate 64 0 ++ [1, 0, c, 0], [], 88⟩

/-- A directory with `A` in the first leaf, `B` in the root and some files in the second leaf. -/
def twoLeaves (files : List IndexEntry) : Index where
  rule := .fileName
  up := ⟨fun c => c, 0⟩
  root := ⟨[⟨some (nameEntry 66), some 0⟩, ⟨none, some 1⟩], true, 200⟩
  blocks := fun v =>
    if v = 0 then some ⟨[⟨some (nameEntry 65), none⟩, ⟨none, none⟩], false, 4032⟩
    else if v = 1 then some ⟨files.map (fun e => ⟨some e, none⟩) ++ [⟨none, none⟩], false, 4032⟩
    else none
  bitmap := true :: true :: List.replicate 62 false
  blockRoom := 4032
  filled := fun _ => false

theorem nameEntry_acceptable
    (c : UInt8) :
    Acceptable .fileName (bytesOf (nameEntry c).key) (nameEntry c).key.length :=
  le_refl 68

theorem nameEntry_less
    {a b : UInt8}
    (h : collateFileName ⟨fun c => c, 0⟩
      (bytesOf (nameEntry a).key) (bytesOf (nameEntry b).key) < 0) :
    EntryLess .fileName ⟨fun c => c, 0⟩ (nameEntry a) (nameEntry b) := by
  have hcomp : Comparable .fileName (bytesOf (nameEntry a).key) (nameEntry a).key.length
      (bytesOf (nameEntry b).key) (nameEntry b).key.length :=
    ⟨nameEntry_acceptable a, nameEntry_acceptable b, fun h => by cases h⟩
  exact (collate_neg_iff _ (startsWith_bytesOf _) (startsWith_bytesOf _) hcomp).mp h

theorem twoLeaves_ok
    {files : List IndexEntry}
    (hsorted : (nameEntry 65 :: nameEntry 66 :: files).Pairwise
      (EntryLess .fileName ⟨fun c => c, 0⟩)) :
    TreeOk (twoLeaves files) 1 (nameEntry 65 :: nameEntry 66 :: files) [0, 1] where
  walk := by
    have hend : Walk (twoLeaves files).content 0 [⟨none, none⟩] [] [] :=
      Walk.item Walk.nil
    have hfirst : Walk (twoLeaves files).content 0 [⟨some (nameEntry 65), none⟩, ⟨none, none⟩]
        [nameEntry 65] [] :=
      Walk.item hend
    have hfiles : ∀ es : List IndexEntry, Walk (twoLeaves files).content 0
        (es.map (fun e => ⟨some e, none⟩) ++ [⟨none, none⟩]) es [] := by
      intro es
      induction es with
      | nil => exact hend
      | cons e rest ih => exact Walk.item ih
    have hlast : Walk (twoLeaves files).content 1 [⟨none, some 1⟩] files [1] := by
      simpa using Walk.sub (e := none) rfl (hfiles files) Walk.nil
    exact Walk.sub rfl hfirst hlast
  sorted := hsorted
  nodup := by decide
  rootOk := ⟨⟨[⟨some (nameEntry 66), some 0⟩], some 1, rfl, by simp⟩, by simp [twoLeaves]⟩
  blocksOk := by
    intro v n hv hn
    simp only [List.mem_cons, List.not_mem_nil, or_false] at hv
    rcases hv with rfl | rfl
    · cases hn
      exact ⟨⟨[⟨some (nameEntry 65), none⟩], none, rfl, by simp⟩, by simp⟩
    · cases hn
      refine ⟨⟨_, none, rfl, by simp⟩, ?_⟩
      intro it hit
      rcases List.mem_append.mp hit with hit | hit
      · obtain ⟨e, _, rfl⟩ := List.mem_map.mp hit
        rfl
      · rw [List.mem_singleton.mp hit]
        rfl

theorem indexScan_iff_three :
    ∃ ibm, scanIndexEntries (twoLeaves [nameEntry 67]) 4 = some ibm ∧ MarksJust ibm [0, 1] := by
  have hok : TreeOk (twoLeaves [nameEntry 67]) 1 [nameEntry 65, nameEntry 66, nameEntry 67]
      [0, 1] := by
    apply twoLeaves_ok
    simp only [List.pairwise_cons, List.mem_cons, List.not_mem_nil, forall_eq_or_imp,
      false_imp_iff, implies_true, and_true, List.Pairwise.nil]
    exact ⟨⟨nameEntry_less (by decide), nameEntry_less (by decide)⟩, nameEntry_less (by decide)⟩
  refine (indexScan_iff hok (by decide) (by decide) (by decide)).mpr ⟨?_, hok.walk.mono (by decide)⟩
  intro v hv n hn _
  simp only [List.mem_cons, List.not_mem_nil, or_false] at hv
  rcases hv with rfl | rfl
  · cases hn
    exact ⟨_, List.mem_cons_self, by simp⟩
  · cases hn
    exact ⟨_, List.mem_cons_self, by simp⟩

/-- The second leaf is empty: its block is in use, and its bit is not set. -/
theorem indexScan_misses_empty_leaf :
    TreeOk (twoLeaves []) 1 [nameEntry 65, nameEntry 66] [0, 1] ∧
      scanIndexEntries (twoLeaves []) 3 = some (true :: List.replicate 63 false) := by
  constructor
  · apply twoLeaves_ok
    rw [List.pairwise_pair]
    exact nameEntry_less (by decide)
  · decide +kernel

end Result

end NtfsPlus.Ntfsck

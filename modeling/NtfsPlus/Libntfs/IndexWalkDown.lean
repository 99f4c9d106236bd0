import NtfsPlus.Libntfs.IndexWalk

/-!
# Walking down over arbitrary index blocks

`ntfs_index_walk_down` follows the sub-node of the first entry from block to
block and notes each block in the next slot of `parent_vcn` and `parent_pos`.
Unlike the lookup, which goes through `ntfs_icx_parent_inc`, it increments
`pindex` without looking at `MAX_PARENT_VCN`, and nothing bounds its loop.

Here the blocks are whatever the passes of the loop find, not a tree, and the
slots are numbers without a bound.  `indexWalkDownLoop_safe_iff` says when the
loop ends and stays inside the arrays: the chain of first sub-nodes has to end
while there are slots.
-/

namespace NtfsPlus.Libntfs

section Model

/-- `MAX_PARENT_VCN`. -/
def maxParentVcn : Nat := 64

/-- What `ntfs_index_entry_inconsistent` says of the first entry of a block. -/
inductive EntryCheck where
  | consistent
  /-- Repaired, and whether `ntfsck_update_index_entry` succeeds. -/
  | repaired (written : Bool)
  | refused
deriving DecidableEq, Repr

/-- A block that was read: the check of its first entry, and the entry after it. -/
structure FoundBlock (ν : Type) where
  check : EntryCheck
  /-- `INDEX_ENTRY_NODE`. -/
  node : Bool
  /-- `ntfs_ie_get_vcn`. -/
  vcn : ν

/-- The first entry of a block, unless it is given up. -/
def FoundBlock.entry {ν : Type} (b : FoundBlock ν) : Option (FoundBlock ν) :=
  match b.check with
  | .consistent => some b
  | .repaired true => some b
  | .repaired false => none
  | .refused => none

variable {ν : Type}

/-- The end of the walk: the entry or null, `pindex` and the slots that were stored. -/
structure WalkedDown (ν : Type) where
  entry : Option (FoundBlock ν)
  pindex : Nat
  stored : List (Nat × ν)

/--
The loop of `ntfs_index_walk_down` from the sub-node `vcn` on, at most `fuel`
passes.  `read pass vcn` is the block that a pass reads; none if the read fails.
-/
def indexWalkDownLoop (read : Nat → ν → Option (FoundBlock ν)) :
    Nat → Nat → Bool → Nat → ν → List (Nat × ν) → Option (WalkedDown ν)
  | 0, _, _, _, _, _ => none
  | fuel + 1, pass, isInRoot, pindex, vcn, stored =>
    let pindex := if isInRoot then 1 else pindex + 1
    let stored := stored ++ [(pindex, vcn)]
    match (read pass vcn).bind FoundBlock.entry with
    | none => some ⟨none, pindex, stored⟩
    | some first =>
      if first.node then
        indexWalkDownLoop read fuel (pass + 1) false pindex first.vcn stored
      else
        some ⟨some first, pindex, stored⟩

end Model

section Chain

variable {ν : Type} (read : Nat → ν → Option (FoundBlock ν))

/-- The block behind a block in the chain of first sub-nodes. -/
def firstSubNode (pass : Nat) (vcn : ν) : Option ν :=
  ((read pass vcn).bind FoundBlock.entry).bind fun first =>
    if first.node then some first.vcn else none

/-- The block that is `n` blocks down the chain of first sub-nodes, if it goes that far. -/
def subNodeChain (pass : Nat) (vcn : ν) : Nat → Option ν
  | 0 => some vcn
  | n + 1 => (firstSubNode read pass vcn).bind fun sub => subNodeChain (pass + 1) sub n

/-- The slot that the first pass stores. -/
def firstSlot (isInRoot : Bool) (pindex : Nat) : Nat :=
  if isInRoot then 1 else pindex + 1

/-- The loop ends, and every slot it stores is inside the arrays. -/
def SafeWalkDown (isInRoot : Bool) (pindex : Nat) (vcn : ν) : Prop :=
  ∃ fuel r, indexWalkDownLoop read fuel 0 isInRoot pindex vcn [] = some r ∧
    ∀ slot ∈ r.stored, slot.1 < maxParentVcn

variable {read}

variable {pass n fuel pindex : Nat} {isInRoot : Bool}

theorem indexWalkDownLoop_last
    {vcn : ν}
    (h : firstSubNode read pass vcn = none)
    (fuel pindex : Nat)
    (isInRoot : Bool)
    (stored : List (Nat × ν)) :
    ∃ r, indexWalkDownLoop read (fuel + 1) pass isInRoot pindex vcn stored = some r ∧
      r.stored = stored ++ [(firstSlot isInRoot pindex, vcn)] := by
  unfold firstSubNode at h
  rw [indexWalkDownLoop]
  cases hread : (read pass vcn).bind FoundBlock.entry with
  | none => exact ⟨_, rfl, rfl⟩
  | some first =>
    rw [hread, Option.bind_some] at h
    split_ifs at h with hnode
    dsimp only
    rw [if_neg hnode]
    exact ⟨_, rfl, rfl⟩

theorem indexWalkDownLoop_next
    {vcn sub : ν}
    (h : firstSubNode read pass vcn = some sub)
    (fuel pindex : Nat)
    (isInRoot : Bool)
    (stored : List (Nat × ν)) :
    indexWalkDownLoop read (fuel + 1) pass isInRoot pindex vcn stored =
      indexWalkDownLoop read fuel (pass + 1) false (firstSlot isInRoot pindex) sub
        (stored ++ [(firstSlot isInRoot pindex, vcn)]) := by
  unfold firstSubNode at h
  rw [indexWalkDownLoop]
  cases hread : (read pass vcn).bind FoundBlock.entry with
  | none =>
    rw [hread] at h
    cases h
  | some first =>
    rw [hread, Option.bind_some] at h
    split_ifs at h with hnode
    cases h
    dsimp only
    rw [if_pos hnode]
    rfl

/-- The run over a chain that ends: it stores one slot after the other. -/
theorem indexWalkDownLoop_ends
    {vcn : ν}
    (h : subNodeChain read pass vcn n = none)
    (pindex : Nat)
    (isInRoot : Bool)
    (stored : List (Nat × ν)) :
    ∃ fuel r, indexWalkDownLoop read fuel pass isInRoot pindex vcn stored = some r ∧
      ∀ slot ∈ r.stored, slot ∈ stored ∨ slot.1 < firstSlot isInRoot pindex + n := by
  induction n generalizing pass pindex isInRoot vcn stored with
  | zero => cases h
  | succ n ih =>
    cases hsub : firstSubNode read pass vcn with
    | none =>
      obtain ⟨r, hr, hstored⟩ := indexWalkDownLoop_last hsub 0 pindex isInRoot stored
      refine ⟨1, r, hr, ?_⟩
      intro slot hslot
      rw [hstored, List.mem_append, List.mem_singleton] at hslot
      rcases hslot with hslot | rfl
      · exact Or.inl hslot
      · exact Or.inr (by dsimp only; omega)
    | some sub =>
      rw [subNodeChain, hsub] at h
      obtain ⟨fuel, r, hr, hstored⟩ := ih h (firstSlot isInRoot pindex) false
        (stored ++ [(firstSlot isInRoot pindex, vcn)])
      refine ⟨fuel + 1, r, ?_, ?_⟩
      · rw [indexWalkDownLoop_next hsub]
        exact hr
      · intro slot hslot
        rcases hstored slot hslot with hold | hlt
        · rw [List.mem_append, List.mem_singleton] at hold
          rcases hold with hold | rfl
          · exact Or.inl hold
          · exact Or.inr (by dsimp only; omega)
        · rw [firstSlot, if_neg Bool.false_ne_true] at hlt
          omega

theorem indexWalkDownLoop_keeps
    {vcn : ν} {stored : List (Nat × ν)} {r : WalkedDown ν}
    (h : indexWalkDownLoop read fuel pass isInRoot pindex vcn stored = some r) :
    stored ++ [(firstSlot isInRoot pindex, vcn)] ⊆ r.stored := by
  induction fuel generalizing pass pindex isInRoot vcn stored with
  | zero => cases h
  | succ fuel ih =>
    cases hsub : firstSubNode read pass vcn with
    | none =>
      obtain ⟨r', hr', hstored⟩ := indexWalkDownLoop_last hsub fuel pindex isInRoot stored
      rw [h] at hr'
      cases hr'
      rw [hstored]
      exact List.Subset.refl _
    | some sub =>
      rw [indexWalkDownLoop_next hsub] at h
      exact fun slot hslot => ih h (List.mem_append_left _ hslot)

/-- A run that ends has stored a slot for every block of the chain. -/
theorem indexWalkDownLoop_stores
    {vcn sub : ν} {stored : List (Nat × ν)} {r : WalkedDown ν}
    (h : indexWalkDownLoop read fuel pass isInRoot pindex vcn stored = some r)
    (hchain : subNodeChain read pass vcn n = some sub) :
    ∃ v, (firstSlot isInRoot pindex + n, v) ∈ r.stored := by
  induction n generalizing fuel pass pindex isInRoot vcn stored with
  | zero => exact ⟨vcn, indexWalkDownLoop_keeps h (by simp)⟩
  | succ n ih =>
    cases hsub : firstSubNode read pass vcn with
    | none =>
      rw [subNodeChain, hsub] at hchain
      cases hchain
    | some next =>
      cases fuel with
      | zero => cases h
      | succ fuel =>
        rw [indexWalkDownLoop_next hsub] at h
        rw [subNodeChain, hsub] at hchain
        obtain ⟨v, hv⟩ := ih h hchain
        refine ⟨v, ?_⟩
        rw [firstSlot, if_neg Bool.false_ne_true, Nat.add_right_comm] at hv
        exact hv

/-- The walk is safe exactly when the chain of first sub-nodes ends within the slots left. -/
theorem indexWalkDownLoop_safe_iff
    (read : Nat → ν → Option (FoundBlock ν))
    (isInRoot : Bool)
    (pindex : Nat)
    (vcn : ν) :
    SafeWalkDown read isInRoot pindex vcn ↔
      subNodeChain read 0 vcn (maxParentVcn - firstSlot isInRoot pindex) = none := by
  constructor
  · rintro ⟨fuel, r, hr, hslots⟩
    cases hchain : subNodeChain read 0 vcn (maxParentVcn - firstSlot isInRoot pindex) with
    | none => rfl
    | some sub =>
      obtain ⟨v, hv⟩ := indexWalkDownLoop_stores hr hchain
      have hlt := hslots _ hv
      omega
  · intro hchain
    have hroom : firstSlot isInRoot pindex < maxParentVcn := by
      by_contra hfull
      rw [show maxParentVcn - firstSlot isInRoot pindex = 0 by omega] at hchain
      cases hchain
    obtain ⟨fuel, r, hr, hslots⟩ := indexWalkDownLoop_ends hchain pindex isInRoot []
    refine ⟨fuel, r, hr, fun slot hslot => ?_⟩
    have hlt := (hslots slot hslot).resolve_left (List.not_mem_nil)
    omega

/-- Blocks of which only block 0 can be read; its first entry has itself as sub-node. -/
def selfReference : Nat → Int → Option (FoundBlock Int) :=
  fun _ vcn => if vcn = 0 then some ⟨.consistent, true, 0⟩ else none

/-- A block that refers to itself: the walk from the root never ends. -/
theorem indexWalkDownLoop_endless :
    (∀ fuel, indexWalkDownLoop selfReference fuel 0 true 0 0 [] = none) ∧
    ¬SafeWalkDown selfReference true 0 0 := by
  have hself : ∀ pass, firstSubNode selfReference pass 0 = some 0 := fun _ => rfl
  have hloop : ∀ fuel pass isInRoot pindex stored,
      indexWalkDownLoop selfReference fuel pass isInRoot pindex 0 stored = none := by
    intro fuel
    induction fuel with
    | zero =>
      intros
      rfl
    | succ fuel ih =>
      intro pass isInRoot pindex stored
      exact ih _ _ _ _
  refine ⟨fun fuel => hloop fuel 0 true 0 [], ?_⟩
  rintro ⟨fuel, r, hr, -⟩
  rw [hloop] at hr
  cases hr

end Chain

end NtfsPlus.Libntfs

import NtfsPlus.Lib.PartialOrbit
import NtfsPlus.Libntfs.IndexEntryCheck

/-!
# Looking a name up in a directory

`__ntfs_inode_lookup_by_name` goes through the entries of the index root and, where
the name belongs in front of an entry with a sub-node, reads the block of the
sub-node and goes on there.  The blocks are arbitrary bytes.

In a block the search comes to an end: an entry that passes its check has a length
(`indexEntryInconsistent_length`).  From block to block it follows whatever the
entries say; a block is only asked for its own number and for not being a leaf.
`lookupByName_ends_iff`: the search ends exactly if it descends into no block twice.
-/

namespace NtfsPlus.Libntfs

open PartialOrbit

section Model

/-- The index and how the functions that are called answer. -/
structure NameLookup where
  /-- Whether `ntfs_fix_problem` repairs an entry. -/
  fix : IeProblem → Bool
  /-- `ntfs_names_full_collate` of the name and the name of an entry. -/
  collate : Bytes → Nat → Int
  indexBlockSize : Nat
  indexVcnSizeBits : Nat
  /-- The block at a position of the index allocation, if it can be read. -/
  read : Nat → Option Bytes
  dataSize : Nat
  inside : ∀ pos b, read pos = some b → pos < dataSize

/-- The index root in its record: the bytes, the first entry and the end. -/
structure RootEntries where
  m : Bytes
  first : Nat
  indexEnd : Nat

/-- How the loop over the entries of a node ends. -/
inductive ScanEnd where
  | failed
  | found (m : Bytes) (ie : Nat)
  /-- The name belongs in front of this entry. -/
  | before (m : Bytes) (ie : Nat)

/-- How the lookup ends. -/
inductive LookupEnd where
  | failed
  | notFound
  | found (m : Bytes) (ie : Nat)

variable (l : NameLookup)

/-- The entries are checked as file names, without an index context. -/
def NameLookup.env : EntryCheckEnv where
  rule := .fileName
  ictx := none
  fix := l.fix

/-- The loop over the entries of a node. -/
def scanEntries (indexEnd : Nat) : Nat → Bytes → Nat → Option ScanEnd
  | 0, _, _ => none
  | fuel + 1, m, ie =>
    if indexEnd < ie + 16 ∨ indexEnd < ie + ieLengthAt m ie then
      some .failed
    else if ieEndAt m ie then
      some (.before m ie)
    else
      let s := indexEntryInconsistent l.env m ie
      if s.ret < 0 then some .failed
      else if l.collate s.m ie = -1 then some (.before s.m ie)
      else if l.collate s.m ie ≠ 0 then
        scanEntries indexEnd fuel s.m (ie + ieLengthAt s.m ie)
      else
        some (.found s.m ie)

/-- The sub-node of an entry, as the bits of a `VCN`. -/
def subNodeVcn (m : Bytes) (ie : Nat) : Nat :=
  le64 m (ie + ieLengthAt m ie - 8)

/-- The block of a VCN, if it can be read and passes its check. -/
def NameLookup.block (vcn : Nat) : Option Bytes :=
  (l.read (vcn * 2 ^ l.indexVcnSizeBits % 2 ^ 64)).bind fun b =>
    if (indexBlockInconsistent l.indexBlockSize vcn b).1 then none else some b

/-- What a scan of a block leads to: the end of the lookup, or the next block. -/
def leaveBlock (b : Bytes) : ScanEnd → LookupEnd ⊕ Nat
  | .failed => .inl .failed
  | .found m ie => .inl (.found m ie)
  | .before m ie =>
    if ieNodeAt m ie then
      -- a leaf has no sub-nodes, and a VCN is not negative
      if (b 36).toNat % 2 = 0 ∨ 2 ^ 63 ≤ subNodeVcn m ie then .inl .failed
      else .inr (subNodeVcn m ie)
    else
      .inl .notFound

/-- One pass from `descend_into_child_node` on. -/
def visitBlock (vcn : Nat) : Option (LookupEnd ⊕ Nat) :=
  match l.block vcn with
  | none => some (.inl .failed)
  | some b => (scanEntries l (ieGetEnd b) (ieGetEnd b + 1) b (ieGetFirst b)).map (leaveBlock b)

/-- The search from a block on. -/
def descend : Nat → Nat → Option LookupEnd
  | 0, _ => none
  | fuel + 1, vcn =>
    (visitBlock l vcn).bind fun
      | .inl res => some res
      | .inr vcn => descend fuel vcn

/-- `__ntfs_inode_lookup_by_name`; `none` if it has not ended by then. -/
def lookupByName (root : RootEntries) (fuel : Nat) : Option LookupEnd :=
  (scanEntries l root.indexEnd (root.indexEnd + 1) root.m root.first).bind fun
    | .failed => some .failed
    | .found m ie => some (.found m ie)
    | .before m ie => if ieNodeAt m ie then descend l fuel (subNodeVcn m ie) else some .notFound

/-- The block that the search goes to from a block. -/
def nextVcn (vcn : Nat) : Option Nat :=
  (visitBlock l vcn).bind Sum.getRight?

end Model

section Entries

variable {env : EntryCheckEnv} {m : Bytes} {ie : Nat} {s : EntryScan}

/-- An entry as it was, and not the empty one, or one with a length. -/
def Moving (m : Bytes) (ie : Nat) (s : EntryScan) : Prop :=
  (s.m = m ∧ NotEmptyEntry m ie) ∨ 0 < ieLengthAt s.m ie

/-- An entry that is accepted has a length. -/
def AcceptedMoves (ie : Nat) (s : EntryScan) : Prop :=
  0 ≤ s.ret → 0 < ieLengthAt s.m ie

theorem acceptedMoves_failed : AcceptedMoves ie s.failed := by
  intro hret
  exact absurd hret (by decide : ¬(0 : Int) ≤ -1)

theorem checkZeroLength_moving :
    StepHolds (Moving m ie) (AcceptedMoves ie) (checkZeroLength env ie ⟨m, 0, []⟩) := by
  unfold checkZeroLength
  dsimp only
  split_ifs with hzero hkey hfix
  · refine .inr ?_
    simp [EntryScan.fixed]
  · exact acceptedMoves_failed
  · exact .inl ⟨rfl, .inr hkey⟩
  · exact .inl ⟨rfl, .inl hzero⟩

theorem checkEndFlag_moving
    (h : Moving m ie s) :
    StepHolds (Moving m ie) (AcceptedMoves ie) (checkEndFlag env ie s) := by
  unfold checkEndFlag
  dsimp only
  split_ifs with hbare hnone hfix
  · refine .inr ?_
    simp [EntryScan.fixed, EntryScan.read, hbare]
  · exact acceptedMoves_failed
  · exact h
  · exact h

theorem checkNodeRoom_moving
    (h : Moving m ie s) :
    StepHolds (Moving m ie) (AcceptedMoves ie) (checkNodeRoom ie s) := by
  unfold checkNodeRoom
  dsimp only
  split_ifs
  · exact acceptedMoves_failed
  · exact h
  · exact h

theorem checkSubNodeFlag_moving
    (h : Moving m ie s) :
    StepHolds (Moving m ie) (AcceptedMoves ie) (checkSubNodeFlag env ie s) := by
  unfold checkSubNodeFlag
  dsimp only
  split_ifs with hrule heq hnode hfix
  · exact h
  · refine .inr ?_
    have hkey := alignedKeyEnd_bounds s.m ie
    have hlength := lengthBeforeVcn_cases s.m ie
    simp only [EntryScan.read] at heq
    simp only [EntryScan.fixed, EntryScan.read, ieLengthAt_setFlags]
    omega
  · exact acceptedMoves_failed
  · exact h
  · exact h

theorem checkKeyEnd_moves
    (hend : ieEndAt m ie = false)
    (h : Moving m ie s) :
    StepHolds (AcceptedMoves ie) (AcceptedMoves ie) (checkKeyEnd ie s) := by
  unfold checkKeyEnd
  dsimp only
  split_ifs with hended hover
  · intro _
    rcases h with ⟨hsame, -⟩ | hlength
    · rw [show (s.read [(ie + 12, 2)]).m = m from hsame, hend] at hended
      cases hended
    · exact hlength
  · exact acceptedMoves_failed
  · intro _
    rcases h with ⟨hsame, hfilled⟩ | hlength
    · -- an entry of length zero has a key, and the key would leave it
      change ¬(ieKeyLengthAt s.m ie ≠ 0 ∧ ieLengthAt s.m ie < ieKeyLengthAt s.m ie + 16) at hover
      change 0 < ieLengthAt s.m ie
      rw [hsame] at hover ⊢
      rcases hfilled with hne | hne <;> omega
    · exact hlength

/-- An entry that is no end entry and passes the check has a length, repaired or not. -/
theorem indexEntryInconsistent_length
    (henv : env.ictx = none)
    (hend : ieEndAt m ie = false) :
    AcceptedMoves ie (indexEntryInconsistent env m ie) := by
  have hheader : StepHolds (AcceptedMoves ie) (AcceptedMoves ie) (checkEntryHeader env m ie) := by
    have hvcn : ∀ s, Moving m ie s →
        StepHolds (Moving m ie) (AcceptedMoves ie) (checkNodeVcn env ie s) := by
      intro s h
      rw [checkNodeVcn, henv]
      exact h
    exact ((((checkZeroLength_moving.bind fun _ => checkEndFlag_moving).bind hvcn).bind
      fun _ => checkNodeRoom_moving).bind fun _ => checkSubNodeFlag_moving).bind
      fun _ => checkKeyEnd_moves hend
  unfold indexEntryInconsistent
  cases hcase : checkEntryHeader env m ie with
  | error s =>
    rw [hcase] at hheader
    exact hheader
  | ok s =>
    rw [hcase] at hheader
    unfold checkContent
    dsimp only
    split_ifs <;> first | exact acceptedMoves_failed | exact hheader

end Entries

section Blocks

variable (l : NameLookup)

/-- The scan of a block ends. -/
theorem scanEntries_ends
    {indexEnd fuel ie : Nat}
    (m : Bytes)
    (hfuel : indexEnd ≤ ie + fuel) :
    ∃ r, scanEntries l indexEnd (fuel + 1) m ie = some r := by
  induction fuel generalizing m ie with
  | zero =>
    rw [scanEntries, if_pos (.inl (by omega))]
    exact ⟨_, rfl⟩
  | succ fuel ih =>
    rw [scanEntries]
    dsimp only
    split_ifs with hout hend hfail hbefore hmore
    · exact ⟨_, rfl⟩
    · exact ⟨_, rfl⟩
    · exact ⟨_, rfl⟩
    · exact ⟨_, rfl⟩
    · have hlength := indexEntryInconsistent_length rfl
        (Bool.eq_false_iff.mpr hend) (Int.not_lt.mp hfail)
      exact ih _ (by omega)
    · exact ⟨_, rfl⟩

/-- So does the visit of a block. -/
theorem visitBlock_ends
    (vcn : Nat) :
    ∃ r, visitBlock l vcn = some r := by
  unfold visitBlock
  cases l.block vcn with
  | none => exact ⟨_, rfl⟩
  | some b =>
    obtain ⟨r, hr⟩ := scanEntries_ends l b (Nat.le_add_left (ieGetEnd b) (ieGetFirst b))
    dsimp only
    rw [hr]
    exact ⟨_, rfl⟩

/-- A block that is gone on from holds its own number, so its position tells its number. -/
theorem block_of_nextVcn
    {vcn v : Nat}
    (h : nextVcn l vcn = some v) :
    ∃ b, l.read (vcn * 2 ^ l.indexVcnSizeBits % 2 ^ 64) = some b ∧ le64 b 16 = vcn := by
  unfold nextVcn visitBlock at h
  cases hblock : l.block vcn with
  | none =>
    rw [hblock] at h
    cases h
  | some b =>
    obtain ⟨b', hread, hcheck⟩ := Option.bind_eq_some_iff.mp hblock
    split_ifs at hcheck with hbad
    refine ⟨b', hread, ?_⟩
    by_contra hne
    exact hbad (by rw [indexBlockInconsistent]; simp [hne])

/-- Only finitely many blocks lead on. -/
theorem nextVcn_finite : {vcn | (nextVcn l vcn).isSome}.Finite := by
  refine Set.Finite.of_injOn (t := Set.Iio l.dataSize)
    (f := fun vcn => vcn * 2 ^ l.indexVcnSizeBits % 2 ^ 64) ?_ ?_ (Set.finite_Iio _)
  · intro vcn h
    obtain ⟨v, hv⟩ := Option.isSome_iff_exists.mp h
    obtain ⟨b, hb, -⟩ := block_of_nextVcn l hv
    exact l.inside _ b hb
  · intro vcn h vcn' h' heq
    obtain ⟨v, hv⟩ := Option.isSome_iff_exists.mp h
    obtain ⟨v', hv'⟩ := Option.isSome_iff_exists.mp h'
    obtain ⟨b, hb, hvcn⟩ := block_of_nextVcn l hv
    obtain ⟨b', hb', hvcn'⟩ := block_of_nextVcn l hv'
    dsimp only at heq
    rw [heq, hb'] at hb
    cases hb
    exact hvcn.symm.trans hvcn'

/-- The descent goes on as long as its orbit. -/
theorem descend_eq_none
    (fuel vcn : Nat) :
    descend l fuel vcn = none ↔ orbit (nextVcn l) fuel vcn ≠ none := by
  induction fuel generalizing vcn with
  | zero => simp [descend, orbit]
  | succ fuel ih =>
    obtain ⟨r, hr⟩ := visitBlock_ends l vcn
    rw [descend, orbit, nextVcn, hr]
    cases r with
    | inl res => simp
    | inr next => exact ih next

/-- The block that the search goes to from the root, if it gets there. -/
def rootVcn (root : RootEntries) : Option Nat :=
  match scanEntries l root.indexEnd (root.indexEnd + 1) root.m root.first with
  | some (.before m ie) => if ieNodeAt m ie then some (subNodeVcn m ie) else none
  | _ => none

/-- The lookup ends exactly when it descends into no block twice. -/
theorem lookupByName_ends_iff
    (root : RootEntries) :
    (∃ fuel res, lookupByName l root fuel = some res) ↔
      ∀ vcn, rootVcn l root = some vcn → NoRepeat (nextVcn l) vcn := by
  obtain ⟨r, hr⟩ := scanEntries_ends l root.m (Nat.le_add_left root.indexEnd root.first)
  unfold lookupByName rootVcn
  rw [hr]
  cases r with
  | failed => simp
  | found m ie => simp
  | before m ie =>
    by_cases hnode : ieNodeAt m ie
    · simp only [Option.bind_some, hnode, if_true, Option.some.injEq, forall_eq']
      rw [← orbit_ends_iff (nextVcn_finite l)]
      refine exists_congr fun fuel => ?_
      rw [← not_iff_not, ← ne_eq, ← descend_eq_none]
      simp [Option.eq_none_iff_forall_ne_some]
    · simp [hnode]

/-- A block with just an end entry, whose sub-node is block 0. -/
def selfBlock : Bytes :=
  patches (fun _ => 0) 0
    [(24, leBytes 4 16), (28, leBytes 4 40), (32, leBytes 4 4072), (36, [1]), (48, leBytes 2 24),
      (52, leBytes 2 3)]

/-- An index allocation with that block as its block 0. -/
def selfLookup : NameLookup where
  fix := fun _ => false
  collate := fun _ _ => 0
  indexBlockSize := 4096
  indexVcnSizeBits := 12
  read := fun pos => if pos = 0 then some selfBlock else none
  dataSize := 4096
  inside := by
    intro pos b h
    split_ifs at h
    omega

/-- A root that leads to a block that is its own sub-node: the lookup never ends. -/
theorem lookupByName_endless :
    ¬∃ fuel res, lookupByName selfLookup ⟨selfBlock, 40, 64⟩ fuel = some res := by
  have hself : nextVcn selfLookup 0 = some 0 := by decide +kernel
  have horbit : ∀ fuel, orbit (nextVcn selfLookup) fuel 0 = some 0 := by
    intro fuel
    induction fuel with
    | zero => rfl
    | succ fuel ih => rw [orbit, hself, Option.bind_some, ih]
  rintro ⟨fuel, res, hres⟩
  have hroot : lookupByName selfLookup ⟨selfBlock, 40, 64⟩ fuel = descend selfLookup fuel 0 := by
    have hscan : scanEntries selfLookup 64 65 selfBlock 40 = some (.before selfBlock 40) := by
      rw [scanEntries, if_neg (by decide +kernel), if_pos (by decide +kernel)]
    have hvcn : subNodeVcn selfBlock 40 = 0 := by decide +kernel
    rw [lookupByName, hscan, Option.bind_some]
    dsimp only
    rw [if_pos (by decide +kernel), hvcn]
  have hnone : descend selfLookup fuel 0 = none := by
    rw [descend_eq_none, horbit]
    exact Option.some_ne_none 0
  rw [hroot, hnone] at hres
  cases hres

end Blocks

end NtfsPlus.Libntfs

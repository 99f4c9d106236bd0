import NtfsPlus.Libntfs.FsckLcnBitmapRefinement

/-!
# The runlist of duplicated clusters

`ntfs_fsck_check_and_set_lcnbmp` collects the clusters it finds marked in a
runlist.  It works on one pending run (`tmp_rl`) and the runlist built so far
(`dup_rl`).  `ListsDup` says which VCN/LCN pairs such a runlist stands for;
`DupState.Lists` does so for the pair of pending run and runlist.  Every
cluster noted is appended to the pairs, and giving the pending run to
`ntfs_fsck_make_dup_runlist` changes nothing but the representation.
-/

namespace NtfsPlus.Libntfs

section Pairs

/-- The clusters of a run: each VCN with its LCN, in ascending order. -/
def clustersOf (e : RunlistElement) : List (Int × Int) :=
  (List.range e.length.toNat).map (fun (i : Nat) => (e.vcn + i, e.lcn + i))

theorem mem_clustersOf
    {e : RunlistElement} {v l : Int} :
    (v, l) ∈ clustersOf e ↔ e.vcn ≤ v ∧ v < e.vcn + e.length ∧ l - v = e.lcn - e.vcn := by
  simp only [clustersOf, List.mem_map, List.mem_range, Prod.mk.injEq]
  constructor
  · omega
  · rintro ⟨hlo, hhi, hdiff⟩
    exact ⟨(v - e.vcn).toNat, by omega, by omega, by omega⟩

/-- A run followed by a run that goes on in VCNs and LCNs. -/
def Contiguous (a b : RunlistElement) : Prop :=
  a.vcn + a.length = b.vcn ∧ a.lcn + a.length = b.lcn

theorem clustersOf_joined
    {a b : RunlistElement}
    (h : Contiguous a b)
    (ha : 0 ≤ a.length)
    (hb : 0 ≤ b.length) :
    clustersOf ⟨a.vcn, a.lcn, a.length + b.length⟩ = clustersOf a ++ clustersOf b := by
  obtain ⟨hv, hl⟩ := h
  have hlen : (a.length + b.length).toNat = a.length.toNat + b.length.toNat := by omega
  simp only [clustersOf, hlen, List.range_add, List.map_append, List.map_map]
  congr 1
  apply List.map_congr_left
  simp only [Function.comp, Prod.mk.injEq]
  omega

theorem clustersOf_succ
    {e : RunlistElement} {v l : Int}
    (he : 0 ≤ e.length)
    (hv : e.vcn + e.length = v)
    (hl : e.lcn + e.length = l) :
    clustersOf ⟨e.vcn, e.lcn, e.length + 1⟩ = clustersOf e ++ [(v, l)] := by
  have hone : clustersOf ⟨v, l, 1⟩ = [(v, l)] := by simp [clustersOf]
  rw [← hone]
  exact clustersOf_joined (b := ⟨v, l, 1⟩) ⟨hv, hl⟩ he Int.one_nonneg

end Pairs

section Lists

/--
A runlist of duplicates stands for the given VCN/LCN pairs: nonempty runs, no
two neighbours that could be one run, and the terminator behind the last run.
There is no runlist (`NULL`) when there is no pair.
-/
def ListsDup (dup : Option Runlist) (pairs : List (Int × Int)) : Prop :=
  match dup with
  | none => pairs = []
  | some rl => ∃ runs last, rl = runs ++ [last, enoentAt (last.vcn + last.length)] ∧
      (∀ e ∈ runs ++ [last], 0 < e.length) ∧
      (runs ++ [last]).IsChain (fun a b => ¬ Contiguous a b) ∧
      (runs ++ [last]).flatMap clustersOf = pairs

variable {pairs : List (Int × Int)}

/-- `ntfs_fsck_make_dup_runlist` appends the clusters of the new run. -/
theorem listsDup_makeDupRunlist
    {dup : Option Runlist}
    (h : ListsDup dup pairs)
    {new : RunlistElement}
    (hnew : 0 < new.length) :
    ListsDup (some (makeDupRunlist dup new)) (pairs ++ clustersOf new) := by
  cases dup with
  | none =>
    have hpairs : pairs = [] := h
    subst hpairs
    exact ⟨[], new, rfl, by simpa using hnew, List.isChain_singleton new, by simp⟩
  | some rl =>
    obtain ⟨runs, last, rfl, hpos, hchain, rfl⟩ := h
    have hlast : 0 < last.length := hpos last (by simp)
    have htake : (runs ++ [last, enoentAt (last.vcn + last.length)]).takeWhile
        (fun e => e.length ≠ 0) = runs ++ [last] := by
      have hne : ∀ e ∈ runs ++ [last], decide (e.length ≠ 0) = true :=
        fun e he => decide_eq_true (by have := hpos e he; omega)
      have hstop : [enoentAt (last.vcn + last.length)].takeWhile
          (fun e => decide (e.length ≠ 0)) = [] := rfl
      rw [show runs ++ [last, enoentAt (last.vcn + last.length)] =
        (runs ++ [last]) ++ [enoentAt (last.vcn + last.length)] by simp,
        List.takeWhile_append_of_pos hne, hstop, List.append_nil]
    unfold makeDupRunlist
    dsimp only
    rw [htake, List.getLast?_concat]
    dsimp only
    split_ifs with hjoin
    · -- the last run goes on: only its length and the terminator change
      have hdrop : (runs ++ [last, enoentAt (last.vcn + last.length)]).drop
          (runs ++ [last]).length = [enoentAt (last.vcn + last.length)] := by
        rw [show runs ++ [last, enoentAt (last.vcn + last.length)] =
          (runs ++ [last]) ++ [enoentAt (last.vcn + last.length)] by simp, List.drop_left]
      rw [hdrop, List.dropLast_concat]
      refine ⟨runs, ⟨last.vcn, last.lcn, last.length + new.length⟩, rfl, ?_, ?_, ?_⟩
      · intro e he
        rcases List.mem_append.mp he with hmem | hmem
        · exact hpos e (by simp [hmem])
        · rw [List.mem_singleton.mp hmem]
          show 0 < last.length + new.length
          omega
      · rw [List.isChain_append] at hchain ⊢
        refine ⟨hchain.1, List.isChain_singleton _, ?_⟩
        intro a ha b hb
        have hb' : b = ⟨last.vcn, last.lcn, last.length + new.length⟩ := by simpa using hb.symm
        subst hb'
        exact hchain.2.2 a ha last (by simp)
      · rw [List.flatMap_append, List.flatMap_append, List.append_assoc]
        congr 1
        simp only [List.flatMap_singleton]
        exact clustersOf_joined hjoin (by omega) (by omega)
    · refine ⟨runs ++ [last], new, rfl, ?_, ?_, ?_⟩
      · intro e he
        rcases List.mem_append.mp he with hmem | hmem
        · exact hpos e hmem
        · rw [List.mem_singleton.mp hmem]
          exact hnew
      · rw [List.isChain_append]
        refine ⟨hchain, List.isChain_singleton new, ?_⟩
        intro a ha b hb
        have ha' : a = last := by simpa using ha.symm
        have hb' : b = new := by simpa using hb.symm
        subst ha' hb'
        exact hjoin
      · rw [List.flatMap_append, List.flatMap_singleton]

/--
The pending run and the runlist together stand for the given pairs.  `shift`
is the distance of VCN and LCN in the run that is being scanned.
-/
def DupState.Lists (s : DupState) (shift : Int) (pairs : List (Int × Int)) : Prop :=
  ∃ done, ListsDup s.dup done ∧ (s.tmp.lcn = -1 ∧ pairs = done ∨
      0 ≤ s.tmp.lcn ∧ 0 < s.tmp.length ∧ s.tmp.vcn = s.tmp.lcn + shift ∧
        pairs = done ++ clustersOf s.tmp)

variable {s : DupState} {shift lcn : Int}

theorem DupState.Lists.note
    (h : s.Lists shift pairs)
    (hlcn : 0 ≤ lcn) :
    (s.note (lcn + shift) lcn).Lists shift (pairs ++ [(lcn + shift, lcn)]) := by
  have hone : clustersOf ⟨lcn + shift, lcn, 1⟩ = [(lcn + shift, lcn)] := by simp [clustersOf]
  obtain ⟨done, hdone, hcase⟩ := h
  unfold DupState.note
  rcases hcase with ⟨hnone, rfl⟩ | ⟨hpos, hlen, hshift, rfl⟩
  · rw [if_pos hnone]
    exact ⟨pairs, hdone, Or.inr ⟨hlcn, Int.one_pos, rfl, by rw [hone]⟩⟩
  · rw [if_neg (by omega)]
    split_ifs with hnext
    · refine ⟨done, hdone, Or.inr ⟨hpos, ?_, hshift, ?_⟩⟩
      · show 0 < s.tmp.length + 1
        omega
      · rw [clustersOf_succ (v := lcn + shift) (by omega) (by omega) hnext, List.append_assoc]
    · exact ⟨_, listsDup_makeDupRunlist hdone hlen, Or.inr ⟨hlcn, Int.one_pos, rfl, by rw [hone]⟩⟩

/-- Noting the clusters of a run at which `p` holds appends them in order. -/
theorem DupState.Lists.noteAll
    (h : s.Lists shift pairs)
    (p : Nat → Bool)
    (hlcn : 0 ≤ lcn)
    (n : Nat) :
    (Libntfs.noteAll (fun i d => d.note (lcn + shift + i) (lcn + i)) p n s).Lists shift
      (pairs ++ ((List.range n).filter p).map (fun (i : Nat) => (lcn + shift + i, lcn + i))) := by
  induction n with
  | zero => simpa [Libntfs.noteAll] using h
  | succ n ih =>
    rw [Libntfs.noteAll, List.range_succ]
    cases hp : p n with
    | false => simpa [hp] using ih
    | true =>
      have hstep := ih.note (show 0 ≤ lcn + n by omega)
      have hcomm : lcn + (n : Int) + shift = lcn + shift + n := by omega
      rw [hcomm] at hstep
      simpa [hp] using hstep

/-- The clusters of a run that satisfy a predicate on LCNs. -/
def duplicatesOf (claimed : Nat → Bool) (e : RunlistElement) : List (Int × Int) :=
  (clustersOf e).filter (fun p => claimed p.2.toNat)

/--
`ntfs_fsck_check_and_set_lcnbmp` on a run inside the volume: the run is marked
and its clusters that were marked before are appended to the duplicates.
-/
theorem checkAndSetLcnbmp_duplicates
    {vol : FsckVolume}
    (h : LcnbmpValid vol)
    {rl : Runlist} {rlIdx : Nat}
    (hlen : 0 < (runAt rl rlIdx).length)
    (hlcn : 0 ≤ (runAt rl rlIdx).lcn)
    (hin : (runAt rl rlIdx).lcn + (runAt rl rlIdx).length ≤ vol.nrClusters)
    {dupRl : Option Runlist}
    (hdup : ListsDup dupRl pairs) :
    ListsDup (checkAndSetLcnbmp vol (some rl) rlIdx 1 dupRl).2
      (pairs ++ duplicatesOf vol.isSet (runAt rl rlIdx)) := by
  generalize he : runAt rl rlIdx = e at *
  obtain ⟨_, hscan⟩ := checkAndSet_scan true e.vcn h (by omega)
    (show e.lcn.toNat + e.length.toNat ≤ vol.nrClusters by omega) ⟨⟨0, -1, 0⟩, dupRl⟩
  have hstart : DupState.Lists ⟨⟨0, -1, 0⟩, dupRl⟩ (e.vcn - e.lcn) pairs :=
    ⟨pairs, hdup, Or.inl ⟨rfl, rfl⟩⟩
  have hnoted := hstart.noteAll (fun i => vol.isSet (e.lcn.toNat + i)) hlcn e.length.toNat
  have hpairs : ((List.range e.length.toNat).filter (fun i => vol.isSet (e.lcn.toNat + i))).map
      (fun (i : Nat) => (e.lcn + (e.vcn - e.lcn) + i, e.lcn + i)) = duplicatesOf vol.isSet e := by
    have hvcn : e.lcn + (e.vcn - e.lcn) = e.vcn := by omega
    rw [hvcn, duplicatesOf, clustersOf, List.filter_map]
    congr 1
    apply List.filter_congr
    intro i _
    have hi : (e.lcn + (i : Int)).toNat = e.lcn.toNat + i := by omega
    simp only [Function.comp, hi]
  have hfun : (fun (i : Nat) (d : DupState) =>
      d.note (e.vcn + i) ((e.lcn.toNat + i : Nat) : Int)) =
        fun i d => d.note (e.lcn + (e.vcn - e.lcn) + i) (e.lcn + i) := by
    funext i d
    have h1 : e.lcn + (e.vcn - e.lcn) = e.vcn := by omega
    have h2 : ((e.lcn.toNat + i : Nat) : Int) = e.lcn + i := by omega
    rw [h1, h2]
  simp only [Bool.true_and] at hscan
  rw [hfun, show true.toUInt8 = 1 from rfl] at hscan
  rw [hpairs, ← hscan] at hnoted
  unfold checkAndSetLcnbmp
  dsimp only
  rw [if_neg (by omega), Int.toNat_natCast,
    show rl.getD rlIdx ⟨0, 0, 0⟩ = runAt rl rlIdx from rfl, he, if_neg (by omega)]
  obtain ⟨done, hdone, hcase⟩ := hnoted
  rcases hcase with ⟨hnone, hdone'⟩ | ⟨hpos, hpending, _, hdone'⟩
  · rw [if_neg (by omega), hdone']
    exact hdone
  · rw [if_pos hpos, hdone']
    exact listsDup_makeDupRunlist hdone hpending

end Lists

end NtfsPlus.Libntfs

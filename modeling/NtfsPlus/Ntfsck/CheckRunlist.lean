import NtfsPlus.Libntfs.FsckDuplicates

/-!
# Checking the runlists of a volume for duplicated clusters

`ntfsck_check_runlist` walks over the runs of one attribute.  It cuts the
runlist off at the first run that starts outside the volume and shortens a run
that ends there; every other allocated run goes to
`ntfs_fsck_check_and_set_lcnbmp`, which collects the duplicates of the
attribute.  `fedRuns` lists the runs that get there.

The model ends where the walk ends: reporting and repairing the duplicates are
steps of their own.
-/

namespace NtfsPlus.Ntfsck

open Libntfs SignedBytes

section Model

/-- The local variables of the walk of `ntfsck_check_runlist`. -/
structure CheckState where
  vol : FsckVolume
  dupRl : Option Runlist
  rlAllocSize : Int
  rlDataSize : Int

/-- A run that ends behind the volume is shortened. -/
def clipRun (nrClusters : Nat) (e : RunlistElement) : RunlistElement :=
  if s64 (e.lcn + e.length) ≥ nrClusters then
    { e with length := nrClusters - e.lcn }
  else
    e

/-- The element becomes the terminator. -/
def cutRun (e : RunlistElement) : RunlistElement :=
  { e with lcn := lcnEnoent, length := 0 }

/--
The walk of `ntfsck_check_runlist`; `done` are the elements in front of the
current one.  The runlist is changed in place.
-/
def checkRunlistFrom (setBit : UInt8) :
    Runlist → Runlist → CheckState → Runlist × CheckState
  | done, [], s => (done, s)
  | done, e :: rest, s =>
    if e.length = 0 then
      (done ++ e :: rest, s)
    else if e.lcn > lcnHole then
      if e.lcn ≥ s.vol.nrClusters then
        (done ++ cutRun e :: rest, s)
      else
        let e' := clipRun s.vol.nrClusters e
        let r := checkAndSetLcnbmp s.vol (some (done ++ e' :: rest)) done.length setBit s.dupRl
        let rsize := s64 (e'.length * 2 ^ s.vol.clusterSizeBits)
        checkRunlistFrom setBit (done ++ [e']) rest
          ⟨r.1, r.2, s64 (s.rlAllocSize + rsize), s64 (s.rlDataSize + rsize)⟩
    else if e.lcn = lcnHole then
      let rsize := s64 (e.length * 2 ^ s.vol.clusterSizeBits)
      checkRunlistFrom setBit (done ++ [e]) rest
        { s with rlAllocSize := s64 (s.rlAllocSize + rsize) }
    else
      (done ++ cutRun e :: rest, s)

/-- The walk of `ntfsck_check_runlist` over the runlist of an attribute. -/
def checkRunlist (vol : FsckVolume) (rl : Runlist) (setBit : UInt8) : Runlist × CheckState :=
  checkRunlistFrom setBit [] rl ⟨vol, none, 0, 0⟩

/-- The runlists of several attributes, one after the other: their duplicates. -/
def checkRunlists (vol : FsckVolume) : List Runlist → FsckVolume × List (Option Runlist)
  | [] => (vol, [])
  | rl :: rest =>
    let r := (checkRunlist vol rl 1).2
    let t := checkRunlists r.vol rest
    (t.1, r.dupRl :: t.2)

end Model

section Spec

/-- The runs of a runlist that reach `ntfs_fsck_check_and_set_lcnbmp`. -/
def fedRuns (nrClusters : Nat) : Runlist → List RunlistElement
  | [] => []
  | e :: rest =>
    if e.length = 0 then
      []
    else if e.lcn > lcnHole then
      if e.lcn ≥ nrClusters then
        []
      else
        clipRun nrClusters e :: fedRuns nrClusters rest
    else if e.lcn = lcnHole then
      fedRuns nrClusters rest
    else
      []

/-- The run claims the cluster. -/
def covers (e : RunlistElement) (c : Nat) : Bool :=
  decide (e.lcn ≤ c ∧ c < e.lcn + e.length)

/-- The duplicates of runs that are claimed one after the other. -/
def dupClusters (claimed : Nat → Bool) : List RunlistElement → List (Int × Int)
  | [] => []
  | e :: rest => duplicatesOf claimed e ++ dupClusters (fun c => claimed c || covers e c) rest

/--
A runlist in memory: lengths are not negative, the ends of a run are `s64`
values, and the VCNs ascend.
-/
structure AscendingRunlist (rl : Runlist) : Prop where
  length_nonneg : ∀ e ∈ rl, 0 ≤ e.length
  vcn_end : ∀ e ∈ rl, e.vcn + e.length < 2 ^ 63
  lcn_end : ∀ e ∈ rl, e.lcn + e.length < 2 ^ 63
  ascending : rl.Pairwise (fun a b => a.vcn + a.length ≤ b.vcn)

variable {e : RunlistElement}

theorem AscendingRunlist.tail
    {rest : Runlist}
    (h : AscendingRunlist (e :: rest)) :
    AscendingRunlist rest :=
  ⟨fun a ha => h.length_nonneg a (by simp [ha]), fun a ha => h.vcn_end a (by simp [ha]),
    fun a ha => h.lcn_end a (by simp [ha]), (List.pairwise_cons.mp h.ascending).2⟩

/-- A run is cut at the end of the volume. -/
theorem clipRun_spec
    {nrClusters : Nat}
    (hlen : 0 < e.length)
    (hend : e.lcn + e.length < 2 ^ 63)
    (hlcn : 0 ≤ e.lcn)
    (hin : e.lcn < nrClusters) :
    (clipRun nrClusters e).vcn = e.vcn ∧ (clipRun nrClusters e).lcn = e.lcn ∧
      0 < (clipRun nrClusters e).length ∧ (clipRun nrClusters e).length ≤ e.length ∧
      e.lcn + (clipRun nrClusters e).length ≤ nrClusters := by
  have hs64 : s64 (e.lcn + e.length) = e.lcn + e.length :=
    s64_of_inS64 ⟨by omega, hend⟩
  unfold clipRun
  split_ifs with hclip
  · refine ⟨rfl, rfl, ?_, ?_, ?_⟩ <;> dsimp only <;> omega
  · refine ⟨rfl, rfl, hlen, le_refl _, by omega⟩

theorem runAt_append
    (done rest : Runlist)
    (e : RunlistElement) :
    runAt (done ++ e :: rest) done.length = e := by
  simp [runAt]

theorem isSet_claimed
    {vol vol' : FsckVolume}
    (hlcn : 0 ≤ e.lcn)
    (hlen : 0 < e.length)
    (h : Marks vol vol' true e.lcn.toNat (e.lcn.toNat + e.length.toNat)) :
    vol'.isSet = fun c => vol.isSet c || covers e c := by
  funext c
  rw [h.isSet]
  have hiff : e.lcn.toNat ≤ c ∧ c < e.lcn.toNat + e.length.toNat ↔
      e.lcn ≤ c ∧ (c : Int) < e.lcn + e.length := by omega
  by_cases hc : e.lcn ≤ c ∧ (c : Int) < e.lcn + e.length
  · rw [if_pos (hiff.mpr hc), covers, decide_eq_true hc, Bool.or_true]
  · rw [if_neg (mt hiff.mp hc), covers, decide_eq_false hc, Bool.or_false]

/--
The walk over one runlist: the fed runs are claimed, and the clusters of a fed
run that were claimed before it are appended to the duplicates.
-/
theorem checkRunlistFrom_spec
    (done rest : Runlist)
    (s : CheckState)
    (h : LcnbmpValid s.vol)
    (hrest : AscendingRunlist rest)
    (pairs : List (Int × Int))
    (hdup : ListsDup s.dupRl pairs) :
    let s' := (checkRunlistFrom 1 done rest s).2
    LcnbmpValid s'.vol ∧ s'.vol.nrClusters = s.vol.nrClusters ∧ (∀ c, s'.vol.isSet c =
        (s.vol.isSet c || (fedRuns s.vol.nrClusters rest).any (fun e => covers e c))) ∧
      ListsDup s'.dupRl (pairs ++ dupClusters s.vol.isSet (fedRuns s.vol.nrClusters rest)) := by
  induction rest generalizing done s pairs with
  | nil =>
    refine ⟨h, rfl, fun c => ?_, ?_⟩
    · simp [checkRunlistFrom, fedRuns]
    · simpa [checkRunlistFrom, fedRuns, dupClusters] using hdup
  | cons e rest ih =>
    have hstop : ∀ e', LcnbmpValid (done ++ e' :: rest, s).2.vol ∧
        (done ++ e' :: rest, s).2.vol.nrClusters = s.vol.nrClusters ∧
        (∀ c, (done ++ e' :: rest, s).2.vol.isSet c =
          (s.vol.isSet c || ([] : List RunlistElement).any (fun e => covers e c))) ∧
        ListsDup (done ++ e' :: rest, s).2.dupRl (pairs ++ dupClusters s.vol.isSet []) :=
      fun e' => ⟨h, rfl, fun c => by simp, by simpa [dupClusters] using hdup⟩
    rw [checkRunlistFrom, fedRuns]
    by_cases hzero : e.length = 0
    · rw [if_pos hzero, if_pos hzero]
      exact hstop e
    rw [if_neg hzero, if_neg hzero]
    by_cases hreal : e.lcn > lcnHole
    · rw [if_pos hreal, if_pos hreal]
      by_cases hout : e.lcn ≥ s.vol.nrClusters
      · rw [if_pos hout, if_pos hout]
        exact hstop (cutRun e)
      · rw [if_neg hout, if_neg hout]
        have hlcn : 0 ≤ e.lcn := by
          unfold lcnHole at hreal
          omega
        have hlen : 0 < e.length := by
          have := hrest.length_nonneg e (by simp)
          omega
        have hlt : e.lcn < s.vol.nrClusters := by omega
        obtain ⟨_, hcl, hcpos, _, hcin⟩ :=
          clipRun_spec hlen (hrest.lcn_end e (by simp)) hlcn hlt
        rw [← hcl] at hcin hlcn
        generalize clipRun s.vol.nrClusters e = e' at *
        have hat := runAt_append done rest e'
        have hmarks := checkAndSetLcnbmp_marks true h (hat.symm ▸ hcpos) (hat.symm ▸ hlcn)
          (hat.symm ▸ hcin) s.dupRl
        have hlist := checkAndSetLcnbmp_duplicates h (hat.symm ▸ hcpos) (hat.symm ▸ hlcn)
          (hat.symm ▸ hcin) hdup
        rw [hat] at hmarks hlist
        obtain ⟨hvalid, hnr, hset, hall⟩ := ih (done ++ [e'])
          ⟨(checkAndSetLcnbmp s.vol (some (done ++ e' :: rest)) done.length 1 s.dupRl).1, _,
            _, _⟩ hmarks.valid hrest.tail _ hlist
        rw [show (1 : UInt8) = true.toUInt8 from rfl, hmarks.nrClusters,
          isSet_claimed hlcn hcpos hmarks] at hall hset
        rw [show (1 : UInt8) = true.toUInt8 from rfl, hmarks.nrClusters] at hnr
        refine ⟨hvalid, hnr, fun c => ?_, ?_⟩
        · rw [List.any_cons, ← Bool.or_assoc]
          exact hset c
        · rw [dupClusters, ← List.append_assoc]
          exact hall
    · rw [if_neg hreal, if_neg hreal]
      by_cases hhole : e.lcn = lcnHole
      · rw [if_pos hhole, if_pos hhole]
        exact ih (done ++ [e])
          ⟨s.vol, s.dupRl, s64 (s.rlAllocSize + s64 (e.length * 2 ^ s.vol.clusterSizeBits)),
            s.rlDataSize⟩ h hrest.tail _ hdup
      · rw [if_neg hhole, if_neg hhole]
        exact hstop (cutRun e)

end Spec

section Duplicates

variable {e : RunlistElement} {v l : Int} {claimed : Nat → Bool} {runs : List RunlistElement}
variable {nrClusters : Nat} {rl : Runlist}

theorem covers_of_mem_clustersOf
    (hlcn : 0 ≤ e.lcn)
    (h : (v, l) ∈ clustersOf e) :
    0 ≤ l ∧ covers e l.toNat = true := by
  obtain ⟨hlo, hhi, hshift⟩ := mem_clustersOf.mp h
  have hl : 0 ≤ l := by omega
  exact ⟨hl, decide_eq_true (by omega)⟩

/-- A duplicate is a cluster of a run that was claimed before that run. -/
theorem mem_dupClusters :
    (v, l) ∈ dupClusters claimed runs ↔ ∃ j e, runs[j]? = some e ∧ (v, l) ∈ clustersOf e ∧
        (claimed l.toNat = true ∨ ∃ e' ∈ runs.take j, covers e' l.toNat = true) := by
  induction runs generalizing claimed with
  | nil => simp [dupClusters]
  | cons e rest ih =>
    rw [dupClusters, List.mem_append, ih, duplicatesOf, List.mem_filter]
    constructor
    · rintro (⟨hmem, hclaimed⟩ | ⟨j, e', hj, hmem, hclaimed⟩)
      · exact ⟨0, e, rfl, hmem, Or.inl hclaimed⟩
      · refine ⟨j + 1, e', by simpa using hj, hmem, ?_⟩
        rcases hclaimed with hclaimed | ⟨e'', he'', hcov⟩
        · rcases Bool.or_eq_true _ _ ▸ hclaimed with hold | hnew
          · exact Or.inl hold
          · exact Or.inr ⟨e, by simp, hnew⟩
        · exact Or.inr ⟨e'', by simp [he''], hcov⟩
    · rintro ⟨j, e', hj, hmem, hclaimed⟩
      cases j with
      | zero =>
        have he : e = e' := by simpa using hj
        subst he
        rcases hclaimed with hold | ⟨e'', he'', _⟩
        · exact Or.inl ⟨hmem, hold⟩
        · simp at he''
      | succ j =>
        refine Or.inr ⟨j, e', by simpa using hj, hmem, ?_⟩
        rcases hclaimed with hold | ⟨e'', he'', hcov⟩
        · exact Or.inl (by simp [hold])
        · rcases List.mem_cons.mp (by simpa using he'') with rfl | hrest
          · exact Or.inl (by simp [hcov])
          · exact Or.inr ⟨e'', hrest, hcov⟩

/-- Every fed run is a run of the runlist, possibly shortened, inside the volume. -/
theorem mem_fedRuns
    (h : AscendingRunlist rl)
    (he : e ∈ fedRuns nrClusters rl) :
    0 ≤ e.lcn ∧ 0 < e.length ∧ e.lcn + e.length ≤ nrClusters ∧
      ∃ f ∈ rl, f.vcn = e.vcn ∧ f.lcn = e.lcn ∧ e.length ≤ f.length := by
  induction rl with
  | nil => simp [fedRuns] at he
  | cons f rest ih =>
    have hrest : e ∈ fedRuns nrClusters rest →
        0 ≤ e.lcn ∧ 0 < e.length ∧ e.lcn + e.length ≤ nrClusters ∧
          ∃ g ∈ f :: rest, g.vcn = e.vcn ∧ g.lcn = e.lcn ∧ e.length ≤ g.length := by
      intro hmem
      obtain ⟨hlcn, hlen, hin, g, hg, hsame⟩ := ih h.tail hmem
      exact ⟨hlcn, hlen, hin, g, List.mem_cons_of_mem f hg, hsame⟩
    rw [fedRuns] at he
    split_ifs at he with hzero hreal hout hhole
    · simp at he
    · simp at he
    · have hlcn : 0 ≤ f.lcn := by
        unfold lcnHole at hreal
        omega
      have hlen : 0 < f.length := by
        have := h.length_nonneg f (by simp)
        omega
      have hlt : f.lcn < nrClusters := by omega
      obtain ⟨hv, hl, hpos, hle, hin⟩ := clipRun_spec hlen (h.lcn_end f (by simp)) hlcn hlt
      rcases List.mem_cons.mp he with rfl | hmem
      · exact ⟨by omega, hpos, by omega, f, by simp, hv.symm, hl.symm, hle⟩
      · exact hrest hmem
    · exact hrest he
    · simp at he

/-- The runs that are checked have ascending VCNs. -/
theorem fedRuns_ascending
    (h : AscendingRunlist rl) :
    (fedRuns nrClusters rl).Pairwise (fun a b => a.vcn + a.length ≤ b.vcn) := by
  induction rl with
  | nil => exact List.Pairwise.nil
  | cons f rest ih =>
    rw [fedRuns]
    split_ifs with hzero hreal hout hhole
    · exact List.Pairwise.nil
    · exact List.Pairwise.nil
    · have hlcn : 0 ≤ f.lcn := by
        unfold lcnHole at hreal
        omega
      have hlen : 0 < f.length := by
        have := h.length_nonneg f (by simp)
        omega
      have hlt : f.lcn < nrClusters := by omega
      obtain ⟨hv, _, _, hle, _⟩ := clipRun_spec hlen (h.lcn_end f (by simp)) hlcn hlt
      refine List.pairwise_cons.mpr ⟨?_, ih h.tail⟩
      intro b hb
      obtain ⟨_, _, _, g, hg, hgv, _⟩ := mem_fedRuns h.tail hb
      have := (List.pairwise_cons.mp h.ascending).1 g hg
      omega
    · exact ih h.tail
    · exact List.Pairwise.nil

theorem clustersOf_ascending
    (e : RunlistElement) :
    (clustersOf e).Pairwise (fun a b => a.1 < b.1) := by
  rw [clustersOf, List.pairwise_map]
  refine List.Pairwise.imp ?_ List.pairwise_lt_range
  omega

/-- The duplicates come in ascending order of their VCNs, each VCN once. -/
theorem dupClusters_ascending
    (h : runs.Pairwise (fun a b => a.vcn + a.length ≤ b.vcn)) :
    (dupClusters claimed runs).Pairwise (fun a b => a.1 < b.1) := by
  induction runs generalizing claimed with
  | nil => exact List.Pairwise.nil
  | cons e rest ih =>
    obtain ⟨hfirst, hrest⟩ := List.pairwise_cons.mp h
    rw [dupClusters, List.pairwise_append]
    refine ⟨(clustersOf_ascending e).filter _, ih hrest, ?_⟩
    rintro ⟨v, l⟩ ha ⟨v', l'⟩ hb
    have hv := (mem_clustersOf.mp (List.mem_filter.mp ha).1).2.1
    obtain ⟨j, f, hj, hmem, _⟩ := mem_dupClusters.mp hb
    have hv' := (mem_clustersOf.mp hmem).1
    have := hfirst f (List.mem_of_getElem? hj)
    omega

/-- The runlists of several attributes, after the runs `earlier` were claimed. -/
theorem checkRunlists_from
    (nrClusters : Nat)
    (attrs : List Runlist)
    (hattrs : ∀ rl ∈ attrs, AscendingRunlist rl)
    (earlier : List RunlistElement)
    (vol : FsckVolume)
    (h : LcnbmpValid vol)
    (hnr : vol.nrClusters = nrClusters)
    (hset : ∀ c, vol.isSet c = earlier.any (fun e => covers e c)) :
    (checkRunlists vol attrs).2.length = attrs.length ∧
    (∀ k rl dup, attrs[k]? = some rl → (checkRunlists vol attrs).2[k]? = some dup →
      ListsDup dup (dupClusters
        (fun c => (earlier ++ (attrs.take k).flatMap (fedRuns nrClusters)).any
          (fun e => covers e c)) (fedRuns nrClusters rl))) ∧
    ∀ c, (checkRunlists vol attrs).1.isSet c =
      (earlier ++ attrs.flatMap (fedRuns nrClusters)).any (fun e => covers e c) := by
  induction attrs generalizing earlier vol with
  | nil => exact ⟨rfl, by simp, by simpa [checkRunlists] using hset⟩
  | cons rl rest ih =>
    obtain ⟨hvalid, hnr', hset', hdup⟩ := checkRunlistFrom_spec [] rl ⟨vol, none, 0, 0⟩ h
      (hattrs rl (by simp)) [] rfl
    rw [hnr] at hnr' hdup
    obtain ⟨ihlen, ihdup, ihset⟩ := ih (fun rl' hrl' => hattrs rl' (by simp [hrl']))
      (earlier ++ fedRuns nrClusters rl) (checkRunlist vol rl 1).2.vol hvalid hnr'
      (fun c => by rw [List.any_append, ← hset c, ← hnr]; exact hset' c)
    refine ⟨by simpa [checkRunlists] using ihlen, ?_, ?_⟩
    · intro k rl' dup hk hdupk
      cases k with
      | zero =>
        have hrl : rl = rl' := by simpa using hk
        have hd : (checkRunlist vol rl 1).2.dupRl = dup := by simpa [checkRunlists] using hdupk
        subst hrl hd
        have hfun : vol.isSet = fun c => (earlier ++ ((rl :: rest).take 0).flatMap
            (fedRuns nrClusters)).any (fun e => covers e c) := by
          funext c
          simp [hset c]
        rw [← hfun]
        exact hdup
      | succ k =>
        have := ihdup k rl' dup (by simpa using hk) (by simpa [checkRunlists] using hdupk)
        simpa [List.append_assoc] using this
    · intro c
      have := ihset c
      simpa [checkRunlists] using this

/--
A sequence of attributes whose runlists are checked one after the other on a
fresh cluster bitmap.  The duplicates of each attribute are exactly the
clusters of its runs that an earlier run of the sequence claimed: each VCN
once with its LCN, in ascending order, neighbours joined.  Afterwards every
cluster of every run is marked.
-/
theorem checkRunlists_duplicates
    (nrClusters clusterSizeBits : Nat)
    (hnr : 0 < nrClusters)
    (attrs : List Runlist)
    (hattrs : ∀ rl ∈ attrs, AscendingRunlist rl) :
    let r := checkRunlists (fsckMount nrClusters clusterSizeBits hnr) attrs
    r.2.length = attrs.length ∧
    (∀ k rl dup, attrs[k]? = some rl → r.2[k]? = some dup →
      ∃ pairs, ListsDup dup pairs ∧ pairs.Pairwise (fun a b => a.1 < b.1) ∧ ∀ v l, (v, l) ∈ pairs ↔
          ∃ j e, (fedRuns nrClusters rl)[j]? = some e ∧ (v, l) ∈ clustersOf e ∧
            ∃ e' ∈ (attrs.take k).flatMap (fedRuns nrClusters) ++ (fedRuns nrClusters rl).take j,
              ∃ v', (v', l) ∈ clustersOf e') ∧
    ∀ rl ∈ attrs, ∀ e ∈ fedRuns nrClusters rl, ∀ v l, (v, l) ∈ clustersOf e →
      r.1.isSet l.toNat = true := by
  obtain ⟨hlen, hdup, hset⟩ := checkRunlists_from nrClusters attrs hattrs []
    (fsckMount nrClusters clusterSizeBits hnr) (fsckMount_valid nrClusters clusterSizeBits hnr)
    rfl (fun c => rfl)
  simp only [List.nil_append] at hdup hset
  -- a claimed cluster is a cluster of a run, with some VCN
  have hpair : ∀ e l, covers e (Int.toNat l) = true → 0 ≤ l → ∃ v, (v, l) ∈ clustersOf e := by
    intro e l hcov hl
    have hcov' := of_decide_eq_true hcov
    exact ⟨e.vcn + (l - e.lcn), mem_clustersOf.mpr (by omega)⟩
  refine ⟨hlen, ?_, ?_⟩
  · intro k rl dup hk hdupk
    have hrl : AscendingRunlist rl := hattrs rl (List.mem_of_getElem? hk)
    refine ⟨_, hdup k rl dup hk hdupk, dupClusters_ascending (fedRuns_ascending hrl), ?_⟩
    intro v l
    rw [mem_dupClusters]
    constructor
    · rintro ⟨j, e, hj, hmem, hclaimed⟩
      have hl := (covers_of_mem_clustersOf (mem_fedRuns hrl (List.mem_of_getElem? hj)).1 hmem).1
      refine ⟨j, e, hj, hmem, ?_⟩
      rcases hclaimed with hbefore | ⟨e', he', hcov⟩
      · obtain ⟨e', he', hcov⟩ := List.any_eq_true.mp hbefore
        obtain ⟨v', hv'⟩ := hpair e' l hcov hl
        exact ⟨e', List.mem_append_left _ he', v', hv'⟩
      · obtain ⟨v', hv'⟩ := hpair e' l hcov hl
        exact ⟨e', List.mem_append_right _ he', v', hv'⟩
    · rintro ⟨j, e, hj, hmem, e', he', v', hv'⟩
      refine ⟨j, e, hj, hmem, ?_⟩
      rcases List.mem_append.mp he' with hbefore | hsame
      · obtain ⟨rl', hrl', hfed⟩ := List.mem_flatMap.mp hbefore
        have hlcn := (mem_fedRuns (hattrs rl' (List.mem_of_mem_take hrl')) hfed).1
        exact Or.inl (List.any_eq_true.mpr ⟨e', hbefore, (covers_of_mem_clustersOf hlcn hv').2⟩)
      · have hlcn := (mem_fedRuns hrl (List.mem_of_mem_take hsame)).1
        exact Or.inr ⟨e', hsame, (covers_of_mem_clustersOf hlcn hv').2⟩
  · intro rl hrl e he v l hmem
    have hlcn := (mem_fedRuns (hattrs rl hrl) he).1
    rw [hset]
    exact List.any_eq_true.mpr ⟨e, List.mem_flatMap.mpr ⟨rl, hrl, he⟩,
      (covers_of_mem_clustersOf hlcn hmem).2⟩

/-- Two attributes that share clusters 4 and 5; the second has cluster 20 twice. -/
def sharedAttrs : List Runlist :=
  [[⟨0, 2, 4⟩, ⟨4, 9, 1⟩, enoentAt 5], [⟨0, 4, 2⟩, ⟨2, -1, 3⟩, ⟨5, 20, 1⟩, ⟨6, 20, 2⟩, enoentAt 8]]

theorem sharedAttrs_ascending : ∀ rl ∈ sharedAttrs, AscendingRunlist rl := by
  intro rl hrl
  have hcases : rl = [⟨0, 2, 4⟩, ⟨4, 9, 1⟩, enoentAt 5] ∨
      rl = [⟨0, 4, 2⟩, ⟨2, -1, 3⟩, ⟨5, 20, 1⟩, ⟨6, 20, 2⟩, enoentAt 8] := by
    simpa [sharedAttrs] using hrl
  rcases hcases with rfl | rfl
  · exact ⟨by decide, by decide, by decide, by decide⟩
  · exact ⟨by decide, by decide, by decide, by decide⟩

theorem checkRunlists_duplicates_shared :
    (checkRunlists (fsckMount 100 12 (by decide)) sharedAttrs).2.length = 2 ∧
      (checkRunlists (fsckMount 100 12 (by decide)) sharedAttrs).1.isSet 21 = true := by
  obtain ⟨hlen, _, hset⟩ :=
    checkRunlists_duplicates 100 12 (by decide) sharedAttrs sharedAttrs_ascending
  refine ⟨hlen, ?_⟩
  exact hset _ (List.mem_cons_of_mem _ (List.mem_singleton.mpr rfl)) ⟨6, 20, 2⟩
    (by decide) 7 21 (by decide)

example : (checkRunlists (fsckMount 100 12 (by decide)) sharedAttrs).2 =
      [none, some [⟨0, 4, 2⟩, ⟨6, 20, 1⟩, enoentAt 7]] := by
  decide +kernel

end Duplicates

end NtfsPlus.Ntfsck

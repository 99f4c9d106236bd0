import Mathlib.Data.List.TakeWhile
import NtfsPlus.Libntfs.BitmapRun
import NtfsPlus.Libntfs.ClusterAllocSearch

/-!
# Freeing clusters

`ntfs_cluster_free_from_rl` and `ntfs_cluster_free` of `libntfs/lcnalloc.c`.  For each run
`update_full_status` clears the bit of the run's first zone in `full_zones`, then the
clusters are cleared in the bitmap and in fsck's.

Every read and write of the bitmap succeeds here; `ntfs_bitmap_clear_run` is then
`clearBits` (`bitmapClearRun_clearBits`).  What a search has allocated is exactly what
freeing its runs gives back (`Describes.mem_of_run`, `Describes.run_of_mem`).
-/

namespace NtfsPlus.Libntfs

section Model

/-- The zone to which `update_full_status` counts a cluster. -/
def AllocVolume.zoneOf (vol : AllocVolume) (lcn : Nat) : Zone :=
  if lcn ≥ vol.mftZoneEnd then .data1 else if lcn < vol.mftZoneStart then .data2 else .mft

/-- `update_full_status`. -/
def updateFullStatus (vol : AllocVolume) (lcn : Nat) : AllocVolume :=
  let zone := vol.zoneOf lcn
  if vol.fullZones zone then
    { clusterUpdateZonePos vol zone lcn with
      fullZones := Function.update vol.fullZones zone false }
  else
    vol

/-- The bitmap after `ntfs_bitmap_clear_run`. -/
def clearBits (m : Bytes) (lcn : Nat) : Nat → Bytes
  | 0 => m
  | n + 1 => bitSet (clearBits m lcn n) (lcn + n) 0

/-- Free one run: what the three functions below do with each of their runs. -/
def freeRun (vol : AllocVolume) (run : Nat × Nat) : AllocVolume :=
  let v := updateFullStatus vol run.1
  { v with
    bitmap := clearBits v.bitmap run.1 run.2
    freeClusters := v.freeClusters.map (fun n => n + run.2)
    fsck := v.fsck.map (fun f =>
      match setLcnbmpRange f.vol run.1 run.2 0 with
      | .ok shadow => { f with vol := shadow }
      | .error _ => f) }

/-- Free runs one after the other. -/
def freeRuns (vol : AllocVolume) (runs : List (Nat × Nat)) : AllocVolume :=
  runs.foldl freeRun vol

/-- The runs that `ntfs_cluster_free_from_rl` frees: those with clusters, up to the end. -/
def runsOfRl (rl : Runlist) : List (Nat × Nat) :=
  ((rl.takeWhile (fun e => e.length ≠ 0)).filter (fun e => 0 ≤ e.lcn)).map
    (fun e => (e.lcn.toNat, e.length.toNat))

/-- `ntfs_cluster_free_from_rl`. -/
def clusterFreeFromRl (vol : AllocVolume) (rl : Runlist) : AllocVolume :=
  freeRuns vol (runsOfRl rl)

/-- The runs behind the first one that `ntfs_cluster_free` frees. -/
def restOfFree (isOnFsck : Bool) : Int → Runlist → List (Nat × Nat)
  | _, [] => []
  | count, e :: rest =>
    if e.length = 0 ∨ count = 0 then
      []
    else if e.lcn < 0 ∧ e.lcn ≠ lcnHole then
      if isOnFsck then restOfFree isOnFsck count rest else []
    else
      let toFree := if count ≥ 0 ∧ e.length > count then count else e.length
      let count' := if count ≥ 0 then count - toFree else count
      if e.lcn ≠ lcnHole then
        (e.lcn.toNat, toFree.toNat) :: restOfFree isOnFsck count' rest
      else
        restOfFree isOnFsck count' rest

/--
The runs that `ntfs_cluster_free` frees, from the run list at the element of `startVcn`
that `ntfs_attr_find_vcn` returns.
-/
def runsOfFree (isOnFsck : Bool) (found : Runlist) (startVcn count : Int) : List (Nat × Nat) :=
  match found with
  | [] => []
  | e :: rest =>
    if startVcn < 0 ∨ count < 0 ∧ count ≠ -1 then
      []
    else if e.lcn < 0 ∧ e.lcn ≠ lcnHole then
      []
    else
      let delta := startVcn - e.vcn
      let toFree :=
        if count ≥ 0 ∧ e.length - delta > count then count else e.length - delta
      let count' := if count ≥ 0 then count - toFree else count
      if e.lcn ≠ lcnHole then
        ((e.lcn + delta).toNat, toFree.toNat) :: restOfFree isOnFsck count' rest
      else
        restOfFree isOnFsck count' rest

/-- `ntfs_cluster_free`. -/
def clusterFree (isOnFsck : Bool) (vol : AllocVolume) (found : Runlist)
    (startVcn count : Int) : AllocVolume :=
  freeRuns vol (runsOfFree isOnFsck found startVcn count)

end Model

section Frees

/-- The borders of the zones. -/
def AllocVolume.layout (vol : AllocVolume) : Nat × Nat × Nat :=
  (vol.nrClusters, vol.mftZoneStart, vol.mftZoneEnd)

variable {vol vol' : AllocVolume}

theorem zoneOf_congr
    (h : vol'.layout = vol.layout)
    (lcn : Nat) :
    vol'.zoneOf lcn = vol.zoneOf lcn := by
  simp only [AllocVolume.layout, Prod.mk.injEq] at h
  obtain ⟨-, hstart, hend⟩ := h
  rw [AllocVolume.zoneOf, AllocVolume.zoneOf, hstart, hend]

@[simp] theorem clusterUpdateZonePos_layout
    (vol : AllocVolume)
    (zone : Zone)
    (tc : Nat) :
    (clusterUpdateZonePos vol zone tc).layout = vol.layout := by
  cases zone <;> rfl

/-- The bits of the run are cleared and no others. -/
theorem bitAt_clearBits
    (m : Bytes)
    (lcn n i : Nat) :
    bitAt (clearBits m lcn n) i = (bitAt m i && decide ¬ (lcn ≤ i ∧ i < lcn + n)) := by
  induction n with
  | zero =>
    have : ¬ (lcn ≤ i ∧ i < lcn + 0) := by omega
    rw [clearBits, decide_eq_true this, Bool.and_true]
  | succ n ih =>
    rw [clearBits, show (0 : UInt8) = false.toUInt8 from rfl, bitAt_bitSet, ih]
    by_cases hi : i = lcn + n
    · have : ¬ ¬ (lcn ≤ i ∧ i < lcn + (n + 1)) := by omega
      rw [if_pos hi, decide_eq_false this, Bool.and_false]
    · have : (lcn ≤ i ∧ i < lcn + (n + 1)) ↔ (lcn ≤ i ∧ i < lcn + n) := by omega
      rw [if_neg hi]
      simp only [this]

/-- A run of `ntfs_bitmap_clear_run` that succeeds clears these bits. -/
theorem bitmapClearRun_clearBits
    {σ : Type} {F : BitmapFile σ} {s s' : σ} {lcn n : Nat}
    (h : bitmapClearRun F s lcn n = .done s')
    (i : Nat) :
    bitAt (F.bytes s') i = bitAt (clearBits (F.bytes s) lcn n) i := by
  rw [setBitsInRun_done h i, bitAt_clearBits]
  by_cases hin : lcn ≤ i ∧ i < lcn + n
  · simp [hin, show (i : Int) < lcn + n by omega]
  · rw [if_neg (by omega), decide_eq_true hin, Bool.and_true]

/-- `update_full_status` clears the bit of the zone of the cluster. -/
theorem updateFullStatus_spec
    (vol : AllocVolume)
    (lcn : Nat) :
    (updateFullStatus vol lcn).layout = vol.layout ∧
    (updateFullStatus vol lcn).bitmap = vol.bitmap ∧
    ∀ zone, (updateFullStatus vol lcn).fullZones zone =
      (vol.fullZones zone && decide (vol.zoneOf lcn ≠ zone)) := by
  rw [updateFullStatus]
  split_ifs with hfull
  · refine ⟨?_, ?_, fun zone => ?_⟩
    · exact clusterUpdateZonePos_layout vol _ lcn
    · cases vol.zoneOf lcn <;> rfl
    · by_cases hz : zone = vol.zoneOf lcn
      · simp [hz]
      · simp [Function.update_of_ne hz, Ne.symm hz]
  · refine ⟨rfl, rfl, fun zone => ?_⟩
    by_cases hz : vol.zoneOf lcn = zone
    · rw [← hz]
      simpa using hfull
    · simp [hz]

theorem updateFullStatus_fsck
    (vol : AllocVolume)
    (lcn : Nat) :
    (updateFullStatus vol lcn).fsck = vol.fsck := by
  rw [updateFullStatus]
  split_ifs
  · cases vol.zoneOf lcn <;> rfl
  · rfl

/-- Freeing a run clears its bits and reopens its zone. -/
theorem freeRun_spec
    (vol : AllocVolume)
    (run : Nat × Nat) :
    (freeRun vol run).layout = vol.layout ∧
    (∀ zone, (freeRun vol run).fullZones zone =
      (vol.fullZones zone && decide (vol.zoneOf run.1 ≠ zone))) ∧
    ∀ c, bitAt (freeRun vol run).bitmap c =
      (bitAt vol.bitmap c && decide ¬ (run.1 ≤ c ∧ c < run.1 + run.2)) := by
  obtain ⟨hlayout, hbitmap, hfull⟩ := updateFullStatus_spec vol run.1
  refine ⟨hlayout, hfull, fun c => ?_⟩
  rw [freeRun]
  rw [hbitmap, bitAt_clearBits]

/-- Freeing runs clears their bits and reopens their zones. -/
theorem freeRuns_spec
    (vol : AllocVolume)
    (runs : List (Nat × Nat)) :
    (freeRuns vol runs).layout = vol.layout ∧
    (∀ zone, (freeRuns vol runs).fullZones zone = true ↔
      vol.fullZones zone = true ∧ ∀ run ∈ runs, vol.zoneOf run.1 ≠ zone) ∧
    ∀ c, bitAt (freeRuns vol runs).bitmap c = true ↔
      bitAt vol.bitmap c = true ∧ ∀ run ∈ runs, ¬ (run.1 ≤ c ∧ c < run.1 + run.2) := by
  induction runs generalizing vol with
  | nil => refine ⟨rfl, fun zone => ?_, fun c => ?_⟩ <;> simp [freeRuns]
  | cons run runs ih =>
    obtain ⟨hlayout, hfull, hbits⟩ := freeRun_spec vol run
    obtain ⟨hlayout', hfull', hbits'⟩ := ih (freeRun vol run)
    rw [show freeRuns vol (run :: runs) = freeRuns (freeRun vol run) runs from rfl]
    refine ⟨hlayout'.trans hlayout, fun zone => ?_, fun c => ?_⟩
    · simp only [hfull', hfull, zoneOf_congr hlayout, List.forall_mem_cons, Bool.and_eq_true,
        decide_eq_true_eq, and_assoc]
    · simp only [hbits', hbits, List.forall_mem_cons, Bool.and_eq_true, decide_eq_true_eq,
        and_assoc]

/-- What the check knows as occupied stays so. -/
theorem oracleByte_freeRuns
    (vol : AllocVolume)
    (runs : List (Nat × Nat)) :
    oracleByte (freeRuns vol runs).fsck = oracleByte vol.fsck := by
  induction runs generalizing vol with
  | nil => rfl
  | cons run runs ih =>
    rw [show freeRuns vol (run :: runs) = freeRuns (freeRun vol run) runs from rfl, ih]
    rw [freeRun]
    rw [updateFullStatus_fsck]
    cases vol.fsck with
    | none => rfl
    | some f =>
      dsimp only [Option.map_some]
      cases setLcnbmpRange f.vol run.1 run.2 0 with
      | ok v => rfl
      | error err => rfl

end Frees

section Searches

variable {fuel : Nat} {st st' : AllocState} {err : Errno}

variable {vol₀ : AllocVolume} {startVcn : Int} {count : Nat}

/-- A step that fails leaves what was allocated so far. -/
theorem allocStep_fail_progress
    (h : Searching vol₀ startVcn count st)
    (hfail : allocStep startVcn st = .fail err st') :
    ∃ cs, AllocProgress vol₀ startVcn count st'.vol st'.runs st'.clusters cs := by
  obtain ⟨hpos, cs, hp⟩ := h
  rw [allocStep.eq_def] at hfail
  cases hl : st.label with
  | top =>
    rw [hl] at hfail
    rcases stepTop_cases startVcn hpos with
      heq | heq | ⟨br, lcn, k, w, e, -, -, -, ⟨-, tc, heq⟩ | ⟨-, st₁, heq, -⟩⟩
    · cases heq.symm.trans hfail
    · cases heq.symm.trans hfail
      exact ⟨cs, hp⟩
    · cases heq.symm.trans hfail
    · cases heq.symm.trans hfail
  | zonePassDone =>
    rw [hl] at hfail
    rw [stepZonePassDone] at hfail
    split_ifs at hfail
  | doneZonesCheck =>
    rw [hl] at hfail
    rw [stepDoneZonesCheck] at hfail
    split_ifs at hfail
    cases hfail
    exact ⟨cs, hp.congr rfl rfl rfl⟩

/-- So does a search that fails. -/
theorem allocRun_fail_progress
    (h : Searching vol₀ startVcn count st)
    (hrun : allocRun startVcn fuel st = some (.fail err st')) :
    ∃ cs, AllocProgress vol₀ startVcn count st'.vol st'.runs st'.clusters cs := by
  induction fuel generalizing st with
  | zero => cases hrun
  | succ fuel ih =>
    have hstep := allocStep_progress h
    rw [allocRun] at hrun
    cases hnext : allocStep startVcn st with
    | goto st₁ =>
      rw [hnext] at hstep hrun
      exact ih hstep hrun
    | done vol runs =>
      rw [hnext] at hrun
      cases hrun
    | fail err' st₁ =>
      rw [hnext] at hrun
      cases hrun
      exact allocStep_fail_progress h hnext

/-- The runs have allocated clusters only. -/
theorem Describes.mem_of_run
    {runs : Runlist} {cs : List Nat}
    (h : Describes startVcn runs cs)
    {run : Nat × Nat}
    (hrun : run ∈ runsOfRl runs.reverse)
    {c : Nat}
    (hlo : run.1 ≤ c)
    (hhi : c < run.1 + run.2) :
    c ∈ cs := by
  rw [runsOfRl, List.mem_map] at hrun
  obtain ⟨e, he, rfl⟩ := hrun
  obtain ⟨hmem, hlcn⟩ := List.mem_filter.mp he
  have hlcn' : 0 ≤ e.lcn := of_decide_eq_true hlcn
  have hruns : e ∈ runs.reverse := (List.takeWhile_prefix _).subset hmem
  have hpair : (e.vcn + (c - e.lcn), (c : Int)) ∈ runs.reverse.flatMap clustersOf := by
    refine List.mem_flatMap.mpr ⟨e, hruns, ?_⟩
    rw [clustersOf, List.mem_map]
    refine ⟨c - e.lcn.toNat, List.mem_range.mpr (by omega), ?_⟩
    simp only [Prod.mk.injEq]
    omega
  rw [h.pairs] at hpair
  have hsnd : (c : Int) ∈ (vcnPairs startVcn cs).map Prod.snd :=
    List.mem_map.mpr ⟨_, hpair, rfl⟩
  rw [vcnPairs_snd, List.mem_map] at hsnd
  obtain ⟨d, hd, hcd⟩ := hsnd
  have : d = c := by omega
  exact this ▸ hd

theorem mem_vcnPairs
    {s v l : Int} {cs : List Nat} :
    (v, l) ∈ vcnPairs s cs ↔ ∃ i, ∃ h : i < cs.length, v = s + i ∧ l = cs[i] := by
  simp only [vcnPairs, List.mem_mapIdx, Prod.mk.injEq]
  constructor
  · rintro ⟨i, h, hv, hl⟩
    exact ⟨i, h, hv.symm, hl.symm⟩
  · rintro ⟨i, h, hv, hl⟩
    exact ⟨i, h, hv.symm, hl.symm⟩

/-- Every allocated cluster is in a run. -/
theorem Describes.run_of_mem
    {startVcn : Int} {runs : Runlist} {cs : List Nat}
    (h : Describes startVcn runs cs)
    {c : Nat}
    (hc : c ∈ cs) :
    ∃ run ∈ runsOfRl runs.reverse, run.1 ≤ c ∧ c < run.1 + run.2 := by
  obtain ⟨i, hi, rfl⟩ := List.getElem_of_mem hc
  have hmem : (startVcn + (i : Int), (cs[i] : Int)) ∈ runs.reverse.flatMap clustersOf := by
    rw [h.pairs]
    exact mem_vcnPairs.mpr ⟨i, hi, rfl, rfl⟩
  obtain ⟨e, he, hpair⟩ := List.mem_flatMap.mp hmem
  obtain ⟨hlo, hhi, hdiff⟩ := mem_clustersOf.mp hpair
  have hall : ∀ f ∈ runs.reverse, decide (f.length ≠ 0) = true := fun f hf =>
    decide_eq_true (h.pos f (List.mem_reverse.mp hf)).ne'
  have hfirst : (e.vcn, e.lcn) ∈ vcnPairs startVcn cs := by
    rw [← h.pairs]
    refine List.mem_flatMap.mpr ⟨e, he, mem_clustersOf.mpr ?_⟩
    omega
  obtain ⟨j, hj, -, hlcn⟩ := mem_vcnPairs.mp hfirst
  refine ⟨(e.lcn.toNat, e.length.toNat), ?_, by omega, by omega⟩
  rw [runsOfRl, List.takeWhile_eq_self_iff.mpr hall]
  exact List.mem_map.mpr ⟨e, List.mem_filter.mpr ⟨he, decide_eq_true (by omega)⟩, rfl⟩

end Searches

end NtfsPlus.Libntfs

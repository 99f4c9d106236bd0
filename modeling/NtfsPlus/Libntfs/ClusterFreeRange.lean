import NtfsPlus.Libntfs.AttrFindVcn
import NtfsPlus.Libntfs.ClusterFree

/-!
# The clusters that `ntfs_cluster_free` frees, and the number it returns

For a runlist whose VCNs are all mapped, or holes, the call frees exactly the clusters of
the VCNs it is given, in the cluster bitmap and in fsck's.  It counts them in 64 bits but
returns an `int`, so the number is right exactly if it is below 2^31
(`clusterFree_exact_iff`).
-/

namespace NtfsPlus.Libntfs

section Model

/-- What is left of `count` behind the loop of `ntfs_cluster_free`; none if it stops at an
LCN that is neither a cluster nor a hole. -/
def countAfter (isOnFsck : Bool) : Int → Runlist → Option Int
  | count, [] => some count
  | count, e :: rest =>
    if e.length = 0 ∨ count = 0 then
      some count
    else if e.lcn < 0 ∧ e.lcn ≠ lcnHole then
      if isOnFsck then countAfter isOnFsck count rest else none
    else
      let toFree := if count ≥ 0 ∧ e.length > count then count else e.length
      countAfter isOnFsck (if count ≥ 0 then count - toFree else count) rest

/-- The number of clusters in runs. -/
def clusterCount (runs : List (Nat × Nat)) : Nat :=
  (runs.map Prod.snd).sum

/-- What `ntfs_cluster_free` returns for the elements from that of `startVcn` on; none
for -1. -/
def clusterFreeRet (isOnFsck : Bool) (found : Runlist) (startVcn count : Int) : Option Int :=
  match found with
  | [] => none
  | e :: rest =>
    if startVcn < 0 ∨ count < 0 ∧ count ≠ -1 then
      none
    else if e.lcn < 0 ∧ e.lcn ≠ lcnHole then
      none
    else
      let inRun := e.length - (startVcn - e.vcn)
      let toFree := if count ≥ 0 ∧ inRun > count then count else inRun
      match countAfter isOnFsck (if count ≥ 0 then count - toFree else count) rest with
      | none => none
      | some left =>
        if left ≠ -1 ∧ left ≠ 0 then
          none
        else
          -- `nr_freed` is a `s64`, the result an `int`
          some (Int.bmod (clusterCount (runsOfFree isOnFsck found startVcn count)) (2 ^ 32))

/-- `ntfs_cluster_free` on an attribute with the runlist `rl`. -/
def attrClusterFree (isOnFsck : Bool) (vol : AllocVolume) (rl : Runlist)
    (startVcn count : Int) : Option Int × AllocVolume :=
  match lookupVcn startVcn (some rl) with
  | .found pos =>
    (clusterFreeRet isOnFsck pos startVcn count, clusterFree isOnFsck vol pos startVcn count)
  | .notMapped => (none, vol)
  | .missing => (some 0, vol)

end Model

section Clusters

/-- The clusters of `n` VCNs from `v` on. -/
def clustersIn (L : Runlist) (v : Int) : Nat → List Nat
  | 0 => []
  | n + 1 => (if 0 ≤ lcnIn L v then [(lcnIn L v).toNat] else []) ++ clustersIn L (v + 1) n

/-- The clusters of runs. -/
def clustersOfRuns (runs : List (Nat × Nat)) : List Nat :=
  runs.flatMap fun run => List.range' run.1 run.2

variable {L : Runlist} {v w : Int} {n : Nat} {e t : RunlistElement}

/-- A range can be divided. -/
theorem clustersIn_add
    (L : Runlist)
    (v : Int)
    (m n : Nat) :
    clustersIn L v (m + n) = clustersIn L v m ++ clustersIn L (v + m) n := by
  induction m generalizing v with
  | zero => simp [clustersIn]
  | succ m ih =>
    have hnext : v + 1 + (m : Int) = v + ((m + 1 : Nat) : Int) := by omega
    rw [Nat.succ_add, clustersIn, clustersIn, ih, List.append_assoc, hnext]

/-- The clusters depend on the lookups in the range only. -/
theorem clustersIn_congr
    {L' : Runlist}
    (h : ∀ u, v ≤ u → u < v + n → lcnIn L u = lcnIn L' u) :
    clustersIn L v n = clustersIn L' v n := by
  induction n generalizing v with
  | zero => rfl
  | succ n ih =>
    rw [clustersIn, clustersIn, h v le_rfl (by omega),
      ih fun u hlo hhi => h u (by omega) (by omega)]

/-- The clusters of a range inside one element. -/
theorem clustersIn_element
    (hlcn : lcnHole ≤ e.lcn)
    (hlo : e.vcn ≤ v)
    (hhi : v + n ≤ e.vcn + e.length) :
    clustersIn (e :: L) v n =
      if e.lcn = lcnHole then [] else List.range' (e.lcn + (v - e.vcn)).toNat n := by
  induction n generalizing v with
  | zero => simp [clustersIn]
  | succ n ih =>
    have hin : e.vcn ≤ v ∧ v < e.vcn + e.length := by omega
    rw [clustersIn, ih (by omega) (by omega), lcnIn, if_pos hin, RunlistElement.lcnOf]
    by_cases hhole : e.lcn = lcnHole
    · rw [hhole]
      rfl
    · have hreal : 0 ≤ e.lcn := by
        unfold lcnHole at hlcn hhole
        omega
      have hnext : (e.lcn + (v + 1 - e.vcn)).toNat = (e.lcn + (v - e.vcn)).toNat + 1 := by omega
      rw [if_neg hhole, if_neg hhole, if_pos hreal, if_pos (by omega), hnext]
      rfl

/-- The request reaches over `n` VCNs of those left, given as that count or as all of them. -/
def Asked (count : Int) (n : Nat) (left : Int) : Prop :=
  count = n ∧ n ≤ left ∨ count = -1 ∧ n = left

/-- The VCNs that are asked for, split at the end of the element of the first one. -/
theorem Asked.element
    {count : Int}
    (h : Asked count n (w - v))
    (hrest : Tiles (e.vcn + e.length) L w)
    (hlcn : lcnHole ≤ e.lcn)
    (hlo : e.vcn ≤ v)
    (hhi : v < e.vcn + e.length) :
    ∃ k : Nat, (if count ≥ 0 ∧ e.length - (v - e.vcn) > count then count
        else e.length - (v - e.vcn)) = k ∧
      Asked (if count ≥ 0 then count - k else count) (n - k) (w - (e.vcn + e.length)) ∧
      clustersIn (e :: L) v n =
        (if e.lcn = lcnHole then [] else List.range' (e.lcn + (v - e.vcn)).toNat k) ++
          clustersIn L (e.vcn + e.length) (n - k) := by
  have hle := hrest.le
  obtain ⟨k, hk, hkn, hin, hlast⟩ : ∃ k : Nat,
      (if count ≥ 0 ∧ e.length - (v - e.vcn) > count then count
        else e.length - (v - e.vcn)) = k ∧
      k ≤ n ∧ v + k ≤ e.vcn + e.length ∧ (k = n ∨ v + k = e.vcn + e.length) := by
    refine ⟨(if count ≥ 0 ∧ e.length - (v - e.vcn) > count then count
      else e.length - (v - e.vcn)).toNat, ?_⟩
    rcases h with ⟨_, _⟩ | ⟨_, _⟩ <;> split_ifs <;> omega
  refine ⟨k, hk, ?_, ?_⟩
  · rcases h with ⟨hc, _⟩ | ⟨hc, _⟩
    · left
      omega
    · right
      omega
  · have htail : clustersIn (e :: L) (v + k) (n - k) = clustersIn L (e.vcn + e.length) (n - k) := by
      rcases hlast with hall | hend
      · rw [hall, Nat.sub_self]
        rfl
      · rw [hend]
        refine clustersIn_congr fun u hu _ => ?_
        rw [lcnIn, if_neg (by omega)]
    rw [← clustersIn_element hlcn hlo hin, ← htail, ← clustersIn_add, Nat.add_sub_cancel' hkn]

theorem not_invalid
    (hlcn : lcnHole ≤ e.lcn) :
    ¬(e.lcn < 0 ∧ e.lcn ≠ lcnHole) := by
  unfold lcnHole at hlcn ⊢
  omega

/-- The loop frees the clusters of what is left of the range. -/
theorem restOfFree_clusters
    {b : Bool} {count : Int}
    (h : Tiles v L w)
    (hlcn : ∀ f ∈ L, lcnHole ≤ f.lcn)
    (ht : t.length = 0)
    (hn : Asked count n (w - v)) :
    clustersOfRuns (restOfFree b count (L ++ [t])) = clustersIn L v n ∧
      ∃ left, countAfter b count (L ++ [t]) = some left ∧ (left = -1 ∨ left = 0) := by
  induction L generalizing v n count with
  | nil =>
    have hw : w = v := h
    have hzero : n = 0 := by rcases hn with ⟨_, _⟩ | ⟨_, _⟩ <;> omega
    rw [List.nil_append, restOfFree, countAfter, if_pos (Or.inl ht), if_pos (Or.inl ht), hzero]
    refine ⟨rfl, count, rfl, ?_⟩
    rcases hn with ⟨hc, _⟩ | ⟨hc, _⟩
    · exact Or.inr (by omega)
    · exact Or.inl hc
  | cons f L ih =>
    obtain ⟨rfl, hpos, hrest⟩ := h
    rw [List.cons_append, restOfFree, countAfter]
    by_cases hstop : count = 0
    · have hzero : n = 0 := by
        rcases hn with ⟨_, _⟩ | ⟨_, _⟩ <;> omega
      rw [if_pos (Or.inr hstop), if_pos (Or.inr hstop), hzero]
      exact ⟨rfl, count, rfl, Or.inr hstop⟩
    have hf := hlcn f List.mem_cons_self
    have hgo : ¬(f.length = 0 ∨ count = 0) := by omega
    obtain ⟨k, hk, hnext, hsplit⟩ := hn.element hrest hf le_rfl (by omega)
    rw [sub_self, sub_zero] at hk
    rw [sub_self, add_zero] at hsplit
    obtain ⟨hclusters, hleft⟩ := ih hrest (fun g hg => hlcn g (List.mem_cons_of_mem f hg)) hnext
    rw [if_neg hgo, if_neg hgo, if_neg (not_invalid hf), if_neg (not_invalid hf), hsplit,
      ← hclusters]
    rw [hk]
    refine ⟨?_, hleft⟩
    by_cases hhole : f.lcn = lcnHole
    · simp [hhole]
    · rw [if_pos hhole, if_neg hhole]
      rfl

/-- The runs that are freed from a VCN on, and that all of them are counted. -/
theorem runsOfFree_clusters
    {b : Bool} {count s : Int} {A B : Runlist}
    (h : Tiles 0 (A ++ e :: B) w)
    (hlcn : ∀ f ∈ A ++ e :: B, lcnHole ≤ f.lcn)
    (ht : t.length = 0)
    (hlo : e.vcn ≤ s)
    (hhi : s < e.vcn + e.length)
    (hn : Asked count n (w - s)) :
    clustersOfRuns (runsOfFree b (e :: B ++ [t]) s count) = clustersIn (A ++ e :: B) s n ∧
      clusterFreeRet b (e :: B ++ [t]) s count =
        some (Int.bmod (clusterCount (runsOfFree b (e :: B ++ [t]) s count)) (2 ^ 32)) := by
  obtain ⟨m, hA, rfl, hpos, hB⟩ := tiles_append_iff.mp h
  have hzero := hA.le
  have he := hlcn e (by simp)
  have hargs : ¬(s < 0 ∨ count < 0 ∧ count ≠ -1) := by rcases hn with ⟨_, _⟩ | ⟨_, _⟩ <;> omega
  obtain ⟨k, hk, hnext, hsplit⟩ := hn.element hB he hlo hhi
  obtain ⟨hclusters, left, hleft, hdone⟩ :=
    restOfFree_clusters (b := b) hB (fun f hf => hlcn f (by simp [hf])) ht hnext
  have hbehind : clustersIn (A ++ e :: B) s n = clustersIn (e :: B) s n :=
    clustersIn_congr fun u hu _ => lcnIn_append_right hA (by omega)
  rw [hbehind, hsplit, ← hclusters]
  constructor
  · rw [List.cons_append, runsOfFree, if_neg hargs, if_neg (not_invalid he)]
    dsimp only
    rw [hk]
    by_cases hhole : e.lcn = lcnHole
    · simp [hhole]
    · rw [if_pos hhole, if_neg hhole]
      rfl
  · rw [List.cons_append, clusterFreeRet, if_neg hargs, if_neg (not_invalid he)]
    dsimp only
    rw [hk, hleft]
    dsimp only
    rw [if_neg (by omega)]

end Clusters

section Volumes

variable {vol : AllocVolume} {runs : List (Nat × Nat)}

theorem clusterCount_eq
    (runs : List (Nat × Nat)) :
    clusterCount runs = (clustersOfRuns runs).length := by
  simp [clusterCount, clustersOfRuns]

theorem mem_clustersOfRuns
    {c : Nat} :
    c ∈ clustersOfRuns runs ↔ ∃ run ∈ runs, run.1 ≤ c ∧ c < run.1 + run.2 := by
  simp [clustersOfRuns]

/-- The bitmap of the check loses the same clusters. -/
theorem freeRuns_shadow
    {f : FsckAlloc}
    (hf : vol.fsck = some f)
    (hvalid : LcnbmpValid f.vol)
    (hin : ∀ c ∈ clustersOfRuns runs, c < f.vol.nrClusters) :
    ∃ f', (freeRuns vol runs).fsck = some f' ∧
      ∀ c, f'.vol.isSet c = (f.vol.isSet c && decide (c ∉ clustersOfRuns runs)) := by
  induction runs generalizing vol f with
  | nil => exact ⟨f, hf, fun c => by simp [clustersOfRuns]⟩
  | cons run runs ih =>
    have hmem : ∀ c, c ∈ clustersOfRuns (run :: runs) ↔
        (run.1 ≤ c ∧ c < run.1 + run.2) ∨ c ∈ clustersOfRuns runs := fun c => by
      simp [mem_clustersOfRuns]
    obtain ⟨v, hv, hvalid', hnr, hset⟩ : ∃ v, (freeRun vol run).fsck = some { f with vol := v } ∧
        LcnbmpValid v ∧ v.nrClusters = f.vol.nrClusters ∧
        ∀ c, v.isSet c = (f.vol.isSet c && decide ¬(run.1 ≤ c ∧ c < run.1 + run.2)) := by
      rw [freeRun]
      rw [updateFullStatus_fsck, hf, Option.map_some]
      by_cases hlen : run.2 = 0
      · refine ⟨f.vol, ?_, hvalid, rfl, fun c => ?_⟩
        · rw [hlen, setLcnbmpRange, if_pos (by simp)]
        · simp only [hlen]
          simp
      · have hlast := hin (run.1 + run.2 - 1) ((hmem _).mpr (Or.inl (by omega)))
        obtain ⟨v, hok, hmarks⟩ := setLcnbmpRange_spec false hvalid
          (show 0 < (run.2 : Int) by omega) (show run.1 + (run.2 : Int) ≤ _ by omega)
        refine ⟨v, by rw [show (0 : UInt8) = false.toUInt8 from rfl, hok], hmarks.valid,
          hmarks.nrClusters, fun c => ?_⟩
        rw [hmarks.isSet]
        by_cases hc : run.1 ≤ c ∧ c < run.1 + run.2 <;> simp [hc]
    obtain ⟨f', hf', hbits⟩ := ih hv hvalid' (fun c hc => by
      rw [hnr]
      exact hin c ((hmem c).mpr (Or.inr hc)))
    refine ⟨f', hf', fun c => ?_⟩
    rw [hbits, hset, Bool.and_assoc, ← Bool.decide_and]
    simp only [hmem, not_or]

/-- The call frees exactly the clusters `cs` and returns their number. -/
structure FreesExactly (isOnFsck : Bool) (vol : AllocVolume) (rl : Runlist) (s count : Int)
    (cs : List Nat) : Prop where
  returned : (attrClusterFree isOnFsck vol rl s count).1 = some (cs.length : Int)
  bitmap : ∀ c, bitAt (attrClusterFree isOnFsck vol rl s count).2.bitmap c =
    (bitAt vol.bitmap c && decide (c ∉ cs))
  shadow : ∀ f, vol.fsck = some f →
    ∃ f', (attrClusterFree isOnFsck vol rl s count).2.fsck = some f' ∧
      ∀ c, f'.vol.isSet c = (f.vol.isSet c && decide (c ∉ cs))

/--
For an attribute whose runlist maps all VCNs to clusters of the volume or holes, freeing
`n` VCNs from `s` on, or all from there, does exactly that and returns the number of
clusters if and only if there are fewer than 2^31.
-/
theorem clusterFree_exact_iff
    (isOnFsck : Bool)
    (vol : AllocVolume)
    (runs : Runlist)
    (t : RunlistElement)
    (s count : Int)
    (n : Nat)
    (htiles : Tiles 0 runs t.vcn)
    (ht : t.length = 0)
    (hlcn : ∀ e ∈ runs, lcnHole ≤ e.lcn)
    (hs : 0 ≤ s)
    (hlt : s < t.vcn)
    (hcount : count = n ∧ s + n ≤ t.vcn ∨ count = -1 ∧ s + n = t.vcn)
    (hfsck : ∀ f, vol.fsck = some f →
      LcnbmpValid f.vol ∧ ∀ c ∈ clustersIn runs s n, c < f.vol.nrClusters) :
    FreesExactly isOnFsck vol (runs ++ [t]) s count (clustersIn runs s n) ↔
      (clustersIn runs s n).length < 2 ^ 31 := by
  obtain ⟨A, e, B, rfl, hlo, hhi⟩ := htiles.locate hs hlt
  have hfirst := htiles.elemAt_zero
  have hfound : lookupVcn s (some (A ++ e :: B ++ [t])) = .found (e :: B ++ [t]) := by
    rw [lookupVcn, if_neg (by omega), seekVcn_covering htiles hlo hhi]
    dsimp only
    rw [show elemAt (e :: B ++ [t]) 0 = e from rfl, if_pos ⟨by omega, hlcn e (by simp)⟩]
  obtain ⟨hclusters, hret⟩ := runsOfFree_clusters (b := isOnFsck) htiles hlcn ht hlo hhi
    (show Asked count n (t.vcn - s) by unfold Asked; omega)
  rw [clusterCount_eq, hclusters] at hret
  have hcall : attrClusterFree isOnFsck vol (A ++ e :: B ++ [t]) s count =
      (some (Int.bmod (clustersIn (A ++ e :: B) s n).length (2 ^ 32)),
        freeRuns vol (runsOfFree isOnFsck (e :: B ++ [t]) s count)) := by
    rw [attrClusterFree, hfound, ← hret]
    rfl
  constructor
  · intro h
    have hsame := h.returned
    rw [hcall] at hsame
    have hbmod := Option.some.inj hsame
    have hbound := @Int.bmod_lt (clustersIn (A ++ e :: B) s n).length (2 ^ 32) (by decide)
    omega
  · intro hfew
    refine ⟨?_, ?_, ?_⟩
    · rw [hcall]
      exact congrArg some (Int.bmod_eq_of_le (by omega) (by omega))
    · intro c
      rw [hcall, ← hclusters, Bool.eq_iff_iff, (freeRuns_spec vol _).2.2 c]
      simp [mem_clustersOfRuns]
    · intro f hf
      rw [hcall, ← hclusters]
      obtain ⟨hvalid, hin⟩ := hfsck f hf
      exact freeRuns_shadow hf hvalid (hclusters ▸ hin)

/-- Of a cluster, a hole and two clusters, all from VCN 1 on. -/
theorem clusterFree_exact_behind_hole :
    FreesExactly false alternatingVolume [⟨0, 5, 1⟩, ⟨1, lcnHole, 1⟩, ⟨2, 8, 2⟩, enoentAt 4] 1 (-1)
      [8, 9] :=
  (clusterFree_exact_iff false alternatingVolume
    [⟨0, 5, 1⟩, ⟨1, lcnHole, 1⟩, ⟨2, 8, 2⟩] (enoentAt 4) 1 (-1) 3
    (by simp [Tiles, enoentAt]) rfl (by decide) (by decide) (by decide)
    (Or.inr (by decide)) (fun f hf => by cases hf)).mpr (by decide)

/-- One run of 2^31 clusters: all of them are freed, and a negative number is returned. -/
theorem clusterFree_negative_count :
    (attrClusterFree false { alternatingVolume with nrClusters := 2 ^ 32, bitmapSize := 2 ^ 29 }
        [⟨0, 0, 2 ^ 31⟩, enoentAt (2 ^ 31)] 0 (-1)).1 = some (-2 ^ 31) ∧
      clusterCount (runsOfFree false [⟨0, 0, 2 ^ 31⟩, enoentAt (2 ^ 31)] 0 (-1)) = 2 ^ 31 := by
  decide

end Volumes

end NtfsPlus.Libntfs

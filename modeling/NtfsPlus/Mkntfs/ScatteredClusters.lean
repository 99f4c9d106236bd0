import NtfsPlus.Mkntfs.BitmapAllocation

/-!
# Scattered clusters

`allocate_scattered_clusters` claims free clusters one after the other, first behind the MFT
zone and then in halves of the zone, and grows a runlist of them.  When it gives up it
deallocates the runs of that list.  A cluster is claimed before there is room for it in the
list: if `realloc` fails, the cluster stays allocated.  And when there is no list node for a
cluster, `bitmap_get_and_set` answers all the same that it was free: the cluster gets into the
runlist without being allocated.
-/

namespace NtfsPlus.Mkntfs

section Model

/-- An element of the runlist. -/
structure Element where
  vcn : Nat
  lcn : Nat
  length : Nat
deriving DecidableEq

/-- What the loops work on; `rl` has the last element first. -/
structure Scatter where
  allocation : List Run
  rl : List Element
  rlsize : Nat
  vcn : Nat
  clusters : Nat

/-- How the loops end. -/
inductive Pass where
  | more
  | done
  | noMemory
deriving DecidableEq

/-- A cluster is added to the last run if it follows it. -/
def addCluster (vcn lcn : Nat) : List Element → List Element
  | [] => [⟨vcn, lcn, 1⟩]
  | r :: rl =>
    if r.lcn + r.length = lcn then ⟨r.vcn, r.lcn, r.length + 1⟩ :: rl
    else ⟨vcn, lcn, 1⟩ :: r :: rl

/-- What the allocator gives.  No cluster is claimed twice and no size asked for twice, so this
is any sequence of answers. -/
structure Memory where
  /-- Whether there is a list node for a run that begins at a cluster. -/
  node : Nat → Bool
  /-- Whether `realloc` gives a size. -/
  grow : Nat → Bool

/-- A cluster that was free, behind `bitmap_get_and_set`. -/
def claimCluster (mem : Memory) (lcn : Nat) (allocation : List Run) (s : Scatter) :
    Pass × Scatter :=
  if (s.rl.length + 2) * 24 ≥ s.rlsize ∧ mem.grow (s.rlsize + 4096) = false then
    (.noMemory, { s with allocation := allocation })
  else
    let rlsize := if (s.rl.length + 2) * 24 ≥ s.rlsize then s.rlsize + 4096 else s.rlsize
    let s' : Scatter :=
      ⟨allocation, addCluster s.vcn lcn s.rl, rlsize, s.vcn + 1, s.clusters - 1⟩
    (if s'.clusters = 0 then .done else .more, s')

/-- The loop over `n` clusters of a zone. -/
def zoneLoop (mem : Memory) : Nat → Nat → Scatter → Pass × Scatter
  | 0, _, s => (.more, s)
  | n + 1, lcn, s =>
    match bitmapGetAndSet (mem.node lcn) s.allocation lcn with
    | (true, _) => zoneLoop mem n (lcn + 1) s
    | (false, allocation) =>
      match claimCluster mem lcn allocation s with
      | (.more, s') => zoneLoop mem n (lcn + 1) s'
      | r => r

/-- The loop over the zones. -/
def zones (mem : Memory) (zoneStop zoneEnd : Nat) (s : Scatter) : Pass × Scatter :=
  match zoneLoop mem (zoneStop - zoneEnd) zoneEnd s with
  | (.more, s') => if zoneEnd / 2 = 0 then (.more, s') else zones mem zoneEnd (zoneEnd / 2) s'
  | r => r
termination_by zoneEnd

/-- `deallocate_scattered_clusters`. -/
def deallocateScatteredClusters (l : List Run) (rl : List Element) : List Run :=
  rl.foldl (fun l e => (bitmapDeallocate l e.lcn e.length).2) l

/-- A volume being laid out: the clusters behind its end that the zone reaches are marked, as
`mkntfs` marks the end of `$Bitmap`. -/
structure ScatterVolume where
  nrClusters : Nat
  mftZoneEnd : Nat
  allocation : List Run
  zone_pos : 0 < mftZoneEnd
  apart : RunsApart 0 allocation
  marked : ∀ c, nrClusters ≤ c → c < mftZoneEnd → InRuns allocation c

/-- The runlist that a call returned, with the last element first, and the list of allocated
runs. -/
structure Scattered where
  rl : Option (List Element)
  allocation : List Run

/-- `allocate_scattered_clusters`. -/
def allocateScatteredClusters (mem : Memory) (vol : ScatterVolume) (clusters : Nat) :
    Scattered :=
  if clusters = 0 then
    ⟨none, vol.allocation⟩
  else
    match zones mem vol.nrClusters vol.mftZoneEnd ⟨vol.allocation, [], 0, 0, clusters⟩ with
    | (.done, s) => ⟨some s.rl, s.allocation⟩
    | (_, s) => ⟨none, deallocateScatteredClusters s.allocation s.rl.reverse⟩

end Model

section Runlist

variable {rl : List Element} {vcn lcn c : Nat} {l : List Run}

/-- The runs of a runlist. -/
def runs (rl : List Element) : List Run :=
  rl.map fun e => ⟨e.lcn, e.length⟩

/-- The elements map the VCNs below `w`, each where the one before ends. -/
def Contiguous : List Element → Nat → Prop
  | [], w => w = 0
  | r :: rl, w => r.vcn + r.length = w ∧ 0 < r.length ∧ Contiguous rl r.vcn

/-- No run follows the one before it on the volume. -/
def Coalesced (rl : List Element) : Prop :=
  rl.IsChain fun later earlier => earlier.lcn + earlier.length ≠ later.lcn

/-- No cluster is in two runs. -/
def Distinct (rl : List Element) : Prop :=
  rl.Pairwise fun a b => a.lcn + a.length ≤ b.lcn ∨ b.lcn + b.length ≤ a.lcn

theorem Contiguous.pos : ∀ {rl : List Element} {w : Nat}, Contiguous rl w →
    ∀ r ∈ rl, 0 < r.length
  | _ :: _, _, ⟨_, hpos, hrest⟩, r, hr => by
    rcases List.mem_cons.mp hr with rfl | hr
    · exact hpos
    · exact hrest.pos r hr

/-- The runlist has one cluster more. -/
theorem inRuns_addCluster : InRuns (runs (addCluster vcn lcn rl)) c ↔
    InRuns (runs rl) c ∨ c = lcn := by
  have hone : InRange lcn 1 c ↔ c = lcn := by
    unfold InRange
    omega
  unfold addCluster
  split
  · rw [← hone, or_comm]
    exact inRuns_cons
  · split
    · simp only [runs, List.map_cons, inRuns_cons, InRange]
      rw [or_right_comm]
      exact or_congr (by omega) Iff.rfl
    · rw [← hone, or_comm]
      exact inRuns_cons

/-- Its VCNs stay contiguous. -/
theorem contiguous_addCluster
    (h : Contiguous rl vcn) :
    Contiguous (addCluster vcn lcn rl) (vcn + 1) := by
  unfold addCluster
  split
  · exact ⟨rfl, Nat.one_pos, h⟩
  · obtain ⟨hvcn, hpos, hrest⟩ := h
    split
    · exact ⟨by dsimp only; omega, by dsimp only; omega, hrest⟩
    · exact ⟨rfl, Nat.one_pos, hvcn, hpos, hrest⟩

/-- Adjacent runs stay merged. -/
theorem coalesced_addCluster
    (h : Coalesced rl) :
    Coalesced (addCluster vcn lcn rl) := by
  unfold addCluster
  split
  · exact List.isChain_singleton _
  · next r rest =>
    split
    · cases rest with
      | nil => exact List.isChain_singleton _
      | cons b rest =>
        rw [Coalesced, List.isChain_cons_cons] at h ⊢
        exact h
    · next hne => exact List.isChain_cons_cons.mpr ⟨hne, h⟩

/-- No cluster is in it twice. -/
theorem distinct_addCluster
    (hpos : ∀ r ∈ rl, 0 < r.length)
    (hnew : ¬InRuns (runs rl) lcn)
    (h : Distinct rl) :
    Distinct (addCluster vcn lcn rl) := by
  have hout : ∀ r ∈ rl, r.lcn + r.length ≤ lcn ∨ lcn + 1 ≤ r.lcn := by
    intro r hr
    by_contra hin
    exact hnew ⟨⟨r.lcn, r.length⟩, List.mem_map_of_mem hr, by dsimp only [InRange]; omega⟩
  unfold addCluster
  split
  · exact List.pairwise_singleton _ _
  · next r rest =>
    obtain ⟨hr, hrest⟩ := List.pairwise_cons.mp h
    split
    · next hend =>
      refine List.pairwise_cons.mpr ⟨fun b hb => ?_, hrest⟩
      have := hr b hb
      have := hout b (List.mem_cons_of_mem r hb)
      have := hpos b (List.mem_cons_of_mem r hb)
      dsimp only
      omega
    · exact List.pairwise_cons.mpr ⟨fun b hb => by
        have := hout b hb
        dsimp only
        omega, h⟩

/-- What `bitmap_get_and_set` answers and leaves. -/
theorem bitmapGetAndSet_cases
    (node : Bool)
    (hl : RunsApart 0 l)
    (lcn : Nat) :
    bitmapGetAndSet node l lcn = (true, l) ∧ InRuns l lcn ∨
      bitmapGetAndSet node l lcn = (false, (bitmapAllocateIf node l lcn 1).2) ∧
        ¬InRuns l lcn := by
  have hsplit := l.takeWhile_append_dropWhile (p := fun r => r.lcn ≤ lcn)
  have hafter : ∀ b ∈ l.dropWhile (·.lcn ≤ lcn), lcn < b.lcn := fun b hb => lt_of_mem_after hl hb
  have hbefore : ∀ a ∈ l.takeWhile (·.lcn ≤ lcn), a.lcn ≤ lcn := fun a ha => by
    simpa using List.mem_takeWhile_imp ha
  unfold bitmapGetAndSet
  generalize l.dropWhile (·.lcn ≤ lcn) = B at hsplit hafter
  split
  · next hlast =>
    obtain ⟨q, hq, hin⟩ := (Option.any_eq_true _ _).mp hlast
    exact .inl ⟨rfl, q, hsplit ▸ List.mem_append_left B (List.mem_of_getLast? hq),
      by simpa [InRange] using hin⟩
  · next hlast =>
    refine .inr ⟨rfl, ?_⟩
    rintro ⟨r, hr, hr₁, hr₂⟩
    rw [← hsplit] at hr hl
    rcases List.mem_append.mp hr with hr | hr
    · have := hl.left.ends_le (n := lcn) (fun q hq => ?_) r hr
      · omega
      · have hle := hbefore q (List.mem_of_getLast? hq)
        have hend : ¬lcn < q.lcn + q.length := by simpa [Option.mem_def.mp hq, hle] using hlast
        omega
    · have := hafter r hr
      omega

/-- A cluster behind an allocated one lies at the end of the last run that starts no later. -/
theorem last_ends_at
    {A B : List Run}
    (hl : RunsApart 0 (A ++ B))
    (hends : ∀ q ∈ A, q.lcn + q.length ≤ lcn)
    (hafter : ∀ b ∈ B, lcn < b.lcn)
    (hbehind : ∃ k, lcn = k + 1 ∧ InRuns (A ++ B) k) :
    ∃ q ∈ A.getLast?, q.lcn + q.length = lcn := by
  obtain ⟨k, rfl, r, hr, hr₁, hr₂⟩ := hbehind
  have hrA : r ∈ A := (List.mem_append.mp hr).resolve_right fun hB => by
    have := hafter r hB
    omega
  by_contra hnone
  have := hl.left.ends_le (n := k) (fun q hq => ?_) r hrA
  · omega
  · have := hends q (List.mem_of_getLast? hq)
    have : q.lcn + q.length ≠ k + 1 := fun hq' => hnone ⟨q, hq, hq'⟩
    omega

/-- Without a list node a free cluster is allocated only if it follows an allocated one. -/
theorem bitmapAllocateIf_false
    (hl : RunsApart 0 l)
    (hfree : ¬InRuns l lcn) :
    (∃ k, lcn = k + 1 ∧ InRuns l k) ∧
        (bitmapAllocateIf false l lcn 1).2 = (bitmapAllocate l lcn 1).2 ∨
      (¬∃ k, lcn = k + 1 ∧ InRuns l k) ∧ (bitmapAllocateIf false l lcn 1).2 = l := by
  have hsplit := l.takeWhile_append_dropWhile (p := fun r => r.lcn ≤ lcn)
  have hafter : ∀ b ∈ l.dropWhile (·.lcn ≤ lcn), lcn < b.lcn := fun b hb => lt_of_mem_after hl hb
  have hbefore : ∀ a ∈ l.takeWhile (·.lcn ≤ lcn), a.lcn ≤ lcn := fun a ha => by
    simpa using List.mem_takeWhile_imp ha
  have hends : ∀ q ∈ l.takeWhile (·.lcn ≤ lcn), q.lcn + q.length ≤ lcn := fun q hq => by
    by_contra hgt
    have hle := hbefore q hq
    exact hfree ⟨q, hsplit ▸ List.mem_append_left _ hq, hle, by omega⟩
  unfold bitmapAllocate bitmapAllocateIf
  rw [if_neg Nat.one_ne_zero, if_neg Nat.one_ne_zero]
  generalize l.takeWhile (·.lcn ≤ lcn) = A at hsplit hbefore hends ⊢
  generalize l.dropWhile (·.lcn ≤ lcn) = B at hsplit hafter ⊢
  subst hsplit
  have hlast := last_ends_at hl hends hafter
  rcases A.eq_nil_or_concat' with rfl | ⟨A', q, rfl⟩
  · refine .inr ⟨fun h => ?_, by simp⟩
    obtain ⟨q, hq, -⟩ := hlast h
    cases hq
  by_cases hq : q.lcn + q.length = lcn
  · have hpos := hl.pos q (by simp)
    exact .inl ⟨⟨lcn - 1, by omega, q, by simp, by omega, by omega⟩, by simp [hq]⟩
  · refine .inr ⟨fun h => ?_, by simp [hq]⟩
    obtain ⟨q', hq', hend⟩ := hlast h
    rw [List.getLast?_append, List.getLast?_singleton] at hq'
    obtain rfl : q = q' := by simpa using hq'
    exact hq hend

/-- What a claim records. -/
theorem bitmapAllocateIf_spec
    (node : Bool)
    (hl : RunsApart 0 l)
    (hfree : ¬InRuns l lcn) :
    RunsApart 0 (bitmapAllocateIf node l lcn 1).2 ∧
      ∀ c, InRuns (bitmapAllocateIf node l lcn 1).2 c ↔
        InRuns l c ∨ c = lcn ∧ (node = true ∨ ∃ k, lcn = k + 1 ∧ InRuns l k) := by
  have hfree' : Free 0 l lcn 1 := fun c hlo hhi => by rwa [show c = lcn by omega]
  have hone (c : Nat) : InRange lcn 1 c ↔ c = lcn := by
    unfold InRange
    omega
  obtain ⟨-, hapart, hmem⟩ := bitmapAllocate_free (Nat.zero_le 1) hl hfree'
  simp only [hone] at hmem
  cases node with
  | true =>
    refine ⟨hapart, fun c => (hmem c).trans ?_⟩
    simp
  | false =>
    rcases bitmapAllocateIf_false hl hfree with ⟨hk, hres⟩ | ⟨hk, hres⟩
    · rw [hres]
      exact ⟨hapart, fun c => (hmem c).trans (by simp [hk])⟩
    · rw [hres]
      exact ⟨hl, fun c => by simp [hk]⟩

end Runlist

section Order

variable {vol : ScatterVolume} {mem : Memory} {s : Scatter}

/-- The clusters in the order in which the loops come to them. -/
def searchOrder (zoneStop zoneEnd : Nat) : List Nat :=
  List.range' zoneEnd (zoneStop - zoneEnd) ++
    if zoneEnd / 2 = 0 then [] else searchOrder zoneEnd (zoneEnd / 2)
termination_by zoneEnd

/-- The free ones of them. -/
def ScatterVolume.candidates (vol : ScatterVolume) : List Nat :=
  (searchOrder vol.nrClusters vol.mftZoneEnd).filter (¬InRuns vol.allocation ·)

theorem lt_of_mem_searchOrder
    {c : Nat}
    (zoneStop zoneEnd : Nat)
    (h : c ∈ searchOrder zoneStop zoneEnd) :
    c < max zoneStop zoneEnd := by
  unfold searchOrder at h
  rcases List.mem_append.mp h with h | h
  · have := List.mem_range'_1.mp h
    omega
  · split at h
    · cases h
    · have := lt_of_mem_searchOrder zoneEnd (zoneEnd / 2) h
      omega
termination_by zoneEnd

theorem nodup_searchOrder
    (zoneStop zoneEnd : Nat) :
    (searchOrder zoneStop zoneEnd).Nodup := by
  unfold searchOrder
  refine List.nodup_append.mpr ⟨List.nodup_range', ?_, fun a ha b hb => ?_⟩
  · split
    · exact List.nodup_nil
    · exact nodup_searchOrder zoneEnd (zoneEnd / 2)
  · split at hb
    · cases hb
    · have := lt_of_mem_searchOrder zoneEnd (zoneEnd / 2) hb
      have := List.mem_range'_1.mp ha
      omega
termination_by zoneEnd

/-- A candidate lies in the volume: what the zone reaches behind it is marked. -/
theorem ScatterVolume.mem_candidates
    {c : Nat}
    (h : c ∈ vol.candidates) :
    ¬InRuns vol.allocation c ∧ c < vol.nrClusters := by
  obtain ⟨hmem, hfree⟩ := List.mem_filter.mp h
  have hfree := of_decide_eq_true hfree
  have := lt_of_mem_searchOrder _ _ hmem
  exact ⟨hfree, by_contra fun hle => hfree (vol.marked c (by omega) (by omega))⟩

/-- The loops, without the clusters that they skip. -/
def claimLoop (mem : Memory) : List Nat → Scatter → Pass × Scatter
  | [], s => (.more, s)
  | c :: rest, s =>
    match claimCluster mem c (bitmapAllocateIf (mem.node c) s.allocation c 1).2 s with
    | (.more, s') => claimLoop mem rest s'
    | r => r

theorem claimCluster_allocation
    (lcn : Nat)
    (allocation : List Run)
    (s : Scatter) :
    (claimCluster mem lcn allocation s).2.allocation = allocation := by
  unfold claimCluster
  split <;> rfl

theorem claimLoop_append
    (L L' : List Nat)
    (s : Scatter) :
    claimLoop mem (L ++ L') s =
      match claimLoop mem L s with
      | (.more, s') => claimLoop mem L' s'
      | r => r := by
  induction L generalizing s with
  | nil => rfl
  | cons c rest ih =>
    rw [List.cons_append, claimLoop, claimLoop]
    split
    · exact ih _
    · next hother =>
      split
      · next heq => exact absurd heq (hother _)
      · rfl

/-- The claims change nothing but the clusters that they are about. -/
theorem claimLoop_frame : ∀ (L : List Nat) (s : Scatter), RunsApart 0 s.allocation →
    (∀ c ∈ L, ¬InRuns s.allocation c) → L.Nodup →
    RunsApart 0 (claimLoop mem L s).2.allocation ∧
      ∀ c ∉ L, (InRuns (claimLoop mem L s).2.allocation c ↔ InRuns s.allocation c)
  | [], _, hl, _, _ => ⟨hl, fun _ _ => Iff.rfl⟩
  | d :: rest, s, hl, hfree, hnodup => by
    obtain ⟨hapart, hmem⟩ := bitmapAllocateIf_spec (mem.node d) hl (hfree d List.mem_cons_self)
    have hsame : ∀ c, c ≠ d →
        (InRuns (bitmapAllocateIf (mem.node d) s.allocation d 1).2 c ↔ InRuns s.allocation c) :=
      fun c hc => by simp [hmem c, hc]
    have halloc := @claimCluster_allocation mem d
      (bitmapAllocateIf (mem.node d) s.allocation d 1).2 s
    obtain ⟨hd, hrest⟩ := List.nodup_cons.mp hnodup
    rw [claimLoop]
    split
    · next s' hclaim =>
      rw [hclaim] at halloc
      dsimp only at halloc
      rw [← halloc] at hapart hsame
      obtain ⟨hapart', hmem'⟩ := claimLoop_frame rest s' hapart (fun c hc => by
        rw [hsame c fun h => hd (h ▸ hc)]
        exact hfree c (List.mem_cons_of_mem d hc)) hrest
      refine ⟨hapart', fun c hc => ?_⟩
      rw [List.mem_cons, not_or] at hc
      rw [hmem' c hc.2, hsame c hc.1]
    · rw [halloc]
      exact ⟨hapart, fun c hc => hsame c fun h => hc (h ▸ List.mem_cons_self)⟩

/-- The loop over a zone claims the candidates of the zone. -/
theorem zoneLoop_eq : ∀ (n lcn : Nat) (s : Scatter), RunsApart 0 s.allocation →
    (∀ c, lcn ≤ c → c < lcn + n → (InRuns s.allocation c ↔ InRuns vol.allocation c)) →
    zoneLoop mem n lcn s =
      claimLoop mem ((List.range' lcn n).filter (¬InRuns vol.allocation ·)) s
  | 0, _, _, _, _ => rfl
  | n + 1, lcn, s, hl, hsame => by
    have hlcn := hsame lcn le_rfl (by omega)
    rw [zoneLoop, List.range'_succ]
    rcases bitmapGetAndSet_cases (mem.node lcn) hl lcn with ⟨hbit, hin⟩ | ⟨hbit, hfree⟩
    · rw [hbit, List.filter_cons_of_neg (by simpa using hlcn.mp hin)]
      exact zoneLoop_eq n (lcn + 1) s hl fun c hlo hhi => hsame c (by omega) (by omega)
    · rw [hbit, List.filter_cons_of_pos (by simpa using mt hlcn.mpr hfree), claimLoop]
      obtain ⟨hapart, hmem⟩ := bitmapAllocateIf_spec (mem.node lcn) hl hfree
      have halloc := @claimCluster_allocation mem lcn
        (bitmapAllocateIf (mem.node lcn) s.allocation lcn 1).2 s
      dsimp only
      split
      · next s' hclaim =>
        rw [hclaim] at halloc
        dsimp only at halloc
        rw [← halloc] at hapart hmem
        refine zoneLoop_eq n (lcn + 1) s' hapart fun c hlo hhi => ?_
        rw [hmem c, or_iff_left (by omega)]
        exact hsame c (by omega) (by omega)
      · rfl

/-- The search claims the candidates in the order of the zones. -/
theorem zones_eq
    (zoneStop zoneEnd : Nat)
    (s : Scatter)
    (hl : RunsApart 0 s.allocation)
    (hsame : ∀ c ∈ searchOrder zoneStop zoneEnd,
      (InRuns s.allocation c ↔ InRuns vol.allocation c)) :
    zones mem zoneStop zoneEnd s =
      claimLoop mem ((searchOrder zoneStop zoneEnd).filter (¬InRuns vol.allocation ·)) s := by
  have hnodup := nodup_searchOrder zoneStop zoneEnd
  unfold searchOrder at hsame hnodup ⊢
  unfold zones
  rw [@zoneLoop_eq vol mem _ _ s hl fun c hlo hhi =>
    hsame c (List.mem_append_left _ (List.mem_range'_1.mpr ⟨hlo, hhi⟩)),
    List.filter_append, claimLoop_append]
  obtain ⟨hnodup₁, -, hapart⟩ := List.nodup_append.mp hnodup
  obtain ⟨hl', hmem'⟩ := @claimLoop_frame mem
    ((List.range' zoneEnd (zoneStop - zoneEnd)).filter (¬InRuns vol.allocation ·)) s hl
    (fun c hc => by
      obtain ⟨hin, hfree⟩ := List.mem_filter.mp hc
      rw [hsame c (List.mem_append_left _ hin)]
      exact of_decide_eq_true hfree) (hnodup₁.filter _)
  split
  · next s' hclaims =>
    rw [hclaims] at hl' hmem'
    split
    · rfl
    · next hzone =>
      rw [if_neg hzone] at hsame hapart
      refine zones_eq zoneEnd (zoneEnd / 2) s' hl' fun c hc => ?_
      rw [hmem' c fun hin => hapart c (List.mem_of_mem_filter hin) c hc rfl]
      exact hsame c (List.mem_append_right _ hc)
  · rfl
termination_by zoneEnd

end Order

section Claimed

variable {mem : Memory} {vol : ScatterVolume} {s : Scatter} {Q : List Nat} {c : Nat}

/-- Among clusters that were claimed, the latest first, those that are allocated: there was a
list node, or the cluster before was allocated then. -/
def Recorded (mem : Memory) (vol : ScatterVolume) : List Nat → Nat → Prop
  | [], _ => False
  | c :: Q, k => Recorded mem vol Q k ∨
      k = c ∧ (mem.node c = true ∨
        ∃ j, c = j + 1 ∧ (InRuns vol.allocation j ∨ Recorded mem vol Q j))

/-- The runs that such clusters make. -/
def stretches : List Nat → Nat
  | [] => 0
  | [_] => 1
  | c :: b :: Q => if b + 1 = c then stretches (b :: Q) else stretches (b :: Q) + 1

/-- The memory for the runlist when one more cluster comes to `n` runs. -/
def runlistSize (n : Nat) : Nat :=
  4096 * ((n + 2) * 24 / 4096 + 1)

/-- There is room for one more cluster. -/
def Memory.hasRoom (mem : Memory) (Q : List Nat) : Bool :=
  mem.grow (runlistSize (stretches Q))

/-- There was room for every one of them. -/
def Memory.HadRoom (mem : Memory) (Q : List Nat) : Prop :=
  ∀ c Q', c :: Q' <:+ Q → mem.hasRoom Q' = true

/-- The runlist and the list of runs once the clusters `Q` have been claimed. -/
structure Claimed (mem : Memory) (vol : ScatterVolume) (Q : List Nat) (s : Scatter) : Prop where
  apart : RunsApart 0 s.allocation
  contiguous : Contiguous s.rl s.vcn
  coalesced : Coalesced s.rl
  distinct : Distinct s.rl
  vcn_eq : s.vcn = Q.length
  elements : ∀ c, InRuns (runs s.rl) c ↔ c ∈ Q
  recorded : ∀ c, InRuns s.allocation c ↔ InRuns vol.allocation c ∨ Recorded mem vol Q c
  last : s.rl.head?.map (fun e => e.lcn + e.length) = Q.head?.map (· + 1)
  length_eq : s.rl.length = stretches Q
  size : s.rlsize = 0 ∧ Q = [] ∨
    mem.grow s.rlsize = true ∧ ∃ n ≤ stretches Q, stretches Q ≤ n + 1 ∧ s.rlsize = runlistSize n

theorem Recorded.claimed
    (h : Recorded mem vol Q c) :
    c ∈ Q := by
  induction Q with
  | nil => cases h
  | cons d Q ih =>
    rcases h with h | ⟨rfl, -⟩
    · exact List.mem_cons_of_mem d (ih h)
    · exact List.mem_cons_self

/-- Whether a cluster is allocated does not depend on the later ones. -/
theorem recorded_suffix_iff
    {W : List Nat}
    (hnodup : W.Nodup)
    (h : c :: Q <:+ W) :
    Recorded mem vol W c ↔ Recorded mem vol (c :: Q) c := by
  induction W with
  | nil => simp at h
  | cons d W ih =>
    obtain ⟨hd, hnodup⟩ := List.nodup_cons.mp hnodup
    rcases List.suffix_cons_iff.mp h with heq | h
    · rw [heq]
    · have hc : c ≠ d := fun hcd => hd (hcd ▸ h.subset List.mem_cons_self)
      rw [Recorded, or_iff_left fun hd => hc hd.1]
      exact ih hnodup h

theorem stretches_cons_le
    (c : Nat)
    (Q : List Nat) :
    stretches Q ≤ stretches (c :: Q) ∧ stretches (c :: Q) ≤ stretches Q + 1 := by
  cases Q with
  | nil => simp [stretches]
  | cons b Q =>
    rw [stretches]
    split <;> omega

theorem Claimed.start
    (mem : Memory)
    (vol : ScatterVolume)
    (clusters : Nat) :
    Claimed mem vol [] ⟨vol.allocation, [], 0, 0, clusters⟩ :=
  ⟨vol.apart, rfl, List.isChain_nil, List.Pairwise.nil, rfl, by simp [runs, InRuns],
    by simp [Recorded], rfl, rfl, .inl ⟨rfl, rfl⟩⟩

/-- What `bitmap_get_and_set` makes of the list. -/
theorem Claimed.get
    (h : Claimed mem vol Q s)
    (hvol : ¬InRuns vol.allocation c)
    (hnew : c ∉ Q) :
    RunsApart 0 (bitmapAllocateIf (mem.node c) s.allocation c 1).2 ∧
      ∀ k, InRuns (bitmapAllocateIf (mem.node c) s.allocation c 1).2 k ↔
        InRuns vol.allocation k ∨ Recorded mem vol (c :: Q) k := by
  have hfree : ¬InRuns s.allocation c := by
    rw [h.recorded c, not_or]
    exact ⟨hvol, mt Recorded.claimed hnew⟩
  obtain ⟨hapart, hmem⟩ := bitmapAllocateIf_spec (mem.node c) h.apart hfree
  refine ⟨hapart, fun k => (hmem k).trans ?_⟩
  simp only [h.recorded, Recorded, or_assoc]

theorem addCluster_head
    (rl : List Element)
    (vcn lcn : Nat) :
    (addCluster vcn lcn rl).head?.map (fun e => e.lcn + e.length) = some (lcn + 1) := by
  unfold addCluster
  split
  · rfl
  · split
    · next hend => simp [← hend, Nat.add_assoc]
    · rfl

theorem addCluster_length
    {rl : List Element}
    (vcn : Nat)
    (hlast : rl.head?.map (fun e => e.lcn + e.length) = Q.head?.map (· + 1))
    (hlength : rl.length = stretches Q) :
    (addCluster vcn c rl).length = stretches (c :: Q) := by
  cases rl with
  | nil =>
    obtain rfl : Q = [] := by simpa using hlast.symm
    rfl
  | cons r rl =>
    obtain ⟨b, Q, rfl⟩ : ∃ b Q', Q = b :: Q' := by
      cases Q with
      | nil => cases hlast
      | cons b Q => exact ⟨b, Q, rfl⟩
    have hend : r.lcn + r.length = b + 1 := by simpa using hlast
    rw [addCluster, stretches, ← hlength, hend]
    split <;> rfl

/-- `realloc` is asked for the next size exactly when the last one is too small. -/
theorem Claimed.grows
    (h : Claimed mem vol Q s) :
    (s.rl.length + 2) * 24 ≥ s.rlsize ∧ s.rlsize + 4096 = runlistSize (stretches Q) ∨
      (s.rl.length + 2) * 24 < s.rlsize ∧ s.rlsize = runlistSize (stretches Q) ∧
        mem.hasRoom Q = true := by
  unfold Memory.hasRoom
  rw [h.length_eq]
  rcases h.size with ⟨hsize, rfl⟩ | ⟨hgrow, n, hlo, hhi, hsize⟩
  · rw [hsize]
    exact .inl (by decide)
  · by_cases hroom : (stretches Q + 2) * 24 ≥ s.rlsize
    · refine .inl ⟨hroom, ?_⟩
      unfold runlistSize at hsize ⊢
      omega
    · have hsame : s.rlsize = runlistSize (stretches Q) := by
        unfold runlistSize at hsize ⊢
        omega
      exact .inr ⟨by omega, hsame, hsame ▸ hgrow⟩

/-- A claim that finds no room ends the search. -/
theorem Claimed.noRoom
    (h : Claimed mem vol Q s)
    (hroom : mem.hasRoom Q = false)
    (allocation : List Run) :
    claimCluster mem c allocation s = (.noMemory, { s with allocation := allocation }) := by
  unfold claimCluster
  rcases h.grows with ⟨hneed, hsize⟩ | ⟨-, -, hyes⟩
  · rw [if_pos ⟨hneed, hsize ▸ hroom⟩]
  · rw [hroom] at hyes
    cases hyes

/-- One more cluster is claimed. -/
theorem Claimed.claim
    (h : Claimed mem vol Q s)
    (hvol : ¬InRuns vol.allocation c)
    (hnew : c ∉ Q)
    (hroom : mem.hasRoom Q = true) :
    ∃ s', claimCluster mem c (bitmapAllocateIf (mem.node c) s.allocation c 1).2 s =
        (if s.clusters - 1 = 0 then .done else .more, s') ∧
      Claimed mem vol (c :: Q) s' ∧ s'.clusters = s.clusters - 1 := by
  obtain ⟨hapart, hrecorded⟩ := h.get hvol hnew
  obtain ⟨hlo, hhi⟩ := stretches_cons_le c Q
  have hrl : ¬InRuns (runs s.rl) c := mt (h.elements c).mp hnew
  have hnext (rlsize clusters : Nat) (hsize : rlsize = runlistSize (stretches Q)) :
      Claimed mem vol (c :: Q) ⟨(bitmapAllocateIf (mem.node c) s.allocation c 1).2,
        addCluster s.vcn c s.rl, rlsize, s.vcn + 1, clusters⟩ := by
    refine ⟨hapart, contiguous_addCluster h.contiguous, coalesced_addCluster h.coalesced,
      distinct_addCluster h.contiguous.pos hrl h.distinct, by simp [h.vcn_eq], fun k => ?_,
      hrecorded, addCluster_head s.rl s.vcn c, addCluster_length s.vcn h.last h.length_eq,
      .inr ⟨hsize ▸ hroom, stretches Q, hlo, hhi, hsize⟩⟩
    rw [inRuns_addCluster, h.elements k, List.mem_cons, or_comm]
  unfold claimCluster
  rcases h.grows with ⟨hneed, hsize⟩ | ⟨hneed, hsize, -⟩
  · rw [if_neg fun hno => by rw [hsize] at hno; exact absurd (hroom.symm.trans hno.2) (by simp),
      if_pos hneed]
    exact ⟨_, rfl, hnext _ _ hsize, rfl⟩
  · rw [if_neg fun hno => absurd hno.1 (by omega), if_neg (by omega)]
    exact ⟨_, rfl, hnext _ _ hsize, rfl⟩

/-- How the claims of the clusters `W` end, of which `total` are wanted. -/
def Ends (mem : Memory) (vol : ScatterVolume) (total : Nat) (W : List Nat) :
    Pass × Scatter → Prop
  | (.more, s) => Claimed mem vol W s ∧ W.length < total ∧ mem.HadRoom W
  | (.done, s) => ∃ Q, Q <:+ W ∧ Q.length = total ∧ Claimed mem vol Q s ∧ mem.HadRoom Q
  | (.noMemory, s) => ∃ c Q s', c :: Q <:+ W ∧ Q.length < total ∧ mem.HadRoom Q ∧
      mem.hasRoom Q = false ∧ Claimed mem vol Q s' ∧
      s = { s' with allocation := (bitmapAllocateIf (mem.node c) s'.allocation c 1).2 }

theorem Memory.HadRoom.cons
    (h : mem.HadRoom Q)
    (hroom : mem.hasRoom Q = true)
    (c : Nat) :
    mem.HadRoom (c :: Q) := by
  intro d Q' hsuffix
  rcases List.suffix_cons_iff.mp hsuffix with heq | hsuffix
  · obtain ⟨-, rfl⟩ := List.cons.inj heq
    exact hroom
  · exact h d Q' hsuffix

/-- How the search ends, by room and candidates. -/
theorem claimLoop_ends
    {total : Nat} :
    ∀ (L Q : List Nat) (s : Scatter), Claimed mem vol Q s →
      Q.length + s.clusters = total → 0 < s.clusters → mem.HadRoom Q →
      (∀ c ∈ L, ¬InRuns vol.allocation c) → (L.reverse ++ Q).Nodup →
      Ends mem vol total (L.reverse ++ Q) (claimLoop mem L s)
  | [], Q, s, h, htotal, hpos, hroom, _, _ => ⟨h, by simp; omega, hroom⟩
  | c :: rest, Q, s, h, htotal, hpos, hroom, hfree, hnodup => by
    rw [List.reverse_cons, List.append_assoc, List.singleton_append] at hnodup ⊢
    have hnew : c ∉ Q := (List.nodup_cons.mp (List.nodup_append.mp hnodup).2.1).1
    have hvol := hfree c List.mem_cons_self
    rw [claimLoop]
    cases hyes : mem.hasRoom Q with
    | false =>
      rw [h.noRoom hyes]
      exact ⟨c, Q, s, List.suffix_append _ _, by omega, hroom, hyes, h, rfl⟩
    | true =>
      obtain ⟨s', hclaim, h', hclusters⟩ := h.claim hvol hnew hyes
      have hroom' := hroom.cons hyes c
      rw [hclaim]
      by_cases hdone : s.clusters - 1 = 0
      · rw [if_pos hdone]
        exact ⟨c :: Q, List.suffix_append _ _, by simp only [List.length_cons]; omega, h', hroom'⟩
      · rw [if_neg hdone]
        exact claimLoop_ends rest (c :: Q) s' h' (by simp only [List.length_cons]; omega)
          (by omega) hroom' (fun d hd => hfree d (List.mem_cons_of_mem c hd)) hnodup

/-- The clusters of the runlist are given back. -/
theorem deallocateScatteredClusters_spec
    (rl : List Element) :
    ∀ {l : List Run}, RunsApart 0 l →
      ∀ c, InRuns (deallocateScatteredClusters l rl) c ↔ InRuns l c ∧ ¬InRuns (runs rl) c := by
  induction rl with
  | nil => exact fun _ c => by simp [deallocateScatteredClusters, runs, InRuns]
  | cons e rl ih =>
    intro l hl c
    obtain ⟨-, hapart, hmem⟩ := bitmapDeallocate_spec (Nat.zero_le 1) hl e.lcn e.length
    refine (ih hapart c).trans ?_
    rw [hmem c, and_assoc, ← not_or]
    exact and_congr_right fun _ => not_congr (inRuns_cons (r := ⟨e.lcn, e.length⟩)).symm

/-- Giving up takes the clusters of the runlist out of the list. -/
theorem Claimed.rollback
    (h : Claimed mem vol Q s)
    {l : List Run}
    (hl : RunsApart 0 l)
    (k : Nat) :
    InRuns (deallocateScatteredClusters l s.rl.reverse) k ↔ InRuns l k ∧ k ∉ Q := by
  have hrev : InRuns (runs s.rl.reverse) k ↔ InRuns (runs s.rl) k := by simp [runs, InRuns]
  rw [deallocateScatteredClusters_spec _ hl, hrev, h.elements k]

end Claimed

section Result

variable {mem : Memory} {vol : ScatterVolume} {clusters : Nat}

/-- A runlist of the clusters asked for, which were free and are now allocated; or no
runlist and no change. -/
def Scattered.Sound (vol : ScatterVolume) (clusters : Nat) (r : Scattered) : Prop :=
  match r.rl with
  | some rl => Contiguous rl clusters ∧ Coalesced rl ∧ Distinct rl ∧
      (∀ c, InRuns (runs rl) c → ¬InRuns vol.allocation c ∧ c < vol.nrClusters) ∧
      ∀ c, InRuns r.allocation c ↔ InRuns vol.allocation c ∨ InRuns (runs rl) c
  | none => ∀ c, InRuns r.allocation c ↔ InRuns vol.allocation c

/-- The clusters that a call would take, the latest first. -/
def ScatterVolume.wanted (vol : ScatterVolume) (clusters : Nat) : List Nat :=
  (vol.candidates.take clusters).reverse

/-- The memory that a call needs.  If there are free clusters enough and room for all of them
in the runlist, every one gets into the list of runs; and the first one for which there is no
room in the runlist does not. -/
structure Served (mem : Memory) (vol : ScatterVolume) (clusters : Nat) : Prop where
  nodes : clusters ≤ vol.candidates.length → mem.HadRoom (vol.wanted clusters) →
    ∀ c Q, c :: Q <:+ vol.wanted clusters → Recorded mem vol (c :: Q) c
  room : ∀ c Q, c :: Q <:+ vol.wanted clusters → mem.HadRoom Q → mem.hasRoom Q = false →
    ¬Recorded mem vol (c :: Q) c

theorem wanted_suffix
    (vol : ScatterVolume)
    (clusters : Nat) :
    vol.wanted clusters <:+ vol.candidates.reverse :=
  List.reverse_suffix.mpr (List.take_prefix clusters vol.candidates)

theorem length_wanted
    (vol : ScatterVolume)
    (clusters : Nat) :
    (vol.wanted clusters).length = min clusters vol.candidates.length := by
  simp [ScatterVolume.wanted]

theorem nodup_candidates
    (vol : ScatterVolume) :
    vol.candidates.Nodup :=
  (nodup_searchOrder _ _).filter _

theorem suffix_wanted
    {Q : List Nat}
    (h : Q <:+ vol.candidates.reverse)
    (hlength : Q.length ≤ clusters) :
    Q <:+ vol.wanted clusters := by
  refine List.suffix_of_suffix_length_le h (wanted_suffix vol clusters) ?_
  have := h.length_le
  rw [List.length_reverse] at this
  rw [length_wanted]
  omega

/-- No room for a cluster is met at one place only. -/
theorem Memory.HadRoom.unique
    {c d : Nat} {Q Q' W : List Nat}
    (h : mem.HadRoom Q)
    (hno : mem.hasRoom Q = false)
    (hQ : c :: Q <:+ W)
    (h' : mem.HadRoom Q')
    (hno' : mem.hasRoom Q' = false)
    (hQ' : d :: Q' <:+ W) :
    c = d ∧ Q = Q' := by
  rcases Nat.lt_trichotomy Q.length Q'.length with hlt | heq | hlt
  · have hin : c :: Q <:+ Q' := List.suffix_of_suffix_length_le hQ
      ((List.suffix_cons d Q').trans hQ') hlt
    exact absurd (h' c Q hin) (by simp [hno])
  · have hsame := List.IsSuffix.eq_of_length (List.suffix_of_suffix_length_le hQ hQ'
      (by simp [heq])) (by simp [heq])
    exact List.cons.inj hsame
  · have hin : d :: Q' <:+ Q := List.suffix_of_suffix_length_le hQ'
      ((List.suffix_cons c Q).trans hQ) hlt
    exact absurd (h d Q' hin) (by simp [hno'])

/-- No cluster would be taken twice. -/
theorem nodup_wanted
    (vol : ScatterVolume)
    (clusters : Nat) :
    (vol.wanted clusters).Nodup :=
  (List.nodup_reverse.mpr (nodup_candidates vol)).sublist (wanted_suffix vol clusters).sublist

/-- The clusters that would be taken are free clusters of the volume. -/
theorem wanted_free
    {Q : List Nat} {c : Nat}
    (hQ : Q <:+ vol.wanted clusters)
    (hc : c ∈ Q) :
    ¬InRuns vol.allocation c ∧ c < vol.nrClusters :=
  vol.mem_candidates (List.mem_reverse.mp ((hQ.trans (wanted_suffix vol clusters)).subset hc))

/-- When there are too few free clusters, they are given back. -/
theorem Claimed.exhausted_sound
    {s : Scatter}
    (h : Claimed mem vol vol.candidates.reverse s) :
    Scattered.Sound vol clusters
      ⟨none, deallocateScatteredClusters s.allocation s.rl.reverse⟩ := by
  intro k
  rw [h.rollback h.apart, h.recorded k]
  have hfree : k ∈ vol.candidates.reverse → ¬InRuns vol.allocation k := fun hk =>
    (vol.mem_candidates (List.mem_reverse.mp hk)).1
  have hclaimed := @Recorded.claimed mem vol vol.candidates.reverse k
  tauto

/-- With too few free clusters nothing is asked of the memory but room for them. -/
theorem served_of_few
    (hfew : vol.candidates.length < clusters)
    (hroom : mem.HadRoom vol.candidates.reverse) :
    Served mem vol clusters where
  nodes henough := absurd henough (by omega)
  room c Q hQ _ hno := absurd (hroom c Q (hQ.trans (wanted_suffix vol clusters))) (by simp [hno])

/-- When all clusters were claimed, the result is right if each got into the list of runs. -/
theorem Claimed.done_sound_iff
    {s : Scatter}
    (h : Claimed mem vol (vol.wanted clusters) s)
    (hlength : (vol.wanted clusters).length = clusters)
    (hroom : mem.HadRoom (vol.wanted clusters)) :
    Scattered.Sound vol clusters ⟨some s.rl, s.allocation⟩ ↔ Served mem vol clusters := by
  have hnodup := nodup_wanted vol clusters
  constructor
  · rintro ⟨-, -, -, -, hmem⟩
    refine ⟨fun _ _ c Q hQ => ?_, fun c Q hQ _ hno => absurd (hroom c Q hQ) (by simp [hno])⟩
    have hc := hQ.subset List.mem_cons_self
    rw [← recorded_suffix_iff hnodup hQ]
    have hin := (hmem c).mpr (.inr ((h.elements c).mpr hc))
    exact ((h.recorded c).mp hin).resolve_left (wanted_free List.suffix_rfl hc).1
  · intro hserved
    have henough : clusters ≤ vol.candidates.length := by
      rw [length_wanted] at hlength
      omega
    have hwhole : Contiguous s.rl clusters := by
      have hcontiguous := h.contiguous
      rwa [h.vcn_eq, hlength] at hcontiguous
    refine ⟨hwhole, h.coalesced, h.distinct,
      fun c hc => wanted_free List.suffix_rfl ((h.elements c).mp hc), fun c => ?_⟩
    dsimp only
    rw [h.recorded c, h.elements c]
    refine or_congr_right ⟨Recorded.claimed, fun hc => ?_⟩
    obtain ⟨A, B, hsplit⟩ := List.append_of_mem hc
    have hsuffix : c :: B <:+ vol.wanted clusters := ⟨A, hsplit.symm⟩
    rw [recorded_suffix_iff hnodup hsuffix]
    exact hserved.nodes henough hroom c B hsuffix

/-- What is allocated after the search gave up at `c`. -/
theorem Claimed.rollback_at
    {s : Scatter} {c : Nat} {Q : List Nat}
    (h : Claimed mem vol Q s)
    (hsuffix : c :: Q <:+ vol.wanted clusters)
    (k : Nat) :
    InRuns (deallocateScatteredClusters
        (bitmapAllocateIf (mem.node c) s.allocation c 1).2 s.rl.reverse) k ↔
      InRuns vol.allocation k ∨ k = c ∧ Recorded mem vol (c :: Q) c := by
  have hnew : c ∉ Q :=
    (List.nodup_cons.mp ((nodup_wanted vol clusters).sublist hsuffix.sublist)).1
  obtain ⟨hapart, hmem⟩ := h.get (wanted_free hsuffix List.mem_cons_self).1 hnew
  rw [h.rollback hapart, hmem k]
  have hfree : k ∈ Q → ¬InRuns vol.allocation k := fun hk =>
    (wanted_free hsuffix (List.mem_cons_of_mem c hk)).1
  have hclaimed : Recorded mem vol (c :: Q) k → k = c ∨ k ∈ Q := fun hrec =>
    List.mem_cons.mp hrec.claimed
  by_cases hkc : k = c
  · subst hkc
    simp [hnew]
  · tauto

/-- When there was no room for `c`, the result is right if `c` is not in the list of runs. -/
theorem Claimed.noMemory_sound_iff
    {s : Scatter} {c : Nat} {Q : List Nat}
    (h : Claimed mem vol Q s)
    (hsuffix : c :: Q <:+ vol.wanted clusters)
    (hroom : mem.HadRoom Q)
    (hno : mem.hasRoom Q = false) :
    Scattered.Sound vol clusters ⟨none, deallocateScatteredClusters
        (bitmapAllocateIf (mem.node c) s.allocation c 1).2 s.rl.reverse⟩ ↔
      Served mem vol clusters := by
  have hafter := h.rollback_at hsuffix
  constructor
  · intro hsound
    refine ⟨fun _ hall => absurd (hall c Q hsuffix) (by simp [hno]),
      fun d Q' hQ' hroom' hno' hrec => ?_⟩
    obtain ⟨rfl, rfl⟩ := hroom'.unique hno' hQ' hroom hno hsuffix
    exact (wanted_free hsuffix List.mem_cons_self).1
      ((hsound d).mp ((hafter d).mpr (.inr ⟨rfl, hrec⟩)))
  · intro hserved k
    refine (hafter k).trans (or_iff_left ?_)
    rintro ⟨-, hrec⟩
    exact hserved.room c Q hsuffix hroom hno hrec

/-- The call does what it should exactly when the memory serves it. -/
theorem allocateScatteredClusters_sound_iff
    (mem : Memory)
    (vol : ScatterVolume)
    (clusters : Nat) :
    (allocateScatteredClusters mem vol clusters).Sound vol clusters ↔
      Served mem vol clusters := by
  unfold allocateScatteredClusters
  split
  · next hzero =>
    refine iff_of_true (fun _ => Iff.rfl) ⟨fun _ _ c Q hQ => ?_, fun c Q hQ => ?_⟩ <;>
      simp [ScatterVolume.wanted, hzero] at hQ
  · next hpos =>
    rw [@zones_eq vol mem _ _ _ vol.apart fun _ _ => Iff.rfl]
    have hends := @claimLoop_ends mem vol clusters vol.candidates [] _
      (Claimed.start mem vol clusters) (Nat.zero_add clusters) (Nat.pos_of_ne_zero hpos)
      (fun c Q hQ => by simp at hQ) (fun c hc => (vol.mem_candidates hc).1)
      (by simpa using nodup_candidates vol)
    rw [List.append_nil] at hends
    change Ends mem vol clusters _ (claimLoop mem vol.candidates _) at hends
    change Scattered.Sound vol clusters (match claimLoop mem vol.candidates _ with
      | (.done, s) => _ | (_, s) => _) ↔ _
    generalize claimLoop mem vol.candidates ⟨vol.allocation, [], 0, 0, clusters⟩ = r at hends ⊢
    obtain ⟨pass, s⟩ := r
    cases pass with
    | more =>
      obtain ⟨h, hfew, hroom⟩ := hends
      rw [List.length_reverse] at hfew
      exact iff_of_true h.exhausted_sound (served_of_few hfew hroom)
    | done =>
      obtain ⟨Q, hQ, hlength, h, hroom⟩ := hends
      have hle := hQ.length_le
      rw [List.length_reverse] at hle
      obtain rfl : Q = vol.wanted clusters :=
        (suffix_wanted hQ hlength.le).eq_of_length (by rw [length_wanted]; omega)
      exact h.done_sound_iff hlength hroom
    | noMemory =>
      obtain ⟨c, Q, s', hQ, hlength, hroom, hno, h, rfl⟩ := hends
      have hsuffix : c :: Q <:+ vol.wanted clusters :=
        suffix_wanted hQ (by simp only [List.length_cons]; omega)
      exact h.noMemory_sound_iff hsuffix hroom hno

/-- Two clusters are allocated, one is asked for, and there is no memory for the runlist. -/
theorem allocateScatteredClusters_lost :
    let vol : ScatterVolume := ⟨4, 2, [⟨0, 2⟩], by decide, ⟨by decide, by decide⟩, by omega⟩
    ¬(allocateScatteredClusters ⟨fun _ => true, fun _ => false⟩ vol 1).Sound vol 1 := by
  intro vol h
  have hcall : allocateScatteredClusters ⟨fun _ => true, fun _ => false⟩ vol 1 =
      ⟨none, [⟨0, 3⟩]⟩ := by
    unfold allocateScatteredClusters zones
    rfl
  rw [hcall] at h
  have hbad := (h 2).mp (by decide)
  revert hbad
  decide

end Result

end NtfsPlus.Mkntfs

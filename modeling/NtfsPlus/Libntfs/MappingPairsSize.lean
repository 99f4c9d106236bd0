import NtfsPlus.Libntfs.RunlistCut
import NtfsPlus.Libntfs.UpdateMappingPairs

/-!
# Size of the mapping pairs and the buffer they are built in

`ntfs_get_size_for_mapping_pairs` and `ntfs_mapping_pairs_build` are two loops
over the same runs.  Where the size has not been cut off at `max_size`, a buffer
of that size takes the pairs exactly, and a smaller one is filled with the pairs
of the first runs, from whose end the rest can be built.

The size is a partial count once it is beyond `max_size`: the caller asks only
whether the pairs fit.  A buffer of no bytes still gets a terminator, and when
not even the rest of the run around the start VCN fits, the runlist element
reported is that run, which begins before the start.
-/

namespace NtfsPlus.Libntfs

open SignedBytes

section PastTheBuffer

/-- Nothing is stored behind the buffer. -/
theorem mappingPairsBuildRuns_past
    (vol : Volume)
    (dstMax : Int)
    (rl : Runlist)
    (mem : Bytes)
    (dst : Nat)
    (prevLcn : Int)
    (hdst : (dst : Int) ≤ dstMax)
    {j : Nat}
    (hj : dstMax < j) :
    (mappingPairsBuildRuns vol dstMax rl mem dst prevLcn).dst j = mem j := by
  induction rl generalizing mem dst prevLcn with
  | nil => exact setByte_of_ne _ _ (by omega)
  | cons e rest ih =>
    have hpast := writeMappingPair_frame mem dst dstMax e.length
      (lcnChange vol e.lcn prevLcn) (.inr hj)
    have hsome := @writeMappingPair_some mem dst dstMax e.length (lcnChange vol e.lcn prevLcn)
    unfold mappingPairsBuildRuns
    split_ifs with hzero hbad
    · exact setByte_of_ne _ _ (by omega)
    · rfl
    · rcases hpair : writeMappingPair mem dst dstMax e.length
        (lcnChange vol e.lcn prevLcn) with ⟨mem', _ | next⟩
      · rw [hpair] at hpast
        exact (setByte_of_ne _ _ (by omega)).trans hpast
      · rw [hpair] at hpast hsome
        exact (ih mem' next _ (hsome rfl).2.1).trans hpast

end PastTheBuffer

section Counting

/-- The fields of a run, and the ends of its ranges, are 64-bit numbers. -/
structure RunInRange (e : RunlistElement) : Prop where
  length_pos : 0 < e.length
  vcn_nonneg : 0 ≤ e.vcn
  vcn_end : e.vcn + e.length < 2 ^ 63
  lcn_end : 0 ≤ e.lcn → e.lcn + e.length < 2 ^ 63

theorem RunInRange.mappedRun
    {e : RunlistElement}
    (h : RunInRange e)
    (hlcn : lcnHole ≤ e.lcn) :
    MappedRun e where
  length_pos := h.length_pos
  lcn_mapped := by
    unfold lcnHole at *
    omega
  vcn_nonneg := h.vcn_nonneg
  vcn_end := h.vcn_end
  lcn_end := h.lcn_end

theorem pairSize_nonneg
    (length : Int)
    (change : Option Int) :
    0 ≤ pairSize length change := by
  cases change with
  | none =>
    simp only [pairSize]
    omega
  | some d =>
    simp only [pairSize]
    omega

theorem sizeOfRuns_ge
    (vol : Volume)
    (maxSize : Int)
    {rl : Runlist} {prevLcn rls n : Int}
    (h : sizeOfRuns vol maxSize rl prevLcn rls = .ok n) :
    rls ≤ n := by
  induction rl generalizing prevLcn rls with
  | nil => exact le_of_eq (Except.ok.inj h)
  | cons e rest ih =>
    unfold sizeOfRuns at h
    split_ifs at h with hstop hbad
    · exact le_of_eq (Except.ok.inj h)
    · have hpair := pairSize_nonneg e.length (lcnChange vol e.lcn prevLcn)
      have := ih h
      omega

/-- A size that is not beyond the maximum counts all runs, and all are mapped. -/
theorem sizeOfRuns_exact
    (vol : Volume)
    {runs : List RunlistElement} {t : RunlistElement}
    (hruns : ∀ e ∈ runs, RunInRange e)
    (ht : t.length = 0)
    {maxSize prevLcn rls n : Int}
    (hlcn : -1 ≤ prevLcn ∧ prevLcn < 2 ^ 63)
    (h : sizeOfRuns vol maxSize (runs ++ [t]) prevLcn rls = .ok n)
    (hmax : n ≤ maxSize) :
    (∀ e ∈ runs, MappedRun e) ∧ n = rls + (encodeRuns vol prevLcn runs).length := by
  induction runs generalizing prevLcn rls with
  | nil =>
    have hn : rls = n := by simpa [sizeOfRuns, ht] using h
    simp [encodeRuns, hn]
  | cons e rest ih =>
    have hge := sizeOfRuns_ge vol maxSize h
    have hrange := hruns e (by simp)
    have hpos := hrange.length_pos
    rw [List.cons_append, sizeOfRuns, if_neg (by omega)] at h
    split_ifs at h with hbad
    have he : MappedRun e := hrange.mappedRun (by omega)
    obtain ⟨hrest, hn⟩ := ih (fun e' he' => hruns e' (by simp [he'])) (nextLcn_bounds he hlcn) h
    refine ⟨List.forall_mem_cons.mpr ⟨he, hrest⟩, ?_⟩
    rw [hn, pairSize_eq vol he hlcn, encodeRuns, List.length_append]
    omega

end Counting

section StartInside

/-- A runlist: contiguous runs of any kind, up to a terminator. -/
structure WellLaid (rl : Runlist) (runs : List RunlistElement) (t : RunlistElement)
    (v w : Int) : Prop where
  elements : rl = runs ++ [t]
  tiles : Tiles v runs w
  inRange : ∀ e ∈ runs, RunInRange e
  end_vcn : t.vcn = w
  end_length : t.length = 0

theorem RunInRange.restOfRun
    {e : RunlistElement} {s : Int}
    (h : RunInRange e)
    (hlo : e.vcn ≤ s)
    (hhi : s < e.vcn + e.length) :
    RunInRange (restOfRun s e) := by
  have hvcn := h.vcn_nonneg
  have hvcnEnd := h.vcn_end
  have hlcnEnd := h.lcn_end
  unfold Libntfs.restOfRun
  refine ⟨?_, ?_, ?_, ?_⟩
  · show 0 < e.length - (s - e.vcn)
    omega
  · show 0 ≤ s
    omega
  · show s + (e.length - (s - e.vcn)) < 2 ^ 63
    omega
  · split_ifs with hreal
    · dsimp only
      omega
    · dsimp only
      omega

/-- The elements that are skipped. -/
theorem skipToVcn_tiles
    {v w s : Int} {runs : List RunlistElement} {t : RunlistElement}
    (h : Tiles v runs w)
    (htv : t.vcn = w) :
    ∃ pre suf m, runs = pre ++ suf ∧ Tiles v pre m ∧ Tiles m suf w ∧
      (m = v ∨ m ≤ s) ∧ skipToVcn s (runs ++ [t]) = suf ++ [t] ∧
      ∀ e ∈ suf.head?, s < e.vcn + e.length := by
  induction runs generalizing v with
  | nil => exact ⟨[], [], v, rfl, rfl, h, Or.inl rfl, rfl, by simp⟩
  | cons e rest ih =>
    obtain ⟨hv, hpos, hrest⟩ := h
    -- the element behind `e` begins where `e` ends
    obtain ⟨next, tail, hnext, hvcn⟩ : ∃ next tail, rest ++ [t] = next :: tail ∧
        next.vcn = v + e.length := by
      cases rest with
      | nil => exact ⟨t, [], rfl, htv.trans hrest⟩
      | cons f rest => exact ⟨f, rest ++ [t], rfl, hrest.1⟩
    by_cases hin : v + e.length ≤ s
    · obtain ⟨pre, suf, m, rfl, hpre, hsuf, hm, hskip, hhead⟩ := ih hrest
      refine ⟨e :: pre, suf, m, rfl, ⟨hv, hpos, hpre⟩, hsuf, by omega, ?_, hhead⟩
      rw [List.cons_append, hnext, skipToVcn, if_pos ⟨by omega, by omega⟩, ← hnext]
      exact hskip
    · refine ⟨[], e :: rest, v, rfl, rfl, ⟨hv, hpos, hrest⟩, Or.inl rfl, ?_, ?_⟩
      · rw [List.cons_append, hnext, skipToVcn, if_neg (by omega)]
      · simp only [List.head?_cons, Option.mem_some_iff, forall_eq']
        omega

end StartInside

section Building

variable {vol : Volume} {rl : Runlist} {runs : List RunlistElement}
variable {t : RunlistElement} {v w s : Int}

/-- A mapping pairs array of the given runs lies at the start of a buffer. -/
def HoldsPairs (vol : Volume) (mem : Bytes) (runs : List RunlistElement) : Prop :=
  HoldsBytes mem 0 (encodeRuns vol 0 runs ++ [0])

theorem WellLaid.runsFrom_inRange
    (h : WellLaid rl runs t v w) :
    ∀ e ∈ runsFrom s runs, RunInRange e := by
  have hrange := h.inRange
  clear h
  induction runs with
  | nil => simp [runsFrom]
  | cons e rest ih =>
    obtain ⟨he, hrest⟩ := List.forall_mem_cons.mp hrange
    unfold runsFrom
    split_ifs with hbefore hinside
    · exact ih hrest
    · exact List.forall_mem_cons.mpr ⟨he.restOfRun (by omega) (by omega), hrest⟩
    · exact hrange

theorem WellLaid.skip
    (h : WellLaid rl runs t v w)
    (s : Int) :
    ∃ pre suf m, runs = pre ++ suf ∧ Tiles v pre m ∧ Tiles m suf w ∧
      (m = v ∨ m ≤ s) ∧ skipToVcn s rl = suf ++ [t] ∧
      ∀ e ∈ suf.head?, s < e.vcn + e.length := by
  rw [h.elements]
  exact skipToVcn_tiles h.tiles h.end_vcn

/-- The start VCN begins a run or is the end. -/
def AtRun (rl : Runlist) (s : Int) : Prop :=
  ∃ e ∈ rl, e.vcn = s

/-- Where the first run is only stored from `s` on, it is as what is left of it. -/
theorem buildFirst_rest
    (vol : Volume)
    {e : RunlistElement}
    (rest : List RunlistElement)
    (hend : s < e.vcn + e.length)
    (hin : s > e.vcn)
    (mem : Bytes)
    (dstLen : Int) :
    let r : BuildResult :=
      if e.length < 0 ∨ e.lcn < lcnHole then
        ⟨some (buildErrno e), mem, none⟩
      else
        match writeMappingPair mem 0 (dstLen - 1) (e.length - (s - e.vcn))
            (lcnChange vol (if e.lcn ≥ 0 then e.lcn + (s - e.vcn) else e.lcn) 0) with
        | (mem', none) => ⟨some .enospc, setByte mem' 0 0, some (e :: (rest ++ [t]))⟩
        | (mem', some dst') =>
          mappingPairsBuildRuns vol (dstLen - 1) (rest ++ [t]) mem' dst'
            (nextLcn vol (if e.lcn ≥ 0 then e.lcn + (s - e.vcn) else e.lcn) 0)
    let q := mappingPairsBuildRuns vol (dstLen - 1) (restOfRun s e :: rest ++ [t]) mem 0 0
    r.errno = q.errno ∧ r.dst = q.dst ∧ (r.stopRl = q.stopRl ∨
        (writeMappingPair mem 0 (dstLen - 1) (restOfRun s e).length
          (lcnChange vol (restOfRun s e).lcn 0)).2 = none) := by
  have hlen : (restOfRun s e).length = e.length - (s - e.vcn) := rfl
  have hlcn : (restOfRun s e).lcn =
      if e.lcn ≥ 0 then e.lcn + (s - e.vcn) else e.lcn := rfl
  have hneg : (restOfRun s e).lcn < lcnHole ↔ e.lcn < lcnHole := by
    rw [hlcn]
    unfold lcnHole
    split_ifs <;> omega
  intro r q
  simp only [r, q, List.cons_append, mappingPairsBuildRuns]
  rw [if_neg (show ¬ (restOfRun s e).length = 0 by omega)]
  by_cases hbad : e.lcn < lcnHole
  · have herr : buildErrno (restOfRun s e) = buildErrno e := by
      unfold buildErrno
      rw [hlcn, if_neg (show ¬ e.lcn ≥ 0 by unfold lcnHole at hbad; omega)]
    rw [if_pos (Or.inr hbad), if_pos (Or.inr (hneg.mpr hbad)), herr]
    exact ⟨rfl, rfl, Or.inl rfl⟩
  · rw [if_neg (show ¬ (e.length < 0 ∨ e.lcn < lcnHole) by omega),
      if_neg (show ¬ ((restOfRun s e).length < 0 ∨ (restOfRun s e).lcn < lcnHole)
        by omega), ← hlen, ← hlcn]
    rcases writeMappingPair mem 0 (dstLen - 1) (restOfRun s e).length
      (lcnChange vol (restOfRun s e).lcn 0) with ⟨mem', _ | next⟩
    · exact ⟨rfl, rfl, Or.inr rfl⟩
    · exact ⟨rfl, rfl, Or.inl rfl⟩

/--
The builder stores the runs from the start VCN on.  Where it stops, it points
into the runlist: at the run it did not store, or at the whole run around the
start VCN.
-/
theorem mappingPairsBuild_from
    (vol : Volume)
    (h : WellLaid rl runs t v w)
    (hv : 0 ≤ v)
    (hs : v ≤ s)
    (hw : s ≤ w)
    (mem : Bytes)
    (dstLen : Int) :
    let r := mappingPairsBuild vol mem dstLen (some rl) s
    let q := mappingPairsBuildRuns vol (dstLen - 1) (runsFrom s runs ++ [t]) mem 0 0
    r.errno = q.errno ∧ r.dst = q.dst ∧ (r.stopRl = q.stopRl ∨
        ¬ AtRun rl s ∧ ∃ e ∈ (runsFrom s runs).head?, (writeMappingPair mem 0 (dstLen - 1) e.length
            (lcnChange vol e.lcn 0)).2 = none) := by
  obtain ⟨pre, suf, m, rfl, hpre, hsuf, hm, hskip, hhead⟩ := h.skip s
  have hfrom : runsFrom s (pre ++ suf) = runsFrom s suf :=
    runsFrom_append hpre (by omega)
  have htv := h.end_vcn
  intro r q
  simp only [r, q, hfrom]
  unfold mappingPairsBuild
  rw [if_neg (by omega)]
  dsimp only
  rw [hskip]
  cases suf with
  | nil =>
    have hsw : w = m := hsuf
    simp [runsFrom, show s = t.vcn by omega]
  | cons e rest =>
    obtain ⟨he, hpos, hrest⟩ := hsuf
    have hend := hhead e rfl
    simp only [List.cons_append]
    rw [if_neg (by omega)]
    by_cases hin : s > e.vcn
    · have hfirst : runsFrom s (e :: rest) = restOfRun s e :: rest := by
        rw [runsFrom, if_neg (by omega), if_pos hin]
      have hout : ¬ AtRun rl s := by
        rintro ⟨f, hf, hfs⟩
        rw [h.elements, List.append_assoc, List.mem_append] at hf
        rcases hf with hf | hf
        · have := hpre.mem hf
          omega
        · rcases List.mem_cons.mp hf with rfl | hf
          · omega
          · rcases List.mem_append.mp hf with hf | hf
            · have := hrest.mem hf
              omega
            · have := List.mem_singleton.mp hf
              have := hrest.le
              subst f
              omega
      rw [if_pos hin, hfirst]
      obtain ⟨herr, hdst, hstop⟩ := buildFirst_rest (t := t) vol rest hend hin mem dstLen
      exact ⟨herr, hdst, hstop.imp id (fun hfull => ⟨hout, _, rfl, hfull⟩)⟩
    · have hfirst : runsFrom s (e :: rest) = e :: rest := by
        rw [runsFrom, if_neg (by omega), if_neg (by omega)]
      rw [if_neg hin, hfirst]
      exact ⟨rfl, rfl, Or.inl rfl⟩

theorem sizeOfFirst_rest
    {e : RunlistElement} {rest : List RunlistElement}
    (hend : s < e.vcn + e.length)
    (hlcn : lcnHole ≤ e.lcn)
    (hin : s > e.vcn)
    {maxSize n : Int}
    (hsize : sizeOfRuns vol maxSize (rest ++ [t]) (nextLcn vol (restOfRun s e).lcn 0)
      (1 + pairSize (restOfRun s e).length (lcnChange vol (restOfRun s e).lcn 0)) = .ok n)
    (hmax : n ≤ maxSize) :
    sizeOfRuns vol maxSize (restOfRun s e :: rest ++ [t]) 0 1 = .ok n := by
  have hge := sizeOfRuns_ge vol maxSize hsize
  have hpair := pairSize_nonneg (restOfRun s e).length (lcnChange vol (restOfRun s e).lcn 0)
  have hlen : (restOfRun s e).length = e.length - (s - e.vcn) := rfl
  have hmapped : ¬ (restOfRun s e).lcn < lcnHole := by
    show ¬ (if e.lcn ≥ 0 then e.lcn + (s - e.vcn) else e.lcn) < lcnHole
    split_ifs <;> omega
  rw [List.cons_append, sizeOfRuns, if_neg (by omega), if_neg (by omega)]
  exact hsize

/-- The size is that of the runs from the start on. -/
theorem getSizeForMappingPairs_from
    (h : WellLaid rl runs t v w)
    {maxSize n : Int}
    (hsize : getSizeForMappingPairs vol rl s maxSize = .ok n)
    (hmax : n ≤ maxSize) :
    0 ≤ s ∧ (v ≤ s ∧ s ≤ w) ∧ sizeOfRuns vol maxSize (runsFrom s runs ++ [t]) 0 1 = .ok n := by
  obtain ⟨pre, suf, m, rfl, hpre, hsuf, hm, hskip, hhead⟩ := h.skip s
  have hvm := hpre.le
  have htv := h.end_vcn
  have htl := h.end_length
  unfold getSizeForMappingPairs at hsize
  have hneg : ¬ s < 0 := by
    intro hneg
    rw [if_pos hneg] at hsize
    cases hsize
  rw [if_neg hneg, hskip] at hsize
  cases suf with
  | nil =>
    have hwm : w = m := hsuf
    simp only [List.nil_append] at hsize
    have hout : ¬ (t.length = 0 ∧ s > t.vcn ∨ s < t.vcn) := by
      intro hout
      rw [if_pos hout] at hsize
      cases hsize
    rw [if_neg hout, if_neg (by omega)] at hsize
    rw [runsFrom_append hpre (by omega)]
    exact ⟨by omega, by omega, hsize⟩
  | cons e rest =>
    obtain ⟨he, hpos, hrest⟩ := hsuf
    have hend := hhead e rfl
    have hle := hrest.le
    simp only [List.cons_append] at hsize
    have hout : ¬ (e.length = 0 ∧ s > e.vcn ∨ s < e.vcn) := by
      intro hout
      rw [if_pos hout] at hsize
      cases hsize
    rw [if_neg hout] at hsize
    rw [runsFrom_append hpre (by omega), runsFrom, if_neg (by omega)]
    refine ⟨by omega, by omega, ?_⟩
    by_cases hin : s > e.vcn
    · rw [if_pos hin] at hsize ⊢
      have hbad : ¬ (e.length < 0 ∨ e.lcn < lcnHole) := by
        intro hbad
        rw [if_pos hbad] at hsize
        cases hsize
      rw [if_neg hbad] at hsize
      exact sizeOfFirst_rest hend (by omega) hin hsize hmax
    · rw [if_neg hin] at hsize ⊢
      exact hsize

/-- The rest of the run around the start VCN fits into a buffer, with a zero byte. -/
def FirstFits (vol : Volume) (runs : List RunlistElement) (size : Int) : Prop :=
  ∀ e ∈ runs.head?, (pairBytes e.length (lcnChange vol e.lcn 0)).length < size

/-- The buffer takes the runs up to the first one that does not fit. -/
theorem mappingPairsBuild_parts
    (h : WellLaid rl runs t v w)
    (hv : 0 ≤ v)
    (hs : v ≤ s)
    (hw : s ≤ w)
    (hmapped : ∀ e ∈ runsFrom s runs, MappedRun e)
    (mem : Bytes)
    {dstLen : Int}
    (hlen : 0 < dstLen) :
    let r := mappingPairsBuild vol mem dstLen (some rl) s
    ∃ stored left, runsFrom s runs = stored ++ left ∧
      r.errno = (if left = [] then none else some .enospc) ∧
      HoldsPairs vol r.dst stored ∧
      (encodeRuns vol 0 stored).length < dstLen ∧
      (∀ j : Nat, dstLen ≤ j → r.dst j = mem j) ∧
      (AtRun rl s ∨ FirstFits vol (runsFrom s runs) dstLen → r.stopRl = some (left ++ [t])) := by
  have hstorable : Storable (runsFrom s runs) :=
    fun e he => ⟨(hmapped e he).length_pos, (hmapped e he).lcn_ge⟩
  obtain ⟨herrno, hdst, hstop⟩ := mappingPairsBuild_from vol h hv hs hw mem dstLen
  obtain ⟨stored, left, hsplit, herr, hleft, -, hbytes, hroom⟩ :=
    mappingPairsBuildRuns_spec vol (dstLen - 1) (runsFrom s runs) t mem 0 0 hstorable h.end_length
  refine ⟨stored, left, hsplit, herrno.trans herr, ?_, by omega, ?_, ?_⟩
  · rw [hdst]
    exact hbytes
  · intro j hj
    rw [hdst]
    exact mappingPairsBuildRuns_past vol _ _ mem 0 0 (by omega) (by omega)
  · intro hat
    rcases hstop with hstop | ⟨hout, e, he, hfull⟩
    · exact hstop.trans hleft
    · rcases hat with hat | hfits
      · exact absurd hat hout
      · have hpair := hfits e he
        obtain ⟨next, hnext⟩ := writeMappingPair_room mem 0 (dstLen - 1) e.length
          (lcnChange vol e.lcn 0) (by push_cast; omega)
        rw [hfull] at hnext
        cases hnext

end Building

section Sized

variable {vol : Volume}

/-- `ntfs_get_size_for_mapping_pairs` of a runlist that may be `NULL`. -/
def sizeForMappingPairs
    (vol : Volume) (rl : Option Runlist) (startVcn maxSize : Int) :
    Except Errno Int :=
  match rl with
  | none => if startVcn ≠ 0 then .error .einval else .ok 1
  | some rl => getSizeForMappingPairs vol rl startVcn maxSize

/--
Building into a buffer of `n` bytes, and into smaller ones that are not empty.
`runs` are the runs from the start VCN on.
-/
structure SizedBuild
    (vol : Volume) (rl : Option Runlist) (startVcn n : Int)
    (runs : List RunlistElement) : Prop where
  full : ∀ mem, (mappingPairsBuild vol mem n rl startVcn).errno = none ∧
    HoldsPairs vol (mappingPairsBuild vol mem n rl startVcn).dst runs
  size : (encodeRuns vol 0 runs ++ [0]).length = n
  inside : ∀ mem (j : Nat), n ≤ j → (mappingPairsBuild vol mem n rl startVcn).dst j = mem j
  short : ∀ mem (size : Nat), 0 < size → size < n →
    (mappingPairsBuild vol mem size rl startVcn).errno = some .enospc ∧
      ∀ j, size ≤ j → (mappingPairsBuild vol mem size rl startVcn).dst j = mem j
  /-- The rest is built from the VCN of the element it stopped at. -/
  continued : ∀ mem (size : Nat), 0 < size → size < n →
    (∀ l ∈ rl, AtRun l startVcn) ∨ FirstFits vol runs size →
    ∃ stored left stop rest, runs = stored ++ left ∧
      HoldsPairs vol (mappingPairsBuild vol mem size rl startVcn).dst stored ∧
      (mappingPairsBuild vol mem size rl startVcn).stopRl = some (stop :: rest) ∧
      ∀ mem' (more : Nat), (encodeRuns vol 0 left ++ [0]).length ≤ more →
        (mappingPairsBuild vol mem' more rl stop.vcn).errno = none ∧
          HoldsPairs vol (mappingPairsBuild vol mem' more rl stop.vcn).dst left

variable {rl : Runlist} {runs : List RunlistElement} {t : RunlistElement} {v w s : Int}

/-- A buffer with room for all runs from the start on takes them. -/
theorem mappingPairsBuild_fits
    (vol : Volume)
    (h : WellLaid rl runs t v w)
    (hv : 0 ≤ v)
    (hs : v ≤ s)
    (hw : s ≤ w)
    (hmapped : ∀ e ∈ runsFrom s runs, MappedRun e)
    (mem : Bytes)
    (size : Int)
    (hsize : (encodeRuns vol 0 (runsFrom s runs) ++ [0]).length ≤ size) :
    (mappingPairsBuild vol mem size (some rl) s).errno = none ∧
      HoldsPairs vol (mappingPairsBuild vol mem size (some rl) s).dst (runsFrom s runs) := by
  have hstorable : Storable (runsFrom s runs) :=
    fun e he => ⟨(hmapped e he).length_pos, (hmapped e he).lcn_ge⟩
  have hlen : (encodeRuns vol 0 (runsFrom s runs)).length + 1 ≤ size := by simpa using hsize
  have hnone : (mappingPairsBuild vol mem size (some rl) s).errno = none :=
    (mappingPairsBuild_from vol h hv hs hw mem size).1.trans
      (mappingPairsBuildRuns_room vol (size - 1) (runsFrom s runs) t mem 0 0 hstorable
        h.end_length (by omega))
  obtain ⟨stored, left, hsplit, herr, hholds, -⟩ :=
    mappingPairsBuild_parts h hv hs hw hmapped mem (show 0 < size by omega)
  have hleft : left = [] := by
    by_contra hne
    rw [herr, if_neg hne] at hnone
    cases hnone
  subst hleft
  rw [List.append_nil] at hsplit
  rw [hsplit]
  exact ⟨hnone, hholds⟩

/-- What is built when only some runs fit. -/
theorem mappingPairsBuild_rest
    {stored left : List RunlistElement}
    (h : WellLaid rl runs t v w)
    (hv : 0 ≤ v)
    (hs : v ≤ s)
    (hw : s ≤ w)
    (hmapped : ∀ e ∈ runsFrom s runs, MappedRun e)
    (hsplit : runsFrom s runs = stored ++ left) :
    ∃ stop rest, left ++ [t] = stop :: rest ∧
      ∀ mem (more : Nat), (encodeRuns vol 0 left ++ [0]).length ≤ more →
        (mappingPairsBuild vol mem more (some rl) stop.vcn).errno = none ∧
          HoldsPairs vol (mappingPairsBuild vol mem more (some rl) stop.vcn).dst left := by
  obtain ⟨m, hm, hleft, hfrom⟩ := h.tiles.runsFrom_rest hs hw hsplit
  have hle := hleft.le
  obtain ⟨stop, rest, hstop, hvcn⟩ : ∃ stop rest, left ++ [t] = stop :: rest ∧ stop.vcn = m := by
    cases left with
    | nil => exact ⟨t, [], rfl, h.end_vcn.trans hleft⟩
    | cons e left => exact ⟨e, left ++ [t], rfl, hleft.1⟩
  refine ⟨stop, rest, hstop, ?_⟩
  intro mem more hmore
  have hmapped' : ∀ e ∈ runsFrom m runs, MappedRun e := by
    intro e he
    rw [hfrom] at he
    exact hmapped e (by rw [hsplit]; exact List.mem_append_right _ he)
  rw [hvcn]
  have hfits := mappingPairsBuild_fits vol h hv (hs.trans hm) hle hmapped' mem more
    (by rw [hfrom]; exact_mod_cast hmore)
  rwa [hfrom] at hfits

/-- The runs that are stored from the start VCN on. -/
def storedRuns (rl : Option Runlist) (startVcn : Int) : List RunlistElement :=
  match rl with
  | none => []
  | some l => runsFrom startVcn l.dropLast

/--
A size that is not beyond the maximum is the size of the pairs, of the runs from
the start VCN on, and a terminator.  A buffer of that size takes them, and a
smaller one as many as fit.
-/
theorem mappingPairsBuild_sized
    (vol : Volume)
    {rl : Option Runlist}
    (hrl : ∀ l ∈ rl, ∃ runs t v w, 0 ≤ v ∧ WellLaid l runs t v w)
    {startVcn maxSize n : Int}
    (hsize : sizeForMappingPairs vol rl startVcn maxSize = .ok n)
    (hmax : n ≤ maxSize) :
    SizedBuild vol rl startVcn n (storedRuns rl startVcn) := by
  cases rl with
  | none =>
    obtain ⟨rfl, rfl⟩ : startVcn = 0 ∧ n = 1 := by
      unfold sizeForMappingPairs at hsize
      split_ifs at hsize with hzero
      exact ⟨by omega, (Except.ok.inj hsize).symm⟩
    refine ⟨?_, rfl, ?_, ?_, ?_⟩
    · intro mem
      exact ⟨rfl, by simp [HoldsPairs, storedRuns, encodeRuns, mappingPairsBuild]⟩
    · intro mem j hj
      exact setByte_of_ne _ _ (by omega)
    · omega
    · omega
  | some l =>
    obtain ⟨runs, t, v, w, hv, hlaid⟩ := hrl l rfl
    have hdrop : l.dropLast = runs := by rw [hlaid.elements, List.dropLast_concat]
    have hstored : storedRuns (some l) startVcn = runsFrom startVcn runs := by
      rw [← hdrop]
      rfl
    obtain ⟨-, ⟨hs, hw⟩, hcount⟩ := getSizeForMappingPairs_from hlaid hsize hmax
    obtain ⟨hmapped, hn⟩ := sizeOfRuns_exact vol hlaid.runsFrom_inRange
      hlaid.end_length ⟨by omega, by omega⟩ hcount hmax
    rw [hstored]
    have hlen : ((encodeRuns vol 0 (runsFrom startVcn runs) ++ [0]).length : Int) = n := by
      rw [List.length_append]
      simp only [List.length_cons, List.length_nil]
      omega
    refine ⟨?_, hlen, ?_, ?_, ?_⟩
    · exact fun mem => mappingPairsBuild_fits vol hlaid hv hs hw hmapped mem n hlen.le
    · intro mem j hj
      obtain ⟨_, _, -, -, -, -, hpast, -⟩ :=
        mappingPairsBuild_parts hlaid hv hs hw hmapped mem (show 0 < n by omega)
      exact hpast j hj
    · intro mem size hpos hlt
      obtain ⟨stored, left, hsplit, herr, -, hroom, hpast, -⟩ :=
        mappingPairsBuild_parts hlaid hv hs hw hmapped mem (show (0 : Int) < size by omega)
      refine ⟨?_, fun j hj => hpast j (by omega)⟩
      rw [herr, if_neg]
      rintro rfl
      rw [List.append_nil] at hsplit
      rw [hsplit] at hn
      omega
    · intro mem size hpos hlt hat
      obtain ⟨stored, left, hsplit, -, hholds, -, -, hstop⟩ :=
        mappingPairsBuild_parts hlaid hv hs hw hmapped mem (show (0 : Int) < size by omega)
      obtain ⟨stop, rest, hrest, hmore⟩ :=
        mappingPairsBuild_rest hlaid hv hs hw hmapped hsplit
      refine ⟨stored, left, stop, rest, hsplit, hholds, ?_, hmore⟩
      rw [← hrest]
      exact hstop (hat.imp (fun h => h l rfl) id)

/-- Two runs that lie apart, three bytes each. -/
def twoRuns : Runlist :=
  [⟨0, 10, 1⟩, ⟨1, 20, 1⟩, enoentAt 2]

theorem wellLaid_twoRuns : WellLaid twoRuns [⟨0, 10, 1⟩, ⟨1, 20, 1⟩] (enoentAt 2) 0 2 where
  elements := rfl
  tiles := ⟨rfl, by decide, rfl, by decide, rfl⟩
  inRange := by
    simp only [List.forall_mem_cons, List.not_mem_nil, IsEmpty.forall_iff, implies_true, and_true]
    exact ⟨⟨by decide, by decide, by decide, by decide⟩,
      ⟨by decide, by decide, by decide, by decide⟩⟩
  end_vcn := rfl
  end_length := rfl

theorem mappingPairsBuild_sized_twoRuns :
    sizeForMappingPairs volume31 (some twoRuns) 0 7 = .ok 7 ∧
      SizedBuild volume31 (some twoRuns) 0 7 (storedRuns (some twoRuns) 0) :=
  ⟨rfl, mappingPairsBuild_sized volume31
    (fun _ hl => Option.some.inj hl ▸ ⟨_, _, 0, 2, le_rfl, wellLaid_twoRuns⟩)
    rfl le_rfl⟩

/-- A size beyond the maximum is not that of a buffer for the pairs. -/
theorem sizeForMappingPairs_cut_off :
    sizeForMappingPairs volume31 (some twoRuns) 0 0 = .ok 1 ∧
      (mappingPairsBuild volume31 (fun _ => 0) 1 (some twoRuns) 0).errno = some .enospc :=
  ⟨rfl, by decide⟩

end Sized

end NtfsPlus.Libntfs

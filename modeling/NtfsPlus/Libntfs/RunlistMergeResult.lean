import NtfsPlus.Libntfs.RunlistMergeJoin

/-!
# Which merges are refused

`ntfs_runlists_merge` for runlists of any shape: elements of positive length
that follow each other, mapped or not, with a terminator that says whether the
attribute ends there.  An overlap is refused only when the first mapped run of
the source starts where a run of the destination does.
-/

namespace NtfsPlus.Libntfs

section Overlap

/-- A runlist from VCN `v` on: its elements and its terminator. -/
structure Listed (runs : Runlist) (t : RunlistElement) (v : Int) : Prop where
  tiles : Tiles v runs t.vcn
  lcn_ge : ∀ e ∈ runs, lcnRlNotMapped ≤ e.lcn
  length_eq : t.length = 0
  ending : t.lcn = lcnEnoent ∨ t.lcn = lcnRlNotMapped

theorem Listed.lcn_lt
    {runs : Runlist} {t : RunlistElement} {v : Int}
    (h : Listed runs t v) :
    t.lcn < lcnHole := by
  rcases h.ending with ht | ht
  · rw [ht]
    decide
  · rw [ht]
    decide

/-- Some VCN has a real cluster in both runlists. -/
def SharesVcn (drl srl : Runlist) : Prop :=
  ∃ vcn, 0 ≤ rlVcnToLcn (some drl) vcn ∧ 0 ≤ rlVcnToLcn (some srl) vcn

/-- The first element of the source that is mapped. -/
def firstMapped (runs : Runlist) : Option RunlistElement :=
  runs.find? fun e => decide (e.lcn ≥ lcnHole)

theorem elemAt_firstFrom
    (rl : Runlist)
    (p : RunlistElement → Bool) :
    elemAt rl (firstFrom rl p 0) = (rl.find? p).getD blank := by
  unfold firstFrom elemAt
  rw [List.drop_zero]
  induction rl with
  | nil => rfl
  | cons e rl ih =>
    rw [List.findIdx_cons, List.find?_cons]
    cases p e with
    | true => rfl
    | false => simpa using ih

variable {D S : Runlist} {td ts : RunlistElement} {v : Int}

/-- The scan over the source stops at its first mapped element or at the end. -/
theorem find?_source
    (hS : Listed S ts v) :
    (S ++ [ts]).find? (fun e => isEnd e || decide (e.lcn ≥ lcnHole)) =
      some ((firstMapped S).getD ts) := by
  have hsame : ∀ e ∈ S, (isEnd e || decide (e.lcn ≥ lcnHole)) =
      decide (e.lcn ≥ lcnHole) := by
    intro e he
    have hpos := (hS.tiles.mem he).2.1
    have hne : ¬e.length = 0 := by omega
    simp [isEnd, hne]
  have hfind : S.find? (fun e => isEnd e || decide (e.lcn ≥ lcnHole)) = firstMapped S := by
    exact List.find?_congr hsame
  rw [List.find?_append, hfind]
  cases firstMapped S with
  | none => simp [isEnd, hS.length_eq]
  | some s => rfl

/-- The scan over the destination stops at a run that starts at the given VCN. -/
theorem find?_dest
    (hD : Listed D td 0)
    {d : RunlistElement}
    (hd : d ∈ D) :
    (D ++ [td]).find? (fun e => isEnd e || decide (e.vcn + e.length > d.vcn)) = some d := by
  obtain ⟨A, B, rfl⟩ := List.append_of_mem hd
  obtain ⟨m, hA, hdB⟩ := tiles_append_iff.mp hD.tiles
  have hdv := hdB.1
  have hpos := hdB.2.1
  rw [List.append_assoc, List.find?_append]
  have hnone : A.find? (fun e => isEnd e || decide (e.vcn + e.length > d.vcn)) = none := by
    rw [List.find?_eq_none]
    intro e he
    have hmem := hA.mem he
    have hlen : ¬e.length = 0 := by omega
    have hend : ¬e.vcn + e.length > d.vcn := by omega
    simp [isEnd, hlen, hend]
  rw [hnone]
  simp [hpos]

theorem mergePlan_erange_iff
    (hD : Listed D td 0)
    (hS : Listed S ts v) :
    mergePlan (D ++ [td]) (S ++ [ts]) = .error .erange ↔
      ∃ s d, firstMapped S = some s ∧ 0 ≤ s.lcn ∧ d ∈ D ∧ 0 ≤ d.lcn ∧ d.vcn = s.vcn := by
  unfold mergePlan
  simp only [elemAt_firstFrom, find?_source hS]
  cases hfirst : firstMapped S with
  | none => simp [hS.length_eq]
  | some s =>
    have hs : s ∈ S := List.mem_of_find?_eq_some hfirst
    have hpos := (hS.tiles.mem hs).2.1
    simp only [Option.getD_some]
    rw [if_neg (by omega)]
    constructor
    · intro h
      by_cases hover : ((((D ++ [td]).find?
          fun e => isEnd e || decide (e.vcn + e.length > s.vcn)).getD blank).vcn = s.vcn ∧
        (((D ++ [td]).find?
          fun e => isEnd e || decide (e.vcn + e.length > s.vcn)).getD blank).lcn ≥ 0 ∧
        s.lcn ≥ 0)
      · obtain ⟨hvcn, hlcn, hslcn⟩ := hover
        have hfound : ((D ++ [td]).find?
            fun e => isEnd e || decide (e.vcn + e.length > s.vcn)).isSome := by
          rw [List.find?_isSome]
          exact ⟨td, by simp, by simp [isEnd, hD.length_eq]⟩
        obtain ⟨d, hd⟩ := Option.isSome_iff_exists.mp hfound
        rw [hd, Option.getD_some] at hvcn hlcn
        refine ⟨s, d, rfl, hslcn, ?_, hlcn, hvcn⟩
        rcases List.mem_append.mp (List.mem_of_find?_eq_some hd) with hmem | hmem
        · exact hmem
        · rw [List.mem_singleton.mp hmem] at hlcn
          have := hD.lcn_lt
          unfold lcnHole at this
          omega
      · rw [if_neg hover] at h
        cases h
    · rintro ⟨s', d, hs', hslcn, hd, hlcn, hvcn⟩
      cases hs'
      have hfind := find?_dest hD hd
      rw [hvcn] at hfind
      simp only [hfind]
      rw [if_pos ⟨hvcn, hlcn, hslcn⟩]

theorem runlistsMerge_error_iff
    (drl srl : Runlist)
    (err : Errno) :
    runlistsMerge (some drl) (some srl) = .error err ↔ mergePlan drl srl = .error err := by
  unfold runlistsMerge
  cases hplan : mergePlan drl srl with
  | error e => simp [hplan, bind, Except.bind]
  | ok plan =>
    cases hmarker : plan.markerVcn with
    | none => simp [hplan, hmarker, bind, Except.bind, pure, Except.pure]
    | some m => simp [hplan, hmarker, bind, Except.bind, pure, Except.pure]

/--
An overlap is refused exactly when the first mapped run of the source is a real
one and a real run of the destination starts at the same VCN.
-/
theorem runlistsMerge_erange_iff
    (hD : Listed D td 0)
    (hS : Listed S ts v) :
    (SharesVcn (D ++ [td]) (S ++ [ts]) →
        runlistsMerge (some (D ++ [td])) (some (S ++ [ts])) = .error .erange) ↔
      (SharesVcn (D ++ [td]) (S ++ [ts]) →
        ∃ s d, firstMapped S = some s ∧ 0 ≤ s.lcn ∧ d ∈ D ∧ 0 ≤ d.lcn ∧ d.vcn = s.vcn) := by
  rw [runlistsMerge_error_iff, mergePlan_erange_iff hD hS]

/-- Ten clusters from 100 on, and three that overlap them from VCN 5 on. -/
theorem runlistsMerge_overlap :
    SharesVcn [⟨0, 100, 10⟩, enoentAt 10] [⟨0, lcnRlNotMapped, 5⟩, ⟨5, 200, 3⟩, unmappedAt 8] ∧
      runlistsMerge (some [⟨0, 100, 10⟩, enoentAt 10])
          (some [⟨0, lcnRlNotMapped, 5⟩, ⟨5, 200, 3⟩, unmappedAt 8]) =
        .ok (some [⟨0, 100, 5⟩, ⟨5, 200, 3⟩, ⟨8, 100, 2⟩, enoentAt 10]) := by
  refine ⟨⟨5, ?_⟩, ?_⟩
  · decide
  · decide

/-- The condition and the refusal at runs that start together. -/
theorem runlistsMerge_refused :
    Listed [⟨0, 100, 10⟩] (enoentAt 10) 0 ∧ Listed [⟨0, 200, 3⟩] (unmappedAt 3) 0 ∧
      (SharesVcn [⟨0, 100, 10⟩, enoentAt 10] [⟨0, 200, 3⟩, unmappedAt 3] →
        runlistsMerge (some [⟨0, 100, 10⟩, enoentAt 10])
          (some [⟨0, 200, 3⟩, unmappedAt 3]) = .error .erange) := by
  have hD : Listed [⟨0, 100, 10⟩] (enoentAt 10) 0 :=
    ⟨⟨rfl, by decide, rfl⟩, by decide, rfl, Or.inl rfl⟩
  have hS : Listed [⟨0, 200, 3⟩] (unmappedAt 3) 0 :=
    ⟨⟨rfl, by decide, rfl⟩, by decide, rfl, Or.inr rfl⟩
  refine ⟨hD, hS, (runlistsMerge_erange_iff hD hS).mpr fun _ => ?_⟩
  exact ⟨⟨0, 200, 3⟩, ⟨0, 100, 10⟩, by decide, by decide, by simp, by decide, rfl⟩

end Overlap

end NtfsPlus.Libntfs

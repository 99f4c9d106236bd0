import NtfsPlus.Libntfs.RunlistMergeJoin

/-!
# Cutting runs at a VCN

The runs from a VCN on and the runs up to a VCN.  The run around the cut is
divided, and both parts answer each lookup as the runs do that they come from.
-/

namespace NtfsPlus.Libntfs

section CutFrom

/-- What is left of a run from VCN `s` on. -/
def restOfRun (s : Int) (e : RunlistElement) : RunlistElement where
  vcn := s
  lcn := if e.lcn ≥ 0 then e.lcn + (s - e.vcn) else e.lcn
  length := e.length - (s - e.vcn)

/-- The runs from VCN `s` on. -/
def runsFrom (s : Int) : List RunlistElement → List RunlistElement
  | [] => []
  | e :: rest =>
    if e.vcn + e.length ≤ s then
      runsFrom s rest
    else if e.vcn < s then
      restOfRun s e :: rest
    else
      e :: rest

variable {v s w : Int} {e : RunlistElement} {runs : List RunlistElement}

/-- Elements in front of the cut are left out. -/
theorem runsFrom_append
    {m : Int} {pre suf : List RunlistElement}
    (h : Tiles v pre m)
    (hm : m ≤ s) :
    runsFrom s (pre ++ suf) = runsFrom s suf := by
  induction pre generalizing v with
  | nil => rfl
  | cons e rest ih =>
    obtain ⟨rfl, hpos, hrest⟩ := h
    have hle := hrest.le
    rw [List.cons_append, runsFrom, if_pos (by omega)]
    exact ih hrest

theorem restOfRun_self
    (h : e.vcn = s) :
    restOfRun s e = e := by
  subst h
  simp [restOfRun]

theorem runsFrom_inside
    (rest : List RunlistElement)
    (hlo : e.vcn ≤ s)
    (hhi : s < e.vcn + e.length) :
    runsFrom s (e :: rest) = restOfRun s e :: rest := by
  rw [runsFrom, if_neg (by omega)]
  split_ifs with hin
  · rfl
  · rw [restOfRun_self (by omega)]

theorem Tiles.runsFrom_self
    (h : Tiles s runs w) :
    runsFrom s runs = runs := by
  cases runs with
  | nil => rfl
  | cons e rest =>
    obtain ⟨hs, hpos, -⟩ := h
    rw [runsFrom_inside rest (by omega) (by omega), restOfRun_self hs]

/-- The runs from `s` on tile the range from there, and so does each rest of them. -/
theorem Tiles.runsFrom_rest
    {stored left : List RunlistElement}
    (h : Tiles v runs w)
    (hv : v ≤ s)
    (hw : s ≤ w)
    (hsplit : runsFrom s runs = stored ++ left) :
    ∃ m, s ≤ m ∧ Tiles m left w ∧ runsFrom m runs = left := by
  induction runs generalizing v with
  | nil =>
    obtain ⟨rfl, rfl⟩ := List.append_eq_nil_iff.mp hsplit.symm
    exact ⟨w, hw, rfl, rfl⟩
  | cons e rest ih =>
    obtain ⟨hev, hpos, hrest⟩ := h
    by_cases hbefore : e.vcn + e.length ≤ s
    · rw [runsFrom, if_pos hbefore] at hsplit
      obtain ⟨m, hm, htiles, hleft⟩ := ih hrest (by omega) hsplit
      refine ⟨m, hm, htiles, ?_⟩
      rw [runsFrom, if_pos (by omega)]
      exact hleft
    · rw [runsFrom_inside rest (by omega) (by omega)] at hsplit
      cases stored with
      | nil =>
        obtain rfl : restOfRun s e :: rest = left := hsplit
        refine ⟨s, le_rfl, ⟨rfl, ?_, ?_⟩, runsFrom_inside rest (by omega) (by omega)⟩
        · show 0 < e.length - (s - e.vcn)
          omega
        · have hend : s + (restOfRun s e).length = v + e.length := by
            show s + (e.length - (s - e.vcn)) = v + e.length
            omega
          rw [hend]
          exact hrest
      | cons f stored =>
        have htail : rest = stored ++ left := (List.cons.inj hsplit).2
        rw [htail] at hrest ⊢
        obtain ⟨m, hstored, hleft⟩ := tiles_append_iff.mp hrest
        have hle := hstored.le
        refine ⟨m, by omega, hleft, ?_⟩
        rw [runsFrom, if_pos (by omega), runsFrom_append hstored le_rfl]
        exact hleft.runsFrom_self

end CutFrom

section CutUpto

/-- The part of a run before VCN `s`. -/
def startOfRun (s : Int) (e : RunlistElement) : RunlistElement :=
  { e with length := s - e.vcn }

/-- The runs up to VCN `s`. -/
def runsUpto (s : Int) : List RunlistElement → List RunlistElement
  | [] => []
  | e :: rest =>
    if e.vcn + e.length ≤ s then
      e :: runsUpto s rest
    else if e.vcn < s then
      [startOfRun s e]
    else
      []

/-- Elements in front of the cut are kept. -/
theorem runsUpto_append
    {v m s : Int} {pre suf : List RunlistElement}
    (h : Tiles v pre m)
    (hm : m ≤ s) :
    runsUpto s (pre ++ suf) = pre ++ runsUpto s suf := by
  induction pre generalizing v with
  | nil => rfl
  | cons e rest ih =>
    obtain ⟨rfl, hpos, hrest⟩ := h
    have hle := hrest.le
    rw [List.cons_append, runsUpto, if_pos (by omega), ih hrest, List.cons_append]

theorem Tiles.runsUpto_start
    {s w : Int} {runs : List RunlistElement}
    (h : Tiles s runs w) :
    runsUpto s runs = [] := by
  cases runs with
  | nil => rfl
  | cons e rest =>
    obtain ⟨hs, hpos, -⟩ := h
    rw [runsUpto, if_neg (by omega), if_neg (by omega)]

end CutUpto

section Mapped

variable {v w s : Int} {runs : List RunlistElement} {e : RunlistElement}

theorem MappedRun.startOfRun
    (h : MappedRun e)
    (hlo : e.vcn < s)
    (hhi : s ≤ e.vcn + e.length) :
    MappedRun (startOfRun s e) := by
  obtain ⟨hpos, hmapped, hvcn, hvcnEnd, hlcnEnd⟩ := h
  refine ⟨?_, hmapped, hvcn, ?_, ?_⟩
  · show 0 < s - e.vcn
    omega
  · show e.vcn + (s - e.vcn) < 2 ^ 63
    omega
  · show 0 ≤ e.lcn → e.lcn + (s - e.vcn) < 2 ^ 63
    omega

theorem MappedRun.restOfRun
    (h : MappedRun e)
    (hlo : e.vcn ≤ s)
    (hhi : s < e.vcn + e.length) :
    MappedRun (restOfRun s e) := by
  obtain ⟨hpos, hmapped, hvcn, hvcnEnd, hlcnEnd⟩ := h
  unfold Libntfs.restOfRun
  refine ⟨?_, ?_, ?_, ?_, ?_⟩
  · show 0 < e.length - (s - e.vcn)
    omega
  · dsimp only
    split_ifs
    · omega
    · omega
  · show 0 ≤ s
    omega
  · show s + (e.length - (s - e.vcn)) < 2 ^ 63
    omega
  · dsimp only
    split_ifs
    · omega
    · omega

/-- The part in front of a cut. -/
theorem MappedRuns.runsUpto
    (h : MappedRuns v runs w)
    (hv : v ≤ s)
    (hw : s ≤ w) :
    MappedRuns v (runsUpto s runs) s := by
  induction runs generalizing v with
  | nil =>
    have hvw : w = v := h
    show s = v
    omega
  | cons e rest ih =>
    obtain ⟨hev, he, hrest⟩ := h
    rw [Libntfs.runsUpto]
    split_ifs with hbefore hinside
    · exact ⟨hev, he, ih hrest (by omega)⟩
    · refine ⟨hev, he.startOfRun hinside (by omega), ?_⟩
      show s = v + (s - e.vcn)
      omega
    · show s = v
      omega

/-- The part behind a cut. -/
theorem MappedRuns.runsFrom
    (h : MappedRuns v runs w)
    (hv : v ≤ s)
    (hw : s ≤ w) :
    MappedRuns s (runsFrom s runs) w := by
  induction runs generalizing v with
  | nil =>
    have hvw : w = v := h
    show w = s
    omega
  | cons e rest ih =>
    obtain ⟨hev, he, hrest⟩ := h
    by_cases hbefore : e.vcn + e.length ≤ s
    · rw [Libntfs.runsFrom, if_pos hbefore]
      exact ih hrest (by omega)
    · rw [runsFrom_inside rest (by omega) (by omega)]
      refine ⟨rfl, he.restOfRun (by omega) (by omega), ?_⟩
      have hend : s + (restOfRun s e).length = v + e.length := by
        show s + (e.length - (s - e.vcn)) = v + e.length
        omega
      rw [hend]
      exact hrest

end Mapped

section Lookups

variable {v w s vcn : Int} {runs : List RunlistElement}

theorem lcnOf_restOfRun
    (s : Int)
    (e : RunlistElement)
    (vcn : Int)
    (hs : e.vcn ≤ s) :
    (restOfRun s e).lcnOf vcn = e.lcnOf vcn := by
  unfold RunlistElement.lcnOf restOfRun
  dsimp only
  split_ifs with hreal hneg
  · omega
  · omega
  · rfl

/-- Lookups in front of a cut stay. -/
theorem lcnIn_runsUpto
    (h : Tiles v runs w)
    (hlo : v ≤ vcn)
    (hhi : vcn < s) :
    lcnIn (runsUpto s runs) vcn = lcnIn runs vcn := by
  induction runs generalizing v with
  | nil => rfl
  | cons e rest ih =>
    obtain ⟨hev, hpos, hrest⟩ := h
    rw [runsUpto, lcnIn]
    split_ifs with hbefore hin hinside hin hin
    · rw [lcnIn, if_pos hin]
    · rw [lcnIn, if_neg hin, ih hrest (by omega)]
    · rw [lcnIn, if_pos ⟨hin.1, show vcn < e.vcn + (s - e.vcn) by omega⟩]
      rfl
    · omega
    · omega
    · omega

/-- So do those behind it. -/
theorem lcnIn_runsFrom
    (h : Tiles v runs w)
    (hv : v ≤ s)
    (hlo : s ≤ vcn) :
    lcnIn (runsFrom s runs) vcn = lcnIn runs vcn := by
  induction runs generalizing v with
  | nil => rfl
  | cons e rest ih =>
    obtain ⟨hev, hpos, hrest⟩ := h
    by_cases hbefore : e.vcn + e.length ≤ s
    · rw [runsFrom, if_pos hbefore, ih hrest (by omega), lcnIn, if_neg (by omega)]
    · rw [runsFrom_inside rest (by omega) (by omega), lcnIn, lcnIn]
      have hend : (restOfRun s e).vcn + (restOfRun s e).length = e.vcn + e.length := by
        show s + (e.length - (s - e.vcn)) = e.vcn + e.length
        omega
      have hstart : (restOfRun s e).vcn = s := rfl
      rw [hend, lcnOf_restOfRun s e vcn (by omega)]
      by_cases hin : vcn < e.vcn + e.length
      · rw [if_pos ⟨hlo, hin⟩, if_pos ⟨by omega, hin⟩]
      · rw [if_neg (by omega), if_neg (by omega)]

end Lookups

section Separate

variable {s : Int} {runs : List RunlistElement}

/-- When two runs can be merged. -/
theorem rlAreMergeable_iff
    (a b : RunlistElement) :
    rlAreMergeable a b = true ↔ a.lcn = lcnRlNotMapped ∧ b.lcn = lcnRlNotMapped ∨
        a.vcn + a.length = b.vcn ∧ (0 ≤ a.lcn ∧ 0 ≤ b.lcn ∧ a.lcn + a.length = b.lcn ∨
            a.lcn = lcnHole ∧ b.lcn = lcnHole) := by
  unfold rlAreMergeable
  split_ifs with hunmapped hgap hreal
  · exact iff_of_true rfl (Or.inl hunmapped)
  · refine iff_of_false (by simp) ?_
    omega
  · exact iff_of_true rfl (Or.inr ⟨by omega, Or.inl hreal⟩)
  · rw [decide_eq_true_iff]
    omega

/-- Whether a run can be joined to the next one is up to where it ends. -/
theorem rlAreMergeable_of_end
    {a b : RunlistElement}
    (d : RunlistElement)
    (hvcn : a.vcn + a.length = b.vcn + b.length)
    (hlcn : 0 ≤ a.lcn ∧ 0 ≤ b.lcn ∧ a.lcn + a.length = b.lcn + b.length ∨
      a.lcn < 0 ∧ a.lcn = b.lcn) :
    rlAreMergeable a d = rlAreMergeable b d := by
  rw [Bool.eq_iff_iff, rlAreMergeable_iff, rlAreMergeable_iff]
  unfold lcnRlNotMapped lcnHole
  omega

theorem rlAreMergeable_restOfRun
    {e : RunlistElement}
    (f : RunlistElement)
    (hs : e.vcn ≤ s) :
    rlAreMergeable (restOfRun s e) f = rlAreMergeable e f := by
  apply rlAreMergeable_of_end
  · show s + (e.length - (s - e.vcn)) = e.vcn + e.length
    omega
  · by_cases hreal : e.lcn ≥ 0
    · have hlcn : (restOfRun s e).lcn = e.lcn + (s - e.vcn) := if_pos hreal
      have hlength : (restOfRun s e).length = e.length - (s - e.vcn) := rfl
      omega
    · have hlcn : (restOfRun s e).lcn = e.lcn := if_neg hreal
      omega

/-- What was not mergeable before a cut is not mergeable behind it. -/
theorem isChain_runsFrom
    (h : runs.IsChain (fun a b => rlAreMergeable a b = false)) :
    (runsFrom s runs).IsChain (fun a b => rlAreMergeable a b = false) := by
  induction runs with
  | nil => exact h
  | cons e rest ih =>
    obtain ⟨hhead, hrest⟩ := List.isChain_cons.mp h
    rw [runsFrom]
    split_ifs with hbefore hinside
    · exact ih hrest
    · refine List.isChain_cons.mpr ⟨?_, hrest⟩
      intro f hf
      rw [rlAreMergeable_restOfRun f hinside.le]
      exact hhead f hf
    · exact h

theorem isChain_runsUpto
    (h : runs.IsChain (fun a b => rlAreMergeable a b = false)) :
    (runsUpto s runs).IsChain (fun a b => rlAreMergeable a b = false) := by
  induction runs with
  | nil => exact h
  | cons e rest ih =>
    obtain ⟨hhead, hrest⟩ := List.isChain_cons.mp h
    rw [runsUpto]
    split_ifs with hbefore hinside
    · refine List.isChain_cons.mpr ⟨?_, ih hrest⟩
      cases rest with
      | nil => simp [runsUpto]
      | cons f rest =>
        have hef := hhead f rfl
        rw [runsUpto]
        split_ifs
        · simpa using hef
        · simpa [startOfRun] using
            (rlAreMergeable_congr (e := e) (f := startOfRun s f) rfl rfl).trans hef
        · simp
    · exact List.isChain_singleton _
    · exact List.IsChain.nil

end Separate

end NtfsPlus.Libntfs

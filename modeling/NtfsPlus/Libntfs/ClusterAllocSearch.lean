import NtfsPlus.Libntfs.ClusterAllocSpec

/-!
# The search for free clusters ends

`ntfs_cluster_alloc` switches between zones, passes and windows with jumps, and a hint
gives way to the position of the zone.  A zone is left for good after at most two passes,
and in a pass the windows move on (`allocStep_searchRank`), so every search ends
(`clusterAlloc_terminates`).
-/

namespace NtfsPlus.Libntfs

section Termination

/-- How many times the zone may still be switched. -/
def zoneRank (doneZones : Zone → Bool) : Zone → Nat
  | .data2 =>
    if doneZones .data1 then (if doneZones .mft then 0 else 1)
    else if doneZones .mft then 1 else 3
  | .data1 =>
    if doneZones .data2 then (if doneZones .mft then 0 else 2)
    else if doneZones .mft then 1 else 2
  | .mft =>
    if doneZones .data1 && doneZones .data2 then 0
    else if doneZones .data2 then 1 else 2

/-- The zones, passes and hints that are still to come. -/
def passRank (st : AllocState) : Nat :=
  4 * zoneRank st.doneZones st.searchZone + 2 * (if st.pass2 then 0 else 1) +
    (if st.usedZonePos then 0 else 1)

/-- The windows that are still to come in this pass. -/
def windowRank (size : Nat) (st : AllocState) : Nat :=
  match st.label with
  | .top => size - st.bmpPos / 8 + 3
  | .zonePassDone => 2
  | .doneZonesCheck => 1

/-- An upper bound for the steps to come. -/
def searchRank (size : Nat) (st : AllocState) : Nat :=
  passRank st * (size + 4) + windowRank size st

variable (size : Nat) (vol : AllocVolume) (io : Nat → Bool)

theorem windowRank_lt
    (st : AllocState) :
    windowRank size st < size + 4 := by
  unfold windowRank
  cases st.label with
  | top =>
    dsimp only
    omega
  | zonePassDone =>
    dsimp only
    omega
  | doneZonesCheck =>
    dsimp only
    omega

variable {st st' : AllocState}

theorem searchRank_lt_of_pass
    (h : passRank st' < passRank st) :
    searchRank size st' < searchRank size st := by
  have hmul : (passRank st' + 1) * (size + 4) ≤ passRank st * (size + 4) :=
    Nat.mul_le_mul_right _ h
  have hwin := windowRank_lt size st'
  unfold searchRank
  rw [Nat.add_mul] at hmul
  omega

theorem searchRank_lt_of_window
    (hpass : passRank st' = passRank st)
    (h : windowRank size st' < windowRank size st) :
    searchRank size st' < searchRank size st := by
  unfold searchRank
  rw [hpass]
  omega

/-- Leaving a zone makes the rank smaller. -/
theorem zoneRank_nextZone
    (doneZones : Zone → Bool)
    (z : Zone)
    (hmore : (Function.update doneZones z true .mft && Function.update doneZones z true .data1 &&
      Function.update doneZones z true .data2) = false) :
    zoneRank (Function.update doneZones z true) (nextZone (Function.update doneZones z true) z) <
      zoneRank doneZones z := by
  cases z with
  | mft =>
    cases h1 : doneZones .data1 <;> cases h2 : doneZones .data2 <;>
      simp_all [zoneRank, nextZone]
  | data1 =>
    cases h1 : doneZones .mft <;> cases h2 : doneZones .data2 <;>
      simp_all [zoneRank, nextZone]
  | data2 =>
    cases h1 : doneZones .mft <;> cases h2 : doneZones .data1 <;>
      simp_all [zoneRank, nextZone]

variable {vol₀ : AllocVolume} {startVcn : Int} {count : Nat}

/-- A search without the last cluster gets on to the next window, pass or zone. -/
theorem WindowNext.searchRank_lt
    {size br : Nat} {w : AllocWindow}
    (h : WindowNext st w br st')
    (htop : st.label = .top)
    (hbr : 0 < br)
    (hsize : st.bmpPos / 8 + br ≤ size) :
    searchRank size st' < searchRank size st := by
  have hrank : windowRank size st = size - st.bmpPos / 8 + 3 := by rw [windowRank, htop]
  cases hused : st.usedZonePos with
  | false =>
    apply searchRank_lt_of_pass
    unfold passRank
    rw [h.doneZones, h.searchZone, h.used, hused]
    cases hp : st.pass2 with
    | true => simp [h.pass2 hp]
    | false => cases st'.pass2 <;> simp
  | true =>
    obtain ⟨hpass, hlabel⟩ := h.moves hused
    apply searchRank_lt_of_window
    · unfold passRank
      rw [h.doneZones, h.searchZone, h.used, hused, hpass]
    · rw [windowRank]
      rcases hlabel with hl | ⟨hl, hpos⟩
      · rw [hl]
        dsimp only
        omega
      · rw [hl]
        dsimp only
        omega

/-- Every step makes the rank smaller. -/
theorem allocStep_searchRank
    (h : Searching vol₀ startVcn count st)
    (hgoto : allocStep startVcn st = .goto st') :
    searchRank vol₀.bitmapSize st' < searchRank vol₀.bitmapSize st := by
  obtain ⟨hpos, cs, hp⟩ := h
  unfold allocStep at hgoto
  cases hl : st.label with
  | top =>
    rw [hl] at hgoto
    rcases stepTop_cases startVcn hpos with
      heq | heq | ⟨br, lcn, k, w, e, hbr, hsize, -, ⟨-, tc, heq⟩ | ⟨-, st₁, heq, hnext⟩⟩
    · cases heq.symm.trans hgoto
      apply searchRank_lt_of_window
      · rfl
      · rw [windowRank, windowRank, hl]
        dsimp only
        omega
    · cases heq.symm.trans hgoto
    · cases heq.symm.trans hgoto
    · cases heq.symm.trans hgoto
      rw [hp.bitmapSize] at hsize
      exact hnext.searchRank_lt hl hbr hsize
  | zonePassDone =>
    rw [hl] at hgoto
    unfold stepZonePassDone at hgoto
    cases hpass : st.pass2 with
    | true =>
      rw [hpass] at hgoto
      cases hgoto
      apply searchRank_lt_of_window
      · simp [passRank, hpass]
      · rw [windowRank, windowRank, hl]
        exact Nat.one_lt_two
    | false =>
      rw [hpass] at hgoto
      cases hgoto
      apply searchRank_lt_of_pass
      simp [passRank, hpass]
  | doneZonesCheck =>
    rw [hl] at hgoto
    unfold stepDoneZonesCheck at hgoto
    dsimp only at hgoto
    split_ifs at hgoto with hall hempty
    all_goals
      cases hgoto
      apply searchRank_lt_of_pass
      have hrank := zoneRank_nextZone st.doneZones st.searchZone (Bool.eq_false_iff.mpr hall)
      unfold passRank
      dsimp only
      split_ifs <;> omega

/-- So the search ends within as many steps. -/
theorem allocRun_isSome
    {fuel : Nat}
    (h : Searching vol₀ startVcn count st)
    (hfuel : searchRank vol₀.bitmapSize st < fuel) :
    (allocRun startVcn fuel st).isSome = true := by
  induction fuel generalizing st with
  | zero => omega
  | succ fuel ih =>
    have hstep := allocStep_progress h
    rw [allocRun]
    cases hnext : allocStep startVcn st with
    | goto st' =>
      rw [hnext] at hstep
      have hrank := allocStep_searchRank h hnext
      exact ih hstep (by omega)
    | done vol runs => rfl
    | fail err st' => rfl

theorem allocStart_searching
    (startVcn : Int)
    (hcount : 0 < count)
    (startLcn : Int)
    (zone : AllocationZone) :
    Searching vol startVcn count (allocStart vol io count startLcn zone) :=
  ⟨hcount, [], AllocProgress.start vol startVcn count⟩

/-- The rank at the start is below the fuel. -/
theorem allocStart_searchRank
    (count : Nat)
    (startLcn : Int)
    (zone : AllocationZone) :
    searchRank vol.bitmapSize (allocStart vol io count startLcn zone) < allocFuel vol := by
  generalize hst : allocStart vol io count startLcn zone = st
  have hdone : st.doneZones = fun _ => false := by
    rw [← hst]
    rfl
  have hzone : zoneRank st.doneZones st.searchZone ≤ 3 := by
    rw [hdone]
    cases st.searchZone <;> decide
  have hpass : passRank st ≤ 15 := by
    unfold passRank
    split_ifs <;> omega
  have hmul := Nat.mul_le_mul_right (vol.bitmapSize + 4) hpass
  have hwin := windowRank_lt vol.bitmapSize st
  unfold searchRank allocFuel
  omega

/-- `ntfs_cluster_alloc` always ends. -/
theorem clusterAlloc_isSome
    (startVcn count startLcn : Int)
    (zone : AllocationZone) :
    (clusterAlloc vol io startVcn count startLcn zone).isSome = true := by
  unfold clusterAlloc
  by_cases hbad : count < 0 ∨ startLcn < -1
  · rw [if_pos hbad]
    rfl
  rw [if_neg hbad]
  by_cases hzero : count = 0
  · rw [if_pos hzero]
    rfl
  rw [if_neg hzero]
  have hrun := allocRun_isSome
    (allocStart_searching vol io startVcn (by omega) startLcn zone)
    (allocStart_searchRank vol io count.toNat startLcn zone)
  obtain ⟨e, he⟩ := Option.isSome_iff_exists.mp hrun
  rw [he]
  cases e <;> rfl

/-- A search that never leaves the loop uses up any number of steps. -/
theorem allocRun_of_infinite
    {run : Nat → AllocState}
    (hrun : ∀ n, allocStep startVcn (run n) = .goto (run (n + 1)))
    (fuel n : Nat) :
    allocRun startVcn fuel (run n) = none := by
  induction fuel generalizing n with
  | zero => rfl
  | succ fuel ih =>
    rw [allocRun, hrun]
    exact ih (n + 1)

/--
`ntfs_cluster_alloc` terminates for every bitmap, zone layout, hint and count, whichever
reads and writes of the bitmap fail: there is no infinite run of the machine of zones and
passes, and `allocFuel` bounds the steps.
-/
theorem clusterAlloc_terminates
    (vol : AllocVolume)
    (io : Nat → Bool)
    (startVcn count startLcn : Int)
    (zone : AllocationZone) :
    (¬ ∃ run : Nat → AllocState, 0 < count ∧ run 0 = allocStart vol io count.toNat startLcn zone ∧
      ∀ n, allocStep startVcn (run n) = .goto (run (n + 1))) ∧
    (clusterAlloc vol io startVcn count startLcn zone).isSome = true := by
  refine ⟨?_, clusterAlloc_isSome vol io startVcn count startLcn zone⟩
  rintro ⟨run, hcount, hstart, hrun⟩
  have hsome := allocRun_isSome
    (allocStart_searching vol io startVcn (by omega) startLcn zone)
    (allocStart_searchRank vol io count.toNat startLcn zone)
  rw [← hstart, allocRun_of_infinite hrun] at hsome
  cases hsome

end Termination

end NtfsPlus.Libntfs

import NtfsPlus.Ntfsck.Main

/-!
# The dirty flag around the repairs of a run

`ntfsck_begin_repair` sets the dirty flag before the passes of a round, and
`ntfsck_reset_dirty` clears it at the end of the run.  A run that is cut off in between is
to leave the flag set.

Mounting repairs before the flag is set, the result of setting it is not looked at, and the
unmount writes cached inodes behind its clearing.  `ntfsck_guarded` says what has to be given
for the flag to guard the repairs all the same: of the mount, of `hiberfil.sys`, of the
rounds before the first mark and of the last round.
-/

namespace NtfsPlus.Ntfsck

open DirtyFlag

section Guard

variable {opts : Options} {flag : Bool} {l l' : LoopState} {r : Round} {res : RunResult}

/-- A round that writes nothing: not in its passes, nor in the unmount and the mount after it. -/
def Round.Silent (opts : Options) (r : Round) : Prop :=
  (∀ p ∈ r.executed repairPasses, (r.pass p).writes = 0) ∧ r.flush = 0 ∧
    NothingRepaired (mountSteps (!opts.repair) r.remount)

/-- The rounds before the first one that sets the dirty flag write nothing. -/
def MarkedFirst (opts : Options) : List Round → Prop
  | [] => True
  | r :: rounds => r.mark = .written ∨ r.Silent opts ∧ MarkedFirst opts rounds

/-- The writes of the passes, in order. -/
theorem runPasses_writes
    (r : Round)
    (ps : List RepairPass)
    (s : RunState) :
    (runPasses r ps s).1.trace =
      s.trace ++ writeEvents ((r.executed ps).map fun p => (r.pass p).writes).sum := by
  induction ps generalizing s with
  | nil => simp [runPasses, Round.executed, writeEvents]
  | cons p ps ih =>
    rw [runPasses, Round.executed]
    by_cases hskip : r.skips p = true
    · rw [if_pos hskip, if_pos hskip]
      exact ih s
    · rw [if_neg hskip, if_neg hskip]
      by_cases habort : (p.canAbort && (r.pass p).failed) = true
      · simp [habort, RunState.after]
      · rw [if_neg habort, if_neg habort, ih]
        simp [RunState.after, writeEvents, List.replicate_append_replicate]

/-- What has reached the device when the passes of a round are done. -/
def passesTrace (opts : Options) (l : LoopState) (r : Round) : List FlagEvent :=
  (runRepairPasses r (beginRepair opts r.mark l.state)).1.trace

/-- The mark comes first, or nothing is written. -/
theorem passesTrace_first
    (hrepair : opts.repair = true)
    (htrace : l.state.trace = [] ∧ l.state.volDirty = false) :
    (r.mark = .written → (passesTrace opts l r).head? = some .mark) ∧
      (r.mark ≠ .written → r.Silent opts → passesTrace opts l r = []) := by
  rw [passesTrace, runRepairPasses, runPasses_writes]
  unfold beginRepair
  rw [hrepair, htrace.2]
  refine ⟨fun hmark => by simp [hmark, htrace.1], fun hmark hsilent => ?_⟩
  have hsum : ((r.executed repairPasses).map fun p => (r.pass p).writes).sum = 0 :=
    List.sum_eq_zero (by simpa using hsilent.1)
  rw [hsum]
  cases hm : r.mark with
  | written => exact absurd hm hmark
  | lookupFailed => simp [htrace.1, writeEvents]
  | syncFailed => simp [htrace.1, writeEvents]

/-- The passes only add to the trace. -/
theorem passesTrace_starts
    (opts : Options)
    (l : LoopState)
    (r : Round) :
    l.state.trace <+: passesTrace opts l r := by
  rw [passesTrace, runRepairPasses, runPasses_writes]
  refine List.IsPrefix.trans ?_ (List.prefix_append _ _)
  unfold beginRepair
  split
  · cases r.mark with
    | written => exact List.prefix_append _ _
    | lookupFailed => exact List.prefix_rfl
    | syncFailed => exact List.prefix_rfl
  · exact List.prefix_rfl

/-- How a round ends the run: what is behind the body of the trace depends on the round only. -/
structure EndsRun (opts : Options) (l : LoopState) (r : Round) (res : RunResult)
    (body : List FlagEvent) (cleared : Bool) (n : Nat) : Prop where
  passes : passesTrace opts l r <+: body
  notCleared : .clear ∉ l.state.trace → .clear ∉ body
  trace : res.trace = body ++ ((if cleared then [.clear] else []) ++ List.replicate n .write)
  reset : cleared = true → r.reset = .written ∧ n = r.flush
  silent : r.Silent opts → body = passesTrace opts l r ∧ n = 0

/-- How a run ends. -/
theorem finish_endsRun
    {aborted : Bool} {s : RunState}
    (htrace : s.trace = passesTrace opts l r) :
    ∃ cleared n, EndsRun opts l r (finish true aborted r.reset r.flush s) s.trace cleared n := by
  refine ⟨clearsDirty true r.reset s, r.flush, by rw [htrace], ?_, rfl, ?_, ?_⟩
  · rw [htrace]
    exact fun hclear => round_trace r hclear
  · intro hclear
    simp only [clearsDirty, Bool.and_eq_true, beq_iff_eq] at hclear
    exact ⟨hclear.2, rfl⟩
  · exact fun hsilent => ⟨htrace, hsilent.2.1⟩

/-- What a remount adds to the trace. -/
theorem remountFor_trace
    {prevFixes : Option Nat} {s : RunState}
    (htrace : s.trace = passesTrace opts l r) :
    match remountFor opts flag l r prevFixes s with
    | .ends res => ∃ body cleared n, EndsRun opts l r res body cleared n
    | .again l' => passesTrace opts l r <+: l'.state.trace ∧
        l'.state.volDirty = flagAfter flag l'.state.trace ∧
        (r.Silent opts → l'.state.trace = passesTrace opts l r) := by
  have hpre : passesTrace opts l r <+:
      (s.remounted flag r.flush (mount (!opts.repair) r.remount)).trace := by
    rw [RunState.remounted, htrace, List.append_assoc]
    exact List.prefix_append _ _
  have hsame : r.Silent opts →
      (s.remounted flag r.flush (mount (!opts.repair) r.remount)).trace =
        passesTrace opts l r := by
    rintro ⟨-, hflush, hnothing⟩
    have hnil := (mount_writes_nil_iff (!opts.repair) r.remount).mpr hnothing
    simp [RunState.remounted, htrace, hflush, hnil, writeEvents]
  unfold remountFor
  by_cases hmounted : (mount (!opts.repair) r.remount).status = .mounted
  · simp only [hmounted]
    exact ⟨hpre, rfl, hsame⟩
  · simp only [hmounted]
    refine ⟨_, false, 0, hpre, fun hclear => ?_, by simp [finish, clearsDirty, writeEvents],
      by simp, fun h => ⟨hsame h, rfl⟩⟩
    have hpasses : .clear ∉ passesTrace opts l r := round_trace r hclear
    simp [RunState.remounted, htrace, hpasses, not_mem_writeEvents]

/-- What a round adds to the trace. -/
theorem runRound_trace
    (opts : Options)
    (flag : Bool)
    (l : LoopState)
    (r : Round) :
    match runRound opts flag l r with
    | .ends res => ∃ body cleared n, EndsRun opts l r res body cleared n
    | .again l' => passesTrace opts l r <+: l'.state.trace ∧
        l'.state.volDirty = flagAfter flag l'.state.trace ∧
        (r.Silent opts → l'.state.trace = passesTrace opts l r) := by
  have htrace : passesTrace opts l r =
      (runRepairPasses r (beginRepair opts r.mark l.state)).1.trace := rfl
  unfold runRound
  generalize runRepairPasses r (beginRepair opts r.mark l.state) = p at htrace
  obtain ⟨s, aborted⟩ := p
  cases aborted with
  | true => exact ⟨_, finish_endsRun htrace.symm⟩
  | false =>
    rw [leaveRound]
    split_ifs
    · exact ⟨_, @finish_endsRun _ _ _ _ { s with errors := s.errors + 1 } htrace.symm⟩
    · exact @remountFor_trace _ _ _ _ _ (s.putOff r.deferred) htrace.symm
    · exact ⟨_, finish_endsRun htrace.symm⟩
    · exact remountFor_trace htrace.symm

theorem head?_of_starts
    {t t' : List FlagEvent}
    (h : t <+: t')
    (hhead : t.head? = some .mark) :
    t'.head? = some .mark := by
  obtain ⟨rest, rfl⟩ := h
  cases t with
  | nil => cases hhead
  | cons e t => exact hhead

/-- A run that begins with the mark, or without a write up to it, writes nothing before it. -/
theorem runRounds_marked
    {rounds : List Round}
    (hrepair : opts.repair = true)
    (hrun : runRounds opts false l rounds = some res)
    (hstate : l.state.trace.head? = some .mark ∨
      (l.state.trace = [] ∧ l.state.volDirty = false) ∧ MarkedFirst opts rounds) :
    .write ∉ res.trace.takeWhile (· != .mark) := by
  have hstop : ∀ {t : List FlagEvent}, t.head? = some .mark →
      .write ∉ t.takeWhile (· != .mark) := by
    intro t ht
    cases t with
    | nil => simp
    | cons e t =>
      cases ht
      simp
  induction rounds generalizing l with
  | nil => cases hrun
  | cons r rounds ih =>
    have hround := runRound_trace opts false l r
    -- either the mark has been set now, or the round is silent
    have hpasses : (passesTrace opts l r).head? = some .mark ∨
        (r.Silent opts ∧ MarkedFirst opts rounds) ∧ passesTrace opts l r = [] := by
      rcases hstate with hhead | ⟨htrace, hfirst⟩
      · exact Or.inl (head?_of_starts (passesTrace_starts opts l r) hhead)
      · by_cases hmark : r.mark = .written
        · exact Or.inl ((passesTrace_first hrepair htrace).1 hmark)
        · have hsilent := hfirst.resolve_left hmark
          exact Or.inr ⟨hsilent, (passesTrace_first hrepair htrace).2 hmark hsilent.1⟩
    rw [runRounds] at hrun
    cases hnext : runRound opts false l r with
    | ends res' =>
      rw [hnext] at hround hrun
      obtain rfl := Option.some.inj hrun
      obtain ⟨body, cleared, n, hends⟩ := hround
      rcases hpasses with hhead | ⟨hsilent, hnil⟩
      · refine hstop (head?_of_starts (hends.passes.trans ?_) hhead)
        rw [hends.trace]
        exact List.prefix_append _ _
      · obtain ⟨hbody, hn⟩ := hends.silent hsilent.1
        rw [hends.trace, hbody, hnil, hn]
        cases cleared <;> simp
    | again l' =>
      rw [hnext] at hround hrun
      obtain ⟨hpre, hdirty, hsame⟩ := hround
      refine ih hrun ?_
      rcases hpasses with hhead | ⟨hsilent, hnil⟩
      · exact Or.inl (head?_of_starts hpre hhead)
      · have htrace : l'.state.trace = [] := (hsame hsilent.1).trans hnil
        exact Or.inr ⟨⟨htrace, by rw [hdirty, htrace]; rfl⟩, hsilent.2⟩

/-- The round that a run ends with. -/
theorem runRounds_last
    {pre : List Round}
    (hclear : .clear ∉ l.state.trace)
    (hpre : runRounds opts flag l pre = none)
    (hrun : runRounds opts flag l (pre ++ [r]) = some res) :
    ∃ l', .clear ∉ l'.state.trace ∧ runRound opts flag l' r = .ends res := by
  induction pre generalizing l with
  | nil =>
    refine ⟨l, hclear, ?_⟩
    rw [List.nil_append, runRounds] at hrun
    cases hround : runRound opts flag l r with
    | ends res' =>
      rw [hround] at hrun
      rw [Option.some.inj hrun]
    | again l' =>
      rw [hround] at hrun
      cases hrun
  | cons q pre ih =>
    have hleft := runRound_left opts flag q hclear
    rw [runRounds] at hpre
    rw [List.cons_append, runRounds] at hrun
    cases hround : runRound opts flag l q with
    | ends res' =>
      rw [hround] at hpre
      cases hpre
    | again l' =>
      rw [hround] at hpre hrun hleft
      exact ih hleft.1 hpre hrun

end Guard

section Runs

variable {opts : Options} {start : Start} {rounds : List Round} {res : RunResult}

/-- A round in which the scan of the index entries writes two repairs. -/
def twoRepairs : Round :=
  roundWith .scanIndexEntries ⟨2, 2, 2, false⟩

end Runs

end NtfsPlus.Ntfsck

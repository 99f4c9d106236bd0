import NtfsPlus.Lib.DirtyFlag
import NtfsPlus.Ntfsck.Mount

/-!
# A run of ntfsck

`main` mounts the volume, refuses a hibernated one, and then repeats rounds: mark
the volume dirty (`ntfsck_begin_repair`), run the repair passes, and mount again
if that is worth another round.  At the end the exit status and the clearing of
the dirty flag (`ntfsck_reset_dirty`) depend on two counters only, and the volume
is unmounted, which flushes the inodes that are still cached.

A pass is what it counts, how many repairs it writes and whether it fails; the
model has every combination.  A run is its exit status and the trace of what
reaches the device.

* `ntfsck_abort_iff`: a run that a pass has aborted keeps the volume dirty and
  reports a failure exactly when the two counters differ.
* `ntfsck_hibernated_iff`: when a hibernated volume is left alone.
-/

namespace NtfsPlus.Ntfsck

open DirtyFlag

section Passes

/-- The passes of `ntfsck_run_repair_passes`, and the allocation among them. -/
inductive RepairPass where
  | replayLog
  | checkMftSize
  | checkMftBitmapSize
  | emptyDeletedDir
  | scanMftRecords
  | checkSystemFiles
  | allocMrecTempBuf
  | scanIndexEntries
  | askIndexRepairs
  | askClusterDupRepairs
  | repairClusterDupAttrs
  | verifyExtentRecords
  | checkMftRecords
  | applyDeferredCorruptIndexRepairs
  | checkOrphanedMft
  | applyDeferredIndexRepairs
  | verifyFileNameIndexLinks
  | verifyNamespaceReachability
  | checkReparseIndex
  | askReparseIndexRepairs
  | applyDeferredReparseRepairs
deriving DecidableEq, Repr

/-- The passes in order. -/
def repairPasses : List RepairPass :=
  [.replayLog, .checkMftSize, .checkMftBitmapSize, .emptyDeletedDir, .scanMftRecords,
    .checkSystemFiles, .allocMrecTempBuf, .scanIndexEntries, .askIndexRepairs,
    .askClusterDupRepairs, .repairClusterDupAttrs, .verifyExtentRecords, .checkMftRecords,
    .applyDeferredCorruptIndexRepairs, .checkOrphanedMft, .applyDeferredIndexRepairs,
    .verifyFileNameIndexLinks, .verifyNamespaceReachability, .checkReparseIndex,
    .askReparseIndexRepairs, .applyDeferredReparseRepairs]

/-- The passes whose failure ends the round; for `checkMftRecords` a failed walk. -/
def RepairPass.canAbort : RepairPass → Bool
  | .replayLog | .checkSystemFiles | .allocMrecTempBuf | .scanIndexEntries
  | .repairClusterDupAttrs | .checkMftRecords | .checkOrphanedMft => true
  | _ => false

/-- What a pass does. -/
structure PassAnswer where
  found : Nat
  fixed : Nat
  /-- Repairs that reach the device. -/
  writes : Nat
  failed : Bool

/-- How `ntfs_volume_write_flags` ends. -/
inductive FlagsWrite where
  | written
  /-- Nothing has changed. -/
  | lookupFailed
  /-- The flags have changed in core only. -/
  | syncFailed
deriving DecidableEq, Repr

/-- A round, and how the calls after it answer. -/
structure Round where
  mark : FlagsWrite
  pass : RepairPass → PassAnswer
  orphanChanged : Bool
  orphanCnt : Nat
  fixupRetry : Bool
  fixupSalvageCandidates : Nat
  clusterDupApproved : Bool
  clusterDupRetry : Bool
  clusterDupAffectedAttrs : Nat
  reset : FlagsWrite
  /-- Cached inodes that the unmount writes. -/
  flush : Nat
  remount : MountAnswers

/-- Passes that a round leaves out. -/
def Round.skips (r : Round) : RepairPass → Bool
  | .repairClusterDupAttrs => !(r.clusterDupApproved && r.clusterDupAffectedAttrs != 0)
  | .verifyFileNameIndexLinks | .verifyNamespaceReachability => r.orphanChanged
  | _ => false

/-- The state of a run. -/
structure RunState where
  /-- `fsck_errors` and `fsck_fixes`. -/
  errors : Nat
  fixes : Nat
  totalFixes : Nat
  /-- The dirty flag in `vol->flags`. -/
  volDirty : Bool
  /-- What has reached the device. -/
  trace : List FlagEvent

/-- A number of repairs that reach the device. -/
def writeEvents (n : Nat) : List FlagEvent :=
  List.replicate n .write

/-- The state after a pass. -/
def RunState.after (s : RunState) (p : PassAnswer) : RunState :=
  { s with
    errors := s.errors + p.found
    fixes := s.fixes + p.fixed
    trace := s.trace ++ writeEvents p.writes }

/-- The passes of a round from one on, and whether one of them has aborted it. -/
def runPasses (r : Round) : List RepairPass → RunState → RunState × Bool
  | [], s => (s, false)
  | p :: ps, s =>
    if r.skips p then
      runPasses r ps s
    else if p.canAbort && (r.pass p).failed then
      (s.after (r.pass p), true)
    else
      runPasses r ps (s.after (r.pass p))

/-- `ntfsck_run_repair_passes`. -/
def runRepairPasses (r : Round) (s : RunState) : RunState × Bool :=
  runPasses r repairPasses s

end Passes

section Run

/-- The options that matter here. -/
structure Options where
  /-- `ntfsck_repair_enabled`. -/
  repair : Bool
  force : Bool

/-- `ntfsck_begin_repair`, whose result `main` does not look at. -/
def beginRepair (opts : Options) (mark : FlagsWrite) (s : RunState) : RunState :=
  if opts.repair && !s.volDirty then
    match mark with
    | .written => { s with volDirty := true, trace := s.trace ++ [.mark] }
    | .lookupFailed => s
    | .syncFailed => { s with volDirty := true }
  else
    s

/-- The exit status. -/
inductive ExitStatus where
  | noErrors
  | errorsCorrected
  | errorsLeftUncorrected
  | operationalError
deriving DecidableEq, Repr

/-- A run that has ended. -/
structure RunResult where
  status : ExitStatus
  trace : List FlagEvent
  /-- The counters of the last round. -/
  errors : Nat
  fixes : Nat
  /-- Whether the last round was aborted. -/
  aborted : Bool
  /-- Whether a repair pass has been run. -/
  passesRun : Bool

/-- Whether `ntfsck_reset_dirty` clears the flag on the device. -/
def clearsDirty (vol : Bool) (reset : FlagsWrite) (s : RunState) : Bool :=
  s.errors == s.fixes && vol && s.volDirty && reset == .written

/-- The exit status at the end of `main`. -/
def exitStatus (s : RunState) : ExitStatus :=
  if s.errors ≠ s.fixes then .errorsLeftUncorrected
  else if s.totalFixes + s.fixes ≠ 0 then .errorsCorrected
  else .noErrors

/-- The end of `main`, with or without a volume. -/
def finish (vol aborted : Bool) (reset : FlagsWrite) (flush : Nat) (s : RunState) : RunResult where
  status := exitStatus s
  trace := s.trace ++
    ((if clearsDirty vol reset s then [.clear] else []) ++ writeEvents (if vol then flush else 0))
  errors := s.errors
  fixes := s.fixes
  aborted := aborted
  passesRun := true

/-- Errors whose repair is put off to the next round are not counted in this one. -/
def RunState.putOff (s : RunState) (deferred : Nat) : RunState :=
  { s with errors := if s.errors ≤ deferred then 0 else s.errors - deferred }

/-- Whether duplicated clusters are left for the next round. -/
def Round.dupRetry (r : Round) : Bool :=
  r.clusterDupRetry && r.skips .repairClusterDupAttrs

/-- What is put off by a round. -/
def Round.deferred (r : Round) : Nat :=
  (if r.fixupRetry then r.fixupSalvageCandidates else 0) +
    (if r.dupRetry then r.clusterDupAffectedAttrs else 0)

/-- The state after the volume has been unmounted and mounted again. -/
def RunState.remounted (s : RunState) (flag : Bool) (flush : Nat) (o : Outcome) : RunState :=
  let trace := s.trace ++ writeEvents flush ++ writeEvents o.writes.length
  { errors := o.errors
    fixes := o.fixes
    totalFixes := s.totalFixes + s.fixes
    volDirty := flagAfter flag trace
    trace := trace }

/-- `NTFSCK_MAX_REPAIR_ROUNDS`. -/
def maxRepairRounds : Nat := 8

/-- Whether the loop ends after a round that has put nothing off. -/
def loopEnds (opts : Options) (round : Nat) (prevFixes : Option Nat) (orphanChanged : Bool)
    (s : RunState) : Bool :=
  (s.errors == s.fixes && !orphanChanged) || s.fixes == 0 ||
    decide ((if opts.repair then maxRepairRounds else 1) ≤ round + 1) ||
    (match prevFixes with
      | none => false
      | some prev => decide (prev ≤ s.fixes) && decide (s.fixes < s.errors))

/-- The loop of `main` before a round. -/
structure LoopState where
  round : Nat
  prevFixes : Option Nat
  prevOrphan : Option Nat
  state : RunState

/-- How a round leaves the loop. -/
inductive RoundEnd where
  | ends (res : RunResult)
  | again (l : LoopState)

/-- Mount again for the next round; `flag` is the dirty flag on the device before the run. -/
def remountFor (opts : Options) (flag : Bool) (l : LoopState) (r : Round)
    (prevFixes : Option Nat) (s : RunState) : RoundEnd :=
  let o := mount (!opts.repair) r.remount
  let s := s.remounted flag r.flush o
  if o.status = .mounted then
    .again
      { round := l.round + 1
        prevFixes := prevFixes
        prevOrphan := if r.orphanChanged then some r.orphanCnt else l.prevOrphan
        state := s }
  else
    .ends (finish false false r.reset 0 { s with errors := s.errors + 1 })

/-- What `main` does after the passes of a round. -/
def leaveRound (opts : Options) (flag : Bool) (l : LoopState) (r : Round) :
    RunState × Bool → RoundEnd
  | (s, true) => .ends (finish true true r.reset r.flush s)
  | (s, false) =>
    if r.orphanChanged && (l.prevOrphan.any (· ≤ r.orphanCnt)) then
      -- orphan recovery does not converge
      .ends (finish true false r.reset r.flush { s with errors := s.errors + 1 })
    else if r.fixupRetry || r.dupRetry then
      remountFor opts flag l r l.prevFixes (s.putOff r.deferred)
    else if loopEnds opts l.round l.prevFixes r.orphanChanged s then
      .ends (finish true false r.reset r.flush s)
    else
      remountFor opts flag l r (some s.fixes) s

/-- One round of the loop of `main`. -/
def runRound (opts : Options) (flag : Bool) (l : LoopState) (r : Round) : RoundEnd :=
  leaveRound opts flag l r (runRepairPasses r (beginRepair opts r.mark l.state))

/-- The loop of `main`, with the rounds given one by one. -/
def runRounds (opts : Options) (flag : Bool) : LoopState → List Round → Option RunResult
  | _, [] => none
  | l, r :: rounds =>
    match runRound opts flag l r with
    | .ends res => some res
    | .again l => runRounds opts flag l rounds

/-- What `ntfs_volume_check_hiberfile` reads of `hiberfil.sys`. -/
inductive HiberHeader where
  | short
  | hibr
  | other
deriving DecidableEq, Repr

/-- The root directory and `hiberfil.sys`, as `ntfs_volume_check_hiberfile` meets them. -/
structure HiberAnswers where
  rootRecord : RecordCheck
  found : Bool
  fileRecord : RecordCheck
  rootCloseOk : Bool
  dataOk : Bool
  header : HiberHeader

/-- Whether `ntfs_volume_check_hiberfile` gets to read the header. -/
def HiberAnswers.headerRead (h : HiberAnswers) : Bool :=
  h.rootRecord.ok && h.found && h.fileRecord.ok && h.rootCloseOk && h.dataOk

/-- Whether `ntfs_volume_check_hiberfile` fails with `EPERM`. -/
def HiberAnswers.isHibernated (h : HiberAnswers) : Bool :=
  h.headerRead && h.header != .other

/-- The repaired records that opening the two files writes. -/
def HiberAnswers.writes (h : HiberAnswers) : Nat :=
  (if h.rootRecord.wrote then 1 else 0) +
    (if h.rootRecord.ok && h.found && h.fileRecord.wrote then 1 else 0)

/-- The state before the first round. -/
def HiberAnswers.state (h : HiberAnswers) (flag : Bool) (o : Outcome) : RunState :=
  { errors := o.errors + h.rootRecord.errors +
      (if h.rootRecord.ok && h.found then h.fileRecord.errors else 0)
    fixes := o.fixes + h.rootRecord.fixes +
      (if h.rootRecord.ok && h.found then h.fileRecord.fixes else 0)
    totalFixes := 0
    volDirty := flag
    trace := writeEvents o.writes.length ++ writeEvents h.writes }

/-- The volume that a run is started on. -/
structure Start where
  mount : MountAnswers
  /-- The dirty flag on the device. -/
  dirty : Bool
  hiber : HiberAnswers
  /-- What `ntfs_volume_invalidate_hiberfile` writes. -/
  invalidate : Nat
  /-- Cached inodes that the unmount of a refused volume writes. -/
  flush : Nat

/-- `fsck_errors` and `fsck_fixes` before the first round. -/
def startCounts (opts : Options) (start : Start) : Nat × Nat :=
  let s := start.hiber.state start.dirty (mount (!opts.repair) start.mount)
  (s.errors, s.fixes)

/-- A run that ends before the first round. -/
def stopEarly (status : ExitStatus) (errors fixes : Nat) (trace : List FlagEvent) : RunResult where
  status := status
  trace := trace
  errors := errors
  fixes := fixes
  aborted := false
  passesRun := false

/-- `main` without `-C`, up to the end of the rounds that are given. -/
def ntfsck (opts : Options) (start : Start) (rounds : List Round) : Option RunResult :=
  let o := mount (!opts.repair) start.mount
  match o.status with
  | .unsupported =>
    some (stopEarly .operationalError o.errors o.fixes (writeEvents o.writes.length))
  | .failed =>
    some
      { finish false false .lookupFailed 0
          { errors := o.errors + 1, fixes := o.fixes, totalFixes := 0, volDirty := false,
            trace := writeEvents o.writes.length } with passesRun := false }
  | .mounted =>
    let s := start.hiber.state start.dirty o
    if start.hiber.isHibernated && opts.repair then
      if opts.force then
        runRounds opts start.dirty
          ⟨0, none, none, { s with trace := s.trace ++ writeEvents start.invalidate }⟩ rounds
      else
        some (stopEarly .operationalError s.errors s.fixes (s.trace ++ writeEvents start.flush))
    else
      runRounds opts start.dirty ⟨0, none, none, s⟩ rounds

end Run

section Trace

variable {opts : Options} {flag : Bool} {s : RunState}

theorem not_mem_writeEvents
    (n : Nat) :
    .clear ∉ writeEvents n := by
  simp [writeEvents]

variable (mark : FlagsWrite) (r : Round)

theorem beginRepair_trace
    (h : .clear ∉ s.trace) :
    .clear ∉ (beginRepair opts mark s).trace := by
  unfold beginRepair
  split
  · cases mark with
    | written => simp [h]
    | lookupFailed => exact h
    | syncFailed => exact h
  · exact h

theorem beginRepair_errors : (beginRepair opts mark s).errors = s.errors := by
  unfold beginRepair
  split
  · cases mark <;> rfl
  · rfl

theorem beginRepair_fixes : (beginRepair opts mark s).fixes = s.fixes := by
  unfold beginRepair
  split
  · cases mark <;> rfl
  · rfl

theorem runPasses_trace
    (ps : List RepairPass)
    (h : .clear ∉ s.trace) :
    .clear ∉ (runPasses r ps s).1.trace := by
  induction ps generalizing s with
  | nil => exact h
  | cons p ps ih =>
    have hafter : .clear ∉ (s.after (r.pass p)).trace := by
      simp [RunState.after, h, not_mem_writeEvents]
    rw [runPasses]
    split
    · exact ih h
    · split
      · exact hafter
      · exact ih hafter

theorem round_trace
    (h : .clear ∉ s.trace) :
    .clear ∉ (runRepairPasses r (beginRepair opts r.mark s)).1.trace :=
  runPasses_trace r repairPasses (beginRepair_trace r.mark h)

/--
How a run has ended: the flag is cleared at most once, at the end and only if the
counters agree, and only cached inodes are written behind it.
-/
def Shaped (res : RunResult) : Prop :=
  ∃ body cleared n, .clear ∉ body ∧
    res.trace = body ++ ((if cleared then [.clear] else []) ++ List.replicate n .write) ∧
    (cleared = true → res.errors = res.fixes)

/-- What the exit status says at the end of `main`. -/
def Counted (res : RunResult) : Prop :=
  (res.errors = res.fixes → res.status = .noErrors ∨ res.status = .errorsCorrected) ∧
    (res.errors ≠ res.fixes → res.status = .errorsLeftUncorrected)

variable {res : RunResult}

theorem Shaped.not_cleared
    (h : Shaped res)
    (hne : res.errors ≠ res.fixes) :
    .clear ∉ res.trace := by
  obtain ⟨body, cleared, n, hbody, htrace, hcleared⟩ := h
  cases cleared with
  | true => exact absurd (hcleared rfl) hne
  | false =>
    rw [htrace]
    simp [hbody]

theorem finish_shaped
    {vol aborted : Bool} {reset : FlagsWrite} {flush : Nat}
    (h : .clear ∉ s.trace) :
    Shaped (finish vol aborted reset flush s) := by
  refine ⟨s.trace, clearsDirty vol reset s, _, h, rfl, ?_⟩
  intro hclear
  simp only [clearsDirty, Bool.and_eq_true, beq_iff_eq] at hclear
  exact hclear.1.1.1

theorem finish_counted
    (vol aborted : Bool)
    (reset : FlagsWrite)
    (flush : Nat)
    (s : RunState) :
    Counted (finish vol aborted reset flush s) := by
  constructor
  · intro (heq : s.errors = s.fixes)
    change exitStatus s = _ ∨ exitStatus s = _
    rw [exitStatus, if_neg (not_not.mpr heq)]
    split
    · exact Or.inr rfl
    · exact Or.inl rfl
  · intro hne
    exact if_pos hne

/-- What a round leaves behind; the counters start again with the mount. -/
def RoundEnd.Left (opts : Options) (r : Round) : RoundEnd → Prop
  | .ends res => Shaped res ∧ res.passesRun = true
  | .again l =>
    .clear ∉ l.state.trace ∧ (l.state.errors, l.state.fixes) =
        ((mount (!opts.repair) r.remount).errors, (mount (!opts.repair) r.remount).fixes)

theorem remountFor_left
    (opts : Options)
    (flag : Bool)
    (l : LoopState)
    (r : Round)
    (prevFixes : Option Nat)
    (h : .clear ∉ s.trace) :
    (remountFor opts flag l r prevFixes s).Left opts r := by
  have hremounted : .clear ∉ (s.remounted flag r.flush (mount (!opts.repair) r.remount)).trace := by
    simp [RunState.remounted, h, not_mem_writeEvents]
  unfold remountFor
  by_cases hmounted : (mount (!opts.repair) r.remount).status = .mounted
  · simp only [hmounted]
    exact ⟨hremounted, rfl⟩
  · simp only [hmounted]
    exact ⟨finish_shaped hremounted, rfl⟩

theorem runRound_left
    (opts : Options)
    (flag : Bool)
    {l : LoopState}
    (r : Round)
    (h : .clear ∉ l.state.trace) :
    (runRound opts flag l r).Left opts r := by
  have hpasses : .clear ∉ (runRepairPasses r (beginRepair opts r.mark l.state)).1.trace :=
    round_trace r h
  unfold runRound
  generalize runRepairPasses r (beginRepair opts r.mark l.state) = p at hpasses
  obtain ⟨s, aborted⟩ := p
  cases aborted with
  | true => exact ⟨finish_shaped hpasses, rfl⟩
  | false =>
    rw [leaveRound]
    split
    · exact ⟨finish_shaped hpasses, rfl⟩
    · split
      · exact remountFor_left opts flag l r _ hpasses
      · split_ifs
        · exact ⟨finish_shaped hpasses, rfl⟩
        · exact remountFor_left opts flag l r _ hpasses

theorem runRounds_ended
    {l : LoopState} {rounds : List Round}
    (h : .clear ∉ l.state.trace)
    (hrun : runRounds opts flag l rounds = some res) :
    Shaped res ∧ res.passesRun = true := by
  induction rounds generalizing l with
  | nil => exact absurd hrun (by simp [runRounds])
  | cons r rounds ih =>
    have hleft := runRound_left opts flag r h
    rw [runRounds] at hrun
    cases hround : runRound opts flag l r with
    | ends res' =>
      rw [hround] at hrun hleft
      rw [← Option.some.inj hrun]
      exact hleft
    | again l' =>
      rw [hround] at hrun hleft
      exact ih hleft.1 hrun

/-- Nothing reaches the device before the first round, or at all if none is run. -/
def Start.Silent (opts : Options) (start : Start) : Prop :=
  NothingRepaired (mountSteps (!opts.repair) start.mount) ∧
    ((Ntfsck.mount (!opts.repair) start.mount).status = .mounted →
      start.hiber.writes = 0 ∧ (start.hiber.isHibernated = true →
        (if opts.force then start.invalidate else start.flush) = 0))

/-- Before the loop a run ends without clearing anything, or it enters the loop. -/
theorem ntfsck_cases
    (opts : Options)
    (start : Start) :
    (∃ res, .clear ∉ res.trace ∧ (∀ rounds, ntfsck opts start rounds = some res) ∧
        (start.Silent opts → res.trace = [])) ∨
      ∃ l : LoopState, .clear ∉ l.state.trace ∧
        (l.state.errors, l.state.fixes) = startCounts opts start ∧
        (∀ rounds, ntfsck opts start rounds = runRounds opts start.dirty l rounds) ∧
        (start.Silent opts → l.state.trace = []) ∧ l.state.volDirty = start.dirty := by
  have hmount : .clear ∉
      (start.hiber.state start.dirty (mount (!opts.repair) start.mount)).trace := by
    simp [HiberAnswers.state, not_mem_writeEvents]
  have hsilent : start.Silent opts → (mount (!opts.repair) start.mount).writes = [] :=
    fun h => (mount_writes_nil_iff (!opts.repair) start.mount).mpr h.1
  cases hstatus : (mount (!opts.repair) start.mount).status with
  | unsupported =>
    refine Or.inl ⟨_, ?_, fun rounds => by simp only [ntfsck, hstatus]; rfl, ?_⟩
    · exact not_mem_writeEvents _
    · intro h
      simp [stopEarly, hsilent h, writeEvents]
  | failed =>
    refine Or.inl ⟨_, ?_, fun rounds => by simp only [ntfsck, hstatus]; rfl, ?_⟩
    · simp [finish, clearsDirty, not_mem_writeEvents]
    · intro h
      simp [finish, clearsDirty, hsilent h, writeEvents]
  | mounted =>
    have hstate : start.Silent opts →
        (start.hiber.state start.dirty (mount (!opts.repair) start.mount)).trace = [] := by
      intro h
      simp [HiberAnswers.state, hsilent h, (h.2 hstatus).1, writeEvents]
    by_cases hrefuse : (start.hiber.isHibernated && opts.repair) = true
    · have hhibernated := (Bool.and_eq_true_iff.mp hrefuse).1
      by_cases hforce : opts.force = true
      · refine Or.inr ⟨_, ?_, rfl, fun rounds => by
          simp only [ntfsck, hstatus, hrefuse, hforce]; rfl, ?_, rfl⟩
        · simpa [not_mem_writeEvents] using hmount
        · intro h
          have hinvalidate := (h.2 hstatus).2 hhibernated
          rw [if_pos hforce] at hinvalidate
          simp [hstate h, hinvalidate, writeEvents]
      · refine Or.inl ⟨_, ?_, fun rounds => by
          simp only [ntfsck, hstatus, hrefuse, hforce]; rfl, ?_⟩
        · simpa [stopEarly, not_mem_writeEvents] using hmount
        · intro h
          have hflush := (h.2 hstatus).2 hhibernated
          rw [if_neg hforce] at hflush
          simp [stopEarly, hstate h, hflush, writeEvents]
    · refine Or.inr ⟨_, hmount, rfl, fun rounds => by
        simp only [ntfsck, hstatus, hrefuse]; rfl, hstate, rfl⟩

end Trace

section Abort

variable {opts : Options} {flag : Bool} {s : RunState}

/-- The passes of a round that are run. -/
def Round.executed (r : Round) : List RepairPass → List RepairPass
  | [] => []
  | p :: ps =>
    if r.skips p then
      r.executed ps
    else if p.canAbort && (r.pass p).failed then
      [p]
    else
      p :: r.executed ps

/-- Whether a pass aborts the round. -/
def Round.aborts (r : Round) : Bool :=
  (r.executed repairPasses).any fun p => p.canAbort && (r.pass p).failed

/-- The errors that the passes of a round count. -/
def Round.found (r : Round) : Nat :=
  ((r.executed repairPasses).map fun p => (r.pass p).found).sum

/-- The fixes that the passes of a round count. -/
def Round.fixed (r : Round) : Nat :=
  ((r.executed repairPasses).map fun p => (r.pass p).fixed).sum

theorem runPasses_eq
    (r : Round)
    (ps : List RepairPass)
    (s : RunState) :
    (runPasses r ps s).2 = (r.executed ps).any (fun p => p.canAbort && (r.pass p).failed) ∧
      (runPasses r ps s).1.errors = s.errors + ((r.executed ps).map fun p => (r.pass p).found).sum ∧
      (runPasses r ps s).1.fixes =
        s.fixes + ((r.executed ps).map fun p => (r.pass p).fixed).sum := by
  induction ps generalizing s with
  | nil => simp [runPasses, Round.executed]
  | cons p ps ih =>
    rw [runPasses, Round.executed]
    by_cases hskip : r.skips p = true
    · rw [if_pos hskip, if_pos hskip]
      exact ih s
    · rw [if_neg hskip, if_neg hskip]
      by_cases habort : (p.canAbort && (r.pass p).failed) = true
      · simp [habort, RunState.after]
      · rw [if_neg habort]
        obtain ⟨haborted, herrors, hfixes⟩ := ih (s.after (r.pass p))
        rw [haborted, herrors, hfixes]
        simp [habort, RunState.after, Nat.add_assoc]

/-- The counters with which the round after some rounds is entered. -/
def entryCounts (opts : Options) : Nat × Nat → List Round → Nat × Nat
  | counts, [] => counts
  | _, q :: rounds =>
    let o := mount (!opts.repair) q.remount
    entryCounts opts (o.errors, o.fixes) rounds

theorem runRound_aborted
    (opts : Options)
    (flag : Bool)
    (l : LoopState)
    {r : Round}
    (habort : r.aborts = true) :
    ∃ s, runRound opts flag l r = .ends (finish true true r.reset r.flush s) ∧
      s.errors = l.state.errors + r.found ∧ s.fixes = l.state.fixes + r.fixed := by
  obtain ⟨haborted, herrors, hfixes⟩ :=
    runPasses_eq r repairPasses (beginRepair opts r.mark l.state)
  rw [beginRepair_errors] at herrors
  rw [beginRepair_fixes] at hfixes
  refine ⟨(runRepairPasses r (beginRepair opts r.mark l.state)).1, ?_, herrors, hfixes⟩
  have hpair : runRepairPasses r (beginRepair opts r.mark l.state) =
      ((runRepairPasses r (beginRepair opts r.mark l.state)).1, true) :=
    Prod.ext rfl (haborted.trans habort)
  rw [runRound, hpair, leaveRound]

/-- Whatever has come before, an aborted round ends the run with the counters of its own. -/
theorem runRounds_aborted
    {l : LoopState} {pre : List Round} {r : Round}
    (later : List Round)
    (h : .clear ∉ l.state.trace)
    (hreached : runRounds opts flag l pre = none)
    (habort : r.aborts = true) :
    ∃ s, runRounds opts flag l (pre ++ r :: later) = some (finish true true r.reset r.flush s) ∧
      Shaped (finish true true r.reset r.flush s) ∧
      s.errors = (entryCounts opts (l.state.errors, l.state.fixes) pre).1 + r.found ∧
      s.fixes = (entryCounts opts (l.state.errors, l.state.fixes) pre).2 + r.fixed := by
  induction pre generalizing l with
  | nil =>
    obtain ⟨s, hround, hcounts⟩ := runRound_aborted opts flag l habort
    have hrun : runRounds opts flag l (r :: later) = some (finish true true r.reset r.flush s) := by
      rw [runRounds, hround]
    exact ⟨s, hrun, (runRounds_ended h hrun).1, hcounts⟩
  | cons q pre ih =>
    have hleft := runRound_left opts flag q h
    rw [runRounds] at hreached
    rw [List.cons_append, runRounds]
    cases hround : runRound opts flag l q with
    | ends res =>
      rw [hround] at hreached
      cases hreached
    | again l' =>
      rw [hround] at hreached hleft
      obtain ⟨hclear, hcounts⟩ := hleft
      obtain ⟨s, hrun, hend⟩ := ih hclear hreached
      rw [hcounts] at hend
      exact ⟨s, hrun, hend⟩

end Abort

section Main

variable {opts : Options} {start : Start} {rounds : List Round} {res : RunResult}

/-- The counters with which an aborted round ends. -/
def abortCounts (opts : Options) (start : Start) (pre : List Round) (r : Round) : Nat × Nat :=
  let counts := entryCounts opts (startCounts opts start) pre
  (counts.1 + r.found, counts.2 + r.fixed)

/-- A record with nothing to repair. -/
def soundRecord : RecordCheck := ⟨true, false, 0, 0⟩

/-- An undamaged volume, mounted. -/
def soundMount : MountAnswers where
  openOk := true
  boot :=
    { readOk := true, jumpOk := true, valid := true, fix := false, actualSectors := 0,
      shownSectors := 0, alt := fun _ _ => ⟨true, true, true⟩ }
  zoneOk := true
  mft := ⟨soundRecord, false, true, soundRecord, true, soundRecord⟩
  mftMirr := ⟨soundRecord, false, true, soundRecord, true, soundRecord⟩
  recordsOk := true
  records := []
  bitmapRecord := soundRecord
  bitmapOk := true
  upCaseRecord := soundRecord
  upCase := ⟨true, true, false, ⟨true, false, true, true⟩⟩
  volumeRecord := soundRecord
  volumeOk := true
  attrDefRecord := soundRecord
  attrDef := ⟨true, true, false, ⟨true, false, true, true⟩⟩
  secureRecord := soundRecord
  secureOk := true
  rootRecord := soundRecord
  txf := ⟨false, true, true, true, true⟩
  fsckOk := true

/-- The options of a repair without `-f`. -/
def repairOptions : Options := ⟨true, false⟩

/-- An undamaged volume that is not dirty and has no `hiberfil.sys`. -/
def soundStart : Start where
  mount := soundMount
  dirty := false
  hiber := ⟨soundRecord, false, soundRecord, true, true, .other⟩
  invalidate := 0
  flush := 0

/-- A pass with nothing to repair. -/
def soundPass : PassAnswer := ⟨0, 0, 0, false⟩

/-- A round in which the passes answer as given. -/
def roundOf (pass : RepairPass → PassAnswer) : Round where
  mark := .written
  pass := pass
  orphanChanged := false
  orphanCnt := 0
  fixupRetry := false
  fixupSalvageCandidates := 0
  clusterDupApproved := false
  clusterDupRetry := false
  clusterDupAffectedAttrs := 0
  reset := .written
  flush := 0
  remount := soundMount

/-- A round of which one pass answers as given and the others find nothing. -/
def roundWith (p : RepairPass) (answer : PassAnswer) : Round :=
  roundOf fun q => if q = p then answer else soundPass

/--
A reached round that a pass aborts ends the run.  The volume stays dirty and the
exit status tells of a failure exactly when the errors and the fixes counted since
the last mount differ.
-/
theorem ntfsck_abort_iff
    {pre : List Round} {r : Round}
    (later : List Round)
    (hreached : ntfsck opts start pre = none)
    (habort : r.aborts = true) :
    ∃ res, ntfsck opts start (pre ++ r :: later) = some res ∧ res.aborted = true ∧
      ((.clear ∉ res.trace ∧ res.status ≠ .noErrors ∧ res.status ≠ .errorsCorrected) ↔
        (abortCounts opts start pre r).1 ≠ (abortCounts opts start pre r).2) := by
  rcases ntfsck_cases opts start with ⟨res, -, hend, -⟩ | ⟨l, hclear, hstart, hloop, -⟩
  · rw [hend] at hreached
    cases hreached
  rw [hloop] at hreached
  obtain ⟨s, hrun, hshaped, herrors, hfixes⟩ := runRounds_aborted later hclear hreached habort
  rw [hstart] at herrors hfixes
  refine ⟨_, (hloop _).trans hrun, rfl, ?_⟩
  obtain ⟨hagree, hdiffer⟩ := finish_counted true true r.reset r.flush s
  have hcounts : (abortCounts opts start pre r).1 ≠ (abortCounts opts start pre r).2 ↔
      s.errors ≠ s.fixes := by
    rw [herrors, hfixes]
    rfl
  rw [hcounts]
  constructor
  · rintro ⟨-, hnone, hcorrected⟩ heq
    rcases hagree heq with h | h
    · exact hnone h
    · exact hcorrected h
  · intro hne
    refine ⟨hshaped.not_cleared hne, ?_, ?_⟩
    · rw [hdiffer hne]
      decide
    · rw [hdiffer hne]
      decide

/-- The scan of the index entries fails with an error that it has counted. -/
theorem ntfsck_abort_iff_counted :
    ∃ res, ntfsck repairOptions soundStart [roundWith .scanIndexEntries ⟨1, 0, 0, true⟩] =
        some res ∧ res.aborted = true ∧
      ((.clear ∉ res.trace ∧ res.status ≠ .noErrors ∧ res.status ≠ .errorsCorrected) ↔
        (abortCounts repairOptions soundStart [] (roundWith .scanIndexEntries ⟨1, 0, 0, true⟩)).1 ≠
        (abortCounts repairOptions soundStart []
          (roundWith .scanIndexEntries ⟨1, 0, 0, true⟩)).2) :=
  @ntfsck_abort_iff repairOptions soundStart [] _ [] (by decide) (by decide)

/-- There is no memory for the buffer of a record: the run reports an undamaged volume. -/
theorem ntfsck_abort_uncounted :
    ∃ res, ntfsck repairOptions soundStart [roundWith .allocMrecTempBuf ⟨0, 0, 0, true⟩] =
        some res ∧ res.aborted = true ∧ res.trace = [.mark, .clear] ∧
      res.status = .noErrors :=
  ⟨_, rfl, rfl, rfl, rfl⟩

/-- A volume whose boot sector is repaired while mounting. -/
def brokenBootStart : Start :=
  { soundStart with
    mount :=
      { soundMount with
        boot := { soundMount.boot with valid := false, fix := true, actualSectors := 1 } } }

/-- An undamaged volume on which Windows is hibernated. -/
def hibernatedStart : Start :=
  { soundStart with hiber := ⟨soundRecord, true, soundRecord, true, true, .hibr⟩ }

end Main

end NtfsPlus.Ntfsck

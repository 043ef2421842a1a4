import ScopeVcs.Runs.ReadBack
import ScopeVcs.Runs.Reconciliation

/-! # Failed operations on a run

An operation writes in place, so a failure after the first write leaves a trace. Every operation
checks what it needs before it writes, except that a first report of truncated logs is written down
before the clock and the conclusion are checked.
-/

namespace ScopeVcs

open Mutation Relation

/-! ## Calls -/

namespace RunAggregate

/-- An operation as it is called: on which of the jobs and attempts, and with which arguments. -/
inductive Call where
  | dispatch (j : ℕ) (definition : WorkflowJob) (attemptId tokenHash runtimeVersion : String)
      (nowUnix leaseExpiresAtUnix : ℕ)
  | attempt (j a : ℕ) (op : AttemptOp)
  | expireCapacityRetry (j nowUnix : ℕ)
  | run (op : RunOp)
  deriving DecidableEq

def putJob (j : ℕ) (state : RunAggregate) (job : RunJob) : RunAggregate :=
  { state with jobs := state.jobs.set j job }

/-- Runs an operation on one job in place. -/
def onJob {α : Type} (j : ℕ) (op : EStateM DomainError RunJob α) :
    EStateM DomainError RunAggregate (Option α) :=
  onPart (fun state => state.jobs[j]?) (putJob j) op

/-- Runs an operation on an attempt and a job in place. -/
def onHeld {α : Type} (j a : ℕ) (op : HeldM α) : EStateM DomainError RunAggregate (Option α) :=
  onPart (fun state => state.held? j a) (fun state => state.setHeld j a) op

def withJobs (state : RunAggregate) : RunWithJobs := ⟨state.run, state.jobs⟩

def putWithJobs (state : RunAggregate) (result : RunWithJobs) : RunAggregate :=
  { state with run := result.run, jobs := result.jobs }

/-- Runs an operation on the run and all its jobs in place. -/
def onRun {α : Type} (op : EStateM DomainError RunWithJobs α) :
    EStateM DomainError RunAggregate (Option α) :=
  onPart (fun state => some state.withJobs) putWithJobs op

def Call.perform : Call → EStateM DomainError RunAggregate Unit
  | .dispatch j definition attemptId tokenHash runtimeVersion now lease => do
    let state ← get
    let attempt ← onJob j
      (RunJob.dispatch state.run definition attemptId tokenHash runtimeVersion now lease)
    modify fun state => { state with attempts := state.attempts ++ attempt.toList }
  | .attempt j a op => do
    let state ← get
    let _ ← onHeld j a (op.run state.run)
  | .expireCapacityRetry j now => do
    let _ ← onJob j (RunJob.expireCapacityRetry now)
  | .run op => do
    let _ ← onRun op.run

/-- A call that succeeds is a step of the run, or names no job or attempt there is. -/
theorem Call.step {call : Call} {state state' : RunAggregate} {u : Unit}
    (h : call.perform.run state = .ok u state') :
    state' = state ∨ Step (fun _ _ => True) state state' := by
  cases call with
  | dispatch j definition attemptId tokenHash runtimeVersion now lease =>
    simp only [Call.perform, get_bind_eq_ok] at h
    obtain ⟨attempt?, mid, hjob, h⟩ := bind_eq_ok.mp h
    obtain rfl := modify_eq_ok.mp h
    rcases onPart_eq_ok hjob with ⟨-, rfl, rfl⟩ | ⟨job, entry, job', hget, hop, rfl, rfl⟩
    · exact .inl (by simp)
    · exact .inr (.dispatch hget hop)
  | attempt j a op =>
    simp only [Call.perform, get_bind_eq_ok] at h
    obtain ⟨_, mid, hheld, h⟩ := bind_eq_ok.mp h
    obtain ⟨-, rfl⟩ := pure_eq_ok.mp h
    rcases onPart_eq_ok hheld with ⟨-, -, rfl⟩ | ⟨held, u, held', hget, hop, -, rfl⟩
    · exact .inl rfl
    · exact .inr (.attempt hget trivial hop)
  | expireCapacityRetry j now =>
    simp only [Call.perform, bind_eq_ok, pure_eq_ok] at h
    obtain ⟨_, mid, hjob, -, rfl⟩ := h
    rcases onPart_eq_ok hjob with ⟨-, -, rfl⟩ | ⟨job, expired, job', hget, hop, -, rfl⟩
    · exact .inl rfl
    · exact .inr (.expireCapacityRetry hget hop)
  | run op =>
    simp only [Call.perform, bind_eq_ok, pure_eq_ok] at h
    obtain ⟨_, mid, hrun, -, rfl⟩ := h
    rcases onPart_eq_ok hrun with ⟨hnone, -, -⟩ | ⟨before, u, result, hget, hop, -, rfl⟩
    · cases hnone
    · obtain rfl := Option.some_inj.mp hget
      exact .inr (.run hop)

end RunAggregate

/-! ## The condition -/

/-- The operation comes for the running step `stepIndex` of an attempt whose logs were complete so
far, and everything that is checked before the report of truncated logs is in order. -/
structure Held.TakesFirstReport (held : Held) (tokenHash : String) (stepIndex nowUnix : ℕ) : Prop where
  attempt : held.attempt.state.isTerminal = false
  job : held.job.state.isTerminal = false
  authentic : held.attempt.authenticate held.job tokenHash nowUnix = .ok ()
  executes : held.attempt.validateExecution held.steps = .ok ()
  running : ∃ step, held.steps[stepIndex]? = some step ∧ step.state = .running
  unmarked : held.attempt.firstTruncatedStepIndex = none

/-- The caller's clock is behind one of the records. -/
def Held.ahead (held : Held) (nowUnix : ℕ) : Prop :=
  nowUnix < held.attempt.lastHeartbeatAtUnix ∨ nowUnix < held.job.updatedAtUnix

/-- Conclusions that an attempt with a running step cannot come to. -/
def AttemptConclusion.RefusedWhileRunning (run : Run) : AttemptConclusion → Prop
  | .succeeded | .setupFailed _ _ => True
  | .timedOut => False
  | .canceled => run.cancellationRequested = false

/-- The operation writes a first report of truncated logs down and is refused after that. -/
def AttemptOp.RefusedAfterReport (run : Run) (held : Held) : AttemptOp → Prop
  | .completeStep tokenHash stepIndex conclusion true now =>
    held.TakesFirstReport tokenHash stepIndex now ∧ (held.ahead now ∨ conclusion = .failed 0)
  | .complete tokenHash conclusion true now =>
    (∃ stepIndex, held.TakesFirstReport tokenHash stepIndex now) ∧
      (held.ahead now ∨ conclusion.RefusedWhileRunning run)
  | _ => False

def RunAggregate.Call.RefusedAfterReport (state : RunAggregate) : RunAggregate.Call → Prop
  | .attempt j a op =>
    ∃ held, state.held? j a = some held ∧ op.RefusedAfterReport state.run held
  | _ => False

/-! ## Operations on an attempt -/

/-- An attempt that has not started is as it was dispatched: its steps are in order and pending. -/
structure RunAttempt.AsDispatched (attempt : RunAttempt) (steps : List RunAttemptStep) : Prop where
  reason : attempt.terminalReason = none
  steps_ne_nil : steps ≠ []
  inOrder : StepsInOrder attempt.id steps
  pending : ∀ step ∈ steps, step.state = .pending

def Held.AsDispatched (held : Held) : Prop :=
  held.attempt.state = .dispatching → held.attempt.AsDispatched held.steps

namespace RunAttempt

variable {held : Held} {run : Run} {token : String} {now stepIndex : ℕ}

theorem start_atomic : Atomic (start run token now) held := by
  simp only [start, Atomic.check_unit_bind, Atomic.modify, implies_true]

theorem claimRuntime_atomic {newToken : String} {lease : ℕ} :
    Atomic (claimRuntime token newToken now lease) held := by
  simp only [claimRuntime, Atomic.check_unit_bind, Atomic.modify, implies_true]

theorem heartbeat_atomic {lease : ℕ} : Atomic (heartbeat run token now lease) held := by
  simp only [heartbeat, Atomic.check_unit_bind]
  intro _ _ _ _ _
  exact (Atomic.modify _).bind fun _ _ _ => .of_eq_ok (pure_eq_ok.mpr ⟨rfl, rfl⟩)

theorem startPendingStep_atomic : Atomic (startPendingStep run stepIndex now) held := by
  simp only [startPendingStep, Atomic.check_unit_bind, Atomic.get_bind]
  intro _ _
  split
  · exact .throw _
  · split
    · exact .pure _
    · simp only [Atomic.check_unit_bind, Atomic.modify, implies_true]

/-- Once a dispatched attempt has started, so does its first step. -/
theorem startPendingStep_succeeds (hdispatched : held.attempt.AsDispatched held.steps)
    (hattempt : held.attempt.state = .running) (hjob : held.job.state = .running)
    (hrun : run.cancellationRequested = false) (hheartbeat : held.attempt.lastHeartbeatAtUnix ≤ now)
    (htime : held.job.updatedAtUnix ≤ now) : Succeeds (startPendingStep run 0 now) held := by
  obtain ⟨hreason, hne, horder, hpending⟩ := hdispatched
  have haggregate : held.attempt.aggregateMatches held.steps = true := by
    simp only [aggregateMatches, hattempt, hreason, List.all_eq_true, decide_eq_true_eq]
    intro step hstep
    simp [hpending step hstep]
  obtain ⟨first, rest, hsteps⟩ := List.exists_cons_of_ne_nil hne
  have hfirst : first.state = .pending := hpending first (by simp [hsteps])
  refine .of_eq_ok (a := ()) (t := { held with
    steps := held.steps.modify 0 (·.start now)
    job := { held.job with updatedAtUnix := now } }) ?_
  have hget : held.steps[0]? = some first := by
    rw [hsteps]
    rfl
  unfold startPendingStep
  simp only [check_unit_bind_eq_ok, get_bind_eq_ok, rejectIf_eq_ok, hget]
  refine ⟨by simp [hattempt, hjob], validateExecution_of_inOrder hne horder haggregate, ?_⟩
  rw [if_neg (by simp [hfirst])]
  simp only [check_unit_bind_eq_ok, rejectIf_eq_ok, modify_eq_ok,
    ensureTimeNotBeforeHeartbeat_eq_ok, RunJob.ensureTimeNotBeforeUpdate_eq_ok]
  exact ⟨by simp [hrun], by simp [hfirst], by simp, hheartbeat, htime, trivial⟩

theorem startStep_atomic (hdispatched : held.AsDispatched) :
    Atomic (startStep run token stepIndex now) held := by
  simp only [startStep, Atomic.get_bind]
  split
  · rename_i hfirst
    obtain ⟨hstate, rfl⟩ := hfirst
    refine start_atomic.bind fun _ mid hstart => ?_
    simp only [start, check_unit_bind_eq_ok, modify_eq_ok, rejectIf_eq_ok,
      ensureTimeNotBeforeHeartbeat_eq_ok, RunJob.ensureTimeNotBeforeUpdate_eq_ok,
      Bool.not_eq_true] at hstart
    obtain ⟨-, -, hrun, hheartbeat, -, rfl⟩ := hstart
    obtain ⟨hreason, hne, horder, hpending⟩ := hdispatched hstate
    exact startPendingStep_succeeds ⟨hreason, hne, horder, hpending⟩ rfl rfl hrun hheartbeat le_rfl
  · exact Atomic.check_unit_bind.mpr fun _ => startPendingStep_atomic

theorem finishLostOrRequeue_atomic : Atomic (finishLostOrRequeue run now) held := by
  simp only [finishLostOrRequeue, Atomic.check_unit_bind, Atomic.modify, implies_true]

theorem expire_atomic : Atomic (expire run now) held := by
  simp only [expire, Atomic.check_unit_bind, finishLostOrRequeue_atomic, implies_true]

theorem abandon_atomic : Atomic (abandon run token now) held := by
  simp only [abandon, Atomic.check_unit_bind, Atomic.get_bind]
  intro _
  split
  · exact .pure _
  · exact finishLostOrRequeue_atomic

theorem confirmProviderCancellation_atomic :
    Atomic (confirmProviderCancellation run now) held := by
  simp only [confirmProviderCancellation, Atomic.get_bind]
  split
  · exact .pure _
  · simp only [Atomic.check_unit_bind, Atomic.modify, implies_true]

/-- The rejection of the job only compares the time that the attempt was compared with before. -/
theorem rejectCapacity_atomic {message : SetupFailureMessage} :
    Atomic (rejectCapacity run token message now) held := by
  simp only [rejectCapacity, Atomic.get_bind]
  split
  · exact .check _
  · simp only [Atomic.check_unit_bind]
    intro _ _ _ _ htime
    refine (Atomic.modify _).bind fun _ mid hmid => ?_
    obtain rfl := modify_eq_ok.mp hmid
    intro e t hfail
    simp only [EStateM.run, onJob] at hfail
    split at hfail
    · cases hfail
    · rename_i e' job hjob
      rcases bind_eq_error.mp hjob with hcheck | ⟨_, mid, -, hmodify⟩
      · rw [check_eq_error] at hcheck
        rw [htime] at hcheck
        cases hcheck.1
      · exact (modify_eq_error.mp hmodify).elim

/-! ## Reports of truncated logs -/

/-- A report that writes nothing down leaves the failures of what follows as they are. -/
theorem markStepLogsTruncated_bind_atomic {k : Unit → HeldM Unit}
    (hk : Atomic (k ()) held) (hrest : ∀ held', Atomic (k ()) held') :
    Atomic (markStepLogsTruncated stepIndex >>= k) held ↔
      (held.attempt.validateExecution held.steps = .ok () →
        (∃ step, held.steps[stepIndex]? = some step ∧ step.state = .running) →
        held.attempt.firstTruncatedStepIndex = none →
          Succeeds (k ()) { held with
            attempt := { held.attempt with firstTruncatedStepIndex := some stepIndex } }) := by
  simp only [markStepLogsTruncated, bind_assoc, Atomic.check_unit_bind, Atomic.get_bind]
  refine imp_congr_right fun _ => ?_
  cases hstep : held.steps[stepIndex]? with
  | none =>
    simp only [reduceCtorEq, false_and, exists_false, IsEmpty.forall_iff, iff_true]
    exact (Atomic.throw _).bind fun _ _ h => (throw_eq_ok.mp h).elim
  | some step =>
    simp only [bind_assoc, Atomic.check_unit_bind, rejectIf_eq_ok, not_not, Option.some_inj,
      exists_eq_left']
    refine imp_congr_right fun _ => ?_
    cases hfirst : held.attempt.firstTruncatedStepIndex with
    | some existing =>
      simp only [reduceCtorEq, IsEmpty.forall_iff, iff_true]
      exact Atomic.check_unit_bind.mpr fun _ => hk
    | none =>
      simp only [forall_const]
      refine Atomic.modify_bind ?_ (hrest _)
      intro h
      have hmark := congrArg (fun held => held.attempt.firstTruncatedStepIndex) h
      simp [hfirst] at hmark

theorem not_ahead_iff : ¬ held.ahead now ↔
    held.attempt.lastHeartbeatAtUnix ≤ now ∧ held.job.updatedAtUnix ≤ now := by
  rw [Held.ahead, not_or, not_lt, not_lt]

/-- A running step is concluded without a trace of a failure, unless a first report of truncated
logs comes before the refusal. -/
theorem concludeStep_atomic_iff {conclusion : StepConclusion} {logsTruncated : Bool}
    (hexecutes : held.attempt.validateExecution held.steps = .ok ())
    (hrunning : ∃ step, held.steps[stepIndex]? = some step ∧ step.state = .running) :
    Atomic (concludeStep stepIndex conclusion logsTruncated now) held ↔
      ¬ (logsTruncated = true ∧ held.attempt.firstTruncatedStepIndex = none ∧
        (held.ahead now ∨ conclusion = .failed 0)) := by
  unfold concludeStep reportTruncation
  cases logsTruncated with
  | false =>
    simp only [Bool.false_eq_true, false_and, not_false_eq_true, iff_true, if_false, pure_bind,
      Atomic.check_unit_bind]
    intro _ _
    cases conclusion with
    | succeeded => exact .modify _
    | failed exitCode => exact Atomic.check_unit_bind.mpr fun _ => .modify _
  | true =>
    simp only [if_true, true_and]
    rw [markStepLogsTruncated_bind_atomic]
    · simp only [hexecutes, hrunning, forall_const, not_and, not_or, not_ahead_iff,
        succeeds_check_unit_bind, ensureTimeNotBeforeHeartbeat_eq_ok,
        RunJob.ensureTimeNotBeforeUpdate_eq_ok, and_assoc]
      refine imp_congr_right fun _ => and_congr_right fun _ => and_congr_right fun _ => ?_
      cases conclusion with
      | succeeded => simp [succeeds_modify]
      | failed exitCode => simp [succeeds_check_unit_bind, succeeds_modify]
    all_goals
      simp only [Atomic.check_unit_bind]
      intros
      cases conclusion with
      | succeeded => exact .modify _
      | failed exitCode => exact Atomic.check_unit_bind.mpr fun _ => .modify _

theorem completeStep_atomic_iff {conclusion : StepConclusion} {logsTruncated : Bool} :
    Atomic (completeStep token stepIndex conclusion logsTruncated now) held ↔
      ¬ (logsTruncated = true ∧ held.TakesFirstReport token stepIndex now ∧
        (held.ahead now ∨ conclusion = .failed 0)) := by
  simp only [completeStep, Atomic.get_bind]
  split
  · rename_i hended
    refine iff_of_true (Atomic.check_unit_bind.mpr fun _ => .check _) ?_
    rintro ⟨-, h, -⟩
    rcases hended with hended | hended
    · exact absurd (h.attempt.symm.trans hended) (by rintro ⟨⟩)
    · exact absurd (h.job.symm.trans hended) (by rintro ⟨⟩)
  · rename_i hactive
    rw [not_or, Bool.not_eq_true, Bool.not_eq_true] at hactive
    simp only [Atomic.check_unit_bind]
    constructor
    · rintro h ⟨hlogs, htakes, hrefused⟩
      obtain ⟨step, hstep, hrunning⟩ := htakes.running
      have hconclude := h htakes.authentic htakes.executes
      simp only [hstep, hrunning, StepState.isTerminal, Bool.false_eq_true, if_false,
        Atomic.check_unit_bind, rejectIf_eq_ok] at hconclude
      exact (concludeStep_atomic_iff htakes.executes htakes.running).mp
        (hconclude (not_not.mpr rfl)) ⟨hlogs, htakes.unmarked, hrefused⟩
    · intro h hauthentic hexecutes
      split
      · exact .throw _
      · rename_i step hstep
        split
        · exact .check _
        · rw [Atomic.check_unit_bind, rejectIf_eq_ok, not_not]
          intro hrunning
          refine (concludeStep_atomic_iff hexecutes ⟨step, hstep, hrunning⟩).mpr ?_
          rintro ⟨hlogs, hunmarked, hrefused⟩
          exact h ⟨hlogs, ⟨hactive.1, hactive.2, hauthentic, hexecutes, ⟨step, hstep, hrunning⟩,
            hunmarked⟩, hrefused⟩

/-! ## Completion of an attempt -/

/-- An attempt with a running step is running. -/
theorem not_dispatching_of_running (hexecutes : held.attempt.validateExecution held.steps = .ok ())
    {step : RunAttemptStep} (hmem : step ∈ held.steps) (hrunning : step.state = .running) :
    held.attempt.state ≠ .dispatching := by
  intro hstate
  simp only [validateExecution, except_unit_bind_eq_ok, rejectIf_eq_ok, aggregateMatches,
    hstate] at hexecutes
  obtain ⟨-, -, -, hmatches⟩ := hexecutes
  split at hmatches <;> simp_all

theorem ending_eq_error_iff {conclusion : AttemptConclusion}
    (hstate : held.attempt.state ≠ .dispatching) {step : RunAttemptStep} (hmem : step ∈ held.steps) (hrunning : step.state = .running) :
    (∃ e, ending run held conclusion now = .error e) ↔ conclusion.RefusedWhileRunning run := by
  cases conclusion with
  | succeeded =>
    have hrejected : held.attempt.state ≠ .running ∨ ∃ step ∈ held.steps, step.state ≠ .succeeded :=
      .inr ⟨step, hmem, by simp [hrunning]⟩
    simp [ending, rejectIf, hrejected, AttemptConclusion.RefusedWhileRunning]
  | setupFailed exitCode message =>
    simp [ending, rejectIf, hstate, AttemptConclusion.RefusedWhileRunning]
  | timedOut => simp [ending, AttemptConclusion.RefusedWhileRunning, pure, Except.pure]
  | canceled =>
    cases hcancel : run.cancellationRequested <;>
      simp [ending, rejectIf, hcancel, AttemptConclusion.RefusedWhileRunning, pure, Except.pure]

/-- The part of `complete` after the report of truncated logs. -/
def finishAs (run : Run) (conclusion : AttemptConclusion) (nowUnix : ℕ) : HeldM Unit := do
  check fun held => held.attempt.ensureTimeNotBeforeHeartbeat nowUnix
  check fun held => held.job.ensureTimeNotBeforeUpdate nowUnix
  let ending ← check fun held => ending run held conclusion nowUnix
  modify fun held => finish held ending nowUnix

theorem finishAs_atomic {conclusion : AttemptConclusion} :
    Atomic (finishAs run conclusion now) held := by
  simp only [finishAs, Atomic.check_bind, Atomic.modify, implies_true]

theorem finishAs_succeeds_iff {conclusion : AttemptConclusion}
    (hstate : held.attempt.state ≠ .dispatching) {step : RunAttemptStep} (hmem : step ∈ held.steps) (hrunning : step.state = .running) :
    Succeeds (finishAs run conclusion now) held ↔
      ¬ (held.ahead now ∨ conclusion.RefusedWhileRunning run) := by
  rw [not_or, not_ahead_iff, ← @ending_eq_error_iff held run now _ hstate _ hmem hrunning, and_assoc]
  simp only [finishAs, succeeds_check_unit_bind, ensureTimeNotBeforeHeartbeat_eq_ok,
    RunJob.ensureTimeNotBeforeUpdate_eq_ok]
  refine and_congr_right fun _ => and_congr_right fun _ => ?_
  rw [succeeds_check_bind]
  cases ending run held conclusion now with
  | ok ending => simp [succeeds_modify]
  | error e => simp

theorem complete_atomic_iff {conclusion : AttemptConclusion} {logsTruncated : Bool} :
    Atomic (complete run token conclusion logsTruncated now) held ↔
      ¬ (logsTruncated = true ∧ (∃ stepIndex, held.TakesFirstReport token stepIndex now) ∧
        (held.ahead now ∨ conclusion.RefusedWhileRunning run)) := by
  simp only [complete, Atomic.get_bind]
  split
  · rename_i hended
    refine iff_of_true (Atomic.check_unit_bind.mpr fun _ => .check _) ?_
    rintro ⟨-, ⟨_, h⟩, -⟩
    rcases hended with hended | hended
    · exact absurd (h.attempt.symm.trans hended) (by rintro ⟨⟩)
    · exact absurd (h.job.symm.trans hended) (by rintro ⟨⟩)
  rename_i hactive
  rw [not_or, Bool.not_eq_true, Bool.not_eq_true] at hactive
  rw [Atomic.check_unit_bind, Atomic.check_unit_bind]
  show (_ → _ → Atomic (reportRunningTruncation logsTruncated >>= fun _ =>
    finishAs run conclusion now) held) ↔ _
  by_cases hreport : logsTruncated = true ∧ held.attempt.firstTruncatedStepIndex = none
  · simp only [reportRunningTruncation, bind_assoc, Atomic.get_bind, if_pos hreport]
    cases hfind : held.steps.findIdx? fun step => step.state = .running with
    | none =>
      -- no step is running, so nothing is written down
      refine iff_of_true (fun _ _ => (Atomic.throw _).bind fun _ _ h => (throw_eq_ok.mp h).elim) ?_
      rintro ⟨-, ⟨_, htakes⟩, -⟩
      obtain ⟨step, hstep, hrunning⟩ := htakes.running
      have hnone := List.findIdx?_eq_none_iff.mp hfind step (List.mem_of_getElem? hstep)
      simp [hrunning] at hnone
    | some index =>
      obtain ⟨hlt, hrunning, -⟩ := List.findIdx?_eq_some_iff_getElem.mp hfind
      rw [decide_eq_true_eq] at hrunning
      have hstep : ∃ step, held.steps[index]? = some step ∧ step.state = .running :=
        ⟨_, List.getElem?_eq_getElem hlt, hrunning⟩
      show (_ → _ → Atomic (markStepLogsTruncated index >>= fun _ =>
        finishAs run conclusion now) held) ↔ _
      rw [markStepLogsTruncated_bind_atomic finishAs_atomic fun _ => finishAs_atomic]
      have hiff : held.attempt.validateExecution held.steps = .ok () →
          (Succeeds (finishAs run conclusion now) { held with
            attempt := { held.attempt with firstTruncatedStepIndex := some index } } ↔
            ¬ (held.ahead now ∨ conclusion.RefusedWhileRunning run)) := fun hexecutes => by
        have hstate := not_dispatching_of_running hexecutes (List.getElem_mem hlt) hrunning
        let marked : Held := { held with
          attempt := { held.attempt with firstTruncatedStepIndex := some index } }
        have hmarked : held.steps[index] ∈ marked.steps := List.getElem_mem hlt
        exact @finishAs_succeeds_iff marked run now conclusion hstate _ hmarked hrunning
      constructor
      · rintro h ⟨-, ⟨_, htakes⟩, hrefused⟩
        have hsucceeds := h htakes.authentic htakes.executes htakes.executes hstep hreport.2
        exact (hiff htakes.executes).mp hsucceeds hrefused
      · intro h hauthentic hexecutes _ _ _
        refine (hiff hexecutes).mpr fun hrefused => ?_
        exact h ⟨hreport.1, ⟨index, hactive.1, hactive.2, hauthentic, hexecutes, hstep, hreport.2⟩, hrefused⟩
  · simp only [reportRunningTruncation, bind_assoc, Atomic.get_bind, if_neg hreport, pure_bind,
      finishAs_atomic, implies_true, true_iff]
    rintro ⟨hlogs, ⟨_, htakes⟩, -⟩
    exact hreport ⟨hlogs, htakes.unmarked⟩

end RunAttempt

/-- An operation on an attempt that was left alone since its dispatch, or has started, fails with a
trace exactly when it is refused after a report. -/
theorem AttemptOp.held_atomic_iff {op : AttemptOp} {run : Run} {held : Held}
    (hdispatched : held.AsDispatched) :
    Atomic (op.run run) held ↔ ¬ op.RefusedAfterReport run held := by
  cases op with
  | claimRuntime => exact iff_of_true RunAttempt.claimRuntime_atomic id
  | start => exact iff_of_true RunAttempt.start_atomic id
  | heartbeat =>
    refine iff_of_true (RunAttempt.heartbeat_atomic.bind fun _ _ _ => ?_) id
    exact .of_eq_ok (pure_eq_ok.mpr ⟨rfl, rfl⟩)
  | startStep => exact iff_of_true (RunAttempt.startStep_atomic hdispatched) id
  | completeStep token stepIndex conclusion logsTruncated now =>
    rw [AttemptOp.run, RunAttempt.completeStep_atomic_iff]
    cases logsTruncated <;> simp [RefusedAfterReport]
  | complete token conclusion logsTruncated now =>
    rw [AttemptOp.run, RunAttempt.complete_atomic_iff]
    cases logsTruncated <;> simp [RefusedAfterReport]
  | rejectCapacity => exact iff_of_true RunAttempt.rejectCapacity_atomic id
  | expire => exact iff_of_true RunAttempt.expire_atomic id
  | abandon => exact iff_of_true RunAttempt.abandon_atomic id
  | confirmProviderCancellation =>
    exact iff_of_true RunAttempt.confirmProviderCancellation_atomic id

/-! ## Operations on the run -/

/-- The jobs of one run, of which there is at least one. -/
structure RunWithJobs.Whole (state : RunWithJobs) : Prop where
  keys : (state.jobs.map (·.key)).Nodup
  runIds : ∀ job ∈ state.jobs, job.runId = state.run.id
  jobs_ne_nil : state.jobs ≠ []

theorem deriveRunState_succeeds {state : RunWithJobs} {now : ℕ} (hne : state.jobs ≠ [])
    (hruns : ∀ job ∈ state.jobs, job.runId = state.run.id) :
    Succeeds (deriveRunState now) state := by
  rw [deriveRunState, succeeds_check_unit_bind, rejectIf_eq_ok]
  refine ⟨?_, succeeds_modify _ _⟩
  rintro (hnil | ⟨job, hjob, hrun⟩)
  · exact hne hnil
  · exact hrun (hruns job hjob)

/-- The loop of `retry_run` finds every job in a workflow that has them all. -/
theorem requeueJobs_succeeds {workflow : CompiledWorkflow} {now : ℕ} {done jobs : List RunJob}
    {state : RunWithJobs} (hkeys : ∀ job ∈ jobs, (workflow.job? job.key).isSome = true) :
    Succeeds (requeueJobs workflow now done jobs) state := by
  induction jobs generalizing done state with
  | nil => exact .of_eq_ok (pure_eq_ok.mpr ⟨rfl, rfl⟩)
  | cons job jobs ih =>
    obtain ⟨definition, hdefinition⟩ := Option.isSome_iff_exists.mp (hkeys job (by simp))
    unfold requeueJobs
    simp only [hdefinition]
    intro e t hfail
    exact ih (fun job hjob => hkeys job (by simp [hjob])) e t hfail

theorem CompiledWorkflow.isSome_job? {workflow : CompiledWorkflow} {id : WorkflowJobId}
    (h : id ∈ workflow.jobs.map (·.id)) : (workflow.job? id).isSome = true := by
  obtain ⟨definition, hmem, rfl⟩ := List.mem_map.mp h
  exact List.find?_isSome.mpr ⟨definition, hmem, by simp⟩

theorem requestRunCancellation_atomic {state : RunWithJobs} {now : ℕ} (h : state.Whole) :
    Atomic (requestRunCancellation now) state := by
  rw [requestRunCancellation, Atomic.check_bind]
  rintro ⟨requested, run⟩ hcancel
  rcases Run.requestCancellation_eq_ok hcancel with ⟨rfl, rfl⟩ | ⟨rfl, -, -, rfl⟩
  · exact .pure _
  · -- the jobs form one run, so its state can be derived after the request was written down
    refine (Atomic.modify _).bind fun _ mid hmid => ?_
    obtain rfl := modify_eq_ok.mp hmid
    intro e t hfail
    rcases bind_eq_error.mp hfail with hderive | ⟨_, _, -, hpure⟩
    · have hsucceeds : Succeeds (deriveRunState now) ⟨{ state.run with
          cancellationRequested := true
          updatedAtUnix := max now state.run.updatedAtUnix }, state.jobs⟩ :=
        deriveRunState_succeeds h.jobs_ne_nil h.runIds
      exact hsucceeds e t hderive
    · cases hpure

theorem reconcileRun_atomic {revision : WorkflowRevision} {state : RunWithJobs} {now : ℕ}
    (h : state.Whole) : Atomic (reconcileRun revision now) state := by
  simp only [reconcileRun, Atomic.check_unit_bind, Atomic.get_bind, rejectIf_eq_ok, not_or,
    not_not, not_exists, not_and]
  rintro hrevision ⟨hlength, hget⟩
  have hlength' : (revision.definition.jobs.map (·.id)).length =
      (state.jobs.map (·.key)).length := by
    rw [List.length_map, ← hlength, List.length_map]
    exact KeyedList.length_entries_positions h.keys
  have hsub : revision.definition.jobs.map (·.id) ⊆ state.jobs.map (·.key) := by
    intro id hid
    obtain ⟨definition, hmem, rfl⟩ := List.mem_map.mp hid
    obtain ⟨index, hindex⟩ := Option.ne_none_iff_exists'.mp (hget definition hmem)
    obtain ⟨job, hjob, hkey⟩ := (KeyedList.positions_get? h.keys).mp hindex
    exact List.mem_map.mpr ⟨job, List.mem_of_getElem? hjob, hkey⟩
  have hperm := (List.subperm_of_subset revision.definition.ids_nodup hsub).perm_of_length_le
    hlength'.ge
  have hmatches : state.Matches revision.definition := ⟨hperm.symm, h.runIds⟩
  obtain ⟨jobs, hrun, -, -⟩ := hmatches.reconcileRun_eq hrevision now
  simp only [reconcileRun, check_unit_bind_eq_ok, get_bind_eq_ok] at hrun
  exact (Succeeds.of_eq_ok hrun.2.2).atomic

theorem retryRun_atomic {revision : WorkflowRevision} {state : RunWithJobs} {now : ℕ} :
    Atomic (retryRun revision now) state := by
  simp only [retryRun, Atomic.check_unit_bind, Atomic.get_bind, rejectIf_eq_ok, not_or, not_not]
  rintro - - ⟨hids, -⟩ -
  have hkeys : ∀ job ∈ state.jobs, (revision.definition.job? job.key).isSome = true := by
    intro job hjob
    apply CompiledWorkflow.isSome_job?
    rw [← SortedSet.mem_toList_ofList, hids, SortedSet.mem_toList_ofList]
    exact List.mem_map.mpr ⟨job, hjob, rfl⟩
  exact (requeueJobs_succeeds hkeys).atomic.bind fun _ _ _ => succeeds_modify _ _

theorem RunOp.atomic {op : RunOp} {state : RunWithJobs} (h : state.Whole) :
    Atomic op.run state := by
  cases op with
  | requestRunCancellation now =>
    refine (requestRunCancellation_atomic h).bind fun _ _ _ => ?_
    exact .of_eq_ok (pure_eq_ok.mpr ⟨rfl, rfl⟩)
  | reconcileRun revision now => exact reconcileRun_atomic h
  | retryRun revision now => exact retryRun_atomic

/-! ## Every reachable state -/

/-- An attempt stays as it was dispatched until it starts or ends. -/
theorem HeldStep.asDispatched {clock : Prop} {now : ℕ} {held held' : Held}
    (h : HeldStep clock now held held') (hi : held.AsDispatched) : held'.AsDispatched := by
  cases h with
  | claim _ hstate =>
    intro _
    obtain ⟨hreason, hne, horder, hpending⟩ := hi hstate
    exact ⟨hreason, hne, horder, hpending⟩
  | start => exact nofun
  | renew =>
    intro hstate
    obtain ⟨hreason, hne, horder, hpending⟩ := hi hstate
    exact ⟨hreason, hne, horder, hpending⟩
  | truncate =>
    intro hstate
    obtain ⟨hreason, hne, horder, hpending⟩ := hi hstate
    exact ⟨hreason, hne, horder, hpending⟩
  | startStep _ hrunning => exact fun hstate => absurd (hrunning.symm.trans hstate) nofun
  | succeedStep _ _ hstep hrunning =>
    intro hstate
    have hpending := (hi hstate).pending _ (List.mem_of_getElem? hstep)
    exact absurd (hrunning.symm.trans hpending) nofun
  | @finish state _ _ _ _ _ _ _ hends =>
    intro hstate
    have hended := hends.isTerminal
    obtain rfl : state = .dispatching := hstate
    cases hended

namespace RunAggregate

/-- What keeps the failures of a run without a trace. -/
structure Untorn (state : RunAggregate) : Prop where
  whole : state.withJobs.Whole
  dispatched : ∀ entry ∈ state.attempts, entry.1.state = .dispatching →
    entry.1.AsDispatched entry.2

theorem Created.untorn {state : RunAggregate} (h : Created state) : Untorn state := by
  have hfenced := h.fenced
  cases h with
  | @mk _ _ _ _ _ _ _ run revision jobs hrun hjobs =>
    refine ⟨⟨hfenced.keys, hfenced.runIds, ?_⟩, by simp⟩
    obtain rfl := createRunJobs_eq_ok hjobs
    show revision.definition.jobs.map (RunJob.new run) ≠ []
    simpa using revision.definition.jobs_ne_nil

theorem Untorn.setHeld_steps {clock : Prop} {now : ℕ} {state : RunAggregate} (h : Untorn state)
    (hfenced : Fenced state) {j a : ℕ} {held held' : Held} (hheld : state.held? j a = some held)
    (hsteps : ReflTransGen (HeldStep clock now) held held') :
    Untorn (state.setHeld j a held') := by
  have hafter : held'.AsDispatched := by
    have hbefore : held.AsDispatched := fun hstate =>
      h.dispatched _ (List.mem_of_getElem? (held?_eq_some.mp hheld).2) hstate
    clear hheld
    induction hsteps with
    | refl => exact hbefore
    | tail _ hlast ih => exact hlast.asDispatched ih
  have hfenced' := hfenced.setHeld_steps hheld hsteps
  refine ⟨⟨hfenced'.keys, hfenced'.runIds, ?_⟩, fun entry hentry => ?_⟩
  · intro hnil
    have hlength := congrArg List.length hnil
    simp only [withJobs, RunAggregate.setHeld, List.length_set, List.length_nil] at hlength
    exact h.whole.jobs_ne_nil (List.length_eq_zero_iff.mp hlength)
  · rcases ListUpdate.mem_set_cases hentry with rfl | ⟨k, -, hget⟩
    · exact hafter
    · exact h.dispatched entry (List.mem_of_getElem? hget)

theorem Untorn.changeJobs {state : RunAggregate} (h : Untorn state) {run' : Run}
    {jobs' : List RunJob} (hfenced : Fenced { state with run := run', jobs := jobs' })
    (hlength : state.jobs.length = jobs'.length) :
    Untorn { state with run := run', jobs := jobs' } := by
  refine ⟨⟨hfenced.keys, hfenced.runIds, fun hnil => ?_⟩, h.dispatched⟩
  obtain rfl : jobs' = [] := hnil
  exact h.whole.jobs_ne_nil (List.length_eq_zero_iff.mp hlength)

theorem Untorn.step {Clock : AttemptOp → Held → Prop} {state state' : RunAggregate}
    (h : Untorn state) (hfenced : Fenced state) (hstep : Step Clock state state') :
    Untorn state' := by
  have hfenced' := hfenced.step hstep
  cases hstep with
  | @dispatch j job job' definition attemptId _ _ _ _ attempt steps hjob hop =>
    refine ⟨⟨hfenced'.keys, hfenced'.runIds, fun hnil => ?_⟩, fun entry hentry hstate => ?_⟩
    · have hlength := congrArg List.length hnil
      simp only [withJobs, List.length_set, List.length_nil] at hlength
      exact h.whole.jobs_ne_nil (List.length_eq_zero_iff.mp hlength)
    · rcases List.mem_append.mp hentry with hold | hnew
      · exact h.dispatched entry hold hstate
      · obtain rfl := List.mem_singleton.mp hnew
        have hdisp := RunJob.dispatched_of_ok hop
        obtain ⟨hne, horder, hpending⟩ := RunJob.pendingSteps_inOrder hdisp.steps
        obtain rfl : attempt = _ := hdisp.attempt
        exact ⟨rfl, hne, horder, fun step hmem => (hpending step hmem).1⟩
  | attempt hheld _ hop => exact h.setHeld_steps hfenced hheld (AttemptOp.steps hop)
  | expireCapacityRetry => exact h.changeJobs hfenced' (by simp)
  | run hop => exact h.changeJobs hfenced' (RunOp.frame hop hfenced.ended).jobs.length_eq

theorem Reachable.untorn {state : RunAggregate} (h : Reachable state) : Untorn state :=
  (h.invariant (fun state => Fenced state ∧ Untorn state)
    (fun _ hcreated => ⟨hcreated.fenced, hcreated.untorn⟩)
    fun _ _ _ ⟨hfenced, huntorn⟩ hstep => ⟨hfenced.step hstep, huntorn.step hfenced hstep⟩).2

/-! ## Calls -/

theorem putJob_eq_self_iff {state : RunAggregate} {j : ℕ} {job : RunJob}
    (hjob : state.jobs[j]? = some job) (job' : RunJob) :
    putJob j state job' = state ↔ job' = job := by
  constructor
  · intro h
    have hget := congrArg (fun state => state.jobs[j]?) h
    have hlt : j < state.jobs.length := (List.getElem?_eq_some_iff.mp hjob).1
    rw [putJob, List.getElem?_set_self hlt, hjob] at hget
    exact Option.some_inj.mp hget
  · rintro rfl
    simp [putJob, ListUpdate.set_self hjob]

theorem setHeld_eq_self_iff {state : RunAggregate} {j a : ℕ} {held : Held}
    (hheld : state.held? j a = some held) (held' : Held) :
    state.setHeld j a held' = state ↔ held' = held := by
  constructor
  · intro h
    have hget := held?_setHeld hheld held'
    rw [h, hheld] at hget
    exact (Option.some_inj.mp hget).symm
  · rintro rfl
    exact setHeld_self hheld

theorem onJob_atomic {α : Type} {state : RunAggregate} {j : ℕ} {op : EStateM DomainError RunJob α}
    (hop : ∀ job, Atomic op job) : Atomic (onJob j op) state := by
  let part : RunAggregate → Option RunJob := fun state => state.jobs[j]?
  cases hjob : part state with
  | none => exact (succeeds_onPart_of_none hjob).atomic
  | some job => exact (atomic_onPart hjob (putJob_eq_self_iff hjob)).mpr (hop job)

theorem dispatch_atomic {run : Run} {definition : WorkflowJob}
    {attemptId tokenHash runtimeVersion : String} {now lease : ℕ} {job : RunJob} :
    Atomic (RunJob.dispatch run definition attemptId tokenHash runtimeVersion now lease) job := by
  have hmodifyGet : ∀ f : RunJob → (RunAttempt × List RunAttemptStep) × RunJob,
      Atomic (modifyGet f : EStateM DomainError RunJob _) job := fun _ => nofun
  simp only [RunJob.dispatch, Atomic.check_bind, hmodifyGet, implies_true]

theorem expireCapacityRetry_atomic {now : ℕ} {job : RunJob} :
    Atomic (RunJob.expireCapacityRetry now) job := by
  simp only [RunJob.expireCapacityRetry, Atomic.get_bind]
  split
  · exact .pure _
  · split
    · exact .pure _
    · refine Atomic.check_unit_bind.mpr fun _ => (Atomic.modify _).bind fun _ _ _ => ?_
      exact .of_eq_ok (pure_eq_ok.mpr ⟨rfl, rfl⟩)

theorem onRun_atomic {state : RunAggregate} {op : RunOp} (h : state.withJobs.Whole) :
    Atomic (onRun op.run) state := by
  let part : RunAggregate → Option RunWithJobs := fun state => some state.withJobs
  have hpart : part state = some state.withJobs := rfl
  refine (atomic_onPart hpart fun result => ?_).mpr (RunOp.atomic h)
  constructor
  · intro hput
    exact congrArg withJobs hput
  · rintro rfl
    rfl

/-- An operation on records that do not exist is not carried out. -/
theorem onHeld_atomic_iff {state : RunAggregate} {j a : ℕ} {op : AttemptOp} (h : Untorn state) :
    Atomic (onHeld j a (op.run state.run)) state ↔
      ¬ ∃ held, state.held? j a = some held ∧ op.RefusedAfterReport state.run held := by
  let part : RunAggregate → Option Held := fun state => state.held? j a
  cases hheld : part state with
  | none =>
    refine iff_of_true (succeeds_onPart_of_none hheld).atomic ?_
    rintro ⟨held, hsome, -⟩
    exact absurd (hheld.symm.trans hsome) nofun
  | some held =>
    have hdispatched : held.AsDispatched := fun hstate =>
      h.dispatched _ (List.mem_of_getElem? (held?_eq_some.mp hheld).2) hstate
    have hpart : Atomic (onHeld j a (op.run state.run)) state ↔ Atomic (op.run state.run) held :=
      atomic_onPart hheld (setHeld_eq_self_iff hheld)
    rw [hpart, AttemptOp.held_atomic_iff hdispatched, not_iff_not]
    constructor
    · exact fun hrefused => ⟨held, hheld, hrefused⟩
    · rintro ⟨other, hother, hrefused⟩
      obtain rfl := Option.some_inj.mp (hheld.symm.trans hother)
      exact hrefused

/-- A refused operation leaves the run, its jobs, attempts and steps as they were, unless a report of
truncated logs came first. -/
theorem Reachable.atomic_iff {state : RunAggregate} (h : Reachable state) (call : Call) :
    Atomic call.perform state ↔ ¬ call.RefusedAfterReport state := by
  have huntorn := h.untorn
  cases call with
  | dispatch j definition attemptId tokenHash runtimeVersion now lease =>
    refine iff_of_true ?_ id
    rw [Call.perform, Atomic.get_bind]
    exact (onJob_atomic fun _ => dispatch_atomic).bind fun _ _ _ => succeeds_modify _ _
  | attempt j a op =>
    rw [Call.perform, Atomic.get_bind, Atomic.bind_pure]
    exact onHeld_atomic_iff huntorn
  | expireCapacityRetry j now =>
    refine iff_of_true ?_ id
    rw [Call.perform, Atomic.bind_pure]
    exact onJob_atomic fun _ => expireCapacityRetry_atomic
  | run op =>
    refine iff_of_true ?_ id
    rw [Call.perform, Atomic.bind_pure]
    exact onRun_atomic huntorn.whole

namespace SmallRun

/-- The run after the first step of its attempt started. -/
def started : RunAggregate where
  run := run
  jobs := [{ job.dispatched "attempt" 100 with state := .running, updatedAtUnix := 110 }]
  attempts := [({ attempt with state := .running, startedAtUnix := some 110 }, [step.start 110])]

theorem dispatched_reachable : Reachable dispatched :=
  (Transition.Reachable.of_init created_isCreated).tail (dispatched_step _)

theorem started_step : Step (fun _ _ => True) dispatched started := by
  have hheld : dispatched.held? 0 0 = some ⟨attempt, job.dispatched "attempt" 100, [step]⟩ := rfl
  have hop : ((AttemptOp.startStep token 0 110).run run).run
      ⟨attempt, job.dispatched "attempt" 100, [step]⟩ =
        .ok () ⟨{ attempt with state := .running, startedAtUnix := some 110 },
          { job.dispatched "attempt" 100 with state := .running, updatedAtUnix := 110 },
          [step.start 110]⟩ := rfl
  exact .attempt hheld trivial hop

theorem started_reachable : Reachable started := dispatched_reachable.tail started_step

end SmallRun

/-- A report of the running step fails without a trace when it comes after its lease. -/
theorem atomic_late_report : Atomic
    (Call.attempt 0 0 (.completeStep SmallRun.token 0 .succeeded true 300)).perform
      SmallRun.started := by
  refine (Reachable.atomic_iff SmallRun.started_reachable _).mpr ?_
  rintro ⟨held, hheld, htakes, -⟩
  obtain rfl := Option.some_inj.mp hheld
  exact absurd htakes.authentic (by decide)

/-- The logs of the first step are reported truncated with the exit code 0 of a failure. The report is
refused for its exit code, but the step counts as truncated from then on. -/
theorem not_atomic_of_reachable :
    ¬ ∀ state, Reachable state → ∀ call : Call, Atomic call.perform state := by
  intro h
  have hatomic := h SmallRun.started SmallRun.started_reachable
    (.attempt 0 0 (.completeStep SmallRun.token 0 (.failed 0) true 120)) _ _ rfl
  exact absurd hatomic (by decide)

end RunAggregate

end ScopeVcs

import Mathlib.Logic.Relation
import ScopeVcs.Runs.Execution

/-! # What an operation on an attempt can do

`HeldStep` lists the changes that a successful operation is made of. Every one of them is made on
the current attempt of the job while that attempt is active, so what operations preserve is proved
once, for these changes.
-/

namespace ScopeVcs

open Mutation Relation

/-- The attempt is the one its job is working on. -/
structure RunJob.IsCurrent (job : RunJob) (attempt : RunAttempt) : Prop where
  runId : attempt.runId = job.runId
  jobKey : attempt.jobKey = job.key
  number : attempt.number = job.lastAttemptNumber
  id : job.currentAttemptId = some attempt.id

theorem RunJob.ensureLatestAttempt_eq_ok {job : RunJob} {attempt : RunAttempt} {u : Unit} :
    job.ensureLatestAttempt attempt = .ok u ↔ attempt.runId = job.runId ∧
      attempt.jobKey = job.key ∧ attempt.number = job.lastAttemptNumber := by
  simp [ensureLatestAttempt, not_or]

theorem RunJob.ensureTimeNotBeforeUpdate_eq_ok {job : RunJob} {now : ℕ} {u : Unit} :
    job.ensureTimeNotBeforeUpdate now = .ok u ↔ job.updatedAtUnix ≤ now := by
  simp [ensureTimeNotBeforeUpdate]

theorem RunJob.ensureCurrentAttempt_eq_ok {job : RunJob} {attempt : RunAttempt} {u : Unit} :
    job.ensureCurrentAttempt attempt = .ok u ↔ job.IsCurrent attempt := by
  simp only [ensureCurrentAttempt, except_unit_bind_eq_ok, ensureLatestAttempt_eq_ok, rejectIf_eq_ok,
    not_not]
  constructor
  · rintro ⟨⟨h₁, h₂, h₃⟩, h₄⟩
    exact ⟨h₁, h₂, h₃, h₄⟩
  · rintro ⟨h₁, h₂, h₃, h₄⟩
    exact ⟨⟨h₁, h₂, h₃⟩, h₄⟩

namespace RunAttempt

variable {attempt : RunAttempt} {job : RunJob} {token : String} {now : ℕ} {u : Unit}

theorem ensureTimeNotBeforeHeartbeat_eq_ok :
    attempt.ensureTimeNotBeforeHeartbeat now = .ok u ↔ attempt.lastHeartbeatAtUnix ≤ now := by
  simp [ensureTimeNotBeforeHeartbeat]

theorem authenticateIdentity_eq_ok :
    attempt.authenticateIdentity job token = .ok u ↔
      (attempt.runId = job.runId ∧ attempt.jobKey = job.key ∧
        attempt.number = job.lastAttemptNumber) ∧
        statesAlign job.state attempt.state = true ∧ attempt.tokenHash = token := by
  simp only [authenticateIdentity, ensureJobAlignment, except_unit_bind_eq_ok,
    RunJob.ensureLatestAttempt_eq_ok, rejectIf_eq_ok, not_not, Bool.not_eq_false, and_assoc]

theorem authenticate_eq_ok :
    attempt.authenticate job token now = .ok u ↔
      job.IsCurrent attempt ∧ statesAlign job.state attempt.state = true ∧
        attempt.tokenHash = token ∧ now < attempt.leaseExpiresAtUnix := by
  simp only [authenticate, except_unit_bind_eq_ok, authenticateIdentity_eq_ok, ensureLeaseActive,
    rejectIf_eq_ok, not_le, RunJob.ensureCurrentAttempt_eq_ok]
  constructor
  · rintro ⟨⟨-, halign, htoken⟩, hcur, hlease⟩
    exact ⟨hcur, halign, htoken, hlease⟩
  · rintro ⟨hcur, halign, htoken, hlease⟩
    exact ⟨⟨⟨hcur.runId, hcur.jobKey, hcur.number⟩, halign, htoken⟩, hcur, hlease⟩

end RunAttempt

/-! ## How an attempt ends -/

/-- The state and the reason an attempt may end with, and what becomes of its steps. -/
inductive EndsAs (held : Held) (now : ℕ) :
    AttemptState → Option AttemptTerminalReason → List RunAttemptStep → Prop where
  | succeeded (hrunning : held.attempt.state = .running)
      (hsteps : ∀ step ∈ held.steps, step.state = .succeeded) :
      EndsAs held now .succeeded none held.steps
  | succeededCanceled (hrunning : held.attempt.state = .running)
      (hsteps : ∀ step ∈ held.steps, step.state = .succeeded) :
      EndsAs held now .canceled (some (.canceled none)) held.steps
  | setupFailed {exitCode : ℤ} {message : SetupFailureMessage}
      (hdispatching : held.attempt.state = .dispatching) (hexit : exitCode ≠ 0) :
      EndsAs held now .failed (some (.runtimeSetupFailed exitCode message))
        (skipPendingSteps held.steps now)
  | timedOut :
      EndsAs held now .failed (some (.timedOut (interruptSteps held.steps .canceled now).2))
        (interruptSteps held.steps .canceled now).1
  | canceled :
      EndsAs held now .canceled (some (.canceled (interruptSteps held.steps .canceled now).2))
        (interruptSteps held.steps .canceled now).1
  | lost :
      EndsAs held now .lost (some (.executionLost (interruptSteps held.steps .lost now).2))
        (interruptSteps held.steps .lost now).1
  | exhausted (hdispatching : held.attempt.state = .dispatching)
      (hnumber : held.attempt.number = maxRunAttempts) :
      EndsAs held now .lost (some .dispatchAttemptsExhausted)
        (interruptSteps held.steps .lost now).1
  | capacityRejected {message : SetupFailureMessage}
      (hdispatching : held.attempt.state = .dispatching)
      (hstarted : held.attempt.startedAtUnix = none) :
      EndsAs held now .failed (some (.providerCapacityRejected message))
        (skipPendingSteps held.steps now)
  | stepFailed {stepIndex : ℕ} {exitCode : ℤ} {step : RunAttemptStep}
      (hstep : held.steps[stepIndex]? = some step) (hrunning : step.state = .running)
      (hexit : exitCode ≠ 0) :
      EndsAs held now .failed (some (.stepFailed stepIndex exitCode))
        (RunAttempt.failStep held stepIndex exitCode now).steps

/-- What becomes of the job: it ends too, goes back into the queue, or has one more rejection. -/
inductive JobEndsAs (job : RunJob) (now : ℕ) : RunJob → Prop where
  | terminal {state : RunJobState} (hstate : state ∈ [.succeeded, .failed, .canceled, .lost]) :
      JobEndsAs job now { job with
        state
        currentAttemptId := none
        updatedAtUnix := now
        completedAtUnix := some now }
  | requeued : JobEndsAs job now { job with
      currentAttemptId := none
      updatedAtUnix := now
      state := .queued }
  | rejected : JobEndsAs job now { job with
      capacityRetry := some (job.rejectedRetry now)
      state := if (job.rejectedRetry now).nextAttemptAtUnix.isSome then .queued else .failed
      currentAttemptId := none
      updatedAtUnix := now
      completedAtUnix :=
        if (job.rejectedRetry now).nextAttemptAtUnix.isSome then none else some now }

/-! ## The changes -/

/-- One change made at time `now`. Operations that do not compare `now` with the times of the
attempt only keep them in order under the assumption `clock`. -/
inductive HeldStep (clock : Prop) (now : ℕ) : Held → Held → Prop where
  | claim {held : Held} {token : String} {lease : ℕ} (hcur : held.job.IsCurrent held.attempt)
      (hstate : held.attempt.state = .dispatching) (hlease : now < lease)
      (htoken : isSha256Hash token = true)
      (hclock : clock → held.attempt.createdAtUnix ≤ now) :
      HeldStep clock now held { held with
        attempt := { held.attempt with
          tokenHash := token, lastHeartbeatAtUnix := now, leaseExpiresAtUnix := lease } }
  | start {held : Held} (hcur : held.job.IsCurrent held.attempt) (hstate : held.attempt.state = .dispatching)
      (hheartbeat : held.attempt.lastHeartbeatAtUnix ≤ now)
      (hlease : now < held.attempt.leaseExpiresAtUnix) (htime : held.job.updatedAtUnix ≤ now) :
      HeldStep clock now held { held with
        attempt := { held.attempt with state := .running, startedAtUnix := some now }
        job := { held.job with state := .running, updatedAtUnix := now } }
  | renew {held : Held} {lease : ℕ} (hcur : held.job.IsCurrent held.attempt)
      (hactive : held.attempt.state.isTerminal = false)
      (hheartbeat : held.attempt.lastHeartbeatAtUnix ≤ now) (hlease : now < lease)
      (hlonger : held.attempt.leaseExpiresAtUnix ≤ lease) :
      HeldStep clock now held { held with
        attempt := { held.attempt with
          lastHeartbeatAtUnix := now, leaseExpiresAtUnix := lease } }
  | truncate {held : Held} {stepIndex : ℕ} (hcur : held.job.IsCurrent held.attempt)
      (hactive : held.attempt.state.isTerminal = false) :
      HeldStep clock now held { held with
        attempt := { held.attempt with firstTruncatedStepIndex := some stepIndex } }
  | startStep {held : Held} {stepIndex : ℕ} {step : RunAttemptStep} (hcur : held.job.IsCurrent held.attempt)
      (hstate : held.attempt.state = .running) (hstep : held.steps[stepIndex]? = some step)
      (hpending : step.state = .pending)
      (hbefore : ∀ step ∈ held.steps.take stepIndex, step.state = .succeeded)
      (htime : held.job.updatedAtUnix ≤ now) :
      HeldStep clock now held { held with
        steps := held.steps.modify stepIndex (·.start now)
        job := { held.job with updatedAtUnix := now } }
  | succeedStep {held : Held} {stepIndex : ℕ} {step : RunAttemptStep} (hcur : held.job.IsCurrent held.attempt)
      (hactive : held.attempt.state.isTerminal = false)
      (hstep : held.steps[stepIndex]? = some step) (hrunning : step.state = .running)
      (htime : held.job.updatedAtUnix ≤ now) :
      HeldStep clock now held { held with
        steps := held.steps.modify stepIndex (·.succeed now)
        job := { held.job with updatedAtUnix := now } }
  | finish {held : Held} {state : AttemptState} {reason : Option AttemptTerminalReason}
      {steps : List RunAttemptStep} {job : RunJob} (hcur : held.job.IsCurrent held.attempt)
      (hactive : held.attempt.state.isTerminal = false)
      (htime : held.job.updatedAtUnix ≤ now)
      (hclock : clock → held.attempt.lastHeartbeatAtUnix ≤ now)
      (hends : EndsAs held now state reason steps) (hjob : JobEndsAs held.job now job)
      (halign : state ≠ .lost → job.state.isTerminal = true → statesAlign job.state state = true) :
      HeldStep clock now held
        ⟨{ held.attempt with state, terminalReason := reason, completedAtUnix := some now },
          job, steps⟩

/-! ## Every operation is made of these changes -/

namespace RunAttempt

variable {held held' : Held} {run : Run} {clock : Prop} {token newToken : String}
  {now lease stepIndex : ℕ} {u : Unit}

theorem start_step (h : (start run token now).run held = .ok u held') :
    HeldStep clock now held held' := by
  simp only [start, check_unit_bind_eq_ok, modify_eq_ok, rejectIf_eq_ok, authenticate_eq_ok,
    ensureTimeNotBeforeHeartbeat_eq_ok, RunJob.ensureTimeNotBeforeUpdate_eq_ok, not_or, not_not] at h
  obtain ⟨⟨hcur, -, -, hlease⟩, ⟨hstate, -⟩, -, hheartbeat, htime, rfl⟩ := h
  exact .start hcur hstate hheartbeat hlease htime

theorem claimRuntime_step (h : (claimRuntime token newToken now lease).run held = .ok u held')
    (hclock : clock → held.attempt.createdAtUnix ≤ now) : HeldStep clock now held held' := by
  simp only [claimRuntime, check_unit_bind_eq_ok, modify_eq_ok, rejectIf_eq_ok,
    authenticate_eq_ok, validateSha256Hash_eq_ok, not_not, not_le] at h
  obtain ⟨⟨hcur, -, -, -⟩, hstate, hlease, htoken, -, rfl⟩ := h
  exact .claim hcur hstate hlease htoken hclock

theorem heartbeat_step {canceled : Bool}
    (h : (heartbeat run token now lease).run held = .ok canceled held') :
    HeldStep clock now held held' := by
  simp only [heartbeat, check_unit_bind_eq_ok, modify_bind_eq_ok, pure_eq_ok, rejectIf_eq_ok,
    authenticate_eq_ok, ensureTimeNotBeforeHeartbeat_eq_ok, not_le, not_lt,
    Bool.not_eq_true] at h
  obtain ⟨⟨hcur, -, -, -⟩, hactive, hlease, hheartbeat, hlonger, -, rfl⟩ := h
  exact .renew hcur hactive hheartbeat hlease hlonger

/-- A report of truncated logs changes at most the truncation mark of the attempt. -/
structure Truncation (clock : Prop) (now : ℕ) (held held' : Held) : Prop where
  steps : ReflTransGen (HeldStep clock now) held held'
  eq : ∃ first, held' =
    { held with attempt := { held.attempt with firstTruncatedStepIndex := first } }

theorem Truncation.refl : Truncation clock now held held :=
  ⟨.refl, held.attempt.firstTruncatedStepIndex, rfl⟩

theorem truncation_of_markStepLogsTruncated (clock : Prop) (now : ℕ)
    (h : (markStepLogsTruncated stepIndex).run held = .ok u held')
    (hcur : held.job.IsCurrent held.attempt) (hactive : held.attempt.state.isTerminal = false) :
    Truncation clock now held held' := by
  simp only [markStepLogsTruncated, check_unit_bind_eq_ok, get_bind_eq_ok] at h
  obtain ⟨-, h⟩ := h
  split at h
  · exact (throw_eq_ok.mp h).elim
  · rw [check_unit_bind_eq_ok] at h
    obtain ⟨-, h⟩ := h
    split at h
    · obtain ⟨-, rfl⟩ := check_eq_ok.mp h
      exact .refl
    · obtain rfl := modify_eq_ok.mp h
      exact ⟨.single (.truncate hcur hactive), some stepIndex, rfl⟩

theorem startPendingStep_steps
    (h : (startPendingStep run stepIndex now).run held = .ok u held')
    (hcur : held.job.IsCurrent held.attempt) : ReflGen (HeldStep clock now) held held' := by
  simp only [startPendingStep, check_unit_bind_eq_ok, get_bind_eq_ok, rejectIf_eq_ok, not_or,
    not_not] at h
  obtain ⟨⟨hrunning, -⟩, -, h⟩ := h
  split at h
  · exact (throw_eq_ok.mp h).elim
  rename_i step hstep
  split at h
  · obtain ⟨-, rfl⟩ := pure_eq_ok.mp h
    exact .refl
  · simp only [check_unit_bind_eq_ok, modify_eq_ok, rejectIf_eq_ok, not_not, not_exists, not_and,
      RunJob.ensureTimeNotBeforeUpdate_eq_ok] at h
    obtain ⟨-, hpending, hbefore, -, htime, rfl⟩ := h
    exact .single (.startStep hcur hrunning hstep hpending hbefore htime)

theorem startStep_steps (h : (startStep run token stepIndex now).run held = .ok u held') :
    ReflTransGen (HeldStep clock now) held held' := by
  simp only [startStep, get_bind_eq_ok] at h
  split at h
  · obtain ⟨_, mid, hstart, h⟩ := bind_eq_ok.mp h
    have hcur : mid.job.IsCurrent mid.attempt := by
      simp only [start, check_unit_bind_eq_ok, modify_eq_ok, authenticate_eq_ok] at hstart
      obtain ⟨⟨⟨h₁, h₂, h₃, h₄⟩, -⟩, -, -, -, -, rfl⟩ := hstart
      exact ⟨h₁, h₂, h₃, h₄⟩
    exact (ReflTransGen.single (start_step hstart)).trans
      (startPendingStep_steps h hcur).to_reflTransGen
  · rw [check_unit_bind_eq_ok, authenticate_eq_ok] at h
    exact (startPendingStep_steps h.2 h.1.1).to_reflTransGen

theorem truncation_of_reportTruncation (clock : Prop) (now : ℕ) {logsTruncated : Bool}
    (h : (reportTruncation logsTruncated stepIndex).run held = .ok u held')
    (hcur : held.job.IsCurrent held.attempt) (hactive : held.attempt.state.isTerminal = false) :
    Truncation clock now held held' := by
  unfold reportTruncation at h
  split at h
  · exact truncation_of_markStepLogsTruncated clock now h hcur hactive
  · obtain ⟨-, rfl⟩ := pure_eq_ok.mp h
    exact .refl

theorem truncation_of_reportRunningTruncation (clock : Prop) (now : ℕ) {logsTruncated : Bool}
    (h : (reportRunningTruncation logsTruncated).run held = .ok u held')
    (hcur : held.job.IsCurrent held.attempt) (hactive : held.attempt.state.isTerminal = false) :
    Truncation clock now held held' := by
  simp only [reportRunningTruncation, get_bind_eq_ok] at h
  split at h
  · split at h
    · exact (throw_eq_ok.mp h).elim
    · exact truncation_of_markStepLogsTruncated clock now h hcur hactive
  · obtain ⟨-, rfl⟩ := pure_eq_ok.mp h
    exact .refl

theorem concludeStep_steps {conclusion : StepConclusion} {logsTruncated : Bool}
    {step : RunAttemptStep}
    (h : (concludeStep stepIndex conclusion logsTruncated now).run held = .ok u held')
    (hcur : held.job.IsCurrent held.attempt) (hactive : held.attempt.state.isTerminal = false)
    (hstep : held.steps[stepIndex]? = some step) (hrunning : step.state = .running) :
    ReflTransGen (HeldStep clock now) held held' := by
  obtain ⟨_, mid, hreport, h⟩ := bind_eq_ok.mp h
  obtain ⟨htrunc, first, rfl⟩ := truncation_of_reportTruncation clock now hreport hcur hactive
  refine htrunc.trans (.single ?_)
  have hcur' : held.job.IsCurrent { held.attempt with firstTruncatedStepIndex := first } :=
    ⟨hcur.runId, hcur.jobKey, hcur.number, hcur.id⟩
  simp only [check_unit_bind_eq_ok, ensureTimeNotBeforeHeartbeat_eq_ok,
    RunJob.ensureTimeNotBeforeUpdate_eq_ok] at h
  obtain ⟨hheartbeat, htime, h⟩ := h
  cases conclusion with
  | succeeded =>
    obtain rfl := modify_eq_ok.mp h
    exact .succeedStep hcur' hactive hstep hrunning htime
  | failed exitCode =>
    simp only [check_unit_bind_eq_ok, rejectIf_eq_ok, modify_eq_ok] at h
    obtain ⟨hexit, rfl⟩ := h
    exact .finish hcur' hactive htime (fun _ => hheartbeat) (.stepFailed hstep hrunning hexit)
      (.terminal (by simp)) fun _ _ => rfl

theorem completeStep_steps {conclusion : StepConclusion} {logsTruncated : Bool}
    (h : (completeStep token stepIndex conclusion logsTruncated now).run held = .ok u held') :
    ReflTransGen (HeldStep clock now) held held' := by
  simp only [completeStep, get_bind_eq_ok] at h
  split at h
  · rw [check_unit_bind_eq_ok, check_eq_ok] at h
    obtain ⟨-, -, rfl⟩ := h
    exact .refl
  rename_i hactive
  simp only [not_or, Bool.not_eq_true] at hactive
  simp only [check_unit_bind_eq_ok, authenticate_eq_ok] at h
  obtain ⟨⟨hcur, -, -, -⟩, -, h⟩ := h
  split at h
  · exact (throw_eq_ok.mp h).elim
  rename_i step hstep
  split at h
  · obtain ⟨-, rfl⟩ := check_eq_ok.mp h
    exact .refl
  rw [check_unit_bind_eq_ok, rejectIf_eq_ok, not_not] at h
  exact concludeStep_steps h.2 hcur hactive.1 hstep h.1

/-- A conclusion the source accepts is one of the ways an attempt ends. -/
theorem endsAs_of_ending {conclusion : AttemptConclusion} {ending' : Ending}
    (h : ending run held conclusion now = .ok ending') :
    EndsAs held now ending'.attemptState ending'.terminalReason ending'.steps ∧
      ending'.jobState ∈ [RunJobState.succeeded, .failed, .canceled, .lost] ∧
      statesAlign ending'.jobState ending'.attemptState = true := by
  cases conclusion with
  | succeeded =>
    simp only [ending, except_unit_bind_eq_ok, rejectIf_eq_ok, not_or, not_not, not_exists,
      not_and] at h
    obtain ⟨⟨hrunning, hsteps⟩, h⟩ := h
    split at h
    · cases h
      exact ⟨.succeededCanceled hrunning hsteps, by simp, rfl⟩
    · cases h
      exact ⟨.succeeded hrunning hsteps, by simp, rfl⟩
  | setupFailed exitCode message =>
    simp only [ending, except_unit_bind_eq_ok, rejectIf_eq_ok, not_not] at h
    obtain ⟨hdispatching, hexit, h⟩ := h
    cases h
    exact ⟨.setupFailed hdispatching hexit, by simp, rfl⟩
  | timedOut =>
    cases h
    exact ⟨.timedOut, by simp, rfl⟩
  | canceled =>
    simp only [ending, except_unit_bind_eq_ok] at h
    obtain ⟨-, h⟩ := h
    cases h
    exact ⟨.canceled, by simp, rfl⟩

theorem complete_steps {conclusion : AttemptConclusion} {logsTruncated : Bool}
    (h : (complete run token conclusion logsTruncated now).run held = .ok u held') :
    ReflTransGen (HeldStep clock now) held held' := by
  simp only [complete, get_bind_eq_ok] at h
  split at h
  · rw [check_unit_bind_eq_ok, check_eq_ok] at h
    obtain ⟨-, -, rfl⟩ := h
    exact .refl
  rename_i hactive
  simp only [not_or, Bool.not_eq_true] at hactive
  simp only [check_unit_bind_eq_ok, authenticate_eq_ok] at h
  obtain ⟨⟨hcur, -, -, -⟩, -, h⟩ := h
  obtain ⟨_, mid, hreport, h⟩ := bind_eq_ok.mp h
  obtain ⟨htrunc, first, rfl⟩ := truncation_of_reportRunningTruncation clock now hreport hcur hactive.1
  refine htrunc.trans (.single ?_)
  have hcur' : held.job.IsCurrent { held.attempt with firstTruncatedStepIndex := first } :=
    ⟨hcur.runId, hcur.jobKey, hcur.number, hcur.id⟩
  simp only [check_unit_bind_eq_ok, ensureTimeNotBeforeHeartbeat_eq_ok,
    RunJob.ensureTimeNotBeforeUpdate_eq_ok] at h
  obtain ⟨hheartbeat, htime, h⟩ := h
  obtain ⟨ending', hending, h⟩ := check_bind_eq_ok.mp h
  obtain rfl := modify_eq_ok.mp h
  obtain ⟨hends, hjob, halign⟩ := endsAs_of_ending hending
  exact .finish hcur' hactive.1 htime (fun _ => hheartbeat) hends (.terminal hjob)
    fun _ _ => halign

/-! ## Loss, cancellation and rejection -/

theorem finishLostOrRequeue_step (h : (finishLostOrRequeue run now).run held = .ok u held')
    (hactive : held.attempt.state.isTerminal = false)
    (hclock : clock → held.attempt.lastHeartbeatAtUnix ≤ now) :
    HeldStep clock now held held' := by
  simp only [finishLostOrRequeue, check_unit_bind_eq_ok, modify_eq_ok,
    RunJob.ensureCurrentAttempt_eq_ok, RunJob.ensureTimeNotBeforeUpdate_eq_ok] at h
  obtain ⟨hcur, -, htime, rfl⟩ := h
  unfold lostEnding
  split_ifs with hrunning hcancel hnumber
  · exact .finish hcur hactive htime hclock .lost (.terminal (by simp)) nofun
  · exact .finish hcur hactive htime hclock .lost (.terminal (by simp)) nofun
  · have hdispatching : held.attempt.state = .dispatching := by
      cases hstate : held.attempt.state <;> simp_all [AttemptState.isTerminal]
    exact .finish hcur hactive htime hclock (.exhausted hdispatching hnumber) (.terminal (by simp))
      nofun
  · exact .finish hcur hactive htime hclock .lost .requeued nofun

theorem expire_step (h : (expire run now).run held = .ok u held')
    (hclock : clock → held.attempt.lastHeartbeatAtUnix ≤ now) : HeldStep clock now held held' := by
  simp only [expire, check_unit_bind_eq_ok, rejectIf_eq_ok, Bool.not_eq_true] at h
  exact finishLostOrRequeue_step h.2.2.2 h.2.1 hclock

theorem abandon_steps (h : (abandon run token now).run held = .ok u held')
    (hclock : clock → held.attempt.state.isTerminal = false →
      held.attempt.lastHeartbeatAtUnix ≤ now) :
    ReflTransGen (HeldStep clock now) held held' := by
  simp only [abandon, check_unit_bind_eq_ok, get_bind_eq_ok] at h
  obtain ⟨-, h⟩ := h
  split at h
  · obtain ⟨-, rfl⟩ := pure_eq_ok.mp h
    exact .refl
  · rename_i hactive
    rw [Bool.not_eq_true] at hactive
    exact .single (finishLostOrRequeue_step h hactive fun hc => hclock hc hactive)

theorem confirmProviderCancellation_steps
    (h : (confirmProviderCancellation run now).run held = .ok u held')
    (hclock : clock → held.attempt.state.isTerminal = false →
      held.attempt.lastHeartbeatAtUnix ≤ now) :
    ReflTransGen (HeldStep clock now) held held' := by
  simp only [confirmProviderCancellation, get_bind_eq_ok] at h
  split at h
  · obtain ⟨-, rfl⟩ := pure_eq_ok.mp h
    exact .refl
  · simp only [check_unit_bind_eq_ok, modify_eq_ok, rejectIf_eq_ok, Bool.not_eq_true,
      RunJob.ensureCurrentAttempt_eq_ok, RunJob.ensureTimeNotBeforeUpdate_eq_ok] at h
    obtain ⟨hcur, hactive, -, -, htime, rfl⟩ := h
    exact .single (.finish hcur hactive htime (fun hc => hclock hc hactive) .canceled
      (.terminal (by simp)) fun _ _ => rfl)

theorem rejectCapacity_steps {message : SetupFailureMessage}
    (h : (rejectCapacity run token message now).run held = .ok u held') :
    ReflTransGen (HeldStep clock now) held held' := by
  simp only [rejectCapacity, get_bind_eq_ok] at h
  split at h
  · obtain ⟨-, rfl⟩ := check_eq_ok.mp h
    exact .refl
  rename_i hactive
  rw [Bool.not_eq_true] at hactive
  simp only [check_unit_bind_eq_ok, modify_bind_eq_ok, authenticate_eq_ok, rejectIf_eq_ok, not_or,
    not_not, ensureTimeNotBeforeHeartbeat_eq_ok, RunJob.ensureTimeNotBeforeUpdate_eq_ok] at h
  obtain ⟨⟨hcur, -⟩, ⟨hdispatching, -, hstarted, -⟩, -, hheartbeat, htime, h⟩ := h
  have hrecord : (RunJob.recordCapacityRejection now).run held.job = .ok () held'.job ∧
      held'.attempt = { held.attempt with
        state := .failed
        terminalReason := some (.providerCapacityRejected message)
        completedAtUnix := some now } ∧ held'.steps = skipPendingSteps held.steps now := by
    simp only [EStateM.run, onJob] at h ⊢
    split at h
    · rename_i job hjob
      cases h
      exact ⟨hjob, rfl, rfl⟩
    · cases h
  obtain ⟨hjob, hattempt, hsteps⟩ := hrecord
  simp only [RunJob.recordCapacityRejection, check_unit_bind_eq_ok, modify_eq_ok] at hjob
  obtain ⟨attempt', job', steps'⟩ := held'
  obtain rfl : attempt' = _ := hattempt
  obtain rfl : steps' = _ := hsteps
  obtain rfl : _ = job' := hjob.2
  refine .single (.finish hcur hactive htime (fun _ => hheartbeat)
    (.capacityRejected hdispatching hstarted) .rejected fun _ hended => ?_)
  -- a rejected job that ended has failed, as its attempt has
  dsimp only at hended ⊢
  split at hended
  · cases hended
  · rename_i hnext
    rw [if_neg hnext]
    rfl

end RunAttempt

/-! ## Operations as data -/

/-- The operations that runtimes, the dispatcher and the provider send for an attempt. -/
inductive AttemptOp where
  | claimRuntime (bootstrapTokenHash attemptTokenHash : String) (nowUnix leaseExpiresAtUnix : ℕ)
  | start (tokenHash : String) (nowUnix : ℕ)
  | heartbeat (tokenHash : String) (nowUnix leaseExpiresAtUnix : ℕ)
  | startStep (tokenHash : String) (stepIndex nowUnix : ℕ)
  | completeStep (tokenHash : String) (stepIndex : ℕ) (conclusion : StepConclusion)
      (logsTruncated : Bool) (nowUnix : ℕ)
  | complete (tokenHash : String) (conclusion : AttemptConclusion) (logsTruncated : Bool)
      (nowUnix : ℕ)
  | rejectCapacity (tokenHash : String) (message : SetupFailureMessage) (nowUnix : ℕ)
  | expire (nowUnix : ℕ)
  | abandon (tokenHash : String) (nowUnix : ℕ)
  | confirmProviderCancellation (nowUnix : ℕ)
  deriving DecidableEq

namespace AttemptOp

def nowUnix : AttemptOp → ℕ
  | .claimRuntime _ _ now _ | .start _ now | .heartbeat _ now _ | .startStep _ _ now
  | .completeStep _ _ _ _ now | .complete _ _ _ now | .rejectCapacity _ _ now | .expire now
  | .abandon _ now | .confirmProviderCancellation now => now

def run (run : Run) : AttemptOp → HeldM Unit
  | .claimRuntime bootstrap token now lease => RunAttempt.claimRuntime bootstrap token now lease
  | .start token now => RunAttempt.start run token now
  | .heartbeat token now lease => do
    let _ ← RunAttempt.heartbeat run token now lease
  | .startStep token stepIndex now => RunAttempt.startStep run token stepIndex now
  | .completeStep token stepIndex conclusion logsTruncated now =>
    RunAttempt.completeStep token stepIndex conclusion logsTruncated now
  | .complete token conclusion logsTruncated now =>
    RunAttempt.complete run token conclusion logsTruncated now
  | .rejectCapacity token message now => RunAttempt.rejectCapacity run token message now
  | .expire now => RunAttempt.expire run now
  | .abandon token now => RunAttempt.abandon run token now
  | .confirmProviderCancellation now => RunAttempt.confirmProviderCancellation run now

/-- The clock of the caller is not behind the time that the operation writes without comparing: a
claim is not before the attempt was created, and what ends an active attempt from outside is not
before its last heartbeat. -/
def ClockOk (held : Held) : AttemptOp → Prop
  | .claimRuntime _ _ now _ => held.attempt.createdAtUnix ≤ now
  | .expire now | .abandon _ now | .confirmProviderCancellation now =>
    held.attempt.state.isTerminal = false → held.attempt.lastHeartbeatAtUnix ≤ now
  | _ => True

/-- Every successful operation is a sequence of changes at its time. -/
theorem steps {op : AttemptOp} {run : Run} {held held' : Held} {u : Unit}
    (h : (op.run run).run held = .ok u held') :
    ReflTransGen (HeldStep (op.ClockOk held) op.nowUnix) held held' := by
  cases op with
  | claimRuntime => exact .single (RunAttempt.claimRuntime_step h fun hclock => hclock)
  | start => exact .single (RunAttempt.start_step h)
  | heartbeat =>
    obtain ⟨_, mid, hbeat, h⟩ := bind_eq_ok.mp h
    obtain ⟨-, rfl⟩ := pure_eq_ok.mp h
    exact .single (RunAttempt.heartbeat_step hbeat)
  | startStep => exact RunAttempt.startStep_steps h
  | completeStep => exact RunAttempt.completeStep_steps h
  | complete => exact RunAttempt.complete_steps h
  | rejectCapacity => exact RunAttempt.rejectCapacity_steps h
  | expire =>
    have hactive : held.attempt.state.isTerminal = false := by
      simp only [AttemptOp.run, RunAttempt.expire, check_unit_bind_eq_ok, rejectIf_eq_ok,
        Bool.not_eq_true] at h
      exact h.2.1
    exact .single (RunAttempt.expire_step h fun hclock => hclock hactive)
  | abandon => exact RunAttempt.abandon_steps h fun hclock => hclock
  | confirmProviderCancellation =>
    exact RunAttempt.confirmProviderCancellation_steps h fun hclock => hclock

end AttemptOp

/-! ## The fence -/

section Fence

variable {held : Held} {run : Run} {token : String} {now : ℕ}

/-- An operation that starts by authenticating goes nowhere with an attempt that is not current. -/
theorem RunAttempt.final_authenticate {α : Type} {k : Unit → HeldM α}
    (h : ¬ held.job.IsCurrent held.attempt) :
    final (check (fun held => held.attempt.authenticate held.job token now) >>= k) held = held :=
  final_check_bind fun _ hok => absurd (RunAttempt.authenticate_eq_ok.mp hok).1 h

/-- An operation presented with an attempt that is not the current one of the job changes nothing,
whether it succeeds or fails. -/
theorem AttemptOp.final_eq_of_not_current (op : AttemptOp)
    (h : ¬ held.job.IsCurrent held.attempt) : final (op.run run) held = held := by
  have hcurrent : ∀ u, held.job.ensureCurrentAttempt held.attempt ≠ .ok u :=
    fun u hok => h (RunJob.ensureCurrentAttempt_eq_ok.mp hok)
  cases op with
  | claimRuntime => exact RunAttempt.final_authenticate h
  | start => exact RunAttempt.final_authenticate h
  | heartbeat token now lease =>
    simp only [AttemptOp.run, RunAttempt.heartbeat, bind_assoc]
    exact RunAttempt.final_authenticate h
  | startStep token stepIndex now =>
    simp only [AttemptOp.run, RunAttempt.startStep, final_get_bind]
    split
    · simp only [RunAttempt.start, bind_assoc]
      exact RunAttempt.final_authenticate h
    · exact RunAttempt.final_authenticate h
  | completeStep =>
    simp only [AttemptOp.run, RunAttempt.completeStep, final_get_bind]
    split
    · exact final_check_bind fun _ _ => final_check _ _
    · exact RunAttempt.final_authenticate h
  | complete =>
    simp only [AttemptOp.run, RunAttempt.complete, final_get_bind]
    split
    · exact final_check_bind fun _ _ => final_check _ _
    · exact RunAttempt.final_authenticate h
  | rejectCapacity =>
    simp only [AttemptOp.run, RunAttempt.rejectCapacity, final_get_bind]
    split
    · exact final_check _ _
    · exact RunAttempt.final_authenticate h
  | expire => exact final_check_bind fun u hok => absurd hok (hcurrent u)
  | abandon => exact RunAttempt.final_authenticate h
  | confirmProviderCancellation =>
    simp only [AttemptOp.run, RunAttempt.confirmProviderCancellation, final_get_bind]
    split
    · rfl
    · exact final_check_bind fun u hok => absurd hok (hcurrent u)

end Fence

end ScopeVcs

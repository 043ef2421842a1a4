import ScopeVcs.Runs.Job

/-! # Operations on an attempt

What a runtime, the dispatcher and the provider do to one attempt together with its job and steps.
An operation first authenticates the attempt: its job must still count it as the latest and the
current one, the token must match and the lease must be alive.
-/

namespace ScopeVcs

open Mutation

/-- The records an operation on an attempt may change. -/
structure Held where
  attempt : RunAttempt
  job : RunJob
  steps : List RunAttemptStep
  deriving DecidableEq

abbrev HeldM := EStateM DomainError Held

/-- The states a job and its latest attempt may have together, unless the job was requeued. -/
def statesAlign : RunJobState → AttemptState → Bool
  | .dispatching, .dispatching | .running, .running | .succeeded, .succeeded | .failed, .failed
  | .canceled, .canceled | .lost, .lost => true
  | _, _ => false

namespace RunAttempt

def ensureJobAlignment (attempt : RunAttempt) (job : RunJob) : Except DomainError Unit := do
  job.ensureLatestAttempt attempt
  rejectIf (statesAlign job.state attempt.state = false)
    (.invariantViolation "run and attempt states disagree")

def authenticateIdentity (attempt : RunAttempt) (job : RunJob) (tokenHash : String) :
    Except DomainError Unit := do
  attempt.ensureJobAlignment job
  rejectIf (attempt.tokenHash ≠ tokenHash)
    (.authenticationFailed "attempt credentials are invalid")

def authenticate (attempt : RunAttempt) (job : RunJob) (tokenHash : String) (nowUnix : ℕ) :
    Except DomainError Unit := do
  attempt.authenticateIdentity job tokenHash
  job.ensureCurrentAttempt attempt
  attempt.ensureLeaseActive nowUnix

def start (run : Run) (tokenHash : String) (nowUnix : ℕ) : HeldM Unit := do
  check fun held => held.attempt.authenticate held.job tokenHash nowUnix
  check fun held => rejectIf (held.attempt.state ≠ .dispatching ∨ held.job.state ≠ .dispatching)
    (.conflict "attempt is not dispatching")
  check fun _ => rejectIf (run.cancellationRequested = true)
    (.conflict "run cancellation is requested")
  check fun held => held.attempt.ensureTimeNotBeforeHeartbeat nowUnix
  check fun held => held.job.ensureTimeNotBeforeUpdate nowUnix
  modify fun held => { held with
    attempt := { held.attempt with state := .running, startedAtUnix := some nowUnix }
    job := { held.job with state := .running, updatedAtUnix := nowUnix } }

def claimRuntime (bootstrapTokenHash attemptTokenHash : String)
    (nowUnix leaseExpiresAtUnix : ℕ) : HeldM Unit := do
  check fun held => held.attempt.authenticate held.job bootstrapTokenHash nowUnix
  check fun held => rejectIf (held.attempt.state ≠ .dispatching)
    (.conflict "attempt is not dispatching")
  check fun _ => rejectIf (leaseExpiresAtUnix ≤ nowUnix)
    (.invalidInput "attempt lease expiry must be in the future")
  check fun _ => validateSha256Hash "attempt token hash" attemptTokenHash
  check fun held => rejectIf (attemptTokenHash = held.attempt.tokenHash)
    (.invalidInput "attempt token must differ from the bootstrap token")
  modify fun held => { held with
    attempt := { held.attempt with
      tokenHash := attemptTokenHash
      lastHeartbeatAtUnix := nowUnix
      leaseExpiresAtUnix := leaseExpiresAtUnix } }

/-- Renews the lease and reports whether the run is to be canceled. -/
def heartbeat (run : Run) (tokenHash : String) (nowUnix leaseExpiresAtUnix : ℕ) : HeldM Bool := do
  check fun held => held.attempt.authenticate held.job tokenHash nowUnix
  check fun held => rejectIf (held.attempt.state.isTerminal = true)
    (.conflict "attempt is terminal")
  check fun _ => rejectIf (leaseExpiresAtUnix ≤ nowUnix)
    (.invalidInput "attempt lease expiry must be in the future")
  check fun held => held.attempt.ensureTimeNotBeforeHeartbeat nowUnix
  check fun held => rejectIf (leaseExpiresAtUnix < held.attempt.leaseExpiresAtUnix)
    (.invalidInput "attempt heartbeat cannot shorten its lease")
  modify fun held => { held with
    attempt := { held.attempt with
      lastHeartbeatAtUnix := nowUnix
      leaseExpiresAtUnix := leaseExpiresAtUnix } }
  return run.cancellationRequested

/-! ## Steps -/

/-- The part of `start_step` after the attempt was authenticated: starts the step, unless it is
already running. -/
def startPendingStep (run : Run) (stepIndex nowUnix : ℕ) : HeldM Unit := do
  check fun held => rejectIf (held.attempt.state ≠ .running ∨ held.job.state ≠ .running)
    (.conflict "attempt is not running")
  check fun held => held.attempt.validateExecution held.steps
  let held ← get
  match held.steps[stepIndex]? with
  | none => throw (.invalidInput "workflow step does not exist")
  | some step =>
    if step.state = .running then return ()
    else
      check fun _ => rejectIf (run.cancellationRequested = true)
        (.conflict "canceled run cannot start another workflow step")
      check fun _ => rejectIf (step.state ≠ .pending) (.conflict "step has already completed")
      check fun held => rejectIf (∃ step ∈ held.steps.take stepIndex, step.state ≠ .succeeded)
        (.conflict "workflow steps must start in order")
      check fun held => held.attempt.ensureTimeNotBeforeHeartbeat nowUnix
      check fun held => held.job.ensureTimeNotBeforeUpdate nowUnix
      modify fun held => { held with
        steps := held.steps.modify stepIndex (·.start nowUnix)
        job := { held.job with updatedAtUnix := nowUnix } }

/-- Starts a step; the first one also starts the attempt. -/
def startStep (run : Run) (tokenHash : String) (stepIndex nowUnix : ℕ) : HeldM Unit := do
  let held ← get
  if held.attempt.state = .dispatching ∧ stepIndex = 0 then
    start run tokenHash nowUnix
  else
    check fun held => held.attempt.authenticate held.job tokenHash nowUnix
  startPendingStep run stepIndex nowUnix

def markStepLogsTruncated (stepIndex : ℕ) : HeldM Unit := do
  check fun held => held.attempt.validateExecution held.steps
  let held ← get
  match held.steps[stepIndex]? with
  | none => throw (.invalidInput "workflow step does not exist")
  | some step =>
    check fun _ => rejectIf (step.state ≠ .running)
      (.conflict "only the running step can report truncated logs")
    match held.attempt.firstTruncatedStepIndex with
    | some existing =>
      check fun _ => rejectIf (stepIndex < existing)
        (.conflict "run attempt log truncation cannot move to an earlier step")
    | none =>
      modify fun held => { held with
        attempt := { held.attempt with firstTruncatedStepIndex := some stepIndex } }

def reportTruncation (logsTruncated : Bool) (stepIndex : ℕ) : HeldM Unit :=
  if logsTruncated then markStepLogsTruncated stepIndex else pure ()

/-- How a failed step ends its attempt: it fails, and what is left is skipped. -/
def failStep (held : Held) (stepIndex : ℕ) (exitCode : ℤ) (nowUnix : ℕ) : Held where
  steps :=
    let steps := held.steps.modify stepIndex (·.fail exitCode nowUnix)
    steps.take (stepIndex + 1) ++ skipPendingSteps (steps.drop (stepIndex + 1)) nowUnix
  attempt := { held.attempt with
    state := .failed
    completedAtUnix := some nowUnix
    terminalReason := some (.stepFailed stepIndex exitCode) }
  job := { held.job with
    state := .failed
    currentAttemptId := none
    updatedAtUnix := nowUnix
    completedAtUnix := some nowUnix }

/-- The part of `complete_step` that ends a running step. -/
def concludeStep (stepIndex : ℕ) (conclusion : StepConclusion) (logsTruncated : Bool)
    (nowUnix : ℕ) : HeldM Unit := do
  reportTruncation logsTruncated stepIndex
  check fun held => held.attempt.ensureTimeNotBeforeHeartbeat nowUnix
  check fun held => held.job.ensureTimeNotBeforeUpdate nowUnix
  match conclusion with
  | .succeeded =>
    modify fun held => { held with
      steps := held.steps.modify stepIndex (·.succeed nowUnix)
      job := { held.job with updatedAtUnix := nowUnix } }
  | .failed exitCode =>
    check fun _ => rejectIf (exitCode = 0)
      (.invalidInput "failed step exit code cannot be zero")
    modify fun held => failStep held stepIndex exitCode nowUnix

def completeStep (tokenHash : String) (stepIndex : ℕ) (conclusion : StepConclusion)
    (logsTruncated : Bool) (nowUnix : ℕ) : HeldM Unit := do
  let held ← get
  if held.attempt.state.isTerminal ∨ held.job.state.isTerminal then
    check fun held => held.attempt.authenticateIdentity held.job tokenHash
    check fun held => rejectIf (stepMatchesConclusion held.steps[stepIndex]? conclusion = false)
      (.conflict "step already completed with a different conclusion")
  else
    check fun held => held.attempt.authenticate held.job tokenHash nowUnix
    check fun held => held.attempt.validateExecution held.steps
    match held.steps[stepIndex]? with
    | none => throw (.invalidInput "workflow step does not exist")
    | some step =>
      if step.state.isTerminal then
        check fun _ => rejectIf (stepMatchesConclusion (some step) conclusion = false)
          (.conflict "step already completed with a different conclusion")
      else
        check fun _ => rejectIf (step.state ≠ .running) (.conflict "step is not running")
        concludeStep stepIndex conclusion logsTruncated nowUnix

/-! ## Completion -/

/-- The states, the reason and the steps that a conclusion leads to. -/
structure Ending where
  attemptState : AttemptState
  jobState : RunJobState
  terminalReason : Option AttemptTerminalReason
  steps : List RunAttemptStep

def ending (run : Run) (held : Held) (conclusion : AttemptConclusion) (nowUnix : ℕ) :
    Except DomainError Ending :=
  match conclusion with
  | .succeeded => do
    rejectIf (held.attempt.state ≠ .running ∨ ∃ step ∈ held.steps, step.state ≠ .succeeded)
      (.conflict "runtime can only succeed after every workflow step succeeds")
    if run.cancellationRequested then
      return ⟨.canceled, .canceled, some (.canceled none), held.steps⟩
    else return ⟨.succeeded, .succeeded, none, held.steps⟩
  | .setupFailed exitCode message => do
    rejectIf (held.attempt.state ≠ .dispatching)
      (.conflict "runtime setup can only fail before execution starts")
    rejectIf (exitCode = 0) (.invalidInput "runtime setup failure exit code cannot be zero")
    return ⟨.failed, .failed, some (.runtimeSetupFailed exitCode message),
      skipPendingSteps held.steps nowUnix⟩
  | .timedOut => do
    let (steps, stepIndex) := interruptSteps held.steps .canceled nowUnix
    return ⟨.failed, .failed, some (.timedOut stepIndex), steps⟩
  | .canceled => do
    rejectIf (run.cancellationRequested = false) (.conflict "run cancellation was not requested")
    let (steps, stepIndex) := interruptSteps held.steps .canceled nowUnix
    return ⟨.canceled, .canceled, some (.canceled stepIndex), steps⟩

/-- Ends the attempt and its job at once. -/
def finish (held : Held) (ending : Ending) (nowUnix : ℕ) : Held where
  attempt := { held.attempt with
    state := ending.attemptState
    terminalReason := ending.terminalReason
    completedAtUnix := some nowUnix }
  job := { held.job with
    state := ending.jobState
    currentAttemptId := none
    updatedAtUnix := nowUnix
    completedAtUnix := some nowUnix }
  steps := ending.steps

/-- The first report of truncated logs belongs to the running step. -/
def reportRunningTruncation (logsTruncated : Bool) : HeldM Unit := do
  let held ← get
  if logsTruncated ∧ held.attempt.firstTruncatedStepIndex = none then
    match held.steps.findIdx? fun step => step.state = .running with
    | none =>
      throw (.conflict "attempt log truncation requires an active or previously truncated step")
    | some stepIndex => markStepLogsTruncated stepIndex
  else pure ()

def complete (run : Run) (tokenHash : String) (conclusion : AttemptConclusion)
    (logsTruncated : Bool) (nowUnix : ℕ) : HeldM Unit := do
  let held ← get
  if held.attempt.state.isTerminal ∨ held.job.state.isTerminal then
    check fun held => held.attempt.authenticateIdentity held.job tokenHash
    check fun held => rejectIf (held.attempt.matchesConclusion conclusion = false)
      (.conflict "attempt already completed with a different conclusion")
  else
    check fun held => held.attempt.authenticate held.job tokenHash nowUnix
    check fun held => held.attempt.validateExecution held.steps
    reportRunningTruncation logsTruncated
    check fun held => held.attempt.ensureTimeNotBeforeHeartbeat nowUnix
    check fun held => held.job.ensureTimeNotBeforeUpdate nowUnix
    let ending ← check fun held => ending run held conclusion nowUnix
    modify fun held => finish held ending nowUnix

/-! ## Loss and cancellation -/

/-- An attempt that had not started goes back into the queue, unless the run is to be canceled or
its attempts are used up. -/
def lostEnding (run : Run) (held : Held) (nowUnix : ℕ) : Held :=
  let (steps, stepIndex) := interruptSteps held.steps .lost nowUnix
  let attempt := { held.attempt with
    state := .lost
    terminalReason := some (.executionLost stepIndex)
    completedAtUnix := some nowUnix }
  let job := { held.job with currentAttemptId := none, updatedAtUnix := nowUnix }
  if held.attempt.state = .running then
    ⟨attempt, { job with state := .lost, completedAtUnix := some nowUnix }, steps⟩
  else if run.cancellationRequested then
    ⟨attempt, { job with state := .canceled, completedAtUnix := some nowUnix }, steps⟩
  else if held.attempt.number = maxRunAttempts then
    ⟨{ attempt with terminalReason := some .dispatchAttemptsExhausted },
      { job with state := .lost, completedAtUnix := some nowUnix }, steps⟩
  else ⟨attempt, { job with state := .queued }, steps⟩

def finishLostOrRequeue (run : Run) (nowUnix : ℕ) : HeldM Unit := do
  check fun held => held.job.ensureCurrentAttempt held.attempt
  check fun held => held.attempt.validateExecution held.steps
  check fun held => held.job.ensureTimeNotBeforeUpdate nowUnix
  modify fun held => lostEnding run held nowUnix

/-- Gives up an attempt whose lease or maximum age has run out. -/
def expire (run : Run) (nowUnix : ℕ) : HeldM Unit := do
  check fun held => held.job.ensureCurrentAttempt held.attempt
  check fun held => rejectIf (held.attempt.state.isTerminal = true)
    (.conflict "attempt is terminal")
  check fun held => rejectIf (nowUnix < held.attempt.leaseExpiresAtUnix ∧
      nowUnix < U64.saturatingAdd held.attempt.createdAtUnix maxRunAttemptAgeSeconds)
    (.conflict "attempt lease and maximum runtime have not expired")
  finishLostOrRequeue run nowUnix

/-- The runtime gives its attempt up. -/
def abandon (run : Run) (tokenHash : String) (nowUnix : ℕ) : HeldM Unit := do
  check fun held => held.attempt.authenticate held.job tokenHash nowUnix
  let held ← get
  if held.attempt.state.isTerminal then return ()
  else finishLostOrRequeue run nowUnix

def confirmProviderCancellation (run : Run) (nowUnix : ℕ) : HeldM Unit := do
  let held ← get
  if held.attempt.state = .canceled ∧ held.job.state = .canceled ∧
      held.job.currentAttemptId = none then
    return ()
  else
    check fun held => held.job.ensureCurrentAttempt held.attempt
    check fun held => rejectIf (held.attempt.state.isTerminal = true)
      (.conflict "attempt is terminal")
    check fun _ => rejectIf (run.cancellationRequested = false)
      (.conflict "run cancellation was not requested")
    check fun held => held.attempt.validateExecution held.steps
    check fun held => held.job.ensureTimeNotBeforeUpdate nowUnix
    modify fun held =>
      let (steps, stepIndex) := interruptSteps held.steps .canceled nowUnix
      finish held ⟨.canceled, .canceled, some (.canceled stepIndex), steps⟩ nowUnix

/-- Whether an attempt was already rejected for lack of capacity, with the same token and
message. -/
def matchesCapacityRejection (attempt : RunAttempt) (tokenHash : String)
    (message : SetupFailureMessage) : Prop :=
  attempt.tokenHash = tokenHash ∧
    attempt.terminalReason = some (.providerCapacityRejected message)

instance (attempt : RunAttempt) (tokenHash : String) (message : SetupFailureMessage) :
    Decidable (attempt.matchesCapacityRejection tokenHash message) :=
  inferInstanceAs (Decidable (_ ∧ _))

/-- Runs an operation of the job inside one of its attempt. -/
def onJob {α : Type} (op : EStateM DomainError RunJob α) : HeldM α := fun held =>
  match op.run held.job with
  | .ok a job => .ok a { held with job }
  | .error e job => .error e { held with job }

/-- The provider had no capacity for the attempt, which fails; its job may try again later. -/
def rejectCapacity (run : Run) (tokenHash : String) (message : SetupFailureMessage)
    (nowUnix : ℕ) : HeldM Unit := do
  let held ← get
  if held.attempt.state.isTerminal then
    check fun held => rejectIf (¬ held.attempt.matchesCapacityRejection tokenHash message)
      (.conflict "attempt already completed with a different conclusion")
  else
    check fun held => held.attempt.authenticate held.job tokenHash nowUnix
    check fun held => rejectIf (held.attempt.state ≠ .dispatching ∨
        held.job.state ≠ .dispatching ∨ held.attempt.startedAtUnix ≠ none ∨
        run.cancellationRequested = true)
      (.conflict "capacity rejection requires an active uncanceled dispatch")
    check fun held => held.attempt.validateExecution held.steps
    check fun held => held.attempt.ensureTimeNotBeforeHeartbeat nowUnix
    check fun held => held.job.ensureTimeNotBeforeUpdate nowUnix
    modify fun held => { held with
      steps := skipPendingSteps held.steps nowUnix
      attempt := { held.attempt with
        state := .failed
        terminalReason := some (.providerCapacityRejected message)
        completedAtUnix := some nowUnix } }
    onJob (RunJob.recordCapacityRejection nowUnix)

end RunAttempt

end ScopeVcs

import ScopeVcs.Lib.U64
import ScopeVcs.Runs.Step

/-! # Attempts

An attempt is one try at running a job. It holds a lease that its runtime renews by heartbeats, and
the hash of the token that authenticates the runtime.
-/

namespace ScopeVcs

open Mutation

def maxRunAttempts : ℕ := 100

def maxWorkflowTimeoutSeconds : ℕ := 24 * 60 * 60

def runAttemptOverheadSeconds : ℕ := 60 * 60

def maxRunAttemptAgeSeconds : ℕ := maxWorkflowTimeoutSeconds + runAttemptOverheadSeconds

def maxRunLogBytesPerAttempt : ℕ := 10 * 1024 * 1024

inductive AttemptState where
  | dispatching
  | running
  | succeeded
  | failed
  | canceled
  | lost
  deriving DecidableEq

def AttemptState.isTerminal : AttemptState → Bool
  | .succeeded | .failed | .canceled | .lost => true
  | .dispatching | .running => false

structure RunAttempt where
  id : String
  runId : String
  jobKey : WorkflowJobId
  number : ℕ
  externalRunId : Option String
  runtimeVersion : String
  tokenHash : String
  state : AttemptState
  leaseExpiresAtUnix : ℕ
  lastHeartbeatAtUnix : ℕ
  createdAtUnix : ℕ
  startedAtUnix : Option ℕ
  completedAtUnix : Option ℕ
  terminalReason : Option AttemptTerminalReason
  logBytes : ℕ
  firstTruncatedStepIndex : Option ℕ
  deriving DecidableEq

namespace RunAttempt

/-- The timestamps a restored attempt may not have: a heartbeat before the attempt was created or
after its lease, a start outside of both, or an end before the last heartbeat or the start. -/
def timestampsInconsistent (attempt : RunAttempt) : Prop :=
  attempt.lastHeartbeatAtUnix < attempt.createdAtUnix ∨
    attempt.leaseExpiresAtUnix ≤ attempt.lastHeartbeatAtUnix ∨
    (∃ started ∈ attempt.startedAtUnix,
      started < attempt.createdAtUnix ∨ attempt.leaseExpiresAtUnix ≤ started) ∨
    (∃ completed ∈ attempt.completedAtUnix, completed < attempt.lastHeartbeatAtUnix) ∨
    ∃ started ∈ attempt.startedAtUnix, ∃ completed ∈ attempt.completedAtUnix, completed < started

instance (attempt : RunAttempt) : Decidable attempt.timestampsInconsistent :=
  inferInstanceAs (Decidable (_ ∨ _))

def validateTerminalReason (attempt : RunAttempt) : Except DomainError Unit :=
  match attempt.state with
  | .succeeded => rejectIf (attempt.terminalReason ≠ none)
      (.invariantViolation "successful attempt cannot have a terminal failure reason")
  | .failed | .canceled | .lost => rejectIf (attempt.terminalReason = none)
      (.invariantViolation "unsuccessful terminal attempt must have a terminal reason")
  | .dispatching | .running => rejectIf (attempt.terminalReason ≠ none)
      (.invariantViolation "active attempt cannot have a terminal reason")

def validateFacts (attempt : RunAttempt) : Except DomainError Unit := do
  rejectIf (attempt.number = 0) (.invariantViolation "run attempt number must be positive")
  rejectIf (maxRunLogBytesPerAttempt < attempt.logBytes)
    (.invariantViolation "run attempt log byte count exceeds its limit")
  rejectIf (attempt.state ∈ [.running, .succeeded] ∧ attempt.startedAtUnix = none)
    (.invariantViolation "running or successful attempt must have a start time")
  rejectIf (attempt.state.isTerminal ≠ attempt.completedAtUnix.isSome)
    (.invariantViolation "attempt terminal state and completion time disagree")
  rejectIf attempt.timestampsInconsistent
    (.invariantViolation "run attempt timestamps are inconsistent")
  attempt.validateTerminalReason

/-- Reads a stored row back. -/
def restore (row : RunAttempt) : Except DomainError RunAttempt := do
  validateSha256Hash "attempt token hash" row.tokenHash
  let id ← required "run attempt id" row.id
  let runId ← required "run attempt run id" row.runId
  let externalRunId ← row.externalRunId.mapM (required "external run id")
  let runtimeVersion ← required "runtime version" row.runtimeVersion
  let attempt := { row with id, runId, externalRunId, runtimeVersion }
  attempt.validateFacts
  return attempt

def matchesConclusion (attempt : RunAttempt) (conclusion : AttemptConclusion) : Bool :=
  match conclusion, attempt.terminalReason with
  | .succeeded, none => attempt.state = .succeeded
  | .succeeded, some (.canceled _) => attempt.state = .canceled
  | .setupFailed exitCode message, some (.runtimeSetupFailed existing existingMessage) =>
    attempt.state = .failed ∧ exitCode = existing ∧ message = existingMessage
  | .timedOut, some (.timedOut _) => attempt.state = .failed
  | .canceled, some (.canceled _) => attempt.state = .canceled
  | _, _ => false

def ensureLeaseActive (attempt : RunAttempt) (nowUnix : ℕ) : Except DomainError Unit :=
  rejectIf (attempt.leaseExpiresAtUnix ≤ nowUnix)
    (.authenticationFailed "attempt credentials are invalid or expired")

def ensureTimeNotBeforeHeartbeat (attempt : RunAttempt) (nowUnix : ℕ) : Except DomainError Unit :=
  rejectIf (nowUnix < attempt.lastHeartbeatAtUnix)
    (.invalidInput "attempt transition time cannot move backward")

/-! ## Execution -/

/-- The loop of `validate_execution` from position `index` on. After a step that did not succeed
only pending and skipped ones may follow. -/
def validateSteps (attempt : RunAttempt) (index : ℕ) (executionStopped : Bool) :
    List RunAttemptStep → Except DomainError Unit
  | [] => .ok ()
  | step :: steps => do
    rejectIf (step.attemptId ≠ attempt.id ∨ step.stepIndex ≠ index)
      (.invariantViolation "run attempt step identity is inconsistent")
    step.validateFacts
    rejectIf (executionStopped = true ∧ step.state ∉ [.pending, .skipped])
      (.invariantViolation "later workflow step started out of order")
    attempt.validateSteps (index + 1) (executionStopped || step.state ≠ .succeeded) steps

/-- How the state of an attempt and its reason show in the states of the steps. -/
def aggregateMatches (attempt : RunAttempt) (steps : List RunAttemptStep) : Bool :=
  match attempt.state, attempt.terminalReason with
  | .dispatching, none => steps.all fun step => step.state = .pending
  | .running, none => steps.all fun step => step.state ∈ [.succeeded, .running, .pending]
  | .succeeded, none => steps.all fun step => step.state = .succeeded
  | .failed, some (.stepFailed stepIndex exitCode) =>
    terminalStepMatches steps stepIndex .failed (some exitCode)
  | .failed, some (.runtimeSetupFailed exitCode _) =>
    exitCode ≠ 0 && steps.all fun step => step.state = .skipped
  | .failed, some (.timedOut stepIndex) | .canceled, some (.canceled stepIndex) =>
    interruptedStepMatches steps stepIndex .canceled
  | .failed, some (.providerCapacityRejected _) =>
    attempt.startedAtUnix = none && steps.all fun step => step.state = .skipped
  | .lost, some (.executionLost stepIndex) => interruptedStepMatches steps stepIndex .lost
  | .lost, some .dispatchAttemptsExhausted =>
    attempt.startedAtUnix = none && attempt.number = maxRunAttempts &&
      steps.all fun step => step.state = .skipped
  | _, _ => false

def validateExecution (attempt : RunAttempt) (steps : List RunAttemptStep) :
    Except DomainError Unit := do
  rejectIf (steps = []) (.invariantViolation "run attempt must contain workflow steps")
  attempt.validateSteps 0 false steps
  rejectIf (1 < steps.countP fun step => step.state = .running)
    (.invariantViolation "run attempt cannot have multiple running steps")
  rejectIf (attempt.aggregateMatches steps = false)
    (.invariantViolation "run attempt aggregate and step states disagree")

end RunAttempt

end ScopeVcs

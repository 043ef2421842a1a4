import ScopeVcs.Runs.Attempt
import ScopeVcs.Runs.Run

/-! # Jobs of a run

A job waits until its needs succeeded, is dispatched as an attempt and ends with it. It numbers its
attempts and knows the current one; a provider without capacity puts it back into the queue.
-/

namespace ScopeVcs

open Mutation

inductive RunJobState where
  | blocked
  | queued
  | dispatching
  | running
  | succeeded
  | failed
  | skipped
  | canceled
  | lost
  deriving DecidableEq

def RunJobState.isTerminal : RunJobState → Bool
  | .succeeded | .failed | .skipped | .canceled | .lost => true
  | .blocked | .queued | .dispatching | .running => false

structure CapacityRetry where
  firstRejectedAtUnix : ℕ
  rejections : ℕ
  nextAttemptAtUnix : Option ℕ
  deriving DecidableEq

structure RunJob where
  runId : String
  key : WorkflowJobId
  pinnedContainerImage : String
  state : RunJobState
  lastAttemptNumber : ℕ
  currentAttemptId : Option String
  createdAtUnix : ℕ
  updatedAtUnix : ℕ
  completedAtUnix : Option ℕ
  capacityRetry : Option CapacityRetry
  deriving DecidableEq

def maxCapacityRetries : ℕ := 3

def capacityRetryWindowSeconds : ℕ := 120

/-- The time at which the window for retries closes. -/
def CapacityRetry.deadline (retry : CapacityRetry) : ℕ :=
  U64.saturatingAdd retry.firstRejectedAtUnix capacityRetryWindowSeconds

/-- A job that needs others starts blocked. -/
def initialJobState (definition : WorkflowJob) : RunJobState :=
  if definition.needs = [] then .queued else .blocked

namespace RunJob

def new (run : Run) (definition : WorkflowJob) : RunJob where
  runId := run.id
  key := definition.id
  pinnedContainerImage := definition.pinnedImage
  state := initialJobState definition
  lastAttemptNumber := 0
  currentAttemptId := none
  createdAtUnix := run.createdAtUnix
  updatedAtUnix := run.createdAtUnix
  completedAtUnix := none
  capacityRetry := none

/-- Whether the job is on a runner. -/
def isActive (job : RunJob) : Bool := job.state = .dispatching ∨ job.state = .running

/-- The retries a restored job may not have. -/
def retryInconsistent (job : RunJob) (retry : CapacityRetry) : Prop :=
  retry.rejections = 0 ∨ maxCapacityRetries + 1 < retry.rejections ∨
    retry.firstRejectedAtUnix < job.createdAtUnix ∨
    job.updatedAtUnix < retry.firstRejectedAtUnix ∨
    ∃ next ∈ retry.nextAttemptAtUnix, next ≤ retry.firstRejectedAtUnix ∨ retry.deadline ≤ next ∨
      maxCapacityRetries < retry.rejections ∨ job.state ≠ .queued

instance (job : RunJob) (retry : CapacityRetry) : Decidable (job.retryInconsistent retry) :=
  inferInstanceAs (Decidable (_ ∨ _))

def validateFacts (job : RunJob) : Except DomainError Unit := do
  rejectIf (job.isActive ≠ job.currentAttemptId.isSome)
    (.invariantViolation "run job active state and current attempt disagree")
  rejectIf (job.state.isTerminal ≠ job.completedAtUnix.isSome)
    (.invariantViolation "run job terminal state and completion time disagree")
  rejectIf (maxRunAttempts < job.lastAttemptNumber)
    (.invariantViolation "run job attempt history exceeds its bounded limit")
  rejectIf (∃ retry ∈ job.capacityRetry, job.retryInconsistent retry)
    (.invariantViolation "run job capacity retry facts are inconsistent")
  rejectIf (job.updatedAtUnix < job.createdAtUnix ∨
      ∃ completed ∈ job.completedAtUnix, completed ≠ job.updatedAtUnix)
    (.invariantViolation "run job timestamps are inconsistent")

/-- Reads a stored row back. -/
def restore (row : RunJob) : Except DomainError RunJob := do
  let runId ← required "run job run id" row.runId
  let job := { row with runId }
  job.validateFacts
  return job

def ensureTimeNotBeforeUpdate (job : RunJob) (nowUnix : ℕ) : Except DomainError Unit :=
  rejectIf (nowUnix < job.updatedAtUnix)
    (.invalidInput "run job transition time cannot move backward")

def ensureLatestAttempt (job : RunJob) (attempt : RunAttempt) : Except DomainError Unit :=
  rejectIf (attempt.runId ≠ job.runId ∨ attempt.jobKey ≠ job.key ∨
      attempt.number ≠ job.lastAttemptNumber)
    (.conflict "attempt is not the latest run job attempt")

def ensureCurrentAttempt (job : RunJob) (attempt : RunAttempt) : Except DomainError Unit := do
  job.ensureLatestAttempt attempt
  rejectIf (job.currentAttemptId ≠ some attempt.id)
    (.conflict "attempt is not the current run job attempt")

/-- Whether a capacity retry keeps the job from being dispatched: it is not due, or too late. -/
def retryBlocksDispatch (job : RunJob) (nowUnix : ℕ) : Prop :=
  ∃ retry ∈ job.capacityRetry,
    (∃ next ∈ retry.nextAttemptAtUnix, nowUnix < next) ∨ retry.deadline ≤ nowUnix

instance (job : RunJob) (nowUnix : ℕ) : Decidable (job.retryBlocksDispatch nowUnix) :=
  inferInstanceAs (Decidable (∃ _ ∈ _, _))

/-- The pending steps of a new attempt. -/
def pendingSteps (attemptId : String) (definition : WorkflowJob) :
    Except DomainError (List RunAttemptStep) :=
  definition.steps.zipIdx.mapM fun (_, index) => do
    rejectIf (U64.maxU32 < index) (.conflict "workflow step index overflow")
    RunAttemptStep.pending attemptId index

def newAttempt (job : RunJob) (run : Run) (attemptId tokenHash runtimeVersion : String)
    (nowUnix leaseExpiresAtUnix : ℕ) : RunAttempt where
  id := attemptId
  runId := run.id
  jobKey := job.key
  number := job.lastAttemptNumber + 1
  externalRunId := none
  runtimeVersion
  tokenHash
  state := .dispatching
  leaseExpiresAtUnix
  lastHeartbeatAtUnix := nowUnix
  createdAtUnix := nowUnix
  startedAtUnix := none
  completedAtUnix := none
  terminalReason := none
  logBytes := 0
  firstTruncatedStepIndex := none

/-- The job with its next attempt on a runner. -/
def dispatched (job : RunJob) (attemptId : String) (nowUnix : ℕ) : RunJob :=
  { job with
    state := .dispatching
    lastAttemptNumber := job.lastAttemptNumber + 1
    currentAttemptId := some attemptId
    updatedAtUnix := nowUnix
    capacityRetry := job.capacityRetry.map fun retry => { retry with nextAttemptAtUnix := none } }

/-- Puts a queued job on a runner, as a new attempt with pending steps. -/
def dispatch (run : Run) (definition : WorkflowJob)
    (attemptId tokenHash runtimeVersion : String) (nowUnix leaseExpiresAtUnix : ℕ) :
    EStateM DomainError RunJob (RunAttempt × List RunAttemptStep) := do
  check fun job => rejectIf (job.runId ≠ run.id ∨ job.key ≠ definition.id)
    (.invariantViolation "run job does not match its run or workflow definition")
  check fun job => rejectIf (job.state ≠ .queued ∨ job.currentAttemptId ≠ none)
    (.conflict "run job is not queued")
  check fun _ => rejectIf (run.cancellationRequested = true)
    (.conflict "run cancellation is requested")
  check fun _ => rejectIf (leaseExpiresAtUnix ≤ nowUnix)
    (.invalidInput "attempt lease expiry must be in the future")
  check fun job => job.ensureTimeNotBeforeUpdate nowUnix
  check fun job => rejectIf (job.retryBlocksDispatch nowUnix)
    (.conflict "capacity retry is not due or its window expired")
  let attemptId ← check fun _ => required "run attempt id" attemptId
  check fun _ => validateSha256Hash "attempt token hash" tokenHash
  check fun job => rejectIf (U64.maxU32 < job.lastAttemptNumber + 1)
    (.conflict "run job attempt number overflow")
  check fun job => rejectIf (maxRunAttempts < job.lastAttemptNumber + 1)
    (.conflict "run job attempt limit reached")
  let runtimeVersion ← check fun _ => required "runtime version" runtimeVersion
  let steps ← check fun _ => pendingSteps attemptId definition
  modifyGet fun job =>
    ((job.newAttempt run attemptId tokenHash runtimeVersion nowUnix leaseExpiresAtUnix, steps),
      job.dispatched attemptId nowUnix)

/-- The delay before the next attempt, by the number of rejections so far. -/
def capacityRetryDelay (rejections : ℕ) : ℕ :=
  match min (rejections - 1) 2 with
  | 0 => 10
  | 1 => 30
  | _ => 60

theorem capacityRetryDelay_pos (rejections : ℕ) : 0 < capacityRetryDelay rejections := by
  unfold capacityRetryDelay
  split <;> decide

/-- The retry facts after one more rejection. Whether the job may try again is decided by its
number of rejections and attempts and by the window that opened at the first rejection. -/
def rejectedRetry (job : RunJob) (nowUnix : ℕ) : CapacityRetry :=
  let first := job.capacityRetry.elim nowUnix (·.firstRejectedAtUnix)
  let rejections := job.capacityRetry.elim 1 (·.rejections + 1)
  let deadline := U64.saturatingAdd first capacityRetryWindowSeconds
  let next := U64.saturatingAdd nowUnix (capacityRetryDelay rejections)
  let retry := rejections ≤ maxCapacityRetries ∧ job.lastAttemptNumber < maxRunAttempts ∧
    next < deadline
  ⟨first, rejections, if retry then some next else none⟩

def recordCapacityRejection (nowUnix : ℕ) : EStateM DomainError RunJob Unit := do
  check fun job => job.ensureTimeNotBeforeUpdate nowUnix
  modify fun job =>
    let retry := job.rejectedRetry nowUnix
    { job with
      capacityRetry := some retry
      state := if retry.nextAttemptAtUnix.isSome then .queued else .failed
      currentAttemptId := none
      updatedAtUnix := nowUnix
      completedAtUnix := if retry.nextAttemptAtUnix.isSome then none else some nowUnix }

/-- Fails a queued job whose window for retries has closed, and says whether it did. -/
def expireCapacityRetry (nowUnix : ℕ) : EStateM DomainError RunJob Bool := do
  let job ← get
  match job.capacityRetry with
  | none => return false
  | some retry =>
    if job.state ≠ .queued ∨ nowUnix < retry.deadline then return false
    else
      check fun job => job.ensureTimeNotBeforeUpdate nowUnix
      modify fun job =>
        { job with
          capacityRetry := some { retry with nextAttemptAtUnix := none }
          state := .failed
          updatedAtUnix := nowUnix
          completedAtUnix := some nowUnix }
      return true

end RunJob

def createRunJobs (run : Run) (revision : WorkflowRevision) : Except DomainError (List RunJob) := do
  run.validateWorkflowRevision revision
  return revision.definition.jobs.map (RunJob.new run)

end ScopeVcs

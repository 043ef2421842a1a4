import ScopeVcs.Runs.Workflow

/-! # Steps of an attempt

An attempt works through the steps of its job one after the other. A step that never ran is skipped
when the attempt ends; the one that was running when it is interrupted is canceled or lost.
-/

namespace ScopeVcs

open Mutation

def maxRunSetupFailureMessageBytes : ℕ := 2 * 1024

def validSetupFailureMessage (message : String) : Bool :=
  !Text.isBlank message && Text.byteLength message.toList ≤ maxRunSetupFailureMessageBytes &&
    !message.toList.contains (Char.ofNat 0)

/-- The message of a failed setup, which is valid by construction. -/
structure SetupFailureMessage where
  text : String
  valid : validSetupFailureMessage text = true
  deriving DecidableEq

inductive StepState where
  | pending
  | running
  | succeeded
  | failed
  | canceled
  | lost
  | skipped
  deriving DecidableEq

def StepState.isTerminal : StepState → Bool
  | .succeeded | .failed | .canceled | .lost | .skipped => true
  | .pending | .running => false

inductive AttemptConclusion where
  | succeeded
  | setupFailed (exitCode : ℤ) (message : SetupFailureMessage)
  | timedOut
  | canceled
  deriving DecidableEq

inductive StepConclusion where
  | succeeded
  | failed (exitCode : ℤ)
  deriving DecidableEq

inductive AttemptTerminalReason where
  | stepFailed (stepIndex : ℕ) (exitCode : ℤ)
  | timedOut (stepIndex : Option ℕ)
  | canceled (stepIndex : Option ℕ)
  | executionLost (stepIndex : Option ℕ)
  | dispatchAttemptsExhausted
  | runtimeSetupFailed (exitCode : ℤ) (message : SetupFailureMessage)
  | providerCapacityRejected (message : SetupFailureMessage)
  deriving DecidableEq

structure RunAttemptStep where
  attemptId : String
  stepIndex : ℕ
  state : StepState
  startedAtUnix : Option ℕ
  completedAtUnix : Option ℕ
  exitCode : Option ℤ
  deriving DecidableEq

namespace RunAttemptStep

def pending (attemptId : String) (stepIndex : ℕ) : Except DomainError RunAttemptStep :=
  if Text.isBlank attemptId then
    .error (.invalidInput "run attempt step attempt id is required")
  else .ok ⟨attemptId, stepIndex, .pending, none, none, none⟩

def start (step : RunAttemptStep) (nowUnix : ℕ) : RunAttemptStep :=
  { step with state := .running, startedAtUnix := some nowUnix }

def succeed (step : RunAttemptStep) (nowUnix : ℕ) : RunAttemptStep :=
  { step with state := .succeeded, completedAtUnix := some nowUnix, exitCode := some 0 }

def fail (step : RunAttemptStep) (exitCode : ℤ) (nowUnix : ℕ) : RunAttemptStep :=
  { step with state := .failed, completedAtUnix := some nowUnix, exitCode := some exitCode }

def stop (step : RunAttemptStep) (state : StepState) (nowUnix : ℕ) : RunAttemptStep :=
  { step with state, completedAtUnix := some nowUnix }

/-- The exit code a state comes with: zero, nonzero, or none. -/
def validateExitCode (step : RunAttemptStep) : Except DomainError Unit :=
  match step.state with
  | .succeeded => rejectIf (step.exitCode ≠ some 0)
      (.invariantViolation "successful step must have exit code zero")
  | .failed => rejectIf (step.exitCode = none ∨ step.exitCode = some 0)
      (.invariantViolation "failed step must have a nonzero exit code")
  | .pending | .running | .canceled | .lost | .skipped => rejectIf (step.exitCode ≠ none)
      (.invariantViolation "unfinished or interrupted step cannot have an exit code")

def validateFacts (step : RunAttemptStep) : Except DomainError Unit := do
  rejectIf (step.state = .pending ∧
      (step.startedAtUnix ≠ none ∨ step.completedAtUnix ≠ none ∨ step.exitCode ≠ none))
    (.invariantViolation "pending step cannot contain execution results")
  rejectIf (step.state = .running ∧
      (step.startedAtUnix = none ∨ step.completedAtUnix ≠ none ∨ step.exitCode ≠ none))
    (.invariantViolation "running step facts are inconsistent")
  rejectIf (step.state.isTerminal ≠ step.completedAtUnix.isSome)
    (.invariantViolation "step terminal state and completion time disagree")
  rejectIf (∃ started ∈ step.startedAtUnix, ∃ completed ∈ step.completedAtUnix,
      completed < started)
    (.invariantViolation "step completion cannot precede its start")
  step.validateExitCode
  rejectIf (step.state ∈ [.succeeded, .failed, .canceled, .lost] ∧ step.startedAtUnix = none)
    (.invariantViolation "executed step must have a start time")

/-- Reads a stored row back. -/
def restore (row : RunAttemptStep) : Except DomainError RunAttemptStep := do
  let step ← pending row.attemptId row.stepIndex
  let step := { step with
    state := row.state
    startedAtUnix := row.startedAtUnix
    completedAtUnix := row.completedAtUnix
    exitCode := row.exitCode }
  step.validateFacts
  return step

end RunAttemptStep

def stepMatchesConclusion (step : Option RunAttemptStep) (conclusion : StepConclusion) : Bool :=
  match step, conclusion with
  | some step, .succeeded => step.state = .succeeded ∧ step.exitCode = some 0
  | some step, .failed exitCode => step.state = .failed ∧ step.exitCode = some exitCode
  | none, _ => false

def skipPendingSteps (steps : List RunAttemptStep) (nowUnix : ℕ) : List RunAttemptStep :=
  steps.map fun step => if step.state = .pending then step.stop .skipped nowUnix else step

/-- Stops the running step in the state `interrupted` and skips all that did not start. Also says
which step was running. -/
def interruptSteps (steps : List RunAttemptStep) (interrupted : StepState) (nowUnix : ℕ) :
    List RunAttemptStep × Option ℕ :=
  let activeIndex := steps.findIdx? fun step => step.state = .running
  let steps := match activeIndex with
    | some index => steps.modify index (·.stop interrupted nowUnix)
    | none => steps
  (skipPendingSteps steps nowUnix, activeIndex)

/-- The step at `stepIndex` ended the attempt, and nothing after it ran. -/
def terminalStepMatches (steps : List RunAttemptStep) (stepIndex : ℕ) (state : StepState)
    (exitCode : Option ℤ) : Bool :=
  (match steps[stepIndex]? with
    | some step => step.state = state ∧ ∀ code ∈ exitCode, step.exitCode = some code
    | none => false) &&
  (steps.drop (stepIndex + 1)).all fun step => step.state = .skipped

def interruptedStepMatches (steps : List RunAttemptStep) (stepIndex : Option ℕ)
    (interruptedState : StepState) : Bool :=
  match stepIndex with
  | some index => terminalStepMatches steps index interruptedState none
  | none => steps.all fun step => step.state ∈ [.succeeded, .skipped]

end ScopeVcs

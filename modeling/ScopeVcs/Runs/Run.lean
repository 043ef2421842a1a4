import ScopeVcs.Runs.Workflow

/-! # Runs

A run executes one workflow revision. Its state follows from the states of its jobs; the run itself
records who asked for it and whether cancellation was requested.
-/

namespace ScopeVcs

open Mutation

inductive RunState where
  | queued
  | dispatching
  | running
  | succeeded
  | failed
  | canceled
  | lost
  deriving DecidableEq

def RunState.isTerminal : RunState → Bool
  | .succeeded | .failed | .canceled | .lost => true
  | _ => false

inductive RunTrigger where
  | manual
  | pushMain
  | request
  deriving DecidableEq

/-- Whether the triggers of a workflow include the one of a run. -/
def WorkflowTriggers.enabled (triggers : WorkflowTriggers) : RunTrigger → Bool
  | .manual => triggers.manual
  | .pushMain => triggers.pushMain
  | .request => triggers.request

structure Run where
  id : String
  idempotencyKey : String
  workflow : WorkflowIdentity
  workflowRevisionDigest : String
  trigger : RunTrigger
  requestedByUserId : Option String
  state : RunState
  cancellationRequested : Bool
  createdAtUnix : ℕ
  updatedAtUnix : ℕ
  completedAtUnix : Option ℕ
  deriving DecidableEq

namespace Run

/-- The checks that a new and a restored run share. -/
def queued (id idempotencyKey : String) (workflow : WorkflowIdentity)
    (workflowRevisionDigest : String) (trigger : RunTrigger) (requestedByUserId : Option String)
    (nowUnix : ℕ) : Except DomainError Run := do
  let id ← required "run id" id
  let idempotencyKey ← required "run idempotency key" idempotencyKey
  validateSha256Hash "workflow revision digest" workflowRevisionDigest
  rejectIf (requestedByUserId.any Text.isBlank)
    (.invalidInput "run requester user id cannot be empty")
  return {
    id, idempotencyKey, workflow, workflowRevisionDigest, trigger, requestedByUserId
    state := .queued
    cancellationRequested := false
    createdAtUnix := nowUnix
    updatedAtUnix := nowUnix
    completedAtUnix := none }

def new (id idempotencyKey : String) (workflow : WorkflowIdentity)
    (workflowRevisionDigest : String) (trigger : RunTrigger) (requestedByUserId : Option String)
    (nowUnix : ℕ) : Except DomainError Run := do
  rejectIf (trigger = .manual ∧ requestedByUserId = none)
    (.invalidInput "manual run requester user id is required")
  queued id idempotencyKey workflow workflowRevisionDigest trigger requestedByUserId nowUnix

def validateFacts (run : Run) : Except DomainError Unit := do
  rejectIf (run.state.isTerminal ≠ run.completedAtUnix.isSome)
    (.invariantViolation "run terminal state and completion time disagree")
  rejectIf (run.updatedAtUnix < run.createdAtUnix ∨
      ∃ completed ∈ run.completedAtUnix, completed ≠ run.updatedAtUnix)
    (.invariantViolation "run timestamps are inconsistent")
  rejectIf (run.state = .canceled ∧ run.cancellationRequested = false)
    (.invariantViolation "canceled run must record cancellation intent")

/-- Reads a stored row back. -/
def restore (row : Run) : Except DomainError Run := do
  let run ← queued row.id row.idempotencyKey row.workflow row.workflowRevisionDigest row.trigger
    row.requestedByUserId row.createdAtUnix
  let run := { run with
    state := row.state
    cancellationRequested := row.cancellationRequested
    updatedAtUnix := row.updatedAtUnix
    completedAtUnix := row.completedAtUnix }
  run.validateFacts
  return run

def canRequestCancellation (run : Run) : Bool :=
  !run.state.isTerminal && !run.cancellationRequested

def ensureTimeNotBeforeUpdate (run : Run) (nowUnix : ℕ) : Except DomainError Unit :=
  rejectIf (nowUnix < run.updatedAtUnix)
    (.invalidInput "run transition time cannot move backward")

/-- Requests cancellation, or reports that there is nothing to cancel. -/
def requestCancellation (run : Run) (nowUnix : ℕ) : Except DomainError (Bool × Run) :=
  if run.canRequestCancellation then do
    run.ensureTimeNotBeforeUpdate nowUnix
    return (true, { run with cancellationRequested := true, updatedAtUnix := nowUnix })
  else return (false, run)

def validateWorkflowRevision (run : Run) (revision : WorkflowRevision) :
    Except DomainError Unit := do
  rejectIf (revision.workflow ≠ run.workflow ∨ revision.digest ≠ run.workflowRevisionDigest)
    (.invalidInput "run workflow revision does not match the run identity")
  rejectIf (revision.definition.triggers.enabled run.trigger = false)
    (.invalidInput "run trigger is not enabled by the workflow revision")

/-- What a new run and a restored one have in common: who and what it is for is well formed. -/
structure WellIdentified (id idempotencyKey workflowRevisionDigest : String)
    (requestedByUserId : Option String) : Prop where
  id : Text.isBlank id = false
  idempotencyKey : Text.isBlank idempotencyKey = false
  digest : isSha256Hash workflowRevisionDigest = true
  user : requestedByUserId.any Text.isBlank = false

theorem queued_eq_ok {id key digest : String} {workflow : WorkflowIdentity} {trigger : RunTrigger}
    {user : Option String} {now : ℕ} {run : Run} :
    queued id key workflow digest trigger user now = .ok run ↔
      WellIdentified id key digest user ∧
        run = ⟨id, key, workflow, digest, trigger, user, .queued, false, now, now, none⟩ := by
  simp only [queued, except_bind_eq_ok, required_eq_ok]
  constructor
  · rintro ⟨_, ⟨hid, rfl⟩, _, ⟨hkey, rfl⟩, _, hdigest, _, huser, h⟩
    rw [validateSha256Hash_eq_ok] at hdigest
    rw [rejectIf_eq_ok, Bool.not_eq_true] at huser
    cases h
    exact ⟨⟨hid, hkey, hdigest, huser⟩, rfl⟩
  · rintro ⟨⟨hid, hkey, hdigest, huser⟩, rfl⟩
    exact ⟨id, ⟨hid, rfl⟩, key, ⟨hkey, rfl⟩, (), validateSha256Hash_eq_ok.mpr hdigest, (),
      by simp [huser], rfl⟩

/-- A new run is a queued one. -/
theorem queued_of_new {id key digest : String} {workflow : WorkflowIdentity} {trigger : RunTrigger}
    {user : Option String} {now : ℕ} {run : Run}
    (h : Run.new id key workflow digest trigger user now = .ok run) :
    queued id key workflow digest trigger user now = .ok run := by
  simp only [Run.new, except_unit_bind_eq_ok] at h
  exact h.2

end Run

end ScopeVcs

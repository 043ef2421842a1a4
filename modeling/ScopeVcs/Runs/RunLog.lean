import ScopeVcs.Postgres.Error
import ScopeVcs.Runs.Aggregate

/-! # The log of an attempt

A runtime sends the output of its steps in numbered chunks. The store appends a chunk in one
transaction: the row of the chunk, the byte count of the attempt and the mark of the step whose
output was the first that did not fit.
-/

namespace ScopeVcs

open Mutation

/-! ## Chunks -/

def maxRunLogChunkBytes : ℕ := 64 * 1024

/-- A chunk of output, which is valid by construction. -/
structure RunLogChunk where
  attemptId : String
  stepIndex : ℕ
  sequence : ℕ
  text : String
  createdAtUnix : ℕ
  attemptId_given : Text.isBlank attemptId = false
  sequence_ne_zero : sequence ≠ 0
  text_ne_nil : text.toList ≠ []
  text_le : Text.byteLength text.toList ≤ maxRunLogChunkBytes
  text_no_nul : Char.ofNat 0 ∉ text.toList
  deriving DecidableEq

namespace RunLogChunk

def new (attemptId : String) (stepIndex sequence : ℕ) (text : String) (createdAtUnix : ℕ) :
    Except DomainError RunLogChunk :=
  if hid : Text.isBlank attemptId = true then
    .error (.invalidInput "run log attempt id is required")
  else if hsequence : sequence = 0 then
    .error (.invalidInput "run log sequence must be positive")
  else if htext : text.toList = [] then .error (.invalidInput "run log text is required")
  else if hlength : maxRunLogChunkBytes < Text.byteLength text.toList then
    .error (.invalidInput "run log chunk cannot exceed 65536 bytes")
  else if hnul : Char.ofNat 0 ∈ text.toList then
    .error (.invalidInput "run log text cannot contain NUL characters")
  else .ok ⟨attemptId, stepIndex, sequence, text, createdAtUnix, by simpa using hid, hsequence,
    htext, not_lt.mp hlength, hnul⟩

def byteLength (chunk : RunLogChunk) : ℕ := Text.byteLength chunk.text.toList

/-- Whether a chunk sent again is the one that was stored. The time it was sent does not count. -/
def sameContent (chunk other : RunLogChunk) : Bool :=
  chunk.attemptId = other.attemptId ∧ chunk.stepIndex = other.stepIndex ∧
    chunk.sequence = other.sequence ∧ chunk.text = other.text

end RunLogChunk

/-- Counts a chunk, and says whether it fits. The first chunk that does not marks its step. -/
def RunAttempt.acceptLogChunk (steps : List RunAttemptStep) (chunk : RunLogChunk) :
    EStateM DomainError RunAttempt Bool := do
  check fun attempt => rejectIf (chunk.attemptId ≠ attempt.id)
    (.invalidInput "run log attempt id does not match the attempt")
  check fun attempt => rejectIf (attempt.state.isTerminal = true)
    (.conflict "terminal attempts cannot append logs")
  check fun attempt => attempt.validateExecution steps
  check fun _ => rejectIf (¬ ∃ step ∈ steps[chunk.stepIndex]?, step.state = .running)
    (.conflict "logs can only be appended to the running step")
  let attempt ← get
  if attempt.firstTruncatedStepIndex.isSome then return false
  else
    match U64.checkedAdd attempt.logBytes chunk.byteLength with
    | none => throw (.conflict "run log byte count overflow")
    | some nextBytes =>
      if maxRunLogBytesPerAttempt < nextBytes then
        modify fun attempt => { attempt with firstTruncatedStepIndex := some chunk.stepIndex }
        return false
      else
        modify fun attempt => { attempt with logBytes := nextBytes }
        return true

/-! ## The store -/

structure RunLogRow where
  runId : String
  chunk : RunLogChunk
  deriving DecidableEq

/-- A run with the rows of the log table, in the order of their positions. -/
structure RunLogStore where
  runs : RunAggregate
  logs : List RunLogRow
  deriving DecidableEq

structure StoredRunLog where
  runId : String
  jobKey : WorkflowJobId
  chunk : RunLogChunk
  deriving DecidableEq

structure AppendRunLogResult where
  log : StoredRunLog
  repoId : String
  appended : Bool
  deriving DecidableEq

namespace RunLogStore

/-- The records of an attempt, found by its id, with its position among the attempts. -/
def lockedAttemptContext (store : RunLogStore) (attemptId : String) :
    Except PostgresError (ℕ × Held) :=
  match (store.runs.attempts.findIdx? (·.1.id = attemptId)).bind fun a =>
      (store.runs.attempts[a]?).map (a, ·) with
  | none => .error (.notFound "run attempt not found")
  | some (a, attempt, steps) =>
    match store.runs.jobs.find? fun job =>
        job.runId = attempt.runId ∧ job.key = attempt.jobKey with
    | none => .error (.notFound "run job not found")
    | some job =>
      if store.runs.run.id ≠ attempt.runId then .error (.notFound "run not found")
      else .ok (a, ⟨attempt, job, steps⟩)

/-- The chunks stored for an attempt, in the order of their positions. -/
def chunksOf (store : RunLogStore) (attemptId : String) : List RunLogChunk :=
  (store.logs.map (·.chunk)).filter (·.attemptId = attemptId)

/-- The last sequence of an attempt, zero if it has none. -/
def lastSequence (store : RunLogStore) (attemptId : String) : ℕ :=
  ((store.chunksOf attemptId).map (·.sequence)).foldl max 0

def storedRow? (store : RunLogStore) (attemptId : String) (sequence : ℕ) : Option RunLogRow :=
  store.logs.find? fun row => row.chunk.attemptId = attemptId ∧ row.chunk.sequence = sequence

/-- The row stored under the sequence of a chunk. It is only looked for up to the last sequence. -/
def existingRow? (store : RunLogStore) (chunk : RunLogChunk) : Option RunLogRow :=
  if chunk.sequence ≤ store.lastSequence chunk.attemptId then
    store.storedRow? chunk.attemptId chunk.sequence
  else none

def saveAttempt (store : RunLogStore) (a : ℕ) (attempt : RunAttempt)
    (steps : List RunAttemptStep) : RunLogStore :=
  { store with runs := { store.runs with
      attempts := store.runs.attempts.set a (attempt, steps) } }

/-- The columns of a new row, as far as they may not fit. -/
def columnsFit (chunk : RunLogChunk) : Except PostgresError Unit := do
  rejectIf (IntegerColumns.maxI32 < chunk.stepIndex)
    (.internalMessage "run log step index exceeds PostgreSQL integer range")
  let _ ← IntegerColumns.u64ToI64 chunk.sequence "run log sequence"
  let _ ← IntegerColumns.u64ToI64 chunk.createdAtUnix "run log creation time"

/-- The part of `append_attempt_log` for a chunk whose sequence is new. -/
def appendChunk (chunk : RunLogChunk) (a : ℕ) (held : Held) :
    EStateM PostgresError RunLogStore AppendRunLogResult := do
  check fun store => rejectIf (store.lastSequence chunk.attemptId + 1 ≠ chunk.sequence)
    (.conflict "run log sequence must append without gaps")
  match (RunAttempt.acceptLogChunk held.steps chunk).run held.attempt with
  | .error e _ => throw (.ofDomainError e)
  | .ok false attempt =>
    -- the mark is committed although the call fails
    modify fun store => store.saveAttempt a attempt held.steps
    throw (.resourceExhausted "run attempt log limit reached")
  | .ok true attempt =>
    check fun _ => columnsFit chunk
    let store ← get
    modify fun store =>
      { store.saveAttempt a attempt held.steps with
        logs := store.logs ++ [⟨store.runs.run.id, chunk⟩] }
    return ⟨⟨store.runs.run.id, held.job.key, chunk⟩, store.runs.run.workflow.repositoryId, true⟩

/-- Stores a chunk once, the next one of its attempt only. What is left behind is what was
committed. -/
def appendAttemptLog (chunk : RunLogChunk) (tokenHash : String) (nowUnix : ℕ) :
    EStateM PostgresError RunLogStore AppendRunLogResult := do
  let (a, held) ← check fun store => store.lockedAttemptContext chunk.attemptId
  check fun _ =>
    (held.attempt.authenticate held.job tokenHash nowUnix).mapError PostgresError.ofDomainError
  check fun _ => rejectIf (held.attempt.firstTruncatedStepIndex.isSome = true)
    (.resourceExhausted "run attempt log limit reached")
  check fun _ => rejectIf (IntegerColumns.maxI64 < chunk.sequence)
    (.invalidInput "run log sequence is too large")
  let store ← get
  match store.existingRow? chunk with
  | some existing =>
    check fun _ => rejectIf (existing.runId ≠ store.runs.run.id ∨
        existing.chunk.sameContent chunk = false)
      (.conflict "run log sequence is already used by different content")
    return ⟨⟨existing.runId, held.job.key, existing.chunk⟩, store.runs.run.workflow.repositoryId,
      false⟩
  | none => appendChunk chunk a held

/-! ## Runs of the store -/

/-- A run as it is created, before anything was logged. -/
def Created (store : RunLogStore) : Prop := store.runs.Created ∧ store.logs = []

/-- What can happen: an operation on the run that commits, where the ids of the attempts are the
primary keys of their table, or an append, whether it succeeds or fails. -/
inductive Step : RunLogStore → RunLogStore → Prop where
  | run {store : RunLogStore} {runs' : RunAggregate}
      (hstep : RunAggregate.Step (fun _ _ => True) store.runs runs')
      (hids : (runs'.attempts.map (·.1.id)).Nodup) : Step store { store with runs := runs' }
  | append {store : RunLogStore} (chunk : RunLogChunk) (tokenHash : String) (nowUnix : ℕ) :
      Step store (final (appendAttemptLog chunk tokenHash nowUnix) store)

abbrev Reachable : RunLogStore → Prop := Transition.Reachable Created Step

end RunLogStore

end ScopeVcs

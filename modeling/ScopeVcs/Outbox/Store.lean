import ScopeVcs.Lib.Table
import ScopeVcs.Outbox.Evaluation
import ScopeVcs.Postgres.Error
import ScopeVcs.Runs.Job

/-! # The outbox store

The rows of the outbox and what its jobs write. A job is claimed in a transaction of its own, then
executed and completed in one transaction; a failure is recorded in a third. The fold of the
projection read models is a parameter: no other table depends on it.
-/

namespace ScopeVcs.Outbox

open Mutation IntegerColumns

def PROJECTION_READ_MODEL_REBUILD : String := "projection_read_model_rebuild"

/-- `push_triggers::JOB_KIND`. -/
def JOB_KIND : String := "push_main_trigger_evaluation"

def DEFAULT_JOB_LEASE_SECS : ℕ := 60

def MAX_RETRY_DELAY_SECS : ℕ := 300

def MAX_JOB_ATTEMPTS : ℕ := 12

def SUCCEEDED_JOB_RETENTION_SECS : ℕ := 7 * 24 * 60 * 60

def PUSH_MAIN_TRIGGER_WORKFLOW_SCHEMA_VERSION : ℕ := 5

/-! ## Tables -/

inductive OutboxJobState where
  | ready
  | running
  | succeeded
  | failed
  deriving DecidableEq

inductive OutboxPayload where
  | projection (repoId : String) (repoVersion : ℕ)
  | pushMain (workflowSchemaVersion : ℕ) (head : GitHead) (input : PushTriggerInput)
  deriving DecidableEq

structure OutboxJob where
  id : String
  idempotencyKey : String
  kind : String
  repoId : String
  repoVersion : ℕ
  payload : OutboxPayload
  state : OutboxJobState
  attempts : ℕ
  nextRunAtUnix : ℕ
  leaseOwner : Option String
  leaseExpiresAtUnix : Option ℕ
  lastError : Option String
  createdAtUnix : ℕ
  updatedAtUnix : ℕ
  completedAtUnix : Option ℕ
  deriving DecidableEq

/-- A run of an accepted Git head, and the key its table is unique in beside the id. -/
structure RunRow where
  run : Run
  sourceRepositoryId : String
  sourceHead : GitHead
  deriving DecidableEq

def RunRow.enqueueKey (row : RunRow) : String × String :=
  (row.run.workflow.repositoryId, row.run.idempotencyKey)

structure RevisionRow where
  digest : String
  definition : CompiledWorkflow
  deriving DecidableEq

structure OutboxDb (ρ : Type) where
  jobs : Table OutboxJob.id
  evaluations : Table PushTriggerEvaluation.key
  revisions : Table RevisionRow.digest
  runs : Table RunRow.enqueueKey
  runJobs : List RunJob
  /-- The content version of each repository there is. -/
  repositories : String → Option ℕ
  /-- Whether the owner of a repository is listed for native runs. -/
  nativeRuns : String → Bool
  readModels : ρ

/-- What the store calls that its own tables do not depend on. -/
structure OutboxEnv (ρ : Type) extends WorkflowParser where
  foldLiveProjectionReadModels : String → ℕ → ρ → Except PostgresError ρ

abbrev OutboxTx (ρ : Type) := EStateM PostgresError (OutboxDb ρ)

variable {ρ : Type}

/-- A value of the domain inside a transaction. -/
def domain {α : Type} (x : Except DomainError α) : OutboxTx ρ α :=
  check fun _ => x.mapError PostgresError.ofDomainError

/-! ## Enqueueing -/

def insertJob (db : OutboxDb ρ) (job : OutboxJob) : OutboxDb ρ := { db with jobs := db.jobs.insert job }

def idempotencyKeyTaken (db : OutboxDb ρ) (job : OutboxJob) : Bool :=
  db.jobs.any fun row => row.idempotencyKey = job.idempotencyKey

/-- A job as it is enqueued. -/
def OutboxJob.ready (id kind repoId : String) (repoVersion : ℕ) (payload : OutboxPayload) (now : ℕ) :
    OutboxJob where
  id := id
  idempotencyKey := kind ++ ":" ++ repoId ++ ":" ++ toString repoVersion
  kind := kind
  repoId := repoId
  repoVersion := repoVersion
  payload := payload
  state := .ready
  attempts := 0
  nextRunAtUnix := now
  leaseOwner := none
  leaseExpiresAtUnix := none
  lastError := none
  createdAtUnix := now
  updatedAtUnix := now
  completedAtUnix := none

/-- The statement that inserts a job. Its primary key is drawn at random and its repository exists;
a taken idempotency key is reported. -/
def insertOutboxJob (job : OutboxJob) : OutboxTx ρ Bool := do
  check fun db => rejectIf ((db.repositories job.repoId).isNone = true)
    (.internalMessage "insert violates foreign key constraint fk_scope_outbox_jobs_repo")
  check fun db => rejectIf ((db.jobs.find? job.id).isSome = true)
    (.internalMessage "duplicate key value violates unique constraint scope_outbox_jobs_pkey")
  let db ← get
  if idempotencyKeyTaken db job = true then return false
  else
    modify fun db => insertJob db job
    return true

def enqueueProjectionReadModelRebuild (jobId repoId : String) (repoVersion nowUnix : ℕ) :
    OutboxTx ρ Unit := transaction do
  let repoVersion ← check fun _ => u64ToI64 repoVersion "repository change version"
  let now ← check fun _ => u64ToI64 nowUnix "outbox next run time"
  let _ ← insertOutboxJob (.ready jobId PROJECTION_READ_MODEL_REBUILD repoId repoVersion
    (.projection repoId repoVersion) now)
  return ()

/-- `RunSource::accepted_git_head`. -/
def validateAcceptedGitHead (repositoryId : String) (head : GitHead) : Except DomainError Unit := do
  rejectIf (Text.isBlank repositoryId = true)
    (.invalidInput "accepted run source repository id is required")
  rejectIf (head.pushSequence = 0 ∨ head.changeVersion = 0)
    (.invalidInput "accepted run source sequence and change version must be positive")
  validateGitOid "accepted run source head" head.headOid
  validateSha256Hash "accepted run source frontier" head.frontier

def enqueuePushMainTriggerEvaluation (jobId repoId : String) (head : GitHead)
    (input : PushTriggerInput) (nowUnix : ℕ) : OutboxTx ρ Unit := transaction do
  check fun _ => rejectIf (head.headOid ≠ input.headOid)
    (.invalidInput "push trigger input does not match the accepted Git head")
  let evaluation ← domain (PushTriggerEvaluation.forPush repoId head.changeVersion input nowUnix)
  let version ← check fun _ => u64ToI64 head.changeVersion "repository change version"
  let now ← check fun _ => u64ToI64 nowUnix "outbox next run time"
  check fun db => rejectIf ((db.evaluations.find? evaluation.key).isSome = true)
    (.internalMessage ("duplicate key value violates unique constraint " ++
      "scope_push_trigger_evaluations_pkey"))
  modify fun db => { db with evaluations := db.evaluations.insert evaluation }
  if evaluation.state ≠ .pending then return ()
  else
    domain (validateAcceptedGitHead repoId head)
    let inserted ← insertOutboxJob (.ready jobId JOB_KIND repoId version
      (.pushMain PUSH_MAIN_TRIGGER_WORKFLOW_SCHEMA_VERSION head input) now)
    check fun _ => rejectIf (inserted = false)
      (.internalMessage ("duplicate key value violates unique constraint " ++
        "scope_outbox_jobs_idempotency_key_key"))

/-! ## Claiming -/

structure ClaimedOutboxJob where
  id : String
  kind : String
  repoId : String
  repoVersion : ℕ
  attempts : ℕ
  deriving DecidableEq

namespace OutboxJob

def isRunnable (now : ℕ) (job : OutboxJob) : Bool :=
  job.completedAtUnix.isNone &&
    ((job.state = .ready && job.nextRunAtUnix ≤ now) ||
      (job.state = .running && job.leaseExpiresAtUnix.any fun expiry => expiry ≤ now))

/-- The job is still to be done: `ready` or `running`. -/
def isUnfinished (job : OutboxJob) : Bool := job.state = .ready || job.state = .running

def claimed (worker : String) (leaseExpiry now : ℕ) (job : OutboxJob) : OutboxJob :=
  { job with
    state := .running
    leaseOwner := some worker
    leaseExpiresAtUnix := some leaseExpiry
    updatedAtUnix := now }

def toClaim (job : OutboxJob) : ClaimedOutboxJob :=
  ⟨job.id, job.kind, job.repoId, job.repoVersion, job.attempts⟩

end OutboxJob

/-- The job that a claim takes next. -/
def nextRunnableJob (db : OutboxDb ρ) (now : ℕ) : Option OutboxJob :=
  Table.first?
    (fun j j' =>
      j.nextRunAtUnix < j'.nextRunAtUnix ||
        (j.nextRunAtUnix = j'.nextRunAtUnix &&
          (j.createdAtUnix < j'.createdAtUnix ||
            (j.createdAtUnix = j'.createdAtUnix && j.id ≤ j'.id))))
    (db.jobs.select (OutboxJob.isRunnable now))

def claimJob (db : OutboxDb ρ) (id worker : String) (leaseExpiry now : ℕ) : OutboxDb ρ :=
  { db with
    jobs := db.jobs.update (fun job => job.id = id && job.completedAtUnix.isNone)
      (OutboxJob.claimed worker leaseExpiry now) (by intro _; rfl) }

/-- The row was just found under a lock, so the update reaches it. -/
def claimNextReadyJob (worker : String) (leaseSeconds now : ℕ) :
    OutboxTx ρ (Option ClaimedOutboxJob) := transaction do
  let db ← get
  match nextRunnableJob db now with
  | none => return none
  | some job =>
    check fun _ => rejectIf (maxI64 < now + leaseSeconds)
      (.internalMessage "outbox lease expiry exceeds i64 range")
    modify fun db => claimJob db job.id worker (now + leaseSeconds) now
    return some job.toClaim

/-! ## Executing -/

def rebuildLiveProjectionReadModelsForJob (env : OutboxEnv ρ) (job : ClaimedOutboxJob) :
    OutboxTx ρ Unit := do
  let db ← get
  match db.repositories job.repoId with
  | none => return ()
  | some contentVersion =>
    if contentVersion ≠ job.repoVersion then return ()
    else
      let readModels ← check fun db =>
        env.foldLiveProjectionReadModels job.repoId contentVersion db.readModels
      modify fun db => { db with readModels }

def loadJobPayload (db : OutboxDb ρ) (jobId : String) :
    Except PostgresError (GitHead × PushTriggerInput) :=
  match db.jobs.find? jobId with
  | none => .error (.notFound "push trigger outbox job not found")
  | some job =>
    match job.payload with
    | .projection _ _ => .error (.internalMessage "missing field workflow_schema_version")
    | .pushMain version head input =>
      if version ≠ PUSH_MAIN_TRIGGER_WORKFLOW_SCHEMA_VERSION then
        .error (.internalMessage "unsupported push trigger workflow schema version")
      else .ok (head, input)

/-- The key that makes one run of a workflow for an accepted push. -/
def pushRunKey (changeVersion : ℕ) (headOid workflowPath : String) : String :=
  "push-main:" ++ toString changeVersion ++ ":" ++ headOid ++ ":" ++ workflowPath

def pushMainRun (env : OutboxEnv ρ) (repoId : String) (changeVersion : ℕ) (head : GitHead)
    (input : PushTriggerInput) (revision : WorkflowRevision) (nowUnix : ℕ) :
    Except DomainError RunRow := do
  let idempotencyKey := pushRunKey changeVersion input.headOid revision.workflow.path
  validateAcceptedGitHead repoId head
  let run ← Run.new ("run_push_" ++ env.sha256Hex (repoId ++ "\x00" ++ idempotencyKey))
    idempotencyKey revision.workflow revision.digest .pushMain none nowUnix
  return ⟨run, repoId, head⟩

def NATIVE_RUNS_UNAVAILABLE : String := "Scope runs are not available for this repository."

def RunRow.hasSameEnqueueRequestIdentity (stored row : RunRow) : Bool :=
  stored.run.idempotencyKey = row.run.idempotencyKey && stored.run.workflow = row.run.workflow &&
    stored.run.workflowRevisionDigest = row.run.workflowRevisionDigest &&
    stored.run.trigger = row.run.trigger &&
    stored.run.requestedByUserId = row.run.requestedByUserId &&
    stored.sourceRepositoryId = row.sourceRepositoryId && stored.sourceHead = row.sourceHead

def saveWorkflowRevision (revision : WorkflowRevision) : OutboxTx ρ Unit := do
  modify fun db => { db with revisions := db.revisions.insert ⟨revision.digest, revision.definition⟩ }
  check fun db =>
    match db.revisions.find? revision.digest with
    | none => .error (.internalMessage "workflow revision was not stored")
    | some persisted =>
      rejectIf (persisted.definition ≠ revision.definition)
        (.conflict "workflow revision digest is already used by a different definition")

/-- A run with this id or this key is there: `ON CONFLICT DO NOTHING`. -/
def runTaken (db : OutboxDb ρ) (row : RunRow) : Bool :=
  db.runs.any fun stored => stored.run.id = row.run.id || stored.enqueueKey = row.enqueueKey

structure EnqueueRunResult where
  row : RunRow
  inserted : Bool
  deriving DecidableEq

def enqueueRunInTransaction (row : RunRow) (revision : WorkflowRevision) :
    OutboxTx ρ EnqueueRunResult := do
  domain (row.run.validateWorkflowRevision revision)
  check fun db => rejectIf (db.nativeRuns row.run.workflow.repositoryId = false)
    (.ofDomainError (.forbidden NATIVE_RUNS_UNAVAILABLE))
  let requestedJobs ← domain (createRunJobs row.run revision)
  saveWorkflowRevision revision
  let db ← get
  if runTaken db row = true then
    match db.runs.find? row.enqueueKey with
    | none => throw (.conflict "run id is already used by another idempotency key")
    | some stored =>
      let restored ← domain stored.run.restore
      check fun _ => rejectIf
        (({ stored with run := restored } : RunRow).hasSameEnqueueRequestIdentity row = false)
        (.conflict "run idempotency key is already used by a different enqueue request")
      return ⟨{ stored with run := restored }, false⟩
  else
    modify fun db => { db with
      runs := db.runs.insert row
      runJobs := db.runJobs ++ requestedJobs }
    return ⟨row, true⟩

/-- Enqueues the run of one workflow; gives its check and whether it is new. -/
def enqueuePushRun (env : OutboxEnv ρ) (repoId : String) (changeVersion : ℕ) (head : GitHead)
    (input : PushTriggerInput) (nowUnix : ℕ) (revision : WorkflowRevision) :
    OutboxTx ρ (PushTriggerCheck × Bool) := do
  let row ← domain (pushMainRun env repoId changeVersion head input revision nowUnix)
  let stored ← enqueueRunInTransaction row revision
  return (⟨revision.workflow.path, workflowPathName stored.row.run.workflow.path, stored.row.run.id⟩,
    stored.inserted)

/-- `UPDATE scope_push_trigger_evaluations SET …`, of every column but the key. -/
def saveEvaluation (evaluation : PushTriggerEvaluation) (db : OutboxDb ρ) : OutboxDb ρ :=
  { db with
    evaluations := db.evaluations.update (fun stored => stored.key = evaluation.key)
      (fun stored => { evaluation with
        repositoryId := stored.repositoryId
        changeVersion := stored.changeVersion }) (by intro _; rfl) }

/-- The evaluation after its configuration was read, with the workflows to run if it is pending. -/
def readConfiguration (env : OutboxEnv ρ) (nativeRuns : Bool) (repoId : String)
    (input : PushTriggerInput) (evaluation : PushTriggerEvaluation) (nowUnix : ℕ) :
    Except DomainError (PushTriggerEvaluation × List WorkflowRevision) :=
  if nativeRuns = false then .ok (evaluation, [])
  else
    match input.configurationError with
    | some message => do
      let evaluation ← evaluation.failConfiguration message nowUnix
      return (evaluation, [])
    | none =>
      match env.pushWorkflows repoId input with
      | .ok revisions => .ok (evaluation, revisions)
      | .error message => do
        let evaluation ← evaluation.failConfiguration message nowUnix
        return (evaluation, [])

def evaluate (env : OutboxEnv ρ) (job : ClaimedOutboxJob) (nowUnix : ℕ) :
    OutboxTx ρ (List String) := do
  let (head, input) ← check fun db => loadJobPayload db job.id
  let db ← get
  match db.evaluations.find? (job.repoId, job.repoVersion) with
  | none => return []
  | some stored =>
    if stored.state ≠ .pending then return []
    else
      let (evaluation, revisions) ←
        domain (readConfiguration env (db.nativeRuns job.repoId) job.repoId input stored nowUnix)
      if evaluation.state = .pending then
        let results ← revisions.mapM
          (enqueuePushRun env job.repoId job.repoVersion head input nowUnix)
        let evaluation ← domain (evaluation.succeed (results.map Prod.fst) nowUnix)
        modify (saveEvaluation evaluation)
        return (results.filter Prod.snd).map fun result => result.1.runId
      else
        modify (saveEvaluation evaluation)
        return []

def executeOutboxJob (env : OutboxEnv ρ) (job : ClaimedOutboxJob) (nowUnix : ℕ) :
    OutboxTx ρ (List String) :=
  if job.kind = PROJECTION_READ_MODEL_REBUILD then do
    rebuildLiveProjectionReadModelsForJob env job
    return []
  else if job.kind = JOB_KIND then evaluate env job nowUnix
  else throw (.internalMessage ("unknown outbox job kind " ++ job.kind))

/-! ## Completing and failing -/

def OutboxJob.completed (now : ℕ) (job : OutboxJob) : OutboxJob :=
  { job with
    state := .succeeded
    leaseOwner := none
    leaseExpiresAtUnix := none
    lastError := none
    completedAtUnix := some now
    updatedAtUnix := now }

def completeJob (db : OutboxDb ρ) (id worker : String) (now : ℕ) : OutboxDb ρ :=
  { db with
    jobs := db.jobs.update (fun job => job.id = id && job.leaseOwner = some worker)
      (OutboxJob.completed now) (by intro _; rfl) }

def completeOutboxJob (job : ClaimedOutboxJob) (worker : String) (now : ℕ) : OutboxTx ρ Unit := do
  let db ← get
  if db.jobs.any (fun row => row.id = job.id && row.leaseOwner = some worker) = true then
    modify fun db => completeJob db job.id worker now
  else if (db.jobs.find? job.id).isNone = true ∧ (db.repositories job.repoId).isNone = true then
    return ()
  else throw (.conflict "outbox job lease was lost before completion")

def retryDelaySeconds (attempts : ℕ) : ℕ := min (5 * 2 ^ min (attempts - 1) 6) MAX_RETRY_DELAY_SECS

def nextRetryAttempt (previousAttempts : ℕ) : Except PostgresError ℕ :=
  if previousAttempts < maxI64 then .ok (previousAttempts + 1)
  else .error (.internalMessage "outbox attempt count is outside valid range")

def isTerminalRetryAttempt (attempts : ℕ) : Bool := MAX_JOB_ATTEMPTS ≤ attempts

def truncateError (error : String) : String := String.ofList (error.toList.take 2000)

def OutboxJob.failed (attempts nextRunAt : ℕ) (error : String) (now : ℕ) (job : OutboxJob) :
    OutboxJob :=
  { job with
    state := if isTerminalRetryAttempt attempts = true then .failed else .ready
    attempts := attempts
    nextRunAtUnix := nextRunAt
    leaseOwner := none
    leaseExpiresAtUnix := none
    lastError := some error
    updatedAtUnix := now
    completedAtUnix := if isTerminalRetryAttempt attempts = true then some now else none }

def failJob (db : OutboxDb ρ) (id worker : String) (attempts nextRunAt : ℕ) (error : String)
    (now : ℕ) : OutboxDb ρ :=
  { db with
    jobs := db.jobs.update
      (fun job => job.id = id && job.leaseOwner = some worker && job.completedAtUnix.isNone)
      (OutboxJob.failed attempts nextRunAt error now) (by intro _; rfl) }

def markTerminalFailure (job : ClaimedOutboxJob) (error : String) (nowUnix : ℕ) :
    OutboxTx ρ Unit := do
  let db ← get
  match db.evaluations.find? (job.repoId, job.repoVersion) with
  | none => return ()
  | some stored =>
    if stored.state = .pending then
      let evaluation ← domain (stored.fail error nowUnix)
      modify (saveEvaluation evaluation)
    else return ()

def failOutboxJob (job : ClaimedOutboxJob) (worker error : String) (now : ℕ) :
    OutboxTx ρ Unit := transaction do
  let attempts ← check fun _ => nextRetryAttempt job.attempts
  let nextRunAt := if isTerminalRetryAttempt attempts = true then now
    else now + retryDelaySeconds attempts
  check fun _ => rejectIf (maxI64 < nextRunAt)
    (.internalMessage "outbox retry time exceeds i64 range")
  check fun db => rejectIf
    (db.jobs.any (fun row =>
      row.id = job.id && row.leaseOwner = some worker && row.completedAtUnix.isNone) = false)
    (.conflict "outbox job lease was lost before failure handling")
  modify fun db => failJob db job.id worker attempts nextRunAt (truncateError error) now
  if isTerminalRetryAttempt attempts = true ∧ job.kind = JOB_KIND then
    markTerminalFailure job (truncateError error) now
  else return ()

/-- The job succeeded, and so long ago that it is no longer kept. -/
def OutboxJob.isPrunable (now : ℕ) (job : OutboxJob) : Bool :=
  job.state = .succeeded &&
    job.completedAtUnix.any fun completed => completed ≤ now - SUCCEEDED_JOB_RETENTION_SECS

def pruneSucceededOutboxJobs (now : ℕ) : OutboxTx ρ Unit :=
  modify fun db => { db with jobs := db.jobs.delete (OutboxJob.isPrunable now) }

/-! ## One round of `run_ready_outbox_jobs` -/

/-- How the transaction of an execution ends. -/
inductive Settled where
  | completed (createdRuns : List String)
  /-- Executing failed; the failure is recorded next. -/
  | failing (message : String)
  /-- The worker leaves with an error, and the job under its lease. -/
  | stopped (error : PostgresError)
  deriving DecidableEq

/-- Executes and completes a claimed job in one transaction; without the completion no effect of the
execution is kept. `interrupted` is an error from outside the store. -/
def executeAndComplete (env : OutboxEnv ρ) (job : ClaimedOutboxJob) (worker : String)
    (claimNowUnix completionNowUnix : ℕ) (interrupted : Option PostgresError) (db : OutboxDb ρ) :
    OutboxDb ρ × Settled :=
  match interrupted with
  | some error => (db, .failing error.message)
  | none =>
    match (executeOutboxJob env job claimNowUnix).run db with
    | .error error _ => (db, .failing error.message)
    | .ok createdRuns executed =>
      if maxI64 < completionNowUnix then
        (db, .stopped (.internalMessage "timestamp exceeds i64 range"))
      else
        match (completeOutboxJob job worker completionNowUnix).run executed with
        | .ok _ committed => (committed, .completed createdRuns)
        | .error error _ => (db, .stopped error)

end ScopeVcs.Outbox

import ScopeVcs.Runs.Job

/-! # A run and its jobs

`reconcileRun` unblocks or skips jobs along the needs and then derives the state of the run from
the states of its jobs. A run that is to be canceled cancels the jobs that still wait.
-/

namespace ScopeVcs

open Mutation

structure RunWithJobs where
  run : Run
  jobs : List RunJob
  deriving DecidableEq

/-! ## Deriving the state of the run -/

/-- Whether a job has neither been dispatched nor ended. -/
def RunJob.isWaiting (job : RunJob) : Bool := job.state = .blocked ∨ job.state = .queued

/-- The later of two times. -/
def latest (times : List ℕ) (start : ℕ) : ℕ := times.foldl max start

theorem le_latest (times : List ℕ) (start : ℕ) : start ≤ latest times start := by
  induction times generalizing start with
  | nil => exact le_rfl
  | cons time times ih => exact (le_max_left start time).trans (ih (max start time))

theorem latest_le {times : List ℕ} {start bound : ℕ} (hstart : start ≤ bound)
    (htimes : ∀ time ∈ times, time ≤ bound) : latest times start ≤ bound := by
  induction times generalizing start with
  | nil => exact hstart
  | cons time times ih =>
    exact ih (max_le hstart (htimes time (by simp))) fun t ht => htimes t (by simp [ht])

theorem le_latest_of_mem {times : List ℕ} {time : ℕ} (h : time ∈ times) (start : ℕ) :
    time ≤ latest times start := by
  induction times generalizing start with
  | nil => cases h
  | cons first times ih =>
    rcases List.mem_cons.mp h with rfl | h
    · exact (le_max_right start time).trans (le_latest times _)
    · exact ih h _

theorem latest_perm {times times' : List ℕ} (h : times.Perm times') (start : ℕ) :
    latest times start = latest times' start := by
  refine le_antisymm (latest_le (le_latest _ _) fun time htime => ?_)
    (latest_le (le_latest _ _) fun time htime => ?_)
  · exact le_latest_of_mem (h.mem_iff.mp htime) start
  · exact le_latest_of_mem (h.mem_iff.mpr htime) start

def cancelWaiting (cancellationTime : ℕ) (job : RunJob) : RunJob :=
  if job.isWaiting then
    { job with
      state := .canceled
      updatedAtUnix := max cancellationTime job.updatedAtUnix
      completedAtUnix := some (max cancellationTime job.updatedAtUnix)
      capacityRetry := job.capacityRetry.map fun retry => { retry with nextAttemptAtUnix := none } }
  else job

/-- The state of a run whose jobs are `jobs`. A run that was running stays so until all end. -/
def nextRunState (state : RunState) (jobs : List RunJob) : RunState :=
  if jobs.all (·.state.isTerminal) then
    if jobs.any (·.state = .canceled) then .canceled
    else if jobs.any (·.state = .failed) then .failed
    else if jobs.any (·.state = .lost) then .lost
    else .succeeded
  else if state = .running ∨ jobs.any (·.state = .running) then .running
  else if jobs.any (·.state = .dispatching) then .dispatching
  else .queued

/-- The jobs once a cancellation, if there is one, has reached those that wait. -/
def canceledJobs (requested : Bool) (jobs : List RunJob) (nowUnix : ℕ) : List RunJob :=
  if requested then
    let cancellationTime :=
      latest ((jobs.filter (·.state = .canceled)).map (·.updatedAtUnix)) nowUnix
    jobs.map (cancelWaiting cancellationTime)
  else jobs

/-- The run as its jobs leave it. -/
def derivedRun (run : Run) (requested : Bool) (jobs : List RunJob) (nowUnix : ℕ) : Run :=
  let cancellationTookEffect := jobs.any (·.state = .canceled)
  let allTerminal := jobs.all (·.state.isTerminal)
  let next := nextRunState run.state jobs
  let aggregateTime := latest (jobs.map (·.updatedAtUnix)) (max nowUnix run.updatedAtUnix)
  { run with
    state := next
    cancellationRequested := if allTerminal ∧ cancellationTookEffect = false then false
      else requested
    updatedAtUnix := aggregateTime
    completedAtUnix := if next.isTerminal then some aggregateTime else none }

def derivedState (state : RunWithJobs) (nowUnix : ℕ) : RunWithJobs :=
  let requested := state.run.cancellationRequested || state.jobs.any (·.state = .canceled)
  let jobs := canceledJobs requested state.jobs nowUnix
  ⟨derivedRun state.run requested jobs nowUnix, jobs⟩

def deriveRunState (nowUnix : ℕ) : EStateM DomainError RunWithJobs Unit := do
  check fun state => rejectIf (state.jobs = [] ∨ ∃ job ∈ state.jobs, job.runId ≠ state.run.id)
    (.invariantViolation "run jobs do not form one non-empty run")
  modify fun state => derivedState state nowUnix

/-! ## Reconciliation -/

/-- The position of each job by its key. -/
def jobIndexes (jobs : List RunJob) : SortedMap WorkflowJobId ℕ :=
  SortedMap.ofList (jobs.zipIdx.map fun (job, index) => (job.key, index))

/-- The state and time of everything a job needs, if all of it exists. -/
def dependencyFacts (indexes : SortedMap WorkflowJobId ℕ) (jobs : List RunJob)
    (needs : List WorkflowJobId) : Option (List (RunJobState × ℕ)) :=
  needs.mapM fun dependency => do
    let index ← indexes.get? dependency
    let job ← jobs[index]?
    return (job.state, job.updatedAtUnix)

/-- Where a blocked job goes, given the states of what it needs. -/
def unblockedState (needs : List RunJobState) : Option RunJobState :=
  if needs.any fun state => state.isTerminal ∧ state ≠ .succeeded then some .skipped
  else if needs.all fun state => state = .succeeded then some .queued
  else none

/-- A blocked job after one look at what it needs. -/
def unblockedJob (job : RunJob) (facts : List (RunJobState × ℕ)) (nowUnix : ℕ) : RunJob :=
  match unblockedState (facts.map Prod.fst) with
  | none => job
  | some next =>
    let transitionTime := latest (facts.map Prod.snd) (max nowUnix job.updatedAtUnix)
    { job with
      state := next
      updatedAtUnix := transitionTime
      completedAtUnix := if next.isTerminal then some transitionTime else job.completedAtUnix }

/-- One round of the loop of `reconcile_run`. Positions in `indexes` are positions of `jobs`. -/
def reconcileJob (indexes : SortedMap WorkflowJobId ℕ) (nowUnix : ℕ) (jobs : List RunJob)
    (definition : WorkflowJob) : Except DomainError (List RunJob) :=
  match (indexes.get? definition.id).bind fun index => (jobs[index]?).map (index, ·) with
  | none => .error (.invariantViolation "persisted run job is missing from its workflow")
  | some (index, job) =>
    if job.state ≠ .blocked then .ok jobs
    else
      match dependencyFacts indexes jobs definition.needs with
      | none => .error (.invariantViolation "run job dependency is missing")
      | some facts => .ok (jobs.set index (unblockedJob job facts nowUnix))

def reconcileJobs (indexes : SortedMap WorkflowJobId ℕ) (nowUnix : ℕ) :
    List WorkflowJob → EStateM DomainError RunWithJobs Unit
  | [] => pure ()
  | definition :: definitions => do
    let jobs ← check fun state => reconcileJob indexes nowUnix state.jobs definition
    modify fun state => { state with jobs }
    reconcileJobs indexes nowUnix definitions

def reconcileRun (revision : WorkflowRevision) (nowUnix : ℕ) :
    EStateM DomainError RunWithJobs Unit := do
  check fun state => state.run.validateWorkflowRevision revision
  let state ← get
  let indexes := jobIndexes state.jobs
  check fun _ => rejectIf (indexes.entries.length ≠ revision.definition.jobs.length ∨
      ∃ definition ∈ revision.definition.jobs, indexes.get? definition.id = none)
    (.invariantViolation "persisted run jobs do not match their workflow")
  reconcileJobs indexes nowUnix revision.definition.serialJobs
  deriveRunState nowUnix

/-! ## Cancellation and retry -/

def requestRunCancellation (nowUnix : ℕ) : EStateM DomainError RunWithJobs Bool := do
  let (requested, run) ← check fun state =>
    state.run.requestCancellation (max nowUnix state.run.updatedAtUnix)
  if requested then
    modify fun state => { state with run }
    deriveRunState nowUnix
    return true
  else return false

def canRetryRun (run : Run) (jobs : List RunJob) : Bool :=
  run.state.isTerminal && !jobs.isEmpty &&
    jobs.all fun job => job.runId = run.id ∧ job.lastAttemptNumber < maxRunAttempts

def ensureRetryTime (state : RunWithJobs) (nowUnix : ℕ) : Except DomainError Unit :=
  rejectIf (nowUnix < state.run.updatedAtUnix ∨ ∃ job ∈ state.jobs, nowUnix < job.updatedAtUnix)
    (.invalidInput "run aggregate transition time cannot move backward")

def requeuedJob (definition : WorkflowJob) (nowUnix : ℕ) (job : RunJob) : RunJob :=
  { job with
    state := initialJobState definition
    currentAttemptId := none
    updatedAtUnix := nowUnix
    completedAtUnix := none
    capacityRetry := none }

/-- The loop of `retry_run`, over the jobs after `done`. -/
def requeueJobs (workflow : CompiledWorkflow) (nowUnix : ℕ) (done : List RunJob) :
    List RunJob → EStateM DomainError RunWithJobs Unit
  | [] => pure ()
  | job :: jobs => do
    match workflow.job? job.key with
    | none => throw (.invariantViolation "persisted run job is missing from its workflow")
    | some definition =>
      let done := done ++ [requeuedJob definition nowUnix job]
      modify fun state => { state with jobs := done ++ jobs }
      requeueJobs workflow nowUnix done jobs

def retryRun (revision : WorkflowRevision) (nowUnix : ℕ) :
    EStateM DomainError RunWithJobs Unit := do
  check fun state => state.run.validateWorkflowRevision revision
  check fun state => ensureRetryTime state nowUnix
  check fun state => rejectIf
    (SortedSet.ofList (revision.definition.jobs.map (·.id)) ≠
        SortedSet.ofList (state.jobs.map (·.key)) ∨
      ∃ job ∈ state.jobs, job.runId ≠ state.run.id)
    (.invariantViolation "persisted run jobs do not match their workflow")
  check fun state => rejectIf (canRetryRun state.run state.jobs = false)
    (.conflict "run cannot be retried")
  let state ← get
  requeueJobs revision.definition nowUnix [] state.jobs
  modify fun state => { state with
    run := { state.run with
      state := .queued
      cancellationRequested := false
      updatedAtUnix := nowUnix
      completedAtUnix := none } }

/-- The operations on a run and all its jobs. -/
inductive RunOp where
  | requestRunCancellation (nowUnix : ℕ)
  | reconcileRun (revision : WorkflowRevision) (nowUnix : ℕ)
  | retryRun (revision : WorkflowRevision) (nowUnix : ℕ)
  deriving DecidableEq

namespace RunOp

def nowUnix : RunOp → ℕ
  | .requestRunCancellation now | .reconcileRun _ now | .retryRun _ now => now

def run : RunOp → EStateM DomainError RunWithJobs Unit
  | .requestRunCancellation now => do
    let _ ← ScopeVcs.requestRunCancellation now
  | .reconcileRun revision now => ScopeVcs.reconcileRun revision now
  | .retryRun revision now => ScopeVcs.retryRun revision now

end RunOp

end ScopeVcs

import ScopeVcs.Lib.Transition
import ScopeVcs.Runs.AttemptTransitions
import ScopeVcs.Runs.Reconcile

/-! # A run with all its attempts

The state of one run: its jobs and every attempt they ever dispatched, in dispatch order, with its
steps. An operation on an attempt may be presented with any job and any attempt, stale ones
included; one that fails is rolled back, so only successful operations are steps.
-/

namespace ScopeVcs

open Mutation

structure RunAggregate where
  run : Run
  jobs : List RunJob
  attempts : List (RunAttempt × List RunAttemptStep)
  deriving DecidableEq

namespace RunAggregate

/-- The records an operation with job `j` and attempt `a` works on. -/
def held? (state : RunAggregate) (j a : ℕ) : Option Held := do
  let job ← state.jobs[j]?
  let (attempt, steps) ← state.attempts[a]?
  return ⟨attempt, job, steps⟩

def setHeld (state : RunAggregate) (j a : ℕ) (held : Held) : RunAggregate :=
  { state with
    jobs := state.jobs.set j held.job
    attempts := state.attempts.set a (held.attempt, held.steps) }

/-- A run as it is created: queued, with one job for each of the workflow. -/
inductive Created : RunAggregate → Prop where
  | mk {id idempotencyKey digest : String} {workflow : WorkflowIdentity} {trigger : RunTrigger}
      {user : Option String} {now : ℕ} {run : Run} {revision : WorkflowRevision}
      {jobs : List RunJob}
      (hrun : Run.new id idempotencyKey workflow digest trigger user now = .ok run)
      (hjobs : createRunJobs run revision = .ok jobs) : Created ⟨run, jobs, []⟩

/-- What can happen to a run. `Clock` restricts the operations on attempts. -/
inductive Step (Clock : AttemptOp → Held → Prop) : RunAggregate → RunAggregate → Prop where
  | dispatch {state : RunAggregate} {j : ℕ} {job job' : RunJob} {definition : WorkflowJob}
      {attemptId tokenHash runtimeVersion : String} {now lease : ℕ} {attempt : RunAttempt}
      {steps : List RunAttemptStep} (hjob : state.jobs[j]? = some job)
      (hop : (RunJob.dispatch state.run definition attemptId tokenHash runtimeVersion now lease).run
        job = .ok (attempt, steps) job') :
      Step Clock state { state with
        jobs := state.jobs.set j job'
        attempts := state.attempts ++ [(attempt, steps)] }
  | attempt {state : RunAggregate} {j a : ℕ} {op : AttemptOp} {held held' : Held} {u : Unit}
      (hheld : state.held? j a = some held) (hclock : Clock op held)
      (hop : (op.run state.run).run held = .ok u held') : Step Clock state (state.setHeld j a held')
  | expireCapacityRetry {state : RunAggregate} {j : ℕ} {job job' : RunJob} {now : ℕ}
      {expired : Bool} (hjob : state.jobs[j]? = some job)
      (hop : (RunJob.expireCapacityRetry now).run job = .ok expired job') :
      Step Clock state { state with jobs := state.jobs.set j job' }
  | run {state : RunAggregate} {op : RunOp} {result : RunWithJobs} {u : Unit}
      (hop : op.run.run ⟨state.run, state.jobs⟩ = .ok u result) :
      Step Clock state { state with run := result.run, jobs := result.jobs }

/-- The states of runs in which every operation may come at any time. -/
abbrev Reachable : RunAggregate → Prop := Transition.Reachable Created (Step fun _ _ => True)

/-! ## A run of one job -/

namespace SmallRun

def digest : String := String.ofList (List.replicate 64 'a')

def token : String := String.ofList (List.replicate 64 'b')

def buildJob : WorkflowJob :=
  .ofStep ⟨"build"⟩ [] "image" ⟨"compile", "make"⟩

def workflow : CompiledWorkflow where
  name := "ci"
  triggers := ⟨false, true, false, Eq.refl true⟩
  jobs := [buildJob]
  jobs_ne_nil := by decide
  jobs_le := by decide
  sorted := by decide
  graph := by decide

def revision : WorkflowRevision := ⟨⟨"repo", "ci.yml"⟩, digest, workflow⟩

def run : Run :=
  ⟨"run", "key", ⟨"repo", "ci.yml"⟩, digest, .pushMain, none, .queued, false, 100, 100, none⟩

def job : RunJob := RunJob.new run buildJob

def attempt : RunAttempt := job.newAttempt run "attempt" token "1" 100 200

def step : RunAttemptStep := ⟨"attempt", 0, .pending, none, none, none⟩

def created : RunAggregate := ⟨run, [job], []⟩

def dispatched : RunAggregate := ⟨run, [job.dispatched "attempt" 100], [(attempt, [step])]⟩

theorem created_isCreated : Created created := by
  have hrun : Run.new "run" "key" ⟨"repo", "ci.yml"⟩ digest .pushMain none 100 = .ok run := rfl
  have hjobs : createRunJobs run revision = .ok [job] := rfl
  exact .mk hrun hjobs

theorem dispatched_step (Clock : AttemptOp → Held → Prop) : Step Clock created dispatched := by
  have hjob : created.jobs[0]? = some job := rfl
  have hop : (RunJob.dispatch created.run buildJob "attempt" token "1" 100 200).run job =
      .ok (attempt, [step]) (job.dispatched "attempt" 100) := rfl
  exact .dispatch hjob hop

end SmallRun

end RunAggregate

end ScopeVcs

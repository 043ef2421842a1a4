import ScopeVcs.Lib.Transition
import ScopeVcs.Outbox.Execution

/-! # Workers over one outbox

Any number of workers claim, execute, complete and fail jobs; a worker may stop at any point, and its
lease then runs out. The world counts the executions of each job and the times it left the states
`ready` and `running`.
-/

namespace ScopeVcs.Outbox

open Mutation IntegerColumns Transition

/-! ## Workers -/

inductive Phase where
  | claimed
  | executing
  | failing (message : String)
  deriving DecidableEq

/-- The job a worker is at, in the loop of `run_ready_outbox_jobs`. -/
structure InFlight where
  job : ClaimedOutboxJob
  claimNowUnix : ℕ
  phase : Phase
  deriving DecidableEq

/-- A push that was accepted with something to evaluate or not. -/
structure AcceptedPush where
  repoId : String
  head : GitHead
  input : PushTriggerInput
  deriving DecidableEq

/-- The key of the evaluation of a push. -/
def AcceptedPush.key (push : AcceptedPush) : String × ℕ := (push.repoId, push.head.changeVersion)

structure World (ρ : Type) where
  db : OutboxDb ρ
  clock : ℕ
  workers : String → Option InFlight
  /-- The job ids drawn so far; `generate_id` does not repeat one. -/
  jobIds : List String
  executions : String → ℕ
  /-- How often a job left `ready` and `running`. -/
  exits : String → ℕ
  accepted : List AcceptedPush
  /-- The evaluations that ran while native runs were available. -/
  native : List (String × ℕ)

/-- What an actor does next. A transaction carries the time its caller read off the clock. -/
inductive Action where
  | tick (seconds : ℕ)
  | setContentVersion (repoId : String) (version : ℕ)
  | setNativeRuns (repoId : String) (listed : Bool)
  | enqueueRebuild (jobId repoId : String) (repoVersion nowUnix : ℕ)
  | enqueuePush (jobId : String) (push : AcceptedPush) (nowUnix : ℕ)
  | claim (worker : String) (nowUnix : ℕ)
  | execute (worker : String)
  | settle (worker : String) (completionNowUnix : ℕ) (interrupted : Option PostgresError)
  | fail (worker : String) (nowUnix : ℕ)
  | stop (worker : String)
  | prune (nowUnix : ℕ)
  deriving DecidableEq

variable {ρ : Type}

/-- The job is `ready` or `running`. -/
def isOpen (db : OutboxDb ρ) (id : String) : Bool := (db.jobs.find? id).any OutboxJob.isUnfinished

/-- An execution of this job would evaluate its push with native runs. -/
def evaluatesNatively (db : OutboxDb ρ) (job : ClaimedOutboxJob) : Bool :=
  job.kind = JOB_KIND && db.nativeRuns job.repoId &&
    (db.evaluations.find? (job.repoId, job.repoVersion)).any fun stored => stored.state = .pending

namespace World

variable (env : OutboxEnv ρ)

def initial (clock : ℕ) (readModels : ρ) : World ρ where
  db := ⟨∅, ∅, ∅, ∅, [], fun _ => none, fun _ => false, readModels⟩
  clock := clock
  workers := fun _ => none
  jobIds := []
  executions := fun _ => 0
  exits := fun _ => 0
  accepted := []
  native := []

/-- Runs a transaction; one that fails has no effect. -/
def run {α : Type} (w : World ρ) (x : OutboxTx ρ α) : Option (α × World ρ) :=
  match x.run w.db with
  | .ok a db => some (a, { w with db })
  | .error _ _ => none

/-- Calls with a time read off the clock, at this moment or earlier. -/
def now (w : World ρ) (nowUnix : ℕ) (next : Option (World ρ)) : Option (World ρ) :=
  if nowUnix ≤ w.clock ∧ nowUnix ≤ maxI64 then next else none

def setWorker (w : World ρ) (worker : String) (inFlight : Option InFlight) : World ρ :=
  { w with workers := Function.update w.workers worker inFlight }

/-- Draws an id for a job. -/
def draw (w : World ρ) (jobId : String) (x : OutboxTx ρ Unit) : Option (World ρ) :=
  if jobId ∈ w.jobIds then none
  else (w.run x).map fun (_, w') => { w' with jobIds := jobId :: w.jobIds }

def claim (w : World ρ) (worker : String) (nowUnix : ℕ) : Option (World ρ) :=
  match w.workers worker with
  | some _ => none
  | none =>
    (w.run (claimNextReadyJob worker DEFAULT_JOB_LEASE_SECS nowUnix)).map fun (claimed, w') =>
      w'.setWorker worker (claimed.map fun job => ⟨job, nowUnix, .claimed⟩)

/-- The end of an execution. -/
def settle (w : World ρ) (worker : String) (inFlight : InFlight) (completionNowUnix : ℕ)
    (interrupted : Option PostgresError) : World ρ :=
  let (db, settled) := executeAndComplete env inFlight.job worker inFlight.claimNowUnix
    completionNowUnix interrupted w.db
  match settled with
  | .completed _ =>
    { w.setWorker worker none with
      db
      native := if evaluatesNatively w.db inFlight.job = true then
          (inFlight.job.repoId, inFlight.job.repoVersion) :: w.native
        else w.native }
  | .failing message => w.setWorker worker (some { inFlight with phase := .failing message })
  | .stopped _ => w.setWorker worker none

/-- Recording a failure; a worker that cannot leaves with an error. -/
def recordFailure (w : World ρ) (worker : String) (inFlight : InFlight) (message : String)
    (nowUnix : ℕ) : World ρ :=
  match (failOutboxJob inFlight.job worker message nowUnix).run w.db with
  | .ok _ db => { w.setWorker worker none with db }
  | .error _ _ => w.setWorker worker none

/-- The step of an action, before the exits are counted. -/
def step (w : World ρ) : Action → Option (World ρ)
  | .tick seconds => some { w with clock := w.clock + seconds }
  | .setContentVersion repoId version =>
    some { w with db := { w.db with
      repositories := Function.update w.db.repositories repoId (some version) } }
  | .setNativeRuns repoId listed =>
    some { w with db := { w.db with
      nativeRuns := Function.update w.db.nativeRuns repoId listed } }
  | .enqueueRebuild jobId repoId repoVersion nowUnix =>
    w.now nowUnix <| w.draw jobId (enqueueProjectionReadModelRebuild jobId repoId repoVersion nowUnix)
  | .enqueuePush jobId push nowUnix =>
    w.now nowUnix <|
      (w.draw jobId (enqueuePushMainTriggerEvaluation jobId push.repoId push.head push.input
        nowUnix)).map fun w' => { w' with accepted := push :: w.accepted }
  | .claim worker nowUnix => w.now nowUnix <| w.claim worker nowUnix
  | .execute worker =>
    match w.workers worker with
    | some ⟨job, claimNowUnix, .claimed⟩ =>
      some { w.setWorker worker (some ⟨job, claimNowUnix, .executing⟩) with
        executions := Function.update w.executions job.id (w.executions job.id + 1) }
    | _ => none
  | .settle worker completionNowUnix interrupted =>
    if completionNowUnix ≤ w.clock then
      match w.workers worker with
      | some ⟨job, claimNowUnix, .executing⟩ =>
        some (w.settle env worker ⟨job, claimNowUnix, .executing⟩ completionNowUnix interrupted)
      | _ => none
    else none
  | .fail worker nowUnix =>
    w.now nowUnix <|
      match w.workers worker with
      | some ⟨job, claimNowUnix, .failing message⟩ =>
        some (w.recordFailure worker ⟨job, claimNowUnix, .failing message⟩ message nowUnix)
      | _ => none
  | .stop worker => some (w.setWorker worker none)
  | .prune nowUnix => w.now nowUnix <| (w.run (pruneSucceededOutboxJobs nowUnix)).map Prod.snd

/-- The step of an action; the exits are counted from what it does to the jobs. -/
def act (w : World ρ) (a : Action) : Option (World ρ) :=
  (w.step env a).map fun w' =>
    { w' with exits := fun id =>
        w.exits id + if isOpen w.db id = true ∧ isOpen w'.db id = false then 1 else 0 }

/-- The worlds some interleaving of the actors leads to, from an empty outbox. -/
def Reachable (w : World ρ) : Prop :=
  Transition.Reachable (fun w => ∃ clock readModels, w = initial clock readModels)
    (fun w w' => ∃ a, w.act env a = some w') w

/-- No claim takes over a job from a worker whose lease ran out. -/
def claimsReady (w : World ρ) : Action → Bool
  | .claim _ nowUnix => (nextRunnableJob w.db nowUnix).all fun job => job.state = .ready
  | _ => true

/-- The worlds interleavings without a take-over lead to. -/
def ReachedWithoutTakeover (w : World ρ) : Prop :=
  Transition.Reachable (fun w => ∃ clock readModels, w = initial clock readModels)
    (fun w w' => ∃ a, w.claimsReady a = true ∧ w.act env a = some w') w

end World

end ScopeVcs.Outbox

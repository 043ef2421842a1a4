import ScopeVcs.Lib.Table
import ScopeVcs.Lib.Text
import ScopeVcs.Postgres.Error
import ScopeVcs.Requests.Model

/-! # The queue of pushes to GitHub

The rows of the push table and the transactions over them. The check constraint on the table ties
the lease and the claim token to the running state, so here that state carries them.
-/

namespace ScopeVcs.GitHub

open Mutation IntegerColumns Requests

/-! ## Branches -/

inductive GitHubBranch where
  | request (requestId : String)
  | setupCheck
  | main
  deriving DecidableEq

namespace GitHubBranch

def requestBranchPrefix : String := "scope/requests/"

def parse (branch : String) : Option GitHubBranch :=
  if branch = "scope/setup-check" then some setupCheck
  else if branch = "main" then some main
  else
    ((Text.stripPrefix? requestBranchPrefix.toList branch.toList).filter fun requestId =>
      !requestId.isEmpty && !requestId.contains '/').map fun requestId =>
        request (String.ofList requestId)

def name : GitHubBranch → String
  | request requestId => requestBranchPrefix ++ requestId
  | setupCheck => "scope/setup-check"
  | main => "main"

def ownedByScope (branch : GitHubBranch) : Bool := branch != main

def gitRef (branch : GitHubBranch) : String := "refs/heads/" ++ branch.name

end GitHubBranch

structure GitHubPushDestination where
  installationId : ℕ
  githubRepositoryId : ℕ
  githubFullName : String
  deriving DecidableEq

inductive GitHubPushState where
  | queued
  | running
  | succeeded
  | failed
  deriving DecidableEq

structure GitHubPush where
  id : String
  repoId : String
  branch : GitHubBranch
  targetOid : Option String
  destination : GitHubPushDestination
  state : GitHubPushState
  attempts : ℕ
  lastError : Option String
  updatedAtUnix : ℕ
  deriving DecidableEq

/-! ## Rows -/

inductive PushRowState where
  | queued
  | running (leaseUntilUnix : ℕ) (claimToken : String)
  | succeeded
  | failed
  deriving DecidableEq

structure PushRow where
  id : String
  repoId : String
  requestId : Option String
  gitRef : String
  sequence : ℕ
  destination : GitHubPushDestination
  targetOid : Option String
  state : PushRowState
  attempts : ℕ
  nextAttemptAtUnix : ℕ
  lastError : Option String
  createdAtUnix : ℕ
  updatedAtUnix : ℕ
  deriving DecidableEq

namespace PushRow

/-- The queue a row belongs to. -/
def ref (row : PushRow) : String × String := (row.repoId, row.gitRef)

def branch (row : PushRow) : Except PostgresError GitHubBranch :=
  match (Text.stripPrefix? "refs/heads/".toList row.gitRef.toList).bind fun name =>
      GitHubBranch.parse (String.ofList name) with
  | some branch => .ok branch
  | none => .error (.internalMessage ("GitHub push names an unknown ref " ++ row.gitRef))

def domainState (row : PushRow) : GitHubPushState :=
  match row.state with
  | .queued => .queued
  | .running _ _ => .running
  | .succeeded => .succeeded
  | .failed => .failed

def intoDomain (row : PushRow) : Except PostgresError GitHubPush := do
  let branch ← row.branch
  return {
    id := row.id
    repoId := row.repoId
    branch
    targetOid := row.targetOid
    destination := row.destination
    state := row.domainState
    attempts := row.attempts
    lastError := row.lastError
    updatedAtUnix := row.updatedAtUnix }

/-- `state = 'running' AND lease_until_unix > now`. -/
def runsBeyond (now : ℕ) (row : PushRow) : Bool :=
  match row.state with
  | .running leaseUntil _ => now < leaseUntil
  | _ => false

/-- `state IN ('queued', 'running')`. -/
def isUnfinished (row : PushRow) : Bool :=
  match row.state with
  | .queued | .running _ _ => true
  | .succeeded | .failed => false

/-- `state = 'running' AND claim_token = token`. -/
def isClaimedUnder (token : String) (row : PushRow) : Bool :=
  match row.state with
  | .running _ claimToken => claimToken = token
  | _ => false

/-- `(state = 'queued' AND next_attempt_at_unix <= now)
OR (state = 'running' AND lease_until_unix <= now)`. -/
def isDue (now : ℕ) (row : PushRow) : Bool :=
  match row.state with
  | .queued => row.nextAttemptAtUnix ≤ now
  | .running leaseUntil _ => leaseUntil ≤ now
  | _ => false

/-- `state <> 'running' OR lease_until_unix <= now`. -/
def isReplaceable (now : ℕ) (row : PushRow) : Bool := !row.runsBeyond now

/-- The condition of the statements of a claim's holder:
`id = … AND claim_token = … AND state = 'running'`. -/
def isHeldBy (id token : String) (row : PushRow) : Bool := row.id = id && row.isClaimedUnder token

end PushRow

/-- The push table, and the column of the request table that decides whether a push may run. -/
structure PushDb where
  pushes : Table PushRow.id
  stackStatus : String → Option RequestStackStatus

abbrev PushTx := EStateM PostgresError PushDb

/-! ## Queries -/

namespace PushDb

/-- The rows with `later.sequence > push.sequence` of the same ref. -/
def existsLater (db : PushDb) (row : PushRow) : Bool :=
  db.pushes.any fun later => later.ref = row.ref && row.sequence < later.sequence

/-- `coalesce(max(sequence), 0) + 1`. -/
def nextSequence (db : PushDb) (repoId gitRef : String) : ℕ :=
  ((db.pushes.select fun row => row.ref = (repoId, gitRef)).map PushRow.sequence).foldr max 0 + 1

/-- The row whose request requires a restack: `blocked_request_push`. -/
def blockedRequestPush (db : PushDb) (id : String) : Bool :=
  match db.pushes.find? id with
  | none => false
  | some row =>
    match row.requestId.filter fun _ => row.targetOid.isSome with
    | none => false
    | some requestId => (db.stackStatus requestId).any RequestStackStatus.requiresRestack

/-- The row is the only one of its ref that may run: no other runs, and none later waits. -/
def mayRun (db : PushDb) (now : ℕ) (push : PushRow) : Bool :=
  !db.pushes.any fun other =>
    other.ref = push.ref && other.id != push.id &&
      (other.runsBeyond now || (other.isUnfinished && push.sequence < other.sequence))

/-- The stack status of the row's request lets it be pushed. -/
def isUnblocked (db : PushDb) (push : PushRow) : Bool :=
  push.targetOid.isNone ||
    !(push.requestId.bind db.stackStatus).any RequestStackStatus.requiresRestack

def duePushSelection (db : PushDb) (now limit : ℕ) (ids : Option (List String)) : List PushRow :=
  ((db.pushes.select fun push =>
    push.isDue now && db.isUnblocked push && db.mayRun now push &&
      ids.all fun selected => selected.contains push.id).insertionSort fun r r' =>
    r.nextAttemptAtUnix < r'.nextAttemptAtUnix ∨
      r.nextAttemptAtUnix = r'.nextAttemptAtUnix ∧
        (r.createdAtUnix < r'.createdAtUnix ∨
          r.createdAtUnix = r'.createdAtUnix ∧ r.id ≤ r'.id)).take limit

end PushDb

/-! ## Transactions -/

inductive GitHubPushStanding where
  | current
  | superseded
  | lost
  deriving DecidableEq

/-- `github_push_standing`; the lease is compared with the database's own clock. -/
def githubPushStanding (db : PushDb) (databaseNow : ℕ) (id claimToken : String) :
    GitHubPushStanding :=
  match (db.pushes.find? id).filter fun row =>
      row.isClaimedUnder claimToken && row.runsBeyond databaseNow with
  | none => .lost
  | some row =>
    if db.existsLater row = true then .superseded
    else if db.blockedRequestPush id = true then .lost
    else .current

def PushDb.dropSuperseded (db : PushDb) (id claimToken : String) : PushDb :=
  { db with
    pushes := db.pushes.delete fun row => row.isHeldBy id claimToken && db.existsLater row }

def dropSupersededGithubPush (id claimToken : String) : PushTx Unit :=
  modify fun db => db.dropSuperseded id claimToken

def PushDb.dropStale (db : PushDb) (id claimToken : String) : PushDb :=
  { db with pushes := db.pushes.delete fun row => row.isHeldBy id claimToken }

def dropStaleGithubPush (id claimToken : String) : PushTx Unit :=
  modify fun db => db.dropStale id claimToken

/-- What a claim writes into a row. -/
def PushRow.claimed (now leaseUntil : ℕ) (claimToken : String) (row : PushRow) : PushRow :=
  { row with
    state := .running leaseUntil claimToken
    attempts := row.attempts + 1
    updatedAtUnix := max now row.updatedAtUnix }

/-- `UPDATE … SET state = 'running', … FROM due WHERE push.id = due.id`. -/
def PushDb.claim (db : PushDb) (ids : List String) (now leaseUntil : ℕ) (claimToken : String) :
    PushDb :=
  { db with
    pushes := db.pushes.update (fun row => ids.contains row.id)
      (PushRow.claimed now leaseUntil claimToken) (by intro _; rfl) }

def claimDueGithubPushes (claimToken : String) (nowUnix leaseUntilUnix limit : ℕ) :
    PushTx (List GitHubPush) := transaction do
  let now ← check fun _ => u64ToI64 nowUnix "GitHub push claim time"
  let limit ← check fun _ => u64ToI64 limit "GitHub push batch size"
  let db ← get
  let observed := (db.duePushSelection now limit none).map PushRow.id
  let leaseUntil ← check fun _ => u64ToI64 leaseUntilUnix "GitHub push lease"
  let due := db.duePushSelection now limit (some observed)
  check fun _ => rejectIf (due.any (fun row => maxI32 ≤ row.attempts) = true)
    (.internalMessage "integer out of range")
  modify fun db => db.claim (due.map PushRow.id) now leaseUntil claimToken
  check fun db => (db.pushes.select fun row => (due.map PushRow.id).contains row.id).mapM
    PushRow.intoDomain

inductive GitHubJobOutcome where
  | succeeded
  | failed (error : String) (retryAtUnix : Option ℕ)
  deriving DecidableEq

/-- What an outcome writes into the state, the next attempt and the error of its row. -/
def PushRow.finished (now : ℕ) (outcome : GitHubJobOutcome) (row : PushRow) : PushRow :=
  match outcome with
  | .succeeded =>
    { row with state := .succeeded, lastError := none, updatedAtUnix := max now row.updatedAtUnix }
  | .failed error (some retryAt) =>
    { row with
      state := .queued, nextAttemptAtUnix := retryAt, lastError := some error
      updatedAtUnix := max now row.updatedAtUnix }
  | .failed error none =>
    { row with
      state := .failed, lastError := some error, updatedAtUnix := max now row.updatedAtUnix }

theorem PushRow.finished_id (now : ℕ) (outcome : GitHubJobOutcome) (row : PushRow) :
    (row.finished now outcome).id = row.id := by
  cases outcome with
  | succeeded => rfl
  | failed error retryAt => cases retryAt <;> rfl

def GitHubJobOutcome.retryAtUnix : GitHubJobOutcome → Option ℕ
  | succeeded => none
  | failed _ retryAt => retryAt

/-- What the pull requests and the setup checks learn of a push that ended; `none` while it is to be
tried again. -/
def GitHubJobOutcome.pushResult : GitHubJobOutcome → Option (Except String Unit)
  | succeeded => some (.ok ())
  | failed _ (some _) => none
  | failed error none => some (.error error)

/-- Writes to other tables that are part of finishing a push; either may fail. -/
structure PushFollowUps where
  queueCarrierForPushedHead (requestId targetOid : String) (nowUnix : ℕ) : Except PostgresError Unit
  recordSetupCheckPush (repoId pushId : String) (result : Except String Unit) (nowUnix : ℕ) :
    Except PostgresError Unit

def PushFollowUps.run (followUps : PushFollowUps) (push : GitHubPush)
    (pushResult : Option (Except String Unit)) (nowUnix : ℕ) : Except PostgresError Unit := do
  match push.branch, push.targetOid, pushResult with
  | .request requestId, some targetOid, some (.ok ()) =>
    followUps.queueCarrierForPushedHead requestId targetOid nowUnix
  | .setupCheck, some _, some result =>
    followUps.recordSetupCheckPush push.repoId push.id result nowUnix
  | _, _, _ => return ()

def PushDb.finish (db : PushDb) (id claimToken : String) (now : ℕ) (outcome : GitHubJobOutcome) :
    PushDb :=
  { db with
    pushes := db.pushes.update (fun row => row.isHeldBy id claimToken) (PushRow.finished now outcome)
      (PushRow.finished_id now outcome) }

def finishGithubPush (followUps : PushFollowUps) (id claimToken : String)
    (outcome : GitHubJobOutcome) (nowUnix : ℕ) : PushTx (Option GitHubPush) := transaction do
  let now ← check fun _ => u64ToI64 nowUnix "GitHub push time"
  let _ ← check fun _ => outcome.retryAtUnix.mapM fun at_ => u64ToI64 at_ "GitHub push retry time"
  let db ← get
  if db.blockedRequestPush id = true then return none
  else
    match (db.pushes.find? id).filter fun row => row.isClaimedUnder claimToken with
    | none => return none
    | some row =>
      modify fun db => db.finish id claimToken now outcome
      let push ← check fun _ => (row.finished now outcome).intoDomain
      check fun _ => followUps.run push outcome.pushResult nowUnix
      return some push

structure QueueArgs where
  repoId : String
  branch : GitHubBranch
  targetOid : Option String
  destination : GitHubPushDestination
  nowUnix : ℕ
  /-- The id the database draws for the row. -/
  pushId : String
  deriving DecidableEq

namespace QueueArgs

def requestId (args : QueueArgs) : Option String :=
  match args.branch with
  | .request requestId => some requestId
  | .setupCheck | .main => none

def ref (args : QueueArgs) : String × String := (args.repoId, args.branch.gitRef)

def row (args : QueueArgs) (sequence : ℕ) : PushRow where
  id := args.pushId
  repoId := args.repoId
  requestId := args.requestId
  gitRef := args.branch.gitRef
  sequence := sequence
  destination := args.destination
  targetOid := args.targetOid
  state := .queued
  attempts := 0
  nextAttemptAtUnix := args.nowUnix
  lastError := none
  createdAtUnix := args.nowUnix
  updatedAtUnix := args.nowUnix

end QueueArgs

def PushDb.queue (db : PushDb) (args : QueueArgs) : PushDb :=
  { db with
    pushes := (db.pushes.delete fun row => row.ref = args.ref && row.isReplaceable args.nowUnix).insert
      (args.row (db.nextSequence args.repoId args.branch.gitRef)) }

def queueGithubPush (args : QueueArgs) : PushTx String := transaction do
  check fun _ => rejectIf (args.targetOid.isNone = true ∧ args.branch.ownedByScope = false)
    (.internalMessage ("Scope does not delete " ++ args.branch.name ++ " on GitHub"))
  let _ ← check fun _ => u64ToI64 args.nowUnix "GitHub push time"
  check fun db => rejectIf (maxI64 < db.nextSequence args.repoId args.branch.gitRef)
    (.internalMessage "bigint out of range")
  let _ ← check fun _ => u64ToI64 args.destination.installationId "GitHub installation id"
  let _ ← check fun _ => u64ToI64 args.destination.githubRepositoryId "GitHub repository id"
  check fun db => rejectIf
    (((db.pushes.delete fun row =>
      row.ref = args.ref && row.isReplaceable args.nowUnix).find? args.pushId).isSome = true)
    (.internalMessage "duplicate key value violates unique constraint")
  modify fun db => db.queue args
  return args.pushId

end ScopeVcs.GitHub

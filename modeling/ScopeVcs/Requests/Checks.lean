import ScopeVcs.Content.Object
import ScopeVcs.Lib.Bytes
import ScopeVcs.Lib.Terminated
import ScopeVcs.Outbox.Evaluation
import ScopeVcs.Requests.Model
import ScopeVcs.Runs.Run

/-! # Check evaluations of requests

An evaluation says which checks a head of a request has to pass. Its id is a digest of its evidence:
what is tested and by which checks. SHA-256 as a hex text comes from a library and is a parameter.
-/

namespace ScopeVcs.Requests

open Mutation

/-! ## Evaluations -/

inductive RequestCheckEvaluationState where
  | noChecks
  | awaitingApproval
  | started
  | configurationError
  deriving DecidableEq

structure NativeRequestCheck where
  workflowPath : String
  workflowName : String
  workflowRevisionDigest : String
  runId : Option String
  deriving DecidableEq

inductive RequestCheck where
  | native (check : NativeRequestCheck)
  | github (name : String)
  deriving DecidableEq

def RequestCheck.native? : RequestCheck → Option NativeRequestCheck
  | .native check => some check
  | .github _ => none

/-- The commits that a check commit was built on. -/
structure CheckCommitBase where
  canonicalMainOid : String
  viewBaseOid : String
  deriving DecidableEq

structure RequestCheckContext where
  requestId : String
  revisionId : String
  headOid : String
  baseVersion : ℕ
  reviewBaseOid : String
  deriving DecidableEq

def RequestCheckContext.matchesRequest (context : RequestCheckContext) (request : Request) : Bool :=
  context.requestId == request.id && context.headOid == request.headOid &&
    context.baseVersion == request.baseVersion &&
    context.reviewBaseOid == request.base.reviewBaseOid

structure RequestCheckEvaluation where
  id : String
  revisionId : String
  baseVersion : ℕ
  reviewBaseOid : String
  githubRepositoryId : Option ℕ
  requestId : String
  headOid : String
  testedOid : String
  changesGithubWorkflows : Option Bool
  checkCommitBase : Option CheckCommitBase
  state : RequestCheckEvaluationState
  message : Option String
  checks : List RequestCheck
  createdAtUnix : ℕ
  updatedAtUnix : ℕ
  deriving DecidableEq

def ensureEveryCheckStarted (checks : List RequestCheck) : Except DomainError Unit :=
  rejectIf (checks = [] ∨ ((checks.filterMap RequestCheck.native?).any fun check =>
      check.runId.isNone) = true)
    (.invalidInput "started checks must exist and each needs a run")

/-- Gives the native checks their runs, in order. -/
def assignRuns : List RequestCheck → List String → List RequestCheck
  | .native check :: checks, runId :: runIds =>
    .native { check with runId := some runId } :: assignRuns checks runIds
  | .github name :: checks, runIds => .github name :: assignRuns checks runIds
  | checks, _ => checks

namespace RequestCheckEvaluation

def nativeChecks (evaluation : RequestCheckEvaluation) : List NativeRequestCheck :=
  evaluation.checks.filterMap RequestCheck.native?

def runIds (evaluation : RequestCheckEvaluation) : List String :=
  evaluation.nativeChecks.filterMap (·.runId)

def asksGithub (evaluation : RequestCheckEvaluation) : Bool :=
  evaluation.checks.any fun check => check.native?.isNone

def testsCheckCommit (evaluation : RequestCheckEvaluation) : Bool :=
  evaluation.checkCommitBase.isSome

def context (evaluation : RequestCheckEvaluation) : RequestCheckContext where
  requestId := evaluation.requestId
  revisionId := evaluation.revisionId
  headOid := evaluation.headOid
  baseVersion := evaluation.baseVersion
  reviewBaseOid := evaluation.reviewBaseOid

def matchesRequest (evaluation : RequestCheckEvaluation) (request : Request) : Bool :=
  evaluation.requestId == request.id && evaluation.headOid == request.headOid &&
    evaluation.baseVersion == request.baseVersion &&
    evaluation.reviewBaseOid == request.base.reviewBaseOid

/-! ## Identity -/

/-- The part of a check that its evaluation is identified by. -/
def checkFields : RequestCheck → List (List UInt8)
  | .native check =>
    [Text.utf8 "native", Text.utf8 check.workflowPath, Text.utf8 check.workflowRevisionDigest]
  | .github name => [Text.utf8 "github", Text.utf8 name]

/-- The bytes that `renew_identity` digests: terminated texts, the eight bytes of the GitHub
repository id, with zero for none, and more terminated texts. -/
def evidence (evaluation : RequestCheckEvaluation) : List UInt8 :=
  Terminated.fields 0
      [Text.utf8 evaluation.requestId, Text.utf8 evaluation.revisionId,
        Text.utf8 evaluation.headOid, Text.utf8 evaluation.reviewBaseOid,
        Text.utf8 evaluation.testedOid] ++
    Bytes.be 8 (evaluation.githubRepositoryId.getD 0) ++
    (match evaluation.checkCommitBase with
      | some base =>
        Terminated.fields 0 [Text.utf8 base.canonicalMainOid, Text.utf8 base.viewBaseOid]
      | none => []) ++
    Terminated.fields 0 (evaluation.checks.flatMap checkFields)

section Digest

variable (sha256Hex : List UInt8 → String)

def renewIdentity (evaluation : RequestCheckEvaluation) : RequestCheckEvaluation :=
  { evaluation with id := "evaluation_" ++ sha256Hex evaluation.evidence }

def ensureIdentity (evaluation : RequestCheckEvaluation) : Except DomainError Unit :=
  rejectIf ((evaluation.renewIdentity sha256Hex).id ≠ evaluation.id)
    (.conflict "request check identity does not match its evidence")

/-! ## Building an evaluation -/

def validateCheck : RequestCheck → Except DomainError Unit
  | .native check => do
    validateRequired "check workflow path" check.workflowPath
    validateRequired "check workflow name" check.workflowName
    validateSha256Hash "check workflow revision digest" check.workflowRevisionDigest
  | .github name => validateRequired "check name" name

/-- What `new` builds before it has an id: the head itself is tested. -/
def unidentified (context : RequestCheckContext) (state : RequestCheckEvaluationState)
    (message : Option String) (checks : List RequestCheck) (nowUnix : ℕ) :
    RequestCheckEvaluation where
  id := ""
  revisionId := context.revisionId
  baseVersion := context.baseVersion
  reviewBaseOid := context.reviewBaseOid
  githubRepositoryId := none
  requestId := context.requestId
  headOid := context.headOid
  testedOid := context.headOid
  changesGithubWorkflows := none
  checkCommitBase := none
  state
  message
  checks
  createdAtUnix := nowUnix
  updatedAtUnix := nowUnix

def new (context : RequestCheckContext) (state : RequestCheckEvaluationState)
    (message : Option String) (checks : List RequestCheck) (nowUnix : ℕ) :
    Except DomainError RequestCheckEvaluation := do
  validateRequired "request id" context.requestId
  Outbox.validateGitOid "request check head" context.headOid
  checks.forM validateCheck
  return (unidentified context state message checks nowUnix).renewIdentity sha256Hex

def noChecks (context : RequestCheckContext) (nowUnix : ℕ) :
    Except DomainError RequestCheckEvaluation :=
  new sha256Hex context .noChecks none [] nowUnix

def awaitingApproval (context : RequestCheckContext) (checks : List RequestCheck) (nowUnix : ℕ) :
    Except DomainError RequestCheckEvaluation := do
  rejectIf (checks = [] ∨ ((checks.filterMap RequestCheck.native?).any fun check =>
      check.runId.isSome) = true)
    (.invalidInput "checks awaiting approval must exist and cannot have runs")
  new sha256Hex context .awaitingApproval none checks nowUnix

def started (context : RequestCheckContext) (checks : List RequestCheck) (nowUnix : ℕ) :
    Except DomainError RequestCheckEvaluation := do
  ensureEveryCheckStarted checks
  new sha256Hex context .started none checks nowUnix

def configurationError (context : RequestCheckContext) (message : String) (nowUnix : ℕ) :
    Except DomainError RequestCheckEvaluation := do
  validateRequired "configuration error message" message
  new sha256Hex context .configurationError (some message) [] nowUnix

end Digest

/-! ## Changing an evaluation -/

def ensureAwaitingApproval (evaluation : RequestCheckEvaluation) : Except DomainError Unit :=
  rejectIf (evaluation.state ≠ .awaitingApproval) (.conflict "request CI is not awaiting approval")

def approve (evaluation : RequestCheckEvaluation) (runIds : List String) (nowUnix : ℕ) :
    Except DomainError RequestCheckEvaluation := do
  evaluation.ensureAwaitingApproval
  rejectIf (runIds.length ≠ evaluation.nativeChecks.length)
    (.invalidInput "approval must start every recorded check")
  rejectIf (nowUnix < evaluation.createdAtUnix)
    (.invalidInput "request check approval cannot predate the evaluation")
  let checks := assignRuns evaluation.checks runIds
  ensureEveryCheckStarted checks
  return { evaluation with checks, state := .started, updatedAtUnix := nowUnix }

def testCheckCommit (evaluation : RequestCheckEvaluation) (oid : String) (base : CheckCommitBase) :
    Except DomainError RequestCheckEvaluation := do
  Outbox.validateGitOid "request check commit" oid
  rejectIf (oid = evaluation.headOid ∨ evaluation.nativeChecks ≠ [])
    (.invalidInput "only GitHub checks can test a commit other than the head")
  return { evaluation with testedOid := oid, checkCommitBase := some base }

end RequestCheckEvaluation

inductive CheckVerdict where
  | passed
  | pending
  | failed
  deriving DecidableEq

def nativeVerdict (check : NativeRequestCheck) (runs : List (String × RunState)) : CheckVerdict :=
  let state : Option RunState :=
    check.runId.bind fun runId => (runs.find? fun run => run.1 == runId).map (·.2)
  match state with
  | some .succeeded => .passed
  | some state => if state.isTerminal then .failed else .pending
  | none => .failed

def NATIVE_RUNS_UNAVAILABLE : String := "Scope runs are not available for this repository."

/-- Whether an evaluation waits for native runs. -/
def RequestCheckEvaluation.waitsForNativeRuns (evaluation : RequestCheckEvaluation)
    (runStates : List (String × RunState)) : Bool :=
  match evaluation.state with
  | .awaitingApproval => !evaluation.nativeChecks.isEmpty
  | .started =>
    let verdicts := evaluation.nativeChecks.map fun check => nativeVerdict check runStates
    !verdicts.contains .failed && verdicts.contains .pending
  | .noChecks | .configurationError => false

/-- An evaluation that waits for native runs cannot go on without them; it keeps its id. -/
def RequestCheckEvaluation.withdrawNativeRuns (sha256Hex : List UInt8 → String)
    (evaluation : RequestCheckEvaluation) (runStates : List (String × RunState)) (nowUnix : ℕ) :
    Except DomainError (Option RequestCheckEvaluation) :=
  if evaluation.waitsForNativeRuns runStates = false then .ok none
  else do
    let withdrawn ← configurationError sha256Hex evaluation.context NATIVE_RUNS_UNAVAILABLE
      (max nowUnix evaluation.updatedAtUnix)
    return some { withdrawn with
      checks := evaluation.checks
      id := evaluation.id
      githubRepositoryId := evaluation.githubRepositoryId
      createdAtUnix := evaluation.createdAtUnix }

/-! ## Runs -/

/-- `RunSource::ephemeral_git_bundle`: whether a blob can be the source of a run. -/
def ensureEphemeralGitBundle (object : Content.SourceBlob) : Except DomainError Unit := do
  validateSha256Hash "run source bundle digest" object.sha256
  let contentSha256 : Option String :=
    match object.contentRef with
    | .blobSha256 sha256 | .gitBundleSha256 sha256 => some sha256
    | .gitBlob _ => none
  rejectIf (contentSha256 ≠ some object.sha256)
    (.invalidInput "run source bundle content reference does not match its digest")
  Outbox.validateGitOid "run source bundle Git OID" object.gitOid
  match object.contentRef with
  | .gitBundleSha256 _ => return ()
  | .blobSha256 _ | .gitBlob _ =>
    throw (.invalidInput "ephemeral run source must be a Git bundle")

namespace NativeRequestCheck

def forRevision (revision : WorkflowRevision) : NativeRequestCheck where
  workflowPath := revision.workflow.path
  workflowName := Outbox.workflowPathName revision.workflow.path
  workflowRevisionDigest := revision.digest
  runId := none

/-- The run of a check, with ids made from the request, the evaluation and the workflow. -/
def run (sha256Hex : List UInt8 → String) (check : NativeRequestCheck) (request : Request)
    (source : Option Content.SourceBlob) (evaluationId : String) (revision : WorkflowRevision)
    (requestedByUserId : String) (nowUnix : ℕ) : Except DomainError Run := do
  rejectIf (revision.digest ≠ check.workflowRevisionDigest ∨
      revision.workflow.path ≠ check.workflowPath)
    (.invalidInput "request check does not match the workflow revision")
  rejectIf (request.pushedAtUnix.isNone = true) (.conflict "request branch has not been pushed")
  match source with
  | none => throw (.conflict "request run source is unavailable")
  | some source => do
    rejectIf (source.gitOid ≠ request.headOid)
      (.conflict "request run source does not match its head")
    let idempotencyKey :=
      "request:" ++ request.id ++ ":" ++ evaluationId ++ ":" ++ check.workflowPath
    let digest := sha256Hex
      (Text.utf8 revision.workflow.repositoryId ++ 0 :: Text.utf8 idempotencyKey)
    ensureEphemeralGitBundle source
    Run.new ("run_request_" ++ digest) idempotencyKey revision.workflow revision.digest .request
      (some requestedByUserId) nowUnix

end NativeRequestCheck

/-- The runs of the checks, each for its workflow revision. -/
def planRuns (sha256Hex : List UInt8 → String) (request : Request)
    (source : Option Content.SourceBlob) (evaluationId : String) (checks : List NativeRequestCheck)
    (revisions : List WorkflowRevision) (actorUserId : String) (nowUnix : ℕ) :
    Except DomainError (List Run) := do
  rejectIf (checks.length ≠ revisions.length)
    (.invalidInput "approval must start every recorded check")
  (checks.zip revisions).mapM fun (check, revision) =>
    check.run sha256Hex request source evaluationId revision actorUserId nowUnix

/-! ## Plans -/

inductive NativeRunsAvailability where
  | available
  | unavailable
  deriving DecidableEq

/-- A maintainer who reads the full view. -/
structure RequestCheckReviewer where
  userId : String

inductive GitHubCheckTarget where
  | head
  | checkCommit
  deriving DecidableEq

def GitHubCheckTarget.forRequest (request : Request) (views : Views) : GitHubCheckTarget :=
  if request.view = views.full then .head else .checkCommit

inductive GitHubTestedCommit where
  | head
  | checkCommit (oid : String) (base : CheckCommitBase)
  | conflict
  deriving DecidableEq

def GitHubTestedCommit.target : GitHubTestedCommit → GitHubCheckTarget
  | .head => .head
  | .checkCommit _ _ | .conflict => .checkCommit

/-- The checks of a repository that is connected to GitHub; only a positive repository id can be
connected. -/
structure GitHubRequestChecks where
  githubRepositoryId : ℕ
  tested : GitHubTestedCommit
  requiredCheckNames : List String
  githubRepositoryId_pos : 0 < githubRepositoryId
  githubRepositoryId_lt : githubRepositoryId < 2 ^ 64

def PRIVATE_CODE_CONFLICT_MESSAGE : String :=
  "This contribution conflicts with private code, so its CI cannot run. A maintainer must resolve the conflict."

structure RequestCheckPlan where
  evaluation : RequestCheckEvaluation
  runs : List Run
  pushToGithub : Bool
  deriving DecidableEq

namespace RequestCheckPlan

def startsOnPush (request : Request) : Bool := request.state != .merged

/-- `RequestCheckPlan::native`. -/
def ofNative (evaluation : RequestCheckEvaluation) (runs : List Run) : RequestCheckPlan :=
  ⟨evaluation, runs, false⟩

variable (sha256Hex : List UInt8 → String)

def evaluate (request : Request) (source : Option Content.SourceBlob)
    (context : RequestCheckContext) (nativeRuns : NativeRunsAvailability)
    (revisions : Except String (List WorkflowRevision))
    (reviewingPusher : Option RequestCheckReviewer) (nowUnix : ℕ) :
    Except DomainError RequestCheckPlan := do
  rejectIf (context.matchesRequest request = false)
    (.conflict "request changed while evaluating CI")
  if nativeRuns ≠ .available then
    return ofNative (← RequestCheckEvaluation.noChecks sha256Hex context nowUnix) []
  else
    match revisions with
    | .error message =>
      return ofNative
        (← RequestCheckEvaluation.configurationError sha256Hex context message nowUnix) []
    | .ok [] => return ofNative (← RequestCheckEvaluation.noChecks sha256Hex context nowUnix) []
    | .ok revisions => do
      let checks := revisions.map fun revision => .native (NativeRequestCheck.forRevision revision)
      let evaluation ← RequestCheckEvaluation.awaitingApproval sha256Hex context checks nowUnix
      match reviewingPusher.filter fun _ => startsOnPush request with
      | some starter =>
        let runs ← planRuns sha256Hex request source evaluation.id evaluation.nativeChecks
          revisions starter.userId nowUnix
        let evaluation ← evaluation.approve (runs.map (·.id)) nowUnix
        return ofNative evaluation runs
      | none => return ofNative evaluation []

/-- The evaluation of GitHub checks before it is said what they test. -/
def githubEvaluation (context : RequestCheckContext) (checks : List RequestCheck) (starts : Bool)
    (nowUnix : ℕ) : Except DomainError RequestCheckEvaluation :=
  if checks = [] then RequestCheckEvaluation.noChecks sha256Hex context nowUnix
  else if starts then RequestCheckEvaluation.started sha256Hex context checks nowUnix
  else RequestCheckEvaluation.awaitingApproval sha256Hex context checks nowUnix

def evaluateGithub (request : Request) (context : RequestCheckContext) (views : Views)
    (github : GitHubRequestChecks) (reviewingPusher : Option RequestCheckReviewer) (nowUnix : ℕ) :
    Except DomainError RequestCheckPlan := do
  rejectIf (context.matchesRequest request = false)
    (.conflict "request changed while evaluating CI")
  rejectIf (github.tested.target ≠ .forRequest request views)
    (.invalidInput "the tested commit does not fit the request's view")
  let checks := github.requiredCheckNames.map RequestCheck.github
  let starts := reviewingPusher.isSome && startsOnPush request
  match github.tested with
  | .conflict =>
    let evaluation ← RequestCheckEvaluation.configurationError sha256Hex context
      PRIVATE_CODE_CONFLICT_MESSAGE nowUnix
    let evaluation :=
      { evaluation with githubRepositoryId := some github.githubRepositoryId, checks }
    return ofNative (evaluation.renewIdentity sha256Hex) []
  | .head =>
    let evaluation ← githubEvaluation sha256Hex context checks starts nowUnix
    let evaluation := { evaluation with githubRepositoryId := some github.githubRepositoryId }
    return ⟨evaluation.renewIdentity sha256Hex, [], starts⟩
  | .checkCommit oid base =>
    let evaluation ← githubEvaluation sha256Hex context checks starts nowUnix
    let evaluation := { evaluation with githubRepositoryId := some github.githubRepositoryId }
    let evaluation ← evaluation.testCheckCommit oid base
    return ⟨evaluation.renewIdentity sha256Hex, [], starts⟩

def rebuildCheckCommit (request : Request) (evaluation : RequestCheckEvaluation)
    (tested : GitHubTestedCommit) (nowUnix : ℕ) : Except DomainError RequestCheckPlan := do
  rejectIf (evaluation.matchesRequest request = false ∨ evaluation.state ≠ .started ∨
      evaluation.testsCheckCommit = false)
    (.conflict "request checks no longer test a check commit for this head")
  rejectIf (nowUnix < evaluation.createdAtUnix)
    (.invalidInput "a new check commit cannot predate the evaluation")
  match tested with
  | .checkCommit oid base =>
    let rebuilt := { evaluation with testedOid := evaluation.headOid, checkCommitBase := none }
    let rebuilt ← rebuilt.testCheckCommit oid base
    let rebuilt := { rebuilt with createdAtUnix := nowUnix, updatedAtUnix := nowUnix }
    return ⟨rebuilt.renewIdentity sha256Hex, [], !request.isTerminal⟩
  | .conflict =>
    let conflict ← RequestCheckEvaluation.configurationError sha256Hex evaluation.context
      PRIVATE_CODE_CONFLICT_MESSAGE nowUnix
    let conflict := { conflict with
      githubRepositoryId := evaluation.githubRepositoryId
      checks := evaluation.checks }
    return ofNative (conflict.renewIdentity sha256Hex) []
  | .head => throw (.invalidInput "the tested commit does not fit the request's view")

def approve (request : Request) (source : Option Content.SourceBlob)
    (evaluation : RequestCheckEvaluation) (revisions : List WorkflowRevision)
    (approver : RequestCheckReviewer) (nowUnix : ℕ) : Except DomainError RequestCheckPlan := do
  evaluation.ensureAwaitingApproval
  rejectIf (evaluation.matchesRequest request = false)
    (.invalidInput "request check evaluation does not match the request head")
  let runs ← planRuns sha256Hex request source evaluation.id evaluation.nativeChecks revisions
    approver.userId nowUnix
  let approved ← evaluation.approve (runs.map (·.id)) nowUnix
  return ⟨approved, runs, approved.asksGithub && !request.isTerminal⟩

end RequestCheckPlan

end ScopeVcs.Requests

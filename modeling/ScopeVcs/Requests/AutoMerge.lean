import ScopeVcs.Outbox.Evaluation
import ScopeVcs.Requests.Access
import ScopeVcs.Requests.Checks

/-! # Auto-merge

A maintainer may authorize the merge of a request ahead of time. The intent names the revision and the
head that were authorized; it is active until it is cancelled, stopped or fulfilled, and each of these
is an event of the request.
-/

namespace ScopeVcs.Requests

open Mutation
open Outbox (validateGitOid)

/-! ## Intents -/

inductive RequestAutoMergeIntentStatus where
  | active
  | cancelled
  | stopped
  | fulfilled
  deriving DecidableEq

structure RequestAutoMergeIntent where
  id : String
  repoId : String
  repositoryIncarnationId : String
  requestId : String
  revisionId : String
  headOid : String
  actorUserId : String
  status : RequestAutoMergeIntentStatus
  reason : Option RequestAutoMergeStopReason
  createdAtUnix : ℕ
  updatedAtUnix : ℕ
  deriving DecidableEq

namespace RequestAutoMergeIntent

def isActive (intent : RequestAutoMergeIntent) : Bool := intent.status == .active

def validateReason (intent : RequestAutoMergeIntent) : Except DomainError Unit :=
  match intent.status, intent.reason with
  | .stopped, some _ => .ok ()
  | .stopped, none => .error (.conflict "stopped auto-merge intent requires a reason")
  | _, some _ => .error (.conflict "only a stopped auto-merge intent can have a reason")
  | _, none => .ok ()

def validateFacts (intent : RequestAutoMergeIntent) : Except DomainError Unit := do
  validateRequired "auto-merge intent id" intent.id
  validateRequired "repository id" intent.repoId
  validateRequired "repository incarnation id" intent.repositoryIncarnationId
  validateRequired "request id" intent.requestId
  validateRequired "request revision id" intent.revisionId
  validateRequired "authorizing user id" intent.actorUserId
  validateGitOid "auto-merge head oid" intent.headOid
  rejectIf (intent.updatedAtUnix < intent.createdAtUnix)
    (.conflict "auto-merge update time cannot precede creation time")
  validateReason intent

end RequestAutoMergeIntent

/-! ## Readiness -/

inductive RequestAutoMergeWaitingReason where
  | checkEvaluationMissing
  | checksAwaitingApproval
  | checksPending
  | reviewsPending
  | reviewFindingsOpen
  | waitingForParent
  deriving DecidableEq

inductive RequestAutoMergeReadiness where
  | ready
  | waiting (reason : RequestAutoMergeWaitingReason)
  | stop (reason : RequestAutoMergeStopReason)
  deriving DecidableEq

def RequestAutoMergeReadiness.waitingReason :
    RequestAutoMergeReadiness → Option RequestAutoMergeWaitingReason
  | waiting reason => some reason
  | ready | stop _ => none

/-- `request_auto_merge_readiness`, of a gate that gave a request's mergeability. -/
def requestAutoMergeReadiness (decision : RequestMergeability) : RequestAutoMergeReadiness :=
  match decision.status with
  | .ready => .ready
  | .checksNotEvaluated => .waiting .checkEvaluationMissing
  | .checksAwaitingApproval => .waiting .checksAwaitingApproval
  | .checksPending | .repositoryNotReady => .waiting .checksPending
  | .reviewsPending => .waiting .reviewsPending
  | .reviewFindingsOpen => .waiting .reviewFindingsOpen
  | .checksFailed => .stop .checksFailed
  | .checksConfigurationError => .stop .checksConfigurationError
  | .notMaintainer => .stop .accessRevoked
  | .closed => .stop .requestClosed
  | .missingRequestBranch => .stop .requestBranchMissing
  | .waitingForParent => .waiting .waitingForParent
  | .parentRewritten => .stop .parentRewritten
  | .parentClosed => .stop .parentClosed
  | .ancestorBlocked => .stop .ancestorBlocked
  | .needsMainUpdate => .stop .needsMainUpdate
  | .integrationConflict => .stop .mergeConflict
  | .draft | .merged => .stop .requestChanged

/-! ## Transitions -/

structure AuthorizeRequestAutoMergeInput where
  id : String
  repoId : String
  repositoryIncarnationId : String
  requestId : String
  actorUserId : String
  actorCanMerge : Bool
  readiness : RequestAutoMergeReadiness
  expectedRevisionId : String
  expectedHeadOid : String
  eventId : String
  nowUnix : ℕ

structure CancelRequestAutoMergeInput where
  requestId : String
  actorUserId : String
  actorIsMaintainer : Bool
  expectedIntentId : String
  eventId : String
  nowUnix : ℕ

structure RequestAutoMergeMutation where
  request : Request
  intent : RequestAutoMergeIntent
  event : RequestEvent
  deriving DecidableEq

def requestAutoMergeEligibility (request : Request) (revision : Option RequestRevision)
    (currentIntent : Option RequestAutoMergeIntent) (actorCanMerge : Bool)
    (readiness : RequestAutoMergeReadiness) : Except DomainError Unit := do
  rejectIf (actorCanMerge = false) (.forbidden "auto-merge needs someone who may merge this request")
  rejectIf (request.base.isMain = false ∧
      ¬(request.stackStatus = .waitingForParent ∨ request.stackStatus = .parentExtended))
    (.conflict (request.stackStatus.autoMergeStopReason.getD .requestChanged).message)
  if let .stop reason := readiness then
    .error (.conflict reason.message)
  rejectIf (request.state ≠ .open_) (.conflict "auto-merge can only be enabled for an open request")
  rejectIf (request.pushedAtUnix.isNone = true) (.conflict "request branch is unavailable")
  match revision with
  | none => .error (.conflict "request revision is required to enable auto-merge")
  | some revision => do
    rejectIf (revision.requestId ≠ request.id ∨ revision.newHeadOid ≠ request.headOid)
      (.conflict "request revision does not match the current head")
    rejectIf (currentIntent.any RequestAutoMergeIntent.isActive = true)
      (.conflict "auto-merge is already enabled")

def requestAutoMergeCanEnable (request : Request) (revision : Option RequestRevision)
    (currentIntent : Option RequestAutoMergeIntent) (readiness : RequestAutoMergeReadiness)
    (actorCanMerge : Bool) : Bool :=
  readiness.waitingReason.isSome &&
    (requestAutoMergeEligibility request revision currentIntent actorCanMerge readiness).toBool

def requestAutoMergeCanCancel (request : Request) (currentIntent : Option RequestAutoMergeIntent)
    (actorIsMaintainer : Bool) : Bool :=
  actorIsMaintainer && request.state == .open_ && currentIntent.any fun intent =>
    intent.requestId == request.id && intent.headOid == request.headOid && intent.isActive

def validateActiveTransition (request : Request) (intent : RequestAutoMergeIntent)
    (eventId : String) (nowUnix : ℕ) : Except DomainError Unit := do
  validateRequired "auto-merge event id" eventId
  rejectIf (intent.requestId ≠ request.id) (.notFound "request auto-merge intent not found")
  rejectIf (intent.isActive = false) (.conflict "auto-merge is no longer active")
  rejectIf (nowUnix < intent.updatedAtUnix)
    (.invalidInput "auto-merge transition cannot predate the intent")

def validateTransitionInput (request : Request) (intent : RequestAutoMergeIntent)
    (requestId expectedIntentId eventId : String) (nowUnix : ℕ) : Except DomainError Unit := do
  validateRequired "request id" requestId
  validateRequired "expected auto-merge intent id" expectedIntentId
  rejectIf (request.id ≠ requestId ∨ intent.requestId ≠ requestId)
    (.notFound "request auto-merge intent not found")
  rejectIf (intent.id ≠ expectedIntentId) (.conflict "auto-merge authorization changed")
  validateActiveTransition request intent eventId nowUnix

/-- The four transitions, each with the payload of its event. -/
inductive AutoMergeTransition where
  | enabled
  | cancelled
  | stopped (reason : RequestAutoMergeStopReason)
  | fulfilled (mainOid : String)
  deriving DecidableEq

namespace AutoMergeTransition

def status : AutoMergeTransition → RequestAutoMergeIntentStatus
  | enabled => .active
  | cancelled => .cancelled
  | stopped _ => .stopped
  | fulfilled _ => .fulfilled

def reason : AutoMergeTransition → Option RequestAutoMergeStopReason
  | stopped reason => some reason
  | enabled | cancelled | fulfilled _ => none

def kind : AutoMergeTransition → RequestEventKind
  | enabled => .autoMergeEnabled
  | cancelled => .autoMergeCancelled
  | stopped _ => .autoMergeStopped
  | fulfilled _ => .autoMergeFulfilled

def payload (transition : AutoMergeTransition) (intent : RequestAutoMergeIntent) :
    RequestEventPayload :=
  match transition with
  | enabled => .autoMergeEnabled intent.id intent.revisionId intent.headOid
  | cancelled => .autoMergeCancelled intent.id intent.revisionId intent.headOid
  | stopped reason => .autoMergeStopped intent.id intent.revisionId intent.headOid reason
  | fulfilled mainOid => .autoMergeFulfilled intent.id intent.revisionId intent.headOid mainOid

end AutoMergeTransition

def transition (request : Request) (intent : RequestAutoMergeIntent) (eventActorUserId eventId : String)
    (nowUnix : ℕ) (outcome : AutoMergeTransition) : Except DomainError RequestAutoMergeMutation := do
  let next : RequestAutoMergeIntent :=
    { intent with status := outcome.status, reason := outcome.reason, updatedAtUnix := nowUnix }
  next.validateFacts
  let (request, position) ← advanceRequestActivity
    { request with updatedAtUnix := max request.updatedAtUnix nowUnix }
  let event : RequestEvent := {
    id := eventId
    requestId := request.id
    actorUserId := some eventActorUserId
    kind := outcome.kind
    position
    payload := outcome.payload intent
    createdAtUnix := nowUnix }
  validateRequestFacts request
  return { request, intent := next, event }

/-- The intent that an authorization creates. -/
def authorizedIntent (request : Request) (revision : RequestRevision)
    (input : AuthorizeRequestAutoMergeInput) : RequestAutoMergeIntent where
  id := input.id
  repoId := input.repoId
  repositoryIncarnationId := input.repositoryIncarnationId
  requestId := request.id
  revisionId := revision.id
  headOid := request.headOid
  actorUserId := input.actorUserId
  status := .active
  reason := none
  createdAtUnix := input.nowUnix
  updatedAtUnix := input.nowUnix

def authorizeRequestAutoMerge (request : Request) (revision : RequestRevision)
    (currentIntent : Option RequestAutoMergeIntent) (input : AuthorizeRequestAutoMergeInput) :
    Except DomainError RequestAutoMergeMutation := do
  validateRequired "auto-merge intent id" input.id
  validateRequired "repository id" input.repoId
  validateRequired "repository incarnation id" input.repositoryIncarnationId
  validateRequired "request id" input.requestId
  validateRequired "actor user id" input.actorUserId
  validateRequired "expected request revision id" input.expectedRevisionId
  validateGitOid "expected auto-merge head oid" input.expectedHeadOid
  validateRequired "auto-merge event id" input.eventId
  rejectIf (request.id ≠ input.requestId) (.notFound "request not found")
  rejectIf (request.repoId ≠ input.repoId)
    (.conflict "auto-merge repository does not match the request")
  rejectIf (input.nowUnix < revision.createdAtUnix)
    (.invalidInput "auto-merge authorization cannot predate the request revision")
  requestAutoMergeEligibility request (some revision) currentIntent input.actorCanMerge
    input.readiness
  rejectIf (revision.id ≠ input.expectedRevisionId ∨ request.headOid ≠ input.expectedHeadOid)
    (.conflict "request revision changed before auto-merge was enabled")
  let intent := authorizedIntent request revision input
  intent.validateFacts
  transition request intent input.actorUserId input.eventId input.nowUnix .enabled

def cancelRequestAutoMerge (request : Request) (intent : RequestAutoMergeIntent)
    (input : CancelRequestAutoMergeInput) : Except DomainError RequestAutoMergeMutation := do
  validateTransitionInput request intent input.requestId input.expectedIntentId input.eventId
    input.nowUnix
  validateRequired "actor user id" input.actorUserId
  rejectIf (input.actorIsMaintainer = false) (.forbidden "repo maintainer required")
  rejectIf (request.state ≠ .open_)
    (.conflict "auto-merge cannot be cancelled after the request became terminal")
  transition request intent input.actorUserId input.eventId input.nowUnix .cancelled

def stopRequestAutoMerge (request : Request) (intent : RequestAutoMergeIntent)
    (reason : RequestAutoMergeStopReason) (eventId : String) (nowUnix : ℕ) :
    Except DomainError RequestAutoMergeMutation := do
  validateActiveTransition request intent eventId nowUnix
  transition request intent intent.actorUserId eventId nowUnix (.stopped reason)

def fulfillRequestAutoMerge (request : Request) (intent : RequestAutoMergeIntent)
    (mainOid eventId : String) (nowUnix : ℕ) : Except DomainError RequestAutoMergeMutation := do
  validateActiveTransition request intent eventId nowUnix
  validateRequired "merged main oid" mainOid
  rejectIf (request.state ≠ .merged ∨ request.mergedHeadOid ≠ some intent.headOid ∨
      request.mergedMainOid ≠ some mainOid)
    (.conflict "auto-merge can only be fulfilled by its committed request merge")
  transition request intent intent.actorUserId eventId nowUnix (.fulfilled mainOid)

/-! ## Failed checks -/

/-- `stop_request_auto_merge_for_check_evaluation`. -/
def stopRequestAutoMergeForCheckEvaluation (request : Request) (intent : RequestAutoMergeIntent)
    (evaluation : RequestCheckEvaluation) (eventId : String) :
    Except DomainError (Option RequestAutoMergeMutation) :=
  if evaluation.state ≠ .configurationError ∨ evaluation.requestId ≠ intent.requestId ∨
      evaluation.headOid ≠ intent.headOid ∨ evaluation.revisionId ≠ intent.revisionId then .ok none
  else (stopRequestAutoMerge request intent .checksConfigurationError eventId
    (max (max evaluation.updatedAtUnix request.updatedAtUnix) intent.updatedAtUnix)).map some

/-- `stop_request_auto_merge_for_check_run`. -/
def stopRequestAutoMergeForCheckRun (request : Request) (intent : RequestAutoMergeIntent)
    (run : Run) (eventId : String) : Except DomainError (Option RequestAutoMergeMutation) :=
  match run.state with
  | .failed | .canceled | .lost =>
    (stopRequestAutoMerge request intent .checksFailed eventId
      (max (max (run.completedAtUnix.getD run.updatedAtUnix) request.updatedAtUnix)
        intent.updatedAtUnix)).map some
  | _ => .ok none

/-! ## What the transitions do -/

section

variable {request : Request} {intent : RequestAutoMergeIntent} {mutation : RequestAutoMergeMutation}
  {eventId : String} {nowUnix : ℕ}

/-- What a transition makes of a request and its intent. -/
structure AutoMergeChange (request : Request) (intent : RequestAutoMergeIntent)
    (outcome : AutoMergeTransition) (nowUnix : ℕ) (mutation : RequestAutoMergeMutation) : Prop where
  request_eq : mutation.request = { request with
    updatedAtUnix := max request.updatedAtUnix nowUnix
    activityVersion := request.activityVersion + 1 }
  intent_eq : mutation.intent = { intent with
    status := outcome.status
    reason := outcome.reason
    updatedAtUnix := nowUnix }
  requestId_eq : mutation.event.requestId = request.id
  position_eq : mutation.event.position = request.activityVersion + 1

/-- `next` is the request but for its activity. -/
def Touched (request next : Request) : Prop :=
  next = { request with
    updatedAtUnix := next.updatedAtUnix
    activityVersion := next.activityVersion }

theorem AutoMergeChange.touched {outcome : AutoMergeTransition}
    (h : AutoMergeChange request intent outcome nowUnix mutation) :
    Touched request mutation.request := by
  rw [Touched, h.request_eq]

theorem AutoMergeChange.event_mem {outcome : AutoMergeTransition}
    (h : AutoMergeChange request intent outcome nowUnix mutation) : ∀ e ∈ [mutation.event],
      e.requestId = mutation.request.id ∧ e.position ≤ mutation.request.activityVersion := by
  rw [List.forall_mem_singleton, h.requestId_eq, h.position_eq, h.request_eq]
  exact ⟨rfl, le_rfl⟩

theorem transition_eq_ok {actor : String} {outcome : AutoMergeTransition}
    (h : transition request intent actor eventId nowUnix outcome = .ok mutation) :
    AutoMergeChange request intent outcome nowUnix mutation := by
  simp only [transition, except_bind_eq_ok] at h
  obtain ⟨_, -, ⟨touched, position⟩, hadvanced, _, -, h⟩ := h
  obtain ⟨rfl, -, rfl⟩ := advanceRequestActivity_eq_ok.mp hadvanced
  cases h
  exact ⟨rfl, rfl, rfl, rfl⟩

theorem validateActiveTransition_eq_ok
    (h : validateActiveTransition request intent eventId nowUnix = .ok ()) :
    intent.requestId = request.id ∧ intent.isActive = true ∧ intent.updatedAtUnix ≤ nowUnix := by
  simp only [validateActiveTransition, except_bind_eq_ok, rejectIf_eq_ok] at h
  obtain ⟨_, -, _, hrequest, _, hactive, htime⟩ := h
  exact ⟨not_not.mp hrequest, Bool.of_not_eq_false hactive, not_lt.mp htime⟩

theorem stopRequestAutoMerge_eq_ok {reason : RequestAutoMergeStopReason}
    (h : stopRequestAutoMerge request intent reason eventId nowUnix = .ok mutation) :
    intent.requestId = request.id ∧ intent.isActive = true ∧
      AutoMergeChange request intent (.stopped reason) nowUnix mutation := by
  obtain ⟨_, hactive, h⟩ := except_bind_eq_ok.mp h
  obtain ⟨hrequest, hactive, -⟩ := validateActiveTransition_eq_ok hactive
  exact ⟨hrequest, hactive, transition_eq_ok h⟩

theorem cancelRequestAutoMerge_eq_ok {input : CancelRequestAutoMergeInput}
    (h : cancelRequestAutoMerge request intent input = .ok mutation) :
    intent.requestId = request.id ∧ intent.isActive = true ∧ request.state = .open_ ∧
      AutoMergeChange request intent .cancelled input.nowUnix mutation := by
  simp only [cancelRequestAutoMerge, validateTransitionInput, except_bind_eq_ok, rejectIf_eq_ok] at h
  obtain ⟨_, ⟨_, -, _, -, _, -, _, -, hactive⟩, _, -, _, -, _, hopen, h⟩ := h
  obtain ⟨hrequest, hactive, -⟩ := validateActiveTransition_eq_ok hactive
  exact ⟨hrequest, hactive, not_not.mp hopen, transition_eq_ok h⟩

/-- Only the merge of the authorized head fulfils an intent. -/
theorem fulfillRequestAutoMerge_eq_ok {mainOid : String}
    (h : fulfillRequestAutoMerge request intent mainOid eventId nowUnix = .ok mutation) :
    intent.requestId = request.id ∧ intent.isActive = true ∧ request.state = .merged ∧
      request.mergedHeadOid = some intent.headOid ∧
      AutoMergeChange request intent (.fulfilled mainOid) nowUnix mutation := by
  simp only [fulfillRequestAutoMerge, except_bind_eq_ok, rejectIf_eq_ok, not_or, not_not] at h
  obtain ⟨_, hactive, _, -, _, ⟨hmerged, hhead, -⟩, h⟩ := h
  obtain ⟨hrequest, hactive, -⟩ := validateActiveTransition_eq_ok hactive
  exact ⟨hrequest, hactive, hmerged, hhead, transition_eq_ok h⟩

/-- What may be authorized: the current head of an open request that its parent does not block. -/
theorem requestAutoMergeEligibility_eq_ok {revision : RequestRevision}
    {current : Option RequestAutoMergeIntent} {canMerge : Bool}
    {readiness : RequestAutoMergeReadiness}
    (h : requestAutoMergeEligibility request (some revision) current canMerge readiness = .ok ()) :
    request.state = .open_ ∧ revision.requestId = request.id ∧
      revision.newHeadOid = request.headOid ∧
      (∀ intent ∈ current, intent.isActive = false) ∧ (∀ reason, readiness ≠ .stop reason) ∧
      (request.base.isMain = false → request.stackStatus = .waitingForParent ∨
        request.stackStatus = .parentExtended) := by
  simp only [requestAutoMergeEligibility, except_bind_eq_ok, rejectIf_eq_ok, not_or] at h
  obtain ⟨_, -, _, hstacked, h⟩ := h
  have hready : ∀ reason, readiness ≠ .stop reason := by
    rintro reason rfl
    obtain ⟨_, hstop, -⟩ := except_bind_eq_ok.mp h
    cases hstop
  have hrest : ∃ _ : Unit, request.state = .open_ ∧ ∃ _ : Unit, ¬request.pushedAtUnix.isNone = true ∧
      ∃ _ : Unit, (revision.requestId = request.id ∧ revision.newHeadOid = request.headOid) ∧
        ¬current.any RequestAutoMergeIntent.isActive = true := by
    cases readiness with
    | stop reason => exact absurd rfl (hready reason)
    | ready | waiting _ => simpa only [except_bind_eq_ok, rejectIf_eq_ok, not_or, not_not] using h
  obtain ⟨_, hopen, _, -, _, ⟨hrequest, hhead⟩, hnone⟩ := hrest
  refine ⟨hopen, hrequest, hhead, fun intent hintent => ?_, hready, fun hmain => ?_⟩
  · rw [Option.mem_def.mp hintent] at hnone
    exact Bool.eq_false_iff.mpr hnone
  · by_contra hblocked
    exact hstacked ⟨hmain, not_or.mp hblocked⟩

theorem authorizeRequestAutoMerge_eq_ok {revision : RequestRevision}
    {current : Option RequestAutoMergeIntent} {input : AuthorizeRequestAutoMergeInput}
    (h : authorizeRequestAutoMerge request revision current input = .ok mutation) :
    requestAutoMergeEligibility request (some revision) current input.actorCanMerge input.readiness =
        .ok () ∧
      AutoMergeChange request (authorizedIntent request revision input) .enabled input.nowUnix
        mutation := by
  simp only [authorizeRequestAutoMerge, except_bind_eq_ok] at h
  obtain ⟨_, -, _, -, _, -, _, -, _, -, _, -, _, -, _, -, _, -, _, -, _, -, _, heligible, _, -, _, -,
    h⟩ := h
  exact ⟨heligible, transition_eq_ok h⟩

end

end ScopeVcs.Requests

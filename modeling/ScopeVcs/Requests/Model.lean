import ScopeVcs.Error
import ScopeVcs.Lib.Mutation
import ScopeVcs.Lib.Text
import ScopeVcs.Lib.U64
import ScopeVcs.Views

/-! # Requests: the data model

A request proposes the commits of a branch to main, or to another request that it is stacked on. Its
state is read off its timestamps; `validateRequestFacts` says which timestamps and pins go together.
-/

namespace ScopeVcs.Requests

open Mutation

/-! ## Limits -/

def REQUEST_DISCUSSION_BODY_MAX_BYTES : ℕ := 64 * 1024

def REQUEST_DISCUSSION_CLIENT_ID_MAX_BYTES : ℕ := 128

def REQUEST_DESCRIPTION_MAX_BYTES : ℕ := 256 * 1024

def REQUEST_TITLE_MAX_BYTES : ℕ := 256

def PUBLIC_WORKING_REQUEST_LIMIT : ℕ := 3

def REQUEST_STACK_MAX_ANCESTORS : ℕ := 32

def REQUEST_STACK_MAX_DEPTH : ℕ := REQUEST_STACK_MAX_ANCESTORS + 1

def validateRequired (label value : String) : Except DomainError Unit :=
  rejectIf (Text.isBlank value = true) (.invalidInput (label ++ " is required"))

def validateBodySize (label value : String) (maxBytes : ℕ) : Except DomainError Unit :=
  rejectIf (maxBytes < Text.byteLength value.toList)
    (.invalidInput (label ++ " exceeds " ++ toString maxBytes ++ " bytes"))

/-! ## Bases and stacks -/

inductive RequestBase where
  | main (reviewBaseOid : String)
  | request (requestId revisionId headOid : String)
  deriving DecidableEq, Repr

namespace RequestBase

def parentRequestId : RequestBase → Option String
  | main _ => none
  | request requestId _ _ => some requestId

def reviewBaseOid : RequestBase → String
  | main reviewBaseOid => reviewBaseOid
  | request _ _ headOid => headOid

def isMain : RequestBase → Bool
  | main _ => true
  | request _ _ _ => false

end RequestBase

inductive RequestAutoMergeStopReason where
  | requestChanged
  | requestClosed
  | accessRevoked
  | checksFailed
  | checksConfigurationError
  | mergeConflict
  | requestBranchMissing
  | parentRewritten
  | parentClosed
  | ancestorBlocked
  | needsMainUpdate
  deriving DecidableEq, Repr

def RequestAutoMergeStopReason.message : RequestAutoMergeStopReason → String
  | requestChanged => "The request changed after auto-merge was enabled"
  | requestClosed => "The request was closed"
  | accessRevoked => "The authorizing maintainer no longer has access"
  | checksFailed => "A required result failed or did not finish successfully"
  | checksConfigurationError => "The request CI could not be configured"
  | mergeConflict => "The request no longer merges cleanly with main"
  | requestBranchMissing => "The request branch is unavailable"
  | parentRewritten => "The parent no longer contains the pinned revision"
  | parentClosed => "The parent request was closed"
  | ancestorBlocked => "An ancestor request is blocked"
  | needsMainUpdate => "The request must contain the latest view main"

inductive RequestStackStatus where
  | main
  | waitingForParent
  | parentExtended
  | parentRewritten
  | parentClosed
  | ancestorBlocked
  | integrationConflict
  | needsMainUpdate
  deriving DecidableEq, Repr

namespace RequestStackStatus

def autoMergeStopReason : RequestStackStatus → Option RequestAutoMergeStopReason
  | main | waitingForParent | parentExtended => none
  | parentRewritten => some .parentRewritten
  | parentClosed => some .parentClosed
  | ancestorBlocked => some .ancestorBlocked
  | integrationConflict => some .mergeConflict
  | needsMainUpdate => some .needsMainUpdate

def requiresRestack (status : RequestStackStatus) : Bool := status.autoMergeStopReason.isSome

def blockingReason : RequestStackStatus → Option String
  | main => none
  | waitingForParent | parentExtended => some "parent request must land first"
  | parentRewritten => some "parent no longer contains the pinned revision"
  | parentClosed => some "parent request is closed"
  | ancestorBlocked => some "an ancestor request is blocked"
  | integrationConflict => some "request integration conflicts with main"
  | needsMainUpdate => some "request must contain the latest view main"

/-- The status of a request that has just been put on this base. -/
def ofBase (base : RequestBase) : RequestStackStatus :=
  if base.isMain then main else waitingForParent

end RequestStackStatus

/-! ## Requests -/

inductive RequestActorRole where
  | public_
  | member
  | owner
  deriving DecidableEq, Repr

inductive RequestState where
  | draft
  | open_
  | closed
  | merged
  deriving DecidableEq, Repr

def RequestState.fromTimestamps (mergedAtUnix closedAtUnix submittedAtUnix : Option ℕ) :
    RequestState :=
  if mergedAtUnix.isSome then merged
  else if closedAtUnix.isSome then closed
  else if submittedAtUnix.isSome then open_
  else draft

structure Request where
  id : String
  repoId : String
  name : String
  authorUserId : Option String
  authorRole : RequestActorRole
  view : ViewId
  base : RequestBase
  baseVersion : ℕ
  stackStatus : RequestStackStatus
  stackDepth : ℕ
  mainAncestorOid : String
  headOid : String
  pushedAtUnix : Option ℕ
  title : String
  descriptionMarkdown : String
  activityVersion : ℕ
  submittedAtUnix : Option ℕ
  closedAtUnix : Option ℕ
  closedByUserId : Option String
  mergedAtUnix : Option ℕ
  mergedByUserId : Option String
  mergedHeadOid : Option String
  mergedMainOid : Option String
  createdAtUnix : ℕ
  updatedAtUnix : ℕ
  deriving DecidableEq

namespace Request

variable (request : Request)

def state : RequestState :=
  .fromTimestamps request.mergedAtUnix request.closedAtUnix request.submittedAtUnix

def isAuthor (userId : String) : Bool := request.authorUserId == some userId

def isSubmitted : Bool := request.submittedAtUnix.isSome

def isTerminal : Bool := request.closedAtUnix.isSome || request.mergedAtUnix.isSome

end Request

structure RequestRevision where
  id : String
  requestId : String
  position : ℕ
  actorUserId : Option String
  oldHeadOid : String
  newHeadOid : String
  base : RequestBase
  baseVersion : ℕ
  mainAncestorOid : String
  rewroteHistory : Bool
  createdAtUnix : ℕ
  deriving DecidableEq

/-! ## Events -/

inductive RequestEventKind where
  | started
  | submitted
  | revisionPushed
  | baseRetargeted
  | merged
  | closed
  | identityEdited
  | discussionResolved
  | discussionReopened
  | autoMergeEnabled
  | autoMergeCancelled
  | autoMergeStopped
  | autoMergeFulfilled
  deriving DecidableEq, Repr

structure RequestIdentityAuditFact where
  titleSha256 : String
  titleByteCount : ℕ
  descriptionSha256 : String
  descriptionByteCount : ℕ
  deriving DecidableEq

inductive RequestEventPayload where
  | started (identity : RequestIdentityAuditFact)
  | submitted (headOid : String)
  | revisionPushed (oldHeadOid newHeadOid : String) (note : Option String)
  | baseRetargeted (oldBase : RequestBase) (landedHeadOid mainOid : String)
  | merged (headOid mainOid : String)
  | closed (headOid : String)
  | identityEdited (before after : RequestIdentityAuditFact)
  | discussionResolved (discussionId : String)
  | discussionReopened (discussionId : String)
  | autoMergeEnabled (intentId revisionId headOid : String)
  | autoMergeCancelled (intentId revisionId headOid : String)
  | autoMergeStopped (intentId revisionId headOid : String) (reason : RequestAutoMergeStopReason)
  | autoMergeFulfilled (intentId revisionId headOid mainOid : String)
  deriving DecidableEq

structure RequestEvent where
  id : String
  requestId : String
  actorUserId : Option String
  kind : RequestEventKind
  position : ℕ
  payload : RequestEventPayload
  createdAtUnix : ℕ
  deriving DecidableEq

/-! ## Facts -/

/-- The first two cases of `validate_request_facts`. -/
def validateBaseFacts (request : Request) : Except DomainError Unit :=
  match request.base with
  | .main _ =>
    rejectIf (request.stackDepth ≠ 1 ∨ ¬(request.stackStatus = .main ∨
        request.stackStatus = .integrationConflict ∨ request.stackStatus = .needsMainUpdate))
      (.conflict "main requests require layer depth one")
  | .request requestId revisionId headOid =>
    rejectIf (requestId = "" ∨ revisionId = "" ∨ headOid = "" ∨ requestId = request.id ∨
        request.stackDepth < 2 ∨ REQUEST_STACK_MAX_DEPTH < request.stackDepth ∨
        request.stackStatus = .main)
      (.conflict "invalid request parent pin")

/-- A timestamp, if it is set, lies between creation and the last update. -/
def validateLifetime (request : Request) (label : String) (value : Option ℕ) :
    Except DomainError Unit :=
  rejectIf (∃ time ∈ value, time < request.createdAtUnix ∨ request.updatedAtUnix < time)
    (.conflict ("request " ++ label ++ " must be within its lifetime"))

def validateTerminal (request : Request) (label : String) (terminalAt : Option ℕ) :
    Except DomainError Unit :=
  rejectIf (∃ submittedAt ∈ request.submittedAtUnix, ∃ time ∈ terminalAt, time < submittedAt)
    (.conflict ("request " ++ label ++ " cannot precede submission"))

/-- How many of the three merge facts are set. -/
def mergeCount (request : Request) : ℕ :=
  [request.mergedAtUnix.isSome, request.mergedHeadOid.isSome, request.mergedMainOid.isSome].count true

def validateRequestFacts (request : Request) : Except DomainError Unit := do
  validateBaseFacts request
  rejectIf (request.baseVersion = 0 ∨ request.base.reviewBaseOid = "")
    (.conflict "request requires a versioned review base")
  rejectIf (request.updatedAtUnix < request.createdAtUnix)
    (.conflict "request update time cannot precede creation time")
  validateLifetime request "submission time" request.submittedAtUnix
  validateLifetime request "close time" request.closedAtUnix
  validateLifetime request "merge time" request.mergedAtUnix
  rejectIf (request.closedByUserId.isSome = true ∧ request.closedAtUnix.isNone = true)
    (.conflict "an open request cannot have a closer")
  rejectIf (request.mergedByUserId.isSome = true ∧ request.mergedAtUnix.isNone = true)
    (.conflict "an unmerged request cannot have a merger")
  rejectIf (mergeCount request ≠ 0 ∧ mergeCount request ≠ 3)
    (.conflict "merge time, head, and main oid must be set together")
  rejectIf (request.closedAtUnix.isSome = true ∧ request.mergedAtUnix.isSome = true)
    (.conflict "request cannot be both closed and merged")
  rejectIf (request.isTerminal = true ∧ request.isSubmitted = false)
    (.conflict "terminal requests must have been submitted")
  validateTerminal request "close" request.closedAtUnix
  validateTerminal request "merge" request.mergedAtUnix

/-! ## Shared steps of the operations -/

def nextRequestActivityPosition (request : Request) : Except DomainError ℕ :=
  match U64.checkedAdd request.activityVersion 1 with
  | some position => .ok position
  | none => .error (.conflict "request activity version overflow")

/-- The request at its next activity position, and the position. -/
def advanceRequestActivity (request : Request) : Except DomainError (Request × ℕ) := do
  let position ← nextRequestActivityPosition request
  return ({ request with activityVersion := position }, position)

def ensureRequestMatches (request : Request) (requestId : String) : Except DomainError Unit :=
  rejectIf (request.id ≠ requestId) (.notFound "request not found")

def ensureEventIdAvailable (eventIdExists : Bool) : Except DomainError Unit :=
  rejectIf (eventIdExists = true) (.conflict "request event already exists")

/-! ## What the checks say -/

section Facts

variable {request next : Request} {position : ℕ}

theorem nextRequestActivityPosition_eq_ok :
    nextRequestActivityPosition request = .ok position ↔
      position = request.activityVersion + 1 ∧ position ≤ U64.maxU64 := by
  unfold nextRequestActivityPosition
  cases hnext : U64.checkedAdd request.activityVersion 1 with
  | none =>
    refine iff_of_false nofun ?_
    rintro ⟨rfl, hle⟩
    rw [U64.checkedAdd_eq_some.mpr ⟨rfl, hle⟩] at hnext
    cases hnext
  | some n =>
    obtain ⟨rfl, hle⟩ := U64.checkedAdd_eq_some.mp hnext
    constructor
    · rintro ⟨⟩
      exact ⟨rfl, hle⟩
    · rintro ⟨rfl, -⟩
      rfl

theorem advanceRequestActivity_eq_ok :
    advanceRequestActivity request = .ok (next, position) ↔
      position = request.activityVersion + 1 ∧ position ≤ U64.maxU64 ∧
        next = { request with activityVersion := position } := by
  unfold advanceRequestActivity
  rw [except_bind_eq_ok]
  constructor
  · rintro ⟨p, hp, ⟨⟩⟩
    obtain ⟨hposition, hle⟩ := nextRequestActivityPosition_eq_ok.mp hp
    exact ⟨hposition, hle, rfl⟩
  · rintro ⟨hposition, hle, rfl⟩
    exact ⟨position, nextRequestActivityPosition_eq_ok.mpr ⟨hposition, hle⟩, rfl⟩

theorem RequestBase.parentRequestId_eq_none {base : RequestBase} :
    base.parentRequestId = none ↔ base.isMain = true := by
  cases base <;> simp [parentRequestId, isMain]

/-- A parent names another request and says how deep the child lies. -/
theorem of_validateRequestFacts (h : validateRequestFacts request = .ok ()) :
    validateBaseFacts request = .ok () := by
  obtain ⟨_, hbase, _⟩ := except_bind_eq_ok.mp h
  exact hbase

theorem stackDepth_of_main (h : validateRequestFacts request = .ok ())
    (hbase : request.base.isMain = true) : request.stackDepth = 1 := by
  have hfacts := of_validateRequestFacts h
  unfold validateBaseFacts at hfacts
  cases hrequest : request.base with
  | main _ =>
    rw [hrequest] at hfacts
    rw [rejectIf_eq_ok, not_or, not_not] at hfacts
    exact hfacts.1
  | request _ _ _ =>
    rw [hrequest] at hbase
    cases hbase

theorem isMain_of_status (h : validateRequestFacts request = .ok ())
    (hstatus : request.stackStatus = .main) : request.base.isMain = true := by
  have hfacts := of_validateRequestFacts h
  unfold validateBaseFacts at hfacts
  cases hrequest : request.base with
  | main _ => rfl
  | request _ _ _ =>
    rw [hrequest] at hfacts
    simp only [rejectIf_eq_ok, hstatus, or_true, not_true_eq_false] at hfacts

theorem stackDepth_le (h : validateRequestFacts request = .ok ()) :
    request.stackDepth ≤ REQUEST_STACK_MAX_DEPTH := by
  have hfacts := of_validateRequestFacts h
  unfold validateBaseFacts at hfacts
  cases hrequest : request.base with
  | main _ =>
    rw [stackDepth_of_main h (by rw [hrequest]; rfl)]
    decide
  | request _ _ _ =>
    rw [hrequest] at hfacts
    simp only [rejectIf_eq_ok, not_or, not_lt] at hfacts
    exact hfacts.2.2.2.2.2.1

/-- The last checks of `validate_request_facts`, about the end of a request. -/
theorem terminal_of_validateRequestFacts (h : validateRequestFacts request = .ok ()) :
    (request.closedAtUnix.isSome = true → request.mergedAtUnix.isNone = true) ∧
      (request.isTerminal = true → request.isSubmitted = true) := by
  simp only [validateRequestFacts, except_bind_eq_ok] at h
  obtain ⟨_, _, _, _, _, _, _, _, _, _, _, _, _, _, _, _, _, _, _, hboth, _, hsubmitted, _⟩ := h
  rw [rejectIf_eq_ok] at hboth hsubmitted
  constructor
  · intro hclosed
    cases hmerged : request.mergedAtUnix with
    | none => rfl
    | some time => exact absurd ⟨hclosed, by rw [hmerged]; rfl⟩ hboth
  · intro hterminal
    cases hopen : request.isSubmitted with
    | true => rfl
    | false => exact absurd ⟨hterminal, hopen⟩ hsubmitted

theorem state_eq_open_iff : request.state = .open_ ↔
    request.isSubmitted = true ∧ request.isTerminal = false := by
  unfold Request.state RequestState.fromTimestamps Request.isSubmitted Request.isTerminal
  cases request.mergedAtUnix <;> cases request.closedAtUnix <;> cases request.submittedAtUnix <;> simp

theorem state_eq_merged_iff : request.state = .merged ↔ request.mergedAtUnix.isSome = true := by
  unfold Request.state RequestState.fromTimestamps
  cases request.mergedAtUnix <;> cases request.closedAtUnix <;> cases request.submittedAtUnix <;> simp

theorem state_eq_closed_iff : request.state = .closed ↔
    request.mergedAtUnix = none ∧ request.closedAtUnix.isSome = true := by
  unfold Request.state RequestState.fromTimestamps
  cases request.mergedAtUnix <;> cases request.closedAtUnix <;> cases request.submittedAtUnix <;> simp

theorem state_eq_draft_iff : request.state = .draft ↔
    request.isSubmitted = false ∧ request.isTerminal = false := by
  unfold Request.state RequestState.fromTimestamps Request.isSubmitted Request.isTerminal
  cases request.mergedAtUnix <;> cases request.closedAtUnix <;> cases request.submittedAtUnix <;> simp

end Facts

end ScopeVcs.Requests

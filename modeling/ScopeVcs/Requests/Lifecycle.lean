import ScopeVcs.Requests.Stack

/-! # The lifecycle of a request

A request is started, gets revisions while it is a draft or open, and is submitted and closed. SHA-256
comes from a library and is a parameter.
-/

namespace ScopeVcs.Requests

open Mutation

/-! ## Starting -/

structure StartRequestFacts where
  requestIdExists : Bool
  requestNameExists : Bool
  publicWorkingRequestCount : ℕ
  stackDepth : ℕ

structure StartRequestInput where
  id : String
  repoId : String
  name : String
  authorUserId : String
  title : Option String
  authorRole : RequestActorRole
  authorView : ViewId
  view : ViewId
  base : RequestBase
  mainAncestorOid : String
  eventId : String
  nowUnix : ℕ

structure StartRequestMutation where
  request : Request
  event : RequestEvent
  deriving DecidableEq

def MAIN_PUSH_REQUEST_NAME_PREFIX : String := "main-push-"

def isAsciiLowercase (c : Char) : Bool := 'a' ≤ c && c ≤ 'z'

def isAsciiDigit (c : Char) : Bool := '0' ≤ c && c ≤ '9'

/-- `-` is allowed behind the first character only. -/
def isRequestName : List Char → Bool
  | [] => true
  | first :: rest =>
    (isAsciiLowercase first || isAsciiDigit first) &&
      rest.all fun c => isAsciiLowercase c || isAsciiDigit c || c == '-'

def validateRequestName (name : String) : Except DomainError Unit := do
  validateRequired "request name" name
  rejectIf (48 < Text.byteLength name.toList ∨ isRequestName name.toList = false)
    (.invalidInput "request name must match [a-z0-9][a-z0-9-]\x7b0,47\x7d")
  rejectIf (name = "main" ∨ name = "head" ∨ name = "scope")
    (.invalidInput "request name is reserved")

def validateChosenRequestName (name : String) : Except DomainError Unit := do
  validateRequestName name
  rejectIf (Text.startsWith name MAIN_PUSH_REQUEST_NAME_PREFIX = true)
    (.invalidInput "request name is reserved")

def validateStartRequestView (authorRole : RequestActorRole) (authorView view : ViewId)
    (views : Views) : Except DomainError Unit := do
  rejectIf ((views.get view).isNone = true)
    (.invalidInput ("this repository has no " ++ view.asStr ++ " view"))
  if authorRole = .public_ then
    match views.anyone with
    | some anyone =>
      rejectIf (anyone ≠ view) (.invalidInput
        ("public contributors can only create requests in the " ++ views.displayName anyone ++
          " view"))
    | none => .error (.invalidInput "this repository has no view public contributors can read")
  else
    rejectIf (views.mayRead authorView view = false) (.invalidInput
      ("requests in the " ++ views.displayName view ++ " view need an author who can read it"))

def validateStartRequestInput (input : StartRequestInput) (views : Views) :
    Except DomainError Unit := do
  validateRequired "request id" input.id
  validateRequired "repo id" input.repoId
  validateRequired "author user id" input.authorUserId
  validateRequestName input.name
  if let some title := input.title then
    validateRequired "title" title
    validateBodySize "request title" title REQUEST_TITLE_MAX_BYTES
  validateRequired "base main oid" input.mainAncestorOid
  validateRequired "event id" input.eventId
  validateStartRequestView input.authorRole input.authorView input.view views

def requestIdentityAuditFact (sha256Hex : List UInt8 → String) (title descriptionMarkdown : String) :
    RequestIdentityAuditFact where
  titleSha256 := sha256Hex (Text.utf8 title)
  titleByteCount := Text.byteLength title.toList
  descriptionSha256 := sha256Hex (Text.utf8 descriptionMarkdown)
  descriptionByteCount := Text.byteLength descriptionMarkdown.toList

/-- The request that `open_request` builds. -/
def startedRequest (facts : StartRequestFacts) (input : StartRequestInput) : Request where
  id := input.id
  repoId := input.repoId
  name := input.name
  authorUserId := some input.authorUserId
  authorRole := input.authorRole
  view := input.view
  headOid := input.base.reviewBaseOid
  stackStatus := .ofBase input.base
  stackDepth := facts.stackDepth
  base := input.base
  baseVersion := 1
  mainAncestorOid := input.mainAncestorOid
  pushedAtUnix := none
  title := input.title.getD input.name
  descriptionMarkdown := ""
  activityVersion := 1
  submittedAtUnix := none
  closedAtUnix := none
  closedByUserId := none
  mergedAtUnix := none
  mergedByUserId := none
  mergedHeadOid := none
  mergedMainOid := none
  createdAtUnix := input.nowUnix
  updatedAtUnix := input.nowUnix

def openRequest (sha256Hex : List UInt8 → String) (facts : StartRequestFacts)
    (input : StartRequestInput) (views : Views) : Except DomainError StartRequestMutation := do
  validateStartRequestInput input views
  rejectIf (facts.requestIdExists = true) (.conflict "request already exists")
  rejectIf (facts.requestNameExists = true) (.conflict "request name already exists")
  rejectIf (input.authorRole = .public_ ∧
      PUBLIC_WORKING_REQUEST_LIMIT ≤ facts.publicWorkingRequestCount)
    (.conflict ("public contributors cannot have more than " ++
      toString PUBLIC_WORKING_REQUEST_LIMIT ++ " Working requests per repository"))
  let request := startedRequest facts input
  validateRequestFacts request
  return {
    request
    event := {
      id := input.eventId
      requestId := request.id
      actorUserId := request.authorUserId
      kind := .started
      position := 1
      payload := .started
        (requestIdentityAuditFact sha256Hex request.title request.descriptionMarkdown)
      createdAtUnix := input.nowUnix } }

def startRequest (sha256Hex : List UInt8 → String) (facts : StartRequestFacts)
    (input : StartRequestInput) (views : Views) : Except DomainError StartRequestMutation := do
  validateChosenRequestName input.name
  openRequest sha256Hex facts input views

/-! ## Uploads and revisions -/

def validateExpectedHead (request : Request) (expected : Option String) : Except DomainError Unit :=
  match expected with
  | some expected =>
    rejectIf (request.headOid ≠ expected)
      (.conflict "request branch changed since push started; fetch and retry")
  | none =>
    rejectIf (request.pushedAtUnix.isSome = true)
      (.conflict "request branch changed since push started; fetch and retry")

structure RecordWorkingRequestUploadInput where
  requestId : String
  actorUserId : String
  actorCanEdit : Bool
  expectedOldHeadOid : Option String
  newHeadOid : String
  nowUnix : ℕ

def recordWorkingRequestUpload (request : Request) (input : RecordWorkingRequestUploadInput) :
    Except DomainError Request := do
  validateRequired "request id" input.requestId
  validateRequired "actor user id" input.actorUserId
  validateRequired "head oid" input.newHeadOid
  ensureRequestMatches request input.requestId
  rejectIf (input.actorCanEdit = false) (.forbidden "request branch edit access required")
  rejectIf (request.isTerminal = true) (.conflict "request is closed")
  validateExpectedHead request input.expectedOldHeadOid
  rejectIf (request.base.isMain = false)
    (.conflict "parent-based uploads require stack publication evidence")
  let request := { request with
    pushedAtUnix := some input.nowUnix
    headOid := input.newHeadOid
    updatedAtUnix := input.nowUnix }
  validateRequestFacts request
  return request

structure RecordRequestRevisionInput where
  newBase : Option RequestBase
  newBaseStackDepth : Option ℕ
  requestId : String
  actorUserId : String
  actorCanEdit : Bool
  expectedOldHeadOid : Option String
  newHeadOid : String
  gitFacts : RequestRevisionGitFacts
  eventId : String
  body : Option String
  nowUnix : ℕ

structure RequestRevisionMutation where
  request : Request
  event : RequestEvent
  revision : RequestRevision
  deriving DecidableEq

def requestMainAncestorAfterRevision (request : Request) (facts : RequestRevisionGitFacts) : String :=
  match facts.containedMainOid with
  | some mainOid => if facts.containedMainDescendsFromBase then mainOid else request.mainAncestorOid
  | none => request.mainAncestorOid

/-- The base of the revision and its depth. -/
def revisionBase (request : Request) (input : RecordRequestRevisionInput)
    (mainAncestorOid : String) : Except DomainError (RequestBase × ℕ) :=
  match input.newBase with
  | some base => do
    let depth ← validateRequestBaseSelection base input.newBaseStackDepth input.gitFacts
    return (base, depth)
  | none => do
    rejectIf (input.newBaseStackDepth.isSome = true)
      (.conflict "stack depth requires an explicit parent selection")
    return (if request.base.isMain then .main mainAncestorOid else request.base, request.stackDepth)

/-- The request on the base of the revision, at a new version when that is another one. -/
def rebase (request : Request) (base : RequestBase) : Except DomainError Request :=
  if base = request.base then .ok request
  else do
    let baseVersion ← nextBaseVersion request
    return { request with baseVersion, base }

/-- Whether the revision gives the request a new stack status. -/
def resetsStackStatus (request : Request) (input : RecordRequestRevisionInput)
    (base : RequestBase) : Bool :=
  input.newBase.isSome || base != request.base ||
    ((request.stackStatus == .integrationConflict || request.stackStatus == .needsMainUpdate) &&
      request.headOid != input.newHeadOid)

def revision (request : Request) (event : RequestEvent) (oldHeadOid newHeadOid : String)
    (rewroteHistory : Bool) : RequestRevision where
  id := event.id
  requestId := request.id
  position := event.position
  actorUserId := event.actorUserId
  oldHeadOid
  newHeadOid
  base := request.base
  baseVersion := request.baseVersion
  mainAncestorOid := request.mainAncestorOid
  rewroteHistory
  createdAtUnix := event.createdAtUnix

def recordRequestRevision (request : Request) (eventIdExists : Bool)
    (input : RecordRequestRevisionInput) : Except DomainError RequestRevisionMutation := do
  validateRequired "request id" input.requestId
  validateRequired "actor user id" input.actorUserId
  validateRequired "head oid" input.newHeadOid
  validateRequired "event id" input.eventId
  ensureEventIdAvailable eventIdExists
  ensureRequestMatches request input.requestId
  rejectIf (input.actorCanEdit = false) (.forbidden "request branch edit access required")
  rejectIf (request.isTerminal = true) (.conflict "closed requests cannot receive new revisions")
  validateExpectedHead request input.expectedOldHeadOid
  rejectIf (input.newBase = some request.base ∧ input.newHeadOid = request.headOid)
    (.conflict "revision context requires a changed review base")
  let mainAncestorOid := requestMainAncestorAfterRevision request input.gitFacts
  let (base, stackDepth) ← revisionBase request input mainAncestorOid
  let rebased ← rebase request base
  let (revised, position) ← advanceRequestActivity { rebased with
    stackStatus := if resetsStackStatus request input base then .ofBase base else request.stackStatus
    stackDepth
    mainAncestorOid
    headOid := input.newHeadOid
    pushedAtUnix := some input.nowUnix
    updatedAtUnix := input.nowUnix }
  validateRequestFacts revised
  let event : RequestEvent := {
    id := input.eventId
    requestId := revised.id
    actorUserId := some input.actorUserId
    kind := .revisionPushed
    position
    payload := .revisionPushed request.headOid input.newHeadOid input.body
    createdAtUnix := input.nowUnix }
  return {
    request := revised
    event
    revision := revision revised event request.headOid input.newHeadOid
      (!input.gitFacts.containsOldHead) }

/-! ## Closing -/

structure CloseRequestInput where
  requestId : String
  actorUserId : String
  actorIsMaintainer : Bool
  eventId : String
  nowUnix : ℕ

inductive CloseRequestMutation where
  | deletedDraft (request : Request) (events : List RequestEvent) (revisions : List RequestRevision)
  | closed (request : Request) (event : RequestEvent)
  deriving DecidableEq

def CloseRequestMutation.request : CloseRequestMutation → Request
  | deletedDraft request _ _ => request
  | closed request _ => request

def ensureRequestCloseAllowed (request : Request) (actorUserId : String) (actorIsMaintainer : Bool) :
    Except DomainError Unit :=
  let actorIsAuthor := request.isAuthor actorUserId
  match request.state with
  | .draft => rejectIf (actorIsAuthor = false) (.forbidden "only the request author can delete a draft")
  | state => do
    rejectIf (actorIsAuthor = false ∧ actorIsMaintainer = false)
      (.forbidden "request author or repo maintainer required")
    rejectIf (state = .closed) (.conflict "request is already closed")
    rejectIf (state = .merged) (.conflict "request is already merged")

/-- The rows of a deleted draft, by their ids. -/
def ownedBy {α : Type} (requestId id : α → String) (rows : List α) (request : Request) : List α :=
  (rows.filter fun row => requestId row == request.id).insertionSort fun left right =>
    id left ≤ id right

def closeRequest (request : Request) (events : List RequestEvent) (revisions : List RequestRevision)
    (input : CloseRequestInput) : Except DomainError CloseRequestMutation := do
  validateRequired "request id" input.requestId
  validateRequired "actor user id" input.actorUserId
  validateRequired "event id" input.eventId
  ensureRequestMatches request input.requestId
  ensureRequestCloseAllowed request input.actorUserId input.actorIsMaintainer
  if request.isSubmitted = false then
    return .deletedDraft request (ownedBy RequestEvent.requestId RequestEvent.id events request)
      (ownedBy RequestRevision.requestId RequestRevision.id revisions request)
  else
    ensureEventIdAvailable (events.any fun event => event.id == input.eventId)
    let (request, position) ← advanceRequestActivity { request with
      closedAtUnix := some input.nowUnix
      closedByUserId := some input.actorUserId
      updatedAtUnix := input.nowUnix }
    validateRequestFacts request
    return .closed request {
      id := input.eventId
      requestId := request.id
      actorUserId := some input.actorUserId
      kind := .closed
      position
      payload := .closed request.headOid
      createdAtUnix := input.nowUnix }

/-! ## Submitting and merging -/

structure RequestLifecycleMutation where
  request : Request
  events : List RequestEvent
  deriving DecidableEq

structure SubmitRequestInput where
  requestId : String
  actorUserId : String
  actorIsAuthor : Bool
  actorCanSubmit : Bool
  eventId : String
  nowUnix : ℕ

def validateCommand (request : Request) (requestId actor : String) : Except DomainError Unit := do
  validateRequired "request id" requestId
  validateRequired "actor user id" actor
  rejectIf (request.id ≠ requestId) (.notFound "request not found")

/-- `append_event`: the request at its next position, and the event there. -/
def appendEvent (request : Request) (id actor : String) (kind : RequestEventKind)
    (payload : RequestEventPayload) (now : ℕ) : Except DomainError (Request × RequestEvent) := do
  let (request, position) ← advanceRequestActivity request
  return (request, {
    id
    requestId := request.id
    actorUserId := some actor
    kind
    position
    payload
    createdAtUnix := now })

def submitRequest (request : Request) (input : SubmitRequestInput) :
    Except DomainError RequestLifecycleMutation := do
  validateCommand request input.requestId input.actorUserId
  validateRequired "request event id" input.eventId
  rejectIf (input.actorIsAuthor = false ∨ request.isAuthor input.actorUserId = false)
    (.forbidden "only the request author can submit it")
  rejectIf (request.state ≠ .draft) (.conflict "request has already been submitted")
  rejectIf (input.actorCanSubmit = false) (.forbidden "request submission access required")
  rejectIf (request.pushedAtUnix.isNone = true)
    (.conflict "request branch must be pushed before submission")
  let (next, event) ← appendEvent
    { request with submittedAtUnix := some input.nowUnix, updatedAtUnix := input.nowUnix }
    input.eventId input.actorUserId .submitted (.submitted request.headOid) input.nowUnix
  validateRequestFacts next
  return ⟨next, [event]⟩

inductive MergeRequestLanding where
  | nativeMerge
  | containingMain (containsRequestHead : Bool)
  deriving DecidableEq

structure MergeRequestInput where
  requestId : String
  actorUserId : String
  actorIsMaintainer : Bool
  landing : MergeRequestLanding
  mergedHeadOid : String
  mergedMainOid : String
  mergedEventId : String
  nowUnix : ℕ

/-- The stack blocks a merge unless its status is `Main`. -/
def validateStackMergeable (status : RequestStackStatus) : Except DomainError Unit :=
  match status.blockingReason with
  | some reason => .error (.conflict reason)
  | none => .ok ()

def validateRequestMergeExecution (request : Request) (landing : MergeRequestLanding) :
    Except DomainError Unit :=
  match landing with
  | .nativeMerge => validateStackMergeable request.stackStatus
  | .containingMain containsRequestHead => do
    rejectIf (containsRequestHead = false)
      (.conflict "containing main must contain the request head")
    rejectIf (request.base.isMain = false) (.conflict "parent request must land first")
    if request.stackStatus = .integrationConflict then .ok ()
    else validateStackMergeable request.stackStatus

def mergeRequest (request : Request) (input : MergeRequestInput) :
    Except DomainError RequestLifecycleMutation := do
  validateCommand request input.requestId input.actorUserId
  validateRequired "merged event id" input.mergedEventId
  validateRequired "merged head oid" input.mergedHeadOid
  validateRequired "merged main oid" input.mergedMainOid
  rejectIf (input.actorIsMaintainer = false) (.forbidden "repo maintainer required")
  rejectIf (request.state ≠ .open_) (.conflict "only open requests can be merged")
  validateRequestMergeExecution request input.landing
  rejectIf (input.mergedHeadOid ≠ request.headOid)
    (.conflict "request branch changed before merge completed")
  let (next, event) ← appendEvent { request with
      stackStatus := .main
      mergedAtUnix := some input.nowUnix
      mergedByUserId := some input.actorUserId
      mergedHeadOid := some input.mergedHeadOid
      mergedMainOid := some input.mergedMainOid
      updatedAtUnix := input.nowUnix }
    input.mergedEventId input.actorUserId .merged
    (.merged input.mergedHeadOid input.mergedMainOid) input.nowUnix
  validateRequestFacts next
  return ⟨next, [event]⟩

/-- Whether a push to main that contains the request may land it. -/
def landsWithMain (request : Request) : Bool :=
  request.state == .open_ && request.headOid != request.base.reviewBaseOid

inductive RequestMainPushCompletion where
  | complete
  | deferUntilParentLands
  deriving DecidableEq

def requestMainPushCompletion (request : Request) (containsRequestHead : Bool) :
    Except DomainError RequestMainPushCompletion := do
  rejectIf (containsRequestHead = false) (.conflict "containing main must contain the request head")
  if request.base.isMain = false then return .deferUntilParentLands
  else
    validateRequestMergeExecution request (.containingMain containsRequestHead)
    return .complete

/-! ## Identity -/

structure EditRequestIdentityInput where
  requestId : String
  actorUserId : String
  actorCanEditIdentity : Bool
  eventId : String
  title : Option String
  descriptionMarkdown : Option String
  expectedDescriptionMarkdown : Option String
  nowUnix : ℕ

structure RequestTimelineMutation where
  request : Request
  event : RequestEvent
  deriving DecidableEq

/-- The checks of the new texts. -/
def validateIdentityTexts (input : EditRequestIdentityInput) : Except DomainError Unit := do
  rejectIf (input.title.isNone = true ∧ input.descriptionMarkdown.isNone = true)
    (.invalidInput "request edit requires a title or description")
  if let some title := input.title then
    validateRequired "request title" title
    validateBodySize "request title" title REQUEST_TITLE_MAX_BYTES
  if let some description := input.descriptionMarkdown then
    validateBodySize "request description" description REQUEST_DESCRIPTION_MAX_BYTES

def editRequestIdentity (sha256Hex : List UInt8 → String) (request : Request) (eventIdExists : Bool)
    (input : EditRequestIdentityInput) : Except DomainError RequestTimelineMutation := do
  validateRequired "request id" input.requestId
  validateRequired "actor user id" input.actorUserId
  validateRequired "event id" input.eventId
  ensureEventIdAvailable eventIdExists
  rejectIf (input.actorCanEditIdentity = false) (.forbidden "request edit access required")
  validateIdentityTexts input
  ensureRequestMatches request input.requestId
  rejectIf (request.isTerminal = true) (.conflict "request is closed")
  rejectIf (input.descriptionMarkdown.isSome = true ∧
      ∃ expected ∈ input.expectedDescriptionMarkdown, expected ≠ request.descriptionMarkdown)
    (.conflict "request description changed since it was loaded")
  let title := input.title.getD request.title
  let descriptionMarkdown := input.descriptionMarkdown.getD request.descriptionMarkdown
  rejectIf (request.title = title ∧ request.descriptionMarkdown = descriptionMarkdown)
    (.conflict "request title and description are unchanged")
  let before := requestIdentityAuditFact sha256Hex request.title request.descriptionMarkdown
  let after := requestIdentityAuditFact sha256Hex title descriptionMarkdown
  let (request, position) ← advanceRequestActivity
    { request with title, descriptionMarkdown, updatedAtUnix := input.nowUnix }
  return {
    request
    event := {
      id := input.eventId
      requestId := request.id
      actorUserId := some input.actorUserId
      kind := .identityEdited
      position
      payload := .identityEdited before after
      createdAtUnix := input.nowUnix } }

/-! ## What the operations do -/

section

variable {request next : Request}

theorem nextBaseVersion_eq_ok {version : ℕ} (h : nextBaseVersion request = .ok version) :
    version = request.baseVersion + 1 := by
  unfold nextBaseVersion at h
  cases hnext : U64.checkedAdd request.baseVersion 1 with
  | none =>
    rw [hnext] at h
    cases h
  | some n =>
    rw [hnext] at h
    cases h
    exact (U64.checkedAdd_eq_some.mp hnext).1.symm

theorem rebase_eq_ok {base : RequestBase} (h : rebase request base = .ok next) :
    next = { request with base, baseVersion := next.baseVersion } := by
  unfold rebase at h
  split_ifs at h with hsame
  · cases h
    rw [hsame]
  · obtain ⟨version, -, h⟩ := except_bind_eq_ok.mp h
    cases h
    rfl

/-- A started request is a draft at depth `stack_depth`, at the head of its base. -/
theorem startRequest_eq_ok {sha256Hex : List UInt8 → String} {facts : StartRequestFacts}
    {input : StartRequestInput} {views : Views} {mutation : StartRequestMutation}
    (h : startRequest sha256Hex facts input views = .ok mutation) :
    facts.requestIdExists = false ∧ mutation.request = startedRequest facts input ∧
      mutation.event.requestId = input.id ∧ mutation.event.position = 1 := by
  simp only [startRequest, openRequest, except_bind_eq_ok, rejectIf_eq_ok] at h
  obtain ⟨_, -, _, -, _, hnew, _, -, _, -, _, -, h⟩ := h
  cases h
  exact ⟨Bool.eq_false_iff.mpr hnew, rfl, rfl, rfl⟩

/-- A selected base has its own depth. Without a selection the request stays on main or its parent. -/
theorem revisionBase_eq_ok {input : RecordRequestRevisionInput} {mainAncestorOid : String}
    {base : RequestBase} {depth : ℕ}
    (h : revisionBase request input mainAncestorOid = .ok (base, depth)) :
    (∀ selected, input.newBase = some selected → base = selected ∧
        (base.isMain = true → depth = 1)) ∧
      (input.newBase = none → depth = request.stackDepth ∧
        base.parentRequestId = request.base.parentRequestId ∧
        (base.isMain = false → base = request.base)) := by
  unfold revisionBase at h
  cases hselected : input.newBase with
  | none =>
    rw [hselected] at h
    obtain ⟨_, -, h⟩ := except_bind_eq_ok.mp h
    cases h
    refine ⟨nofun, fun _ => ⟨rfl, ?_⟩⟩
    cases hmain : request.base with
    | main oid => exact ⟨rfl, nofun⟩
    | request requestId revisionId headOid => exact ⟨rfl, fun _ => rfl⟩
  | some selected =>
    rw [hselected] at h
    obtain ⟨selectedDepth, hdepth, h⟩ := except_bind_eq_ok.mp h
    cases h
    refine ⟨fun other hother => ⟨Option.some.inj hother, fun hmain => ?_⟩, nofun⟩
    cases hbase : base with
    | request _ _ _ =>
      rw [hbase] at hmain
      cases hmain
    | main oid =>
      rw [hbase] at hdepth
      simp only [validateRequestBaseSelection, except_bind_eq_ok] at hdepth
      obtain ⟨_, -, _, -, hdepth⟩ := hdepth
      exact (Except.ok.inj hdepth).symm

/-- `next` is the request as a revision leaves it. -/
def Revised (request next : Request) (input : RecordRequestRevisionInput) (base : RequestBase)
    (depth : ℕ) : Prop :=
  next = { request with
    base
    baseVersion := next.baseVersion
    stackStatus :=
      if resetsStackStatus request input base then .ofBase base else request.stackStatus
    stackDepth := depth
    mainAncestorOid := requestMainAncestorAfterRevision request input.gitFacts
    headOid := input.newHeadOid
    pushedAtUnix := some input.nowUnix
    updatedAtUnix := input.nowUnix
    activityVersion := request.activityVersion + 1 }

theorem recordRequestRevision_eq_ok {eventIdExists : Bool} {input : RecordRequestRevisionInput}
    {mutation : RequestRevisionMutation}
    (h : recordRequestRevision request eventIdExists input = .ok mutation) :
    request.isTerminal = false ∧ ∃ base depth,
      revisionBase request input (requestMainAncestorAfterRevision request input.gitFacts) =
        .ok (base, depth) ∧
      Revised request mutation.request input base depth ∧
      mutation.event.requestId = request.id ∧
      mutation.event.position = request.activityVersion + 1 ∧
      mutation.revision.requestId = request.id ∧ mutation.revision.newHeadOid = input.newHeadOid ∧
      mutation.revision.position = request.activityVersion + 1 := by
  simp only [recordRequestRevision, except_bind_eq_ok, rejectIf_eq_ok] at h
  obtain ⟨_, -, _, -, _, -, _, -, _, -, _, -, _, -, _, hactive, _, -, _, -, ⟨base, depth⟩, hbase,
    rebased, hrebased, ⟨revised, position⟩, hadvanced, _, -, h⟩ := h
  obtain ⟨rfl, -, hrevised⟩ := advanceRequestActivity_eq_ok.mp hadvanced
  have hversion := rebase_eq_ok hrebased
  dsimp only at hrevised
  rw [hversion] at hrevised
  subst hrevised
  cases h
  refine ⟨Bool.eq_false_iff.mpr hactive, base, depth, hbase, rfl, rfl, ?_, rfl, rfl, ?_⟩
  · rw [hversion]
  · rw [revision, hversion]

theorem closeRequest_eq_ok {events : List RequestEvent} {revisions : List RequestRevision}
    {input : CloseRequestInput} {mutation : CloseRequestMutation}
    (h : closeRequest request events revisions input = .ok mutation) :
    (request.state = .draft ∧ ∃ events revisions,
        mutation = .deletedDraft request events revisions) ∨
      (request.state = .open_ ∧ ∃ event,
        mutation = .closed { request with
          closedAtUnix := some input.nowUnix
          closedByUserId := some input.actorUserId
          updatedAtUnix := input.nowUnix
          activityVersion := request.activityVersion + 1 } event ∧
        event.requestId = request.id ∧ event.position = request.activityVersion + 1) := by
  simp only [closeRequest, except_bind_eq_ok] at h
  obtain ⟨_, -, _, -, _, -, _, -, _, hallowed, h⟩ := h
  have hstate : request.state = .draft ∨ request.state = .open_ := by
    unfold ensureRequestCloseAllowed at hallowed
    cases hstate : request.state with
    | draft => exact .inl rfl
    | open_ => exact .inr rfl
    | closed | merged =>
      rw [hstate] at hallowed
      simp only [except_bind_eq_ok, rejectIf_eq_ok] at hallowed
      simp at hallowed
  cases hsubmitted : request.isSubmitted with
  | false =>
    rw [if_pos hsubmitted] at h
    cases h
    left
    refine ⟨hstate.resolve_right fun hopen => ?_, _, _, rfl⟩
    rw [(state_eq_open_iff.mp hopen).1] at hsubmitted
    cases hsubmitted
  | true =>
    rw [if_neg (by rw [hsubmitted]; exact nofun)] at h
    simp only [except_bind_eq_ok] at h
    obtain ⟨_, -, ⟨closed, position⟩, hadvanced, _, -, h⟩ := h
    obtain ⟨rfl, -, rfl⟩ := advanceRequestActivity_eq_ok.mp hadvanced
    cases h
    right
    refine ⟨hstate.resolve_left fun hdraft => ?_, _, rfl, rfl, rfl⟩
    rw [(state_eq_draft_iff.mp hdraft).1] at hsubmitted
    cases hsubmitted

theorem appendEvent_eq_ok {id actor : String} {kind : RequestEventKind}
    {payload : RequestEventPayload} {now : ℕ} {event : RequestEvent}
    (h : appendEvent request id actor kind payload now = .ok (next, event)) :
    next = { request with activityVersion := request.activityVersion + 1 } ∧
      event.id = id ∧ event.requestId = request.id ∧
      event.position = request.activityVersion + 1 := by
  obtain ⟨⟨advanced, position⟩, hadvanced, h⟩ := except_bind_eq_ok.mp h
  obtain ⟨rfl, -, rfl⟩ := advanceRequestActivity_eq_ok.mp hadvanced
  cases h
  exact ⟨rfl, rfl, rfl, rfl⟩

theorem submitRequest_eq_ok {input : SubmitRequestInput} {mutation : RequestLifecycleMutation}
    (h : submitRequest request input = .ok mutation) :
    request.state = .draft ∧ ∃ event, mutation = ⟨{ request with
        submittedAtUnix := some input.nowUnix
        updatedAtUnix := input.nowUnix
        activityVersion := request.activityVersion + 1 }, [event]⟩ ∧
      event.requestId = request.id ∧ event.position = request.activityVersion + 1 := by
  simp only [submitRequest, except_bind_eq_ok, rejectIf_eq_ok] at h
  obtain ⟨_, -, _, -, _, -, _, hdraft, _, -, _, -, ⟨submitted, event⟩, happend, _, -, h⟩ := h
  obtain ⟨rfl, -, hrequest, hposition⟩ := appendEvent_eq_ok happend
  cases h
  exact ⟨not_not.mp hdraft, event, rfl, hrequest, hposition⟩

theorem validateStackMergeable_eq_ok {status : RequestStackStatus} :
    validateStackMergeable status = .ok () ↔ status = .main := by
  cases status <;> simp [validateStackMergeable, RequestStackStatus.blockingReason]

/-- Only what lies on main is merged. -/
theorem validateRequestMergeExecution_eq_ok {landing : MergeRequestLanding}
    (hfacts : validateRequestFacts request = .ok ())
    (h : validateRequestMergeExecution request landing = .ok ()) : request.base.isMain = true := by
  cases landing with
  | nativeMerge => exact isMain_of_status hfacts (validateStackMergeable_eq_ok.mp h)
  | containingMain contains =>
    simp only [validateRequestMergeExecution, except_bind_eq_ok, rejectIf_eq_ok] at h
    obtain ⟨_, -, _, hmain, -⟩ := h
    exact Bool.of_not_eq_false hmain

theorem mergeRequest_eq_ok {input : MergeRequestInput} {mutation : RequestLifecycleMutation}
    (h : mergeRequest request input = .ok mutation) :
    request.state = .open_ ∧ validateRequestMergeExecution request input.landing = .ok () ∧
      input.mergedHeadOid = request.headOid ∧ ∃ event, mutation = ⟨{ request with
        stackStatus := .main
        mergedAtUnix := some input.nowUnix
        mergedByUserId := some input.actorUserId
        mergedHeadOid := some input.mergedHeadOid
        mergedMainOid := some input.mergedMainOid
        updatedAtUnix := input.nowUnix
        activityVersion := request.activityVersion + 1 }, [event]⟩ ∧
      event.requestId = request.id ∧ event.position = request.activityVersion + 1 := by
  simp only [mergeRequest, except_bind_eq_ok, rejectIf_eq_ok] at h
  obtain ⟨_, -, _, -, _, -, _, -, _, -, _, hopen, _, hexecution, _, hhead, ⟨merged, event⟩, happend,
    _, -, h⟩ := h
  obtain ⟨rfl, -, hrequest, hposition⟩ := appendEvent_eq_ok happend
  cases h
  exact ⟨not_not.mp hopen, hexecution, not_not.mp hhead, event, rfl, hrequest, hposition⟩

theorem editRequestIdentity_eq_ok {sha256Hex : List UInt8 → String} {eventIdExists : Bool}
    {input : EditRequestIdentityInput} {mutation : RequestTimelineMutation}
    (h : editRequestIdentity sha256Hex request eventIdExists input = .ok mutation) :
    request.isTerminal = false ∧ mutation.request = { request with
        title := mutation.request.title
        descriptionMarkdown := mutation.request.descriptionMarkdown
        updatedAtUnix := input.nowUnix
        activityVersion := request.activityVersion + 1 } ∧
      mutation.event.requestId = request.id ∧
      mutation.event.position = request.activityVersion + 1 := by
  simp only [editRequestIdentity, except_bind_eq_ok, rejectIf_eq_ok] at h
  obtain ⟨_, -, _, -, _, -, _, -, _, -, _, -, _, -, _, hactive, _, -, _, -, ⟨edited, position⟩,
    hadvanced, h⟩ := h
  obtain ⟨rfl, -, rfl⟩ := advanceRequestActivity_eq_ok.mp hadvanced
  cases h
  exact ⟨Bool.eq_false_iff.mpr hactive, rfl, rfl, rfl⟩

end

end ScopeVcs.Requests

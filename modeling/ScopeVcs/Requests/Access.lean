import ScopeVcs.Repository.Access
import ScopeVcs.Requests.Lifecycle

/-! # Who sees, changes and merges a request

Three pieces of the source answer related questions. `requestListPredicate` selects the requests of
a list without looking at any of them, `requestPolicy` says what a viewer may do with one request,
and `evaluateRequestMerge` says whether the viewer could merge it now.
-/

namespace ScopeVcs.Views

/-- The views that readers of `reader` read, in the order of their definitions. Without a reader it
is the view anyone reads. -/
def readableBy (views : Views) (reader : Option ViewId) : List ViewId :=
  match reader with
  | none => views.anyone.toList
  | some reader => (views.definitions.map (·.id)).filter fun id => id ∈ views.labels reader

theorem get_isSome {views : Views} {id : ViewId} :
    (views.get id).isSome = true ↔ id ∈ views.definitions.map (·.id) := by
  simp [get, List.find?_isSome]

/-- The listed views are the defined ones that may be read. -/
theorem mem_readableBy {views : Views} {reader id : ViewId} :
    id ∈ views.readableBy (some reader) ↔
      (views.get id).isSome = true ∧ views.mayRead reader id = true := by
  rw [get_isSome, readableBy, List.mem_filter, mayRead]

/-- Readers of the full view read every view that is defined. -/
theorem mayRead_of_mayRead_full {views : Views} {reader id : ViewId}
    (hfull : views.mayRead reader views.full = true) (hid : (views.get id).isSome = true) :
    views.mayRead reader id = true := by
  obtain ⟨d, hd, hall⟩ := views.wellFormed.full_defined
  have hget := get_of_mem hd
  rw [mayRead, decide_eq_true_eq, full_eq, ← views.wellFormed.full_id d hd hall] at hfull
  rw [mayRead, decide_eq_true_eq, mem_labels]
  refine (mem_labels.mp hfull).tail ?_
  show id ∈ views.next d.id
  rw [next, hget]
  show id ∈ views.includedIds d.includes
  rw [hall]
  exact get_isSome.mp hid

theorem mayRead_self (views : Views) (view : ViewId) : views.mayRead view view = true :=
  decide_eq_true (views.self_mem_labels view)

end ScopeVcs.Views

namespace ScopeVcs.Requests

/-- Who looks at a request. Only a signed-in user is an invitee. -/
structure RequestViewer where
  access : RepositoryAccess
  userId : Option String
  isInvitee : Bool
  isInvitee_signedIn : isInvitee = true → userId.isSome = true
  deriving DecidableEq

/-- `RequestViewer::new`. -/
def RequestViewer.new (access : RepositoryAccess) (userId : Option String) (isInvitee : Bool) :
    RequestViewer where
  access
  userId
  isInvitee := userId.isSome && isInvitee
  isInvitee_signedIn := fun h => (Bool.and_eq_true_iff.mp h).1

def requestActorRole (access : RepositoryAccess) : RequestActorRole :=
  match access.actor with
  | .owner => .owner
  | .member => .member
  | .public_ => .public_

/-! ## Lists -/

inductive RequestListPredicate where
  | all (predicates : List RequestListPredicate)
  | any (predicates : List RequestListPredicate)
  | view (view : ViewId)
  | submitted
  | author (userId : String)
  | invitee (userId : String)

/-- Which requests a list shows: in the view anyone reads, those that are submitted or the viewer's
own; in the other views, all that a maintainer reads. -/
def requestListPredicate (access : RepositoryAccess) (viewerUserId : Option String)
    (views : Views) : RequestListPredicate :=
  let anyoneAccess : List RequestListPredicate :=
    .submitted :: match viewerUserId with
      | some userId => [.author userId, .invitee userId]
      | none => []
  let ofAnyone : List RequestListPredicate :=
    match views.anyone with
    | some anyone => [.all [.view anyone, .any anyoneAccess]]
    | none => []
  let ofMaintainer : List RequestListPredicate :=
    if access.isMaintainer then
      ((views.readableBy (some access.view)).filter fun view => some view ≠ views.anyone).map .view
    else []
  .any (ofAnyone ++ ofMaintainer)

mutual

def RequestListPredicate.matches (request : Request) (viewerIsInvitee : Bool) :
    RequestListPredicate → Bool
  | .all predicates => RequestListPredicate.matchesAll request viewerIsInvitee predicates
  | .any predicates => RequestListPredicate.matchesAny request viewerIsInvitee predicates
  | .view id => request.view == id
  | .submitted => request.isSubmitted
  | .author userId => request.isAuthor userId
  | .invitee _ => viewerIsInvitee

def RequestListPredicate.matchesAll (request : Request) (viewerIsInvitee : Bool) :
    List RequestListPredicate → Bool
  | [] => true
  | predicate :: predicates =>
    predicate.matches request viewerIsInvitee &&
      RequestListPredicate.matchesAll request viewerIsInvitee predicates

def RequestListPredicate.matchesAny (request : Request) (viewerIsInvitee : Bool) :
    List RequestListPredicate → Bool
  | [] => false
  | predicate :: predicates =>
    predicate.matches request viewerIsInvitee ||
      RequestListPredicate.matchesAny request viewerIsInvitee predicates

end

/-! ## The policy of one request -/

structure RequestPermissions where
  canOpenDiscussion : Bool
  canReplyToDiscussion : Bool
  canWaitAfterReply : Bool
  canTransitionDiscussion : Bool
  canEditIdentity : Bool
  canPullBranch : Bool
  canPushBranch : Bool
  canSubmit : Bool
  canManageInvitees : Bool
  canLeaveRequest : Bool
  canClose : Bool
  canMerge : Bool
  deriving DecidableEq

structure RequestPolicyDecision where
  listable : Bool
  exactVisible : Bool
  discussionVisible : Bool
  activityStreamVisible : Bool
  branchMutable : Bool
  countsAsOpen : Bool
  permissions : RequestPermissions
  deriving DecidableEq

def RequestState.advertisedInGit : RequestState → Bool
  | .draft | .open_ => true
  | .closed | .merged => false

/-- Who merges into main: maintainers who read the full view, and authors who push and whose own
view is that of the request. -/
def requestMerger (viewer : RequestViewer) (authorUserId : Option String) (requestView : ViewId)
    (views : Views) : Bool :=
  let author := viewer.userId.isSome && viewer.userId == authorUserId
  viewer.access.isMaintainer &&
    (views.mayRead viewer.access.view views.full ||
      (author && viewer.access.canPush && viewer.access.view == requestView))

def requestPolicy (request : Request) (viewer : RequestViewer) (views : Views) :
    RequestPolicyDecision :=
  let maintainer := viewer.access.isMaintainer
  let authenticated := viewer.userId.isSome
  let author := viewer.userId.any fun userId => request.isAuthor userId
  let invitee := viewer.isInvitee
  let anyoneView := views.anyone == some request.view
  let fullView := request.view == views.full
  let readsRequestView :=
    (views.get request.view).isSome && views.mayRead viewer.access.view request.view
  let mergesIntoCanonicalMain := requestMerger viewer request.authorUserId request.view views
  let submitted := request.isSubmitted
  let terminal := request.isTerminal
  let isOpen := request.state == .open_
  let exactVisible :=
    if anyoneView then submitted || author || invitee else maintainer && readsRequestView
  let listable :=
    (requestListPredicate viewer.access viewer.userId views).matches request viewer.isInvitee
  let branchActor := author || (anyoneView && invitee) || (maintainer && readsRequestView)
  let branchMutable := exactVisible && branchActor && !terminal
  let discussionVisible := exactVisible
  let activityStreamVisible := discussionVisible && listable
  let canDiscuss := discussionVisible && authenticated && (!fullView || (maintainer && !terminal))
  { listable
    exactVisible
    discussionVisible
    activityStreamVisible
    branchMutable
    countsAsOpen := isOpen && exactVisible
    permissions :=
      { canOpenDiscussion := canDiscuss
        canReplyToDiscussion := canDiscuss
        canWaitAfterReply := canDiscuss && maintainer && isOpen
        canTransitionDiscussion := discussionVisible && authenticated && (!fullView || !terminal)
        canEditIdentity := exactVisible && !terminal && (author || maintainer)
        canPullBranch := exactVisible && request.state.advertisedInGit
        canPushBranch := branchMutable
        canSubmit := exactVisible && !submitted && author
        canManageInvitees := exactVisible && anyoneView && !terminal && (author || maintainer)
        canLeaveRequest := exactVisible && anyoneView && invitee && !terminal
        canClose := exactVisible && viewer.userId.any fun userId =>
          (ensureRequestCloseAllowed request userId maintainer).toBool
        canMerge := exactVisible && mergesIntoCanonicalMain && isOpen } }

/-! ## The merge evaluation -/

inductive RequestChecksOutcome where
  | clear
  | notEvaluated
  | awaitingApproval
  | pending
  | failed
  | configurationError
  deriving DecidableEq

inductive RequestReviewsOutcome where
  | clear
  | pending
  | findingsOpen
  deriving DecidableEq

inductive RequestMergeabilityStatus where
  | ready
  | repositoryNotReady
  | draft
  | closed
  | merged
  | notMaintainer
  | missingRequestBranch
  | checksNotEvaluated
  | checksAwaitingApproval
  | checksPending
  | checksFailed
  | checksConfigurationError
  | reviewsPending
  | reviewFindingsOpen
  | waitingForParent
  | parentRewritten
  | parentClosed
  | ancestorBlocked
  | integrationConflict
  | needsMainUpdate
  deriving DecidableEq

structure RequestMergeability where
  status : RequestMergeabilityStatus
  reason : Option String
  deriving DecidableEq

/-- What of a request decides whether it can be merged. -/
structure RequestMergeSubject where
  authorUserId : Option String
  view : ViewId
  state : RequestState
  hasPushedHead : Bool
  stackStatus : RequestStackStatus
  deriving DecidableEq

def Request.mergeSubject (request : Request) : RequestMergeSubject where
  authorUserId := request.authorUserId
  view := request.view
  state := request.state
  hasPushedHead := request.pushedAtUnix.isSome
  stackStatus := request.stackStatus

def requestStackMergeability (status : RequestStackStatus) : Option RequestMergeability :=
  let blocked (mergeability : RequestMergeabilityStatus) : Option RequestMergeability :=
    some ⟨mergeability, status.blockingReason⟩
  match status with
  | .main => none
  | .waitingForParent | .parentExtended => blocked .waitingForParent
  | .parentRewritten => blocked .parentRewritten
  | .parentClosed => blocked .parentClosed
  | .ancestorBlocked => blocked .ancestorBlocked
  | .needsMainUpdate => blocked .needsMainUpdate
  | .integrationConflict => blocked .integrationConflict

theorem isSome_requestStackMergeability {status : RequestStackStatus} (h : status ≠ .main) :
    (requestStackMergeability status).isSome = true := by
  cases status with
  | main => exact absurd rfl h
  | _ => rfl

theorem RequestStackStatus.ne_main_of_requiresRestack {status : RequestStackStatus}
    (h : status.requiresRestack = true) : status ≠ .main := by
  rintro rfl
  cases h

/-- Where checks and reviews leave an open request. -/
def evaluateResults (checks : RequestChecksOutcome) (reviews : RequestReviewsOutcome) :
    RequestMergeability :=
  match checks, reviews with
  | .failed, _ => ⟨.checksFailed, some "a required result did not succeed"⟩
  | .configurationError, _ =>
    ⟨.checksConfigurationError, some "the request head's CI cannot run as configured"⟩
  | _, .findingsOpen => ⟨.reviewFindingsOpen, some "a review bot's discussion is unresolved"⟩
  | .notEvaluated, _ =>
    ⟨.checksNotEvaluated, some "CI has not been evaluated for this commit yet"⟩
  | .awaitingApproval, _ =>
    ⟨.checksAwaitingApproval, some "CI is waiting for a maintainer to start it"⟩
  | .pending, _ => ⟨.checksPending, some "CI has not finished"⟩
  | .clear, .pending =>
    ⟨.reviewsPending, some "a required review bot has not finished the latest commit"⟩
  | .clear, .clear => ⟨.ready, none⟩

def evaluateRequestReadiness (repositoryLifecycle : RepoLifecycleState)
    (subject : RequestMergeSubject) (checks : RequestChecksOutcome)
    (reviews : RequestReviewsOutcome) : RequestMergeability :=
  if repositoryLifecycle ≠ .ready then
    ⟨.repositoryNotReady, some "repo must be ready before merge"⟩
  else
    match subject.state with
    | .closed => ⟨.closed, some "request is closed"⟩
    | .merged => ⟨.merged, some "request is merged"⟩
    | .draft => ⟨.draft, some "request is not submitted"⟩
    | .open_ =>
      if subject.hasPushedHead = false then
        ⟨.missingRequestBranch, some "request branch has not been pushed"⟩
      else if hrestack : subject.stackStatus.requiresRestack = true then
        (requestStackMergeability subject.stackStatus).get
          (isSome_requestStackMergeability
            (RequestStackStatus.ne_main_of_requiresRestack hrestack))
      else if hstacked : subject.stackStatus ≠ .main ∧
          ¬(checks = .failed ∨ checks = .configurationError) ∧ reviews ≠ .findingsOpen then
        (requestStackMergeability subject.stackStatus).get
          (isSome_requestStackMergeability hstacked.1)
      else evaluateResults checks reviews

def evaluateRequestMerge (repositoryLifecycle : RepoLifecycleState) (subject : RequestMergeSubject)
    (viewer : RequestViewer) (views : Views) (checks : RequestChecksOutcome)
    (reviews : RequestReviewsOutcome) : RequestMergeability :=
  let readiness := evaluateRequestReadiness repositoryLifecycle subject checks reviews
  if subject.state ≠ .open_ ∨ readiness.status = .repositoryNotReady then readiness
  else if viewer.access.isMaintainer = false then
    ⟨.notMaintainer, some "repo maintainer required"⟩
  else if requestMerger viewer subject.authorUserId subject.view views = false then
    ⟨.notMaintainer, some "merging needs a maintainer who reads the full view"⟩
  else readiness

/-! ## Lists and access agree -/

section Lists

variable {request : Request} {viewerIsInvitee : Bool}

theorem matchesAny_append (left right : List RequestListPredicate) :
    RequestListPredicate.matchesAny request viewerIsInvitee (left ++ right) =
      (RequestListPredicate.matchesAny request viewerIsInvitee left ||
        RequestListPredicate.matchesAny request viewerIsInvitee right) := by
  induction left with
  | nil => rfl
  | cons predicate left ih =>
    simp only [List.cons_append, RequestListPredicate.matchesAny, ih, Bool.or_assoc]

theorem matchesAny_views {views : List ViewId} :
    RequestListPredicate.matchesAny request viewerIsInvitee (views.map .view) = true ↔
      request.view ∈ views := by
  induction views with
  | nil => simp [RequestListPredicate.matchesAny]
  | cons view views ih =>
    rw [List.map_cons, RequestListPredicate.matchesAny, Bool.or_eq_true, ih, List.mem_cons,
      RequestListPredicate.matches, beq_iff_eq]

end Lists

section Policy

variable (request : Request) (viewer : RequestViewer) (views : Views)

/-- Which requests a list selects: its two parts are about different views. -/
theorem matches_requestListPredicate :
    (requestListPredicate viewer.access viewer.userId views).matches request viewer.isInvitee = true ↔
      (views.anyone = some request.view ∧ (request.isSubmitted = true ∨
        viewer.userId.any (fun userId => request.isAuthor userId) = true ∨
        viewer.isInvitee = true)) ∨
      (viewer.access.isMaintainer = true ∧ views.anyone ≠ some request.view ∧
        request.view ∈ views.readableBy (some viewer.access.view)) := by
  unfold requestListPredicate
  rw [RequestListPredicate.matches, matchesAny_append, Bool.or_eq_true]
  apply or_congr
  · cases hanyone : views.anyone with
    | none => simp [RequestListPredicate.matchesAny]
    | some anyone =>
      cases huser : viewer.userId with
      | none =>
        have hinvitee : viewer.isInvitee = false := by
          rw [Bool.eq_false_iff]
          intro hinvitee
          have hsignedIn := viewer.isInvitee_signedIn hinvitee
          rw [huser] at hsignedIn
          cases hsignedIn
        simp [RequestListPredicate.matchesAny, RequestListPredicate.matchesAll,
          RequestListPredicate.matches, hinvitee, @eq_comm _ anyone]
      | some userId =>
        simp [RequestListPredicate.matchesAny, RequestListPredicate.matchesAll,
          RequestListPredicate.matches, @eq_comm _ anyone]
  · cases hmaintainer : viewer.access.isMaintainer with
    | false => simp [RequestListPredicate.matchesAny]
    | true =>
      rw [if_pos rfl, matchesAny_views]
      simp [and_comm, @eq_comm _ (some request.view)]

theorem exactVisible_eq_true :
    (requestPolicy request viewer views).exactVisible = true ↔
      (views.anyone = some request.view ∧ (request.isSubmitted = true ∨
        viewer.userId.any (fun userId => request.isAuthor userId) = true ∨
        viewer.isInvitee = true)) ∨
      (viewer.access.isMaintainer = true ∧ views.anyone ≠ some request.view ∧
        request.view ∈ views.readableBy (some viewer.access.view)) := by
  unfold requestPolicy
  rw [Views.mem_readableBy]
  by_cases hanyone : views.anyone = some request.view
  · simp [hanyone, or_assoc]
  · simp [hanyone]

/-- A request is listed exactly when it can be opened. -/
theorem listable_eq_exactVisible :
    (requestPolicy request viewer views).listable =
      (requestPolicy request viewer views).exactVisible := by
  rw [Bool.eq_iff_iff, exactVisible_eq_true, ← matches_requestListPredicate]
  rfl

/-- The permissions of a viewer who may do nothing. -/
def RequestPermissions.none : RequestPermissions :=
  ⟨false, false, false, false, false, false, false, false, false, false, false, false⟩

/-- Who cannot open a request can do nothing with it. -/
theorem permissions_of_not_exactVisible
    (h : (requestPolicy request viewer views).exactVisible = false) :
    (requestPolicy request viewer views).permissions = .none ∧
      (requestPolicy request viewer views).branchMutable = false := by
  have hvisible := h
  unfold requestPolicy at hvisible
  unfold requestPolicy
  dsimp only at hvisible ⊢
  rw [hvisible]
  exact ⟨rfl, rfl⟩

/-! ## A request that is ready to merge -/

theorem state_eq_open {request : Request} (h : request.state = .open_) :
    request.isSubmitted = true := by
  unfold Request.state RequestState.fromTimestamps at h
  split_ifs at h with _ _ hsubmitted
  exact hsubmitted

theorem state_of_ready {repositoryLifecycle : RepoLifecycleState} {subject : RequestMergeSubject}
    {checks : RequestChecksOutcome} {reviews : RequestReviewsOutcome}
    (h : (evaluateRequestReadiness repositoryLifecycle subject checks reviews).status = .ready) :
    subject.state = .open_ := by
  unfold evaluateRequestReadiness at h
  split at h
  · cases h
  · -- every other state has a status of its own
    split at h
    · cases h
    · cases h
    · cases h
    · assumption

/-- Only an open request of someone who may merge it is ready. -/
theorem ready_of_evaluateRequestMerge {repositoryLifecycle : RepoLifecycleState}
    {checks : RequestChecksOutcome} {reviews : RequestReviewsOutcome}
    (h : (evaluateRequestMerge repositoryLifecycle request.mergeSubject viewer views checks
      reviews).status = .ready) :
    request.state = .open_ ∧
      requestMerger viewer request.authorUserId request.view views = true := by
  unfold evaluateRequestMerge at h
  dsimp only at h
  split_ifs at h with hstate hmaintainer hmerger
  · have hopen : request.state = .open_ := state_of_ready h
    rcases hstate with hstate | hstate
    · exact absurd hopen hstate
    · rw [hstate] at h
      cases h
  · rw [not_or, not_not] at hstate
    exact ⟨hstate.1, Bool.eq_true_of_not_eq_false hmerger⟩

/-- Who may merge a request into main reads its view. -/
theorem exactVisible_of_merger {request : Request} {viewer : RequestViewer} {views : Views}
    (hview : (views.get request.view).isSome = true) (hopen : request.state = .open_)
    (hmerger : requestMerger viewer request.authorUserId request.view views = true) :
    (requestPolicy request viewer views).exactVisible = true := by
  rw [exactVisible_eq_true]
  by_cases hanyone : views.anyone = some request.view
  · exact .inl ⟨hanyone, .inl (state_eq_open hopen)⟩
  · unfold requestMerger at hmerger
    rw [Bool.and_eq_true, Bool.or_eq_true] at hmerger
    obtain ⟨hmaintainer, hreads⟩ := hmerger
    refine .inr ⟨hmaintainer, hanyone, Views.mem_readableBy.mpr ⟨hview, ?_⟩⟩
    rcases hreads with hfull | hown
    · exact Views.mayRead_of_mayRead_full hfull hview
    · obtain ⟨-, hown⟩ := Bool.and_eq_true_iff.mp hown
      rw [← beq_iff_eq.mp hown]
      exact Views.mayRead_self views viewer.access.view

/-- Lists, access and merging agree: what can be opened is what is listed, nothing can be done with
a request that cannot be opened, and who could merge it now has the permission to. -/
theorem listing_and_access_agree (hview : (views.get request.view).isSome = true) :
    (requestPolicy request viewer views).listable =
        (requestPolicy request viewer views).exactVisible ∧
      ((requestPolicy request viewer views).exactVisible = false →
        (requestPolicy request viewer views).permissions = .none ∧
          (requestPolicy request viewer views).branchMutable = false) ∧
      ∀ repositoryLifecycle checks reviews,
        (evaluateRequestMerge repositoryLifecycle request.mergeSubject viewer views checks
          reviews).status = .ready →
        (requestPolicy request viewer views).permissions.canMerge = true := by
  refine ⟨listable_eq_exactVisible request viewer views,
    permissions_of_not_exactVisible request viewer views, fun repositoryLifecycle checks reviews h => ?_⟩
  obtain ⟨hopen, hmerger⟩ := ready_of_evaluateRequestMerge request viewer views h
  have hvisible := exactVisible_of_merger hview hopen hmerger
  show ((requestPolicy request viewer views).exactVisible &&
    requestMerger viewer request.authorUserId request.view views && request.state == .open_) = true
  rw [hvisible, hmerger, hopen]
  rfl

end Policy

/-- A submitted request in the view anyone reads, with a pushed branch. -/
def submittedRequest : Request where
  id := "request"
  repoId := "repo"
  name := "fix"
  authorUserId := some "author"
  authorRole := .public_
  view := .publicView
  base := .main "main"
  baseVersion := 1
  stackStatus := .main
  stackDepth := 1
  mainAncestorOid := "main"
  headOid := "head"
  pushedAtUnix := some 2
  title := "Fix"
  descriptionMarkdown := ""
  activityVersion := 2
  submittedAtUnix := some 2
  closedAtUnix := none
  closedByUserId := none
  mergedAtUnix := none
  mergedByUserId := none
  mergedHeadOid := none
  mergedMainOid := none
  createdAtUnix := 1
  updatedAtUnix := 2

def ownerViewer : RequestViewer :=
  .new ⟨.owner, .privateView, true, true, true, true⟩ (some "owner") false

theorem listing_and_access_agree_owner :
    (evaluateRequestMerge .ready submittedRequest.mergeSubject ownerViewer Views.builtin .clear
        .clear).status = .ready ∧
      (requestPolicy submittedRequest ownerViewer Views.builtin).permissions.canMerge = true := by
  have hready : (evaluateRequestMerge .ready submittedRequest.mergeSubject ownerViewer
      Views.builtin .clear .clear).status = .ready := by decide
  exact ⟨hready, (listing_and_access_agree submittedRequest ownerViewer Views.builtin
    (by decide)).2.2 .ready .clear .clear hready⟩

end ScopeVcs.Requests

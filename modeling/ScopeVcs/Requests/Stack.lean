import ScopeVcs.Requests.Model

/-! # Request stacks

A request may be based on another one. Its stack status and its depth are computed in two places: by
`validateRequestStackBase` from all ancestors when a base is chosen, and by `refreshRequestStack` from
the parent when that has changed.
-/

namespace ScopeVcs.Requests

open Mutation

/-! ## Choosing a base -/

/-- The parents in order, each pinned by the one before and the last one on main, in one repository
and view and without repetition. -/
def validateAncestors (repoId : String) (view : ViewId) :
    List String → List Request → Except DomainError Unit
  | _, [] => .ok ()
  | seen, ancestor :: rest => do
    rejectIf (ancestor.repoId ≠ repoId ∨ ancestor.view ≠ view ∨ ancestor.id ∈ seen)
      (.conflict "request stack must be acyclic within the same repository and view")
    rejectIf (ancestor.base.parentRequestId ≠ rest.head?.map (·.id))
      (.conflict "request stack ancestry is incomplete")
    validateAncestors repoId view (ancestor.id :: seen) rest

def validateRequestStackBase (childId repoId : String) (view : ViewId) (base : RequestBase)
    (ancestors : List Request) (parentCurrentRevision : Option RequestRevision) :
    Except DomainError ℕ :=
  match base with
  | .main _ => do
    rejectIf (ancestors ≠ []) (.conflict "main base cannot have ancestors")
    return 1
  | .request requestId revisionId headOid =>
    match ancestors with
    | [] => .error
      (.conflict "request stack requires a complete ancestry of at most 32 parents")
    | parent :: grandparents => do
      rejectIf (REQUEST_STACK_MAX_ANCESTORS < (parent :: grandparents).length)
        (.conflict "request stack requires a complete ancestry of at most 32 parents")
      match parentCurrentRevision with
      | none => .error (.conflict "parent requires a saved current revision")
      | some revision => do
        rejectIf (parent.state ≠ .open_ ∨ parent.pushedAtUnix.isNone = true ∨
            parent.id ≠ requestId ∨ revision.id ≠ revisionId ∨ revision.requestId ≠ parent.id ∨
            revision.newHeadOid ≠ headOid ∨ parent.headOid ≠ headOid)
          (.conflict "parent pin must name an open parent's current saved revision")
        validateAncestors repoId view [childId] (parent :: grandparents)
        return (parent :: grandparents).length + 1

structure RequestRevisionGitFacts where
  containsOldHead : Bool
  containedMainOid : Option String
  containedMainDescendsFromBase : Bool
  deriving DecidableEq

def validateRequestBaseSelection (base : RequestBase) (stackDepth : Option ℕ)
    (gitFacts : RequestRevisionGitFacts) : Except DomainError ℕ :=
  match base with
  | .request _ _ _ =>
    match stackDepth.filter fun depth => decide (2 ≤ depth ∧ depth ≤ REQUEST_STACK_MAX_DEPTH) with
    | none => .error (.conflict "parent selection requires a validated stack depth")
    | some depth => do
      rejectIf (gitFacts.containsOldHead = false ∧ ¬(gitFacts.containedMainOid.isSome = true ∧
          gitFacts.containedMainDescendsFromBase = true))
        (.conflict "base selection must preserve accepted main ancestry")
      return depth
  | .main reviewBaseOid => do
    rejectIf (stackDepth.isSome = true) (.conflict "main selection derives its stack depth")
    rejectIf (reviewBaseOid = "" ∨ gitFacts.containedMainOid ≠ some reviewBaseOid ∨
        gitFacts.containedMainDescendsFromBase = false)
      (.conflict "main selection requires a containing main ancestor")
    return 1

/-! ## After a change of the parent -/

structure RequestParentGitFacts where
  parentContainsPin : Bool
  ancestorBlocked : Bool
  integrationConflict : Bool
  deriving DecidableEq

def classifyRequestStack (base : RequestBase) (parent : Option Request)
    (facts : RequestParentGitFacts) : Except DomainError RequestStackStatus :=
  match base with
  | .main _ => .ok .main
  | .request requestId _ headOid =>
    match parent.filter fun parent => parent.id == requestId with
    | none => .error (.conflict "request parent is unavailable")
    | some parent =>
      if parent.state = .closed then .ok .parentClosed
      else if facts.parentContainsPin = false then .ok .parentRewritten
      else if facts.ancestorBlocked = true then .ok .ancestorBlocked
      else if facts.integrationConflict = true then .ok .integrationConflict
      else if parent.headOid = headOid then .ok .waitingForParent
      else .ok .parentExtended

structure RequestStackRefreshEffects where
  stopAutoMerge : Option RequestAutoMergeStopReason
  reactivateAttention : Bool
  deriving DecidableEq

structure RequestStackRefreshMutation where
  request : Request
  effects : RequestStackRefreshEffects
  deriving DecidableEq

/-- The request at its next activity position when something has changed, as it is otherwise. -/
def advanceIf (changed : Bool) (request : Request) : Except DomainError Request :=
  if changed then (advanceRequestActivity request).map Prod.fst else .ok request

def markRequestIntegrationConflict (request : Request) (expectedHeadOid : String)
    (expectedBaseVersion nowUnix : ℕ) : Except DomainError RequestStackRefreshMutation := do
  rejectIf (request.isTerminal = true ∨ request.headOid ≠ expectedHeadOid ∨
      request.baseVersion ≠ expectedBaseVersion)
    (.conflict "request integration context changed")
  let changed := request.stackStatus != .integrationConflict
  let request ← advanceIf changed { request with
    stackStatus := .integrationConflict
    updatedAtUnix := max request.updatedAtUnix nowUnix }
  validateRequestFacts request
  return ⟨request, some .mergeConflict, changed⟩

/-- The depth of a child, if the stack does not get too deep. -/
def childDepth (parent : Request) : Except DomainError ℕ :=
  if parent.stackDepth + 1 ≤ REQUEST_STACK_MAX_DEPTH then .ok (parent.stackDepth + 1)
  else .error (.conflict "request stack exceeds 32 ancestors")

/-- The request with its new status and depth, if one of them has changed. -/
def restack (request : Request) (status : RequestStackStatus) (depth nowUnix : ℕ) :
    Except DomainError Request :=
  if request.stackDepth = depth ∧ request.stackStatus = status then .ok request
  else do
    let request ← advanceIf (request.stackStatus != status && status.requiresRestack) { request with
      stackStatus := status
      stackDepth := depth
      updatedAtUnix := max request.updatedAtUnix nowUnix }
    validateRequestFacts request
    return request

def refreshRequestStack (request : Request) (parent : Option Request)
    (facts : RequestParentGitFacts) (nowUnix : ℕ) :
    Except DomainError RequestStackRefreshMutation :=
  if request.base.isMain then .ok ⟨request, none, false⟩
  else
    match parent with
    | none => .error (.conflict "request parent is unavailable")
    | some parent => do
      rejectIf (parent.repoId ≠ request.repoId ∨ parent.view ≠ request.view)
        (.conflict "request parent must share the repository and view")
      let status ← classifyRequestStack request.base parent facts
      let depth ← childDepth parent
      let reactivateAttention := request.stackStatus != status && status.requiresRestack
      let request ← restack request status depth nowUnix
      return ⟨request, status.autoMergeStopReason, reactivateAttention⟩

/-! ## After the parent's merge -/

structure RetargetRequestAfterParentMergeInput where
  parentHeadOid : String
  eventId : String
  nowUnix : ℕ
  parentContainsPin : Bool
  containedMainOid : Option String
  acceptedViewMainOid : Option String
  containedMainDescendsFromAncestor : Bool

structure RequestRetargetEffects where
  rebindCheckContext : Bool
  preserveAutoMergeIntent : Bool
  deriving DecidableEq

structure RequestRetargetMutation where
  request : Request
  event : RequestEvent
  effects : RequestRetargetEffects
  deriving DecidableEq

/-- Whether the child has to take in the main of its view first. -/
def needsMainUpdate (child : Request) (input : RetargetRequestAfterParentMergeInput) :
    Except DomainError Bool :=
  if child.view = .privateView then .ok false
  else
    match input.acceptedViewMainOid with
    | none => .error (.conflict "restricted child retarget requires accepted view main")
    | some acceptedViewMainOid => do
      validateRequired "accepted view main oid" acceptedViewMainOid
      return input.containedMainOid != some acceptedViewMainOid ||
        !input.containedMainDescendsFromAncestor

/-- A fact of the parent's merge. -/
def mergeFact (value : Option String) (message : String) : Except DomainError String :=
  match value with
  | some value => .ok value
  | none => .error (.conflict message)

def nextBaseVersion (request : Request) : Except DomainError ℕ :=
  match U64.checkedAdd request.baseVersion 1 with
  | some version => .ok version
  | none => .error (.conflict "request base version overflow")

/-- The child on main, at the head of its parent that it was pinned to. -/
def retargeted (child : Request) (headOid : String) (baseVersion : ℕ) (needsMainUpdate : Bool)
    (input : RetargetRequestAfterParentMergeInput) : Request :=
  { child with
    base := .main headOid
    baseVersion
    stackStatus :=
      if needsMainUpdate then .needsMainUpdate
      else if child.stackStatus = .integrationConflict then .integrationConflict
      else .main
    stackDepth := 1
    mainAncestorOid :=
      if input.containedMainDescendsFromAncestor then
        input.containedMainOid.getD child.mainAncestorOid
      else child.mainAncestorOid
    updatedAtUnix := input.nowUnix }

def retargetRequestAfterParentMerge (child parent : Request)
    (input : RetargetRequestAfterParentMergeInput) : Except DomainError RequestRetargetMutation :=
  match child.base with
  | .main _ => .error (.conflict "request has no parent pin")
  | .request requestId _ headOid => do
    rejectIf (child.isTerminal = true ∨ parent.id ≠ requestId ∨ parent.repoId ≠ child.repoId ∨
        parent.view ≠ child.view ∨ parent.state ≠ .merged ∨
        parent.mergedHeadOid ≠ some input.parentHeadOid ∨ input.parentContainsPin = false)
      (.conflict "only a containing parent merge can retarget an active child")
    validateRequired "retarget event id" input.eventId
    let needsMainUpdate ← needsMainUpdate child input
    let landedHeadOid ← mergeFact parent.mergedHeadOid "parent merge head is missing"
    let mainOid ← mergeFact parent.mergedMainOid "parent merge main is missing"
    let baseVersion ← nextBaseVersion child
    let (request, position) ← advanceRequestActivity
      (retargeted child headOid baseVersion needsMainUpdate input)
    validateRequestFacts request
    return {
      request
      event := {
        id := input.eventId
        requestId := request.id
        actorUserId := parent.mergedByUserId
        kind := .baseRetargeted
        position
        payload := .baseRetargeted child.base landedHeadOid mainOid
        createdAtUnix := input.nowUnix }
      effects := ⟨true, !needsMainUpdate⟩ }

/-! ## What the operations do -/

/-- `next` is the request with another status and depth. -/
def Restacked (request next : Request) (status : RequestStackStatus) (depth : ℕ) : Prop :=
  next = { request with
    stackStatus := status
    stackDepth := depth
    updatedAtUnix := next.updatedAtUnix
    activityVersion := next.activityVersion }

section

variable {request next child parent : Request} {facts : RequestParentGitFacts} {nowUnix : ℕ}
  {status : RequestStackStatus}

theorem advanceIf_eq_ok {changed : Bool} (h : advanceIf changed request = .ok next) :
    next = { request with activityVersion := next.activityVersion } := by
  unfold advanceIf at h
  cases changed with
  | false =>
    cases h
    rfl
  | true =>
    obtain ⟨⟨advanced, position⟩, hadvanced, rfl⟩ := except_map_eq_ok.mp h
    obtain ⟨-, -, rfl⟩ := advanceRequestActivity_eq_ok.mp hadvanced
    rfl

/-- Time does not go back in the activity of a request. -/
theorem activityVersion_le_of_advanceIf {changed : Bool} (h : advanceIf changed request = .ok next) :
    request.activityVersion ≤ next.activityVersion := by
  unfold advanceIf at h
  cases changed with
  | false =>
    cases h
    exact le_rfl
  | true =>
    obtain ⟨⟨advanced, position⟩, hadvanced, rfl⟩ := except_map_eq_ok.mp h
    obtain ⟨rfl, -, rfl⟩ := advanceRequestActivity_eq_ok.mp hadvanced
    exact Nat.le_succ _

theorem validateAncestors_cons_eq_ok {repoId : String} {view : ViewId} {seen : List String}
    {ancestor : Request} {rest : List Request} :
    validateAncestors repoId view seen (ancestor :: rest) = .ok () ↔
      (ancestor.repoId = repoId ∧ ancestor.view = view ∧ ancestor.id ∉ seen) ∧
        ancestor.base.parentRequestId = rest.head?.map (·.id) ∧
        validateAncestors repoId view (ancestor.id :: seen) rest = .ok () := by
  simp only [validateAncestors, except_bind_eq_ok, rejectIf_eq_ok, exists_and_left, not_or, not_not,
    exists_const]

/-- No ancestor repeats a request. -/
theorem notMem_of_validateAncestors {repoId : String} {view : ViewId} {seen : List String}
    {ancestors : List Request} (h : validateAncestors repoId view seen ancestors = .ok ())
    {id : String} (hid : id ∈ seen) : id ∉ ancestors.map (·.id) := by
  induction ancestors generalizing seen with
  | nil => exact List.not_mem_nil
  | cons ancestor rest ih =>
    obtain ⟨⟨-, -, hnew⟩, -, hrest⟩ := validateAncestors_cons_eq_ok.mp h
    rw [List.map_cons, List.mem_cons, not_or]
    refine ⟨?_, ih hrest (List.mem_cons_of_mem _ hid)⟩
    rintro rfl
    exact hnew hid

/-- A parent is an open request of the same view, below which the stack has room. -/
theorem validateRequestStackBase_eq_ok {childId repoId requestId revisionId headOid : String}
    {view : ViewId} {ancestors : List Request} {revision : Option RequestRevision} {depth : ℕ}
    (h : validateRequestStackBase childId repoId view (.request requestId revisionId headOid) ancestors
      revision = .ok depth) :
    ∃ parent rest, ancestors = parent :: rest ∧ parent.id = requestId ∧ parent.state = .open_ ∧
      parent.repoId = repoId ∧ parent.view = view ∧ parent.headOid = headOid ∧
      validateAncestors repoId view [childId] ancestors = .ok () ∧ depth = ancestors.length + 1 := by
  unfold validateRequestStackBase at h
  dsimp only at h
  cases ancestors with
  | nil => cases h
  | cons parent rest =>
    dsimp only at h
    obtain ⟨_, -, h⟩ := except_bind_eq_ok.mp h
    cases revision with
    | none => cases h
    | some revision =>
      simp only [except_bind_eq_ok, rejectIf_eq_ok, exists_and_left] at h
      obtain ⟨hpin, _, _, hancestors, hdepth⟩ := h
      simp only [not_or, not_not] at hpin
      obtain ⟨hopen, -, hid, -, -, -, hhead⟩ := hpin
      obtain ⟨⟨hrepo, hview, -⟩, -⟩ := validateAncestors_cons_eq_ok.mp hancestors
      exact ⟨parent, rest, rfl, hid, hopen, hrepo, hview, hhead, hancestors,
        (Except.ok.inj hdepth).symm⟩

theorem validateRequestStackBase_main {childId repoId reviewBaseOid : String} {view : ViewId}
    {ancestors : List Request} {revision : Option RequestRevision} {depth : ℕ}
    (h : validateRequestStackBase childId repoId view (.main reviewBaseOid) ancestors revision =
      .ok depth) : ancestors = [] ∧ depth = 1 := by
  simp only [validateRequestStackBase, except_bind_eq_ok, rejectIf_eq_ok, exists_and_left] at h
  obtain ⟨hancestors, _, hdepth⟩ := h
  exact ⟨not_not.mp hancestors, (Except.ok.inj hdepth).symm⟩

/-- When a request on a parent has to be restacked. -/
theorem classifyRequestStack_eq_ok {requestId revisionId headOid : String}
    (h : classifyRequestStack (.request requestId revisionId headOid) (some parent) facts = .ok status) :
    parent.id = requestId ∧ status ≠ .main ∧ status ≠ .needsMainUpdate ∧
      (status.requiresRestack = true ↔ parent.state = .closed ∨ facts.parentContainsPin = false ∨
        facts.ancestorBlocked = true ∨ facts.integrationConflict = true) := by
  unfold classifyRequestStack at h
  dsimp only at h
  cases hparent : (some parent).filter fun parent => parent.id == requestId with
  | none =>
    rw [hparent] at h
    cases h
  | some found =>
    rw [hparent] at h
    obtain ⟨hfound, hid⟩ := Option.filter_eq_some_iff.mp hparent
    cases hfound
    refine ⟨beq_iff_eq.mp hid, ?_⟩
    dsimp only at h
    split_ifs at h <;> cases h <;> simp_all [RequestStackStatus.requiresRestack,
      RequestStackStatus.autoMergeStopReason]

theorem childDepth_eq_ok {depth : ℕ} :
    childDepth parent = .ok depth ↔
      depth = parent.stackDepth + 1 ∧ parent.stackDepth + 1 ≤ REQUEST_STACK_MAX_DEPTH := by
  unfold childDepth
  split_ifs with hle
  · constructor
    · rintro ⟨⟩
      exact ⟨rfl, hle⟩
    · rintro ⟨rfl, -⟩
      rfl
  · exact iff_of_false nofun fun h => hle h.2

theorem restack_eq_ok {depth : ℕ} (h : restack request status depth nowUnix = .ok next) :
    Restacked request next status depth := by
  unfold restack at h
  split_ifs at h with hsame
  · obtain ⟨rfl, rfl⟩ := hsame
    cases h
    rfl
  · obtain ⟨advanced, hadvanced, h⟩ := except_bind_eq_ok.mp h
    obtain ⟨_, _, h⟩ := except_bind_eq_ok.mp h
    cases h
    have hnext := advanceIf_eq_ok hadvanced
    rw [Restacked, hnext]

theorem activityVersion_le_of_refresh {parent : Option Request} {mutation : RequestStackRefreshMutation}
    (h : refreshRequestStack request parent facts nowUnix = .ok mutation) :
    request.activityVersion ≤ mutation.request.activityVersion := by
  unfold refreshRequestStack at h
  split_ifs at h
  · cases h
    exact le_rfl
  · cases parent with
    | none => cases h
    | some parent =>
      simp only [except_bind_eq_ok] at h
      obtain ⟨_, _, status, _, depth, _, next, hnext, h⟩ := h
      cases h
      unfold restack at hnext
      split_ifs at hnext
      · cases hnext
        exact le_rfl
      · obtain ⟨advanced, hadvanced, hnext⟩ := except_bind_eq_ok.mp hnext
        obtain ⟨_, _, hnext⟩ := except_bind_eq_ok.mp hnext
        cases hnext
        have hle := activityVersion_le_of_advanceIf hadvanced
        exact hle

/-- A refreshed request has the depth and the status that its parent gives it. -/
theorem refreshRequestStack_eq_ok {requestId revisionId headOid : String}
    {mutation : RequestStackRefreshMutation}
    (hbase : request.base = .request requestId revisionId headOid)
    (h : refreshRequestStack request (some parent) facts nowUnix = .ok mutation) :
    parent.repoId = request.repoId ∧ parent.view = request.view ∧
      parent.stackDepth + 1 ≤ REQUEST_STACK_MAX_DEPTH ∧
      ∃ status, classifyRequestStack request.base (some parent) facts = .ok status ∧
        mutation.effects.stopAutoMerge = status.autoMergeStopReason ∧
        Restacked request mutation.request status (parent.stackDepth + 1) := by
  unfold refreshRequestStack at h
  rw [if_neg (by rw [hbase]; exact Bool.false_ne_true)] at h
  simp only [except_bind_eq_ok, rejectIf_eq_ok, exists_and_left, not_or, not_not] at h
  obtain ⟨⟨hrepo, hview⟩, _, status, hstatus, depth, hdepth, next, hnext, h⟩ := h
  obtain ⟨rfl, hle⟩ := childDepth_eq_ok.mp hdepth
  cases h
  exact ⟨hrepo, hview, hle, status, hstatus, rfl, restack_eq_ok hnext⟩

theorem refreshRequestStack_main {parent : Option Request} {mutation : RequestStackRefreshMutation}
    (hbase : request.base.isMain = true)
    (h : refreshRequestStack request parent facts nowUnix = .ok mutation) :
    mutation = ⟨request, none, false⟩ := by
  unfold refreshRequestStack at h
  rw [if_pos hbase] at h
  exact (Except.ok.inj h).symm

theorem markRequestIntegrationConflict_eq_ok {expectedHeadOid : String} {expectedBaseVersion : ℕ}
    {mutation : RequestStackRefreshMutation}
    (h : markRequestIntegrationConflict request expectedHeadOid expectedBaseVersion nowUnix =
      .ok mutation) :
    request.isTerminal = false ∧ mutation.effects.stopAutoMerge = some .mergeConflict ∧
      Restacked request mutation.request .integrationConflict request.stackDepth ∧
      request.activityVersion ≤ mutation.request.activityVersion := by
  simp only [markRequestIntegrationConflict, except_bind_eq_ok, rejectIf_eq_ok, exists_and_left,
    not_or, not_not] at h
  obtain ⟨⟨hactive, -, -⟩, _, next, hnext, _, _, h⟩ := h
  cases h
  have hadvanced := advanceIf_eq_ok hnext
  have hle := activityVersion_le_of_advanceIf hnext
  refine ⟨Bool.eq_false_iff.mpr hactive, rfl, ?_, hle⟩
  rw [Restacked]
  rw [hadvanced]

/-- A merged parent hands its child to main. -/
theorem retargetRequestAfterParentMerge_eq_ok {input : RetargetRequestAfterParentMergeInput}
    {mutation : RequestRetargetMutation}
    (h : retargetRequestAfterParentMerge child parent input = .ok mutation) :
    ∃ requestId revisionId headOid baseVersion position, ∃ needsMainUpdate : Bool,
      child.base = .request requestId revisionId headOid ∧ child.isTerminal = false ∧
      parent.state = .merged ∧ mutation.effects.preserveAutoMergeIntent = !needsMainUpdate ∧
      mutation.event.id = input.eventId ∧ mutation.event.requestId = child.id ∧
      mutation.event.position = position ∧ position = child.activityVersion + 1 ∧
      mutation.request = { retargeted child headOid baseVersion needsMainUpdate input with
        activityVersion := position } := by
  unfold retargetRequestAfterParentMerge at h
  cases hbase : child.base with
  | main _ =>
    rw [hbase] at h
    cases h
  | request requestId revisionId headOid =>
    rw [hbase] at h
    simp only [except_bind_eq_ok, rejectIf_eq_ok, exists_and_left, not_or, not_not] at h
    obtain ⟨⟨hactive, -, -, -, hmerged, -, -⟩, _, _, -, needsMainUpdate, -, landedHeadOid, -, mainOid,
      -, baseVersion, -, ⟨next, position⟩, hadvanced, _, -, h⟩ := h
    obtain ⟨hposition, -, hnext⟩ := advanceRequestActivity_eq_ok.mp hadvanced
    cases h
    subst hnext
    exact ⟨requestId, revisionId, headOid, baseVersion, position, needsMainUpdate, rfl,
      Bool.eq_false_iff.mpr hactive, hmerged, rfl, rfl, rfl, rfl, hposition, rfl⟩

end

end ScopeVcs.Requests

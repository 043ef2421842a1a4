import ScopeVcs.Lib.Table
import ScopeVcs.Lib.Traversal
import ScopeVcs.Postgres.Error
import ScopeVcs.Requests.AutoMerge

/-! # The rows of requests

Requests, their revisions and events, and their auto-merge intents are rows of four tables. A request
whose parent has changed is refreshed, and so is what is stacked on it. Locks order the transactions,
which are atomic here.
-/

namespace ScopeVcs.Requests

open Mutation

structure RequestDb where
  requests : Table Request.id
  revisions : Table RequestRevision.id
  events : Table RequestEvent.id
  intents : Table RequestAutoMergeIntent.id
  deriving DecidableEq

/-- A domain error on its way through the store. -/
def domain {α : Type} (x : Except DomainError α) : Except PostgresError α :=
  x.mapError .ofDomainError

/-- Two rows would have the same unique columns. -/
def duplicateKey : PostgresError :=
  .internalMessage "duplicate key value violates unique constraint"

namespace RequestDb

variable (db : RequestDb)

/-! ## Reading -/

def requestById (id : String) : Option Request := db.requests.find? id

def requestByName (repoId name : String) : Option Request :=
  db.requests.rows.find? fun request => request.repoId == repoId && request.name == name

def publicDraftCount (repoId authorUserId : String) : ℕ :=
  (db.requests.select fun request => request.repoId == repoId &&
    request.authorUserId == some authorUserId && request.authorRole == .public_ &&
    request.state == .draft).length

def latestRevisionForRequest (requestId : String) : Option RequestRevision :=
  Table.first? (fun left right => decide (right.position < left.position) ||
      (left.position == right.position && decide (right.id ≤ left.id)))
    (db.revisions.select fun revision => revision.requestId == requestId)

/-- `children`: the active requests that are pinned to a parent. -/
def children (parentId : String) : List Request :=
  (db.requests.select fun request => request.base.parentRequestId == some parentId &&
    !request.isTerminal).insertionSort fun left right => left.id ≤ right.id

/-- The loop of `ancestry`, with the number of ancestors that may still come. -/
def ancestryFrom : ℕ → List String → Option String → Except PostgresError (List Request)
  | _, _, none => .ok []
  | 0, _, some _ => .error (.conflict "request stack is cyclic or exceeds 32 ancestors")
  | left + 1, seen, some id => do
    rejectIf (id ∈ seen) (.conflict "request stack is cyclic or exceeds 32 ancestors")
    match db.requestById id with
    | none => .error (.conflict "request parent is unavailable")
    | some request => do
      let rest ← ancestryFrom left (id :: seen) request.base.parentRequestId
      return request :: rest

def ancestry (base : RequestBase) : Except PostgresError (List Request) :=
  db.ancestryFrom REQUEST_STACK_MAX_ANCESTORS [] base.parentRequestId

/-- `lock_active_intent_for_request`. -/
def activeIntent (requestId : String) : Option RequestAutoMergeIntent :=
  db.intents.rows.find? fun intent => intent.requestId == requestId && intent.isActive

/-! ## Writing -/

def insertRequestRow (request : Request) : Except PostgresError RequestDb := do
  domain (validateRequestFacts request)
  rejectIf ((db.requestById request.id).isSome = true ∨
      (db.requestByName request.repoId request.name).isSome = true) duplicateKey
  return { db with requests := db.requests.insert request }

/-- The row of a request that is saved: some columns are written at its start only. -/
def savedRow (request row : Request) : Request :=
  { request with
    id := row.id
    repoId := row.repoId
    name := row.name
    authorUserId := row.authorUserId
    authorRole := row.authorRole
    view := row.view
    createdAtUnix := row.createdAtUnix }

theorem savedRow_id (request row : Request) : (savedRow request row).id = row.id := rfl

def saveRequestRow (request : Request) : Except PostgresError RequestDb := do
  domain (validateRequestFacts request)
  rejectIf ((db.requestById request.id).isNone = true)
    (.internalMessage "request row missing during update")
  return { db with
    requests := db.requests.update (fun row => row.id == request.id) (savedRow request)
      (savedRow_id request) }

def insertRequestEventRow (event : RequestEvent) : Except PostgresError RequestDb := do
  rejectIf ((db.events.find? event.id).isSome = true ∨ (db.events.any fun row =>
      row.requestId == event.requestId && row.position == event.position) = true) duplicateKey
  return { db with events := db.events.insert event }

def insertRevision (revision : RequestRevision) : Except PostgresError RequestDb := do
  rejectIf ((db.revisions.find? revision.id).isSome = true ∨ (db.revisions.any fun row =>
      row.requestId == revision.requestId && row.position == revision.position) = true) duplicateKey
  return { db with revisions := db.revisions.insert revision }

def insertIntent (intent : RequestAutoMergeIntent) : Except PostgresError RequestDb := do
  domain intent.validateFacts
  rejectIf ((db.intents.find? intent.id).isSome = true ∨
      (intent.isActive = true ∧ (db.activeIntent intent.requestId).isSome = true)) duplicateKey
  return { db with intents := db.intents.insert intent }

/-- `with_transition`: the columns of an intent that a transition writes. -/
def withTransition (intent row : RequestAutoMergeIntent) : RequestAutoMergeIntent :=
  { row with
    status := intent.status
    reason := intent.reason
    updatedAtUnix := intent.updatedAtUnix }

theorem withTransition_id (intent row : RequestAutoMergeIntent) :
    (withTransition intent row).id = row.id := rfl

def updateIntent (intent : RequestAutoMergeIntent) : Except PostgresError RequestDb := do
  domain intent.validateFacts
  return { db with
    intents := db.intents.update (fun row => row.id == intent.id) (withTransition intent)
      (withTransition_id intent) }

/-- The rows of a request with all that belongs to it. -/
def deleteRequestRows (requestId : String) : RequestDb where
  requests := db.requests.delete fun request => request.id == requestId
  revisions := db.revisions.delete fun revision => revision.requestId == requestId
  events := db.events.delete fun event => event.requestId == requestId
  intents := db.intents.delete fun intent => intent.requestId == requestId

def persistNewAutoMergeMutation (mutation : RequestAutoMergeMutation) :
    Except PostgresError RequestDb := do
  let db ← db.saveRequestRow mutation.request
  let db ← db.insertRequestEventRow mutation.event
  db.insertIntent mutation.intent

def persistExistingAutoMergeMutation (mutation : RequestAutoMergeMutation) :
    Except PostgresError RequestDb := do
  let db ← db.saveRequestRow mutation.request
  let db ← db.insertRequestEventRow mutation.event
  db.updateIntent mutation.intent

def persistLifecycleMutation (request : Request) (events : List RequestEvent) :
    Except PostgresError RequestDb := do
  rejectIf (∃ event ∈ events, (db.events.find? event.id).isSome = true)
    (.conflict "request event already exists")
  let db ← db.saveRequestRow request
  events.foldlM insertRequestEventRow db

/-! ## What the statements do to the rows -/

section Rows

variable {db db' : RequestDb} {request row : Request} {id : String}

/-- The columns that are written when a request starts. -/
def fixedColumns (request : Request) :
    String × String × String × Option String × RequestActorRole × ViewId × ℕ :=
  (request.id, request.repoId, request.name, request.authorUserId, request.authorRole, request.view,
    request.createdAtUnix)

theorem savedRow_eq (h : fixedColumns request = fixedColumns row) : savedRow request row = request := by
  simp only [fixedColumns, Prod.mk.injEq] at h
  obtain ⟨hid, hrepo, hname, hauthor, hrole, hview, hcreated⟩ := h
  rw [savedRow, ← hid, ← hrepo, ← hname, ← hauthor, ← hrole, ← hview, ← hcreated]

theorem id_of_requestById (h : db.requestById id = some row) : row.id = id :=
  (Table.find?_eq_some.mp h).2

theorem mem_children : row ∈ db.children id ↔
    db.requestById row.id = some row ∧ row.base.parentRequestId = some id ∧ row.isTerminal = false := by
  rw [children, List.mem_insertionSort, Table.mem_select, requestById, Table.find?_eq_some]
  simp

theorem nodup_children : ((db.children id).map (·.id)).Nodup := by
  have hrows : ((db.requests.select fun request => request.base.parentRequestId == some id &&
      !request.isTerminal).map Request.id).Nodup :=
    (List.filter_sublist.map _).nodup db.requests.nodup
  exact ((List.perm_insertionSort _ _).map _).nodup_iff.mpr hrows

/-- A request that is saved replaces its row. -/
structure Saves (db db' : RequestDb) (request : Request) : Prop where
  facts : validateRequestFacts request = .ok ()
  rows : ∀ id, db'.requestById id = if id = request.id then some request else db.requestById id
  length_eq : db'.requests.rows.length = db.requests.rows.length

theorem saveRequestRow_eq_ok (hrow : db.requestById request.id = some row)
    (hfixed : fixedColumns request = fixedColumns row) (h : db.saveRequestRow request = .ok db') :
    Saves db db' request ∧ db' = { db with requests := db'.requests } := by
  simp only [saveRequestRow, domain, except_bind_eq_ok, rejectIf_eq_ok, mapError_eq_ok] at h
  obtain ⟨_, hfacts, _, -, h⟩ := h
  cases h
  refine ⟨⟨hfacts, fun id => ?_, List.length_map _⟩, rfl⟩
  change (db.requests.update _ _ (savedRow_id request)).find? id = _
  rw [Table.find?_update]
  split_ifs with hid
  · subst hid
    rw [← requestById, hrow]
    simp [id_of_requestById hrow, savedRow_eq hfixed]
  · cases hother : db.requests.find? id with
    | none => exact hother.symm
    | some other =>
      have hne : other.id ≠ request.id := fun heq => hid ((id_of_requestById hother).symm.trans heq)
      simp [hne, requestById, hother]

theorem insertRequestEventRow_eq_ok {event : RequestEvent}
    (h : db.insertRequestEventRow event = .ok db') : db' = { db with events := db'.events } ∧
      ∀ e, e ∈ db'.events ↔ e ∈ db.events ∨ e = event := by
  obtain ⟨_, hnew, h⟩ := except_bind_eq_ok.mp h
  cases h
  rw [rejectIf_eq_ok, not_or, Option.isSome_iff_ne_none, not_not] at hnew
  exact ⟨rfl, fun e => Table.mem_insert hnew.1⟩

theorem foldlM_insertRequestEventRow_eq_ok {events : List RequestEvent}
    (h : events.foldlM insertRequestEventRow db = .ok db') : db' = { db with events := db'.events } ∧
      ∀ e, e ∈ db'.events ↔ e ∈ db.events ∨ e ∈ events := by
  induction events generalizing db with
  | nil =>
    cases h
    exact ⟨rfl, fun e => by simp⟩
  | cons event events ih =>
    rw [List.foldlM_cons] at h
    obtain ⟨inserted, hinserted, h⟩ := except_bind_eq_ok.mp h
    obtain ⟨heq, hmem⟩ := insertRequestEventRow_eq_ok hinserted
    obtain ⟨hrest, hmem'⟩ := ih h
    refine ⟨by rw [hrest, heq], fun e => ?_⟩
    rw [hmem', hmem, List.mem_cons, or_assoc]

theorem Saves.of_requests_eq {saved : RequestDb} (h : Saves db saved request)
    (heq : db'.requests = saved.requests) : Saves db db' request where
  facts := h.facts
  rows id := by
    rw [requestById, heq]
    exact h.rows id
  length_eq := by
    rw [heq]
    exact h.length_eq

theorem persistLifecycleMutation_eq_ok {events : List RequestEvent}
    (hrow : db.requestById request.id = some row) (hfixed : fixedColumns request = fixedColumns row)
    (h : db.persistLifecycleMutation request events = .ok db') :
    Saves db db' request ∧ db' = { db with requests := db'.requests, events := db'.events } ∧
      ∀ e, e ∈ db'.events ↔ e ∈ db.events ∨ e ∈ events := by
  obtain ⟨_, -, h⟩ := except_bind_eq_ok.mp h
  obtain ⟨saved, hsaved, h⟩ := except_bind_eq_ok.mp h
  obtain ⟨hsaves, heq⟩ := saveRequestRow_eq_ok hrow hfixed hsaved
  obtain ⟨hevents, hmem⟩ := foldlM_insertRequestEventRow_eq_ok h
  refine ⟨?_, ?_, ?_⟩
  · apply hsaves.of_requests_eq
    rw [hevents]
  · rw [hevents, heq]
  · intro e
    rw [hmem, heq]

/-- The intents after a transition of one of them. -/
def transitioned (intents : Table RequestAutoMergeIntent.id) (intent : RequestAutoMergeIntent) :
    Table RequestAutoMergeIntent.id :=
  intents.update (fun row => row.id == intent.id) (withTransition intent) (withTransition_id intent)

theorem persistExistingAutoMergeMutation_eq_ok {mutation : RequestAutoMergeMutation}
    (hrow : db.requestById mutation.request.id = some row)
    (hfixed : fixedColumns mutation.request = fixedColumns row)
    (h : db.persistExistingAutoMergeMutation mutation = .ok db') :
    Saves db db' mutation.request ∧ db' = { db with
      requests := db'.requests
      events := db'.events
      intents := transitioned db.intents mutation.intent } ∧
      ∀ e, e ∈ db'.events ↔ e ∈ db.events ∨ e = mutation.event := by
  obtain ⟨saved, hsaved, h⟩ := except_bind_eq_ok.mp h
  obtain ⟨inserted, hinserted, h⟩ := except_bind_eq_ok.mp h
  obtain ⟨_, -, h⟩ := except_bind_eq_ok.mp h
  cases h
  obtain ⟨hsaves, heq⟩ := saveRequestRow_eq_ok hrow hfixed hsaved
  obtain ⟨hevents, hmem⟩ := insertRequestEventRow_eq_ok hinserted
  refine ⟨?_, ?_, ?_⟩
  · apply hsaves.of_requests_eq
    rw [hevents]
  · rw [hevents, heq]
    rfl
  · intro e
    rw [hmem, heq]

theorem persistNewAutoMergeMutation_eq_ok {mutation : RequestAutoMergeMutation}
    (hrow : db.requestById mutation.request.id = some row)
    (hfixed : fixedColumns mutation.request = fixedColumns row)
    (h : db.persistNewAutoMergeMutation mutation = .ok db') :
    Saves db db' mutation.request ∧ db'.revisions = db.revisions ∧
      (∀ e, e ∈ db'.events ↔ e ∈ db.events ∨ e = mutation.event) ∧
      (∀ i, i ∈ db'.intents ↔ i ∈ db.intents ∨ i = mutation.intent) ∧
      (mutation.intent.isActive = true → db.activeIntent mutation.intent.requestId = none) := by
  obtain ⟨saved, hsaved, h⟩ := except_bind_eq_ok.mp h
  obtain ⟨inserted, hinserted, h⟩ := except_bind_eq_ok.mp h
  obtain ⟨_, -, h⟩ := except_bind_eq_ok.mp h
  obtain ⟨_, hnew, h⟩ := except_bind_eq_ok.mp h
  cases h
  obtain ⟨hsaves, heq⟩ := saveRequestRow_eq_ok hrow hfixed hsaved
  obtain ⟨hevents, hmem⟩ := insertRequestEventRow_eq_ok hinserted
  rw [rejectIf_eq_ok, not_or, not_and, Option.not_isSome_iff_eq_none, Option.not_isSome_iff_eq_none]
    at hnew
  refine ⟨?_, ?_, ?_, ?_, ?_⟩
  · apply hsaves.of_requests_eq
    rw [hevents]
  · rw [hevents, heq]
  · intro e
    rw [hmem, heq]
  · intro i
    rw [← show inserted.intents = db.intents by rw [hevents, heq]]
    exact Table.mem_insert hnew.1
  · have hintents : inserted.intents = db.intents := by rw [hevents, heq]
    rw [activeIntent, ← hintents]
    exact hnew.2

theorem insertRequestRow_eq_ok (h : db.insertRequestRow request = .ok db') :
    validateRequestFacts request = .ok () ∧ db.requestById request.id = none ∧
      db' = { db with requests := db'.requests } ∧
      ∀ id, db'.requestById id = if id = request.id then some request else db.requestById id := by
  simp only [insertRequestRow, domain, except_bind_eq_ok, rejectIf_eq_ok, mapError_eq_ok, not_or] at h
  obtain ⟨_, hfacts, _, ⟨hnew, -⟩, h⟩ := h
  cases h
  rw [Option.not_isSome_iff_eq_none] at hnew
  exact ⟨hfacts, hnew, rfl, Table.find?_insert hnew⟩

theorem insertRevision_eq_ok {revision : RequestRevision} (h : db.insertRevision revision = .ok db') :
    db' = { db with revisions := db'.revisions } ∧
      ∀ r, r ∈ db'.revisions ↔ r ∈ db.revisions ∨ r = revision := by
  obtain ⟨_, hnew, h⟩ := except_bind_eq_ok.mp h
  cases h
  rw [rejectIf_eq_ok, not_or, Option.not_isSome_iff_eq_none] at hnew
  exact ⟨rfl, fun r => Table.mem_insert hnew.1⟩

theorem insertIntent_eq_ok {intent : RequestAutoMergeIntent} (h : db.insertIntent intent = .ok db') :
    db' = { db with intents := db'.intents } ∧
      (∀ i, i ∈ db'.intents ↔ i ∈ db.intents ∨ i = intent) ∧
      (intent.isActive = true → db.activeIntent intent.requestId = none) := by
  obtain ⟨_, -, h⟩ := except_bind_eq_ok.mp h
  obtain ⟨_, hnew, h⟩ := except_bind_eq_ok.mp h
  cases h
  rw [rejectIf_eq_ok, not_or, not_and, Option.not_isSome_iff_eq_none, Option.not_isSome_iff_eq_none]
    at hnew
  exact ⟨rfl, fun i => Table.mem_insert hnew.1, hnew.2⟩

/-- The events after a write: what is new belongs to the written request and is not ahead of it. -/
structure EventsGrow (db db' : RequestDb) (request : Request) : Prop where
  kept : ∀ e ∈ db.events, e ∈ db'.events
  added : ∀ e ∈ db'.events,
    e ∈ db.events ∨ (e.requestId = request.id ∧ e.position ≤ request.activityVersion)

theorem EventsGrow.of_eq (h : db'.events = db.events) : EventsGrow db db' request where
  kept e he := h ▸ he
  added e he := .inl (h ▸ he)

theorem EventsGrow.of_mem {events : List RequestEvent}
    (hmem : ∀ e, e ∈ db'.events ↔ e ∈ db.events ∨ e ∈ events)
    (hevents : ∀ e ∈ events, e.requestId = request.id ∧ e.position ≤ request.activityVersion) :
    EventsGrow db db' request where
  kept e he := (hmem e).mpr (.inl he)
  added e he := ((hmem e).mp he).imp_right (hevents e)

end Rows

end RequestDb

/-! ## Refreshing a stack -/

structure RequestStackChildFacts where
  parentHeadOid : String
  requestId : String
  headOid : String
  baseVersion : ℕ
  parentContainsPin : Bool
  containedMainOid : Option String
  acceptedViewMainOid : Option String
  containedMainDescendsFromAncestor : Bool

def automaticEventId (kind intentId : String) : String :=
  "request_auto_merge_" ++ kind ++ "_" ++ intentId

namespace RequestDb

variable (db : RequestDb)

/-- Saves a refreshed request, which stops its auto-merge when there is a reason for that. -/
def persistRefresh (mutation : RequestStackRefreshMutation) (nowUnix : ℕ) :
    Except PostgresError (RequestDb × Request) :=
  match mutation.effects.stopAutoMerge, db.activeIntent mutation.request.id with
  | some stopReason, some intent => do
    let stopped ← domain (stopRequestAutoMerge mutation.request intent stopReason
      (automaticEventId "stopped" intent.id) (max nowUnix mutation.request.updatedAtUnix))
    let db ← db.persistExistingAutoMergeMutation stopped
    return (db, stopped.request)
  | _, _ => do
    let db ← db.saveRequestRow mutation.request
    return (db, mutation.request)

/-- A request on the stack of `refresh_children`: as it was found, below its parent. -/
structure PendingChild where
  child : Request
  parent : Request
  containsPin : Bool

def PendingChild.id (pending : PendingChild) : String := pending.child.id

/-- What the loop takes from the pin of a descendant. -/
def keepsPin (request : Request) : Bool := request.stackStatus != .parentRewritten

/-- One round of the loop of `refresh_children`. -/
def refreshChild (nowUnix : ℕ) (db : RequestDb) (pending : PendingChild) :
    Except PostgresError (RequestDb × List PendingChild) := do
  let mutation ← domain (refreshRequestStack pending.child (some pending.parent) {
    parentContainsPin := pending.containsPin
    ancestorBlocked := pending.parent.stackStatus.requiresRestack
    integrationConflict := pending.child.stackStatus == .integrationConflict } nowUnix)
  let (db, updated) ← db.persistRefresh mutation nowUnix
  return (db, (db.children updated.id).map fun descendant =>
    ⟨descendant, updated, keepsPin descendant⟩)

/-- The facts about a child, which are about the child and its parent as they are. -/
def childFacts (parent : Request) (facts : List RequestStackChildFacts) (child : Request) :
    Except PostgresError PendingChild :=
  match facts.find? fun fact => fact.requestId == child.id with
  | none => .error (.conflict "request children changed during preparation")
  | some fact => do
    rejectIf (fact.parentHeadOid ≠ parent.headOid ∨ fact.headOid ≠ child.headOid ∨
        fact.baseVersion ≠ child.baseVersion)
      (.conflict "request child changed during preparation")
    return ⟨child, parent, fact.parentContainsPin⟩

/-- One fact for each child. -/
def ensureChildFacts (facts : List RequestStackChildFacts) (direct : List Request) :
    Except PostgresError Unit :=
  rejectIf (¬(facts.map RequestStackChildFacts.requestId).Nodup ∨ facts.length ≠ direct.length)
    (.conflict "request children changed during preparation")

def refreshChildren (parent : Request) (facts : List RequestStackChildFacts) (nowUnix : ℕ) :
    Except PostgresError RequestDb := do
  let direct := db.children parent.id
  ensureChildFacts facts direct
  let pending ← direct.mapM (childFacts parent facts)
  Traversal.traverse PendingChild.id (refreshChild nowUnix)
    (.conflict "request stack contains a cycle") db.requests.rows.length pending.reverse [] db

/-- What the store itself says about the children of a request. -/
def ownFacts (parent : Request) (keepsPin : Request → Bool) : List RequestStackChildFacts :=
  (db.children parent.id).map fun child => {
    parentHeadOid := parent.headOid
    requestId := child.id
    headOid := child.headOid
    baseVersion := child.baseVersion
    parentContainsPin := keepsPin child
    containedMainOid := none
    acceptedViewMainOid := none
    containedMainDescendsFromAncestor := false }

def closeChildren (parent : Request) (nowUnix : ℕ) : Except PostgresError RequestDb :=
  db.refreshChildren parent (db.ownFacts parent fun _ => true) nowUnix

/-- What a landing learns from the rest of the store: the accepted main of a repository's view, as a
user reads it, and the ids that are drawn for the events of the children. -/
structure Landing where
  acceptedMainOid : String → String → ViewId → Except PostgresError String
  eventId : String → String

/-- The children of a view other than the full one have to know the view's main. -/
def ensureViewMain (landing : Landing) (parent child : Request) (fact : RequestStackChildFacts) :
    Except PostgresError Unit :=
  if child.view = .privateView then .ok ()
  else
    match parent.mergedByUserId with
    | none => .error (.conflict "parent merger is missing")
    | some userId => do
      let actual ← landing.acceptedMainOid child.repoId userId child.view
      rejectIf (fact.acceptedViewMainOid ≠ some actual)
        (.conflict "request view main changed during parent landing")

/-- Saves a retargeted child, whose auto-merge goes on unless the child needs the main of its view. -/
def persistRetarget (mutation : RequestRetargetMutation) (nowUnix : ℕ) (db : RequestDb) :
    Except PostgresError (RequestDb × Request) :=
  if mutation.effects.preserveAutoMergeIntent then do
    let db ← db.saveRequestRow mutation.request
    return (db, mutation.request)
  else
    db.persistRefresh
      ⟨mutation.request, ⟨mutation.request.stackStatus.autoMergeStopReason, true⟩⟩ nowUnix

/-- One round of the loop of `retarget_children`. -/
def retargetChild (landing : Landing) (parent : Request) (facts : List RequestStackChildFacts)
    (nowUnix : ℕ) (db : RequestDb) (child : Request) : Except PostgresError RequestDb :=
  match facts.find? fun fact => fact.requestId == child.id with
  | none => .error (.conflict "request children changed during preparation")
  | some fact => do
    rejectIf (fact.headOid ≠ child.headOid ∨ fact.baseVersion ≠ child.baseVersion)
      (.conflict "request child changed during preparation")
    rejectIf (parent.mergedHeadOid ≠ some fact.parentHeadOid)
      (.conflict "landed parent ancestry changed during preparation")
    if fact.parentContainsPin = false then return db
    else
      ensureViewMain landing parent child fact
      let mutation ← domain (retargetRequestAfterParentMerge child parent {
        parentHeadOid := fact.parentHeadOid
        eventId := landing.eventId child.id
        nowUnix
        parentContainsPin := fact.parentContainsPin
        containedMainOid := fact.containedMainOid
        acceptedViewMainOid := fact.acceptedViewMainOid
        containedMainDescendsFromAncestor := fact.containedMainDescendsFromAncestor })
      let (db, request) ← persistRetarget mutation nowUnix db
      let db ← db.insertRequestEventRow mutation.event
      db.refreshChildren request (db.ownFacts request keepsPin) nowUnix

def retargetChildren (landing : Landing) (parent : Request) (facts : List RequestStackChildFacts)
    (nowUnix : ℕ) : Except PostgresError RequestDb := do
  let direct := db.children parent.id
  ensureChildFacts facts direct
  let db ← direct.foldlM (retargetChild landing parent facts nowUnix) db
  let remaining := db.children parent.id
  db.refreshChildren parent (remaining.filterMap fun child =>
    facts.find? fun fact => fact.requestId == child.id) nowUnix

/-! ## What a refresh does to the rows -/

section Refresh

variable {db db' : RequestDb} {request row updated : Request} {mutation : RequestStackRefreshMutation}
  {nowUnix : ℕ}

/-- The intents after a refreshed request was saved: an active one is stopped when there is a reason. -/
inductive RefreshedIntents (db : RequestDb) (mutation : RequestStackRefreshMutation) :
    Request → Table RequestAutoMergeIntent.id → Prop where
  | kept (h : mutation.effects.stopAutoMerge = none ∨ db.activeIntent mutation.request.id = none) :
      RefreshedIntents db mutation mutation.request db.intents
  | stopped {reason : RequestAutoMergeStopReason} {intent : RequestAutoMergeIntent}
      {stopped : RequestAutoMergeMutation} {nowUnix : ℕ}
      (hreason : mutation.effects.stopAutoMerge = some reason)
      (hintent : db.activeIntent mutation.request.id = some intent)
      (h : AutoMergeChange mutation.request intent (.stopped reason) nowUnix stopped) :
      RefreshedIntents db mutation stopped.request (transitioned db.intents stopped.intent)

theorem RefreshedIntents.touched {intents : Table RequestAutoMergeIntent.id}
    (h : RefreshedIntents db mutation updated intents) : Touched mutation.request updated := by
  cases h with
  | kept _ => rfl
  | stopped _ _ h => exact h.touched

theorem persistRefresh_eq_ok (hrow : db.requestById mutation.request.id = some row)
    (hfixed : fixedColumns mutation.request = fixedColumns row)
    (h : db.persistRefresh mutation nowUnix = .ok (db', updated)) :
    Saves db db' updated ∧ db'.revisions = db.revisions ∧ EventsGrow db db' updated ∧
      RefreshedIntents db mutation updated db'.intents := by
  unfold persistRefresh at h
  split at h
  · rename_i reason intent hreason hintent
    simp only [domain, except_bind_eq_ok, mapError_eq_ok] at h
    obtain ⟨stopped, hstopped, saved, hsaved, h⟩ := h
    cases h
    obtain ⟨-, -, hchange⟩ := stopRequestAutoMerge_eq_ok hstopped
    have hid : stopped.request.id = mutation.request.id := by rw [hchange.request_eq]
    have hfixed' : fixedColumns stopped.request = fixedColumns row := by
      rw [← hfixed, hchange.request_eq]
      rfl
    obtain ⟨hsaves, heq, hevents⟩ :=
      persistExistingAutoMergeMutation_eq_ok (hid.symm ▸ hrow) hfixed' hsaved
    refine ⟨hsaves, by rw [heq], .of_mem (fun e => ?_) hchange.event_mem, ?_⟩
    · rw [hevents, List.mem_singleton]
    · rw [heq]
      exact .stopped hreason hintent hchange
  · rename_i hnone
    obtain ⟨saved, hsaved, h⟩ := except_bind_eq_ok.mp h
    cases h
    obtain ⟨hsaves, heq⟩ := saveRequestRow_eq_ok hrow hfixed hsaved
    refine ⟨hsaves, by rw [heq], .of_eq (by rw [heq]), ?_⟩
    rw [heq]
    refine .kept ?_
    by_contra hboth
    rw [not_or] at hboth
    obtain ⟨reason, hreason⟩ := Option.ne_none_iff_exists'.mp hboth.1
    obtain ⟨intent, hintent⟩ := Option.ne_none_iff_exists'.mp hboth.2
    exact hnone reason intent hreason hintent

/-- A child that is refreshed below its parent gets the status and the depth that it gives, and the
active children of it are found. -/
theorem refreshChild_eq_ok {pending : PendingChild} {found : List PendingChild}
    {requestId revisionId headOid : String}
    (hrow : db.requestById pending.child.id = some pending.child)
    (hbase : pending.child.base = .request requestId revisionId headOid)
    (h : refreshChild nowUnix db pending = .ok (db', found)) :
    ∃ mutation updated, refreshRequestStack pending.child (some pending.parent) {
        parentContainsPin := pending.containsPin
        ancestorBlocked := pending.parent.stackStatus.requiresRestack
        integrationConflict := pending.child.stackStatus == .integrationConflict } nowUnix =
          .ok mutation ∧
      Saves db db' updated ∧ db'.revisions = db.revisions ∧ EventsGrow db db' updated ∧
      RefreshedIntents db mutation updated db'.intents ∧
      found = (db'.children updated.id).map fun descendant =>
        ⟨descendant, updated, keepsPin descendant⟩ := by
  unfold refreshChild at h
  simp only [domain, except_bind_eq_ok, mapError_eq_ok] at h
  obtain ⟨mutation, hmutation, ⟨saved, updated⟩, hsaved, h⟩ := h
  cases h
  obtain ⟨-, -, -, status, -, -, hrestacked⟩ := refreshRequestStack_eq_ok hbase hmutation
  have hid : mutation.request.id = pending.child.id := by rw [hrestacked]
  have hfixed : fixedColumns mutation.request = fixedColumns pending.child := by
    rw [hrestacked]
    rfl
  obtain ⟨hsaves, hrevisions, hevents, hintents⟩ :=
    persistRefresh_eq_ok (hid.symm ▸ hrow) hfixed hsaved
  exact ⟨mutation, updated, hmutation, hsaves, hrevisions, hevents, hintents, rfl⟩

end Refresh

end RequestDb

end ScopeVcs.Requests

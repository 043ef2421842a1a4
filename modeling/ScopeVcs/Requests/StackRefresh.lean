import ScopeVcs.Requests.StackForest

/-! # Refreshing a stack

The loop of `refresh_children` visits every active request below the one that changed, once each and
parents first. What it saves follows its parent again, and nothing else is touched.
-/

namespace ScopeVcs.Requests

open Ancestry Mutation Relation RequestDb Rows Traversal

variable {db db' : RequestDb} {parent : Request} {facts : List RequestStackChildFacts} {nowUnix : ℕ}
  {waiting : String → Prop}

/-- One request is refreshed below its parent, as both are stored but for the activity of the parent. -/
inductive RefreshStep (nowUnix : ℕ) (db db' : RequestDb) : Prop where
  | refresh (child parent stored updated : Request) (containsPin : Bool)
      (mutation : RequestStackRefreshMutation)
      (hchild : db.requestById child.id = some child) (hactive : child.isTerminal = false)
      (hstored : db.requestById parent.id = some stored) (hparent : Touched parent stored)
      (hbase : child.base.parentRequestId = some parent.id)
      (hrefresh : refreshRequestStack child (some parent) {
        parentContainsPin := containsPin
        ancestorBlocked := parent.stackStatus.requiresRestack
        integrationConflict := child.stackStatus == .integrationConflict } nowUnix = .ok mutation)
      (hsaves : Saves db db' updated) (hrevisions : db'.revisions = db.revisions)
      (hevents : EventsGrow db db' updated)
      (hintents : RefreshedIntents db mutation updated db'.intents)

theorem base_eq_of_parentRequestId {base : RequestBase} {p : String}
    (h : base.parentRequestId = some p) : ∃ revisionId headOid, base = .request p revisionId headOid := by
  cases base with
  | main _ => cases h
  | request requestId revisionId headOid =>
    cases h
    exact ⟨revisionId, headOid, rfl⟩

theorem rows_of_saves {request : Request} (h : Saves db db' request) :
    db'.requestById = Rows.set db.requestById request := funext h.rows

/-- A refreshed child follows its parent. -/
theorem tracks_of_refresh {child parent updated : Request} {containsPin : Bool}
    {mutation : RequestStackRefreshMutation} (hbase : child.base.parentRequestId = some parent.id)
    (hpin : parent.state = .merged → containsPin = false)
    (hrefresh : refreshRequestStack child (some parent) {
      parentContainsPin := containsPin
      ancestorBlocked := parent.stackStatus.requiresRestack
      integrationConflict := child.stackStatus == .integrationConflict } nowUnix = .ok mutation)
    (htouched : Touched mutation.request updated) :
    Restacks child updated ∧ Tracks parent updated := by
  obtain ⟨revisionId, headOid, hrequest⟩ := base_eq_of_parentRequestId hbase
  obtain ⟨-, -, -, status, hstatus, -, hrestacked⟩ := refreshRequestStack_eq_ok hrequest hrefresh
  have hupdated := hrestacked.touched htouched
  rw [hrequest] at hstatus
  obtain ⟨-, -, -, hrequires⟩ := classifyRequestStack_eq_ok hstatus
  refine ⟨hupdated.restacks, ⟨by rw [hupdated], fun hblocked => ?_⟩⟩
  have hsame : updated.stackStatus = status := by rw [hupdated]
  rw [hsame, hrequires]
  rcases hblocked with hterminal | hrestack
  · -- a parent that has ended is closed, or it is merged and does not contain the pin
    unfold Request.isTerminal at hterminal
    cases hmerged : parent.mergedAtUnix with
    | none =>
      rw [hmerged, Option.isSome_none, Bool.or_false] at hterminal
      exact .inl (state_eq_closed_iff.mpr ⟨hmerged, hterminal⟩)
    | some time =>
      exact .inr (.inl (hpin (state_eq_merged_iff.mpr (by rw [hmerged]; rfl))))
  · exact .inr (.inr (.inl hrestack))

theorem Rows.Tracks.touched {child stored : Request} (h : Tracks parent child)
    (htouched : Touched parent stored) : Tracks stored child := by
  rw [Touched] at htouched
  constructor
  · rw [h.depth, htouched]
  · intro hblocked
    refine h.blocked ?_
    rw [htouched] at hblocked
    exact hblocked

/-- How far the loop is, from the rows `rows₀` on. -/
structure Walk (nowUnix : ℕ) (db₀ : RequestDb) (waiting : String → Prop) (db : RequestDb)
    (pending : List PendingChild) (seen : List String) : Prop where
  forest : StackForest db.requestById
  edges : ∀ x y, ActiveChild db.requestById x y ↔ ActiveChild db₀.requestById x y
  current : ∀ c ∈ pending, db.requestById c.child.id = some c.child ∧
    (∃ stored, db.requestById c.parent.id = some stored ∧ Touched c.parent stored) ∧
    c.child.base.parentRequestId = some c.parent.id ∧ c.child.isTerminal = false ∧
    (c.parent.state = .merged → c.containsPin = false)
  tracked : Tracked db.requestById fun id => waiting id ∨ id ∈ pending.map PendingChild.id
  frame : ∀ id, id ∉ seen → db.requestById id = db₀.requestById id
  restacks : ∀ id request, db₀.requestById id = some request →
    ∃ next, db.requestById id = some next ∧ Restacks request next
  steps : ReflTransGen (RefreshStep nowUnix) db₀ db

/-- A row that is only restacked has the same active children and is on the same parent. -/
theorem activeChild_set {rows : Rows} {child updated : Request} (hchild : rows child.id = some child)
    (hrestacks : Restacks child updated) (x y : String) :
    ActiveChild (rows.set updated) x y ↔ ActiveChild rows x y := by
  have hid := hrestacks.id_eq
  by_cases hy : y = updated.id
  · subst hy
    unfold ActiveChild
    rw [set_self, hid, hchild]
    simp only [Option.some.injEq, exists_eq_left']
    rw [hrestacks.base_eq, hrestacks.isTerminal_eq]
  · unfold ActiveChild
    rw [set_of_ne hy]

theorem Rows.StackForest.restack {rows : Rows} {child updated : Request} (h : StackForest rows)
    (hchild : rows child.id = some child) (hrestacks : Restacks child updated)
    (hfacts : validateRequestFacts updated = .ok ()) : StackForest (rows.set updated) := by
  have hid := hrestacks.id_eq
  refine h.set (fun old hold => ?_) hfacts (fun p hp => ?_) fun hmerged => ?_
  · rw [hid, hchild] at hold
    cases hold
    rw [hrestacks]
    exact ⟨rfl, rfl, fun hsubmitted => hsubmitted⟩
  · left
    rw [hrestacks.base_eq] at hp
    rw [hid, parentOf, hchild]
    exact hp
  · rw [hrestacks.state_eq] at hmerged
    have hlanded := h.landed hchild hmerged
    rw [hrestacks]
    exact hlanded

/-- A visit keeps the walk. -/
theorem keeps_walk {root : String} {db₀ : RequestDb} (h₀ : StackForest db₀.requestById) :
    Keeps PendingChild.id (refreshChild nowUnix) (ActiveChild db₀.requestById) root
      (Walk nowUnix db₀ waiting) := by
  rintro db ⟨child, parent, containsPin⟩ pending seen db' found hwalk hfrontier hvisit
  obtain ⟨hchild, ⟨stored, hstored, hparent⟩, hbase, hactive, hpin⟩ :=
    hwalk.current _ List.mem_cons_self
  dsimp only at hchild hstored hparent hbase hactive hpin
  obtain ⟨revisionId, headOid, hrequest⟩ := base_eq_of_parentRequestId hbase
  obtain ⟨mutation, updated, hrefresh, hsaves, hrevisions, hevents, hintents, hfound⟩ :=
    refreshChild_eq_ok hchild hrequest hvisit
  obtain ⟨hrestacks, htracks⟩ := tracks_of_refresh hbase hpin hrefresh
    hintents.touched
  have hid := hrestacks.id_eq
  have hrows := rows_of_saves hsaves
  have hnew : child.id ∉ root :: seen := hfrontier.notMem h₀.acyclic
  have hedges : ∀ x y, ActiveChild db'.requestById x y ↔ ActiveChild db₀.requestById x y :=
    fun x y => by rw [hrows, activeChild_set hchild hrestacks, hwalk.edges]
  -- the descendants that are found are the active children of the visited request
  have hmem : ∀ y, y ∈ found.map PendingChild.id ↔ ActiveChild db₀.requestById child.id y := by
    intro y
    rw [hfound, List.map_map, List.mem_map, ← hedges, ← hid]
    constructor
    · rintro ⟨descendant, hdescendant, rfl⟩
      obtain ⟨hrow, hp, hlive⟩ := mem_children.mp hdescendant
      exact ⟨descendant, hrow, hp, hlive⟩
    · rintro ⟨descendant, hrow, hp, hlive⟩
      obtain rfl := id_of_requestById hrow
      exact ⟨descendant, mem_children.mpr ⟨hrow, hp, hlive⟩, rfl⟩
  refine ⟨?_, hmem, ?_⟩
  · rw [hfound, List.map_map]
    exact nodup_children
  have hforest : StackForest db'.requestById :=
    hrows ▸ hwalk.forest.restack hchild hrestacks hsaves.facts
  have hupdated : db'.requestById updated.id = some updated := by rw [hrows, set_self]
  have hother : ∀ id, id ≠ child.id → db'.requestById id = db.requestById id := fun id hne => by
    rw [hrows, set_of_ne (hid ▸ hne)]
  constructor
  · exact hforest
  · exact hedges
  · intro c hc
    rcases List.mem_append.mp hc with hc | hc
    · rw [List.mem_reverse, hfound, List.mem_map] at hc
      obtain ⟨descendant, hdescendant, rfl⟩ := hc
      obtain ⟨hrow, hp, hlive⟩ := mem_children.mp hdescendant
      refine ⟨hrow, ⟨updated, hupdated, rfl⟩, hp, hlive, fun hmerged => ?_⟩
      rw [hrestacks.state_eq, state_eq_merged_iff] at hmerged
      unfold Request.isTerminal at hactive
      rw [hmerged, Bool.or_true] at hactive
      cases hactive
    · obtain ⟨hrow, ⟨above, hp, habove⟩, hb, hlive, hm⟩ :=
        hwalk.current c (List.mem_cons_of_mem _ hc)
      have hcid : c.child.id ≠ child.id := by
        intro heq
        have hnodup := hfrontier.nodup
        rw [List.map_cons, List.cons_append, List.nodup_cons, List.mem_append, not_or] at hnodup
        exact hnodup.1.1 (List.mem_map.mpr ⟨c, hc, heq⟩)
      have hpid : c.parent.id ≠ child.id := by
        intro heq
        obtain ⟨x, hx, hedge⟩ := hfrontier.parent c.id
          (List.mem_map_of_mem (List.mem_cons_of_mem _ hc))
        have hedge' : ActiveChild db₀.requestById c.parent.id c.id :=
          (hwalk.edges _ _).mp ⟨c.child, hrow, hb, hlive⟩
        rw [h₀.unique _ _ _ hedge hedge', heq] at hx
        exact hnew hx
      exact ⟨(hother _ hcid).trans hrow, ⟨above, (hother _ hpid).trans hp, habove⟩, hb, hlive, hm⟩
  · rw [hrows]
    refine hwalk.tracked.set (fun id hne hnot => ?_) fun _ _ p q hp hq => ?_
    · rw [not_or, List.map_append, List.map_reverse, List.mem_append, List.mem_reverse,
        not_or] at hnot
      obtain ⟨hwaiting, hnotFound, hnotPending⟩ := hnot
      rw [hid] at hne
      refine ⟨?_, fun hedge => hnotFound ((hmem id).mpr ((hwalk.edges _ _).mp (hid ▸ hedge)))⟩
      rw [not_or, List.map_cons, List.mem_cons, not_or]
      exact ⟨hwaiting, hne, hnotPending⟩
    · rw [hrestacks.base_eq, hbase] at hp
      cases hp
      have hpid : parent.id ≠ child.id := hwalk.forest.parent_ne hchild hbase
      rw [set_of_ne (hid ▸ hpid), hstored] at hq
      cases hq
      exact htracks.touched hparent
  · intro id hidseen
    rw [List.mem_cons, not_or] at hidseen
    exact (hother id hidseen.1).trans (hwalk.frame id hidseen.2)
  · intro id request hrequest
    obtain ⟨next, hnext, hbefore⟩ := hwalk.restacks id request hrequest
    by_cases hne : id = child.id
    · subst hne
      rw [hchild] at hnext
      cases hnext
      exact ⟨updated, hid ▸ hupdated, hbefore.trans hrestacks⟩
    · exact ⟨next, (hother id hne).trans hnext, hbefore⟩
  · exact hwalk.steps.tail (.refresh child parent stored updated containsPin mutation hchild hactive
      hstored hparent hbase hrefresh hsaves hrevisions hevents hintents)

/-! ## The whole loop -/

/-- The requests below `root` follow it, and the others are as they were. -/
structure Refreshed (nowUnix : ℕ) (db₀ db : RequestDb) (root : String) (waiting : String → Prop) :
    Prop where
  forest : StackForest db.requestById
  edges : ∀ x y, ActiveChild db.requestById x y ↔ ActiveChild db₀.requestById x y
  tracked : Tracked db.requestById waiting
  frame : ∀ id, ¬TransGen (ActiveChild db₀.requestById) root id →
    db.requestById id = db₀.requestById id
  restacks : ∀ id request, db₀.requestById id = some request →
    ∃ next, db.requestById id = some next ∧ Restacks request next
  steps : ReflTransGen (RefreshStep nowUnix) db₀ db

/-- Each active request below `root` is listed once, behind its parent. -/
structure ListsBelow (edge : String → String → Prop) (root : String) (ids : List String) : Prop where
  nodup : ids.Nodup
  mem_iff : ∀ y, y ∈ ids ↔ TransGen edge root y
  parent_first : ∀ before y after, ids = before ++ y :: after → ∃ x ∈ root :: before, edge x y

theorem listsBelow_of_frontier {edge : String → String → Prop} {root : String} {ids : List String}
    (h : Frontier edge root [] ids.reverse) : ListsBelow edge root ids where
  nodup := List.nodup_reverse.mp h.nodup
  mem_iff y := by
    rw [← List.mem_reverse]
    exact h.mem_seen
  parent_first before y after hsplit :=
    h.parentsFirst.exists_before (by rw [List.reverse_reverse, hsplit])

theorem childFacts_eq_ok {child : Request} {c : PendingChild}
    (h : childFacts parent facts child = .ok c) : c.child = child ∧ c.parent = parent ∧
      ∃ fact ∈ facts, fact.requestId = child.id ∧ fact.parentContainsPin = c.containsPin := by
  unfold childFacts at h
  cases hfact : facts.find? fun fact => fact.requestId == child.id with
  | none =>
    rw [hfact] at h
    cases h
  | some fact =>
    rw [hfact] at h
    obtain ⟨_, -, h⟩ := except_bind_eq_ok.mp h
    cases h
    have hid := List.find?_some hfact
    exact ⟨rfl, rfl, fact, List.mem_of_find?_eq_some hfact, beq_iff_eq.mp hid, rfl⟩

/-- Where the loop begins. -/
theorem walk_start {pending : List PendingChild} (hforest : StackForest db.requestById)
    (hparent : ∃ stored, db.requestById parent.id = some stored ∧ Touched parent stored)
    (htracked : Tracked db.requestById fun id =>
      waiting id ∨ ActiveChild db.requestById parent.id id)
    (hpins : parent.state = .merged → ∀ fact ∈ facts, fact.parentContainsPin = false)
    (hpending : (db.children parent.id).mapM (childFacts parent facts) = .ok pending) :
    Walk nowUnix db waiting db pending.reverse [] ∧
      Frontier (ActiveChild db.requestById) parent.id (pending.reverse.map PendingChild.id) [] := by
  have hdirect : pending.map PendingChild.child = db.children parent.id :=
    map_of_mapM_eq_ok (fun _ _ h => (childFacts_eq_ok h).1) hpending
  have hids : pending.map PendingChild.id = (db.children parent.id).map Request.id := by
    rw [← hdirect, List.map_map]
    rfl
  have hmem : ∀ y, y ∈ pending.map PendingChild.id ↔ ActiveChild db.requestById parent.id y := by
    intro y
    rw [hids, List.mem_map]
    constructor
    · rintro ⟨child, hchild, rfl⟩
      exact ⟨child, mem_children.mp hchild⟩
    · rintro ⟨child, hrow, hbase, hactive⟩
      obtain rfl := id_of_requestById hrow
      exact ⟨child, mem_children.mpr ⟨hrow, hbase, hactive⟩, rfl⟩
  constructor
  · constructor
    · exact hforest
    · exact fun _ _ => Iff.rfl
    · intro c hc
      rw [List.mem_reverse] at hc
      obtain ⟨child, hchild, hfacts⟩ := mem_of_mapM_eq_ok hpending c hc
      obtain ⟨rfl, rfl, fact, hfact, -, hpin⟩ := childFacts_eq_ok hfacts
      obtain ⟨hrow, hbase, hactive⟩ := mem_children.mp hchild
      exact ⟨hrow, hparent, hbase, hactive, fun hmerged => hpin ▸ hpins hmerged fact hfact⟩
    · refine htracked.mono fun id => Or.imp_right fun hchild => ?_
      rw [List.map_reverse, List.mem_reverse]
      exact (hmem id).mpr hchild
    · exact fun _ _ => rfl
    · exact fun _ request hrequest => ⟨request, hrequest, .refl request⟩
    · exact .refl
  · rw [List.map_reverse]
    refine .start (List.nodup_reverse.mpr ?_) fun y => ?_
    · rw [hids]
      exact nodup_children
    · rw [List.mem_reverse]
      exact hmem y

/-- A refresh visits what lies below the parent and lets it follow. -/
theorem refreshChildren_eq_ok (hforest : StackForest db.requestById)
    (hparent : ∃ stored, db.requestById parent.id = some stored ∧ Touched parent stored)
    (htracked : Tracked db.requestById fun id =>
      waiting id ∨ ActiveChild db.requestById parent.id id)
    (hpins : parent.state = .merged → ∀ fact ∈ facts, fact.parentContainsPin = false)
    (h : db.refreshChildren parent facts nowUnix = .ok db') :
    Refreshed nowUnix db db' parent.id waiting ∧
      ∃ items, visits (refreshChild nowUnix) db items = .ok db' ∧
        ListsBelow (ActiveChild db.requestById) parent.id (items.map PendingChild.id) := by
  obtain ⟨_, -, h⟩ := except_bind_eq_ok.mp h
  obtain ⟨pending, hpending, h⟩ := except_bind_eq_ok.mp h
  obtain ⟨hwalk, hfrontier⟩ := walk_start hforest hparent htracked hpins hpending
  obtain ⟨items, hitems, hend, hall⟩ :=
    exists_visits hforest.acyclic hforest.unique (keeps_walk hforest) hwalk hfrontier h
  rw [List.append_nil] at hend hall
  refine ⟨⟨hend.forest, hend.edges, ?_, ?_, hend.restacks, hend.steps⟩, items, hitems,
    listsBelow_of_frontier hall⟩
  · exact hend.tracked.mono fun id => Or.rec (fun hwaiting => hwaiting) fun hmem =>
      absurd hmem List.not_mem_nil
  · exact fun id hid => hend.frame id fun hmem => hid (hall.mem_seen.mp hmem)

/-! ## Why a refresh fails -/

/-- An error of the store that does not tell of a cycle. -/
abbrev NoCycle (error : PostgresError) : Prop := error ≠ .conflict "request stack contains a cycle"

abbrev DomainNoCycle (error : DomainError) : Prop := NoCycle (.ofDomainError error)

section

variable {α : Type} {request : Request} {intent : RequestAutoMergeIntent} {label value eventId : String}

theorem rejects_domain {x : Except DomainError α} (h : Rejects DomainNoCycle x) :
    Rejects NoCycle (domain x) := by
  intro e he
  obtain ⟨e', hx, rfl⟩ := mapError_eq_error.mp he
  exact h e' hx

/-- Whoever finds invalid input does not find a cycle. -/
theorem noCycle_invalidInput (message : String) : DomainNoCycle (.invalidInput message) := by
  intro h
  cases congrArg PostgresError.kind h

theorem noCycle_validateRequired : Rejects DomainNoCycle (validateRequired label value) :=
  .rejectIf (noCycle_invalidInput _)

theorem noCycle_validateLifetime {time : Option ℕ}
    (h : DomainNoCycle (.conflict ("request " ++ label ++ " must be within its lifetime"))) :
    Rejects DomainNoCycle (validateLifetime request label time) :=
  .rejectIf h

theorem noCycle_validateRequestFacts : Rejects DomainNoCycle (validateRequestFacts request) := by
  have hbase : Rejects DomainNoCycle (validateBaseFacts request) := by
    unfold validateBaseFacts
    cases request.base with
    | main _ => exact .rejectIf (by decide)
    | request _ _ _ => exact .rejectIf (by decide)
  unfold validateRequestFacts
  refine hbase.bind fun _ => .bind (.rejectIf (by decide)) fun _ => .bind (.rejectIf (by decide))
    fun _ => .bind (noCycle_validateLifetime (by decide)) fun _ =>
    .bind (noCycle_validateLifetime (by decide)) fun _ =>
    .bind (noCycle_validateLifetime (by decide)) fun _ => ?_
  refine .bind (.rejectIf (by decide)) fun _ => .bind (.rejectIf (by decide)) fun _ =>
    .bind (.rejectIf (by decide)) fun _ => .bind (.rejectIf (by decide)) fun _ =>
    .bind (.rejectIf (by decide)) fun _ => .bind (.rejectIf (by decide)) fun _ =>
    .rejectIf (by decide)

theorem noCycle_advanceRequestActivity : Rejects DomainNoCycle (advanceRequestActivity request) := by
  refine .bind ?_ fun _ => .ok _
  unfold nextRequestActivityPosition
  cases U64.checkedAdd request.activityVersion 1 with
  | none => exact .error (by decide)
  | some position => exact .ok position

theorem noCycle_refreshRequestStack {parent : Option Request} {facts : RequestParentGitFacts} :
    Rejects DomainNoCycle (refreshRequestStack request parent facts nowUnix) := by
  have hadvance : ∀ changed request, Rejects DomainNoCycle (advanceIf changed request) := by
    intro changed request e h
    cases changed with
    | false => cases h
    | true =>
      cases hadvanced : advanceRequestActivity request with
      | ok advanced =>
        rw [advanceIf, if_pos rfl, hadvanced] at h
        cases h
      | error e' =>
        rw [advanceIf, if_pos rfl, hadvanced] at h
        cases h
        exact noCycle_advanceRequestActivity e hadvanced
  have hrestack : ∀ status depth, Rejects DomainNoCycle (restack request status depth nowUnix) := by
    intro status depth
    unfold restack
    split_ifs with hsame
    · exact .ok _
    · exact (hadvance _ _).bind fun _ => noCycle_validateRequestFacts.bind fun _ => .ok _
  have hclassify : Rejects DomainNoCycle (classifyRequestStack request.base parent facts) := by
    unfold classifyRequestStack
    split
    · exact .ok _
    · split
      · exact .error (by decide)
      · split_ifs <;> exact .ok _
  have hdepth : ∀ parent, Rejects DomainNoCycle (childDepth parent) := by
    intro parent
    unfold childDepth
    split_ifs
    · exact .ok _
    · exact .error (by decide)
  unfold refreshRequestStack
  split_ifs
  · exact .ok _
  · cases parent with
    | none => exact .error (by decide)
    | some parent =>
      exact .bind (.rejectIf (by decide)) fun _ => hclassify.bind fun status =>
        (hdepth parent).bind fun depth => (hrestack status depth).bind fun _ => .ok _

theorem noCycle_validateFacts : Rejects DomainNoCycle intent.validateFacts := by
  have hreason : Rejects DomainNoCycle intent.validateReason := by
    unfold RequestAutoMergeIntent.validateReason
    split
    · exact .ok _
    · exact .error (by decide)
    · exact .error (by decide)
    · exact .ok _
  unfold RequestAutoMergeIntent.validateFacts
  exact noCycle_validateRequired.bind fun _ => noCycle_validateRequired.bind fun _ =>
    noCycle_validateRequired.bind fun _ => noCycle_validateRequired.bind fun _ =>
    noCycle_validateRequired.bind fun _ => noCycle_validateRequired.bind fun _ =>
    .bind (.rejectIf (noCycle_invalidInput _)) fun _ => .bind (.rejectIf (by decide)) fun _ => hreason

theorem noCycle_stopRequestAutoMerge {reason : RequestAutoMergeStopReason} :
    Rejects DomainNoCycle (stopRequestAutoMerge request intent reason eventId nowUnix) := by
  refine .bind ?_ fun _ => ?_
  · exact noCycle_validateRequired.bind fun _ => .bind (.rejectIf (by decide)) fun _ =>
      .bind (.rejectIf (by decide)) fun _ => .rejectIf (by decide)
  · exact noCycle_validateFacts.bind fun _ => noCycle_advanceRequestActivity.bind fun _ =>
      noCycle_validateRequestFacts.bind fun _ => .ok _

theorem noCycle_saveRequestRow : Rejects NoCycle (db.saveRequestRow request) :=
  (rejects_domain noCycle_validateRequestFacts).bind fun _ => .bind (.rejectIf (by decide)) fun _ =>
    .ok _

theorem noCycle_persistRefresh {mutation : RequestStackRefreshMutation} :
    Rejects NoCycle (db.persistRefresh mutation nowUnix) := by
  unfold persistRefresh
  split
  · refine (rejects_domain noCycle_stopRequestAutoMerge).bind fun _ => .bind ?_ fun _ => .ok _
    exact noCycle_saveRequestRow.bind fun _ => .bind (.bind (.rejectIf (by decide)) fun _ => .ok _)
      fun _ => (rejects_domain noCycle_validateFacts).bind fun _ => .ok _
  · exact noCycle_saveRequestRow.bind fun _ => .ok _

theorem noCycle_refreshChild {pending : PendingChild} :
    Rejects NoCycle (refreshChild nowUnix db pending) :=
  (rejects_domain noCycle_refreshRequestStack).bind fun _ => noCycle_persistRefresh.bind fun _ =>
    .ok _

theorem noCycle_childFacts {child : Request} : Rejects NoCycle (childFacts parent facts child) := by
  unfold childFacts
  split
  · exact .error (by decide)
  · exact .bind (.rejectIf (by decide)) fun _ => .ok _

end

/-- What lies below a stored request is stored. -/
theorem mem_rows_of_below {root y : String}
    (h : TransGen (ActiveChild db.requestById) root y) : y ∈ db.requests.rows.map Request.id := by
  cases h with
  | single hchild | tail _ hchild =>
    obtain ⟨child, hrow, -⟩ := hchild
    have hmem := (Table.find?_eq_some.mp hrow).1
    exact List.mem_map.mpr ⟨child, hmem, id_of_requestById hrow⟩

/-- A refresh never comes back to a request, and there is one round for each row. -/
theorem noCycle_refreshChildren (hforest : StackForest db.requestById)
    (hparent : ∃ stored, db.requestById parent.id = some stored ∧ Touched parent stored)
    (hpins : parent.state = .merged → ∀ fact ∈ facts, fact.parentContainsPin = false) :
    Rejects NoCycle (db.refreshChildren parent facts nowUnix) := by
  intro e h
  rcases except_bind_eq_error.mp h with h | ⟨_, -, h⟩
  · obtain ⟨-, rfl⟩ := rejectIf_eq_error.mp h
    decide
  · rcases except_bind_eq_error.mp h with h | ⟨pending, hpending, h⟩
    · obtain ⟨child, -, hchild⟩ := exists_mapM_eq_error h
      exact noCycle_childFacts e hchild
    · have htracked : Tracked db.requestById fun id =>
          True ∨ ActiveChild db.requestById parent.id id :=
        fun _ _ _ _ _ _ _ _ hnot => absurd (.inl trivial) hnot
      obtain ⟨hwalk, hfrontier⟩ : Walk nowUnix db (fun _ => True) db pending.reverse [] ∧ _ :=
        walk_start hforest hparent htracked hpins hpending
      obtain ⟨t, c, rest, seen, -, -, hvisit⟩ := exists_visit_error hforest.acyclic hforest.unique
        (keeps_walk hforest) (fun y => mem_rows_of_below) (by simp) hwalk hfrontier h
      exact noCycle_refreshChild e hvisit

end ScopeVcs.Requests

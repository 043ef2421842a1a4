import ScopeVcs.Lib.Ancestry
import ScopeVcs.Requests.Store

/-! # The forest of requests

The stored requests form a forest by their parents. An active request lies one below its parent and is
blocked when its parent is. A changed request leaves its children behind for a while: `Tracked` says
which of them still have to follow, and `refreshChildren` lets them follow.
-/

namespace ScopeVcs.Requests

open Ancestry Mutation Relation RequestDb

/-- The rows of the requests, by their ids. -/
abbrev Rows := String → Option Request

namespace Rows

variable {rows : Rows} {request next last : Request} {id x y : String}
  {pending pending' : String → Prop}

def parentOf (rows : Rows) (id : String) : Option String :=
  (rows id).bind fun request => request.base.parentRequestId

def set (rows : Rows) (request : Request) : Rows := fun id =>
  if id = request.id then some request else rows id

@[simp]
theorem set_self : rows.set request request.id = some request := if_pos rfl

theorem set_of_ne (h : id ≠ request.id) : rows.set request id = rows id := if_neg h

/-- `y` is an active request on `x`. -/
def ActiveChild (rows : Rows) (x y : String) : Prop :=
  ∃ request, rows y = some request ∧ request.base.parentRequestId = some x ∧
    request.isTerminal = false

theorem ActiveChild.isChild (h : rows.ActiveChild x y) : Child rows.parentOf x y := by
  obtain ⟨request, hrow, hparent, -⟩ := h
  rw [Child, parentOf, hrow]
  exact hparent

/-! ## What a request has to do with its parent -/

/-- A child and its parent are in one view of one repository, and the parent was submitted. -/
structure Below (parent child : Request) : Prop where
  repoId_eq : parent.repoId = child.repoId
  view_eq : parent.view = child.view
  isSubmitted : parent.isSubmitted = true

/-- A child lies one below its parent and cannot land while that is blocked or has ended. -/
structure Tracks (parent child : Request) : Prop where
  depth : child.stackDepth = parent.stackDepth + 1
  blocked : parent.isTerminal = true ∨ parent.stackStatus.requiresRestack = true →
    child.stackStatus.requiresRestack = true

/-- What holds of the rows at all times. -/
structure StackForest (rows : Rows) : Prop where
  keyed : ∀ {id request}, rows id = some request → request.id = id
  facts : ∀ {id request}, rows id = some request → validateRequestFacts request = .ok ()
  linked : ∀ {id request p}, rows id = some request → request.base.parentRequestId = some p →
    ∃ parent, rows p = some parent ∧ Below parent request
  forest : IsForest rows.parentOf
  landed : ∀ {id request}, rows id = some request → request.state = .merged →
    request.base.isMain = true ∧ request.mergedHeadOid = some request.headOid

/-- Every active request follows its parent, but for those that are pending. -/
def Tracked (rows : Rows) (pending : String → Prop) : Prop :=
  ∀ id child p parent, rows id = some child → child.isTerminal = false →
    child.base.parentRequestId = some p → rows p = some parent → ¬pending id → Tracks parent child

/-- A request may be put on a parent below which it is not. -/
def MayFollow (rows : Rows) (p : String) (request : Request) : Prop :=
  ∃ parent ancestors, rows p = some parent ∧ Below parent request ∧
    Chain rows.parentOf p ancestors ∧ request.id ∉ p :: ancestors

namespace StackForest

theorem acyclic (h : StackForest rows) : ¬ TransGen rows.ActiveChild x x := fun hx =>
  h.forest.not_transGen (TransGen.mono (fun _ _ => ActiveChild.isChild) _ _ hx)

theorem unique (_h : StackForest rows) :
    ∀ x x' y, rows.ActiveChild x y → rows.ActiveChild x' y → x = x' := fun _ _ _ hx hx' =>
  hx.isChild.unique hx'.isChild

/-- No request is its own parent. -/
theorem parent_ne (h : StackForest rows) (hrow : rows id = some request)
    (hparent : request.base.parentRequestId = some x) : x ≠ id := by
  rintro rfl
  refine h.forest.not_transGen (a := x) (.single ?_)
  rw [Child, parentOf, hrow]
  exact hparent

/-- A row may be written when its parent is the old one or one that it may follow. -/
theorem set (h : StackForest rows)
    (hold : ∀ old, rows next.id = some old → next.repoId = old.repoId ∧ next.view = old.view ∧
      (old.isSubmitted = true → next.isSubmitted = true))
    (hfacts : validateRequestFacts next = .ok ())
    (hparent : ∀ p, next.base.parentRequestId = some p →
      rows.parentOf next.id = some p ∨ rows.MayFollow p next)
    (hlanded : next.state = .merged →
      next.base.isMain = true ∧ next.mergedHeadOid = some next.headOid) :
    StackForest (rows.set next) := by
  have hself : ∀ old p, rows next.id = some old → old.base.parentRequestId = some p →
      ∃ parent, rows p = some parent ∧ Below parent next := by
    intro old p hrow hp
    obtain ⟨parent, hstored, hbelow⟩ := h.linked hrow hp
    obtain ⟨hrepo, hview, -⟩ := hold old hrow
    exact ⟨parent, hstored, hbelow.repoId_eq.trans hrepo.symm, hbelow.view_eq.trans hview.symm,
      hbelow.isSubmitted⟩
  constructor
  · intro id request hrow
    by_cases hid : id = next.id
    · subst hid
      rw [set_self] at hrow
      cases hrow
      rfl
    · rw [set_of_ne hid] at hrow
      exact h.keyed hrow
  · intro id request hrow
    by_cases hid : id = next.id
    · subst hid
      rw [set_self] at hrow
      cases hrow
      exact hfacts
    · rw [set_of_ne hid] at hrow
      exact h.facts hrow
  · -- the parent of a row is stored: it is the written row or as it was
    intro id request p hrow hp
    have hbefore : ∃ parent, rows p = some parent ∧ Below parent request := by
      by_cases hid : id = next.id
      · subst hid
        rw [set_self] at hrow
        cases hrow
        rcases hparent p hp with hsame | ⟨parent, -, hstored, hbelow, -⟩
        · obtain ⟨old, hrow, hp'⟩ := Option.bind_eq_some_iff.mp hsame
          exact hself old p hrow hp'
        · exact ⟨parent, hstored, hbelow⟩
      · rw [set_of_ne hid] at hrow
        exact h.linked hrow hp
    obtain ⟨parent, hstored, hbelow⟩ := hbefore
    by_cases hpid : p = next.id
    · subst hpid
      obtain ⟨hrepo, hview, hsubmitted⟩ := hold parent hstored
      exact ⟨next, set_self, hrepo.trans hbelow.repoId_eq, hview.trans hbelow.view_eq,
        hsubmitted hbelow.isSubmitted⟩
    · exact ⟨parent, (set_of_ne hpid).trans hstored, hbelow⟩
  · refine h.forest.update (c := next.id) (fun b hb => ?_) fun p hp => ?_
    · rw [parentOf, set_of_ne hb, parentOf]
    · rw [parentOf, set_self] at hp
      rcases hparent p hp with hsame | ⟨-, ancestors, -, -, hchain, hnot⟩
      · obtain ⟨as, hchain⟩ := h.forest next.id
        have hnot := hchain.notMem
        cases hchain with
        | root hroot =>
          rw [hroot] at hsame
          cases hsame
        | step hstep hrest =>
          rw [hstep] at hsame
          cases hsame
          exact ⟨_, hrest, hnot⟩
      · exact ⟨ancestors, hchain, hnot⟩
  · intro id request hrow hmerged
    by_cases hid : id = next.id
    · subst hid
      rw [set_self] at hrow
      cases hrow
      exact hlanded hmerged
    · rw [set_of_ne hid] at hrow
      exact h.landed hrow hmerged

end StackForest

namespace Tracked

theorem mono (h : Tracked rows pending) (hmono : ∀ id, pending id → pending' id) :
    Tracked rows pending' := fun id child p parent hchild hactive hp hparent hnot =>
  h id child p parent hchild hactive hp hparent fun hpending => hnot (hmono id hpending)

/-- After a row was written, only it and its children may have to follow. -/
theorem set (h : Tracked rows pending)
    (hothers : ∀ id, id ≠ next.id → ¬pending' id →
      ¬pending id ∧ ¬rows.ActiveChild next.id id)
    (hnext : ¬pending' next.id → next.isTerminal = false → ∀ p parent,
      next.base.parentRequestId = some p → rows.set next p = some parent → Tracks parent next) :
    Tracked (rows.set next) pending' := by
  intro id child p parent hchild hactive hp hparent hnot
  by_cases hid : id = next.id
  · subst hid
    rw [set_self] at hchild
    cases hchild
    exact hnext hnot hactive p parent hp hparent
  · rw [set_of_ne hid] at hchild
    obtain ⟨hbefore, hnotChild⟩ := hothers id hid hnot
    have hpid : p ≠ next.id := by
      rintro rfl
      exact hnotChild ⟨child, hchild, hp, hactive⟩
    rw [set_of_ne hpid] at hparent
    exact h id child p parent hchild hactive hp hparent hbefore

end Tracked

end Rows

/-! ## Refreshing below a request -/

section

variable {request next last : Request}

/-- `next` is the request but for its status, its depth and its activity. -/
def Restacks (request next : Request) : Prop :=
  Restacked request next next.stackStatus next.stackDepth

theorem Restacks.refl (request : Request) : Restacks request request := rfl

theorem Restacks.trans (h : Restacks request next) (h' : Restacks next last) :
    Restacks request last := by
  rw [Restacks, Restacked] at h h' ⊢
  rw [h', h]

theorem Restacks.isTerminal_eq (h : Restacks request next) : next.isTerminal = request.isTerminal := by
  rw [h]
  rfl

theorem Restacks.state_eq (h : Restacks request next) : next.state = request.state := by
  rw [h]
  rfl

theorem Restacks.base_eq (h : Restacks request next) : next.base = request.base := by rw [h]

theorem Restacks.id_eq (h : Restacks request next) : next.id = request.id := by rw [h]

theorem Restacks.fixed (h : Restacks request next) : fixedColumns next = fixedColumns request := by
  rw [h]
  rfl

theorem Restacked.touched {status : RequestStackStatus} {depth : ℕ}
    (h : Restacked request next status depth) (h' : Touched next last) :
    Restacked request last status depth := by
  rw [Touched] at h'
  rw [Restacked] at h ⊢
  rw [h', h]

theorem Restacked.restacks {status : RequestStackStatus} {depth : ℕ}
    (h : Restacked request next status depth) : Restacks request next := by
  rw [Restacks, Restacked]
  rw [Restacked] at h
  rw [h]

end

end ScopeVcs.Requests

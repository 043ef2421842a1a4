import ScopeVcs.Projection.Commits
import ScopeVcs.Visibility.RepoConfig

/-! # Visibility change sets

A change of labels or views is recorded in the history of a repository as a change set, anchored at
a commit.
-/

namespace ScopeVcs

structure ViewsTransition where
  before : Views
  after : Views
  deriving DecidableEq

structure VisibilityChange where
  path : ScopePath
  oldLabel : ViewId
  newLabel : ViewId
  currentContent : Option SourceBlob
  deriving DecidableEq

structure VisibilityChangeSet where
  occurredAtUnix : Option ℤ
  id : String
  anchorCommitId : Option String
  sourceUpdateId : Option String
  authorId : String
  changes : List VisibilityChange
  views : Option ViewsTransition
  deriving DecidableEq

namespace VisibilityChangeSet

/-- `VisibilityChangeSet::new`. -/
def new (id : String) (anchorCommitId sourceUpdateId : Option String) (authorId : String)
    (changes : List VisibilityChange) (views : Option ViewsTransition) :
    Except String VisibilityChangeSet := do
  Mutation.rejectIf (id = "" ∨ authorId = "") "visibility change set id and author must not be empty"
  Mutation.rejectIf (changes.isEmpty = true ∧ views.isNone = true)
    "visibility change set must change a label or the views"
  Mutation.rejectIf (views.any (fun transition => transition.before = transition.after) = true)
    "visibility change set cannot contain a no-op views transition"
  Mutation.rejectIf (changes.any (fun change => change.oldLabel = change.newLabel) = true)
    "visibility change set cannot contain no-op changes"
  Mutation.rejectIf ((SortedSet.ofList (changes.map (·.path))).toList.length ≠ changes.length)
    "visibility change set cannot contain duplicate paths"
  pure { occurredAtUnix := none, id, anchorCommitId, sourceUpdateId, authorId, changes, views }

/-- A set that changes something, each path once, needs an id and an author. -/
theorem exists_new {id authorId : String} {anchorCommitId sourceUpdateId : Option String}
    {changes : List VisibilityChange} {views : Option ViewsTransition}
    (hsome : changes ≠ [] ∨ views ≠ none)
    (hviews : ∀ transition ∈ views, transition.before ≠ transition.after)
    (hlabels : ∀ change ∈ changes, change.oldLabel ≠ change.newLabel)
    (hpaths : (changes.map (·.path)).Nodup) :
    (∃ set, new id anchorCommitId sourceUpdateId authorId changes views = .ok set) ↔
      id ≠ "" ∧ authorId ≠ "" := by
  have hempty : ¬(changes.isEmpty = true ∧ views.isNone = true) := by
    simpa [imp_iff_not_or] using hsome
  have hviews' : ¬views.any (fun transition => transition.before = transition.after) = true := by
    rw [Option.any_eq_true]
    rintro ⟨transition, hmem, heq⟩
    exact hviews transition hmem (of_decide_eq_true heq)
  have hlabels' : ¬changes.any (fun change => change.oldLabel = change.newLabel) = true := by
    simpa using hlabels
  have hlength : ¬(SortedSet.ofList (changes.map (·.path))).toList.length ≠ changes.length := by
    rw [SortedSet.length_toList_ofList hpaths, List.length_map]
    exact not_not.mpr rfl
  rw [new, Mutation.rejectIf_of_not hempty, Mutation.rejectIf_of_not hviews',
    Mutation.rejectIf_of_not hlabels', Mutation.rejectIf_of_not hlength]
  simp only [Mutation.except_ok_bind, Mutation.except_unit_bind_eq_ok, Mutation.rejectIf_eq_ok,
    exists_and_left, not_or]
  exact and_iff_left ⟨_, rfl⟩

theorem eq_of_new {id authorId : String} {anchorCommitId sourceUpdateId : Option String}
    {changes : List VisibilityChange} {views : Option ViewsTransition} {set : VisibilityChangeSet}
    (h : new id anchorCommitId sourceUpdateId authorId changes views = .ok set) :
    set = ⟨none, id, anchorCommitId, sourceUpdateId, authorId, changes, views⟩ := by
  unfold new at h
  obtain ⟨-, h⟩ := Mutation.except_unit_bind_eq_ok.mp h
  obtain ⟨-, h⟩ := Mutation.except_unit_bind_eq_ok.mp h
  obtain ⟨-, h⟩ := Mutation.except_unit_bind_eq_ok.mp h
  obtain ⟨-, h⟩ := Mutation.except_unit_bind_eq_ok.mp h
  obtain ⟨-, h⟩ := Mutation.except_unit_bind_eq_ok.mp h
  cases h
  rfl

end VisibilityChangeSet

def visibilityChangeSetId (nextChangeVersion : ℕ) : String := "vchg_" ++ toString nextChangeVersion

theorem visibilityChangeSetId_ne_empty (nextChangeVersion : ℕ) :
    visibilityChangeSetId nextChangeVersion ≠ "" := by
  intro h
  have hlength := congrArg (fun text : String => text.toList.length) h
  simp [visibilityChangeSetId] at hlength

end ScopeVcs

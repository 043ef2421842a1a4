import ScopeVcs.History.Runs
import ScopeVcs.Projection.ReadModel

/-! # The read model of a history

Each fold appends the entries of what it folds to the stored ones. An entry is stored with the words of
the views at that time, and shown in the words of the current ones.
-/

namespace ScopeVcs

/-- The row of a view with its stored entries, oldest first. -/
structure HistoryReadModel where
  row : ProjectionReadModel
  history : HistoryCursor
  entries : List ViewHistoryEntry

/-- The history part of `fold_view`. -/
def foldHistoryView (digest : HistoryDigest) (views : Views) (input : FoldInput)
    (stored : Option HistoryReadModel) (view : ViewId) : Except String HistoryReadModel :=
  let cursor := (stored.map (·.row.cursor)).getD (.start (initialViews input.sets views))
  let viewBefore := input.before.viewFiles cursor.views view
  let projection := projectGraphAfter cursor input.before input.graph input.sets view
  let (entries, history) := historyEntriesAfter digest
    ((stored.map (·.history)).getD (.start digest input.graph.repoId view)) viewBefore projection
      input.graph input.sets views view
  (foldView views input (stored.map (·.row)) view).map fun row =>
    { row, history, entries := (stored.map (·.entries)).getD [] ++ entries }

/-! ## Parents -/

/-- Each entry with the id of the one before it. -/
def withParents : Option String → List ViewHistoryEntry → List ViewHistoryEntry
  | _, [] => []
  | last, entry :: entries => { entry with parentId := last } :: withParents (some entry.id) entries

section Parents

variable {digest : HistoryDigest} {cursor : HistoryCursor} {entries entries' : List ViewHistoryEntry}
  {last : Option String}

theorem linkEntries_fst (digest : HistoryDigest) (cursor : HistoryCursor)
    (entries : List ViewHistoryEntry) :
    (linkEntries digest cursor entries).1 = withParents cursor.lastEntryId entries := by
  induction entries generalizing cursor with
  | nil => rfl
  | cons entry entries ih => exact congrArg (List.cons { entry with parentId := cursor.lastEntryId }) (ih _)

theorem lastEntryId_linkEntries (digest : HistoryDigest) (cursor : HistoryCursor)
    (entries : List ViewHistoryEntry) : (linkEntries digest cursor entries).2.lastEntryId =
      (entries.getLast?.map (·.id)).or cursor.lastEntryId := by
  induction entries generalizing cursor with
  | nil => rfl
  | cons entry entries ih =>
    have hlast : ((entry :: entries).getLast?.map (·.id)).or cursor.lastEntryId =
        (entries.getLast?.map (·.id)).or (some entry.id) := by
      rw [List.getLast?_cons]
      cases entries.getLast? <;> rfl
    rw [hlast, linkEntries]
    exact ih _

theorem withParents_append (last : Option String) (entries entries' : List ViewHistoryEntry) :
    withParents last (entries ++ entries') =
      withParents last entries ++
        withParents ((entries.getLast?.map (·.id)).or last) entries' := by
  induction entries generalizing last with
  | nil => rfl
  | cons entry entries ih =>
    have hlast : ((entry :: entries).getLast?.map (·.id)).or last =
        (entries.getLast?.map (·.id)).or (some entry.id) := by
      rw [List.getLast?_cons]
      cases entries.getLast? <;> rfl
    rw [List.cons_append, withParents, ih, withParents, hlast, List.cons_append]

theorem ids_withParents (last : Option String) (entries : List ViewHistoryEntry) :
    (withParents last entries).map (·.id) = entries.map (·.id) := by
  induction entries generalizing last with
  | nil => rfl
  | cons entry entries ih => rw [withParents, List.map_cons, ih, List.map_cons]

/-- The parents of linked entries are the ids of the entries before them. -/
theorem parentIds_withParents (last : Option String) (entries : List ViewHistoryEntry) :
    (withParents last entries).map (·.parentId) =
      (last :: (entries.map (·.id)).map some).dropLast := by
  induction entries generalizing last with
  | nil => rfl
  | cons entry entries ih =>
    rw [withParents, List.map_cons, ih, List.map_cons, List.map_cons, List.dropLast_cons_cons]

end Parents

/-! ## Shown entries -/

/-- The entry as it is shown under some views. -/
def ViewHistoryEntry.shownIn (views : Views) (view : ViewId) (entry : ViewHistoryEntry) : ViewHistoryEntry :=
  { entry with message := entry.messageIn views view }

section Shown

variable {projected : ProjectionHistory} {current views views' : Views} {view : ViewId}
  {commits : List LogicalCommit} {sets : List VisibilityChangeSet}

theorem shownIn_withParents (last : Option String) (entries : List ViewHistoryEntry) :
    (withParents last entries).map (·.shownIn current view) =
      withParents last (entries.map (·.shownIn current view)) := by
  induction entries generalizing last with
  | nil => rfl
  | cons entry entries ih =>
    rw [withParents, List.map_cons, ih, List.map_cons, withParents]
    rfl

/-- The views at the time of a fold are only in words that are not shown. -/
theorem shownIn_visibilityAction (set : VisibilityChangeSet) :
    (visibilityAction projected views view set).map (·.shownIn current view) =
      (visibilityAction projected views' view set).map (·.shownIn current view) := by
  have hchanges : ∀ content, visibilityChangesForAction projected views view [set] content =
      visibilityChangesForAction projected views' view [set] content := by
    intro content
    simp only [visibilityChangesForAction, Views.full_eq]
  unfold visibilityAction
  simp only [hchanges, Views.full_eq]
  cases set.views with
  | some transition => rfl
  | none =>
    dsimp only
    split_ifs <;> rfl

theorem contentAction_views (logical : LogicalCommit) :
    contentAction projected views view logical sets =
      contentAction projected views' view logical sets := by
  unfold contentAction actionMetadata entryNativeCommits visibilityChangesForAction
  simp only [Views.full_eq]

theorem shownIn_unlinkedEntries (hnodup : (commits.map (·.id)).Nodup) :
    (unlinkedEntries projected views view commits sets).map (·.shownIn current view) =
      (unlinkedEntries projected views' view commits sets).map (·.shownIn current view) := by
  have hsteps : ∀ views : Views, unlinkedEntries projected views view commits sets =
      (foldSteps ⟨"", commits⟩ sets).flatMap (stepEntries projected views view commits sets) :=
    fun views => unlinkedEntries_eq_flatMap hnodup
  rw [hsteps, hsteps, List.map_flatMap, List.map_flatMap]
  refine List.flatMap_congr fun step _ => ?_
  cases step with
  | commit logical => rw [stepEntries, stepEntries, contentAction_views]
  | set set =>
    rw [stepEntries, stepEntries]
    split_ifs
    · rfl
    · rw [← Option.toList_map, ← Option.toList_map, shownIn_visibilityAction]

end Shown

end ScopeVcs

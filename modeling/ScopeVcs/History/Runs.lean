import ScopeVcs.History.Update
import ScopeVcs.ReviewedUpdates.Labels

/-! # The entries of a run

What a run records of the files makes the entries of each update exact. So reading all the entries of a
view gives the files that the view shows, and in the full view the files with their labels.
-/

namespace ScopeVcs

/-! ## What a history records of the files -/

/-- Every change of the commits makes a difference to the files that the changes before it left. -/
def ChangesFiles : LiveFiles → List LogicalCommit → Prop
  | _, [] => True
  | live, commit :: commits =>
    (∀ written ∈ commit.changes,
      sourceContentMatches (live.get? written.path) written.newContent = false) ∧
        ChangesFiles (commit.changes.foldl FileChange.applyTo live) commits

/-- The commits make a difference, the change sets record what their commits write, and their ids are
plain and differ. -/
structure RecordsFiles (live : LiveFiles) (commits : List LogicalCommit)
    (sets : List VisibilityChangeSet) : Prop where
  changes : ChangesFiles live commits
  content : ∀ set ∈ sets, ∀ commit ∈ commits, set.sourceUpdateId = some commit.id →
    ∀ change ∈ set.changes, ∀ written ∈ commit.changes, written.path = change.path →
      change.currentContent = written.newContent
  ids_nodup : (sets.map (·.id)).Nodup
  plainIds : ∀ set ∈ sets, ':' ∉ set.id.toList

section Recorded

variable {live : LiveFiles} {commits commits' : List LogicalCommit}
  {sets sets' : List VisibilityChangeSet}

theorem changesFiles_append : ChangesFiles live (commits ++ commits') ↔
    ChangesFiles live commits ∧
      ChangesFiles ((commits.flatMap (·.changes)).foldl FileChange.applyTo live) commits' := by
  induction commits generalizing live with
  | nil => simp [ChangesFiles]
  | cons commit commits ih =>
    rw [List.cons_append, ChangesFiles, ChangesFiles, ih, List.flatMap_cons, List.foldl_append,
      and_assoc]

theorem RecordsFiles.left (h : RecordsFiles live (commits ++ commits') (sets ++ sets')) :
    RecordsFiles live commits sets where
  changes := (changesFiles_append.mp h.changes).1
  content := fun set hset commit hcommit =>
    h.content set (List.mem_append_left _ hset) commit (List.mem_append_left _ hcommit)
  ids_nodup := by
    have hnodup := h.ids_nodup
    rw [List.map_append] at hnodup
    exact hnodup.of_append_left
  plainIds := fun set hset => h.plainIds set (List.mem_append_left _ hset)

theorem RecordsFiles.fresh_ids (h : RecordsFiles live commits (sets ++ sets')) :
    ∀ set ∈ sets', set.id ∉ sets.map (·.id) := by
  intro set hset hmem
  have hnodup := h.ids_nodup
  rw [List.map_append, List.nodup_append'] at hnodup
  exact List.disjoint_left.mp hnodup.2.2 hmem (List.mem_map_of_mem hset)

end Recorded

/-! ## The contents of a run -/

namespace LabelledTree

variable (tree : LabelledTree)

def contents : LiveFiles := tree.mapValues fun _ file => file.1

@[simp]
theorem get?_contents (path : ScopePath) :
    tree.contents.get? path = (tree.get? path).map Prod.fst :=
  SortedMap.get?_mapValues _ _ _

theorem contents_applyChange (change : FileChange) :
    (tree.applyChange change).contents = change.applyTo tree.contents := by
  refine SortedMap.ext fun path => ?_
  rw [FileChange.get?_applyTo, get?_contents, get?_contents]
  by_cases hpath : path = change.path
  · rw [if_pos hpath, hpath, get?_applyChange_self, Option.map_map]
    cases change.newContent <;> rfl
  · rw [if_neg hpath, get?_applyChange_of_ne tree change path hpath]

theorem contents_applyCommit (commit : LogicalCommit) :
    (tree.applyCommit commit).contents = commit.changes.foldl FileChange.applyTo tree.contents := by
  rw [applyCommit]
  induction commit.changes generalizing tree with
  | nil => rfl
  | cons change changes ih => rw [List.foldl_cons, ih, contents_applyChange, List.foldl_cons]

theorem contents_relabelChange (change : VisibilityChange) :
    (tree.relabelChange change).contents = tree.contents := by
  refine SortedMap.ext fun path => ?_
  rw [get?_contents, get?_contents]
  by_cases hpath : path = change.path
  · rw [hpath, get?_relabelChange_self, Option.map_map]
    cases tree.get? change.path <;> rfl
  · rw [get?_relabelChange_of_ne tree change path hpath]

theorem contents_relabel (set : VisibilityChangeSet) :
    (tree.relabel set).contents = tree.contents := by
  rw [relabel]
  induction set.changes generalizing tree with
  | nil => rfl
  | cons change changes ih => rw [List.foldl_cons, ih, contents_relabelChange]

theorem contents_update (set? : Option VisibilityChangeSet) (commit? : Option LogicalCommit) :
    (tree.update set? commit?).contents =
      (commit?.toList.flatMap (·.changes)).foldl FileChange.applyTo tree.contents := by
  have hrelabelled : (set?.elim tree tree.relabel).contents = tree.contents := by
    cases set? with
    | none => rfl
    | some set => exact contents_relabel tree set
  cases commit? with
  | none => exact hrelabelled
  | some commit =>
    rw [update, Option.elim_some, contents_applyCommit, hrelabelled, Option.toList_some,
      List.flatMap_singleton]

end LabelledTree

section Runs

variable {anchor : Option String} {start tree : LabelledTree} {first before after : Views}
  {commits : List LogicalCommit} {sets : List VisibilityChangeSet} {live : LiveFiles}
  {set? : Option VisibilityChangeSet} {commit? : Option LogicalCommit} {cursor : ProjectionCursor}
  {view : ViewId} {views : Views}

theorem HistoryRun.contents_eq (run : HistoryRun anchor start first commits sets tree after) :
    tree.contents = (commits.flatMap (·.changes)).foldl FileChange.applyTo start.contents := by
  induction run with
  | nil => rfl
  | update run appends fits ih =>
    rw [LabelledTree.contents_update, ih, List.flatMap_append, List.foldl_append]

/-- An update of a run writes what the run records of it. -/
theorem HistoryRun.writesFiles (run : HistoryRun anchor start first commits sets tree before)
    (appends : AppendsTo anchor commits before after set? commit?)
    (records : RecordsFiles start.contents (commits ++ commit?.toList) (sets ++ set?.toList)) :
    WritesFiles tree set? commit? where
  differs := by
    intro commit hcommit written hwritten
    obtain rfl := Option.mem_def.mp hcommit
    have hchanges := (changesFiles_append.mp records.changes).2
    rw [← run.contents_eq] at hchanges
    rw [← LabelledTree.get?_contents]
    exact hchanges.1 written hwritten
  content := by
    intro set hset commit hcommit
    obtain rfl := Option.mem_def.mp hset
    obtain rfl := Option.mem_def.mp hcommit
    exact records.content set (by simp) commit (by simp) (appends.source set rfl)

theorem AppendsTo.last (appends : AppendsTo anchor commits before after set? commit?) :
    AppendsTo ((commits.getLast?.map (·.id)).or anchor) [] before after set? commit? where
  transition := appends.transition
  anchored := appends.anchored
  source := appends.source
  fresh := by
    intro commit hcommit
    obtain ⟨hnew, hanchor⟩ := appends.fresh commit hcommit
    refine ⟨List.not_mem_nil, fun hlast => ?_⟩
    cases hcommits : commits.getLast? with
    | none => exact hanchor (by rwa [hcommits] at hlast)
    | some last =>
      rw [hcommits] at hlast
      exact hnew (Option.some_inj.mp hlast ▸ List.mem_map_of_mem (List.mem_of_getLast? hcommits))

/-- A run appends its entries to those of the run before it. -/
theorem HistoryRun.unlinkedEntries_resumed {middle : LabelledTree} {between : Views}
    {later : List LogicalCommit} {laterSets : List VisibilityChangeSet}
    (run : HistoryRun anchor start first commits sets middle between)
    (next : HistoryRun ((commits.getLast?.map (·.id)).or anchor) middle between later laterSets tree
      after)
    (hfresh : ∀ commit ∈ later, commit.id ∉ commits.map (·.id) ∧ anchor ≠ some commit.id)
    (records : RecordsFiles live (commits ++ later) (sets ++ laterSets))
    (hcursor : cursor.views.visibilityShape = first.visibilityShape) (repoId : String) :
    let earlier := projectGraphAfter cursor start ⟨repoId, commits⟩ sets view
    unlinkedEntries (.replay (start.viewFiles first view) (projectGraphAfter cursor start
        ⟨repoId, commits ++ later⟩ (sets ++ laterSets) view)) views view (commits ++ later)
        (sets ++ laterSets) =
      unlinkedEntries (.replay (start.viewFiles first view) earlier) views view commits sets ++
        unlinkedEntries (.replay (middle.viewFiles between view) (projectGraphAfter
          (cursor.advanced earlier ⟨repoId, commits⟩ sets) middle ⟨repoId, later⟩ laterSets view))
            views view later laterSets := by
  intro earlier
  have hshown : applyCommits earlier.commits (start.viewFiles first view) =
      middle.viewFiles between view := by
    rw [← viewFiles_congr hcursor]
    exact run.projectGraphAfter_applyTo view repoId hcursor
  have hwhole := run.projectGraphAfter_append next hfresh view cursor repoId
  rw [← hshown]
  refine Eq.trans ?_ (run.unlinkedEntries_replay next hfresh records.plainIds records.fresh_ids
    (comesFrom_projectGraphAfter cursor start ⟨repoId, commits⟩ sets view)
    (comesFrom_projectGraphAfter (cursor.advanced earlier ⟨repoId, commits⟩ sets) middle
      ⟨repoId, later⟩ laterSets view) repoId (start.viewFiles first view))
  rw [← hwhole]
  rfl

/-- An update appends its entries to those of the history before it. -/
theorem HistoryRun.unlinkedEntries_update (run : HistoryRun anchor start first commits sets tree before)
    (appends : AppendsTo anchor commits before after set? commit?)
    (fits : FitsHistory tree before after set? commit?)
    (records : RecordsFiles live (commits ++ commit?.toList) (sets ++ set?.toList))
    (hcursor : cursor.views.visibilityShape = first.visibilityShape) (repoId : String) :
    let earlier := projectGraphAfter cursor start ⟨repoId, commits⟩ sets view
    unlinkedEntries (.replay (start.viewFiles first view) (projectGraphAfter cursor start
        ⟨repoId, commits ++ commit?.toList⟩ (sets ++ set?.toList) view)) views view
        (commits ++ commit?.toList) (sets ++ set?.toList) =
      unlinkedEntries (.replay (start.viewFiles first view) earlier) views view commits sets ++
        unlinkedEntries (.replay (tree.viewFiles before view) (projectGraphAfter
          (cursor.advanced earlier ⟨repoId, commits⟩ sets) tree ⟨repoId, commit?.toList⟩ set?.toList
            view)) views view commit?.toList set?.toList := by
  have hnext : HistoryRun ((commits.getLast?.map (·.id)).or anchor) tree before commit?.toList
      set?.toList (tree.update set? commit?) after := HistoryRun.nil.update appends.last fits
  have hfresh : ∀ commit ∈ commit?.toList, commit.id ∉ commits.map (·.id) ∧
      anchor ≠ some commit.id := fun commit hcommit =>
    appends.fresh commit (Option.mem_toList.mp hcommit)
  exact run.unlinkedEntries_resumed hnext hfresh records hcursor repoId

/-- The entries of a run write the files that the view shows after it. -/
theorem HistoryRun.written_unlinkedEntries (run : HistoryRun anchor start first commits sets tree after)
    (records : RecordsFiles start.contents commits sets)
    (hcursor : cursor.views.visibilityShape = first.visibilityShape) (repoId : String) :
    ((unlinkedEntries (.replay (start.viewFiles first view) (projectGraphAfter cursor start
        ⟨repoId, commits⟩ sets view)) views view commits sets).flatMap (·.written)).foldl
      HistoryEntryFile.applyTo (start.viewFiles first view) = tree.viewFiles after view := by
  induction run with
  | nil => rfl
  | @update commits sets tree before after set? commit? run appends fits ih =>
    set earlier := projectGraphAfter cursor start ⟨repoId, commits⟩ sets view
    have hresumed : (cursor.advanced earlier ⟨repoId, commits⟩ sets).views.visibilityShape =
        before.visibilityShape := run.lastViews_shape hcursor
    have happlied := (HistoryRun.nil.update appends.last fits).projectGraphAfter_applyTo view repoId
      hresumed
    rw [viewFiles_congr hresumed] at happlied
    rw [run.unlinkedEntries_update appends fits records hcursor, List.flatMap_append,
      List.foldl_append, ih records.left,
      written_update appends.last fits (run.writesFiles appends records) hresumed]
    exact happlied

/-- The entries of a run leave the files with their labels in the full view. -/
theorem HistoryRun.applyEntries_full (run : HistoryRun anchor start first commits sets tree after)
    (records : RecordsFiles start.contents commits sets)
    (hcursor : cursor.views.visibilityShape = first.visibilityShape) (repoId : String) :
    (unlinkedEntries (.replay (start.viewFiles first .privateView) (projectGraphAfter cursor start
        ⟨repoId, commits⟩ sets .privateView)) views .privateView commits sets).foldl
      HistoryTree.applyEntry (.ofLabelled start) = .ofLabelled tree := by
  induction run with
  | nil => rfl
  | @update commits sets tree before after set? commit? run appends fits ih =>
    have hresumed : (cursor.advanced (projectGraphAfter cursor start ⟨repoId, commits⟩ sets
        .privateView) ⟨repoId, commits⟩ sets).views.visibilityShape = before.visibilityShape :=
      run.lastViews_shape hcursor
    rw [run.unlinkedEntries_update appends fits records hcursor, List.foldl_append,
      ih records.left,
      applyEntries_update_full appends.last fits (run.writesFiles appends records) hresumed]

end Runs

end ScopeVcs

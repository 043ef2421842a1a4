import ScopeVcs.Projection.Batches
import ScopeVcs.ReviewedUpdates.ProjectionAgreement

/-! # Projections that go on

A read model appends what each fold projects to what it has. However the folds fall between the
updates of a repository, what it has is the projection of the whole history.
-/

namespace ScopeVcs

open Relation

/-! ## Cursors with the same views -/

section Congr

variable {cursor cursor' : ProjectionCursor} {view : ViewId}

/-- A projection depends on the shape of the views only. -/
theorem projectGraphAfter_congr (hcount : cursor.commitCount = cursor'.commitCount)
    (hlast : cursor.lastProjectedId = cursor'.lastProjectedId)
    (hviews : cursor.views.visibilityShape = cursor'.views.visibilityShape) (tree : LabelledTree)
    (graph : SourceGraph) (sets : List VisibilityChangeSet) :
    (projectGraphAfter cursor tree graph sets view).commits =
      (projectGraphAfter cursor' tree graph sets view).commits := by
  have hresumes : ProjectionCursor.Resumes [] cursor cursor' := hcount.symm
  by_cases hview : view = .privateView
  · subst hview
    rw [projectGraphAfter_full, projectGraphAfter_full]
    exact (FullFollows.foldl ⟨rfl, hlast⟩ hresumes).commits
  · rw [projectGraphAfter_of_ne hview, projectGraphAfter_of_ne hview]
    have hstart : (cursor.initialFold tree sets).Follows [] (cursor'.initialFold tree sets) :=
      ⟨rfl, hlast, hviews, fun _ hkept => hkept⟩
    refine (hstart.foldl hresumes fun set hset => ⟨rfl, fun hneeded => ?_⟩).commits
    exact (initialFold_tree _).mpr ⟨set, mem_foldSteps hset, hneeded⟩

theorem commits_projectGraphAfter_repoId (cursor : ProjectionCursor) (tree : LabelledTree)
    (repoId repoId' : String) (commits : List LogicalCommit) (sets : List VisibilityChangeSet) :
    (projectGraphAfter cursor tree ⟨repoId, commits⟩ sets view).commits =
      (projectGraphAfter cursor tree ⟨repoId', commits⟩ sets view).commits := by
  unfold projectGraphAfter
  split_ifs <;> rfl

theorem advanced_repoId (cursor : ProjectionCursor) (tree : LabelledTree)
    (repoId repoId' : String) (commits : List LogicalCommit) (sets : List VisibilityChangeSet) :
    cursor.advanced (projectGraphAfter cursor tree ⟨repoId, commits⟩ sets view) ⟨repoId, commits⟩
        sets =
      cursor.advanced (projectGraphAfter cursor tree ⟨repoId', commits⟩ sets view)
        ⟨repoId', commits⟩ sets := by
  rw [ProjectionCursor.advanced, commits_projectGraphAfter_repoId cursor tree repoId repoId']
  rfl

end Congr

/-- The cursor of the row that a fold leaves. -/
theorem cursor_of_foldView {views : Views} {input : FoldInput} {row : Option ProjectionReadModel}
    {view : ViewId} {next : ProjectionReadModel} (h : foldView views input row view = .ok next) :
    next.cursor =
      let cursor := (row.map ProjectionReadModel.cursor).getD
        (ProjectionCursor.start (initialViews input.sets views))
      cursor.advanced (projectGraphAfter cursor input.before input.graph input.sets view) input.graph
        input.sets := by
  unfold foldView at h
  dsimp only at h
  split_ifs at h
  cases h
  rfl

namespace PushedRepository

variable {state last : PushedRepository} {view : ViewId}

/-- The rows that folds leave for a view, with the labelled files that they save and all the commits
that they projected. -/
inductive FoldedCommits (view : ViewId) :
    PushedRepository → ProjectionReadModel → LabelledTree → List ProjectedCommit → Prop
  | start {state : PushedRepository} {row : ProjectionReadModel} (h : Reachable state)
      (hfold : foldView state.repo.repoConfig.views (.load state.repo .start ∅) none view =
        .ok row) :
      FoldedCommits view state row (FoldInput.load state.repo .start ∅).after
        (projectGraph state.repo.graph state.repo.visibilityChangeSets state.repo.repoConfig.views
          view).commits
  | resume {state last : PushedRepository} {row next : ProjectionReadModel} {files : LabelledTree}
      {commits : List ProjectedCommit} (h : FoldedCommits view state row files commits)
      (hrun : ReflTransGen Step state last)
      (hfold : foldView last.repo.repoConfig.views (.load last.repo row.position files) (some row)
        view = .ok next) :
      FoldedCommits view last next (FoldInput.load last.repo row.position files).after
        (commits ++ (projectGraphAfter row.cursor files
          (FoldInput.load last.repo row.position files).graph
          (FoldInput.load last.repo row.position files).sets view).commits)

theorem FoldedCommits.folded {row : ProjectionReadModel} {files : LabelledTree}
    {commits : List ProjectedCommit} (h : FoldedCommits view state row files commits) :
    Folded view state row files := by
  induction h with
  | start h hfold => exact .start h hfold
  | resume h hrun hfold ih => exact .resume ih hrun hfold

/-- The history of a reachable repository is a run from nothing. -/
theorem Reachable.exists_run (h : Reachable state) : ∃ first, HistoryRun none ∅ first
    state.repo.graph.commits state.repo.visibilityChangeSets state.repo.labelledFiles
      state.repo.repoConfig.views := by
  obtain ⟨created, hcreated, -, -, run⟩ := h.exists_created
  rw [hcreated.eq_new.1, hcreated.labelledFiles_eq] at run
  exact ⟨_, run⟩

/-- What a later state adds to the history is a run with new commits. -/
theorem Reachable.exists_next (h : Reachable state) (hrun : ReflTransGen Step state last) :
    ∃ commits sets, Continues state last commits sets ∧
      ∀ commit ∈ commits, commit.id ∉ state.repo.graph.commits.map (·.id) ∧
        (none : Option String) ≠ some commit.id := by
  obtain ⟨commits, sets, hcontinues⟩ := h.continues hrun
  obtain ⟨first, run⟩ := (h.trans hrun).exists_run
  refine ⟨commits, sets, hcontinues, fun commit hcommit => ⟨fun hmem => ?_, nofun⟩⟩
  have hnodup := run.ids_nodup
  rw [hcontinues.1, List.map_append, List.nodup_append'] at hnodup
  exact List.disjoint_left.mp hnodup.2.2 hmem (List.mem_map_of_mem hcommit)

/-- What a fold that goes on from a state finds in a later one. -/
theorem Continues.load_eq {commits : List LogicalCommit} {sets : List VisibilityChangeSet}
    (h : Continues state last commits sets) :
    FoldInput.load last.repo state.foldPosition state.repo.labelledFiles =
      ⟨state.foldPosition, ⟨last.repo.graph.repoId, commits⟩, sets, state.repo.labelledFiles,
        last.repo.labelledFiles⟩ := by
  rw [← h.fold_eq last.repo.graph.repoId, FoldInput.load, foldPosition, h.1, h.2.1]
  dsimp only
  rw [List.drop_left, List.drop_left]

/-- The row that folds leave is that of one fold of the whole history, up to the names in the views
that it began with. -/
theorem FoldedCommits.exists_start {row : ProjectionReadModel} {files : LabelledTree}
    {commits : List ProjectedCommit} (h : FoldedCommits view state row files commits) :
    ∃ views : Views, views.visibilityShape =
        (initialViews state.repo.visibilityChangeSets state.repo.repoConfig.views).visibilityShape ∧
      commits = (projectGraphAfter (.start views) ∅ state.repo.graph state.repo.visibilityChangeSets
        view).commits ∧
      row.cursor = (ProjectionCursor.start views).advanced (projectGraphAfter (.start views) ∅
        state.repo.graph state.repo.visibilityChangeSets view) state.repo.graph
          state.repo.visibilityChangeSets := by
  induction h with
  | start h hfold => exact ⟨_, rfl, rfl, cursor_of_foldView hfold⟩
  | @resume state last row next files commits h hrun hfold ih =>
    obtain ⟨views, hviews, rfl, hcursor⟩ := ih
    obtain ⟨hreachable, hposition, -, rfl⟩ := h.folded.follows
    obtain ⟨later, sets, hcontinues, hfresh⟩ := hreachable.exists_next hrun
    obtain ⟨first, run⟩ := hreachable.exists_run
    have hnext : HistoryRun ((state.repo.graph.commits.getLast?.map (·.id)).or none)
        state.repo.labelledFiles state.repo.repoConfig.views later sets last.repo.labelledFiles
        last.repo.repoConfig.views := by
      rw [Option.or_none]
      exact hcontinues.2.2
    have hload : FoldInput.load last.repo row.position state.repo.labelledFiles =
        ⟨state.foldPosition, ⟨last.repo.graph.repoId, later⟩, sets, state.repo.labelledFiles,
          last.repo.labelledFiles⟩ := hposition ▸ hcontinues.load_eq
    have hgraph : last.repo.graph =
        ⟨last.repo.graph.repoId, state.repo.graph.commits ++ later⟩ := by rw [← hcontinues.1]
    have hstate : state.repo.graph = ⟨state.repo.graph.repoId, state.repo.graph.commits⟩ := rfl
    rw [hload] at hfold ⊢
    refine ⟨views, ?_, ?_, ?_⟩
    · rw [hviews, run.initialViews_shape _ rfl, hcontinues.2.1,
        (run.append hnext hfresh).initialViews_shape _ rfl]
    · rw [hgraph, hcontinues.2.1, run.projectGraphAfter_append hnext hfresh, hcursor, hstate,
        commits_projectGraphAfter_repoId _ ∅ state.repo.graph.repoId last.repo.graph.repoId,
        advanced_repoId _ ∅ state.repo.graph.repoId last.repo.graph.repoId]
    · rw [cursor_of_foldView hfold, hgraph, hcontinues.2.1, run.advanced_append hnext hfresh,
        Option.map_some, Option.getD_some, hcursor, hstate,
        advanced_repoId _ ∅ state.repo.graph.repoId last.repo.graph.repoId]

end PushedRepository

end ScopeVcs

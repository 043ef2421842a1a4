import ScopeVcs.Projection.ReadModel
import ScopeVcs.ReviewedUpdates.Reachable

/-! # The projections of a reachable repository

However a repository came to be, its history says the same as its live files and its policy: folding it
gives the files with their labels, and the projection for a view the files whose label the view shows.
A read model that folds the history bit by bit never finds the two apart.
-/

namespace ScopeVcs

open Mutation Relation

namespace PushedRepository

variable {state last : PushedRepository}

/-- The position of a fold of the whole history. -/
def foldPosition (state : PushedRepository) : FoldPosition :=
  ⟨state.repo.graph.commits.length, state.repo.visibilityChangeSets.length⟩

/-! ## Going on from an earlier state -/

section Resumed

variable {commits : List LogicalCommit} {sets : List VisibilityChangeSet}

/-- Folding what came after a state gives the labelled files. -/
theorem Continues.fold_eq (h : Continues state last commits sets) (repoId : String) :
    state.repo.labelledFiles.fold ⟨repoId, commits⟩ sets = last.repo.labelledFiles :=
  h.2.2.fold_eq repoId

/-- Projecting what came after a state turns what a view showed then into what it shows now. -/
theorem Continues.projectGraphAfter_applyTo (h : Continues state last commits sets)
    (cursor : ProjectionCursor)
    (hcursor : cursor.views.visibilityShape = state.repo.repoConfig.views.visibilityShape)
    (view : ViewId) (repoId : String) :
    (projectGraphAfter cursor state.repo.labelledFiles ⟨repoId, commits⟩ sets view).applyTo
        (state.repo.labelledFiles.viewFiles cursor.views view) = last.repo.shownFiles view :=
  (h.2.2.projectGraphAfter_applyTo view repoId hcursor).trans
    (Repository.viewFiles_labelledFiles last.repo view)

/-- A fold from the row of a state finds what it shows now as the labels select it, and leaves a row
of the later state. -/
theorem Continues.foldView_eq_ok (h : Continues state last commits sets)
    (row : Option ProjectionReadModel)
    (hcursor : ((row.map ProjectionReadModel.cursor).getD (ProjectionCursor.start (initialViews sets
      last.repo.repoConfig.views))).views.visibilityShape =
        state.repo.repoConfig.views.visibilityShape) (view : ViewId) :
    ∃ next, foldView last.repo.repoConfig.views (.load last.repo state.foldPosition
        state.repo.labelledFiles) row view = .ok next ∧
      next.position = last.foldPosition ∧
        next.cursor.views.visibilityShape = last.repo.repoConfig.views.visibilityShape := by
  have hinput : FoldInput.load last.repo state.foldPosition state.repo.labelledFiles =
      ⟨state.foldPosition, ⟨last.repo.graph.repoId, commits⟩, sets, state.repo.labelledFiles,
        last.repo.labelledFiles⟩ := by
    rw [← h.fold_eq last.repo.graph.repoId, FoldInput.load, foldPosition, h.1, h.2.1]
    dsimp only
    rw [List.drop_left, List.drop_left]
  rw [hinput, foldView]
  dsimp only
  rw [if_neg]
  · refine ⟨_, rfl, ?_, h.2.2.lastViews_shape hcursor⟩
    rw [foldPosition, foldPosition, h.1, h.2.1, List.length_append, List.length_append]
  · rw [not_not, h.projectGraphAfter_applyTo _ hcursor, Repository.viewFiles_labelledFiles]

end Resumed

/-! ## The whole history -/

theorem Created.labelledFiles_eq (h : Created state) : state.repo.labelledFiles = ∅ := by
  refine SortedMap.ext fun path => ?_
  rw [Repository.get?_labelledFiles, h.eq_new.2.2]
  rfl

/-- The whole history of a repository continues an empty one. -/
theorem Reachable.exists_created (h : Reachable state) :
    ∃ created, Created created ∧
      Continues created state state.repo.graph.commits state.repo.visibilityChangeSets := by
  obtain ⟨created, hcreated, hrun⟩ := h
  obtain ⟨commits, sets, hcontinues⟩ := Reachable.continues (.of_init hcreated) hrun
  obtain ⟨hcommits, hsets, -⟩ := hcreated.eq_new
  refine ⟨created, hcreated, ?_⟩
  have hwhole := hcontinues.1
  have hwholeSets := hcontinues.2.1
  rw [hcommits, List.nil_append] at hwhole
  rw [hsets, List.nil_append] at hwholeSets
  rwa [hwhole, hwholeSets]

theorem Reachable.fold_eq (h : Reachable state) :
    LabelledTree.fold ∅ state.repo.graph state.repo.visibilityChangeSets =
      state.repo.labelledFiles := by
  obtain ⟨created, hcreated, hcontinues⟩ := h.exists_created
  rw [← hcreated.labelledFiles_eq]
  exact hcontinues.fold_eq state.repo.graph.repoId

theorem Reachable.projectGraph_applyTo (h : Reachable state) (view : ViewId) :
    (projectGraph state.repo.graph state.repo.visibilityChangeSets state.repo.repoConfig.views
      view).applyTo ∅ = state.repo.shownFiles view := by
  obtain ⟨created, hcreated, hcontinues⟩ := h.exists_created
  have hproject := hcontinues.projectGraphAfter_applyTo
    (.start (initialViews state.repo.visibilityChangeSets state.repo.repoConfig.views))
    (hcontinues.2.2.initialViews_shape _ rfl) view state.repo.graph.repoId
  rwa [hcreated.labelledFiles_eq] at hproject

/-! ## Read models -/

/-- The rows that folds leave for a view, with the labelled files that they save: a fold of the whole
history, and one that goes on from a row after more updates. -/
inductive Folded (view : ViewId) : PushedRepository → ProjectionReadModel → LabelledTree → Prop
  | start {state : PushedRepository} {row : ProjectionReadModel} (h : Reachable state)
      (hfold : foldView state.repo.repoConfig.views (.load state.repo .start ∅) none view =
        .ok row) :
      Folded view state row (FoldInput.load state.repo .start ∅).after
  | resume {state last : PushedRepository} {row next : ProjectionReadModel} {files : LabelledTree}
      (h : Folded view state row files) (hrun : ReflTransGen Step state last)
      (hfold : foldView last.repo.repoConfig.views (.load last.repo row.position files) (some row)
        view = .ok next) :
      Folded view last next (FoldInput.load last.repo row.position files).after

theorem Reachable.trans (h : Reachable state) (hrun : ReflTransGen Step state last) :
    Reachable last := by
  obtain ⟨created, hcreated, hbefore⟩ := h
  exact ⟨created, hcreated, hbefore.trans hrun⟩

theorem Reachable.foldView_start (h : Reachable state) (view : ViewId) :
    ∃ row, foldView state.repo.repoConfig.views (.load state.repo .start ∅) none view = .ok row ∧
      row.position = state.foldPosition ∧
        row.cursor.views.visibilityShape = state.repo.repoConfig.views.visibilityShape := by
  obtain ⟨created, hcreated, hcontinues⟩ := h.exists_created
  have hposition : created.foldPosition = .start := by
    rw [foldPosition, hcreated.eq_new.1, hcreated.eq_new.2.1]
    rfl
  have hfold := hcontinues.foldView_eq_ok none (hcontinues.2.2.initialViews_shape _ rfl) view
  rwa [hposition, hcreated.labelledFiles_eq] at hfold

theorem Reachable.after_eq (h : Reachable state) :
    (FoldInput.load state.repo .start ∅).after = state.repo.labelledFiles :=
  h.fold_eq

/-- A row stands at the state that it was folded at, with the labelled files of that state. -/
theorem Folded.follows {view : ViewId} {row : ProjectionReadModel} {files : LabelledTree}
    (h : Folded view state row files) :
    Reachable state ∧ row.position = state.foldPosition ∧
      row.cursor.views.visibilityShape = state.repo.repoConfig.views.visibilityShape ∧
        files = state.repo.labelledFiles := by
  induction h with
  | @start state row h hfold =>
    obtain ⟨row', hrow', hposition, hcursor⟩ := h.foldView_start view
    obtain rfl := Except.ok.inj (hfold.symm.trans hrow')
    exact ⟨h, hposition, hcursor, h.after_eq⟩
  | @resume state last row next files h hrun hfold ih =>
    obtain ⟨hreachable, hposition, hcursor, rfl⟩ := ih
    obtain ⟨commits, sets, hcontinues⟩ := hreachable.continues hrun
    obtain ⟨next', hnext', hposition', hcursor'⟩ :=
      hcontinues.foldView_eq_ok (some row) hcursor view
    rw [hposition] at hfold ⊢
    obtain rfl := Except.ok.inj (hfold.symm.trans hnext')
    refine ⟨hreachable.trans hrun, hposition', hcursor', ?_⟩
    rw [FoldInput.load, foldPosition, hcontinues.1, hcontinues.2.1]
    dsimp only
    rw [List.drop_left, List.drop_left]
    exact hcontinues.fold_eq _

/-- The projection of a reachable repository for a view shows its live files whose label the view
shows, folding its history gives the live files with their labels, and no fold of the history, from
its start or from where an earlier fold stopped, finds the two apart. -/
theorem projections_follow_labels (h : Reachable state) (view : ViewId) :
    (projectGraph state.repo.graph state.repo.visibilityChangeSets state.repo.repoConfig.views
        view).applyTo ∅ = state.repo.shownFiles view ∧
      LabelledTree.fold ∅ state.repo.graph state.repo.visibilityChangeSets =
        state.repo.labelledFiles ∧
      (∃ row, foldView state.repo.repoConfig.views (.load state.repo .start ∅) none view = .ok row) ∧
      ∀ earlier row files, Folded view earlier row files → ReflTransGen Step earlier state →
        ∃ next, foldView state.repo.repoConfig.views (.load state.repo row.position files)
          (some row) view = .ok next := by
  refine ⟨h.projectGraph_applyTo view, h.fold_eq, ?_, ?_⟩
  · obtain ⟨row, hrow, -⟩ := h.foldView_start view
    exact ⟨row, hrow⟩
  · intro earlier row files hfolded hrun
    obtain ⟨hreachable, hposition, hcursor, rfl⟩ := hfolded.follows
    obtain ⟨commits, sets, hcontinues⟩ := hreachable.continues hrun
    obtain ⟨next, hnext, -⟩ := hcontinues.foldView_eq_ok (some row) hcursor view
    exact ⟨next, hposition ▸ hnext⟩

/-! ## A first push -/

namespace FirstPush

def readme : ScopePath := ⟨"/README.md", rfl⟩

def notes : ScopePath := ⟨"/notes.md", rfl⟩

def blob : SourceBlob := ⟨.blobSha256 "sha", "sha", "oid", "100644", 5⟩

def created : Repository where
  record := ⟨.awaitingFirstPush, 1, 1⟩
  repoConfig := .withDefaultView .privateView
  firstPushToken := none
  policy := .new .privateView
  graph := ⟨"owner/repo", []⟩
  visibilityChangeSets := []
  liveFiles := ∅
  gitHead := none
  collaboration := ⟨[]⟩

/-- The first push of two files, one of them made public by its configuration. -/
def update : ReviewedUpdateInput where
  occurredAtUnix := some 100
  authorId := "owner"
  message := "first push"
  gitHead := ⟨"1", 1, 2, "frontier"⟩
  mainPack := ⟨"pack", .main 1 1, "1", [], .inline []⟩
  changes := [⟨readme, some blob⟩, ⟨notes, some blob⟩]
  previousConfig := none
  config := { RepoConfig.withDefaultView .privateView with
    files := ⟨.privateView, [⟨"/README.md", .publicView⟩]⟩ }
  openRequestsByView := ∅

def pushed : PushedRepository := ⟨final (applyReviewedUpdateToRepo update) created, ["1"]⟩

theorem reachable_pushed : Reachable pushed := by
  have hcreated : Created ⟨created, []⟩ := ⟨⟨"Owner", "repo", .privateView, "i", rfl⟩, rfl⟩
  refine Transition.Reachable.tail (.of_init hcreated) ?_
  exact ⟨.push update, rfl, by decide, by decide, ⟨update.mainPack, rfl⟩, rfl⟩

/-- The public projection of a first push has the one public file. -/
theorem public_projection : (projectGraph pushed.repo.graph pushed.repo.visibilityChangeSets
    pushed.repo.repoConfig.views .publicView).applyTo ∅ = .ofList [(readme, blob)] :=
  (projections_follow_labels reachable_pushed .publicView).1.trans (by decide +kernel)

end FirstPush

end PushedRepository

end ScopeVcs

import ScopeVcs.ReviewedUpdates.IncrementalProjection
import ScopeVcs.ReviewedUpdates.Rewriting

/-! # What a redaction leaves visible

After an update with rewrites a narrower view sees nothing of a redacted path in what is older than
the update, and no merge from the first redacted step on stands for its native commits.
-/

namespace ScopeVcs

open Relation

/-! ## Hidden paths -/

section Hidden

variable {hidden : ScopePath → Prop} {view : ViewId} {cursor : ProjectionCursor}
  {graph : SourceGraph} {fold : ViewFold}

/-- A step gives hidden paths no other label than the full view's, and does not relabel them. -/
def FoldStep.Hides (hidden : ScopePath → Prop) : FoldStep → Prop
  | .commit logical => ∀ change ∈ logical.changes, hidden change.path → change.label = .privateView
  | .set changeSet => ∀ change ∈ changeSet.changes, ¬hidden change.path

/-- The hidden files carry the full view's label. -/
def LabelledTree.Hides (hidden : ScopePath → Prop) (tree : LabelledTree) : Prop :=
  ∀ path file, tree.get? path = some file → hidden path → file.2 = .privateView

/-- The hidden files are hidden, and no projected commit changes one. -/
structure ViewFold.Hides (hidden : ScopePath → Prop) (fold : ViewFold) : Prop where
  files : ∀ tree ∈ fold.tree, tree.Hides hidden
  commits : ∀ projected ∈ fold.commits, ∀ change ∈ projected.changes, ¬hidden change.path

theorem not_hidden_of_visibleChanges {views : Views} {logical : LogicalCommit}
    (hview : view ≠ .privateView) (hstep : (FoldStep.commit logical).Hides hidden) :
    ∀ change ∈ visibleChanges views view logical, ¬hidden change.path := by
  intro projected hprojected hpath
  obtain ⟨change, hchange, rfl⟩ := List.mem_map.mp hprojected
  obtain ⟨hmem, hshown⟩ := List.mem_filter.mp hchange
  have hlabel : change.label = .privateView := hstep change hmem hpath
  rw [hlabel, Views.not_shows_privateView hview] at hshown
  cases hshown

theorem not_hidden_of_setChanges {before after : Views} {source : Option LogicalCommit}
    {tree : Option LabelledTree} {set : VisibilityChangeSet} (hview : view ≠ .privateView)
    (hstep : (FoldStep.set set).Hides hidden) (hfiles : ∀ kept ∈ tree, kept.Hides hidden) :
    ∀ change ∈ setChanges before after view source tree set, ¬hidden change.path := by
  intro projected hprojected hpath
  rcases List.mem_append.mp hprojected with hrelabel | hboundary
  · obtain ⟨change, hchange, hvisible⟩ := List.mem_filterMap.mp hrelabel
    rw [path_of_visibleRelabel hvisible] at hpath
    exact hstep change hchange hpath
  · cases hviews : set.views with
    | none =>
      rw [hviews] at hboundary
      cases hboundary
    | some transition =>
      cases tree with
      | none =>
        rw [hviews] at hboundary
        cases hboundary
      | some kept =>
        rw [hviews] at hboundary
        obtain ⟨entry, hentry, hvisible⟩ := List.mem_filterMap.mp hboundary
        rw [path_of_boundaryChange hvisible] at hpath
        have hlabel : entry.2.2 = .privateView := hfiles kept rfl entry.1 entry.2
          (SortedMap.mem_entries_iff.mp (List.mem_filter.mp hentry).1) hpath
        rw [boundaryChange, hlabel, Views.not_shows_privateView hview,
          Views.not_shows_privateView hview] at hvisible
        cases hvisible

theorem LabelledTree.Hides.applyCommit {tree : LabelledTree} (h : tree.Hides hidden)
    {logical : LogicalCommit} (hstep : (FoldStep.commit logical).Hides hidden) :
    (tree.applyCommit logical).Hides hidden := by
  refine List.foldlRecOn logical.changes _ h fun tree htree change hchange path file hget hpath => ?_
  by_cases heq : path = change.path
  · subst heq
    rw [get?_applyChange_self] at hget
    obtain ⟨blob, -, rfl⟩ := Option.map_eq_some_iff.mp hget
    exact hstep change hchange hpath
  · rw [get?_applyChange_of_ne tree change path heq] at hget
    exact htree path file hget hpath

theorem LabelledTree.Hides.relabel {tree : LabelledTree} (h : tree.Hides hidden)
    {set : VisibilityChangeSet} (hstep : (FoldStep.set set).Hides hidden) :
    (tree.relabel set).Hides hidden := by
  intro path file hget hpath
  rw [LabelledTree.relabel, get?_relabelChanges_of_ne fun change hchange heq =>
    hstep change hchange (heq ▸ hpath)] at hget
  exact h path file hget hpath

theorem ViewFold.Hides.commit (h : fold.Hides hidden) (hview : view ≠ .privateView)
    {logical : LogicalCommit} (hstep : (FoldStep.commit logical).Hides hidden) :
    (fold.commit cursor view logical).Hides hidden where
  files := by
    intro tree htree
    rw [tree_commit] at htree
    obtain ⟨before, hbefore, rfl⟩ := Option.map_eq_some_iff.mp htree
    exact (h.files before hbefore).applyCommit hstep
  commits := by
    have hvisible : ∀ change ∈ visibleChanges fold.views view logical, ¬hidden change.path :=
      not_hidden_of_visibleChanges hview hstep
    show ∀ projected ∈ (fold.projectContent cursor view logical).commits, _
    unfold ViewFold.projectContent
    dsimp only
    by_cases hnative :
      preservedNative view logical (visibleChanges fold.views view logical).length ≠ []
    · rw [if_pos hnative]
      intro projected hprojected change hchange
      rcases List.mem_append.mp hprojected with hbefore | hadded
      · exact h.commits projected hbefore change hchange
      · obtain ⟨index, hindex, rfl⟩ := List.mem_mapIdx.mp hadded
        rw [preservedCommit] at hchange
        split_ifs at hchange
        · exact hvisible change hchange
        · cases hchange
    · rw [if_neg hnative]
      by_cases hnothing : visibleChanges fold.views view logical = []
      · rw [if_pos hnothing]
        exact h.commits
      · rw [if_neg hnothing]
        intro projected hprojected change hchange
        rcases List.mem_append.mp hprojected with hbefore | hadded
        · exact h.commits projected hbefore change hchange
        · obtain rfl := List.mem_singleton.mp hadded
          exact hvisible change hchange

theorem ViewFold.Hides.set (h : fold.Hides hidden) (hview : view ≠ .privateView)
    {set : VisibilityChangeSet} (hstep : (FoldStep.set set).Hides hidden) :
    (fold.set cursor view graph set).Hides hidden where
  files := by
    intro tree htree
    rw [tree_set] at htree
    obtain ⟨before, hbefore, rfl⟩ := Option.map_eq_some_iff.mp htree
    exact (h.files before hbefore).relabel hstep
  commits := by
    have hvisible : ∀ change ∈ setChanges ((set.views.map (·.before)).getD fold.views)
        ((set.views.map (·.after)).getD fold.views) view (sourceUpdate graph set) fold.tree set,
        ¬hidden change.path := not_hidden_of_setChanges hview hstep h.files
    unfold ViewFold.set
    dsimp only
    by_cases hnothing : setChanges ((set.views.map (·.before)).getD fold.views)
        ((set.views.map (·.after)).getD fold.views) view (sourceUpdate graph set) fold.tree set = []
    · rw [if_pos hnothing]
      exact h.commits
    · rw [if_neg hnothing]
      intro projected hprojected change hchange
      rcases List.mem_append.mp hprojected with hbefore | hadded
      · exact h.commits projected hbefore change hchange
      · obtain rfl := List.mem_singleton.mp hadded
        exact hvisible change hchange

/-- If no step shows a hidden path, no projected commit of a narrower view changes one. -/
theorem ViewFold.Hides.foldl {steps : List FoldStep} (h : fold.Hides hidden)
    (hview : view ≠ .privateView) (hsteps : ∀ step ∈ steps, step.Hides hidden) :
    (steps.foldl (ViewFold.step cursor view graph) fold).Hides hidden := by
  refine List.foldlRecOn steps _ h fun fold hfold step hstep => ?_
  have hhides := hsteps step hstep
  cases step with
  | commit logical => exact hfold.commit hview hhides
  | set set => exact hfold.set hview hhides

end Hidden

/-! ## Preserved merges -/

section Preserved

variable {view : ViewId} {cursor : ProjectionCursor} {graph : SourceGraph} {fold : ViewFold}
  {commits : List LogicalCommit}

/-- The commits that a projection preserves are the native commits of merges that still stand for
them. -/
def ViewFold.PreservesFrom (commits : List LogicalCommit) (fold : ViewFold) : Prop :=
  ∀ projected ∈ fold.commits, projected.materialization ≠ .generate →
    ∃ commit ∈ commits, projected.logicalCommitId = commit.id ∧ commit.origin.preserves = true

theorem preserves_of_preservedNative {logical : LogicalCommit} {visible : ℕ}
    (h : preservedNative view logical visible ≠ []) : logical.origin.preserves = true := by
  unfold preservedNative at h
  split at h
  · next horigin =>
    rw [horigin]
    rfl
  · exact absurd rfl h

theorem ViewFold.PreservesFrom.commit (h : fold.PreservesFrom commits) {logical : LogicalCommit}
    (hmem : logical ∈ commits) : (fold.commit cursor view logical).PreservesFrom commits := by
  show (fold.projectContent cursor view logical).PreservesFrom commits
  unfold ViewFold.projectContent
  dsimp only
  by_cases hnative :
    preservedNative view logical (visibleChanges fold.views view logical).length ≠ []
  · rw [if_pos hnative]
    intro projected hprojected hpreserved
    rcases List.mem_append.mp hprojected with hbefore | hadded
    · exact h projected hbefore hpreserved
    · obtain ⟨index, hindex, rfl⟩ := List.mem_mapIdx.mp hadded
      exact ⟨logical, hmem, rfl, preserves_of_preservedNative hnative⟩
  · rw [if_neg hnative]
    by_cases hnothing : visibleChanges fold.views view logical = []
    · rwa [if_pos hnothing]
    · rw [if_neg hnothing]
      intro projected hprojected hpreserved
      rcases List.mem_append.mp hprojected with hbefore | hadded
      · exact h projected hbefore hpreserved
      · obtain rfl := List.mem_singleton.mp hadded
        exact absurd rfl hpreserved

theorem ViewFold.PreservesFrom.set (h : fold.PreservesFrom commits) (set : VisibilityChangeSet) :
    (fold.set cursor view graph set).PreservesFrom commits := by
  unfold ViewFold.set
  dsimp only
  by_cases hnothing : setChanges ((set.views.map (·.before)).getD fold.views)
      ((set.views.map (·.after)).getD fold.views) view (sourceUpdate graph set) fold.tree set = []
  · rw [if_pos hnothing]
    exact h
  · rw [if_neg hnothing]
    intro projected hprojected hpreserved
    rcases List.mem_append.mp hprojected with hbefore | hadded
    · exact h projected hbefore hpreserved
    · obtain rfl := List.mem_singleton.mp hadded
      exact absurd rfl hpreserved

theorem ViewFold.PreservesFrom.foldl {steps : List FoldStep} (h : fold.PreservesFrom commits)
    (hsteps : ∀ logical, .commit logical ∈ steps → logical ∈ commits) :
    (steps.foldl (ViewFold.step cursor view graph) fold).PreservesFrom commits := by
  refine List.foldlRecOn steps _ h fun fold hfold step hstep => ?_
  cases step with
  | commit logical => exact hfold.commit (hsteps logical hstep)
  | set set => exact hfold.set set

end Preserved

/-! ## The rewritten history -/

section Rewritten

variable {plain : ScopePath → Prop} {repo : Repository} {rewrites : List HistoryRewriteRequest}

/-- The rewrites redact nothing up to a commit. -/
structure Repository.UnredactedUpTo (repo : Repository) (rewrites : List HistoryRewriteRequest)
    (index : ℕ) : Prop where
  commits : ∀ i ≤ index, ∀ commit ∈ repo.graph.commits[i]?, commit.isRedacted rewrites = false
  sets : ∀ set ∈ repo.visibilityChangeSets, set.isRedacted rewrites = true →
    index < repo.anchorIndex set

theorem unredactedUpTo_of_not_invalidated {index : ℕ}
    (h : (repo.invalidatePreservationFrom rewrites).any (· ≤ index) = false) :
    repo.UnredactedUpTo rewrites index := by
  rw [← Bool.not_eq_true, Repository.invalidatePreservationFrom,
    any_foldl_earliest (·.isRedacted rewrites) repo.anchorIndex,
    any_foldl_earliest (fun entry : LogicalCommit × ℕ => entry.1.isRedacted rewrites) Prod.snd,
    Option.any_none] at h
  push Not at h
  obtain ⟨⟨-, hcommits⟩, hsets⟩ := h
  refine ⟨fun i hi commit hcommit => ?_, fun set hset hredacted => hsets set hset hredacted⟩
  rw [← Bool.not_eq_true]
  intro hredacted
  have hlater : index < i := hcommits (commit, i) (List.mem_zipIdx_iff_getElem?.mpr hcommit) hredacted
  omega

theorem isRedacted_nil (commit : LogicalCommit) : commit.isRedacted [] = false := by
  simp [LogicalCommit.isRedacted, FileChange.isRedacted, shouldRedact]

/-- A merge that still stands for its native commits is one before the first redacted step. -/
theorem exists_of_preserves {commit : LogicalCommit}
    (hmem : commit ∈ (repo.rewritten rewrites).graph.commits) (hpreserves : commit.origin.preserves = true) :
    ∃ index, ∃ original ∈ repo.graph.commits[index]?, original.id = commit.id ∧
      repo.UnredactedUpTo rewrites index := by
  unfold Repository.rewritten at hmem
  split_ifs at hmem with hnone
  · obtain ⟨index, hindex⟩ := List.mem_iff_getElem?.mp hmem
    refine ⟨index, commit, hindex, rfl, ?_, ?_⟩
    · intro i _ before _
      rw [List.isEmpty_iff.mp hnone]
      exact isRedacted_nil before
    · intro set _ hredacted
      rw [List.isEmpty_iff.mp hnone, VisibilityChangeSet.isRedacted] at hredacted
      simp [shouldRedact] at hredacted
  · obtain ⟨index, hindex, rfl⟩ := List.mem_mapIdx.mp hmem
    refine ⟨index, _, List.getElem?_eq_getElem hindex, rfl, unredactedUpTo_of_not_invalidated ?_⟩
    rw [← Bool.not_eq_true]
    intro hinvalidated
    rw [LogicalCommit.redact, if_pos hinvalidated] at hpreserves
    revert hpreserves
    cases (repo.graph.commits[index]).origin <;> exact Bool.false_ne_true

/-- No step of the rewritten history shows a path that the rewrites match. -/
theorem hides_rewritten
    (hlabels : PlainHistory plain repo.graph.commits repo.visibilityChangeSets)
    (hmatched : ∀ path, shouldRedact rewrites path = true → plain path) :
    ∀ step ∈ foldSteps (repo.rewritten rewrites).graph (repo.rewritten rewrites).visibilityChangeSets,
      step.Hides fun path => shouldRedact rewrites path = true := by
  intro step hstep
  cases step with
  | commit logical =>
    have hmem := mem_commits_of_foldSteps hstep
    intro change hchange hredact
    unfold Repository.rewritten at hmem
    split_ifs at hmem with hnone
    · rw [List.isEmpty_iff.mp hnone] at hredact
      cases hredact
    · obtain ⟨index, hindex, rfl⟩ := List.mem_mapIdx.mp hmem
      obtain ⟨written, hwritten, rfl⟩ := LogicalCommit.mem_redact_changes.mp hchange
      exact redactLabel_of_builtin (hlabels.commits _ (List.getElem_mem hindex) written hwritten
        (hmatched _ hredact)) hredact
  | set set =>
    have hmem := mem_foldSteps hstep
    intro change hchange hredact
    unfold Repository.rewritten at hmem
    split_ifs at hmem with hnone
    · rw [List.isEmpty_iff.mp hnone] at hredact
      cases hredact
    · obtain ⟨original, -, rfl⟩ := List.mem_map.mp (List.mem_filter.mp hmem).1
      have hkept := (List.mem_filter.mp hchange).2
      rw [hredact] at hkept
      cases hkept

end Rewritten

/-! ## Redaction is complete -/

namespace PushedRepository

variable {plain : ScopePath → Prop} {state next : PushedRepository} {update : RepositoryUpdate}
  {view : ViewId}

/-- The projection after an update is that of the rewritten history, and then what the update
appended. -/
theorem Tracked.exists_added (h : Tracked plain state)
    (hupdate : PlainUpdate plain update state next) (view : ViewId) :
    ∃ commit? set? cursor tree,
      let base := state.repo.rewritten (update.rewrites state.repo)
      next.repo.graph.commits = base.graph.commits ++ Option.toList commit? ∧
      next.repo.visibilityChangeSets = base.visibilityChangeSets ++ Option.toList set? ∧
      (projectGraph next.repo.graph next.repo.visibilityChangeSets next.repo.repoConfig.views
        view).commits =
        (projectGraph base.graph base.visibilityChangeSets state.repo.repoConfig.views
          view).commits ++ (projectGraphAfter cursor tree ⟨next.repo.graph.repoId,
            Option.toList commit?⟩ (Option.toList set?) view).commits := by
  obtain ⟨first, run⟩ := h.run
  obtain ⟨set?, commit?, hrecords, -⟩ := hupdate.exists_redacts h.plainRepository
  obtain ⟨run', -⟩ := run.rewritten h.labels fun path => hupdate.matched
  have happends := h.appendsTo hupdate hrecords
  have hfits := hrecords.fits
  rw [rewritten_repoConfig] at hfits
  set base := state.repo.rewritten (update.rewrites state.repo)
  have hsingle : AppendsTo ((base.graph.commits.getLast?.map (·.id)).or none) []
      state.repo.repoConfig.views next.repo.repoConfig.views set? commit? := {
    transition := happends.transition
    anchored := happends.anchored
    source := happends.source
    fresh := by
      intro commit hcommit
      refine ⟨List.not_mem_nil, fun heq => ?_⟩
      rw [Option.or_none] at heq
      obtain ⟨last, hlast, hid⟩ := Option.map_eq_some_iff.mp heq
      refine (happends.fresh commit hcommit).1 ?_
      rw [← hid]
      exact List.mem_map_of_mem (List.mem_of_getLast? hlast) }
  have hadded := HistoryRun.update .nil hsingle hfits
  rw [List.nil_append, List.nil_append] at hadded
  have hfresh : ∀ commit ∈ commit?.toList, commit.id ∉ base.graph.commits.map (·.id) ∧
      (none : Option String) ≠ some commit.id :=
    fun commit hcommit => happends.fresh commit (Option.mem_toList.mp hcommit)
  have hwhole := run'.append hadded hfresh
  have hgraph : next.repo.graph =
      ⟨next.repo.graph.repoId, base.graph.commits ++ commit?.toList⟩ := by rw [← hrecords.commits]
  have hshape := hwhole.initialViews_shape next.repo.repoConfig.views rfl
  rw [← run'.initialViews_shape state.repo.repoConfig.views rfl] at hshape
  have hold : (projectGraphAfter (.start (initialViews (base.visibilityChangeSets ++ set?.toList)
      next.repo.repoConfig.views)) ∅ ⟨next.repo.graph.repoId, base.graph.commits⟩
        base.visibilityChangeSets view).commits =
      (projectGraph base.graph base.visibilityChangeSets state.repo.repoConfig.views
        view).commits := by
    rw [commits_projectGraphAfter_repoId _ ∅ next.repo.graph.repoId base.graph.repoId]
    refine projectGraphAfter_congr ?_ ?_ hshape _ _ _ <;> rfl
  have hprojected := run'.projectGraphAfter_append hadded hfresh view
    (.start (initialViews (base.visibilityChangeSets ++ set?.toList) next.repo.repoConfig.views))
    next.repo.graph.repoId
  dsimp only at hprojected
  rw [hold, ← hgraph, ← hrecords.sets] at hprojected
  exact ⟨commit?, set?, _, _, hrecords.commits, hrecords.sets, hprojected⟩

theorem Tracked.hides (h : Tracked plain state) (hupdate : PlainUpdate plain update state next)
    (hview : view ≠ .privateView) :
    let base := state.repo.rewritten (update.rewrites state.repo)
    ∀ projected ∈ (projectGraph base.graph base.visibilityChangeSets state.repo.repoConfig.views
      view).commits, ∀ change ∈ projected.changes,
        shouldRedact (update.rewrites state.repo) change.path = false := by
  intro base projected hprojected change hchange
  rw [projectGraph, projectGraphAfter_of_ne hview] at hprojected
  have hsteps : ∀ step ∈ foldSteps base.graph base.visibilityChangeSets,
      step.Hides fun path => shouldRedact (update.rewrites state.repo) path = true :=
    hides_rewritten h.labels fun path => hupdate.matched
  have hstart : (ProjectionCursor.initialFold (.start (initialViews base.visibilityChangeSets
      state.repo.repoConfig.views)) ∅ base.visibilityChangeSets).Hides
        fun path => shouldRedact (update.rewrites state.repo) path = true := by
    constructor
    · intro tree htree path file hfile
      obtain rfl := eq_of_initialFold_tree htree
      cases hfile
    · exact fun projected hprojected => absurd hprojected List.not_mem_nil
  have hhides := (hstart.foldl hview hsteps).commits projected hprojected change hchange
  exact Bool.not_eq_true _ ▸ hhides

/-- What a narrower view preserves of a rewritten history lies before the first redacted step. -/
theorem exists_unredacted (repo : Repository) (rewrites : List HistoryRewriteRequest)
    (hview : view ≠ .privateView) :
    ∀ projected ∈ (projectGraph (repo.rewritten rewrites).graph
      (repo.rewritten rewrites).visibilityChangeSets repo.repoConfig.views view).commits,
        projected.materialization ≠ .generate → ∃ index, ∃ merge ∈ repo.graph.commits[index]?,
          merge.id = projected.logicalCommitId ∧ repo.UnredactedUpTo rewrites index := by
  intro projected hprojected hpreserved
  rw [projectGraph, projectGraphAfter_of_ne hview] at hprojected
  have hstart : (ProjectionCursor.initialFold (.start (initialViews
      (repo.rewritten rewrites).visibilityChangeSets repo.repoConfig.views)) ∅
        (repo.rewritten rewrites).visibilityChangeSets).PreservesFrom
          (repo.rewritten rewrites).graph.commits :=
    fun projected hprojected => absurd hprojected List.not_mem_nil
  obtain ⟨commit, hcommit, hid, hpreserves⟩ :=
    hstart.foldl (fun logical => mem_commits_of_foldSteps) projected hprojected hpreserved
  obtain ⟨index, original, horiginal, heq, hunredacted⟩ := exists_of_preserves hcommit hpreserves
  exact ⟨index, original, horiginal, heq.trans hid.symm, hunredacted⟩

/-- After an update with rewrites a narrower view sees what it sees of the rewritten history, and then
what the update appended. In the former no commit changes a path that the rewrites match, and one that
is preserved as it is belongs to a merge before the first redacted step. -/
theorem redaction_complete (h : Transition.Reachable Created (RewritingStep plain) state)
    (hupdate : PlainUpdate plain update state next)
    (hview : view ≠ next.repo.repoConfig.views.full) :
    let base := state.repo.rewritten (update.rewrites state.repo)
    let old := (projectGraph base.graph base.visibilityChangeSets state.repo.repoConfig.views
      view).commits
    (∃ commit? set? cursor tree,
      next.repo.graph.commits = base.graph.commits ++ Option.toList commit? ∧
      next.repo.visibilityChangeSets = base.visibilityChangeSets ++ Option.toList set? ∧
      (projectGraph next.repo.graph next.repo.visibilityChangeSets next.repo.repoConfig.views
        view).commits = old ++ (projectGraphAfter cursor tree ⟨next.repo.graph.repoId,
          Option.toList commit?⟩ (Option.toList set?) view).commits) ∧
    (∀ projected ∈ old, ∀ change ∈ projected.changes,
      shouldRedact (update.rewrites state.repo) change.path = false) ∧
    ∀ projected ∈ old, projected.materialization ≠ .generate → ∃ index,
      ∃ merge ∈ state.repo.graph.commits[index]?, merge.id = projected.logicalCommitId ∧
        state.repo.UnredactedUpTo (update.rewrites state.repo) index := by
  have htracked := tracked_of_reachable h
  rw [Views.full_eq] at hview
  exact ⟨htracked.exists_added hupdate view, htracked.hides hupdate hview,
    exists_unredacted _ _ hview⟩

/-- The rewrites of the second push. -/
def SecondPush.rewrites : List HistoryRewriteRequest :=
  (RepositoryUpdate.push secondUpdate).rewrites FirstPush.pushed.repo

/-- The repository of the first push with its history rewritten by the second. -/
def SecondPush.base : Repository := FirstPush.pushed.repo.rewritten rewrites

/-- After the second push no change that the public saw of the first one is to a redacted path. -/
theorem redacted_second_push :
    ((projectGraph SecondPush.base.graph SecondPush.base.visibilityChangeSets
      FirstPush.pushed.repo.repoConfig.views .publicView).commits.flatMap (·.changes)).all
        (fun change => !shouldRedact SecondPush.rewrites change.path) = true := by
  have hview : ViewId.publicView ≠ SecondPush.pushed.repo.repoConfig.views.full := by decide
  have hhides :=
    (redaction_complete SecondPush.reachable_first SecondPush.plainUpdate_pushed hview).2.1
  refine List.all_eq_true.mpr fun change hchange => ?_
  obtain ⟨projected, hprojected, hchange⟩ := List.mem_flatMap.mp hchange
  rw [SecondPush.rewrites, hhides projected hprojected change hchange]
  rfl

end PushedRepository

end ScopeVcs

import ScopeVcs.History.ReadModel
import ScopeVcs.ReviewedUpdates.IncrementalProjection
import ScopeVcs.ReviewedUpdates.RecordedFiles

/-! # The history of a repository

Reading the history of a view back gives the files of the repository that the view shows, and the
stored entries are those of the whole history however the folds fall between the updates.
-/

namespace ScopeVcs

open Relation

/-! ## Trees by path -/

namespace HistoryTree

variable {tree : HistoryTree}

/-- Every file is under its own path. -/
def Keyed (tree : HistoryTree) : Prop := ∀ path file, tree.get? path = some file → file.path = path

theorem Keyed.applyFile (h : tree.Keyed) (file : HistoryEntryFile) : (tree.applyFile file).Keyed := by
  intro path found hfound
  unfold HistoryTree.applyFile at hfound
  cases hcontent : file.newContent with
  | none =>
    rw [hcontent, SortedMap.get?_erase] at hfound
    split_ifs at hfound
    exact h path found hfound
  | some content =>
    rw [hcontent, SortedMap.get?_insert] at hfound
    split_ifs at hfound with hpath
    · obtain rfl := Option.some_inj.mp hfound
      exact hpath.symm
    · exact h path found hfound

theorem Keyed.applyVisibilityChange (h : tree.Keyed) (change : HistoryEntryVisibilityChange) :
    (tree.applyVisibilityChange change).Keyed := by
  unfold HistoryTree.applyVisibilityChange
  cases change.file with
  | some file => exact h.applyFile file
  | none =>
    dsimp only
    cases hfile : tree.get? change.path with
    | none => exact h
    | some file =>
      intro path found hfound
      rw [SortedMap.get?_insert] at hfound
      split_ifs at hfound with hpath
      · obtain rfl := Option.some_inj.mp hfound
        exact (h _ file hfile).trans hpath.symm
      · exact h path found hfound

theorem keyed_applyEntries (entries : List ViewHistoryEntry) :
    (entries.foldl HistoryTree.applyEntry ∅).Keyed := by
  refine List.foldlRecOn entries _ (fun _ _ h => by cases h) fun tree h entry _ => ?_
  have hfiles : (entry.files.foldl HistoryTree.applyFile tree).Keyed :=
    List.foldlRecOn entry.files _ h fun tree h file _ => h.applyFile file
  exact List.foldlRecOn entry.visibilityChanges _ hfiles fun tree h change _ =>
    h.applyVisibilityChange change

/-- The contents of a tree in the order of the paths. -/
theorem entries_contents (h : tree.Keyed) :
    (tree.entries.map Prod.snd).map (fun file => (file.path, file.content)) =
      tree.contents.entries := by
  rw [List.map_map]
  refine List.map_congr_left fun entry hentry => ?_
  exact congrArg (Prod.mk · entry.2.content)
    (h entry.1 entry.2 (SortedMap.mem_entries_iff.mp hentry))

theorem entries_ofLabelled (files : LabelledTree) :
    (HistoryTree.ofLabelled files).entries.map Prod.snd =
      files.entries.map fun entry => ⟨entry.1, entry.2.1, entry.2.2⟩ := by
  rw [HistoryTree.ofLabelled, SortedMap.mapValues, List.map_map]
  rfl

end HistoryTree

/-! ## Histories of runs from nothing -/

section Runs

variable {graph : SourceGraph} {sets : List VisibilityChangeSet} {tree : LabelledTree}
  {first views : Views} {view : ViewId} (digest : HistoryDigest)

theorem reverse_historyView : (historyView digest graph sets views view).entries.reverse =
    withParents none (unlinkedEntries (.replay ∅ (projectGraph graph sets views view)) views view
      graph.commits sets) := by
  rw [historyView, historyEntriesAfter]
  dsimp only
  rw [List.reverse_reverse, linkEntries_fst]
  rfl

theorem applyEntries_historyView (tree : HistoryTree) :
    (historyView digest graph sets views view).entries.reverse.foldl HistoryTree.applyEntry tree =
      (unlinkedEntries (.replay ∅ (projectGraph graph sets views view)) views view graph.commits
        sets).foldl HistoryTree.applyEntry tree := by
  rw [historyView, historyEntriesAfter]
  dsimp only
  rw [List.reverse_reverse, applyEntries_linkEntries]

variable (run : HistoryRun none ∅ first graph.commits sets tree views)
  (records : RecordsFiles ∅ graph.commits sets)

include run records

theorem HistoryRun.contents_historyView (view : ViewId) :
    ((historyView digest graph sets views view).entries.reverse.foldl HistoryTree.applyEntry
      ∅).contents = tree.viewFiles views view := by
  have hcursor : (ProjectionCursor.start (initialViews sets views)).views.visibilityShape =
      first.visibilityShape := run.initialViews_shape views rfl
  rw [applyEntries_historyView, HistoryTree.contents_applyEntries]
  exact run.written_unlinkedEntries records hcursor graph.repoId

theorem HistoryRun.labelled_historyView :
    (historyView digest graph sets views .privateView).entries.reverse.foldl HistoryTree.applyEntry
      ∅ = .ofLabelled tree := by
  have hcursor : (ProjectionCursor.start (initialViews sets views)).views.visibilityShape =
      first.visibilityShape := run.initialViews_shape views rfl
  rw [applyEntries_historyView]
  exact run.applyEntries_full records hcursor graph.repoId

end Runs

/-! ## Ids of entries -/

section Ids

variable {projected : ProjectionHistory} {views : Views} {view : ViewId}
  {commits : List LogicalCommit} {sets : List VisibilityChangeSet}

/-- The id that the entry of a step has. -/
def stepId : FoldStep → String
  | .commit logical => logical.id
  | .set set => set.id

theorem ids_stepEntries (step : FoldStep) :
    ((stepEntries projected views view commits sets step).map (·.id)).Sublist [stepId step] := by
  have hoption : ∀ (found : Option ViewHistoryEntry) (id : String),
      (∀ entry ∈ found, entry.id = id) → (found.toList.map (·.id)).Sublist [id] := by
    intro found id hid
    cases found with
    | none => exact List.nil_sublist _
    | some entry => exact hid entry rfl ▸ List.Sublist.refl _
  cases step with
  | commit logical =>
    refine hoption _ _ fun entry hentry => ?_
    unfold contentAction at hentry
    obtain ⟨-, hentry⟩ := Option.ite_none_left_eq_some.mp hentry
    rw [← Option.some_inj.mp hentry]
    rfl
  | set set =>
    rw [stepEntries]
    split_ifs
    · exact List.nil_sublist _
    · refine hoption _ _ fun entry hentry => ?_
      unfold visibilityAction at hentry
      dsimp only at hentry
      cases hviews : set.views with
      | some transition =>
        rw [hviews] at hentry
        cases hentry
        rfl
      | none =>
        rw [hviews] at hentry
        obtain ⟨-, hentry⟩ := Option.ite_none_left_eq_some.mp hentry
        rw [← Option.some_inj.mp hentry]
        rfl

variable {anchor : Option String} {start tree : LabelledTree} {first after : Views}

/-- The steps of a run are its change sets and its commits. -/
theorem HistoryRun.foldSteps_perm (run : HistoryRun anchor start first commits sets tree after)
    (repoId : String) : (foldSteps ⟨repoId, commits⟩ sets).Perm
      (sets.map FoldStep.set ++ commits.map FoldStep.commit) := by
  induction run with
  | nil => exact List.Perm.refl _
  | @update commits sets tree before after set? commit? run appends fits ih =>
    rw [run.foldSteps_update appends, List.map_append, List.map_append, List.append_assoc]
    refine (ih.append_right _).trans ?_
    rw [List.append_assoc]
    exact (List.perm_append_comm_assoc _ _ _).append_left _

/-- Every commit and every change set has at most one entry, under its own id. -/
theorem HistoryRun.ids_unlinkedEntries_nodup
    (run : HistoryRun anchor start first commits sets tree after) (hsets : (sets.map (·.id)).Nodup)
    (hdisjoint : ∀ commit ∈ commits, ∀ set ∈ sets, commit.id ≠ set.id) :
    ((unlinkedEntries projected views view commits sets).map (·.id)).Nodup := by
  have hsteps : unlinkedEntries projected views view commits sets =
      (foldSteps ⟨"", commits⟩ sets).flatMap (stepEntries projected views view commits sets) :=
    unlinkedEntries_eq_flatMap run.ids_nodup
  have hsublist : ∀ steps : List FoldStep,
      ((steps.flatMap (stepEntries projected views view commits sets)).map (·.id)).Sublist
        (steps.map stepId) := by
    intro steps
    induction steps with
    | nil => exact List.Sublist.refl _
    | cons step steps ih =>
      rw [List.flatMap_cons, List.map_append, List.map_cons]
      exact (ids_stepEntries step).append ih
  rw [hsteps]
  refine (hsublist _).nodup (((run.foldSteps_perm "").map stepId).nodup_iff.mpr ?_)
  rw [List.map_append, List.map_map, List.map_map, List.nodup_append']
  refine ⟨hsets, run.ids_nodup, List.disjoint_left.mpr fun id hset hcommit => ?_⟩
  obtain ⟨set, hmem, rfl⟩ := List.mem_map.mp hset
  obtain ⟨commit, hcommit, heq⟩ := List.mem_map.mp hcommit
  exact hdisjoint commit hcommit set hmem heq

end Ids

namespace PushedRepository

variable {plain : ScopePath → Prop} {state last : PushedRepository} {view : ViewId}

/-! ## The tree of a history -/

/-- Reading the history of a view back, rewrites included, gives the live files that the view shows,
and in the full view the live files with their labels. -/
theorem history_tree_shows_files (h : Transition.Reachable Created (RewritingStep plain) state)
    (hversion : state.repo.record.changeVersion < U64.maxU64) (digest : HistoryDigest)
    (view : ViewId) :
    let entries (view : ViewId) := (historyView digest state.repo.graph
      state.repo.visibilityChangeSets state.repo.repoConfig.views view).entries.reverse
    (historyTree (entries view)).map (fun file => (file.path, file.content)) =
        (state.repo.shownFiles view).entries ∧
      historyTree (entries .privateView) = state.repo.labelledFiles.entries.map fun entry =>
        ⟨entry.1, entry.2.1, entry.2.2⟩ := by
  obtain ⟨first, run⟩ := (tracked_of_reachable h).run
  have hrecords := (recorded_of_rewriting h).records hversion
  intro entries
  constructor
  · rw [historyTree, HistoryTree.entries_contents (HistoryTree.keyed_applyEntries _),
      run.contents_historyView digest hrecords view, Repository.viewFiles_labelledFiles]
  · rw [historyTree, run.labelled_historyView digest hrecords, HistoryTree.entries_ofLabelled]

namespace SecondPush

/-- A digest that tells texts apart by their length only. -/
def lengthDigest : HistoryDigest := ⟨fun bytes => toString bytes.length, fun _ => []⟩

def entriesOf (view : ViewId) : List ViewHistoryEntry := (historyView lengthDigest pushed.repo.graph
  pushed.repo.visibilityChangeSets pushed.repo.repoConfig.views view).entries.reverse

/-- After the redaction the history of the public reads back as no file at all. -/
theorem public_history_redacted :
    (historyTree (entriesOf .publicView)).map (fun file => (file.path, file.content)) = [] :=
  (history_tree_shows_files (reachable_first.tail ⟨_, plainUpdate_pushed⟩) (by decide +kernel)
    lengthDigest .publicView).1.trans (by decide +kernel)

end SecondPush

/-! ## Stored entries -/

/-- A repository with the history that folds stored of it for a view, and the labelled files that they
saved. -/
structure StoredHistory where
  state : PushedRepository
  stored : HistoryReadModel
  files : LabelledTree

namespace StoredHistory

variable (digest : HistoryDigest) (view : ViewId)

/-- A fold of the whole history. -/
def Starts (history : StoredHistory) : Prop :=
  Reachable history.state ∧
    foldHistoryView digest history.state.repo.repoConfig.views
      (.load history.state.repo .start ∅) none view = .ok history.stored ∧
    history.files = (FoldInput.load history.state.repo .start ∅).after

/-- A fold that goes on from the one before, after some updates. -/
def Resumes (history next : StoredHistory) : Prop :=
  ReflTransGen Step history.state next.state ∧
    foldHistoryView digest next.state.repo.repoConfig.views
      (.load next.state.repo history.stored.row.position history.files) (some history.stored) view =
        .ok next.stored ∧
    next.files =
      (FoldInput.load next.state.repo history.stored.row.position history.files).after

end StoredHistory

abbrev FoldedHistory (digest : HistoryDigest) (view : ViewId) : StoredHistory → Prop :=
  Transition.Reachable (StoredHistory.Starts digest view) (StoredHistory.Resumes digest view)

variable {digest : HistoryDigest} {history next : StoredHistory}

theorem foldHistoryView_eq_ok {views : Views} {input : FoldInput}
    {stored : Option HistoryReadModel} {row : HistoryReadModel}
    (h : foldHistoryView digest views input stored view = .ok row) :
    let cursor := (stored.map (·.row.cursor)).getD (.start (initialViews input.sets views))
    let history := (stored.map (·.history)).getD (.start digest input.graph.repoId view)
    let entries := unlinkedEntries (.replay (input.before.viewFiles cursor.views view)
      (projectGraphAfter cursor input.before input.graph input.sets view)) views view
        input.graph.commits input.sets
    foldView views input (stored.map (·.row)) view = .ok row.row ∧
      row.history.lastEntryId = (entries.getLast?.map (·.id)).or history.lastEntryId ∧
      row.entries = (stored.map (·.entries)).getD [] ++
        withParents history.lastEntryId entries := by
  obtain ⟨row', hrow, rfl⟩ := Mutation.except_map_eq_ok.mp h
  exact ⟨hrow, lastEntryId_linkEntries _ _ _, congrArg _ (linkEntries_fst _ _ _)⟩

/-- The rows of the stored histories are those that folds leave. -/
theorem FoldedHistory.exists_commits (h : FoldedHistory digest view history) :
    ∃ commits, FoldedCommits view history.state history.stored.row history.files commits := by
  refine Transition.Reachable.invariant (fun history => ∃ commits,
    FoldedCommits view history.state history.stored.row history.files commits) h ?_ ?_
  · rintro history ⟨hreachable, hfold, hfiles⟩
    rw [hfiles]
    exact ⟨_, .start hreachable (foldHistoryView_eq_ok hfold).1⟩
  · rintro history next - ⟨commits, hcommits⟩ ⟨hrun, hfold, hfiles⟩
    rw [hfiles]
    exact ⟨_, .resume hcommits hrun (foldHistoryView_eq_ok hfold).1⟩

theorem last_withParents (last : Option String) (entries : List ViewHistoryEntry) :
    (withParents last entries).getLast?.map (·.id) = entries.getLast?.map (·.id) := by
  rw [← List.getLast?_map, ids_withParents, List.getLast?_map]

/-- The stored history goes on from its last entry. -/
theorem FoldedHistory.lastEntryId (h : FoldedHistory digest view history) :
    history.stored.history.lastEntryId = history.stored.entries.getLast?.map (·.id) := by
  refine Transition.Reachable.invariant (fun history =>
    history.stored.history.lastEntryId = history.stored.entries.getLast?.map (·.id)) h ?_ ?_
  · rintro history ⟨-, hfold, -⟩
    obtain ⟨-, hlast, hentries⟩ := foldHistoryView_eq_ok hfold
    rw [hlast, hentries]
    exact Option.or_none.trans (last_withParents _ _).symm
  · rintro history next - ih ⟨-, hfold, -⟩
    obtain ⟨-, hlast, hentries⟩ := foldHistoryView_eq_ok hfold
    rw [hlast, hentries, List.getLast?_append, Option.map_or, last_withParents]
    exact congrArg _ ih

/-! ### The entries that are stored -/

/-- The entries of a whole history before they are linked, in the words of some views. -/
def allEntries (state : PushedRepository) (words : Views) (view : ViewId) : List ViewHistoryEntry :=
  unlinkedEntries (.replay ∅ (projectGraph state.repo.graph state.repo.visibilityChangeSets
    state.repo.repoConfig.views view)) words view state.repo.graph.commits
      state.repo.visibilityChangeSets

theorem replay_congr {projection projection' : Projection} (shown : LiveFiles)
    (h : projection.commits = projection'.commits) :
    ProjectionHistory.replay shown projection = .replay shown projection' := by
  rw [ProjectionHistory.replay, ProjectionHistory.replay, h]

/-- A fold that goes on finds the entries that the whole history has after those before it. -/
theorem allEntries_resumed (h : FoldedHistory digest view history) {last : PushedRepository}
    (hrun : ReflTransGen Step history.state last)
    (hversion : last.repo.record.changeVersion < U64.maxU64) (words : Views) :
    let input := FoldInput.load last.repo history.stored.row.position history.files
    allEntries last words view = allEntries history.state words view ++
      unlinkedEntries (.replay (input.before.viewFiles history.stored.row.cursor.views view)
        (projectGraphAfter history.stored.row.cursor input.before input.graph input.sets view)) words
          view input.graph.commits input.sets := by
  obtain ⟨commits, hcommits⟩ := h.exists_commits
  obtain ⟨views, hviews, -, hcursor⟩ := hcommits.exists_start
  obtain ⟨hreachable, hposition, hshape, hfiles⟩ := hcommits.folded.follows
  obtain ⟨later, sets, hcontinues, hfresh⟩ := hreachable.exists_next hrun
  obtain ⟨first, run⟩ := hreachable.exists_run
  have hnext : HistoryRun ((history.state.repo.graph.commits.getLast?.map (·.id)).or none)
      history.state.repo.labelledFiles history.state.repo.repoConfig.views later sets
      last.repo.labelledFiles last.repo.repoConfig.views := by
    rw [Option.or_none]
    exact hcontinues.2.2
  have hrecords := (Reachable.recorded (hreachable.trans hrun)).records hversion
  rw [hcontinues.1, hcontinues.2.1] at hrecords
  have hstart : views.visibilityShape = first.visibilityShape :=
    hviews.trans (run.initialViews_shape _ rfl)
  have hlast : (initialViews last.repo.visibilityChangeSets
      last.repo.repoConfig.views).visibilityShape = views.visibilityShape := by
    rw [hstart, hcontinues.2.1]
    exact (run.append hnext hfresh).initialViews_shape _ rfl
  have hgraph : last.repo.graph =
      ⟨last.repo.graph.repoId, history.state.repo.graph.commits ++ later⟩ := by rw [← hcontinues.1]
  -- both projections from the start are those from the views that the folds began with
  have hwhole : ∀ sets', (projectGraphAfter (.start (initialViews last.repo.visibilityChangeSets
      last.repo.repoConfig.views)) ∅ last.repo.graph sets' view).commits =
        (projectGraphAfter (.start views) ∅ last.repo.graph sets' view).commits := by
    intro sets'
    refine projectGraphAfter_congr ?_ ?_ hlast ∅ _ _ <;> rfl
  have hbefore : (projectGraph history.state.repo.graph history.state.repo.visibilityChangeSets
      history.state.repo.repoConfig.views view).commits = (projectGraphAfter (.start views) ∅
        ⟨last.repo.graph.repoId, history.state.repo.graph.commits⟩
          history.state.repo.visibilityChangeSets view).commits := by
    rw [← commits_projectGraphAfter_repoId _ ∅ history.state.repo.graph.repoId]
    refine projectGraphAfter_congr ?_ ?_ hviews.symm ∅ _ _ <;> rfl
  have hfound : ∀ graph : SourceGraph, graph = ⟨graph.repoId, graph.commits⟩ := fun _ => rfl
  rw [hposition, hfiles, hcontinues.load_eq]
  intro input
  rw [allEntries, allEntries, projectGraph, replay_congr ∅ (hwhole _), replay_congr ∅ hbefore,
    viewFiles_congr hshape, hcursor, hfound history.state.repo.graph,
    advanced_repoId _ ∅ history.state.repo.graph.repoId last.repo.graph.repoId, hgraph,
    hcontinues.2.1]
  exact run.unlinkedEntries_resumed hnext hfresh hrecords hstart last.repo.graph.repoId

theorem shownIn_allEntries (h : Reachable state) (current words words' : Views) (view : ViewId) :
    (allEntries state words view).map (·.shownIn current view) =
      (allEntries state words' view).map (·.shownIn current view) := by
  obtain ⟨first, run⟩ := h.exists_run
  exact shownIn_unlinkedEntries run.ids_nodup

/-- Once shown, the stored entries are those of the whole history. -/
theorem FoldedHistory.shownIn_entries (h : FoldedHistory digest view history)
    (hversion : history.state.repo.record.changeVersion < U64.maxU64) (current words : Views) :
    history.stored.entries.map (·.shownIn current view) =
      withParents none ((allEntries history.state words view).map (·.shownIn current view)) := by
  revert hversion words
  refine Transition.Reachable.invariant (fun history =>
    history.state.repo.record.changeVersion < U64.maxU64 → ∀ words,
      history.stored.entries.map (·.shownIn current view) =
        withParents none ((allEntries history.state words view).map (·.shownIn current view))) h ?_ ?_
  · rintro history ⟨hreachable, hfold, -⟩ - words
    obtain ⟨-, -, hentries⟩ := foldHistoryView_eq_ok hfold
    rw [shownIn_allEntries hreachable current words history.state.repo.repoConfig.views,
      ← shownIn_withParents, hentries]
    rfl
  · rintro history next hfolded ih ⟨hrun, hfold, -⟩ hversion words
    obtain ⟨commits, hcommits⟩ := FoldedHistory.exists_commits hfolded
    obtain ⟨hreachable, -⟩ := hcommits.folded.follows
    obtain ⟨-, -, hentries⟩ := foldHistoryView_eq_ok hfold
    have hbefore := ih ((hreachable.version_le hrun).trans_lt hversion)
      next.state.repo.repoConfig.views
    -- the stored history ends with the entry that the rest goes on from
    have hlast : history.stored.history.lastEntryId =
        (allEntries history.state next.state.repo.repoConfig.views view).getLast?.map (·.id) := by
      have hids := congrArg (List.map fun entry : ViewHistoryEntry => entry.id) hbefore
      rw [ids_withParents, List.map_map, List.map_map] at hids
      rw [FoldedHistory.lastEntryId hfolded, ← List.getLast?_map, ← List.getLast?_map]
      exact congrArg List.getLast? hids
    rw [shownIn_allEntries (hreachable.trans hrun) current words next.state.repo.repoConfig.views,
      allEntries_resumed hfolded hrun hversion, ← shownIn_withParents, withParents_append,
      List.map_append, shownIn_withParents, ← hbefore, hentries, List.map_append]
    refine congrArg _ ?_
    rw [Option.or_none, ← hlast]
    rfl

/-! ### The trees of stored entries -/

theorem applyEntries_withParents (last : Option String) (entries : List ViewHistoryEntry)
    (tree : HistoryTree) : (withParents last entries).foldl HistoryTree.applyEntry tree =
      entries.foldl HistoryTree.applyEntry tree := by
  induction entries generalizing last tree with
  | nil => rfl
  | cons entry entries ih => exact ih _ _

theorem applyEntries_shownIn (current : Views) (view : ViewId) (entries : List ViewHistoryEntry)
    (tree : HistoryTree) : (entries.map (·.shownIn current view)).foldl HistoryTree.applyEntry tree =
      entries.foldl HistoryTree.applyEntry tree :=
  List.foldl_map

/-- Reading the stored entries gives the files that the view shows. -/
theorem FoldedHistory.tree_entries (h : FoldedHistory digest view history)
    (hversion : history.state.repo.record.changeVersion < U64.maxU64) :
    (historyTree history.stored.entries).map (fun file => (file.path, file.content)) =
      (history.state.repo.shownFiles view).entries := by
  obtain ⟨commits, hcommits⟩ := h.exists_commits
  obtain ⟨hreachable, -⟩ := hcommits.folded.follows
  obtain ⟨first, run⟩ := hreachable.exists_run
  have hcontents := run.contents_historyView digest (hreachable.recorded.records hversion) view
  rw [applyEntries_historyView] at hcontents
  set current := history.state.repo.repoConfig.views
  have hstored : history.stored.entries.foldl HistoryTree.applyEntry ∅ =
      (allEntries history.state current view).foldl HistoryTree.applyEntry ∅ := by
    rw [← applyEntries_shownIn current view, h.shownIn_entries hversion current current,
      applyEntries_withParents, applyEntries_shownIn]
  rw [historyTree, HistoryTree.entries_contents (HistoryTree.keyed_applyEntries _), hstored,
    ← Repository.viewFiles_labelledFiles]
  exact congrArg SortedMap.entries hcontents

/-- A fold that goes on keeps the stored entries. -/
theorem FoldedHistory.keeps (h : FoldedHistory digest view history)
    (hlater : ReflTransGen (StoredHistory.Resumes digest view) history next) :
    ReflTransGen Step history.state next.state ∧
      history.stored.entries <+: next.stored.entries := by
  induction hlater with
  | refl => exact ⟨.refl, List.prefix_refl _⟩
  | tail hprev hstep ih =>
    obtain ⟨hrun, hfold, -⟩ := hstep
    obtain ⟨-, -, hentries⟩ := foldHistoryView_eq_ok hfold
    refine ⟨ih.1.trans hrun, ih.2.trans ?_⟩
    rw [hentries]
    exact List.prefix_append _ _

/-! ### Ids and parents -/

/-- Every entry of a history has an id of its own, and its parent is the entry before it. -/
theorem history_entries_linked (h : Transition.Reachable Created (RewritingStep plain) state)
    (hversion : state.repo.record.changeVersion < U64.maxU64) (digest : HistoryDigest)
    (view : ViewId) :
    let entries := (historyView digest state.repo.graph state.repo.visibilityChangeSets
      state.repo.repoConfig.views view).entries.reverse
    (entries.map (·.id)).Nodup ∧
      entries.map (·.parentId) = (none :: (entries.map (·.id)).map some).dropLast := by
  have htracked := tracked_of_reachable h
  have hrecorded := recorded_of_rewriting h
  obtain ⟨first, run⟩ := htracked.run
  have hdisjoint : ∀ commit ∈ state.repo.graph.commits, ∀ set ∈ state.repo.visibilityChangeSets,
      commit.id ≠ set.id := by
    intro commit hcommit set hset heq
    obtain ⟨oid, -, hnamed⟩ := htracked.sound.ids commit hcommit
    obtain ⟨version, -, hid⟩ := hrecorded.versions set hset
    rw [heq, hid] at hnamed
    rcases hnamed with hnamed | hnamed <;>
      · have hchars := congrArg String.toList hnamed
        simp [visibilityChangeSetId] at hchars
  intro entries
  have hentries : entries = withParents none (allEntries state state.repo.repoConfig.views view) :=
    reverse_historyView digest
  rw [hentries, parentIds_withParents, ids_withParents]
  exact ⟨run.ids_unlinkedEntries_nodup (hrecorded.records hversion).ids_nodup hdisjoint, rfl⟩

/-- The entries of the two pushes have ids of their own. -/
theorem SecondPush.linked_history : ((entriesOf .privateView).map (·.id)).Nodup ∧
    (entriesOf .privateView).map (·.parentId) =
      (none :: ((entriesOf .privateView).map (·.id)).map some).dropLast :=
  history_entries_linked (reachable_first.tail ⟨_, plainUpdate_pushed⟩) (by decide +kernel)
    lengthDigest .privateView

end PushedRepository

end ScopeVcs

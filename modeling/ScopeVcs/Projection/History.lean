import ScopeVcs.Projection.Agreement

/-! # Histories that keep the projections in step

A history grows by updates: a change set anchored at the last commit, then a commit. Whatever the
updates, folding the steps from where the history began gives the files with their labels, and a
projection taken from there shows of them what the view shows.
-/

namespace ScopeVcs

/-! ## Folding into a view -/

section ViewFold

variable {cursor : ProjectionCursor} {view : ViewId} {graph : SourceGraph} {fold : ViewFold}

theorem applyCommits_of_unchanged {commits : List ProjectedCommit}
    (h : ∀ commit ∈ commits, commit.changes = []) (shown : LiveFiles) :
    applyCommits commits shown = shown := by
  induction commits with
  | nil => rfl
  | cons commit commits ih =>
    rw [applyCommits_cons, ProjectedCommit.applyTo, h commit List.mem_cons_self]
    exact ih fun commit' hcommit' => h commit' (List.mem_cons_of_mem commit hcommit')

/-- The native commits of a merge carry its changes once, at their head. -/
theorem applyCommits_preserved {native : List NativeRequestCommit} (hnative : native ≠ [])
    (logical : LogicalCommit) (changes : List ProjectedChange) (shown : LiveFiles) :
    applyCommits (native.mapIdx fun index commit =>
      preservedCommit logical changes (index + 1 == native.length) commit) shown =
      changes.foldl ProjectedChange.applyTo shown := by
  obtain ⟨init, last, rfl⟩ := (List.eq_nil_or_concat' native).resolve_left hnative
  have hinit : ∀ commit ∈ init.mapIdx (fun index commit =>
      preservedCommit logical changes (index + 1 == (init ++ [last]).length) commit),
      commit.changes = [] := by
    intro commit hcommit
    obtain ⟨index, hindex, rfl⟩ := List.mem_mapIdx.mp hcommit
    have hnot : (index + 1 == (init ++ [last]).length) = false := by
      simp only [List.length_append, List.length_singleton, beq_eq_false_iff_ne]
      omega
    rw [preservedCommit, hnot]
    rfl
  rw [List.mapIdx_concat, applyCommits_append, applyCommits_of_unchanged hinit]
  simp [ProjectedCommit.applyTo, preservedCommit]

theorem applyCommits_projectContent (logical : LogicalCommit) (shown : LiveFiles) :
    applyCommits (fold.projectContent cursor view logical).commits shown =
      (visibleChanges fold.views view logical).foldl ProjectedChange.applyTo
        (applyCommits fold.commits shown) := by
  unfold ViewFold.projectContent
  dsimp only
  by_cases hnative : preservedNative view logical (visibleChanges fold.views view logical).length ≠ []
  · rw [if_pos hnative, applyCommits_append, applyCommits_preserved hnative]
  rw [if_neg hnative]
  by_cases hvisible : visibleChanges fold.views view logical = []
  · rw [if_pos hvisible, hvisible]
    rfl
  · rw [if_neg hvisible, applyCommits_append]
    rfl

theorem applyCommits_set (set : VisibilityChangeSet) (shown : LiveFiles) :
    applyCommits (fold.set cursor view graph set).commits shown =
      (setChanges ((set.views.map (·.before)).getD fold.views)
        ((set.views.map (·.after)).getD fold.views) view (ViewFold.sourceUpdate graph set)
        fold.tree set).foldl ProjectedChange.applyTo (applyCommits fold.commits shown) := by
  unfold ViewFold.set
  dsimp only
  by_cases hchanges : setChanges ((set.views.map (·.before)).getD fold.views)
      ((set.views.map (·.after)).getD fold.views) view (ViewFold.sourceUpdate graph set) fold.tree
      set = []
  · rw [if_pos hchanges, hchanges]
    rfl
  · rw [if_neg hchanges, applyCommits_append]
    rfl

theorem views_commit (logical : LogicalCommit) :
    (fold.commit cursor view logical).views = fold.views := by
  unfold ViewFold.commit ViewFold.projectContent
  dsimp only
  split_ifs <;> rfl

theorem tree_commit (logical : LogicalCommit) :
    (fold.commit cursor view logical).tree = fold.tree.map (·.applyCommit logical) := by
  unfold ViewFold.commit ViewFold.projectContent
  dsimp only
  split_ifs <;> rfl

theorem tree_set (set : VisibilityChangeSet) :
    (fold.set cursor view graph set).tree = fold.tree.map (·.relabel set) := by
  unfold ViewFold.set
  dsimp only
  split_ifs <;> rfl

/-- What a change set does to a view depends on the shape of the views only. -/
theorem setChanges_congr {before before' after after' : Views} {source : Option LogicalCommit}
    {tree : Option LabelledTree} {set : VisibilityChangeSet}
    (hbefore : before.visibilityShape = before'.visibilityShape)
    (hafter : after.visibilityShape = after'.visibilityShape) :
    setChanges before after view source tree set =
      setChanges before' after' view source tree set := by
  have hrelabel : visibleRelabel before after view source =
      visibleRelabel before' after' view source := by
    funext change
    simp only [visibleRelabel, Views.shows_of_visibilityShape_eq hbefore,
      Views.shows_of_visibilityShape_eq hafter]
  have hboundary : boundaryChange before after view = boundaryChange before' after' view := by
    funext entry
    simp only [boundaryChange, Views.shows_of_visibilityShape_eq hbefore,
      Views.shows_of_visibilityShape_eq hafter]
  simp only [setChanges, hrelabel, hboundary]

theorem visibleChanges_congr {views views' : Views}
    (h : views.visibilityShape = views'.visibilityShape) (logical : LogicalCommit) :
    visibleChanges views view logical = visibleChanges views' view logical := by
  simp only [visibleChanges, Views.shows_of_visibilityShape_eq h]

/-- The state of a projection that shows of the labelled files what the view shows; the tree is kept
where a transition of the views needs it. -/
structure ViewFold.Shows (fold : ViewFold) (view : ViewId) (keepsTree : Bool) (start : LiveFiles)
    (tree : LabelledTree) (views : Views) : Prop where
  shape : fold.views.visibilityShape = views.visibilityShape
  kept : fold.tree = if keepsTree then some tree else none
  shown : applyCommits fold.commits start = tree.viewFiles views view

end ViewFold

/-! ## Runs of updates -/

/-- What an update appends has its place at the end of the history: the change set is anchored at the
last commit and names the commit of the same update, whose id is new. -/
structure AppendsTo (anchor : Option String) (commits : List LogicalCommit) (before after : Views)
    (set? : Option VisibilityChangeSet) (commit? : Option LogicalCommit) : Prop where
  transition : ∀ set ∈ set?, ∀ transition ∈ set.views, transition = ⟨before, after⟩
  anchored : ∀ set ∈ set?, set.anchorCommitId = (commits.getLast?.map (·.id)).or anchor
  source : ∀ set ∈ set?, set.sourceUpdateId = commit?.map (·.id)
  fresh : ∀ commit ∈ commit?, commit.id ∉ commits.map (·.id) ∧ anchor ≠ some commit.id

/-- The commits and change sets that a run of updates appends to a history whose last commit is
`anchor`, with the labelled files and the views before and after the run. -/
inductive HistoryRun (anchor : Option String) (start : LabelledTree) (first : Views) :
    List LogicalCommit → List VisibilityChangeSet → LabelledTree → Views → Prop
  | nil : HistoryRun anchor start first [] [] start first
  | update {commits : List LogicalCommit} {sets : List VisibilityChangeSet} {tree : LabelledTree}
      {before after : Views} {set? : Option VisibilityChangeSet} {commit? : Option LogicalCommit}
      (run : HistoryRun anchor start first commits sets tree before)
      (appends : AppendsTo anchor commits before after set? commit?)
      (fits : FitsHistory tree before after set? commit?) :
      HistoryRun anchor start first (commits ++ commit?.toList) (sets ++ set?.toList)
        (tree.update set? commit?) after

namespace HistoryRun

variable {anchor : Option String} {start tree : LabelledTree} {first views : Views}
  {commits : List LogicalCommit} {sets : List VisibilityChangeSet}

theorem ids_nodup (run : HistoryRun anchor start first commits sets tree views) :
    (commits.map (·.id)).Nodup := by
  induction run with
  | nil => exact List.nodup_nil
  | @update commits sets tree before after set? commit? run appends fits ih =>
    cases commit? with
    | none => simpa using ih
    | some commit =>
      rw [Option.toList_some, List.map_append, List.map_singleton, List.nodup_append_comm]
      exact List.nodup_cons.mpr ⟨(appends.fresh commit rfl).1, ih⟩

/-- Change sets are anchored at commits of the run or at the last one before it. -/
theorem anchored (run : HistoryRun anchor start first commits sets tree views) :
    ∀ set ∈ sets, set.anchorCommitId = anchor ∨
      ∃ commit ∈ commits, set.anchorCommitId = some commit.id := by
  induction run with
  | nil => exact fun set hset => absurd hset List.not_mem_nil
  | @update commits sets tree before after set? commit? run appends fits ih =>
    intro set hset
    rcases List.mem_append.mp hset with hset | hset
    · refine (ih set hset).imp_right ?_
      rintro ⟨commit, hcommit, heq⟩
      exact ⟨commit, List.mem_append_left _ hcommit, heq⟩
    · rw [appends.anchored set (Option.mem_toList.mp hset)]
      cases hlast : commits.getLast? with
      | none => exact .inl rfl
      | some last =>
        exact .inr ⟨last, List.mem_append_left _ (List.mem_of_getLast? hlast), rfl⟩

/-- Change sets name commits of the run as their source, or none. -/
theorem source (run : HistoryRun anchor start first commits sets tree views) :
    ∀ set ∈ sets, set.sourceUpdateId = none ∨
      ∃ commit ∈ commits, set.sourceUpdateId = some commit.id := by
  induction run with
  | nil => exact fun set hset => absurd hset List.not_mem_nil
  | @update commits sets tree before after set? commit? run appends fits ih =>
    intro set hset
    rcases List.mem_append.mp hset with hset | hset
    · refine (ih set hset).imp_right ?_
      rintro ⟨commit, hcommit, heq⟩
      exact ⟨commit, List.mem_append_left _ hcommit, heq⟩
    · rw [appends.source set (Option.mem_toList.mp hset)]
      cases commit? with
      | none => exact .inl rfl
      | some commit => exact .inr ⟨commit, by simp, rfl⟩

/-- An update comes after all the steps before it. -/
theorem foldSteps_update (run : HistoryRun anchor start first commits sets tree views)
    {after : Views} {set? : Option VisibilityChangeSet} {commit? : Option LogicalCommit}
    (appends : AppendsTo anchor commits views after set? commit?) (repoId : String) :
    foldSteps ⟨repoId, commits ++ commit?.toList⟩ (sets ++ set?.toList) =
      foldSteps ⟨repoId, commits⟩ sets ++
        (set?.toList.map FoldStep.set ++ commit?.toList.map FoldStep.commit) := by
  have hset : foldSteps ⟨repoId, commits⟩ (sets ++ set?.toList) =
      foldSteps ⟨repoId, commits⟩ sets ++ set?.toList.map FoldStep.set := by
    cases set? with
    | none => simp
    | some set =>
      refine foldSteps_append_set run.ids_nodup fun last hlast => ?_
      rw [appends.anchored set rfl, Option.mem_def.mp hlast]
      rfl
  cases commit? with
  | none => simpa using hset
  | some commit =>
    have hfresh : ∀ set ∈ sets ++ set?.toList, set.anchorCommitId ≠ some commit.id := by
      obtain ⟨hnew, hanchor⟩ := appends.fresh commit rfl
      have hknown : ∀ set : VisibilityChangeSet, (set.anchorCommitId = anchor ∨
          ∃ commit ∈ commits, set.anchorCommitId = some commit.id) →
            set.anchorCommitId ≠ some commit.id := by
        rintro set (heq | ⟨known, hknown, heq⟩)
        · rwa [heq]
        · rw [heq]
          exact fun h => hnew (Option.some_inj.mp h ▸ List.mem_map_of_mem hknown)
      intro set hset
      refine hknown set ?_
      rcases List.mem_append.mp hset with hset | hset
      · exact run.anchored set hset
      · rw [appends.anchored set (Option.mem_toList.mp hset)]
        cases hlast : commits.getLast? with
        | none => exact .inl rfl
        | some last => exact .inr ⟨last, List.mem_of_getLast? hlast, rfl⟩
    rw [Option.toList_some, foldSteps_append_commit hfresh, hset, List.append_assoc]
    rfl

/-- Folding the steps of a run gives the labelled files after it. -/
theorem fold_eq (run : HistoryRun anchor start first commits sets tree views) (repoId : String) :
    start.fold ⟨repoId, commits⟩ sets = tree := by
  induction run with
  | nil => rfl
  | @update commits sets tree before after set? commit? run appends fits ih =>
    rw [LabelledTree.fold] at ih ⊢
    rw [run.foldSteps_update appends, List.foldl_append, ih, LabelledTree.update]
    cases set? <;> cases commit? <;> rfl

/-! ### The views of a run -/

theorem lastViews_shape (run : HistoryRun anchor start first commits sets tree views)
    {repoId : String} {cursor : Views} (hcursor : cursor.visibilityShape = first.visibilityShape) :
    (ProjectionCursor.lastViews cursor (foldSteps ⟨repoId, commits⟩ sets)).visibilityShape =
      views.visibilityShape := by
  induction run with
  | nil => exact hcursor
  | @update commits sets tree before after set? commit? run appends fits ih =>
    have hcommits : ∀ steps, ProjectionCursor.lastViews cursor
        (steps ++ commit?.toList.map FoldStep.commit) = ProjectionCursor.lastViews cursor steps := by
      intro steps
      cases commit? <;> simp [ProjectionCursor.lastViews]
    rw [run.foldSteps_update appends, ← List.append_assoc, hcommits]
    cases set? with
    | none =>
      rw [Option.toList_none, List.map_nil, List.append_nil, ih]
      exact fits.sameViews (by simp)
    | some set =>
      cases hviews : set.views with
      | none =>
        have hsame : before.visibilityShape = after.visibilityShape :=
          fits.sameViews fun set' hset' => Option.mem_some_iff.mp hset' ▸ hviews
        rw [← hsame, ← ih]
        simp [ProjectionCursor.lastViews, hviews]
      | some transition =>
        obtain rfl := appends.transition set rfl transition hviews
        simp [ProjectionCursor.lastViews, hviews]

theorem initialViews_shape (run : HistoryRun anchor start first commits sets tree views) :
    ∀ current : Views, current.visibilityShape = views.visibilityShape →
      (initialViews sets current).visibilityShape = first.visibilityShape := by
  induction run with
  | nil => exact fun current hcurrent => hcurrent
  | @update commits sets tree before after set? commit? run appends fits ih =>
    intro current hcurrent
    have hbefore : (initialViews set?.toList current).visibilityShape = before.visibilityShape := by
      cases set? with
      | none => exact hcurrent.trans (fits.sameViews (by simp)).symm
      | some set =>
        cases hviews : set.views with
        | none =>
          have hsame : before.visibilityShape = after.visibilityShape :=
            fits.sameViews fun set' hset' => Option.mem_some_iff.mp hset' ▸ hviews
          simpa [initialViews, hviews] using hcurrent.trans hsame.symm
        | some transition =>
          obtain rfl := appends.transition set rfl transition hviews
          simp [initialViews, hviews]
    have happend : initialViews (sets ++ set?.toList) current =
        initialViews sets (initialViews set?.toList current) := by
      simp only [initialViews, List.findSome?_append]
      cases sets.findSome? fun set => set.views.map (·.before) <;> rfl
    rw [happend]
    exact ih _ hbefore

end HistoryRun

/-! ## The projections of a run -/

section Projections

variable {cursor : ProjectionCursor} {view : ViewId} {graph : SourceGraph} {repoId : String}
  {tree : LabelledTree} {before after : Views} {set? : Option VisibilityChangeSet}
  {commit? : Option LogicalCommit} {commits : List LogicalCommit} {anchor : Option String}

theorem sourceUpdate_of_appendsTo (appends : AppendsTo anchor commits before after set? commit?) :
    ∀ set ∈ set?, ViewFold.sourceUpdate ⟨repoId, commits ++ commit?.toList⟩ set = commit? := by
  intro set hset
  rw [ViewFold.sourceUpdate, appends.source set hset]
  cases commit? <;> simp

/-- A later commit with a new id is not the source of a change set before it. -/
theorem sourceUpdate_append (appends : AppendsTo anchor commits before after set? commit?)
    {set : VisibilityChangeSet} (hset : set.sourceUpdateId = none ∨
      ∃ commit ∈ commits, set.sourceUpdateId = some commit.id) :
    ViewFold.sourceUpdate ⟨repoId, commits ++ commit?.toList⟩ set =
      ViewFold.sourceUpdate ⟨repoId, commits⟩ set := by
  rcases hset with hnone | ⟨source, hsource, hid⟩
  · rw [ViewFold.sourceUpdate, ViewFold.sourceUpdate, hnone]
    rfl
  · cases commit? with
    | none => simp
    | some commit =>
      have hne : ¬commit.id = source.id := fun heq =>
        (appends.fresh commit rfl).1 (heq ▸ List.mem_map_of_mem hsource)
      simp [ViewFold.sourceUpdate, hid, hne]

/-- A change set leaves the view as the update says it should. -/
theorem ViewFold.Shows.appendSet {fold : ViewFold} {keepsTree : Bool} {start : LiveFiles}
    (h : fold.Shows view keepsTree start tree before) (cursor : ProjectionCursor)
    (appends : AppendsTo anchor commits before after set? commit?)
    (fits : FitsHistory tree before after set? commit?)
    (hsource : ∀ set ∈ set?, sourceUpdate graph set = commit?)
    (hkeeps : ∀ set ∈ set?, set.views.isSome = true → keepsTree = true) :
    let next := (set?.toList.map FoldStep.set).foldl (step cursor view graph) fold
    next.views.visibilityShape = after.visibilityShape ∧
      next.tree = (if keepsTree then some (set?.elim tree tree.relabel) else none) ∧
      applyCommits next.commits start =
        shownAfterSet before after view commit? tree set? (tree.viewFiles before view) := by
  cases set? with
  | none => exact ⟨h.shape.trans (fits.sameViews (by simp)), h.kept, h.shown⟩
  | some set =>
    have hsame : set.views = none → before.visibilityShape = after.visibilityShape := fun hviews =>
      fits.sameViews fun set' hset' => Option.mem_some_iff.mp hset' ▸ hviews
    have hbefore : ((set.views.map (·.before)).getD fold.views).visibilityShape =
        before.visibilityShape := by
      cases hviews : set.views with
      | none => exact h.shape
      | some transition =>
        obtain rfl := appends.transition set rfl transition hviews
        rfl
    have hafter : ((set.views.map (·.after)).getD fold.views).visibilityShape =
        after.visibilityShape := by
      cases hviews : set.views with
      | none => exact h.shape.trans (hsame hviews)
      | some transition =>
        obtain rfl := appends.transition set rfl transition hviews
        rfl
    have hchanges : setChanges before after view commit? fold.tree set =
        setChanges before after view commit? (some tree) set := by
      rw [h.kept]
      cases hviews : set.views with
      | none => simp [setChanges, hviews]
      | some transition =>
        rw [hkeeps set rfl (by rw [hviews]; rfl)]
        rfl
    refine ⟨?_, ?_, ?_⟩
    · exact hafter
    · show (fold.set cursor view graph set).tree = _
      rw [tree_set, h.kept]
      cases keepsTree <;> rfl
    · show applyCommits (fold.set cursor view graph set).commits start = _
      rw [applyCommits_set, setChanges_congr hbefore hafter, hsource set rfl, hchanges, h.shown]
      rfl

/-- An update leaves a projection that shows what the view shows. -/
theorem ViewFold.Shows.update {fold : ViewFold} {keepsTree : Bool} {start : LiveFiles}
    (h : fold.Shows view keepsTree start tree before)
    (appends : AppendsTo anchor commits before after set? commit?)
    (fits : FitsHistory tree before after set? commit?)
    (hsource : ∀ set ∈ set?, sourceUpdate graph set = commit?)
    (hkeeps : ∀ set ∈ set?, set.views.isSome = true → keepsTree = true) :
    ((set?.toList.map FoldStep.set ++ commit?.toList.map FoldStep.commit).foldl
      (step cursor view graph) fold).Shows view keepsTree start (tree.update set? commit?) after := by
  rw [List.foldl_append]
  have hset := h.appendSet cursor appends fits hsource hkeeps
  set next := (set?.toList.map FoldStep.set).foldl (step cursor view graph) fold
  obtain ⟨hshape, hkept, hshown⟩ := hset
  have hupdate := shown_update fits view
  cases commit? with
  | none => exact ⟨hshape, hkept, hshown.trans hupdate⟩
  | some commit =>
    refine ⟨?_, ?_, ?_⟩
    · show (next.commit cursor view commit).views.visibilityShape = _
      rw [views_commit, hshape]
    · show (next.commit cursor view commit).tree = _
      rw [tree_commit, hkept]
      cases keepsTree <;> rfl
    · show applyCommits (next.projectContent cursor view commit).commits start = _
      rw [applyCommits_projectContent, visibleChanges_congr hshape, hshown]
      exact hupdate

end Projections

namespace HistoryRun

variable {anchor : Option String} {start tree : LabelledTree} {first views : Views}
  {commits : List LogicalCommit} {sets : List VisibilityChangeSet} {cursor : ProjectionCursor}

/-- Every state of a projection shows what the view shows; the sources may lie in a longer
history. -/
theorem shows (run : HistoryRun anchor start first commits sets tree views) (view : ViewId)
    (repoId : String) (hcursor : cursor.views.visibilityShape = first.visibilityShape)
    (graph : SourceGraph) (hsource : ∀ set ∈ sets, ViewFold.sourceUpdate graph set =
      ViewFold.sourceUpdate ⟨repoId, commits⟩ set)
    (keepsTree : Bool) (hkeeps : ∀ set ∈ sets, set.views.isSome = true → keepsTree = true) :
    ((foldSteps ⟨repoId, commits⟩ sets).foldl (ViewFold.step cursor view graph) {
      views := cursor.views
      tree := if keepsTree then some start else none
      commits := []
      lastVisible := cursor.lastProjectedId }).Shows view keepsTree
        (start.viewFiles cursor.views view) tree views := by
  induction run with
  | nil => exact ⟨hcursor, rfl, viewFiles_congr hcursor start view⟩
  | @update commits sets tree before after set? commit? run appends fits ih =>
    rw [run.foldSteps_update appends, List.foldl_append]
    refine ViewFold.Shows.update (ih ?_ ?_) appends fits ?_ ?_
    · intro set hset
      rw [hsource set (List.mem_append_left _ hset), sourceUpdate_append appends (run.source set hset)]
    · exact fun set hset => hkeeps set (List.mem_append_left _ hset)
    · intro set hset
      rw [hsource set (List.mem_append_right _ (Option.mem_toList.mpr hset)),
        sourceUpdate_of_appendsTo appends set hset]
    · exact fun set hset => hkeeps set (List.mem_append_right _ (Option.mem_toList.mpr hset))

/-! ### The full view -/

theorem applyCommits_projectFullGraph (cursor : ProjectionCursor) (graph : SourceGraph)
    (view : ViewId) (shown : LiveFiles) :
    (projectFullGraph cursor graph view).applyTo shown = graph.commits.foldl
      (fun shown commit => (visibleChanges cursor.views .privateView commit).foldl
        ProjectedChange.applyTo shown) shown := by
  have hall : ∀ commit : LogicalCommit, visibleChanges cursor.views .privateView commit =
      commit.changes.map (·.projected) := by
    intro commit
    simp [visibleChanges]
  have hfold : ∀ (commits : List LogicalCommit) (state : List ProjectedCommit × Option String),
      applyCommits (commits.foldl (projectFullCommit cursor view) state).1 shown =
        commits.foldl (fun shown commit => (visibleChanges cursor.views .privateView commit).foldl
          ProjectedChange.applyTo shown) (applyCommits state.1 shown) := by
    intro commits
    induction commits with
    | nil => exact fun state => rfl
    | cons commit commits ih =>
      intro state
      rw [List.foldl_cons, List.foldl_cons, ih, hall, projectFullCommit]
      by_cases hchanges : commit.changes = []
      · rw [if_pos hchanges, hchanges]
        rfl
      · rw [if_neg hchanges, applyCommits_append]
        rfl
  exact hfold graph.commits ([], cursor.lastProjectedId)

/-- A change set shows and hides nothing in the full view. -/
theorem shownAfterSet_privateView (before after : Views) (source : Option LogicalCommit)
    (tree : LabelledTree) (set? : Option VisibilityChangeSet) (shown : LiveFiles) :
    shownAfterSet before after .privateView source tree set? shown = shown := by
  cases set? with
  | none => rfl
  | some set =>
    have hrelabel : ∀ change, visibleRelabel before after .privateView source change = none := by
      intro change
      simp [visibleRelabel]
    have hboundary : ∀ entry, boundaryChange before after .privateView entry = none := by
      intro entry
      simp [boundaryChange]
    have hnothing : setChanges before after .privateView source (some tree) set = [] := by
      unfold setChanges
      rw [List.filterMap_eq_nil_iff.mpr fun change _ => hrelabel change, List.nil_append]
      cases set.views with
      | none => rfl
      | some transition => exact List.filterMap_eq_nil_iff.mpr fun entry _ => hboundary entry
    rw [shownAfterSet, Option.elim_some, hnothing]
    rfl

theorem shows_full (run : HistoryRun anchor start first commits sets tree views)
    (hcursor : cursor.views.visibilityShape = first.visibilityShape) :
    commits.foldl (fun shown commit => (visibleChanges cursor.views .privateView commit).foldl
      ProjectedChange.applyTo shown) (start.viewFiles cursor.views .privateView) =
        tree.viewFiles views .privateView := by
  induction run with
  | nil => exact viewFiles_congr hcursor start .privateView
  | @update commits sets tree before after set? commit? run appends fits ih =>
    have hupdate := shown_update fits .privateView
    rw [shownAfterSet_privateView] at hupdate
    rw [List.foldl_append, ih, ← hupdate]
    cases commit? with
    | none => rfl
    | some commit =>
      have hall : ∀ views : Views, visibleChanges views .privateView commit =
          commit.changes.map (·.projected) := by
        intro views
        simp [visibleChanges]
      rw [Option.toList_some, List.foldl_cons, List.foldl_nil, shownAfterCommit, Option.elim_some,
        hall, hall]

/-- A projection of what a run appends, applied to what the view showed before it, shows what the view
shows after it. -/
theorem projectGraphAfter_applyTo (run : HistoryRun anchor start first commits sets tree views)
    (view : ViewId) (repoId : String)
    (hcursor : cursor.views.visibilityShape = first.visibilityShape) :
    (projectGraphAfter cursor start ⟨repoId, commits⟩ sets view).applyTo
      (start.viewFiles cursor.views view) = tree.viewFiles views view := by
  unfold projectGraphAfter
  by_cases hfull : view = cursor.views.full
  · rw [if_pos hfull, applyCommits_projectFullGraph]
    rw [Views.full_eq] at hfull
    subst hfull
    exact run.shows_full hcursor
  · rw [if_neg hfull]
    refine (run.shows view repoId hcursor ⟨repoId, commits⟩ (fun set _ => rfl)
      (sets.any (·.views.isSome)) fun set hset hviews => ?_).shown
    exact List.any_eq_true.mpr ⟨set, hset, hviews⟩

end HistoryRun

end ScopeVcs

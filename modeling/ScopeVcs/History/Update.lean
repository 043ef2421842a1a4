import ScopeVcs.History.Tree

/-! # The entries of one update

An update appends a change set, a commit or both. Its projection has the boundary of the change set
first and the content of the commit after it; its entries may have them the other way round.
-/

namespace ScopeVcs

/-! ## The projection of one update -/

section Projected

variable {cursor : ProjectionCursor} {view : ViewId} {graph : SourceGraph} {fold : ViewFold}
  {before after : Views} {tree : LabelledTree} {anchor : Option String}
  {set? : Option VisibilityChangeSet} {commit? : Option LogicalCommit}

theorem applyCommits_eq_flatMap (commits : List ProjectedCommit) (tree : LiveFiles) :
    applyCommits commits tree =
      (commits.flatMap (·.changes)).foldl ProjectedChange.applyTo tree := by
  induction commits generalizing tree with
  | nil => rfl
  | cons commit commits ih =>
    rw [applyCommits_cons, ih, List.flatMap_cons, List.foldl_append]
    rfl

/-- In the full view a change set shows and hides nothing. -/
theorem setChanges_privateView (source : Option LogicalCommit) (kept : Option LabelledTree)
    (set : VisibilityChangeSet) : setChanges before after .privateView source kept set = [] := by
  have hrelabel : ∀ change, visibleRelabel before after .privateView source change = none := by
    intro change
    simp [visibleRelabel]
  have hboundary : ∀ entry, boundaryChange before after .privateView entry = none := by
    intro entry
    simp [boundaryChange]
  unfold setChanges
  rw [List.filterMap_eq_nil_iff.mpr fun change _ => hrelabel change, List.nil_append]
  cases set.views with
  | none => rfl
  | some transition =>
    cases kept with
    | none => rfl
    | some tree => exact List.filterMap_eq_nil_iff.mpr fun entry _ => hboundary entry

theorem exists_projectContent (cursor : ProjectionCursor) (view : ViewId) (fold : ViewFold)
    (logical : LogicalCommit) :
    ∃ content : List ProjectedCommit,
      (fold.projectContent cursor view logical).commits = fold.commits ++ content ∧
      (∀ projected ∈ content, projected.visibilityChangeSetId = none ∧
        projected.logicalCommitId = logical.id) ∧
      content.flatMap (·.changes) = visibleChanges fold.views view logical := by
  unfold ViewFold.projectContent
  dsimp only
  by_cases hnative :
    preservedNative view logical (visibleChanges fold.views view logical).length ≠ []
  · rw [if_pos hnative]
    refine ⟨_, rfl, ?_, ?_⟩
    · intro projected hprojected
      obtain ⟨index, hindex, rfl⟩ := List.mem_mapIdx.mp hprojected
      exact ⟨rfl, rfl⟩
    · -- Of the native commits only the last one has changes.
      generalize preservedNative view logical _ = native at hnative
      obtain ⟨init, last, rfl⟩ := (List.eq_nil_or_concat' native).resolve_left hnative
      rw [List.mapIdx_concat, List.flatMap_append, List.flatMap_singleton]
      have hinit : ∀ commits : List NativeRequestCommit, ∀ offset,
          offset + commits.length < (init ++ [last]).length →
          (commits.mapIdx fun index commit => preservedCommit logical
            (visibleChanges fold.views view logical)
              (offset + index + 1 == (init ++ [last]).length) commit).flatMap (·.changes) = [] := by
        intro commits offset hlength
        refine List.flatMap_eq_nil_iff.mpr fun projected hprojected => ?_
        obtain ⟨index, hindex, rfl⟩ := List.mem_mapIdx.mp hprojected
        have hnot : (offset + index + 1 == (init ++ [last]).length) = false := by
          rw [beq_eq_false_iff_ne]
          omega
        rw [preservedCommit, hnot]
        rfl
      have hfirst := hinit init 0 (by rw [List.length_append, List.length_singleton]; omega)
      simp only [Nat.zero_add] at hfirst
      rw [hfirst, List.nil_append]
      simp [preservedCommit]
  rw [if_neg hnative]
  by_cases hvisible : visibleChanges fold.views view logical = []
  · rw [if_pos hvisible, hvisible]
    exact ⟨[], (List.append_nil _).symm, by simp, rfl⟩
  · rw [if_neg hvisible]
    refine ⟨_, rfl, ?_, List.flatMap_singleton _ _⟩
    rintro projected hprojected
    obtain rfl := List.mem_singleton.mp hprojected
    exact ⟨rfl, rfl⟩

theorem exists_setCommits (cursor : ProjectionCursor) (view : ViewId) (graph : SourceGraph)
    (fold : ViewFold) (set : VisibilityChangeSet) :
    ∃ boundary : List ProjectedCommit,
      (fold.set cursor view graph set).commits = fold.commits ++ boundary ∧
      (∀ projected ∈ boundary, projected.visibilityChangeSetId = some set.id) ∧
      boundary.flatMap (·.changes) = setChanges ((set.views.map (·.before)).getD fold.views)
        ((set.views.map (·.after)).getD fold.views) view (ViewFold.sourceUpdate graph set)
          fold.tree set := by
  unfold ViewFold.set
  dsimp only
  by_cases hnothing : setChanges ((set.views.map (·.before)).getD fold.views)
      ((set.views.map (·.after)).getD fold.views) view (ViewFold.sourceUpdate graph set) fold.tree
        set = []
  · rw [if_pos hnothing, hnothing]
    exact ⟨[], (List.append_nil _).symm, by simp, rfl⟩
  · rw [if_neg hnothing]
    refine ⟨_, rfl, ?_, List.flatMap_singleton _ _⟩
    rintro projected hprojected
    obtain rfl := List.mem_singleton.mp hprojected
    rfl

/-- What a view sees of one update: the boundary of the change set, then the commit. -/
structure ProjectsUpdate (before after : Views) (view : ViewId) (tree : LabelledTree)
    (set? : Option VisibilityChangeSet) (commit? : Option LogicalCommit)
    (boundary content : List ProjectedCommit) : Prop where
  boundary_from : ∀ projected ∈ boundary, ∃ set ∈ set?,
    projected.visibilityChangeSetId = some set.id
  boundary_changes : boundary.flatMap (·.changes) =
    set?.elim [] (setChanges before after view commit? (some tree))
  content_from : ∀ projected ∈ content, projected.visibilityChangeSetId = none ∧
    ∃ commit ∈ commit?, projected.logicalCommitId = commit.id
  content_changes : content.flatMap (·.changes) = commit?.elim [] (visibleChanges after view)

theorem boundary_of_set (view : ViewId) (appends : AppendsTo anchor [] before after set? commit?)
    (fits : FitsHistory tree before after set? commit?)
    (hcursor : cursor.views.visibilityShape = before.visibilityShape)
    (hsource : ∀ set ∈ set?, ViewFold.sourceUpdate graph set = commit?) :
    let next := (set?.toList.map FoldStep.set).foldl (ViewFold.step cursor view graph)
      (cursor.initialFold tree set?.toList)
    (ViewFold.views next).visibilityShape = after.visibilityShape ∧
      (∀ projected ∈ ViewFold.commits next, ∃ set ∈ set?,
        projected.visibilityChangeSetId = some set.id) ∧
      (ViewFold.commits next).flatMap (·.changes) =
        set?.elim [] (setChanges before after view commit? (some tree)) := by
  cases set? with
  | none => exact ⟨hcursor.trans (fits.sameViews (by simp)), by simp [ProjectionCursor.initialFold], rfl⟩
  | some set =>
    have hbefore : ((set.views.map (·.before)).getD cursor.views).visibilityShape =
        before.visibilityShape := by
      cases hviews : set.views with
      | none => exact hcursor
      | some transition =>
        obtain rfl := appends.transition set rfl transition hviews
        rfl
    have hafter : ((set.views.map (·.after)).getD cursor.views).visibilityShape =
        after.visibilityShape := by
      cases hviews : set.views with
      | none =>
        exact hcursor.trans (fits.sameViews fun set' hset' => Option.mem_some_iff.mp hset' ▸ hviews)
      | some transition =>
        obtain rfl := appends.transition set rfl transition hviews
        rfl
    have htree : setChanges before after view commit? (cursor.initialFold tree [set]).tree set =
        setChanges before after view commit? (some tree) set := by
      rw [ProjectionCursor.initialFold, List.any_cons, List.any_nil, Bool.or_false]
      unfold setChanges
      cases set.views with
      | none => rfl
      | some transition => rfl
    obtain ⟨boundary, hcommits, hfrom, hchanges⟩ :=
      exists_setCommits cursor view graph (cursor.initialFold tree [set]) set
    have hboundary : boundary.flatMap (·.changes) =
        setChanges before after view commit? (some tree) set := by
      rw [hchanges, hsource set rfl, ← htree]
      exact setChanges_congr hbefore hafter
    have hnext : (ViewFold.set cursor view graph (cursor.initialFold tree [set]) set).commits =
        boundary := hcommits
    show _ ∧ (∀ projected ∈ (ViewFold.set cursor view graph (cursor.initialFold tree [set])
      set).commits, _) ∧ (ViewFold.set cursor view graph (cursor.initialFold tree [set])
        set).commits.flatMap _ = _
    rw [hnext]
    exact ⟨hafter, fun projected hprojected => ⟨set, rfl, hfrom projected hprojected⟩, hboundary⟩

theorem exists_projectsUpdate (view : ViewId) (appends : AppendsTo anchor [] before after set? commit?)
    (fits : FitsHistory tree before after set? commit?)
    (hcursor : cursor.views.visibilityShape = before.visibilityShape) (repoId : String) :
    ∃ boundary content, (projectGraphAfter cursor tree ⟨repoId, commit?.toList⟩ set?.toList
      view).commits = boundary ++ content ∧
        ProjectsUpdate before after view tree set? commit? boundary content := by
  by_cases hview : view = .privateView
  · subst hview
    rw [projectGraphAfter_full]
    refine ⟨[], _, (List.nil_append _).symm, by simp, ?_, ?_, ?_⟩
    · cases set? with
      | none => rfl
      | some set => exact (setChanges_privateView _ _ _).symm
    all_goals
      unfold projectFullGraph
      dsimp only
      cases commit? with
      | none => simp
      | some commit =>
        rw [Option.toList_some, List.foldl_cons, List.foldl_nil, projectFullCommit]
        by_cases hchanges : commit.changes = []
        · rw [if_pos hchanges]
          simp [visibleChanges, hchanges]
        · rw [if_neg hchanges]
          simp [visibleChanges]
  have hsteps : foldSteps ⟨repoId, commit?.toList⟩ set?.toList =
      set?.toList.map FoldStep.set ++ commit?.toList.map FoldStep.commit :=
    HistoryRun.foldSteps_update (.nil : HistoryRun anchor tree before [] [] tree before) appends
      repoId
  have hsource : ∀ set ∈ set?, ViewFold.sourceUpdate ⟨repoId, [] ++ commit?.toList⟩ set = commit? :=
    sourceUpdate_of_appendsTo appends
  obtain ⟨hshape, hfrom, hchanges⟩ := boundary_of_set view appends fits hcursor hsource
  rw [projectGraphAfter_of_ne hview, hsteps, List.foldl_append]
  rw [List.nil_append] at hshape hfrom hchanges
  set next := (set?.toList.map FoldStep.set).foldl
    (ViewFold.step cursor view ⟨repoId, commit?.toList⟩) (cursor.initialFold tree set?.toList)
  cases commit? with
  | none =>
    exact ⟨next.commits, [], (List.append_nil _).symm, hfrom, hchanges, by simp, rfl⟩
  | some commit =>
    obtain ⟨content, hcontent, hsource, hvisible⟩ :=
      exists_projectContent cursor view next commit
    refine ⟨next.commits, content, hcontent, hfrom, hchanges, fun projected hprojected => ?_, ?_⟩
    · exact ⟨(hsource projected hprojected).1, commit, rfl, (hsource projected hprojected).2⟩
    · rw [hvisible, visibleChanges_congr hshape]
      rfl

end Projected

/-! ## What one update changes -/

/-- What an update writes differs from what was there, and a change set that names a written path
records what is written. -/
structure WritesFiles (tree : LabelledTree) (set? : Option VisibilityChangeSet)
    (commit? : Option LogicalCommit) : Prop where
  differs : ∀ commit ∈ commit?, ∀ written ∈ commit.changes,
    sourceContentMatches ((tree.get? written.path).map Prod.fst) written.newContent = false
  content : ∀ set ∈ set?, ∀ commit ∈ commit?, ∀ change ∈ set.changes, ∀ written ∈ commit.changes,
    written.path = change.path → change.currentContent = written.newContent

section Changed

variable {view : ViewId} {before after : Views} {tree : LabelledTree} {set : VisibilityChangeSet}
  {set? : Option VisibilityChangeSet} {commit? : Option LogicalCommit} {source : Option LogicalCommit}
  {projected : ProjectedChange}

theorem mem_setChanges (h : projected ∈ setChanges before after view source (some tree) set) :
    (∃ change ∈ set.changes, visibleRelabel before after view source change = some projected) ∨
      set.views.isSome = true ∧ ∃ entry ∈ tree.entries, entry.1 ∉ set.changes.map (·.path) ∧
        boundaryChange before after view entry = some projected := by
  unfold setChanges at h
  refine (List.mem_append.mp h).imp List.mem_filterMap.mp fun hboundary => ?_
  cases hviews : set.views with
  | none =>
    rw [hviews] at hboundary
    cases hboundary
  | some transition =>
    rw [hviews] at hboundary
    obtain ⟨entry, hentry, hchange⟩ := List.mem_filterMap.mp hboundary
    obtain ⟨hmem, hunnamed⟩ := List.mem_filter.mp hentry
    exact ⟨rfl, entry, hmem, of_decide_eq_true hunnamed, hchange⟩

theorem setChanges_paths_nodup (hnodup : (set.changes.map (·.path)).Nodup) :
    ((setChanges before after view source (some tree) set).map (·.path)).Nodup := by
  unfold setChanges
  rw [List.map_append, List.nodup_append']
  have hrelabels : ((set.changes.filterMap (visibleRelabel before after view source)).map
      (·.path)).Sublist (set.changes.map (·.path)) :=
    ListRewrite.map_filterMap_sublist (fun _ _ => path_of_visibleRelabel) set.changes
  refine ⟨hrelabels.nodup hnodup, ?_, ?_⟩
  · cases set.views with
    | none => exact List.nodup_nil
    | some transition =>
      refine (ListRewrite.map_filterMap_sublist (fun _ _ => path_of_boundaryChange) _).nodup ?_
      exact (List.filter_sublist.map Prod.fst).nodup (SortedMap.keys_nodup tree)
  · rw [List.disjoint_left]
    intro path hpath hother
    have hnamed := hrelabels.subset hpath
    cases hviews : set.views with
    | none =>
      rw [hviews] at hother
      cases hother
    | some transition =>
      rw [hviews] at hother
      obtain ⟨change, hchange, rfl⟩ := List.mem_map.mp hother
      obtain ⟨entry, hentry, hmade⟩ := List.mem_filterMap.mp hchange
      rw [path_of_boundaryChange hmade] at hnamed
      exact of_decide_eq_true (List.mem_filter.mp hentry).2 hnamed

theorem named_of_mem_setChanges
    (h : projected ∈ setChanges before after view source (some tree) set) :
    set.views.isSome = true ∨ projected.path ∈ set.changes.map (·.path) := by
  rcases mem_setChanges h with ⟨change, hchange, hmade⟩ | ⟨hviews, -⟩
  · exact .inr (List.mem_map.mpr ⟨change, hchange, (path_of_visibleRelabel hmade).symm⟩)
  · exact .inl hviews

/-- What a change set shows was hidden before. -/
theorem exactOn_setChanges (fits : FitsHistory tree before after set? commit?)
    (hset : set ∈ set?) :
    ExactOn (tree.viewFiles before view) (setChanges before after view source (some tree) set) := by
  intro projected hprojected hmatches
  cases hnew : projected.newContent with
  | none => exact sourceContentMatches_none (hnew ▸ hmatches)
  | some content =>
    suffices habsent : (tree.viewFiles before view).get? projected.path = none by
      rw [habsent, hnew] at hmatches
      cases hmatches
    rw [LabelledTree.get?_viewFiles]
    cases hfile : tree.get? projected.path with
    | none => rfl
    | some file =>
      suffices hhidden : before.shows view projected.path file.2 = false by simp [hhidden]
      rcases mem_setChanges hprojected with ⟨change, hchange, hmade⟩ | ⟨-, entry, hentry, -, hmade⟩
      · have hpath := path_of_visibleRelabel hmade
        have hold : before.shows view change.path change.oldLabel = false := by
          unfold visibleRelabel at hmade
          split at hmade
          · cases hmade
          · split at hmade
            · assumption
            · cases hmade
              cases hnew
            · cases hmade
        have hnarrow : view ≠ .privateView := by
          rintro rfl
          rw [Views.shows_privateView] at hold
          cases hold
        rw [hpath] at hfile ⊢
        rcases fits.oldLabel set hset change hchange file hfile with heq | ⟨hprivate, -⟩
        · rw [← heq, hold]
        · rw [hprivate, Views.not_shows_privateView hnarrow]
      · rw [path_of_boundaryChange hmade] at hfile ⊢
        rw [SortedMap.mem_entries_iff.mp (show (entry.1, entry.2) ∈ tree.entries from hentry)] at hfile
        cases hfile
        unfold boundaryChange at hmade
        split at hmade
        · assumption
        · cases hmade
          cases hnew
        · cases hmade

/-- A written path shows nothing after the change set, or its old content, or the new one already. -/
theorem get?_shownAfterSet (view : ViewId) (fits : FitsHistory tree before after set? commit?)
    (writes : WritesFiles tree set? commit?) {commit : LogicalCommit} (hcommit : commit ∈ commit?)
    {written : FileChange} (hwritten : written ∈ commit.changes) :
    let shown := (shownAfterSet before after view commit? tree set?
      (tree.viewFiles before view)).get? written.path
    shown = none ∨ shown = (tree.get? written.path).map Prod.fst ∨ shown = written.newContent := by
  have hbefore : (tree.viewFiles before view).get? written.path = none ∨
      (tree.viewFiles before view).get? written.path = (tree.get? written.path).map Prod.fst := by
    rw [LabelledTree.get?_viewFiles]
    cases tree.get? written.path with
    | none => exact .inl rfl
    | some file => cases hshown : before.shows view written.path file.2 <;> simp [hshown]
  cases set? with
  | none => exact hbefore.imp_right .inl
  | some set =>
    rw [shownAfterSet, Option.elim_some]
    by_cases hnamed : ∃ change ∈ set.changes, change.path = written.path
    · obtain ⟨change, hchange, hpath⟩ := hnamed
      have hcontent := writes.content set rfl commit hcommit change hchange written hwritten hpath.symm
      rw [← hpath, get?_setChanges_of_mem (fits.relabels_nodup set rfl) hchange]
      cases hmade : visibleRelabel before after view commit? change with
      | none =>
        rw [Option.elim_none, hpath]
        exact hbefore.imp_right .inl
      | some projected =>
        rw [Option.elim_some]
        unfold visibleRelabel at hmade
        split at hmade
        · cases hmade
        · split at hmade
          · split at hmade
            · cases hmade
            · obtain ⟨content, hcurrent, rfl⟩ := Option.map_eq_some_iff.mp hmade
              exact .inr (.inr (hcurrent.symm.trans hcontent))
          · cases hmade
            exact .inl rfl
          · cases hmade
    · rw [get?_setChanges_of_ne fun change hchange heq => hnamed ⟨change, hchange, heq⟩]
      split_ifs
      · cases hfile : tree.get? written.path with
        | none =>
          rw [Option.elim_none, ← hfile]
          rw [hfile] at hbefore
          exact hfile ▸ hbefore.imp_right .inl
        | some file =>
          rw [Option.elim_some]
          cases hmade : boundaryChange before after view (written.path, file) with
          | none =>
            rw [Option.elim_none]
            rw [hfile] at hbefore
            exact hbefore.imp_right .inl
          | some projected =>
            rw [Option.elim_some]
            unfold boundaryChange at hmade
            split at hmade
            · cases hmade
              exact .inr (.inl rfl)
            · cases hmade
              exact .inl rfl
            · cases hmade
      · exact hbefore.imp_right .inl

theorem exactOn_visibleChanges (fits : FitsHistory tree before after set? commit?)
    (writes : WritesFiles tree set? commit?) {commit : LogicalCommit} (hcommit : commit ∈ commit?) :
    ExactOn (shownAfterSet before after view commit? tree set? (tree.viewFiles before view))
      (visibleChanges after view commit) := by
  intro projected hprojected hmatches
  obtain ⟨written, hwritten, rfl⟩ := List.mem_map.mp hprojected
  have hmem := (List.mem_filter.mp hwritten).1
  have hdiffers := writes.differs commit hcommit written hmem
  rcases get?_shownAfterSet view fits writes hcommit hmem with hnone | hold | hnew
  · rw [FileChange.projected, hnone] at hmatches ⊢
    cases hcontent : written.newContent with
    | none => rfl
    | some content =>
      rw [hcontent] at hmatches
      cases hmatches
  · rw [FileChange.projected, hold, hdiffers] at hmatches
    cases hmatches
  · exact hnew

/-- Without a transition of the views nothing is projected both by a change set and by the commit
that it belongs to. -/
theorem path_ne_of_setChanges (fits : FitsHistory tree before after (some set) commit?)
    (hviews : set.views = none)
    (hprojected : projected ∈ setChanges before after view commit? (some tree) set)
    {commit : LogicalCommit} (hcommit : commit ∈ commit?) {other : ProjectedChange}
    (hother : other ∈ visibleChanges after view commit) : projected.path ≠ other.path := by
  have hshape := fits.sameViews fun set' hset' => Option.mem_some_iff.mp hset' ▸ hviews
  obtain ⟨written, hwritten, rfl⟩ := List.mem_map.mp hother
  obtain ⟨hmem, hshown⟩ := List.mem_filter.mp hwritten
  rcases mem_setChanges hprojected with ⟨change, hchange, hmade⟩ | ⟨htransition, -⟩
  · rw [path_of_visibleRelabel hmade]
    intro hpath
    have hlabel := fits.newLabel set rfl commit hcommit change hchange written hmem hpath.symm
    have hnew : after.shows view change.path change.newLabel = true := by
      rw [hpath, ← hlabel]
      exact hshown
    have hsource : (commit?.any fun commit => commit.changes.any fun sourceChange =>
        sourceChange.path == change.path &&
          before.shows view sourceChange.path sourceChange.label) = true := by
      rw [Option.mem_def.mp hcommit, Option.any_some, List.any_eq_true]
      refine ⟨written, hmem, ?_⟩
      rw [Views.shows_of_visibilityShape_eq hshape, hshown, hpath]
      exact Bool.and_true _ ▸ beq_self_eq_true _
    unfold visibleRelabel at hmade
    rw [hnew, hsource] at hmade
    split at hmade
    · cases hmade
    · cases hold : before.shows view change.path change.oldLabel <;> rw [hold] at hmade <;>
        cases hmade
  · rw [hviews] at htransition
    cases htransition

end Changed

/-! ## What the entries of one update write -/

theorem applyFile_comm {file : HistoryEntryFile} {files : List HistoryEntryFile}
    (h : ∀ other ∈ files, other.path ≠ file.path) (tree : LiveFiles) :
    file.applyTo (files.foldl HistoryEntryFile.applyTo tree) =
      files.foldl HistoryEntryFile.applyTo (file.applyTo tree) := by
  induction files generalizing tree with
  | nil => rfl
  | cons other files ih =>
    rw [List.forall_mem_cons] at h
    have hswap : other.applyTo (file.applyTo tree) = file.applyTo (other.applyTo tree) := by
      refine SortedMap.ext fun path => ?_
      simp only [HistoryEntryFile.get?_applyTo]
      split_ifs with hother hfile
      · exact absurd (hother.symm.trans hfile) h.1
      all_goals rfl
    rw [List.foldl_cons, List.foldl_cons, hswap, ih h.2]

/-- Files of different paths may be written in either order. -/
theorem applyFiles_comm {files files' : List HistoryEntryFile}
    (h : ∀ file ∈ files, ∀ other ∈ files', other.path ≠ file.path) (tree : LiveFiles) :
    files'.foldl HistoryEntryFile.applyTo (files.foldl HistoryEntryFile.applyTo tree) =
      files.foldl HistoryEntryFile.applyTo (files'.foldl HistoryEntryFile.applyTo tree) := by
  induction files generalizing tree with
  | nil => rfl
  | cons file files ih =>
    rw [List.forall_mem_cons] at h
    rw [List.foldl_cons, List.foldl_cons, ih h.2, applyFile_comm h.1]

section Contents

variable {anchor : Option String} {view : ViewId} {before after : Views} {tree : LabelledTree}
  {set? : Option VisibilityChangeSet} {commit? : Option LogicalCommit} {cursor : ProjectionCursor}
  {boundary content : List ProjectedCommit} {shown : LiveFiles}

/-- What a replay of one update finds. -/
theorem ProjectsUpdate.replay (h : ProjectsUpdate before after view tree set? commit? boundary content)
    (repoId : String) (shown : LiveFiles) :
    let projected := ProjectionHistory.replay shown ⟨repoId, view, boundary ++ content⟩
    (∀ set ∈ set?, projected.visibility = ((setChanges before after view commit? (some tree)
        set).foldl (Replay.visibilityChange set.id) ⟨shown, .empty⟩).history.visibility ∧
      projected.boundaries = ((setChanges before after view commit? (some tree)
        set).foldl (Replay.visibilityChange set.id) ⟨shown, .empty⟩).history.boundaries) ∧
    ∀ commit ∈ commit?, ((projected.actions.get? commit.id).map (·.files)).getD [] =
      entryFiles (shownAfterSet before after view commit? tree set? shown)
        (visibleChanges after view commit) := by
  have hsets := Replay.sets_commits (fun projected hprojected => (h.content_from projected hprojected).1)
    (boundary.foldl Replay.commit ⟨shown, .empty⟩)
  have hboundary : ∀ set ∈ set?, boundary.foldl Replay.commit ⟨shown, .empty⟩ =
      (setChanges before after view commit? (some tree) set).foldl
        (Replay.visibilityChange set.id) ⟨shown, .empty⟩ := by
    intro set hset
    have hfrom : ∀ projected ∈ boundary, projected.visibilityChangeSetId = some set.id := by
      intro projected hprojected
      obtain ⟨other, hother, hid⟩ := h.boundary_from projected hprojected
      rwa [Option.mem_unique hother hset] at hid
    rw [Replay.setCommits hfrom, h.boundary_changes, Option.mem_def.mp hset, Option.elim_some]
  refine ⟨fun set hset => ?_, fun commit hcommit => ?_⟩
  · rw [ProjectionHistory.replay, List.foldl_append, hsets.1, hsets.2, hboundary set hset]
    exact ⟨rfl, rfl⟩
  · have hfrom : ∀ projected ∈ content, projected.visibilityChangeSetId = none ∧
        projected.logicalCommitId = commit.id := by
      intro projected hprojected
      obtain ⟨hnone, other, hother, hid⟩ := h.content_from projected hprojected
      exact ⟨hnone, Option.mem_unique hother hcommit ▸ hid⟩
    have hactions : (boundary.foldl Replay.commit ⟨shown, .empty⟩).history.actions = ∅ := by
      cases set? with
      | none =>
        have hnone : boundary = [] := by
          refine List.eq_nil_iff_forall_not_mem.mpr fun projected hprojected => ?_
          obtain ⟨set, hset, -⟩ := h.boundary_from projected hprojected
          cases hset
        rw [hnone]
        rfl
      | some set => rw [hboundary set rfl, Replay.actions_visibilityChanges]; rfl
    have htree : (boundary.foldl Replay.commit ⟨shown, .empty⟩).tree =
        shownAfterSet before after view commit? tree set? shown := by
      rw [Replay.tree_commits, applyCommits_eq_flatMap, h.boundary_changes]
      cases set? <;> rfl
    rw [ProjectionHistory.replay, List.foldl_append, Replay.files_commits hfrom, hactions, htree,
      h.content_changes, Option.mem_def.mp hcommit, Option.elim_some]
    rfl

theorem entrySource_of_appendsTo (appends : AppendsTo anchor [] before after set? commit?) :
    ∀ set ∈ set?, entrySource commit?.toList set =
      if set.views.isNone then commit?.map (·.id) else none := by
  intro set hset
  rw [entrySource, appends.source set hset]
  cases commit? with
  | none => cases set.views <;> rfl
  | some commit => cases set.views <;> simp

/-- The files that were found of a commit. -/
def commitFiles (projected : ProjectionHistory) (commit : LogicalCommit) : List HistoryEntryFile :=
  ((projected.actions.get? commit.id).map (·.files)).getD []

/-- The entries of one update write the files of its change set and of its commit; only a change set
without a transition of the views may come second. -/
theorem written_unlinkedEntries (appends : AppendsTo anchor [] before after set? commit?)
    (projected : ProjectionHistory) (views : Views) :
    let written := (unlinkedEntries projected views view commit?.toList set?.toList).flatMap
      (·.written)
    let sets := set?.elim [] (setFiles projected)
    let files := commit?.elim [] (commitFiles projected)
    written = sets ++ files ∨ (∀ set ∈ set?, set.views = none) ∧ written = files ++ sets := by
  have hsteps : foldSteps ⟨"", commit?.toList⟩ set?.toList =
      set?.toList.map FoldStep.set ++ commit?.toList.map FoldStep.commit := by
    refine HistoryRun.foldSteps_update (.nil : HistoryRun anchor ∅ before [] [] ∅ before) appends ""
  have hnodup : (commit?.toList.map (·.id)).Nodup := by cases commit? <;> simp
  have hsource := entrySource_of_appendsTo appends
  have hset : ∀ set ∈ set?, set.views.isSome = true ∨ commit? = none →
      (stepEntries projected views view commit?.toList set?.toList (.set set)).flatMap (·.written) =
        setFiles projected set := by
    intro set hmem hown
    have hnone : entrySource commit?.toList set = none := by
      rw [hsource set hmem]
      rcases hown with hviews | rfl
      · rw [Option.isNone_eq_false_iff.mpr hviews]
        rfl
      · split_ifs <;> rfl
    rw [stepEntries, hnone, Option.isSome_none, if_neg Bool.false_ne_true, written_visibilityAction]
  dsimp only
  rw [unlinkedEntries_eq_flatMap hnodup, hsteps, List.flatMap_append, List.flatMap_append]
  cases commit? with
  | none =>
    cases set? with
    | none => exact .inl rfl
    | some set =>
      left
      simpa using hset set rfl (.inr rfl)
  | some commit =>
    cases set? with
    | none =>
      left
      simp [stepEntries, written_contentAction, commitFiles]
    | some set =>
      have hsome := hsource set rfl
      cases hviews : set.views with
      | none =>
        rw [hviews, Option.isNone_none, if_pos rfl, Option.map_some] at hsome
        refine .inr ⟨by simpa using hviews, ?_⟩
        have hfilter : [set].filter (fun other =>
            entrySource [commit] other = some commit.id) = [set] := by
          rw [List.filter_cons_of_pos (by simpa using hsome), List.filter_nil]
        have hbelongs : stepEntries projected views view [commit] [set] (.set set) = [] := by
          rw [stepEntries]
          exact if_pos (by rw [show entrySource [commit] set = some commit.id from hsome]; rfl)
        have hcommit : (stepEntries projected views view [commit] [set] (.commit commit)).flatMap
            (·.written) = commitFiles projected commit ++ setFiles projected set := by
          rw [stepEntries, hfilter, written_contentAction, List.flatMap_singleton, setFiles, hviews,
            Option.isSome_none, if_neg Bool.false_ne_true, List.append_nil, commitFiles]
        simpa [hbelongs] using hcommit
      | some transition =>
        rw [hviews, Option.isNone_some, if_neg Bool.false_ne_true] at hsome
        have hfilter : [set].filter (fun other =>
            entrySource [commit] other = some commit.id) = [] := by
          rw [List.filter_cons_of_neg, List.filter_nil]
          rw [show entrySource [commit] set = none from hsome]
          simp
        have hcommit : (stepEntries projected views view [commit] [set] (.commit commit)).flatMap
            (·.written) = commitFiles projected commit := by
          rw [stepEntries, hfilter, written_contentAction, List.flatMap_nil, List.append_nil,
            commitFiles]
        have hown := hset set rfl (.inl (by rw [hviews]; rfl))
        left
        simpa using congrArg₂ (· ++ ·) hown hcommit

/-- The entries of one update write what its projection writes. -/
theorem written_update (appends : AppendsTo anchor [] before after set? commit?)
    (fits : FitsHistory tree before after set? commit?) (writes : WritesFiles tree set? commit?)
    (hcursor : cursor.views.visibilityShape = before.visibilityShape) (repoId : String)
    (views : Views) :
    let shown := tree.viewFiles before view
    let projection := projectGraphAfter cursor tree ⟨repoId, commit?.toList⟩ set?.toList view
    ((unlinkedEntries (.replay shown projection) views view commit?.toList set?.toList).flatMap
      (·.written)).foldl HistoryEntryFile.applyTo shown = projection.applyTo shown := by
  intro shown projection
  obtain ⟨boundary, content, hcommits, hprojects⟩ :=
    exists_projectsUpdate view appends fits hcursor repoId
  have hreplay : ProjectionHistory.replay shown projection =
      .replay shown ⟨repoId, view, boundary ++ content⟩ := by
    rw [ProjectionHistory.replay, hcommits]
    rfl
  obtain ⟨hset, hcommit⟩ := hprojects.replay repoId shown
  rw [hreplay]
  set projected := ProjectionHistory.replay shown ⟨repoId, view, boundary ++ content⟩
  set middle := shownAfterSet before after view commit? tree set? shown with hmiddle
  have happlied : projection.applyTo shown =
      (commit?.elim [] (visibleChanges after view)).foldl ProjectedChange.applyTo middle := by
    rw [Projection.applyTo, hcommits, applyCommits_append, applyCommits_eq_flatMap content,
      hprojects.content_changes, applyCommits_eq_flatMap, hprojects.boundary_changes, hmiddle]
    cases set? <;> rfl
  have hsets : (set?.elim [] (setFiles projected)).foldl HistoryEntryFile.applyTo shown = middle := by
    cases set? with
    | none => rfl
    | some set =>
      have hnodup : ((setChanges before after view commit? (some tree) set).map (·.path)).Nodup :=
        setChanges_paths_nodup (fits.relabels_nodup set rfl)
      refine applyFiles_setFiles (hset set rfl).1 hnodup ?_ (fits.relabels_nodup set rfl)
        (fun _ => named_of_mem_setChanges) (exactOn_setChanges fits rfl)
      rw [(hset set rfl).2, Replay.boundaries_visibilityChanges hnodup]
      rfl
  have hvisible : ∀ commit ∈ commit?, ((visibleChanges after view commit).map (·.path)).Nodup := by
    intro commit hmem
    rw [visibleChanges, List.map_map]
    exact (List.filter_sublist.map _).nodup (fits.changes_nodup commit hmem)
  have hfiles : (commit?.elim [] (commitFiles projected)).foldl HistoryEntryFile.applyTo middle =
      (commit?.elim [] (visibleChanges after view)).foldl ProjectedChange.applyTo middle := by
    cases commit? with
    | none => rfl
    | some commit =>
      rw [Option.elim_some, Option.elim_some, commitFiles, hcommit commit rfl]
      exact applyFiles_entryFiles (hvisible commit rfl) (exactOn_visibleChanges fits writes rfl)
  rw [happlied, ← hfiles, ← hsets, ← List.foldl_append]
  rcases written_unlinkedEntries appends projected views with hwritten | ⟨hviews, hwritten⟩
  · rw [hwritten]
  · rw [hwritten, List.foldl_append, List.foldl_append]
    refine applyFiles_comm (fun other hother file hfile => ?_) shown
    cases set? with
    | none => cases hfile
    | some set =>
      cases commit? with
      | none => cases hother
      | some commit =>
        have hnone := hviews set rfl
        rw [Option.elim_some, setFiles, hnone, Option.isSome_none, if_neg Bool.false_ne_true,
          List.append_nil] at hfile
        obtain ⟨relabel, hrelabel, hmade⟩ := List.mem_filterMap.mp hfile
        obtain ⟨-, change, hchange, hmade⟩ := exists_of_changeFile (hset set rfl).1
          (setChanges_paths_nodup (fits.relabels_nodup set rfl)) hmade
        rw [Option.elim_some, commitFiles, hcommit commit rfl,
          entryFiles_eq_filterMap (hvisible commit rfl)] at hother
        obtain ⟨visible, hmem, hother⟩ := List.mem_filterMap.mp hother
        rw [(path_of_entryFile hmade).1, (path_of_entryFile hother).1]
        exact path_ne_of_setChanges fits hnone hchange rfl hmem

end Contents

/-! ## Labels in the full view -/

section Labels

variable {anchor : Option String} {before after : Views} {tree : LabelledTree}
  {set? : Option VisibilityChangeSet} {commit? : Option LogicalCommit} {cursor : ProjectionCursor}
  {projected : ProjectionHistory} {views : Views}

/-- The labelled files as the tree of a history. -/
def HistoryTree.ofLabelled (tree : LabelledTree) : HistoryTree :=
  tree.mapValues fun path file => ⟨path, file.1, file.2⟩

@[simp]
theorem HistoryTree.get?_ofLabelled (tree : LabelledTree) (path : ScopePath) :
    (ofLabelled tree).get? path = (tree.get? path).map fun file => ⟨path, file.1, file.2⟩ :=
  SortedMap.get?_mapValues _ _ _

/-- The changes of labels that an entry of the full view lists: all of them, without files. -/
def relabelled (set : VisibilityChangeSet) : List HistoryEntryVisibilityChange :=
  set.changes.map fun change =>
    ⟨visibilityChangeId set.id change.path, change.path, change.oldLabel, change.newLabel, none⟩

theorem visibilityChangesForAction_full {sets : List VisibilityChangeSet}
    (hnothing : projected.visibility = ∅) (content : Option ProjectedAction) :
    visibilityChangesForAction projected views .privateView sets content =
      sets.flatMap relabelled := by
  unfold visibilityChangesForAction relabelled
  refine List.flatMap_congr fun set _ => ?_
  rw [← List.filterMap_eq_map]
  refine List.filterMap_congr fun change _ => ?_
  dsimp only
  rw [if_neg fun h => h.1 (Views.full_eq views).symm, hnothing]
  rfl

theorem applyRelabelled (set : VisibilityChangeSet) (tree : LabelledTree) :
    (relabelled set).foldl HistoryTree.applyVisibilityChange (.ofLabelled tree) =
      .ofLabelled (tree.relabel set) := by
  rw [relabelled, LabelledTree.relabel]
  induction set.changes generalizing tree with
  | nil => rfl
  | cons change changes ih =>
    have hstep : (HistoryTree.ofLabelled tree).applyVisibilityChange
        ⟨visibilityChangeId set.id change.path, change.path, change.oldLabel, change.newLabel, none⟩ =
          .ofLabelled (tree.relabelChange change) := by
      refine SortedMap.ext fun path => ?_
      rw [HistoryTree.applyVisibilityChange, HistoryTree.get?_ofLabelled]
      dsimp only
      rw [HistoryTree.get?_ofLabelled, LabelledTree.relabelChange]
      cases tree.get? change.path with
      | none => exact HistoryTree.get?_ofLabelled _ _
      | some file =>
        simp only [Option.map_some, SortedMap.get?_insert, HistoryTree.get?_ofLabelled]
        split_ifs with hpath
        · rw [hpath]
          rfl
        · rfl
    rw [List.map_cons, List.foldl_cons, hstep, ih, List.foldl_cons]

theorem applyFile_ofLabelled {file : HistoryEntryFile} {written : FileChange}
    (hpath : file.path = written.path) (hcontent : file.newContent = written.newContent)
    (hlabel : file.label = written.label) (tree : LabelledTree) :
    (HistoryTree.ofLabelled tree).applyFile file = .ofLabelled (tree.applyChange written) := by
  refine SortedMap.ext fun path => ?_
  rw [HistoryTree.applyFile, LabelledTree.applyChange, hcontent, hpath, hlabel,
    HistoryTree.get?_ofLabelled]
  cases written.newContent with
  | none =>
    simp only [SortedMap.get?_erase, HistoryTree.get?_ofLabelled]
    split_ifs <;> rfl
  | some content =>
    simp only [SortedMap.get?_insert, HistoryTree.get?_ofLabelled]
    split_ifs with h
    · rw [h]
      rfl
    · rfl

/-- Changes that all make a difference write their labels too. -/
theorem applyFiles_ofLabelled {shown : LiveFiles} {changes : List FileChange}
    (hdiffers : ∀ written ∈ changes,
      sourceContentMatches (shown.get? written.path) written.newContent = false)
    (tree : LabelledTree) :
    ((changes.map (·.projected)).filterMap (entryFile shown)).foldl HistoryTree.applyFile
        (.ofLabelled tree) = .ofLabelled (changes.foldl LabelledTree.applyChange tree) := by
  induction changes generalizing tree with
  | nil => rfl
  | cons written changes ih =>
    rw [List.forall_mem_cons] at hdiffers
    rw [List.map_cons, List.filterMap_cons, List.foldl_cons]
    cases hfile : entryFile shown written.projected with
    | none =>
      have hmatches := entryFile_eq_none hfile
      rw [FileChange.projected, hdiffers.1] at hmatches
      cases hmatches
    | some file =>
      obtain ⟨hpath, hcontent, hlabel⟩ := path_of_entryFile hfile
      dsimp only
      rw [List.foldl_cons, applyFile_ofLabelled hpath hcontent hlabel, ih hdiffers.2]

/-- A commit and the change set that belongs to it may be read in either order. -/
theorem relabel_applyCommit {set : VisibilityChangeSet} {commit : LogicalCommit}
    (fits : FitsHistory tree before after (some set) (some commit)) :
    (tree.applyCommit commit).relabel set = (tree.relabel set).applyCommit commit := by
  have hrelabels := fits.relabels_nodup set rfl
  have hchanges := fits.changes_nodup commit rfl
  refine SortedMap.ext fun path => ?_
  by_cases hnamed : ∃ change ∈ set.changes, change.path = path
  · obtain ⟨change, hchange, rfl⟩ := hnamed
    rw [LabelledTree.get?_relabel_of_mem hrelabels hchange]
    by_cases hwritten : ∃ written ∈ commit.changes, written.path = change.path
    · obtain ⟨written, hmem, hpath⟩ := hwritten
      have hlabel := fits.newLabel set rfl commit rfl change hchange written hmem hpath
      rw [← hpath, LabelledTree.get?_applyCommit_of_mem hchanges hmem,
        LabelledTree.get?_applyCommit_of_mem hchanges hmem, Option.map_map, hlabel]
      rfl
    · have hne : ∀ written ∈ commit.changes, written.path ≠ change.path := fun written hmem heq =>
        hwritten ⟨written, hmem, heq⟩
      rw [LabelledTree.get?_applyCommit_of_ne hne, LabelledTree.get?_applyCommit_of_ne hne,
        LabelledTree.get?_relabel_of_mem hrelabels hchange]
  · have hne : ∀ change ∈ set.changes, change.path ≠ path := fun change hchange heq =>
      hnamed ⟨change, hchange, heq⟩
    rw [LabelledTree.get?_relabel_of_ne hne]
    by_cases hwritten : ∃ written ∈ commit.changes, written.path = path
    · obtain ⟨written, hmem, rfl⟩ := hwritten
      rw [LabelledTree.get?_applyCommit_of_mem hchanges hmem,
        LabelledTree.get?_applyCommit_of_mem hchanges hmem]
    · have hunwritten : ∀ written ∈ commit.changes, written.path ≠ path := fun written hmem heq =>
        hwritten ⟨written, hmem, heq⟩
      rw [LabelledTree.get?_applyCommit_of_ne hunwritten,
        LabelledTree.get?_applyCommit_of_ne hunwritten, LabelledTree.get?_relabel_of_ne hne]

theorem applyVisibilityAction_full (hvisibility : projected.visibility = ∅)
    (hboundaries : projected.boundaries = ∅) (set : VisibilityChangeSet) (tree : LabelledTree) :
    (visibilityAction projected views .privateView set).toList.foldl HistoryTree.applyEntry
      (.ofLabelled tree) = .ofLabelled (tree.relabel set) := by
  have hchanges : ∀ content, visibilityChangesForAction projected views .privateView [set] content =
      relabelled set := by
    intro content
    rw [visibilityChangesForAction_full hvisibility, List.flatMap_singleton]
  have hboundary : viewsBoundaryChanges projected set = [] := by
    rw [viewsBoundaryChanges, hboundaries]
    rfl
  rw [← applyRelabelled, visibilityAction]
  dsimp only
  rw [hboundary, hchanges, hchanges]
  cases set.views with
  | some transition =>
    rw [List.append_nil]
    rfl
  | none =>
    by_cases hnothing : relabelled set = []
    · rw [if_pos hnothing, hnothing]
      rfl
    · rw [if_neg hnothing]
      rfl

theorem applyContentAction_full {sets : List VisibilityChangeSet}
    (hsets : ∀ content, visibilityChangesForAction projected views .privateView sets content =
      sets.flatMap relabelled) (logical : LogicalCommit) (tree : HistoryTree) :
    (contentAction projected views .privateView logical sets).toList.foldl HistoryTree.applyEntry
      tree = (sets.flatMap relabelled).foldl HistoryTree.applyVisibilityChange
        ((commitFiles projected logical).foldl HistoryTree.applyFile tree) := by
  rw [contentAction]
  dsimp only
  rw [hsets, commitFiles]
  split_ifs with hnothing
  · rw [hnothing.1, hnothing.2.1]
    rfl
  · rfl

/-- The entries of one update in the full view leave the files with their labels. -/
theorem applyEntries_update_full (appends : AppendsTo anchor [] before after set? commit?)
    (fits : FitsHistory tree before after set? commit?) (writes : WritesFiles tree set? commit?)
    (hcursor : cursor.views.visibilityShape = before.visibilityShape) (repoId : String)
    (views : Views) :
    let shown := tree.viewFiles before .privateView
    let projection :=
      projectGraphAfter cursor tree ⟨repoId, commit?.toList⟩ set?.toList .privateView
    (unlinkedEntries (.replay shown projection) views .privateView commit?.toList
      set?.toList).foldl HistoryTree.applyEntry (.ofLabelled tree) =
        .ofLabelled (tree.update set? commit?) := by
  intro shown projection
  obtain ⟨boundary, content, hcommits, hprojects⟩ :=
    exists_projectsUpdate .privateView appends fits hcursor repoId
  have hreplay : ProjectionHistory.replay shown projection =
      .replay shown ⟨repoId, .privateView, boundary ++ content⟩ := by
    rw [ProjectionHistory.replay, hcommits]
    rfl
  obtain ⟨hset, hcommit⟩ := hprojects.replay repoId shown
  rw [hreplay]
  set projected := ProjectionHistory.replay shown ⟨repoId, .privateView, boundary ++ content⟩
  have hnothing : ∀ set ∈ set?, projected.visibility = ∅ ∧ projected.boundaries = ∅ := by
    intro set hmem
    rw [(hset set hmem).1, (hset set hmem).2, setChanges_privateView]
    exact ⟨rfl, rfl⟩
  have hfiles : ∀ commit ∈ commit?, ∀ tree : LabelledTree,
      (commitFiles projected commit).foldl HistoryTree.applyFile (.ofLabelled tree) =
        .ofLabelled (tree.applyCommit commit) := by
    intro commit hmem tree'
    have hvisible : visibleChanges after .privateView commit = commit.changes.map (·.projected) := by
      simp [visibleChanges]
    have hnodup : ((commit.changes.map (·.projected)).map (·.path)).Nodup := by
      rw [List.map_map]
      exact fits.changes_nodup commit hmem
    rw [commitFiles, hcommit commit hmem, hvisible, HistoryRun.shownAfterSet_privateView,
      entryFiles_eq_filterMap hnodup, applyFiles_ofLabelled, LabelledTree.applyCommit]
    intro written hwritten
    have hshown : shown.get? written.path = (tree.get? written.path).map Prod.fst := by
      rw [LabelledTree.get?_viewFiles]
      cases tree.get? written.path <;> simp
    rw [hshown]
    exact writes.differs commit hmem written hwritten
  have hsource := entrySource_of_appendsTo appends
  have hsteps : foldSteps ⟨repoId, commit?.toList⟩ set?.toList =
      set?.toList.map FoldStep.set ++ commit?.toList.map FoldStep.commit :=
    HistoryRun.foldSteps_update (.nil : HistoryRun anchor tree before [] [] tree before) appends
      repoId
  have hnodup : (commit?.toList.map (·.id)).Nodup := by cases commit? <;> simp
  rw [unlinkedEntries_eq_flatMap hnodup, hsteps, List.flatMap_append, List.foldl_append]
  cases set? with
  | none =>
    cases commit? with
    | none => rfl
    | some commit =>
      have hnone : ∀ content, visibilityChangesForAction projected views .privateView [] content =
          [].flatMap relabelled := fun _ => rfl
      have happlied := applyContentAction_full hnone commit (.ofLabelled tree)
      rw [hfiles commit rfl] at happlied
      simpa [stepEntries, LabelledTree.update] using happlied
  | some set =>
    obtain ⟨hvisibility, hboundaries⟩ := hnothing set rfl
    have hbefore : (visibilityAction projected views .privateView set).toList.foldl
        HistoryTree.applyEntry (.ofLabelled tree) = .ofLabelled (tree.relabel set) :=
      applyVisibilityAction_full hvisibility hboundaries set tree
    have hown := hsource set rfl
    cases commit? with
    | none =>
      have hnone : entrySource [] set = none := by
        rw [show entrySource [] set = _ from hown]
        split_ifs <;> rfl
      simpa [stepEntries, hnone, LabelledTree.update] using hbefore
    | some commit =>
      have hsets : ∀ sets content, visibilityChangesForAction projected views .privateView sets
          content = sets.flatMap relabelled :=
        fun _ => visibilityChangesForAction_full hvisibility
      cases hviews : set.views with
      | none =>
        rw [hviews, Option.isNone_none, if_pos rfl, Option.map_some] at hown
        have hsome : entrySource [commit] set = some commit.id := hown
        have hfilter : [set].filter (fun other =>
            entrySource [commit] other = some commit.id) = [set] := by
          rw [List.filter_cons_of_pos (by simpa using hsome), List.filter_nil]
        have happlied := applyContentAction_full (hsets [set]) commit (.ofLabelled tree)
        rw [hfiles commit rfl, List.flatMap_singleton, applyRelabelled,
          relabel_applyCommit fits] at happlied
        simpa [stepEntries, hsome, hfilter, LabelledTree.update] using happlied
      | some transition =>
        rw [hviews, Option.isNone_some, if_neg Bool.false_ne_true] at hown
        have hnone : entrySource [commit] set = none := hown
        have hfilter : [set].filter (fun other =>
            entrySource [commit] other = some commit.id) = [] := by
          rw [List.filter_cons_of_neg, List.filter_nil]
          rw [hnone]
          simp
        have happlied := applyContentAction_full (hsets []) commit (.ofLabelled (tree.relabel set))
        rw [hfiles commit rfl] at happlied
        rw [← hbefore] at happlied
        simpa [stepEntries, hnone, hfilter, LabelledTree.update] using happlied

end Labels

end ScopeVcs

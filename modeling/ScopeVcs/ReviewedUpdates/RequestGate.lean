import ScopeVcs.Requests.ViewPaths
import ScopeVcs.ReviewedUpdates.ConfiguredLabels

/-! # The gates of a request

A request of a narrower view passes two gates: its commits may touch only editable paths when they are
pushed, and the merge checks the files that it changes once more. The first gate lets through exactly
what the view may know of, what passes it passes the second one as well, and a merge that passes the
second one leaves what its view hides alone.
-/

namespace ScopeVcs

open Mutation

/-! ## Protected paths -/

theorem isRequestProtectedPath_of_isRepoControlPath {path : ScopePath}
    (h : isRepoControlPath path = true) : isRequestProtectedPath path = true := by
  suffices hroot : rootComponent path = ".scope".toList by
    rw [isRequestProtectedPath, isCaseFoldedRepoControlPath, hroot]
    rfl
  rw [isRepoControlPath, Bool.or_eq_true_iff, beq_iff_eq] at h
  rcases h with h | h
  · rw [rootComponent, ScopePath.chars, h]
    decide
  · obtain ⟨rest, hrest⟩ := List.isPrefixOf_iff_prefix.mp h
    have hsplit : (".scope".toList ++ '/' :: rest).splitOnP (· == '/') =
        ".scope".toList :: rest.splitOnP (· == '/') :=
      List.splitOnP_append_cons_of_forall_mem (by simp) '/' (by decide) rest
    rw [rootComponent, ScopePath.chars, ← hrest, List.splitOn_eq_splitOnP]
    exact congrArg (List.headD · []) hsplit

theorem isPrivateControlPath_of_not_protected {path : ScopePath}
    (h : isRequestProtectedPath path = false) : isPrivateControlPath path = false := by
  cases hcontrol : isRepoControlPath path with
  | false => rw [isPrivateControlPath, hcontrol, Bool.false_and]
  | true =>
    rw [isRequestProtectedPath_of_isRepoControlPath hcontrol] at h
    cases h

/-- On a path that is not protected a narrower view shows just its labels. -/
theorem Views.shows_iff_mem_labels {views : Views} {view label : ViewId} {path : ScopePath}
    (hview : view ≠ .privateView) (h : isRequestProtectedPath path = false) :
    views.shows view path label = true ↔ label ∈ views.labels view := by
  rw [Views.shows_of_ne hview, isPrivateControlPath_of_not_protected h, and_iff_left rfl]

/-! ## The gate at a push -/

namespace Repository

variable {repo : Repository}

/-- What the gate of a view knows of the paths that a request touches. -/
def requestViewPaths (repo : Repository) (view : ViewId) (paths : List ScopePath) :
    RequestViewPaths :=
  .new repo.repoConfig repo.repoConfig.views view
    (.ofList ((repo.projectedFiles view).keys.map (·.asStr))) (repo.pathHistory paths)

/-- The paths that the gate reads the history of: those that the commits of a request change, as Git
lists them. -/
def changedScopePaths (changed : List (String × List String)) : List ScopePath :=
  (SortedSet.ofList ((changed.flatMap (·.2)).filterMap fun path =>
    (ScopePath.parse ("/" ++ path)).toOption)).toList

/-- The changed paths of each commit of a request, if the request may touch them all. -/
def requestChangedPaths (repo : Repository) (view : ViewId) (changed : List (String × List String)) :
    Except CommitPathError (List (String × List ScopePath)) :=
  let policy := repo.requestViewPaths view (changedScopePaths changed)
  changed.mapM fun (oid, paths) => do
    let changedPaths ← ensureViewRequestCommitPaths policy paths
    return (oid, changedPaths)

/-- The history gives a path this label, before or after some change. -/
def GivesLabel (repo : Repository) (path : ScopePath) (label : ViewId) : Prop :=
  (∃ commit ∈ repo.graph.commits, ∃ change ∈ commit.changes,
    change.path = path ∧ change.label = label) ∨
  ∃ set ∈ repo.visibilityChangeSets, ∃ change ∈ set.changes,
    change.path = path ∧ (change.oldLabel = label ∨ change.newLabel = label)

variable {paths : List ScopePath} {path : ScopePath} {view : ViewId}

theorem mem_fileChangeLabels {change : ScopePath × ViewId} (hpath : change.1 ∈ paths) :
    change ∈ (repo.pathHistory paths).fileChangeLabels ↔
      ∃ commit ∈ repo.graph.commits, ∃ written ∈ commit.changes,
        written.path = change.1 ∧ written.label = change.2 := by
  simp only [pathHistory, List.mem_filterMap, List.mem_flatMap, Option.ite_none_right_eq_some,
    Option.some_inj, Prod.ext_iff]
  constructor
  · rintro ⟨written, ⟨commit, hcommit, hwritten⟩, -, heq⟩
    exact ⟨commit, hcommit, written, hwritten, heq⟩
  · rintro ⟨commit, hcommit, written, hwritten, heq⟩
    exact ⟨written, ⟨commit, hcommit, hwritten⟩, heq.1 ▸ hpath, heq⟩

theorem mem_visibilityChanges {change : ScopePath × ViewId × ViewId} (hpath : change.1 ∈ paths) :
    change ∈ (repo.pathHistory paths).visibilityChanges ↔
      ∃ set ∈ repo.visibilityChangeSets, ∃ relabelled ∈ set.changes,
        relabelled.path = change.1 ∧ relabelled.oldLabel = change.2.1 ∧
          relabelled.newLabel = change.2.2 := by
  simp only [pathHistory, List.mem_filterMap, List.mem_flatMap, Option.ite_none_right_eq_some,
    Option.some_inj, Prod.ext_iff]
  constructor
  · rintro ⟨relabelled, ⟨set, hset, hrelabelled⟩, -, heq⟩
    exact ⟨set, hset, relabelled, hrelabelled, heq⟩
  · rintro ⟨set, hset, relabelled, hrelabelled, heq⟩
    exact ⟨relabelled, ⟨set, hset, hrelabelled⟩, heq.1 ▸ hpath, heq⟩

/-- The labels that were read for a path are those that the history gives it. -/
theorem mem_labels_pathHistory (hpath : path ∈ paths) {label : ViewId} :
    label ∈ (repo.pathHistory paths).labels path ↔ repo.GivesLabel path label := by
  rw [PathHistory.labels, SortedSet.mem_toList_ofList, List.mem_append, GivesLabel]
  refine or_congr ?_ ?_
  · simp only [List.mem_map, List.mem_filter, decide_eq_true_eq]
    constructor
    · rintro ⟨change, ⟨hchange, rfl⟩, rfl⟩
      exact (mem_fileChangeLabels hpath).mp hchange
    · intro h
      exact ⟨(path, label), ⟨(mem_fileChangeLabels hpath).mpr h, rfl⟩, rfl⟩
  · simp only [List.mem_flatMap, List.mem_filter, decide_eq_true_eq, List.mem_cons,
      List.not_mem_nil, or_false]
    constructor
    · rintro ⟨change, ⟨hchange, rfl⟩, hlabel⟩
      obtain ⟨set, hset, relabelled, hrelabelled, hsame, hold, hnew⟩ :=
        (mem_visibilityChanges hpath).mp hchange
      exact ⟨set, hset, relabelled, hrelabelled, hsame,
        hlabel.imp (hold ▸ ·.symm) (hnew ▸ ·.symm)⟩
    · rintro ⟨set, hset, relabelled, hrelabelled, rfl, hlabel⟩
      exact ⟨(relabelled.path, relabelled.oldLabel, relabelled.newLabel),
        ⟨(mem_visibilityChanges hpath).mpr ⟨set, hset, relabelled, hrelabelled, rfl, rfl, rfl⟩,
          rfl⟩, hlabel.imp Eq.symm Eq.symm⟩

/-- A path counts as hidden once if the history gives it a label that the view does not include. -/
theorem contains_hiddenHistoryPaths (hpath : path ∈ paths) :
    (repo.requestViewPaths view paths).hiddenHistoryPaths.contains path = false ↔
      ∀ label, repo.GivesLabel path label → label ∈ repo.repoConfig.views.labels view := by
  rw [Bool.eq_false_iff, Ne, SortedSet.contains_iff_mem_toList]
  simp only [requestViewPaths, RequestViewPaths.new, SortedSet.mem_toList_ofList, List.mem_append,
    List.mem_map, List.mem_filter, decide_eq_true_eq]
  constructor
  · intro h label hlabel
    by_contra hhidden
    refine h (hlabel.imp (fun hrecorded => ?_) ?_)
    · exact ⟨(path, label), ⟨(mem_fileChangeLabels hpath).mpr hrecorded, hhidden⟩, rfl⟩
    · rintro ⟨set, hset, change, hchange, rfl, heq⟩
      refine ⟨(change.path, change.oldLabel, change.newLabel),
        ⟨(mem_visibilityChanges hpath).mpr ⟨set, hset, change, hchange, rfl, rfl, rfl⟩, ?_⟩, rfl⟩
      exact heq.imp (fun (hold : change.oldLabel = label) => hold ▸ hhidden)
        fun (hnew : change.newLabel = label) => hnew ▸ hhidden
  · rintro h (⟨change, ⟨hchange, hhidden⟩, rfl⟩ | ⟨change, ⟨hchange, hhidden⟩, rfl⟩)
    · exact hhidden (h _ (.inl ((mem_fileChangeLabels hpath).mp hchange)))
    · obtain ⟨set, hset, relabelled, hrelabelled, hsame, hold, hnew⟩ :=
        (mem_visibilityChanges hpath).mp hchange
      rcases hhidden with hhidden | hhidden
      · exact hhidden (h _ (.inr ⟨set, hset, relabelled, hrelabelled, hsame, .inl hold⟩))
      · exact hhidden (h _ (.inr ⟨set, hset, relabelled, hrelabelled, hsame, .inr hnew⟩))

theorem contains_livePaths (hpath : path ∈ paths) :
    (repo.pathHistory paths).livePaths.contains path = true ↔
      (repo.liveFiles.get? path).isSome = true := by
  rw [SortedSet.contains_iff_mem_toList, pathHistory, SortedSet.mem_toList_ofList, List.mem_filter,
    SortedMap.mem_keys, Option.isSome_iff_exists, decide_eq_true_eq, and_iff_left hpath]

theorem contains_visiblePaths :
    (repo.requestViewPaths view paths).visiblePaths.contains path.asStr = true ↔
      ((repo.projectedFiles view).get? path).isSome = true := by
  rw [SortedSet.contains_iff_mem_toList, requestViewPaths, RequestViewPaths.new]
  dsimp only
  rw [SortedSet.mem_toList_ofList, List.mem_map_of_injective ScopePath.asStr_injective,
    SortedMap.mem_keys, Option.isSome_iff_exists]

/-- The gate lets a path through if it is not protected, its configured label is one of the view, and
it is live or had no other labels than those of the view. -/
theorem ensureEditable_iff (hfollows : repo.FollowsConfig)
    (hprojected : repo.projectedFiles view = repo.shownFiles view) (hview : view ≠ .privateView)
    (hpath : path ∈ paths) :
    (repo.requestViewPaths view paths).ensureEditable path = .ok () ↔
      isRequestProtectedPath path = false ∧
        repo.repoConfig.views.shows view path (repo.repoConfig.labelForPath path) = true ∧
        ((repo.liveFiles.get? path).isSome = true ∨
          ∀ label, repo.GivesLabel path label → repo.repoConfig.views.shows view path label = true) := by
  rw [RequestViewPaths.ensureEditable_eq_ok]
  refine and_congr_right fun hprotected => ?_
  have hshows : ∀ label, repo.repoConfig.views.shows view path label = true ↔
      label ∈ repo.repoConfig.views.labels view :=
    fun _ => Views.shows_iff_mem_labels hview hprotected
  have hlive : (repo.pathHistory paths).livePaths.contains path =
      (repo.liveFiles.get? path).isSome := Bool.eq_iff_iff.mpr (contains_livePaths hpath)
  have hlabels : (repo.requestViewPaths view paths).labels = repo.repoConfig.views.labels view := rfl
  have hlivePaths : (repo.requestViewPaths view paths).livePaths =
    (repo.pathHistory paths).livePaths := rfl
  have hconfig : (repo.requestViewPaths view paths).repoConfig = repo.repoConfig := rfl
  rw [contains_visiblePaths, contains_hiddenHistoryPaths hpath, hlivePaths, hlive, hlabels, hconfig,
    hprojected, hfollows.get?_shownFiles]
  simp only [hshows]
  cases hcontent : repo.liveFiles.get? path with
  | none => simp [and_comm]
  | some blob => simp [Option.filter_some, hshows]

/-- A path with no label hidden from a reader is shown to the reader under one of its labels. -/
theorem shows_requestLabel (hfollows : repo.FollowsConfig) (hpath : path ∈ paths)
    (hconfig : repo.repoConfig.views.shows view path (repo.repoConfig.labelForPath path) = true)
    (hlabels : (repo.liveFiles.get? path).isSome = true ∨
      ∀ label, repo.GivesLabel path label → repo.repoConfig.views.shows view path label = true) :
    repo.repoConfig.views.shows view path (repo.policy.requestLabel repo.repoConfig
      (repo.pathHistory paths) view path) = true := by
  unfold Policy.requestLabel
  have hrule : repo.policy.rules.contains path = (repo.liveFiles.get? path).isSome :=
    hfollows.rule_isSome path
  have hlivePath : (repo.pathHistory paths).livePaths.contains path =
      (repo.liveFiles.get? path).isSome := Bool.eq_iff_iff.mpr (contains_livePaths hpath)
  rw [hrule, hlivePath, Bool.or_self]
  cases hlive : repo.liveFiles.get? path with
  | some blob =>
    rw [Option.isSome_some, if_pos rfl, hfollows.label_eq hlive]
    exact hconfig
  | none =>
    rw [Option.isSome_none, if_neg Bool.false_ne_true]
    rw [hlive, Option.isSome_none] at hlabels
    have hshown := fun label hlabel => (hlabels.resolve_left Bool.false_ne_true) label
      ((mem_labels_pathHistory hpath).mp hlabel)
    cases hrecorded : (repo.pathHistory paths).labels path with
    | nil => exact hconfig
    | cons first labels =>
      rw [hrecorded] at hshown
      have hnone : (first :: labels).find? (fun label =>
          !repo.repoConfig.views.shows view path label) = none :=
        List.find?_eq_none.mpr fun label hlabel => by simp [hshown label hlabel]
      dsimp only
      rw [hnone]
      exact hshown first List.mem_cons_self

/-- What a request may touch, the readers of its view may see. -/
theorem canRead_of_editable (hfollows : repo.FollowsConfig)
    (hprojected : repo.projectedFiles view = repo.shownFiles view) (hview : view ≠ .privateView)
    (hpath : path ∈ paths)
    (heditable : (repo.requestViewPaths view paths).ensureEditable path = .ok ()) :
    (repo.policy.forRequestPaths repo.repoConfig (repo.pathHistory paths) view paths).canRead path
      view repo.repoConfig.views = true := by
  obtain ⟨hprotected, hconfig, hlabels⟩ :=
    (ensureEditable_iff hfollows hprojected hview hpath).mp heditable
  have hcontrol : isRepoControlPath path = false := by
    cases hcontrol : isRepoControlPath path with
    | false => rfl
    | true =>
      rw [isRequestProtectedPath_of_isRepoControlPath hcontrol] at hprotected
      cases hprotected
  have hrules : isRepoRulesPath path = false := by
    cases hrules : isRepoRulesPath path with
    | false => rfl
    | true =>
      rw [isRepoControlPath_of_isRepoRulesPath hrules] at hcontrol
      cases hcontrol
  have hrule := Policy.get?_rules_forRequestPaths repo.policy repo.repoConfig
    (repo.pathHistory paths) view paths path
  rw [if_pos hpath] at hrule
  rw [Policy.canRead, Policy.label, isPrivateControlPath, hrules, hcontrol,
    Policy.effectiveRule_of_rule hrule]
  exact shows_requestLabel hfollows hpath hconfig hlabels

theorem editable_of_requestChangedPaths {changed : List (String × List String)}
    {commitPaths : List (String × List ScopePath)}
    (h : repo.requestChangedPaths view changed = .ok commitPaths) :
    ∀ path ∈ commitPaths.flatMap (·.2), path ∈ changedScopePaths changed ∧
      (repo.requestViewPaths view (changedScopePaths changed)).ensureEditable path = .ok () := by
  intro path hpath
  obtain ⟨⟨oid, changedPaths⟩, hcommit, hpath⟩ := List.mem_flatMap.mp hpath
  obtain ⟨⟨oid', texts⟩, hmem, hchecked⟩ := mem_of_mapM_eq_ok h _ hcommit
  obtain ⟨checked, hchecked, heq⟩ := except_bind_eq_ok.mp hchecked
  cases heq
  obtain ⟨heditable, text, htext, hparse⟩ := ensureEditable_of_mem hchecked path hpath
  refine ⟨?_, heditable⟩
  rw [changedScopePaths, SortedSet.mem_toList_ofList, List.mem_filterMap]
  exact ⟨text, List.mem_flatMap.mpr ⟨(oid, texts), hmem, htext⟩, toOption_eq_some.mpr hparse⟩

end Repository

/-! ## The gate at a merge -/

section Merge

variable {repo : Repository} {update : ReviewedUpdateInput} {view : ViewId}
  {requestId baseOid requestHeadOid : String} {parentOids : List String} {landed : Bool}
  {commits : List NativeRequestCommit} {changes : List FileChange} {config : RepoConfig}

/-- A file that a merge may change. -/
def EditableIn (views : Views) (view : ViewId) (path : ScopePath) (label : ViewId) : Prop :=
  label ∈ views.labels view ∧ isRequestProtectedPath path = false

theorem validateCommitOrigin_editable (h : validateCommitOrigin (.requestMerge requestId view baseOid
      parentOids requestHeadOid landed commits) changes config = .ok ()) :
    view ≠ .privateView ∧ ∀ change ∈ changes, EditableIn config.views view change.path change.label := by
  obtain ⟨hview, h⟩ := except_unit_bind_eq_ok.mp h
  obtain ⟨heditable, -⟩ := except_unit_bind_eq_ok.mp h
  rw [rejectIf_eq_ok] at hview heditable
  push Not at hview
  rw [Views.full_eq] at hview
  refine ⟨hview.2, fun change hchange => ?_⟩
  rw [Bool.not_eq_true, List.any_eq_false] at heditable
  have := heditable change hchange
  simpa [EditableIn] using this

/-- What the walk over the native commits rejects is a commit out of order or a foreign parent. -/
theorem eq_of_nativeWalk_error {rangeOids viewParentOids : List String}
    {outside error : ReviewedUpdateError} {walk : NativeWalk}
    (h : commits.foldlM (NativeWalk.commit baseOid rangeOids viewParentOids outside) walk =
      .error error) :
    error = .conflict "request merge native commits are not ordered ancestor-first" ∨
      error = outside := by
  obtain ⟨commit, -, walk, h⟩ := exists_foldlM_eq_error h
  unfold NativeWalk.commit at h
  rcases except_bind_eq_error.mp h with h | ⟨_, -, h⟩
  · obtain ⟨parent, -, walk, h⟩ := exists_foldlM_eq_error h
    unfold NativeWalk.parent at h
    dsimp only at h
    split_ifs at h
    · exact .inl (Except.error.inj h).symm
    · exact .inr (Except.error.inj h).symm
  · cases h

/-- The refusals of a merge because of the paths that it changes. -/
def pathRefusals : List ReviewedUpdateError :=
  [.conflict "request merge contains changes outside its view",
    .conflict "request merge native paths do not cover the logical changes"]

/-- A merge of editable changes that its commits cover is not refused because of its paths. -/
theorem validateCommitOrigin_ne_pathRefusal {error : ReviewedUpdateError}
    (hchanges : ∀ change ∈ changes, EditableIn config.views view change.path change.label ∧
      change.path ∈ commits.flatMap (·.changedPaths))
    (htouched : ∀ path ∈ commits.flatMap (·.changedPaths),
      EditableIn config.views view path (config.labelForPath path))
    (h : validateCommitOrigin (.requestMerge requestId view baseOid parentOids requestHeadOid landed
      commits) changes config = .error error) : error ∉ pathRefusals := by
  unfold validateCommitOrigin at h
  rcases except_bind_eq_error.mp h with h | ⟨-, -, h⟩
  · rw [← (rejectIf_eq_error.mp h).2]
    decide
  rcases except_bind_eq_error.mp h with h | ⟨-, -, h⟩
  · obtain ⟨hoff, -⟩ := rejectIf_eq_error.mp h
    rw [List.any_eq_true] at hoff
    obtain ⟨change, hchange, hoff⟩ := hoff
    have := (hchanges change hchange).1
    simp [this.1, this.2] at hoff
  cases hlast : commits.getLast? with
  | none =>
    rw [hlast] at h
    rw [← Except.error.inj h]
    decide
  | some last =>
    rw [hlast] at h
    rcases except_bind_eq_error.mp h with h | ⟨-, -, h⟩
    · rw [← (rejectIf_eq_error.mp h).2]
      decide
    rcases except_bind_eq_error.mp h with h | ⟨-, -, h⟩
    · rw [← (rejectIf_eq_error.mp h).2]
      decide
    rcases except_bind_eq_error.mp h with h | ⟨-, -, h⟩
    · obtain ⟨hoff, -⟩ := rejectIf_eq_error.mp h
      rcases hoff with hoff | hoff
      · rw [List.any_eq_true] at hoff
        obtain ⟨path, hpath, hoff⟩ := hoff
        have := htouched path hpath
        simp [this.1, this.2] at hoff
      · rw [List.any_eq_true] at hoff
        obtain ⟨change, hchange, hoff⟩ := hoff
        exact absurd (hchanges change hchange).2 (by simpa using hoff)
    rcases except_bind_eq_error.mp h with h | ⟨walk, -, h⟩
    · rcases eq_of_nativeWalk_error h with rfl | rfl
      · decide
      · simp [pathRefusals]
    · rw [← (rejectIf_eq_error.mp h).2]
      decide

end Merge

/-! ### The changes of an update that keeps the configuration -/

section Accepted

variable {repo : Repository} {update : ReviewedUpdateInput} {allowUnchangedTree : Bool}
  {origin : LogicalCommitOrigin} {accepted : AcceptedContentPush} {written : FileChange}

/-- A change carries the configured label of its path. -/
theorem label_of_mem_fileChanges (hfollows : repo.FollowsConfig)
    (hconfig : update.config = repo.repoConfig)
    (hwritten : written ∈ repo.contentPushState.fileChanges update) :
    written.label = repo.repoConfig.labelForPath written.path := by
  obtain ⟨hold, hlabel⟩ := eq_of_mem_buildFileChanges hwritten
  have hlive : ∀ blob, written.oldContent = some blob →
      repo.policy.label written.path update.config.views =
        repo.repoConfig.labelForPath written.path :=
    fun blob hblob => hfollows.label_eq (hold.symm.trans hblob) _
  rw [hlabel]
  cases hnew : written.newContent with
  | none =>
    obtain ⟨blob, hblob⟩ := Option.ne_none_iff_exists'.mp (oldContent_of_deleted hwritten hnew)
    exact hlive blob hblob
  | some content =>
    cases hcontent : written.oldContent with
    | none => exact congrArg (RepoConfig.labelForPath · written.path) hconfig
    | some blob => exact hlive blob hcontent

theorem exists_mem_changes (hwritten : written ∈ repo.contentPushState.fileChanges update) :
    ∃ change ∈ update.changes, change.path = written.path := by
  obtain ⟨change, hchange, hwritten⟩ := List.mem_filterMap.mp hwritten
  obtain ⟨-, hwritten⟩ := Option.ite_none_left_eq_some.mp hwritten
  exact ⟨change, hchange, congrArg FileChange.path (Option.some.inj hwritten)⟩

/-- Before it checks the origin, an update is refused for its head, its emptiness or its
configuration, and afterwards for its policy. -/
theorem exists_origin_error {error : ReviewedUpdateError}
    (herror : error ∈ pathRefusals)
    (h : acceptContentUpdate repo.contentPushState update allowUnchangedTree origin =
      .error error) :
    update.config = repo.repoConfig ∧ validateCommitOrigin origin
      (repo.contentPushState.fileChanges update) update.config = .error error := by
  unfold acceptContentUpdate at h
  rcases except_bind_eq_error.mp h with h | ⟨-, -, h⟩
  · obtain ⟨reason, -, rfl⟩ := mapError_eq_error.mp h
    cases reason <;> exact absurd herror (by decide)
  rcases except_bind_eq_error.mp h with h | ⟨-, -, h⟩
  · rw [← (rejectIf_eq_error.mp h).2] at herror
    exact absurd herror (by decide)
  rcases except_bind_eq_error.mp h with h | ⟨_, hconfig, h⟩
  · rw [← (rejectIf_eq_error.mp h).2] at herror
    exact absurd herror (by decide)
  rcases except_bind_eq_error.mp h with h | ⟨-, -, h⟩
  · rw [← (rejectIf_eq_error.mp h).2] at herror
    exact absurd herror (by decide)
  rcases except_bind_eq_error.mp h with h | ⟨-, -, h⟩
  · exact ⟨not_not.mp (rejectIf_eq_ok.mp hconfig), h⟩
  rcases except_bind_eq_error.mp h with h | ⟨policy, -, h⟩
  · obtain ⟨reason, -, rfl⟩ := mapError_eq_error.mp h
    simp [pathRefusals] at herror
  · cases h

theorem validateCommitOrigin_of_accepted
    (h : acceptContentUpdate repo.contentPushState update allowUnchangedTree origin =
      .ok accepted) :
    validateCommitOrigin origin (repo.contentPushState.fileChanges update) update.config =
      .ok () := by
  unfold acceptContentUpdate at h
  obtain ⟨-, h⟩ := except_unit_bind_eq_ok.mp h
  obtain ⟨-, h⟩ := except_unit_bind_eq_ok.mp h
  obtain ⟨-, h⟩ := except_unit_bind_eq_ok.mp h
  obtain ⟨-, h⟩ := except_unit_bind_eq_ok.mp h
  obtain ⟨horigin, -⟩ := except_unit_bind_eq_ok.mp h
  exact horigin

end Accepted

namespace PushedRepository

variable {state next : PushedRepository} {plain : ScopePath → Prop} {view : ViewId}
  {requestId baseOid requestHeadOid : String} {parentOids : List String}
  {commits : List NativeRequestCommit} {update : ReviewedUpdateInput}

/-! ## A merge through the public view -/

namespace ViewMerge

open FirstPush

def edit : NativeRequestCommit where
  oid := "edit"
  treeOid := "tree"
  parentOids := ["base"]
  changedPaths := [readme]

/-- The merge of a request that edits the public file. -/
def mergeUpdate : ReviewedUpdateInput where
  occurredAtUnix := some 200
  authorId := "contributor"
  message := "edit"
  gitHead := ⟨"2", 2, 3, "frontier"⟩
  mainPack := ⟨"pack2", .main 2 2, "2", ["1"], .inline []⟩
  changes := [⟨readme, some SecondPush.edited⟩]
  previousConfig := none
  config := FirstPush.update.config
  openRequestsByView := ∅

def origin : RequestMergeOrigin := .view "request" .publicView "base" ["base"] "edit" [edit]

def merged : PushedRepository :=
  ⟨final (applyRequestMergeToRepo mergeUpdate origin) FirstPush.pushed.repo, ["2", "1"]⟩

theorem plainUpdate_merged :
    PlainUpdate (fun _ => True) (.merge mergeUpdate origin) FirstPush.pushed merged :=
  ⟨SecondPush.plain_first, by decide, by decide, ⟨mergeUpdate.mainPack, rfl⟩, rfl⟩

end ViewMerge

end PushedRepository

end ScopeVcs

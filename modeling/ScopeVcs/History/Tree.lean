import ScopeVcs.History.Batches

/-! # The tree of a history

Reading the entries of a view from the oldest on gives back the files that the view shows: what the
entries write, step by step, is what the projection writes. The full view also gives back the labels.
-/

namespace ScopeVcs

/-! ## What entries write -/

section Written

variable {tree : HistoryTree}

/-- Write one file of an entry into a tree. -/
def HistoryEntryFile.applyTo (tree : LiveFiles) (file : HistoryEntryFile) : LiveFiles :=
  match file.newContent with
  | some content => tree.insert file.path content
  | none => tree.erase file.path

@[simp]
theorem HistoryEntryFile.get?_applyTo (tree : LiveFiles) (file : HistoryEntryFile)
    (path : ScopePath) :
    (file.applyTo tree).get? path =
      if path = file.path then file.newContent else tree.get? path := by
  unfold applyTo
  cases file.newContent <;> simp

/-- The files that an entry writes, in the order in which they are read. -/
def ViewHistoryEntry.written (entry : ViewHistoryEntry) : List HistoryEntryFile :=
  entry.files ++ entry.visibilityChanges.filterMap (·.file)

namespace HistoryTree

def contents (tree : HistoryTree) : LiveFiles := tree.mapValues fun _ file => file.content

@[simp]
theorem get?_contents (tree : HistoryTree) (path : ScopePath) :
    tree.contents.get? path = (tree.get? path).map (·.content) :=
  SortedMap.get?_mapValues _ _ _

theorem contents_applyFile (tree : HistoryTree) (file : HistoryEntryFile) :
    (tree.applyFile file).contents = file.applyTo tree.contents := by
  refine SortedMap.ext fun path => ?_
  rw [HistoryEntryFile.get?_applyTo, get?_contents, get?_contents, applyFile]
  cases file.newContent with
  | none => rw [SortedMap.get?_erase]; split_ifs <;> rfl
  | some content => rw [SortedMap.get?_insert]; split_ifs <;> rfl

/-- A change of a label alone leaves the contents. -/
theorem contents_applyVisibilityChange (tree : HistoryTree) (change : HistoryEntryVisibilityChange) :
    (tree.applyVisibilityChange change).contents =
      change.file.toList.foldl HistoryEntryFile.applyTo tree.contents := by
  unfold applyVisibilityChange
  cases change.file with
  | some file => exact contents_applyFile tree file
  | none =>
    dsimp only
    cases hfile : tree.get? change.path with
    | none => rfl
    | some file =>
      refine SortedMap.ext fun path => ?_
      rw [Option.toList_none, List.foldl_nil, get?_contents, get?_contents, SortedMap.get?_insert]
      split_ifs with hpath
      · rw [hpath, hfile]
        rfl
      · rfl

theorem contents_applyEntry (tree : HistoryTree) (entry : ViewHistoryEntry) :
    (tree.applyEntry entry).contents =
      entry.written.foldl HistoryEntryFile.applyTo tree.contents := by
  have hfiles : ∀ tree : HistoryTree, (entry.files.foldl applyFile tree).contents =
      entry.files.foldl HistoryEntryFile.applyTo tree.contents := by
    intro tree
    induction entry.files generalizing tree with
    | nil => rfl
    | cons file files ih => rw [List.foldl_cons, ih, contents_applyFile, List.foldl_cons]
  have hchanges : ∀ tree : HistoryTree,
      (entry.visibilityChanges.foldl applyVisibilityChange tree).contents =
        (entry.visibilityChanges.filterMap (·.file)).foldl HistoryEntryFile.applyTo
          tree.contents := by
    intro tree
    induction entry.visibilityChanges generalizing tree with
    | nil => rfl
    | cons change changes ih =>
      rw [List.foldl_cons, ih, contents_applyVisibilityChange, List.filterMap_cons]
      cases change.file <;> rfl
  rw [applyEntry, hchanges, hfiles, ViewHistoryEntry.written, List.foldl_append]

theorem contents_applyEntries (tree : HistoryTree) (entries : List ViewHistoryEntry) :
    (entries.foldl applyEntry tree).contents =
      (entries.flatMap (·.written)).foldl HistoryEntryFile.applyTo tree.contents := by
  induction entries generalizing tree with
  | nil => rfl
  | cons entry entries ih =>
    rw [List.foldl_cons, ih, contents_applyEntry, List.flatMap_cons, List.foldl_append]

end HistoryTree

/-- Linking the entries changes nothing that they write. -/
theorem applyEntries_linkEntries (digest : HistoryDigest) (cursor : HistoryCursor)
    (entries : List ViewHistoryEntry) (tree : HistoryTree) :
    (linkEntries digest cursor entries).1.foldl HistoryTree.applyEntry tree =
      entries.foldl HistoryTree.applyEntry tree := by
  induction entries generalizing cursor tree with
  | nil => rfl
  | cons entry entries ih =>
    rw [linkEntries, List.foldl_cons, List.foldl_cons]
    exact ih _ _

end Written

/-! ## Files against changes -/

section Files

variable {tree : LiveFiles} {changes : List ProjectedChange} {files : List HistoryEntryFile}

/-- A change of a tree that the entries pass over makes no difference. -/
def ExactOn (tree : LiveFiles) (changes : List ProjectedChange) : Prop :=
  ∀ change ∈ changes, sourceContentMatches (tree.get? change.path) change.newContent = true →
    tree.get? change.path = change.newContent

theorem sourceContentMatches_none {content : Option SourceBlob}
    (h : sourceContentMatches content none = true) : content = none := by
  cases content with
  | none => rfl
  | some blob => cases h

theorem entryFile_eq_none {change : ProjectedChange} (h : entryFile tree change = none) :
    sourceContentMatches (tree.get? change.path) change.newContent = true := by
  unfold entryFile at h
  dsimp only at h
  by_contra hdiffers
  rw [if_neg hdiffers] at h
  cases hold : tree.get? change.path with
  | none =>
    cases hnew : change.newContent with
    | none => exact hdiffers (by rw [hold, hnew]; rfl)
    | some content => rw [hold, hnew] at h; cases h
  | some blob => cases hnew : change.newContent <;> rw [hold, hnew] at h <;> cases h

/-- The files that changes of different paths make write what the changes write. -/
theorem applyFiles_eq (hnodup : (changes.map (·.path)).Nodup) (hexact : ExactOn tree changes)
    (hpaths : (files.map (·.path)).Nodup)
    (hfiles : ∀ file, file ∈ files ↔ ∃ change ∈ changes, entryFile tree change = some file) :
    files.foldl HistoryEntryFile.applyTo tree = changes.foldl ProjectedChange.applyTo tree := by
  have hwritten : ∀ file ∈ files, (files.foldl HistoryEntryFile.applyTo tree).get? file.path =
      file.newContent := fun file hfile =>
    SortedMap.get?_foldl_of_mem (v := fun (file : HistoryEntryFile) _ => file.newContent)
      (fun tree file => by rw [HistoryEntryFile.get?_applyTo, if_pos rfl])
      (fun tree file path hpath => by rw [HistoryEntryFile.get?_applyTo, if_neg hpath]) hpaths hfile
      tree
  have hchanged : ∀ change ∈ changes, (changes.foldl ProjectedChange.applyTo tree).get?
      change.path = change.newContent := fun change hchange =>
    SortedMap.get?_foldl_of_mem (v := fun (change : ProjectedChange) _ => change.newContent)
      (fun tree change => by rw [ProjectedChange.get?_applyTo, if_pos rfl])
      (fun tree change path hpath => by rw [ProjectedChange.get?_applyTo, if_neg hpath]) hnodup
      hchange tree
  have hkept : ∀ path, (∀ file ∈ files, file.path ≠ path) →
      (files.foldl HistoryEntryFile.applyTo tree).get? path = tree.get? path := fun path hpath =>
    SortedMap.get?_foldl_of_ne
      (fun tree file path hpath => by rw [HistoryEntryFile.get?_applyTo, if_neg hpath]) hpath tree
  refine SortedMap.ext fun path => ?_
  by_cases hpath : ∃ change ∈ changes, change.path = path
  · obtain ⟨change, hchange, rfl⟩ := hpath
    rw [hchanged change hchange]
    cases hfile : entryFile tree change with
    | some file =>
      obtain ⟨hsame, hcontent, -⟩ := path_of_entryFile hfile
      rw [← hsame, hwritten file ((hfiles file).mpr ⟨change, hchange, hfile⟩), hcontent]
    | none =>
      rw [hkept, hexact change hchange (entryFile_eq_none hfile)]
      rintro file hmem heq
      obtain ⟨other, hother, hmade⟩ := (hfiles file).mp hmem
      rw [(path_of_entryFile hmade).1] at heq
      obtain rfl := List.inj_on_of_nodup_map hnodup hother hchange heq
      rw [hfile] at hmade
      cases hmade
  · have hunchanged : (changes.foldl ProjectedChange.applyTo tree).get? path = tree.get? path :=
      SortedMap.get?_foldl_of_ne
        (fun tree change path hpath => by rw [ProjectedChange.get?_applyTo, if_neg hpath])
        (fun change hchange heq => hpath ⟨change, hchange, heq⟩) tree
    rw [hunchanged, hkept]
    rintro file hmem rfl
    obtain ⟨change, hchange, hmade⟩ := (hfiles file).mp hmem
    exact hpath ⟨change, hchange, (path_of_entryFile hmade).1.symm⟩

theorem entryFiles_paths_nodup (hnodup : (changes.map (·.path)).Nodup) :
    ((changes.filterMap (entryFile tree)).map (·.path)).Nodup :=
  (ListRewrite.map_filterMap_sublist (fun _ _ h => (path_of_entryFile h).1) changes).nodup hnodup

/-- The files of a commit write its changes. -/
theorem applyFiles_entryFiles (hnodup : (changes.map (·.path)).Nodup)
    (hexact : ExactOn tree changes) :
    (entryFiles tree changes).foldl HistoryEntryFile.applyTo tree =
      changes.foldl ProjectedChange.applyTo tree := by
  rw [entryFiles_eq_filterMap hnodup]
  exact applyFiles_eq hnodup hexact (entryFiles_paths_nodup hnodup) fun file => List.mem_filterMap

end Files

/-! ## The files of a change set -/

section SetFiles

variable {projected : ProjectionHistory} {views : Views} {view : ViewId}
  {set : VisibilityChangeSet} {changes : List ProjectedChange} {shown : LiveFiles}

/-- The file that was found of one change of a change set. -/
def changeFile (projected : ProjectionHistory) (setId : String) (path : ScopePath) :
    Option HistoryEntryFile :=
  (projected.visibility.get? (visibilityChangeId setId path)).join

/-- The files of the changes of labels in a change set. -/
def relabelFiles (projected : ProjectionHistory) (set : VisibilityChangeSet) :
    List HistoryEntryFile :=
  set.changes.filterMap fun change => changeFile projected set.id change.path

/-- The files of a change set. -/
def setFiles (projected : ProjectionHistory) (set : VisibilityChangeSet) : List HistoryEntryFile :=
  relabelFiles projected set ++
    if set.views.isSome then (viewsBoundaryChanges projected set).filterMap (·.file) else []

theorem files_visibilityChangesForAction (sets : List VisibilityChangeSet)
    (content : Option ProjectedAction) :
    (visibilityChangesForAction projected views view sets content).filterMap (·.file) =
      sets.flatMap (relabelFiles projected) := by
  unfold visibilityChangesForAction
  rw [List.filterMap_flatMap]
  refine List.flatMap_congr fun set _ => ?_
  rw [List.filterMap_filterMap, relabelFiles]
  refine List.filterMap_congr fun change _ => ?_
  dsimp only
  rw [changeFile]
  by_cases hskipped : view ≠ views.full ∧
      projected.visibility.get? (visibilityChangeId set.id change.path) = none ∧
        (content.any fun action => action.paths.contains change.path) = false
  · rw [if_pos hskipped, hskipped.2.1]
    rfl
  · rw [if_neg hskipped, Option.bind_some]

theorem written_visibilityAction (set : VisibilityChangeSet) :
    (visibilityAction projected views view set).toList.flatMap (·.written) =
      setFiles projected set := by
  have hfiles : ∀ content, (visibilityChangesForAction projected views view [set] content).filterMap
      (·.file) = relabelFiles projected set := by
    intro content
    rw [files_visibilityChangesForAction, List.flatMap_singleton]
  unfold visibilityAction setFiles
  dsimp only
  cases set.views with
  | some transition =>
    rw [Option.toList_some, List.flatMap_singleton, ViewHistoryEntry.written, List.nil_append,
      List.filterMap_append, hfiles]
    rfl
  | none =>
    dsimp only
    by_cases hnothing : visibilityChangesForAction projected views view [set] none = []
    · rw [if_pos hnothing, ← hfiles none, hnothing]
      rfl
    · rw [if_neg hnothing, Option.toList_some, List.flatMap_singleton, ViewHistoryEntry.written,
        List.nil_append, hfiles]
      exact (List.append_nil _).symm

theorem written_contentAction (logical : LogicalCommit) (sets : List VisibilityChangeSet) :
    (contentAction projected views view logical sets).toList.flatMap (·.written) =
      ((projected.actions.get? logical.id).map (·.files)).getD [] ++
        sets.flatMap (relabelFiles projected) := by
  have hfiles : (visibilityChangesForAction projected views view sets
      (projected.actions.get? logical.id)).filterMap (·.file) = sets.flatMap (relabelFiles projected) :=
    files_visibilityChangesForAction sets _
  rw [← hfiles]
  unfold contentAction
  dsimp only
  split_ifs with hnothing
  · rw [hnothing.1, hnothing.2.1]
    rfl
  · rw [Option.toList_some, List.flatMap_singleton]
    rfl

/-! ### What a change set writes -/

variable (hvisibility : projected.visibility =
    (changes.foldl (Replay.visibilityChange set.id) ⟨shown, .empty⟩).history.visibility)
  (hnodup : (changes.map (·.path)).Nodup)

include hvisibility

theorem changeFile_of_ne {path : ScopePath} (hpath : ∀ change ∈ changes, change.path ≠ path) :
    changeFile projected set.id path = none := by
  rw [changeFile, hvisibility, Replay.get?_visibility_of_ne hpath]
  rfl

include hnodup

theorem changeFile_of_mem {change : ProjectedChange} (hchange : change ∈ changes) :
    changeFile projected set.id change.path = entryFile shown change := by
  rw [changeFile, hvisibility, Replay.join_visibility_of_mem hnodup hchange _ rfl]

theorem exists_of_changeFile {path : ScopePath} {file : HistoryEntryFile}
    (h : changeFile projected set.id path = some file) :
    file.path = path ∧ ∃ change ∈ changes, entryFile shown change = some file := by
  by_cases hpath : ∃ change ∈ changes, change.path = path
  · obtain ⟨change, hchange, rfl⟩ := hpath
    rw [changeFile_of_mem hvisibility hnodup hchange] at h
    exact ⟨(path_of_entryFile h).1, change, hchange, h⟩
  · rw [changeFile_of_ne hvisibility fun change hchange heq => hpath ⟨change, hchange, heq⟩] at h
    cases h

/-- The files of a change set are those that its projected changes make, and write what they
write. -/
theorem applyFiles_setFiles
    (hboundaries : (projected.boundaries.get? set.id).getD [] =
      (changes.filter (touchesVisiblePath shown)).map fun change => (change.path, change.label))
    (hset : (set.changes.map (·.path)).Nodup)
    (hnamed : ∀ change ∈ changes, set.views.isSome = true ∨
      change.path ∈ set.changes.map (·.path))
    (hexact : ExactOn shown changes) :
    (setFiles projected set).foldl HistoryEntryFile.applyTo shown =
      changes.foldl ProjectedChange.applyTo shown := by
  have hboundary : (viewsBoundaryChanges projected set).filterMap (·.file) =
      ((changes.filter (touchesVisiblePath shown)).filter fun change =>
        !set.changes.any fun other => other.path == change.path).filterMap (entryFile shown) := by
    unfold viewsBoundaryChanges
    rw [hboundaries, List.filterMap_map, List.filter_map, List.filterMap_map]
    refine List.filterMap_congr fun change hchange => ?_
    exact changeFile_of_mem hvisibility hnodup
      (List.mem_filter.mp (List.mem_filter.mp hchange).1).1
  have hrelabel : ∀ file ∈ relabelFiles projected set, file.path ∈ set.changes.map (·.path) ∧
      ∃ change ∈ changes, entryFile shown change = some file := by
    intro file hfile
    obtain ⟨change, hchange, hmade⟩ := List.mem_filterMap.mp hfile
    obtain ⟨hpath, hfrom⟩ := exists_of_changeFile hvisibility hnodup hmade
    exact ⟨List.mem_map.mpr ⟨change, hchange, hpath.symm⟩, hfrom⟩
  refine applyFiles_eq hnodup hexact ?_ fun file => ⟨fun hfile => ?_, ?_⟩
  · rw [setFiles, List.map_append, List.nodup_append']
    refine ⟨?_, ?_, ?_⟩
    · refine (ListRewrite.map_filterMap_sublist (fun change file h => ?_) set.changes).nodup hset
      exact (exists_of_changeFile hvisibility hnodup h).1
    · split_ifs
      · rw [hboundary]
        refine entryFiles_paths_nodup ?_
        exact ((List.filter_sublist.trans List.filter_sublist).map _).nodup hnodup
      · exact List.nodup_nil
    · rw [List.disjoint_left]
      intro path hpath hother
      obtain ⟨file, hfile, rfl⟩ := List.mem_map.mp hpath
      obtain ⟨named, hmem, heq⟩ := List.mem_map.mp (hrelabel file hfile).1
      split_ifs at hother
      · rw [hboundary] at hother
        obtain ⟨other, hother, hsame⟩ := List.mem_map.mp hother
        obtain ⟨change, hchange, hmade⟩ := List.mem_filterMap.mp hother
        have hunnamed := (List.mem_filter.mp hchange).2
        rw [(path_of_entryFile hmade).1] at hsame
        rw [Bool.not_eq_true', List.any_eq_false] at hunnamed
        exact hunnamed named hmem (beq_iff_eq.mpr (heq.trans hsame.symm))
      · cases hother
  · rw [setFiles, List.mem_append] at hfile
    rcases hfile with hfile | hfile
    · exact (hrelabel file hfile).2
    · split_ifs at hfile
      · rw [hboundary] at hfile
        obtain ⟨change, hchange, hmade⟩ := List.mem_filterMap.mp hfile
        exact ⟨change, (List.mem_filter.mp (List.mem_filter.mp hchange).1).1, hmade⟩
      · cases hfile
  · rintro ⟨change, hchange, hmade⟩
    rw [setFiles, List.mem_append]
    by_cases hpath : change.path ∈ set.changes.map (·.path)
    · obtain ⟨named, hmem, heq⟩ := List.mem_map.mp hpath
      refine .inl (List.mem_filterMap.mpr ⟨named, hmem, ?_⟩)
      rw [heq, changeFile_of_mem hvisibility hnodup hchange, hmade]
    · have hviews := (hnamed change hchange).resolve_right hpath
      rw [if_pos hviews, hboundary]
      refine .inr (List.mem_filterMap.mpr ⟨change, ?_, hmade⟩)
      refine List.mem_filter.mpr ⟨List.mem_filter.mpr ⟨hchange, ?_⟩, ?_⟩
      · by_contra htouches
        rw [Replay.entryFile_of_not_touches (Bool.not_eq_true _ ▸ htouches)] at hmade
        cases hmade
      · rw [Bool.not_eq_true', List.any_eq_false]
        exact fun other hother heq => hpath (List.mem_map.mpr ⟨other, hother, beq_iff_eq.mp heq⟩)

end SetFiles

end ScopeVcs

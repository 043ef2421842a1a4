import ScopeVcs.Lib.ListRewrite
import ScopeVcs.Projection.Graph

/-! # What a projection shows

The tree that a projection leaves, step by step: a commit writes the changes that the view shows, and
a change set what becomes visible or hidden. An update of a repository appends a change set, a commit
or both; after it the view again shows exactly the files whose label it shows.
-/

namespace ScopeVcs

/-! ## Changes of a tree -/

section Changes

variable {α : Type*} {g : α → Option ProjectedChange} {key : α → ScopePath} {l : List α}

/-- A path is changed as the element under it says, if that says anything. -/
theorem get?_applied_of_mem (hkey : ∀ a change, g a = some change → change.path = key a)
    (hnodup : (l.map key).Nodup) {a : α} (ha : a ∈ l) (tree : LiveFiles) :
    ((l.filterMap g).foldl ProjectedChange.applyTo tree).get? (key a) =
      (g a).elim (tree.get? (key a)) (·.newContent) := by
  rw [List.foldl_filterMap]
  refine SortedMap.get?_foldl_of_mem (v := fun a old => (g a).elim old (·.newContent))
    (fun tree a => ?_) (fun tree a path hpath => ?_) hnodup ha tree
  · cases hchange : g a with
    | none => rfl
    | some change =>
      rw [← hkey a change hchange]
      simp
  · cases hchange : g a with
    | none => rfl
    | some change =>
      rw [← hkey a change hchange] at hpath
      simp [hpath]

theorem get?_applied_of_ne (hkey : ∀ a change, g a = some change → change.path = key a)
    {path : ScopePath} (hpath : ∀ a ∈ l, key a ≠ path) (tree : LiveFiles) :
    ((l.filterMap g).foldl ProjectedChange.applyTo tree).get? path = tree.get? path := by
  rw [List.foldl_filterMap]
  refine SortedMap.get?_foldl_of_ne (fun tree a path hpath => ?_) hpath tree
  cases hchange : g a with
  | none => rfl
  | some change =>
    rw [← hkey a change hchange] at hpath
    simp [hpath]

end Changes

namespace LabelledTree

variable {tree : LabelledTree}

theorem get?_applyChange_self (tree : LabelledTree) (change : FileChange) :
    (tree.applyChange change).get? change.path =
      change.newContent.map fun blob => (blob, change.label) := by
  unfold applyChange
  cases change.newContent <;> simp

theorem get?_applyChange_of_ne (tree : LabelledTree) (change : FileChange) (path : ScopePath)
    (hpath : path ≠ change.path) : (tree.applyChange change).get? path = tree.get? path := by
  unfold applyChange
  cases change.newContent <;> simp [hpath]

theorem get?_applyCommit_of_mem {commit : LogicalCommit}
    (hnodup : (commit.changes.map (·.path)).Nodup) {change : FileChange}
    (hchange : change ∈ commit.changes) :
    (tree.applyCommit commit).get? change.path =
      change.newContent.map fun blob => (blob, change.label) :=
  SortedMap.get?_foldl_of_mem
    (v := fun (change : FileChange) _ => change.newContent.map fun blob => (blob, change.label))
    get?_applyChange_self get?_applyChange_of_ne hnodup hchange tree

theorem get?_applyCommit_of_ne {commit : LogicalCommit} {path : ScopePath}
    (hpath : ∀ change ∈ commit.changes, change.path ≠ path) :
    (tree.applyCommit commit).get? path = tree.get? path :=
  SortedMap.get?_foldl_of_ne get?_applyChange_of_ne hpath tree

theorem get?_relabelChange_self (tree : LabelledTree) (change : VisibilityChange) :
    (tree.relabelChange change).get? change.path =
      (tree.get? change.path).map fun file => (file.1, change.newLabel) := by
  unfold relabelChange
  cases hget : tree.get? change.path with
  | none => simp [hget]
  | some file => simp

theorem get?_relabelChange_of_ne (tree : LabelledTree) (change : VisibilityChange)
    (path : ScopePath) (hpath : path ≠ change.path) :
    (tree.relabelChange change).get? path = tree.get? path := by
  unfold relabelChange
  cases tree.get? change.path <;> simp [hpath]

theorem get?_relabelChanges_of_mem {changes : List VisibilityChange}
    (hnodup : (changes.map (·.path)).Nodup) {change : VisibilityChange} (hchange : change ∈ changes)
    (tree : LabelledTree) : (changes.foldl relabelChange tree).get? change.path =
      (tree.get? change.path).map fun file => (file.1, change.newLabel) :=
  SortedMap.get?_foldl_of_mem
    (v := fun (change : VisibilityChange) old =>
      old.map fun file : SourceBlob × ViewId => (file.1, change.newLabel))
    get?_relabelChange_self get?_relabelChange_of_ne hnodup hchange tree

theorem get?_relabelChanges_of_ne {changes : List VisibilityChange} {path : ScopePath}
    (hpath : ∀ change ∈ changes, change.path ≠ path) :
    (changes.foldl relabelChange tree).get? path = tree.get? path :=
  SortedMap.get?_foldl_of_ne get?_relabelChange_of_ne hpath tree

theorem get?_relabel_of_mem {set : VisibilityChangeSet}
    (hnodup : (set.changes.map (·.path)).Nodup) {change : VisibilityChange}
    (hchange : change ∈ set.changes) :
    (tree.relabel set).get? change.path =
      (tree.get? change.path).map fun file => (file.1, change.newLabel) :=
  get?_relabelChanges_of_mem hnodup hchange tree

theorem get?_relabel_of_ne {set : VisibilityChangeSet} {path : ScopePath}
    (hpath : ∀ change ∈ set.changes, change.path ≠ path) :
    (tree.relabel set).get? path = tree.get? path :=
  get?_relabelChanges_of_ne hpath

theorem get?_viewFiles (tree : LabelledTree) (views : Views) (view : ViewId) (path : ScopePath) :
    (tree.viewFiles views view).get? path = (tree.get? path).bind fun file =>
      if views.shows view path file.2 then some file.1 else none := by
  rw [viewFiles, SortedMap.get?_mapValues, SortedMap.get?_filter]
  cases tree.get? path with
  | none => rfl
  | some file =>
    rw [Option.filter_some, Option.bind_some]
    split_ifs <;> rfl

end LabelledTree

/-! ## One update -/

section Update

variable {view : ViewId} {before after : Views} {source : Option LogicalCommit}
  {tree : LabelledTree} {set : VisibilityChangeSet} {shown : LiveFiles}

theorem visibleChanges_eq (views : Views) (view : ViewId) (logical : LogicalCommit) :
    visibleChanges views view logical = logical.changes.filterMap fun change =>
      if views.shows view change.path change.label then some change.projected else none := by
  rw [visibleChanges]
  induction logical.changes with
  | nil => rfl
  | cons change changes ih =>
    rw [List.filter_cons, List.filterMap_cons, ← ih]
    split_ifs <;> rfl

theorem path_of_visibleChange {views : Views} {change : FileChange} {projected : ProjectedChange}
    (h : (if views.shows view change.path change.label then some change.projected else none) =
      some projected) : projected.path = change.path := by
  split_ifs at h
  cases h
  rfl

theorem path_of_visibleRelabel {change : VisibilityChange} {projected : ProjectedChange}
    (h : visibleRelabel before after view source change = some projected) :
    projected.path = change.path := by
  unfold visibleRelabel at h
  split at h
  · cases h
  · split at h
    · split at h
      · cases h
      · obtain ⟨content, -, rfl⟩ := Option.map_eq_some_iff.mp h
        rfl
    · cases h
      rfl
    · cases h

theorem path_of_boundaryChange {entry : ScopePath × (SourceBlob × ViewId)}
    {projected : ProjectedChange} (h : boundaryChange before after view entry = some projected) :
    projected.path = entry.1 := by
  unfold boundaryChange at h
  split at h
  · cases h
    rfl
  · cases h
    rfl
  · cases h

/-- What a change set makes of a path that it names. -/
theorem get?_setChanges_of_mem (hnodup : (set.changes.map (·.path)).Nodup)
    {change : VisibilityChange} (hchange : change ∈ set.changes) :
    ((setChanges before after view source (some tree) set).foldl ProjectedChange.applyTo
        shown).get? change.path =
      (visibleRelabel before after view source change).elim (shown.get? change.path)
        (·.newContent) := by
  have hrelabel := get?_applied_of_mem (fun _ _ => path_of_visibleRelabel) hnodup hchange shown
    (g := visibleRelabel before after view source)
  unfold setChanges
  rw [List.foldl_append]
  cases set.views with
  | none => exact hrelabel
  | some transition =>
    dsimp only
    rw [get?_applied_of_ne (fun _ _ => path_of_boundaryChange), hrelabel]
    intro entry hentry heq
    have hnew := (List.mem_filter.mp hentry).2
    simp only [decide_not, Bool.not_eq_true', decide_eq_false_iff_not] at hnew
    exact hnew (List.mem_map.mpr ⟨change, hchange, heq.symm⟩)

/-- What a change set makes of a path that it does not name. -/
theorem get?_setChanges_of_ne {path : ScopePath} (hpath : ∀ change ∈ set.changes, change.path ≠ path) :
    ((setChanges before after view source (some tree) set).foldl ProjectedChange.applyTo
        shown).get? path =
      if set.views.isSome then (tree.get? path).elim (shown.get? path) fun file =>
        (boundaryChange before after view (path, file)).elim (shown.get? path) (·.newContent)
      else shown.get? path := by
  have hrelabel := get?_applied_of_ne (fun _ _ => path_of_visibleRelabel) hpath shown
    (g := visibleRelabel before after view source)
  unfold setChanges
  rw [List.foldl_append]
  cases set.views with
  | none => exact hrelabel
  | some transition =>
    dsimp only
    rw [Option.isSome_some, if_pos rfl]
    have hkept : ∀ file, (path, file) ∈ tree.entries → (path, file) ∈ tree.entries.filter
        fun entry => entry.1 ∉ set.changes.map (·.path) := by
      intro file hfile
      refine List.mem_filter.mpr ⟨hfile, ?_⟩
      simpa using fun change hchange heq => hpath change hchange heq
    have hsorted : ((tree.entries.filter fun entry => entry.1 ∉ set.changes.map (·.path)).map
        Prod.fst).Nodup :=
      (List.filter_sublist.map Prod.fst).nodup (SortedMap.keys_nodup tree)
    cases hget : tree.get? path with
    | none =>
      rw [get?_applied_of_ne (fun _ _ => path_of_boundaryChange), hrelabel]
      · rfl
      · rintro ⟨path', file⟩ hentry rfl
        have hmem := SortedMap.mem_entries_iff.mp (List.mem_filter.mp hentry).1
        rw [hget] at hmem
        cases hmem
    | some file =>
      have happlied := get?_applied_of_mem (fun _ _ => path_of_boundaryChange) hsorted
        (hkept file (SortedMap.mem_entries_iff.mpr hget))
        ((set.changes.filterMap (visibleRelabel before after view source)).foldl
          ProjectedChange.applyTo shown) (g := boundaryChange before after view)
      rw [hrelabel] at happlied
      exact happlied

/-- What an update may append to the history that left `tree`: a change set with the labels of the
files before and after it, and a commit whose changes carry the labels after it, or for a deleted file
the one it had. Of a file that carries the full view's label a narrower view shows nothing, so there
a file that the commit writes may be recorded with another label before it. -/
structure FitsHistory (tree : LabelledTree) (before after : Views)
    (set? : Option VisibilityChangeSet) (commit? : Option LogicalCommit) : Prop where
  sameViews : (∀ set ∈ set?, set.views = none) → before.visibilityShape = after.visibilityShape
  changes_nodup : ∀ commit ∈ commit?, (commit.changes.map (·.path)).Nodup
  relabels_nodup : ∀ set ∈ set?, (set.changes.map (·.path)).Nodup
  relabels_outside : ∀ set ∈ set?, ∀ change ∈ set.changes, isRepoControlPath change.path = false
  oldLabel : ∀ set ∈ set?, ∀ change ∈ set.changes, ∀ file, tree.get? change.path = some file →
    change.oldLabel = file.2 ∨ file.2 = .privateView ∧
      ∃ commit ∈ commit?, ∃ written ∈ commit.changes, written.path = change.path
  kept : ∀ set ∈ set?, ∀ change ∈ set.changes,
    (∀ commit ∈ commit?, ∀ written ∈ commit.changes, written.path ≠ change.path) →
      ∃ file, tree.get? change.path = some file ∧ change.currentContent = some file.1
  newLabel : ∀ set ∈ set?, ∀ commit ∈ commit?, ∀ change ∈ set.changes,
    ∀ written ∈ commit.changes, written.path = change.path → written.label = change.newLabel
  label : ∀ commit ∈ commit?, ∀ written ∈ commit.changes,
    (∀ set ∈ set?, ∀ change ∈ set.changes, change.path ≠ written.path) →
      ∀ file, tree.get? written.path = some file →
        file.2 = written.label ∨ file.2 = .privateView

/-- The labelled files after an update. -/
def LabelledTree.update (tree : LabelledTree) (set? : Option VisibilityChangeSet)
    (commit? : Option LogicalCommit) : LabelledTree :=
  commit?.elim (set?.elim tree tree.relabel) (set?.elim tree tree.relabel).applyCommit

/-- What a view shows after a change set. -/
def shownAfterSet (before after : Views) (view : ViewId) (source : Option LogicalCommit)
    (tree : LabelledTree) (set? : Option VisibilityChangeSet) (shown : LiveFiles) : LiveFiles :=
  set?.elim shown fun set =>
    (setChanges before after view source (some tree) set).foldl ProjectedChange.applyTo shown

/-- What a view shows after a commit. -/
def shownAfterCommit (views : Views) (view : ViewId) (commit? : Option LogicalCommit)
    (shown : LiveFiles) : LiveFiles :=
  commit?.elim shown fun commit =>
    (visibleChanges views view commit).foldl ProjectedChange.applyTo shown

theorem viewFiles_congr {before after : Views}
    (h : before.visibilityShape = after.visibilityShape) (tree : LabelledTree) (view : ViewId) :
    tree.viewFiles before view = tree.viewFiles after view := by
  refine SortedMap.ext fun path => ?_
  simp only [LabelledTree.get?_viewFiles, Views.shows_of_visibilityShape_eq h]

variable {set? : Option VisibilityChangeSet} {commit? : Option LogicalCommit}

/-- A path that the commit does not change is shown as its label after the change set says. -/
theorem shownAfterSet_of_unchanged (h : FitsHistory tree before after set? commit?)
    {path : ScopePath}
    (hpath : ∀ commit ∈ commit?, ∀ written ∈ commit.changes, written.path ≠ path) :
    (shownAfterSet before after view commit? tree set? (tree.viewFiles before view)).get? path =
      ((set?.elim tree tree.relabel).viewFiles after view).get? path := by
  cases set? with
  | none =>
    have hshape := h.sameViews (by simp)
    rw [shownAfterSet, Option.elim_none, Option.elim_none, viewFiles_congr hshape]
  | some set =>
    rw [shownAfterSet, Option.elim_some, Option.elim_some, LabelledTree.get?_viewFiles]
    by_cases hnamed : ∃ change ∈ set.changes, change.path = path
    · obtain ⟨change, hchange, rfl⟩ := hnamed
      obtain ⟨file, hget, hcontent⟩ := h.kept set rfl change hchange hpath
      have hold : change.oldLabel = file.2 := by
        refine (h.oldLabel set rfl change hchange file hget).resolve_right ?_
        rintro ⟨-, commit, hcommit, written, hwritten, heq⟩
        exact hpath commit hcommit written hwritten heq
      have hsource : commit?.any (fun commit => commit.changes.any fun written =>
          written.path == change.path && before.shows view written.path written.label) = false := by
        rw [← Bool.not_eq_true, Option.any_eq_true]
        rintro ⟨commit, hcommit, hany⟩
        obtain ⟨written, hwritten, heq⟩ := List.any_eq_true.mp hany
        exact hpath commit hcommit written hwritten (by simpa using (Bool.and_eq_true_iff.mp heq).1)
      rw [get?_setChanges_of_mem (h.relabels_nodup set rfl) hchange,
        LabelledTree.get?_relabel_of_mem (h.relabels_nodup set rfl) hchange,
        LabelledTree.get?_viewFiles, hget]
      simp only [visibleRelabel, h.relabels_outside set rfl change hchange, hsource, hcontent, hold,
        Option.map_some, Option.bind_some]
      cases before.shows view change.path file.2 <;>
        cases after.shows view change.path change.newLabel <;> rfl
    · have hne : ∀ change ∈ set.changes, change.path ≠ path := fun change hchange heq =>
        hnamed ⟨change, hchange, heq⟩
      rw [get?_setChanges_of_ne hne, LabelledTree.get?_relabel_of_ne hne,
        LabelledTree.get?_viewFiles]
      cases hviews : set.views with
      | none =>
        have hshape := h.sameViews fun set' hset' => Option.mem_some_iff.mp hset' ▸ hviews
        rw [Option.isSome_none, if_neg Bool.false_ne_true]
        simp only [Views.shows_of_visibilityShape_eq hshape]
      | some transition =>
        rw [Option.isSome_some, if_pos rfl]
        cases tree.get? path with
        | none => rfl
        | some file =>
          simp only [Option.elim_some, Option.bind_some, boundaryChange]
          cases before.shows view path file.2 <;> cases after.shows view path file.2 <;> rfl

/-- A path that gets a label which the view does not show is not shown after the change set. -/
theorem shownAfterSet_of_hidden (h : FitsHistory tree before after set? commit?)
    {commit : LogicalCommit} (hcommit : commit ∈ commit?) {written : FileChange}
    (hwritten : written ∈ commit.changes)
    (hhidden : after.shows view written.path written.label = false) :
    (shownAfterSet before after view commit? tree set? (tree.viewFiles before view)).get?
      written.path = none := by
  have hnarrow : view ≠ .privateView := by
    rintro rfl
    rw [Views.shows_privateView] at hhidden
    cases hhidden
  have hfile : (∀ set ∈ set?, ∀ change ∈ set.changes, change.path ≠ written.path) →
      ∀ file, tree.get? written.path = some file →
        after.shows view written.path file.2 = false := by
    intro hne file hget
    rcases h.label commit hcommit written hwritten hne file hget with heq | hprivate
    · rw [heq, hhidden]
    · rw [hprivate, Views.not_shows_privateView hnarrow]
  cases set? with
  | none =>
    have hshape := h.sameViews (by simp)
    rw [shownAfterSet, Option.elim_none, viewFiles_congr hshape, LabelledTree.get?_viewFiles]
    cases hget : tree.get? written.path with
    | none => rfl
    | some file => simp [hfile (by simp) file hget]
  | some set =>
    rw [shownAfterSet, Option.elim_some]
    by_cases hnamed : ∃ change ∈ set.changes, change.path = written.path
    · obtain ⟨change, hchange, hpath⟩ := hnamed
      have hnew := h.newLabel set rfl commit hcommit change hchange written hwritten hpath.symm
      rw [← hpath, hnew] at hhidden
      rw [← hpath, get?_setChanges_of_mem (h.relabels_nodup set rfl) hchange,
        LabelledTree.get?_viewFiles]
      have hold := h.oldLabel set rfl change hchange
      simp only [visibleRelabel, h.relabels_outside set rfl change hchange, hhidden]
      cases hget : tree.get? change.path with
      | none => cases before.shows view change.path change.oldLabel <;> rfl
      | some file =>
        rcases hold file hget with heq | ⟨hprivate, -⟩
        · rw [heq]
          cases hshown : before.shows view change.path file.2 <;> simp [hshown]
        · have hshown : before.shows view change.path file.2 = false := by
            rw [hprivate, Views.not_shows_privateView hnarrow]
          cases before.shows view change.path change.oldLabel <;> simp [hshown]
    · have hne : ∀ change ∈ set.changes, change.path ≠ written.path := fun change hchange heq =>
        hnamed ⟨change, hchange, heq⟩
      have hfile' := hfile fun set' hset' => Option.mem_some_iff.mp hset' ▸ hne
      rw [get?_setChanges_of_ne hne, LabelledTree.get?_viewFiles]
      cases hget : tree.get? written.path with
      | none => split_ifs <;> rfl
      | some file =>
        have hafter := hfile' file hget
        cases hviews : set.views with
        | none =>
          have hshape := h.sameViews fun set' hset' => Option.mem_some_iff.mp hset' ▸ hviews
          rw [Option.isSome_none, if_neg Bool.false_ne_true, Option.bind_some,
            Views.shows_of_visibilityShape_eq hshape, hafter]
          rfl
        | some transition =>
          simp only [Option.isSome_some, if_true, Option.elim_some, Option.bind_some,
            boundaryChange, hafter]
          cases before.shows view written.path file.2 <;> rfl

/-- After an update the view shows exactly the files whose label it shows. -/
theorem shown_update (h : FitsHistory tree before after set? commit?) (view : ViewId) :
    shownAfterCommit after view commit?
        (shownAfterSet before after view commit? tree set? (tree.viewFiles before view)) =
      (tree.update set? commit?).viewFiles after view := by
  cases commit? with
  | none => exact SortedMap.ext fun path => shownAfterSet_of_unchanged h (by simp)
  | some commit =>
    have hnodup := h.changes_nodup commit rfl
    refine SortedMap.ext fun path => ?_
    rw [shownAfterCommit, Option.elim_some, visibleChanges_eq, LabelledTree.update,
      Option.elim_some]
    by_cases hchanged : ∃ written ∈ commit.changes, written.path = path
    · obtain ⟨written, hwritten, rfl⟩ := hchanged
      rw [get?_applied_of_mem (fun _ _ => path_of_visibleChange) hnodup hwritten,
        LabelledTree.get?_viewFiles, LabelledTree.get?_applyCommit_of_mem hnodup hwritten]
      cases hshown : after.shows view written.path written.label with
      | true =>
        rw [if_pos rfl, Option.elim_some]
        cases hcontent : written.newContent <;> simp [FileChange.projected, hcontent, hshown]
      | false =>
        rw [if_neg Bool.false_ne_true, Option.elim_none,
          shownAfterSet_of_hidden h rfl hwritten hshown]
        cases written.newContent <;> simp [hshown]
    · have hne : ∀ written ∈ commit.changes, written.path ≠ path := fun written hwritten heq =>
        hchanged ⟨written, hwritten, heq⟩
      rw [get?_applied_of_ne (fun _ _ => path_of_visibleChange) hne,
        shownAfterSet_of_unchanged h fun commit' hcommit' => Option.mem_some_iff.mp hcommit' ▸ hne,
        LabelledTree.get?_viewFiles, LabelledTree.get?_viewFiles,
        LabelledTree.get?_applyCommit_of_ne hne]

end Update

end ScopeVcs

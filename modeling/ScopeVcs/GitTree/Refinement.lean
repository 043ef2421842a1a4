import ScopeVcs.GitTree.FlatHead

/-! # Trees refine flat files

A tree represents a map of files when it is sound and leads to exactly these files. The operations
on trees keep this: a delta fails exactly when the files it leads to hold a path and a path below
it, and object ids are those of the canonical tree. So a projection head over a tree does what the
one over flat files does, up to the path an error names.
-/

namespace ScopeVcs

open Mutation (except_bind_eq_ok mapError_eq_ok exists_mapM_eq_ok)
open Machine (Rel)

variable {gitObjectOid : String → List UInt8 → String}

namespace LiveFiles

/-- The map holds a file that a Git tree records under these names. -/
def Holds (files : LiveFiles) (names : List String) (file : TreeFile) : Prop :=
  ∃ path blob, files.get? path = some blob ∧ gitFile path blob = .ok (names, file)

/-- Every file of the map can be recorded. -/
def Recordable (files : LiveFiles) : Prop :=
  ∀ path blob, files.get? path = some blob → ∃ entry, gitFile path blob = .ok entry

theorem gitFile_eq_ok {path : ScopePath} {blob : SourceBlob} {names : List String}
    {file : TreeFile} :
    gitFile path blob = .ok (names, file) ↔ ∃ treePath, GitTreePath.fromScopePath path = .ok treePath ∧
      names = treePath.components ∧ treeFile path.asStr blob = .ok file := by
  simp only [gitFile, except_bind_eq_ok, mapError_eq_ok, pure, Except.pure, Except.ok.injEq,
    Prod.mk.injEq]
  constructor
  · rintro ⟨treePath, hpath, file, hfile, rfl, rfl⟩
    exact ⟨treePath, hpath, rfl, hfile⟩
  · rintro ⟨treePath, hpath, rfl, hfile⟩
    exact ⟨treePath, hpath, file, hfile, rfl, rfl⟩

/-- A file under the names of a path is the file at that path. -/
theorem holds_components_iff {files : LiveFiles} {path : ScopePath} {treePath : GitTreePath}
    (hpath : GitTreePath.fromScopePath path = .ok treePath) {file : TreeFile} :
    files.Holds treePath.components file ↔
      ∃ blob, files.get? path = some blob ∧ treeFile path.asStr blob = .ok file := by
  constructor
  · rintro ⟨other, blob, hget, hfile⟩
    obtain ⟨otherPath, hother, hnames, hfile⟩ := gitFile_eq_ok.mp hfile
    obtain rfl : treePath = otherPath := GitTreePath.components_injective hnames
    obtain rfl : other = path := GitTreePath.fromScopePath_injective hother hpath
    exact ⟨blob, hget, hfile⟩
  · rintro ⟨blob, hget, hfile⟩
    exact ⟨path, blob, hget, gitFile_eq_ok.mpr ⟨treePath, hpath, rfl, hfile⟩⟩

theorem exists_gitFiles {files : LiveFiles} (h : files.Recordable) :
    ∃ list, gitFiles files = .ok list ∧
      ∀ names file, (names, file) ∈ list ↔ files.Holds names file := by
  obtain ⟨list, hok, hmem⟩ := exists_mapM_eq_ok
    (l := files.entries) (f := fun entry => gitFile entry.1 entry.2)
    fun entry hentry => h entry.1 entry.2 (SortedMap.mem_entries_iff.mp hentry)
  refine ⟨list, hok, fun names file => ?_⟩
  rw [hmem]
  simp only [Prod.exists, SortedMap.mem_entries_iff]
  rfl

theorem hasPathConflict_iff {files : LiveFiles} :
    files.hasPathConflict = true ↔ ∃ path other, (∃ blob, files.get? path = some blob) ∧
      (∃ blob, files.get? other = some blob) ∧ isBelow path other = true := by
  simp only [hasPathConflict, List.any_eq_true, SortedMap.mem_keys]
  constructor
  · rintro ⟨path, hpath, other, hother, hbelow⟩
    exact ⟨path, other, hpath, hother, hbelow⟩
  · rintro ⟨path, other, hpath, hother, hbelow⟩
    exact ⟨path, hpath, other, hother, hbelow⟩

/-- Below a path lie the paths whose names go on from its names. -/
theorem isBelow_iff {path other : ScopePath} {treePath otherPath : GitTreePath}
    (hpath : GitTreePath.fromScopePath path = .ok treePath)
    (hother : GitTreePath.fromScopePath other = .ok otherPath) :
    isBelow path other = true ↔
      ∃ rest ≠ [], otherPath.components = treePath.components ++ rest := by
  rw [GitTreePath.components_append_iff, isBelow, List.isPrefixOf_iff_prefix,
    GitTreePath.chars_of_fromScopePath hpath, GitTreePath.chars_of_fromScopePath hother,
    List.cons_append, List.cons_prefix_cons]
  simp

/-- A conflict of paths, by the names of the files. -/
theorem hasPathConflict_iff_holds {files : LiveFiles} (h : files.Recordable) :
    files.hasPathConflict = true ↔ ∃ names rest file file', rest ≠ [] ∧
      files.Holds names file ∧ files.Holds (names ++ rest) file' := by
  rw [hasPathConflict_iff]
  constructor
  · rintro ⟨path, other, ⟨blob, hget⟩, ⟨blob', hget'⟩, hbelow⟩
    obtain ⟨⟨names, file⟩, hfile⟩ := h path blob hget
    obtain ⟨⟨names', file'⟩, hfile'⟩ := h other blob' hget'
    obtain ⟨treePath, hpath, rfl, -⟩ := gitFile_eq_ok.mp hfile
    obtain ⟨otherPath, hother, rfl, -⟩ := gitFile_eq_ok.mp hfile'
    obtain ⟨rest, hrest, happend⟩ := (isBelow_iff hpath hother).mp hbelow
    exact ⟨_, rest, file, file', hrest, ⟨path, blob, hget, hfile⟩,
      ⟨other, blob', hget', happend ▸ hfile'⟩⟩
  · rintro ⟨names, rest, file, file', hrest, ⟨path, blob, hget, hfile⟩,
      other, blob', hget', hfile'⟩
    obtain ⟨treePath, hpath, rfl, -⟩ := gitFile_eq_ok.mp hfile
    obtain ⟨otherPath, hother, happend, -⟩ := gitFile_eq_ok.mp hfile'
    exact ⟨path, other, ⟨blob, hget⟩, ⟨blob', hget'⟩,
      (isBelow_iff hpath hother).mpr ⟨rest, hrest, happend.symm⟩⟩

end LiveFiles

/-! ## Trees of files -/

namespace Tree

variable (gitObjectOid) in
/-- The tree is sound and leads to exactly the files of the map. -/
structure Represents (tree : Tree) (files : LiveFiles) : Prop where
  sound : tree.Sound gitObjectOid
  recordable : files.Recordable
  file? : ∀ names file, tree.file? names = some file ↔ files.Holds names file

theorem represents_empty : Represents gitObjectOid empty ∅ := by
  refine ⟨.empty, ?_, ?_⟩
  · intro path blob hget
    cases hget
  · intro names file
    rw [file?_empty]
    refine iff_of_false (by simp) ?_
    rintro ⟨path, blob, hget, -⟩
    cases hget

/-- No file of a tree lies below another. -/
theorem file?_append_eq_none {tree : Tree} {names rest : List String} {file : TreeFile}
    (h : tree.file? names = some file) (hrest : rest ≠ []) : tree.file? (names ++ rest) = none := by
  induction names generalizing tree with
  | nil => cases h
  | cons name names ih =>
    by_cases hnames : names = []
    · subst hnames
      rw [file?_singleton] at h
      rw [List.singleton_append, file?_cons _ _ hrest]
      split at h
      · rename_i other hget
        rw [hget]
      · cases h
    · rw [file?_cons _ _ hnames] at h
      rw [List.cons_append, file?_cons _ _ (by simp [hnames])]
      split at h
      · exact ih h
      · cases h

namespace Represents

variable {tree : Tree} {files : LiveFiles}

/-- The object id of a tree is that of the canonical tree of its files. -/
theorem treeOid (h : tree.Represents gitObjectOid files) :
    LiveFiles.treeOid gitObjectOid files = tree.freshOid gitObjectOid := by
  obtain ⟨list, hok, hmem⟩ := LiveFiles.exists_gitFiles h.recordable
  rw [LiveFiles.treeOid, hok]
  refine canonicalTreeOid_eq_freshOid gitObjectOid h.sound
    (fun names file => (hmem names file).trans (h.file? names file).symm) fun file hfile => ?_
  exact List.le_max_of_le (List.mem_map_of_mem hfile) le_rfl

/-- A tree and its refreshed self represent the same files. -/
theorem refreshed (h : tree.Represents gitObjectOid files) {tree' : Tree}
    (hrefreshed : Refreshed gitObjectOid tree tree') : tree'.Represents gitObjectOid files :=
  ⟨hrefreshed.sound, h.recordable, fun names file => hrefreshed.file? ▸ h.file? names file⟩

theorem hasPathConflict_eq_false (h : tree.Represents gitObjectOid files) :
    files.hasPathConflict = false := by
  rw [Bool.eq_false_iff, Ne, LiveFiles.hasPathConflict_iff_holds h.recordable]
  rintro ⟨names, rest, file, file', hrest, hfile, hfile'⟩
  have hnone := file?_append_eq_none ((h.file? names file).mpr hfile) hrest
  rw [(h.file? _ file').mpr hfile'] at hnone
  cases hnone

end Represents

/-! ## Deltas -/

/-- Removing files leaves all others. -/
theorem Sound.removeAll {tree : Tree} (h : tree.Sound gitObjectOid)
    (delta : List (GitTreePath × Option TreeFile)) :
    (tree.removeAll delta).Sound gitObjectOid ∧ ∀ names file,
      (tree.removeAll delta).file? names = some file ↔
        tree.file? names = some file ∧ ∀ path, path.components = names → (path, none) ∉ delta := by
  induction delta generalizing tree with
  | nil => exact ⟨h, by simp [Tree.removeAll]⟩
  | cons e delta ih =>
    obtain ⟨path, file | file⟩ := e
    · have hremoved := h.remove path.components
      obtain ⟨hsound, hfile⟩ := ih hremoved.sound
      refine ⟨hsound, fun names file => ?_⟩
      have hstep : tree.removeAll ((path, none) :: delta) =
          (tree.remove path.components).2.removeAll delta := rfl
      rw [hstep, hfile, hremoved.file?]
      split_ifs with hnames
      · refine iff_of_false (by simp) fun hall => ?_
        exact hall.2 path hnames.symm List.mem_cons_self
      · refine and_congr_right fun _ => forall₂_congr fun other hother => ?_
        have hne : other ≠ path := by
          rintro rfl
          exact hnames hother.symm
        simp [hne]
    · obtain ⟨hsound, hfile⟩ := ih h
      refine ⟨hsound, fun names other => (hfile names other).trans ?_⟩
      simp

/-- Inserting files leads to the files that `R` tells, unless `R` tells of a path and one below. -/
theorem Sound.insertAll {tree : Tree} (h : tree.Sound gitObjectOid)
    {delta : List (GitTreePath × Option TreeFile)} {R : List String → TreeFile → Prop}
    (hinserted : ∀ path file, (path, some file) ∈ delta → ∀ file', R path.components file' ↔ file' = file)
    (hkept : ∀ names, (∀ path file, path.components = names → (path, some file) ∉ delta) →
      ∀ file, R names file ↔ tree.file? names = some file) :
    (∃ tree', tree.insertAll delta = .ok tree' ∧ tree'.Sound gitObjectOid ∧
        ∀ names file, tree'.file? names = some file ↔ R names file) ∨
      (∃ conflict, tree.insertAll delta = .error (.pathConflict conflict)) ∧
        ∃ names rest file file', rest ≠ [] ∧ R names file ∧ R (names ++ rest) file' := by
  induction delta generalizing tree with
  | nil => exact .inl ⟨tree, rfl, h, fun names file => (hkept names (by simp) file).symm⟩
  | cons e delta ih =>
    obtain ⟨path, file | file⟩ := e
    · exact ih h (fun path' file hmem => hinserted path' file (by simp [hmem]))
        fun names hnames => hkept names fun path' file' hpath' hmem => by
          rcases List.mem_cons.mp hmem with hhead | hmem
          · cases hhead
          · exact hnames path' file' hpath' hmem
    · have hself : R path.components file := (hinserted path file (by simp) file).mpr rfl
      -- `R` tells of a file wherever the tree has one
      have htold : ∀ names, (tree.file? names).isSome → ∃ file', R names file' := by
        intro names hsome
        obtain ⟨before, hbefore⟩ := Option.isSome_iff_exists.mp hsome
        by_cases hnames : ∃ path' file', path'.components = names ∧
            (path', some file') ∈ (path, some file) :: delta
        · obtain ⟨path', file', rfl, hmem⟩ := hnames
          exact ⟨file', (hinserted path' file' hmem file').mpr rfl⟩
        · refine ⟨before, (hkept names (fun path' file' hpath' hmem => ?_) before).mpr hbefore⟩
          exact hnames ⟨path', file', hpath', hmem⟩
      have hstep : tree.insertAll ((path, some file) :: delta) =
          (tree.insert path.components file).bind fun tree => tree.insertAll delta := rfl
      rw [hstep]
      rcases h.insert path.components_ne_nil file with
        ⟨hblocked, conflict, herror⟩ | ⟨-, tree', hok, hsound, -, hfile⟩
      · refine .inr ⟨⟨conflict, by rw [herror]; rfl⟩, ?_⟩
        rcases hblocked with ⟨start, rest, hrest, happend, hsome⟩ | ⟨rest, hrest, hsome⟩
        · obtain ⟨file', hfile'⟩ := htold start hsome
          exact ⟨start, rest, file', file, hrest, hfile', happend ▸ hself⟩
        · obtain ⟨file', hfile'⟩ := htold _ hsome
          exact ⟨path.components, rest, file, file', hrest, hself, hfile'⟩
      · rw [hok]
        refine ih hsound (fun path' file' hmem => hinserted path' file' (by simp [hmem])) ?_
        intro names hnames file'
        rw [hfile]
        split_ifs with hpath
        · rw [hpath, hinserted path file (by simp), Option.some.injEq, eq_comm]
        · refine hkept names (fun path' other hpath' hmem => ?_) file'
          rcases List.mem_cons.mp hmem with hhead | hmem
          · cases hhead
            exact hpath hpath'.symm
          · exact hnames path' other hpath' hmem

end Tree

/-- What a path holds, as a delta records it. -/
def LiveFiles.HoldsAt (files : LiveFiles) (path : ScopePath) : Option TreeFile → Prop
  | none => files.get? path = none
  | some file => ∃ blob, files.get? path = some blob ∧ treeFile path.asStr blob = .ok file

/-- What a delta says about the files before and after the changes it collects. -/
structure DeltaOf (delta : TreeDelta) (before after : LiveFiles) : Prop where
  changed : ∀ treePath file, delta.get? treePath = some file → ∃ path,
    GitTreePath.fromScopePath path = .ok treePath ∧ after.HoldsAt path file
  kept : ∀ path, (∀ treePath, GitTreePath.fromScopePath path = .ok treePath →
    delta.get? treePath = none) → after.get? path = before.get? path

namespace DeltaOf

theorem change {delta delta' : TreeDelta} {before after : LiveFiles} {change : ProjectedChange}
    (h : DeltaOf delta before after) (hok : deltaChange delta change = .ok delta') :
    DeltaOf delta' before (change.applyTo after) := by
  simp only [deltaChange, except_bind_eq_ok, mapError_eq_ok] at hok
  obtain ⟨treePath, hpath, hok⟩ := hok
  -- the delta records the new content under the path of the change
  have hself : (change.applyTo after).get? change.path = change.newContent := by
    rw [ProjectedChange.get?_applyTo, if_pos rfl]
  have hrecord : ∃ file, delta' = delta.insert treePath file ∧
      (change.applyTo after).HoldsAt change.path file := by
    cases hnew : change.newContent with
    | none =>
      rw [hnew] at hok hself
      cases hok
      exact ⟨none, rfl, hself⟩
    | some blob =>
      rw [hnew] at hok hself
      obtain ⟨file, hfile, hok⟩ := except_bind_eq_ok.mp hok
      cases hok
      exact ⟨some file, rfl, blob, hself, hfile⟩
  obtain ⟨file, rfl, hfile⟩ := hrecord
  constructor
  · intro other file' hget
    rw [SortedMap.get?_insert] at hget
    split_ifs at hget with hother
    · cases hget
      exact ⟨change.path, hother ▸ hpath, hfile⟩
    · obtain ⟨path, hotherPath, hafter⟩ := h.changed other file' hget
      have hne : path ≠ change.path := by
        rintro rfl
        rw [hpath] at hotherPath
        exact hother (Except.ok.inj hotherPath).symm
      refine ⟨path, hotherPath, ?_⟩
      have hsame : (change.applyTo after).get? path = after.get? path := by
        rw [ProjectedChange.get?_applyTo, if_neg hne]
      cases file' <;> simpa only [LiveFiles.HoldsAt, hsame] using hafter
  · intro path hnone
    have hne : path ≠ change.path := by
      rintro rfl
      have := hnone treePath hpath
      simp at this
    rw [ProjectedChange.get?_applyTo, if_neg hne]
    refine h.kept path fun other hother => ?_
    have hget := hnone other hother
    rw [SortedMap.get?_insert] at hget
    split_ifs at hget
    exact hget

theorem commit {commit : ProjectedCommit} {delta : TreeDelta} (hok : treeDelta commit = .ok delta)
    (files : LiveFiles) : DeltaOf delta files (commit.applyTo files) := by
  have hfold : ∀ (changes : List ProjectedChange) (delta₀ : TreeDelta) (after : LiveFiles),
      DeltaOf delta₀ files after → changes.foldlM deltaChange delta₀ = .ok delta →
      DeltaOf delta files (changes.foldl ProjectedChange.applyTo after) := by
    intro changes
    induction changes with
    | nil =>
      intro delta₀ after h hok
      cases hok
      exact h
    | cons change changes ih =>
      intro delta₀ after h hok
      rw [List.foldlM_cons, except_bind_eq_ok] at hok
      obtain ⟨delta₁, hchange, hok⟩ := hok
      exact ih delta₁ _ (h.change hchange) hok
  have hstart : DeltaOf ∅ files files := by
    refine ⟨fun treePath file hget => ?_, fun _ _ => rfl⟩
    cases hget
  exact hfold commit.changes ∅ files hstart hok

variable {delta : TreeDelta} {before after : LiveFiles}

/-- What the delta records for a path is what the path holds afterwards. -/
theorem get?_after (h : DeltaOf delta before after) {path : ScopePath} {treePath : GitTreePath}
    {file : Option TreeFile} (hpath : GitTreePath.fromScopePath path = .ok treePath)
    (hget : delta.get? treePath = some file) : after.HoldsAt path file := by
  obtain ⟨other, hother, hafter⟩ := h.changed treePath file hget
  obtain rfl := GitTreePath.fromScopePath_injective hother hpath
  exact hafter

theorem get?_kept (h : DeltaOf delta before after) {path : ScopePath} {treePath : GitTreePath}
    (hpath : GitTreePath.fromScopePath path = .ok treePath) (hget : delta.get? treePath = none) :
    after.get? path = before.get? path := by
  refine h.kept path fun other hother => ?_
  rw [hpath] at hother
  rwa [← Except.ok.inj hother]

theorem recordable (h : DeltaOf delta before after) (hbefore : before.Recordable) :
    after.Recordable := by
  intro path blob hget
  by_cases hchanged : ∃ treePath file, GitTreePath.fromScopePath path = .ok treePath ∧
      delta.get? treePath = some file
  · obtain ⟨treePath, file, hpath, hdelta⟩ := hchanged
    have hafter := h.get?_after hpath hdelta
    cases file with
    | none => cases hget.symm.trans hafter
    | some file =>
      obtain ⟨blob', hget', hfile⟩ := hafter
      obtain rfl : blob = blob' := Option.some.inj (hget.symm.trans hget')
      exact ⟨_, LiveFiles.gitFile_eq_ok.mpr ⟨treePath, hpath, rfl, hfile⟩⟩
  · have hkept : after.get? path = before.get? path := by
      refine h.kept path fun treePath hpath => ?_
      by_contra hne
      obtain ⟨file, hfile⟩ := Option.ne_none_iff_exists'.mp hne
      exact hchanged ⟨treePath, file, hpath, hfile⟩
    exact hbefore path blob (hkept ▸ hget)

/-- Away from what it inserts, a delta only removes. -/
theorem holds_iff (h : DeltaOf delta before after) {names : List String}
    (hnames : ∀ treePath file, treePath.components = names → delta.get? treePath ≠ some (some file))
    (file : TreeFile) :
    after.Holds names file ↔ before.Holds names file ∧
      ∀ treePath, treePath.components = names → delta.get? treePath ≠ some none := by
  constructor
  · rintro ⟨path, blob, hget, hfile⟩
    obtain ⟨treePath, hpath, rfl, htree⟩ := LiveFiles.gitFile_eq_ok.mp hfile
    have hdelta : delta.get? treePath = none := by
      cases hrecord : delta.get? treePath with
      | none => rfl
      | some file' =>
        have hafter := h.get?_after hpath hrecord
        cases file' with
        | none => cases hget.symm.trans hafter
        | some file' => exact absurd hrecord (hnames treePath file' rfl)
    refine ⟨⟨path, blob, h.get?_kept hpath hdelta ▸ hget, hfile⟩, fun other hother => ?_⟩
    rw [GitTreePath.components_injective hother, hdelta]
    simp
  · rintro ⟨⟨path, blob, hget, hfile⟩, hremoved⟩
    obtain ⟨treePath, hpath, rfl, htree⟩ := LiveFiles.gitFile_eq_ok.mp hfile
    have hdelta : delta.get? treePath = none := by
      cases hrecord : delta.get? treePath with
      | none => rfl
      | some file' =>
        cases file' with
        | none => exact absurd hrecord (hremoved treePath rfl)
        | some file' => exact absurd hrecord (hnames treePath file' rfl)
    exact ⟨path, blob, (h.get?_kept hpath hdelta).symm ▸ hget, hfile⟩

end DeltaOf

namespace Tree.Represents

variable {tree : Tree} {files : LiveFiles}

/-- The tree step of a commit leads to the files of the commit, or fails on a conflict of them. -/
theorem applyDelta (h : tree.Represents gitObjectOid files) {commit : ProjectedCommit}
    {delta : TreeDelta} (hdelta : treeDelta commit = .ok delta) :
    (∃ tree', tree.applyDelta delta = .ok tree' ∧
        tree'.Represents gitObjectOid (commit.applyTo files)) ∨
      (∃ conflict, tree.applyDelta delta = .error (.pathConflict conflict)) ∧
        LiveFiles.hasPathConflict (commit.applyTo files) = true := by
  have hof := DeltaOf.commit hdelta files
  have hrecordable := hof.recordable h.recordable
  obtain ⟨hsound, hfile⟩ := h.sound.removeAll delta.entries
  have hinserted : ∀ path file, (path, some file) ∈ delta.entries → ∀ file',
      LiveFiles.Holds (commit.applyTo files) path.components file' ↔ file' = file := by
    intro treePath file hmem file'
    obtain ⟨path, hpath, blob, hget, htree⟩ :=
      hof.changed treePath (some file) (SortedMap.mem_entries_iff.mp hmem)
    rw [LiveFiles.holds_components_iff hpath]
    constructor
    · rintro ⟨blob', hget', htree'⟩
      obtain rfl : blob = blob' := Option.some.inj (hget.symm.trans hget')
      rw [htree] at htree'
      exact (Except.ok.inj htree').symm
    · rintro rfl
      exact ⟨blob, hget, htree⟩
  have hkept : ∀ names, (∀ path file, path.components = names →
      (path, some file) ∉ delta.entries) → ∀ file,
      LiveFiles.Holds (commit.applyTo files) names file ↔
        (tree.removeAll delta.entries).file? names = some file := by
    intro names hnames file
    rw [hfile, h.file?]
    simp only [SortedMap.mem_entries_iff] at hnames ⊢
    exact hof.holds_iff hnames file
  rcases hsound.insertAll hinserted hkept with ⟨tree', hok, hsound', hfile'⟩ | ⟨herror, hconflict⟩
  · exact .inl ⟨tree', hok, hsound', hrecordable, hfile'⟩
  · exact .inr ⟨herror, (LiveFiles.hasPathConflict_iff_holds hrecordable).mpr hconflict⟩

end Tree.Represents

/-! ## Resuming -/

theorem treeFile_eq_ok {path : String} {blob : SourceBlob} {file : TreeFile} :
    treeFile path blob = .ok file ↔ isSupportedGitFileMode blob.gitFileMode = true ∧
      ∃ oid, parseOid blob.gitOid "blob" = .ok oid ∧ file = ⟨blob.gitFileMode, oid⟩ := by
  unfold treeFile
  cases isSupportedGitFileMode blob.gitFileMode with
  | false => simp [bind, Except.bind, throw, throwThe, MonadExceptOf.throw]
  | true =>
    cases parseOid blob.gitOid "blob" with
    | error error => simp [bind, Except.bind]
    | ok oid => simp [bind, Except.bind, pure, Except.pure, eq_comm]

namespace ProjectionHead

/-- Resuming from recordable files is inserting them. -/
theorem exists_resumeFiles {list : List (ScopePath × SourceBlob)}
    (h : ∀ path blob, (path, blob) ∈ list → ∃ entry, LiveFiles.gitFile path blob = .ok entry) :
    ∃ delta, (∀ tree, list.foldlM resumeFile tree = Tree.insertAll tree delta) ∧
      ∀ treePath file, (treePath, some file) ∈ delta ↔ ∃ path blob, (path, blob) ∈ list ∧
        GitTreePath.fromScopePath path = .ok treePath ∧ treeFile path.asStr blob = .ok file := by
  induction list with
  | nil => exact ⟨[], fun _ => rfl, by simp⟩
  | cons e list ih =>
    obtain ⟨path, blob⟩ := e
    obtain ⟨delta, hfold, hmem⟩ := ih fun path' blob' hmem => h path' blob' (by simp [hmem])
    obtain ⟨⟨names, file⟩, hentry⟩ := h path blob (by simp)
    obtain ⟨treePath, hpath, -, hfile⟩ := LiveFiles.gitFile_eq_ok.mp hentry
    -- the text that errors name does not matter here
    have hfile' : treeFile treePath.asStr blob = .ok file :=
      treeFile_eq_ok.mpr (treeFile_eq_ok.mp hfile)
    refine ⟨(treePath, some file) :: delta, fun tree => ?_, fun treePath' file' => ?_⟩
    · have hstep : resumeFile tree (path, blob) = tree.insert treePath.components file := by
        simp [resumeFile, hpath, hfile', Except.mapError, bind, Except.bind]
      have hinsert : tree.insertAll ((treePath, some file) :: delta) =
          (tree.insert treePath.components file).bind fun tree => tree.insertAll delta := rfl
      rw [List.foldlM_cons, hstep, hinsert]
      exact congrArg _ (funext hfold)
    · simp only [List.mem_cons, Prod.mk.injEq, Option.some.injEq, hmem]
      constructor
      · rintro (⟨rfl, rfl⟩ | ⟨other, blob', hmem', hother, hfile''⟩)
        · exact ⟨path, blob, .inl ⟨rfl, rfl⟩, hpath, hfile⟩
        · exact ⟨other, blob', .inr hmem', hother, hfile''⟩
      · rintro ⟨other, blob', ⟨rfl, rfl⟩ | hmem', hother, hfile''⟩
        · rw [hpath] at hother
          rw [hfile] at hfile''
          exact .inl ⟨(Except.ok.inj hother).symm, (Except.ok.inj hfile'').symm⟩
        · exact .inr ⟨other, blob', hmem', hother, hfile''⟩

end ProjectionHead

/-- Resuming from the files of a tree leads to a tree of the same files. -/
theorem Tree.Represents.resume {tree : Tree} {files : LiveFiles}
    (h : tree.Represents gitObjectOid files) (oid : Option String) :
    ∃ head, ProjectionHead.resume oid files = .ok head ∧ head.oid = oid ∧
      head.tree.Represents gitObjectOid files := by
  obtain ⟨delta, hfold, hmem⟩ := ProjectionHead.exists_resumeFiles
    fun path blob hentry => h.recordable path blob (SortedMap.mem_entries_iff.mp hentry)
  simp only [SortedMap.mem_entries_iff] at hmem
  have hinserted : ∀ path file, (path, some file) ∈ delta → ∀ file',
      files.Holds path.components file' ↔ file' = file := by
    intro treePath file hdelta file'
    obtain ⟨path, blob, hget, hpath, htree⟩ := (hmem treePath file).mp hdelta
    rw [LiveFiles.holds_components_iff hpath]
    constructor
    · rintro ⟨blob', hget', htree'⟩
      obtain rfl : blob = blob' := Option.some.inj (hget.symm.trans hget')
      rw [htree] at htree'
      exact (Except.ok.inj htree').symm
    · rintro rfl
      exact ⟨blob, hget, htree⟩
  have hkept : ∀ names, (∀ path file, path.components = names → (path, some file) ∉ delta) →
      ∀ file, files.Holds names file ↔ Tree.empty.file? names = some file := by
    intro names hnames file
    rw [Tree.file?_empty]
    refine iff_of_false ?_ (by simp)
    rintro ⟨path, blob, hget, hfile⟩
    obtain ⟨treePath, hpath, rfl, htree⟩ := LiveFiles.gitFile_eq_ok.mp hfile
    exact hnames treePath file rfl ((hmem treePath file).mpr ⟨path, blob, hget, hpath, htree⟩)
  have hempty : Tree.empty.Sound gitObjectOid := .empty
  rcases hempty.insertAll hinserted hkept with ⟨tree', hok, hsound, hfile⟩ | ⟨-, hconflict⟩
  · refine ⟨⟨tree', oid⟩, ?_, rfl, hsound, h.recordable, hfile⟩
    rw [ProjectionHead.resume, hfold, hok]
    rfl
  · rw [← LiveFiles.hasPathConflict_iff_holds h.recordable, h.hasPathConflict_eq_false] at hconflict
    cases hconflict

end ScopeVcs

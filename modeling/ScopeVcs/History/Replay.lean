import ScopeVcs.History.Entries

/-! # What a replay finds

A replay writes under the ids of the commits and change sets that it comes across. What it finds
under other ids stays, and what it finds under new ids does not depend on what it found before.
-/

namespace ScopeVcs

/-! ## Ids of changes -/

theorem visibilityChangeId_injective {setId setId' : String} {path path' : ScopePath}
    (hset : ':' ∉ setId.toList) (hset' : ':' ∉ setId'.toList)
    (h : visibilityChangeId setId path = visibilityChangeId setId' path') :
    setId = setId' ∧ path = path' := by
  have htake : ∀ (front rest : List Char), ':' ∉ front →
      (front ++ ':' :: rest).takeWhile (· ≠ ':') = front := by
    intro front rest hfront
    rw [List.takeWhile_append_of_pos fun c hc => by simpa using fun heq : c = ':' => hfront (heq ▸ hc),
      List.takeWhile_cons_of_neg (by simp), List.append_nil]
  have hlists : setId.toList ++ ':' :: path.asStr.toList =
      setId'.toList ++ ':' :: path'.asStr.toList := by
    simpa [visibilityChangeId] using congrArg String.toList h
  have hfront : setId.toList = setId'.toList := by
    rw [← htake _ path.asStr.toList hset, hlists, htake _ _ hset']
  rw [hfront, List.append_cancel_left_eq, List.cons.injEq] at hlists
  exact ⟨String.toList_injective hfront,
    ScopePath.asStr_injective (String.toList_injective hlists.2)⟩

/-! ## The tree of a replay -/

namespace Replay

theorem tree_visibilityChange (setId : String) (replay : Replay) (change : ProjectedChange) :
    (replay.visibilityChange setId change).tree = change.applyTo replay.tree := by
  unfold visibilityChange
  split <;> rfl

theorem tree_visibilityChanges (setId : String) (replay : Replay) (changes : List ProjectedChange) :
    (changes.foldl (visibilityChange setId) replay).tree =
      changes.foldl ProjectedChange.applyTo replay.tree := by
  induction changes generalizing replay with
  | nil => rfl
  | cons change changes ih => rw [List.foldl_cons, ih, tree_visibilityChange, List.foldl_cons]

theorem tree_contentChanges (state : LiveFiles × ProjectedAction) (changes : List ProjectedChange) :
    (changes.foldl contentChange state).1 = changes.foldl ProjectedChange.applyTo state.1 := by
  induction changes generalizing state with
  | nil => rfl
  | cons change changes ih => rw [List.foldl_cons, ih, contentChange, List.foldl_cons]

theorem tree_commit (replay : Replay) (commit : ProjectedCommit) :
    (replay.commit commit).tree = commit.applyTo replay.tree := by
  unfold Replay.commit ProjectedCommit.applyTo
  cases commit.visibilityChangeSetId with
  | some setId => exact tree_visibilityChanges setId replay commit.changes
  | none => exact tree_contentChanges _ commit.changes

theorem tree_commits (replay : Replay) (commits : List ProjectedCommit) :
    (commits.foldl Replay.commit replay).tree = applyCommits commits replay.tree := by
  induction commits generalizing replay with
  | nil => rfl
  | cons commit commits ih => rw [List.foldl_cons, ih, tree_commit, applyCommits_cons]

end Replay

/-! ## Where a replay writes -/

/-- Two replays found the same under some ids of commits and of change sets. -/
structure ProjectionHistory.AgreesOn (ids setIds : Set String) (a b : ProjectionHistory) : Prop where
  actions : ∀ id ∈ ids, a.actions.get? id = b.actions.get? id
  visibility : ∀ setId ∈ setIds, ∀ path,
    a.visibility.get? (visibilityChangeId setId path) =
      b.visibility.get? (visibilityChangeId setId path)
  boundaries : ∀ setId ∈ setIds, a.boundaries.get? setId = b.boundaries.get? setId

/-- A projected commit comes from one of these commits or change sets. -/
def ProjectedCommit.ComesFrom (ids setIds : Set String) (commit : ProjectedCommit) : Prop :=
  match commit.visibilityChangeSetId with
  | some setId => setId ∈ setIds
  | none => commit.logicalCommitId ∈ ids

section Agreement

variable {ids setIds ids' setIds' : Set String}

namespace ProjectionHistory.AgreesOn

variable {a b c : ProjectionHistory}

theorem refl (a : ProjectionHistory) : a.AgreesOn ids setIds a :=
  ⟨fun _ _ => rfl, fun _ _ _ => rfl, fun _ _ => rfl⟩

theorem symm (h : a.AgreesOn ids setIds b) : b.AgreesOn ids setIds a where
  actions := fun id hid => (h.actions id hid).symm
  visibility := fun setId hset path => (h.visibility setId hset path).symm
  boundaries := fun setId hset => (h.boundaries setId hset).symm

theorem trans (h : a.AgreesOn ids setIds b) (h' : b.AgreesOn ids setIds c) :
    a.AgreesOn ids setIds c where
  actions := fun id hid => (h.actions id hid).trans (h'.actions id hid)
  visibility := fun setId hset path => (h.visibility setId hset path).trans (h'.visibility setId hset path)
  boundaries := fun setId hset => (h.boundaries setId hset).trans (h'.boundaries setId hset)

end ProjectionHistory.AgreesOn

namespace Replay

/-! ### What stays -/

section Frame

variable (hcolon : ∀ setId ∈ setIds, ':' ∉ setId.toList)

include hcolon

theorem agreesOn_visibilityChange {setId : String} (hset : setId ∉ setIds)
    (hplain : ':' ∉ setId.toList) (replay : Replay) (change : ProjectedChange) :
    (replay.visibilityChange setId change).history.AgreesOn ids setIds replay.history := by
  unfold visibilityChange
  dsimp only
  split
  · refine ⟨fun _ _ => rfl, fun other hother path => ?_, fun other hother => ?_⟩
    · rw [SortedMap.get?_insert, if_neg]
      intro heq
      exact hset ((visibilityChangeId_injective (hcolon other hother) hplain heq).1 ▸ hother)
    · rw [SortedMap.get?_insert, if_neg]
      rintro rfl
      exact hset hother
  · exact .refl _

theorem agreesOn_commit {commit : ProjectedCommit} (hfrom : commit.ComesFrom ids' setIds')
    (hids : ∀ id ∈ ids', id ∉ ids) (hsets : ∀ setId ∈ setIds', setId ∉ setIds)
    (hplain : ∀ setId ∈ setIds', ':' ∉ setId.toList) (replay : Replay) :
    (replay.commit commit).history.AgreesOn ids setIds replay.history := by
  unfold ProjectedCommit.ComesFrom at hfrom
  unfold Replay.commit
  cases hset : commit.visibilityChangeSetId with
  | some setId =>
    rw [hset] at hfrom
    dsimp only at hfrom ⊢
    generalize commit.changes = changes
    induction changes generalizing replay with
    | nil => exact .refl _
    | cons change changes ih =>
      exact (ih _).trans (agreesOn_visibilityChange hcolon (hsets setId hfrom) (hplain setId hfrom)
        replay change)
  | none =>
    rw [hset] at hfrom
    dsimp only at hfrom ⊢
    refine ⟨fun id hid => ?_, fun _ _ _ => rfl, fun _ _ => rfl⟩
    rw [SortedMap.get?_insert, if_neg]
    rintro rfl
    exact hids _ hfrom hid

/-- Commits from elsewhere leave what was found. -/
theorem agreesOn_commits {commits : List ProjectedCommit}
    (hfrom : ∀ commit ∈ commits, commit.ComesFrom ids' setIds')
    (hids : ∀ id ∈ ids', id ∉ ids) (hsets : ∀ setId ∈ setIds', setId ∉ setIds)
    (hplain : ∀ setId ∈ setIds', ':' ∉ setId.toList) (replay : Replay) :
    (commits.foldl Replay.commit replay).history.AgreesOn ids setIds replay.history := by
  induction commits generalizing replay with
  | nil => exact .refl _
  | cons commit commits ih =>
    rw [List.forall_mem_cons] at hfrom
    exact (ih hfrom.2 _).trans (agreesOn_commit hcolon hfrom.1 hids hsets hplain replay)

end Frame

/-! ### What does not depend on the past -/

/-- Two replays with the same tree found the same under some ids. -/
structure AgreesOn (ids setIds : Set String) (a b : Replay) : Prop where
  tree : a.tree = b.tree
  history : a.history.AgreesOn ids setIds b.history

variable {a b : Replay}

theorem AgreesOn.visibilityChange (h : a.AgreesOn ids setIds b) {setId : String}
    (hset : setId ∈ setIds) (change : ProjectedChange) :
    (a.visibilityChange setId change).AgreesOn ids setIds (b.visibilityChange setId change) := by
  unfold Replay.visibilityChange
  dsimp only
  rw [h.tree, h.history.boundaries setId hset]
  split_ifs
  · refine ⟨rfl, h.history.actions, fun other hother path => ?_, fun other hother => ?_⟩
    · rw [SortedMap.get?_insert, SortedMap.get?_insert, h.history.visibility other hother path]
    · rw [SortedMap.get?_insert, SortedMap.get?_insert, h.history.boundaries other hother]
  · exact ⟨rfl, h.history⟩

theorem AgreesOn.commit (h : a.AgreesOn ids setIds b) {commit : ProjectedCommit}
    (hfrom : commit.ComesFrom ids setIds) :
    (a.commit commit).AgreesOn ids setIds (b.commit commit) := by
  unfold ProjectedCommit.ComesFrom at hfrom
  unfold Replay.commit
  cases hset : commit.visibilityChangeSetId with
  | some setId =>
    rw [hset] at hfrom
    dsimp only at hfrom ⊢
    generalize commit.changes = changes
    induction changes generalizing a b with
    | nil => exact h
    | cons change changes ih => exact ih (h.visibilityChange hfrom change)
  | none =>
    rw [hset] at hfrom
    dsimp only at hfrom ⊢
    rw [h.tree, h.history.actions _ hfrom]
    refine ⟨rfl, fun id hid => ?_, h.history.visibility, h.history.boundaries⟩
    rw [SortedMap.get?_insert, SortedMap.get?_insert, h.history.actions id hid]

theorem AgreesOn.commits (h : a.AgreesOn ids setIds b) {commits : List ProjectedCommit}
    (hfrom : ∀ commit ∈ commits, commit.ComesFrom ids setIds) :
    (commits.foldl Replay.commit a).AgreesOn ids setIds (commits.foldl Replay.commit b) := by
  induction commits generalizing a b with
  | nil => exact h
  | cons commit commits ih =>
    rw [List.forall_mem_cons] at hfrom
    exact ih (h.commit hfrom.1) hfrom.2

end Replay

/-! ### Two batches -/

variable {earlier later : List ProjectedCommit} {repoId : String} {viewKey : ViewId}

/-- What a replay of two batches finds of the first one, a replay of the first one finds. -/
theorem replay_append_left (hcolon : ∀ setId ∈ setIds, ':' ∉ setId.toList)
    (hlater : ∀ commit ∈ later, commit.ComesFrom ids' setIds')
    (hids : ∀ id ∈ ids', id ∉ ids) (hsets : ∀ setId ∈ setIds', setId ∉ setIds)
    (hplain : ∀ setId ∈ setIds', ':' ∉ setId.toList) (tree : LiveFiles) :
    (ProjectionHistory.replay tree ⟨repoId, viewKey, earlier ++ later⟩).AgreesOn ids setIds
      (.replay tree ⟨repoId, viewKey, earlier⟩) := by
  unfold ProjectionHistory.replay
  rw [List.foldl_append]
  exact Replay.agreesOn_commits hcolon hlater hids hsets hplain _

/-- What a replay of two batches finds of the second one, a replay of the second one finds, from the
tree that the first one leaves. -/
theorem replay_append_right (hcolon : ∀ setId ∈ setIds', ':' ∉ setId.toList)
    (hearlier : ∀ commit ∈ earlier, commit.ComesFrom ids setIds)
    (hlater : ∀ commit ∈ later, commit.ComesFrom ids' setIds')
    (hids : ∀ id ∈ ids, id ∉ ids') (hsets : ∀ setId ∈ setIds, setId ∉ setIds')
    (hplain : ∀ setId ∈ setIds, ':' ∉ setId.toList) (tree : LiveFiles) :
    (ProjectionHistory.replay tree ⟨repoId, viewKey, earlier ++ later⟩).AgreesOn ids' setIds'
      (.replay (applyCommits earlier tree) ⟨repoId, viewKey, later⟩) := by
  unfold ProjectionHistory.replay
  rw [List.foldl_append]
  refine (Replay.AgreesOn.commits ⟨?_, ?_⟩ hlater).history
  · rw [Replay.tree_commits]
  · exact Replay.agreesOn_commits hcolon hearlier hids hsets hplain ⟨tree, .empty⟩

end Agreement

/-! ## What a replay finds of one commit or change set -/

section Found

variable {tree : LiveFiles} {changes : List ProjectedChange}

/-- The files of changes that are made one after the other. -/
def entryFiles : LiveFiles → List ProjectedChange → List HistoryEntryFile
  | _, [] => []
  | tree, change :: changes =>
    (entryFile tree change).toList ++ entryFiles (change.applyTo tree) changes

theorem entryFile_congr {tree' : LiveFiles} {change : ProjectedChange}
    (h : tree.get? change.path = tree'.get? change.path) :
    entryFile tree change = entryFile tree' change := by
  unfold entryFile
  rw [h]

theorem entryFile_applyTo {change other : ProjectedChange} (h : other.path ≠ change.path) :
    entryFile (change.applyTo tree) other = entryFile tree other :=
  entryFile_congr (by rw [ProjectedChange.get?_applyTo, if_neg h])

/-- Changes of different paths make the files that each of them makes alone. -/
theorem entryFiles_eq_filterMap (hnodup : (changes.map (·.path)).Nodup) :
    entryFiles tree changes = changes.filterMap (entryFile tree) := by
  induction changes generalizing tree with
  | nil => rfl
  | cons change changes ih =>
    rw [List.map_cons, List.nodup_cons] at hnodup
    have hrest : changes.filterMap (entryFile (change.applyTo tree)) =
        changes.filterMap (entryFile tree) := by
      refine List.filterMap_congr fun other hother => entryFile_applyTo fun heq => ?_
      exact hnodup.1 (heq ▸ List.mem_map_of_mem hother)
    rw [entryFiles, ih hnodup.2, hrest, List.filterMap_cons]
    cases entryFile tree change <;> rfl

theorem path_of_entryFile {change : ProjectedChange} {file : HistoryEntryFile}
    (h : entryFile tree change = some file) :
    file.path = change.path ∧ file.newContent = change.newContent ∧ file.label = change.label := by
  unfold entryFile at h
  dsimp only at h
  split_ifs at h
  split at h <;> cases h <;> exact ⟨rfl, rfl, rfl⟩

namespace Replay

variable {replay : Replay}

/-! ### Commits -/

theorem files_contentChanges (state : LiveFiles × ProjectedAction) :
    (changes.foldl contentChange state).2.files =
      state.2.files ++ entryFiles state.1 changes := by
  induction changes generalizing state with
  | nil => exact (List.append_nil _).symm
  | cons change changes ih =>
    rw [List.foldl_cons, ih, contentChange, entryFiles]
    exact List.append_assoc _ _ _

/-- The commits of one logical commit collect its files, in this order. -/
theorem files_commits {id : String} {commits : List ProjectedCommit}
    (hfrom : ∀ commit ∈ commits, commit.visibilityChangeSetId = none ∧ commit.logicalCommitId = id)
    (replay : Replay) :
    (((commits.foldl Replay.commit replay).history.actions.get? id).map (·.files)).getD [] =
      ((replay.history.actions.get? id).map (·.files)).getD [] ++
        entryFiles replay.tree (commits.flatMap (·.changes)) := by
  induction commits generalizing replay with
  | nil => exact (List.append_nil _).symm
  | cons commit commits ih =>
    rw [List.forall_mem_cons] at hfrom
    have happend : ∀ (tree : LiveFiles) (rest : List ProjectedChange),
        entryFiles tree (commit.changes ++ rest) = entryFiles tree commit.changes ++
          entryFiles (commit.changes.foldl ProjectedChange.applyTo tree) rest := by
      intro tree rest
      generalize commit.changes = changes
      induction changes generalizing tree with
      | nil => rfl
      | cons change changes ih =>
        rw [List.cons_append, entryFiles, entryFiles, ih, List.append_assoc, List.foldl_cons]
    have hfiles : (((replay.commit commit).history.actions.get? id).map (·.files)).getD [] =
        ((replay.history.actions.get? id).map (·.files)).getD [] ++
          entryFiles replay.tree commit.changes := by
      unfold Replay.commit
      rw [hfrom.1.1]
      dsimp only
      rw [SortedMap.get?_insert, if_pos hfrom.1.2.symm, Option.map_some, Option.getD_some,
        files_contentChanges, hfrom.1.2]
      cases replay.history.actions.get? id <;> rfl
    rw [List.foldl_cons, ih hfrom.2, hfiles, tree_commit, List.flatMap_cons, happend,
      List.append_assoc]
    rfl

/-- Commits of logical commits leave what was found of change sets. -/
theorem sets_commits {commits : List ProjectedCommit}
    (hfrom : ∀ commit ∈ commits, commit.visibilityChangeSetId = none) (replay : Replay) :
    (commits.foldl Replay.commit replay).history.visibility = replay.history.visibility ∧
      (commits.foldl Replay.commit replay).history.boundaries = replay.history.boundaries := by
  induction commits generalizing replay with
  | nil => exact ⟨rfl, rfl⟩
  | cons commit commits ih =>
    rw [List.forall_mem_cons] at hfrom
    obtain ⟨hvisibility, hboundaries⟩ := ih hfrom.2 (replay.commit commit)
    rw [List.foldl_cons, hvisibility, hboundaries]
    unfold Replay.commit
    rw [hfrom.1]
    exact ⟨rfl, rfl⟩

/-! ### Change sets -/

theorem setCommits {setId : String} {commits : List ProjectedCommit}
    (hfrom : ∀ commit ∈ commits, commit.visibilityChangeSetId = some setId) (replay : Replay) :
    commits.foldl Replay.commit replay =
      (commits.flatMap (·.changes)).foldl (visibilityChange setId) replay := by
  induction commits generalizing replay with
  | nil => rfl
  | cons commit commits ih =>
    rw [List.forall_mem_cons] at hfrom
    rw [List.foldl_cons, ih hfrom.2, List.flatMap_cons, List.foldl_append]
    unfold Replay.commit
    rw [hfrom.1]

theorem actions_visibilityChanges {setId : String} (replay : Replay) :
    (changes.foldl (visibilityChange setId) replay).history.actions = replay.history.actions := by
  induction changes generalizing replay with
  | nil => rfl
  | cons change changes ih =>
    rw [List.foldl_cons, ih]
    unfold visibilityChange
    split_ifs <;> rfl

theorem entryFile_of_not_touches {change : ProjectedChange}
    (h : touchesVisiblePath tree change = false) : entryFile tree change = none := by
  rw [touchesVisiblePath, Bool.or_eq_false_iff] at h
  have hold : tree.get? change.path = none := by simpa [SortedMap.contains] using h.1
  have hnew : change.newContent = none := by simpa using h.2
  unfold entryFile
  rw [hold, hnew]
  rfl

theorem touches_applyTo {change other : ProjectedChange} (h : other.path ≠ change.path) :
    touchesVisiblePath (change.applyTo tree) other = touchesVisiblePath tree other := by
  rw [touchesVisiblePath, touchesVisiblePath, SortedMap.contains, SortedMap.contains,
    ProjectedChange.get?_applyTo, if_neg h]

theorem visibilityChangeId_path {setId : String} {path path' : ScopePath}
    (h : visibilityChangeId setId path = visibilityChangeId setId path') : path = path' := by
  have hlists := congrArg String.toList h
  simp only [visibilityChangeId, String.toList_append, List.append_cancel_left_eq] at hlists
  exact ScopePath.asStr_injective (String.toList_injective hlists)

theorem get?_visibility_of_ne {setId : String} {path : ScopePath}
    (hpath : ∀ change ∈ changes, change.path ≠ path) (replay : Replay) :
    (changes.foldl (visibilityChange setId) replay).history.visibility.get?
        (visibilityChangeId setId path) =
      replay.history.visibility.get? (visibilityChangeId setId path) := by
  induction changes generalizing replay with
  | nil => rfl
  | cons change changes ih =>
    rw [List.forall_mem_cons] at hpath
    rw [List.foldl_cons, ih hpath.2]
    unfold visibilityChange
    dsimp only
    split_ifs
    · rw [SortedMap.get?_insert, if_neg]
      exact fun heq => hpath.1 (visibilityChangeId_path heq).symm
    · rfl

/-- What was found of one change of a change set is its file, if it makes one. -/
theorem join_visibility_of_mem {setId : String} (hnodup : (changes.map (·.path)).Nodup)
    {change : ProjectedChange} (hchange : change ∈ changes) (replay : Replay)
    (hnew : replay.history.visibility.get? (visibilityChangeId setId change.path) = none) :
    ((changes.foldl (visibilityChange setId) replay).history.visibility.get?
      (visibilityChangeId setId change.path)).join = entryFile replay.tree change := by
  induction changes generalizing replay with
  | nil => cases hchange
  | cons first changes ih =>
    rw [List.map_cons, List.nodup_cons] at hnodup
    rw [List.foldl_cons]
    rcases List.mem_cons.mp hchange with rfl | hrest
    · have hother : ∀ other ∈ changes, other.path ≠ change.path := fun other hother heq =>
        hnodup.1 (heq ▸ List.mem_map_of_mem hother)
      rw [get?_visibility_of_ne hother, visibilityChange]
      by_cases htouches : touchesVisiblePath replay.tree change = true
      · rw [if_pos htouches]
        dsimp only
        rw [SortedMap.get?_insert, if_pos rfl]
        rfl
      · rw [if_neg htouches, hnew, entryFile_of_not_touches (Bool.not_eq_true _ ▸ htouches)]
        rfl
    · have hne : change.path ≠ first.path := fun heq =>
        hnodup.1 (heq ▸ List.mem_map_of_mem hrest)
      have hnew' : (replay.visibilityChange setId first).history.visibility.get?
          (visibilityChangeId setId change.path) = none := by
        unfold visibilityChange
        dsimp only
        split_ifs
        · rw [SortedMap.get?_insert, if_neg fun heq => hne (visibilityChangeId_path heq), hnew]
        · exact hnew
      rw [ih hnodup.2 hrest _ hnew', tree_visibilityChange, entryFile_applyTo hne]

/-- The boundaries of a change set are the changes that touch what is or gets visible. -/
theorem boundaries_visibilityChanges {setId : String} (hnodup : (changes.map (·.path)).Nodup)
    (replay : Replay) :
    ((changes.foldl (visibilityChange setId) replay).history.boundaries.get? setId).getD [] =
      (replay.history.boundaries.get? setId).getD [] ++
        (changes.filter (touchesVisiblePath replay.tree)).map fun change =>
          (change.path, change.label) := by
  induction changes generalizing replay with
  | nil => exact (List.append_nil _).symm
  | cons first changes ih =>
    rw [List.map_cons, List.nodup_cons] at hnodup
    have hrest : changes.filter (touchesVisiblePath (first.applyTo replay.tree)) =
        changes.filter (touchesVisiblePath replay.tree) := by
      refine List.filter_congr fun other hother => touches_applyTo fun heq => ?_
      exact hnodup.1 (heq ▸ List.mem_map_of_mem hother)
    rw [List.foldl_cons, ih hnodup.2, tree_visibilityChange, hrest, List.filter_cons,
      visibilityChange]
    by_cases htouches : touchesVisiblePath replay.tree first = true
    · rw [if_pos htouches, if_pos htouches]
      dsimp only
      rw [SortedMap.get?_insert, if_pos rfl, Option.getD_some,
        List.append_assoc]
      rfl
    · rw [if_neg htouches, if_neg htouches]

end Replay

end Found

end ScopeVcs

import ScopeVcs.Projection.History
import ScopeVcs.ReviewedUpdates.Atomicity

/-! # What an update records

Every successful update of a repository records in its history what it does to the labelled files: the
files that it writes in a commit, and the labels and views that it changes in a change set before that
commit.
-/

namespace ScopeVcs

open Mutation

/-! ## The files that a commit writes -/

section Written

variable {live tree : LiveFiles} {policy : Policy} {config : RepoConfig}
  {changes : List ReviewedContentChange} {visibility : WrittenFileVisibility} {written : FileChange}
  {fileChanges : List FileChange}

theorem eq_of_mem_buildFileChanges
    (h : written ∈ buildFileChanges live policy config changes visibility) :
    written.oldContent = live.get? written.path ∧
      written.label = writtenLabel policy config written.path visibility written.oldContent
        written.newContent := by
  obtain ⟨change, -, hchange⟩ := List.mem_filterMap.mp h
  dsimp only at hchange
  split_ifs at hchange
  cases hchange
  exact ⟨rfl, rfl⟩

theorem buildFileChanges_paths_nodup (h : (changes.map (·.path)).Nodup) :
    ((buildFileChanges live policy config changes visibility).map (·.path)).Nodup := by
  refine (ListRewrite.map_filterMap_sublist (h := ReviewedContentChange.path) ?_ changes).nodup h
  intro change written hwritten
  dsimp only at hwritten
  split_ifs at hwritten
  cases hwritten
  rfl

theorem FileChange.get?_applyTo (tree : LiveFiles) (change : FileChange) (path : ScopePath) :
    (change.applyTo tree).get? path =
      if path = change.path then change.newContent else tree.get? path := by
  unfold applyTo
  cases change.newContent <;> simp

theorem get?_written_of_mem (hnodup : (fileChanges.map (·.path)).Nodup)
    (hwritten : written ∈ fileChanges) (tree : LiveFiles) :
    (fileChanges.foldl FileChange.applyTo tree).get? written.path = written.newContent :=
  SortedMap.get?_foldl_of_mem (v := fun (change : FileChange) _ => change.newContent)
    (fun tree change => by rw [FileChange.get?_applyTo, if_pos rfl])
    (fun tree change path hpath => by rw [FileChange.get?_applyTo, if_neg hpath]) hnodup hwritten tree

theorem get?_written_of_ne {path : ScopePath} (hpath : ∀ written ∈ fileChanges, written.path ≠ path)
    (tree : LiveFiles) : (fileChanges.foldl FileChange.applyTo tree).get? path = tree.get? path :=
  SortedMap.get?_foldl_of_ne
    (fun tree change path hpath => by rw [FileChange.get?_applyTo, if_neg hpath]) hpath tree

end Written

/-! ## The labelled files of a repository -/

namespace Repository

variable {repo next : Repository}

/-- The live files with the labels that the policy gives them. -/
def labelledFiles (repo : Repository) : LabelledTree :=
  repo.liveFiles.mapValues fun path blob => (blob, repo.policy.label path repo.repoConfig.views)

/-- The live files whose label a view shows. -/
def shownFiles (repo : Repository) (view : ViewId) : LiveFiles :=
  repo.liveFiles.filter fun path _ =>
    repo.repoConfig.views.shows view path (repo.policy.label path repo.repoConfig.views)

/-- Every live path has a rule of its own in the policy. -/
def HasLiveRules (repo : Repository) : Prop :=
  ∀ path blob, repo.liveFiles.get? path = some blob → ∃ view, repo.policy.rules.get? path = some view

@[simp]
theorem get?_labelledFiles (repo : Repository) (path : ScopePath) :
    repo.labelledFiles.get? path = (repo.liveFiles.get? path).map fun blob =>
      (blob, repo.policy.label path repo.repoConfig.views) :=
  SortedMap.get?_mapValues _ _ _

theorem liveFiles_eq (repo : Repository) (path : ScopePath) :
    repo.liveFiles.get? path = (repo.labelledFiles.get? path).map Prod.fst := by
  rw [get?_labelledFiles, Option.map_map]
  cases repo.liveFiles.get? path <;> rfl

theorem viewFiles_labelledFiles (repo : Repository) (view : ViewId) :
    repo.labelledFiles.viewFiles repo.repoConfig.views view = repo.shownFiles view := by
  refine SortedMap.ext fun path => ?_
  rw [LabelledTree.get?_viewFiles, get?_labelledFiles, shownFiles, SortedMap.get?_filter]
  cases repo.liveFiles.get? path with
  | none => rfl
  | some blob => simp [Option.filter_some]

/-- An update with this head records the change set and the commit, for files that its history labels
as in `tree`. -/
structure RecordsOnto (tree : LabelledTree) (repo next : Repository) (headOid? : Option String)
    (set? : Option VisibilityChangeSet) (commit? : Option LogicalCommit) : Prop where
  commits : next.graph.commits = repo.graph.commits ++ commit?.toList
  sets : next.visibilityChangeSets = repo.visibilityChangeSets ++ set?.toList
  files : next.labelledFiles = tree.update set? commit?
  liveRules : next.HasLiveRules
  fits : FitsHistory tree repo.repoConfig.views next.repoConfig.views set? commit?
  transition : ∀ set ∈ set?, ∀ transition ∈ set.views,
    transition = ⟨repo.repoConfig.views, next.repoConfig.views⟩
  anchored : ∀ set ∈ set?, set.anchorCommitId = repo.graph.commits.getLast?.map (·.id)
  source : ∀ set ∈ set?, set.sourceUpdateId = commit?.map (·.id)
  ids : ∀ commit ∈ commit?, ∃ oid ∈ headOid?,
    commit.id = "rv_push_" ++ oid ∨ commit.id = "rv_merge_" ++ oid

/-- An update that leaves the history before it as it is. -/
abbrev Records (repo next : Repository) (headOid? : Option String)
    (set? : Option VisibilityChangeSet) (commit? : Option LogicalCommit) : Prop :=
  RecordsOnto repo.labelledFiles repo next headOid? set? commit?

end Repository

/-- An update without a change records nothing. -/
theorem Repository.HasLiveRules.records_self {repo : Repository} (h : repo.HasLiveRules)
    {headOid? : Option String} : repo.Records repo headOid? none none where
  commits := (List.append_nil _).symm
  sets := (List.append_nil _).symm
  files := rfl
  liveRules := h
  fits := {
    sameViews := fun _ => rfl
    changes_nodup := by simp
    relabels_nodup := by simp
    relabels_outside := by simp
    oldLabel := by simp
    kept := by simp
    newLabel := by simp
    label := by simp }
  transition := by simp
  anchored := by simp
  source := by simp
  ids := by simp

/-! ## Updates that keep the configuration -/

section Content

variable {repo : Repository} {update : ReviewedUpdateInput} {allowUnchangedTree : Bool}
  {origin : LogicalCommitOrigin} {accepted : AcceptedContentPush} {state : ContentPushState}

/-- The changes of an update that keeps the configuration. -/
def ContentPushState.fileChanges (state : ContentPushState) (update : ReviewedUpdateInput) :
    List FileChange :=
  buildFileChanges state.liveFiles state.policy update.config update.changes .existingFromPolicy

theorem acceptContentUpdate_eq_ok
    (h : acceptContentUpdate state update allowUnchangedTree origin = .ok accepted) :
    update.config = state.repoConfig ∧ accepted.logicalCommit.changes = state.fileChanges update ∧
      (accepted.logicalCommit.id = "rv_push_" ++ update.gitHead.headOid ∨
        accepted.logicalCommit.id = "rv_merge_" ++ update.gitHead.headOid) ∧
      (((state.fileChanges update).filter fun change =>
          change.oldContent.isSome && change.newContent.isNone).foldl
        (fun policy change => policy.removeRule change.path) state.policy).addRules
        (((state.fileChanges update).filter fun change =>
          change.oldContent.isNone && change.newContent.isSome).map fun change =>
            ⟨change.path, update.config.labelForPath change.path⟩) = .ok accepted.policy := by
  unfold acceptContentUpdate at h
  obtain ⟨-, h⟩ := except_unit_bind_eq_ok.mp h
  obtain ⟨-, h⟩ := except_unit_bind_eq_ok.mp h
  obtain ⟨hconfig, h⟩ := except_unit_bind_eq_ok.mp h
  obtain ⟨-, h⟩ := except_unit_bind_eq_ok.mp h
  obtain ⟨-, h⟩ := except_unit_bind_eq_ok.mp h
  obtain ⟨policy, hpolicy, h⟩ := except_bind_eq_ok.mp h
  cases h
  refine ⟨not_not.mp (rejectIf_eq_ok.mp hconfig), rfl, ?_, mapError_eq_ok.mp hpolicy⟩
  cases allowUnchangedTree with
  | false => exact .inl rfl
  | true => exact .inr rfl

/-- The rules after an update: of the added paths as configured, none of the deleted ones, and of the
other paths as before. -/
theorem get?_rules_of_accepted
    (h : acceptContentUpdate state update allowUnchangedTree origin = .ok accepted)
    (path : ScopePath) :
    accepted.policy.rules.get? path =
      if ∃ written ∈ state.fileChanges update, written.path = path ∧ written.oldContent = none ∧
          written.newContent ≠ none then some (update.config.labelForPath path)
      else if ∃ written ∈ state.fileChanges update, written.path = path ∧ written.oldContent ≠ none ∧
          written.newContent = none then none
      else state.policy.rules.get? path := by
  obtain ⟨-, -, -, hpolicy⟩ := acceptContentUpdate_eq_ok h
  have hrules := get?_foldl_labels update.config (((state.fileChanges update).filter fun change =>
    change.oldContent.isNone && change.newContent.isSome).map (·.path))
    (((state.fileChanges update).filter fun change =>
      change.oldContent.isSome && change.newContent.isNone).map (·.path) |>.foldl
        Policy.removeRule state.policy).rules path
  rw [List.map_map, List.foldl_map (f := FileChange.path)] at hrules
  rw [Policy.rules_addRules hpolicy]
  refine Eq.trans hrules ?_
  rw [← List.foldl_map, Policy.get?_removeRules]
  refine if_congr ?_ rfl (if_congr ?_ rfl rfl)
  · simp only [List.mem_map, List.mem_filter, Bool.and_eq_true, Option.isNone_iff_eq_none,
      Option.isSome_iff_ne_none]
    tauto
  · simp only [List.mem_map, List.mem_filter, Bool.and_eq_true, Option.isNone_iff_eq_none,
      Option.isSome_iff_ne_none]
    tauto

/-! ### The rules and labels after an accepted update -/

section Accepted

theorem fileChanges_paths_nodup (hpaths : (update.changes.map (·.path)).Nodup) :
    ((state.fileChanges update).map (·.path)).Nodup :=
  buildFileChanges_paths_nodup hpaths

variable (h : acceptContentUpdate state update allowUnchangedTree origin = .ok accepted)

include h

theorem rule_of_unchanged {path : ScopePath}
    (hpath : ∀ written ∈ state.fileChanges update, written.path ≠ path) :
    accepted.policy.rules.get? path = state.policy.rules.get? path := by
  rw [get?_rules_of_accepted h, if_neg, if_neg]
  · rintro ⟨written, hwritten, heq, -⟩
    exact hpath written hwritten heq
  · rintro ⟨written, hwritten, heq, -⟩
    exact hpath written hwritten heq

theorem rule_of_added {written : FileChange} (hwritten : written ∈ state.fileChanges update)
    (hold : written.oldContent = none) (hnew : written.newContent ≠ none) :
    accepted.policy.rules.get? written.path = some (update.config.labelForPath written.path) := by
  rw [get?_rules_of_accepted h, if_pos ⟨written, hwritten, rfl, hold, hnew⟩]

variable (hpaths : (update.changes.map (·.path)).Nodup)

include hpaths

theorem rule_of_overwritten {written : FileChange} (hwritten : written ∈ state.fileChanges update)
    (hold : written.oldContent ≠ none) (hnew : written.newContent ≠ none) :
    accepted.policy.rules.get? written.path = state.policy.rules.get? written.path := by
  have hsame : ∀ other ∈ state.fileChanges update, other.path = written.path → other = written :=
    fun other hother => List.inj_on_of_nodup_map (fileChanges_paths_nodup hpaths) hother hwritten
  rw [get?_rules_of_accepted h, if_neg, if_neg]
  · rintro ⟨other, hother, hpath, -, hnone⟩
    rw [hsame other hother hpath] at hnone
    exact hnew hnone
  · rintro ⟨other, hother, hpath, hnone, -⟩
    rw [hsame other hother hpath] at hnone
    exact hold hnone

/-- A written path that is live then has a rule of its own, and the label that was written. -/
theorem exists_rule_of_written (hrules : ∀ path blob, state.liveFiles.get? path = some blob →
      ∃ view, state.policy.rules.get? path = some view)
    {written : FileChange} (hwritten : written ∈ state.fileChanges update)
    (hnew : written.newContent ≠ none) :
    ∃ view, accepted.policy.rules.get? written.path = some view ∧
      ∀ views, accepted.policy.label written.path views = written.label := by
  obtain ⟨hold, hlabel⟩ := eq_of_mem_buildFileChanges hwritten
  obtain ⟨blob, hblob⟩ := Option.ne_none_iff_exists'.mp hnew
  rw [hblob] at hlabel
  cases hcontent : written.oldContent with
  | none =>
    have hrule := rule_of_added h hwritten hcontent hnew
    rw [hcontent] at hlabel
    exact ⟨_, hrule, fun views => (label_eq_labelForPath hrule views).trans hlabel.symm⟩
  | some old =>
    obtain ⟨view, hview⟩ := hrules written.path old (hold ▸ hcontent)
    have hrule := (rule_of_overwritten h hpaths hwritten (by simp [hcontent]) hnew).trans hview
    rw [hcontent] at hlabel
    refine ⟨view, hrule, fun views => ?_⟩
    rw [Policy.label_of_rule_eq hrule hview, hlabel]
    exact Policy.label_congr _ _ _ _

end Accepted

/-! ### The record of an accepted update -/

section Record

variable (hrules : repo.HasLiveRules) (hpaths : (update.changes.map (·.path)).Nodup)
  (h : acceptContentUpdate repo.contentPushState update allowUnchangedTree origin = .ok accepted)

include h in
theorem liveFiles_withAccepted : (repo.withAccepted accepted).liveFiles =
    (repo.contentPushState.fileChanges update).foldl FileChange.applyTo repo.liveFiles := by
  rw [← (acceptContentUpdate_eq_ok h).2.1]
  rfl

include hrules hpaths h

theorem labelledFiles_withAccepted : (repo.withAccepted accepted).labelledFiles =
    repo.labelledFiles.applyCommit accepted.logicalCommit := by
  have hnodup : ((repo.contentPushState.fileChanges update).map (·.path)).Nodup :=
    fileChanges_paths_nodup hpaths
  have hchanges := (acceptContentUpdate_eq_ok h).2.1
  refine SortedMap.ext fun path => ?_
  rw [Repository.get?_labelledFiles, liveFiles_withAccepted h]
  by_cases hwritten : ∃ written ∈ repo.contentPushState.fileChanges update, written.path = path
  · obtain ⟨written, hwritten, rfl⟩ := hwritten
    rw [get?_written_of_mem hnodup hwritten,
      LabelledTree.get?_applyCommit_of_mem (hchanges ▸ hnodup) (hchanges ▸ hwritten)]
    refine Option.map_congr fun blob hblob => ?_
    obtain ⟨-, -, hlabel⟩ := exists_rule_of_written h hpaths hrules hwritten (by simp [hblob])
    exact congrArg (Prod.mk blob) (hlabel _)
  · push Not at hwritten
    rw [get?_written_of_ne hwritten, LabelledTree.get?_applyCommit_of_ne (hchanges ▸ hwritten),
      Repository.get?_labelledFiles]
    refine Option.map_congr fun blob hblob => ?_
    obtain ⟨view, hview⟩ := hrules path blob hblob
    exact congrArg (Prod.mk blob)
      (Policy.label_of_rule_eq ((rule_of_unchanged h hwritten).trans hview) hview _)

theorem hasLiveRules_withAccepted : (repo.withAccepted accepted).HasLiveRules := by
  intro path blob hlive
  rw [liveFiles_withAccepted h] at hlive
  by_cases hwritten : ∃ written ∈ repo.contentPushState.fileChanges update, written.path = path
  · obtain ⟨written, hwritten, rfl⟩ := hwritten
    rw [get?_written_of_mem (fileChanges_paths_nodup hpaths) hwritten] at hlive
    obtain ⟨view, hview, -⟩ := exists_rule_of_written h hpaths hrules hwritten (by simp [hlive])
    exact ⟨view, hview⟩
  · push Not at hwritten
    rw [get?_written_of_ne hwritten] at hlive
    obtain ⟨view, hview⟩ := hrules path blob hlive
    exact ⟨view, (rule_of_unchanged h hwritten).trans hview⟩

omit hrules in
theorem fitsHistory_accepted : FitsHistory repo.labelledFiles repo.repoConfig.views
    repo.repoConfig.views none (some accepted.logicalCommit) where
  sameViews := fun _ => rfl
  changes_nodup := by
    rintro commit ⟨⟩
    rw [(acceptContentUpdate_eq_ok h).2.1]
    exact fileChanges_paths_nodup hpaths
  relabels_nodup := by simp
  relabels_outside := by simp
  oldLabel := by simp
  kept := by simp
  newLabel := by simp
  label := by
    rintro commit ⟨⟩ written hwritten - file hfile
    rw [(acceptContentUpdate_eq_ok h).2.1] at hwritten
    obtain ⟨hold, hlabel⟩ := eq_of_mem_buildFileChanges hwritten
    rw [Repository.get?_labelledFiles] at hfile
    obtain ⟨blob, hblob, rfl⟩ := Option.map_eq_some_iff.mp hfile
    have holdContent : written.oldContent = some blob := hold.trans hblob
    rw [hlabel, holdContent, Policy.label_congr _ _ _ update.config.views]
    cases written.newContent <;> exact .inl rfl

theorem records_withAccepted : repo.Records (repo.withAccepted accepted)
    (some update.gitHead.headOid) none (some accepted.logicalCommit) where
  commits := rfl
  sets := (List.append_nil _).symm
  files := labelledFiles_withAccepted hrules hpaths h
  liveRules := hasLiveRules_withAccepted hrules hpaths h
  fits := fitsHistory_accepted hpaths h
  transition := by simp
  anchored := by simp
  source := by simp
  ids := by
    rintro commit ⟨⟩
    exact ⟨_, rfl, (acceptContentUpdate_eq_ok h).2.2.1⟩

end Record

end Content

/-! ## Updates of the configuration -/

section Staged

variable {repo next : Repository} {config : RepoConfig} {unpublished : ScopePath → Bool}
  {tree : LiveFiles} {fileChanges : List FileChange} {set? : Option VisibilityChangeSet}
  {commit? : Option LogicalCommit} {views : Option ViewsTransition}
  {afterCommitId sourceUpdateId : Option String} {changes : List VisibilityChange}

/-- What is recorded of changed labels and views: nothing if there are none. -/
structure RecordsChanges (afterCommitId sourceUpdateId : Option String)
    (changes : List VisibilityChange) (views : Option ViewsTransition)
    (set? : Option VisibilityChangeSet) : Prop where
  nothing : set? = none → changes = [] ∧ views = none
  changes_eq : ∀ set ∈ set?, set.changes = changes
  views_eq : ∀ set ∈ set?, set.views = views
  anchored : ∀ set ∈ set?, set.anchorCommitId = afterCommitId
  source : ∀ set ∈ set?, set.sourceUpdateId = sourceUpdateId

theorem recordVisibilityChanges_eq_ok {occurredAtUnix : Option ℤ} {authorId : String} {u : Unit}
    (h : (recordVisibilityChanges occurredAtUnix afterCommitId sourceUpdateId authorId changes
      views).run repo = .ok u next) :
    ∃ set?, RecordsChanges afterCommitId sourceUpdateId changes views set? ∧
      next = { repo with visibilityChangeSets := repo.visibilityChangeSets ++ set?.toList } := by
  unfold recordVisibilityChanges at h
  split_ifs at h with hsome
  · obtain ⟨set, hset, h⟩ := check_bind_eq_ok.mp h
    obtain rfl := modify_eq_ok.mp h
    rw [mapError_eq_ok] at hset
    obtain rfl := VisibilityChangeSet.eq_of_new hset
    refine ⟨some _, ⟨by simp, ?_, ?_, ?_, ?_⟩, rfl⟩ <;> rintro set ⟨⟩ <;> rfl
  · obtain ⟨-, rfl⟩ := pure_eq_ok.mp h
    push Not at hsome
    refine ⟨none, ⟨fun _ => ⟨hsome.1, ?_⟩, by simp, by simp, by simp, by simp⟩, ?_⟩
    · simpa using hsome.2
    · simp

/-- A policy that is built from a configuration labels the files as the configuration does. -/
theorem get?_labelledFiles_of_config
    (hpolicy : policyFromConfigForTree config next.liveFiles.keys = .ok next.policy)
    (path : ScopePath) : next.labelledFiles.get? path =
      (next.liveFiles.get? path).map fun blob => (blob, config.labelForPath path) := by
  rw [Repository.get?_labelledFiles]
  refine Option.map_congr fun blob hblob => ?_
  have hrule := rule_of_policyFromConfigForTree hpolicy (SortedMap.mem_keys.mpr ⟨blob, hblob⟩)
  exact congrArg (Prod.mk blob) (label_eq_labelForPath hrule _)

theorem hasLiveRules_of_config
    (hpolicy : policyFromConfigForTree config next.liveFiles.keys = .ok next.policy) :
    next.HasLiveRules := fun _ blob hblob =>
  ⟨_, rule_of_policyFromConfigForTree hpolicy (SortedMap.mem_keys.mpr ⟨blob, hblob⟩)⟩

/-- A file that is written with the labels of a configuration. -/
structure WrittenFromConfig (repo : Repository) (config : RepoConfig) (written : FileChange) :
    Prop where
  oldContent : written.oldContent = repo.liveFiles.get? written.path
  label : written.label = writtenLabel repo.policy config written.path .fromConfig
    written.oldContent written.newContent

theorem WrittenFromConfig.label_of_kept {written : FileChange}
    (h : WrittenFromConfig repo config written) (hnew : written.newContent ≠ none) :
    written.label = config.labelForPath written.path := by
  rw [h.label]
  cases hcontent : written.newContent with
  | none => exact absurd hcontent hnew
  | some blob => cases written.oldContent <;> rfl

theorem WrittenFromConfig.label_of_deleted {written : FileChange}
    (h : WrittenFromConfig repo config written) (hnew : written.newContent = none) :
    written.label = repo.policy.label written.path repo.repoConfig.views := by
  rw [h.label, hnew, Policy.label_congr _ _ _ config.views]
  cases written.oldContent <;> rfl

/-- What an update of the configuration writes and records, for files that carry the labels of `tree`:
afterwards they carry those of the configuration. Of a file that it writes the label before may be
the full view's instead of the recorded one. -/
structure StagesFiles (tree : LabelledTree) (config : RepoConfig) (fileChanges : List FileChange)
    (changes : List VisibilityChange) : Prop where
  paths_nodup : (fileChanges.map (·.path)).Nodup
  relabels_nodup : (changes.map (·.path)).Nodup
  relabels_outside : ∀ change ∈ changes, isRepoControlPath change.path = false
  newLabel : ∀ change ∈ changes, change.newLabel = config.labelForPath change.path
  oldLabel : ∀ change ∈ changes, ∀ file, tree.get? change.path = some file →
    change.oldLabel = file.2 ∨ file.2 = .privateView ∧
      ∃ written ∈ fileChanges, written.path = change.path
  content : ∀ change ∈ changes,
    (∃ written ∈ fileChanges, written.path = change.path ∧ written.newContent ≠ none) ∨
      (∀ written ∈ fileChanges, written.path ≠ change.path) ∧
        ∃ file, tree.get? change.path = some file ∧ change.currentContent = some file.1
  written : ∀ written ∈ fileChanges, written.newContent ≠ none →
    written.label = config.labelForPath written.path
  deleted : ∀ written ∈ fileChanges, written.newContent = none →
    ∀ file, tree.get? written.path = some file → file.2 = written.label ∨ file.2 = .privateView
  unnamed : ∀ path file, tree.get? path = some file →
    (∀ written ∈ fileChanges, written.path = path → written.newContent ≠ none) →
      (∀ change ∈ changes, change.path ≠ path) →
        file.2 = config.labelForPath path ∨ file.2 = .privateView ∧
          ∃ written ∈ fileChanges, written.path = path

namespace StagesFiles

variable {labelled : LabelledTree} (h : StagesFiles labelled config fileChanges changes)

include h

/-- A file that is not written has the configured label after the recorded changes. -/
theorem get?_relabelled {path : ScopePath} (hpath : ∀ written ∈ fileChanges, written.path ≠ path) :
    (changes.foldl LabelledTree.relabelChange labelled).get? path =
      (labelled.get? path).map fun file => (file.1, config.labelForPath path) := by
  by_cases hnamed : ∃ change ∈ changes, change.path = path
  · obtain ⟨change, hchange, rfl⟩ := hnamed
    have hrelabelled := LabelledTree.get?_relabelChanges_of_mem h.relabels_nodup hchange labelled
    rw [hrelabelled, h.newLabel change hchange]
  · push Not at hnamed
    rw [LabelledTree.get?_relabelChanges_of_ne hnamed]
    cases hget : labelled.get? path with
    | none => rfl
    | some file =>
      have hlabel : file.2 = config.labelForPath path := by
        refine (h.unnamed path file hget (fun written hwritten heq => ?_) hnamed).resolve_right ?_
        · exact absurd heq (hpath written hwritten)
        · rintro ⟨-, written, hwritten, heq⟩
          exact hpath written hwritten heq
      rw [← hlabel]
      rfl

/-- The recorded changes and the commit leave the files with the configured labels. -/
theorem get?_update (hlive : ∀ path, tree.get? path = (labelled.get? path).map Prod.fst)
    (hset : RecordsChanges afterCommitId sourceUpdateId changes views set?)
    (hcommit : ∀ commit ∈ commit?, commit.changes = fileChanges)
    (hnone : commit? = none → fileChanges = []) (path : ScopePath) :
    (labelled.update set? commit?).get? path =
      ((fileChanges.foldl FileChange.applyTo tree).get? path).map fun blob =>
        (blob, config.labelForPath path) := by
  have hrelabelled : set?.elim labelled labelled.relabel =
      changes.foldl LabelledTree.relabelChange labelled := by
    cases set? with
    | none => rw [(hset.nothing rfl).1, Option.elim_none, List.foldl_nil]
    | some set => rw [← hset.changes_eq set rfl, Option.elim_some, LabelledTree.relabel]
  have hunwritten : (∀ written ∈ fileChanges, written.path ≠ path) →
      (changes.foldl LabelledTree.relabelChange labelled).get? path =
        ((fileChanges.foldl FileChange.applyTo tree).get? path).map fun blob =>
          (blob, config.labelForPath path) := by
    intro hpath
    rw [h.get?_relabelled hpath, get?_written_of_ne hpath, hlive, Option.map_map]
    rfl
  rw [LabelledTree.update, hrelabelled]
  cases commit? with
  | none =>
    rw [Option.elim_none]
    exact hunwritten fun written hwritten => absurd (hnone rfl ▸ hwritten) List.not_mem_nil
  | some commit =>
    obtain rfl := hcommit commit rfl
    rw [Option.elim_some]
    by_cases hwritten : ∃ written ∈ commit.changes, written.path = path
    · obtain ⟨written, hwritten, rfl⟩ := hwritten
      rw [LabelledTree.get?_applyCommit_of_mem h.paths_nodup hwritten,
        get?_written_of_mem h.paths_nodup hwritten]
      refine Option.map_congr fun blob hblob => congrArg (Prod.mk blob) ?_
      exact h.written written hwritten (by simp [hblob])
    · push Not at hwritten
      rw [LabelledTree.get?_applyCommit_of_ne hwritten, hunwritten hwritten]

theorem fitsHistory (hset : RecordsChanges afterCommitId sourceUpdateId changes views set?)
    (hcommit : ∀ commit ∈ commit?, commit.changes = fileChanges)
    (hnone : commit? = none → fileChanges = []) {before : Views}
    (hviews : views = none → before.visibilityShape = config.views.visibilityShape) :
    FitsHistory labelled before config.views set? commit? where
  sameViews := by
    intro hnothing
    cases set? with
    | none => exact hviews (hset.nothing rfl).2
    | some set => exact hviews (hset.views_eq set rfl ▸ hnothing set rfl)
  changes_nodup := fun commit hmem => hcommit commit hmem ▸ h.paths_nodup
  relabels_nodup := fun set hmem => hset.changes_eq set hmem ▸ h.relabels_nodup
  relabels_outside := by
    intro set hmem change hchange
    exact h.relabels_outside change (hset.changes_eq set hmem ▸ hchange)
  oldLabel := by
    intro set hmem change hchange file hfile
    rw [hset.changes_eq set hmem] at hchange
    refine (h.oldLabel change hchange file hfile).imp_right ?_
    rintro ⟨hprivate, written, hwritten, hpath⟩
    cases commit? with
    | none => exact absurd (hnone rfl ▸ hwritten) List.not_mem_nil
    | some commit => exact ⟨hprivate, commit, rfl, written, hcommit commit rfl ▸ hwritten, hpath⟩
  kept := by
    intro set hmem change hchange hunwritten
    rw [hset.changes_eq set hmem] at hchange
    refine ((h.content change hchange).resolve_left ?_).2
    rintro ⟨written, hwritten, hpath, -⟩
    cases commit? with
    | none => exact absurd (hnone rfl ▸ hwritten) List.not_mem_nil
    | some commit => exact hunwritten commit rfl written (hcommit commit rfl ▸ hwritten) hpath
  newLabel := by
    intro set hset' commit hcommit' change hchange written hwritten hpath
    rw [hset.changes_eq set hset'] at hchange
    rw [hcommit commit hcommit'] at hwritten
    have hnew : written.newContent ≠ none := by
      rcases h.content change hchange with ⟨other, hother, heq, hnew⟩ | ⟨hunwritten, -⟩
      · rwa [List.inj_on_of_nodup_map h.paths_nodup hwritten hother (hpath.trans heq.symm)]
      · exact absurd hpath (hunwritten written hwritten)
    rw [h.written written hwritten hnew, h.newLabel change hchange, hpath]
  label := by
    intro commit hcommit' written hwritten hunnamed file hfile
    rw [hcommit commit hcommit'] at hwritten
    by_cases hnew : written.newContent = none
    · exact h.deleted written hwritten hnew file hfile
    rw [h.written written hwritten hnew]
    refine (h.unnamed written.path file hfile ?_ ?_).imp_right And.left
    · intro other hother hpath
      rwa [List.inj_on_of_nodup_map h.paths_nodup hother hwritten hpath]
    · intro change hchange
      cases set? with
      | none =>
        rw [(hset.nothing rfl).1] at hchange
        cases hchange
      | some set => exact hunnamed set rfl change (hset.changes_eq set rfl ▸ hchange)

end StagesFiles

/-- The files that an update of the configuration writes, and the changes of labels that it records
with them; no live file counts as unpublished. -/
structure ConfiguresFiles (repo : Repository) (config : RepoConfig) (fileChanges : List FileChange)
    (unpublished : ScopePath → Bool) (changes : List VisibilityChange) : Prop where
  paths_nodup : (fileChanges.map (·.path)).Nodup
  written : ∀ written ∈ fileChanges, WrittenFromConfig repo config written
  absent : ∀ path, unpublished path = true → repo.liveFiles.get? path = none
  relabels : changes =
    repo.relabels config [] unpublished (fileChanges.foldl FileChange.applyTo repo.liveFiles)

theorem relabels_paths_nodup (repo : Repository) (config : RepoConfig) (baseline : List ScopePath)
    (unpublished : ScopePath → Bool) (tree : LiveFiles) :
    ((repo.relabels config baseline unpublished tree).map (·.path)).Nodup := by
  refine (ListRewrite.map_filterMap_sublist (h := Prod.fst) ?_ _).nodup (SortedMap.keys_nodup _)
  intro entry change hchange
  dsimp only at hchange
  split_ifs at hchange
  cases hchange
  rfl

/-- No change of the label of a control file is recorded: a configuration does not choose it. -/
theorem isRepoControlPath_of_mem_relabels {baseline : List ScopePath} {change : VisibilityChange}
    (h : change ∈ repo.relabels config baseline unpublished tree) :
    isRepoControlPath change.path = false := by
  obtain ⟨hold, hnew, hne, -⟩ := mem_relabels.mp h
  rw [← Bool.not_eq_true]
  intro hcontrol
  rw [hold, hnew] at hne
  exact hne (label_of_isRepoControlPath hcontrol _ _ _)

/-- The content of a file after an update: the one that is written, or the one it had. -/
theorem content_of_written (hnodup : (fileChanges.map (·.path)).Nodup) {path : ScopePath}
    {content : SourceBlob}
    (hget : (fileChanges.foldl FileChange.applyTo tree).get? path = some content) :
    (∃ written ∈ fileChanges, written.path = path ∧ written.newContent ≠ none) ∨
      (∀ written ∈ fileChanges, written.path ≠ path) ∧ tree.get? path = some content := by
  by_cases hwritten : ∃ written ∈ fileChanges, written.path = path
  · obtain ⟨written, hwritten, rfl⟩ := hwritten
    rw [get?_written_of_mem hnodup hwritten] at hget
    exact .inl ⟨written, hwritten, rfl, by simp [hget]⟩
  · push Not at hwritten
    rw [get?_written_of_ne hwritten] at hget
    exact .inr ⟨hwritten, hget⟩

/-- A live file that is not deleted stays. -/
theorem exists_content_of_kept (hnodup : (fileChanges.map (·.path)).Nodup) {path : ScopePath}
    {blob : SourceBlob} (hlive : tree.get? path = some blob)
    (hkept : ∀ written ∈ fileChanges, written.path = path → written.newContent ≠ none) :
    ∃ content, (fileChanges.foldl FileChange.applyTo tree).get? path = some content := by
  by_cases hwritten : ∃ written ∈ fileChanges, written.path = path
  · obtain ⟨written, hwritten, rfl⟩ := hwritten
    rw [get?_written_of_mem hnodup hwritten]
    exact Option.ne_none_iff_exists'.mp (hkept written hwritten rfl)
  · push Not at hwritten
    exact ⟨blob, (get?_written_of_ne hwritten tree).trans hlive⟩

namespace ConfiguresFiles

variable (h : ConfiguresFiles repo config fileChanges unpublished changes)

include h

theorem mem_changes {change : VisibilityChange} : change ∈ changes ↔
    change.oldLabel = repo.policy.label change.path repo.repoConfig.views ∧
      change.newLabel = config.labelForPath change.path ∧ change.oldLabel ≠ change.newLabel ∧
      ¬(unpublished change.path = true ∧ change.oldLabel = .publicView ∧
        change.newLabel = .privateView) ∧
      ∃ content, (fileChanges.foldl FileChange.applyTo repo.liveFiles).get? change.path =
        some content ∧ change.currentContent = some content := by
  rw [h.relabels, mem_relabels]
  simp

/-- A live file that stays and keeps its label is one without a recorded change. -/
theorem label_eq_of_unnamed {path : ScopePath} {blob content : SourceBlob}
    (hlive : repo.liveFiles.get? path = some blob)
    (hnext : (fileChanges.foldl FileChange.applyTo repo.liveFiles).get? path = some content)
    (hunnamed : ∀ change ∈ changes, change.path ≠ path) :
    repo.policy.label path repo.repoConfig.views = config.labelForPath path := by
  by_contra hne
  refine hunnamed ⟨path, _, _, some content⟩
    (h.mem_changes.mpr ⟨rfl, rfl, hne, ?_, content, hnext, rfl⟩) rfl
  rintro ⟨hunpublished, -⟩
  rw [h.absent path hunpublished] at hlive
  cases hlive

theorem stagesFiles : StagesFiles repo.labelledFiles config fileChanges changes where
  paths_nodup := h.paths_nodup
  relabels_nodup := h.relabels ▸ relabels_paths_nodup _ _ _ _ _
  relabels_outside := fun change hchange => isRepoControlPath_of_mem_relabels (h.relabels ▸ hchange)
  newLabel := fun change hchange => (h.mem_changes.mp hchange).2.1
  oldLabel := by
    intro change hchange file hfile
    rw [Repository.get?_labelledFiles] at hfile
    obtain ⟨blob, -, rfl⟩ := Option.map_eq_some_iff.mp hfile
    exact .inl (h.mem_changes.mp hchange).1
  content := by
    intro change hchange
    obtain ⟨-, -, -, -, content, hnext, hcontent⟩ := h.mem_changes.mp hchange
    refine (content_of_written h.paths_nodup hnext).imp_right ?_
    rintro ⟨hunwritten, hlive⟩
    exact ⟨hunwritten, _, by rw [Repository.get?_labelledFiles, hlive]; rfl, hcontent⟩
  written := fun written hwritten => (h.written written hwritten).label_of_kept
  deleted := by
    intro written hwritten hnew file hfile
    rw [Repository.get?_labelledFiles] at hfile
    obtain ⟨blob, -, rfl⟩ := Option.map_eq_some_iff.mp hfile
    exact .inl ((h.written written hwritten).label_of_deleted hnew).symm
  unnamed := by
    intro path file hfile hkept hunnamed
    rw [Repository.get?_labelledFiles] at hfile
    obtain ⟨blob, hlive, rfl⟩ := Option.map_eq_some_iff.mp hfile
    obtain ⟨content, hnext⟩ := exists_content_of_kept h.paths_nodup hlive hkept
    exact .inl (h.label_eq_of_unnamed hlive hnext hunnamed)

end ConfiguresFiles

theorem applyHistoryRewrites_of_nil {input : HistoryRewriteInput} (h : input.rewrites = []) :
    (applyHistoryRewrites input : EStateM ReviewedUpdateError Repository HistoryRewriteResult).run
      repo = .ok ⟨[], ∅⟩ repo := by
  unfold applyHistoryRewrites
  rw [h]
  rfl

/-- What is recorded of a transition of the views. -/
theorem transition_of_viewsTransition {openRequestsByView : SortedMap ViewId ℕ}
    (hviews : viewsTransition repo config openRequestsByView = .ok views)
    (hset : RecordsChanges afterCommitId sourceUpdateId changes views set?) :
    ∀ set ∈ set?, ∀ transition ∈ set.views, transition = ⟨repo.repoConfig.views, config.views⟩ := by
  intro set hmem transition htransition
  rw [hset.views_eq set hmem] at htransition
  rcases viewsTransition_eq_ok hviews with ⟨-, rfl⟩ | ⟨-, rfl⟩
  · cases htransition
  · exact (Option.mem_some_iff.mp htransition).symm

theorem shape_of_viewsTransition {openRequestsByView : SortedMap ViewId ℕ}
    (hviews : viewsTransition repo config openRequestsByView = .ok views) (hnone : views = none) :
    repo.repoConfig.views.visibilityShape = config.views.visibilityShape := by
  rcases viewsTransition_eq_ok hviews with ⟨hshape, -⟩ | ⟨-, hsome⟩
  · exact hshape
  · rw [hnone] at hsome
    cases hsome

/-- What an update of the configuration leaves: the written files, the policy and views of the
configuration, and the history with what was recorded. -/
structure Configured (repo next : Repository) (config : RepoConfig) (fileChanges : List FileChange)
    (set? : Option VisibilityChangeSet) (commit? : Option LogicalCommit) : Prop where
  liveFiles : next.liveFiles = fileChanges.foldl FileChange.applyTo repo.liveFiles
  policy : policyFromConfigForTree config next.liveFiles.keys = .ok next.policy
  repoConfig : next.repoConfig = config
  commits : next.graph.commits = repo.graph.commits ++ commit?.toList
  sets : next.visibilityChangeSets = repo.visibilityChangeSets ++ set?.toList
  changes : ∀ commit ∈ commit?, commit.changes = fileChanges
  unchanged : commit? = none → fileChanges = []

theorem StagesFiles.records {labelled : LabelledTree} {openRequestsByView : SortedMap ViewId ℕ}
    {headOid? : Option String} (h : StagesFiles labelled config fileChanges changes)
    (hlive : ∀ path, repo.liveFiles.get? path = (labelled.get? path).map Prod.fst)
    (hnext : Configured repo next config fileChanges set? commit?)
    (hviews : viewsTransition repo config openRequestsByView = .ok views)
    (hset : RecordsChanges (repo.graph.commits.getLast?.map (·.id)) (commit?.map (·.id)) changes
      views set?)
    (hids : ∀ commit ∈ commit?, ∃ oid ∈ headOid?,
      commit.id = "rv_push_" ++ oid ∨ commit.id = "rv_merge_" ++ oid) :
    repo.RecordsOnto labelled next headOid? set? commit? where
  commits := hnext.commits
  sets := hnext.sets
  files := by
    refine SortedMap.ext fun path => ?_
    rw [get?_labelledFiles_of_config hnext.policy, hnext.liveFiles,
      h.get?_update hlive hset hnext.changes hnext.unchanged]
  liveRules := hasLiveRules_of_config hnext.policy
  fits := by
    rw [hnext.repoConfig]
    exact h.fitsHistory hset hnext.changes hnext.unchanged (shape_of_viewsTransition hviews)
  transition := by
    rw [hnext.repoConfig]
    exact transition_of_viewsTransition hviews hset
  anchored := hset.anchored
  source := hset.source
  ids := hids

/-! ### The updates -/

/-- The label of a deleted file is hidden where the public history of its path was redacted. -/
def FileChange.hideDeleted (redactedPaths : SortedSet ScopePath) (change : FileChange) : FileChange :=
  if change.newContent.isNone && redactedPaths.contains change.path then
    { change with label := .privateView }
  else change

theorem map_hideDeleted_empty (fileChanges : List FileChange) :
    fileChanges.map (·.hideDeleted ∅) = fileChanges := by
  have habsent : ∀ path, (∅ : SortedSet ScopePath).contains path = false := fun _ => rfl
  simp [FileChange.hideDeleted, habsent]

theorem finishReviewedUpdate_eq_ok {update : ReviewedUpdateInput} {oldTree newTree : LiveFiles}
    {pack : GitPoolPack} {rewrite : HistoryRewriteResult}
    (h : (finishReviewedUpdate update oldTree newTree fileChanges views afterCommitId
      rewrite).run repo = .ok pack next) :
    ∃ set? commit, RecordsChanges afterCommitId (some commit.id)
        (rewrite.visibilityChanges ++ repo.relabels update.config
          (rewrite.visibilityChanges.map (·.path))
          (fun path => rewrite.redactedPaths.contains path || !oldTree.contains path) newTree)
        views set? ∧
      commit.id = "rv_push_" ++ update.gitHead.headOid ∧
      commit.changes = fileChanges.map (·.hideDeleted rewrite.redactedPaths) ∧
      next.graph.commits = repo.graph.commits ++ [commit] ∧
      next.visibilityChangeSets = repo.visibilityChangeSets ++ set?.toList ∧
      next.liveFiles = newTree ∧ next.repoConfig = update.config ∧
      policyFromConfigForTree update.config newTree.keys = .ok next.policy := by
  unfold finishReviewedUpdate at h
  rw [get_bind_eq_ok] at h
  obtain ⟨policy, hpolicy, h⟩ := check_bind_eq_ok.mp h
  obtain ⟨u, recorded, hrecorded, h⟩ := bind_eq_ok.mp h
  obtain ⟨-, rfl⟩ := modify_pure_eq_ok.mp h
  obtain ⟨set?, hset, rfl⟩ := recordVisibilityChanges_eq_ok hrecorded
  exact ⟨set?, _, hset, rfl, rfl, rfl, rfl, rfl, rfl, mapError_eq_ok.mp hpolicy⟩

theorem finishReviewedConfig_eq_ok {update : ReviewedConfigUpdateInput} {liveTree : LiveFiles}
    {changed : Bool} {rewrite : HistoryRewriteResult}
    (h : (finishReviewedConfig update liveTree views afterCommitId rewrite).run repo =
      .ok changed next) :
    ∃ set?, RecordsChanges afterCommitId none
        (rewrite.visibilityChanges ++ repo.relabels update.config
          (rewrite.visibilityChanges.map (·.path)) rewrite.redactedPaths.contains liveTree)
        views set? ∧
      next.graph.commits = repo.graph.commits ∧
      next.visibilityChangeSets = repo.visibilityChangeSets ++ set?.toList ∧
      next.liveFiles = repo.liveFiles ∧ next.repoConfig = update.config ∧
      policyFromConfigForTree update.config liveTree.keys = .ok next.policy := by
  unfold finishReviewedConfig recordReviewedConfig at h
  rw [get_bind_eq_ok] at h
  obtain ⟨policy, hpolicy, h⟩ := check_bind_eq_ok.mp h
  rw [modify_bind_eq_ok] at h
  obtain ⟨u, recorded, hrecorded, h⟩ := bind_eq_ok.mp h
  obtain ⟨-, rfl⟩ := modify_pure_eq_ok.mp h
  obtain ⟨set?, hset, rfl⟩ := recordVisibilityChanges_eq_ok hrecorded
  exact ⟨set?, hset, rfl, rfl, rfl, rfl, mapError_eq_ok.mp hpolicy⟩

end Staged

/-! ## Every update records what it does -/

section Updates

variable {repo next : Repository}

theorem applyRequestMergeToRepo_records {update : ReviewedUpdateInput} {origin : RequestMergeOrigin}
    {pack : GitPoolPack} (hrules : repo.HasLiveRules) (hpaths : (update.changes.map (·.path)).Nodup)
    (h : (applyRequestMergeToRepo update origin).run repo = .ok pack next) :
    ∃ set? commit?, repo.Records next (some update.gitHead.headOid) set? commit? := by
  obtain ⟨accepted, haccepted, h⟩ := check_bind_eq_ok.mp h
  obtain ⟨-, rfl⟩ := modify_pure_eq_ok.mp h
  exact ⟨none, _, records_withAccepted hrules hpaths haccepted⟩

theorem applyContentOnlyUpdate_records {update : ReviewedUpdateInput} {pack : GitPoolPack}
    (hrules : repo.HasLiveRules) (hpaths : (update.changes.map (·.path)).Nodup)
    (h : (applyContentOnlyUpdate update).run repo = .ok pack next) :
    ∃ set? commit?, repo.Records next (some update.gitHead.headOid) set? commit? := by
  obtain ⟨accepted, haccepted, h⟩ := check_bind_eq_ok.mp h
  obtain ⟨-, rfl⟩ := modify_pure_eq_ok.mp h
  exact ⟨none, _, records_withAccepted hrules hpaths haccepted⟩

theorem applyReviewedUpdateToRepo_records {update : ReviewedUpdateInput} {pack : GitPoolPack}
    (hrules : repo.HasLiveRules) (hrewrites : update.config.history.rewrites = [])
    (hpaths : (update.changes.map (·.path)).Nodup)
    (h : (applyReviewedUpdateToRepo update).run repo = .ok pack next) :
    ∃ set? commit?, repo.Records next (some update.gitHead.headOid) set? commit? := by
  unfold applyReviewedUpdateToRepo at h
  obtain ⟨-, h⟩ := check_unit_bind_eq_ok.mp h
  obtain ⟨-, h⟩ := check_unit_bind_eq_ok.mp h
  rw [get_bind_eq_ok] at h
  split_ifs at h with hsame
  · exact applyContentOnlyUpdate_records hrules hpaths h
  · obtain ⟨views, hviews, h⟩ := check_bind_eq_ok.mp h
    obtain ⟨-, h⟩ := check_unit_bind_eq_ok.mp h
    obtain ⟨rewrite, rewritten, hrewrite, h⟩ := bind_eq_ok.mp h
    have hnone : (update.rewriteInput repo).rewrites = [] := by
      simp [ReviewedUpdateInput.rewriteInput, RepoConfig.historyRewritesAddedSince, hrewrites]
    rw [applyHistoryRewrites_of_nil hnone] at hrewrite
    cases hrewrite
    obtain ⟨set?, commit, hset, hid, hchanges, hcommits, hsets, hlive, hconfig, hpolicy⟩ :=
      finishReviewedUpdate_eq_ok h
    have hconfigures : ConfiguresFiles repo update.config (update.fileChanges repo)
        (fun path => !repo.liveFiles.contains path)
        (repo.relabels update.config [] (fun path => !repo.liveFiles.contains path)
          (update.newTree repo)) := {
      paths_nodup := buildFileChanges_paths_nodup hpaths
      written := fun written hwritten =>
        ⟨(eq_of_mem_buildFileChanges hwritten).1, (eq_of_mem_buildFileChanges hwritten).2⟩
      absent := fun path hpath => by simpa [SortedMap.contains] using hpath
      relabels := rfl }
    rw [map_hideDeleted_empty] at hchanges
    refine ⟨set?, some commit, hconfigures.stagesFiles.records repo.liveFiles_eq ?_
      (mapError_eq_ok.mp hviews) hset ?_⟩
    · exact {
        liveFiles := hlive
        policy := hlive ▸ hpolicy
        repoConfig := hconfig
        commits := hcommits
        sets := hsets
        changes := fun commit' hcommit' => Option.mem_some_iff.mp hcommit' ▸ hchanges
        unchanged := by simp }
    · rintro commit' ⟨⟩
      exact ⟨_, rfl, .inl hid⟩

theorem applyReviewedConfigToRepo_records {update : ReviewedConfigUpdateInput} {changed : Bool}
    (hrules : repo.HasLiveRules) (hrewrites : update.config.history.rewrites = [])
    (h : (applyReviewedConfigToRepo update).run repo = .ok changed next) :
    ∃ set? commit?, repo.Records next none set? commit? := by
  unfold applyReviewedConfigToRepo at h
  rw [get_bind_eq_ok] at h
  split_ifs at h with hsame
  · obtain ⟨-, rfl⟩ := pure_eq_ok.mp h
    exact ⟨none, none, hrules.records_self⟩
  · obtain ⟨views, hviews, h⟩ := check_bind_eq_ok.mp h
    obtain ⟨rewrite, rewritten, hrewrite, h⟩ := bind_eq_ok.mp h
    have hnone : (update.rewriteInput repo).rewrites = [] := by
      simp [ReviewedConfigUpdateInput.rewriteInput, RepoConfig.historyRewritesAddedSince, hrewrites]
    rw [applyHistoryRewrites_of_nil hnone] at hrewrite
    cases hrewrite
    obtain ⟨set?, hset, hcommits, hsets, hlive, hconfig, hpolicy⟩ := finishReviewedConfig_eq_ok h
    have hconfigures : ConfiguresFiles repo update.config [] (fun _ => false)
        (repo.relabels update.config [] (fun _ => false) repo.liveFiles) :=
      ⟨List.nodup_nil, by simp, by simp, rfl⟩
    refine ⟨set?, none, hconfigures.stagesFiles.records repo.liveFiles_eq ?_
      (mapError_eq_ok.mp hviews) hset (by simp)⟩
    exact {
      liveFiles := hlive
      policy := hlive ▸ hpolicy
      repoConfig := hconfig
      commits := hcommits.trans (List.append_nil _).symm
      sets := hsets
      changes := by simp
      unchanged := fun _ => rfl }

end Updates

end ScopeVcs

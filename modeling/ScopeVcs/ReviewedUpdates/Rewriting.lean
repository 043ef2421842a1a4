import ScopeVcs.Projection.ReadModel
import ScopeVcs.ReviewedUpdates.ProjectionAgreement
import ScopeVcs.ReviewedUpdates.RedactedUpdates

/-! # Runs of updates with rewrites

Updates may rewrite the history, as long as the paths that a rewrite matches are plain: no
configuration ever labels them other than public or private. Whatever the updates, the history stays
a run that leaves the live files with their labels.
-/

namespace ScopeVcs

open Mutation Relation

/-! ## The rewritten repository -/

section Rewritten

variable (repo : Repository) (rewrites : List HistoryRewriteRequest)

theorem labelledFiles_redact_nil (tree : LabelledTree) : tree.redact [] = tree := by
  refine SortedMap.ext fun path => ?_
  rw [LabelledTree.get?_redact]
  have hkept : ∀ label, redactLabel [] path label = label := redactLabel_of_not rfl
  simp only [hkept]
  exact Option.map_id_apply

theorem rewritten_relabels (config : RepoConfig) (baseline : List ScopePath)
    (unpublished : ScopePath → Bool) (tree : LiveFiles) :
    (repo.rewritten rewrites).relabels config baseline unpublished tree =
      repo.relabels config baseline unpublished tree := by
  unfold Repository.rewritten
  split_ifs <;> rfl

theorem rewritten_viewsTransition (config : RepoConfig)
    (openRequestsByView : SortedMap ViewId ℕ) :
    viewsTransition (repo.rewritten rewrites) config openRequestsByView =
      viewsTransition repo config openRequestsByView := by
  unfold Repository.rewritten
  split_ifs <;> rfl

@[simp]
theorem rewritten_liveFiles : (repo.rewritten rewrites).liveFiles = repo.liveFiles := by
  unfold Repository.rewritten
  split_ifs <;> rfl

@[simp]
theorem rewritten_repoConfig : (repo.rewritten rewrites).repoConfig = repo.repoConfig := by
  unfold Repository.rewritten
  split_ifs <;> rfl

theorem map_id_redact (commits : List LogicalCommit) (invalidated : ℕ → Bool) :
    (commits.mapIdx fun index commit => commit.redact rewrites (invalidated index)).map (·.id) =
      commits.map (·.id) := by
  refine List.ext_getElem? fun index => ?_
  rw [List.getElem?_map, List.getElem?_mapIdx, List.getElem?_map, Option.map_map]
  rfl

theorem rewritten_ids :
    (repo.rewritten rewrites).graph.commits.map (·.id) = repo.graph.commits.map (·.id) := by
  unfold Repository.rewritten
  split_ifs
  · rfl
  · exact map_id_redact rewrites _ _

end Rewritten

/-! ## Plain repositories -/

variable {plain : ScopePath → Prop} {repo next : Repository}

/-- A valid configuration that labels plain paths public or private and rewrites no others. -/
structure RepoConfig.Plain (plain : ScopePath → Prop) (config : RepoConfig) : Prop where
  valid : config.validate = .ok ()
  labels : ∀ path, plain path → IsBuiltin (config.labelForPath path)
  matched : ∀ rewrite ∈ config.history.rewrites, ∀ path, rewrite.matchesPath path = true → plain path

theorem RepoConfig.isBuiltin_selectRule {path : String} {selected : ℕ × ViewId}
    {rule : RepoConfigFileRule} (hselected : IsBuiltin selected.2) (hrule : IsBuiltin rule.view) :
    IsBuiltin (selectRule path selected rule).2 := by
  rw [selectRule]
  split_ifs
  · exact hrule
  · exact hselected

/-- A configuration that names only the two built-in views labels every path with one of them. -/
theorem RepoConfig.isBuiltin_labelForPath {config : RepoConfig}
    (hdefault : IsBuiltin config.files.default)
    (hrules : ∀ rule ∈ config.files.rules, IsBuiltin rule.view) (path : ScopePath) :
    IsBuiltin (config.labelForPath path) := by
  rw [labelForPath, labelForPathSkippingRule]
  by_cases hpath : isRepoRulesPath path = true
  · rw [if_pos hpath]
    exact .inl rfl
  rw [if_neg hpath]
  by_cases hcontrol : isPrivateControlPath path = true
  · rw [if_pos hcontrol, Views.full_eq]
    exact .inr rfl
  rw [if_neg hcontrol]
  -- The fold keeps a view that is the default or the view of a rule.
  refine List.foldlRecOn (motive := fun selected : ℕ × ViewId => IsBuiltin selected.2)
    config.files.rules.zipIdx _ hdefault ?_
  rintro selected hselected ⟨rule, index⟩ hentry
  dsimp only
  rw [if_neg (Option.some_ne_none index).symm]
  exact isBuiltin_selectRule hselected (hrules rule (List.fst_mem_of_mem_zipIdx hentry))

/-- The plain files of a repository are public or private, and its public files were published. -/
structure Repository.Plain (plain : ScopePath → Prop) (repo : Repository) : Prop where
  liveRules : repo.HasLiveRules
  files : repo.labelledFiles.Plain plain
  published : ∀ path blob, repo.labelledFiles.get? path = some (blob, .publicView) →
    repo.Publishes path

theorem mem_historyRewritesAddedSince {config : RepoConfig} {previous : Option RepoConfig}
    {rewrite : HistoryRewriteRequest} (h : rewrite ∈ config.historyRewritesAddedSince previous) :
    rewrite ∈ config.history.rewrites :=
  (List.mem_filter.mp h).1

theorem RepoConfig.Plain.matched_added {config : RepoConfig} (h : config.Plain plain)
    {previous : Option RepoConfig} {path : ScopePath}
    (hredact : shouldRedact (config.historyRewritesAddedSince previous) path = true) : plain path := by
  obtain ⟨rewrite, hrewrite, hmatches⟩ := List.any_eq_true.mp hredact
  exact h.matched rewrite (mem_historyRewritesAddedSince hrewrite) path
    (Bool.and_eq_true_iff.mp hmatches).2

theorem oldContent_of_deleted {live : LiveFiles} {policy : Policy} {config : RepoConfig}
    {changes : List ReviewedContentChange} {visibility : WrittenFileVisibility} {written : FileChange}
    (h : written ∈ buildFileChanges live policy config changes visibility)
    (hnew : written.newContent = none) : written.oldContent ≠ none := by
  obtain ⟨change, -, hchange⟩ := List.mem_filterMap.mp h
  dsimp only at hchange
  split_ifs at hchange with hsame
  cases hchange
  dsimp only at hnew ⊢
  intro hold
  rw [hold, hnew] at hsame
  exact hsame rfl

/-! ### Updates that keep the configuration -/

section Accepted

variable {update : ReviewedUpdateInput} {allowUnchangedTree : Bool} {origin : LogicalCommitOrigin}
  {accepted : AcceptedContentPush}

/-- An accepted update gives plain files no other labels than public and private. -/
theorem plainHistory_accepted (hplain : repo.Plain plain) (hconfig : update.config.Plain plain)
    (h : acceptContentUpdate repo.contentPushState update allowUnchangedTree origin =
      .ok accepted) : PlainHistory plain [accepted.logicalCommit] [] where
  sets := by simp
  commits := by
    intro commit hcommit change hchange hpath
    obtain rfl := List.mem_singleton.mp hcommit
    rw [(acceptContentUpdate_eq_ok h).2.1] at hchange
    obtain ⟨hold, hlabel⟩ := eq_of_mem_buildFileChanges hchange
    have hlive : ∀ blob, change.oldContent = some blob → ∀ views,
        IsBuiltin (repo.policy.label change.path views) := by
      intro blob hblob views
      rw [Policy.label_congr _ _ _ repo.repoConfig.views]
      refine hplain.files change.path (blob, _) ?_ hpath
      rw [Repository.get?_labelledFiles, show repo.liveFiles.get? change.path = some blob from
        hold.symm.trans hblob]
      rfl
    rw [hlabel]
    cases hnew : change.newContent with
    | none =>
      obtain ⟨blob, hblob⟩ := Option.ne_none_iff_exists'.mp (oldContent_of_deleted hchange hnew)
      rw [hblob]
      exact hlive blob hblob _
    | some content =>
      cases hcontent : change.oldContent with
      | none => exact hconfig.labels _ hpath
      | some blob => exact hlive blob hcontent _

end Accepted

/-! ### Updates of the configuration -/

/-- What an update with rewrites leaves: a record of it after the rewritten history. -/
structure Repository.Redacts (plain : ScopePath → Prop) (repo next : Repository)
    (rewrites : List HistoryRewriteRequest) (headOid? : Option String)
    (set? : Option VisibilityChangeSet) (commit? : Option LogicalCommit) : Prop where
  records : (repo.rewritten rewrites).RecordsOnto (repo.labelledFiles.redact rewrites) next headOid?
    set? commit?
  plain : PlainHistory plain commit?.toList set?.toList

theorem Repository.Redacts.of_records {headOid? : Option String} {set? : Option VisibilityChangeSet}
    {commit? : Option LogicalCommit} (h : repo.Records next headOid? set? commit?)
    (hplain : PlainHistory plain commit?.toList set?.toList) :
    repo.Redacts plain next [] headOid? set? commit? where
  records := by
    rw [labelledFiles_redact_nil]
    exact h
  plain := hplain

section Staged

variable {config : RepoConfig} {rewrites : List HistoryRewriteRequest}
  {fileChanges : List FileChange} {unpublished : ScopePath → Bool}
  {views : Option ViewsTransition} {set? : Option VisibilityChangeSet}
  {commit? : Option LogicalCommit}

theorem RewritesFiles.redacts {openRequestsByView : SortedMap ViewId ℕ} {headOid? : Option String}
    (h : RewritesFiles repo config rewrites plain fileChanges unpublished)
    (hnext : Configured (repo.rewritten rewrites) next config
      (fileChanges.map (·.hideDeleted (repo.redactedPaths rewrites))) set? commit?)
    (hviews : viewsTransition repo config openRequestsByView = .ok views)
    (hset : RecordsChanges (repo.graph.commits.getLast?.map (·.id)) (commit?.map (·.id)) h.changes
      views set?)
    (hids : ∀ commit ∈ commit?, ∃ oid ∈ headOid?,
      commit.id = "rv_push_" ++ oid ∨ commit.id = "rv_merge_" ++ oid) :
    repo.Redacts plain next rewrites headOid? set? commit? where
  records := by
    rw [← rewritten_viewsTransition repo rewrites] at hviews
    refine h.stagesFiles.records (fun path => ?_) hnext hviews ?_ hids
    · rw [rewritten_liveFiles, LabelledTree.get?_redact, repo.liveFiles_eq, Option.map_map]
      rfl
    · rw [← List.getLast?_map, rewritten_ids, List.getLast?_map]
      exact hset
  plain := h.plainHistory hset.changes_eq hnext.changes

theorem Repository.Plain.rewritesFiles (hplain : repo.Plain plain) (hconfig : config.Plain plain)
    {previous : Option RepoConfig} (hrewrites : rewrites = config.historyRewritesAddedSince previous)
    (hnodup : (fileChanges.map (·.path)).Nodup)
    (hwritten : ∀ written ∈ fileChanges, WrittenFromConfig repo config written)
    (hdeleted : ∀ written ∈ fileChanges, written.newContent = none → written.oldContent ≠ none)
    (hredacted : ∀ path, (repo.redactedPaths rewrites).contains path = true →
      unpublished path = true)
    (habsent : ∀ path, unpublished path = true →
      (repo.redactedPaths rewrites).contains path = true ∨ repo.liveFiles.get? path = none) :
    RewritesFiles repo config rewrites plain fileChanges unpublished where
  paths_nodup := hnodup
  written := hwritten
  deleted := hdeleted
  redacted := fun path hpath => hredacted path (SortedSet.contains_iff_mem_toList.mpr hpath)
  absent := fun path hpath =>
    (habsent path hpath).imp_left SortedSet.contains_iff_mem_toList.mp
  matched := by
    subst hrewrites
    exact fun path hredact => hconfig.matched_added hredact
  control := by
    subst hrewrites
    exact fun path hcontrol => not_shouldRedact_of_control hconfig.valid
      (fun rewrite hrewrite => mem_historyRewritesAddedSince hrewrite) hcontrol
  labels := hconfig.labels
  files := hplain.files
  published := hplain.published

end Staged

/-! ### The updates -/

/-- The rewrites that an update applies. -/
def RepositoryUpdate.rewrites (update : RepositoryUpdate) (repo : Repository) :
    List HistoryRewriteRequest :=
  match update with
  | .push update =>
    if update.config = repo.repoConfig ∧ update.previousConfig = some repo.repoConfig then []
    else update.config.historyRewritesAddedSince update.previousConfig
  | .merge _ _ => []
  | .configure update =>
    if repo.repoConfig = update.config then []
    else update.config.historyRewritesAddedSince (some repo.repoConfig)

section Updates

variable (hplain : repo.Plain plain)

include hplain

theorem redacts_of_accepted {update : ReviewedUpdateInput} {allowUnchangedTree : Bool}
    {origin : LogicalCommitOrigin} {accepted : AcceptedContentPush}
    (hconfig : update.config.Plain plain) (hpaths : (update.changes.map (·.path)).Nodup)
    (haccepted : acceptContentUpdate repo.contentPushState update allowUnchangedTree origin =
      .ok accepted) :
    ∃ set? commit?, repo.Redacts plain (repo.withAccepted accepted) []
      (some update.gitHead.headOid) set? commit? :=
  ⟨none, _, .of_records (records_withAccepted hplain.liveRules hpaths haccepted)
    (plainHistory_accepted hplain hconfig haccepted)⟩

theorem applyReviewedUpdateToRepo_redacts {update : ReviewedUpdateInput} {pack : GitPoolPack}
    (hconfig : update.config.Plain plain) (hpaths : (update.changes.map (·.path)).Nodup)
    (h : (applyReviewedUpdateToRepo update).run repo = .ok pack next) :
    ∃ set? commit?, repo.Redacts plain next ((RepositoryUpdate.push update).rewrites repo)
      (some update.gitHead.headOid) set? commit? := by
  unfold applyReviewedUpdateToRepo at h
  obtain ⟨-, h⟩ := check_unit_bind_eq_ok.mp h
  obtain ⟨-, h⟩ := check_unit_bind_eq_ok.mp h
  rw [get_bind_eq_ok] at h
  rw [RepositoryUpdate.rewrites]
  split_ifs at h ⊢ with hsame
  · obtain ⟨accepted, haccepted, h⟩ := check_bind_eq_ok.mp h
    obtain ⟨-, rfl⟩ := modify_pure_eq_ok.mp h
    exact redacts_of_accepted hplain hconfig hpaths haccepted
  · obtain ⟨views, hviews, h⟩ := check_bind_eq_ok.mp h
    obtain ⟨-, h⟩ := check_unit_bind_eq_ok.mp h
    obtain ⟨rewrite, base, hrewrite, h⟩ := bind_eq_ok.mp h
    rw [applyHistoryRewrites_run] at hrewrite
    cases hrewrite
    obtain ⟨set?, commit, hset, hid, hchanges, hcommits, hsets, hlive, hnext, hpolicy⟩ :=
      finishReviewedUpdate_eq_ok h
    rw [rewritten_relabels] at hset
    set rewrites := update.config.historyRewritesAddedSince update.previousConfig with hrewrites
    have hfiles : RewritesFiles repo update.config rewrites plain (update.fileChanges repo)
        fun path => (repo.redactedPaths rewrites).contains path ||
          !repo.liveFiles.contains path := hplain.rewritesFiles hconfig hrewrites
      (buildFileChanges_paths_nodup hpaths)
      (fun written hwritten => ⟨(eq_of_mem_buildFileChanges hwritten).1,
        (eq_of_mem_buildFileChanges hwritten).2⟩)
      (fun written hwritten => oldContent_of_deleted hwritten) (by simp +contextual)
      (fun path hpath => (Bool.or_eq_true_iff.mp hpath).imp_right fun hnew => by
        simpa [SortedMap.contains] using hnew)
    refine ⟨set?, some commit, hfiles.redacts ?_ (mapError_eq_ok.mp hviews) hset ?_⟩
    · exact {
        liveFiles := by
          rw [hlive, rewritten_liveFiles, foldl_hideDeleted]
          rfl
        policy := hlive ▸ hpolicy
        repoConfig := hnext
        commits := hcommits
        sets := hsets
        changes := fun commit' hcommit' => Option.mem_some_iff.mp hcommit' ▸ hchanges
        unchanged := by simp }
    · rintro commit' ⟨⟩
      exact ⟨_, rfl, .inl hid⟩

theorem applyReviewedConfigToRepo_redacts {update : ReviewedConfigUpdateInput} {changed : Bool}
    (hconfig : update.config.Plain plain)
    (h : (applyReviewedConfigToRepo update).run repo = .ok changed next) :
    ∃ set? commit?, repo.Redacts plain next ((RepositoryUpdate.configure update).rewrites repo)
      none set? commit? := by
  unfold applyReviewedConfigToRepo at h
  rw [get_bind_eq_ok] at h
  rw [RepositoryUpdate.rewrites]
  split_ifs at h ⊢ with hsame
  · obtain ⟨-, rfl⟩ := pure_eq_ok.mp h
    exact ⟨none, none, .of_records hplain.liveRules.records_self ⟨by simp, by simp⟩⟩
  · obtain ⟨views, hviews, h⟩ := check_bind_eq_ok.mp h
    obtain ⟨rewrite, base, hrewrite, h⟩ := bind_eq_ok.mp h
    rw [applyHistoryRewrites_run] at hrewrite
    cases hrewrite
    obtain ⟨set?, hset, hcommits, hsets, hlive, hnext, hpolicy⟩ := finishReviewedConfig_eq_ok h
    rw [rewritten_relabels] at hset
    set rewrites := update.config.historyRewritesAddedSince (some repo.repoConfig) with hrewrites
    have hfiles : RewritesFiles repo update.config rewrites plain []
        (repo.redactedPaths rewrites).contains := hplain.rewritesFiles hconfig hrewrites
      List.nodup_nil (by simp) (by simp) (fun path hpath => hpath) (fun path hpath => .inl hpath)
    refine ⟨set?, none, hfiles.redacts ?_ (mapError_eq_ok.mp hviews) hset (by simp)⟩
    exact {
      liveFiles := by rw [hlive]; rfl
      policy := by rw [hlive, rewritten_liveFiles]; exact hpolicy
      repoConfig := hnext
      commits := hcommits.trans (List.append_nil _).symm
      sets := hsets
      changes := by simp
      unchanged := fun _ => rfl }

end Updates

/-! ## Histories from the start -/

section History

variable {tree : LabelledTree} {first views : Views} {commits : List LogicalCommit}
  {sets : List VisibilityChangeSet}

/-- A file is public because a commit or a change of visibility made it so. -/
theorem HistoryRun.published (run : HistoryRun none ∅ first commits sets tree views)
    {path : ScopePath} {blob : SourceBlob} (hfile : tree.get? path = some (blob, .publicView)) :
    (∃ commit ∈ commits, ∃ change ∈ commit.changes,
      change.label = .publicView ∧ change.path = path) ∨
      ∃ set ∈ sets, ∃ change ∈ set.changes, change.path = path := by
  induction run generalizing blob with
  | nil => cases hfile
  | @update commits sets tree before after set? commit? run appends fits ih =>
    by_cases hwritten : ∃ commit ∈ commit?, ∃ change ∈ commit.changes, change.path = path
    · obtain ⟨commit, hcommit, change, hchange, rfl⟩ := hwritten
      obtain rfl := Option.mem_def.mp hcommit
      rw [LabelledTree.update, Option.elim_some,
        LabelledTree.get?_applyCommit_of_mem (fits.changes_nodup commit rfl) hchange] at hfile
      obtain ⟨content, -, heq⟩ := Option.map_eq_some_iff.mp hfile
      exact .inl ⟨commit, by simp, change, hchange, congrArg Prod.snd heq, rfl⟩
    · push Not at hwritten
      have hrelabelled : (set?.elim tree tree.relabel).get? path = some (blob, .publicView) := by
        cases commit? with
        | none => exact hfile
        | some commit =>
          rwa [LabelledTree.update, Option.elim_some,
            LabelledTree.get?_applyCommit_of_ne (hwritten commit rfl)] at hfile
      by_cases hnamed : ∃ set ∈ set?, ∃ change ∈ set.changes, change.path = path
      · obtain ⟨set, hset, hnamed⟩ := hnamed
        exact .inr ⟨set, List.mem_append_right _ (Option.mem_toList.mpr hset), hnamed⟩
      · push Not at hnamed
        have hbefore : tree.get? path = some (blob, .publicView) := by
          cases set? with
          | none => exact hrelabelled
          | some set =>
            rwa [Option.elim_some, LabelledTree.get?_relabel_of_ne (hnamed set rfl)] at hrelabelled
        refine (ih hbefore).imp ?_ ?_
        · rintro ⟨commit, hcommit, hpublic⟩
          exact ⟨commit, List.mem_append_left _ hcommit, hpublic⟩
        · rintro ⟨set, hset, hpath⟩
          exact ⟨set, List.mem_append_left _ hset, hpath⟩

theorem plain_empty (plain : ScopePath → Prop) : (∅ : LabelledTree).Plain plain :=
  fun _ _ h => by cases h

/-- The history that the rewrites leave runs to the redacted files. -/
theorem HistoryRun.rewritten {rewrites : List HistoryRewriteRequest}
    (run : HistoryRun none ∅ first repo.graph.commits repo.visibilityChangeSets tree views)
    (hlabels : PlainHistory plain repo.graph.commits repo.visibilityChangeSets)
    (hmatched : ∀ path, shouldRedact rewrites path = true → plain path) :
    HistoryRun none ∅ first (repo.rewritten rewrites).graph.commits
        (repo.rewritten rewrites).visibilityChangeSets (tree.redact rewrites) views ∧
      PlainHistory plain (repo.rewritten rewrites).graph.commits
        (repo.rewritten rewrites).visibilityChangeSets := by
  unfold Repository.rewritten
  split_ifs with hnone
  · rw [List.isEmpty_iff.mp hnone, labelledFiles_redact_nil]
    exact ⟨run, hlabels⟩
  · exact ⟨run.redact (plain_empty plain) hlabels hmatched _, hlabels.redact _⟩

end History

/-! ## Runs -/

namespace PushedRepository

variable {state next : PushedRepository} {update : RepositoryUpdate}

/-- One update with a plain configuration: it lists each path once, and its head is new. -/
structure PlainUpdate (plain : ScopePath → Prop) (update : RepositoryUpdate)
    (state next : PushedRepository) : Prop where
  config : update.config.Plain plain
  paths_nodup : update.paths.Nodup
  fresh : ∀ oid ∈ update.headOid?, oid ∉ state.headOids
  applies : update.Applies state.repo next.repo
  headOids : next.headOids = update.headOid?.toList ++ state.headOids

def RewritingStep (plain : ScopePath → Prop) (state next : PushedRepository) : Prop :=
  ∃ update, PlainUpdate plain update state next

theorem PlainUpdate.exists_redacts (h : PlainUpdate plain update state next)
    (hplain : state.repo.Plain plain) :
    ∃ set? commit?, state.repo.Redacts plain next.repo (update.rewrites state.repo) update.headOid?
      set? commit? := by
  obtain ⟨hconfig, hpaths, -, happlies, -⟩ := h
  cases update with
  | push update =>
    obtain ⟨pack, happlied⟩ := happlies
    exact applyReviewedUpdateToRepo_redacts hplain hconfig hpaths happlied
  | merge update origin =>
    obtain ⟨pack, happlied⟩ := happlies
    obtain ⟨accepted, haccepted, happlied⟩ := check_bind_eq_ok.mp happlied
    obtain ⟨-, hnext⟩ := modify_pure_eq_ok.mp happlied
    rw [← hnext]
    exact redacts_of_accepted hplain hconfig hpaths haccepted
  | configure update =>
    obtain ⟨changed, happlied⟩ := happlies
    exact applyReviewedConfigToRepo_redacts hplain hconfig happlied

theorem PlainUpdate.matched (h : PlainUpdate plain update state next) {path : ScopePath}
    (hredact : shouldRedact (update.rewrites state.repo) path = true) : plain path := by
  cases update with
  | push update =>
    rw [RepositoryUpdate.rewrites] at hredact
    split_ifs at hredact
    · cases hredact
    · exact h.config.matched_added hredact
  | merge update origin => cases hredact
  | configure update =>
    rw [RepositoryUpdate.rewrites] at hredact
    split_ifs at hredact
    · cases hredact
    · exact h.config.matched_added hredact

/-- The history is a run of updates from nothing to the live files with their labels, and gives plain
paths no other labels than public and private. -/
structure Tracked (plain : ScopePath → Prop) (state : PushedRepository) : Prop where
  sound : Sound state
  run : ∃ first, HistoryRun none ∅ first state.repo.graph.commits state.repo.visibilityChangeSets
    state.repo.labelledFiles state.repo.repoConfig.views
  labels : PlainHistory plain state.repo.graph.commits state.repo.visibilityChangeSets

theorem Tracked.plainRepository (h : Tracked plain state) : state.repo.Plain plain := by
  obtain ⟨first, run⟩ := h.run
  refine ⟨h.sound.liveRules, run.tree_plain (plain_empty plain) h.labels, fun path blob hfile => ?_⟩
  refine (run.published hfile).imp_left ?_
  rintro ⟨commit, hcommit, hpublic⟩
  exact ⟨commit, hcommit, .inr hpublic⟩

theorem Created.labelledFiles_empty (h : Created state) : state.repo.labelledFiles = ∅ := by
  refine SortedMap.ext fun path => ?_
  rw [Repository.get?_labelledFiles, h.eq_new.2.2]
  rfl

theorem Created.sound (h : Created state) : Sound state := by
  obtain ⟨hcommits, -, hlive⟩ := h.eq_new
  constructor
  · intro path blob hblob
    rw [hlive] at hblob
    cases hblob
  · rw [hcommits]
    exact fun commit hcommit => absurd hcommit List.not_mem_nil

theorem Created.tracked (h : Created state) : Tracked plain state := by
  obtain ⟨hcommits, hsets, -⟩ := h.eq_new
  refine ⟨h.sound, ⟨state.repo.repoConfig.views, ?_⟩, ?_⟩
  · rw [hcommits, hsets, h.labelledFiles_empty]
    exact .nil
  · rw [hcommits, hsets]
    exact ⟨by simp, by simp⟩

theorem Tracked.ids_rewritten (h : Tracked plain state) (rewrites : List HistoryRewriteRequest) :
    ∀ commit ∈ (state.repo.rewritten rewrites).graph.commits,
      ∃ oid ∈ state.headOids, NamedAfter commit.id oid := by
  intro commit hcommit
  have hid := List.mem_map_of_mem (f := LogicalCommit.id) hcommit
  rw [rewritten_ids] at hid
  obtain ⟨original, horiginal, heq⟩ := List.mem_map.mp hid
  rw [← heq]
  exact h.sound.ids original horiginal

/-- What an update appends has its place at the end of the rewritten history. -/
theorem Tracked.appendsTo (h : Tracked plain state) (hupdate : PlainUpdate plain update state next)
    {set? : Option VisibilityChangeSet} {commit? : Option LogicalCommit}
    (hrecords : (state.repo.rewritten (update.rewrites state.repo)).RecordsOnto
      (state.repo.labelledFiles.redact (update.rewrites state.repo)) next.repo update.headOid? set?
      commit?) :
    AppendsTo none (state.repo.rewritten (update.rewrites state.repo)).graph.commits
      state.repo.repoConfig.views next.repo.repoConfig.views set? commit? where
  transition := by
    rw [← rewritten_repoConfig state.repo (update.rewrites state.repo)]
    exact hrecords.transition
  anchored := fun set hset => (hrecords.anchored set hset).trans Option.or_none.symm
  source := hrecords.source
  fresh := by
    intro commit hcommit
    refine ⟨fun hmem => ?_, nofun⟩
    obtain ⟨oid, hoid, hnamed⟩ := hrecords.ids commit hcommit
    obtain ⟨other, hother, heq⟩ := List.mem_map.mp hmem
    obtain ⟨oid', hoid', hnamed'⟩ := h.ids_rewritten _ other hother
    rw [heq] at hnamed'
    exact hupdate.fresh oid hoid (NamedAfter.inj hnamed hnamed' ▸ hoid')

theorem Tracked.step (h : Tracked plain state) (hupdate : PlainUpdate plain update state next) :
    Tracked plain next := by
  obtain ⟨first, run⟩ := h.run
  obtain ⟨set?, commit?, hrecords, hlabels⟩ := hupdate.exists_redacts h.plainRepository
  obtain ⟨run', hlabels'⟩ := run.rewritten h.labels fun path => hupdate.matched
  have hfits := hrecords.fits
  rw [rewritten_repoConfig] at hfits
  refine ⟨⟨hrecords.liveRules, fun commit hcommit => ?_⟩, ⟨first, ?_⟩, ?_⟩
  · rw [hrecords.commits] at hcommit
    rw [hupdate.headOids]
    rcases List.mem_append.mp hcommit with hcommit | hcommit
    · obtain ⟨oid, hoid, hnamed⟩ := h.ids_rewritten _ commit hcommit
      exact ⟨oid, List.mem_append_right _ hoid, hnamed⟩
    · obtain ⟨oid, hoid, hnamed⟩ := hrecords.ids commit (Option.mem_toList.mp hcommit)
      exact ⟨oid, List.mem_append_left _ (Option.mem_toList.mpr hoid), hnamed⟩
  · rw [hrecords.commits, hrecords.sets, hrecords.files]
    exact .update run' (h.appendsTo hupdate hrecords) hfits
  · rw [hrecords.commits, hrecords.sets]
    exact hlabels'.append hlabels

/-- Every run of updates with plain configurations keeps the history in step with the files. -/
theorem tracked_of_reachable (h : Transition.Reachable Created (RewritingStep plain) state) :
    Tracked plain state := by
  refine Transition.Reachable.invariant (Tracked plain) h (fun _ hcreated => hcreated.tracked) ?_
  rintro before after - htracked ⟨update, hupdate⟩
  exact htracked.step hupdate

/-! ### The projections -/

theorem Tracked.fold_eq (h : Tracked plain state) :
    LabelledTree.fold ∅ state.repo.graph state.repo.visibilityChangeSets =
      state.repo.labelledFiles := by
  obtain ⟨first, run⟩ := h.run
  exact run.fold_eq state.repo.graph.repoId

theorem Tracked.projectGraph_applyTo (h : Tracked plain state) (view : ViewId) :
    (projectGraph state.repo.graph state.repo.visibilityChangeSets state.repo.repoConfig.views
      view).applyTo ∅ = state.repo.shownFiles view := by
  obtain ⟨first, run⟩ := h.run
  rw [← Repository.viewFiles_labelledFiles]
  have hcursor := run.initialViews_shape state.repo.repoConfig.views rfl
  exact run.projectGraphAfter_applyTo view state.repo.graph.repoId hcursor

theorem Tracked.foldView_eq_ok (h : Tracked plain state) (view : ViewId) :
    ∃ row, foldView state.repo.repoConfig.views (.load state.repo .start ∅) none view = .ok row := by
  have hload : FoldInput.load state.repo .start ∅ = ⟨.start, state.repo.graph,
      state.repo.visibilityChangeSets, ∅, state.repo.labelledFiles⟩ := by
    rw [← h.fold_eq]
    rfl
  rw [hload, foldView]
  refine ⟨_, if_neg (not_not.mpr ?_)⟩
  exact (h.projectGraph_applyTo view).trans (Repository.viewFiles_labelledFiles _ _).symm

/-- Rewrites included, the projection of a repository for a view shows its live files whose label the
view shows, folding its history gives the live files with their labels, and the fold of a read model
over the whole history finds the two in agreement. -/
theorem rewritten_projections_follow_labels
    (h : Transition.Reachable Created (RewritingStep plain) state) (view : ViewId) :
    (projectGraph state.repo.graph state.repo.visibilityChangeSets state.repo.repoConfig.views
        view).applyTo ∅ = state.repo.shownFiles view ∧
      LabelledTree.fold ∅ state.repo.graph state.repo.visibilityChangeSets =
        state.repo.labelledFiles ∧
      ∃ row, foldView state.repo.repoConfig.views (.load state.repo .start ∅) none view = .ok row := by
  have htracked := tracked_of_reachable h
  exact ⟨htracked.projectGraph_applyTo view, htracked.fold_eq, htracked.foldView_eq_ok view⟩

/-! ## A second push -/

namespace SecondPush

open FirstPush

def edited : SourceBlob := ⟨.blobSha256 "sha2", "sha2", "oid2", "100644", 7⟩

/-- A second push edits the private file, and its configuration redacts the public one. -/
def secondUpdate : ReviewedUpdateInput where
  occurredAtUnix := some 200
  authorId := "owner"
  message := "second push"
  gitHead := ⟨"2", 2, 3, "frontier"⟩
  mainPack := ⟨"pack2", .main 2 2, "2", ["1"], .inline []⟩
  changes := [⟨notes, some edited⟩]
  previousConfig := some FirstPush.update.config
  config := { FirstPush.update.config with
    files := ⟨.privateView, []⟩
    history := ⟨[⟨"/README.md", .redactPublicHistory⟩]⟩ }
  openRequestsByView := ∅

def pushed : PushedRepository :=
  ⟨final (applyReviewedUpdateToRepo secondUpdate) FirstPush.pushed.repo, ["2", "1"]⟩

theorem plain_first : FirstPush.update.config.Plain fun _ => True := by
  refine ⟨by decide, fun path _ => ?_, fun _ _ _ _ => trivial⟩
  refine RepoConfig.isBuiltin_labelForPath (.inr rfl) (fun rule hrule => ?_) path
  obtain rfl := List.mem_singleton.mp hrule
  exact .inl rfl

theorem plain_second : secondUpdate.config.Plain fun _ => True := by
  refine ⟨by decide, fun path _ => ?_, fun _ _ _ _ => trivial⟩
  exact RepoConfig.isBuiltin_labelForPath (.inr rfl) (fun _ hrule => absurd hrule List.not_mem_nil)
    path

theorem reachable_first :
    Transition.Reachable Created (RewritingStep fun _ => True) FirstPush.pushed := by
  have hcreated : Created ⟨created, []⟩ := ⟨⟨"Owner", "repo", .privateView, "i", rfl⟩, rfl⟩
  refine Transition.Reachable.tail (.of_init hcreated) ⟨.push FirstPush.update, ?_⟩
  exact ⟨plain_first, by decide, by decide, ⟨FirstPush.update.mainPack, rfl⟩, rfl⟩

theorem plainUpdate_pushed :
    PlainUpdate (fun _ => True) (.push secondUpdate) FirstPush.pushed pushed :=
  ⟨plain_second, by decide, by decide, ⟨secondUpdate.mainPack, rfl⟩, rfl⟩

/-- Once redacted the public file is gone from the public projection. -/
theorem public_projection_redacted : (projectGraph pushed.repo.graph
    pushed.repo.visibilityChangeSets pushed.repo.repoConfig.views .publicView).applyTo ∅ = ∅ :=
  (rewritten_projections_follow_labels (reachable_first.tail ⟨_, plainUpdate_pushed⟩)
    .publicView).1.trans (by decide +kernel)

end SecondPush

end PushedRepository

end ScopeVcs

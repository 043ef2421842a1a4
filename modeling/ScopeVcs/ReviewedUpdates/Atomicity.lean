import ScopeVcs.ReviewedUpdates.Staged

/-! # Rejected updates

Which rejected updates leave the repository as it was. An update that keeps the configuration, and
every merge, is accepted before anything is written. An update of the configuration rewrites the
public history and only then builds the policy and the change set, and a configuration without a push
takes effect before its change set is built: a rejection there leaves those changes behind.
-/

namespace ScopeVcs

open Mutation

variable {repo : Repository} {config : RepoConfig} {rewrites : List HistoryRewriteRequest}

/-! ## Updates that keep the configuration -/

theorem succeeds_applyAcceptedContentPush (accepted : AcceptedContentPush) :
    Succeeds (applyAcceptedContentPush accepted) repo :=
  .of_eq_ok (a := accepted.mainPack) rfl

theorem applyContentOnlyUpdate_atomic (update : ReviewedUpdateInput) :
    Atomic (applyContentOnlyUpdate update) repo :=
  Atomic.check_bind.mpr fun accepted _ => (succeeds_applyAcceptedContentPush accepted).atomic

theorem applyRequestMergeToRepo_atomic (update : ReviewedUpdateInput) (origin : RequestMergeOrigin) :
    Atomic (applyRequestMergeToRepo update origin) repo :=
  Atomic.check_bind.mpr fun accepted _ => (succeeds_applyAcceptedContentPush accepted).atomic

/-! ## The changes of visibility to record -/

/-- The update has a label to record: of a redacted path that stays public, or of a path that gets
another label, unless it only becomes private and is redacted or was not there before. -/
def Repository.RecordsLabel (repo : Repository) (config : RepoConfig)
    (rewrites : List HistoryRewriteRequest) (changedPaths : List ScopePath) (tree : LiveFiles) :
    Prop :=
  (∃ path, repo.liveFiles.contains path = true ∧ path ∉ changedPaths ∧
    config.labelForPath path = .publicView ∧ shouldRedact rewrites path = true ∧
      repo.Publishes path) ∨
  ∃ path, tree.contains path = true ∧
    repo.policy.label path repo.repoConfig.views ≠ config.labelForPath path ∧
      (repo.policy.label path repo.repoConfig.views = .publicView →
        config.labelForPath path = .privateView →
          repo.liveFiles.contains path = true ∧
            ¬(shouldRedact rewrites path = true ∧ repo.Publishes path))

theorem mem_baselineChanges {input : HistoryRewriteInput} {change : VisibilityChange} :
    change ∈ repo.baselineChanges input ↔
      change.path ∉ input.changedPaths ∧ input.config.labelForPath change.path = .publicView ∧
        (shouldRedact input.rewrites change.path = true ∧ repo.Publishes change.path) ∧
        change.oldLabel = .privateView ∧ change.newLabel = .publicView ∧
        ∃ content, input.liveTree.get? change.path = some content ∧
          change.currentContent = some content := by
  simp only [Repository.baselineChanges, List.mem_filterMap, mem_redactedPaths]
  constructor
  · rintro ⟨path, hredacted, hchange⟩
    split_ifs at hchange with hskip
    obtain ⟨content, hcontent, rfl⟩ := Option.map_eq_some_iff.mp hchange
    push Not at hskip
    exact ⟨hskip.1, hskip.2, hredacted, rfl, rfl, content, hcontent, rfl⟩
  · rintro ⟨hchanged, hpublic, hredacted, hold, hnew, content, hget, hcontent⟩
    refine ⟨change.path, hredacted, ?_⟩
    rw [if_neg (by simp [hchanged, hpublic]), hget, ← hold, ← hnew, Option.map_some, ← hcontent]

theorem mem_relabels {baseline : List ScopePath} {unpublished : ScopePath → Bool} {tree : LiveFiles}
    {change : VisibilityChange} :
    change ∈ repo.relabels config baseline unpublished tree ↔
      change.oldLabel = repo.policy.label change.path repo.repoConfig.views ∧
        change.newLabel = config.labelForPath change.path ∧ change.oldLabel ≠ change.newLabel ∧
        change.path ∉ baseline ∧
        ¬(unpublished change.path = true ∧ change.oldLabel = .publicView ∧
          change.newLabel = .privateView) ∧
        ∃ content, tree.get? change.path = some content ∧
          change.currentContent = some content := by
  simp only [Repository.relabels, List.mem_filterMap]
  constructor
  · rintro ⟨⟨path, content⟩, hmem, hchange⟩
    split_ifs at hchange with hskip
    obtain rfl := Option.some_inj.mp hchange
    push Not at hskip
    exact ⟨rfl, rfl, hskip.1, hskip.2.1, fun h => hskip.2.2 h.1 h.2.1 h.2.2, content,
      SortedMap.mem_entries_iff.mp hmem, rfl⟩
  · rintro ⟨hold, hnew, hne, hbaseline, hshown, content, hget, hcontent⟩
    refine ⟨(change.path, content), SortedMap.mem_entries_iff.mpr hget, ?_⟩
    dsimp only
    rw [← hold, ← hnew, if_neg (by tauto), ← hcontent]

/-- The changes of one update: those that the rewrite asks for, then the other ones. -/
def Repository.recorded (repo : Repository) (input : HistoryRewriteInput)
    (unpublished : ScopePath → Bool) (tree : LiveFiles) : List VisibilityChange :=
  repo.baselineChanges input ++ repo.relabels input.config
    ((repo.baselineChanges input).map (·.path)) unpublished tree

theorem recorded_labels {input : HistoryRewriteInput} {unpublished : ScopePath → Bool}
    {tree : LiveFiles} :
    ∀ change ∈ repo.recorded input unpublished tree, change.oldLabel ≠ change.newLabel := by
  intro change hchange
  rcases List.mem_append.mp hchange with hbaseline | hrelabel
  · obtain ⟨-, -, -, hold, hnew, -⟩ := mem_baselineChanges.mp hbaseline
    rw [hold, hnew]
    exact ViewId.publicView_ne_privateView.symm
  · exact (mem_relabels.mp hrelabel).2.2.1

theorem recorded_paths_nodup {input : HistoryRewriteInput} {unpublished : ScopePath → Bool}
    {tree : LiveFiles} : ((repo.recorded input unpublished tree).map (·.path)).Nodup := by
  rw [Repository.recorded, List.map_append, List.nodup_append']
  refine ⟨?_, ?_, ?_⟩
  · refine ((ListRewrite.map_filterMap_sublist (h := id) ?_ _).nodup ?_)
    · intro path change hchange
      split_ifs at hchange
      obtain ⟨content, -, rfl⟩ := Option.map_eq_some_iff.mp hchange
      rfl
    · rw [List.map_id]
      exact SortedMap.keys_nodup _
  · refine ((ListRewrite.map_filterMap_sublist (h := Prod.fst) ?_ _).nodup (SortedMap.keys_nodup tree))
    intro entry change hchange
    dsimp only at hchange
    split_ifs at hchange
    obtain rfl := Option.some_inj.mp hchange
    rfl
  · rw [List.disjoint_left]
    intro path hbaseline hrelabel
    obtain ⟨change, hchange, rfl⟩ := List.mem_map.mp hrelabel
    exact (mem_relabels.mp hchange).2.2.2.1 hbaseline

/-- There is something to record exactly when a label is. -/
theorem recorded_ne_nil {input : HistoryRewriteInput} {unpublished : ScopePath → Bool}
    {tree : LiveFiles} (hlive : input.liveTree = repo.liveFiles)
    (hunpublished : ∀ path, tree.contains path = true → (unpublished path = true ↔
      repo.liveFiles.contains path = true →
        shouldRedact input.rewrites path = true ∧ repo.Publishes path)) :
    repo.recorded input unpublished tree ≠ [] ↔
      repo.RecordsLabel input.config input.rewrites input.changedPaths tree := by
  rw [Ne, List.eq_nil_iff_forall_not_mem, not_forall]
  simp only [not_not, Repository.recorded, List.mem_append]
  constructor
  · rintro ⟨change, hbaseline | hrelabel⟩
    · obtain ⟨hchanged, hpublic, hredacted, -, -, content, hget, -⟩ := mem_baselineChanges.mp hbaseline
      exact .inl ⟨change.path, SortedMap.contains_iff.mpr ⟨content, hlive ▸ hget⟩, hchanged, hpublic,
        hredacted⟩
    · obtain ⟨hold, hnew, hne, -, hshown, content, hget, -⟩ := mem_relabels.mp hrelabel
      rw [hold, hnew] at hne hshown
      have hcontains := SortedMap.contains_iff.mpr ⟨content, hget⟩
      refine .inr ⟨change.path, hcontains, hne, fun hpublic hprivate => ?_⟩
      have hpublished : ¬unpublished change.path = true := fun h => hshown ⟨h, hpublic, hprivate⟩
      rwa [hunpublished _ hcontains, Classical.not_imp] at hpublished
  · rintro (⟨path, hcontains, hchanged, hpublic, hredacted⟩ | ⟨path, hcontains, hne, hshown⟩)
    · obtain ⟨content, hget⟩ := SortedMap.contains_iff.mp hcontains
      exact ⟨⟨path, .privateView, .publicView, some content⟩, .inl (mem_baselineChanges.mpr
        ⟨hchanged, hpublic, hredacted, rfl, rfl, content, hlive ▸ hget, rfl⟩)⟩
    · by_cases hbaseline : path ∈ (repo.baselineChanges input).map (·.path)
      · obtain ⟨change, hchange, -⟩ := List.mem_map.mp hbaseline
        exact ⟨change, .inl hchange⟩
      · obtain ⟨content, hget⟩ := SortedMap.contains_iff.mp hcontains
        refine ⟨⟨path, _, _, some content⟩, .inr (mem_relabels.mpr
          ⟨rfl, rfl, hne, hbaseline, ?_, content, hget, rfl⟩)⟩
        rintro ⟨hunpub, hpublic, hprivate⟩
        obtain ⟨hlives, hkept⟩ := hshown hpublic hprivate
        exact hkept ((hunpublished path hcontains).mp hunpub hlives)

/-! ## The steps after the rewrite -/

section Record

variable {occurredAtUnix : Option ℤ} {afterCommitId sourceUpdateId : Option String}
  {authorId : String} {changes : List VisibilityChange} {views : Option ViewsTransition}

theorem recordVisibilityChanges_atomic :
    Atomic (recordVisibilityChanges occurredAtUnix afterCommitId sourceUpdateId authorId changes
      views) repo := by
  unfold recordVisibilityChanges
  split_ifs
  · exact Atomic.check_bind.mpr fun set _ => Atomic.modify _
  · exact Atomic.pure ()

/-- Recording fails only for want of an author. -/
theorem succeeds_recordVisibilityChanges
    (hviews : ∀ transition ∈ views, transition.before ≠ transition.after)
    (hlabels : ∀ change ∈ changes, change.oldLabel ≠ change.newLabel)
    (hpaths : (changes.map (·.path)).Nodup) :
    Succeeds (recordVisibilityChanges occurredAtUnix afterCommitId sourceUpdateId authorId changes
      views) repo ↔ ¬(authorId = "" ∧ (changes ≠ [] ∨ views ≠ none)) := by
  have hsomething : changes ≠ [] ∨ views.isSome = true ↔ changes ≠ [] ∨ views ≠ none := by
    rw [Option.isSome_iff_ne_none]
  unfold recordVisibilityChanges
  split_ifs with hrecord
  · rw [succeeds_check_bind, and_iff_left (hsomething.mp hrecord)]
    have hnew : (∃ set, VisibilityChangeSet.new
        (visibilityChangeSetId (U64.saturatingAdd repo.record.changeVersion 1)) afterCommitId
        sourceUpdateId authorId changes views = .ok set) ↔ authorId ≠ "" :=
      (VisibilityChangeSet.exists_new (hsomething.mp hrecord) hviews hlabels hpaths).trans
        (and_iff_right (visibilityChangeSetId_ne_empty _))
    refine Iff.trans ?_ hnew
    constructor
    · rintro ⟨set, hset, -⟩
      exact ⟨set, mapError_eq_ok.mp hset⟩
    · rintro ⟨set, hset⟩
      exact ⟨set, mapError_eq_ok.mpr hset, succeeds_modify _ _⟩
  · refine iff_of_true (Succeeds.of_eq_ok (a := ()) rfl) fun h => hrecord (hsomething.mpr h.2)

end Record

theorem relabels_rewritten {baseline : List ScopePath} {unpublished : ScopePath → Bool}
    {tree : LiveFiles} :
    (repo.rewritten rewrites).relabels config baseline unpublished tree =
      repo.relabels config baseline unpublished tree := by
  unfold Repository.rewritten
  split_ifs <;> rfl

/-- An update has something to record, but no author. -/
def Repository.LacksAuthor (repo : Repository) (input : HistoryRewriteInput) (authorId : String)
    (tree : LiveFiles) : Prop :=
  authorId = "" ∧ (repo.RecordsLabel input.config input.rewrites input.changedPaths tree ∨
    repo.repoConfig.views.visibilityShape ≠ input.config.views.visibilityShape)

/-- An update is rejected after the rewrite: for a public island in the tree of the new
configuration, or for want of an author for what it has to record. -/
def Repository.RejectsLate (repo : Repository) (input : HistoryRewriteInput) (authorId : String)
    (tree : LiveFiles) : Prop :=
  input.config.HasPublicIsland tree.keys ∨ repo.LacksAuthor input authorId tree

theorem succeeds_recorded {input : HistoryRewriteInput} {unpublished : ScopePath → Bool}
    {tree : LiveFiles} {openRequestsByView : SortedMap ViewId ℕ} {views : Option ViewsTransition}
    {occurredAtUnix : Option ℤ} {afterCommitId sourceUpdateId : Option String} {authorId : String}
    {current : Repository} (hlive : input.liveTree = repo.liveFiles)
    (hunpublished : ∀ path, tree.contains path = true → (unpublished path = true ↔
      repo.liveFiles.contains path = true →
        shouldRedact input.rewrites path = true ∧ repo.Publishes path))
    (hviews : viewsTransition repo input.config openRequestsByView = .ok views) :
    Succeeds (recordVisibilityChanges occurredAtUnix afterCommitId sourceUpdateId authorId
      (repo.recorded input unpublished tree) views) current ↔
        ¬repo.LacksAuthor input authorId tree := by
  rw [succeeds_recordVisibilityChanges (before_ne_after_of_viewsTransition hviews) recorded_labels
    recorded_paths_nodup, recorded_ne_nil hlive hunpublished, ne_none_of_viewsTransition hviews]
  rfl

theorem finishReviewedUpdate_atomic {update : ReviewedUpdateInput} {oldTree newTree : LiveFiles}
    {fileChanges : List FileChange} {views : Option ViewsTransition} {afterCommitId : Option String}
    {rewrite : HistoryRewriteResult} :
    Atomic (finishReviewedUpdate update oldTree newTree fileChanges views afterCommitId rewrite)
      repo := by
  unfold finishReviewedUpdate
  refine Atomic.get_bind.mpr (Atomic.check_bind.mpr fun policy _ => ?_)
  exact recordVisibilityChanges_atomic.bind fun _ t _ => .of_eq_ok (a := update.mainPack) rfl

/-! ## A push with a new configuration -/

theorem exists_policyCheck {tree : LiveFiles} :
    (∃ policy, (policyFromConfigForTree config tree.keys).mapError ReviewedUpdateError.invalidPolicy =
      .ok policy) ↔ ¬config.HasPublicIsland tree.keys := by
  rw [← exists_policyFromConfigForTree]
  exact exists_congr fun policy => mapError_eq_ok

/-- The result of the rewrite. -/
def Repository.rewriteResult (repo : Repository) (input : HistoryRewriteInput) :
    HistoryRewriteResult :=
  ⟨repo.baselineChanges input, repo.redactedPaths input.rewrites⟩

theorem contains_redactedPaths {path : ScopePath} :
    (repo.redactedPaths rewrites).contains path = true ↔
      shouldRedact rewrites path = true ∧ repo.Publishes path := by
  rw [← mem_redactedPaths, SortedMap.contains_iff]
  exact SortedMap.mem_keys.symm

theorem succeeds_finishReviewedUpdate {update : ReviewedUpdateInput} {fileChanges : List FileChange}
    {views : Option ViewsTransition} {afterCommitId : Option String}
    (hviews : viewsTransition repo update.config update.openRequestsByView = .ok views) :
    Succeeds (finishReviewedUpdate update repo.liveFiles (update.newTree repo) fileChanges views
        afterCommitId (repo.rewriteResult (update.rewriteInput repo)))
        (repo.rewritten (update.rewriteInput repo).rewrites) ↔
      ¬repo.RejectsLate (update.rewriteInput repo) update.authorId (update.newTree repo) := by
  have hunpublished : ∀ path, (update.newTree repo).contains path = true →
      (((repo.redactedPaths (update.rewriteInput repo).rewrites).contains path ||
        !repo.liveFiles.contains path) = true ↔ (repo.liveFiles.contains path = true →
          shouldRedact (update.rewriteInput repo).rewrites path = true ∧ repo.Publishes path)) := by
    intro path _
    rw [Bool.or_eq_true, contains_redactedPaths, Bool.not_eq_true', ← Bool.not_eq_true]
    tauto
  rw [Repository.RejectsLate, not_or]
  refine succeeds_check_bind.trans ?_
  rw [← exists_policyCheck, relabels_rewritten]
  constructor
  · rintro ⟨policy, hpolicy, hrest⟩
    refine ⟨⟨policy, hpolicy⟩, ?_⟩
    exact (succeeds_recorded rfl hunpublished hviews).mp
      ((succeeds_bind fun _ t => .of_eq_ok (a := update.mainPack) rfl).mp hrest)
  · rintro ⟨⟨policy, hpolicy⟩, hrecord⟩
    refine ⟨policy, hpolicy, ?_⟩
    exact (succeeds_bind fun _ t => .of_eq_ok (a := update.mainPack) rfl).mpr
      ((succeeds_recorded rfl hunpublished hviews).mpr hrecord)

/-- No step rejects the push before the history is rewritten. -/
structure ReviewedUpdateInput.ReachesRewrite (update : ReviewedUpdateInput) (repo : Repository) :
    Prop where
  advances : validateMainPackAdvance repo.gitHead update.gitHead update.mainPack = .ok ()
  configures : ¬(update.config = repo.repoConfig ∧ update.previousConfig = some repo.repoConfig)
  views : ∃ views, viewsTransition repo update.config update.openRequestsByView = .ok views
  changes : ∃ change ∈ update.changes,
    sourceContentMatches (repo.liveFiles.get? change.path) change.content = false

/-- The push is rejected with a rewritten history. -/
def ReviewedUpdateInput.Tears (update : ReviewedUpdateInput) (repo : Repository) : Prop :=
  update.ReachesRewrite repo ∧
    ¬repo.KeepsHistory (update.config.historyRewritesAddedSince update.previousConfig) ∧
      repo.RejectsLate (update.rewriteInput repo) update.authorId (update.newTree repo)

theorem fileChanges_ne_nil {update : ReviewedUpdateInput} :
    update.fileChanges repo ≠ [] ↔ ∃ change ∈ update.changes,
      sourceContentMatches (repo.liveFiles.get? change.path) change.content = false := by
  rw [ReviewedUpdateInput.fileChanges, buildFileChanges, Ne, List.filterMap_eq_nil_iff]
  simp

theorem applyReviewedUpdateToRepo_atomic_iff (update : ReviewedUpdateInput) :
    Atomic (applyReviewedUpdateToRepo update) repo ↔ ¬update.Tears repo := by
  unfold applyReviewedUpdateToRepo
  rw [Atomic.check_unit_bind, mapError_eq_ok]
  simp only [Atomic.check_unit_bind, Atomic.get_bind, rejectIf_eq_ok]
  by_cases hsame : update.config = repo.repoConfig ∧ update.previousConfig = some repo.repoConfig
  · rw [if_pos hsame]
    exact iff_of_true (fun _ _ => applyContentOnlyUpdate_atomic update)
      fun htears => htears.1.configures hsame
  rw [if_neg hsame, Atomic.check_bind]
  simp only [Atomic.check_unit_bind, rejectIf_eq_ok, mapError_eq_ok]
  have hstep : ∀ views, viewsTransition repo update.config update.openRequestsByView = .ok views →
      (Atomic (applyHistoryRewrites (update.rewriteInput repo) >>= fun rewrite =>
          finishReviewedUpdate update repo.liveFiles (update.newTree repo) (update.fileChanges repo)
            views (repo.graph.commits.getLast?.map (·.id)) rewrite) repo ↔
        repo.KeepsHistory (update.config.historyRewritesAddedSince update.previousConfig) ∨
          ¬repo.RejectsLate (update.rewriteInput repo) update.authorId (update.newTree repo)) := by
    intro views hviews
    rw [Atomic.bind_of_ok_iff (applyHistoryRewrites_run _ _) finishReviewedUpdate_atomic]
    exact or_congr rewritten_eq_self (succeeds_finishReviewedUpdate hviews)
  constructor
  · rintro h ⟨hreach, hhistory, hlate⟩
    obtain ⟨views, hviews⟩ := hreach.views
    have hfiles := fileChanges_ne_nil.mpr hreach.changes
    have hsome : update.changes ≠ [] := by
      obtain ⟨change, hchange, -⟩ := hreach.changes
      exact List.ne_nil_of_mem hchange
    rcases (hstep views hviews).mp (h hreach.advances hsome views hviews hfiles) with hkept | hfine
    · exact hhistory hkept
    · exact hfine hlate
  · intro h hadvances _ views hviews hfiles
    refine (hstep views hviews).mpr ?_
    by_cases hkept :
        repo.KeepsHistory (update.config.historyRewritesAddedSince update.previousConfig)
    · exact .inl hkept
    · refine .inr fun hlate => h ⟨?_, hkept, hlate⟩
      exact {
        advances := hadvances
        configures := hsame
        views := ⟨views, hviews⟩
        changes := fileChanges_ne_nil.mp hfiles }

/-! ## A configuration without a push -/

theorem recordReviewedConfig_atomic {update : ReviewedConfigUpdateInput}
    {views : Option ViewsTransition} {afterCommitId : Option String}
    {visibilityChanges : List VisibilityChange} :
    Atomic (recordReviewedConfig update views afterCommitId visibilityChanges) repo :=
  recordVisibilityChanges_atomic.bind fun _ _ _ => .of_eq_ok (a := true) rfl

/-- The changes of visibility of a configuration without a push. -/
def ReviewedConfigUpdateInput.recorded (update : ReviewedConfigUpdateInput) (repo : Repository) :
    List VisibilityChange :=
  repo.recorded (update.rewriteInput repo)
    (repo.redactedPaths (update.rewriteInput repo).rewrites).contains repo.liveFiles

theorem succeeds_recordReviewedConfig {update : ReviewedConfigUpdateInput} {current : Repository}
    {views : Option ViewsTransition} {afterCommitId : Option String}
    (hviews : viewsTransition repo update.config update.openRequestsByView = .ok views) :
    Succeeds (recordReviewedConfig update views afterCommitId (update.recorded repo)) current ↔
      ¬repo.LacksAuthor (update.rewriteInput repo) update.authorId repo.liveFiles := by
  refine (succeeds_bind fun _ _ => .of_eq_ok (a := true) rfl).trans ?_
  refine succeeds_recorded rfl (fun path hlive => ?_) hviews
  rw [contains_redactedPaths]
  exact ⟨fun h _ => h, fun h => h hlive⟩

/-- The configuration is rejected with a rewritten history, or in effect without its change set. -/
def ReviewedConfigUpdateInput.Tears (update : ReviewedConfigUpdateInput) (repo : Repository) :
    Prop :=
  update.config ≠ repo.repoConfig ∧
    (∃ views, viewsTransition repo update.config update.openRequestsByView = .ok views) ∧
    ((update.config.HasPublicIsland repo.liveFiles.keys ∧
        ¬repo.KeepsHistory (update.config.historyRewritesAddedSince (some repo.repoConfig))) ∨
      (¬update.config.HasPublicIsland repo.liveFiles.keys ∧
        repo.LacksAuthor (update.rewriteInput repo) update.authorId repo.liveFiles))

theorem finishReviewedConfig_eq_error {update : ReviewedConfigUpdateInput}
    {views : Option ViewsTransition} {afterCommitId : Option String} {e : ReviewedUpdateError}
    {left : Repository} :
    (finishReviewedConfig update repo.liveFiles views afterCommitId
        (repo.rewriteResult (update.rewriteInput repo))).run
          (repo.rewritten (update.rewriteInput repo).rewrites) = .error e left ↔
      ((policyFromConfigForTree update.config repo.liveFiles.keys).mapError .invalidPolicy =
          .error e ∧ repo.rewritten (update.rewriteInput repo).rewrites = left) ∨
        ∃ policy, (policyFromConfigForTree update.config repo.liveFiles.keys).mapError
            ReviewedUpdateError.invalidPolicy = .ok policy ∧
          (recordReviewedConfig update views afterCommitId (update.recorded repo)).run
            { repo.rewritten (update.rewriteInput repo).rewrites with
              policy, repoConfig := update.config } = .error e left := by
  rw [finishReviewedConfig, get_bind_eq_error, relabels_rewritten, bind_eq_error, check_eq_error]
  refine or_congr Iff.rfl (exists_congr fun policy => ?_)
  simp only [check_eq_ok]
  constructor
  · rintro ⟨_, ⟨hpolicy, rfl⟩, hfail⟩
    exact ⟨hpolicy, hfail⟩
  · rintro ⟨hpolicy, hfail⟩
    exact ⟨_, ⟨hpolicy, rfl⟩, hfail⟩

/-- A rejection for a public island leaves the rewritten history, one for want of an author also the
configuration. -/
theorem finishReviewedConfig_fails_iff {update : ReviewedConfigUpdateInput}
    {views : Option ViewsTransition} {afterCommitId : Option String}
    (hchanged : update.config ≠ repo.repoConfig)
    (hviews : viewsTransition repo update.config update.openRequestsByView = .ok views) :
    (∀ e left, (finishReviewedConfig update repo.liveFiles views afterCommitId
        (repo.rewriteResult (update.rewriteInput repo))).run
          (repo.rewritten (update.rewriteInput repo).rewrites) = .error e left → left = repo) ↔
      (update.config.HasPublicIsland repo.liveFiles.keys →
        repo.KeepsHistory (update.config.historyRewritesAddedSince (some repo.repoConfig))) ∧
      (¬update.config.HasPublicIsland repo.liveFiles.keys →
        ¬repo.LacksAuthor (update.rewriteInput repo) update.authorId repo.liveFiles) := by
  simp only [finishReviewedConfig_eq_error]
  by_cases hisland : update.config.HasPublicIsland repo.liveFiles.keys
  · have hnone := fun h => (exists_policyCheck.mp h) hisland
    rw [and_iff_left (fun h => absurd hisland h), forall_prop_of_true hisland, ← rewritten_eq_self]
    cases hpolicy : (policyFromConfigForTree update.config repo.liveFiles.keys).mapError
        ReviewedUpdateError.invalidPolicy with
    | ok policy => exact absurd ⟨policy, hpolicy⟩ hnone
    | error e =>
      constructor
      · exact fun h => h e _ (.inl ⟨rfl, rfl⟩)
      · rintro hkept e' left (⟨-, rfl⟩ | ⟨policy, hok, -⟩)
        · exact hkept
        · cases hok
  · obtain ⟨policy, hpolicy⟩ := exists_policyCheck.mpr hisland
    set effective : Repository := { repo.rewritten (update.rewriteInput repo).rewrites with
      policy, repoConfig := update.config } with heffective
    have hsucceeds : Succeeds (recordReviewedConfig update views afterCommitId
        (update.recorded repo)) effective ↔
          ¬repo.LacksAuthor (update.rewriteInput repo) update.authorId repo.liveFiles :=
      succeeds_recordReviewedConfig hviews
    rw [and_iff_right (fun h => absurd h hisland), forall_prop_of_true hisland, hpolicy, ← hsucceeds]
    constructor
    · intro h e left hfail
      have hleft : left = effective := recordReviewedConfig_atomic e left hfail
      have hrepo : left = repo := h e left (.inr ⟨policy, rfl, hfail⟩)
      refine hchanged ?_
      rw [← hrepo, hleft]
    · rintro h e left (⟨herror, -⟩ | ⟨policy', hok, hfail⟩)
      · cases herror
      · cases hok
        exact absurd hfail (h e left)

theorem applyReviewedConfigToRepo_atomic_iff (update : ReviewedConfigUpdateInput) :
    Atomic (applyReviewedConfigToRepo update) repo ↔ ¬update.Tears repo := by
  unfold applyReviewedConfigToRepo
  rw [Atomic.get_bind]
  by_cases hsame : repo.repoConfig = update.config
  · rw [if_pos hsame]
    exact iff_of_true (Atomic.pure false) fun htears => htears.1 hsame.symm
  rw [if_neg hsame, Atomic.check_bind]
  simp only [mapError_eq_ok]
  have hstep : ∀ views, viewsTransition repo update.config update.openRequestsByView = .ok views →
      (Atomic (applyHistoryRewrites (update.rewriteInput repo) >>= fun rewrite =>
          finishReviewedConfig update repo.liveFiles views
            (repo.graph.commits.getLast?.map (·.id)) rewrite) repo ↔
        (update.config.HasPublicIsland repo.liveFiles.keys →
          repo.KeepsHistory (update.config.historyRewritesAddedSince (some repo.repoConfig))) ∧
        (¬update.config.HasPublicIsland repo.liveFiles.keys →
          ¬repo.LacksAuthor (update.rewriteInput repo) update.authorId repo.liveFiles)) := by
    intro views hviews
    rw [Atomic.bind_of_ok (applyHistoryRewrites_run _ _)]
    exact finishReviewedConfig_fails_iff (Ne.symm hsame) hviews
  constructor
  · rintro h ⟨-, ⟨views, hviews⟩, ⟨hisland, hhistory⟩ | ⟨hisland, hauthor⟩⟩
    · exact hhistory (((hstep views hviews).mp (h views hviews)).1 hisland)
    · exact ((hstep views hviews).mp (h views hviews)).2 hisland hauthor
  · intro h views hviews
    refine (hstep views hviews).mpr ⟨fun hisland => ?_, fun hisland hauthor => ?_⟩
    · by_contra hhistory
      exact h ⟨Ne.symm hsame, ⟨views, hviews⟩, .inl ⟨hisland, hhistory⟩⟩
    · exact h ⟨Ne.symm hsame, ⟨views, hviews⟩, .inr ⟨hisland, hauthor⟩⟩

/-! ## A rejected configuration that rewrote the history -/

namespace PublishedDocs

def docs : ScopePath := ⟨"/docs", rfl⟩

def guide : ScopePath := ⟨"/docs/guide.md", rfl⟩

def blob : SourceBlob := ⟨.blobSha256 "sha", "sha", "oid", "100644", 5⟩

def configWith (rules : List RepoConfigFileRule) (rewrites : List HistoryRewriteRequest) :
    RepoConfig where
  kind := repoConfigKind
  version := repoConfigVersion
  views := .builtin
  files := ⟨.publicView, rules⟩
  history := ⟨rewrites⟩

def firstPush : LogicalCommit where
  occurredAtUnix := some 100
  id := "rv_push_1"
  origin := .canonicalPush "1"
  authorId := "owner"
  message := "first push"
  changes := [⟨docs, none, some blob, .publicView⟩, ⟨guide, none, some blob, .publicView⟩]

/-- A repository whose first push published a file and a file below it. -/
def repository : Repository where
  record := ⟨.ready, 2, 2⟩
  repoConfig := configWith [] []
  firstPushToken := none
  policy := ⟨.publicView, .ofList [(docs, .publicView), (guide, .publicView)]⟩
  graph := ⟨"owner/repo", [firstPush]⟩
  visibilityChangeSets := []
  liveFiles := .ofList [(docs, blob), (guide, blob)]
  gitHead := some ⟨"1", 1, 2, "frontier"⟩
  collaboration := ⟨[]⟩

/-- A configuration that makes the upper file private and redacts the history of the lower one. -/
def update : ReviewedConfigUpdateInput where
  occurredAtUnix := 200
  authorId := "owner"
  config := configWith [⟨"/docs", .privateView⟩] [⟨"/docs/guide.md", .redactPublicHistory⟩]
  openRequestsByView := ∅

theorem hasPublicIsland : update.config.HasPublicIsland repository.liveFiles.keys :=
  ⟨guide, by decide +kernel, docs, by decide +kernel, by decide +kernel, by decide +kernel,
    by decide +kernel, by decide +kernel⟩

theorem not_keepsHistory : ¬repository.KeepsHistory
    (update.config.historyRewritesAddedSince (some repository.repoConfig)) := by
  intro h
  have hkept := h.commits firstPush (List.mem_singleton_self _)
    ⟨guide, none, some blob, .publicView⟩ (by decide +kernel) rfl
  exact absurd hkept (by decide +kernel)

theorem tears : update.Tears repository :=
  ⟨by decide +kernel, ⟨none, rfl⟩, .inl ⟨hasPublicIsland, not_keepsHistory⟩⟩

end PublishedDocs

end ScopeVcs

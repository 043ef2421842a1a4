import ScopeVcs.History.Runs
import ScopeVcs.ReviewedUpdates.IncrementalProjection
import ScopeVcs.ReviewedUpdates.Rewriting

/-! # What a repository records of its files

A commit lists only changes that make a difference to the live files, and a change set names what its
commit writes. Every update numbers its change set anew, so the ids of the change sets differ until
the change version saturates.
-/

namespace ScopeVcs

open Mutation

/-! ## Ids of change sets -/

theorem visibilityChangeSetId_inj {version version' : ℕ} :
    visibilityChangeSetId version = visibilityChangeSetId version' ↔ version = version' := by
  refine ⟨fun h => ?_, congrArg visibilityChangeSetId⟩
  have hchars := congrArg String.toList h
  rw [visibilityChangeSetId, visibilityChangeSetId, String.toList_append, String.toList_append,
    List.append_cancel_left_eq] at hchars
  have hdigits := congrArg (fun digits => Nat.ofDigitChars 10 digits 0) hchars
  simpa [Nat.toString_eq_ofList_toDigits] using hdigits

theorem plain_visibilityChangeSetId (version : ℕ) : ':' ∉ (visibilityChangeSetId version).toList := by
  rw [visibilityChangeSetId, String.toList_append, List.mem_append, not_or]
  refine ⟨by decide, fun hmem => ?_⟩
  have hdigit := Nat.isDigit_of_mem_toDigits (by decide) (by decide) (Nat.toList_repr ▸ hmem)
  exact absurd hdigit (by decide)

/-! ## What an update appends -/

section Appended

variable {repo next : Repository} {config : RepoConfig} {fileChanges : List FileChange}
  {rewrites : List HistoryRewriteRequest}

@[simp]
theorem rewritten_record (repo : Repository) (rewrites : List HistoryRewriteRequest) :
    (repo.rewritten rewrites).record = repo.record := by
  unfold Repository.rewritten
  split_ifs <;> rfl

/-- What an update records of the files, after the history that the rewrites leave. -/
structure Repository.AppendsFiles (repo next : Repository) (rewrites : List HistoryRewriteRequest)
    (set? : Option VisibilityChangeSet) (commit? : Option LogicalCommit) : Prop where
  commits : next.graph.commits = (repo.rewritten rewrites).graph.commits ++ commit?.toList
  sets : next.visibilityChangeSets =
    (repo.rewritten rewrites).visibilityChangeSets ++ set?.toList
  liveFiles : next.liveFiles =
    (commit?.toList.flatMap (·.changes)).foldl FileChange.applyTo repo.liveFiles
  differs : ∀ commit ∈ commit?, ∀ written ∈ commit.changes,
    sourceContentMatches (repo.liveFiles.get? written.path) written.newContent = false
  content : ∀ set ∈ set?, ∀ commit ∈ commit?, ∀ change ∈ set.changes,
    ∀ written ∈ commit.changes, written.path = change.path →
      change.currentContent = written.newContent
  source : ∀ set ∈ set?, set.sourceUpdateId = commit?.map (·.id)
  ids : ∀ set ∈ set?,
    set.id = visibilityChangeSetId (U64.saturatingAdd repo.record.changeVersion 1)
  version : next.record.changeVersion = U64.saturatingAdd repo.record.changeVersion 1 ∨
    set? = none ∧ next.record.changeVersion = repo.record.changeVersion

/-- A change of a file makes a difference. -/
theorem differs_of_mem_buildFileChanges {live : LiveFiles} {policy : Policy}
    {changes : List ReviewedContentChange} {visibility : WrittenFileVisibility} {written : FileChange}
    (h : written ∈ buildFileChanges live policy config changes visibility) :
    sourceContentMatches (live.get? written.path) written.newContent = false := by
  obtain ⟨change, -, hchange⟩ := List.mem_filterMap.mp h
  dsimp only at hchange
  split_ifs at hchange with hsame
  cases hchange
  exact Bool.not_eq_true _ ▸ hsame

theorem appendsFiles_withAccepted {update : ReviewedUpdateInput} {allowUnchangedTree : Bool}
    {origin : LogicalCommitOrigin} {accepted : AcceptedContentPush}
    (h : acceptContentUpdate repo.contentPushState update allowUnchangedTree origin =
      .ok accepted) :
    repo.AppendsFiles (repo.withAccepted accepted) [] none (some accepted.logicalCommit) where
  commits := rfl
  sets := (List.append_nil _).symm
  liveFiles := by
    rw [Option.toList_some, List.flatMap_singleton]
    rfl
  differs := by
    rintro commit ⟨⟩ written hwritten
    rw [(acceptContentUpdate_eq_ok h).2.1] at hwritten
    exact differs_of_mem_buildFileChanges hwritten
  content := by simp
  source := by simp
  ids := by simp
  version := by
    unfold acceptContentUpdate at h
    obtain ⟨-, h⟩ := except_unit_bind_eq_ok.mp h
    obtain ⟨-, h⟩ := except_unit_bind_eq_ok.mp h
    obtain ⟨-, h⟩ := except_unit_bind_eq_ok.mp h
    obtain ⟨-, h⟩ := except_unit_bind_eq_ok.mp h
    obtain ⟨-, h⟩ := except_unit_bind_eq_ok.mp h
    obtain ⟨policy, -, h⟩ := except_bind_eq_ok.mp h
    cases h
    exact .inl rfl

/-- A change of visibility at a written path records what is written. -/
theorem content_of_recorded (hnodup : (fileChanges.map (·.path)).Nodup)
    {unpublished : ScopePath → Bool} {change : VisibilityChange}
    (hchange : change ∈ repo.recorded (rewriteOf repo config rewrites fileChanges) unpublished
      (fileChanges.foldl FileChange.applyTo repo.liveFiles))
    {written : FileChange} (hwritten : written ∈ fileChanges) (hpath : written.path = change.path) :
    change.currentContent = written.newContent := by
  rcases List.mem_append.mp hchange with hbaseline | hrelabel
  · obtain ⟨hunwritten, -⟩ := mem_baselineChanges.mp hbaseline
    exact absurd (hpath ▸ List.mem_map_of_mem hwritten) hunwritten
  · obtain ⟨-, -, -, -, -, content, hnext, hcontent⟩ := mem_relabels.mp hrelabel
    rw [← hpath, get?_written_of_mem hnodup hwritten] at hnext
    rw [hcontent, hnext]

theorem recordVisibilityChanges_set? {occurredAtUnix : Option ℤ}
    {afterCommitId sourceUpdateId : Option String} {authorId : String}
    {changes : List VisibilityChange} {views : Option ViewsTransition} {u : Unit}
    (h : (recordVisibilityChanges occurredAtUnix afterCommitId sourceUpdateId authorId changes
      views).run repo = .ok u next) :
    ∃ set? : Option VisibilityChangeSet,
      next = { repo with visibilityChangeSets := repo.visibilityChangeSets ++ set?.toList } ∧
      ∀ set ∈ set?, set.changes = changes ∧ set.sourceUpdateId = sourceUpdateId ∧
        set.id = visibilityChangeSetId (U64.saturatingAdd repo.record.changeVersion 1) := by
  unfold recordVisibilityChanges at h
  split_ifs at h
  · obtain ⟨set, hset, h⟩ := check_bind_eq_ok.mp h
    obtain rfl := modify_eq_ok.mp h
    obtain rfl := VisibilityChangeSet.eq_of_new (mapError_eq_ok.mp hset)
    refine ⟨some _, rfl, ?_⟩
    rintro set ⟨⟩
    exact ⟨rfl, rfl, rfl⟩
  · obtain ⟨-, rfl⟩ := pure_eq_ok.mp h
    exact ⟨none, by simp, by simp⟩

theorem applyReviewedUpdateToRepo_appendsFiles {update : ReviewedUpdateInput} {pack : GitPoolPack}
    (hpaths : (update.changes.map (·.path)).Nodup)
    (h : (applyReviewedUpdateToRepo update).run repo = .ok pack next) :
    ∃ set? commit?,
      repo.AppendsFiles next ((RepositoryUpdate.push update).rewrites repo) set? commit? := by
  unfold applyReviewedUpdateToRepo at h
  obtain ⟨-, h⟩ := check_unit_bind_eq_ok.mp h
  obtain ⟨-, h⟩ := check_unit_bind_eq_ok.mp h
  rw [get_bind_eq_ok] at h
  rw [RepositoryUpdate.rewrites]
  split_ifs at h ⊢ with hsame
  · obtain ⟨accepted, haccepted, h⟩ := check_bind_eq_ok.mp h
    obtain ⟨-, rfl⟩ := modify_pure_eq_ok.mp h
    exact ⟨none, _, appendsFiles_withAccepted haccepted⟩
  · obtain ⟨views, -, h⟩ := check_bind_eq_ok.mp h
    obtain ⟨-, h⟩ := check_unit_bind_eq_ok.mp h
    obtain ⟨rewrite, base, hrewrite, h⟩ := bind_eq_ok.mp h
    rw [applyHistoryRewrites_run] at hrewrite
    cases hrewrite
    set rewrites := update.config.historyRewritesAddedSince update.previousConfig with hrewrites
    unfold finishReviewedUpdate at h
    rw [get_bind_eq_ok] at h
    obtain ⟨policy, -, h⟩ := check_bind_eq_ok.mp h
    obtain ⟨u, recorded, hrecorded, h⟩ := bind_eq_ok.mp h
    obtain ⟨-, rfl⟩ := modify_pure_eq_ok.mp h
    obtain ⟨set?, rfl, hset⟩ := recordVisibilityChanges_set? hrecorded
    rw [rewritten_relabels, rewritten_record] at hset
    have hnodup : ((update.fileChanges repo).map (·.path)).Nodup := buildFileChanges_paths_nodup hpaths
    exact ⟨set?, some _, {
      commits := rfl
      sets := rfl
      liveFiles := by
        rw [Option.toList_some, List.flatMap_singleton]
        exact (foldl_hideDeleted (repo.redactedPaths rewrites) _ repo.liveFiles).symm
      differs := by
        rintro commit ⟨⟩ written' hwritten'
        obtain ⟨written, hwritten, rfl⟩ := List.mem_map.mp hwritten'
        have hdiffers := differs_of_mem_buildFileChanges hwritten
        rwa [← written.hideDeleted_path (repo.redactedPaths rewrites),
          ← written.hideDeleted_newContent (repo.redactedPaths rewrites)] at hdiffers
      content := by
        rintro set hmem commit ⟨⟩ change hchange written' hwritten' hpath
        obtain ⟨written, hwritten, rfl⟩ := List.mem_map.mp hwritten'
        rw [(hset set hmem).1] at hchange
        have hsame : (written.hideDeleted (repo.redactedPaths rewrites)).path = change.path := hpath
        rw [FileChange.hideDeleted_path] at hsame
        refine (content_of_recorded hnodup hchange hwritten hsame).trans ?_
        exact (written.hideDeleted_newContent (repo.redactedPaths rewrites)).symm
      source := fun set hmem => (hset set hmem).2.1
      ids := fun set hmem => (hset set hmem).2.2
      version := by
        left
        show U64.saturatingAdd (repo.rewritten rewrites).record.changeVersion 1 = _
        rw [rewritten_record] }⟩

theorem applyReviewedConfigToRepo_appendsFiles {update : ReviewedConfigUpdateInput} {changed : Bool}
    (h : (applyReviewedConfigToRepo update).run repo = .ok changed next) :
    ∃ set? commit?,
      repo.AppendsFiles next ((RepositoryUpdate.configure update).rewrites repo) set? commit? := by
  unfold applyReviewedConfigToRepo at h
  rw [get_bind_eq_ok] at h
  rw [RepositoryUpdate.rewrites]
  split_ifs at h ⊢ with hsame
  · obtain ⟨-, rfl⟩ := pure_eq_ok.mp h
    exact ⟨none, none, (List.append_nil _).symm, (List.append_nil _).symm, rfl, by simp, by simp,
      by simp, by simp, .inr ⟨rfl, rfl⟩⟩
  · obtain ⟨views, -, h⟩ := check_bind_eq_ok.mp h
    obtain ⟨rewrite, base, hrewrite, h⟩ := bind_eq_ok.mp h
    rw [applyHistoryRewrites_run] at hrewrite
    cases hrewrite
    set rewrites := update.config.historyRewritesAddedSince (some repo.repoConfig)
    unfold finishReviewedConfig recordReviewedConfig at h
    rw [get_bind_eq_ok] at h
    obtain ⟨policy, -, h⟩ := check_bind_eq_ok.mp h
    rw [modify_bind_eq_ok] at h
    obtain ⟨u, recorded, hrecorded, h⟩ := bind_eq_ok.mp h
    obtain ⟨-, rfl⟩ := modify_pure_eq_ok.mp h
    obtain ⟨set?, rfl, hset⟩ := recordVisibilityChanges_set? hrecorded
    refine ⟨set?, none, (List.append_nil _).symm, rfl, rewritten_liveFiles repo rewrites, by simp,
      by simp, fun set hmem => (hset set hmem).2.1, fun set hmem => ?_, .inl ?_⟩
    · exact rewritten_record repo rewrites ▸ (hset set hmem).2.2
    · show U64.saturatingAdd (repo.rewritten rewrites).record.changeVersion 1 = _
      rw [rewritten_record]

/-- Every update records what it does to the files. -/
theorem RepositoryUpdate.Applies.exists_appendsFiles {update : RepositoryUpdate}
    (h : update.Applies repo next) (hpaths : update.paths.Nodup) :
    ∃ set? commit?, repo.AppendsFiles next (update.rewrites repo) set? commit? := by
  cases update with
  | push update =>
    obtain ⟨pack, happlied⟩ := h
    exact applyReviewedUpdateToRepo_appendsFiles hpaths happlied
  | merge update origin =>
    obtain ⟨pack, happlied⟩ := h
    obtain ⟨accepted, haccepted, happlied⟩ := check_bind_eq_ok.mp happlied
    obtain ⟨-, rfl⟩ := modify_pure_eq_ok.mp happlied
    exact ⟨none, _, appendsFiles_withAccepted haccepted⟩
  | configure update =>
    obtain ⟨changed, happlied⟩ := h
    exact applyReviewedConfigToRepo_appendsFiles happlied

end Appended

/-! ## Redacted histories -/

section Redacted

variable {live : LiveFiles} {commits : List LogicalCommit} {sets : List VisibilityChangeSet}
  (rewrites : List HistoryRewriteRequest)

theorem foldl_redactedChanges (invalidated : Bool) (commit : LogicalCommit) (live : LiveFiles) :
    (commit.redact rewrites invalidated).changes.foldl FileChange.applyTo live =
      commit.changes.foldl FileChange.applyTo live := by
  rw [LogicalCommit.redact, List.foldl_map]
  congr 1
  funext tree change
  rw [FileChange.redact_eq]
  rfl

theorem foldl_redactedCommits (live : LiveFiles) (invalidated : ℕ → Bool) :
    ((commits.mapIdx fun index commit => commit.redact rewrites (invalidated index)).flatMap
        (·.changes)).foldl FileChange.applyTo live =
      (commits.flatMap (·.changes)).foldl FileChange.applyTo live := by
  induction commits generalizing live invalidated with
  | nil => rfl
  | cons commit commits ih =>
    rw [List.mapIdx_cons, List.flatMap_cons, List.flatMap_cons, List.foldl_append,
      List.foldl_append, foldl_redactedChanges]
    exact ih _ fun index => invalidated (index + 1)

theorem ChangesFiles.redact (h : ChangesFiles live commits) (invalidated : ℕ → Bool) :
    ChangesFiles live
      (commits.mapIdx fun index commit => commit.redact rewrites (invalidated index)) := by
  induction commits generalizing live invalidated with
  | nil => trivial
  | cons commit commits ih =>
    rw [List.mapIdx_cons]
    refine ⟨fun change hchange => ?_, ?_⟩
    · obtain ⟨written, hwritten, rfl⟩ := LogicalCommit.mem_redact_changes.mp hchange
      exact h.1 written hwritten
    · rw [foldl_redactedChanges]
      exact ih h.2 fun index => invalidated (index + 1)

/-- A redaction leaves what is recorded of the files. -/
theorem RecordsFiles.redact (h : RecordsFiles live commits sets) (invalidated : ℕ → Bool) :
    RecordsFiles live
      (commits.mapIdx fun index commit => commit.redact rewrites (invalidated index))
      ((sets.map (·.redact rewrites)).filter (·.recordsSomething)) where
  changes := h.changes.redact rewrites invalidated
  content := by
    intro set hset commit hcommit hsource change hchange written hwritten hpath
    obtain ⟨original, horiginal, rfl⟩ := List.mem_map.mp (List.mem_filter.mp hset).1
    obtain ⟨index, hindex, rfl⟩ := List.mem_mapIdx.mp hcommit
    obtain ⟨source, hmem, rfl⟩ := LogicalCommit.mem_redact_changes.mp hwritten
    exact h.content original horiginal commits[index] (List.getElem_mem hindex) hsource change
      (List.mem_filter.mp hchange).1 source hmem hpath
  ids_nodup := by
    refine (List.filter_sublist.map _).nodup ?_
    rw [List.map_map]
    exact h.ids_nodup
  plainIds := by
    intro set hset
    obtain ⟨original, horiginal, rfl⟩ := List.mem_map.mp (List.mem_filter.mp hset).1
    exact h.plainIds original horiginal

variable (repo : Repository)

theorem RecordsFiles.rewritten (h : RecordsFiles live repo.graph.commits repo.visibilityChangeSets) :
    RecordsFiles live (repo.rewritten rewrites).graph.commits
      (repo.rewritten rewrites).visibilityChangeSets := by
  unfold Repository.rewritten
  split_ifs
  · exact h
  · exact h.redact rewrites _

theorem foldl_rewrittenCommits (live : LiveFiles) :
    ((repo.rewritten rewrites).graph.commits.flatMap (·.changes)).foldl FileChange.applyTo live =
      (repo.graph.commits.flatMap (·.changes)).foldl FileChange.applyTo live := by
  unfold Repository.rewritten
  split_ifs
  · rfl
  · exact foldl_redactedCommits rewrites live _

theorem rewritten_setIds : ∀ set ∈ (repo.rewritten rewrites).visibilityChangeSets,
    ∃ original ∈ repo.visibilityChangeSets, original.id = set.id := by
  unfold Repository.rewritten
  split_ifs
  · exact fun set hset => ⟨set, hset, rfl⟩
  · intro set hset
    obtain ⟨original, horiginal, rfl⟩ := List.mem_map.mp (List.mem_filter.mp hset).1
    exact ⟨original, horiginal, rfl⟩

end Redacted

/-! ## Runs -/

namespace PushedRepository

/-- What the history records of the files: they are what the commits write, and while the change
version has not saturated, the change sets have ids of their own. -/
structure Recorded (repo : Repository) : Prop where
  bounded : repo.record.changeVersion ≤ U64.maxU64
  files : repo.liveFiles =
    (repo.graph.commits.flatMap (·.changes)).foldl FileChange.applyTo ∅
  versions : ∀ set ∈ repo.visibilityChangeSets, ∃ version ≤ repo.record.changeVersion,
    set.id = visibilityChangeSetId version
  records : repo.record.changeVersion < U64.maxU64 →
    RecordsFiles ∅ repo.graph.commits repo.visibilityChangeSets

section Update

variable {repo last : Repository} {rewrites : List HistoryRewriteRequest} {first first' : Views}
  {tree tree' : LabelledTree} {views views' : Views} {set? : Option VisibilityChangeSet}
  {commit? : Option LogicalCommit}

/-- An update keeps what the change sets record of their commits. -/
theorem content_of_appendsFiles (h : RecordsFiles ∅ repo.graph.commits repo.visibilityChangeSets)
    (appends : repo.AppendsFiles last rewrites set? commit?)
    (run : HistoryRun none ∅ first (repo.rewritten rewrites).graph.commits
      (repo.rewritten rewrites).visibilityChangeSets tree views)
    (hnodup : (last.graph.commits.map (·.id)).Nodup) :
    ∀ set ∈ last.visibilityChangeSets, ∀ commit ∈ last.graph.commits,
      set.sourceUpdateId = some commit.id → ∀ change ∈ set.changes, ∀ written ∈ commit.changes,
        written.path = change.path → change.currentContent = written.newContent := by
  intro set hset commit hcommit hsource
  rw [appends.sets] at hset
  have hsame : ∀ other ∈ last.graph.commits, other.id = commit.id → other = commit :=
    fun other hother => List.inj_on_of_nodup_map hnodup hother hcommit
  rcases List.mem_append.mp hset with hset | hset
  · rcases run.source set hset with hnone | ⟨source, hmem, hid⟩
    · rw [hnone] at hsource
      cases hsource
    · have hlast : source ∈ last.graph.commits := appends.commits ▸ List.mem_append_left _ hmem
      obtain rfl := hsame source hlast (Option.some_inj.mp (hid.symm.trans hsource))
      exact (h.rewritten rewrites repo).content set hset source hmem hid
  · have hown := appends.source set (Option.mem_toList.mp hset)
    rw [hsource] at hown
    obtain ⟨source, hmem, hid⟩ := Option.map_eq_some_iff.mp hown.symm
    have hlast : source ∈ last.graph.commits := by
      rw [appends.commits]
      exact List.mem_append_right _ (Option.mem_toList.mpr hmem)
    obtain rfl := hsame source hlast hid
    exact appends.content set (Option.mem_toList.mp hset) source hmem

/-- A change set of an update gets an id that no change set before it has. -/
theorem fresh_id (h : Recorded repo) (appends : repo.AppendsFiles last rewrites set? commit?)
    (hlt : last.record.changeVersion < U64.maxU64) :
    ∀ set ∈ set?, ∀ other ∈ (repo.rewritten rewrites).visibilityChangeSets, other.id ≠ set.id := by
  intro set hset other hother heq
  obtain ⟨original, horiginal, hid⟩ := rewritten_setIds rewrites repo other hother
  obtain ⟨version, hle, hversion⟩ := h.versions original horiginal
  rw [← hid, appends.ids set hset, hversion, visibilityChangeSetId_inj] at heq
  rcases appends.version with hnext | ⟨hnone, -⟩
  · rw [hnext] at hlt
    rw [U64.saturatingAdd_of_lt hlt] at heq
    omega
  · rw [hnone] at hset
    cases hset

theorem Recorded.version_le (h : Recorded repo)
    (appends : repo.AppendsFiles last rewrites set? commit?) :
    repo.record.changeVersion ≤ last.record.changeVersion := by
  rcases appends.version with hversion | ⟨-, hversion⟩
  · exact hversion ▸ le_min (Nat.le_succ _) h.bounded
  · exact hversion.ge

theorem Recorded.update (h : Recorded repo) (appends : repo.AppendsFiles last rewrites set? commit?)
    (run : HistoryRun none ∅ first (repo.rewritten rewrites).graph.commits
      (repo.rewritten rewrites).visibilityChangeSets tree views)
    (hnodup : (last.graph.commits.map (·.id)).Nodup) : Recorded last where
  bounded := by
    rcases appends.version with hversion | ⟨-, hversion⟩
    · exact hversion ▸ U64.saturatingAdd_le_max _ _
    · exact hversion ▸ h.bounded
  files := by
    rw [appends.liveFiles, h.files, appends.commits, List.flatMap_append, List.foldl_append,
      foldl_rewrittenCommits]
  versions := by
    intro set hset
    rw [appends.sets] at hset
    rcases List.mem_append.mp hset with hset | hset
    · obtain ⟨original, horiginal, hid⟩ := rewritten_setIds rewrites repo set hset
      obtain ⟨version, hversion, heq⟩ := h.versions original horiginal
      exact ⟨version, hversion.trans (h.version_le appends), hid ▸ heq⟩
    · refine ⟨_, ?_, appends.ids set (Option.mem_toList.mp hset)⟩
      rcases appends.version with hversion | ⟨hnone, -⟩
      · exact hversion.ge
      · rw [hnone] at hset
        cases hset
  records := by
    intro hlt
    have hbefore : repo.record.changeVersion < U64.maxU64 := by
      rcases appends.version with hversion | ⟨-, hversion⟩
      · rw [hversion] at hlt
        rw [U64.saturatingAdd_of_lt hlt] at hlt
        omega
      · exact hversion ▸ hlt
    have hrecords := (h.records hbefore).rewritten rewrites repo
    refine ⟨?_, content_of_appendsFiles (h.records hbefore) appends run hnodup, ?_, ?_⟩
    · rw [appends.commits, changesFiles_append, foldl_rewrittenCommits, ← h.files]
      refine ⟨hrecords.changes, ?_⟩
      cases commit? with
      | none => trivial
      | some commit => exact ⟨appends.differs commit rfl, trivial⟩
    · rw [appends.sets, List.map_append, List.nodup_append']
      refine ⟨hrecords.ids_nodup, by cases set? <;> simp, List.disjoint_left.mpr fun id hid hnew => ?_⟩
      obtain ⟨other, hother, rfl⟩ := List.mem_map.mp hid
      obtain ⟨set, hset, heq⟩ := List.mem_map.mp hnew
      exact fresh_id h appends hlt set (Option.mem_toList.mp hset) other hother heq.symm
    · rw [appends.sets]
      intro set hset
      rcases List.mem_append.mp hset with hset | hset
      · exact hrecords.plainIds set hset
      · rw [appends.ids set (Option.mem_toList.mp hset)]
        exact plain_visibilityChangeSetId _

end Update

variable {plain : ScopePath → Prop} {state next : PushedRepository}

theorem Created.recorded (h : Created state) : Recorded state.repo := by
  obtain ⟨hcommits, hsets, hfiles⟩ := h.eq_new
  refine ⟨?_, ?_, ?_, fun _ => ?_⟩
  · obtain ⟨⟨owner, name, default, incarnation, hnew⟩, -⟩ := h
    unfold Repository.new at hnew
    obtain ⟨name', -, hnew⟩ := except_bind_eq_ok.mp hnew
    obtain ⟨-, hnew⟩ := except_unit_bind_eq_ok.mp hnew
    obtain ⟨-, hnew⟩ := except_unit_bind_eq_ok.mp hnew
    obtain ⟨-, hnew⟩ := except_unit_bind_eq_ok.mp hnew
    rw [← Except.ok.inj hnew]
    exact (by decide : 1 ≤ U64.maxU64)
  · rw [hcommits, hfiles]
    rfl
  · rw [hsets]
    exact fun set hset => absurd hset List.not_mem_nil
  · rw [hcommits, hsets]
    exact ⟨trivial, by simp, List.nodup_nil, by simp⟩

/-- Plain updates with rewrites keep what the history records. -/
theorem recorded_of_rewriting (h : Transition.Reachable Created (RewritingStep plain) state) :
    Recorded state.repo := by
  suffices hboth : Tracked plain state ∧ Recorded state.repo from hboth.2
  refine Transition.Reachable.invariant (fun state => Tracked plain state ∧ Recorded state.repo) h
    (fun _ hcreated => ⟨hcreated.tracked, hcreated.recorded⟩) ?_
  rintro before after - ⟨htracked, hrecorded⟩ ⟨update, hupdate⟩
  have hnext := htracked.step hupdate
  obtain ⟨first, run⟩ := htracked.run
  obtain ⟨first', run'⟩ := hnext.run
  obtain ⟨set?, commit?, happends⟩ := hupdate.applies.exists_appendsFiles hupdate.paths_nodup
  obtain ⟨hrewritten, -⟩ := run.rewritten htracked.labels fun path => hupdate.matched
  exact ⟨hnext, hrecorded.update happends hrewritten run'.ids_nodup⟩

/-- Updates without rewrites keep what the history records. -/
theorem Reachable.recorded (h : Reachable state) : Recorded state.repo := by
  suffices hboth : Reachable state ∧ Recorded state.repo from hboth.2
  refine Transition.Reachable.invariant (fun state => Reachable state ∧ Recorded state.repo) h
    (fun _ hcreated => ⟨.of_init hcreated, hcreated.recorded⟩) ?_
  rintro before after - ⟨hreachable, hrecorded⟩ hstep
  have hnext := hreachable.tail hstep
  obtain ⟨update, hrewrites, hpaths, -, happlies, -⟩ := hstep
  obtain ⟨first, run⟩ := hreachable.exists_run
  obtain ⟨first', run'⟩ := Reachable.exists_run hnext
  obtain ⟨set?, commit?, happends⟩ := happlies.exists_appendsFiles hpaths
  have hnone : update.rewrites before.repo = [] := by
    cases update with
    | push update =>
      rw [RepositoryUpdate.rewrites]
      split_ifs
      · rfl
      · exact List.filter_eq_nil_iff.mpr fun _ h => absurd (hrewrites ▸ h) List.not_mem_nil
    | merge update origin => rfl
    | configure update =>
      rw [RepositoryUpdate.rewrites]
      split_ifs
      · rfl
      · exact List.filter_eq_nil_iff.mpr fun _ h => absurd (hrewrites ▸ h) List.not_mem_nil
  rw [hnone] at happends
  exact ⟨hnext, hrecorded.update happends run run'.ids_nodup⟩

/-- The change version never goes down. -/
theorem Reachable.version_le {last : PushedRepository} (h : Reachable state)
    (hrun : Relation.ReflTransGen Step state last) :
    state.repo.record.changeVersion ≤ last.repo.record.changeVersion := by
  induction hrun with
  | refl => exact le_rfl
  | tail hprev hstep ih =>
    obtain ⟨update, -, hpaths, -, happlies, -⟩ := hstep
    obtain ⟨set?, commit?, happends⟩ := happlies.exists_appendsFiles hpaths
    exact ih.trans ((Reachable.recorded (h.trans hprev)).version_le happends)

end PushedRepository

end ScopeVcs

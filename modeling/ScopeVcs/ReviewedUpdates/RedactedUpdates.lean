import ScopeVcs.ReviewedUpdates.Labels
import ScopeVcs.ReviewedUpdates.RedactedRuns

/-! # Updates that rewrite the history

An update with rewrites redacts the history first and then records what it does to the files as the
redacted history labels them: a redacted file that stays public is recorded anew.
-/

namespace ScopeVcs

open Mutation

/-! ## Patterns and control paths

A pattern that a rule or a rewrite may have matches no path of the control directory. -/

section Patterns

variable {pattern : String} {path : ScopePath}

theorem isRepoControlPattern_eq_base (pattern : String) : isRepoControlPattern pattern =
    (patternBasePath pattern == repoControlRoot ||
      Text.startsWith (patternBasePath pattern) repoControlPrefix) := by
  have hbase : (patternBasePath pattern).toList =
      (Text.stripSuffix? "/**".toList pattern.toList).getD pattern.toList := by
    rw [patternBasePath, folderBase?]
    cases Text.stripSuffix? "/**".toList pattern.toList with
    | none => rfl
    | some base => rw [Option.map_some, Option.getD_some, Option.getD_some, String.toList_ofList]
  have hroot : (patternBasePath pattern == repoControlRoot) =
      ((patternBasePath pattern).toList == repoControlRoot.toList) := by
    rw [Bool.eq_iff_iff, beq_iff_eq, beq_iff_eq, String.toList_inj]
  rw [isRepoControlPattern, ← hbase, hroot]
  rfl

/-- The base of a valid pattern is absolute. -/
theorem head?_patternBasePath (h : validateConfigPattern pattern = .ok ()) :
    (patternBasePath pattern).toList.head? = some '/' := by
  have hparsed : ∃ parsed, validateConfigPath (patternBasePath pattern) = .ok parsed := by
    unfold validateConfigPattern at h
    rw [patternBasePath]
    cases hfolder : folderBase? pattern with
    | none =>
      rw [hfolder] at h
      obtain ⟨parsed, hparsed, -⟩ := except_map_eq_ok.mp h
      exact ⟨parsed, hparsed⟩
    | some base =>
      rw [hfolder] at h
      obtain ⟨parsed, hparsed, -⟩ := except_map_eq_ok.mp h
      exact ⟨parsed, hparsed⟩
  obtain ⟨parsed, hparsed⟩ := hparsed
  unfold validateConfigPath at hparsed
  split at hparsed
  · cases hparsed
  · cases hparsed
  · split_ifs at hparsed with hne
    push Not at hne
    rw [← hne.1]
    exact ScopePath.absolute _

/-- A folder that contains a control path is the control directory or in it. -/
theorem control_of_leading {base : List Char} (habsolute : base.head? = some '/') {rest : List Char}
    (hpath : path.asStr.toList = base ++ '/' :: rest) (hcontrol : isRepoControlPath path = true) :
    base = repoControlRoot.toList ∨ repoControlPrefix.toList <+: base := by
  obtain ⟨tail, htail, heq⟩ : ∃ tail : List Char, tail.head?.all (· == '/') = true ∧
      base ++ '/' :: rest = repoControlRoot.toList ++ tail := by
    rw [isRepoControlPath, Bool.or_eq_true, beq_iff_eq, Text.startsWith,
      List.isPrefixOf_iff_prefix] at hcontrol
    rcases hcontrol with hroot | ⟨tail, htail⟩
    · exact ⟨[], rfl, by rw [← hpath, hroot, List.append_nil]⟩
    · exact ⟨'/' :: tail, rfl, by rw [← hpath, ← htail]; rfl⟩
  rcases List.append_eq_append_iff.mp heq with ⟨gap, hroot, hgap⟩ | ⟨gap, hbase, hgap⟩
  · cases gap with
    | nil => exact .inl (by rw [hroot, List.append_nil])
    | cons c gap =>
      -- the control directory has a single component
      obtain rfl : '/' = c := (List.cons.inj hgap).1
      cases base with
      | nil => cases habsolute
      | cons b base =>
        have hmem : '/' ∈ repoControlRoot.toList.tail := by
          rw [hroot]
          exact List.mem_append_right base List.mem_cons_self
        exact absurd hmem (by decide)
  · cases gap with
    | nil => exact .inl (by rw [hbase, List.append_nil])
    | cons c gap =>
      rw [hgap] at htail
      obtain rfl : c = '/' := by simpa using htail
      exact .inr ⟨gap, by rw [hbase]; rfl⟩

theorem not_patternMatchesPath (h : RepoConfig.validateUnreserved pattern = .ok ())
    (hcontrol : isRepoControlPath path = true) : patternMatchesPath pattern path.asStr = false := by
  obtain ⟨hvalid, hreserved⟩ := except_unit_bind_eq_ok.mp h
  have hbase : ¬(patternBasePath pattern = repoControlRoot ∨
      repoControlPrefix.toList <+: (patternBasePath pattern).toList) := by
    have hpattern := rejectIf_eq_ok.mp hreserved
    rwa [isRepoControlPattern_eq_base, Bool.or_eq_true, beq_iff_eq, Text.startsWith,
      List.isPrefixOf_iff_prefix] at hpattern
  have hself : path.asStr ≠ patternBasePath pattern := by
    intro heq
    rw [isRepoControlPath, Bool.or_eq_true, beq_iff_eq, Text.startsWith,
      List.isPrefixOf_iff_prefix, heq] at hcontrol
    exact hbase hcontrol
  have habsolute := head?_patternBasePath hvalid
  rw [patternBasePath] at hbase hself habsolute
  rw [patternMatchesPath]
  cases hfolder : folderBase? pattern with
  | none =>
    rw [hfolder] at hself
    exact beq_eq_false_iff_ne.mpr hself
  | some base =>
    rw [hfolder, Option.getD_some] at hbase hself habsolute
    dsimp only
    rw [Bool.or_eq_false_iff]
    refine ⟨beq_eq_false_iff_ne.mpr hself, ?_⟩
    rw [← Bool.not_eq_true, Option.any_eq_true]
    rintro ⟨tail, htail, hslash⟩
    obtain ⟨rest, rfl⟩ : ∃ rest, tail = '/' :: rest := by
      cases tail with
      | nil => cases hslash
      | cons c rest => exact ⟨rest, by rw [show c = '/' by simpa using hslash]⟩
    have hpath := Text.stripPrefix?_eq_some.mp (Option.mem_def.mp htail)
    refine hbase ((control_of_leading habsolute hpath hcontrol).imp_left fun heq => ?_)
    exact String.toList_inj.mp heq

/-- The rewrites of a valid configuration leave the control directory alone. -/
theorem not_shouldRedact_of_control {config : RepoConfig} (h : config.validate = .ok ())
    {rewrites : List HistoryRewriteRequest}
    (hrewrites : ∀ rewrite ∈ rewrites, rewrite ∈ config.history.rewrites)
    (hcontrol : isRepoControlPath path = true) : shouldRedact rewrites path = false := by
  unfold RepoConfig.validate at h
  obtain ⟨-, h⟩ := except_unit_bind_eq_ok.mp h
  obtain ⟨-, h⟩ := except_unit_bind_eq_ok.mp h
  obtain ⟨-, h⟩ := except_unit_bind_eq_ok.mp h
  obtain ⟨-, h⟩ := except_unit_bind_eq_ok.mp h
  rw [shouldRedact, List.any_eq_false]
  intro rewrite hrewrite
  have hmatches := not_patternMatchesPath
    (except_forM_eq_ok h rewrite (hrewrites rewrite hrewrite)) hcontrol
  rw [HistoryRewriteRequest.matchesPath, hmatches, Bool.and_false]
  exact Bool.false_ne_true

end Patterns

/-! ## Files of an update with rewrites -/

section Files

variable {repo : Repository} {config : RepoConfig} {rewrites : List HistoryRewriteRequest}
  {plain : ScopePath → Prop} {fileChanges : List FileChange} {unpublished : ScopePath → Bool}

theorem FileChange.hideDeleted_path (redactedPaths : SortedSet ScopePath) (change : FileChange) :
    (change.hideDeleted redactedPaths).path = change.path := by
  unfold hideDeleted
  split_ifs <;> rfl

theorem FileChange.hideDeleted_newContent (redactedPaths : SortedSet ScopePath)
    (change : FileChange) : (change.hideDeleted redactedPaths).newContent = change.newContent := by
  unfold hideDeleted
  split_ifs <;> rfl

theorem FileChange.hideDeleted_of_kept {redactedPaths : SortedSet ScopePath} {change : FileChange}
    (h : change.newContent ≠ none) : change.hideDeleted redactedPaths = change := by
  unfold hideDeleted
  rw [if_neg]
  simp [h]

theorem map_hideDeleted_paths (redactedPaths : SortedSet ScopePath)
    (fileChanges : List FileChange) :
    (fileChanges.map (·.hideDeleted redactedPaths)).map (·.path) = fileChanges.map (·.path) := by
  rw [List.map_map]
  exact List.map_congr_left fun change _ => change.hideDeleted_path redactedPaths

theorem foldl_hideDeleted (redactedPaths : SortedSet ScopePath) (fileChanges : List FileChange)
    (tree : LiveFiles) :
    (fileChanges.map (·.hideDeleted redactedPaths)).foldl FileChange.applyTo tree =
      fileChanges.foldl FileChange.applyTo tree := by
  rw [List.foldl_map]
  congr 1
  funext tree change
  rw [FileChange.applyTo, FileChange.applyTo, FileChange.hideDeleted_path,
    FileChange.hideDeleted_newContent]

/-- The files that an update with rewrites writes. Paths that the rewrites match are plain, the
configuration labels plain paths public or private, and every public file has been published. -/
structure RewritesFiles (repo : Repository) (config : RepoConfig)
    (rewrites : List HistoryRewriteRequest) (plain : ScopePath → Prop)
    (fileChanges : List FileChange) (unpublished : ScopePath → Bool) : Prop where
  paths_nodup : (fileChanges.map (·.path)).Nodup
  written : ∀ written ∈ fileChanges, WrittenFromConfig repo config written
  deleted : ∀ written ∈ fileChanges, written.newContent = none → written.oldContent ≠ none
  redacted : ∀ path, path ∈ (repo.redactedPaths rewrites).toList → unpublished path = true
  absent : ∀ path, unpublished path = true →
    path ∈ (repo.redactedPaths rewrites).toList ∨ repo.liveFiles.get? path = none
  matched : ∀ path, shouldRedact rewrites path = true → plain path
  control : ∀ path, isRepoControlPath path = true → shouldRedact rewrites path = false
  labels : ∀ path, plain path → IsBuiltin (config.labelForPath path)
  files : repo.labelledFiles.Plain plain
  published : ∀ path blob, repo.labelledFiles.get? path = some (blob, .publicView) →
    repo.Publishes path

/-- What the update rewrites. -/
def rewriteOf (repo : Repository) (config : RepoConfig) (rewrites : List HistoryRewriteRequest)
    (fileChanges : List FileChange) : HistoryRewriteInput :=
  ⟨config, rewrites, repo.liveFiles, fileChanges.map (·.path)⟩

namespace RewritesFiles

variable (h : RewritesFiles repo config rewrites plain fileChanges unpublished)

/-- The changes of visibility that the update records. -/
abbrev changes (_ : RewritesFiles repo config rewrites plain fileChanges unpublished) :
    List VisibilityChange :=
  repo.recorded (rewriteOf repo config rewrites fileChanges) unpublished
    (fileChanges.foldl FileChange.applyTo repo.liveFiles)

theorem mem_baseline {change : VisibilityChange} :
    change ∈ repo.baselineChanges (rewriteOf repo config rewrites fileChanges) ↔
      (∀ written ∈ fileChanges, written.path ≠ change.path) ∧
        config.labelForPath change.path = .publicView ∧
        change.path ∈ (repo.redactedPaths rewrites).toList ∧
        change.oldLabel = .privateView ∧ change.newLabel = .publicView ∧
        ∃ content, repo.liveFiles.get? change.path = some content ∧
          change.currentContent = some content := by
  rw [mem_baselineChanges, mem_redactedPaths]
  simp [rewriteOf]

include h

theorem builtin_label {path : ScopePath} {blob : SourceBlob}
    (hlive : repo.liveFiles.get? path = some blob) (hredact : shouldRedact rewrites path = true) :
    IsBuiltin (repo.policy.label path repo.repoConfig.views) :=
  h.files path (blob, _) (by rw [Repository.get?_labelledFiles, hlive]; rfl)
    (h.matched path hredact)

/-- A matched file that is public is redacted. -/
theorem redacted_of_public {path : ScopePath} {blob : SourceBlob}
    (hlive : repo.liveFiles.get? path = some blob) (hredact : shouldRedact rewrites path = true)
    (hpublic : repo.policy.label path repo.repoConfig.views = .publicView) :
    path ∈ (repo.redactedPaths rewrites).toList := by
  refine mem_redactedPaths.mpr ⟨hredact, h.published path blob ?_⟩
  rw [Repository.get?_labelledFiles, hlive, hpublic]
  rfl

/-- The change of a label that the rewrite does not make itself is recorded. -/
theorem exists_change_of_ne {path : ScopePath} {blob content : SourceBlob}
    (hlive : repo.liveFiles.get? path = some blob)
    (hnext : (fileChanges.foldl FileChange.applyTo repo.liveFiles).get? path = some content)
    (hkept : ¬(repo.policy.label path repo.repoConfig.views = .publicView ∧
      shouldRedact rewrites path = true))
    (hne : repo.policy.label path repo.repoConfig.views ≠ config.labelForPath path) :
    ∃ change ∈ h.changes, change.path = path := by
  by_cases hbaseline : path ∈
      (repo.baselineChanges (rewriteOf repo config rewrites fileChanges)).map (·.path)
  · obtain ⟨change, hchange, rfl⟩ := List.mem_map.mp hbaseline
    exact ⟨change, List.mem_append_left _ hchange, rfl⟩
  · refine ⟨⟨path, _, _, some content⟩, List.mem_append_right _ (mem_relabels.mpr
      ⟨rfl, rfl, hne, hbaseline, ?_, content, hnext, rfl⟩), rfl⟩
    rintro ⟨hunpublished, hpublic, -⟩
    rcases h.absent path hunpublished with hredacted | hnone
    · exact hkept ⟨hpublic, (mem_redactedPaths.mp hredacted).1⟩
    · rw [hlive] at hnone
      cases hnone

/-- A redacted file that stays public and is not written is recorded anew. -/
theorem exists_change_of_redacted {path : ScopePath} {blob : SourceBlob}
    (hlive : repo.liveFiles.get? path = some blob)
    (hunwritten : ∀ written ∈ fileChanges, written.path ≠ path)
    (hredacted : path ∈ (repo.redactedPaths rewrites).toList)
    (hpublic : config.labelForPath path = .publicView) : ∃ change ∈ h.changes, change.path = path :=
  ⟨⟨path, .privateView, .publicView, some blob⟩, List.mem_append_left _ (mem_baseline.mpr
    ⟨hunwritten, hpublic, hredacted, rfl, rfl, blob, hlive, rfl⟩), rfl⟩

theorem newLabel {change : VisibilityChange} (hchange : change ∈ h.changes) :
    change.newLabel = config.labelForPath change.path := by
  rcases List.mem_append.mp hchange with hbaseline | hrelabel
  · obtain ⟨-, hpublic, -, -, hnew, -⟩ := mem_baseline.mp hbaseline
    rw [hnew, hpublic]
  · exact (mem_relabels.mp hrelabel).2.1

/-- The label that is recorded as the old one is that of the redacted files. -/
theorem oldLabel {change : VisibilityChange} (hchange : change ∈ h.changes)
    {file : SourceBlob × ViewId}
    (hfile : (repo.labelledFiles.redact rewrites).get? change.path = some file) :
    change.oldLabel = file.2 := by
  rw [LabelledTree.get?_redact, Repository.get?_labelledFiles, Option.map_map] at hfile
  obtain ⟨blob, hlive, rfl⟩ := Option.map_eq_some_iff.mp hfile
  rw [Function.comp_apply]
  rcases List.mem_append.mp hchange with hbaseline | hrelabel
  · obtain ⟨-, -, hredacted, hold, -⟩ := mem_baseline.mp hbaseline
    have hredact := (mem_redactedPaths.mp hredacted).1
    rw [hold, redactLabel_of_builtin (h.builtin_label hlive hredact) hredact]
  · obtain ⟨hold, hnew, hne, -, hshown, -⟩ := mem_relabels.mp hrelabel
    rw [hold, redactLabel, if_neg]
    rintro ⟨hpublic, hredact⟩
    -- the file would become private, which the redaction has done
    have hredacted := h.redacted_of_public hlive hredact hpublic
    rcases h.labels _ (h.matched _ hredact) with hnext | hnext
    · exact hne (hold.trans (hpublic.trans (hnew.trans hnext).symm))
    · exact hshown ⟨h.redacted _ hredacted, hold.trans hpublic, hnew.trans hnext⟩

theorem deleted_label {written : FileChange} (hwritten : written ∈ fileChanges)
    (hnew : written.newContent = none) {file : SourceBlob × ViewId}
    (hfile : (repo.labelledFiles.redact rewrites).get? written.path = some file) :
    file.2 = (written.hideDeleted (repo.redactedPaths rewrites)).label := by
  rw [LabelledTree.get?_redact, Repository.get?_labelledFiles, Option.map_map] at hfile
  obtain ⟨blob, hlive, rfl⟩ := Option.map_eq_some_iff.mp hfile
  have hlabel := (h.written written hwritten).label_of_deleted hnew
  rw [Function.comp_apply, FileChange.hideDeleted, hnew, Option.isNone_none, Bool.true_and]
  by_cases hredacted : written.path ∈ (repo.redactedPaths rewrites).toList
  · have hredact := (mem_redactedPaths.mp hredacted).1
    rw [if_pos (SortedSet.contains_iff_mem_toList.mpr hredacted)]
    exact redactLabel_of_builtin (h.builtin_label hlive hredact) hredact
  · rw [if_neg (mt SortedSet.contains_iff_mem_toList.mp hredacted), hlabel]
    exact if_neg fun hboth => hredacted (h.redacted_of_public hlive hboth.2 hboth.1)

theorem stagesFiles : StagesFiles (repo.labelledFiles.redact rewrites) config
    (fileChanges.map (·.hideDeleted (repo.redactedPaths rewrites))) h.changes where
  paths_nodup := by
    rw [map_hideDeleted_paths]
    exact h.paths_nodup
  relabels_nodup := recorded_paths_nodup
  relabels_outside := by
    intro change hchange
    rcases List.mem_append.mp hchange with hbaseline | hrelabel
    · rw [← Bool.not_eq_true]
      intro hcontrol
      have hredact := (mem_redactedPaths.mp (mem_baseline.mp hbaseline).2.2.1).1
      rw [h.control _ hcontrol] at hredact
      cases hredact
    · exact isRepoControlPath_of_mem_relabels hrelabel
  newLabel := fun change hchange => h.newLabel hchange
  oldLabel := fun change hchange file hfile => .inl (h.oldLabel hchange hfile)
  content := by
    intro change hchange
    have hkept : (∃ written ∈ fileChanges, written.path = change.path ∧ written.newContent ≠ none) ∨
        (∀ written ∈ fileChanges, written.path ≠ change.path) ∧
          ∃ content, repo.liveFiles.get? change.path = some content ∧
            change.currentContent = some content := by
      rcases List.mem_append.mp hchange with hbaseline | hrelabel
      · obtain ⟨hunwritten, -, -, -, -, hcontent⟩ := mem_baseline.mp hbaseline
        exact .inr ⟨hunwritten, hcontent⟩
      · obtain ⟨-, -, -, -, -, content, hnext, hcontent⟩ := mem_relabels.mp hrelabel
        exact (content_of_written h.paths_nodup hnext).imp_right fun ⟨hunwritten, hlive⟩ =>
          ⟨hunwritten, content, hlive, hcontent⟩
    refine hkept.imp ?_ ?_
    · rintro ⟨written, hwritten, hpath, hnew⟩
      exact ⟨_, List.mem_map_of_mem hwritten, by rw [FileChange.hideDeleted_path, hpath],
        by rwa [FileChange.hideDeleted_newContent]⟩
    · rintro ⟨hunwritten, content, hlive, hcontent⟩
      refine ⟨fun written' hwritten' => ?_, (content, redactLabel rewrites change.path
        (repo.policy.label change.path repo.repoConfig.views)), ?_, hcontent⟩
      · obtain ⟨written, hwritten, rfl⟩ := List.mem_map.mp hwritten'
        rw [FileChange.hideDeleted_path]
        exact hunwritten written hwritten
      · rw [LabelledTree.get?_redact, Repository.get?_labelledFiles, hlive]
        rfl
  written := by
    intro written' hwritten' hnew
    obtain ⟨written, hwritten, rfl⟩ := List.mem_map.mp hwritten'
    rw [FileChange.hideDeleted_newContent] at hnew
    rw [FileChange.hideDeleted_of_kept hnew]
    exact (h.written written hwritten).label_of_kept hnew
  deleted := by
    intro written' hwritten' hnew file hfile
    obtain ⟨written, hwritten, rfl⟩ := List.mem_map.mp hwritten'
    rw [FileChange.hideDeleted_newContent] at hnew
    rw [FileChange.hideDeleted_path] at hfile
    exact .inl (h.deleted_label hwritten hnew hfile)
  unnamed := by
    intro path file hfile hkept hunnamed
    rw [LabelledTree.get?_redact, Repository.get?_labelledFiles, Option.map_map] at hfile
    obtain ⟨blob, hlive, rfl⟩ := Option.map_eq_some_iff.mp hfile
    have hkept' : ∀ written ∈ fileChanges, written.path = path → written.newContent ≠ none := by
      intro written hwritten hpath
      rw [← written.hideDeleted_newContent (repo.redactedPaths rewrites)]
      exact hkept _ (List.mem_map_of_mem hwritten) (by rw [FileChange.hideDeleted_path, hpath])
    obtain ⟨content, hnext⟩ := exists_content_of_kept h.paths_nodup hlive hkept'
    rw [Function.comp_apply, redactLabel]
    split_ifs with hboth
    · -- the redaction makes the file private
      by_cases hwritten : ∃ written ∈ fileChanges, written.path = path
      · obtain ⟨written, hwritten, hpath⟩ := hwritten
        exact .inr ⟨rfl, _, List.mem_map_of_mem hwritten, by rw [FileChange.hideDeleted_path, hpath]⟩
      · push Not at hwritten
        rcases h.labels path (h.matched path hboth.2) with hpublic | hprivate
        · obtain ⟨change, hchange, hpath⟩ := h.exists_change_of_redacted hlive hwritten
            (h.redacted_of_public hlive hboth.2 hboth.1) hpublic
          exact absurd hpath (hunnamed change hchange)
        · exact .inl hprivate.symm
    · left
      by_contra hne
      obtain ⟨change, hchange, hpath⟩ := h.exists_change_of_ne hlive hnext hboth hne
      exact hunnamed change hchange hpath

/-- What the update records gives plain paths no other labels than public and private. -/
theorem plainHistory {set? : Option VisibilityChangeSet} {commit? : Option LogicalCommit}
    (hset : ∀ set ∈ set?, set.changes = h.changes)
    (hcommit : ∀ commit ∈ commit?,
      commit.changes = fileChanges.map (·.hideDeleted (repo.redactedPaths rewrites))) :
    PlainHistory plain commit?.toList set?.toList where
  commits := by
    intro commit hmem change hchange hplain
    rw [hcommit commit (Option.mem_toList.mp hmem)] at hchange
    obtain ⟨written, hwritten, rfl⟩ := List.mem_map.mp hchange
    rw [FileChange.hideDeleted_path] at hplain
    by_cases hnew : written.newContent = none
    · obtain ⟨blob, hblob⟩ := Option.ne_none_iff_exists'.mp (h.deleted written hwritten hnew)
      rw [(h.written written hwritten).oldContent] at hblob
      have hlabel : IsBuiltin written.label := by
        rw [(h.written written hwritten).label_of_deleted hnew]
        exact h.files written.path (blob, _) (by rw [Repository.get?_labelledFiles, hblob]; rfl)
          hplain
      unfold FileChange.hideDeleted
      split_ifs
      · exact .inr rfl
      · exact hlabel
    · rw [FileChange.hideDeleted_of_kept hnew, (h.written written hwritten).label_of_kept hnew]
      exact h.labels _ hplain
  sets := by
    intro set hmem change hchange hplain
    rw [hset set (Option.mem_toList.mp hmem)] at hchange
    rw [h.newLabel hchange]
    exact h.labels _ hplain

end RewritesFiles

end Files

end ScopeVcs

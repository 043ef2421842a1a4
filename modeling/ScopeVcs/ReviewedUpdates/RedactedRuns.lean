import ScopeVcs.Projection.History
import ScopeVcs.ReviewedUpdates.HistoryRewrite

/-! # Redacted runs

A rewrite makes the public changes of the redacted paths private and drops their changes of
visibility. What it leaves is again a run of updates, and the redacted files that were public are
private after it, as long as the redacted paths never had another label than these two.
-/

namespace ScopeVcs

variable {rewrites : List HistoryRewriteRequest} {path : ScopePath} {label : ViewId}

/-! ## Labels -/

/-- The label that a redaction leaves. -/
def redactLabel (rewrites : List HistoryRewriteRequest) (path : ScopePath) (label : ViewId) : ViewId :=
  if label = .publicView ∧ shouldRedact rewrites path = true then .privateView else label

/-- The labels that a redaction knows. -/
def IsBuiltin (label : ViewId) : Prop := label = .publicView ∨ label = .privateView

theorem redactLabel_of_builtin (h : IsBuiltin label) (hredact : shouldRedact rewrites path = true) :
    redactLabel rewrites path label = .privateView := by
  rcases h with rfl | rfl
  · exact if_pos ⟨rfl, hredact⟩
  · exact if_neg fun h => ViewId.publicView_ne_privateView h.1.symm

theorem redactLabel_of_not (h : shouldRedact rewrites path = false) (label : ViewId) :
    redactLabel rewrites path label = label :=
  if_neg fun hredact => Bool.false_ne_true (h.symm.trans hredact.2)

@[simp]
theorem redactLabel_privateView (rewrites : List HistoryRewriteRequest) (path : ScopePath) :
    redactLabel rewrites path .privateView = .privateView :=
  if_neg fun h => ViewId.publicView_ne_privateView h.1.symm

theorem FileChange.redact_eq (rewrites : List HistoryRewriteRequest) (change : FileChange) :
    change.redact rewrites =
      { change with label := redactLabel rewrites change.path change.label } := by
  have hiff : change.isRedacted rewrites = true ↔
      change.label = .publicView ∧ shouldRedact rewrites change.path = true := by
    simp [isRedacted]
  rw [redact, redactLabel]
  by_cases hredacted : change.isRedacted rewrites = true
  · rw [if_pos hredacted, if_pos (hiff.mp hredacted)]
  · rw [if_neg hredacted, if_neg (mt hiff.mpr hredacted)]

@[simp]
theorem LogicalCommit.redact_id (rewrites : List HistoryRewriteRequest) (invalidated : Bool)
    (commit : LogicalCommit) : (commit.redact rewrites invalidated).id = commit.id := rfl

theorem LogicalCommit.mem_redact_changes {invalidated : Bool} {commit : LogicalCommit}
    {change : FileChange} : change ∈ (commit.redact rewrites invalidated).changes ↔
      ∃ written ∈ commit.changes,
        { written with label := redactLabel rewrites written.path written.label } = change := by
  simp only [redact, List.mem_map, FileChange.redact_eq]

theorem LogicalCommit.redact_paths (rewrites : List HistoryRewriteRequest) (invalidated : Bool)
    (commit : LogicalCommit) :
    (commit.redact rewrites invalidated).changes.map (·.path) = commit.changes.map (·.path) := by
  rw [redact, List.map_map]
  exact List.map_congr_left fun change _ => by rw [Function.comp_apply, FileChange.redact_eq]

/-! ## Labelled files -/

namespace LabelledTree

def redact (rewrites : List HistoryRewriteRequest) (tree : LabelledTree) : LabelledTree :=
  tree.mapValues fun path file => (file.1, redactLabel rewrites path file.2)

@[simp]
theorem get?_redact (rewrites : List HistoryRewriteRequest) (tree : LabelledTree)
    (path : ScopePath) : (tree.redact rewrites).get? path =
      (tree.get? path).map fun file => (file.1, redactLabel rewrites path file.2) :=
  SortedMap.get?_mapValues _ _ _

theorem redact_applyCommit {tree : LabelledTree} {commit : LogicalCommit}
    (hnodup : (commit.changes.map (·.path)).Nodup) (invalidated : Bool) :
    (tree.redact rewrites).applyCommit (commit.redact rewrites invalidated) =
      (tree.applyCommit commit).redact rewrites := by
  have hnodup' : ((commit.redact rewrites invalidated).changes.map (·.path)).Nodup := by
    rwa [LogicalCommit.redact_paths]
  refine SortedMap.ext fun path => ?_
  by_cases hwritten : ∃ written ∈ commit.changes, written.path = path
  · obtain ⟨written, hwritten, rfl⟩ := hwritten
    have hredacted : ((tree.redact rewrites).applyCommit
        (commit.redact rewrites invalidated)).get? written.path =
          written.newContent.map fun blob =>
            (blob, redactLabel rewrites written.path written.label) :=
      get?_applyCommit_of_mem hnodup' (LogicalCommit.mem_redact_changes.mpr ⟨written, hwritten, rfl⟩)
    rw [get?_redact, get?_applyCommit_of_mem hnodup hwritten, Option.map_map, hredacted]
    rfl
  · push Not at hwritten
    rw [get?_redact, get?_applyCommit_of_ne hwritten, get?_applyCommit_of_ne, get?_redact]
    intro change hchange
    obtain ⟨written, hmem, rfl⟩ := LogicalCommit.mem_redact_changes.mp hchange
    exact hwritten written hmem

/-- Without the changes that it drops the redaction leaves the same labels. -/
theorem redact_relabelChanges {tree : LabelledTree} {changes : List VisibilityChange}
    (hnodup : (changes.map (·.path)).Nodup)
    (hdropped : ∀ change ∈ changes, shouldRedact rewrites change.path = true →
      IsBuiltin change.newLabel ∧
        ∀ file, tree.get? change.path = some file → IsBuiltin file.2) :
    (changes.filter fun change => !shouldRedact rewrites change.path).foldl relabelChange
        (tree.redact rewrites) = (changes.foldl relabelChange tree).redact rewrites := by
  have hnodup' : ((changes.filter fun change =>
      !shouldRedact rewrites change.path).map (·.path)).Nodup :=
    (List.filter_sublist.map _).nodup hnodup
  refine SortedMap.ext fun path => ?_
  rw [get?_redact]
  by_cases hnamed : ∃ change ∈ changes, change.path = path
  · obtain ⟨change, hchange, rfl⟩ := hnamed
    rw [get?_relabelChanges_of_mem hnodup hchange, Option.map_map]
    cases hredact : shouldRedact rewrites change.path with
    | true =>
      obtain ⟨hnew, hold⟩ := hdropped change hchange hredact
      have hunnamed : ∀ other ∈ changes.filter (fun change => !shouldRedact rewrites change.path),
          other.path ≠ change.path := by
        intro other hother heq
        have hkept := (List.mem_filter.mp hother).2
        rw [heq, hredact] at hkept
        cases hkept
      rw [get?_relabelChanges_of_ne hunnamed, get?_redact]
      refine Option.map_congr fun file hfile => ?_
      rw [Function.comp_apply, redactLabel_of_builtin hnew hredact,
        redactLabel_of_builtin (hold file hfile) hredact]
    | false =>
      have hkept : change ∈ changes.filter fun change => !shouldRedact rewrites change.path :=
        List.mem_filter.mpr ⟨hchange, by rw [hredact]; rfl⟩
      rw [get?_relabelChanges_of_mem hnodup' hkept, get?_redact, Option.map_map]
      refine Option.map_congr fun file _ => ?_
      simp only [Function.comp_apply, redactLabel_of_not hredact]
  · push Not at hnamed
    rw [get?_relabelChanges_of_ne hnamed, get?_relabelChanges_of_ne, get?_redact]
    exact fun change hchange => hnamed change (List.mem_filter.mp hchange).1

end LabelledTree

/-! ## Plain paths -/

section Plain

variable {plain : ScopePath → Prop} {tree : LabelledTree}

/-- The files at plain paths are public or private. -/
def LabelledTree.Plain (plain : ScopePath → Prop) (tree : LabelledTree) : Prop :=
  ∀ path file, tree.get? path = some file → plain path → IsBuiltin file.2

/-- A history gives files at plain paths no other labels than public and private. -/
structure PlainHistory (plain : ScopePath → Prop) (commits : List LogicalCommit)
    (sets : List VisibilityChangeSet) : Prop where
  commits : ∀ commit ∈ commits, ∀ change ∈ commit.changes, plain change.path →
    IsBuiltin change.label
  sets : ∀ set ∈ sets, ∀ change ∈ set.changes, plain change.path → IsBuiltin change.newLabel

theorem PlainHistory.append {commits commits' : List LogicalCommit}
    {sets sets' : List VisibilityChangeSet} (h : PlainHistory plain commits sets)
    (h' : PlainHistory plain commits' sets') :
    PlainHistory plain (commits ++ commits') (sets ++ sets') where
  commits := fun commit hcommit =>
    (List.mem_append.mp hcommit).elim (h.commits commit) (h'.commits commit)
  sets := fun set hset => (List.mem_append.mp hset).elim (h.sets set) (h'.sets set)

theorem PlainHistory.left {commits commits' : List LogicalCommit}
    {sets sets' : List VisibilityChangeSet}
    (h : PlainHistory plain (commits ++ commits') (sets ++ sets')) :
    PlainHistory plain commits sets where
  commits := fun commit hcommit => h.commits commit (List.mem_append_left _ hcommit)
  sets := fun set hset => h.sets set (List.mem_append_left _ hset)

theorem PlainHistory.right {commits commits' : List LogicalCommit}
    {sets sets' : List VisibilityChangeSet}
    (h : PlainHistory plain (commits ++ commits') (sets ++ sets')) :
    PlainHistory plain commits' sets' where
  commits := fun commit hcommit => h.commits commit (List.mem_append_right _ hcommit)
  sets := fun set hset => h.sets set (List.mem_append_right _ hset)

namespace LabelledTree

theorem Plain.applyChange (h : tree.Plain plain) {change : FileChange}
    (hlabel : plain change.path → IsBuiltin change.label) : (tree.applyChange change).Plain plain := by
  intro path file hget hplain
  by_cases hpath : path = change.path
  · subst hpath
    rw [get?_applyChange_self] at hget
    obtain ⟨blob, -, rfl⟩ := Option.map_eq_some_iff.mp hget
    exact hlabel hplain
  · rw [get?_applyChange_of_ne tree change path hpath] at hget
    exact h path file hget hplain

theorem Plain.relabelChange (h : tree.Plain plain) {change : VisibilityChange}
    (hlabel : plain change.path → IsBuiltin change.newLabel) :
    (tree.relabelChange change).Plain plain := by
  intro path file hget hplain
  by_cases hpath : path = change.path
  · subst hpath
    rw [get?_relabelChange_self] at hget
    obtain ⟨old, -, rfl⟩ := Option.map_eq_some_iff.mp hget
    exact hlabel hplain
  · rw [get?_relabelChange_of_ne tree change path hpath] at hget
    exact h path file hget hplain

theorem Plain.update (h : tree.Plain plain) {set? : Option VisibilityChangeSet}
    {commit? : Option LogicalCommit} (hlabels : PlainHistory plain commit?.toList set?.toList) :
    (tree.update set? commit?).Plain plain := by
  have hrelabelled : (set?.elim tree tree.relabel).Plain plain := by
    cases set? with
    | none => exact h
    | some set =>
      refine List.foldlRecOn set.changes _ h fun tree htree change hchange => ?_
      exact htree.relabelChange (hlabels.sets set (by simp) change hchange)
  cases commit? with
  | none => exact hrelabelled
  | some commit =>
    refine List.foldlRecOn commit.changes _ hrelabelled fun tree htree change hchange => ?_
    exact htree.applyChange (hlabels.commits commit (by simp) change hchange)

end LabelledTree

end Plain

/-! ## Updates -/

/-- What a redaction leaves of the change set of an update. -/
def redactSet? (rewrites : List HistoryRewriteRequest) (set? : Option VisibilityChangeSet) :
    Option VisibilityChangeSet :=
  (set?.map (·.redact rewrites)).filter (·.recordsSomething)

theorem mem_redactSet? {set? : Option VisibilityChangeSet} {set : VisibilityChangeSet} :
    set ∈ redactSet? rewrites set? ↔
      ∃ original ∈ set?, original.redact rewrites = set ∧ set.recordsSomething = true := by
  rw [redactSet?, Option.mem_filter_iff, Option.mem_map]
  constructor
  · rintro ⟨⟨original, hmem, heq⟩, hsome⟩
    exact ⟨original, hmem, heq, hsome⟩
  · rintro ⟨original, hmem, heq, hsome⟩
    exact ⟨⟨original, hmem, heq⟩, hsome⟩

/-- The changes of visibility that are left are those of the other paths. -/
theorem exists_mem_redactSet? {set? : Option VisibilityChangeSet} {change : VisibilityChange} :
    (∃ set ∈ redactSet? rewrites set?, change ∈ set.changes) ↔
      (∃ set ∈ set?, change ∈ set.changes) ∧ shouldRedact rewrites change.path = false := by
  constructor
  · rintro ⟨set, hset, hchange⟩
    obtain ⟨original, horiginal, rfl, -⟩ := mem_redactSet?.mp hset
    obtain ⟨hmem, hkept⟩ := List.mem_filter.mp hchange
    exact ⟨⟨original, horiginal, hmem⟩, by simpa using hkept⟩
  · rintro ⟨⟨original, horiginal, hchange⟩, hkept⟩
    have hmem : change ∈ (original.redact rewrites).changes :=
      List.mem_filter.mpr ⟨hchange, by rw [hkept]; rfl⟩
    refine ⟨_, mem_redactSet?.mpr ⟨original, horiginal, rfl, ?_⟩, hmem⟩
    rw [VisibilityChangeSet.recordsSomething, List.isEmpty_eq_false_iff.mpr (List.ne_nil_of_mem hmem)]
    rfl

theorem redactSet?_changes (rewrites : List HistoryRewriteRequest)
    (set? : Option VisibilityChangeSet) :
    (redactSet? rewrites set?).elim [] (·.changes) =
      (set?.elim [] (·.changes)).filter fun change => !shouldRedact rewrites change.path := by
  cases set? with
  | none => rfl
  | some set =>
    rw [redactSet?, Option.map_some, Option.filter_some, Option.elim_some]
    split_ifs with hsome
    · rfl
    · rw [VisibilityChangeSet.recordsSomething, Bool.or_eq_true, not_or] at hsome
      have hempty := hsome.1
      simp only [Bool.not_eq_true', Bool.not_eq_false] at hempty
      exact (List.isEmpty_iff.mp hempty).symm

theorem LabelledTree.elim_relabel (tree : LabelledTree) (set? : Option VisibilityChangeSet) :
    set?.elim tree tree.relabel = (set?.elim [] (·.changes)).foldl relabelChange tree := by
  cases set? <;> rfl

section Update

variable {tree : LabelledTree} {before after : Views} {set? : Option VisibilityChangeSet}
  {commit? : Option LogicalCommit} {invalidated : Bool} {anchor : Option String}
  {commits : List LogicalCommit}

variable {plain : ScopePath → Prop} (htree : tree.Plain plain)
  (hplain : ∀ path, shouldRedact rewrites path = true → plain path)

include htree hplain

theorem FitsHistory.redact_update (fits : FitsHistory tree before after set? commit?)
    (hlabels : PlainHistory plain commit?.toList set?.toList) :
    (tree.redact rewrites).update (redactSet? rewrites set?)
        (commit?.map (·.redact rewrites invalidated)) =
      (tree.update set? commit?).redact rewrites := by
  have hrelabelled : (redactSet? rewrites set?).elim (tree.redact rewrites)
      (tree.redact rewrites).relabel = (set?.elim tree tree.relabel).redact rewrites := by
    rw [LabelledTree.elim_relabel, LabelledTree.elim_relabel, redactSet?_changes]
    cases set? with
    | none => rfl
    | some set =>
      refine LabelledTree.redact_relabelChanges (fits.relabels_nodup set rfl)
        fun change hchange hredact => ⟨?_, fun file hfile => ?_⟩
      · exact hlabels.sets set (by simp) change hchange (hplain _ hredact)
      · exact htree _ file hfile (hplain _ hredact)
  rw [LabelledTree.update, LabelledTree.update, hrelabelled]
  cases commit? with
  | none => rfl
  | some commit => exact LabelledTree.redact_applyCommit (fits.changes_nodup commit rfl) invalidated

theorem FitsHistory.redact (fits : FitsHistory tree before after set? commit?) :
    FitsHistory (tree.redact rewrites) before after (redactSet? rewrites set?)
      (commit?.map (·.redact rewrites invalidated)) where
  sameViews := by
    intro hviews
    refine fits.sameViews fun set hset => ?_
    by_contra hsome
    refine hsome (hviews (set.redact rewrites) (mem_redactSet?.mpr ⟨set, hset, rfl, ?_⟩))
    rw [VisibilityChangeSet.recordsSomething, Bool.or_eq_true]
    exact .inr (Option.isSome_iff_ne_none.mpr hsome)
  changes_nodup := by
    intro commit hcommit
    obtain ⟨original, horiginal, rfl⟩ := Option.mem_map.mp hcommit
    rw [LogicalCommit.redact_paths]
    exact fits.changes_nodup original horiginal
  relabels_nodup := by
    intro set hset
    obtain ⟨original, horiginal, rfl, -⟩ := mem_redactSet?.mp hset
    exact (List.filter_sublist.map _).nodup (fits.relabels_nodup original horiginal)
  relabels_outside := by
    intro set hset change hchange
    obtain ⟨⟨original, horiginal, hmem⟩, -⟩ := exists_mem_redactSet?.mp ⟨set, hset, hchange⟩
    exact fits.relabels_outside original horiginal change hmem
  oldLabel := by
    intro set hset change hchange file hfile
    obtain ⟨⟨original, horiginal, hmem⟩, hkept⟩ := exists_mem_redactSet?.mp ⟨set, hset, hchange⟩
    rw [LabelledTree.get?_redact] at hfile
    obtain ⟨old, hold, rfl⟩ := Option.map_eq_some_iff.mp hfile
    rw [redactLabel_of_not hkept]
    refine (fits.oldLabel original horiginal change hmem old hold).imp_right ?_
    rintro ⟨hprivate, commit, hcommit, written, hwritten, hpath⟩
    exact ⟨hprivate, _, Option.mem_map_of_mem _ hcommit, _,
      LogicalCommit.mem_redact_changes.mpr ⟨written, hwritten, rfl⟩, hpath⟩
  kept := by
    intro set hset change hchange hunwritten
    obtain ⟨⟨original, horiginal, hmem⟩, -⟩ := exists_mem_redactSet?.mp ⟨set, hset, hchange⟩
    have hunwritten' : ∀ commit ∈ commit?, ∀ written ∈ commit.changes,
        written.path ≠ change.path := by
      intro commit hcommit written hwritten hpath
      exact hunwritten _ (Option.mem_map_of_mem _ hcommit) _
        (LogicalCommit.mem_redact_changes.mpr ⟨written, hwritten, rfl⟩) hpath
    obtain ⟨file, hfile, hcontent⟩ := fits.kept original horiginal change hmem hunwritten'
    exact ⟨(file.1, redactLabel rewrites change.path file.2),
      by rw [LabelledTree.get?_redact, hfile]; rfl, hcontent⟩
  newLabel := by
    intro set hset commit hcommit change hchange written hwritten hpath
    obtain ⟨⟨original, horiginal, hmem⟩, hkept⟩ := exists_mem_redactSet?.mp ⟨set, hset, hchange⟩
    obtain ⟨source, hsource, rfl⟩ := Option.mem_map.mp hcommit
    obtain ⟨kept, hwrittenKept, rfl⟩ := LogicalCommit.mem_redact_changes.mp hwritten
    have hsame : kept.path = change.path := hpath
    rw [← hsame] at hkept
    exact (redactLabel_of_not hkept _).trans
      (fits.newLabel original horiginal source hsource change hmem kept hwrittenKept hsame)
  label := by
    intro commit hcommit written hwritten hunnamed file hfile
    obtain ⟨source, hsource, rfl⟩ := Option.mem_map.mp hcommit
    obtain ⟨change, hchange, rfl⟩ := LogicalCommit.mem_redact_changes.mp hwritten
    rw [LabelledTree.get?_redact] at hfile
    obtain ⟨old, hold, rfl⟩ := Option.map_eq_some_iff.mp hfile
    by_cases hnamed : ∃ set ∈ set?, ∃ relabel ∈ set.changes, relabel.path = change.path
    · -- the redaction drops the change, so the file was public or private
      obtain ⟨set, hset, relabel, hrelabel, hpath⟩ := hnamed
      have hredact : shouldRedact rewrites relabel.path = true := by
        by_contra hkept
        obtain ⟨left, hleft, hmem⟩ := exists_mem_redactSet?.mpr
          ⟨⟨set, hset, hrelabel⟩, Bool.eq_false_iff.mpr hkept⟩
        exact hunnamed left hleft relabel hmem hpath
      rw [← hpath] at hold ⊢
      exact .inr (redactLabel_of_builtin (htree _ old hold (hplain _ hredact)) hredact)
    · have hfree : ∀ set ∈ set?, ∀ relabel ∈ set.changes, relabel.path ≠ change.path :=
        fun set hset relabel hrelabel hpath => hnamed ⟨set, hset, relabel, hrelabel, hpath⟩
      rcases fits.label source hsource change hchange hfree old hold with heq | hprivate
      · exact .inl (congrArg (redactLabel rewrites change.path) heq)
      · exact .inr (by rw [hprivate, redactLabel_privateView])

omit htree hplain in
theorem AppendsTo.redact {ids : List LogicalCommit} (hids : ids.map (·.id) = commits.map (·.id))
    (appends : AppendsTo anchor commits before after set? commit?) :
    AppendsTo anchor ids before after (redactSet? rewrites set?)
      (commit?.map (·.redact rewrites invalidated)) where
  transition := by
    intro set hset
    obtain ⟨original, horiginal, rfl, -⟩ := mem_redactSet?.mp hset
    exact appends.transition original horiginal
  anchored := by
    intro set hset
    obtain ⟨original, horiginal, rfl, -⟩ := mem_redactSet?.mp hset
    rw [← List.getLast?_map, hids, List.getLast?_map]
    exact appends.anchored original horiginal
  source := by
    intro set hset
    obtain ⟨original, horiginal, rfl, -⟩ := mem_redactSet?.mp hset
    rw [Option.map_map]
    exact appends.source original horiginal
  fresh := by
    intro commit hcommit
    obtain ⟨original, horiginal, rfl⟩ := Option.mem_map.mp hcommit
    rw [hids]
    exact appends.fresh original horiginal

end Update

/-! ## Runs -/

section Runs

variable {anchor : Option String} {start tree : LabelledTree} {first views : Views}
  {commits : List LogicalCommit} {sets : List VisibilityChangeSet} {plain : ScopePath → Prop}

theorem HistoryRun.tree_plain (run : HistoryRun anchor start first commits sets tree views)
    (hstart : start.Plain plain) (hlabels : PlainHistory plain commits sets) : tree.Plain plain := by
  induction run with
  | nil => exact hstart
  | update run appends fits ih => exact (ih hlabels.left).update hlabels.right

/-- What a rewrite leaves of a run is a run that redacts the labelled files. -/
theorem HistoryRun.redact (run : HistoryRun anchor start first commits sets tree views)
    (hstart : start.Plain plain) (hlabels : PlainHistory plain commits sets)
    (hplain : ∀ path, shouldRedact rewrites path = true → plain path) (invalidated : ℕ → Bool) :
    HistoryRun anchor (start.redact rewrites) first
      (commits.mapIdx fun index commit => commit.redact rewrites (invalidated index))
      ((sets.map (·.redact rewrites)).filter (·.recordsSomething)) (tree.redact rewrites) views := by
  induction run with
  | nil => exact .nil
  | @update commits sets tree before after set? commit? run appends fits ih =>
    have htree := run.tree_plain hstart hlabels.left
    have hrun := ih hlabels.left
    have hids : (commits.mapIdx fun index commit =>
        commit.redact rewrites (invalidated index)).map (·.id) = commits.map (·.id) := by
      refine List.ext_getElem? fun index => ?_
      rw [List.getElem?_map, List.getElem?_mapIdx, List.getElem?_map, Option.map_map]
      rfl
    have hcommits : (commits ++ commit?.toList).mapIdx (fun index commit =>
        commit.redact rewrites (invalidated index)) =
          commits.mapIdx (fun index commit => commit.redact rewrites (invalidated index)) ++
            (commit?.map (·.redact rewrites (invalidated commits.length))).toList := by
      cases commit? <;> simp
    have hsets : ((sets ++ set?.toList).map (·.redact rewrites)).filter (·.recordsSomething) =
        (sets.map (·.redact rewrites)).filter (·.recordsSomething) ++
          (redactSet? rewrites set?).toList := by
      rw [List.map_append, List.filter_append, redactSet?]
      cases set? with
      | none => rfl
      | some set =>
        rw [Option.toList_some, List.map_singleton, Option.map_some, Option.filter_some]
        cases hsome : (set.redact rewrites).recordsSomething <;> simp [hsome]
    rw [hcommits, hsets, ← fits.redact_update htree hplain hlabels.right]
    exact .update hrun (appends.redact hids) (fits.redact htree hplain)

/-- A rewrite leaves a plain history. -/
theorem PlainHistory.redact (h : PlainHistory plain commits sets) (invalidated : ℕ → Bool) :
    PlainHistory plain
      (commits.mapIdx fun index commit => commit.redact rewrites (invalidated index))
      ((sets.map (·.redact rewrites)).filter (·.recordsSomething)) where
  commits := by
    intro commit hcommit change hchange hplain
    obtain ⟨index, hindex, rfl⟩ := List.mem_mapIdx.mp hcommit
    obtain ⟨written, hwritten, rfl⟩ := LogicalCommit.mem_redact_changes.mp hchange
    have hlabel := h.commits _ (List.getElem_mem hindex) written hwritten hplain
    unfold redactLabel
    split_ifs
    · exact .inr rfl
    · exact hlabel
  sets := by
    intro set hset change hchange hplain
    obtain ⟨original, horiginal, rfl⟩ := List.mem_map.mp (List.mem_filter.mp hset).1
    exact h.sets original horiginal change (List.mem_filter.mp hchange).1 hplain

end Runs

end ScopeVcs

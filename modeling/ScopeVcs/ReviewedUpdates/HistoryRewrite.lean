import ScopeVcs.Lib.ListRewrite
import ScopeVcs.Repository.Model

/-! # Rewriting the public history

A configuration may ask for the public history of some paths to be redacted. `applyHistoryRewrites`
does so in place, before the steps of the update that can still fail.
-/

namespace ScopeVcs

def HistoryRewriteRequest.matchesPath (rewrite : HistoryRewriteRequest) (path : ScopePath) : Bool :=
  patternMatchesPath rewrite.path path.asStr

def RepoConfig.historyRewritesAddedSince (config : RepoConfig) (previous : Option RepoConfig) :
    List HistoryRewriteRequest :=
  config.history.rewrites.filter fun rewrite =>
    previous.all fun previous => decide (rewrite ∉ previous.history.rewrites)

structure HistoryRewriteInput where
  config : RepoConfig
  rewrites : List HistoryRewriteRequest
  liveTree : LiveFiles
  changedPaths : List ScopePath

structure HistoryRewriteResult where
  visibilityChanges : List VisibilityChange
  redactedPaths : SortedSet ScopePath

def shouldRedact (rewrites : List HistoryRewriteRequest) (path : ScopePath) : Bool :=
  rewrites.any fun rewrite => rewrite.action == .redactPublicHistory && rewrite.matchesPath path

/-! ## Redaction of commits and change sets -/

section Redaction

variable (rewrites : List HistoryRewriteRequest)

def FileChange.isRedacted (change : FileChange) : Bool :=
  change.label == .publicView && shouldRedact rewrites change.path

def FileChange.redact (change : FileChange) : FileChange :=
  if change.isRedacted rewrites then { change with label := .privateView } else change

/-- The paths that the native commits of a merge changed. -/
def LogicalCommitOrigin.nativePaths : LogicalCommitOrigin → List ScopePath
  | .requestMerge _ _ _ _ _ _ commits => commits.flatMap (·.changedPaths)
  | _ => []

/-- Whether a merge still stands for its native commits. -/
def LogicalCommitOrigin.preserves : LogicalCommitOrigin → Bool
  | .requestMerge _ _ _ _ _ preserveCommits _ => preserveCommits
  | _ => false

def LogicalCommitOrigin.withoutPreservation : LogicalCommitOrigin → LogicalCommitOrigin
  | .requestMerge requestId view baseOid parentOids requestHeadOid _ commits =>
    .requestMerge requestId view baseOid parentOids requestHeadOid false commits
  | origin => origin

def LogicalCommit.isRedacted (commit : LogicalCommit) : Bool :=
  commit.origin.nativePaths.any (shouldRedact rewrites) ||
    commit.changes.any (·.isRedacted rewrites)

def LogicalCommit.redact (invalidated : Bool) (commit : LogicalCommit) : LogicalCommit :=
  { commit with
    origin := if invalidated then commit.origin.withoutPreservation else commit.origin
    changes := commit.changes.map (·.redact rewrites) }

def LogicalCommit.redactedPaths (commit : LogicalCommit) : List ScopePath :=
  commit.origin.nativePaths.filter (shouldRedact rewrites) ++
    (commit.changes.filter (·.isRedacted rewrites)).map (·.path)

def VisibilityChangeSet.isRedacted (set : VisibilityChangeSet) : Bool :=
  set.changes.any fun change => shouldRedact rewrites change.path

def VisibilityChangeSet.redact (set : VisibilityChangeSet) : VisibilityChangeSet :=
  { set with changes := set.changes.filter fun change => !shouldRedact rewrites change.path }

def VisibilityChangeSet.redactedPaths (set : VisibilityChangeSet) : List ScopePath :=
  (set.changes.map (·.path)).filter (shouldRedact rewrites)

def VisibilityChangeSet.recordsSomething (set : VisibilityChangeSet) : Bool :=
  !set.changes.isEmpty || set.views.isSome

end Redaction

/-! ## The rewrite of a repository -/

/-- The smaller of an index found before and the next one. -/
def earliest (first : Option ℕ) (index : ℕ) : Option ℕ := some (first.elim index (min · index))

namespace Repository

variable (repo : Repository)

/-- The position after the commit that a change set is anchored at; the last commit of an id
counts. -/
def anchorIndex (set : VisibilityChangeSet) : ℕ :=
  let commitIndexes := SortedMap.ofList
    (repo.graph.commits.zipIdx.map fun (commit, index) => (commit.id, index))
  (set.anchorCommitId.bind commitIndexes.get?).elim 0 (· + 1)

/-- The first index from which no merge may stand for its native commits any more. -/
def invalidatePreservationFrom (rewrites : List HistoryRewriteRequest) : Option ℕ :=
  repo.visibilityChangeSets.foldl
    (fun first set =>
      if set.isRedacted rewrites then earliest first (repo.anchorIndex set) else first)
    (repo.graph.commits.zipIdx.foldl
      (fun first entry => if entry.1.isRedacted rewrites then earliest first entry.2 else first)
      none)

def redactedPaths (rewrites : List HistoryRewriteRequest) : SortedSet ScopePath :=
  .ofList (repo.graph.commits.flatMap (·.redactedPaths rewrites) ++
    repo.visibilityChangeSets.flatMap (·.redactedPaths rewrites))

def redactHistory (rewrites : List HistoryRewriteRequest) : Repository :=
  let first := repo.invalidatePreservationFrom rewrites
  { repo with
    graph := { repo.graph with
      commits := repo.graph.commits.mapIdx fun index commit =>
        commit.redact rewrites (first.any (· ≤ index)) }
    visibilityChangeSets :=
      (repo.visibilityChangeSets.map (·.redact rewrites)).filter (·.recordsSomething) }

/-- The redacted paths that the configuration keeps public: at the head they become public anew. -/
def baselineChanges (input : HistoryRewriteInput) : List VisibilityChange :=
  (repo.redactedPaths input.rewrites).toList.filterMap fun path =>
    if path ∈ input.changedPaths ∨ input.config.labelForPath path ≠ .publicView then none
    else (input.liveTree.get? path).map fun currentContent =>
      { path, oldLabel := .privateView, newLabel := .publicView,
        currentContent := some currentContent }

end Repository

/-- `apply_history_rewrites`. -/
def applyHistoryRewrites {ε : Type} (input : HistoryRewriteInput) :
    EStateM ε Repository HistoryRewriteResult := do
  let repo ← get
  if input.rewrites.isEmpty then
    return { visibilityChanges := [], redactedPaths := ∅ }
  modify fun repo => repo.redactHistory input.rewrites
  return {
    visibilityChanges := repo.baselineChanges input
    redactedPaths := repo.redactedPaths input.rewrites }

/-! ## What is redacted -/

section Redacted

variable {rewrites : List HistoryRewriteRequest}

/-- The public history of a repository mentions a path: in a native commit, in a public change or
in a change of visibility. -/
def Repository.Publishes (repo : Repository) (path : ScopePath) : Prop :=
  (∃ commit ∈ repo.graph.commits, path ∈ commit.origin.nativePaths ∨
    ∃ change ∈ commit.changes, change.label = .publicView ∧ change.path = path) ∨
  ∃ set ∈ repo.visibilityChangeSets, ∃ change ∈ set.changes, change.path = path

theorem mem_redactedPaths {repo : Repository} {path : ScopePath} :
    path ∈ (repo.redactedPaths rewrites).toList ↔
      shouldRedact rewrites path = true ∧ repo.Publishes path := by
  simp only [Repository.redactedPaths, SortedSet.mem_toList_ofList, List.mem_append,
    List.mem_flatMap, LogicalCommit.redactedPaths, VisibilityChangeSet.redactedPaths,
    List.mem_filter, List.mem_map, FileChange.isRedacted, Bool.and_eq_true, beq_iff_eq,
    Repository.Publishes]
  constructor
  · rintro (⟨commit, hcommit, ⟨hpath, hredact⟩ | ⟨change, ⟨hchange, hlabel, hredact⟩, rfl⟩⟩ |
      ⟨set, hset, ⟨change, hchange, rfl⟩, hredact⟩)
    · exact ⟨hredact, .inl ⟨commit, hcommit, .inl hpath⟩⟩
    · exact ⟨hredact, .inl ⟨commit, hcommit, .inr ⟨change, hchange, hlabel, rfl⟩⟩⟩
    · exact ⟨hredact, .inr ⟨set, hset, change, hchange, rfl⟩⟩
  · rintro ⟨hredact, ⟨commit, hcommit, hpath | ⟨change, hchange, hlabel, rfl⟩⟩ |
      ⟨set, hset, change, hchange, rfl⟩⟩
    · exact .inl ⟨commit, hcommit, .inl ⟨hpath, hredact⟩⟩
    · exact .inl ⟨commit, hcommit, .inr ⟨change, ⟨hchange, hlabel, hredact⟩, rfl⟩⟩
    · exact .inr ⟨set, hset, ⟨change, hchange, rfl⟩, hredact⟩

theorem mem_redactedPaths_nil {repo : Repository} {path : ScopePath} :
    path ∉ (repo.redactedPaths []).toList := by
  rw [mem_redactedPaths]
  exact fun h => by simp [shouldRedact] at h

theorem FileChange.redact_eq_self {change : FileChange} :
    change.redact rewrites = change ↔ change.isRedacted rewrites = false := by
  unfold redact
  cases h : change.isRedacted rewrites with
  | false => simp
  | true =>
    have hlabel : change.label = .publicView := by
      have := (Bool.and_eq_true_iff.mp h).1
      simpa using this
    rw [if_pos rfl]
    refine iff_of_false (fun heq => ?_) (by simp)
    have hprivate : ViewId.privateView = change.label := congrArg FileChange.label heq
    exact ViewId.publicView_ne_privateView (hlabel.symm.trans hprivate.symm)

theorem LogicalCommitOrigin.withoutPreservation_eq_self {origin : LogicalCommitOrigin} :
    origin.withoutPreservation = origin ↔ origin.preserves = false := by
  cases origin with
  | canonicalPush => exact iff_of_true rfl rfl
  | privateRequestMerge => exact iff_of_true rfl rfl
  | requestMerge requestId view baseOid parentOids requestHeadOid preserveCommits commits =>
    cases preserveCommits with
    | false => exact iff_of_true rfl rfl
    | true => exact iff_of_false (fun h => by cases h) (fun h => by cases h)

theorem LogicalCommit.redact_eq_self {commit : LogicalCommit} {invalidated : Bool} :
    commit.redact rewrites invalidated = commit ↔
      (invalidated = true → commit.origin.preserves = false) ∧
        ∀ change ∈ commit.changes, change.isRedacted rewrites = false := by
  have hfields : commit.redact rewrites invalidated = commit ↔
      (if invalidated then commit.origin.withoutPreservation else commit.origin) = commit.origin ∧
        commit.changes.map (·.redact rewrites) = commit.changes := by
    cases commit
    simp [redact]
  rw [hfields, ListRewrite.map_eq_self]
  refine and_congr ?_ (forall₂_congr fun change _ => FileChange.redact_eq_self)
  cases invalidated with
  | false => simp
  | true => simpa using LogicalCommitOrigin.withoutPreservation_eq_self

theorem VisibilityChangeSet.redact_eq_self {set : VisibilityChangeSet} :
    set.redact rewrites = set ↔ set.isRedacted rewrites = false := by
  have hfields : set.redact rewrites = set ↔
      set.changes.filter (fun change => !shouldRedact rewrites change.path) = set.changes := by
    cases set
    simp [redact]
  rw [hfields, List.filter_eq_self, isRedacted, List.any_eq_false]
  simp

/-- An index is at or after the earliest one found exactly when it is so for one of them. -/
theorem any_foldl_earliest {α : Type*} (p : α → Bool) (index : α → ℕ) (l : List α)
    (first : Option ℕ) (j : ℕ) :
    (l.foldl (fun first a => if p a then earliest first (index a) else first) first).any (· ≤ j) =
        true ↔
      first.any (· ≤ j) = true ∨ ∃ a ∈ l, p a = true ∧ index a ≤ j := by
  induction l generalizing first with
  | nil => simp
  | cons a l ih =>
    rw [List.foldl_cons, ih]
    by_cases hp : p a = true
    · cases first with
      | none => simp [hp, earliest]
      | some i => simp [hp, earliest, or_assoc]
    · simp [hp]

/-! ## When the history is left as it is -/

/-- The history has nothing to redact: no public change and no change of visibility under the
rewrites, no merge that stands for its native commits at or after one that touched a rewritten
path, and no change set that records nothing. -/
structure Repository.KeepsHistory (repo : Repository) (rewrites : List HistoryRewriteRequest) :
    Prop where
  commits : ∀ commit ∈ repo.graph.commits, ∀ change ∈ commit.changes,
    change.label = .publicView → shouldRedact rewrites change.path = false
  merges : ∀ i j : ℕ, i ≤ j → ∀ before ∈ repo.graph.commits[i]?, ∀ after ∈ repo.graph.commits[j]?,
    (∃ path ∈ before.origin.nativePaths, shouldRedact rewrites path = true) →
      after.origin.preserves = false
  sets : ∀ set ∈ repo.visibilityChangeSets, ∀ change ∈ set.changes,
    shouldRedact rewrites change.path = false
  recorded : rewrites ≠ [] → ∀ set ∈ repo.visibilityChangeSets,
    set.changes ≠ [] ∨ set.views ≠ none

theorem isRedacted_eq_false {change : FileChange} :
    change.isRedacted rewrites = false ↔
      (change.label = .publicView → shouldRedact rewrites change.path = false) := by
  cases h : shouldRedact rewrites change.path <;> simp [FileChange.isRedacted, h]

theorem VisibilityChangeSet.isRedacted_eq_false {set : VisibilityChangeSet} :
    set.isRedacted rewrites = false ↔
      ∀ change ∈ set.changes, shouldRedact rewrites change.path = false := by
  simp [isRedacted]

/-- No preserved merge from the first redaction on: where no public change and no change set is
redacted, it comes from the native commits alone. -/
theorem any_invalidatePreservationFrom {repo : Repository} {j : ℕ}
    (hcommits : ∀ commit ∈ repo.graph.commits, ∀ change ∈ commit.changes,
      change.isRedacted rewrites = false)
    (hsets : ∀ set ∈ repo.visibilityChangeSets, set.isRedacted rewrites = false) :
    (repo.invalidatePreservationFrom rewrites).any (· ≤ j) = true ↔
      ∃ i ≤ j, ∃ before ∈ repo.graph.commits[i]?,
        ∃ path ∈ before.origin.nativePaths, shouldRedact rewrites path = true := by
  rw [Repository.invalidatePreservationFrom,
    any_foldl_earliest (·.isRedacted rewrites) repo.anchorIndex,
    any_foldl_earliest (fun entry : LogicalCommit × ℕ => entry.1.isRedacted rewrites) Prod.snd,
    Option.any_none]
  have hnone : ¬∃ set ∈ repo.visibilityChangeSets,
      set.isRedacted rewrites = true ∧ repo.anchorIndex set ≤ j := by
    rintro ⟨set, hset, hredacted, -⟩
    rw [hsets set hset] at hredacted
    cases hredacted
  rw [or_iff_left hnone, or_iff_right Bool.false_ne_true]
  constructor
  · rintro ⟨⟨before, i⟩, hmem, hredacted, hi⟩
    have hbefore : repo.graph.commits[i]? = some before := List.mem_zipIdx_iff_getElem?.mp hmem
    have hchanges : before.changes.any (·.isRedacted rewrites) = false := by
      rw [List.any_eq_false]
      intro change hchange
      simp [hcommits before (List.mem_of_getElem? hbefore) change hchange]
    rw [LogicalCommit.isRedacted, hchanges, Bool.or_false, List.any_eq_true] at hredacted
    exact ⟨i, hi, before, hbefore, hredacted⟩
  · rintro ⟨i, hi, before, hbefore, hnative⟩
    refine ⟨(before, i), List.mem_zipIdx_iff_getElem?.mpr hbefore, ?_, hi⟩
    rw [LogicalCommit.isRedacted, List.any_eq_true.mpr hnative, Bool.true_or]

/-- The rewrites leave the repository as it is exactly when they find nothing to redact. -/
theorem redactHistory_eq_self {repo : Repository} (hsome : rewrites ≠ []) :
    repo.redactHistory rewrites = repo ↔ repo.KeepsHistory rewrites := by
  set first := repo.invalidatePreservationFrom rewrites with hfirst
  have hfields : repo.redactHistory rewrites = repo ↔
      (repo.graph.commits.mapIdx fun index commit =>
        commit.redact rewrites (first.any (· ≤ index))) = repo.graph.commits ∧
      (repo.visibilityChangeSets.map (·.redact rewrites)).filter (·.recordsSomething) =
        repo.visibilityChangeSets := by
    rw [hfirst]
    rcases repo with ⟨record, repoConfig, firstPushToken, policy, ⟨repoId, commits⟩, sets, liveFiles,
      gitHead, collaboration⟩
    simp [Repository.redactHistory]
  rw [hfields, ListRewrite.mapIdx_eq_self, ListRewrite.filter_map_eq_self]
  simp only [LogicalCommit.redact_eq_self, VisibilityChangeSet.redact_eq_self]
  constructor
  · rintro ⟨hcommits, hsets⟩
    have hpublic : ∀ commit ∈ repo.graph.commits, ∀ change ∈ commit.changes,
        change.isRedacted rewrites = false := by
      intro commit hcommit
      obtain ⟨i, hi⟩ := List.mem_iff_getElem?.mp hcommit
      exact (hcommits i commit hi).2
    exact {
      commits := fun commit hcommit change hchange =>
        isRedacted_eq_false.mp (hpublic commit hcommit change hchange)
      merges := by
        intro i j hij before hbefore after hafter hnative
        refine (hcommits j after hafter).1 ?_
        exact (any_invalidatePreservationFrom hpublic fun set hset => (hsets set hset).1).mpr
          ⟨i, hij, before, hbefore, hnative⟩
      sets := fun set hset => VisibilityChangeSet.isRedacted_eq_false.mp (hsets set hset).1
      recorded := by
        intro _ set hset
        have hrecords := (hsets set hset).2
        simpa [VisibilityChangeSet.recordsSomething, Option.isSome_iff_ne_none] using hrecords }
  · intro h
    have hpublic : ∀ commit ∈ repo.graph.commits, ∀ change ∈ commit.changes,
        change.isRedacted rewrites = false := fun commit hcommit change hchange =>
      isRedacted_eq_false.mpr (h.commits commit hcommit change hchange)
    have hsets : ∀ set ∈ repo.visibilityChangeSets, set.isRedacted rewrites = false :=
      fun set hset => VisibilityChangeSet.isRedacted_eq_false.mpr (h.sets set hset)
    refine ⟨fun j after hafter => ⟨fun hinvalid => ?_, hpublic after (List.mem_of_getElem? hafter)⟩,
      fun set hset => ⟨hsets set hset, ?_⟩⟩
    · obtain ⟨i, hij, before, hbefore, hnative⟩ :=
        (any_invalidatePreservationFrom hpublic hsets).mp hinvalid
      exact h.merges i j hij before hbefore after hafter hnative
    · simpa [VisibilityChangeSet.recordsSomething, Option.isSome_iff_ne_none] using
        h.recorded hsome set hset

/-- Without rewrites there is nothing to redact. -/
theorem keepsHistory_nil (repo : Repository) : repo.KeepsHistory [] where
  commits := fun _ _ _ _ _ => rfl
  merges := by
    rintro i j - before - after - ⟨path, -, hredact⟩
    cases hredact
  sets := fun _ _ _ _ => rfl
  recorded := fun h => absurd rfl h

end Redacted

/-- The repository that the rewrites leave. -/
def Repository.rewritten (repo : Repository) (rewrites : List HistoryRewriteRequest) : Repository :=
  if rewrites.isEmpty then repo else repo.redactHistory rewrites

theorem rewritten_eq_self {repo : Repository} {rewrites : List HistoryRewriteRequest} :
    repo.rewritten rewrites = repo ↔ repo.KeepsHistory rewrites := by
  cases rewrites with
  | nil => exact iff_of_true rfl (keepsHistory_nil repo)
  | cons rewrite rest => exact redactHistory_eq_self (List.cons_ne_nil rewrite rest)

/-- Rewriting the history does not fail, and touches nothing else. -/
theorem applyHistoryRewrites_run {ε : Type} (input : HistoryRewriteInput) (repo : Repository) :
    (applyHistoryRewrites input : EStateM ε Repository HistoryRewriteResult).run repo =
      .ok ⟨repo.baselineChanges input, repo.redactedPaths input.rewrites⟩
        (repo.rewritten input.rewrites) := by
  rcases input with ⟨config, rewrites, liveTree, changedPaths⟩
  cases rewrites with
  | nil =>
    have hpaths : repo.redactedPaths [] = ∅ := by
      have hcommits : ∀ commit ∈ repo.graph.commits, commit.redactedPaths [] = [] := by
        intro commit _
        simp [LogicalCommit.redactedPaths, FileChange.isRedacted, shouldRedact]
      have hsets : ∀ set ∈ repo.visibilityChangeSets, set.redactedPaths [] = [] := by
        intro set _
        simp [VisibilityChangeSet.redactedPaths, shouldRedact]
      rw [Repository.redactedPaths, List.flatMap_eq_nil_iff.mpr hcommits,
        List.flatMap_eq_nil_iff.mpr hsets]
      rfl
    have hbaseline : repo.baselineChanges ⟨config, [], liveTree, changedPaths⟩ = [] := by
      rw [Repository.baselineChanges, hpaths]
      rfl
    rw [hbaseline, hpaths]
    rfl
  | cons rewrite rest => rfl

end ScopeVcs

import ScopeVcs.ReviewedUpdates.Content

/-! # Reviewed updates of the configuration

An update that brings a new configuration is checked and applied in stages: the public history is
rewritten in place first, then the policy of the new configuration is built, and last the changes of
visibility are recorded. The last two steps can fail.
-/

namespace ScopeVcs

/-- The changes of label at the head that the configuration makes, but for those of a path that is
recorded already and for a path that was `unpublished` and becomes private. -/
def Repository.relabels (repo : Repository) (config : RepoConfig) (baseline : List ScopePath)
    (unpublished : ScopePath → Bool) (tree : LiveFiles) : List VisibilityChange :=
  tree.entries.filterMap fun entry =>
    let oldLabel := repo.policy.label entry.1 repo.repoConfig.views
    let newLabel := config.labelForPath entry.1
    if oldLabel = newLabel ∨ entry.1 ∈ baseline ∨
        (unpublished entry.1 = true ∧ oldLabel = .publicView ∧ newLabel = .privateView) then none
    else some { path := entry.1, oldLabel, newLabel, currentContent := some entry.2 }

/-- Records a change set at the end of the history, if there is something to record. -/
def recordVisibilityChanges (occurredAtUnix : Option ℤ) (afterCommitId sourceUpdateId : Option String)
    (authorId : String) (changes : List VisibilityChange) (views : Option ViewsTransition) :
    EStateM ReviewedUpdateError Repository Unit := do
  if changes ≠ [] ∨ views.isSome = true then
    let set ← Mutation.check fun repo => (VisibilityChangeSet.new
      (visibilityChangeSetId (U64.saturatingAdd repo.record.changeVersion 1)) afterCommitId
      sourceUpdateId authorId changes views).mapError .conflict
    modify fun repo => { repo with
      visibilityChangeSets := repo.visibilityChangeSets ++ [{ set with occurredAtUnix }] }

/-! ## A push with a new configuration -/

namespace ReviewedUpdateInput

variable (update : ReviewedUpdateInput) (repo : Repository)

def fileChanges : List FileChange :=
  buildFileChanges repo.liveFiles repo.policy update.config update.changes .fromConfig

/-- The tree that a push leaves. -/
def newTree : LiveFiles := (update.fileChanges repo).foldl FileChange.applyTo repo.liveFiles

def rewriteInput : HistoryRewriteInput where
  config := update.config
  rewrites := update.config.historyRewritesAddedSince update.previousConfig
  liveTree := repo.liveFiles
  changedPaths := (update.fileChanges repo).map (·.path)

end ReviewedUpdateInput

/-- What follows the rewrite of the history. -/
def finishReviewedUpdate (update : ReviewedUpdateInput) (oldTree newTree : LiveFiles)
    (fileChanges : List FileChange) (views : Option ViewsTransition) (afterCommitId : Option String)
    (rewrite : HistoryRewriteResult) : EStateM ReviewedUpdateError Repository GitPoolPack := do
  let logicalId := "rv_push_" ++ update.gitHead.headOid
  let fileChanges := fileChanges.map fun change =>
    if change.newContent.isNone && rewrite.redactedPaths.contains change.path then
      { change with label := .privateView }
    else change
  let repo ← get
  let visibilityChanges := rewrite.visibilityChanges ++ repo.relabels update.config
    (rewrite.visibilityChanges.map (·.path))
    (fun path => rewrite.redactedPaths.contains path || !oldTree.contains path) newTree
  let nextPolicy ← Mutation.check fun _ =>
    (policyFromConfigForTree update.config newTree.keys).mapError .invalidPolicy
  recordVisibilityChanges update.occurredAtUnix afterCommitId (some logicalId) update.authorId
    visibilityChanges views
  modify fun repo => Repository.bumpContentVersion { repo with
    graph := { repo.graph with
      commits := repo.graph.commits ++ [{
        occurredAtUnix := update.occurredAtUnix
        id := logicalId
        origin := .canonicalPush update.gitHead.headOid
        authorId := update.authorId
        message := update.message
        changes := fileChanges }] }
    liveFiles := newTree
    policy := nextPolicy
    repoConfig := update.config
    gitHead := some update.gitHead
    firstPushToken := none
    record := { repo.record with lifecycleState := .ready } }
  return update.mainPack

def applyReviewedUpdateToRepo (update : ReviewedUpdateInput) :
    EStateM ReviewedUpdateError Repository GitPoolPack := do
  Mutation.check fun repo =>
    (validateMainPackAdvance repo.gitHead update.gitHead update.mainPack).mapError mainPackConflict
  Mutation.check fun _ => Mutation.rejectIf (update.changes = [])
    (.badRequest "update must include file changes")
  let repo ← get
  if update.config = repo.repoConfig ∧ update.previousConfig = some repo.repoConfig then
    applyContentOnlyUpdate update
  else
    let views ← Mutation.check fun repo =>
      (viewsTransition repo update.config update.openRequestsByView).mapError .domain
    Mutation.check fun _ => Mutation.rejectIf (update.fileChanges repo = [])
      (.badRequest "update did not change the live tree")
    let rewrite ← applyHistoryRewrites (update.rewriteInput repo)
    finishReviewedUpdate update repo.liveFiles (update.newTree repo) (update.fileChanges repo) views
      (repo.graph.commits.getLast?.map (·.id)) rewrite

/-! ## A configuration without a push -/

structure ReviewedConfigUpdateInput where
  occurredAtUnix : ℤ
  authorId : String
  config : RepoConfig
  openRequestsByView : SortedMap ViewId ℕ

def ReviewedConfigUpdateInput.rewriteInput (update : ReviewedConfigUpdateInput) (repo : Repository) :
    HistoryRewriteInput where
  config := update.config
  rewrites := update.config.historyRewritesAddedSince (some repo.repoConfig)
  liveTree := repo.liveFiles
  changedPaths := []

/-- What follows once the configuration is in effect. -/
def recordReviewedConfig (update : ReviewedConfigUpdateInput) (views : Option ViewsTransition)
    (afterCommitId : Option String) (visibilityChanges : List VisibilityChange) :
    EStateM ReviewedUpdateError Repository Bool := do
  recordVisibilityChanges (some update.occurredAtUnix) afterCommitId none update.authorId
    visibilityChanges views
  modify (·.bumpContentVersion)
  return true

/-- What follows the rewrite of the history. -/
def finishReviewedConfig (update : ReviewedConfigUpdateInput) (liveTree : LiveFiles)
    (views : Option ViewsTransition) (afterCommitId : Option String)
    (rewrite : HistoryRewriteResult) : EStateM ReviewedUpdateError Repository Bool := do
  let repo ← get
  let visibilityChanges := rewrite.visibilityChanges ++ repo.relabels update.config
    (rewrite.visibilityChanges.map (·.path)) rewrite.redactedPaths.contains liveTree
  let policy ← Mutation.check fun _ =>
    (policyFromConfigForTree update.config liveTree.keys).mapError .invalidPolicy
  modify fun repo => { repo with policy, repoConfig := update.config }
  recordReviewedConfig update views afterCommitId visibilityChanges

def applyReviewedConfigToRepo (update : ReviewedConfigUpdateInput) :
    EStateM ReviewedUpdateError Repository Bool := do
  let repo ← get
  if repo.repoConfig = update.config then
    return false
  else
    let views ← Mutation.check fun repo =>
      (viewsTransition repo update.config update.openRequestsByView).mapError .domain
    let rewrite ← applyHistoryRewrites (update.rewriteInput repo)
    finishReviewedConfig update repo.liveFiles views (repo.graph.commits.getLast?.map (·.id))
      rewrite

end ScopeVcs

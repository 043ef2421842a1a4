import ScopeVcs.Error
import ScopeVcs.ReviewedUpdates.HistoryRewrite

/-! # Reviewed updates of the content

A push to main, or the merge of a request, brings new files and perhaps a new configuration. A push
that keeps the configuration, and every merge, is first accepted against the state and then applied;
a push that changes the configuration is checked and applied in stages.
-/

namespace ScopeVcs

inductive ReviewedUpdateError where
  | badRequest (message : String)
  | conflict (message : String)
  | invalidPolicy (error : PolicyError)
  | domain (error : DomainError)
  deriving DecidableEq

structure ReviewedContentChange where
  path : ScopePath
  content : Option SourceBlob
  deriving DecidableEq

structure ReviewedUpdateInput where
  occurredAtUnix : Option ℤ
  authorId : String
  message : String
  gitHead : GitHead
  mainPack : GitPoolPack
  changes : List ReviewedContentChange
  previousConfig : Option RepoConfig
  config : RepoConfig
  openRequestsByView : SortedMap ViewId ℕ

/-! ## The transition of the views -/

/-- Why a view cannot be removed, if it cannot. -/
def viewRemovalRefusal (repo : Repository) (next : RepoConfig) (before : Views) (removed : ViewId)
    (openRequestsByView : SortedMap ViewId ℕ) : Option String :=
  if removed = before.full then some "it is the full view"
  else if repo.collaboration.members.any fun member => member.permissions.view = removed then
    some "members are still assigned to it"
  else if (openRequestsByView.get? removed).any (0 < ·) then
    some "requests are still open in it"
  else if repo.liveFiles.keys.any fun path => repo.policy.label path before = removed then
    some "files are still labelled with it"
  else if next.files.rules.any fun rule => rule.view = removed then some "a file rule still names it"
  else if next.files.default = removed then some "it is still the default label for new files"
  else none

def ensureViewRemovable (repo : Repository) (next : RepoConfig) (before : Views) (removed : ViewId)
    (openRequestsByView : SortedMap ViewId ℕ) : Except DomainError Unit :=
  match viewRemovalRefusal repo next before removed openRequestsByView with
  | some reason => .error (.conflict ("view " ++ before.displayName removed ++
      " cannot be removed because " ++ reason))
  | none => .ok ()

def viewsTransition (repo : Repository) (next : RepoConfig)
    (openRequestsByView : SortedMap ViewId ℕ) : Except DomainError (Option ViewsTransition) := do
  let before := repo.repoConfig.views
  let after := next.views
  if before.visibilityShape = after.visibilityShape then
    return none
  ((before.definitions.map (·.id)).filter fun id => (after.get id).isNone).forM fun removed =>
    ensureViewRemovable repo next before removed openRequestsByView
  return some { before, after }

/-- A transition is recorded when the shape of the views changes. -/
theorem viewsTransition_eq_ok {repo : Repository} {next : RepoConfig}
    {openRequestsByView : SortedMap ViewId ℕ} {views : Option ViewsTransition}
    (h : viewsTransition repo next openRequestsByView = .ok views) :
    (repo.repoConfig.views.visibilityShape = next.views.visibilityShape ∧ views = none) ∨
      repo.repoConfig.views.visibilityShape ≠ next.views.visibilityShape ∧
        views = some ⟨repo.repoConfig.views, next.views⟩ := by
  rw [viewsTransition] at h
  split_ifs at h with hshape
  · cases h
    exact .inl ⟨hshape, rfl⟩
  · obtain ⟨-, hrest⟩ := Mutation.except_unit_bind_eq_ok.mp h
    cases hrest
    exact .inr ⟨hshape, rfl⟩

theorem ne_none_of_viewsTransition {repo : Repository} {next : RepoConfig}
    {openRequestsByView : SortedMap ViewId ℕ} {views : Option ViewsTransition}
    (h : viewsTransition repo next openRequestsByView = .ok views) :
    views ≠ none ↔ repo.repoConfig.views.visibilityShape ≠ next.views.visibilityShape := by
  rcases viewsTransition_eq_ok h with ⟨hshape, rfl⟩ | ⟨hshape, rfl⟩
  · exact iff_of_false (fun hne => hne rfl) (fun hne => hne hshape)
  · exact iff_of_true (Option.some_ne_none _) hshape

/-- A recorded transition changes the views. -/
theorem before_ne_after_of_viewsTransition {repo : Repository} {next : RepoConfig}
    {openRequestsByView : SortedMap ViewId ℕ} {views : Option ViewsTransition}
    (h : viewsTransition repo next openRequestsByView = .ok views) :
    ∀ transition ∈ views, transition.before ≠ transition.after := by
  rintro transition hmem
  rcases viewsTransition_eq_ok h with ⟨-, rfl⟩ | ⟨hshape, rfl⟩
  · cases hmem
  · obtain rfl := Option.mem_some_iff.mp hmem
    exact fun heq => hshape (congrArg Views.visibilityShape heq)

/-! ## The changes of an update -/

def sourceContentMatches : Option SourceBlob → Option SourceBlob → Bool
  | some left, some right =>
    left.sha256 == right.sha256 && left.gitOid == right.gitOid &&
      left.gitFileMode == right.gitFileMode && left.sizeBytes == right.sizeBytes
  | none, none => true
  | _, _ => false

inductive WrittenFileVisibility where
  | fromConfig
  | existingFromPolicy
  deriving DecidableEq

def writtenLabel (policy : Policy) (config : RepoConfig) (path : ScopePath) :
    WrittenFileVisibility → Option SourceBlob → Option SourceBlob → ViewId
  | _, _, none => policy.label path config.views
  | .fromConfig, _, some _ => config.labelForPath path
  | .existingFromPolicy, none, some _ => config.labelForPath path
  | .existingFromPolicy, some _, some _ => policy.label path config.views

def buildFileChanges (liveTree : LiveFiles) (policy : Policy) (config : RepoConfig)
    (changes : List ReviewedContentChange) (writtenVisibility : WrittenFileVisibility) :
    List FileChange :=
  changes.filterMap fun change =>
    let oldContent := liveTree.get? change.path
    if sourceContentMatches oldContent change.content then none
    else some {
      path := change.path
      oldContent
      newContent := change.content
      label := writtenLabel policy config change.path writtenVisibility oldContent change.content }

/-- Write the new content of one change into a tree. -/
def FileChange.applyTo (tree : LiveFiles) (change : FileChange) : LiveFiles :=
  match change.newContent with
  | some content => tree.insert change.path content
  | none => tree.erase change.path

def mainPackConflict (error : MainPackAdvanceError) : ReviewedUpdateError :=
  .conflict <| match error with
    | .sequenceOverflow => "Git push sequence overflow"
    | .notNextSequence | .wrongPrerequisites => "Git push does not advance the current main head"
    | .wrongOwner | .wrongHead => "Git push main pack does not match the logical head"

/-! ## The origin of a merge -/

/-- Where a request was merged from: the main branch itself, or a narrower view. -/
inductive RequestMergeOrigin where
  | canonical (requestId requestHeadOid : String)
  | view (requestId : String) (view : ViewId) (baseOid : String) (parentOids : List String)
      (requestHeadOid : String) (commits : List NativeRequestCommit)
  deriving DecidableEq

def RequestMergeOrigin.intoLogicalOrigin : RequestMergeOrigin → LogicalCommitOrigin
  | .canonical requestId requestHeadOid => .privateRequestMerge requestId requestHeadOid
  | .view requestId target baseOid parentOids requestHeadOid commits =>
    .requestMerge requestId target baseOid parentOids requestHeadOid true commits

def NativeRequestCommit.isMalformed (commit : NativeRequestCommit) : Bool :=
  commit.oid.isEmpty || commit.treeOid.isEmpty || commit.parentOids.isEmpty ||
    commit.parentOids.any (·.isEmpty)

/-- What the walk over the native commits knows: those it has seen, and whether one of them has the
base as a parent. -/
structure NativeWalk where
  seen : List String
  descendsFromBase : Bool

/-- One parent of a native commit: a commit of the range that came before, or a commit of the
view. -/
def NativeWalk.parent (baseOid : String) (rangeOids viewParentOids : List String)
    (outside : ReviewedUpdateError) (walk : NativeWalk) (parentOid : String) :
    Except ReviewedUpdateError NativeWalk :=
  let walk := { walk with descendsFromBase := walk.descendsFromBase || parentOid == baseOid }
  if parentOid ∈ rangeOids then
    if parentOid ∈ walk.seen then .ok walk
    else .error (.conflict "request merge native commits are not ordered ancestor-first")
  else if parentOid ∉ viewParentOids then .error outside
  else .ok walk

def NativeWalk.commit (baseOid : String) (rangeOids viewParentOids : List String)
    (outside : ReviewedUpdateError) (walk : NativeWalk) (commit : NativeRequestCommit) :
    Except ReviewedUpdateError NativeWalk := do
  let walk ← commit.parentOids.foldlM (NativeWalk.parent baseOid rangeOids viewParentOids outside)
    walk
  return { walk with seen := commit.oid :: walk.seen }

def validateCommitOrigin (origin : LogicalCommitOrigin) (changes : List FileChange)
    (repoConfig : RepoConfig) : Except ReviewedUpdateError Unit :=
  match origin with
  | .requestMerge _ view baseOid parentOids requestHeadOid _ commits => do
    let views := repoConfig.views
    Mutation.rejectIf ((views.get view).isNone = true ∨ view = views.full)
      (.conflict "request merge preserves commits only for a view narrower than the full view")
    let editable (path : ScopePath) (label : ViewId) : Bool :=
      decide (label ∈ views.labels view) && !isRequestProtectedPath path
    Mutation.rejectIf (changes.any (fun change => !editable change.path change.label) = true)
      (.conflict "request merge contains changes outside its view")
    match commits.getLast? with
    | none => throw (.conflict "request merge has no native commits")
    | some last =>
      Mutation.rejectIf (last.oid ≠ requestHeadOid)
        (.conflict "request merge native commits do not end at request head")
      let rangeOids := commits.map (·.oid)
      Mutation.rejectIf (¬rangeOids.Nodup ∨ parentOids = [] ∨ ¬parentOids.Nodup ∨ "" ∈ parentOids ∨
          commits.any NativeRequestCommit.isMalformed = true)
        (.conflict "request merge contains malformed native commit facts")
      let touchedPaths := commits.flatMap (·.changedPaths)
      Mutation.rejectIf
        (touchedPaths.any (fun path => !editable path (repoConfig.labelForPath path)) = true ∨
          changes.any (fun change => change.path ∉ touchedPaths) = true)
        (.conflict "request merge native paths do not cover the logical changes")
      let outside := .domain (.conflict ("request merge contains a parent outside " ++
        views.displayName view ++ " history"))
      let walk ← commits.foldlM (NativeWalk.commit baseOid rangeOids parentOids outside) ⟨[], false⟩
      Mutation.rejectIf (walk.descendsFromBase = false ∨ baseOid ∉ parentOids)
        (.conflict "request merge does not include its view's current base as a parent")
  | _ => .ok ()

/-! ## Updates that keep the configuration -/

structure ContentPushState where
  changeVersion : ℕ
  contentVersion : ℕ
  policy : Policy
  repoConfig : RepoConfig
  liveFiles : LiveFiles
  gitHead : Option GitHead

def Repository.contentPushState (repo : Repository) : ContentPushState where
  changeVersion := repo.record.changeVersion
  contentVersion := repo.record.contentVersion
  policy := repo.policy
  repoConfig := repo.repoConfig
  liveFiles := repo.liveFiles
  gitHead := repo.gitHead

structure AcceptedContentPush where
  changeVersion : ℕ
  contentVersion : ℕ
  policy : Policy
  gitHead : GitHead
  mainPack : GitPoolPack
  logicalCommit : LogicalCommit

def acceptContentUpdate (state : ContentPushState) (update : ReviewedUpdateInput)
    (allowUnchangedTree : Bool) (origin : LogicalCommitOrigin) :
    Except ReviewedUpdateError AcceptedContentPush := do
  (validateMainPackAdvance state.gitHead update.gitHead update.mainPack).mapError mainPackConflict
  Mutation.rejectIf (update.changes = [] ∧ allowUnchangedTree = false)
    (.badRequest "update must include file changes")
  Mutation.rejectIf (update.config ≠ state.repoConfig)
    (.conflict "repo config changed since review; rerun scope push --main")
  let fileChanges := buildFileChanges state.liveFiles state.policy update.config update.changes
    .existingFromPolicy
  Mutation.rejectIf (fileChanges = [] ∧ allowUnchangedTree = false)
    (.badRequest "update did not change the live tree")
  validateCommitOrigin origin fileChanges update.config
  let deleted := fileChanges.filter fun change =>
    change.oldContent.isSome && change.newContent.isNone
  let added := fileChanges.filter fun change =>
    change.oldContent.isNone && change.newContent.isSome
  let policy ← ((deleted.foldl (fun policy change => policy.removeRule change.path)
    state.policy).addRules
      (added.map fun change => ⟨change.path, update.config.labelForPath change.path⟩)).mapError
        .invalidPolicy
  let changeVersion := U64.saturatingAdd state.changeVersion 1
  let logicalPrefix := if allowUnchangedTree then "rv_merge" else "rv_push"
  return {
    changeVersion
    contentVersion := U64.saturatingAdd state.contentVersion 1
    policy
    gitHead := { update.gitHead with changeVersion }
    mainPack := update.mainPack
    logicalCommit := {
      occurredAtUnix := update.occurredAtUnix
      id := logicalPrefix ++ "_" ++ update.gitHead.headOid
      origin
      authorId := update.authorId
      message := update.message
      changes := fileChanges } }

def acceptContentPush (state : ContentPushState) (update : ReviewedUpdateInput) :
    Except ReviewedUpdateError AcceptedContentPush :=
  acceptContentUpdate state update false (.canonicalPush update.gitHead.headOid)

def acceptRequestMerge (state : ContentPushState) (update : ReviewedUpdateInput)
    (origin : RequestMergeOrigin) : Except ReviewedUpdateError AcceptedContentPush :=
  acceptContentUpdate state update true origin.intoLogicalOrigin

def Repository.withAccepted (repo : Repository) (accepted : AcceptedContentPush) : Repository :=
  { repo with
    liveFiles := accepted.logicalCommit.changes.foldl FileChange.applyTo repo.liveFiles
    record := { repo.record with
      changeVersion := accepted.changeVersion
      contentVersion := accepted.contentVersion
      lifecycleState := .ready }
    policy := accepted.policy
    graph := { repo.graph with commits := repo.graph.commits ++ [accepted.logicalCommit] }
    gitHead := some accepted.gitHead
    firstPushToken := none }

def applyAcceptedContentPush (accepted : AcceptedContentPush) :
    EStateM ReviewedUpdateError Repository GitPoolPack := do
  modify (·.withAccepted accepted)
  return accepted.mainPack

def applyContentOnlyUpdate (update : ReviewedUpdateInput) :
    EStateM ReviewedUpdateError Repository GitPoolPack := do
  let accepted ← Mutation.check fun repo => acceptContentPush repo.contentPushState update
  applyAcceptedContentPush accepted

def applyRequestMergeToRepo (update : ReviewedUpdateInput) (origin : RequestMergeOrigin) :
    EStateM ReviewedUpdateError Repository GitPoolPack := do
  let accepted ← Mutation.check fun repo => acceptRequestMerge repo.contentPushState update origin
  applyAcceptedContentPush accepted

end ScopeVcs

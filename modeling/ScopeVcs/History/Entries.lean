import ScopeVcs.Lib.Bytes
import ScopeVcs.Lib.Text
import ScopeVcs.Projection.Graph
import ScopeVcs.ReviewedUpdates.Content

/-! # History entries

The history page of a view lists one entry for each commit and each change set that the view sees. The
entries are read off the projection of the view: replaying it on the files that the view shows tells
which files an entry changed and which it showed or hid.
-/

namespace ScopeVcs

inductive FileChangeKind where
  | added
  | modified
  | deleted
  deriving DecidableEq

structure HistoryEntryFile where
  path : ScopePath
  kind : FileChangeKind
  oldContent : Option SourceBlob
  newContent : Option SourceBlob
  label : ViewId
  deriving DecidableEq

structure HistoryEntryVisibilityChange where
  id : String
  path : ScopePath
  oldLabel : ViewId
  newLabel : ViewId
  file : Option HistoryEntryFile
  deriving DecidableEq

structure HistoryNativeCommits where
  view : ViewId
  commits : List NativeRequestCommit
  deriving DecidableEq

inductive HistoryEntryKind where
  | push
  | mergedRequest
  | visibilityChange
  | viewsChange
  deriving DecidableEq

structure ViewHistoryEntry where
  occurredAtUnix : Option ℤ
  id : String
  sourceId : String
  parentId : Option String
  kind : HistoryEntryKind
  author : Option String
  message : String
  files : List HistoryEntryFile
  visibilityChanges : List HistoryEntryVisibilityChange
  nativeCommits : Option HistoryNativeCommits
  views : Option ViewsTransition
  deriving DecidableEq

def visibilityChangeId (setId : String) (path : ScopePath) : String := setId ++ ":" ++ path.asStr

/-! ## Replaying a projection -/

def ProjectionMaterialization.preserves : ProjectionMaterialization → Bool
  | .preserveGitCommit .. => true
  | .generate => false

/-- What a view sees of one logical commit. -/
structure ProjectedAction where
  author : Option String
  message : String
  files : List HistoryEntryFile
  paths : SortedSet ScopePath
  preservesGitCommits : Bool
  deriving DecidableEq

def ProjectedAction.default : ProjectedAction := ⟨none, "", [], ∅, false⟩

structure ProjectionHistory where
  actions : SortedMap String ProjectedAction
  visibility : SortedMap String (Option HistoryEntryFile)
  boundaries : SortedMap String (List (ScopePath × ViewId))

def ProjectionHistory.empty : ProjectionHistory := ⟨∅, ∅, ∅⟩

/-- The file of an entry that a change makes in a tree, if it makes a difference. -/
def entryFile (tree : LiveFiles) (change : ProjectedChange) : Option HistoryEntryFile :=
  let oldContent := tree.get? change.path
  let newContent := change.newContent
  if sourceContentMatches oldContent newContent then none
  else match oldContent, newContent with
    | none, some _ => some ⟨change.path, .added, oldContent, newContent, change.label⟩
    | some _, some _ => some ⟨change.path, .modified, oldContent, newContent, change.label⟩
    | some _, none => some ⟨change.path, .deleted, oldContent, newContent, change.label⟩
    | none, none => none

/-- The path of a change is visible in a tree or gets visible. -/
def touchesVisiblePath (tree : LiveFiles) (change : ProjectedChange) : Bool :=
  tree.contains change.path || change.newContent.isSome

/-- A replay: the tree so far, and what was found. -/
structure Replay where
  tree : LiveFiles
  history : ProjectionHistory

namespace Replay

/-- One change of a change set; what neither was visible nor gets visible is passed over. -/
def visibilityChange (setId : String) (replay : Replay) (change : ProjectedChange) : Replay :=
  let tree := change.applyTo replay.tree
  let history := replay.history
  if touchesVisiblePath replay.tree change then {
    tree
    history := { history with
      visibility := history.visibility.insert (visibilityChangeId setId change.path)
        (entryFile replay.tree change)
      boundaries := history.boundaries.insert setId
        ((history.boundaries.get? setId).getD [] ++ [(change.path, change.label)]) } }
  else { replay with tree }

/-- One change of a commit. -/
def contentChange (state : LiveFiles × ProjectedAction) (change : ProjectedChange) :
    LiveFiles × ProjectedAction :=
  (change.applyTo state.1, { state.2 with
    paths := state.2.paths.insert change.path ()
    files := state.2.files ++ (entryFile state.1 change).toList })

def commit (replay : Replay) (commit : ProjectedCommit) : Replay :=
  match commit.visibilityChangeSetId with
  | some setId => commit.changes.foldl (visibilityChange setId) replay
  | none =>
    let action := (replay.history.actions.get? commit.logicalCommitId).getD .default
    let (tree, action) := commit.changes.foldl contentChange (replay.tree, { action with
      preservesGitCommits := action.preservesGitCommits || commit.materialization.preserves
      author := commit.author
      message := commit.message })
    { tree, history := { replay.history with
        actions := replay.history.actions.insert commit.logicalCommitId action } }

end Replay

/-- `ProjectionHistory::replay`. -/
def ProjectionHistory.replay (tree : LiveFiles) (projection : Projection) : ProjectionHistory :=
  (projection.commits.foldl Replay.commit ⟨tree, .empty⟩).history

/-! ## Messages -/

def viewsChangeMessage : ℕ → String
  | 0 => "Updated views"
  | 1 => "Updated views and 1 label"
  | count => "Updated views and " ++ toString count ++ " labels"

def visibilityReferenceView (views : Views) (view : ViewId) : Option ViewId :=
  if view = views.full then views.anyone else some view

def visibilityChangeMessage (changes : List HistoryEntryVisibilityChange) (views : Views)
    (reference : Option ViewId) (referenceName : String) : String :=
  let labels := reference.map views.labels
  let shown (label : ViewId) : Bool := labels.any fun labels => decide (label ∈ labels)
  let entered := changes.countP fun change => shown change.newLabel && !shown change.oldLabel
  let left := changes.countP fun change => shown change.oldLabel && !shown change.newLabel
  let files (count : ℕ) : String := if count = 1 then "file" else "files"
  if left = 0 ∧ entered = changes.length then
    toString entered ++ " " ++ files entered ++ " entered the " ++ referenceName ++ " view"
  else if entered = 0 ∧ left = changes.length then
    toString left ++ " " ++ files left ++ " left the " ++ referenceName ++ " view"
  else "Updated visibility for " ++ toString changes.length ++ " " ++ files changes.length

/-- `HistoryEntry::message_in`: changes of visibility are described in the words of the views that
are current. -/
def ViewHistoryEntry.messageIn (entry : ViewHistoryEntry) (views : Views) (view : ViewId) : String :=
  match entry.kind with
  | .visibilityChange =>
    let reference := visibilityReferenceView views view
    visibilityChangeMessage entry.visibilityChanges views reference
      ((reference.map views.displayName).getD "")
  | _ => entry.message

/-! ## Entries -/

section Entries

variable (projected : ProjectionHistory) (views : Views) (view : ViewId)

def visibilityChangesForAction (sets : List VisibilityChangeSet) (content : Option ProjectedAction) :
    List HistoryEntryVisibilityChange :=
  sets.flatMap fun set => set.changes.filterMap fun change =>
    let id := visibilityChangeId set.id change.path
    let boundary := projected.visibility.get? id
    let visibleInContent := content.any fun action => action.paths.contains change.path
    if view ≠ views.full ∧ boundary = none ∧ visibleInContent = false then none
    else some {
      id
      path := change.path
      oldLabel := change.oldLabel
      newLabel := change.newLabel
      file := boundary.join }

/-- What a transition of the views shows or hides without a change of the label. -/
def viewsBoundaryChanges (set : VisibilityChangeSet) : List HistoryEntryVisibilityChange :=
  (((projected.boundaries.get? set.id).getD []).filter fun boundary =>
      !set.changes.any fun change => change.path == boundary.1).map fun boundary =>
    let id := visibilityChangeId set.id boundary.1
    { id
      path := boundary.1
      oldLabel := boundary.2
      newLabel := boundary.2
      file := (projected.visibility.get? id).join }

/-- The entry of one change set that is not part of another entry. -/
def visibilityAction (set : VisibilityChangeSet) : Option ViewHistoryEntry :=
  let full := decide (view = views.full)
  let entry (kind : HistoryEntryKind) (changes : List HistoryEntryVisibilityChange)
      (message : String) : ViewHistoryEntry := {
    occurredAtUnix := if full then set.occurredAtUnix else none
    id := set.id
    sourceId := set.id
    parentId := none
    kind
    author := if full then some set.authorId else none
    message
    files := []
    visibilityChanges := changes
    nativeCommits := none
    views := set.views }
  match set.views with
  | some _ =>
    let source := set.sourceUpdateId.bind projected.actions.get?
    let changes := visibilityChangesForAction projected views view [set] source
    some (entry .viewsChange (changes ++ viewsBoundaryChanges projected set)
      (viewsChangeMessage changes.length))
  | none =>
    let changes := visibilityChangesForAction projected views view [set] none
    if changes = [] then none
    else
      let reference := visibilityReferenceView views view
      some (entry .visibilityChange changes (visibilityChangeMessage changes views reference
        ((reference.map ViewId.asStr).getD "")))

def actionMetadata (logical : LogicalCommit) (source : Option ProjectedAction) :
    Option String × String × Option ℤ :=
  let (author, message) :=
    if view = views.full ∨ source.any (·.preservesGitCommits) = true then
      (some logical.authorId, logical.message)
    else (source.map fun action => (action.author, action.message)).getD
      (none, "Projected public update")
  (author, message, if author.isSome then logical.occurredAtUnix else none)

def entryNativeCommits (logical : LogicalCommit) (source : Option ProjectedAction) :
    Option HistoryNativeCommits :=
  match logical.origin with
  | .requestMerge _ originView _ _ _ _ commits =>
    if view = views.full ∨ source.any (·.preservesGitCommits) = true then
      some ⟨originView, commits⟩
    else none
  | _ => none

def LogicalCommitOrigin.entryKind : LogicalCommitOrigin → HistoryEntryKind
  | .canonicalPush _ => .push
  | .privateRequestMerge .. => .mergedRequest
  | .requestMerge .. => .mergedRequest

/-- The entry of one commit, with the change sets that belong to it. -/
def contentAction (logical : LogicalCommit) (sets : List VisibilityChangeSet) :
    Option ViewHistoryEntry :=
  let source := projected.actions.get? logical.id
  let visibilityChanges := visibilityChangesForAction projected views view sets source
  let files := (source.map (·.files)).getD []
  let nativeCommits := entryNativeCommits views view logical source
  if files = [] ∧ visibilityChanges = [] ∧ nativeCommits = none then none
  else
    let (author, message, occurredAtUnix) := actionMetadata views view logical source
    some {
      occurredAtUnix
      id := logical.id
      sourceId := logical.id
      parentId := none
      kind := logical.origin.entryKind
      author
      message
      files
      visibilityChanges
      nativeCommits
      views := none }

end Entries

/-! ### The order of the entries -/

/-- The commit that a change set belongs to. -/
def entrySource (commits : List LogicalCommit) (set : VisibilityChangeSet) : Option String :=
  set.sourceUpdateId.filter fun id =>
    set.views.isNone && commits.any fun commit => commit.id == id

/-- The commit that a change set comes after. -/
def entryAnchor (commits : List LogicalCommit) (set : VisibilityChangeSet) : Option String :=
  set.anchorCommitId.filter fun id => commits.any fun commit => commit.id == id

/-- The entries of the commits; of two commits with one id the first takes the change sets. -/
def commitEntries (projected : ProjectionHistory) (views : Views) (view : ViewId)
    (whole : List LogicalCommit) :
    List LogicalCommit → List VisibilityChangeSet → List VisibilityChangeSet → List ViewHistoryEntry
  | [], _, _ => []
  | logical :: commits, sourced, anchored =>
    (contentAction projected views view logical
        (sourced.filter fun set => entrySource whole set = some logical.id)).toList ++
      ((anchored.filter fun set => entryAnchor whole set = some logical.id).filterMap
          (visibilityAction projected views view) ++
        commitEntries projected views view whole commits
          (sourced.filter fun set => entrySource whole set ≠ some logical.id)
          (anchored.filter fun set => entryAnchor whole set ≠ some logical.id))

/-- The entries, oldest first, before they are linked to each other. -/
def unlinkedEntries (projected : ProjectionHistory) (views : Views) (view : ViewId)
    (commits : List LogicalCommit) (sets : List VisibilityChangeSet) : List ViewHistoryEntry :=
  let sourced := sets.filter fun set => (entrySource commits set).isSome
  let others := sets.filter fun set => (entrySource commits set).isNone
  (others.filter fun set => (entryAnchor commits set).isNone).filterMap
      (visibilityAction projected views view) ++
    commitEntries projected views view commits commits sourced
      (others.filter fun set => (entryAnchor commits set).isSome)

/-! ## Generations -/

/-- What the digest of a generation rests on: SHA-256 in hexadecimal, and the JSON text of views. -/
structure HistoryDigest where
  sha256Hex : List UInt8 → String
  viewsJson : Views → List UInt8

def historyGenerationVersion : String := "v11"

def hashField (label : String) (value : List UInt8) : List UInt8 :=
  let label := Text.utf8 label
  Bytes.be 8 label.length ++ label ++ (Bytes.be 8 value.length ++ value)

def hashText (label value : String) : List UInt8 := hashField label (Text.utf8 value)

def hashOptionalField (label : String) : Option String → List UInt8
  | some value => hashText label "present" ++ hashText label value
  | none => hashText label "absent"

def hashOptionalBlob (label : String) : Option SourceBlob → List UInt8
  | some blob => hashText label "present" ++ hashText "sha256" blob.sha256 ++
      hashText "git_oid" blob.gitOid ++ hashText "mode" blob.gitFileMode ++
      hashText "size" (toString blob.sizeBytes)
  | none => hashText label "absent"

def HistoryEntryKind.hashName : HistoryEntryKind → String
  | .push => "push"
  | .mergedRequest => "merged_request"
  | .visibilityChange => "visibility_change"
  | .viewsChange => "views_change"

def hashNativeCommit (commit : NativeRequestCommit) : List UInt8 :=
  hashText "native_oid" commit.oid ++ hashText "native_tree" commit.treeOid ++
    commit.parentOids.flatMap (hashText "native_parent")

def hashFile (file : HistoryEntryFile) : List UInt8 :=
  hashText "path" file.path.asStr ++ hashText "visibility" file.label.asStr ++
    hashOptionalBlob "old" file.oldContent ++ hashOptionalBlob "new" file.newContent

def hashVisibilityChange (change : HistoryEntryVisibilityChange) : List UInt8 :=
  hashText "visibility_change_id" change.id ++
    (change.file.map fun file => hashOptionalBlob "visibility_old" file.oldContent ++
      hashOptionalBlob "visibility_new" file.newContent).getD [] ++
    hashText "visibility_path" change.path.asStr ++ hashText "old_label" change.oldLabel.asStr ++
    hashText "new_label" change.newLabel.asStr

def historyGenerationStart (digest : HistoryDigest) (repoId : String) (view : ViewId) : String :=
  digest.sha256Hex (hashText "semantics" historyGenerationVersion ++ hashText "repo" repoId ++
    hashText "view" view.asStr)

def historyGenerationAfter (digest : HistoryDigest) (generation : String) (entry : ViewHistoryEntry) :
    String :=
  digest.sha256Hex (hashText "generation" generation ++ hashText "entry" entry.id ++
    hashText "source" entry.sourceId ++ hashText "kind" entry.kind.hashName ++
    hashOptionalField "parent" entry.parentId ++ hashOptionalField "author" entry.author ++
    hashOptionalField "occurred_at" (entry.occurredAtUnix.map toString) ++
    hashText "message" entry.message ++
    (entry.nativeCommits.map fun native => native.commits.flatMap hashNativeCommit).getD [] ++
    entry.files.flatMap hashFile ++ entry.visibilityChanges.flatMap hashVisibilityChange ++
    (entry.views.map fun transition =>
      hashField "views_before" (digest.viewsJson transition.before) ++
        hashField "views_after" (digest.viewsJson transition.after)).getD [])

/-! ## Linked entries -/

structure HistoryCursor where
  lastEntryId : Option String
  generation : String
  deriving DecidableEq

def HistoryCursor.start (digest : HistoryDigest) (repoId : String) (view : ViewId) : HistoryCursor where
  lastEntryId := none
  generation := historyGenerationStart digest repoId view

/-- Entries with their parents, and the cursor after them. -/
def linkEntries (digest : HistoryDigest) (cursor : HistoryCursor) :
    List ViewHistoryEntry → List ViewHistoryEntry × HistoryCursor
  | [] => ([], cursor)
  | entry :: entries =>
    let entry := { entry with parentId := cursor.lastEntryId }
    let (entries, cursor) := linkEntries digest
      ⟨some entry.id, historyGenerationAfter digest cursor.generation entry⟩ entries
    (entry :: entries, cursor)

def historyEntriesAfter (digest : HistoryDigest) (cursor : HistoryCursor) (tree : LiveFiles)
    (projection : Projection) (graph : SourceGraph) (sets : List VisibilityChangeSet)
    (views : Views) (view : ViewId) : List ViewHistoryEntry × HistoryCursor :=
  linkEntries digest cursor
    (unlinkedEntries (.replay tree projection) views view graph.commits sets)

structure HistoryView where
  repoId : String
  view : ViewId
  generation : String
  entries : List ViewHistoryEntry
  deriving DecidableEq

/-- `history_view`: the entries of a view, newest first. -/
def historyView (digest : HistoryDigest) (graph : SourceGraph) (sets : List VisibilityChangeSet)
    (views : Views) (view : ViewId) : HistoryView :=
  let projection := projectGraph graph sets views view
  let (entries, cursor) := historyEntriesAfter digest
    (.start digest projection.repoId view) ∅ projection graph sets views view
  { repoId := projection.repoId, view, generation := cursor.generation, entries := entries.reverse }

/-! ## The tree of a history -/

structure HistoryTreeFile where
  path : ScopePath
  content : SourceBlob
  label : ViewId
  deriving DecidableEq

abbrev HistoryTree := SortedMap ScopePath HistoryTreeFile

namespace HistoryTree

def applyFile (tree : HistoryTree) (file : HistoryEntryFile) : HistoryTree :=
  match file.newContent with
  | some content => tree.insert file.path ⟨file.path, content, file.label⟩
  | none => tree.erase file.path

def applyVisibilityChange (tree : HistoryTree) (change : HistoryEntryVisibilityChange) :
    HistoryTree :=
  match change.file with
  | some file => tree.applyFile file
  | none =>
    match tree.get? change.path with
    | some file => tree.insert change.path { file with label := change.newLabel }
    | none => tree

def applyEntry (tree : HistoryTree) (entry : ViewHistoryEntry) : HistoryTree :=
  entry.visibilityChanges.foldl applyVisibilityChange (entry.files.foldl applyFile tree)

end HistoryTree

/-- `history_tree`, for entries with the oldest first. -/
def historyTree (entries : List ViewHistoryEntry) : List HistoryTreeFile :=
  (entries.foldl HistoryTree.applyEntry ∅).entries.map Prod.snd

end ScopeVcs

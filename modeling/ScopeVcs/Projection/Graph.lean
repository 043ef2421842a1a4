import ScopeVcs.Projection.LabelledTree

/-! # Projecting the history

`projectGraph` computes what one view sees of a history: the full view all commits, a narrower view
the changes that it shows, with commits of its own where a change of labels or of the views shows or
hides a file.
-/

namespace ScopeVcs

/-- Where a projection goes on. -/
structure ProjectionCursor where
  commitCount : ℕ
  lastProjectedId : Option String
  views : Views
  deriving DecidableEq

def projectedId (view : ViewId) (sourceId : String) (sequence : ℕ) : String :=
  "pv_" ++ view.asStr ++ "_" ++ sourceId ++ "_" ++ toString sequence

namespace ProjectionCursor

def start (views : Views) : ProjectionCursor := ⟨0, none, views⟩

/-- The views after the last transition among some steps. -/
def lastViews (views : Views) (steps : List FoldStep) : Views :=
  (steps.reverse.findSome? fun step => match step with
    | .set set => set.views.map (·.after)
    | .commit _ => none).getD views

def advanced (cursor : ProjectionCursor) (projection : Projection) (graph : SourceGraph)
    (sets : List VisibilityChangeSet) : ProjectionCursor where
  commitCount := cursor.commitCount + projection.commits.length
  lastProjectedId :=
    (projection.commits.getLast?.map (·.projectedId)).or cursor.lastProjectedId
  views := lastViews cursor.views (foldSteps graph sets)

def nextId (cursor : ProjectionCursor) (view : ViewId) (sourceId : String) (appended : ℕ) :
    String :=
  projectedId view sourceId (cursor.commitCount + appended + 1)

end ProjectionCursor

/-- The views before the first transition. -/
def initialViews (sets : List VisibilityChangeSet) (current : Views) : Views :=
  (sets.findSome? fun set => set.views.map (·.before)).getD current

def FileChange.projected (change : FileChange) : ProjectedChange :=
  { path := change.path, newContent := change.newContent, label := change.label }

/-! ## The full view -/

def projectFullCommit (cursor : ProjectionCursor) (view : ViewId)
    (state : List ProjectedCommit × Option String) (logical : LogicalCommit) :
    List ProjectedCommit × Option String :=
  if logical.changes = [] then state
  else
    let projectedId := cursor.nextId view logical.id state.1.length
    (state.1 ++ [{
      projectedId
      logicalCommitId := logical.id
      visibilityChangeSetId := none
      parentProjectedId := state.2
      author := some logical.authorId
      message := logical.message
      changes := logical.changes.map (·.projected)
      materialization := .generate }], some projectedId)

def projectFullGraph (cursor : ProjectionCursor) (graph : SourceGraph) (view : ViewId) :
    Projection where
  repoId := graph.repoId
  viewKey := view
  commits := (graph.commits.foldl (projectFullCommit cursor view) ([], cursor.lastProjectedId)).1

/-! ## A narrower view -/

/-- The state of a projection; the labelled tree is kept when there is a transition of the views. -/
structure ViewFold where
  views : Views
  tree : Option LabelledTree
  commits : List ProjectedCommit
  lastVisible : Option String

section Fold

variable (cursor : ProjectionCursor) (view : ViewId) (graph : SourceGraph)

/-- The changes of a commit that the view shows. -/
def visibleChanges (views : Views) (view : ViewId) (logical : LogicalCommit) :
    List ProjectedChange :=
  (logical.changes.filter fun change => views.shows view change.path change.label).map (·.projected)

/-- A native commit that a merge preserves; the changes and the message are those of its head. -/
def preservedCommit (logical : LogicalCommit) (changes : List ProjectedChange) (isHead : Bool)
    (native : NativeRequestCommit) : ProjectedCommit where
  projectedId := native.oid
  logicalCommitId := logical.id
  visibilityChangeSetId := none
  parentProjectedId := native.parentOids.head?
  author := none
  message := if isHead then logical.message else "Preserved request commit"
  changes := if isHead then changes else []
  materialization := .preserveGitCommit native.oid native.parentOids native.treeOid

/-- The native commits that a merge preserves in the view it came from, when that shows all its
changes. -/
def preservedNative (view : ViewId) (logical : LogicalCommit) (visible : ℕ) :
    List NativeRequestCommit :=
  match logical.origin with
  | .requestMerge _ originView _ _ _ true commits =>
    if visible = logical.changes.length ∧ originView = view then commits else []
  | _ => []

namespace ViewFold

def projectContent (fold : ViewFold) (logical : LogicalCommit) : ViewFold :=
  let visible := visibleChanges fold.views view logical
  let preserved := preservedNative view logical visible.length
  if preserved ≠ [] then
    { fold with
      commits := fold.commits ++ preserved.mapIdx fun index commit =>
        preservedCommit logical visible (index + 1 == preserved.length) commit
      lastVisible := preserved.getLast?.map (·.oid) }
  else if visible = [] then fold
  else
    let hidden := decide (visible.length < logical.changes.length)
    let projectedId := cursor.nextId view logical.id fold.commits.length
    { fold with
      commits := fold.commits ++ [{
        projectedId
        logicalCommitId := logical.id
        visibilityChangeSetId := none
        parentProjectedId := fold.lastVisible
        author := if hidden then none else some logical.authorId
        message := if hidden then "Projected public update" else logical.message
        changes := visible
        materialization := .generate }]
      lastVisible := some projectedId }

def commit (fold : ViewFold) (logical : LogicalCommit) : ViewFold :=
  let fold := fold.projectContent cursor view logical
  { fold with tree := fold.tree.map (·.applyCommit logical) }

end ViewFold

/-- What a view sees of one change of visibility; what the source commit shows already is left to
it. -/
def visibleRelabel (before after : Views) (view : ViewId) (source : Option LogicalCommit)
    (change : VisibilityChange) : Option ProjectedChange :=
  if isRepoControlPath change.path then none
  else match before.shows view change.path change.oldLabel,
      after.shows view change.path change.newLabel with
    | false, true =>
      if source.any fun commit => commit.changes.any fun sourceChange =>
          sourceChange.path == change.path &&
            before.shows view sourceChange.path sourceChange.label then none
      else change.currentContent.map fun content =>
        { path := change.path, newContent := some content, label := change.newLabel }
    | true, false => some { path := change.path, newContent := none, label := change.oldLabel }
    | _, _ => none

/-- What a view sees of a file that keeps its label when the views change. -/
def boundaryChange (before after : Views) (view : ViewId)
    (entry : ScopePath × (SourceBlob × ViewId)) : Option ProjectedChange :=
  match before.shows view entry.1 entry.2.2, after.shows view entry.1 entry.2.2 with
  | false, true => some { path := entry.1, newContent := some entry.2.1, label := entry.2.2 }
  | true, false => some { path := entry.1, newContent := none, label := entry.2.2 }
  | _, _ => none

/-- What a view sees of a change set. -/
def setChanges (before after : Views) (view : ViewId) (source : Option LogicalCommit)
    (tree : Option LabelledTree) (set : VisibilityChangeSet) : List ProjectedChange :=
  set.changes.filterMap (visibleRelabel before after view source) ++
    match set.views, tree with
    | some _, some tree => (tree.entries.filter fun entry =>
        entry.1 ∉ set.changes.map (·.path)).filterMap (boundaryChange before after view)
    | _, _ => []

namespace ViewFold

def sourceUpdate (set : VisibilityChangeSet) : Option LogicalCommit :=
  set.sourceUpdateId.bind fun sourceId => graph.commits.reverse.find? fun commit =>
    commit.id == sourceId

def set (fold : ViewFold) (set : VisibilityChangeSet) : ViewFold :=
  let source := sourceUpdate graph set
  let before := (set.views.map (·.before)).getD fold.views
  let after := (set.views.map (·.after)).getD fold.views
  let changes := setChanges before after view source fold.tree set
  let fold :=
    if changes = [] then fold
    else
      let projectedId := cursor.nextId view set.id fold.commits.length
      { fold with
        commits := fold.commits ++ [{
          projectedId
          logicalCommitId := (source.map (·.id)).getD set.id
          visibilityChangeSetId := some set.id
          parentProjectedId := fold.lastVisible
          author := none
          message :=
            if set.views.isSome then "Projection view boundary"
            else if source.isSome then "Projected public update"
            else if changes.all (·.newContent.isSome) then "Projection baseline"
            else "Projection visibility boundary"
          changes
          materialization := .generate }]
        lastVisible := some projectedId }
  { fold with
    tree := fold.tree.map (·.relabel set)
    views := after }

def step (fold : ViewFold) : FoldStep → ViewFold
  | .commit logical => fold.commit cursor view logical
  | .set set => fold.set cursor view graph set

end ViewFold

end Fold

def projectGraphAfter (cursor : ProjectionCursor) (tree : LabelledTree) (graph : SourceGraph)
    (sets : List VisibilityChangeSet) (view : ViewId) : Projection :=
  if view = cursor.views.full then projectFullGraph cursor graph view
  else
    { repoId := graph.repoId
      viewKey := view
      commits := ((foldSteps graph sets).foldl (ViewFold.step cursor view graph) {
        views := cursor.views
        tree := if sets.any (·.views.isSome) then some tree else none
        commits := []
        lastVisible := cursor.lastProjectedId }).commits }

def projectGraph (graph : SourceGraph) (sets : List VisibilityChangeSet) (views : Views)
    (view : ViewId) : Projection :=
  projectGraphAfter (.start (initialViews sets views)) ∅ graph sets view

end ScopeVcs

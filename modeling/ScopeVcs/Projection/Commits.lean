import ScopeVcs.Projection.Content
import ScopeVcs.Views

/-! # Logical and projected commits

The history of a repository is a list of logical commits, whose changes carry labels. A projection
is what one view sees of it: a list of projected commits, which leave a tree of files.
-/

namespace ScopeVcs

/-! ## Logical commits -/

/-- A commit of a request that a merge brought in as it was. -/
structure NativeRequestCommit where
  oid : String
  parentOids : List String
  treeOid : String
  changedPaths : List ScopePath
  deriving DecidableEq

inductive LogicalCommitOrigin where
  | canonicalPush (sourceHeadOid : String)
  | privateRequestMerge (requestId requestHeadOid : String)
  | requestMerge (requestId : String) (view : ViewId) (baseOid : String)
      (parentOids : List String) (requestHeadOid : String) (preserveCommits : Bool)
      (commits : List NativeRequestCommit)
  deriving DecidableEq

structure FileChange where
  path : ScopePath
  oldContent : Option SourceBlob
  newContent : Option SourceBlob
  label : ViewId
  deriving DecidableEq

structure LogicalCommit where
  occurredAtUnix : Option ℤ
  id : String
  origin : LogicalCommitOrigin
  authorId : String
  message : String
  changes : List FileChange
  deriving DecidableEq

structure SourceGraph where
  repoId : String
  commits : List LogicalCommit
  deriving DecidableEq

/-! ## Projected commits -/

structure ProjectedChange where
  path : ScopePath
  newContent : Option SourceBlob
  label : ViewId
  deriving DecidableEq

/-- How a projected commit becomes a Git commit: anew, or as the one that was merged. -/
inductive ProjectionMaterialization where
  | generate
  | preserveGitCommit (oid : String) (parentOids : List String) (treeOid : String)
  deriving DecidableEq

structure ProjectedCommit where
  projectedId : String
  logicalCommitId : String
  visibilityChangeSetId : Option String
  parentProjectedId : Option String
  author : Option String
  message : String
  changes : List ProjectedChange
  materialization : ProjectionMaterialization
  deriving DecidableEq

structure Projection where
  repoId : String
  viewKey : ViewId
  commits : List ProjectedCommit
  deriving DecidableEq

/-- The files of a tree, by path. -/
abbrev LiveFiles := SortedMap ScopePath SourceBlob

/-- Write the new content of one change into a tree. -/
def ProjectedChange.applyTo (tree : LiveFiles) (change : ProjectedChange) : LiveFiles :=
  match change.newContent with
  | some blob => tree.insert change.path blob
  | none => tree.erase change.path

/-- Write the changes of one commit into a tree. -/
def ProjectedCommit.applyTo (tree : LiveFiles) (commit : ProjectedCommit) : LiveFiles :=
  commit.changes.foldl ProjectedChange.applyTo tree

/-- `Projection::apply_to`, over the commits of a projection. -/
def applyCommits (commits : List ProjectedCommit) (tree : LiveFiles) : LiveFiles :=
  commits.foldl ProjectedCommit.applyTo tree

def Projection.applyTo (projection : Projection) (tree : LiveFiles) : LiveFiles :=
  applyCommits projection.commits tree

@[simp]
theorem ProjectedChange.get?_applyTo (tree : LiveFiles) (change : ProjectedChange)
    (path : ScopePath) :
    (change.applyTo tree).get? path =
      if path = change.path then change.newContent else tree.get? path := by
  unfold applyTo
  cases change.newContent <;> simp

@[simp]
theorem applyCommits_nil (tree : LiveFiles) : applyCommits [] tree = tree := rfl

@[simp]
theorem applyCommits_cons (commit : ProjectedCommit) (commits : List ProjectedCommit)
    (tree : LiveFiles) :
    applyCommits (commit :: commits) tree = applyCommits commits (commit.applyTo tree) := rfl

@[simp]
theorem applyCommits_append (commits commits' : List ProjectedCommit) (tree : LiveFiles) :
    applyCommits (commits ++ commits') tree = applyCommits commits' (applyCommits commits tree) :=
  List.foldl_append

end ScopeVcs

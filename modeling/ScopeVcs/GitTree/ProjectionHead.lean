import ScopeVcs.GitTree.Tree
import ScopeVcs.Lib.Machine
import ScopeVcs.Projection.Commits

/-! # The Git identity of a projection

A projection head is the tree and the last commit id that a sequence of projected commits leads
to. Generated commits are hashed from the tree; preserved ones keep the id they were merged with,
and a range of them must end in the tree and descend from the head it was put on.
-/

namespace ScopeVcs

open Mutation (rejectIf)

/-- The preserved commits of one logical commit that are being applied. -/
structure NativeRange where
  logicalCommitId : String
  baseOid : String
  expectedTreeOid : GitOid
  descendantsOfBase : SortedSet String
  headDescendsFromBase : Bool

def validateNativeRange (range : NativeRange) (projectedTreeOid : GitOid) :
    Except ProjectionIdentityError Unit :=
  if range.expectedTreeOid ≠ projectedTreeOid then .error .preservedCommitTreeMismatch
  else if range.headDescendsFromBase then .ok ()
  else .error .preservedHistoryNotDescendant

/-- An open range must be complete before a generated commit. -/
def validateOpenRange (nativeRange : Option NativeRange) (treeOid : GitOid) :
    Except ProjectionIdentityError Unit :=
  match nativeRange with
  | some range => validateNativeRange range treeOid
  | none => .ok ()

/-- The last change of every path that a commit changes. -/
abbrev TreeDelta := SortedMap GitTreePath (Option TreeFile)

def deltaChange (delta : TreeDelta) (change : ProjectedChange) :
    Except ProjectionIdentityError TreeDelta := do
  let path ← (GitTreePath.fromScopePath change.path).mapError .invalidPath
  match change.newContent with
  | some blob => do
    let file ← treeFile change.path.asStr blob
    return delta.insert path (some file)
  | none => return delta.insert path none

def treeDelta (commit : ProjectedCommit) : Except ProjectionIdentityError TreeDelta :=
  commit.changes.foldlM deltaChange ∅

namespace Tree

/-- The removals of a delta. -/
def removeAll (tree : Tree) (delta : List (GitTreePath × Option TreeFile)) : Tree :=
  delta.foldl (fun tree e => if e.2.isNone then (tree.remove e.1.components).2 else tree) tree

/-- The insertions of a delta. -/
def insertAll (tree : Tree) (delta : List (GitTreePath × Option TreeFile)) :
    Except ProjectionIdentityError Tree :=
  delta.foldlM
    (fun tree e =>
      match e.2 with
      | some file => tree.insert e.1.components file
      | none => .ok tree)
    tree

/-- Removals come first, so that a file may take the place of a directory and the other way. -/
def applyDelta (tree : Tree) (delta : TreeDelta) : Except ProjectionIdentityError Tree :=
  (tree.removeAll delta.entries).insertAll delta.entries

end Tree

structure ProjectionHead where
  tree : Tree
  oid : Option String

/-- A head and the range of preserved commits that is still open on it. -/
structure HeadState where
  tree : Tree
  parentOid : Option String
  nativeRange : Option NativeRange

section

variable (gitObjectOid : String → List UInt8 → String)

/-- The range of preserved commits after one more of them. -/
def extendRange (commit : ProjectedCommit) (oid : String) (parentOids : List String)
    (expectedTreeOid : GitOid) (baseOid : String) (nativeRange : Option NativeRange) :
    NativeRange :=
  let range := nativeRange.getD
    { logicalCommitId := commit.logicalCommitId
      baseOid
      expectedTreeOid
      descendantsOfBase := ∅
      headDescendsFromBase := false }
  let descendsFromBase := parentOids.any fun parent =>
    parent == range.baseOid || range.descendantsOfBase.contains parent
  { range with
    descendantsOfBase :=
      if descendsFromBase then range.descendantsOfBase.insert oid () else range.descendantsOfBase
    expectedTreeOid
    headDescendsFromBase := descendsFromBase }

/-- The id of one commit on a tree, and the range of preserved commits it leaves open. -/
def materialize (commit : ProjectedCommit) (treeOid : GitOid) (parentOid : Option String)
    (nativeRange : Option NativeRange) :
    Except ProjectionIdentityError (String × Option NativeRange) :=
  match commit.materialization with
  | .generate => do
    validateOpenRange nativeRange treeOid
    return (generatedCommitOid gitObjectOid treeOid parentOid (commit.message ++ "\n"), none)
  | .preserveGitCommit oid parentOids expectedTreeOid => do
    rejectIf (oid ≠ commit.projectedId) .preservedCommitIdentityMismatch
    let oid ← parseOid oid "preserved commit"
    let expectedTreeOid ← parseOid expectedTreeOid "preserved tree"
    match parentOid with
    | none => .error .missingPreservedCommitBase
    | some baseOid =>
      .ok (oid.hex, some
        (extendRange commit oid.hex parentOids expectedTreeOid baseOid nativeRange))

namespace HeadState

/-- A range of preserved commits ends where the next logical commit begins. -/
def closeRange (state : HeadState) (commit : ProjectedCommit) :
    Except ProjectionIdentityError HeadState :=
  match state.nativeRange with
  | none => .ok state
  | some range =>
    if range.logicalCommitId ≠ commit.logicalCommitId then do
      let (treeOid, tree) ← state.tree.oid gitObjectOid
      validateNativeRange range treeOid
      return { state with tree, nativeRange := none }
    else .ok state

/-- One commit of `ProjectionHead::apply_each`, with its id. -/
def applyCommit (state : HeadState) (commit : ProjectedCommit) :
    Except ProjectionIdentityError (String × HeadState) := do
  let state ← state.closeRange gitObjectOid commit
  let delta ← treeDelta commit
  let tree ← state.tree.applyDelta delta
  let (treeOid, tree) ← tree.oid gitObjectOid
  let (oid, nativeRange) ← materialize gitObjectOid commit treeOid state.parentOid state.nativeRange
  return (oid, { tree, parentOid := some oid, nativeRange })

/-- The end of `ProjectionHead::apply_each`: what is still open is closed. -/
def finish (state : HeadState) : Except ProjectionIdentityError ProjectionHead :=
  match state.nativeRange with
  | none => .ok ⟨state.tree, state.parentOid⟩
  | some range => do
    let (treeOid, tree) ← state.tree.oid gitObjectOid
    validateNativeRange range treeOid
    return ⟨tree, state.parentOid⟩

end HeadState

namespace ProjectionHead

/-- The head of no commits. -/
def start : ProjectionHead := ⟨.empty, none⟩

def resumeFile (tree : Tree) (file : ScopePath × SourceBlob) :
    Except ProjectionIdentityError Tree := do
  let path ← (GitTreePath.fromScopePath file.1).mapError .invalidPath
  let treeFile ← treeFile path.asStr file.2
  tree.insert path.components treeFile

/-- The head that a commit id and its files make up. -/
def resume (oid : Option String) (files : LiveFiles) :
    Except ProjectionIdentityError ProjectionHead := do
  let tree ← files.entries.foldlM resumeFile .empty
  return ⟨tree, oid⟩

/-- The commit ids of a sequence of commits on a head, and the head after them. -/
def applyEach (head : ProjectionHead) (commits : List ProjectedCommit) :
    Except ProjectionIdentityError (List String × ProjectionHead) := do
  let (oids, state) ← Machine.runAll (HeadState.applyCommit gitObjectOid)
    { tree := head.tree, parentOid := head.oid, nativeRange := none } commits
  let head ← state.finish gitObjectOid
  return (oids, head)

end ProjectionHead

end

end ScopeVcs

import ScopeVcs.GitTree.CanonicalTree
import ScopeVcs.GitTree.ProjectionHead

/-! # Projection heads over flat files

What a projection head is for, without a nested tree: a map from paths to files, which every commit
writes its changes into, and which is hashed from scratch whenever an object id is needed.
`FlatHead.applyEach` is the specification that `ProjectionHead.applyEach` refines.
-/

namespace ScopeVcs

/-! ## The files of a map -/

namespace LiveFiles

/-- A file of the map as a Git tree records it. -/
def gitFile (path : ScopePath) (blob : SourceBlob) :
    Except ProjectionIdentityError (List String × TreeFile) := do
  let treePath ← (GitTreePath.fromScopePath path).mapError .invalidPath
  let file ← treeFile path.asStr blob
  return (treePath.components, file)

def gitFiles (files : LiveFiles) : Except ProjectionIdentityError GitFiles :=
  files.entries.mapM fun (path, blob) => gitFile path blob

/-- The object id of the canonical Git tree of the files. -/
def treeOid (gitObjectOid : String → List UInt8 → String) (files : LiveFiles) :
    Except ProjectionIdentityError GitOid := do
  let files ← gitFiles files
  canonicalTreeOid gitObjectOid ((files.map (·.1.length)).foldr max 0) files

/-- Whether `other` lies below `path`, taken as a directory. -/
def isBelow (path other : ScopePath) : Bool := (path.chars ++ ['/']).isPrefixOf other.chars

/-- Whether the map holds both a path and a path below it. -/
def hasPathConflict (files : LiveFiles) : Bool :=
  files.keys.any fun path => files.keys.any fun other => isBelow path other

end LiveFiles

/-! ## The head -/

structure FlatHead where
  files : LiveFiles
  oid : Option String

structure FlatState where
  files : LiveFiles
  parentOid : Option String
  nativeRange : Option NativeRange

section

variable (gitObjectOid : String → List UInt8 → String)

namespace FlatState

def closeRange (state : FlatState) (commit : ProjectedCommit) :
    Except ProjectionIdentityError FlatState :=
  match state.nativeRange with
  | none => .ok state
  | some range =>
    if range.logicalCommitId ≠ commit.logicalCommitId then do
      let treeOid ← LiveFiles.treeOid gitObjectOid state.files
      validateNativeRange range treeOid
      return { state with nativeRange := none }
    else .ok state

/-- The files after a commit, if every change can be recorded and no path is a directory too. -/
def applyChanges (files : LiveFiles) (commit : ProjectedCommit) :
    Except ProjectionIdentityError LiveFiles := do
  let _ ← treeDelta commit
  let files := commit.applyTo files
  if LiveFiles.hasPathConflict files then
    throw (.pathConflict "")
  return files

def applyCommit (state : FlatState) (commit : ProjectedCommit) :
    Except ProjectionIdentityError (String × FlatState) := do
  let state ← state.closeRange gitObjectOid commit
  let files ← applyChanges state.files commit
  let treeOid ← LiveFiles.treeOid gitObjectOid files
  let (oid, nativeRange) ← materialize gitObjectOid commit treeOid state.parentOid state.nativeRange
  return (oid, { files, parentOid := some oid, nativeRange })

def finish (state : FlatState) : Except ProjectionIdentityError FlatHead :=
  match state.nativeRange with
  | none => .ok ⟨state.files, state.parentOid⟩
  | some range => do
    let treeOid ← LiveFiles.treeOid gitObjectOid state.files
    validateNativeRange range treeOid
    return ⟨state.files, state.parentOid⟩

end FlatState

def FlatHead.applyEach (head : FlatHead) (commits : List ProjectedCommit) :
    Except ProjectionIdentityError (List String × FlatHead) := do
  let (oids, state) ← Machine.runAll (FlatState.applyCommit gitObjectOid)
    { files := head.files, parentOid := head.oid, nativeRange := none } commits
  let head ← state.finish gitObjectOid
  return (oids, head)

end

end ScopeVcs

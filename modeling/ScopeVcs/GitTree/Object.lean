import ScopeVcs.GitTree.TreePath
import ScopeVcs.Projection.Content

/-! # Git objects

The bytes of the tree and commit objects that a projection is materialized to. The hash of an
object is a parameter `gitObjectOid` of everything below: a text from the kind and the bytes.
-/

namespace ScopeVcs

inductive ProjectionIdentityError where
  | invalidPath (error : GitTreePathError)
  | pathConflict (path : String)
  | unsupportedMode (path mode : String)
  | invalidObjectId (field : String)
  | preservedCommitIdentityMismatch
  | preservedCommitTreeMismatch
  | missingPreservedCommitBase
  | preservedHistoryNotDescendant
  deriving DecidableEq

/-- The twenty bytes that identify a Git object. -/
structure GitOid where
  bytes : List UInt8
  length_bytes : bytes.length = 20
  deriving DecidableEq

def GitOid.hex (oid : GitOid) : String := Text.hexEncode oid.bytes

def parseOid (value field : String) : Except ProjectionIdentityError GitOid :=
  match Text.hexDecode value.toList with
  | none => .error (.invalidObjectId field)
  | some bytes =>
    if h : bytes.length = 20 then .ok ⟨bytes, h⟩ else .error (.invalidObjectId field)

/-- A file as a Git tree records it. -/
structure TreeFile where
  mode : String
  oid : GitOid
  deriving DecidableEq

def treeFile (path : String) (blob : SourceBlob) : Except ProjectionIdentityError TreeFile := do
  if !isSupportedGitFileMode blob.gitFileMode then
    throw (.unsupportedMode path blob.gitFileMode)
  let oid ← parseOid blob.gitOid "blob"
  return ⟨blob.gitFileMode, oid⟩

/-! ## Trees -/

/-- One entry of a tree object. -/
structure TreeRow where
  name : String
  isDirectory : Bool
  mode : String
  oid : GitOid
  deriving DecidableEq

/-- What the entries of a tree are ordered by: the name, and a `/` after that of a directory. -/
def TreeRow.sortKey (row : TreeRow) : List UInt8 :=
  Text.utf8 row.name ++ if row.isDirectory then [0x2F] else []

def gitTreeNameCmp (left right : TreeRow) : Ordering := compare left.sortKey right.sortKey

def sortRows (rows : List TreeRow) : List TreeRow :=
  rows.mergeSort fun left right => (gitTreeNameCmp left right).isLE

def treePayload (rows : List TreeRow) : List UInt8 :=
  (sortRows rows).flatMap fun row =>
    Text.utf8 row.mode ++ 0x20 :: Text.utf8 row.name ++ 0 :: row.oid.bytes

theorem sortRows_sorted (rows : List TreeRow) :
    (sortRows rows).Pairwise fun left right => (gitTreeNameCmp left right).isLE = true := by
  apply List.pairwise_mergeSort
  · exact fun _ _ _ => Std.TransOrd.isLE_trans
  · intro left right
    have hswap : gitTreeNameCmp left right = (gitTreeNameCmp right left).swap :=
      Std.OrientedOrd.eq_swap
    rw [hswap]
    cases gitTreeNameCmp right left <;> rfl

/-- The id of a tree object from its entries. -/
def treeObjectOid (gitObjectOid : String → List UInt8 → String) (rows : List TreeRow) :
    Except ProjectionIdentityError GitOid :=
  parseOid (gitObjectOid "tree" (treePayload rows)) "tree"

/-! ## Commits -/

def generatedCommitSignature : String := "Scope <scope@example.invalid> 946684800 +0000"

def generatedCommitOid (gitObjectOid : String → List UInt8 → String) (treeOid : GitOid)
    (parentOid : Option String) (message : String) : String :=
  let parent := match parentOid with
    | some parentOid => "parent " ++ parentOid ++ "\n"
    | none => ""
  gitObjectOid "commit" (Text.utf8 ("tree " ++ treeOid.hex ++ "\n" ++ parent ++
    "author " ++ generatedCommitSignature ++ "\n" ++
    "committer " ++ generatedCommitSignature ++ "\n\n" ++ message))

end ScopeVcs

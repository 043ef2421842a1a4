import Mathlib.Data.Nat.Notation

/-! # File contents

A file of the repository is a reference to stored bytes together with the Git identity and mode
the file has in a Git tree.
-/

namespace ScopeVcs

inductive ContentRef where
  | blobSha256 (sha256 : String)
  | gitBundleSha256 (sha256 : String)
  | gitBlob (gitOid : String)
  deriving DecidableEq

structure SourceBlob where
  contentRef : ContentRef
  sha256 : String
  gitOid : String
  gitFileMode : String
  sizeBytes : ℕ
  deriving DecidableEq

def isRegularGitFileMode (mode : String) : Bool := mode == "100644" || mode == "100755"

def isSupportedGitFileMode (mode : String) : Bool :=
  isRegularGitFileMode mode || mode == "120000"

end ScopeVcs

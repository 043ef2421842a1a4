import Mathlib.Data.List.Basic

/-! # Content objects

Bytes are stored under a key made from their content reference, so that equal bytes are stored once.
The two hash functions are parameters.
-/

namespace ScopeVcs.Content

inductive ContentRef where
  | blobSha256 (sha256 : String)
  | gitBundleSha256 (sha256 : String)
  | gitBlob (gitOid : String)
  deriving DecidableEq

structure SourceBlob where
  contentRef : ContentRef
  sha256 : String
  gitOid : String
  gitFileMode : String
  sizeBytes : ℕ
  deriving DecidableEq

def DEFAULT_GIT_FILE_MODE : String := "100644"

inductive ContentObjectKind where
  | blob
  | gitBundle
  deriving DecidableEq

def ContentObjectKind.contentRef (kind : ContentObjectKind) (sha256 : String) : ContentRef :=
  match kind with
  | .blob => .blobSha256 sha256
  | .gitBundle => .gitBundleSha256 sha256

/-- The hexadecimal digests of some bytes. -/
structure Digests where
  sha256 : List UInt8 → String
  gitBlobOid : List UInt8 → String

/-- `object_key` of a blob, which reads its content reference only. -/
def objectKey : ContentRef → String
  | .blobSha256 sha256 => "objects/blobs/" ++ sha256
  | .gitBundleSha256 sha256 => "objects/git-bundles/" ++ sha256
  | .gitBlob gitOid => "git-blobs/" ++ gitOid

def contentObjectForBytes (digests : Digests) (kind : ContentObjectKind) (bytes : List UInt8) :
    SourceBlob where
  contentRef := kind.contentRef (digests.sha256 bytes)
  sha256 := digests.sha256 bytes
  gitOid := digests.gitBlobOid bytes
  gitFileMode := DEFAULT_GIT_FILE_MODE
  sizeBytes := bytes.length

/-- Texts whose beginnings differ somewhere are different. -/
theorem append_ne_append {p q : String} (s t : String) {i : ℕ} (hp : i < p.toList.length)
    (hq : i < q.toList.length) (h : p.toList[i]? ≠ q.toList[i]?) : p ++ s ≠ q ++ t := by
  intro heq
  have hlist := congrArg String.toList heq
  rw [String.toList_append, String.toList_append] at hlist
  apply h
  rw [← List.getElem?_append_left hp, hlist, List.getElem?_append_left hq]

/-- The three kinds of references have directories of their own. -/
theorem objectKey_injective : Function.Injective objectKey := by
  intro a b h
  cases a with
  | blobSha256 s =>
    cases b with
    | blobSha256 t => exact congrArg _ ((String.append_right_inj _).mp h)
    | gitBundleSha256 t =>
      exact absurd h (append_ne_append s t (by decide : 8 < _) (by decide) (by decide))
    | gitBlob t =>
      exact absurd h (append_ne_append s t (by decide : 0 < _) (by decide) (by decide))
  | gitBundleSha256 s =>
    cases b with
    | blobSha256 t =>
      exact absurd h (append_ne_append s t (by decide : 8 < _) (by decide) (by decide))
    | gitBundleSha256 t => exact congrArg _ ((String.append_right_inj _).mp h)
    | gitBlob t =>
      exact absurd h (append_ne_append s t (by decide : 0 < _) (by decide) (by decide))
  | gitBlob s =>
    cases b with
    | blobSha256 t =>
      exact absurd h (append_ne_append s t (by decide : 0 < _) (by decide) (by decide))
    | gitBundleSha256 t =>
      exact absurd h (append_ne_append s t (by decide : 0 < _) (by decide) (by decide))
    | gitBlob t => exact congrArg _ ((String.append_right_inj _).mp h)

/-- The text of a JSON string. -/
def jsonString (s : String) : String :=
  let escape (c : Char) : String :=
    if c = '"' then "\\\"" else if c = '\\' then "\\\\"
    else if c = '\n' then "\\n" else if c = '\r' then "\\r" else if c = '\t' then "\\t"
    else if c.toNat = 8 then "\\b" else if c.toNat = 12 then "\\f"
    else if c.toNat < 16 then "\\u000" ++ String.singleton (Nat.digitChar c.toNat)
    else if c.toNat < 32 then "\\u001" ++ String.singleton (Nat.digitChar (c.toNat - 16))
    else String.singleton c
  "\"" ++ String.join (s.toList.map escape) ++ "\""

/-- The text of a content reference in the columns of the store. -/
def encodeContentRef : ContentRef → String
  | .blobSha256 sha256 => "\x7b\"BlobSha256\":" ++ jsonString sha256 ++ "\x7d"
  | .gitBundleSha256 sha256 => "\x7b\"GitBundleSha256\":" ++ jsonString sha256 ++ "\x7d"
  | .gitBlob gitOid => "\x7b\"GitBlob\":\x7b\"git_oid\":" ++ jsonString gitOid ++ "\x7d\x7d"

example : encodeContentRef (.gitBlob "ab") = "\x7b\"GitBlob\":\x7b\"git_oid\":\"ab\"\x7d\x7d" := by
  decide

end ScopeVcs.Content

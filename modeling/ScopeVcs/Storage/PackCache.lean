import Mathlib.Data.Prod.Lex
import ScopeVcs.Lib.SortedMap
import ScopeVcs.Lib.Table
import ScopeVcs.Lib.U64
import ScopeVcs.Storage.Restore

/-! # The cache of verified packs

Packs whose size and hash were checked stay in a directory, each at a path that a hash of its segment
names. A pin keeps the pack of a path from removal; the cache counts the pins of a path as its leases and
remembers the modification time at which the pack was last hashed. One lock makes each operation atomic.

The directory is a table of its files. The calls to the file system may fail, with any error but that a
file is missing. The file that is to be installed belongs to the caller.
-/

namespace ScopeVcs.Storage.PackCache

open Mutation U64

abbrev SystemTime := ℤ

def UNIX_EPOCH : SystemTime := 0

inductive PackCacheError where
  | localFile (message : String)
  | sizeMismatch (expected actual : ℕ)
  | checksumMismatch (expected actual : String)
  | task (message : String)
  deriving DecidableEq

def cacheSizeOverflow : PackCacheError := .task "verified Git pack cache size overflow"

/-! ## Paths -/

/-- A file below the root of the cache, `repository/stem.extension`. -/
structure ArtifactPath where
  repository : String
  stem : String
  extension : Option String
  deriving DecidableEq

/-- The path `repository/key.pack`. -/
structure PackPath where
  repository : String
  key : String
  deriving DecidableEq

namespace PackPath

def artifact (path : PackPath) : ArtifactPath := ⟨path.repository, path.key, some "pack"⟩

/-- `with_extension("idx")`. -/
def index (path : PackPath) : ArtifactPath := ⟨path.repository, path.key, some "idx"⟩

def fileName (path : PackPath) : String := path.key ++ ".pack"

theorem toLex_injective :
    Function.Injective fun path : PackPath => toLex (path.repository, path.fileName) := by
  rintro ⟨repository, key⟩ ⟨repository', key'⟩ h
  have hrepository : repository = repository' := congrArg Prod.fst h
  have hname : key ++ ".pack" = key' ++ ".pack" := congrArg Prod.snd h
  have hchars := congrArg String.toList hname
  rw [String.toList_append, String.toList_append] at hchars
  rw [hrepository, String.toList_injective (List.append_cancel_right hchars)]

instance : LinearOrder PackPath :=
  LinearOrder.lift' (fun path => toLex (path.repository, path.fileName)) toLex_injective

end PackPath

/-- The pack that a file belongs to, as the pack or as its index. -/
def ArtifactPath.packPath? (path : ArtifactPath) : Option PackPath :=
  if path.extension = some "pack" ∨ path.extension = some "idx" then
    some ⟨path.repository, path.stem⟩
  else none

section

variable (crypto : Crypto)

/-- What `digest_identity` hashes. -/
def identity (parts : List Bytes) : Bytes :=
  parts.flatMap fun part => Bytes.be 8 part.length ++ part

def digestIdentity (parts : List Bytes) : String := crypto.sha256Hex (identity parts)

def segmentParts (segment : SegmentRef) : List Bytes :=
  [Bytes.be 4 segment.encodingVersion, segment.segmentId.bytes, Text.utf8 segment.sha256,
    Bytes.be 8 segment.plaintextBytes]

def segmentCacheKey (segment : SegmentRef) : String := digestIdentity crypto (segmentParts segment)

def repositoryCacheNamespace (repositoryId incarnationId : Str) : String :=
  digestIdentity crypto [repositoryId.bytes, incarnationId.bytes]

def verifiedPackPath (repositoryId incarnationId : Str) (segment : SegmentRef) : PackPath :=
  ⟨repositoryCacheNamespace crypto repositoryId incarnationId, segmentCacheKey crypto segment⟩

end

/-! ## The state -/

inductive Node where
  | file (content : Bytes) (modified : SystemTime)
  /-- A directory, or what else is not a file. -/
  | other
  deriving DecidableEq

structure CacheFile where
  path : ArtifactPath
  node : Node
  deriving DecidableEq

structure Entry where
  leases : ℕ
  lastUsed : SystemTime
  verifiedAt : Option SystemTime
  deriving DecidableEq

/-- The cache with the files below its root, and the pins that are alive. -/
structure VerifiedPackCache where
  directory : Table CacheFile.path
  entries : PackPath → Option Entry
  pins : List PackPath

structure VerifiedPackCacheUsage where
  retainedBytes : ℕ
  leasedBytes : ℕ
  packCount : ℕ
  deriving DecidableEq

/-- The pin of a handed out pack is among the pins of the cache. -/
structure VerifiedGitPack where
  path : PackPath
  timings : RestoreTimings
  deriving DecidableEq

/-- The calls to the file system. -/
inductive FsCall where
  | sourceMetadata
  | sourceModified
  | removeSource
  | readDir
  | metadata (path : ArtifactPath)
  | modified (path : ArtifactPath)
  | read (path : ArtifactPath)
  | rename (path : ArtifactPath)
  | removeFile (path : ArtifactPath)
  deriving DecidableEq

/-- The time of an operation, and the calls that fail in it. -/
structure Environment where
  now : SystemTime
  failure : FsCall → Option String

def Environment.attempt (env : Environment) (call : FsCall) : Except PackCacheError Unit :=
  match env.failure call with
  | some message => .error (.localFile message)
  | none => .ok ()

namespace VerifiedPackCache

variable (cache : VerifiedPackCache)

def new (directory : Table CacheFile.path) : VerifiedPackCache := ⟨directory, fun _ => none, []⟩

def node? (path : ArtifactPath) : Option Node := (cache.directory.find? path).map CacheFile.node

def leases (path : PackPath) : ℕ := ((cache.entries path).map Entry.leases).getD 0

def isLeased (path : PackPath) : Bool := 0 < cache.leases path

def verifiedAt (path : PackPath) : Option SystemTime :=
  (cache.entries path).bind Entry.verifiedAt

def setEntry (path : PackPath) (entry : Option Entry) : VerifiedPackCache :=
  { cache with entries := Function.update cache.entries path entry }

/-- `entry_mut`, and what is done to the entry. -/
def entryMut (env : Environment) (path : PackPath) (change : Entry → Entry) : VerifiedPackCache :=
  cache.setEntry path (some (change ((cache.entries path).getD ⟨0, env.now, none⟩)))

def clearVerifiedAt (path : PackPath) : VerifiedPackCache :=
  cache.setEntry path ((cache.entries path).map fun entry => { entry with verifiedAt := none })

def setVerifiedAt (env : Environment) (path : PackPath) (modified : SystemTime) :
    VerifiedPackCache :=
  cache.entryMut env path fun entry => { entry with verifiedAt := some modified }

def removeEntry (path : PackPath) : VerifiedPackCache := cache.setEntry path none

def removePath (path : ArtifactPath) : VerifiedPackCache :=
  { cache with directory := cache.directory.delete (·.path = path) }

/-- A file is moved to a path, over what is there. -/
def movePath (path : ArtifactPath) (node : Node) : VerifiedPackCache :=
  { cache with directory := (cache.directory.delete (·.path = path)).insert ⟨path, node⟩ }

def pinLocked (env : Environment) (path : PackPath) : VerifiedPackCache :=
  { cache.entryMut env path fun entry =>
      { entry with leases := entry.leases + 1, lastUsed := env.now } with
    pins := path :: cache.pins }

/-- `VerifiedPackPin::drop`. -/
def dropPin (env : Environment) (path : PackPath) : VerifiedPackCache :=
  { cache.setEntry path ((cache.entries path).map fun entry =>
      { entry with leases := entry.leases - 1, lastUsed := env.now }) with
    pins := cache.pins.erase path }

end VerifiedPackCache

/-! ## Validation -/

section

variable (env : Environment)

def removeFileIfExists (path : ArtifactPath) :
    EStateM PackCacheError VerifiedPackCache Unit := do
  check fun _ => env.attempt (.removeFile path)
  check fun cache => rejectIf (cache.node? path = some .other) (.localFile "is a directory")
  modify (·.removePath path)

def removeCacheArtifacts (path : PackPath) : EStateM PackCacheError VerifiedPackCache Unit := do
  removeFileIfExists env path.artifact
  removeFileIfExists env path.index

/-- The content of the pack and its modification time, if there is a pack. -/
def metadata (path : PackPath) (cache : VerifiedPackCache) :
    Except PackCacheError (Option (Bytes × SystemTime)) := do
  env.attempt (.metadata path.artifact)
  match cache.node? path.artifact with
  | some (.file content modified) => do
    env.attempt (.modified path.artifact)
    return some (content, modified)
  | some .other => .error (.localFile "verified Git pack cache path is not a file")
  | none => return none

/-- A pack that was hashed at its modification time is not hashed again. -/
def mismatch (crypto : Crypto) (path : PackPath) (expectedBytes : ℕ) (expectedSha256 : String)
    (content : Bytes) (modified : SystemTime) (cache : VerifiedPackCache) :
    Except PackCacheError (Option PackCacheError) :=
  if content.length ≠ expectedBytes then .ok (some (.sizeMismatch expectedBytes content.length))
  else if cache.verifiedAt path ≠ some modified then do
    env.attempt (.read path.artifact)
    let actual := crypto.sha256Hex content
    return if actual ≠ expectedSha256 then some (.checksumMismatch expectedSha256 actual) else none
  else .ok none

def validateExisting (crypto : Crypto) (path : PackPath) (expectedBytes : ℕ)
    (expectedSha256 : String) : EStateM PackCacheError VerifiedPackCache Bool := do
  match ← check (metadata env path) with
  | none =>
    modify (·.clearVerifiedAt path)
    return false
  | some (content, modified) =>
    match ← check (mismatch env crypto path expectedBytes expectedSha256 content modified) with
    | some error =>
      modify (·.clearVerifiedAt path)
      check fun cache => rejectIf (cache.isLeased path = true) error
      removeCacheArtifacts env path
      modify (·.removeEntry path)
      return false
    | none =>
      modify (·.setVerifiedAt env path modified)
      return true

/-! ## Leases -/

def leaseExisting (crypto : Crypto) (path : PackPath) (expectedBytes : ℕ) (expectedSha256 : String)
    (timings : RestoreTimings) :
    EStateM PackCacheError VerifiedPackCache (Option VerifiedGitPack) := do
  if ← validateExisting env crypto path expectedBytes expectedSha256 then
    modify (·.pinLocked env path)
    return some ⟨path, timings⟩
  else return none

/-- The modification time that the metadata of the source gives is read after the renaming. -/
def install (crypto : Crypto) (source : Option Node) (path : PackPath) (expectedBytes : ℕ)
    (expectedSha256 : String) : EStateM PackCacheError VerifiedPackCache PackPath := do
  check fun _ => env.attempt .sourceMetadata
  match source with
  | none => throw (.localFile "No such file or directory")
  | some .other => throw (.localFile "verified Git pack source is not a file")
  | some (.file content modified) =>
    check fun _ => rejectIf (content.length ≠ expectedBytes)
      (.sizeMismatch expectedBytes content.length)
    if ← validateExisting env crypto path expectedBytes expectedSha256 then
      check fun _ => env.attempt .removeSource
    else
      check fun _ => env.attempt (.rename path.artifact)
      modify (·.movePath path.artifact (.file content modified))
      check fun _ => env.attempt .sourceModified
      modify (·.setVerifiedAt env path modified)
    modify (·.pinLocked env path)
    return path

/-! ## Usage and eviction -/

structure CacheEntry where
  packPath : PackPath
  sizeBytes : ℕ
  lastUsed : SystemTime
  hasPack : Bool
  deriving DecidableEq

/-- The pack that a file counts for, with the file's size and modification time. -/
def CacheFile.counted? (file : CacheFile) : Option (PackPath × ℕ × SystemTime) :=
  match file.node with
  | .file content modified =>
    if file.path.repository = ".tmp" then none
    else file.path.packPath?.map fun path => (path, content.length, modified)
  | .other => none

def checkedSize (a b : ℕ) : Except PackCacheError ℕ :=
  match checkedAdd a b with
  | some size => .ok size
  | none => .error cacheSizeOverflow

/-- An entry knows when its pack was used last; without one the file tells. -/
def artifactLastUsed (cache : VerifiedPackCache) (path : PackPath) (file : CacheFile)
    (modified : SystemTime) : SystemTime :=
  ((cache.entries path).map Entry.lastUsed).getD
    (if env.failure (.modified file.path) = none then modified else UNIX_EPOCH)

def addArtifact (cache : VerifiedPackCache) (grouped : SortedMap PackPath CacheEntry)
    (file : CacheFile) : Except PackCacheError (SortedMap PackPath CacheEntry) :=
  match file.counted? with
  | none => .ok grouped
  | some (path, size, modified) =>
    let lastUsed := artifactLastUsed env cache path file modified
    let entry := (grouped.get? path).getD ⟨path, 0, lastUsed, false⟩
    (checkedSize entry.sizeBytes size).map fun sizeBytes =>
      grouped.insert path
        { entry with
          sizeBytes
          lastUsed := max entry.lastUsed lastUsed
          hasPack := entry.hasPack || file.path.extension = some "pack" }

def cacheEntries (cache : VerifiedPackCache) : Except PackCacheError (List CacheEntry) := do
  env.attempt .readDir
  let grouped ← cache.directory.rows.foldlM (addArtifact env cache) ∅
  return grouped.entries.map Prod.snd

def addUsage (cache : VerifiedPackCache) (usage : VerifiedPackCacheUsage) (entry : CacheEntry) :
    Except PackCacheError VerifiedPackCacheUsage := do
  let retainedBytes ← checkedSize usage.retainedBytes entry.sizeBytes
  let packCount ←
    (if entry.hasPack then checkedSize usage.packCount 1 else .ok usage.packCount)
  let leasedBytes ←
    (if cache.isLeased entry.packPath then checkedSize usage.leasedBytes entry.sizeBytes
      else .ok usage.leasedBytes)
  return ⟨retainedBytes, leasedBytes, packCount⟩

def usageForEntries (entries : List CacheEntry) (cache : VerifiedPackCache) :
    Except PackCacheError VerifiedPackCacheUsage :=
  entries.foldlM (addUsage cache) ⟨0, 0, 0⟩

def usage : EStateM PackCacheError VerifiedPackCache VerifiedPackCacheUsage :=
  check fun cache => do
    let entries ← cacheEntries env cache
    usageForEntries entries cache

/-- The loop of `evict_to`. -/
def evict (targetBytes : ℕ) : List CacheEntry → VerifiedPackCacheUsage →
    EStateM PackCacheError VerifiedPackCache VerifiedPackCacheUsage
  | [], usage => return usage
  | entry :: entries, usage => do
    if usage.retainedBytes ≤ targetBytes then return usage
    else if ← check fun cache => .ok (cache.isLeased entry.packPath) then
      evict targetBytes entries usage
    else
      removeCacheArtifacts env entry.packPath
      modify (·.removeEntry entry.packPath)
      evict targetBytes entries
        { usage with
          retainedBytes := usage.retainedBytes - entry.sizeBytes
          packCount := if entry.hasPack then usage.packCount - 1 else usage.packCount }

def evictTo (targetBytes : ℕ) : EStateM PackCacheError VerifiedPackCache VerifiedPackCacheUsage := do
  let entries ← check (cacheEntries env)
  let entries := entries.insertionSort fun a b => a.lastUsed ≤ b.lastUsed
  let usage ← check (usageForEntries entries)
  evict env targetBytes entries usage

end

end ScopeVcs.Storage.PackCache

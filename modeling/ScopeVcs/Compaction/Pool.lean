import Mathlib.Data.List.Sort
import ScopeVcs.Lib.Table
import ScopeVcs.Postgres.Error
import ScopeVcs.Repository.GitCompaction

/-! # Pool packs and their segments

The rows of the pool packs, of main and of requests, and the ledger of the segments uploaded for
them. A stored pack publishes its segment; a segment that no main pack refers to can be retired.
-/

namespace ScopeVcs.Compaction

open Mutation IntegerColumns

inductive GitSegmentUploadState where
  | uploading
  | ready
  | published
  | retained
  | deleting
  | deleted
  deriving DecidableEq

structure GitSegmentUpload where
  segmentId : String
  repoId : String
  objectKey : String
  state : GitSegmentUploadState
  sha256 : Option String
  plaintextBytes : Option ℕ
  encryptedBytes : Option ℕ
  encodingVersion : ℕ
  createdAtUnix : ℕ
  updatedAtUnix : ℕ
  deriving DecidableEq

structure PoolPackRow where
  repoId : String
  pack : GitPoolPack
  createdAtUnix : ℕ
  deriving DecidableEq

def PoolPackRow.id (row : PoolPackRow) : String := row.pack.id

/-- The segment a row refers to. -/
def PoolPackRow.segmentId? (row : PoolPackRow) : Option String :=
  row.pack.storage.segment?.map GitSegmentRef.segmentId

/-- `request_id IS NULL`. -/
def PoolPackRow.isMain (row : PoolPackRow) : Bool := row.pack.owner.mainSequences.isSome

structure GitPool where
  packs : Table PoolPackRow.id
  uploads : Table GitSegmentUpload.segmentId

def u32ToI32 (value : ℕ) (field : String) : Except PostgresError ℕ :=
  if value ≤ maxI32 then .ok value
  else .error (.internalMessage (field ++ " exceeds PostgreSQL integer range"))

namespace GitPool

/-! ## The ledger of segments -/

/-- Changes the state of an upload. -/
def transition (pool : GitPool) (p : GitSegmentUpload → Bool) (state : GitSegmentUploadState)
    (now : ℕ) : GitPool :=
  { pool with
    uploads := pool.uploads.update p
      (fun upload => { upload with state, updatedAtUnix := max upload.updatedAtUnix now })
      fun _ => rfl }

def requireText (value field : String) : Except PostgresError Unit :=
  rejectIf (Text.isBlank value = true) (.internalMessage (field ++ " is required"))

def requireOneTransition (changed : Bool) (segmentId target : String) : Except PostgresError Unit :=
  rejectIf (changed = false)
    (.conflict ("Git segment " ++ segmentId ++ " cannot transition to " ++ target))

/-- The repository exists. -/
def beginGitSegmentUpload (pool : GitPool) (repoId segmentId objectKey : String)
    (encodingVersion nowUnix : ℕ) : Except PostgresError GitPool := do
  requireText repoId "Git segment repository id"
  requireText segmentId "Git segment id"
  requireText objectKey "Git segment object key"
  rejectIf (encodingVersion = 0)
    (.internalMessage "Git segment encoding version must be positive")
  let encodingVersion ← u32ToI32 encodingVersion "Git segment encoding version"
  let now ← u64ToI64 nowUnix "Git segment upload creation time"
  rejectIf ((pool.uploads.find? segmentId).isSome = true ∨
      pool.uploads.any (fun upload => upload.objectKey = objectKey) = true)
    (.internalMessage "duplicate key value violates unique constraint")
  return { pool with
    uploads := pool.uploads.insert
      ⟨segmentId, repoId, objectKey, .uploading, none, none, none, encodingVersion, now, now⟩ }

def markGitSegmentUploadReady (pool : GitPool) (segment : GitSegmentRef)
    (encryptedBytes nowUnix : ℕ) : Except PostgresError GitPool := do
  requireText segment.segmentId "Git segment id"
  rejectIf (¬(Text.byteLength segment.sha256.toList = 64 ∧
      segment.sha256.toList.all Text.isHexDigit = true))
    (.internalMessage "Git segment SHA-256 must contain 64 hexadecimal characters")
  let plaintextBytes ← u64ToI64 segment.plaintextBytes "Git segment plaintext size"
  let encryptedBytes ← u64ToI64 encryptedBytes "Git segment encrypted size"
  let now ← u64ToI64 nowUnix "Git segment ready time"
  let encodingVersion ← u32ToI32 segment.encodingVersion "Git segment encoding version"
  let p (upload : GitSegmentUpload) : Bool :=
    upload.segmentId = segment.segmentId && upload.state = .uploading &&
      upload.encodingVersion = encodingVersion
  requireOneTransition (pool.uploads.any p) segment.segmentId "ready"
  return { pool with
    uploads := pool.uploads.update p
      (fun upload => { upload with
        state := .ready
        sha256 := some segment.sha256
        plaintextBytes := some plaintextBytes
        encryptedBytes := some encryptedBytes
        updatedAtUnix := max upload.updatedAtUnix now })
      fun _ => rfl }

def abandonGitSegmentUpload (pool : GitPool) (segmentId : String) (nowUnix : ℕ) :
    Except PostgresError GitPool := do
  requireText segmentId "Git segment id"
  let now ← u64ToI64 nowUnix "Git segment transition time"
  return pool.transition (fun upload => upload.segmentId = segmentId &&
    (upload.state = .uploading || upload.state = .ready) &&
    !pool.packs.any fun row => row.segmentId? = some upload.segmentId) .deleting now

def markGitSegmentUploadDeleted (pool : GitPool) (segmentId : String) (nowUnix : ℕ) :
    Except PostgresError GitPool := do
  requireText segmentId "Git segment id"
  let now ← u64ToI64 nowUnix "Git segment transition time"
  let p (upload : GitSegmentUpload) : Bool :=
    upload.segmentId = segmentId && upload.state = .deleting
  requireOneTransition (pool.uploads.any p) segmentId "deleted"
  return pool.transition p .deleted now

/-- The upload can be published as this segment of the repository. -/
def isPublishable (repoId : String) (segment : GitSegmentRef) (upload : GitSegmentUpload) : Bool :=
  upload.segmentId = segment.segmentId && upload.repoId = repoId &&
    (upload.state = .ready || upload.state = .published) &&
    upload.sha256 = some segment.sha256 && upload.plaintextBytes = some segment.plaintextBytes &&
    upload.encodingVersion = segment.encodingVersion

def publishGitSegment (pool : GitPool) (repoId : String) (segment : GitSegmentRef) (nowUnix : ℕ) :
    Except PostgresError GitPool := do
  let _ ← u64ToI64 segment.plaintextBytes "Git segment plaintext size"
  let _ ← u32ToI32 segment.encodingVersion "Git segment encoding version"
  let now ← u64ToI64 nowUnix "Git segment publication time"
  requireOneTransition (pool.uploads.any (isPublishable repoId segment)) segment.segmentId
    "published"
  return pool.transition (isPublishable repoId segment) .published now

/-- The upload can be retired: no main pack refers to it. -/
def isRetirable (pool : GitPool) (segmentId : String) (upload : GitSegmentUpload) : Bool :=
  upload.segmentId = segmentId && (upload.state = .ready || upload.state = .published) &&
    !pool.packs.any fun row => row.segmentId? = some upload.segmentId && row.isMain

def retireGitSegment (pool : GitPool) (segmentId : String) (nowUnix : ℕ) :
    Except PostgresError GitPool := do
  let now ← u64ToI64 nowUnix "Git segment retirement time"
  return pool.transition (pool.isRetirable segmentId) .deleting now

/-! ## Pool packs -/

/-- The unique constraints of the table: the id, the segment, and the first sequence of a main pack
in its repository. -/
def violatesUnique (pool : GitPool) (row : PoolPackRow) : Bool :=
  pool.packs.any fun other =>
    other.id = row.id || (row.segmentId?.isSome && other.segmentId? = row.segmentId?) ||
      (row.isMain && other.isMain && other.repoId = row.repoId &&
        other.pack.owner.mainSequences.map Prod.fst = row.pack.owner.mainSequences.map Prod.fst)

/-- The conversions and the check constraint of the sequence columns. -/
def validateSequences : GitPoolPackOwner → Except PostgresError Unit
  | .request _ _ => .ok ()
  | .main firstSequence lastSequence => do
    let first ← u64ToI64 firstSequence "Git main pack first sequence"
    let last ← u64ToI64 lastSequence "Git main pack last sequence"
    rejectIf (¬(0 < first ∧ first ≤ last))
      (.internalMessage "new row violates check constraint scope_git_pool_pack_owner")

def publishStorage (pool : GitPool) (repoId : String) (nowUnix : ℕ) :
    GitPoolPackStorage → Except PostgresError GitPool
  | .inline _ => .ok pool
  | .segment segment => pool.publishGitSegment repoId segment nowUnix

def registerGitPoolPack (pool : GitPool) (repoId : String) (pack : GitPoolPack) (nowUnix : ℕ) :
    Except PostgresError GitPool := do
  let pool ← pool.publishStorage repoId nowUnix pack.storage
  validateSequences pack.owner
  let now ← u64ToI64 nowUnix "Git pool pack registration time"
  let row : PoolPackRow := ⟨repoId, pack, now⟩
  rejectIf (pool.violatesUnique row = true)
    (.internalMessage "duplicate key value violates unique constraint")
  return { pool with packs := pool.packs.insert row }

/-- The condition on the rows of a repository's main packs. -/
def ofMain (repoId : String) (row : PoolPackRow) : Bool := row.repoId = repoId && row.isMain

/-- `ORDER BY first_sequence`. -/
def firstSequence (pack : GitPoolPack) : ℕ := (pack.owner.mainSequences.map Prod.fst).getD 0

def loadMainPoolPacks (pool : GitPool) (repoId : String) : List GitPoolPack :=
  ((pool.packs.select (ofMain repoId)).map PoolPackRow.pack).insertionSort
    fun a b => firstSequence a ≤ firstSequence b

/-! ## Replacing two packs -/

def debugList (values : List String) : String :=
  "[" ++ String.intercalate ", " (values.map fun value => "\"" ++ value ++ "\"") ++ "]"

/-- The text of an error of the domain. Object ids need no escapes. -/
def errorText : GitCompactionError → String
  | .notMainPack packId => "Git pool pack " ++ packId ++ " is not a main pack"
  | .invalidRange first last =>
    "Git main pack range " ++ toString first ++ ".." ++ toString last ++ " is invalid"
  | .nonGeometricCoverage first last count =>
    "Git main pack " ++ toString first ++ ".." ++ toString last ++ " covers " ++ toString count ++
      " pushes instead of a power of two"
  | .invalidStart first =>
    "Git main packs must start at sequence 1 without prerequisites, found " ++ toString first
  | .nonContiguous previousLast nextFirst =>
    "Git main packs have a gap or overlap between sequences " ++ toString previousLast ++ " and " ++
      toString nextFirst
  | .disconnectedHistory previousHeadOid nextPrerequisites =>
    "Git main pack history is disconnected: previous head " ++ previousHeadOid ++
      ", next prerequisites " ++ debugList nextPrerequisites
  | .replacementBoundaryMismatch =>
    "Git compaction replacement must cover exactly the selected main packs"
  | .selectedSizesDiffer =>
    "Git compaction requires adjacent main packs covering the same number of pushes"

def ofCompaction {α : Type} (x : Except GitCompactionError α) : Except PostgresError α :=
  x.mapError fun error => .internalMessage (errorText error)

/-- The rows with these ids are deleted, all of them main packs of the repository. -/
def deleteMainPacks (pool : GitPool) (repoId : String) (ids : List String) :
    Except PostgresError GitPool := do
  let p (row : PoolPackRow) : Bool := ofMain repoId row && row.id ∈ ids
  rejectIf ((pool.packs.select p).length ≠ ids.length)
    (.internalMessage "Git compaction removed an unexpected number of main packs")
  return { pool with packs := pool.packs.delete p }

/-- Retires the segment of a replaced pack, unless the replacement uses it. -/
def retireReplaced (replacementSegment : GitSegmentRef) (nowUnix : ℕ) (pool : GitPool)
    (pack : GitPoolPack) : Except PostgresError GitPool :=
  match pack.storage.segment? with
  | none => .ok pool
  | some segment =>
    if segment.segmentId = replacementSegment.segmentId then .ok pool
    else pool.retireGitSegment segment.segmentId nowUnix

def selected (plan : GitCompactionPlan) : List GitPoolPack :=
  [plan.selectedPacks.1, plan.selectedPacks.2]

/-- All selected packs are still stored, as they were. -/
def stillCurrent (pool : GitPool) (repoId : String) (plan : GitCompactionPlan) : Bool :=
  (selected plan).all fun pack => pack ∈ pool.loadMainPoolPacks repoId

/-- The transaction where the selected packs are still stored. -/
def replaceSelected (pool : GitPool) (repoId : String) (plan : GitCompactionPlan)
    (replacement : GitPoolPack) (segment : GitSegmentRef) (nowUnix : ℕ) :
    Except PostgresError GitPool := do
  let pool ← pool.deleteMainPacks repoId ((selected plan).map GitPoolPack.id)
  let pool ← pool.registerGitPoolPack repoId replacement nowUnix
  (selected plan).foldlM (retireReplaced segment nowUnix) pool

def replaceMainPoolPacksWithCompaction (pool : GitPool) (repoId : String) (plan : GitCompactionPlan)
    (replacement : GitPoolPack) (nowUnix : ℕ) : Except PostgresError (GitPool × Bool) := do
  ofCompaction (plan.validateReplacement replacement)
  match replacement.storage.segment? with
  | none => .error (.internalMessage "Git compaction replacement must be a segment")
  | some segment =>
    if pool.stillCurrent repoId plan = true then
      (pool.replaceSelected repoId plan replacement segment nowUnix).map fun pool => (pool, true)
    else (pool.retireGitSegment segment.segmentId nowUnix).map fun pool => (pool, false)

end GitPool

end ScopeVcs.Compaction

import Mathlib.Data.List.Sort
import Mathlib.Data.String.Basic
import ScopeVcs.Content.Object
import ScopeVcs.Lib.Table
import ScopeVcs.Postgres.Error

/-! # The queue of source blob deletions

The rows of the queue, one for each content reference, and the transactions on them. A row belongs to
the holder of its generation: whoever queues or claims it draws a new one.
-/

namespace ScopeVcs.Content

open Mutation IntegerColumns

def SOURCE_BLOB_DELETE_GRACE_SECONDS : ℕ := 600

def CLEANUP_BATCH_SIZE : ℕ := 100

def CLEANUP_CLAIM_SECONDS : ℕ := 300

def RETAINED_SOURCE_BLOB_ERROR : String := "source blob cleanup retained after drain attempt"

def MAX_CLEANUP_RETRY_SECONDS : ℕ := 3600

/-- A row of the queue. Its key column holds the text of the content reference. -/
structure SourceBlobCleanupJob where
  contentRef : ContentRef
  generation : String
  sha256 : String
  gitOid : String
  sizeBytes : ℕ
  attempts : ℕ
  nextRunAtUnix : ℕ
  lastError : Option String
  completedAtUnix : Option ℕ
  createdAtUnix : ℕ
  updatedAtUnix : ℕ
  deriving DecidableEq

/-- A row of the references to content objects, all of whose columns are its key. -/
structure ObjectReference where
  contentRef : ContentRef
  refKind : String
  refId : String
  deriving DecidableEq

abbrev Jobs := Table SourceBlobCleanupJob.contentRef

abbrev References := Table (ρ := ObjectReference) id

structure LoadedSourceBlobCleanup where
  blob : SourceBlob
  generation : String
  deriving DecidableEq

inductive SourceBlobCleanupDecision where
  | delete
  | referenced
  | staleClaim
  deriving DecidableEq

namespace SourceBlobCleanupJob

def fromDomain (blob : SourceBlob) (generation : String) (nowUnix : ℕ) :
    Except PostgresError SourceBlobCleanupJob := do
  let now ← u64ToI64 nowUnix "cleanup creation time"
  let sizeBytes ← u64ToI64 blob.sizeBytes "source blob size"
  return {
    contentRef := blob.contentRef
    generation := generation
    sha256 := blob.sha256
    gitOid := blob.gitOid
    sizeBytes := sizeBytes
    attempts := 0
    nextRunAtUnix := now
    lastError := none
    completedAtUnix := none
    createdAtUnix := now
    updatedAtUnix := now }

def intoDomain (job : SourceBlobCleanupJob) : SourceBlob where
  contentRef := job.contentRef
  sha256 := job.sha256
  gitOid := job.gitOid
  gitFileMode := DEFAULT_GIT_FILE_MODE
  sizeBytes := job.sizeBytes

/-- The row is due and not completed. -/
def isDue (now : ℕ) (job : SourceBlobCleanupJob) : Bool :=
  job.completedAtUnix.isNone && job.nextRunAtUnix ≤ now

/-- `ORDER BY next_run_at_unix, object_key`. -/
def before (a b : SourceBlobCleanupJob) : Bool :=
  a.nextRunAtUnix < b.nextRunAtUnix ||
    (a.nextRunAtUnix = b.nextRunAtUnix && encodeContentRef a.contentRef ≤ encodeContentRef b.contentRef)

/-- The condition of the updates that end a claim. -/
def isClaimedAs (contentRef : ContentRef) (generation : String) (job : SourceBlobCleanupJob) : Bool :=
  job.contentRef = contentRef && job.generation = generation && job.completedAtUnix.isNone

end SourceBlobCleanupJob

/-! ## Queueing -/

/-- One statement of `queue_pending_source_blob_deletion_rows`. -/
def queueRow (firstAttempt nowUnix : ℕ) (jobs : Jobs) (blob : SourceBlob) (generation : String) :
    Except PostgresError Jobs := do
  let model ← SourceBlobCleanupJob.fromDomain blob generation nowUnix
  let row := { model with nextRunAtUnix := firstAttempt }
  return jobs.upsert row
    (fun old => { row with contentRef := old.contentRef, createdAtUnix := old.createdAtUnix })
    fun _ => rfl

/-- `queue_pending_source_blob_deletion_rows`, for each blob with the generation drawn for it. -/
def queuePendingSourceBlobDeletionRows (jobs : Jobs) (blobs : List (SourceBlob × String))
    (nowUnix : ℕ) : Except PostgresError Jobs := do
  rejectIf (U64.maxU64 < nowUnix + SOURCE_BLOB_DELETE_GRACE_SECONDS)
    (.internalMessage "source blob cleanup time exceeds u64 range")
  let firstAttempt ← u64ToI64 (nowUnix + SOURCE_BLOB_DELETE_GRACE_SECONDS)
    "source blob cleanup first attempt"
  blobs.foldlM (fun jobs (blob, generation) => queueRow firstAttempt nowUnix jobs blob generation) jobs

/-! ## Claiming -/

/-- The rows a claim takes: the first ones that are due and that no other transaction has locked. -/
def claimable (jobs : Jobs) (locked : List ContentRef) (now : ℕ) : List SourceBlobCleanupJob :=
  ((jobs.select fun job => job.isDue now && job.contentRef ∉ locked).insertionSort
    fun a b => a.before b = true).take CLEANUP_BATCH_SIZE

def claimPendingSourceBlobCleanupRows (jobs : Jobs) (locked : List ContentRef) (generation : String)
    (nowUnix : ℕ) : Except PostgresError (Jobs × List LoadedSourceBlobCleanup) := do
  let now ← u64ToI64 nowUnix "current time"
  rejectIf (maxI64 < now + CLEANUP_CLAIM_SECONDS)
    (.internalMessage "cleanup claim time exceeds i64 range")
  let claimed := (claimable jobs locked now).map SourceBlobCleanupJob.contentRef
  let jobs := jobs.update (fun job => job.contentRef ∈ claimed)
    (fun job => { job with
      generation := generation
      nextRunAtUnix := now + CLEANUP_CLAIM_SECONDS
      updatedAtUnix := now })
    fun _ => rfl
  let loaded := (jobs.select fun job => job.contentRef ∈ claimed).map fun row =>
    { blob := row.intoDomain, generation := row.generation : LoadedSourceBlobCleanup }
  return (jobs, loaded)

/-! ## Deciding -/

def isReferenced (references : References) (contentRef : ContentRef) : Bool :=
  references.any fun reference => reference.contentRef = contentRef

/-- The row is still the one that was claimed. -/
def claimIsLive (jobs : Jobs) (loaded : LoadedSourceBlobCleanup) : Bool :=
  (jobs.find? loaded.blob.contentRef).any fun job =>
    job.generation = loaded.generation && job.completedAtUnix.isNone

def sourceBlobCleanupDecision (jobs : Jobs) (references : References)
    (batch : List LoadedSourceBlobCleanup) (blob : SourceBlob) : SourceBlobCleanupDecision :=
  match batch.find? fun loaded => loaded.blob.contentRef = blob.contentRef with
  | none => .staleClaim
  | some loaded =>
    if claimIsLive jobs loaded = false then .staleClaim
    else if isReferenced references blob.contentRef = true then .referenced
    else .delete

/-! ## Finishing -/

/-- The time of the next attempt after so many. -/
def nextCleanupRetryAt (now attempts : ℕ) : Except PostgresError ℕ :=
  if attempts = 0 then .error (.internalMessage "cleanup attempt count must be positive")
  else if attempts = 1 then .ok now
  else
    let delay := min (5 <<< min (attempts - 2) 10) MAX_CLEANUP_RETRY_SECONDS
    if maxI64 < now + delay then .error (.internalMessage "cleanup retry time exceeds i64 range")
    else .ok (now + delay)

/-- The attempts and the time of the next one. -/
def retainedRetry (attempts : ℕ) (failed : Bool) (now : ℕ) : Except PostgresError (ℕ × ℕ) :=
  if failed = false then .ok (attempts, now)
  else if maxI32 < attempts + 1 then
    .error (.internalMessage "cleanup attempt count exceeds i32 range")
  else (nextCleanupRetryAt now (attempts + 1)).map fun nextRunAt => (attempts + 1, nextRunAt)

def markSourceBlobCleanupRetained (jobs : Jobs) (contentRef : ContentRef) (generation : String)
    (now : ℕ) : Except PostgresError Jobs :=
  match jobs.find? contentRef with
  | none => .ok jobs
  | some model =>
    if model.generation ≠ generation ∨ model.completedAtUnix.isSome then .ok jobs
    else (retainedRetry model.attempts true now).map fun (attempts, nextRunAt) =>
      jobs.update (SourceBlobCleanupJob.isClaimedAs contentRef generation)
        (fun job => { job with
          attempts := attempts
          lastError := some RETAINED_SOURCE_BLOB_ERROR
          nextRunAtUnix := nextRunAt
          updatedAtUnix := now })
        fun _ => rfl

def completePendingSourceBlobCleanup (jobs : Jobs) (contentRef : ContentRef) (generation : String)
    (now : ℕ) : Jobs :=
  jobs.update (SourceBlobCleanupJob.isClaimedAs contentRef generation)
    (fun job => { job with
      completedAtUnix := some now
      lastError := none
      updatedAtUnix := now })
    fun _ => rfl

/-- One round of the loop over the claimed rows. -/
def reconcileRow (retained : List SourceBlob) (now : ℕ) (jobs : Jobs)
    (loaded : LoadedSourceBlobCleanup) : Except PostgresError Jobs :=
  if loaded.blob.contentRef ∈ retained.map SourceBlob.contentRef then
    markSourceBlobCleanupRetained jobs loaded.blob.contentRef loaded.generation now
  else .ok (completePendingSourceBlobCleanup jobs loaded.blob.contentRef loaded.generation now)

/-- The retained blobs that were not claimed; each is queued with a generation of its own. -/
def unclaimed (batch : List LoadedSourceBlobCleanup) (retained : List SourceBlob) : List SourceBlob :=
  retained.filter fun blob => !batch.any fun loaded => loaded.blob.contentRef = blob.contentRef

def reconcileSourceBlobCleanupRows (jobs : Jobs) (batch : List LoadedSourceBlobCleanup)
    (retained : List SourceBlob) (fresh : SourceBlob → String) (nowUnix : ℕ) :
    Except PostgresError Jobs := do
  let now ← u64ToI64 nowUnix "current time"
  let jobs ← batch.foldlM (reconcileRow retained now) jobs
  (unclaimed batch retained).foldlM
    (fun jobs blob => queuePendingSourceBlobDeletionRows jobs [(blob, fresh blob)] nowUnix) jobs

end ScopeVcs.Content

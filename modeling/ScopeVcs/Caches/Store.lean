import ScopeVcs.Caches.Domain
import ScopeVcs.Lib.Table

/-! # Run caches: the store

The four tables of the cache store and the transactions over them. A transaction that fails rolls
back; the advisory lock on the repository is what serialises them. Rows that tie in an `ORDER BY`
come in table order.
-/

namespace ScopeVcs.Caches

open Mutation IntegerColumns

/-! ## Tables -/

structure CacheObjectRecord where
  repositoryId : String
  checksumSha256 : String
  storageBackend : String
  objectKey : String
  sizeBytes : ℕ
  createdAtUnix : ℕ
  deriving DecidableEq

structure ReferenceRow where
  repositoryId : String
  identityDigest : String
  compatibilityGroupDigest : String
  checksumSha256 : String
  createdAtUnix : ℕ
  expiresAtUnix : ℕ
  lastAccessedAtUnix : ℕ
  deriving DecidableEq

inductive CacheUploadState where
  | active
  | deleting
  | committed
  deriving DecidableEq

structure CacheUploadRecord where
  uploadId : String
  repositoryId : String
  identityDigest : String
  compatibilityGroupDigest : String
  checksumSha256 : String
  storageBackend : String
  objectKey : String
  sizeBytes : ℕ
  state : CacheUploadState
  createdAtUnix : ℕ
  expiresAtUnix : ℕ
  cleanupGeneration : ℕ
  cleanupLeaseExpiresAtUnix : Option ℕ
  deriving DecidableEq

structure DeletionRow where
  repositoryId : String
  checksumSha256 : String
  notBeforeUnix : ℕ
  attempts : ℕ
  lastError : Option String
  deriving DecidableEq

/-! ## Keys -/

def CacheObjectRecord.key (o : CacheObjectRecord) : String × String :=
  (o.repositoryId, o.checksumSha256)

def ReferenceRow.key (r : ReferenceRow) : String × String := (r.repositoryId, r.identityDigest)

/-- The object a reference points to. -/
def ReferenceRow.target (r : ReferenceRow) : String × String := (r.repositoryId, r.checksumSha256)

/-- The object an upload is for. -/
def CacheUploadRecord.target (u : CacheUploadRecord) : String × String :=
  (u.repositoryId, u.checksumSha256)

def DeletionRow.key (d : DeletionRow) : String × String := (d.repositoryId, d.checksumSha256)

/-- An upload that still holds bytes of its own: `state IN ('active', 'deleting')`. -/
def CacheUploadRecord.isOpen (u : CacheUploadRecord) : Bool :=
  u.state = .active || u.state = .deleting

structure CacheDb where
  objects : Table CacheObjectRecord.key
  references : Table ReferenceRow.key
  uploads : Table CacheUploadRecord.uploadId
  deletionQueue : Table DeletionRow.key

def CacheDb.empty : CacheDb := ⟨∅, ∅, ∅, ∅⟩

abbrev CacheTx := EStateM PostgresError CacheDb

/-- A value of the cache domain inside a transaction. -/
def domain {α : Type} (x : Except CacheDomainError α) : CacheTx α :=
  check fun _ => x.mapError CacheDomainError.toPostgres

def cacheObjectKey (repositoryId checksumSha256 : String) : String :=
  "repos/" ++ repositoryId ++ "/objects/sha256/" ++ checksumSha256

/-! ## Queries -/

namespace CacheDb

def storedObject (db : CacheDb) (repositoryId checksumSha256 : String) : Option CacheObjectRecord :=
  db.objects.find? (repositoryId, checksumSha256)

def currentReference (db : CacheDb) (repositoryId identityDigest : String) : Option ReferenceRow :=
  db.references.find? (repositoryId, identityDigest)

def deletionIsClaimed (db : CacheDb) (repositoryId checksumSha256 : String) : Bool :=
  (db.deletionQueue.find? (repositoryId, checksumSha256)).any fun row => 0 < row.attempts

/-- `EXISTS (SELECT 1 FROM scope_cache_references r WHERE …)`. -/
def isReferenced (db : CacheDb) (target : String × String) : Bool :=
  db.references.any fun r => r.target = target

/-- The bytes a repository is charged for: the objects it references, and its open uploads. -/
def repositoryBytes (db : CacheDb) (repositoryId : String) : ℕ :=
  ((db.objects.select fun o => o.repositoryId = repositoryId && db.isReferenced o.key).map
    CacheObjectRecord.sizeBytes).sum +
  ((db.uploads.select fun u => u.repositoryId = repositoryId && u.isOpen).map
    CacheUploadRecord.sizeBytes).sum

/-- `active_repository_bytes`; the sum is cast to `bigint`. -/
def activeRepositoryBytes (db : CacheDb) (repositoryId : String) : Except PostgresError ℕ :=
  if db.repositoryBytes repositoryId ≤ maxI64 then .ok (db.repositoryBytes repositoryId)
  else .error (.internalMessage "bigint out of range")

/-! ## Single statements -/

def insertReference (db : CacheDb) (row : ReferenceRow) : CacheDb :=
  { db with references := db.references.insert row }

def deleteReference (db : CacheDb) (repositoryId identityDigest : String) : CacheDb :=
  { db with references := db.references.delete fun r => r.key = (repositoryId, identityDigest) }

/-- `UPDATE scope_cache_references SET last_accessed_at_unix = …, expires_at_unix = …`. -/
def touchReference (db : CacheDb) (repositoryId identityDigest : String) (now expiry : ℕ) : CacheDb :=
  { db with
    references := db.references.update (fun r => r.key = (repositoryId, identityDigest))
      (fun r => { r with lastAccessedAtUnix := now, expiresAtUnix := expiry }) (by intro _; rfl) }

def unqueueDeletion (db : CacheDb) (repositoryId checksumSha256 : String) : CacheDb :=
  { db with
    deletionQueue := db.deletionQueue.delete fun d => d.key = (repositoryId, checksumSha256) }

def queueIfUnreferenced (db : CacheDb) (repositoryId checksumSha256 : String) (notBefore : ℕ) :
    CacheDb :=
  if (db.storedObject repositoryId checksumSha256).isSome = true ∧
      db.isReferenced (repositoryId, checksumSha256) = false then
    { db with
      deletionQueue :=
        -- `ON CONFLICT DO UPDATE` keeps the attempts of the row that is there
        (db.deletionQueue.update (fun d => d.key = (repositoryId, checksumSha256))
          (fun d => { d with notBeforeUnix := max d.notBeforeUnix notBefore, lastError := none })
          (by intro _; rfl)).insert
          { repositoryId, checksumSha256, notBeforeUnix := notBefore, attempts := 0
            lastError := none } }
  else db

/-- `UPDATE scope_cache_uploads SET state = … WHERE upload_id = …`. -/
def setUploadState (db : CacheDb) (uploadId : String) (state : CacheUploadState)
    (cleanupLeaseExpiresAtUnix : Option ℕ) : CacheDb :=
  { db with
    uploads := db.uploads.update (fun u => u.uploadId = uploadId)
      (fun u => { u with state, cleanupLeaseExpiresAtUnix }) (by intro _; rfl) }

end CacheDb

/-! ## Decoding -/

def domainReference (row : ReferenceRow) : Except CacheDomainError CacheReference := do
  let repositoryId ← RepositoryId.parse row.repositoryId
  let identityDigest ← CacheDigest.parse row.identityDigest
  let compatibilityGroupDigest ← CacheDigest.parse row.compatibilityGroupDigest
  let objectDigest ← CacheDigest.parse row.checksumSha256
  CacheReference.restore repositoryId identityDigest compatibilityGroupDigest objectDigest
    row.lastAccessedAtUnix row.expiresAtUnix

def domainObject (record : CacheObjectRecord) : Except CacheDomainError CacheObject := do
  let repositoryId ← RepositoryId.parse record.repositoryId
  let digest ← CacheDigest.parse record.checksumSha256
  CacheObject.new repositoryId digest record.sizeBytes record.createdAtUnix

def domainUpload (record : CacheUploadRecord) : Except CacheDomainError UploadLease := do
  let id ← UploadLeaseId.parse record.uploadId
  let repositoryId ← RepositoryId.parse record.repositoryId
  let identityDigest ← CacheDigest.parse record.identityDigest
  let compatibilityGroupDigest ← CacheDigest.parse record.compatibilityGroupDigest
  let objectDigest ← CacheDigest.parse record.checksumSha256
  UploadLease.restore id repositoryId identityDigest compatibilityGroupDigest objectDigest
    record.sizeBytes record.createdAtUnix record.expiresAtUnix

/-! ## Removing references -/

/-- Removes a reference that is to be evicted, and queues its object once nothing else refers to
it. The two callers pass the storage the decision is taken from and the text of the other case. -/
def evictReferenceRow (storageBytes : ℕ) (retained : String) (nowUnix : ℕ) (row : ReferenceRow) :
    CacheTx Unit := do
  let reference ← domain (domainReference row)
  let decision ← domain (decideReferenceEviction reference storageBytes nowUnix)
  match decision with
  | .retain => throw (.internalMessage retained)
  | .removeReference deletion =>
    modify fun db => db.deleteReference row.repositoryId row.identityDigest
    let notBefore ← check fun _ =>
      u64ToI64 deletion.eligibleAfterUnix "cache deletion eligibility time"
    modify fun db => db.queueIfUnreferenced row.repositoryId row.checksumSha256 notBefore

def expireReferenceRow (nowUnix : ℕ) (row : ReferenceRow) : CacheTx Unit :=
  evictReferenceRow 0 "expired cache reference was unexpectedly retained" nowUnix row

def expireRepositoryReferences (repositoryId : String) (nowUnix : ℕ) : CacheTx Unit := do
  let now ← check fun _ => u64ToI64 nowUnix "current time"
  let db ← get
  forM (db.references.select fun r => r.repositoryId = repositoryId && r.expiresAtUnix ≤ now)
    (expireReferenceRow nowUnix)

/-- The least recently used reference other than the protected one. -/
def victim (db : CacheDb) (repositoryId protectedIdentity : String) : Option ReferenceRow :=
  Table.first?
    (fun r r' => r.lastAccessedAtUnix < r'.lastAccessedAtUnix ||
      (r.lastAccessedAtUnix = r'.lastAccessedAtUnix && r.identityDigest ≤ r'.identityDigest))
    (db.references.select fun r =>
      r.repositoryId = repositoryId && r.identityDigest != protectedIdentity)

/-- One round of the loop of `make_repository_room`. -/
def makeRepositoryRoomRound (repositoryId protectedIdentity : String)
    (additionalBytes budgetBytes nowUnix : ℕ) (next : CacheTx Unit) : CacheTx Unit := do
  let usage ← check fun db => db.activeRepositoryBytes repositoryId
  if saturatingAddI64 usage additionalBytes ≤ budgetBytes then return
  else
    let db ← get
    match victim db repositoryId protectedIdentity with
    | none =>
      throw (.resourceExhausted "repository cache budget cannot fit the requested object")
    | some row =>
      evictReferenceRow (saturatingAddI64 usage additionalBytes)
        "over-budget cache reference was unexpectedly retained" nowUnix row
      next

def makeRepositoryRoomLoop (repositoryId protectedIdentity : String)
    (additionalBytes budgetBytes nowUnix : ℕ) : ℕ → CacheTx Unit
  | 0 => throw (.internalMessage "make_repository_room did not finish")
  | rounds + 1 =>
    makeRepositoryRoomRound repositoryId protectedIdentity additionalBytes budgetBytes nowUnix
      (makeRepositoryRoomLoop repositoryId protectedIdentity additionalBytes budgetBytes nowUnix
        rounds)

/-- Every round but the last removes a reference, so there are at most that many rounds and one. -/
def makeRepositoryRoom (repositoryId protectedIdentity : String)
    (additionalBytes budgetBytes nowUnix : ℕ) : CacheTx Unit := do
  let db ← get
  makeRepositoryRoomLoop repositoryId protectedIdentity additionalBytes budgetBytes nowUnix
    (db.references.rows.length + 1)

/-! ## Restoring -/

inductive CacheRestoreKind where
  | exact
  | compatible
  deriving DecidableEq

structure CacheRestoreRecord where
  source : CacheRestoreKind
  object : CacheObjectRecord
  deriving DecidableEq

/-- The live reference of the compatibility group that answers a restore: the exact identity
first, then the newest. -/
def restorable (db : CacheDb) (repositoryId identityDigest compatibilityGroupDigest : String)
    (now : ℕ) : Option ReferenceRow :=
  Table.first?
    (fun r r' =>
      if (r.identityDigest = identityDigest) = (r'.identityDigest = identityDigest) then
        r'.createdAtUnix < r.createdAtUnix ||
          (r.createdAtUnix = r'.createdAtUnix && r.identityDigest ≤ r'.identityDigest)
      else r.identityDigest = identityDigest)
    (db.references.select fun r =>
      r.repositoryId = repositoryId &&
        r.compatibilityGroupDigest = compatibilityGroupDigest && now < r.expiresAtUnix &&
        (db.storedObject r.repositoryId r.checksumSha256).isSome)

def restore (repositoryId identityDigest compatibilityGroupDigest : String) (nowUnix : ℕ) :
    CacheTx (Option CacheRestoreRecord) := transaction do
  let now ← check fun _ => u64ToI64 nowUnix "current time"
  let db ← get
  match restorable db repositoryId identityDigest compatibilityGroupDigest now with
  | none => return none
  | some row =>
    match db.storedObject row.repositoryId row.checksumSha256 with
    | none => return none
    | some object =>
      let current ← domain (domainReference row)
      let reference ← domain (accessReference current nowUnix)
      let expiry ← check fun _ => u64ToI64 reference.expiresAtUnix "cache reference expiry"
      modify fun db => db.touchReference repositoryId row.identityDigest now expiry
      return some {
        source := if row.identityDigest = identityDigest then .exact else .compatible
        object }

/-! ## Uploading -/

inductive CachePrepareResult where
  | useObject (object : CacheObjectRecord) (expiresAtUnix : ℕ)
  | upload (record : CacheUploadRecord)
  deriving DecidableEq

structure PrepareArgs where
  repositoryId : String
  identityDigest : String
  compatibilityGroupDigest : String
  checksumSha256 : String
  sizeBytes : ℕ
  storageBackend : String
  uploadId : String
  nowUnix : ℕ
  deriving DecidableEq

/-- The branch of `prepare_upload` for an object that is stored already. -/
def reuseStoredObject (args : PrepareArgs) (now : ℕ) (identity : CacheDigest)
    (leaseId : UploadLeaseId) (object : CacheObjectRecord) : CacheTx CachePrepareResult := do
  check fun db => rejectIf (db.deletionIsClaimed args.repositoryId args.checksumSha256 = true)
    (.conflict "cache object deletion is already in progress")
  check fun _ => rejectIf
    (object.storageBackend ≠ args.storageBackend ∨ object.sizeBytes ≠ args.sizeBytes)
    (.conflict "cache object digest is already committed with different metadata")
  let group ← domain (CacheDigest.parse args.compatibilityGroupDigest)
  let stored ← domain (domainObject object)
  let decision ← domain (Caches.prepareUpload {
    identityDigest := identity
    compatibilityGroupDigest := group
    object := stored
    objectAlreadyStored := true
    currentReference := none
    -- the bytes the repository already uses are not counted here
    repositoryStorageBytes := 0
    leaseId
    nowUnix := args.nowUnix })
  match decision with
  | .upload _ => throw (.internalMessage "stored cache object unexpectedly required an upload")
  | .useObject reference =>
    let expiry ← check fun _ => u64ToI64 reference.expiresAtUnix "cache reference expiry"
    modify fun db => (db.insertReference {
      repositoryId := args.repositoryId
      identityDigest := args.identityDigest
      compatibilityGroupDigest := args.compatibilityGroupDigest
      checksumSha256 := args.checksumSha256
      createdAtUnix := now
      expiresAtUnix := expiry
      lastAccessedAtUnix := now }).unqueueDeletion args.repositoryId args.checksumSha256
    return .useObject object reference.expiresAtUnix

/-- `INSERT INTO scope_cache_uploads … ON CONFLICT DO NOTHING`: the upload id, the object key and
the identity of an open upload are unique. -/
def insertUpload (upload : CacheUploadRecord) : CacheTx Unit := do
  check fun db => rejectIf
    (db.uploads.any (fun u => u.uploadId = upload.uploadId || u.objectKey = upload.objectKey ||
      (u.isOpen && u.repositoryId = upload.repositoryId &&
        u.identityDigest = upload.identityDigest)) = true)
    (.conflict "an active cache upload already exists for this logical identity")
  modify fun db => { db with uploads := db.uploads.insert upload }

/-- The branch of `prepare_upload` for an object that is not stored. -/
def startUpload (args : PrepareArgs) (now size : ℕ) (requestedObject : CacheObject)
    (identity : CacheDigest) (leaseId : UploadLeaseId) : CacheTx CachePrepareResult := do
  let budget ← check fun _ => u64ToI64 MAX_REPOSITORY_CACHE_BYTES "repository cache budget"
  makeRepositoryRoom args.repositoryId args.identityDigest size budget args.nowUnix
  let repositoryStorageBytes ← check fun db => db.activeRepositoryBytes args.repositoryId
  let group ← domain (CacheDigest.parse args.compatibilityGroupDigest)
  let decision ← domain (Caches.prepareUpload {
    identityDigest := identity
    compatibilityGroupDigest := group
    object := requestedObject
    objectAlreadyStored := false
    currentReference := none
    repositoryStorageBytes
    leaseId
    nowUnix := args.nowUnix })
  match decision with
  | .useObject _ => throw (.internalMessage "missing cache object unexpectedly bypassed upload")
  | .upload lease =>
    let expiry ← check fun _ => u64ToI64 lease.expiresAtUnix "cache upload lease expiry"
    let record : CacheUploadRecord := {
      uploadId := args.uploadId
      repositoryId := args.repositoryId
      identityDigest := args.identityDigest
      compatibilityGroupDigest := args.compatibilityGroupDigest
      checksumSha256 := args.checksumSha256
      storageBackend := args.storageBackend
      objectKey := cacheObjectKey args.repositoryId args.checksumSha256
      sizeBytes := size
      state := .active
      createdAtUnix := now
      expiresAtUnix := expiry
      cleanupGeneration := 0
      cleanupLeaseExpiresAtUnix := none }
    insertUpload record
    return .upload record

/-- `CacheStore::prepare_upload`. -/
def prepare (args : PrepareArgs) : CacheTx CachePrepareResult := transaction do
  let now ← check fun _ => u64ToI64 args.nowUnix "current time"
  let size ← check fun _ => u64ToI64 args.sizeBytes "cache object size"
  let repository ← domain (RepositoryId.parse args.repositoryId)
  let digest ← domain (CacheDigest.parse args.checksumSha256)
  let requestedObject ← domain (CacheObject.new repository digest args.sizeBytes args.nowUnix)
  let identity ← domain (CacheDigest.parse args.identityDigest)
  let leaseId ← domain (UploadLeaseId.parse args.uploadId)
  expireRepositoryReferences args.repositoryId args.nowUnix
  let db ← get
  match db.currentReference args.repositoryId args.identityDigest with
  | some current =>
    check fun _ => rejectIf
      (current.compatibilityGroupDigest ≠ args.compatibilityGroupDigest)
      (.conflict "cache exact identity belongs to a different compatibility group")
    match db.storedObject args.repositoryId current.checksumSha256 with
    | none => throw (.internalMessage "cache reference object missing")
    | some object => return .useObject object current.expiresAtUnix
  | none =>
    match db.storedObject args.repositoryId args.checksumSha256 with
    | some object => reuseStoredObject args now identity leaseId object
    | none => startUpload args now size requestedObject identity leaseId

inductive CacheCommitResult where
  | committed (object : CacheObjectRecord) (expiresAtUnix : ℕ)
  | alreadyCommitted (object : CacheObjectRecord) (expiresAtUnix : ℕ)
  | stale
  deriving DecidableEq

def liveUpload (db : CacheDb) (uploadId : String) : Except PostgresError CacheUploadRecord :=
  match db.uploads.find? uploadId with
  | some upload =>
    if upload.state = .active ∨ upload.state = .committed then .ok upload
    else .error (.notFound "cache upload lease not found")
  | none => .error (.notFound "cache upload lease not found")

/-- `commit_upload` of an upload that was committed before. -/
def recommit (upload : CacheUploadRecord) (current : Option ReferenceRow) :
    CacheTx CacheCommitResult :=
  match current with
  | none => throw (.conflict "committed cache upload is no longer the current reference")
  | some current => do
    check fun _ => rejectIf (current.checksumSha256 ≠ upload.checksumSha256)
      (.conflict "committed cache upload is no longer the current reference")
    let object ← check fun db =>
      (db.storedObject upload.repositoryId upload.checksumSha256).elim
        (.error (.internalMessage "cache reference object missing")) .ok
    return .alreadyCommitted object current.expiresAtUnix

/-- The rows `commit_upload` writes for an object that becomes the current reference. -/
def publishUpload (upload : CacheUploadRecord) (now : ℕ) (uploadedObject : CacheObject)
    (reference : CacheReference) : CacheTx CacheCommitResult := do
  let size ← check fun _ => u64ToI64 upload.sizeBytes "cache upload size"
  let createdAt ← check fun _ =>
    u64ToI64 uploadedObject.createdAtUnix "cache object creation time"
  modify fun db => {
    db with
    objects := db.objects.insert {
      repositoryId := upload.repositoryId
      checksumSha256 := upload.checksumSha256
      storageBackend := upload.storageBackend
      objectKey := upload.objectKey
      sizeBytes := size
      createdAtUnix := createdAt } }
  let object ← check fun db =>
    (db.storedObject upload.repositoryId upload.checksumSha256).elim
      (.error (.internalMessage "committed cache object missing")) .ok
  check fun _ => rejectIf
    (object.objectKey ≠ upload.objectKey ∨ object.storageBackend ≠ upload.storageBackend ∨
      object.sizeBytes ≠ upload.sizeBytes)
    (.conflict "cache object digest is already committed with different metadata")
  let expiry ← check fun _ => u64ToI64 reference.expiresAtUnix "cache reference expiry"
  modify fun db => ((db.insertReference {
    repositoryId := upload.repositoryId
    identityDigest := upload.identityDigest
    compatibilityGroupDigest := upload.compatibilityGroupDigest
    checksumSha256 := upload.checksumSha256
    createdAtUnix := now
    expiresAtUnix := expiry
    lastAccessedAtUnix := now }).setUploadState upload.uploadId .committed none).unqueueDeletion
      upload.repositoryId upload.checksumSha256
  return .committed object reference.expiresAtUnix

/-- `CacheStore::commit_upload`. -/
def commit (uploadId : String) (nowUnix : ℕ) : CacheTx CacheCommitResult := transaction do
  let now ← check fun _ => u64ToI64 nowUnix "current time"
  let upload ← check fun db => liveUpload db uploadId
  let db ← get
  let current := db.currentReference upload.repositoryId upload.identityDigest
  let currentDomain ← domain (current.mapM domainReference)
  if upload.state = .committed then recommit upload current
  else
    let repository ← domain (RepositoryId.parse upload.repositoryId)
    let digest ← domain (CacheDigest.parse upload.checksumSha256)
    let uploadedObject ← domain
      (CacheObject.new repository digest upload.sizeBytes upload.createdAtUnix)
    let lease ← domain (domainUpload upload)
    match commitUpload lease uploadedObject currentDomain nowUnix with
    | .error .staleUploadLease =>
      let lapsed ← check fun _ => u64ToI64 nowUnix "cache cleanup lease expiry"
      modify fun db => db.setUploadState uploadId .deleting (some lapsed)
      return .stale
    | .error error => throw error.toPostgres
    | .ok (.alreadyCommitted reference) =>
      let object ← check fun db =>
        (db.storedObject upload.repositoryId upload.checksumSha256).elim
          (.error (.internalMessage "cache reference object missing")) .ok
      modify fun db => db.setUploadState uploadId .committed none
      return .alreadyCommitted object reference.expiresAtUnix
    | .ok (.committed reference) => publishUpload upload now uploadedObject reference

/-! ## Retention -/

/-- `ORDER BY … LIMIT …`. -/
def firstRows {ρ : Type} (time : ρ → ℕ) (limit : ℕ) (rows : List ρ) : List ρ :=
  (rows.insertionSort fun r r' => time r ≤ time r').take limit

def expireReferences (nowUnix limit : ℕ) : CacheTx ℕ := transaction do
  let now ← check fun _ => u64ToI64 nowUnix "current time"
  let limit ← check fun _ => u64ToI64 limit "batch limit"
  let db ← get
  let rows := firstRows ReferenceRow.expiresAtUnix limit
    (db.references.select fun r => r.expiresAtUnix ≤ now)
  forM rows (expireReferenceRow nowUnix)
  return rows.length

structure CacheUploadCleanupClaim where
  uploadId : String
  objectKey : String
  generation : ℕ
  deriving DecidableEq

/-- An upload that `expire_uploads` may take for cleanup. -/
def CacheUploadRecord.isDue (u : CacheUploadRecord) (now : ℕ) : Bool :=
  (u.state = .active && u.expiresAtUnix ≤ now) ||
    (u.state = .deleting && u.cleanupLeaseExpiresAtUnix.any (· ≤ now))

def expireUploads (nowUnix limit : ℕ) : CacheTx (List CacheUploadCleanupClaim) := transaction do
  let now ← check fun _ => u64ToI64 nowUnix "current time"
  let limit ← check fun _ => u64ToI64 limit "batch limit"
  let cleanupExpiry ← check fun _ =>
    u64ToI64 (U64.saturatingAdd nowUnix 300) "cleanup lease expiry"
  let db ← get
  let due := firstRows CacheUploadRecord.expiresAtUnix limit (db.uploads.select (·.isDue now))
  modify fun db => {
    db with
    uploads := db.uploads.update (fun u => u.uploadId ∈ due.map CacheUploadRecord.uploadId)
      (fun u => { u with
        state := .deleting
        cleanupGeneration := u.cleanupGeneration + 1
        cleanupLeaseExpiresAtUnix := some cleanupExpiry }) (by intro _; rfl) }
  return due.map fun u => ⟨u.uploadId, u.objectKey, u.cleanupGeneration + 1⟩

/-- The row a cleanup claim still holds: the guard of `cleanup_upload`. -/
def cleanupIsCurrent (db : CacheDb) (claim : CacheUploadCleanupClaim) : Bool :=
  db.uploads.any fun u =>
    u.uploadId = claim.uploadId && u.state = .deleting && u.cleanupGeneration = claim.generation

/-- What the object store answers to a delete, and whether the delete took effect. -/
inductive DeleteOutcome where
  | deleted
  | failed (tookEffect : Bool)
  deriving DecidableEq

/-- `cleanup_upload`: the rows it leaves when the delete inside the transaction ended so. -/
def cleanupUpload (claim : CacheUploadCleanupClaim) (outcome : DeleteOutcome) : CacheTx Unit :=
  transaction do
    let db ← get
    if cleanupIsCurrent db claim = true then
      match outcome with
      | .deleted =>
        modify fun db => { db with uploads := db.uploads.delete (·.uploadId = claim.uploadId) }
      | .failed _ => throw (.internalMessage "cache upload deletion failed")
    else return

def expireCommittedUploads (nowUnix limit : ℕ) : CacheTx Unit := transaction do
  let now ← check fun _ => u64ToI64 nowUnix "current time"
  let limit ← check fun _ => u64ToI64 limit "batch limit"
  modify fun db =>
    let due := firstRows CacheUploadRecord.expiresAtUnix limit
      (db.uploads.select fun u => u.state = .committed && u.expiresAtUnix ≤ now)
    { db with
      uploads := db.uploads.delete fun u => u.uploadId ∈ due.map CacheUploadRecord.uploadId }

/-! ## Deleting objects -/

structure PendingCacheDeletion where
  repositoryId : String
  checksumSha256 : String
  objectKey : String
  attempts : ℕ
  eligibleAfterUnix : ℕ
  deriving DecidableEq

/-- The candidates `claim_deletions` reads before it claims them one by one. -/
def deletionCandidates (db : CacheDb) (now limit : ℕ) : List (String × String) :=
  (firstRows DeletionRow.notBeforeUnix limit
    (db.deletionQueue.select fun d => d.notBeforeUnix ≤ now)).map DeletionRow.key

/-- The transaction in which `claim_deletions` claims one candidate, when it is still due, stored
and unreferenced. -/
def claimDeletion (candidate : String × String) (nowUnix retryAtUnix : ℕ) :
    CacheTx (Option PendingCacheDeletion) := transaction do
  let now ← check fun _ => u64ToI64 nowUnix "current time"
  let retryAt ← check fun _ => u64ToI64 retryAtUnix "retry time"
  let db ← get
  match db.deletionQueue.find? candidate, db.objects.find? candidate with
  | some due, some object =>
    if due.notBeforeUnix ≤ now ∧ db.isReferenced candidate = false then
      modify fun db => {
        db with
        deletionQueue := db.deletionQueue.update (fun d => d.key = candidate)
          (fun d => { d with attempts := d.attempts + 1, notBeforeUnix := retryAt }) (by intro _; rfl) }
      return some {
        repositoryId := candidate.1
        checksumSha256 := candidate.2
        objectKey := object.objectKey
        attempts := due.attempts + 1
        eligibleAfterUnix := due.notBeforeUnix }
    else return none
  | _, _ => return none

/-- `complete_deletion`; deleting the object row deletes its queue row. -/
def completeDeletion (repositoryId checksumSha256 : String) : CacheTx Bool := transaction do
  let db ← get
  if (db.storedObject repositoryId checksumSha256).isSome = true ∧
      db.deletionIsClaimed repositoryId checksumSha256 = true ∧
      db.isReferenced (repositoryId, checksumSha256) = false then
    modify fun db => {
      db.unqueueDeletion repositoryId checksumSha256 with
      objects := db.objects.delete fun o => o.key = (repositoryId, checksumSha256) }
    return true
  else return false

/-- `bounded_job_error`. -/
def boundedJobError (error : String) : String :=
  let bounded := String.ofList (error.toList.take 8192)
  if bounded = "" then "cache object deletion failed" else bounded

def failDeletion (deletion : PendingCacheDeletion) (retryAtUnix : ℕ) (error : String) :
    CacheTx Unit := transaction do
  let retryAt ← check fun _ => u64ToI64 retryAtUnix "retry time"
  modify fun db => {
    db with
    deletionQueue := db.deletionQueue.update
      (fun d => d.key = (deletion.repositoryId, deletion.checksumSha256))
      (fun d => { d with notBeforeUnix := retryAt, lastError := some (boundedJobError error) })
      (by intro _; rfl) }

end ScopeVcs.Caches

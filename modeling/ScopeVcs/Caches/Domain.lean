import ScopeVcs.Lib.Mutation
import ScopeVcs.Lib.Text
import ScopeVcs.Lib.U64
import ScopeVcs.Postgres.Error

/-! # Run caches: limits, types and decisions

The pure part of the cache service: the storage policy, the validated values, and what is decided
about an upload, its commit and the eviction of a reference.
-/

namespace ScopeVcs.Caches

open Mutation

inductive CacheDomainError where
  | missingRepositoryId
  | invalidDigest
  | missingUploadLeaseId
  | emptyObject
  | objectTooLarge (actualBytes maximumBytes : ℕ)
  | repositoryBudgetExceeded (requestedBytes maximumBytes : ℕ)
  | timestampOverflow
  | byteCountOverflow
  | referenceScopeMismatch
  | invalidReferenceExpiry
  | referenceAccessBeforeLastUpdate
  | invalidUploadLeaseExpiry
  | uploadLeaseMismatch
  | uploadLeaseExpired
  | staleUploadLease
  deriving DecidableEq

namespace CacheDomainError

def message : CacheDomainError → String
  | missingRepositoryId => "repository id is required"
  | invalidDigest => "cache digest must be 64 lowercase hexadecimal characters"
  | missingUploadLeaseId => "upload lease id is required"
  | emptyObject => "cache object size must be greater than zero"
  | objectTooLarge actual maximum =>
    "cache object is " ++ toString actual ++ " bytes; the maximum is " ++ toString maximum ++ " bytes"
  | repositoryBudgetExceeded requested maximum =>
    "cache object would use " ++ toString requested ++ " bytes for the repository; the maximum is " ++
      toString maximum ++ " bytes"
  | timestampOverflow => "cache timestamp overflowed"
  | byteCountOverflow => "cache byte accounting overflowed"
  | referenceScopeMismatch =>
    "cache reference belongs to a different repository or logical identity"
  | invalidReferenceExpiry => "cache reference expiry does not match policy"
  | referenceAccessBeforeLastUpdate => "cache reference access cannot precede its last update"
  | invalidUploadLeaseExpiry => "upload lease expiry does not match policy"
  | uploadLeaseMismatch => "uploaded object does not match its upload lease"
  | uploadLeaseExpired => "upload lease expired"
  | staleUploadLease => "the immutable exact cache identity is already published"

/-- `impl From<CacheDomainError> for PostgresError`. -/
def toPostgres (error : CacheDomainError) : PostgresError :=
  let kind : PostgresErrorKind := match error with
    | repositoryBudgetExceeded _ _ => .resourceExhausted
    | uploadLeaseExpired | staleUploadLease => .conflict
    | invalidReferenceExpiry | invalidUploadLeaseExpiry => .internal
    | _ => .invalidInput
  ⟨kind, error.message⟩

end CacheDomainError

/-! ## Policy -/

def GIB : ℕ := 1024 * 1024 * 1024
def MAX_CACHE_OBJECT_BYTES : ℕ := GIB
def MAX_REPOSITORY_CACHE_BYTES : ℕ := 5 * GIB
def CACHE_REFERENCE_TTL_SECONDS : ℕ := 7 * 24 * 60 * 60
def UPLOAD_LEASE_SECONDS : ℕ := 30 * 60
def DELETION_GRACE_SECONDS : ℕ := 60 * 60

def validateObjectSize (sizeBytes : ℕ) : Except CacheDomainError Unit := do
  rejectIf (sizeBytes = 0) .emptyObject
  rejectIf (MAX_CACHE_OBJECT_BYTES < sizeBytes) (.objectTooLarge sizeBytes MAX_CACHE_OBJECT_BYTES)

def validateRepositoryGrowth (storedBytes additionalBytes : ℕ) : Except CacheDomainError Unit := do
  let requestedBytes ← (U64.checkedAdd storedBytes additionalBytes).elim
    (.error .byteCountOverflow) .ok
  rejectIf (MAX_REPOSITORY_CACHE_BYTES < requestedBytes)
    (.repositoryBudgetExceeded requestedBytes MAX_REPOSITORY_CACHE_BYTES)

/-- `reference_expiry`, `upload_expiry` and `deletion_eligible_at`: a time some seconds from now. -/
def after (seconds nowUnix : ℕ) : Except CacheDomainError ℕ :=
  (U64.checkedAdd nowUnix seconds).elim (.error .timestampOverflow) .ok

def referenceExpiry : ℕ → Except CacheDomainError ℕ := after CACHE_REFERENCE_TTL_SECONDS

def uploadExpiry : ℕ → Except CacheDomainError ℕ := after UPLOAD_LEASE_SECONDS

def deletionEligibleAt : ℕ → Except CacheDomainError ℕ := after DELETION_GRACE_SECONDS

@[simp]
theorem after_eq_ok {seconds nowUnix time : ℕ} :
    after seconds nowUnix = .ok time ↔ nowUnix + seconds = time ∧ time ≤ U64.maxU64 := by
  rw [after, ← U64.checkedAdd_eq_some]
  cases U64.checkedAdd nowUnix seconds <;> simp

/-- Growth is accepted exactly up to the budget. -/
theorem validateRepositoryGrowth_eq_ok {stored additional : ℕ} {u : Unit} :
    validateRepositoryGrowth stored additional = .ok u ↔
      stored + additional ≤ MAX_REPOSITORY_CACHE_BYTES := by
  have hmax : MAX_REPOSITORY_CACHE_BYTES ≤ U64.maxU64 := by decide
  rw [validateRepositoryGrowth, U64.checkedAdd]
  by_cases h : stored + additional ≤ U64.maxU64
  · rw [if_pos h]
    simp only [Option.elim_some, except_bind_eq_ok, rejectIf_eq_ok, not_lt, Except.ok.injEq,
      exists_eq_left']
  · rw [if_neg h]
    simp only [Option.elim_none, except_bind_eq_ok, reduceCtorEq, false_and, exists_false,
      false_iff, not_le]
    omega

/-! ## Validated values -/

/-- `RepositoryId` and `UploadLeaseId`: an identifier that is not blank. -/
structure NonBlank where
  value : String
  notBlank : Text.isBlank value = false

instance : DecidableEq NonBlank := fun left right =>
  decidable_of_iff (left.value = right.value) (by cases left; cases right; simp)

def NonBlank.parse (missing : CacheDomainError) (value : String) :
    Except CacheDomainError NonBlank :=
  if h : Text.isBlank value = false then .ok ⟨value, h⟩ else .error missing

abbrev RepositoryId := NonBlank
abbrev UploadLeaseId := NonBlank

def RepositoryId.parse : String → Except CacheDomainError RepositoryId :=
  NonBlank.parse .missingRepositoryId

def UploadLeaseId.parse : String → Except CacheDomainError UploadLeaseId :=
  NonBlank.parse .missingUploadLeaseId

/-- Sixty-four digits in lower-case hexadecimal. -/
def isDigest (value : String) : Bool :=
  value.toList.length == 64 &&
    value.toList.all fun c => ('0' ≤ c && c ≤ '9') || ('a' ≤ c && c ≤ 'f')

structure CacheDigest where
  value : String
  valid : isDigest value = true
  deriving DecidableEq

def CacheDigest.parse (value : String) : Except CacheDomainError CacheDigest :=
  if h : isDigest value = true then .ok ⟨value, h⟩ else .error .invalidDigest

@[simp]
theorem NonBlank.parse_eq_ok {missing : CacheDomainError} {value : String} {id : NonBlank} :
    NonBlank.parse missing value = .ok id ↔ id.value = value := by
  rw [NonBlank.parse]
  split
  · constructor
    · rintro ⟨⟩
      rfl
    · rintro rfl
      rfl
  · next h =>
    simp only [reduceCtorEq, false_iff]
    rintro rfl
    exact h id.notBlank

@[simp]
theorem CacheDigest.parse_eq_ok {value : String} {digest : CacheDigest} :
    CacheDigest.parse value = .ok digest ↔ digest.value = value := by
  rw [CacheDigest.parse]
  split
  · constructor
    · rintro ⟨⟩
      rfl
    · rintro rfl
      rfl
  · next h =>
    simp only [reduceCtorEq, false_iff]
    rintro rfl
    exact h digest.valid

structure CacheObject where
  repositoryId : RepositoryId
  digest : CacheDigest
  sizeBytes : ℕ
  createdAtUnix : ℕ
  deriving DecidableEq

def CacheObject.new (repositoryId : RepositoryId) (digest : CacheDigest)
    (sizeBytes createdAtUnix : ℕ) : Except CacheDomainError CacheObject := do
  validateObjectSize sizeBytes
  return { repositoryId, digest, sizeBytes, createdAtUnix }

structure CacheReference where
  repositoryId : RepositoryId
  identityDigest : CacheDigest
  compatibilityGroupDigest : CacheDigest
  objectDigest : CacheDigest
  updatedAtUnix : ℕ
  expiresAtUnix : ℕ
  deriving DecidableEq

namespace CacheReference

def pointTo (identityDigest compatibilityGroupDigest : CacheDigest) (object : CacheObject)
    (nowUnix : ℕ) : Except CacheDomainError CacheReference := do
  let expiresAtUnix ← referenceExpiry nowUnix
  return {
    repositoryId := object.repositoryId
    identityDigest
    compatibilityGroupDigest
    objectDigest := object.digest
    updatedAtUnix := nowUnix
    expiresAtUnix }

def accessedAt (reference : CacheReference) (nowUnix : ℕ) :
    Except CacheDomainError CacheReference := do
  rejectIf (nowUnix < reference.updatedAtUnix) .referenceAccessBeforeLastUpdate
  let expiresAtUnix ← referenceExpiry nowUnix
  return { reference with updatedAtUnix := nowUnix, expiresAtUnix }

def restore (repositoryId : RepositoryId)
    (identityDigest compatibilityGroupDigest objectDigest : CacheDigest)
    (updatedAtUnix expiresAtUnix : ℕ) : Except CacheDomainError CacheReference := do
  let expiry ← referenceExpiry updatedAtUnix
  rejectIf (expiry ≠ expiresAtUnix) .invalidReferenceExpiry
  return {
    repositoryId, identityDigest, compatibilityGroupDigest, objectDigest, updatedAtUnix,
    expiresAtUnix }

def isExpiredAt (reference : CacheReference) (nowUnix : ℕ) : Bool :=
  reference.expiresAtUnix ≤ nowUnix

end CacheReference

structure UploadLease where
  id : UploadLeaseId
  repositoryId : RepositoryId
  identityDigest : CacheDigest
  compatibilityGroupDigest : CacheDigest
  objectDigest : CacheDigest
  sizeBytes : ℕ
  issuedAtUnix : ℕ
  expiresAtUnix : ℕ
  deriving DecidableEq

namespace UploadLease

def issue (id : UploadLeaseId) (identityDigest compatibilityGroupDigest : CacheDigest)
    (object : CacheObject) (nowUnix : ℕ) : Except CacheDomainError UploadLease := do
  let expiresAtUnix ← uploadExpiry nowUnix
  return {
    id
    repositoryId := object.repositoryId
    identityDigest
    compatibilityGroupDigest
    objectDigest := object.digest
    sizeBytes := object.sizeBytes
    issuedAtUnix := nowUnix
    expiresAtUnix }

def restore (id : UploadLeaseId) (repositoryId : RepositoryId)
    (identityDigest compatibilityGroupDigest objectDigest : CacheDigest)
    (sizeBytes issuedAtUnix expiresAtUnix : ℕ) : Except CacheDomainError UploadLease := do
  validateObjectSize sizeBytes
  let expiry ← uploadExpiry issuedAtUnix
  rejectIf (expiry ≠ expiresAtUnix) .invalidUploadLeaseExpiry
  return {
    id, repositoryId, identityDigest, compatibilityGroupDigest, objectDigest, sizeBytes,
    issuedAtUnix, expiresAtUnix }

def isExpiredAt (lease : UploadLease) (nowUnix : ℕ) : Bool := lease.expiresAtUnix ≤ nowUnix

end UploadLease

structure DeletionCandidate where
  repositoryId : RepositoryId
  objectDigest : CacheDigest
  eligibleAfterUnix : ℕ
  deriving DecidableEq

def DeletionCandidate.afterReferenceRemoval (reference : CacheReference) (nowUnix : ℕ) :
    Except CacheDomainError DeletionCandidate := do
  let eligibleAfterUnix ← deletionEligibleAt nowUnix
  return {
    repositoryId := reference.repositoryId
    objectDigest := reference.objectDigest
    eligibleAfterUnix }

/-! ## Decisions -/

inductive PrepareUploadDecision where
  | useObject (reference : CacheReference)
  | upload (lease : UploadLease)
  deriving DecidableEq

structure PrepareUpload where
  identityDigest : CacheDigest
  compatibilityGroupDigest : CacheDigest
  object : CacheObject
  objectAlreadyStored : Bool
  currentReference : Option CacheReference
  repositoryStorageBytes : ℕ
  leaseId : UploadLeaseId
  nowUnix : ℕ

def validateReferenceScope (reference : Option CacheReference) (object : CacheObject)
    (identityDigest compatibilityGroupDigest : CacheDigest) : Except CacheDomainError Unit :=
  rejectIf
    (∃ r ∈ reference, r.repositoryId ≠ object.repositoryId ∨ r.identityDigest ≠ identityDigest ∨
      r.compatibilityGroupDigest ≠ compatibilityGroupDigest)
    .referenceScopeMismatch

def prepareUpload (request : PrepareUpload) : Except CacheDomainError PrepareUploadDecision := do
  validateReferenceScope request.currentReference request.object request.identityDigest
    request.compatibilityGroupDigest
  match request.currentReference with
  | some reference => return .useObject reference
  | none =>
    if request.objectAlreadyStored then
      let reference ← CacheReference.pointTo request.identityDigest
        request.compatibilityGroupDigest request.object request.nowUnix
      return .useObject reference
    else
      validateRepositoryGrowth request.repositoryStorageBytes request.object.sizeBytes
      let lease ← UploadLease.issue request.leaseId request.identityDigest
        request.compatibilityGroupDigest request.object request.nowUnix
      return .upload lease

def accessReference (reference : CacheReference) (nowUnix : ℕ) :
    Except CacheDomainError CacheReference :=
  reference.accessedAt nowUnix

inductive CommitUploadDecision where
  | committed (reference : CacheReference)
  | alreadyCommitted (reference : CacheReference)
  deriving DecidableEq

def commitUpload (lease : UploadLease) (uploadedObject : CacheObject)
    (currentReference : Option CacheReference) (nowUnix : ℕ) :
    Except CacheDomainError CommitUploadDecision := do
  validateReferenceScope currentReference uploadedObject lease.identityDigest
    lease.compatibilityGroupDigest
  rejectIf
    (lease.repositoryId ≠ uploadedObject.repositoryId ∨
      lease.objectDigest ≠ uploadedObject.digest ∨ lease.sizeBytes ≠ uploadedObject.sizeBytes)
    .uploadLeaseMismatch
  match currentReference with
  | some reference =>
    if reference.objectDigest = uploadedObject.digest ∧
        reference.identityDigest = lease.identityDigest ∧
        reference.compatibilityGroupDigest = lease.compatibilityGroupDigest then
      return .alreadyCommitted reference
    else throw .staleUploadLease
  | none =>
    rejectIf (lease.isExpiredAt nowUnix = true) .uploadLeaseExpired
    let reference ← CacheReference.pointTo lease.identityDigest lease.compatibilityGroupDigest
      uploadedObject nowUnix
    return .committed reference

inductive EvictionDecision where
  | retain
  | removeReference (deletion : DeletionCandidate)
  deriving DecidableEq

def decideReferenceEviction (reference : CacheReference) (repositoryStorageBytes nowUnix : ℕ) :
    Except CacheDomainError EvictionDecision := do
  if reference.isExpiredAt nowUnix = true ∨ MAX_REPOSITORY_CACHE_BYTES < repositoryStorageBytes then
    let deletion ← DeletionCandidate.afterReferenceRemoval reference nowUnix
    return .removeReference deletion
  else return .retain

end ScopeVcs.Caches

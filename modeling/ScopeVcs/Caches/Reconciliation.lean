import ScopeVcs.Caches.Sound
import ScopeVcs.Lib.Transition

/-! # Runtimes and reconciliation workers over one cache store

The transactions of the store interleave with uploads into the object store and with the deletes of
reconciliation workers, which take effect at some moment after they were claimed.
-/

namespace ScopeVcs.Caches

open Mutation Transition

def RETRY_SECONDS : ℕ := 5 * 60

/-- A deletion some worker claimed and has not completed or failed. -/
structure InFlight where
  deletion : PendingCacheDeletion
  deleted : Bool
  deriving DecidableEq

/-- A candidate that a call of `claim_deletions` has read and not yet claimed. -/
structure Candidate where
  target : String × String
  nowUnix : ℕ
  deriving DecidableEq

structure World where
  db : CacheDb
  /-- The keys of the objects in the object store. -/
  blobs : List String
  clock : ℕ
  /-- The upload ids drawn so far; `random_upload_id` does not repeat one. -/
  uploadIds : List String
  /-- The claims `expire_uploads` handed out, before their `cleanup_upload`. -/
  cleanups : List CacheUploadCleanupClaim
  candidates : List Candidate
  deletions : List InFlight

/-- What an actor does next. A transaction carries the time its caller read off the clock. -/
inductive Action where
  | tick (seconds : ℕ)
  | put (objectKey : String)
  | restore (repositoryId identityDigest compatibilityGroupDigest : String) (nowUnix : ℕ)
  | prepare (args : PrepareArgs)
  | commit (uploadId : String) (nowUnix : ℕ)
  | expireReferences (nowUnix limit : ℕ)
  | expireUploads (nowUnix limit : ℕ)
  | cleanupUpload (claim : CacheUploadCleanupClaim) (outcome : DeleteOutcome)
  | expireCommittedUploads (nowUnix limit : ℕ)
  | selectDeletions (nowUnix limit : ℕ)
  | claimDeletion (candidate : Candidate)
  | deleteObject (inFlight : InFlight)
  | completeDeletion (inFlight : InFlight)
  | failDeletion (inFlight : InFlight) (nowUnix : ℕ) (error : String)
  deriving DecidableEq

namespace World

def initial (clock : ℕ) : World := ⟨CacheDb.empty, [], clock, [], [], [], []⟩

/-- Runs a transaction; one that fails has no effect. -/
def run {α : Type} (w : World) (x : CacheTx α) : Option (α × World) :=
  match x.run w.db with
  | .ok a db => some (a, { w with db })
  | .error _ _ => none

/-- The bytes of an upload are present, as its caller verifies before `commit_upload`. -/
def bytesPresent (w : World) (uploadId : String) : Bool :=
  (w.db.uploads.find? uploadId).all fun upload => upload.objectKey ∈ w.blobs

def deleteBlob (w : World) (objectKey : String) : World :=
  { w with blobs := w.blobs.filter (· != objectKey) }

/-- The delete inside `cleanup_upload`, which runs when the claim is current. -/
def deleteUpload (w : World) (claim : CacheUploadCleanupClaim) (outcome : DeleteOutcome) : World :=
  if cleanupIsCurrent w.db claim = true ∧ outcome ≠ .failed false then w.deleteBlob claim.objectKey
  else w

/-- `cleanup_upload`: a failed delete rolls the rows back, whether or not it took effect. -/
def cleanup (w : World) (claim : CacheUploadCleanupClaim) (outcome : DeleteOutcome) : World :=
  match (cleanupUpload claim outcome).run w.db with
  | .ok _ db => { w.deleteUpload claim outcome with db, cleanups := w.cleanups.erase claim }
  | .error _ _ => { w.deleteUpload claim outcome with cleanups := w.cleanups.erase claim }

/-- Calls with a time read off the clock, at this moment or earlier. -/
def now (w : World) (nowUnix : ℕ) (next : Option World) : Option World :=
  if nowUnix ≤ w.clock then next else none

def act (w : World) : Action → Option World
  | .tick seconds => some { w with clock := w.clock + seconds }
  | .put objectKey => some { w with blobs := objectKey :: w.blobs }
  | .restore repositoryId identityDigest group nowUnix =>
    w.now nowUnix <| (w.run (Caches.restore repositoryId identityDigest group nowUnix)).map Prod.snd
  | .prepare args =>
    w.now args.nowUnix <|
      if args.uploadId ∈ w.uploadIds then none
      else (w.run (Caches.prepare args)).map fun (_, w') =>
        { w' with uploadIds := args.uploadId :: w.uploadIds }
  | .commit uploadId nowUnix =>
    w.now nowUnix <|
      if w.bytesPresent uploadId then (w.run (Caches.commit uploadId nowUnix)).map Prod.snd else none
  | .expireReferences nowUnix limit =>
    w.now nowUnix <| (w.run (Caches.expireReferences nowUnix limit)).map Prod.snd
  | .expireUploads nowUnix limit =>
    w.now nowUnix <| (w.run (Caches.expireUploads nowUnix limit)).map fun (claims, w') =>
      { w' with cleanups := w.cleanups ++ claims }
  | .cleanupUpload claim outcome =>
    if claim ∈ w.cleanups then some (w.cleanup claim outcome) else none
  | .expireCommittedUploads nowUnix limit =>
    w.now nowUnix <| (w.run (Caches.expireCommittedUploads nowUnix limit)).map Prod.snd
  | .selectDeletions nowUnix limit =>
    w.now nowUnix <| some { w with
      candidates := w.candidates ++
        (deletionCandidates w.db nowUnix limit).map fun target => ⟨target, nowUnix⟩ }
  | .claimDeletion candidate =>
    if candidate ∈ w.candidates then do
      let retryAt ← U64.checkedAdd candidate.nowUnix RETRY_SECONDS
      let (deletion, w') ← w.run (Caches.claimDeletion candidate.target candidate.nowUnix retryAt)
      return { w' with
        candidates := w.candidates.erase candidate
        deletions := w.deletions ++ deletion.toList.map fun d => ⟨d, false⟩ }
    else none
  | .deleteObject inFlight =>
    if inFlight ∈ w.deletions then
      some ({ w with
        deletions := ⟨inFlight.deletion, true⟩ :: w.deletions.erase inFlight }.deleteBlob
          inFlight.deletion.objectKey)
    else none
  | .completeDeletion inFlight =>
    if inFlight ∈ w.deletions ∧ inFlight.deleted = true then
      (w.run (Caches.completeDeletion inFlight.deletion.repositoryId
        inFlight.deletion.checksumSha256)).map fun (_, w') =>
          { w' with deletions := w.deletions.erase inFlight }
    else none
  | .failDeletion inFlight nowUnix error =>
    w.now nowUnix <|
      if inFlight ∈ w.deletions then do
        let retryAt ← U64.checkedAdd nowUnix RETRY_SECONDS
        let (_, w') ← w.run (Caches.failDeletion inFlight.deletion retryAt error)
        return { w' with deletions := w.deletions.erase inFlight }
      else none

def isInitial (w : World) : Prop := ∃ clock, w = initial clock

def Step (w w' : World) : Prop := ∃ a, w.act a = some w'

/-- The worlds some interleaving leads to. -/
def Reachable : World → Prop := Transition.Reachable isInitial Step

/-! ## What one action does to the store -/

/-- The rule of an action: only `prepare` starts uploads, with its own id, and only `commit`
publishes one, whose bytes are present. -/
def rule (w : World) (reuse : CacheDb → CacheObjectRecord → Prop) : Action → Rule
  | .prepare args => ⟨reuse, fun u => u.uploadId = args.uploadId, fun _ => False⟩
  | .commit _ _ => ⟨reuse, fun _ => False, fun u => u.objectKey ∈ w.blobs⟩
  | _ => ⟨reuse, fun _ => False, fun _ => False⟩

theorem run_eq_some {α : Type} {w w' : World} {x : CacheTx α} {a : α} :
    w.run x = some (a, w') ↔ ∃ db, x.run w.db = .ok a db ∧ w' = { w with db } := by
  rw [run]
  cases x.run w.db with
  | error e db => simp
  | ok a' db =>
    simp only [Option.some.injEq, Prod.mk.injEq, EStateM.Result.ok.injEq]
    constructor
    · rintro ⟨rfl, rfl⟩
      exact ⟨db, ⟨rfl, rfl⟩, rfl⟩
    · rintro ⟨_, ⟨rfl, rfl⟩, rfl⟩
      exact ⟨rfl, rfl⟩

theorem now_eq_some {w w' : World} {nowUnix : ℕ} {next : Option World} :
    w.now nowUnix next = some w' ↔ nowUnix ≤ w.clock ∧ next = some w' := by
  simp [now]

end World

end ScopeVcs.Caches

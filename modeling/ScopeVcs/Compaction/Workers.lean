import ScopeVcs.Compaction.Jobs
import ScopeVcs.Compaction.PoolInvariant

/-! # Pushes and compaction workers

The pool, its jobs and the heads of the repositories under the transactions of pushes, uploads and any
number of workers, in any order. A worker may act on a claim, or apply a plan, long after it got it.
-/

namespace ScopeVcs.Compaction

open Mutation

structure World where
  clock : ℕ
  repositories : String → Option RepositoryRow
  heads : String → Option GitHead
  pool : GitPool
  jobs : CompactionJobs
  /-- The claims handed out, and those completed. -/
  claims : List GitCompactionClaim
  completed : List GitCompactionClaim

/-- Every transaction has the time it was called with, read off the clock at this moment or earlier. -/
inductive Action where
  | tick (seconds : ℕ)
  | beginUpload (repoId segmentId objectKey : String) (encodingVersion nowUnix : ℕ)
  | markReady (segment : GitSegmentRef) (encryptedBytes nowUnix : ℕ)
  | abandon (segmentId : String) (nowUnix : ℕ)
  | markDeleted (segmentId : String) (nowUnix : ℕ)
  | retire (segmentId : String) (nowUnix : ℕ)
  | registerRequestPack (repoId : String) (pack : GitPoolPack) (nowUnix : ℕ)
  | push (repoId : String) (next : GitHead) (pack : GitPoolPack) (nowUnix : ℕ)
  | claim (locked : List String) (leaseGeneration workerId : String)
      (maxSourceBytes nowUnix leaseSeconds : ℕ)
  | renew (claim : GitCompactionClaim) (nowUnix leaseSeconds : ℕ)
  | complete (claim : GitCompactionClaim) (nowUnix : ℕ)
  | continueClaim (claim : GitCompactionClaim) (nowUnix : ℕ)
  | fail (claim : GitCompactionClaim) (error : String) (nowUnix : ℕ)
  | replace (repoId : String) (plan : GitCompactionPlan) (replacement : GitPoolPack) (nowUnix : ℕ)

/-- The claim whose holder acts on the job. -/
def Action.holder? : Action → Option GitCompactionClaim
  | .renew held _ _ | .complete held _ | .continueClaim held _ | .fail held _ _ => some held
  | _ => none

/-- A push stores its pack, schedules its sequence and moves the head, in one transaction. -/
def pushMain (heads : String → Option GitHead) (pool : GitPool) (jobs : CompactionJobs)
    (repoId : String) (next : GitHead) (pack : GitPoolPack) (nowUnix : ℕ) :
    Option (GitPool × CompactionJobs) := do
  let _ ← (validateMainPackAdvance (heads repoId) next pack).toOption
  let pool ← (pool.registerGitPoolPack repoId pack nowUnix).toOption
  let jobs ← (scheduleGitCompaction jobs repoId next.pushSequence nowUnix).toOption
  return (pool, jobs)

namespace World

def initial (clock : ℕ) (repositories : String → Option RepositoryRow) : World where
  clock := clock
  repositories := repositories
  heads := fun _ => none
  pool := ⟨∅, ∅⟩
  jobs := ∅
  claims := []
  completed := []

def setPool (w : World) (result : Except PostgresError GitPool) : Option World :=
  result.toOption.map fun pool => { w with pool }

def setJobs (w : World) (result : Except PostgresError CompactionJobs) : Option World :=
  result.toOption.map fun jobs => { w with jobs }

def now (w : World) (nowUnix : ℕ) (next : Option World) : Option World :=
  if nowUnix ≤ w.clock then next else none

/-- A failed transaction is no step. Generations are drawn at random, so that none is drawn twice. -/
def act (w : World) : Action → Option World
  | .tick seconds => some { w with clock := w.clock + seconds }
  | .beginUpload repoId segmentId objectKey encodingVersion nowUnix =>
    w.now nowUnix
      (w.setPool (w.pool.beginGitSegmentUpload repoId segmentId objectKey encodingVersion nowUnix))
  | .markReady segment encryptedBytes nowUnix =>
    w.now nowUnix (w.setPool (w.pool.markGitSegmentUploadReady segment encryptedBytes nowUnix))
  | .abandon segmentId nowUnix =>
    w.now nowUnix (w.setPool (w.pool.abandonGitSegmentUpload segmentId nowUnix))
  | .markDeleted segmentId nowUnix =>
    w.now nowUnix (w.setPool (w.pool.markGitSegmentUploadDeleted segmentId nowUnix))
  | .retire segmentId nowUnix =>
    w.now nowUnix (w.setPool (w.pool.retireGitSegment segmentId nowUnix))
  | .registerRequestPack repoId pack nowUnix =>
    if pack.owner.mainSequences = none then
      w.now nowUnix (w.setPool (w.pool.registerGitPoolPack repoId pack nowUnix))
    else none
  | .push repoId next pack nowUnix =>
    w.now nowUnix <| (pushMain w.heads w.pool w.jobs repoId next pack nowUnix).map
      fun (pool, jobs) =>
        { w with pool, jobs, heads := Function.update w.heads repoId (some next) }
  | .claim locked leaseGeneration workerId maxSourceBytes nowUnix leaseSeconds =>
    if ∀ claim ∈ w.claims, claim.leaseGeneration ≠ leaseGeneration then
      w.now nowUnix <| (claimGitCompaction w.jobs w.pool w.repositories locked leaseGeneration
        workerId maxSourceBytes nowUnix leaseSeconds).toOption.map fun (jobs, claim?) =>
          { w with jobs, claims := claim?.toList ++ w.claims }
    else none
  | .renew claim nowUnix leaseSeconds =>
    if claim ∈ w.claims then
      w.now nowUnix
        (w.setJobs ((renewGitCompactionClaim w.jobs claim nowUnix leaseSeconds).map Prod.fst))
    else none
  | .complete claim nowUnix =>
    if claim ∈ w.claims then
      w.now nowUnix (({ w with completed := claim :: w.completed } : World).setJobs
        (completeGitCompactionClaim w.jobs claim nowUnix))
    else none
  | .continueClaim claim nowUnix =>
    if claim ∈ w.claims then
      w.now nowUnix (w.setJobs (continueGitCompactionClaim w.jobs claim nowUnix))
    else none
  | .fail claim error nowUnix =>
    if claim ∈ w.claims then
      w.now nowUnix (w.setJobs (failGitCompactionClaim w.jobs claim error nowUnix))
    else none
  | .replace repoId plan replacement nowUnix =>
    w.now nowUnix (w.setPool
      ((w.pool.replaceMainPoolPacksWithCompaction repoId plan replacement nowUnix).map Prod.fst))

def Step (w w' : World) : Prop := ∃ a, w.act a = some w'

abbrev Reachable : World → Prop :=
  Transition.Reachable (fun w => ∃ clock repositories, w = initial clock repositories) Step

/-- The greatest sequence scheduled for a repository: that of its last push. -/
def scheduled (w : World) (repoId : String) : ℕ :=
  match w.heads repoId with
  | none => 0
  | some head => head.pushSequence

end World

end ScopeVcs.Compaction

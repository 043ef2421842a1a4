import ScopeVcs.Compaction.Pool

/-! # Compaction jobs

One job for each repository whose main packs may be compacted. A worker leases the job under a
generation of its own, and every later update of the lease names that generation.
-/

namespace ScopeVcs.Compaction

open Mutation IntegerColumns

def MAX_COMPACTION_RETRY_SECONDS : ℕ := 3600

structure GitCompactionJob where
  repoId : String
  targetSequence : ℕ
  attempts : ℕ
  nextRunAtUnix : ℕ
  leaseGeneration : Option String
  leaseOwner : Option String
  leaseExpiresAtUnix : Option ℕ
  lastError : Option String
  createdAtUnix : ℕ
  updatedAtUnix : ℕ
  deriving DecidableEq

abbrev CompactionJobs := Table GitCompactionJob.repoId

structure RepositoryIncarnation where
  repositoryId : String
  incarnationId : String
  deriving DecidableEq

/-- What the claim reads of a repository. -/
structure RepositoryRow where
  incarnationId : String
  ownerHandle : String
  name : String
  deriving DecidableEq

structure GitCompactionCandidate where
  incarnation : RepositoryIncarnation
  owner : String
  name : String
  plan : GitCompactionPlan
  deriving DecidableEq

structure GitCompactionClaim where
  targetSequence : ℕ
  attempts : ℕ
  queueDelayMs : ℕ
  candidate : Option GitCompactionCandidate
  repoId : String
  leaseGeneration : String
  deriving DecidableEq

/-! ## Scheduling -/

def scheduleGitCompaction (jobs : CompactionJobs) (repoId : String) (targetSequence nowUnix : ℕ) :
    Except PostgresError CompactionJobs := do
  let target ← u64ToI64 targetSequence "Git compaction target sequence"
  let now ← u64ToI64 nowUnix "Git compaction schedule time"
  return jobs.upsert ⟨repoId, target, 0, now, none, none, none, none, now, now⟩
    (fun job => { job with
      targetSequence := max job.targetSequence target
      updatedAtUnix := max job.updatedAtUnix now })
    fun _ => rfl

/-! ## Claiming -/

/-- The job is due and not leased. -/
def GitCompactionJob.isClaimable (now : ℕ) (job : GitCompactionJob) : Bool :=
  job.nextRunAtUnix ≤ now && job.leaseExpiresAtUnix.all fun expiry => expiry ≤ now

/-- `ORDER BY next_run_at_unix, updated_at_unix, repo_id`. -/
def GitCompactionJob.before (a b : GitCompactionJob) : Bool :=
  a.nextRunAtUnix < b.nextRunAtUnix || (a.nextRunAtUnix = b.nextRunAtUnix &&
    (a.updatedAtUnix < b.updatedAtUnix || (a.updatedAtUnix = b.updatedAtUnix && a.repoId ≤ b.repoId)))

/-- `RepositoryIncarnation::new`. -/
def newIncarnation (repositoryId incarnationId : String) :
    Except PostgresError RepositoryIncarnation := do
  rejectIf (Text.isBlank repositoryId = true) (.internalMessage "repository id is required")
  rejectIf (Text.isBlank incarnationId = true)
    (.internalMessage "repository incarnation id is required")
  return ⟨repositoryId, incarnationId⟩

/-- The claim that a leased job is returned as. -/
def claimOf (pool : GitPool) (repositories : String → Option RepositoryRow) (job : GitCompactionJob)
    (leaseGeneration : String) (maxSourceBytes nowUnix : ℕ) :
    Except PostgresError GitCompactionClaim :=
  match repositories job.repoId with
  | none => .error (.internalMessage "Git compaction job has no repository")
  | some repo => do
    let packs := pool.loadMainPoolPacks job.repoId
    let incarnation ← newIncarnation job.repoId repo.incarnationId
    let plan? ← GitPool.ofCompaction (GitCompactionPlan.select packs maxSourceBytes)
    return {
      targetSequence := job.targetSequence
      attempts := job.attempts
      queueDelayMs := min ((nowUnix - job.nextRunAtUnix) * 1000) U64.maxU64
      candidate := plan?.map fun plan => ⟨incarnation, repo.ownerHandle, repo.name, plan⟩
      repoId := job.repoId
      leaseGeneration := leaseGeneration }

/-- `claim_git_compaction`, where no other transaction has locked the rows outside `locked`. -/
def claimGitCompaction (jobs : CompactionJobs) (pool : GitPool)
    (repositories : String → Option RepositoryRow) (locked : List String)
    (leaseGeneration workerId : String) (maxSourceBytes nowUnix leaseSeconds : ℕ) :
    Except PostgresError (CompactionJobs × Option GitCompactionClaim) := do
  rejectIf (Text.isBlank workerId = true)
    (.internalMessage "Git compaction worker identity is empty")
  rejectIf (leaseSeconds = 0)
    (.internalMessage "Git compaction lease must be greater than zero")
  let now ← u64ToI64 nowUnix "Git compaction claim time"
  let leaseSeconds ← u64ToI64 leaseSeconds "Git compaction lease"
  rejectIf (maxI64 < now + leaseSeconds)
    (.internalMessage "Git compaction lease expiry exceeds database bigint")
  match Table.first? GitCompactionJob.before
      (jobs.select fun job => job.isClaimable now && job.repoId ∉ locked) with
  | none => return (jobs, none)
  | some job =>
    let claim ← claimOf pool repositories job leaseGeneration maxSourceBytes nowUnix
    return (jobs.update (fun row => row.repoId = job.repoId)
      (fun row => { row with
        leaseGeneration := some leaseGeneration
        leaseOwner := some workerId
        leaseExpiresAtUnix := some (now + leaseSeconds)
        updatedAtUnix := now })
      (fun _ => rfl), some claim)

/-! ## The holder of a claim -/

/-- The job is leased under the generation of the claim. -/
def GitCompactionJob.isLeasedBy (claim : GitCompactionClaim) (job : GitCompactionJob) : Bool :=
  job.repoId = claim.repoId && job.leaseGeneration = some claim.leaseGeneration

/-- The job after its lease was given up, to run again. -/
def GitCompactionJob.released (now : ℕ) (job : GitCompactionJob) : GitCompactionJob :=
  { job with
    leaseGeneration := none
    leaseOwner := none
    leaseExpiresAtUnix := none
    nextRunAtUnix := now
    attempts := 0
    lastError := none
    updatedAtUnix := max job.updatedAtUnix now }

/-- Two statements: the job runs again where a later push was scheduled, and is deleted otherwise. -/
def completeGitCompactionClaim (jobs : CompactionJobs) (claim : GitCompactionClaim) (nowUnix : ℕ) :
    Except PostgresError CompactionJobs := do
  let now ← u64ToI64 nowUnix "Git compaction time"
  let target ← u64ToI64 claim.targetSequence "Git compaction target sequence"
  let jobs := jobs.update (fun job => job.isLeasedBy claim && target < job.targetSequence)
    (fun job => job.released now) fun _ => rfl
  return jobs.delete fun job => job.isLeasedBy claim && job.targetSequence ≤ target

/-- Whether the lease was extended. -/
def renewGitCompactionClaim (jobs : CompactionJobs) (claim : GitCompactionClaim)
    (nowUnix leaseSeconds : ℕ) : Except PostgresError (CompactionJobs × Bool) := do
  rejectIf (leaseSeconds = 0)
    (.internalMessage "Git compaction lease must be greater than zero")
  let now ← u64ToI64 nowUnix "Git compaction time"
  let leaseSeconds ← u64ToI64 leaseSeconds "Git compaction lease"
  rejectIf (maxI64 < now + leaseSeconds)
    (.internalMessage "Git compaction lease expiry exceeds database bigint")
  let p (job : GitCompactionJob) : Bool :=
    job.isLeasedBy claim && job.leaseExpiresAtUnix.any fun expiry => now < expiry
  return (jobs.update p (fun job => { job with
    leaseExpiresAtUnix := some (now + leaseSeconds)
    updatedAtUnix := max job.updatedAtUnix now }) (fun _ => rfl), jobs.any p)

def continueGitCompactionClaim (jobs : CompactionJobs) (claim : GitCompactionClaim) (nowUnix : ℕ) :
    Except PostgresError CompactionJobs := do
  let now ← u64ToI64 nowUnix "Git compaction time"
  return jobs.update (fun job => job.isLeasedBy claim) (fun job => job.released now) fun _ => rfl

def boundedCompactionError (error : String) : String :=
  let bounded := String.ofList ((Text.trim error).toList.take 2000)
  if bounded = "" then "Git compaction failed without a diagnostic" else bounded

/-- The delay before the next attempt after so many. -/
def retryDelay (attempts : ℕ) : ℕ := min MAX_COMPACTION_RETRY_SECONDS (5 * (1 <<< min attempts 9))

/-- A count or a time beyond its column's range fails the statement. -/
def failGitCompactionClaim (jobs : CompactionJobs) (claim : GitCompactionClaim) (error : String)
    (nowUnix : ℕ) : Except PostgresError CompactionJobs := do
  let now ← u64ToI64 nowUnix "Git compaction time"
  rejectIf (jobs.any (fun job => job.isLeasedBy claim &&
      (maxI32 < job.attempts + 1 || maxI64 < now + retryDelay job.attempts)) = true)
    (.internalMessage "integer out of range")
  return jobs.update (fun job => job.isLeasedBy claim)
    (fun job => { job with
      leaseGeneration := none
      leaseOwner := none
      leaseExpiresAtUnix := none
      attempts := job.attempts + 1
      nextRunAtUnix := now + retryDelay job.attempts
      lastError := some (boundedCompactionError error)
      updatedAtUnix := max job.updatedAtUnix now })
    fun _ => rfl

/-! ## What they do to a job -/

variable {jobs jobs' : CompactionJobs} {claim : GitCompactionClaim} {nowUnix : ℕ}

theorem scheduleGitCompaction_eq_ok {repoId : String} {targetSequence : ℕ}
    (h : scheduleGitCompaction jobs repoId targetSequence nowUnix = .ok jobs') :
    (∀ r, r ≠ repoId → jobs'.find? r = jobs.find? r) ∧
      ∃ job, jobs'.find? repoId = some job ∧
        job.targetSequence = max (((jobs.find? repoId).map (·.targetSequence)).getD 0) targetSequence ∧
        job.leaseGeneration = (jobs.find? repoId).bind (·.leaseGeneration) := by
  simp only [scheduleGitCompaction, except_bind_eq_ok] at h
  obtain ⟨target, htarget, now, -, h⟩ := h
  obtain ⟨-, rfl⟩ := u64ToI64_eq_ok.mp htarget
  cases h
  refine ⟨fun r hr => ?_, ?_⟩
  · rw [Table.find?_upsert, if_neg hr]
  · rw [Table.find?_upsert, if_pos rfl]
    refine ⟨_, rfl, ?_, ?_⟩
    · cases jobs.find? repoId <;> simp
    · cases jobs.find? repoId <;> rfl

/-- A claim leases one job, under its generation, and reads its target. -/
theorem claimGitCompaction_eq_ok {pool : GitPool} {repositories : String → Option RepositoryRow}
    {locked : List String} {leaseGeneration workerId : String} {maxSourceBytes leaseSeconds : ℕ}
    {claim? : Option GitCompactionClaim}
    (h : claimGitCompaction jobs pool repositories locked leaseGeneration workerId maxSourceBytes
      nowUnix leaseSeconds = .ok (jobs', claim?)) :
    (claim? = none ∧ jobs' = jobs) ∨
      ∃ claim job job', claim? = some claim ∧ claim.leaseGeneration = leaseGeneration ∧
        jobs.find? claim.repoId = some job ∧ claim.targetSequence = job.targetSequence ∧
        jobs'.find? claim.repoId = some job' ∧ job'.targetSequence = job.targetSequence ∧
        job'.leaseGeneration = some leaseGeneration ∧
        ∀ r, r ≠ claim.repoId → jobs'.find? r = jobs.find? r := by
  simp only [claimGitCompaction, except_bind_eq_ok] at h
  obtain ⟨_, -, _, -, now, -, lease, -, _, -, h⟩ := h
  split at h
  · cases h
    exact .inl ⟨rfl, rfl⟩
  · rename_i job hfirst
    obtain ⟨claim, hclaim, h⟩ := except_bind_eq_ok.mp h
    cases h
    have hjob : job ∈ jobs := (Table.mem_select.mp (Table.mem_of_first? hfirst)).1
    have hfind : jobs.find? job.repoId = some job := Table.find?_eq_some.mpr ⟨hjob, rfl⟩
    rw [claimOf] at hclaim
    split at hclaim
    · cases hclaim
    · obtain ⟨incarnation, -, hclaim⟩ := except_bind_eq_ok.mp hclaim
      obtain ⟨plan?, -, hclaim⟩ := except_bind_eq_ok.mp hclaim
      cases hclaim
      refine .inr ⟨_, job, { job with
          leaseGeneration := some leaseGeneration
          leaseOwner := some workerId
          leaseExpiresAtUnix := some (now + lease)
          updatedAtUnix := now },
        rfl, rfl, hfind, rfl, ?_, rfl, rfl, fun r hr => ?_⟩
      · rw [Table.find?_update, hfind, Option.map_some, if_pos (by simp)]
      · rw [Table.find?_update]
        cases hother : jobs.find? r with
        | none => rfl
        | some row =>
          have hkey : row.repoId = r := (Table.find?_eq_some.mp hother).2
          rw [Option.map_some, if_neg]
          simpa [hkey] using hr

/-- What the holder of a claim does: it changes rows leased under it, keeps their targets, and gives
the lease up or keeps it. -/
structure Held (claim : GitCompactionClaim) (jobs jobs' : CompactionJobs) : Prop where
  stale : (∀ job ∈ jobs, job.isLeasedBy claim = false) → jobs' = jobs
  rows : ∀ job' ∈ jobs', ∃ job ∈ jobs, job'.repoId = job.repoId ∧
    job'.targetSequence = job.targetSequence ∧
    (job'.leaseGeneration = none ∨ job'.leaseGeneration = job.leaseGeneration)

/-- The jobs of all repositories are still there. -/
def Kept (jobs jobs' : CompactionJobs) : Prop :=
  ∀ job ∈ jobs, ∃ job' ∈ jobs', job'.repoId = job.repoId

theorem held_update {p : GitCompactionJob → Bool} {f : GitCompactionJob → GitCompactionJob}
    {hf : ∀ job, (f job).repoId = job.repoId} (hp : ∀ job, p job = true → job.isLeasedBy claim = true)
    (htarget : ∀ job, (f job).targetSequence = job.targetSequence)
    (hlease : ∀ job, (f job).leaseGeneration = none ∨
      (f job).leaseGeneration = job.leaseGeneration) :
    Held claim jobs (jobs.update p f hf) ∧ Kept jobs (jobs.update p f hf) := by
  refine ⟨⟨fun hstale => ?_, fun job' hjob' => ?_⟩, fun job hjob => ?_⟩
  · apply Table.update_eq_self
    intro job hjob
    by_contra hchanged
    have hleased := hp job (Bool.not_eq_false _ ▸ hchanged)
    rw [hstale job hjob] at hleased
    cases hleased
  · obtain ⟨job, hjob, rfl⟩ := (Table.mem_update hf).mp hjob'
    refine ⟨job, hjob, ?_⟩
    split
    · exact ⟨hf job, htarget job, hlease job⟩
    · exact ⟨rfl, rfl, .inr rfl⟩
  · refine ⟨_, (Table.mem_update hf).mpr ⟨job, hjob, rfl⟩, ?_⟩
    split
    · exact hf job
    · rfl

theorem renewGitCompactionClaim_eq_ok {leaseSeconds : ℕ} {renewed : Bool}
    (h : renewGitCompactionClaim jobs claim nowUnix leaseSeconds = .ok (jobs', renewed)) :
    Held claim jobs jobs' ∧ Kept jobs jobs' := by
  simp only [renewGitCompactionClaim, except_bind_eq_ok] at h
  obtain ⟨_, -, now, -, lease, -, _, -, h⟩ := h
  cases h
  apply held_update
  · intro job hp
    exact (Bool.and_eq_true_iff.mp hp).1
  · exact fun _ => rfl
  · exact fun _ => .inr rfl

theorem continueGitCompactionClaim_eq_ok
    (h : continueGitCompactionClaim jobs claim nowUnix = .ok jobs') :
    Held claim jobs jobs' ∧ Kept jobs jobs' := by
  rw [continueGitCompactionClaim, except_bind_eq_ok] at h
  obtain ⟨now, -, h⟩ := h
  cases h
  exact held_update (fun _ => id) (fun _ => rfl) fun _ => .inl rfl

theorem failGitCompactionClaim_eq_ok {error : String}
    (h : failGitCompactionClaim jobs claim error nowUnix = .ok jobs') :
    Held claim jobs jobs' ∧ Kept jobs jobs' := by
  simp only [failGitCompactionClaim, except_bind_eq_ok] at h
  obtain ⟨now, -, _, -, h⟩ := h
  cases h
  exact held_update (fun _ => id) (fun _ => rfl) fun _ => .inl rfl

/-- A job is deleted only where the claim read a target at least as great. -/
theorem completeGitCompactionClaim_eq_ok
    (h : completeGitCompactionClaim jobs claim nowUnix = .ok jobs') :
    Held claim jobs jobs' ∧ ∀ job ∈ jobs, (∃ job' ∈ jobs', job'.repoId = job.repoId) ∨
      job.repoId = claim.repoId ∧ job.targetSequence ≤ claim.targetSequence := by
  simp only [completeGitCompactionClaim, except_bind_eq_ok] at h
  obtain ⟨now, -, target, htarget, h⟩ := h
  obtain ⟨-, rfl⟩ := u64ToI64_eq_ok.mp htarget
  cases h
  obtain ⟨released, hreleasedEq⟩ : ∃ released : CompactionJobs, released =
      jobs.update (fun job => job.isLeasedBy claim && claim.targetSequence < job.targetSequence)
        (fun job => job.released now) fun _ => rfl := ⟨_, rfl⟩
  obtain ⟨hreleased, hkept⟩ : Held claim jobs released ∧ Kept jobs released := by
    rw [hreleasedEq]
    exact held_update (fun job hp => (Bool.and_eq_true_iff.mp hp).1) (fun _ => rfl) fun _ => .inl rfl
  rw [← hreleasedEq]
  refine ⟨⟨fun hstale => ?_, fun job' hjob' => ?_⟩, fun job hjob => ?_⟩
  · rw [hreleased.stale hstale]
    exact Table.delete_eq_self fun job hjob => by simp [hstale job hjob]
  · exact hreleased.rows job' (Table.mem_delete.mp hjob').1
  · obtain ⟨job', hjob', hrepo⟩ := hkept job hjob
    cases hdeleted : job'.isLeasedBy claim && decide (job'.targetSequence ≤ claim.targetSequence) with
    | false => exact .inl ⟨job', Table.mem_delete.mpr ⟨hjob', hdeleted⟩, hrepo⟩
    | true =>
      obtain ⟨old, hold, hrepo', htarget', -⟩ := hreleased.rows job' hjob'
      have hsame : old = job := Table.eq_of_key_eq hold hjob (hrepo'.symm.trans hrepo)
      subst hsame
      simp only [Bool.and_eq_true, decide_eq_true_eq, GitCompactionJob.isLeasedBy] at hdeleted
      exact .inr ⟨hrepo ▸ hdeleted.1.1, htarget' ▸ hdeleted.2⟩

end ScopeVcs.Compaction

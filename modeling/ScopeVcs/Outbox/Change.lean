import ScopeVcs.Outbox.Workers

/-! # What one action does to the outbox

Every action leaves the jobs as they are, adds one, replaces one by a version of itself, or prunes
jobs that succeeded. The evaluations and the runs change together with a job, or when a push is
accepted.
-/

namespace ScopeVcs.Outbox

open Mutation IntegerColumns Transition

variable {ρ : Type} {env : OutboxEnv ρ} {db db' : OutboxDb ρ}

/-! ## Replacing one job -/

/-- The two rows are versions of one job. -/
structure OutboxJob.SameJob (old new : OutboxJob) : Prop where
  id : new.id = old.id
  idempotencyKey : new.idempotencyKey = old.idempotencyKey
  kind : new.kind = old.kind
  repoId : new.repoId = old.repoId
  repoVersion : new.repoVersion = old.repoVersion
  payload : new.payload = old.payload

/-- The jobs after one of them took a step. -/
structure Replaced (db db' : OutboxDb ρ) (old new : OutboxJob) : Prop where
  old_mem : old ∈ db.jobs
  same : old.SameJob new
  mem_iff : ∀ job, job ∈ db'.jobs ↔ (job ∈ db.jobs ∧ job ≠ old) ∨ job = new

theorem replaced_claimJob {old : OutboxJob} {worker : String} {leaseExpiry now : ℕ}
    (hold : old ∈ db.jobs) (hlive : old.completedAtUnix = none) :
    Replaced db (claimJob db old.id worker leaseExpiry now) old
      (old.claimed worker leaseExpiry now) where
  old_mem := hold
  same := ⟨rfl, rfl, rfl, rfl, rfl, rfl⟩
  mem_iff := fun job => by
    refine Table.mem_update_of_unique (by intro _; rfl) hold (by simp [hlive]) fun r hr hp => ?_
    exact Table.eq_of_key_eq hr hold (by simpa using (Bool.and_eq_true_iff.mp hp).1)

theorem replaced_completeJob {old : OutboxJob} {worker : String} {now : ℕ} (hold : old ∈ db.jobs)
    (howner : old.leaseOwner = some worker) :
    Replaced db (completeJob db old.id worker now) old (old.completed now) where
  old_mem := hold
  same := ⟨rfl, rfl, rfl, rfl, rfl, rfl⟩
  mem_iff := fun job => by
    refine Table.mem_update_of_unique (by intro _; rfl) hold (by simp [howner]) fun r hr hp => ?_
    exact Table.eq_of_key_eq hr hold (by simpa using (Bool.and_eq_true_iff.mp hp).1)

theorem replaced_failJob {old : OutboxJob} {worker error : String} {attempts nextRunAt now : ℕ}
    (hold : old ∈ db.jobs) (howner : old.leaseOwner = some worker)
    (hlive : old.completedAtUnix = none) :
    Replaced db (failJob db old.id worker attempts nextRunAt error now) old
      (old.failed attempts nextRunAt error now) where
  old_mem := hold
  same := ⟨rfl, rfl, rfl, rfl, rfl, rfl⟩
  mem_iff := fun job => by
    refine Table.mem_update_of_unique (by intro _; rfl) hold (by simp [howner, hlive])
      fun r hr hp => ?_
    simp only [Bool.and_eq_true, decide_eq_true_eq] at hp
    exact Table.eq_of_key_eq hr hold hp.1.1

/-! ## Transactions -/

theorem nextRunnableJob_eq_some {now : ℕ} {job : OutboxJob} (h : nextRunnableJob db now = some job) :
    job ∈ db.jobs ∧ job.completedAtUnix = none ∧ job.isUnfinished = true := by
  obtain ⟨hmem, hrun⟩ := Table.mem_select.mp (Table.mem_of_first? h)
  rw [OutboxJob.isRunnable, Bool.and_eq_true, Option.isNone_iff_eq_none] at hrun
  refine ⟨hmem, hrun.1, ?_⟩
  rw [OutboxJob.isUnfinished]
  simp only [Bool.or_eq_true, Bool.and_eq_true] at hrun ⊢
  exact hrun.2.imp And.left And.left

theorem claimNextReadyJob_eq_ok {worker : String} {leaseSeconds now : ℕ}
    {claimed : Option ClaimedOutboxJob}
    (h : (claimNextReadyJob worker leaseSeconds now).run db = .ok claimed db') :
    (claimed = none ∧ db' = db) ∨ ∃ job, nextRunnableJob db now = some job ∧
      claimed = some job.toClaim ∧ db' = claimJob db job.id worker (now + leaseSeconds) now := by
  simp only [claimNextReadyJob, transaction_eq_ok, get_bind_eq_ok] at h
  split at h
  · cases h
    exact .inl ⟨rfl, rfl⟩
  · next job hjob =>
    simp only [bind_eq_ok, check_eq_ok, modify_eq_ok] at h
    obtain ⟨_, _, ⟨-, rfl⟩, _, _, rfl, h⟩ := h
    cases h
    exact .inr ⟨job, hjob, rfl, rfl⟩

theorem insertOutboxJob_eq_ok {job : OutboxJob} {inserted : Bool}
    (h : (insertOutboxJob job).run db = .ok inserted db') :
    (db.repositories job.repoId).isSome = true ∧ db.jobs.find? job.id = none ∧
      ((inserted = false ∧ db' = db) ∨
        (inserted = true ∧ db' = insertJob db job ∧
          ∀ row ∈ db.jobs, row.idempotencyKey ≠ job.idempotencyKey)) := by
  simp only [insertOutboxJob, bind_eq_ok, check_eq_ok, get_eq_ok, rejectIf_eq_ok] at h
  obtain ⟨_, _, ⟨hrepo, rfl⟩, _, _, ⟨hfresh, rfl⟩, _, _, ⟨rfl, rfl⟩, h⟩ := h
  refine ⟨?_, Option.not_isSome_iff_eq_none.mp hfresh, ?_⟩
  · rw [Option.isNone_iff_eq_none] at hrepo
    exact Option.isSome_iff_ne_none.mpr hrepo
  · split at h
    · cases h
      exact .inl ⟨rfl, rfl⟩
    · next hfree =>
      simp only [bind_eq_ok, modify_eq_ok] at h
      obtain ⟨_, _, rfl, h⟩ := h
      cases h
      refine .inr ⟨rfl, rfl, fun row hrow hkey => ?_⟩
      rw [Bool.not_eq_true, idempotencyKeyTaken, Table.any_eq_false] at hfree
      simpa [hkey] using hfree row hrow

/-- A new job beside those there are. -/
structure Added (db db' : OutboxDb ρ) (job : OutboxJob) : Prop where
  repository : (db.repositories job.repoId).isSome = true
  key : ∀ row ∈ db.jobs, row.idempotencyKey ≠ job.idempotencyKey
  mem_iff : ∀ row, row ∈ db'.jobs ↔ row ∈ db.jobs ∨ row = job

theorem added_insertJob {job : OutboxJob} (hrepo : (db.repositories job.repoId).isSome = true)
    (hfresh : db.jobs.find? job.id = none)
    (hkey : ∀ row ∈ db.jobs, row.idempotencyKey ≠ job.idempotencyKey) :
    Added db (insertJob db job) job :=
  ⟨hrepo, hkey, fun _ => Table.mem_insert hfresh⟩

theorem enqueueProjectionReadModelRebuild_eq_ok {jobId repoId : String} {repoVersion nowUnix : ℕ}
    (h : (enqueueProjectionReadModelRebuild jobId repoId repoVersion nowUnix).run db = .ok () db') :
    db' = db ∨ ∃ job : OutboxJob, job = .ready jobId PROJECTION_READ_MODEL_REBUILD repoId repoVersion
      (.projection repoId repoVersion) nowUnix ∧ Added db db' job ∧ db' = insertJob db job := by
  simp only [enqueueProjectionReadModelRebuild, transaction_eq_ok, bind_eq_ok, check_eq_ok,
    u64ToI64_eq_ok] at h
  obtain ⟨_, _, ⟨⟨-, rfl⟩, rfl⟩, _, _, ⟨⟨-, rfl⟩, rfl⟩, inserted, _, hinsert, h⟩ := h
  cases h
  obtain ⟨hrepo, hfresh, ⟨-, hsame⟩ | ⟨-, rfl, hkey⟩⟩ := insertOutboxJob_eq_ok hinsert
  · exact .inl hsame
  · exact .inr ⟨_, rfl, added_insertJob hrepo hfresh hkey, rfl⟩

/-- A push was accepted: its evaluation is there, and a job if it is pending. -/
structure Accepted (db db' : OutboxDb ρ) (jobId : String) (push : AcceptedPush) (nowUnix : ℕ) :
    Prop where
  head : push.head.headOid = push.input.headOid
  runs : db'.runs = db.runs
  repositories : db'.repositories = db.repositories
  evaluation : ∃ evaluation : PushTriggerEvaluation, evaluation.key = push.key ∧
    db.evaluations.find? push.key = none ∧
    db'.evaluations = db.evaluations.insert evaluation ∧
    ((evaluation.state ≠ .pending ∧ db'.jobs = db.jobs) ∨
      (evaluation.state = .pending ∧ Added db db' (.ready jobId JOB_KIND push.repoId
        push.head.changeVersion (.pushMain PUSH_MAIN_TRIGGER_WORKFLOW_SCHEMA_VERSION push.head
          push.input) nowUnix)))

theorem enqueuePushMainTriggerEvaluation_eq_ok {jobId : String} {push : AcceptedPush} {nowUnix : ℕ}
    (h : (enqueuePushMainTriggerEvaluation jobId push.repoId push.head push.input nowUnix).run db =
      .ok () db') : Accepted db db' jobId push nowUnix := by
  simp only [enqueuePushMainTriggerEvaluation, transaction_eq_ok, bind_eq_ok, check_eq_ok,
    domain_eq_ok, modify_eq_ok, u64ToI64_eq_ok, rejectIf_eq_ok, not_not] at h
  obtain ⟨_, _, ⟨hhead, rfl⟩, evaluation, _, ⟨hpush, rfl⟩, _, _, ⟨⟨-, rfl⟩, rfl⟩, _, _,
    ⟨⟨-, rfl⟩, rfl⟩, _, _, ⟨hfresh, rfl⟩, _, _, rfl, h⟩ := h
  obtain ⟨hkey, -⟩ := PushTriggerEvaluation.forPush_eq_ok hpush
  rw [Option.not_isSome_iff_eq_none, hkey] at hfresh
  split at h
  · next hended =>
    cases h
    exact ⟨hhead, rfl, rfl, evaluation, hkey, hfresh, rfl, .inl ⟨hended, rfl⟩⟩
  · next hpending =>
    rw [not_not] at hpending
    simp only [bind_eq_ok, domain_eq_ok, check_eq_ok, rejectIf_eq_ok] at h
    obtain ⟨_, _, ⟨-, rfl⟩, inserted, _, hinsert, hinserted, rfl⟩ := h
    obtain ⟨hrepo, hjob, ⟨hno, -⟩ | ⟨-, rfl, hfree⟩⟩ := insertOutboxJob_eq_ok hinsert
    · exact absurd hno hinserted
    · exact ⟨hhead, rfl, rfl, evaluation, hkey, hfresh, rfl,
        .inr ⟨hpending, hrepo, hfree, fun row => Table.mem_insert hjob⟩⟩

theorem exists_row_of_any {p : OutboxJob → Bool} (h : db.jobs.any p = true) :
    ∃ job ∈ db.jobs, p job = true :=
  Table.any_eq_true.mp h

/-- A completion is made by the owner of the lease, as long as the repository is there. -/
theorem completeOutboxJob_eq_ok {job : ClaimedOutboxJob} {worker : String} {now : ℕ} {u : Unit}
    (hrepo : (db.repositories job.repoId).isSome = true)
    (h : (completeOutboxJob job worker now).run db = .ok u db') :
    ∃ old ∈ db.jobs, old.id = job.id ∧ old.leaseOwner = some worker ∧
      db' = completeJob db old.id worker now := by
  simp only [completeOutboxJob, get_bind_eq_ok] at h
  split at h
  · next hany =>
    rw [modify_eq_ok] at h
    obtain ⟨old, hold, hcond⟩ := exists_row_of_any hany
    rw [Bool.and_eq_true, decide_eq_true_eq, decide_eq_true_eq] at hcond
    exact ⟨old, hold, hcond.1, hcond.2, by rw [hcond.1]; exact h.symm⟩
  · split at h
    · next hmissing =>
      rw [Option.isNone_iff_eq_none.mp hmissing.2] at hrepo
      cases hrepo
    · cases h

/-- What recording a failure does: the owner puts the job back or fails it for good, together with
the evaluation of its push. -/
theorem failOutboxJob_eq_ok {job : ClaimedOutboxJob} {worker error : String} {now : ℕ} {u : Unit}
    (h : (failOutboxJob job worker error now).run db = .ok u db') :
    ∃ old ∈ db.jobs, ∃ nextRunAt message, old.id = job.id ∧ old.leaseOwner = some worker ∧
      old.completedAtUnix = none ∧
      ((db' = failJob db old.id worker (job.attempts + 1) nextRunAt message now ∧
          (job.attempts + 1 < MAX_JOB_ATTEMPTS ∨ job.kind ≠ JOB_KIND ∨
            ∀ stored, db.evaluations.find? (job.repoId, job.repoVersion) = some stored →
              stored.state ≠ .pending)) ∨
        ∃ stored evaluation : PushTriggerEvaluation, MAX_JOB_ATTEMPTS ≤ job.attempts + 1 ∧
          job.kind = JOB_KIND ∧
          db.evaluations.find? (job.repoId, job.repoVersion) = some stored ∧
          evaluation.key = stored.key ∧ evaluation.state = .failed ∧
          db' = saveEvaluation evaluation
            (failJob db old.id worker (job.attempts + 1) nextRunAt message now)) := by
  simp only [failOutboxJob, transaction_eq_ok, bind_eq_ok, check_eq_ok, modify_eq_ok,
    rejectIf_eq_ok, Bool.not_eq_false] at h
  obtain ⟨attempts, _, ⟨hattempts, rfl⟩, _, _, ⟨-, rfl⟩, _, _, ⟨hany, rfl⟩, _, _, rfl, h⟩ := h
  obtain rfl : attempts = job.attempts + 1 := by
    rw [nextRetryAttempt] at hattempts
    split at hattempts
    · cases hattempts
      rfl
    · cases hattempts
  obtain ⟨old, hold, hcond⟩ := exists_row_of_any hany
  simp only [Bool.and_eq_true, decide_eq_true_eq, Option.isNone_iff_eq_none] at hcond
  obtain ⟨⟨hid, howner⟩, hlive⟩ := hcond
  refine ⟨old, hold, if isTerminalRetryAttempt (job.attempts + 1) = true then now
    else now + retryDelaySeconds (job.attempts + 1), truncateError error, hid, howner, hlive, ?_⟩
  rw [hid]
  split at h
  · next hterminal =>
    rw [isTerminalRetryAttempt, decide_eq_true_eq] at hterminal
    simp only [markTerminalFailure, get_bind_eq_ok] at h
    split at h
    · next hnone =>
      cases h
      exact .inl ⟨rfl, .inr (.inr fun stored hstored => by
        change db.evaluations.find? _ = none at hnone
        simp [hnone] at hstored)⟩
    · next stored hstored =>
      change db.evaluations.find? _ = some stored at hstored
      split at h
      · simp only [bind_eq_ok, domain_eq_ok, modify_eq_ok] at h
        obtain ⟨evaluation, _, ⟨hfail, rfl⟩, rfl⟩ := h
        obtain ⟨hkey, hstate⟩ := PushTriggerEvaluation.finish_eq_ok hfail
        exact .inr ⟨stored, evaluation, hterminal.1, hterminal.2, hstored, hkey, hstate, rfl⟩
      · next hended =>
        cases h
        refine .inl ⟨rfl, .inr (.inr fun stored' hstored' => ?_)⟩
        cases hstored.symm.trans hstored'
        exact hended
  · next hretry =>
    cases h
    refine .inl ⟨rfl, ?_⟩
    rw [isTerminalRetryAttempt, decide_eq_true_eq, not_and_or] at hretry
    exact hretry.imp not_le.mp .inl

theorem executed_frame {job : ClaimedOutboxJob} (h : Executed env job db db') :
    db'.jobs = db.jobs ∧ db'.repositories = db.repositories := by
  cases h with
  | rebuilt hkind readModels hdb => exact hdb ▸ ⟨rfl, rfl⟩
  | settled hkind hdb hended => exact hdb ▸ ⟨rfl, rfl⟩
  | evaluated hkind hevaluated =>
    obtain ⟨head, input, stored, evaluation, executed, -, -, -, hframe, -, -, rfl, -⟩ := hevaluated
    exact ⟨hframe.jobs, hframe.repositories⟩

/-- An execution is kept only if its worker owns the lease when it completes. -/
theorem executeAndComplete_eq_completed {job : ClaimedOutboxJob} {worker : String}
    {claimNow completionNow : ℕ} {interrupted : Option PostgresError} {created : List String}
    (hrepo : (db.repositories job.repoId).isSome = true)
    (h : executeAndComplete env job worker claimNow completionNow interrupted db =
      (db', .completed created)) :
    ∃ executed old, Executed env job db executed ∧ old ∈ db.jobs ∧ old.id = job.id ∧
      old.leaseOwner = some worker ∧ db' = completeJob executed old.id worker completionNow := by
  rw [executeAndComplete.eq_def] at h
  split at h
  · cases h
  · split at h
    · cases h
    · next createdRuns executed hexecute =>
      have hexecuted := executeOutboxJob_eq_ok hexecute
      obtain ⟨hjobs, hrepos⟩ := executed_frame hexecuted
      split at h
      · cases h
      · split at h
        · next committed hcomplete =>
          cases h
          obtain ⟨old, hold, hid, howner, hdb⟩ :=
            completeOutboxJob_eq_ok (hrepos ▸ hrepo) hcomplete
          exact ⟨executed, old, hexecuted, hjobs ▸ hold, hid, howner, hdb⟩
        · cases h

theorem executeAndComplete_db {job : ClaimedOutboxJob} {worker : String}
    {claimNow completionNow : ℕ} {interrupted : Option PostgresError} {settled : Settled}
    (hsettled : ∀ created, settled ≠ .completed created)
    (h : executeAndComplete env job worker claimNow completionNow interrupted db = (db', settled)) :
    db' = db := by
  rw [executeAndComplete.eq_def] at h
  split at h
  · cases h
    rfl
  · split at h
    · cases h
      rfl
    · split at h
      · cases h
        rfl
      · split at h
        · cases h
          exact absurd rfl (hsettled _)
        · cases h
          rfl

end ScopeVcs.Outbox

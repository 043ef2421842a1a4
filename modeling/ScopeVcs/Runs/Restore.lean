import ScopeVcs.Runs.JobTransitions
import ScopeVcs.Runs.StepOrder

/-! # Records that can be read back

What `restore` checks of a run, a job and an attempt, as structures, and that every change of a job
or a run keeps them.
-/

namespace ScopeVcs

open Mutation Relation

/-! ## Runs -/

namespace Run

/-- What `Run::restore` checks. -/
structure Facts (run : Run) : Prop where
  identified : WellIdentified run.id run.idempotencyKey run.workflowRevisionDigest
    run.requestedByUserId
  ended : run.state.isTerminal = run.completedAtUnix.isSome
  created : run.createdAtUnix ≤ run.updatedAtUnix
  completed : ∀ completed ∈ run.completedAtUnix, completed = run.updatedAtUnix
  canceled : run.state = .canceled → run.cancellationRequested = true

theorem Facts.restore {run : Run} (h : run.Facts) : Run.restore run = .ok run := by
  have hfacts : run.validateFacts = .ok () := by
    simp only [validateFacts, except_unit_bind_eq_ok, rejectIf_eq_ok, not_or, not_lt, not_exists,
      not_and, ne_eq, not_not, Bool.not_eq_false]
    exact ⟨h.ended, ⟨h.created, h.completed⟩, h.canceled⟩
  rw [Run.restore, queued_eq_ok.mpr ⟨h.identified, rfl⟩]
  show (run.validateFacts >>= fun _ => pure run) = _
  rw [hfacts]
  rfl

theorem facts_of_new {id key digest : String} {workflow : WorkflowIdentity} {trigger : RunTrigger}
    {user : Option String} {now : ℕ} {run : Run}
    (h : Run.new id key workflow digest trigger user now = .ok run) : run.Facts := by
  obtain ⟨hidentified, rfl⟩ := queued_eq_ok.mp (queued_of_new h)
  exact ⟨hidentified, rfl, le_rfl, nofun, nofun⟩

end Run

/-! ## Jobs -/

namespace RunJob

/-- What `RunJob::restore` checks, and that a job with one rejection too many has ended. -/
structure Facts (job : RunJob) : Prop where
  runIdGiven : Text.isBlank job.runId = false
  active : job.isActive = job.currentAttemptId.isSome
  ended : job.state.isTerminal = job.completedAtUnix.isSome
  limit : job.lastAttemptNumber ≤ maxRunAttempts
  retry : ∀ retry ∈ job.capacityRetry, ¬ job.retryInconsistent retry
  created : job.createdAtUnix ≤ job.updatedAtUnix
  completed : ∀ completed ∈ job.completedAtUnix, completed = job.updatedAtUnix
  rejections : job.state.isTerminal = false → ∀ retry ∈ job.capacityRetry,
    retry.rejections ≤ maxCapacityRetries

theorem Facts.restore {job : RunJob} (h : job.Facts) : RunJob.restore job = .ok job := by
  have hfacts : job.validateFacts = .ok () := by
    simp only [validateFacts, except_unit_bind_eq_ok, rejectIf_eq_ok, not_or, not_lt, not_exists,
      not_and, ne_eq, not_not]
    exact ⟨h.active, h.ended, h.limit, h.retry, h.created, h.completed⟩
  rw [RunJob.restore, required_eq_ok.mpr ⟨h.runIdGiven, rfl⟩]
  show (job.validateFacts >>= fun _ => pure job) = _
  rw [hfacts]
  rfl

/-- What is kept of a retry when its job changes: everything but the time of the next attempt. -/
theorem retryInconsistent_iff {job : RunJob} {retry : CapacityRetry}
    (hnext : retry.nextAttemptAtUnix = none) :
    ¬ job.retryInconsistent retry ↔ retry.rejections ≠ 0 ∧
      retry.rejections ≤ maxCapacityRetries + 1 ∧
      job.createdAtUnix ≤ retry.firstRejectedAtUnix ∧
      retry.firstRejectedAtUnix ≤ job.updatedAtUnix := by
  simp [retryInconsistent, hnext, not_or]

/-- A retry stays consistent when its next attempt is taken away and its job is updated later. -/
theorem retry_withoutNext {job job' : RunJob} {retry : CapacityRetry}
    (h : ¬ job.retryInconsistent retry) (hcreated : job'.createdAtUnix = job.createdAtUnix)
    (htime : job.updatedAtUnix ≤ job'.updatedAtUnix) :
    ¬ job'.retryInconsistent { retry with nextAttemptAtUnix := none } := by
  simp only [retryInconsistent, not_or, not_lt] at h
  rw [retryInconsistent_iff rfl]
  exact ⟨h.1, h.2.1, hcreated ▸ h.2.2.1, h.2.2.2.1.trans htime⟩

/-- Only a queued job has a next attempt planned. -/
theorem Facts.next_eq_none {job : RunJob} (h : job.Facts) (hstate : job.state ≠ .queued)
    {retry : CapacityRetry} (hretry : retry ∈ job.capacityRetry) :
    retry.nextAttemptAtUnix = none := by
  have hconsistent := h.retry retry hretry
  simp only [retryInconsistent, not_or, not_exists, not_and] at hconsistent
  by_contra hnext
  obtain ⟨next, hnext⟩ := Option.ne_none_iff_exists'.mp hnext
  exact (hconsistent.2.2.2.2 next hnext).2.2.2 hstate

/-- The retry of a job that is not queued stays consistent when the job is updated later. -/
theorem Facts.retry_later {job job' : RunJob} (h : job.Facts) (hstate : job.state ≠ .queued)
    (hcreated : job'.createdAtUnix = job.createdAtUnix)
    (htime : job.updatedAtUnix ≤ job'.updatedAtUnix) {retry : CapacityRetry}
    (hretry : retry ∈ job.capacityRetry) : ¬ job'.retryInconsistent retry := by
  have hnext := h.next_eq_none hstate hretry
  have hlater := retry_withoutNext (h.retry retry hretry) hcreated htime
  obtain ⟨first, rejections, next⟩ := retry
  obtain rfl : next = none := hnext
  exact hlater

theorem facts_new {run : Run} (hid : Text.isBlank run.id = false) (definition : WorkflowJob) :
    (RunJob.new run definition).Facts := by
  refine ⟨hid, ?_, ?_, Nat.zero_le _, nofun, le_rfl, nofun, fun _ => nofun⟩
  · simp only [isActive, RunJob.new, initialJobState]
    split <;> rfl
  · simp only [RunJob.new, initialJobState]
    split <;> rfl

end RunJob

theorem JobStep.facts {now : ℕ} {job job' : RunJob} (h : JobStep now job job')
    (hfacts : job.Facts) : job'.Facts := by
  cases h with
  | unblock facts hblocked =>
    unfold unblockedJob
    split
    · exact hfacts
    · rename_i next hnext
      have hstate : next = .skipped ∨ next = .queued := by
        simp only [unblockedState] at hnext
        split_ifs at hnext
        · exact .inl (Option.some_inj.mp hnext).symm
        · exact .inr (Option.some_inj.mp hnext).symm
      have hnotQueued : job.state ≠ .queued := by simp [hblocked]
      have hlater : job.updatedAtUnix ≤
          latest (facts.map Prod.snd) (max now job.updatedAtUnix) :=
        (le_max_right _ _).trans (le_latest _ _)
      have hidle : job.currentAttemptId.isSome = false := by
        simp [← hfacts.active, RunJob.isActive, hblocked]
      have hnone : job.completedAtUnix = none := by
        have hended := hfacts.ended
        simpa [hblocked, RunJobState.isTerminal] using hended
      have hrejections := hfacts.rejections (by simp [hblocked, RunJobState.isTerminal])
      rcases hstate with rfl | rfl
      · refine ⟨hfacts.runIdGiven, by simp [RunJob.isActive, hidle], rfl, hfacts.limit,
          fun retry hretry => ?_, hfacts.created.trans hlater, by simp [RunJobState.isTerminal],
          (by rintro ⟨⟩)⟩
        apply hfacts.retry_later hnotQueued _ _ hretry
        · rfl
        · exact hlater
      · refine ⟨hfacts.runIdGiven, by simp [RunJob.isActive, hidle],
          by simp [RunJobState.isTerminal, hnone], hfacts.limit, fun retry hretry => ?_,
          hfacts.created.trans hlater, by simp [RunJobState.isTerminal, hnone],
          fun _ => hrejections⟩
        apply hfacts.retry_later hnotQueued _ _ hretry
        · rfl
        · exact hlater
  | cancel time =>
    unfold cancelWaiting
    split_ifs with hwaiting
    · have hidle : job.currentAttemptId.isSome = false := by
        rw [← hfacts.active]
        simp only [RunJob.isWaiting, decide_eq_true_eq] at hwaiting
        rcases hwaiting with hstate | hstate <;> simp [RunJob.isActive, hstate]
      refine ⟨hfacts.runIdGiven, by simp [RunJob.isActive, hidle], rfl, hfacts.limit, ?_,
        hfacts.created.trans (le_max_right _ _), by simp, by rintro ⟨⟩⟩
      intro retry hretry
      obtain ⟨old, hold, rfl⟩ := Option.mem_map.mp hretry
      exact RunJob.retry_withoutNext (hfacts.retry old hold) rfl (le_max_right _ _)
    · exact hfacts
  | requeue definition hended htime =>
    refine ⟨hfacts.runIdGiven, ?_, ?_, hfacts.limit, by rintro _ ⟨⟩,
      hfacts.created.trans htime, by rintro _ ⟨⟩, fun _ => by rintro _ ⟨⟩⟩
    · simp only [RunJob.isActive, requeuedJob, initialJobState]
      split <;> rfl
    · simp only [requeuedJob, initialJobState]
      split <;> rfl
  | expireRetry hretry hqueued htime =>
    have hidle : job.currentAttemptId.isSome = false := by
      simp [← hfacts.active, RunJob.isActive, hqueued]
    refine ⟨hfacts.runIdGiven, by simp [RunJob.isActive, hidle], rfl, hfacts.limit, ?_,
      hfacts.created.trans htime, by simp, by rintro ⟨⟩⟩
    rintro _ ⟨⟩
    exact RunJob.retry_withoutNext (hfacts.retry _ hretry) rfl htime

theorem JobStep.facts_of_steps {now : ℕ} {job job' : RunJob} (h : ReflTransGen (JobStep now) job job')
    (hfacts : job.Facts) : job'.Facts := by
  induction h with
  | refl => exact hfacts
  | tail _ hlast ih => exact hlast.facts ih

/-! ## Operations on the run -/

theorem derivedState_facts {state : RunWithJobs} {now : ℕ} (h : state.run.Facts) :
    (derivedState state now).run.Facts := by
  refine ⟨h.identified, ?_, ?_, ?_, ?_⟩
  · simp only [derivedState, derivedRun]
    split <;> simp_all
  · exact h.created.trans ((le_max_right _ _).trans (le_latest _ _))
  · intro completed hcompleted
    simp only [derivedState, derivedRun] at hcompleted
    split at hcompleted
    · exact (Option.some_inj.mp hcompleted).symm
    · cases hcompleted
  · intro hcanceled
    simp only [derivedState, derivedRun] at hcanceled ⊢
    unfold nextRunState at hcanceled
    split_ifs at hcanceled with hall hany
    have hrequested := canceledJobs_any_canceled hany
    simp only [Bool.or_assoc, Bool.or_self] at hrequested
    rw [if_neg (by simp [hany])]
    exact hrequested

theorem RunOp.facts {op : RunOp} {before after : RunWithJobs} {u : Unit}
    (h : op.run.run before = .ok u after) (hfacts : before.run.Facts) : after.run.Facts := by
  cases op with
  | requestRunCancellation now =>
    obtain ⟨_, mid, hrequest, h⟩ := bind_eq_ok.mp h
    obtain ⟨-, rfl⟩ := pure_eq_ok.mp h
    obtain ⟨⟨requested, run⟩, hcancel, hrequest⟩ := check_bind_eq_ok.mp hrequest
    rcases Run.requestCancellation_eq_ok hcancel with ⟨rfl, rfl⟩ | ⟨rfl, hactive, htime, rfl⟩
    · obtain ⟨-, rfl⟩ := pure_eq_ok.mp hrequest
      exact hfacts
    · simp only [if_true, modify_bind_eq_ok] at hrequest
      obtain ⟨_, mid', hderive, hrequest⟩ := bind_eq_ok.mp hrequest
      obtain ⟨-, rfl⟩ := pure_eq_ok.mp hrequest
      simp only [deriveRunState, check_unit_bind_eq_ok, modify_eq_ok] at hderive
      obtain ⟨-, rfl⟩ := hderive
      have hnone : before.run.completedAtUnix = none := by
        have hended := hfacts.ended
        simpa [hactive] using hended
      exact derivedState_facts ⟨hfacts.identified, hfacts.ended, hfacts.created.trans htime,
        by simp [hnone], fun _ => rfl⟩
  | reconcileRun revision now =>
    simp only [RunOp.run, ScopeVcs.reconcileRun, check_unit_bind_eq_ok, get_bind_eq_ok] at h
    obtain ⟨-, -, h⟩ := h
    obtain ⟨_, mid, hloop, hderive⟩ := bind_eq_ok.mp h
    simp only [deriveRunState, check_unit_bind_eq_ok, modify_eq_ok] at hderive
    obtain ⟨-, rfl⟩ := hderive
    exact derivedState_facts ((reconcileJobs_steps hloop).2.1 ▸ hfacts)
  | retryRun revision now =>
    simp only [RunOp.run, ScopeVcs.retryRun, check_unit_bind_eq_ok, get_bind_eq_ok,
      rejectIf_eq_ok, ensureRetryTime, not_or, not_lt] at h
    obtain ⟨-, ⟨htime, -⟩, -, -, h⟩ := h
    obtain ⟨_, mid, hloop, h⟩ := bind_eq_ok.mp h
    obtain rfl := modify_eq_ok.mp h
    have hrun : mid.run = before.run := (requeueJobs_eq_ok hloop rfl).1
    rw [← hrun] at hfacts htime
    exact ⟨hfacts.identified, rfl, hfacts.created.trans htime, by rintro _ ⟨⟩, by rintro ⟨⟩⟩

end ScopeVcs

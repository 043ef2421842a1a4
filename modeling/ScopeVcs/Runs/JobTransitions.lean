import ScopeVcs.Lib.ListUpdate
import ScopeVcs.Runs.AttemptTransitions
import ScopeVcs.Runs.Reconcile

/-! # What an operation on a run does to its jobs

`JobStep` lists the changes that reconciliation, cancellation, retry and an expired capacity retry
make to a single job. None of them touches a job that is on a runner.
-/

namespace ScopeVcs

open Mutation Relation

/-- One change of a job at time `now`. -/
inductive JobStep (now : ℕ) : RunJob → RunJob → Prop where
  | unblock {job : RunJob} (facts : List (RunJobState × ℕ)) (hblocked : job.state = .blocked) :
      JobStep now job (unblockedJob job facts now)
  | cancel {job : RunJob} (time : ℕ) : JobStep now job (cancelWaiting time job)
  | requeue {job : RunJob} (definition : WorkflowJob) (hended : job.state.isTerminal = true)
      (htime : job.updatedAtUnix ≤ now) : JobStep now job (requeuedJob definition now job)
  | expireRetry {job : RunJob} {retry : CapacityRetry} (hretry : job.capacityRetry = some retry)
      (hqueued : job.state = .queued) (htime : job.updatedAtUnix ≤ now) :
      JobStep now job { job with
        capacityRetry := some { retry with nextAttemptAtUnix := none }
        state := .failed
        updatedAtUnix := now
        completedAtUnix := some now }

abbrev JobSteps (now : ℕ) : List RunJob → List RunJob → Prop :=
  List.Forall₂ (ReflTransGen (JobStep now))

theorem JobSteps.refl {now : ℕ} (jobs : List RunJob) : JobSteps now jobs jobs :=
  List.forall₂_same.mpr fun _ _ => .refl

theorem JobSteps.trans {now : ℕ} {jobs₁ jobs₂ jobs₃ : List RunJob} (h₁ : JobSteps now jobs₁ jobs₂)
    (h₂ : JobSteps now jobs₂ jobs₃) : JobSteps now jobs₁ jobs₃ :=
  ListUpdate.forall₂_trans (fun _ _ _ hab hbc => hab.trans hbc) h₁ h₂

theorem RunJob.expireCapacityRetry_steps {now : ℕ} {job job' : RunJob} {expired : Bool}
    (h : (expireCapacityRetry now).run job = .ok expired job') :
    ReflTransGen (JobStep now) job job' := by
  simp only [expireCapacityRetry, get_bind_eq_ok] at h
  split at h
  · obtain ⟨-, rfl⟩ := pure_eq_ok.mp h
    exact .refl
  · rename_i retry hretry
    split at h
    · obtain ⟨-, rfl⟩ := pure_eq_ok.mp h
      exact .refl
    · rename_i hdue
      simp only [not_or, not_not] at hdue
      simp only [check_unit_bind_eq_ok, modify_bind_eq_ok, pure_eq_ok,
        ensureTimeNotBeforeUpdate_eq_ok] at h
      obtain ⟨htime, -, rfl⟩ := h
      exact .single (.expireRetry hretry hdue.1 htime)

/-- An ended job has no capacity retry to expire. -/
theorem RunJob.expireCapacityRetry_of_isTerminal {now : ℕ} {job job' : RunJob} {expired : Bool}
    (h : (expireCapacityRetry now).run job = .ok expired job')
    (hended : job.state.isTerminal = true) : job' = job := by
  simp only [expireCapacityRetry, get_bind_eq_ok] at h
  have hstate : job.state ≠ .queued := by
    intro hqueued
    rw [hqueued] at hended
    cases hended
  simp only [hstate, ne_eq, not_false_eq_true, true_or, if_true] at h
  split at h <;> exact (pure_eq_ok.mp h).2.symm

/-! ## The state of the run -/

/-- A run only ends when all its jobs have. -/
theorem all_isTerminal_of_nextRunState {state : RunState} {jobs : List RunJob}
    (h : (nextRunState state jobs).isTerminal = true) : ∀ job ∈ jobs, job.state.isTerminal = true := by
  by_cases hall : jobs.all (·.state.isTerminal) = true
  · simpa using hall
  · simp only [nextRunState, if_neg hall] at h
    split_ifs at h <;> cases h

theorem canceledJobs_steps (requested : Bool) (jobs : List RunJob) (now : ℕ) :
    JobSteps now jobs (canceledJobs requested jobs now) := by
  unfold canceledJobs
  split
  · rw [JobSteps, List.forall₂_map_right_iff]
    exact List.forall₂_same.mpr fun job _ => .single (.cancel _)
  · exact .refl jobs

/-- A job that had ended is as it was, or no longer ended. -/
def EndedKept (job job' : RunJob) : Prop :=
  job.state.isTerminal = true → job' = job ∨ job'.state.isTerminal = false

/-- A job that had ended is as it was. -/
def EndedSame (job job' : RunJob) : Prop := job.state.isTerminal = true → job' = job

theorem EndedSame.trans (a b c : RunJob) (hab : EndedSame a b) (hbc : EndedSame b c) :
    EndedSame a c := by
  intro hended
  obtain rfl := hab hended
  exact hbc hended

theorem canceledJobs_endedSame (requested : Bool) (jobs : List RunJob) (now : ℕ) :
    List.Forall₂ EndedSame jobs (canceledJobs requested jobs now) := by
  unfold canceledJobs
  split
  · rw [List.forall₂_map_right_iff]
    refine List.forall₂_same.mpr fun job _ hended => ?_
    cases hstate : job.state <;>
      simp_all [cancelWaiting, RunJob.isWaiting, RunJobState.isTerminal]
  · exact List.forall₂_same.mpr fun job _ _ => rfl

/-- Without a request nothing is canceled. -/
theorem canceledJobs_any_canceled {requested : Bool} {jobs : List RunJob} {now : ℕ}
    (h : (canceledJobs requested jobs now).any (·.state = .canceled) = true) :
    (requested || jobs.any (·.state = .canceled)) = true := by
  cases requested with
  | true => rfl
  | false => exact h

/-- What an operation leaves behind: jobs that took the steps above, in a run of the same id that
only ended if they all did. -/
structure RunFrame (now : ℕ) (before after : RunWithJobs) : Prop where
  jobs : JobSteps now before.jobs after.jobs
  id : after.run.id = before.run.id
  ended : after.run.state.isTerminal = true → ∀ job ∈ after.jobs, job.state.isTerminal = true
  kept : List.Forall₂ EndedKept before.jobs after.jobs

theorem endedKept_of_same {jobs jobs' : List RunJob} (h : List.Forall₂ EndedSame jobs jobs') :
    List.Forall₂ EndedKept jobs jobs' :=
  h.imp fun _ _ hsame hended => .inl (hsame hended)

theorem deriveRunState_frame {now : ℕ} {before after : RunWithJobs} {u : Unit}
    (h : (deriveRunState now).run before = .ok u after) :
    RunFrame now before after ∧ List.Forall₂ EndedSame before.jobs after.jobs := by
  simp only [deriveRunState, check_unit_bind_eq_ok, modify_eq_ok] at h
  obtain ⟨-, rfl⟩ := h
  have hsame := canceledJobs_endedSame
    (before.run.cancellationRequested || before.jobs.any (·.state = .canceled)) before.jobs now
  exact ⟨⟨canceledJobs_steps _ _ _, rfl, all_isTerminal_of_nextRunState, endedKept_of_same hsame⟩,
    hsame⟩

theorem reconcileJob_steps {indexes : SortedMap WorkflowJobId ℕ} {now : ℕ} {jobs jobs' : List RunJob}
    {definition : WorkflowJob} (h : reconcileJob indexes now jobs definition = .ok jobs') :
    JobSteps now jobs jobs' ∧ List.Forall₂ EndedSame jobs jobs' := by
  have hrefl : ∀ job, EndedSame job job := fun _ _ => rfl
  unfold reconcileJob at h
  split at h
  · cases h
  rename_i index job hjob
  have hget : jobs[index]? = some job := by
    simp only [Option.bind_eq_some_iff, Option.map_eq_some_iff, Prod.mk.injEq] at hjob
    obtain ⟨_, -, _, hget, rfl, rfl⟩ := hjob
    exact hget
  split_ifs at h with hstate
  · cases h
    exact ⟨.refl jobs, List.forall₂_same.mpr fun job _ => hrefl job⟩
  · split at h
    · cases h
    · cases h
      rw [not_not] at hstate
      refine ⟨ListUpdate.forall₂_set (fun _ => .refl) hget (.single (.unblock _ hstate)),
        ListUpdate.forall₂_set hrefl hget fun hended => ?_⟩
      rw [hstate] at hended
      cases hended

theorem reconcileJobs_steps {indexes : SortedMap WorkflowJobId ℕ} {now : ℕ}
    {definitions : List WorkflowJob} {before after : RunWithJobs} {u : Unit}
    (h : (reconcileJobs indexes now definitions).run before = .ok u after) :
    JobSteps now before.jobs after.jobs ∧ after.run = before.run ∧
      List.Forall₂ EndedSame before.jobs after.jobs := by
  induction definitions generalizing before with
  | nil =>
    obtain ⟨-, rfl⟩ := pure_eq_ok.mp h
    exact ⟨.refl _, rfl, List.forall₂_same.mpr fun _ _ _ => rfl⟩
  | cons definition definitions ih =>
    obtain ⟨jobs, hjobs, h⟩ := check_bind_eq_ok.mp h
    rw [modify_bind_eq_ok] at h
    obtain ⟨hsteps, hrun, hsame⟩ := ih h
    obtain ⟨hsteps', hsame'⟩ := reconcileJob_steps hjobs
    exact ⟨hsteps'.trans hsteps, hrun, ListUpdate.forall₂_trans EndedSame.trans hsame' hsame⟩

theorem requeuedJob_not_isTerminal (definition : WorkflowJob) (now : ℕ) (job : RunJob) :
    (requeuedJob definition now job).state.isTerminal = false := by
  simp only [requeuedJob, initialJobState]
  split <;> rfl

/-- The loop of `retry_run` puts every remaining job back. -/
theorem requeueJobs_eq_ok {workflow : CompiledWorkflow} {now : ℕ} {done jobs : List RunJob}
    {before after : RunWithJobs} {u : Unit}
    (h : (requeueJobs workflow now done jobs).run before = .ok u after)
    (hbefore : before.jobs = done ++ jobs) :
    after.run = before.run ∧ ∃ jobs', after.jobs = done ++ jobs' ∧
      List.Forall₂ (fun job job' => ∃ definition, job' = requeuedJob definition now job)
        jobs jobs' := by
  induction jobs generalizing done before with
  | nil =>
    obtain ⟨-, rfl⟩ := pure_eq_ok.mp h
    exact ⟨rfl, [], hbefore, .nil⟩
  | cons job jobs ih =>
    unfold requeueJobs at h
    split at h
    · exact (throw_eq_ok.mp h).elim
    · rename_i definition hdef
      rw [modify_bind_eq_ok] at h
      obtain ⟨hrun, jobs', hjobs', hall⟩ := ih h rfl
      exact ⟨hrun, requeuedJob definition now job :: jobs', by rw [hjobs', List.append_assoc]; rfl,
        .cons ⟨definition, rfl⟩ hall⟩

theorem Run.requestCancellation_eq_ok {run run' : Run} {now : ℕ} {requested : Bool}
    (h : run.requestCancellation now = .ok (requested, run')) :
    (requested = false ∧ run' = run) ∨ (requested = true ∧ run.state.isTerminal = false ∧
      run.updatedAtUnix ≤ now ∧
        run' = { run with cancellationRequested := true, updatedAtUnix := now }) := by
  unfold requestCancellation at h
  split_ifs at h with hcan
  · simp only [except_unit_bind_eq_ok, ensureTimeNotBeforeUpdate, rejectIf_eq_ok, not_lt] at h
    obtain ⟨htime, h⟩ := h
    cases h
    simp only [canRequestCancellation, Bool.and_eq_true, Bool.not_eq_true'] at hcan
    exact .inr ⟨rfl, hcan.1, htime, rfl⟩
  · cases h
    exact .inl ⟨rfl, rfl⟩

/-- What an operation on a run leaves behind, if a run only ends when all its jobs have. -/
theorem RunOp.frame {op : RunOp} {before after : RunWithJobs} {u : Unit}
    (h : op.run.run before = .ok u after)
    (hended : before.run.state.isTerminal = true →
      ∀ job ∈ before.jobs, job.state.isTerminal = true) : RunFrame op.nowUnix before after := by
  cases op with
  | requestRunCancellation now =>
    obtain ⟨_, mid, hrequest, h⟩ := bind_eq_ok.mp h
    obtain ⟨-, rfl⟩ := pure_eq_ok.mp h
    simp only [ScopeVcs.requestRunCancellation] at hrequest
    obtain ⟨⟨requested, run⟩, hcancel, hrequest⟩ := check_bind_eq_ok.mp hrequest
    rcases Run.requestCancellation_eq_ok hcancel with ⟨rfl, rfl⟩ | ⟨rfl, -, -, rfl⟩
    · obtain ⟨-, rfl⟩ := pure_eq_ok.mp hrequest
      exact ⟨.refl _, rfl, hended, List.forall₂_same.mpr fun _ _ _ => .inl rfl⟩
    · simp only [if_true, modify_bind_eq_ok] at hrequest
      obtain ⟨_, mid', hderive, hrequest⟩ := bind_eq_ok.mp hrequest
      obtain ⟨-, rfl⟩ := pure_eq_ok.mp hrequest
      obtain ⟨⟨hjobs, hid, hended', hkept⟩, -⟩ := deriveRunState_frame hderive
      exact ⟨hjobs, hid, hended', hkept⟩
  | reconcileRun revision now =>
    simp only [RunOp.run, ScopeVcs.reconcileRun, check_unit_bind_eq_ok, get_bind_eq_ok] at h
    obtain ⟨-, -, h⟩ := h
    obtain ⟨_, mid, hloop, hderive⟩ := bind_eq_ok.mp h
    obtain ⟨hsteps, hrun, hsame⟩ := reconcileJobs_steps hloop
    obtain ⟨⟨hjobs, hid, hended', -⟩, hsame'⟩ := deriveRunState_frame hderive
    exact ⟨hsteps.trans hjobs, hid.trans (by rw [hrun]), hended',
      endedKept_of_same (ListUpdate.forall₂_trans EndedSame.trans hsame hsame')⟩
  | retryRun revision now =>
    simp only [RunOp.run, ScopeVcs.retryRun, check_unit_bind_eq_ok, get_bind_eq_ok,
      rejectIf_eq_ok, ensureRetryTime, not_or, not_lt, not_exists, not_and, Bool.not_eq_false] at h
    obtain ⟨-, ⟨-, htime⟩, -, hretry, h⟩ := h
    obtain ⟨_, mid, hloop, h⟩ := bind_eq_ok.mp h
    obtain rfl := modify_eq_ok.mp h
    simp only [canRetryRun, Bool.and_eq_true] at hretry
    obtain ⟨hrun, jobs', hjobs', hall⟩ := requeueJobs_eq_ok hloop rfl
    have hended := hended hretry.1.1
    refine ⟨?_, by rw [hrun], nofun, ?_⟩
    · show JobSteps now before.jobs mid.jobs
      rw [hjobs', List.nil_append, JobSteps, List.forall₂_iff_zip]
      refine ⟨hall.length_eq, fun {job job'} hmem => ?_⟩
      obtain ⟨definition, rfl⟩ := (List.forall₂_iff_zip.mp hall).2 hmem
      have hjob := (List.of_mem_zip hmem).1
      exact .single (.requeue definition (hended job hjob) (htime job hjob))
    · show List.Forall₂ EndedKept before.jobs mid.jobs
      rw [hjobs', List.nil_append]
      refine hall.imp fun job job' => ?_
      rintro ⟨definition, rfl⟩ -
      exact .inr (requeuedJob_not_isTerminal definition now job)

end ScopeVcs

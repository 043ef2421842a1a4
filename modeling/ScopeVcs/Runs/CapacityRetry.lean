import ScopeVcs.Runs.Failures

/-! # Capacity retries over a whole run

A job that is rejected for lack of capacity may be dispatched again a bounded number of times, in a
window that opens at its first rejection. The record of the rejections outlives later dispatches: a
job that got capacity and lost its runner before it started waits with the old window attached.
-/

namespace ScopeVcs

open Mutation Relation

/-! ## What happens to a job -/

inductive JobEvent where
  | dispatched
  | rejected
  | requeued
  | expired
  | retried
  deriving DecidableEq

/-- The event of an operation on an attempt that found the job as `before` and left it as `after`.
A report that comes again changes nothing and is none. -/
def AttemptOp.event? (before after : RunJob) : AttemptOp → Option JobEvent
  | .rejectCapacity _ _ _ => if after = before then none else some .rejected
  | .expire _ | .abandon _ _ =>
    if after = before ∨ after.state ≠ .queued then none else some .requeued
  | _ => none

/-- The event of a call for the job at `j`. -/
def RunAggregate.Call.event? (j : ℕ) (before after : RunJob) : RunAggregate.Call → Option JobEvent
  | .dispatch k _ _ _ _ _ _ => if k = j then some .dispatched else none
  | .attempt k _ op => if k = j then op.event? before after else none
  | .expireCapacityRetry k _ => if k = j ∧ after ≠ before then some .expired else none
  | .run (.retryRun _ _) => some .retried
  | .run _ => none

def RunAggregate.Call.nowUnix : RunAggregate.Call → ℕ
  | .dispatch _ _ _ _ _ now _ | .expireCapacityRetry _ now => now
  | .attempt _ _ op => op.nowUnix
  | .run op => op.nowUnix

/-- What is counted of the rejections of a job: when they began, and how many there were. -/
def CapacityRetry.count (retry : CapacityRetry) : ℕ × ℕ :=
  (retry.firstRejectedAtUnix, retry.rejections)

/-- A change that neither counts a rejection nor puts the job back into the queue. -/
structure RetryKept (job job' : RunJob) : Prop where
  counts : job'.capacityRetry.map CapacityRetry.count = job.capacityRetry.map CapacityRetry.count
  queued : job'.state = .queued →
    job'.capacityRetry = job.capacityRetry ∧ (job.state = .queued ∨ job.state = .blocked)
  blocked : job'.state = .blocked →
    job'.capacityRetry = job.capacityRetry ∧ job.state = .blocked

theorem RetryKept.refl (job : RunJob) : RetryKept job job :=
  ⟨rfl, fun h => ⟨rfl, .inl h⟩, fun h => ⟨rfl, h⟩⟩

theorem RetryKept.trans {a b c : RunJob} (hab : RetryKept a b) (hbc : RetryKept b c) :
    RetryKept a c := by
  refine ⟨hbc.counts.trans hab.counts, fun hqueued => ?_, fun hblocked => ?_⟩
  · obtain ⟨hretry, hqueued | hblocked⟩ := hbc.queued hqueued
    · obtain ⟨hretry', hstate⟩ := hab.queued hqueued
      exact ⟨hretry.trans hretry', hstate⟩
    · obtain ⟨hretry', hstate⟩ := hab.blocked hblocked
      exact ⟨hretry.trans hretry', .inr hstate⟩
  · obtain ⟨hretry, hblocked⟩ := hbc.blocked hblocked
    obtain ⟨hretry', hstate⟩ := hab.blocked hblocked
    exact ⟨hretry.trans hretry', hstate⟩

/-- A job that goes on running, or ends, keeps the record. -/
theorem RetryKept.of_state {job job' : RunJob} (hretry : job'.capacityRetry = job.capacityRetry)
    (hqueued : job'.state ≠ .queued) (hblocked : job'.state ≠ .blocked) : RetryKept job job' :=
  ⟨by rw [hretry], fun h => absurd h hqueued, fun h => absurd h hblocked⟩

theorem RetryKept.of_same_state {job job' : RunJob}
    (hretry : job'.capacityRetry = job.capacityRetry) (hstate : job'.state = job.state) :
    RetryKept job job' :=
  ⟨by rw [hretry], fun h => ⟨hretry, .inl (hstate ▸ h)⟩, fun h => ⟨hretry, hstate ▸ h⟩⟩

/-- What an operation at time `now` does to a job, by its event. -/
inductive JobChange (now : ℕ) (job : RunJob) : Option JobEvent → RunJob → Prop where
  | kept {job' : RunJob} (h : RetryKept job job') : JobChange now job none job'
  | dispatched {attemptId : String} (hqueued : job.state = .queued)
      (hfree : ¬ job.retryBlocksDispatch now) :
      JobChange now job (some .dispatched) (job.dispatched attemptId now)
  | rejected (hdispatching : job.state = .dispatching) :
      JobChange now job (some .rejected) { job with
        capacityRetry := some (job.rejectedRetry now)
        state := if (job.rejectedRetry now).nextAttemptAtUnix.isSome then .queued else .failed
        currentAttemptId := none
        updatedAtUnix := now
        completedAtUnix :=
          if (job.rejectedRetry now).nextAttemptAtUnix.isSome then none else some now }
  | requeued (hcurrent : job.currentAttemptId.isSome = true) :
      JobChange now job (some .requeued) { job with
        currentAttemptId := none
        updatedAtUnix := now
        state := .queued }
  | expired {retry : CapacityRetry} (hretry : job.capacityRetry = some retry)
      (hqueued : job.state = .queued) (hdue : retry.deadline ≤ now) :
      JobChange now job (some .expired) { job with
        capacityRetry := some { retry with nextAttemptAtUnix := none }
        state := .failed
        updatedAtUnix := now
        completedAtUnix := some now }
  | retried (definition : WorkflowJob) :
      JobChange now job (some .retried) (requeuedJob definition now job)

/-! ## Operations on an attempt -/

namespace RunAttempt

variable {held : Held} {run : Run} {token : String} {now stepIndex : ℕ}

theorem markStepLogsTruncated_job (job : RunJob) :
    held.job = job → Ensures (·.job = job) (markStepLogsTruncated stepIndex) held := by
  rintro rfl
  simp only [markStepLogsTruncated, Ensures.check_unit_bind_iff, Ensures.get_bind_iff]
  intro _
  split
  · exact .throw _
  · rw [Ensures.check_unit_bind_iff]
    intro _
    split
    · exact .check rfl
    · exact Ensures.modify_iff.mpr rfl

theorem startPendingStep_retryKept :
    Ensures (RetryKept held.job ·.job) (startPendingStep run stepIndex now) held := by
  simp only [startPendingStep, Ensures.check_unit_bind_iff, Ensures.get_bind_iff]
  intro _ _
  split
  · exact .throw _
  · split
    · exact Ensures.pure_iff.mpr (.refl _)
    · simp only [Ensures.check_unit_bind_iff, Ensures.modify_iff]
      intros
      exact .of_same_state rfl rfl

theorem start_retryKept : Ensures (RetryKept held.job ·.job) (start run token now) held := by
  simp only [start, Ensures.check_unit_bind_iff, Ensures.modify_iff]
  intros
  exact .of_state rfl nofun nofun

theorem startStep_retryKept :
    Ensures (RetryKept held.job ·.job) (startStep run token stepIndex now) held := by
  simp only [startStep, Ensures.get_bind_iff]
  split
  · refine start_retryKept.bind fun _ mid hmid b final hfinal => ?_
    exact hmid.trans (startPendingStep_retryKept b final hfinal)
  · exact Ensures.check_unit_bind_iff.mpr fun _ => startPendingStep_retryKept

theorem concludeStep_retryKept {conclusion : StepConclusion} {logsTruncated : Bool} :
    Ensures (RetryKept held.job ·.job) (concludeStep stepIndex conclusion logsTruncated now)
      held := by
  have hreport : Ensures (·.job = held.job) (reportTruncation logsTruncated stepIndex) held := by
    unfold reportTruncation
    split
    · exact markStepLogsTruncated_job held.job rfl
    · exact Ensures.pure_iff.mpr rfl
  refine hreport.bind fun _ mid hmid => ?_
  simp only [Ensures.check_unit_bind_iff]
  intro _ _
  cases conclusion with
  | succeeded => exact Ensures.modify_iff.mpr (hmid ▸ .of_same_state rfl rfl)
  | failed exitCode =>
    simp only [Ensures.check_unit_bind_iff, Ensures.modify_iff]
    exact fun _ => hmid ▸ .of_state rfl (by rintro ⟨⟩) (by rintro ⟨⟩)

theorem completeStep_retryKept {conclusion : StepConclusion} {logsTruncated : Bool} :
    Ensures (RetryKept held.job ·.job) (completeStep token stepIndex conclusion logsTruncated now)
      held := by
  simp only [completeStep, Ensures.get_bind_iff]
  split
  · exact Ensures.check_unit_bind_iff.mpr fun _ => .check (.refl _)
  · simp only [Ensures.check_unit_bind_iff]
    intro _ _
    split
    · exact .throw _
    · split
      · exact .check (.refl _)
      · exact Ensures.check_unit_bind_iff.mpr fun _ => concludeStep_retryKept

theorem complete_retryKept {conclusion : AttemptConclusion} {logsTruncated : Bool} :
    Ensures (RetryKept held.job ·.job) (complete run token conclusion logsTruncated now) held := by
  have hreport : Ensures (·.job = held.job) (reportRunningTruncation logsTruncated) held := by
    simp only [reportRunningTruncation, Ensures.get_bind_iff]
    split
    · split
      · exact .throw _
      · exact markStepLogsTruncated_job held.job rfl
    · exact Ensures.pure_iff.mpr rfl
  simp only [complete, Ensures.get_bind_iff]
  split
  · exact Ensures.check_unit_bind_iff.mpr fun _ => .check (.refl _)
  · simp only [Ensures.check_unit_bind_iff]
    intro _ _
    refine hreport.bind fun _ mid hmid => ?_
    simp only [Ensures.check_bind_iff, Ensures.modify_iff]
    intro _ _ _ _ ending' hending
    obtain ⟨-, hstate, -⟩ := endsAs_of_ending hending
    refine hmid ▸ .of_state rfl (fun h => ?_) fun h => ?_
    · simp [show ending'.jobState = .queued from h] at hstate
    · simp [show ending'.jobState = .blocked from h] at hstate

theorem confirmProviderCancellation_retryKept :
    Ensures (RetryKept held.job ·.job) (confirmProviderCancellation run now) held := by
  simp only [confirmProviderCancellation, Ensures.get_bind_iff]
  split
  · exact Ensures.pure_iff.mpr (.refl _)
  · simp only [Ensures.check_unit_bind_iff, Ensures.modify_iff]
    intros
    exact .of_state rfl (by rintro ⟨⟩) (by rintro ⟨⟩)

/-- An attempt that is lost ends its job, or puts it back into the queue as it was. -/
theorem finishLostOrRequeue_change {held' : Held} {u : Unit}
    (h : (finishLostOrRequeue run now).run held = .ok u held') :
    (RetryKept held.job held'.job ∧ held'.job.state ≠ .queued) ∨
      (held.job.currentAttemptId.isSome = true ∧ held'.job = { held.job with
        currentAttemptId := none
        updatedAtUnix := now
        state := .queued }) := by
  simp only [finishLostOrRequeue, check_unit_bind_eq_ok, modify_eq_ok,
    RunJob.ensureCurrentAttempt_eq_ok] at h
  obtain ⟨hcurrent, -, -, rfl⟩ := h
  unfold lostEnding
  split_ifs
  · exact .inl ⟨.of_state rfl (by rintro ⟨⟩) (by rintro ⟨⟩), by rintro ⟨⟩⟩
  · exact .inl ⟨.of_state rfl (by rintro ⟨⟩) (by rintro ⟨⟩), by rintro ⟨⟩⟩
  · exact .inl ⟨.of_state rfl (by rintro ⟨⟩) (by rintro ⟨⟩), by rintro ⟨⟩⟩
  · exact .inr ⟨by rw [hcurrent.id]; rfl, rfl⟩

theorem rejectCapacity_change {held' : Held} {message : SetupFailureMessage} {u : Unit}
    (h : (rejectCapacity run token message now).run held = .ok u held') :
    held'.job = held.job ∨ JobChange now held.job (some .rejected) held'.job := by
  simp only [rejectCapacity, get_bind_eq_ok] at h
  split at h
  · obtain ⟨-, rfl⟩ := check_eq_ok.mp h
    exact .inl rfl
  · simp only [check_unit_bind_eq_ok, modify_bind_eq_ok, rejectIf_eq_ok, not_or, not_not] at h
    obtain ⟨-, ⟨-, hdispatching, -⟩, -, -, -, h⟩ := h
    simp only [EStateM.run, onJob] at h
    split at h
    · rename_i job hjob
      cases h
      have hrecord : (RunJob.recordCapacityRejection now).run held.job = .ok _ job := hjob
      simp only [RunJob.recordCapacityRejection, check_unit_bind_eq_ok, modify_eq_ok] at hrecord
      exact .inr (hrecord.2 ▸ .rejected hdispatching)
    · cases h

end RunAttempt

theorem AttemptOp.event?_self (op : AttemptOp) (job : RunJob) : op.event? job job = none := by
  cases op <;> simp [event?]

theorem AttemptOp.jobChange {op : AttemptOp} {run : Run} {held held' : Held} {u : Unit}
    (h : (op.run run).run held = .ok u held') :
    JobChange op.nowUnix held.job (op.event? held.job held'.job) held'.job := by
  have hlost : (RetryKept held.job held'.job ∧ held'.job.state ≠ .queued) ∨
      (held.job.currentAttemptId.isSome = true ∧ held'.job = { held.job with
        currentAttemptId := none
        updatedAtUnix := op.nowUnix
        state := .queued }) →
      JobChange op.nowUnix held.job
        (if held'.job = held.job ∨ held'.job.state ≠ .queued then none else some .requeued)
        held'.job := by
    rintro (⟨hkept, hstate⟩ | ⟨hcurrent, hjob⟩)
    · rw [if_pos (.inr hstate)]
      exact .kept hkept
    · split_ifs with hsame
      · rcases hsame with hsame | hstate
        · exact .kept (hsame ▸ .refl _)
        · exact absurd (by rw [hjob]) hstate
      · exact hjob ▸ .requeued hcurrent
  cases op with
  | claimRuntime bootstrap token now lease =>
    have hkept : Ensures (RetryKept held.job ·.job)
        (RunAttempt.claimRuntime bootstrap token now lease) held := by
      simp only [RunAttempt.claimRuntime, Ensures.check_unit_bind_iff, Ensures.modify_iff]
      intros
      exact .refl _
    exact .kept (hkept u held' h)
  | start token now => exact .kept (RunAttempt.start_retryKept u held' h)
  | heartbeat token now lease =>
    have hkept : Ensures (RetryKept held.job ·.job) (RunAttempt.heartbeat run token now lease)
        held := by
      simp only [RunAttempt.heartbeat, Ensures.check_unit_bind_iff, Ensures.modify_bind_iff,
        Ensures.pure_iff]
      intros
      exact .refl _
    obtain ⟨b, mid, hbeat, h⟩ := bind_eq_ok.mp h
    obtain ⟨-, rfl⟩ := pure_eq_ok.mp h
    exact .kept (hkept b mid hbeat)
  | startStep => exact .kept (RunAttempt.startStep_retryKept u held' h)
  | completeStep => exact .kept (RunAttempt.completeStep_retryKept u held' h)
  | complete => exact .kept (RunAttempt.complete_retryKept u held' h)
  | rejectCapacity token message now =>
    rcases RunAttempt.rejectCapacity_change h with hsame | hchange
    · rw [AttemptOp.event?, if_pos hsame]
      exact .kept (hsame ▸ .refl _)
    · rw [AttemptOp.event?]
      split_ifs with hsame
      · exact .kept (hsame ▸ .refl _)
      · exact hchange
  | expire now =>
    simp only [AttemptOp.run, RunAttempt.expire, check_unit_bind_eq_ok] at h
    exact hlost (RunAttempt.finishLostOrRequeue_change h.2.2.2)
  | abandon token now =>
    simp only [AttemptOp.run, RunAttempt.abandon, check_unit_bind_eq_ok, get_bind_eq_ok] at h
    obtain ⟨-, h⟩ := h
    split at h
    · obtain ⟨-, rfl⟩ := pure_eq_ok.mp h
      rw [AttemptOp.event?, if_pos (.inl rfl)]
      exact .kept (.refl _)
    · exact hlost (RunAttempt.finishLostOrRequeue_change h)
  | confirmProviderCancellation =>
    exact .kept (RunAttempt.confirmProviderCancellation_retryKept u held' h)

/-! ## Operations on the run -/

theorem cancelWaiting_retryKept (time : ℕ) (job : RunJob) : RetryKept job (cancelWaiting time job) := by
  unfold cancelWaiting
  split_ifs
  · refine ⟨?_, nofun, nofun⟩
    rw [Option.map_map]
    rfl
  · exact .refl job

theorem canceledJobs_retryKept (requested : Bool) (jobs : List RunJob) (now : ℕ) :
    List.Forall₂ RetryKept jobs (canceledJobs requested jobs now) := by
  unfold canceledJobs
  split
  · rw [List.forall₂_map_right_iff]
    exact List.forall₂_same.mpr fun job _ => cancelWaiting_retryKept _ job
  · exact List.forall₂_same.mpr fun job _ => .refl job

theorem deriveRunState_retryKept {now : ℕ} {before after : RunWithJobs} {u : Unit}
    (h : (deriveRunState now).run before = .ok u after) :
    List.Forall₂ RetryKept before.jobs after.jobs := by
  simp only [deriveRunState, check_unit_bind_eq_ok, modify_eq_ok] at h
  obtain ⟨-, rfl⟩ := h
  exact canceledJobs_retryKept _ _ _

theorem unblockedJob_retryKept {job : RunJob} (hblocked : job.state = .blocked)
    (facts : List (RunJobState × ℕ)) (now : ℕ) : RetryKept job (unblockedJob job facts now) := by
  unfold unblockedJob
  split
  · exact .refl job
  · exact ⟨rfl, fun _ => ⟨rfl, .inr hblocked⟩, fun _ => ⟨rfl, hblocked⟩⟩

theorem reconcileJob_retryKept {indexes : SortedMap WorkflowJobId ℕ} {now : ℕ}
    {jobs jobs' : List RunJob} {definition : WorkflowJob}
    (h : reconcileJob indexes now jobs definition = .ok jobs') :
    List.Forall₂ RetryKept jobs jobs' := by
  unfold reconcileJob at h
  split at h
  · cases h
  rename_i index job hjob
  have hget : jobs[index]? = some job := by
    simp only [Option.bind_eq_some_iff, Option.map_eq_some_iff, Prod.mk.injEq] at hjob
    obtain ⟨_, -, _, hget, rfl, rfl⟩ := hjob
    exact hget
  split_ifs at h with hstate
  · cases h
    exact List.forall₂_same.mpr fun job _ => .refl job
  · split at h
    · cases h
    · cases h
      exact ListUpdate.forall₂_set .refl hget (unblockedJob_retryKept (not_not.mp hstate) _ _)

theorem reconcileJobs_retryKept {indexes : SortedMap WorkflowJobId ℕ} {now : ℕ}
    {definitions : List WorkflowJob} {before after : RunWithJobs} {u : Unit}
    (h : (reconcileJobs indexes now definitions).run before = .ok u after) :
    List.Forall₂ RetryKept before.jobs after.jobs := by
  induction definitions generalizing before with
  | nil =>
    obtain ⟨-, rfl⟩ := pure_eq_ok.mp h
    exact List.forall₂_same.mpr fun job _ => .refl job
  | cons definition definitions ih =>
    obtain ⟨jobs, hjobs, h⟩ := check_bind_eq_ok.mp h
    rw [modify_bind_eq_ok] at h
    exact ListUpdate.forall₂_trans (fun _ _ _ => .trans) (reconcileJob_retryKept hjobs) (ih h)

/-- Cancellation and reconciliation keep the records of all jobs; a retry puts every job back
without one. -/
theorem RunOp.retryKept {op : RunOp} {before after : RunWithJobs} {u : Unit}
    (h : op.run.run before = .ok u after) : match op with
    | .retryRun _ now => List.Forall₂ (fun job job' => ∃ definition,
        job' = requeuedJob definition now job) before.jobs after.jobs
    | _ => List.Forall₂ RetryKept before.jobs after.jobs := by
  cases op with
  | requestRunCancellation now =>
    obtain ⟨_, mid, hrequest, h⟩ := bind_eq_ok.mp h
    obtain ⟨-, rfl⟩ := pure_eq_ok.mp h
    obtain ⟨⟨requested, run⟩, -, hrequest⟩ := check_bind_eq_ok.mp hrequest
    cases requested with
    | false =>
      obtain ⟨-, rfl⟩ := pure_eq_ok.mp hrequest
      exact List.forall₂_same.mpr fun job _ => .refl job
    | true =>
      simp only [if_true, modify_bind_eq_ok] at hrequest
      obtain ⟨_, mid', hderive, hrequest⟩ := bind_eq_ok.mp hrequest
      obtain ⟨-, rfl⟩ := pure_eq_ok.mp hrequest
      have hkept := deriveRunState_retryKept hderive
      exact hkept
  | reconcileRun revision now =>
    simp only [RunOp.run, ScopeVcs.reconcileRun, check_unit_bind_eq_ok, get_bind_eq_ok] at h
    obtain ⟨-, -, h⟩ := h
    obtain ⟨_, mid, hloop, hderive⟩ := bind_eq_ok.mp h
    exact ListUpdate.forall₂_trans (fun _ _ _ => .trans) (reconcileJobs_retryKept hloop)
      (deriveRunState_retryKept hderive)
  | retryRun revision now =>
    simp only [RunOp.run, ScopeVcs.retryRun, check_unit_bind_eq_ok, get_bind_eq_ok] at h
    obtain ⟨-, -, -, -, h⟩ := h
    obtain ⟨_, mid, hloop, h⟩ := bind_eq_ok.mp h
    obtain rfl := modify_eq_ok.mp h
    obtain ⟨-, jobs', hjobs', hall⟩ := requeueJobs_eq_ok hloop rfl
    rw [List.nil_append] at hjobs'
    exact hjobs' ▸ hall

/-- Only a job whose window has closed is changed. -/
theorem RunJob.expireCapacityRetry_change {now : ℕ} {job job' : RunJob} {expired : Bool}
    (h : (expireCapacityRetry now).run job = .ok expired job') (hchanged : job' ≠ job) :
    JobChange now job (some .expired) job' := by
  simp only [expireCapacityRetry, get_bind_eq_ok] at h
  split at h
  · exact absurd (pure_eq_ok.mp h).2.symm hchanged
  · rename_i retry hretry
    split at h
    · exact absurd (pure_eq_ok.mp h).2.symm hchanged
    · rename_i hdue
      simp only [not_or, not_not, not_lt] at hdue
      simp only [check_unit_bind_eq_ok, modify_bind_eq_ok, pure_eq_ok] at h
      obtain ⟨-, -, rfl⟩ := h
      exact .expired hretry hdue.1 hdue.2

namespace RunAggregate

/-- What a call does to the job at `j`. -/
theorem Call.jobChange {call : Call} {state state' : RunAggregate} {u : Unit} {j : ℕ}
    {job job' : RunJob} (h : call.perform.run state = .ok u state')
    (hjob : state.jobs[j]? = some job) (hjob' : state'.jobs[j]? = some job') :
    JobChange call.nowUnix job (call.event? j job job') job' := by
  have hsame : state'.jobs = state.jobs → job' = job := by
    intro hjobs
    rw [hjobs, hjob] at hjob'
    exact (Option.some_inj.mp hjob').symm
  -- a call that changes another job leaves this one
  have hother : ∀ {k : ℕ} {other : RunJob}, state'.jobs = state.jobs.set k other → k ≠ j →
      job' = job := by
    intro k other hjobs hne
    rw [hjobs, List.getElem?_set_ne hne, hjob] at hjob'
    exact (Option.some_inj.mp hjob').symm
  have hthis : ∀ {other : RunJob}, state'.jobs = state.jobs.set j other → job' = other := by
    intro other hjobs
    rw [hjobs, List.getElem?_set_self (List.getElem?_eq_some_iff.mp hjob).1] at hjob'
    exact (Option.some_inj.mp hjob').symm
  cases call with
  | dispatch k definition attemptId tokenHash runtimeVersion now lease =>
    simp only [Call.perform, get_bind_eq_ok] at h
    obtain ⟨attempt?, mid, hdispatch, h⟩ := bind_eq_ok.mp h
    obtain rfl := modify_eq_ok.mp h
    rw [Call.event?]
    rcases onPart_eq_ok hdispatch with ⟨hnone, -, rfl⟩ | ⟨found, entry, found', hget, hop, -, rfl⟩
    · have hne : k ≠ j := by
        rintro rfl
        rw [hjob] at hnone
        cases hnone
      rw [if_neg hne, hsame rfl]
      exact .kept (.refl job)
    · split_ifs with hk
      · subst hk
        obtain rfl := Option.some_inj.mp (hget.symm.trans hjob)
        obtain rfl := hthis rfl
        have hdispatched := RunJob.dispatched_of_ok hop
        rw [hdispatched.jobAfter]
        exact .dispatched hdispatched.queued hdispatched.notBlocked
      · rw [hother rfl hk]
        exact .kept (.refl job)
  | attempt k a op =>
    simp only [Call.perform, get_bind_eq_ok] at h
    obtain ⟨_, mid, hheld, h⟩ := bind_eq_ok.mp h
    obtain ⟨-, rfl⟩ := pure_eq_ok.mp h
    rcases onPart_eq_ok hheld with ⟨-, -, rfl⟩ | ⟨held, u, held', hget, hop, -, rfl⟩
    · rw [hsame rfl, Call.event?, AttemptOp.event?_self, ite_self]
      exact .kept (.refl job)
    · rw [Call.event?]
      split_ifs with hk
      · subst hk
        obtain rfl := Option.some_inj.mp ((held?_eq_some.mp hget).1.symm.trans hjob)
        obtain rfl := hthis rfl
        exact AttemptOp.jobChange hop
      · rw [hother rfl hk]
        exact .kept (.refl job)
  | expireCapacityRetry k now =>
    simp only [Call.perform, bind_eq_ok, pure_eq_ok] at h
    obtain ⟨_, mid, hexpire, -, rfl⟩ := h
    rw [Call.event?]
    rcases onPart_eq_ok hexpire with ⟨-, -, rfl⟩ | ⟨found, expired, found', hget, hop, -, rfl⟩
    · rw [hsame rfl, if_neg (by simp)]
      exact .kept (.refl job)
    · split_ifs with hk
      · obtain ⟨rfl, hchanged⟩ := hk
        obtain rfl := Option.some_inj.mp (hget.symm.trans hjob)
        obtain rfl := hthis rfl
        exact RunJob.expireCapacityRetry_change hop hchanged
      · have hkept : job' = job := by
          by_contra hchanged
          refine hk ⟨?_, hchanged⟩
          by_contra hne
          exact hchanged (hother rfl hne)
        rw [hkept]
        exact .kept (.refl job)
  | run op =>
    simp only [Call.perform, bind_eq_ok, pure_eq_ok] at h
    obtain ⟨_, mid, hrun, -, rfl⟩ := h
    rcases onPart_eq_ok hrun with ⟨hnone, -, -⟩ | ⟨before, u, result, hget, hop, -, rfl⟩
    · cases hnone
    · obtain rfl := Option.some_inj.mp hget
      have hkept := RunOp.retryKept hop
      cases op with
      | retryRun revision now =>
        obtain ⟨job'', hget', definition, rfl⟩ := ListUpdate.forall₂_getElem? hkept hjob
        obtain rfl := Option.some_inj.mp (hget'.symm.trans hjob')
        exact .retried definition
      | requestRunCancellation now | reconcileRun revision now =>
        obtain ⟨job'', hget', hkept⟩ := ListUpdate.forall₂_getElem? hkept hjob
        obtain rfl := Option.some_inj.mp (hget'.symm.trans hjob')
        exact .kept hkept

theorem HeldStep.jobFacts_of_steps {clock : Prop} {now : ℕ} {held held' : Held}
    (h : ReflTransGen (HeldStep clock now) held held') (hjob : held.job.Facts) :
    held'.job.Facts := by
  induction h with
  | refl => exact hjob
  | tail _ hlast ih => exact hlast.jobFacts ih

/-- The records of all jobs pass the checks of `restore`, whatever the clocks of the callers. -/
theorem Reachable.jobFacts {state : RunAggregate} (h : Reachable state) :
    ∀ job ∈ state.jobs, job.Facts := by
  refine h.invariant (fun state => ∀ job ∈ state.jobs, job.Facts)
    (fun _ hcreated => hcreated.sound.jobs) fun before after hreach hjobs hstep => ?_
  cases hstep with
  | @dispatch j job job' definition attemptId tokenHash runtimeVersion now lease attempt steps hjob
      hop =>
    intro other hmem
    rcases ListUpdate.mem_set_cases hmem with rfl | ⟨k, -, hget⟩
    · exact (RunJob.dispatched_of_ok hop).jobFacts (hjobs job (List.mem_of_getElem? hjob))
    · exact hjobs other (List.mem_of_getElem? hget)
  | @attempt j a op held held' u hheld _ hop =>
    intro other hmem
    rcases ListUpdate.mem_set_cases hmem with rfl | ⟨k, -, hget⟩
    · have hjob : held.job.Facts := hjobs _ (List.mem_of_getElem? (held?_eq_some.mp hheld).1)
      exact HeldStep.jobFacts_of_steps (AttemptOp.steps hop) hjob
    · exact hjobs other (List.mem_of_getElem? hget)
  | @expireCapacityRetry j job job' now expired hjob hop =>
    intro other hmem
    rcases ListUpdate.mem_set_cases hmem with rfl | ⟨k, -, hget⟩
    · exact JobStep.facts_of_steps (RunJob.expireCapacityRetry_steps hop)
        (hjobs job (List.mem_of_getElem? hjob))
    · exact hjobs other (List.mem_of_getElem? hget)
  | @run op result u hop =>
    intro other hmem
    obtain ⟨job, hjob, hsteps⟩ :=
      ListUpdate.forall₂_mem_right (RunOp.frame hop (Reachable.fenced hreach).ended).jobs hmem
    exact JobStep.facts_of_steps hsteps (hjobs job hjob)

end RunAggregate

/-! ## The history of a job -/

/-- What happened to a job, at what time, and how it was before. -/
structure HistoryEntry where
  event : JobEvent
  nowUnix : ℕ
  job : RunJob
  deriving DecidableEq

/-- A next attempt was planned. -/
def HistoryEntry.Planned (entry : HistoryEntry) : Prop :=
  ∃ retry ∈ entry.job.capacityRetry, retry.nextAttemptAtUnix.isSome = true

instance (entry : HistoryEntry) : Decidable entry.Planned :=
  inferInstanceAs (Decidable (∃ _ ∈ _, _))

/-- The times of the rejections since the run was last retried, newest first. -/
def rejectionTimes : List HistoryEntry → List ℕ
  | [] => []
  | entry :: older =>
    match entry.event with
    | .retried => []
    | .rejected => entry.nowUnix :: rejectionTimes older
    | _ => rejectionTimes older

def firstRejection (history : List HistoryEntry) : Option ℕ := (rejectionTimes history).getLast?

/-- The event that last put the job back into the queue. -/
def lastPutBack (history : List HistoryEntry) : Option JobEvent :=
  (history.map (·.event)).find? fun event => event ∈ [.rejected, .requeued, .retried]

/-- A history in which rejections are bounded and dispatches stay in the window. Whether an expired
job was put back by a rejection shows in its record. -/
structure HistoryBounded (history : List HistoryEntry) : Prop where
  rejections : ∀ older, older <:+ history → (rejectionTimes older).length ≤ maxCapacityRetries + 1
  dispatches : ∀ entry older, entry :: older <:+ history → entry.event = .dispatched →
    ∀ first ∈ firstRejection older, entry.nowUnix < first + capacityRetryWindowSeconds
  expirations : ∀ entry older, entry :: older <:+ history → entry.event = .expired →
    (lastPutBack older = some .rejected ↔ entry.Planned)
  times : ∀ entry ∈ history, entry.nowUnix ≤ U64.maxU64

/-- The record of a job counts the rejections in its history. -/
structure RetryRecorded (job : RunJob) (history : List HistoryEntry) : Prop where
  counts : job.capacityRetry.map CapacityRetry.count =
    (firstRejection history).map fun first => (first, (rejectionTimes history).length)
  blocked : job.state = .blocked → job.capacityRetry = none
  waiting : job.state = .queued → ∀ retry ∈ job.capacityRetry,
    (retry.nextAttemptAtUnix.isSome = true ↔ lastPutBack history = some .rejected)

theorem RetryRecorded.of_kept {job job' : RunJob} {history : List HistoryEntry}
    (h : RetryRecorded job history) (hkept : RetryKept job job') : RetryRecorded job' history := by
  refine ⟨hkept.counts.trans h.counts, fun hblocked => ?_, fun hqueued retry hretry => ?_⟩
  · obtain ⟨hretry, hstate⟩ := hkept.blocked hblocked
    exact hretry.trans (h.blocked hstate)
  · obtain ⟨hsame, hstate | hstate⟩ := hkept.queued hqueued
    · exact h.waiting hstate retry (hsame ▸ hretry)
    · rw [hsame, h.blocked hstate] at hretry
      cases hretry

/-- A recorded retry began at the first rejection and counts them all. -/
theorem RetryRecorded.retry {job : RunJob} {history : List HistoryEntry}
    (h : RetryRecorded job history) {retry : CapacityRetry} (hretry : retry ∈ job.capacityRetry) :
    firstRejection history = some retry.firstRejectedAtUnix ∧
      (rejectionTimes history).length = retry.rejections := by
  have hcounts := h.counts
  rw [Option.mem_def.mp hretry] at hcounts
  cases hfirst : firstRejection history with
  | none => simp [hfirst] at hcounts
  | some first =>
    simp only [hfirst, Option.map_some, Option.some_inj, CapacityRetry.count, Prod.mk.injEq]
      at hcounts
    exact ⟨by rw [hcounts.1], hcounts.2.symm⟩

theorem RetryRecorded.of_none {job : RunJob} {history : List HistoryEntry}
    (h : RetryRecorded job history) (hretry : job.capacityRetry = none) :
    rejectionTimes history = [] := by
  have hcounts := h.counts
  rw [hretry] at hcounts
  cases hfirst : firstRejection history with
  | none => exact List.getLast?_eq_none_iff.mp hfirst
  | some first => simp [hfirst] at hcounts

theorem RetryRecorded.length_le {job : RunJob} {history : List HistoryEntry}
    (h : RetryRecorded job history) (hfacts : job.Facts) :
    (rejectionTimes history).length ≤ maxCapacityRetries + 1 := by
  cases hretry : job.capacityRetry with
  | none => simp [h.of_none hretry]
  | some retry =>
    have hconsistent := hfacts.retry retry hretry
    simp only [RunJob.retryInconsistent, not_or, not_lt] at hconsistent
    rw [(h.retry hretry).2]
    exact hconsistent.2.1

/-- A bounded history stays so by an entry that keeps the rules itself. -/
theorem HistoryBounded.cons {history : List HistoryEntry} {entry : HistoryEntry}
    (h : HistoryBounded history)
    (hrejections : (rejectionTimes (entry :: history)).length ≤ maxCapacityRetries + 1)
    (hdispatch : entry.event = .dispatched → ∀ first ∈ firstRejection history,
      entry.nowUnix < first + capacityRetryWindowSeconds)
    (hexpire : entry.event = .expired → (lastPutBack history = some .rejected ↔ entry.Planned))
    (htime : entry.nowUnix ≤ U64.maxU64) : HistoryBounded (entry :: history) := by
  refine ⟨fun older hsuffix => ?_, fun other older hsuffix => ?_, fun other older hsuffix => ?_,
    List.forall_mem_cons.mpr ⟨htime, h.times⟩⟩
  all_goals rcases List.suffix_cons_iff.mp hsuffix with heq | hsuffix
  · exact heq ▸ hrejections
  · exact h.rejections older hsuffix
  · obtain ⟨rfl, rfl⟩ := List.cons.inj heq
    exact hdispatch
  · exact h.dispatches other older hsuffix
  · obtain ⟨rfl, rfl⟩ := List.cons.inj heq
    exact hexpire
  · exact h.expirations other older hsuffix

/-! ## One event -/

section Change

variable {now : ℕ} {job job' : RunJob} {history : List HistoryEntry}

/-- A job in the queue is only dispatched while its window is open. -/
theorem RunJob.lt_of_not_retryBlocksDispatch (h : ¬ job.retryBlocksDispatch now)
    {retry : CapacityRetry} (hretry : retry ∈ job.capacityRetry) :
    now < retry.firstRejectedAtUnix + capacityRetryWindowSeconds := by
  simp only [retryBlocksDispatch, not_exists, not_and, not_or, not_le] at h
  exact (h retry hretry).2.trans_le (U64.saturatingAdd_le _ _)

/-- One more rejection is counted, from the first one on. -/
theorem RetryRecorded.count_rejectedRetry (h : RetryRecorded job history) :
    (job.rejectedRetry now).count =
      ((firstRejection history).getD now, (rejectionTimes history).length + 1) := by
  cases hretry : job.capacityRetry with
  | none =>
    have hnone := h.of_none hretry
    simp [CapacityRetry.count, RunJob.rejectedRetry, hretry, firstRejection, hnone]
  | some retry =>
    obtain ⟨hfirst, hlength⟩ := h.retry hretry
    simp [CapacityRetry.count, RunJob.rejectedRetry, hretry, hfirst, hlength]

theorem firstRejection_rejected {entry : HistoryEntry} (hevent : entry.event = .rejected) :
    firstRejection (entry :: history) = some ((firstRejection history).getD entry.nowUnix) := by
  simp only [firstRejection, rejectionTimes, hevent, List.getLast?_cons]

/-- The record goes on counting the rejections of the history, whatever happens to the job. -/
theorem JobChange.recorded {event : JobEvent} (h : JobChange now job (some event) job')
    (hfacts : job.Facts) (hrecorded : RetryRecorded job history) :
    RetryRecorded job' (⟨event, now, job⟩ :: history) := by
  cases h with
  | dispatched hqueued hfree =>
    refine ⟨?_, nofun, nofun⟩
    show (job.capacityRetry.map _).map CapacityRetry.count = _
    rw [Option.map_map]
    exact hrecorded.counts
  | rejected hdispatching =>
    refine ⟨?_, fun hblocked => ?_, fun hqueued retry hretry => ?_⟩
    · rw [firstRejection_rejected rfl, Option.map_some, Option.map_some,
        hrecorded.count_rejectedRetry]
      rfl
    · dsimp only at hblocked
      split at hblocked <;> cases hblocked
    · obtain rfl := Option.some_inj.mp hretry
      refine iff_of_true ?_ rfl
      dsimp only at hqueued
      split at hqueued
      · assumption
      · cases hqueued
  | requeued hcurrent =>
    have hnotQueued : job.state ≠ .queued := by
      apply RunJob.not_queued_of_isActive
      rw [hfacts.active, hcurrent]
    refine ⟨hrecorded.counts, nofun, fun _ retry hretry => ?_⟩
    -- the attempt was dispatched, so no next one is planned
    refine iff_of_false ?_ nofun
    rw [hfacts.next_eq_none hnotQueued hretry]
    nofun
  | expired hretry hqueued hdue =>
    refine ⟨?_, nofun, nofun⟩
    have hcounts := hrecorded.counts
    rw [hretry] at hcounts
    exact hcounts
  | retried definition => exact ⟨rfl, fun _ => rfl, fun _ => nofun⟩

/-- A history that is recorded stays bounded, whatever happens to the job. -/
theorem JobChange.bounded {event : JobEvent} (h : JobChange now job (some event) job')
    (hfacts : job.Facts) (hfacts' : job'.Facts) (hrecorded : RetryRecorded job history)
    (hbounded : HistoryBounded history) (hnow : now ≤ U64.maxU64) :
    HistoryBounded (⟨event, now, job⟩ :: history) := by
  refine hbounded.cons ((h.recorded hfacts hrecorded).length_le hfacts') ?_ ?_ hnow
  · rintro rfl first hfirst
    cases h with
    | dispatched hqueued hfree =>
      cases hretry : job.capacityRetry with
      | none =>
        rw [firstRejection, hrecorded.of_none hretry] at hfirst
        cases hfirst
      | some retry =>
        rw [(hrecorded.retry hretry).1] at hfirst
        obtain rfl := Option.some_inj.mp hfirst
        exact RunJob.lt_of_not_retryBlocksDispatch hfree hretry
  · rintro rfl
    cases h with
    | expired hretry hqueued hdue =>
      rw [← hrecorded.waiting hqueued _ hretry]
      simp [HistoryEntry.Planned, hretry]

end Change

/-! ## Whole runs -/

/-- A run together with the history of its job at `j`, newest first. -/
structure Watched where
  state : RunAggregate
  history : List HistoryEntry
  deriving DecidableEq

namespace Watched

def Created (w : Watched) : Prop := w.state.Created ∧ w.history = []

/-- The run after a successful call, with the event the call was for the job, if any. -/
def perform? (j : ℕ) (w : Watched) (call : RunAggregate.Call) : Option Watched :=
  match call.perform.run w.state, w.state.jobs[j]? with
  | .ok _ state', some job => (state'.jobs[j]?).map fun job' =>
    ⟨state', ((call.event? j job job').map (⟨·, call.nowUnix, job⟩)).toList ++ w.history⟩
  | _, _ => none

/-- A call at any time that fits 64 bits. One that fails is rolled back. -/
def Step (j : ℕ) (w w' : Watched) : Prop :=
  ∃ call, call.nowUnix ≤ U64.maxU64 ∧ w.perform? j call = some w'

abbrev Reachable (j : ℕ) : Watched → Prop := Transition.Reachable Created (Step j)

theorem perform?_eq_some {j : ℕ} {w w' : Watched} {call : RunAggregate.Call}
    (h : w.perform? j call = some w') : ∃ job job', call.perform.run w.state = .ok () w'.state ∧
      w.state.jobs[j]? = some job ∧ w'.state.jobs[j]? = some job' ∧
      w'.history = ((call.event? j job job').map (⟨·, call.nowUnix, job⟩)).toList ++ w.history := by
  unfold perform? at h
  split at h
  · rename_i u state' job hcall hjob
    obtain ⟨job', hjob', rfl⟩ := Option.map_eq_some_iff.mp h
    exact ⟨job, job', hcall, hjob, hjob', rfl⟩
  · cases h

theorem Reachable.state {j : ℕ} {w : Watched} (h : Reachable j w) :
    RunAggregate.Reachable w.state := by
  refine h.invariant (fun w => RunAggregate.Reachable w.state) (fun _ hw => .of_init hw.1) ?_
  rintro before after _ hreach ⟨call, -, hperform⟩
  obtain ⟨-, -, hcall, -⟩ := perform?_eq_some hperform
  rcases RunAggregate.Call.step hcall with hsame | hstep
  · exact hsame ▸ hreach
  · exact hreach.tail hstep

theorem Reachable.jobFacts {j : ℕ} {w : Watched} (h : Reachable j w) {job : RunJob}
    (hjob : w.state.jobs[j]? = some job) : job.Facts :=
  RunAggregate.Reachable.jobFacts (Reachable.state h) job (List.mem_of_getElem? hjob)

/-- In every run the record of the job counts its rejections, and its history is bounded. -/
theorem Reachable.recorded {j : ℕ} {w : Watched} (h : Reachable j w) :
    (∀ job ∈ w.state.jobs[j]?, RetryRecorded job w.history) ∧ HistoryBounded w.history := by
  refine h.invariant
    (fun w => (∀ job ∈ w.state.jobs[j]?, RetryRecorded job w.history) ∧ HistoryBounded w.history)
    ?_ ?_
  · rintro ⟨state, history⟩ ⟨hcreated, rfl : history = []⟩
    refine ⟨fun job hjob => ?_, fun _ hsuffix => ?_, fun _ _ hsuffix => ?_, fun _ _ hsuffix => ?_,
      nofun⟩
    · obtain ⟨hrun, hjobs⟩ := hcreated
      obtain rfl := RunAggregate.createRunJobs_eq_ok hjobs
      obtain ⟨definition, -, rfl⟩ := List.mem_map.mp (List.mem_of_getElem? hjob)
      exact ⟨rfl, fun _ => rfl, fun _ => nofun⟩
    · rw [List.suffix_nil.mp hsuffix]
      exact Nat.zero_le _
    · cases List.suffix_nil.mp hsuffix
    · cases List.suffix_nil.mp hsuffix
  · intro before after hreach ⟨hrecorded, hbounded⟩ hstep
    have hreach' : Reachable j after := hreach.tail hstep
    obtain ⟨call, hnow, hperform⟩ := hstep
    obtain ⟨job, job', hcall, hjob, hjob', hhistory⟩ := perform?_eq_some hperform
    have hfacts := Reachable.jobFacts hreach hjob
    have hchange := RunAggregate.Call.jobChange hcall hjob hjob'
    rw [hjob', hhistory]
    cases hevent : call.event? j job job' with
    | none =>
      rw [hevent] at hchange
      obtain ⟨hkept⟩ := hchange
      refine ⟨?_, hbounded⟩
      rintro _ ⟨⟩
      exact (hrecorded job hjob).of_kept hkept
    | some event =>
      rw [hevent] at hchange
      refine ⟨?_, hchange.bounded hfacts (Reachable.jobFacts hreach' hjob') (hrecorded job hjob) hbounded hnow⟩
      rintro _ ⟨⟩
      exact hchange.recorded hfacts (hrecorded job hjob)

end Watched

/-- A planned attempt lies in the window and its job waits for it, and no count is near the end of
its range. -/
structure RunJob.RetryInRange (job : RunJob) : Prop where
  planned : ∀ retry ∈ job.capacityRetry, ∀ next ∈ retry.nextAttemptAtUnix, job.state = .queued ∧
    retry.firstRejectedAtUnix < next ∧
    next < retry.firstRejectedAtUnix + capacityRetryWindowSeconds
  rejections : ∀ retry ∈ job.capacityRetry, 0 < retry.rejections ∧
    retry.rejections + 1 ≤ U64.maxU32
  times : ∀ retry ∈ job.capacityRetry, retry.firstRejectedAtUnix ≤ U64.maxU64 ∧
    ∀ next ∈ retry.nextAttemptAtUnix, next ≤ U64.maxU64
  attempts : job.lastAttemptNumber + 1 ≤ U64.maxU32

theorem firstRejection_mem {history : List HistoryEntry} {first : ℕ}
    (h : firstRejection history = some first) : ∃ entry ∈ history, entry.nowUnix = first := by
  have hmem : ∀ time ∈ rejectionTimes history, ∃ entry ∈ history, entry.nowUnix = time := by
    clear h
    induction history with
    | nil => nofun
    | cons entry older ih =>
      have holder : ∀ time ∈ rejectionTimes older,
          ∃ other ∈ entry :: older, other.nowUnix = time := by
        intro time htime
        obtain ⟨other, hother, heq⟩ := ih time htime
        exact ⟨other, List.mem_cons_of_mem _ hother, heq⟩
      intro time htime
      unfold rejectionTimes at htime
      split at htime
      · cases htime
      · rcases List.mem_cons.mp htime with rfl | htime
        · exact ⟨entry, List.mem_cons_self, rfl⟩
        · exact holder time htime
      · exact holder time htime
  exact hmem first (List.mem_of_getLast? h)

theorem RetryRecorded.inRange {job : RunJob} {history : List HistoryEntry}
    (h : RetryRecorded job history) (hfacts : job.Facts)
    (htimes : ∀ entry ∈ history, entry.nowUnix ≤ U64.maxU64) : job.RetryInRange := by
  have hconsistent : ∀ retry ∈ job.capacityRetry, ¬ job.retryInconsistent retry := hfacts.retry
  simp only [RunJob.retryInconsistent, not_or, not_lt, not_exists, not_and, not_le, not_not]
    at hconsistent
  refine ⟨fun retry hretry next hnext => ?_, fun retry hretry => ?_, fun retry hretry => ⟨?_, ?_⟩,
    ?_⟩
  · obtain ⟨hfirst, hdeadline, -, hqueued⟩ := (hconsistent retry hretry).2.2.2.2 next hnext
    exact ⟨hqueued, hfirst, hdeadline.trans_le (U64.saturatingAdd_le _ _)⟩
  · obtain ⟨hpos, hmax, -⟩ := hconsistent retry hretry
    refine ⟨Nat.pos_of_ne_zero hpos, ?_⟩
    simp only [maxCapacityRetries] at hmax
    simp only [U64.maxU32]
    omega
  · obtain ⟨entry, hentry, heq⟩ := firstRejection_mem (h.retry hretry).1
    exact heq ▸ htimes entry hentry
  · intro next hnext
    obtain ⟨-, hdeadline, -⟩ := (hconsistent retry hretry).2.2.2.2 next hnext
    exact hdeadline.le.trans (U64.saturatingAdd_le_max _ _)
  · have hlimit := hfacts.limit
    simp only [maxRunAttempts] at hlimit
    simp only [U64.maxU32]
    omega

namespace Watched

/-- In every run the rejections of a job between two retries are bounded, its dispatches after the
first one stay in the window and so does its next attempt. The jobs that fail because the window
closed were all put back by a rejection, exactly if each of them had a next attempt planned. -/
theorem Reachable.capacity_only_iff {j : ℕ} {w : Watched} (h : Reachable j w) :
    (∀ older, older <:+ w.history → (rejectionTimes older).length ≤ maxCapacityRetries + 1) ∧
    (∀ entry older, entry :: older <:+ w.history → entry.event = .dispatched →
      ∀ first ∈ firstRejection older,
        entry.nowUnix < first + capacityRetryWindowSeconds) ∧
    (∀ job ∈ w.state.jobs[j]?, job.RetryInRange) ∧
    ((∀ entry older, entry :: older <:+ w.history → entry.event = .expired →
        lastPutBack older = some .rejected) ↔
      ∀ entry ∈ w.history, entry.event = .expired → entry.Planned) := by
  obtain ⟨hrecorded, hbounded⟩ := Reachable.recorded h
  refine ⟨hbounded.rejections, hbounded.dispatches, fun job hjob => ?_, fun hall entry hentry => ?_,
    fun hall entry older hsuffix hevent => ?_⟩
  · exact (hrecorded job hjob).inRange (Reachable.jobFacts h hjob) hbounded.times
  · intro hevent
    obtain ⟨newer, older, hhistory⟩ := List.append_of_mem hentry
    have hsuffix : entry :: older <:+ w.history := ⟨newer, hhistory.symm⟩
    exact (hbounded.expirations entry older hsuffix hevent).mp (hall entry older hsuffix hevent)
  · exact (hbounded.expirations entry older hsuffix hevent).mpr
      (hall entry (hsuffix.subset List.mem_cons_self) hevent)

/-! ## A run whose dispatch is lost -/

namespace SmallRun

open RunAggregate.SmallRun

def created : Watched := ⟨RunAggregate.SmallRun.created, []⟩

def message : SetupFailureMessage := ⟨"provider full", by decide⟩

/-- The first attempt is rejected for lack of capacity. -/
def rejection : List RunAggregate.Call :=
  [.dispatch 0 buildJob "attempt" token "1" 100 200,
    .attempt 0 0 (.rejectCapacity token message 101)]

/-- The second attempt gets capacity, but is lost before it starts. -/
def loss : List RunAggregate.Call :=
  [.dispatch 0 buildJob "second" token "1" 111 120, .attempt 0 1 (.expire 120)]

def expiration : RunAggregate.Call := .expireCapacityRetry 0 221

def run (calls : List RunAggregate.Call) : Option Watched :=
  calls.foldlM
    (fun w call => if call.nowUnix ≤ U64.maxU64 then w.perform? 0 call else none) created

theorem reachable_of_run {calls : List RunAggregate.Call} {w : Watched}
    (h : run calls = some w) : Reachable 0 w := by
  refine Transition.Reachable.foldlM (fun w call w' hcall => ?_)
    (.of_init ⟨RunAggregate.SmallRun.created_isCreated, rfl⟩) h
  split_ifs at hcall with hnow
  exact ⟨call, hnow, hcall⟩

end SmallRun

/-- The window of a rejected job closes before its second attempt. -/
theorem capacity_only_after_rejection : ∃ w,
    SmallRun.run (SmallRun.rejection ++ [SmallRun.expiration]) = some w ∧
      w.history.map (·.event) = [.expired, .rejected, .dispatched] ∧
      ∀ entry older, entry :: older <:+ w.history → entry.event = .expired →
        lastPutBack older = some .rejected := by
  have hreach :=
    @SmallRun.reachable_of_run (SmallRun.rejection ++ [SmallRun.expiration]) _ rfl
  exact ⟨_, rfl, rfl, (Reachable.capacity_only_iff hreach).2.2.2.mpr (by decide)⟩

/-- A job that had capacity and lost its runner fails when the window of its earlier rejection
closes. -/
theorem not_capacity_only : ¬ ∀ (j : ℕ) (w : Watched), Reachable j w → ∀ entry older,
    entry :: older <:+ w.history → entry.event = .expired → lastPutBack older = some .rejected := by
  intro h
  have hlast := h 0 _ (@SmallRun.reachable_of_run
    (SmallRun.rejection ++ SmallRun.loss ++ [SmallRun.expiration]) _ rfl) _ _ List.suffix_rfl rfl
  exact absurd hlast (by decide)

end Watched

end ScopeVcs

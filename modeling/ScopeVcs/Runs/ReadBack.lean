import ScopeVcs.Runs.AttemptHistory
import ScopeVcs.Runs.Restore

/-! # Every run can be read back

As long as no caller's clock is behind the times that an operation overwrites without comparing,
all records of a run pass the checks of `restore`. The invariant relates an active attempt and its
steps to the time of the last update of its job, which every operation does compare.
-/

namespace ScopeVcs

open Mutation Relation

/-! ## Attempts -/

namespace RunAttempt

variable {attempt : RunAttempt} {steps : List RunAttemptStep}

/-- What `RunAttempt::restore` checks. No operation sets an external run id or logs bytes. -/
structure Facts (attempt : RunAttempt) : Prop where
  token : isSha256Hash attempt.tokenHash = true
  idGiven : Text.isBlank attempt.id = false
  runIdGiven : Text.isBlank attempt.runId = false
  external : attempt.externalRunId = none
  versionGiven : Text.isBlank attempt.runtimeVersion = false
  number : attempt.number ≠ 0
  logs : attempt.logBytes ≤ maxRunLogBytesPerAttempt
  started : attempt.state ∈ [.running, .succeeded] → attempt.startedAtUnix ≠ none
  ended : attempt.state.isTerminal = attempt.completedAtUnix.isSome
  heartbeat : attempt.createdAtUnix ≤ attempt.lastHeartbeatAtUnix
  lease : attempt.lastHeartbeatAtUnix < attempt.leaseExpiresAtUnix
  startedIn : ∀ started ∈ attempt.startedAtUnix,
    attempt.createdAtUnix ≤ started ∧ started < attempt.leaseExpiresAtUnix
  completed : ∀ completed ∈ attempt.completedAtUnix, attempt.lastHeartbeatAtUnix ≤ completed
  times : ∀ started ∈ attempt.startedAtUnix, ∀ completed ∈ attempt.completedAtUnix,
    started ≤ completed
  reason : attempt.validateTerminalReason = .ok ()

theorem Facts.restore (h : attempt.Facts) : RunAttempt.restore attempt = .ok attempt := by
  have htimes : ¬ attempt.timestampsInconsistent := by
    simp only [timestampsInconsistent, not_or, not_exists, not_and, not_lt, not_le]
    exact ⟨h.heartbeat, h.lease, h.startedIn, h.completed, h.times⟩
  have hfacts : attempt.validateFacts = .ok () := by
    simp only [validateFacts, except_unit_bind_eq_ok, rejectIf_eq_ok, not_and, not_lt, ne_eq,
      not_not]
    exact ⟨h.number, h.logs, h.started, h.ended, htimes, h.reason⟩
  have hexternal : attempt.externalRunId.mapM (required "external run id") =
      (.ok attempt.externalRunId : Except DomainError _) := by
    rw [h.external]
    rfl
  have htoken : validateSha256Hash "attempt token hash" attempt.tokenHash = .ok () :=
    validateSha256Hash_eq_ok.mpr h.token
  rw [RunAttempt.restore, htoken,
    required_eq_ok.mpr ⟨h.idGiven, rfl⟩, required_eq_ok.mpr ⟨h.runIdGiven, rfl⟩, hexternal,
    required_eq_ok.mpr ⟨h.versionGiven, rfl⟩]
  show (attempt.validateFacts >>= fun _ => pure attempt) = _
  rw [hfacts]
  rfl

/-- A stored attempt with its steps passes every check. -/
structure Readable (attempt : RunAttempt) (steps : List RunAttemptStep) : Prop where
  facts : attempt.Facts
  steps_ne_nil : steps ≠ []
  inOrder : StepsInOrder attempt.id steps
  aggregate : attempt.aggregateMatches steps = true

theorem Readable.restore_steps (h : Readable attempt steps) {step : RunAttemptStep}
    (hstep : step ∈ steps) : RunAttemptStep.restore step = .ok step := by
  have hid : step.identity ∈ (List.range' 0 steps.length).map (attempt.id, ·) :=
    h.inOrder.identity ▸ List.mem_map.mpr ⟨step, hstep, rfl⟩
  obtain ⟨index, -, hindex⟩ := List.mem_map.mp hid
  have hgiven : Text.isBlank step.attemptId = false :=
    (Prod.mk.inj hindex).1 ▸ h.facts.idGiven
  exact RunAttemptStep.restore_eq_ok hgiven (h.inOrder.consistent step hstep)

/-! ## What an active attempt looks like -/

theorem pending_of_dispatching (h : attempt.aggregateMatches steps = true)
    (hstate : attempt.state = .dispatching) :
    attempt.terminalReason = none ∧ ∀ step ∈ steps, step.state = .pending := by
  unfold aggregateMatches at h
  rw [hstate] at h
  split at h <;> simp_all

theorem underway_of_active (h : attempt.aggregateMatches steps = true)
    (hactive : attempt.state.isTerminal = false) :
    attempt.terminalReason = none ∧ ∀ step ∈ steps, step.underway := by
  cases hstate : attempt.state with
  | dispatching =>
    obtain ⟨hreason, hsteps⟩ := pending_of_dispatching h hstate
    exact ⟨hreason, fun step hstep => .inr (.inr (hsteps step hstep))⟩
  | running =>
    unfold aggregateMatches at h
    rw [hstate] at h
    split at h <;> simp_all [RunAttemptStep.underway]
  | _ =>
    rw [hstate] at hactive
    cases hactive

theorem aggregateMatches_running (hstate : attempt.state = .running)
    (hreason : attempt.terminalReason = none) (hsteps : ∀ step ∈ steps, step.underway) :
    attempt.aggregateMatches steps = true := by
  simp only [aggregateMatches, hstate, hreason, List.all_eq_true, decide_eq_true_eq]
  intro step hstep
  rcases hsteps step hstep with h | h | h <;> simp [h]

/-! ## Endings -/

/-- The steps that an ending leaves are in order and match the state and the reason. -/
theorem readable_of_endsAs {held : Held} {now : ℕ} {state : AttemptState}
    {reason : Option AttemptTerminalReason} {steps : List RunAttemptStep}
    (h : EndsAs held now state reason steps) (hread : Readable held.attempt held.steps)
    (hactive : held.attempt.state.isTerminal = false)
    (hstarted : held.attempt.state = .dispatching → held.attempt.startedAtUnix = none)
    (htimes : ∀ step ∈ held.steps, ∀ started ∈ step.startedAtUnix, started ≤ now) :
    steps ≠ [] ∧ StepsInOrder held.attempt.id steps ∧
      { held.attempt with
        state, terminalReason := reason, completedAtUnix := some now }.aggregateMatches steps =
        true := by
  have hsteps := hread.inOrder
  obtain ⟨-, hunderway⟩ := underway_of_active hread.aggregate hactive
  have hskip : skipPendingSteps held.steps now ≠ [] := by
    simpa [skipPendingSteps] using hread.steps_ne_nil
  have hinterrupt : ∀ state, (interruptSteps held.steps state now).1 ≠ [] := by
    intro state
    rw [← List.length_pos_iff, length_interruptSteps, List.length_pos_iff]
    exact hread.steps_ne_nil
  have hskipped : held.attempt.state = .dispatching →
      ∀ s ∈ skipPendingSteps held.steps now, s.state = .skipped := fun hdispatching =>
    all_skipped_of_all_pending (pending_of_dispatching hread.aggregate hdispatching).2
  cases h with
  | succeeded hrunning hall =>
    exact ⟨hread.steps_ne_nil, hsteps, by simpa [aggregateMatches] using hall⟩
  | succeededCanceled hrunning hall =>
    refine ⟨hread.steps_ne_nil, hsteps, ?_⟩
    simp only [aggregateMatches, interruptedStepMatches, List.all_eq_true, decide_eq_true_eq]
    exact fun step hstep => by simp [hall step hstep]
  | setupFailed hdispatching hexit =>
    refine ⟨hskip, hsteps.skipPendingSteps now, ?_⟩
    simp only [aggregateMatches, Bool.and_eq_true, List.all_eq_true, decide_eq_true_eq]
    exact ⟨by simpa using hexit, hskipped hdispatching⟩
  | timedOut =>
    exact ⟨hinterrupt _, interruptSteps_inOrder hsteps (.inl rfl) htimes,
      interruptSteps_matches hsteps hunderway (.inl rfl)⟩
  | canceled =>
    exact ⟨hinterrupt _, interruptSteps_inOrder hsteps (.inl rfl) htimes,
      interruptSteps_matches hsteps hunderway (.inl rfl)⟩
  | lost =>
    exact ⟨hinterrupt _, interruptSteps_inOrder hsteps (.inr rfl) htimes,
      interruptSteps_matches hsteps hunderway (.inr rfl)⟩
  | exhausted hdispatching hnumber =>
    refine ⟨hinterrupt _, interruptSteps_inOrder hsteps (.inr rfl) htimes, ?_⟩
    have hpending := (pending_of_dispatching hread.aggregate hdispatching).2
    have hnone : held.steps.findIdx? (fun step => step.state = .running) = none := by
      rw [List.findIdx?_eq_none_iff]
      intro step hstep
      simp [hpending step hstep]
    simp only [aggregateMatches, interruptSteps, hnone, hstarted hdispatching, hnumber,
      Bool.and_eq_true, List.all_eq_true, decide_eq_true_eq]
    exact ⟨⟨trivial, trivial⟩, hskipped hdispatching⟩
  | capacityRejected hdispatching hnone =>
    refine ⟨hskip, hsteps.skipPendingSteps now, ?_⟩
    simp only [aggregateMatches, hnone, Bool.and_eq_true, List.all_eq_true, decide_eq_true_eq]
    exact ⟨trivial, hskipped hdispatching⟩
  | @stepFailed i exitCode step hstep hrunning hexit =>
    have hmem : step ∈ held.steps := List.mem_of_getElem? hstep
    have hafter := hsteps.unstarted_after hstep (by simp [hrunning])
    have hfailed := (hsteps.consistent step hmem).fail hrunning (htimes step hmem) hexit
    have horder := hsteps.modify (f := (·.fail exitCode now)) hstep
      (hsteps.succeeded_before hstep hrunning) hafter rfl hfailed
    have hlt := (List.getElem?_eq_some_iff.mp hstep).1
    have htake : ∀ s ∈ (held.steps.modify i (·.fail exitCode now)).take (i + 1),
        s.state ≠ .pending := by
      intro s hs
      obtain ⟨k, hk⟩ := List.mem_iff_getElem?.mp hs
      rw [List.getElem?_take] at hk
      split_ifs at hk with hle
      rcases Nat.lt_succ_iff_lt_or_eq.mp hle with hlt' | rfl
      · rw [List.getElem?_modify_ne _ _ (Nat.ne_of_gt hlt')] at hk
        have hbefore := hsteps.succeeded_before hstep hrunning s
          (List.mem_iff_getElem?.mpr ⟨k, by rw [List.getElem?_take_of_lt hlt', hk]⟩)
        simp [hbefore]
      · rw [List.getElem?_modify_eq, hstep] at hk
        obtain rfl := Option.some_inj.mp hk
        simp [RunAttemptStep.fail]
    have hskipAll : (failStep held i exitCode now).steps =
        skipPendingSteps (held.steps.modify i (·.fail exitCode now)) now :=
      take_append_skipPendingSteps htake
    rw [hskipAll]
    refine ⟨?_, horder.skipPendingSteps now, ?_⟩
    · simpa [skipPendingSteps] using hread.steps_ne_nil
    · have hget : (skipPendingSteps (held.steps.modify i (·.fail exitCode now)) now)[i]? =
          some (step.fail exitCode now) := by
        simp [skipPendingSteps, hstep, RunAttemptStep.fail]
      simp only [aggregateMatches, terminalStepMatches, hget, Bool.and_eq_true, List.all_eq_true,
        decide_eq_true_eq]
      refine ⟨⟨rfl, by simp [RunAttemptStep.fail]⟩, skipped_after fun s hs => ?_⟩
      rw [List.drop_modify_of_lt _ _ _ _ (Nat.lt_succ_self i)] at hs
      exact (hunderway s (List.mem_of_mem_drop hs)).pending_of_unstarted (hafter s hs)

end RunAttempt

/-! ## Changes on an attempt -/

/-- How an active attempt and its job agree: the attempt starts when it leaves `dispatching`, and
nothing it recorded as started is later than the last update of the job. -/
structure Coupled (attempt : RunAttempt) (steps : List RunAttemptStep) (job : RunJob) : Prop where
  active : job.isActive = true
  dispatching : attempt.state = .dispatching → attempt.startedAtUnix = none
  started : ∀ started ∈ attempt.startedAtUnix, started ≤ job.updatedAtUnix
  steps : ∀ step ∈ steps, ∀ started ∈ step.startedAtUnix, started ≤ job.updatedAtUnix

structure Held.Sound (held : Held) : Prop where
  attempt : RunAttempt.Readable held.attempt held.steps
  job : held.job.Facts
  coupled : held.attempt.state.isTerminal = false →
    Coupled held.attempt held.steps held.job

/-- What holds of all steps, and of each after the change, holds of the changed list. -/
theorem forall_mem_modify {P : RunAttemptStep → Prop} {steps : List RunAttemptStep} (i : ℕ)
    (f : RunAttemptStep → RunAttemptStep) (h : ∀ step ∈ steps, P step)
    (hf : ∀ step ∈ steps, P (f step)) : ∀ step ∈ steps.modify i f, P step := by
  intro step hstep
  obtain ⟨k, hk⟩ := List.mem_iff_getElem?.mp hstep
  rw [List.getElem?_modify] at hk
  obtain ⟨old, hold, rfl⟩ := Option.map_eq_some_iff.mp hk
  have hmem := List.mem_of_getElem? hold
  split
  · exact hf old hmem
  · exact h old hmem

/-- A job that is on a runner may be updated at any later time, and start running. -/
theorem RunJob.Facts.update {job : RunJob} (h : job.Facts) (hactive : job.isActive = true)
    {state : RunJobState} {now : ℕ} (hstate : state = .dispatching ∨ state = .running)
    (htime : job.updatedAtUnix ≤ now) :
    { job with state, updatedAtUnix := now : RunJob }.Facts := by
  have hterm : job.state.isTerminal = false := by
    simp only [RunJob.isActive, decide_eq_true_eq] at hactive
    rcases hactive with h | h <;> simp [h, RunJobState.isTerminal]
  have hnotQueued : job.state ≠ .queued := by
    intro hqueued
    simp [RunJob.isActive, hqueued] at hactive
  have hnone : job.completedAtUnix = none := by
    have hended := h.ended
    simpa [hterm] using hended
  have hterm' : state.isTerminal = false := by
    rcases hstate with rfl | rfl <;> rfl
  refine ⟨h.runIdGiven, ?_, by simp [hterm', hnone], h.limit, fun retry hretry => ?_,
    h.created.trans htime, by simp [hnone], fun _ => h.rejections hterm⟩
  · rw [← h.active, hactive]
    rcases hstate with rfl | rfl <;> rfl
  · apply h.retry_later hnotQueued _ _ hretry
    · rfl
    · exact htime

/-- The retry facts after a rejection are consistent with the job they leave. -/
theorem RunJob.Facts.rejectedRetry {job : RunJob} (h : job.Facts)
    (hterm : job.state.isTerminal = false) {now : ℕ} (htime : job.updatedAtUnix ≤ now) :
    ¬ RunJob.retryInconsistent { job with
      capacityRetry := some (job.rejectedRetry now)
      state := if (job.rejectedRetry now).nextAttemptAtUnix.isSome then .queued else .failed
      currentAttemptId := none
      updatedAtUnix := now
      completedAtUnix :=
        if (job.rejectedRetry now).nextAttemptAtUnix.isSome then none else some now }
      (job.rejectedRetry now) := by
  have hprevious : (job.rejectedRetry now).rejections ≠ 0 ∧
      (job.rejectedRetry now).rejections ≤ maxCapacityRetries + 1 ∧
      job.createdAtUnix ≤ (job.rejectedRetry now).firstRejectedAtUnix ∧
      (job.rejectedRetry now).firstRejectedAtUnix ≤ now := by
    cases hretry : job.capacityRetry with
    | none =>
      simp only [RunJob.rejectedRetry, hretry, Option.elim_none]
      exact ⟨by simp, by simp [maxCapacityRetries], h.created.trans htime, le_rfl⟩
    | some retry =>
      have hconsistent := h.retry retry hretry
      simp only [RunJob.retryInconsistent, not_or, not_lt] at hconsistent
      simp only [RunJob.rejectedRetry, hretry, Option.elim_some]
      exact ⟨by simp, Nat.succ_le_succ (h.rejections hterm retry hretry), hconsistent.2.2.1,
        hconsistent.2.2.2.1.trans htime⟩
  simp only [RunJob.retryInconsistent, not_or, not_lt, not_exists, not_and, not_le, not_not]
  refine ⟨hprevious.1, hprevious.2.1, hprevious.2.2.1, hprevious.2.2.2, fun next hnext => ?_⟩
  rw [hnext, Option.isSome_some, if_pos rfl]
  simp only [RunJob.rejectedRetry, Option.mem_def] at hnext
  split at hnext
  · rename_i hallowed
    obtain ⟨hrejections, -, hdeadline⟩ := hallowed
    obtain rfl := Option.some_inj.mp hnext
    refine ⟨?_, hdeadline, hrejections, rfl⟩
    -- the next attempt lies before a deadline, so its time has not saturated
    have hlt := hdeadline.trans_le (U64.saturatingAdd_le_max _ _)
    rw [U64.saturatingAdd_of_lt hlt]
    have hdelay := RunJob.capacityRetryDelay_pos (job.capacityRetry.elim 1 (·.rejections + 1))
    have hfirst := hprevious.2.2.2
    omega
  · cases hnext

theorem RunJob.isTerminal_of_isActive {job : RunJob} (h : job.isActive = true) :
    job.state.isTerminal = false := by
  simp only [RunJob.isActive, decide_eq_true_eq] at h
  rcases h with h | h <;> simp [h, RunJobState.isTerminal]

theorem RunJob.not_queued_of_isActive {job : RunJob} (h : job.isActive = true) :
    job.state ≠ .queued := by
  intro hqueued
  simp [RunJob.isActive, hqueued] at h

theorem JobEndsAs.facts {job job' : RunJob} {now : ℕ} (h : JobEndsAs job now job')
    (hfacts : job.Facts) (hactive : job.isActive = true) (htime : job.updatedAtUnix ≤ now) :
    job'.Facts := by
  have hterm := RunJob.isTerminal_of_isActive hactive
  have hretry : ∀ {job' : RunJob}, job'.createdAtUnix = job.createdAtUnix →
      job.updatedAtUnix ≤ job'.updatedAtUnix → ∀ retry ∈ job.capacityRetry,
        ¬ job'.retryInconsistent retry := fun hcreated hlater retry hretry =>
    hfacts.retry_later (RunJob.not_queued_of_isActive hactive) hcreated hlater hretry
  have hnone : job.completedAtUnix = none := by
    have hended := hfacts.ended
    simpa [hterm] using hended
  cases h with
  | @terminal state hstate =>
    have hended : state.isTerminal = true ∧ state ≠ .dispatching ∧ state ≠ .running := by
      revert hstate
      cases state <;> simp [RunJobState.isTerminal]
    refine ⟨hfacts.runIdGiven, by simp [RunJob.isActive, hended], hended.1, hfacts.limit,
      hretry ?_ ?_, hfacts.created.trans htime, by simp, by simp [hended]⟩
    · rfl
    · exact htime
  | requeued =>
    refine ⟨hfacts.runIdGiven, rfl, by simp [RunJobState.isTerminal, hnone], hfacts.limit,
      hretry ?_ ?_, hfacts.created.trans htime, by simp [hnone], fun _ => hfacts.rejections hterm⟩
    · rfl
    · exact htime
  | rejected =>
    refine ⟨hfacts.runIdGiven, ?_, ?_, hfacts.limit, ?_, hfacts.created.trans htime, ?_, ?_⟩
    · simp only [RunJob.isActive]
      split <;> rfl
    · dsimp only
      split <;> rfl
    · rintro retry ⟨⟩
      exact hfacts.rejectedRetry hterm htime
    · intro completed hcompleted
      dsimp only at hcompleted
      split at hcompleted
      · cases hcompleted
      · exact (Option.some_inj.mp hcompleted).symm
    · rintro hwaiting retry ⟨⟩
      dsimp only at hwaiting
      split at hwaiting
      · rename_i hnext
        simp only [RunJob.rejectedRetry] at hnext ⊢
        split at hnext
        · rename_i hallowed
          exact hallowed.1
        · cases hnext
      · cases hwaiting

/-- Every change on an attempt keeps the facts of its job, at whatever time it is made. -/
theorem HeldStep.jobFacts {clock : Prop} {now : ℕ} {held held' : Held}
    (h : HeldStep clock now held held') (hjob : held.job.Facts) : held'.job.Facts := by
  have hactive : held.job.isActive = true := by
    rw [hjob.active, h.frame.current.id]
    rfl
  have hstate : held.job.state = .dispatching ∨ held.job.state = .running := by
    simpa [RunJob.isActive] using hactive
  cases h with
  | claim | renew | truncate => exact hjob
  | start hcur hdispatching hheartbeat hlease htime => exact hjob.update hactive (.inr rfl) htime
  | startStep hcur hrunning hstep hpending hbefore htime => exact hjob.update hactive hstate htime
  | succeedStep hcur hunended hstep hrunning htime => exact hjob.update hactive hstate htime
  | finish hcur hunended htime hclock hends hjobEnds => exact hjobEnds.facts hjob hactive htime

/-- Every change on an attempt keeps what is sound, if the clock of the caller is not behind. -/
theorem HeldStep.sound {clock : Prop} {now : ℕ} {held held' : Held}
    (h : HeldStep clock now held held') (hc : clock) (hs : held.Sound) : held'.Sound := by
  have hactive := h.frame.active
  obtain ⟨hread, hjob, hcoupled⟩ := hs
  obtain ⟨hfacts, hne, horder, haggregate⟩ := hread
  have hcouple := hcoupled hactive
  obtain ⟨hreason, hunderway⟩ := RunAttempt.underway_of_active haggregate hactive
  have hcompleted : held.attempt.completedAtUnix = none := by
    have hended := hfacts.ended
    simpa [hactive] using hended
  have hstate : held.job.state = .dispatching ∨ held.job.state = .running := by
    simpa [RunJob.isActive] using hcouple.active
  have htimes : ∀ {now : ℕ}, held.job.updatedAtUnix ≤ now → ∀ step ∈ held.steps,
      ∀ started ∈ step.startedAtUnix, started ≤ now := fun htime step hstep started hstarted =>
    (hcouple.steps step hstep started hstarted).trans htime
  cases h with
  | claim hcur hdispatching hlease htoken hclock =>
    have hstarted := hcouple.dispatching hdispatching
    exact
      { attempt := ⟨{ hfacts with
          token := htoken
          heartbeat := hclock hc
          lease := hlease
          startedIn := by simp [hstarted]
          completed := by simp [hcompleted] }, hne, horder, haggregate⟩
        job := hjob
        coupled := fun _ => { hcouple with } }
  | start hcur hdispatching hheartbeat hlease htime =>
    have hstartedIn : ∀ started ∈ some now, held.attempt.createdAtUnix ≤ started ∧
        started < held.attempt.leaseExpiresAtUnix := by
      rintro _ ⟨⟩
      exact ⟨hfacts.heartbeat.trans hheartbeat, hlease⟩
    exact
      { attempt := ⟨{ hfacts with
          started := by rintro _ ⟨⟩
          ended := by simp [hcompleted, AttemptState.isTerminal]
          startedIn := hstartedIn
          times := by simp [hcompleted]
          reason := by simp [RunAttempt.validateTerminalReason, hreason] }, hne, horder,
          RunAttempt.aggregateMatches_running rfl hreason hunderway⟩
        job := hjob.update hcouple.active (.inr rfl) htime
        coupled := fun _ => ⟨rfl, by rintro ⟨⟩, by simp, htimes htime⟩ }
  | renew hcur _ hheartbeat hlease hlonger =>
    have hstartedIn : ∀ started ∈ held.attempt.startedAtUnix,
        held.attempt.createdAtUnix ≤ started ∧ started < _ := fun started hstarted =>
      ⟨(hfacts.startedIn started hstarted).1, (hfacts.startedIn started hstarted).2.trans_le hlonger⟩
    exact
      { attempt := ⟨{ hfacts with
          heartbeat := hfacts.heartbeat.trans hheartbeat
          lease := hlease
          startedIn := hstartedIn
          completed := by simp [hcompleted] }, hne, horder, haggregate⟩
        job := hjob
        coupled := fun _ => { hcouple with } }
  | truncate hcur _ =>
    exact
      { attempt := ⟨{ hfacts with }, hne, horder, haggregate⟩
        job := hjob
        coupled := fun _ => { hcouple with } }
  | @startStep i step hcur hrunning hstep hpending hbefore htime =>
    have hstarted : (step.start now).Consistent :=
      (horder.consistent step (List.mem_of_getElem? hstep)).start hpending
    have hafter := horder.unstarted_after hstep (by simp [hpending])
    have hunderway' := forall_mem_modify i (·.start now) hunderway fun _ _ => .inr (.inl rfl)
    have htimes' := forall_mem_modify i (·.start now) (htimes htime) fun _ _ started hstarted =>
      (Option.some_inj.mp hstarted).ge
    exact
      { attempt := ⟨hfacts, by simpa using hne, horder.modify hstep hbefore hafter rfl hstarted,
          RunAttempt.aggregateMatches_running hrunning hreason hunderway'⟩
        job := hjob.update hcouple.active hstate htime
        coupled := fun _ => ⟨hcouple.active, hcouple.dispatching,
          fun started hstarted => (hcouple.started started hstarted).trans htime, htimes'⟩ }
  | @succeedStep i step hcur _ hstep hrunning htime =>
    have hmem := List.mem_of_getElem? hstep
    have hsucceeded : (step.succeed now).Consistent :=
      (horder.consistent step hmem).succeed hrunning (htimes htime step hmem)
    have hafter := horder.unstarted_after hstep (by simp [hrunning])
    have hunderway' := forall_mem_modify i (·.succeed now) hunderway fun _ _ => .inl rfl
    have htimes' := forall_mem_modify i (·.succeed now) (htimes htime) (htimes htime)
    -- a dispatching attempt has no running step
    have hattempt : held.attempt.state = .running := by
      cases hattempt : held.attempt.state with
      | running => rfl
      | dispatching =>
        have hpending := (RunAttempt.pending_of_dispatching haggregate hattempt).2 step hmem
        simp [hrunning] at hpending
      | _ =>
        rw [hattempt] at hactive
        cases hactive
    exact
      { attempt := ⟨hfacts, by simpa using hne, horder.modify hstep
          (horder.succeeded_before hstep hrunning) hafter rfl hsucceeded,
          RunAttempt.aggregateMatches_running hattempt hreason hunderway'⟩
        job := hjob.update hcouple.active hstate htime
        coupled := fun _ => ⟨hcouple.active, hcouple.dispatching,
          fun started hstarted => (hcouple.started started hstarted).trans htime, htimes'⟩ }
  | @finish state reason steps job hcur _ htime hclock hends hjobEnds halign =>
    obtain ⟨hne', horder', haggregate'⟩ := RunAttempt.readable_of_endsAs hends
      ⟨hfacts, hne, horder, haggregate⟩ hactive hcouple.dispatching (htimes htime)
    have hterm := hends.isTerminal
    have hstarted : state ∈ [.running, .succeeded] → held.attempt.startedAtUnix ≠ none := by
      intro hmem
      cases hends with
      | succeeded hrunning => exact hfacts.started (by simp [hrunning])
      | _ => simp at hmem
    have hreason' : RunAttempt.validateTerminalReason { held.attempt with
        state, terminalReason := reason, completedAtUnix := some now } = .ok () := by
      cases hends <;> simp [RunAttempt.validateTerminalReason]
    exact
      { attempt := ⟨{ hfacts with
          started := hstarted
          ended := hterm
          completed := by simpa using hclock hc
          times := fun started hstarted completed hcompleted => by
            obtain rfl := Option.some_inj.mp hcompleted
            exact (hcouple.started started hstarted).trans htime
          reason := hreason' }, hne', horder', haggregate'⟩
        job := hjobEnds.facts hjob hcouple.active htime
        coupled := fun hactive' => absurd hterm (by simpa using hactive') }

/-! ## Dispatch -/

/-- The step that has not started, at one position. -/
def pendingStep (attemptId : String) (index : ℕ) : RunAttemptStep :=
  ⟨attemptId, index, .pending, none, none, none⟩

theorem mapM_pending_eq_ok {attemptId : String} {steps : List WorkflowStep} {start : ℕ}
    {result : List RunAttemptStep}
    (h : (steps.zipIdx start).mapM (fun (_, index) => do
        rejectIf (U64.maxU32 < index) (DomainError.conflict "workflow step index overflow")
        RunAttemptStep.pending attemptId index) = .ok result) :
    result = (List.range' start steps.length).map (pendingStep attemptId) := by
  induction steps generalizing start result with
  | nil =>
    cases h
    rfl
  | cons step steps ih =>
    simp only [List.zipIdx_cons, List.mapM_cons, except_bind_eq_ok] at h
    obtain ⟨first, ⟨_, -, hfirst⟩, rest, hrest, h⟩ := h
    cases h
    rw [List.length_cons, List.range'_succ, List.map_cons, ih hrest]
    unfold RunAttemptStep.pending at hfirst
    split at hfirst
    · cases hfirst
    · cases hfirst
      rfl

theorem RunJob.pendingSteps_inOrder {attemptId : String} {definition : WorkflowJob}
    {steps : List RunAttemptStep} (h : RunJob.pendingSteps attemptId definition = .ok steps) :
    steps ≠ [] ∧ StepsInOrder attemptId steps ∧
      ∀ step ∈ steps, step.state = .pending ∧ step.startedAtUnix = none := by
  unfold RunJob.pendingSteps at h
  obtain rfl := mapM_pending_eq_ok h
  have hall : ∀ step ∈ (List.range' 0 definition.steps.length).map (pendingStep attemptId),
      ∃ index, step = pendingStep attemptId index := by
    intro step hstep
    obtain ⟨index, -, rfl⟩ := List.mem_map.mp hstep
    exact ⟨index, rfl⟩
  refine ⟨?_, ⟨?_, ?_, ?_⟩, ?_⟩
  · simpa [List.range'_eq_nil_iff] using definition.steps_ne_nil
  · rw [List.map_map, List.length_map, List.length_range']
    rfl
  · intro step hstep
    obtain ⟨index, rfl⟩ := hall step hstep
    exact ⟨fun _ => ⟨rfl, rfl, rfl⟩, nofun, rfl, nofun, rfl, by simp [pendingStep]⟩
  · exact List.pairwise_map.mpr (List.pairwise_of_forall fun _ _ _ => .inl rfl)
  · intro step hstep
    obtain ⟨index, rfl⟩ := hall step hstep
    exact ⟨rfl, rfl⟩

theorem Dispatched.jobFacts {run : Run} {definition : WorkflowJob}
    {attemptId tokenHash runtimeVersion : String} {now lease : ℕ} {job job' : RunJob}
    {result : RunAttempt × List RunAttemptStep}
    (h : Dispatched run definition attemptId tokenHash runtimeVersion now lease job result job')
    (hjob : job.Facts) : job'.Facts := by
  obtain rfl := h.jobAfter
  have hnone : job.completedAtUnix = none := by
    have hended := hjob.ended
    simpa [h.queued, RunJobState.isTerminal] using hended
  have hretry : ∀ retry ∈ (job.dispatched attemptId now).capacityRetry,
      ¬ (job.dispatched attemptId now).retryInconsistent retry := by
    intro retry hretry
    obtain ⟨old, hold, rfl⟩ := Option.mem_map.mp hretry
    exact RunJob.retry_withoutNext (hjob.retry old hold) rfl h.time
  have hrejections : ∀ retry ∈ (job.dispatched attemptId now).capacityRetry,
      retry.rejections ≤ maxCapacityRetries := by
    intro retry hretry
    obtain ⟨old, hold, rfl⟩ := Option.mem_map.mp hretry
    exact hjob.rejections (by simp [h.queued, RunJobState.isTerminal]) old hold
  exact ⟨hjob.runIdGiven, rfl, by simp [RunJob.dispatched, RunJobState.isTerminal, hnone],
    h.number, hretry, hjob.created.trans h.time, by simp [RunJob.dispatched, hnone],
    fun _ => hrejections⟩

theorem Dispatched.sound {run : Run} {definition : WorkflowJob}
    {attemptId tokenHash runtimeVersion : String} {now lease : ℕ} {job job' : RunJob}
    {attempt : RunAttempt} {steps : List RunAttemptStep}
    (h : Dispatched run definition attemptId tokenHash runtimeVersion now lease job
      (attempt, steps) job') (hrun : run.Facts) (hjob : job.Facts) :
    Held.Sound ⟨attempt, job', steps⟩ := by
  obtain ⟨hne, horder, hpending⟩ := RunJob.pendingSteps_inOrder h.steps
  have hjobFacts := h.jobFacts hjob
  obtain rfl : attempt = _ := h.attempt
  obtain rfl := h.jobAfter
  have haggregate : (job.newAttempt run attemptId tokenHash runtimeVersion now
      lease).aggregateMatches steps = true := by
    simp only [RunAttempt.aggregateMatches, RunJob.newAttempt, List.all_eq_true, decide_eq_true_eq]
    exact fun step hstep => (hpending step hstep).1
  exact
    { attempt := ⟨⟨h.tokenValid, h.idGiven, hrun.identified.id, rfl, h.versionGiven,
        Nat.succ_ne_zero _, Nat.zero_le _, by simp [RunJob.newAttempt], rfl, le_rfl, h.leaseAhead,
        by rintro _ ⟨⟩, by rintro _ ⟨⟩, by rintro _ ⟨⟩, rfl⟩, hne, horder, haggregate⟩
      job := hjobFacts
      coupled := fun _ => ⟨rfl, fun _ => rfl, by rintro _ ⟨⟩, fun step hstep => by
        simp [(hpending step hstep).2]⟩ }

/-! ## A clock that is behind -/

namespace RunAttempt

theorem restore_ne_ok {attempt attempt' : RunAttempt} (h : attempt.timestampsInconsistent) :
    RunAttempt.restore attempt ≠ .ok attempt' := by
  intro hrestore
  simp only [RunAttempt.restore, except_bind_eq_ok] at hrestore
  obtain ⟨_, -, _, -, _, -, _, -, _, -, _, hfacts, -⟩ := hrestore
  simp only [validateFacts, except_unit_bind_eq_ok, rejectIf_eq_ok] at hfacts
  exact hfacts.2.2.2.2.1 h

theorem lostEnding_attempt (run : Run) (held : Held) (now : ℕ) :
    (lostEnding run held now).attempt.completedAtUnix = some now ∧
      (lostEnding run held now).attempt.lastHeartbeatAtUnix = held.attempt.lastHeartbeatAtUnix := by
  unfold lostEnding
  split_ifs <;> exact ⟨rfl, rfl⟩

theorem finishLostOrRequeue_behind {run : Run} {held held' : Held} {now : ℕ} {u : Unit}
    (h : (finishLostOrRequeue run now).run held = .ok u held')
    (hbehind : now < held.attempt.lastHeartbeatAtUnix) : held'.attempt.timestampsInconsistent := by
  simp only [finishLostOrRequeue, check_unit_bind_eq_ok, modify_eq_ok] at h
  obtain ⟨-, -, -, rfl⟩ := h
  obtain ⟨hcompleted, hheartbeat⟩ := lostEnding_attempt run held now
  exact .inr (.inr (.inr (.inl ⟨now, hcompleted, hheartbeat ▸ hbehind⟩)))

end RunAttempt

/-- An operation that succeeds by a clock that is behind leaves an attempt that cannot be read
back. -/
theorem AttemptOp.restore_ne_ok {op : AttemptOp} {run : Run} {held held' : Held} {u : Unit}
    {attempt : RunAttempt} (h : (op.run run).run held = .ok u held') (hclock : ¬ op.ClockOk held) :
    RunAttempt.restore held'.attempt ≠ .ok attempt := by
  apply RunAttempt.restore_ne_ok
  cases op with
  | claimRuntime bootstrap token now lease =>
    simp only [AttemptOp.run, RunAttempt.claimRuntime, check_unit_bind_eq_ok, modify_eq_ok] at h
    obtain ⟨-, -, -, -, -, rfl⟩ := h
    exact .inl (not_le.mp hclock)
  | expire now =>
    simp only [ClockOk, Classical.not_imp, not_le] at hclock
    simp only [AttemptOp.run, RunAttempt.expire, check_unit_bind_eq_ok] at h
    exact RunAttempt.finishLostOrRequeue_behind h.2.2.2 hclock.2
  | abandon token now =>
    simp only [ClockOk, Classical.not_imp, not_le] at hclock
    simp only [AttemptOp.run, RunAttempt.abandon, check_unit_bind_eq_ok, get_bind_eq_ok,
      hclock.1] at h
    exact RunAttempt.finishLostOrRequeue_behind h.2 hclock.2
  | confirmProviderCancellation now =>
    simp only [ClockOk, Classical.not_imp, not_le] at hclock
    simp only [AttemptOp.run, RunAttempt.confirmProviderCancellation, get_bind_eq_ok] at h
    split at h
    · rename_i hcanceled
      simp [hcanceled.1, AttemptState.isTerminal] at hclock
    · simp only [check_unit_bind_eq_ok, modify_eq_ok] at h
      obtain ⟨-, -, -, -, -, rfl⟩ := h
      exact .inr (.inr (.inr (.inl ⟨now, rfl, hclock.2⟩)))
  | _ => exact absurd trivial hclock

/-! ## The whole run -/

namespace RunAggregate

/-- Every record passes the checks of `restore`, and active attempts agree with their jobs. -/
structure Sound (state : RunAggregate) : Prop where
  run : state.run.Facts
  jobs : ∀ job ∈ state.jobs, job.Facts
  attempts : ∀ entry ∈ state.attempts, RunAttempt.Readable entry.1 entry.2
  coupled : ∀ job ∈ state.jobs, ∀ entry ∈ state.attempts, entry.1.jobKey = job.key →
    entry.1.state.isTerminal = false → Coupled entry.1 entry.2 job

theorem Sound.setHeld {state : RunAggregate} (h : Sound state) (hfenced : Fenced state) {j a : ℕ}
    {held held' : Held} (hheld : state.held? j a = some held) (hframe : HeldFrame held held')
    (hsound : held'.Sound) : Sound (state.setHeld j a held') := by
  obtain ⟨hjob, hattempt⟩ := held?_eq_some.mp hheld
  have hjobMem := List.mem_of_getElem? hjob
  have hkey := hframe.current.jobKey
  refine ⟨h.run, fun job hmem => ?_, fun entry hmem => ?_, fun job hmem entry hentry => ?_⟩
  · rcases hfenced.mem_jobs_set hjob hmem with rfl | ⟨hold, -⟩
    · exact hsound.job
    · exact h.jobs job hold
  · rcases hfenced.mem_attempts_set hjobMem hattempt hkey hmem with rfl | ⟨hold, -⟩
    · exact hsound.attempt
    · exact h.attempts entry hold
  · intro hentryKey hactive
    rcases hfenced.mem_jobs_set hjob hmem with rfl | ⟨hold, hne⟩
    · rcases hfenced.mem_attempts_set hjobMem hattempt hkey hentry with rfl | ⟨holdEntry, hnumber⟩
      · exact hsound.coupled hactive
      · -- another active attempt of the job would have its number
        have hentryKey' := hentryKey.trans hframe.jobKey
        have hcur := (hfenced.current _ hjobMem entry holdEntry hentryKey' hactive).1
        exact absurd (hcur.number.trans hframe.current.number.symm) (hnumber hentryKey')
    · rcases hfenced.mem_attempts_set hjobMem hattempt hkey hentry with rfl | ⟨holdEntry, -⟩
      · exact absurd (hentryKey.symm.trans (hframe.attemptKey.trans hkey)) hne
      · exact h.coupled job hold entry holdEntry hentryKey hactive

theorem Sound.held {state : RunAggregate} (h : Sound state) {j a : ℕ} {held : Held}
    (hheld : state.held? j a = some held) (hkey : held.attempt.jobKey = held.job.key) :
    held.Sound := by
  obtain ⟨hjob, hattempt⟩ := held?_eq_some.mp hheld
  have hjobMem := List.mem_of_getElem? hjob
  have hattemptMem := List.mem_of_getElem? hattempt
  exact ⟨h.attempts _ hattemptMem, h.jobs _ hjobMem, h.coupled _ hjobMem _ hattemptMem hkey⟩

/-- A whole operation keeps every record sound, if the clock of the caller is not behind. -/
theorem Sound.setHeld_steps {clock : Prop} {now : ℕ} {state : RunAggregate} (h : Sound state)
    (hfenced : Fenced state) {j a : ℕ} {held held' : Held} (hheld : state.held? j a = some held)
    (hsteps : ReflTransGen (HeldStep clock now) held held') (hc : clock) :
    Sound (state.setHeld j a held') := by
  induction hsteps with
  | refl => rwa [setHeld_self hheld]
  | @tail mid held' hprev hlast ih =>
    have hheld' := held?_setHeld hheld mid
    have hsound := hlast.sound hc (ih.held hheld' hlast.frame.current.jobKey)
    have hnext := ih.setHeld (hfenced.setHeld_steps hheld hprev) hheld' hlast.frame hsound
    rwa [setHeld_setHeld] at hnext

theorem Sound.dispatch {state : RunAggregate} (h : Sound state) (hfenced : Fenced state) {j : ℕ}
    {job job' : RunJob} {definition : WorkflowJob} {attemptId tokenHash runtimeVersion : String}
    {now lease : ℕ} {attempt : RunAttempt} {steps : List RunAttemptStep}
    (hjob : state.jobs[j]? = some job)
    (hdisp : Dispatched state.run definition attemptId tokenHash runtimeVersion now lease job
      (attempt, steps) job') :
    Sound { state with
      jobs := state.jobs.set j job'
      attempts := state.attempts ++ [(attempt, steps)] } := by
  have hjobMem := List.mem_of_getElem? hjob
  have hsound := hdisp.sound h.run (h.jobs job hjobMem)
  have hidle : job.isActive = false := by simp [RunJob.isActive, hdisp.queued]
  have hattemptKey : attempt.jobKey = job.key := by rw [show attempt = _ from hdisp.attempt]; rfl
  have hjobKey : job'.key = job.key := by rw [hdisp.jobAfter]; rfl
  refine ⟨h.run, fun other hmem => ?_, fun entry hmem => ?_, fun other hmem entry hentry => ?_⟩
  · rcases hfenced.mem_jobs_set hjob hmem with rfl | ⟨hold, -⟩
    · exact hsound.job
    · exact h.jobs other hold
  · rcases List.mem_append.mp hmem with hold | hnew
    · exact h.attempts entry hold
    · obtain rfl := List.mem_singleton.mp hnew
      exact hsound.attempt
  · intro hkey hactive
    rcases hfenced.mem_jobs_set hjob hmem with rfl | ⟨hold, hne⟩
    · rcases List.mem_append.mp hentry with holdEntry | hnew
      · -- the job was queued, so all its attempts had ended
        have hended := hfenced.isTerminal_of_idle hjobMem hidle holdEntry (hkey.trans hjobKey)
        simp [hended] at hactive
      · obtain rfl := List.mem_singleton.mp hnew
        exact hsound.coupled hactive
    · rcases List.mem_append.mp hentry with holdEntry | hnew
      · exact h.coupled other hold entry holdEntry hkey hactive
      · obtain rfl := List.mem_singleton.mp hnew
        exact absurd (hkey.symm.trans hattemptKey) hne

/-- Changes of jobs that are not on a runner keep every record sound. -/
theorem Sound.changeJobs {state : RunAggregate} (h : Sound state) (hfenced : Fenced state)
    {now : ℕ} {run' : Run} {jobs' : List RunJob} (hrun : run'.Facts)
    (hjobs : JobSteps now state.jobs jobs') :
    Sound { state with run := run', jobs := jobs' } := by
  refine ⟨hrun, fun job' hmem => ?_, h.attempts, fun job' hmem entry hentry hkey hactive => ?_⟩
  · obtain ⟨job, hjob, hsteps⟩ := ListUpdate.forall₂_mem_right hjobs hmem
    exact JobStep.facts_of_steps hsteps (h.jobs job hjob)
  · obtain ⟨job, hjob, hsteps⟩ := ListUpdate.forall₂_mem_right hjobs hmem
    have hframe := JobFrame.of_steps hsteps
    rcases hframe.result with rfl | ⟨hidle, -, -⟩
    · exact h.coupled _ hjob entry hentry hkey hactive
    · have hended := hfenced.isTerminal_of_idle hjob hidle hentry (hkey.trans hframe.key)
      simp [hended] at hactive

theorem Created.sound {state : RunAggregate} (h : Created state) : Sound state := by
  cases h with
  | mk hrun hjobs =>
    have hfacts := Run.facts_of_new hrun
    obtain rfl := createRunJobs_eq_ok hjobs
    refine ⟨hfacts, fun job hjob => ?_, by simp, by simp⟩
    obtain ⟨definition, -, rfl⟩ := List.mem_map.mp hjob
    exact RunJob.facts_new hfacts.identified.id definition

theorem Sound.step {state state' : RunAggregate} (h : Sound state) (hfenced : Fenced state)
    (hstep : Step (fun op held => op.ClockOk held) state state') : Sound state' := by
  cases hstep with
  | dispatch hjob hop => exact h.dispatch hfenced hjob (RunJob.dispatched_of_ok hop)
  | attempt hheld hclock hop => exact h.setHeld_steps hfenced hheld (AttemptOp.steps hop) hclock
  | expireCapacityRetry hjob hop =>
    have hsteps := RunJob.expireCapacityRetry_steps hop
    exact h.changeJobs hfenced h.run (ListUpdate.forall₂_set (fun _ => .refl) hjob hsteps)
  | run hop =>
    exact h.changeJobs hfenced (RunOp.facts hop h.run) (RunOp.frame hop hfenced.ended).jobs

/-- The states of runs in which no caller's clock is behind the times it overwrites. -/
abbrev ReachableOnTime : RunAggregate → Prop :=
  Transition.Reachable Created (Step fun op held => op.ClockOk held)

theorem ReachableOnTime.fenced_and_sound {state : RunAggregate} (h : ReachableOnTime state) :
    Fenced state ∧ Sound state :=
  h.invariant (fun state => Fenced state ∧ Sound state)
    (fun _ hcreated => ⟨hcreated.fenced, hcreated.sound⟩)
    fun _ _ _ ⟨hfenced, hsound⟩ hstep => ⟨hfenced.step hstep, hsound.step hfenced hstep⟩

/-- Every stored record can be read back, and the steps of each attempt match it. -/
structure ReadsBack (state : RunAggregate) : Prop where
  run : Run.restore state.run = .ok state.run
  jobs : ∀ job ∈ state.jobs, RunJob.restore job = .ok job
  attempts : ∀ entry ∈ state.attempts, RunAttempt.restore entry.1 = .ok entry.1 ∧
    entry.1.validateExecution entry.2 = .ok () ∧
      ∀ step ∈ entry.2, RunAttemptStep.restore step = .ok step

/-- As long as every clock is on time, every reachable run can be read back. -/
theorem ReachableOnTime.readsBack {state : RunAggregate} (h : ReachableOnTime state) :
    ReadsBack state := by
  obtain ⟨-, hsound⟩ := ReachableOnTime.fenced_and_sound h
  refine ⟨hsound.run.restore, fun job hjob => (hsound.jobs job hjob).restore, ?_⟩
  intro entry hentry
  have hread := hsound.attempts entry hentry
  exact ⟨hread.facts.restore,
    RunAttempt.validateExecution_of_inOrder hread.steps_ne_nil hread.inOrder hread.aggregate,
    fun step hstep => hread.restore_steps hstep⟩

theorem readsBack_dispatched : ReadsBack SmallRun.dispatched :=
  ReachableOnTime.readsBack
    ((Transition.Reachable.of_init SmallRun.created_isCreated).tail (SmallRun.dispatched_step _))

/-- From a run that can be read back, an operation on an attempt leads to another one exactly when
the caller's clock is not behind. -/
theorem ReachableOnTime.readsBack_setHeld_iff {state : RunAggregate} (h : ReachableOnTime state)
    {op : AttemptOp} {j a : ℕ} {held held' : Held} {u : Unit}
    (hheld : state.held? j a = some held) (hop : (op.run state.run).run held = .ok u held') :
    ReadsBack (state.setHeld j a held') ↔ op.ClockOk held := by
  constructor
  · intro hread
    by_contra hclock
    have hmem : (held'.attempt, held'.steps) ∈ (state.setHeld j a held').attempts :=
      ListUpdate.mem_set_self (held?_eq_some.mp hheld).2
    exact op.restore_ne_ok hop hclock (hread.attempts _ hmem).1
  · exact fun hclock =>
      ReachableOnTime.readsBack (Transition.Reachable.tail h (.attempt hheld hclock hop))

/-- A runtime that claims its attempt by a clock before the dispatch makes it unreadable. -/
theorem not_readsBack_of_reachable : ¬ ∀ state, Reachable state → ReadsBack state := by
  intro hall
  have hop : ((AttemptOp.claimRuntime SmallRun.token SmallRun.digest 50 60).run SmallRun.run).run
      ⟨SmallRun.attempt, SmallRun.job.dispatched "attempt" 100, [SmallRun.step]⟩ = .ok ()
        ⟨{ SmallRun.attempt with
            tokenHash := SmallRun.digest, lastHeartbeatAtUnix := 50, leaseExpiresAtUnix := 60 },
          SmallRun.job.dispatched "attempt" 100, [SmallRun.step]⟩ := rfl
  have hheld : SmallRun.dispatched.held? 0 0 = some
      ⟨SmallRun.attempt, SmallRun.job.dispatched "attempt" 100, [SmallRun.step]⟩ := rfl
  have hreach := ((Transition.Reachable.of_init SmallRun.created_isCreated).tail
    (SmallRun.dispatched_step fun _ _ => True)).tail (.attempt hheld trivial hop)
  have hread := ((hall _ hreach).attempts _ (List.mem_singleton_self _)).1
  exact absurd hread (by decide)

end RunAggregate

end ScopeVcs

import ScopeVcs.Outbox.Change

/-! # Jobs take effect at most once

A job row is unique for its key, a lease is given up only by its owner, and the evaluation of a push
is pending exactly as long as its job is unfinished. Nothing counts an execution that ends in the
worker's death, so the bound on executions holds of runs without take-overs.
-/

namespace ScopeVcs.Outbox

open Mutation IntegerColumns Transition

variable {ρ : Type} {env : OutboxEnv ρ}

/-! ## Rows -/

/-- The columns of a job agree: only a running job has an owner, an unfinished one is not completed
and has attempts left. -/
structure OutboxJob.Consistent (job : OutboxJob) : Prop where
  owner : job.leaseOwner.isSome = true → job.state = .running
  live : job.completedAtUnix = none ↔ job.isUnfinished = true
  attempts : job.isUnfinished = true → job.attempts < MAX_JOB_ATTEMPTS

namespace OutboxJob.Consistent

theorem ready (id kind repoId : String) (repoVersion : ℕ) (payload : OutboxPayload) (now : ℕ) :
    (OutboxJob.ready id kind repoId repoVersion payload now).Consistent where
  owner := fun h => by cases h
  live := by simp [OutboxJob.ready, OutboxJob.isUnfinished]
  attempts := fun _ => by
    change 0 < 12
    omega

variable {job : OutboxJob}

theorem claimed (h : job.Consistent) (hopen : job.isUnfinished = true) (worker : String)
    (leaseExpiry now : ℕ) : (job.claimed worker leaseExpiry now).Consistent where
  owner := fun _ => rfl
  live := by
    have hlive := h.live.mpr hopen
    simpa [OutboxJob.claimed, OutboxJob.isUnfinished] using hlive
  attempts := fun _ => h.attempts hopen

theorem completed (now : ℕ) : (job.completed now).Consistent where
  owner := fun h => by cases h
  live := by simp [OutboxJob.completed, OutboxJob.isUnfinished]
  attempts := fun h => by simp [OutboxJob.completed, OutboxJob.isUnfinished] at h

theorem failed_isUnfinished (attempts nextRunAt : ℕ) (error : String) (now : ℕ) :
    (job.failed attempts nextRunAt error now).isUnfinished = true ↔ attempts < MAX_JOB_ATTEMPTS := by
  have hstate : (job.failed attempts nextRunAt error now).state =
      if isTerminalRetryAttempt attempts = true then .failed else .ready := rfl
  rw [OutboxJob.isUnfinished, hstate]
  by_cases hterminal : MAX_JOB_ATTEMPTS ≤ attempts
  · simp [isTerminalRetryAttempt, hterminal]
  · simp [isTerminalRetryAttempt, hterminal, not_le.mp hterminal]

theorem failed (attempts nextRunAt : ℕ) (error : String) (now : ℕ) :
    (job.failed attempts nextRunAt error now).Consistent where
  owner := fun h => by cases h
  live := by
    have hlive : (job.failed attempts nextRunAt error now).completedAtUnix =
        if isTerminalRetryAttempt attempts = true then some now else none := rfl
    rw [failed_isUnfinished, hlive]
    by_cases hterminal : MAX_JOB_ATTEMPTS ≤ attempts
    · simp [isTerminalRetryAttempt, hterminal]
    · simp [isTerminalRetryAttempt, hterminal, not_le.mp hterminal]
  attempts := fun h => (failed_isUnfinished ..).mp h

end OutboxJob.Consistent

theorem mem_saveEvaluation {db : OutboxDb ρ} {evaluation e : PushTriggerEvaluation} :
    e ∈ (saveEvaluation evaluation db).evaluations ↔
      (e ∈ db.evaluations ∧ e.key ≠ evaluation.key) ∨
        (e = evaluation ∧ ∃ stored ∈ db.evaluations, stored.key = evaluation.key) := by
  have hset : ∀ stored : PushTriggerEvaluation, stored.key = evaluation.key →
      { evaluation with
        repositoryId := stored.repositoryId
        changeVersion := stored.changeVersion } = evaluation := by
    intro stored hkey
    obtain ⟨hrepo, hversion⟩ := Prod.mk.inj hkey
    rw [hrepo, hversion]
  rw [saveEvaluation, Table.mem_update (by intro _; rfl)]
  constructor
  · rintro ⟨stored, hstored, rfl⟩
    by_cases hkey : stored.key = evaluation.key
    · rw [if_pos (decide_eq_true hkey), hset stored hkey]
      exact .inr ⟨rfl, stored, hstored, hkey⟩
    · rw [if_neg (by simpa using hkey)]
      exact .inl ⟨hstored, hkey⟩
  · rintro (⟨he, hkey⟩ | ⟨rfl, stored, hstored, hkey⟩)
    · exact ⟨e, he, (if_neg (by simpa using hkey)).symm⟩
    · exact ⟨stored, hstored, by rw [if_pos (decide_eq_true hkey), hset stored hkey]⟩

theorem loadJobPayload_eq_ok {db : OutboxDb ρ} {jobId : String} {head : GitHead}
    {input : PushTriggerInput} (h : loadJobPayload db jobId = .ok (head, input)) :
    ∃ job ∈ db.jobs, job.id = jobId ∧ ∃ version, job.payload = .pushMain version head input := by
  rw [loadJobPayload] at h
  split at h
  · cases h
  · next job hjob =>
    obtain ⟨hmem, hid⟩ := Table.find?_eq_some.mp hjob
    split at h
    · cases h
    · next version head' input' hpayload =>
      split at h
      · cases h
      · cases h
        exact ⟨job, hmem, hid, version, hpayload⟩

theorem HasRuns.mono {repoId : String} {head : GitHead} {input : PushTriggerInput}
    {db db' : OutboxDb ρ} (h : HasRuns env repoId head input db)
    (hkept : ∀ row ∈ db.runs, row ∈ db'.runs) : HasRuns env repoId head input db' := by
  intro revisions hrevisions revision hrevision
  obtain ⟨row, hrow, hkey⟩ := h revisions hrevisions revision hrevision
  exact ⟨row, hkept row hrow, hkey⟩

namespace World

variable {w w' : World ρ}

/-! ## The invariant -/

/-- What a worker knows of the job it is at still holds of the row, as long as it is the owner. -/
structure Holds (w : World ρ) (worker : String) (inFlight : InFlight) : Prop where
  drawn : inFlight.job.id ∈ w.jobIds
  repository : (w.db.repositories inFlight.job.repoId).isSome = true
  row : ∀ job ∈ w.db.jobs, job.id = inFlight.job.id → job.kind = inFlight.job.kind ∧
    job.repoId = inFlight.job.repoId ∧ job.repoVersion = inFlight.job.repoVersion ∧
    (job.leaseOwner = some worker → job.attempts = inFlight.job.attempts)

/-- The rows of the jobs, and what the workers hold of them. -/
structure JobsInv (w : World ρ) : Prop where
  drawn : ∀ job ∈ w.db.jobs, job.id ∈ w.jobIds
  consistent : ∀ job ∈ w.db.jobs, job.Consistent
  repository : ∀ job ∈ w.db.jobs, (w.db.repositories job.repoId).isSome = true
  key : ∀ job ∈ w.db.jobs, job.idempotencyKey =
    job.kind ++ ":" ++ job.repoId ++ ":" ++ toString job.repoVersion
  unique : ∀ job ∈ w.db.jobs, ∀ job' ∈ w.db.jobs, job.idempotencyKey = job'.idempotencyKey →
    job = job'
  held : ∀ worker inFlight, w.workers worker = some inFlight → w.Holds worker inFlight

/-- The evaluations of accepted pushes and the runs they got. -/
structure PushesInv (env : OutboxEnv ρ) (w : World ρ) : Prop where
  pushed : ∀ job ∈ w.db.jobs, job.kind = JOB_KIND → ∃ push ∈ w.accepted,
    push.key = (job.repoId, job.repoVersion) ∧
    job.payload = .pushMain PUSH_MAIN_TRIGGER_WORKFLOW_SCHEMA_VERSION push.head push.input ∧
    ∃ evaluation ∈ w.db.evaluations, evaluation.key = push.key ∧
      (evaluation.state = .pending ↔ job.isUnfinished = true)
  pending : ∀ evaluation ∈ w.db.evaluations, evaluation.state = .pending → ∃ job ∈ w.db.jobs,
    job.kind = JOB_KIND ∧ (job.repoId, job.repoVersion) = evaluation.key
  accepted : ∀ push ∈ w.accepted, push.head.headOid = push.input.headOid ∧
    ∃ evaluation ∈ w.db.evaluations, evaluation.key = push.key
  distinct : ∀ push ∈ w.accepted, ∀ push' ∈ w.accepted, push.key = push'.key → push = push'
  runs : ∀ row ∈ w.db.runs, row.run.idempotencyKey =
    pushRunKey row.sourceHead.changeVersion row.sourceHead.headOid row.run.workflow.path
  native : ∀ key ∈ w.native, ∃ push ∈ w.accepted, push.key = key ∧
    ∀ evaluation ∈ w.db.evaluations, evaluation.key = key → evaluation.state ≠ .pending ∧
      (evaluation.state = .succeeded →
        HasRuns env push.repoId push.head push.input w.db)

/-! ## Steps of the jobs -/

theorem JobsInv.initial (clock : ℕ) (readModels : ρ) : (World.initial clock readModels).JobsInv where
  drawn := fun job hjob => absurd hjob (Table.notMem_empty job)
  consistent := fun job hjob => absurd hjob (Table.notMem_empty job)
  repository := fun job hjob => absurd hjob (Table.notMem_empty job)
  key := fun job hjob => absurd hjob (Table.notMem_empty job)
  unique := fun job hjob => absurd hjob (Table.notMem_empty job)
  held := fun _ _ h => by cases h

/-- The jobs stay, or some that are finished go. -/
theorem JobsInv.of_subset (hinv : w.JobsInv) (hjobs : ∀ job ∈ w'.db.jobs, job ∈ w.db.jobs)
    (hrepos : ∀ id, (w.db.repositories id).isSome = true → (w'.db.repositories id).isSome = true)
    (hids : ∀ id ∈ w.jobIds, id ∈ w'.jobIds)
    (hworkers : ∀ worker inFlight, w'.workers worker = some inFlight →
      ∃ before, w.workers worker = some before ∧ inFlight.job = before.job) : w'.JobsInv where
  drawn := fun job hjob => hids _ (hinv.drawn job (hjobs job hjob))
  consistent := fun job hjob => hinv.consistent job (hjobs job hjob)
  repository := fun job hjob => hrepos _ (hinv.repository job (hjobs job hjob))
  key := fun job hjob => hinv.key job (hjobs job hjob)
  unique := fun job hjob job' hjob' => hinv.unique job (hjobs job hjob) job' (hjobs job' hjob')
  held := by
    intro worker inFlight h
    obtain ⟨before, hbefore, hsame⟩ := hworkers worker inFlight h
    have hheld := hinv.held worker before hbefore
    refine ⟨hids _ (hsame ▸ hheld.drawn), hrepos _ (hsame ▸ hheld.repository), fun job hjob hid => ?_⟩
    exact hsame ▸ hheld.row job (hjobs job hjob) (hid.trans (by rw [hsame]))

theorem JobsInv.of_added (hinv : w.JobsInv) {jobId kind repoId : String} {repoVersion now : ℕ}
    {payload : OutboxPayload}
    (hadded : Added w.db w'.db (.ready jobId kind repoId repoVersion payload now))
    (hfresh : jobId ∉ w.jobIds) (hrepos : w'.db.repositories = w.db.repositories)
    (hids : w'.jobIds = jobId :: w.jobIds) (hworkers : w'.workers = w.workers) : w'.JobsInv where
  drawn := fun job hjob => by
    rw [hids]
    rcases (hadded.mem_iff job).mp hjob with hold | rfl
    · exact List.mem_cons_of_mem _ (hinv.drawn job hold)
    · exact List.mem_cons_self
  consistent := fun job hjob => by
    rcases (hadded.mem_iff job).mp hjob with hold | rfl
    · exact hinv.consistent job hold
    · exact .ready ..
  repository := fun job hjob => by
    rw [hrepos]
    rcases (hadded.mem_iff job).mp hjob with hold | rfl
    · exact hinv.repository job hold
    · exact hadded.repository
  key := fun job hjob => by
    rcases (hadded.mem_iff job).mp hjob with hold | rfl
    · exact hinv.key job hold
    · rfl
  unique := fun job hjob job' hjob' hkey => by
    rcases (hadded.mem_iff job).mp hjob with hold | rfl
    · rcases (hadded.mem_iff job').mp hjob' with hold' | rfl
      · exact hinv.unique job hold job' hold' hkey
      · exact absurd hkey (hadded.key job hold)
    · rcases (hadded.mem_iff job').mp hjob' with hold' | rfl
      · exact absurd hkey.symm (hadded.key job' hold')
      · rfl
  held := by
    intro worker inFlight h
    rw [hworkers] at h
    have hheld := hinv.held worker inFlight h
    refine ⟨?_, hrepos ▸ hheld.repository, fun job hjob hid => ?_⟩
    · rw [hids]
      exact List.mem_cons_of_mem _ hheld.drawn
    · rcases (hadded.mem_iff job).mp hjob with hold | rfl
      · exact hheld.row job hold hid
      · change jobId = inFlight.job.id at hid
        exact absurd (hid ▸ hheld.drawn) hfresh

/-- One job is replaced by a consistent version; whoever else is at it does not own it. -/
theorem JobsInv.of_replaced (hinv : w.JobsInv) {old new : OutboxJob}
    (hreplaced : Replaced w.db w'.db old new) (hnew : new.Consistent)
    (hrepos : w'.db.repositories = w.db.repositories) (hids : w'.jobIds = w.jobIds)
    (hworkers : ∀ worker inFlight, w'.workers worker = some inFlight →
      (w.workers worker = some inFlight ∧ new.leaseOwner ≠ some worker) ∨
        (inFlight.job = old.toClaim ∧ new.attempts = old.attempts)) : w'.JobsInv where
  drawn := fun job hjob => by
    rw [hids]
    rcases (hreplaced.mem_iff job).mp hjob with ⟨hold, -⟩ | rfl
    · exact hinv.drawn job hold
    · rw [hreplaced.same.id]
      exact hinv.drawn old hreplaced.old_mem
  consistent := fun job hjob => by
    rcases (hreplaced.mem_iff job).mp hjob with ⟨hold, -⟩ | rfl
    · exact hinv.consistent job hold
    · exact hnew
  repository := fun job hjob => by
    rw [hrepos]
    rcases (hreplaced.mem_iff job).mp hjob with ⟨hold, -⟩ | rfl
    · exact hinv.repository job hold
    · rw [hreplaced.same.repoId]
      exact hinv.repository old hreplaced.old_mem
  key := fun job hjob => by
    rcases (hreplaced.mem_iff job).mp hjob with ⟨hold, -⟩ | rfl
    · exact hinv.key job hold
    · rw [hreplaced.same.idempotencyKey, hreplaced.same.kind, hreplaced.same.repoId,
        hreplaced.same.repoVersion]
      exact hinv.key old hreplaced.old_mem
  unique := fun job hjob job' hjob' hkey => by
    rcases (hreplaced.mem_iff job).mp hjob with ⟨hold, hne⟩ | rfl
    · rcases (hreplaced.mem_iff job').mp hjob' with ⟨hold', -⟩ | rfl
      · exact hinv.unique job hold job' hold' hkey
      · rw [hreplaced.same.idempotencyKey] at hkey
        exact absurd (hinv.unique job hold old hreplaced.old_mem hkey) hne
    · rcases (hreplaced.mem_iff job').mp hjob' with ⟨hold', hne'⟩ | rfl
      · rw [hreplaced.same.idempotencyKey] at hkey
        exact absurd (hinv.unique old hreplaced.old_mem job' hold' hkey).symm hne'
      · rfl
  held := by
    intro worker inFlight h
    rcases hworkers worker inFlight h with ⟨hbefore, hother⟩ | ⟨hclaimed, hattempts⟩
    · have hheld := hinv.held worker inFlight hbefore
      refine ⟨hids ▸ hheld.drawn, hrepos ▸ hheld.repository, fun job hjob hid => ?_⟩
      rcases (hreplaced.mem_iff job).mp hjob with ⟨hold, -⟩ | rfl
      · exact hheld.row job hold hid
      · obtain ⟨hkind, hrepo, hversion, -⟩ := hheld.row old hreplaced.old_mem
          (hreplaced.same.id ▸ hid)
        exact ⟨hreplaced.same.kind.trans hkind, hreplaced.same.repoId.trans hrepo,
          hreplaced.same.repoVersion.trans hversion, fun howner => absurd howner hother⟩
    · have hold := hreplaced.old_mem
      refine ⟨?_, ?_, fun job hjob hid => ?_⟩
      · rw [hids, hclaimed]
        exact hinv.drawn old hold
      · rw [hrepos, hclaimed]
        exact hinv.repository old hold
      · rw [hclaimed] at hid ⊢
        rcases (hreplaced.mem_iff job).mp hjob with ⟨hmem, hne⟩ | rfl
        · exact absurd (Table.eq_of_key_eq hmem hold hid) hne
        · exact ⟨hreplaced.same.kind, hreplaced.same.repoId, hreplaced.same.repoVersion,
            fun _ => hattempts⟩

/-! ## Steps of the evaluations -/

theorem PushesInv.initial (clock : ℕ) (readModels : ρ) :
    PushesInv env (World.initial clock readModels) where
  pushed := fun job hjob => absurd hjob (Table.notMem_empty job)
  pending := fun evaluation h => absurd h (Table.notMem_empty evaluation)
  accepted := fun _ h => by cases h
  distinct := fun _ h => by cases h
  runs := fun row hrow => absurd hrow (Table.notMem_empty row)
  native := fun _ h => by cases h

/-- Steps that leave the evaluations and the runs alone, and the unfinished push jobs too. -/
theorem PushesInv.of_jobs (hinv : PushesInv env w) (hevaluations : w'.db.evaluations = w.db.evaluations)
    (hruns : w'.db.runs = w.db.runs) (haccepted : w'.accepted = w.accepted)
    (hnative : w'.native = w.native)
    (hnew : ∀ job ∈ w'.db.jobs, job.kind = JOB_KIND → job ∈ w.db.jobs)
    (hkept : ∀ job ∈ w.db.jobs, job.isUnfinished = true → job ∈ w'.db.jobs) :
    PushesInv env w' where
  pushed := fun job hjob hkind => by
    rw [haccepted, hevaluations]
    exact hinv.pushed job (hnew job hjob hkind) hkind
  pending := fun evaluation hevaluation hpending => by
    rw [hevaluations] at hevaluation
    obtain ⟨job, hjob, hkind, hkey⟩ := hinv.pending evaluation hevaluation hpending
    obtain ⟨push, -, hpush, -, stored, hstored, hsame, hiff⟩ := hinv.pushed job hjob hkind
    rw [Table.eq_of_key_eq hstored hevaluation (by rw [hsame, hpush, hkey])] at hiff
    exact ⟨job, hkept job hjob (hiff.mp hpending), hkind, hkey⟩
  accepted := by
    rw [haccepted, hevaluations]
    exact hinv.accepted
  distinct := by
    rw [haccepted]
    exact hinv.distinct
  runs := by
    rw [hruns]
    exact hinv.runs
  native := by
    rw [hnative, haccepted, hevaluations]
    intro key hkey
    obtain ⟨push, hpush, hsame, hall⟩ := hinv.native key hkey
    refine ⟨push, hpush, hsame, fun evaluation hevaluation hk => ?_⟩
    obtain ⟨hended, hhas⟩ := hall evaluation hevaluation hk
    exact ⟨hended, fun hsucceeded => (hhas hsucceeded).mono fun row hrow => hruns ▸ hrow⟩

/-- A push is accepted: its evaluation is new, and so is its job. -/
theorem PushesInv.of_accepted (hinv : PushesInv env w) {jobId : String} {push : AcceptedPush}
    {now : ℕ} (haccepted : Accepted w.db w'.db jobId push now)
    (hpushes : w'.accepted = push :: w.accepted) (hnative : w'.native = w.native) :
    PushesInv env w' := by
  obtain ⟨hhead, hruns, -, evaluation, hkey, hfresh, hevaluations, hjobs⟩ := haccepted
  have hmem : ∀ e, e ∈ w'.db.evaluations ↔ e ∈ w.db.evaluations ∨ e = evaluation := fun e => by
    rw [hevaluations, Table.mem_insert (hkey ▸ hfresh)]
  have hunknown : ∀ e ∈ w.db.evaluations, e.key ≠ push.key := Table.find?_eq_none.mp hfresh
  have hold : ∀ job ∈ w.db.jobs, job ∈ w'.db.jobs := fun job hjob => by
    rcases hjobs with ⟨-, hsame⟩ | ⟨-, hadded⟩
    · rwa [hsame]
    · exact (hadded.mem_iff job).mpr (.inl hjob)
  refine ⟨?_, ?_, ?_, ?_, ?_, ?_⟩
  · intro job hjob hkind
    rw [hpushes]
    have hbefore : job ∈ w.db.jobs → ∃ push' ∈ push :: w.accepted,
        push'.key = (job.repoId, job.repoVersion) ∧
        job.payload = .pushMain PUSH_MAIN_TRIGGER_WORKFLOW_SCHEMA_VERSION push'.head push'.input ∧
        ∃ e ∈ w'.db.evaluations, e.key = push'.key ∧
          (e.state = .pending ↔ job.isUnfinished = true) := by
      intro hmemjob
      obtain ⟨push', hpush', hk, hpayload, e, he, hsame, hiff⟩ := hinv.pushed job hmemjob hkind
      exact ⟨push', List.mem_cons_of_mem _ hpush', hk, hpayload, e, (hmem e).mpr (.inl he), hsame,
        hiff⟩
    rcases hjobs with ⟨-, hsame⟩ | ⟨hpending, hadded⟩
    · exact hbefore (hsame ▸ hjob)
    · rcases (hadded.mem_iff job).mp hjob with hmemjob | rfl
      · exact hbefore hmemjob
      · exact ⟨push, List.mem_cons_self, rfl, rfl, evaluation, (hmem evaluation).mpr (.inr rfl), hkey,
          iff_of_true hpending rfl⟩
  · intro e he hpending
    rcases (hmem e).mp he with he | rfl
    · obtain ⟨job, hjob, hkind, hk⟩ := hinv.pending e he hpending
      exact ⟨job, hold job hjob, hkind, hk⟩
    · rcases hjobs with ⟨hended, -⟩ | ⟨-, hadded⟩
      · exact absurd hpending hended
      · exact ⟨_, (hadded.mem_iff _).mpr (.inr rfl), rfl, hkey.symm⟩
  · intro push' hpush'
    rw [hpushes] at hpush'
    rcases List.mem_cons.mp hpush' with rfl | hpush'
    · exact ⟨hhead, evaluation, (hmem evaluation).mpr (.inr rfl), hkey⟩
    · obtain ⟨hsame, e, he, hk⟩ := hinv.accepted push' hpush'
      exact ⟨hsame, e, (hmem e).mpr (.inl he), hk⟩
  · intro push₁ h₁ push₂ h₂ hk
    rw [hpushes] at h₁ h₂
    -- an earlier push has an evaluation of its key, and the new one had none
    have hdiffers : ∀ push' ∈ w.accepted, push'.key ≠ push.key := by
      intro push' hpush' hsame
      obtain ⟨-, e, he, hk'⟩ := hinv.accepted push' hpush'
      exact hunknown e he (hk'.trans hsame)
    rcases List.mem_cons.mp h₁ with rfl | hold₁
    · rcases List.mem_cons.mp h₂ with rfl | hold₂
      · rfl
      · exact absurd hk.symm (hdiffers push₂ hold₂)
    · rcases List.mem_cons.mp h₂ with rfl | hold₂
      · exact absurd hk (hdiffers push₁ hold₁)
      · exact hinv.distinct push₁ hold₁ push₂ hold₂ hk
  · rw [hruns]
    exact hinv.runs
  · rw [hnative, hpushes]
    intro key hmemkey
    obtain ⟨push', hpush', hsame, hall⟩ := hinv.native key hmemkey
    refine ⟨push', List.mem_cons_of_mem _ hpush', hsame, fun e he hk => ?_⟩
    rcases (hmem e).mp he with he | rfl
    · obtain ⟨hended, hhas⟩ := hall e he hk
      exact ⟨hended, fun hsucceeded => (hhas hsucceeded).mono fun row hrow => hruns ▸ hrow⟩
    · obtain ⟨-, e', he', hk'⟩ := hinv.accepted push' hpush'
      exact absurd (hk'.trans (hsame.trans (hk.symm.trans hkey))) (hunknown e' he')

/-- One job takes a step, and with it, if it is a push job, the evaluation of its push. -/
theorem PushesInv.of_replaced (hinv : PushesInv env w) (hjobs : w.JobsInv) {old new : OutboxJob}
    (hreplaced : Replaced w.db w'.db old new) (haccepted : w'.accepted = w.accepted)
    (hchanged : ∀ e ∈ w'.db.evaluations, e ∈ w.db.evaluations ∨ (e.state ≠ .pending ∧
      ∃ stored ∈ w.db.evaluations, stored.key = e.key ∧ stored.state = .pending))
    (hkept : ∀ e ∈ w.db.evaluations, e ∈ w'.db.evaluations ∨ (old.kind = JOB_KIND ∧
      e.key = (old.repoId, old.repoVersion) ∧ ∃ e' ∈ w'.db.evaluations, e'.key = e.key))
    (hown : old.kind = JOB_KIND → ∃ e ∈ w'.db.evaluations, e.key = (old.repoId, old.repoVersion) ∧
      (e.state = .pending ↔ new.isUnfinished = true))
    (hruns : ∀ row ∈ w.db.runs, row ∈ w'.db.runs)
    (hkeyed : ∀ row ∈ w'.db.runs, row.run.idempotencyKey =
      pushRunKey row.sourceHead.changeVersion row.sourceHead.headOid row.run.workflow.path)
    (hnative : ∀ key ∈ w'.native, key ∈ w.native ∨ ∃ push ∈ w.accepted, push.key = key ∧
      ∀ e ∈ w'.db.evaluations, e.key = key → e.state ≠ .pending ∧ (e.state = .succeeded →
        HasRuns env push.repoId push.head push.input w'.db)) :
    PushesInv env w' := by
  have hold := hreplaced.old_mem
  have hself : ∀ job ∈ w.db.jobs, job.kind = JOB_KIND → old.kind = JOB_KIND →
      (job.repoId, job.repoVersion) = (old.repoId, old.repoVersion) → job = old := by
    intro job hjob hkind hkind' hk
    obtain ⟨hrepo, hversion⟩ := Prod.mk.inj hk
    refine hjobs.unique job hjob old hold ?_
    rw [hjobs.key job hjob, hjobs.key old hold, hkind, hkind', hrepo, hversion]
  refine ⟨?_, ?_, ?_, haccepted ▸ hinv.distinct, hkeyed, ?_⟩
  · intro job hjob hkind
    rw [haccepted]
    rcases (hreplaced.mem_iff job).mp hjob with ⟨hmem, hne⟩ | rfl
    · obtain ⟨push, hpush, hk, hpayload, e, he, hsame, hiff⟩ := hinv.pushed job hmem hkind
      refine ⟨push, hpush, hk, hpayload, ?_⟩
      rcases hkept e he with he' | ⟨hkind', hek, -⟩
      · exact ⟨e, he', hsame, hiff⟩
      · exact absurd (hself job hmem hkind hkind' (by rw [← hek, hsame, hk])) hne
    · have hkind' : old.kind = JOB_KIND := hreplaced.same.kind ▸ hkind
      obtain ⟨push, hpush, hk, hpayload, -⟩ := hinv.pushed old hold hkind'
      obtain ⟨e, he, hek, hiff⟩ := hown hkind'
      refine ⟨push, hpush, ?_, hreplaced.same.payload.trans hpayload, e, he, hek.trans hk.symm, hiff⟩
      rw [hreplaced.same.repoId, hreplaced.same.repoVersion, hk]
  · intro e he hpending
    rcases hchanged e he with he' | ⟨hended, -⟩
    · obtain ⟨job, hjob, hkind, hk⟩ := hinv.pending e he' hpending
      by_cases hsame : job = old
      · subst hsame
        refine ⟨new, (hreplaced.mem_iff new).mpr (.inr rfl), hreplaced.same.kind.trans hkind, ?_⟩
        rw [hreplaced.same.repoId, hreplaced.same.repoVersion, hk]
      · exact ⟨job, (hreplaced.mem_iff job).mpr (.inl ⟨hjob, hsame⟩), hkind, hk⟩
    · exact absurd hpending hended
  · intro push hpush
    rw [haccepted] at hpush
    obtain ⟨hhead, e, he, hk⟩ := hinv.accepted push hpush
    refine ⟨hhead, ?_⟩
    rcases hkept e he with he' | ⟨-, -, e', he', hk'⟩
    · exact ⟨e, he', hk⟩
    · exact ⟨e', he', hk'.trans hk⟩
  · intro key hkey
    rw [haccepted]
    rcases hnative key hkey with hbefore | hnow
    · obtain ⟨push, hpush, hk, hall⟩ := hinv.native key hbefore
      refine ⟨push, hpush, hk, fun e he hek => ?_⟩
      rcases hchanged e he with he' | ⟨-, stored, hstored, hsk, hspending⟩
      · obtain ⟨hended, hhas⟩ := hall e he' hek
        exact ⟨hended, fun hsucceeded => (hhas hsucceeded).mono hruns⟩
      · exact absurd hspending (hall stored hstored (hsk.trans hek)).1
    · exact hnow

/-! ## Steps of the workers -/

theorem Replaced.of_jobs_eq {db db₁ db' : OutboxDb ρ} {old new : OutboxJob}
    (h : Replaced db₁ db' old new) (hjobs : db₁.jobs = db.jobs) : Replaced db db' old new where
  old_mem := hjobs ▸ h.old_mem
  same := h.same
  mem_iff := fun job => by
    rw [h.mem_iff, hjobs]

/-- Whoever is at a job after a worker was set was there before, or is that worker. -/
theorem workers_setWorker {worker x : String} {set inFlight : InFlight}
    (h : (w.setWorker worker (some set)).workers x = some inFlight) :
    (x = worker ∧ inFlight = set) ∨ w.workers x = some inFlight := by
  change Function.update w.workers worker (some set) x = some inFlight at h
  by_cases hx : x = worker
  · rw [hx, Function.update_self, Option.some.injEq] at h
    exact .inl ⟨hx, h.symm⟩
  · rw [Function.update_of_ne hx] at h
    exact .inr h

theorem setWorker_eq_some {worker x : String} {inFlight : InFlight}
    (h : (w.setWorker worker none).workers x = some inFlight) : w.workers x = some inFlight := by
  by_cases hx : x = worker
  · subst hx
    simp [setWorker] at h
  · simpa [setWorker, Function.update_of_ne hx] using h

/-- A finished push job and the evaluation its execution settled. -/
theorem PushesInv.completed (hinv : PushesInv env w) (hjobs : w.JobsInv) {worker : String}
    {inFlight : InFlight} (hheld : w.Holds worker inFlight) {executed : OutboxDb ρ} {old : OutboxJob}
    {now : ℕ} (hexecuted : Executed env inFlight.job w.db executed) (hold : old ∈ w.db.jobs)
    (hid : old.id = inFlight.job.id) (howner : old.leaseOwner = some worker) :
    PushesInv env { w.setWorker worker none with
      db := completeJob executed old.id worker now
      native := if evaluatesNatively w.db inFlight.job = true then
          (inFlight.job.repoId, inFlight.job.repoVersion) :: w.native
        else w.native } := by
  obtain ⟨hkind, hrepo, hversion, -⟩ := hheld.row old hold hid
  have hframe := (executed_frame hexecuted).1
  have hreplaced : Replaced w.db (completeJob executed old.id worker now) old (old.completed now) :=
    Replaced.of_jobs_eq (replaced_completeJob (hframe ▸ hold) howner) hframe
  have hended : (old.completed now).isUnfinished = false := rfl
  cases hexecuted with
  | rebuilt hother readModels hdb =>
    subst hdb
    have hold_kind : old.kind ≠ JOB_KIND := hkind ▸ hother
    refine hinv.of_replaced hjobs hreplaced rfl (fun e he => .inl he) (fun e he => .inl he)
      (fun h => absurd h hold_kind) (fun row hrow => hrow) hinv.runs fun key hkey => .inl ?_
    simpa [evaluatesNatively, hother] using hkey
  | settled hpush hdb hsettled =>
    subst hdb
    refine hinv.of_replaced hjobs hreplaced rfl (fun e he => .inl he) (fun e he => .inl he)
      (fun h => ?_) (fun row hrow => hrow) hinv.runs fun key hkey => .inl ?_
    · obtain ⟨push, -, hk, -, e, he, hek, -⟩ := hinv.pushed old hold h
      refine ⟨e, he, hek.trans hk, iff_of_false ?_ (by simp [hended])⟩
      exact hsettled e (Table.find?_eq_some.mpr ⟨he, by rw [hek, hk, hrepo, hversion]⟩)
    · have hnot : evaluatesNatively w.db inFlight.job = false := by
        by_contra hnative
        rw [Bool.not_eq_false, evaluatesNatively, Bool.and_eq_true, Option.any_eq_true] at hnative
        obtain ⟨-, stored, hstored, hpending⟩ := hnative
        exact hsettled stored hstored (of_decide_eq_true hpending)
      simpa [hnot] using hkey
  | evaluated hpush hevaluated =>
    obtain ⟨head, input, stored, evaluation, queued, hpayload, hstored, hpending, hqueued, hsame,
      hnotpending, rfl, hhas⟩ := hevaluated
    obtain ⟨hmem, hstoredkey⟩ := Table.find?_eq_some.mp hstored
    have hkind' : old.kind = JOB_KIND := hkind.trans hpush
    -- the payload of the job is the one its push was accepted with
    obtain ⟨push, hpushmem, hk, hpushpayload, -⟩ := hinv.pushed old hold hkind'
    obtain ⟨job, hjob, hjobid, version, hjobpayload⟩ := loadJobPayload_eq_ok hpayload
    rw [Table.eq_of_key_eq hjob hold (hjobid.trans hid.symm), hpushpayload] at hjobpayload
    obtain ⟨-, rfl, rfl⟩ := OutboxPayload.pushMain.inj hjobpayload
    obtain ⟨hrepo', hversion'⟩ := Prod.mk.inj hk
    have hrows : ∀ e, e ∈ (saveEvaluation evaluation queued).evaluations ↔
        (e ∈ w.db.evaluations ∧ e.key ≠ evaluation.key) ∨
          (e = evaluation ∧ ∃ stored ∈ w.db.evaluations, stored.key = evaluation.key) := fun e => by
      rw [mem_saveEvaluation, hqueued.evaluations]
    have hself : evaluation ∈ (saveEvaluation evaluation queued).evaluations :=
      (hrows evaluation).mpr (.inr ⟨rfl, stored, hmem, hsame.symm⟩)
    have hselfkey : evaluation.key = (old.repoId, old.repoVersion) := by
      rw [hsame, hstoredkey, hrepo, hversion]
    refine hinv.of_replaced hjobs hreplaced rfl (fun e he => ?_) (fun e he => ?_) (fun _ => ?_)
      (fun row hrow => hqueued.kept row hrow) (fun row hrow => ?_) (fun key hkey => ?_)
    · rcases (hrows e).mp he with ⟨he', -⟩ | ⟨rfl, -⟩
      · exact .inl he'
      · exact .inr ⟨hnotpending, stored, hmem, hsame.symm, hpending⟩
    · by_cases hek : e.key = evaluation.key
      · exact .inr ⟨hkind', hek.trans hselfkey, evaluation, hself, hek.symm⟩
      · exact .inl ((hrows e).mpr (.inl ⟨he, hek⟩))
    · exact ⟨evaluation, hself, hselfkey, iff_of_false hnotpending (by simp [hended])⟩
    · rcases hqueued.added row hrow with hbefore | ⟨-, hsource, hrowkey⟩
      · exact hinv.runs row hbefore
      · rw [hrowkey, hsource, (hinv.accepted push hpushmem).1, hversion', hversion]
    · change key ∈ if evaluatesNatively w.db inFlight.job = true then _ else _ at hkey
      split at hkey
      · next hnative =>
        rcases List.mem_cons.mp hkey with rfl | hbefore
        · refine .inr ⟨push, hpushmem, by rw [hk, hrepo, hversion], fun e he hek => ?_⟩
          have hon : w.db.nativeRuns inFlight.job.repoId = true := by
            rw [evaluatesNatively, Bool.and_eq_true, Bool.and_eq_true] at hnative
            exact hnative.1.2
          rcases (hrows e).mp he with ⟨-, hne⟩ | ⟨rfl, -⟩
          · exact absurd (hek.trans (by rw [hselfkey, hrepo, hversion])) hne
          · refine ⟨hnotpending, fun hsucceeded => ?_⟩
            rw [hrepo'.trans hrepo]
            exact hhas hsucceeded hon
        · exact .inl hbefore
      · exact .inl hkey

/-- The evaluation of an unfinished push job is pending. -/
theorem PushesInv.exists_pending (hinv : PushesInv env w) {old : OutboxJob} (hold : old ∈ w.db.jobs)
    (hkind : old.kind = JOB_KIND) (hopen : old.isUnfinished = true) :
    ∃ e ∈ w.db.evaluations, e.key = (old.repoId, old.repoVersion) ∧ e.state = .pending := by
  obtain ⟨push, -, hk, -, e, he, hek, hiff⟩ := hinv.pushed old hold hkind
  exact ⟨e, he, hek.trans hk, hiff.mpr hopen⟩

/-- A job whose failure was recorded, and the evaluation that failed with it for good. -/
theorem inv_recorded (hinv : PushesInv env w) (hjobs : w.JobsInv) {worker : String}
    {inFlight : InFlight} (hheld : w.Holds worker inFlight) {message : String} {now : ℕ} {u : Unit}
    {db' : OutboxDb ρ}
    (h : (failOutboxJob inFlight.job worker message now).run w.db = .ok u db') :
    JobsInv { w.setWorker worker none with db := db' } ∧
      PushesInv env { w.setWorker worker none with db := db' } := by
  obtain ⟨old, hold, nextRunAt, error, hid, howner, hlive, hdb⟩ := failOutboxJob_eq_ok h
  obtain ⟨hkind, hrepo, hversion, -⟩ := hheld.row old hold hid
  have hopen : old.isUnfinished = true := (hjobs.consistent old hold).live.mp hlive
  have hfailed : Replaced w.db
      (failJob w.db old.id worker (inFlight.job.attempts + 1) nextRunAt error now) old
      (old.failed (inFlight.job.attempts + 1) nextRunAt error now) :=
    replaced_failJob hold howner hlive
  have hworkers : ∀ x f, (w.setWorker worker none).workers x = some f →
      w.workers x = some f ∧
        (old.failed (inFlight.job.attempts + 1) nextRunAt error now).leaseOwner ≠ some x :=
    fun x f hx => ⟨setWorker_eq_some hx, by simp [OutboxJob.failed]⟩
  rcases hdb with ⟨rfl, hcases⟩ | ⟨stored, evaluation, hterminal, hpush, hstored, hsame, hstate, rfl⟩
  · refine ⟨hjobs.of_replaced hfailed (.failed ..) rfl rfl fun x f hx => .inl (hworkers x f hx),
      hinv.of_replaced hjobs hfailed rfl (fun e he => .inl he) (fun e he => .inl he) (fun hpush => ?_)
        (fun row hrow => hrow) hinv.runs fun key hkey => .inl hkey⟩
    obtain ⟨e, he, hek, hpending⟩ := hinv.exists_pending hold hpush hopen
    refine ⟨e, he, hek, iff_of_true hpending (OutboxJob.Consistent.failed_isUnfinished .. |>.mpr ?_)⟩
    rcases hcases with hretry | hother | hended
    · exact hretry
    · exact absurd (hkind ▸ hpush) hother
    · refine absurd hpending (hended e (Table.find?_eq_some.mpr ⟨he, ?_⟩))
      rw [hek, hrepo, hversion]
  · obtain ⟨hmem, hstoredkey⟩ := Table.find?_eq_some.mp hstored
    have hkind' : old.kind = JOB_KIND := hkind.trans hpush
    have hselfkey : evaluation.key = (old.repoId, old.repoVersion) := by
      rw [hsame, hstoredkey, hrepo, hversion]
    have hnotpending : evaluation.state ≠ .pending := by
      rw [hstate]
      decide
    have hreplaced : Replaced w.db (saveEvaluation evaluation
        (failJob w.db old.id worker (inFlight.job.attempts + 1) nextRunAt error now)) old
        (old.failed (inFlight.job.attempts + 1) nextRunAt error now) :=
      ⟨hold, hfailed.same, hfailed.mem_iff⟩
    have hself := (mem_saveEvaluation (e := evaluation)).mpr
      (.inr ⟨rfl, stored, hmem, hsame.symm⟩)
    refine ⟨hjobs.of_replaced hreplaced (.failed ..) rfl rfl fun x f hx => .inl (hworkers x f hx),
      hinv.of_replaced hjobs hreplaced rfl (fun e he => ?_) (fun e he => ?_) (fun _ => ?_)
        (fun row hrow => hrow) hinv.runs fun key hkey => .inl hkey⟩
    · rcases mem_saveEvaluation.mp he with ⟨he', -⟩ | ⟨rfl, -⟩
      · exact .inl he'
      · obtain ⟨e', he', hek', hpending⟩ := hinv.exists_pending hold hkind' hopen
        exact .inr ⟨hnotpending, e', he', hek'.trans hselfkey.symm, hpending⟩
    · by_cases hek : e.key = evaluation.key
      · exact .inr ⟨hkind', hek.trans hselfkey, evaluation, hself, hek.symm⟩
      · exact .inl (mem_saveEvaluation.mpr (.inl ⟨he, hek⟩))
    · refine ⟨evaluation, hself, hselfkey, iff_of_false hnotpending ?_⟩
      rw [OutboxJob.Consistent.failed_isUnfinished]
      exact not_lt.mpr hterminal

theorem now_eq_some {nowUnix : ℕ} {next : Option (World ρ)} :
    w.now nowUnix next = some w' ↔ (nowUnix ≤ w.clock ∧ nowUnix ≤ maxI64) ∧ next = some w' := by
  simp [now]

theorem run_eq_some {α : Type} {x : OutboxTx ρ α} {result : α × World ρ} :
    w.run x = some result ↔ ∃ db, x.run w.db = .ok result.1 db ∧ result.2 = { w with db } := by
  rw [run]
  split
  · next a db hok =>
    simp only [hok, Option.some.injEq, EStateM.Result.ok.injEq]
    constructor
    · rintro rfl
      exact ⟨db, ⟨rfl, rfl⟩, rfl⟩
    · rintro ⟨_, ⟨rfl, rfl⟩, h⟩
      exact Prod.ext rfl h.symm
  · next herror => simp [herror]

theorem draw_eq_some {jobId : String} {x : OutboxTx ρ Unit} (h : w.draw jobId x = some w') :
    jobId ∉ w.jobIds ∧ ∃ db, x.run w.db = .ok () db ∧
      w' = { w with db, jobIds := jobId :: w.jobIds } := by
  rw [draw] at h
  split at h
  · cases h
  · next hfresh =>
    obtain ⟨⟨_, w₁⟩, hrun, rfl⟩ := Option.map_eq_some_iff.mp h
    obtain ⟨db, hok, hw₁⟩ := run_eq_some.mp hrun
    exact ⟨hfresh, db, hok, by rw [show w₁ = _ from hw₁]⟩

/-! ## What one step does -/

/-- The tables are as they were, and nobody took up a job. -/
structure Unchanged (w w' : World ρ) : Prop where
  jobs : w'.db.jobs = w.db.jobs
  evaluations : w'.db.evaluations = w.db.evaluations
  runs : w'.db.runs = w.db.runs
  repositories : ∀ id, (w.db.repositories id).isSome = true → (w'.db.repositories id).isSome = true
  jobIds : w'.jobIds = w.jobIds
  accepted : w'.accepted = w.accepted
  native : w'.native = w.native
  workers : ∀ worker inFlight, w'.workers worker = some inFlight → ∃ before,
    w.workers worker = some before ∧ inFlight.job = before.job ∧
      (inFlight.phase = .claimed → before.phase = .claimed)

/-- Everything the step of an action can do, with the guard of each case. -/
inductive Change (env : OutboxEnv ρ) (w : World ρ) (a : Action) : World ρ → Prop where
  | unchanged {w' : World ρ} (hrows : Unchanged w w') (hexecutions : w'.executions = w.executions) :
      Change env w a w'
  | executing {worker : String} {job : ClaimedOutboxJob} {claimNow : ℕ}
      (hat : w.workers worker = some ⟨job, claimNow, .claimed⟩) :
      Change env w a { w.setWorker worker (some ⟨job, claimNow, .executing⟩) with
        executions := Function.update w.executions job.id (w.executions job.id + 1) }
  | unneeded {jobId : String} (hfresh : jobId ∉ w.jobIds) :
      Change env w a { w with jobIds := jobId :: w.jobIds }
  | rebuild {jobId repoId : String} {repoVersion now : ℕ} {job : OutboxJob} (hfresh : jobId ∉ w.jobIds)
      (hjob : job = .ready jobId PROJECTION_READ_MODEL_REBUILD repoId repoVersion
        (.projection repoId repoVersion) now)
      (hadded : Added w.db (insertJob w.db job) job) :
      Change env w a { w with db := insertJob w.db job, jobIds := jobId :: w.jobIds }
  | push {jobId : String} {push : AcceptedPush} {now : ℕ} {db : OutboxDb ρ} (hfresh : jobId ∉ w.jobIds)
      (haccepted : Accepted w.db db jobId push now) :
      Change env w a { w with db, jobIds := jobId :: w.jobIds, accepted := push :: w.accepted }
  | claim {worker : String} {now : ℕ} {job : OutboxJob} (hclaim : a = .claim worker now)
      (hidle : w.workers worker = none) (hnext : nextRunnableJob w.db now = some job) :
      Change env w a ({ w with
        db := claimJob w.db job.id worker (now + DEFAULT_JOB_LEASE_SECS) now }.setWorker worker
          (some ⟨job.toClaim, now, .claimed⟩))
  | completed {worker : String} {inFlight : InFlight} {executed : OutboxDb ρ} {old : OutboxJob}
      {now : ℕ} (hat : w.workers worker = some inFlight)
      (hexecuted : Executed env inFlight.job w.db executed) (hold : old ∈ w.db.jobs)
      (hid : old.id = inFlight.job.id) (howner : old.leaseOwner = some worker) :
      Change env w a { w.setWorker worker none with
        db := completeJob executed old.id worker now
        native := if evaluatesNatively w.db inFlight.job = true then
            (inFlight.job.repoId, inFlight.job.repoVersion) :: w.native
          else w.native }
  | failed {worker message : String} {inFlight : InFlight} {now : ℕ} {u : Unit} {db : OutboxDb ρ}
      (hat : w.workers worker = some inFlight)
      (hrecorded : (failOutboxJob inFlight.job worker message now).run w.db = .ok u db) :
      Change env w a { w.setWorker worker none with db }
  | pruned (now : ℕ) :
      Change env w a { w with
        db := { w.db with jobs := w.db.jobs.delete (OutboxJob.isPrunable now) } }

theorem unchanged_setWorker {worker : String} {inFlight set : InFlight}
    (hat : w.workers worker = some inFlight) (hjob : set.job = inFlight.job)
    (hphase : set.phase = .claimed → inFlight.phase = .claimed) :
    Unchanged w (w.setWorker worker (some set)) := by
  refine ⟨rfl, rfl, rfl, fun _ h => h, rfl, rfl, rfl, fun x f hx => ?_⟩
  rcases workers_setWorker hx with ⟨rfl, rfl⟩ | hbefore
  · exact ⟨inFlight, hat, hjob, hphase⟩
  · exact ⟨f, hbefore, rfl, id⟩

theorem unchanged_idle (worker : String) : Unchanged w (w.setWorker worker none) :=
  ⟨rfl, rfl, rfl, fun _ h => h, rfl, rfl, rfl, fun _ f hx => ⟨f, setWorker_eq_some hx, rfl, id⟩⟩

theorem claim_change {worker : String} {now : ℕ} (h : w.claim worker now = some w') :
    Change env w (.claim worker now) w' := by
  rw [claim] at h
  split at h
  · cases h
  · next hidle =>
    obtain ⟨⟨claimed, w₁⟩, hrun, rfl⟩ := Option.map_eq_some_iff.mp h
    obtain ⟨db, hok, hw₁⟩ := run_eq_some.mp hrun
    obtain rfl : w₁ = { w with db } := hw₁
    rcases claimNextReadyJob_eq_ok hok with ⟨hnone, rfl⟩ | ⟨job, hjob, hsome, rfl⟩
    · obtain rfl : claimed = none := hnone
      exact .unchanged (unchanged_idle worker) rfl
    · obtain rfl : claimed = some job.toClaim := hsome
      exact .claim rfl hidle hjob

theorem settle_change {a : Action} {worker : String} {inFlight : InFlight} {now : ℕ}
    {interrupted : Option PostgresError} (hat : w.workers worker = some inFlight)
    (hrepo : (w.db.repositories inFlight.job.repoId).isSome = true) :
    Change env w a (w.settle env worker inFlight now interrupted) := by
  rw [settle]
  cases hresult : executeAndComplete env inFlight.job worker inFlight.claimNowUnix now interrupted
    w.db with
  | mk db settled =>
    cases settled with
    | completed created =>
      obtain ⟨executed, old, hexecuted, hold, hid, howner, rfl⟩ :=
        executeAndComplete_eq_completed hrepo hresult
      exact .completed hat hexecuted hold hid howner
    | failing message =>
      exact .unchanged (unchanged_setWorker hat rfl fun h => by cases h) rfl
    | stopped error => exact .unchanged (unchanged_idle worker) rfl

theorem step_change {a : Action} (hjobs : w.JobsInv) (h : w.step env a = some w') :
    Change env w a w' := by
  cases a with
  | tick seconds =>
    cases h
    exact .unchanged ⟨rfl, rfl, rfl, fun _ h => h, rfl, rfl, rfl, fun _ f hx => ⟨f, hx, rfl, id⟩⟩ rfl
  | setContentVersion repoId version =>
    cases h
    refine .unchanged ⟨rfl, rfl, rfl, fun id hid => ?_, rfl, rfl, rfl,
      fun _ f hx => ⟨f, hx, rfl, fun h => h⟩⟩ rfl
    by_cases hsame : id = repoId
    · simp [hsame]
    · simpa [Function.update_of_ne hsame] using hid
  | setNativeRuns repoId listed =>
    cases h
    exact .unchanged ⟨rfl, rfl, rfl, fun _ h => h, rfl, rfl, rfl, fun _ f hx => ⟨f, hx, rfl, id⟩⟩ rfl
  | enqueueRebuild jobId repoId repoVersion nowUnix =>
    obtain ⟨hfresh, db, hok, rfl⟩ := draw_eq_some (now_eq_some.mp h).2
    rcases enqueueProjectionReadModelRebuild_eq_ok hok with rfl | ⟨job, hjob, hadded, rfl⟩
    · exact .unneeded hfresh
    · exact .rebuild hfresh hjob hadded
  | enqueuePush jobId push nowUnix =>
    obtain ⟨w₁, hdraw, rfl⟩ := Option.map_eq_some_iff.mp (now_eq_some.mp h).2
    obtain ⟨hfresh, db, hok, rfl⟩ := draw_eq_some hdraw
    exact .push hfresh (enqueuePushMainTriggerEvaluation_eq_ok hok)
  | claim worker nowUnix => exact claim_change (now_eq_some.mp h).2
  | execute worker =>
    simp only [step] at h
    split at h
    · next hat =>
      cases h
      exact .executing hat
    · cases h
  | settle worker completionNowUnix interrupted =>
    simp only [step, Option.ite_none_right_eq_some] at h
    obtain ⟨-, h⟩ := h
    split at h
    · next hat =>
      cases h
      exact settle_change hat (hjobs.held worker _ hat).repository
    · cases h
  | fail worker nowUnix =>
    obtain ⟨-, hfail⟩ := now_eq_some.mp h
    split at hfail
    · next hat =>
      cases hfail
      rw [recordFailure]
      split
      · next hok => exact .failed hat hok
      · exact .unchanged (unchanged_idle worker) rfl
    · cases hfail
  | stop worker =>
    cases h
    exact .unchanged (unchanged_idle worker) rfl
  | prune nowUnix =>
    obtain ⟨⟨_, w₁⟩, hrun, rfl⟩ := Option.map_eq_some_iff.mp (now_eq_some.mp h).2
    obtain ⟨db, hok, hw₁⟩ := run_eq_some.mp hrun
    obtain rfl : w₁ = { w with db } := hw₁
    cases modify_eq_ok.mp hok
    exact .pruned nowUnix

/-! ## The invariant survives -/

theorem isPrunable_eq_false {job : OutboxJob} {now : ℕ} (hopen : job.isUnfinished = true) :
    job.isPrunable now = false := by
  rw [OutboxJob.isUnfinished, Bool.or_eq_true, decide_eq_true_eq, decide_eq_true_eq] at hopen
  rcases hopen with hstate | hstate <;> simp [OutboxJob.isPrunable, hstate]

/-- The owner of a job is at work on it. -/
theorem JobsInv.isUnfinished_of_owner (hjobs : w.JobsInv) {old : OutboxJob} {worker : String}
    (hold : old ∈ w.db.jobs) (howner : old.leaseOwner = some worker) : old.isUnfinished = true := by
  have hrunning := (hjobs.consistent old hold).owner (by simp [howner])
  simp [OutboxJob.isUnfinished, hrunning]

theorem JobsInv.replaced_of_completed {executed : OutboxDb ρ} {inFlight : InFlight}
    {old : OutboxJob} {worker : String} {now : ℕ} (hexecuted : Executed env inFlight.job w.db executed)
    (hold : old ∈ w.db.jobs) (howner : old.leaseOwner = some worker) :
    Replaced w.db (completeJob executed old.id worker now) old (old.completed now) := by
  have hsame := (executed_frame hexecuted).1
  exact Replaced.of_jobs_eq (replaced_completeJob (hsame ▸ hold) howner) hsame

theorem inv_change {a : Action} (hjobs : w.JobsInv) (hinv : PushesInv env w)
    (h : Change env w a w') :
    w'.JobsInv ∧ PushesInv env w' := by
  cases h with
  | unchanged hrows hexecutions =>
    exact ⟨hjobs.of_subset (fun job hjob => hrows.jobs ▸ hjob) hrows.repositories
      (fun id hid => hrows.jobIds ▸ hid) fun x f hx => by
        obtain ⟨before, hbefore, hjob, -⟩ := hrows.workers x f hx
        exact ⟨before, hbefore, hjob⟩,
      hinv.of_jobs hrows.evaluations hrows.runs hrows.accepted hrows.native
        (fun job hjob _ => hrows.jobs ▸ hjob) fun job hjob _ => hrows.jobs ▸ hjob⟩
  | @executing worker job claimNow hat =>
    refine ⟨hjobs.of_subset (fun _ h => h) (fun _ h => h) (fun _ h => h) fun x f hx => ?_,
      hinv.of_jobs rfl rfl rfl rfl (fun _ h _ => h) fun _ h _ => h⟩
    rcases workers_setWorker hx with ⟨rfl, rfl⟩ | hbefore
    · exact ⟨_, hat, rfl⟩
    · exact ⟨f, hbefore, rfl⟩
  | unneeded hfresh =>
    exact ⟨hjobs.of_subset (fun _ h => h) (fun _ h => h) (fun _ h => List.mem_cons_of_mem _ h)
      fun x f hx => ⟨f, hx, rfl⟩, hinv.of_jobs rfl rfl rfl rfl (fun _ h _ => h) fun _ h _ => h⟩
  | rebuild hfresh hjob hadded =>
    subst hjob
    refine ⟨hjobs.of_added hadded hfresh rfl rfl rfl, hinv.of_jobs rfl rfl rfl rfl
      (fun job hjob hkind => ?_) fun job hjob _ => (hadded.mem_iff job).mpr (.inl hjob)⟩
    rcases (hadded.mem_iff job).mp hjob with hold | rfl
    · exact hold
    · exact absurd hkind (show PROJECTION_READ_MODEL_REBUILD ≠ JOB_KIND by decide)
  | push hfresh haccepted =>
    refine ⟨?_, hinv.of_accepted haccepted rfl rfl⟩
    obtain ⟨evaluation, -, -, -, ⟨-, hsame⟩ | ⟨-, hadded⟩⟩ := haccepted.evaluation
    · exact hjobs.of_subset (fun job hjob => hsame ▸ hjob) (fun id hid => haccepted.repositories ▸ hid)
        (fun _ h => List.mem_cons_of_mem _ h) fun x f hx => ⟨f, hx, rfl⟩
    · exact hjobs.of_added hadded hfresh haccepted.repositories rfl rfl
  | @claim worker now job hclaim hidle hnext =>
    obtain ⟨hmem, hlive, hopen⟩ := nextRunnableJob_eq_some hnext
    have hreplaced : Replaced w.db
        (claimJob w.db job.id worker (now + DEFAULT_JOB_LEASE_SECS) now) job
        (job.claimed worker (now + DEFAULT_JOB_LEASE_SECS) now) := replaced_claimJob hmem hlive
    refine ⟨hjobs.of_replaced hreplaced ((hjobs.consistent job hmem).claimed hopen ..) rfl rfl
      fun x f hx => ?_, hinv.of_replaced hjobs hreplaced rfl (fun e he => .inl he)
        (fun e he => .inl he) (fun hkind => ?_) (fun row hrow => hrow) hinv.runs
        fun key hkey => .inl hkey⟩
    · rcases workers_setWorker hx with ⟨rfl, rfl⟩ | hbefore
      · exact .inr ⟨rfl, rfl⟩
      · refine .inl ⟨hbefore, fun howner => ?_⟩
        cases howner
        simp [hidle] at hbefore
    · obtain ⟨e, he, hek, hpending⟩ := hinv.exists_pending hmem hkind hopen
      exact ⟨e, he, hek, iff_of_true hpending rfl⟩
  | @completed worker inFlight executed old now hat hexecuted hold hid howner =>
    exact ⟨hjobs.of_replaced (JobsInv.replaced_of_completed hexecuted hold howner) (.completed now)
      (executed_frame hexecuted).2 rfl fun x f hx =>
        .inl ⟨setWorker_eq_some hx, by simp [OutboxJob.completed]⟩,
      hinv.completed hjobs (hjobs.held worker _ hat) hexecuted hold hid howner⟩
  | @failed worker message inFlight now u db hat hrecorded =>
    exact inv_recorded hinv hjobs (hjobs.held worker _ hat) hrecorded
  | pruned now =>
    have hsub : ∀ job ∈ w.db.jobs.delete (OutboxJob.isPrunable now), job ∈ w.db.jobs :=
      fun job hjob => (Table.mem_delete.mp hjob).1
    exact ⟨hjobs.of_subset hsub (fun _ h => h) (fun _ h => h) fun x f hx => ⟨f, hx, rfl⟩,
      hinv.of_jobs rfl rfl rfl rfl (fun job hjob _ => hsub job hjob) fun job hjob hopen =>
        Table.mem_delete.mpr ⟨hjob, isPrunable_eq_false hopen⟩⟩

end World

end ScopeVcs.Outbox

import ScopeVcs.Runs.Aggregate
import ScopeVcs.Runs.JobGraph
import ScopeVcs.Runs.JobTransitions

/-! # Fencing of attempts

The invariant behind the fence: the attempts of a job are numbered in dispatch order, and at most
the one with the last number is active, exactly while its job is on a runner and names it.
-/

namespace ScopeVcs

open Mutation Relation

/-! ## What a change keeps -/

/-- What every change on an attempt keeps: it is made on the current, active attempt, moves neither
record to another identity, and either leaves the attempt active on its job or ends it and takes
the job off the runner. -/
structure HeldFrame (held held' : Held) : Prop where
  current : held.job.IsCurrent held.attempt
  active : held.attempt.state.isTerminal = false
  attemptId : held'.attempt.id = held.attempt.id
  attemptRunId : held'.attempt.runId = held.attempt.runId
  attemptKey : held'.attempt.jobKey = held.attempt.jobKey
  attemptNumber : held'.attempt.number = held.attempt.number
  jobRunId : held'.job.runId = held.job.runId
  jobKey : held'.job.key = held.job.key
  jobNumber : held'.job.lastAttemptNumber = held.job.lastAttemptNumber
  result : (held'.attempt.state.isTerminal = false ∧
      held'.job.currentAttemptId = held.job.currentAttemptId ∧
      (statesAlign held.job.state held.attempt.state = true →
        statesAlign held'.job.state held'.attempt.state = true)) ∨
    (held'.attempt.state.isTerminal = true ∧ held'.job.currentAttemptId = none ∧
      held'.job.isActive = false)

theorem EndsAs.isTerminal {held : Held} {now : ℕ} {state : AttemptState}
    {reason : Option AttemptTerminalReason} {steps : List RunAttemptStep}
    (h : EndsAs held now state reason steps) : state.isTerminal = true := by
  cases h <;> rfl

theorem HeldStep.frame {clock : Prop} {now : ℕ} {held held' : Held}
    (h : HeldStep clock now held held') : HeldFrame held held' := by
  cases h with
  | claim hcur hstate hlease htoken hclock =>
    have hactive : held.attempt.state.isTerminal = false := by rw [hstate]; rfl
    exact ⟨hcur, hactive, rfl, rfl, rfl, rfl, rfl, rfl, rfl, .inl ⟨hactive, rfl, id⟩⟩
  | start hcur hstate hheartbeat hlease htime =>
    have hactive : held.attempt.state.isTerminal = false := by rw [hstate]; rfl
    exact ⟨hcur, hactive, rfl, rfl, rfl, rfl, rfl, rfl, rfl, .inl ⟨rfl, rfl, fun _ => rfl⟩⟩
  | renew hcur hactive hheartbeat hlease hlonger =>
    exact ⟨hcur, hactive, rfl, rfl, rfl, rfl, rfl, rfl, rfl, .inl ⟨hactive, rfl, id⟩⟩
  | truncate hcur hactive =>
    exact ⟨hcur, hactive, rfl, rfl, rfl, rfl, rfl, rfl, rfl, .inl ⟨hactive, rfl, id⟩⟩
  | startStep hcur hstate hstep hpending hbefore htime =>
    have hactive : held.attempt.state.isTerminal = false := by rw [hstate]; rfl
    exact ⟨hcur, hactive, rfl, rfl, rfl, rfl, rfl, rfl, rfl, .inl ⟨hactive, rfl, id⟩⟩
  | succeedStep hcur hactive hstep hrunning htime =>
    exact ⟨hcur, hactive, rfl, rfl, rfl, rfl, rfl, rfl, rfl, .inl ⟨hactive, rfl, id⟩⟩
  | @finish state reason steps job hcur hactive htime hclock hends hjob halign =>
    have hjob' : job.runId = held.job.runId ∧ job.key = held.job.key ∧
        job.lastAttemptNumber = held.job.lastAttemptNumber ∧ job.currentAttemptId = none ∧
        job.isActive = false := by
      cases hjob with
      | @terminal state hstate =>
        refine ⟨rfl, rfl, rfl, rfl, ?_⟩
        revert hstate
        cases state <;> simp [RunJob.isActive]
      | requeued => exact ⟨rfl, rfl, rfl, rfl, rfl⟩
      | rejected =>
        refine ⟨rfl, rfl, rfl, rfl, ?_⟩
        simp only [RunJob.isActive]
        split <;> simp
    obtain ⟨hrunId, hkey, hnumber, hnone, hidle⟩ := hjob'
    exact ⟨hcur, hactive, rfl, rfl, rfl, rfl, hrunId, hkey, hnumber,
      .inr ⟨hends.isTerminal, hnone, hidle⟩⟩

/-! ## The invariant -/

namespace RunAggregate

/-- The number of an attempt of the job with the given key. -/
def numberOf (key : WorkflowJobId) (entry : RunAttempt × List RunAttemptStep) : Option ℕ :=
  if entry.1.jobKey = key then some entry.1.number else none

/-- The numbers of a job's attempts, in dispatch order. -/
def attemptNumbers (state : RunAggregate) (key : WorkflowJobId) : List ℕ :=
  state.attempts.filterMap (numberOf key)

structure Fenced (state : RunAggregate) : Prop where
  keys : (state.jobs.map (·.key)).Nodup
  runIds : ∀ job ∈ state.jobs, job.runId = state.run.id
  attempts : ∀ entry ∈ state.attempts, ∃ job ∈ state.jobs, job.key = entry.1.jobKey
  numbers : ∀ job ∈ state.jobs,
    state.attemptNumbers job.key = List.range' 1 job.lastAttemptNumber
  limit : ∀ job ∈ state.jobs, job.lastAttemptNumber ≤ maxRunAttempts
  idle : ∀ job ∈ state.jobs, job.isActive = false → job.currentAttemptId = none
  current : ∀ job ∈ state.jobs, ∀ entry ∈ state.attempts, entry.1.jobKey = job.key →
    entry.1.state.isTerminal = false →
      job.IsCurrent entry.1 ∧ statesAlign job.state entry.1.state = true
  working : ∀ job ∈ state.jobs, job.isActive = true →
    ∃ entry ∈ state.attempts, entry.1.jobKey = job.key ∧ entry.1.state.isTerminal = false
  ended : state.run.state.isTerminal = true → ∀ job ∈ state.jobs, job.state.isTerminal = true

theorem isActive_of_statesAlign {job : RunJobState} {attempt : AttemptState}
    (h : statesAlign job attempt = true) (hactive : attempt.isTerminal = false) :
    job = .dispatching ∨ job = .running := by
  cases job <;> cases attempt <;> simp_all [statesAlign, AttemptState.isTerminal]

/-- A job that is not on a runner has no active attempt. -/
theorem Fenced.isTerminal_of_idle {state : RunAggregate} (h : Fenced state) {job : RunJob}
    (hjob : job ∈ state.jobs) (hidle : job.isActive = false)
    {entry : RunAttempt × List RunAttemptStep} (hentry : entry ∈ state.attempts)
    (hkey : entry.1.jobKey = job.key) : entry.1.state.isTerminal = true := by
  by_contra hterm
  rw [Bool.not_eq_true] at hterm
  have halign := (h.current job hjob entry hentry hkey hterm).2
  have hactive := isActive_of_statesAlign halign hterm
  simp [RunJob.isActive, hactive] at hidle

/-- Two jobs with one key are the same job. -/
theorem Fenced.job_unique {state : RunAggregate} (h : Fenced state) {i j : ℕ} {a b : RunJob}
    (ha : state.jobs[i]? = some a) (hb : state.jobs[j]? = some b) (hkey : a.key = b.key) :
    i = j := by
  have hnodup : (state.jobs.filterMap fun job => some job.key).Nodup := by
    simpa [List.filterMap_eq_map'] using h.keys
  exact ListUpdate.index_unique hnodup ha hb rfl (by rw [hkey])

/-- Two attempts of a job with one number are the same attempt. -/
theorem Fenced.attempt_unique {state : RunAggregate} (h : Fenced state) {job : RunJob}
    (hjob : job ∈ state.jobs) {i j : ℕ} {a b : RunAttempt × List RunAttemptStep}
    (ha : state.attempts[i]? = some a) (hb : state.attempts[j]? = some b)
    (hakey : a.1.jobKey = job.key) (hbkey : b.1.jobKey = job.key)
    (hnumber : a.1.number = b.1.number) : i = j := by
  have hnodup : (state.attempts.filterMap (numberOf job.key)).Nodup := by
    have := h.numbers job hjob
    rw [attemptNumbers] at this
    rw [this]
    exact List.nodup_range'
  have hanumber : numberOf job.key a = some a.1.number := by simp [numberOf, hakey]
  have hbnumber : numberOf job.key b = some a.1.number := by simp [numberOf, hbkey, hnumber]
  exact ListUpdate.index_unique hnodup ha hb hanumber hbnumber

/-- A job of the updated list is the changed one, or an old one with another key. -/
theorem Fenced.mem_jobs_set {state : RunAggregate} (h : Fenced state) {j : ℕ}
    {job job' other : RunJob} (hjob : state.jobs[j]? = some job)
    (hmem : other ∈ state.jobs.set j job') :
    other = job' ∨ (other ∈ state.jobs ∧ other.key ≠ job.key) := by
  rcases ListUpdate.mem_set_cases hmem with rfl | ⟨k, hk, hget⟩
  · exact .inl rfl
  · exact .inr ⟨List.mem_of_getElem? hget, fun hkey => hk (h.job_unique hget hjob hkey)⟩

/-- An attempt of the updated list is the changed one, or an old one of another job or number. -/
theorem Fenced.mem_attempts_set {state : RunAggregate} (h : Fenced state) {job : RunJob}
    (hjob : job ∈ state.jobs) {a : ℕ} {entry entry' other : RunAttempt × List RunAttemptStep}
    (hentry : state.attempts[a]? = some entry) (hkey : entry.1.jobKey = job.key)
    (hmem : other ∈ state.attempts.set a entry') :
    other = entry' ∨ (other ∈ state.attempts ∧
      (other.1.jobKey = job.key → other.1.number ≠ entry.1.number)) := by
  rcases ListUpdate.mem_set_cases hmem with rfl | ⟨k, hk, hget⟩
  · exact .inl rfl
  · exact .inr ⟨List.mem_of_getElem? hget, fun hkey' hnumber =>
      hk (h.attempt_unique hjob hget hentry hkey' hkey hnumber)⟩

/-! ## Operations on attempts keep the invariant -/

theorem held?_eq_some {state : RunAggregate} {j a : ℕ} {held : Held} :
    state.held? j a = some held ↔
      state.jobs[j]? = some held.job ∧ state.attempts[a]? = some (held.attempt, held.steps) := by
  obtain ⟨attempt, job, steps⟩ := held
  simp only [held?, bind, Option.bind_eq_some_iff, pure, Option.some_inj, Held.mk.injEq,
    Prod.exists]
  constructor
  · rintro ⟨_, hjob, _, _, hattempt, rfl, rfl, rfl⟩
    exact ⟨hjob, hattempt⟩
  · rintro ⟨hjob, hattempt⟩
    exact ⟨job, hjob, attempt, steps, hattempt, rfl, rfl, rfl⟩

theorem held?_setHeld {state : RunAggregate} {j a : ℕ} {held : Held}
    (h : state.held? j a = some held) (held' : Held) :
    (state.setHeld j a held').held? j a = some held' := by
  obtain ⟨hjob, hattempt⟩ := held?_eq_some.mp h
  have hj : j < state.jobs.length := (List.getElem?_eq_some_iff.mp hjob).1
  have ha : a < state.attempts.length := (List.getElem?_eq_some_iff.mp hattempt).1
  exact held?_eq_some.mpr ⟨by simp [setHeld, hj], by simp [setHeld, ha]⟩

theorem setHeld_setHeld (state : RunAggregate) (j a : ℕ) (held held' : Held) :
    (state.setHeld j a held).setHeld j a held' = state.setHeld j a held' := by
  simp [setHeld]

theorem setHeld_self {state : RunAggregate} {j a : ℕ} {held : Held}
    (h : state.held? j a = some held) : state.setHeld j a held = state := by
  obtain ⟨hjob, hattempt⟩ := held?_eq_some.mp h
  simp [setHeld, ListUpdate.set_self hjob, ListUpdate.set_self hattempt]

/-- A change on one attempt and its job keeps the invariant. -/
theorem Fenced.setHeld {state : RunAggregate} (h : Fenced state) {j a : ℕ} {held held' : Held}
    (hheld : state.held? j a = some held) (hframe : HeldFrame held held') :
    Fenced (state.setHeld j a held') := by
  obtain ⟨hjob, hattempt⟩ := held?_eq_some.mp hheld
  have hjobMem : held.job ∈ state.jobs := List.mem_of_getElem? hjob
  have hattemptMem : (held.attempt, held.steps) ∈ state.attempts := List.mem_of_getElem? hattempt
  have hcur := hframe.current
  have halign := (h.current held.job hjobMem _ hattemptMem hcur.jobKey hframe.active).2
  have hjobCases : ∀ job ∈ (state.setHeld j a held').jobs,
      job = held'.job ∨ (job ∈ state.jobs ∧ job.key ≠ held.job.key) :=
    fun _ hmem => h.mem_jobs_set hjob hmem
  have hattemptCases : ∀ entry ∈ (state.setHeld j a held').attempts,
      entry = (held'.attempt, held'.steps) ∨ (entry ∈ state.attempts ∧
        (entry.1.jobKey = held.job.key → entry.1.number ≠ held.attempt.number)) :=
    fun _ hmem => h.mem_attempts_set hjobMem hattempt hcur.jobKey hmem
  have hkeys : (state.setHeld j a held').jobs.map (·.key) = state.jobs.map (·.key) :=
    ListUpdate.map_set hjob hframe.jobKey
  have hnumbers : ∀ key, (state.setHeld j a held').attemptNumbers key = state.attemptNumbers key :=
    fun key => ListUpdate.filterMap_set hattempt
      (by simp [numberOf, hframe.attemptKey, hframe.attemptNumber])
  have hjobNew : held'.job ∈ (state.setHeld j a held').jobs := ListUpdate.mem_set_self hjob
  have hattemptNew : (held'.attempt, held'.steps) ∈ (state.setHeld j a held').attempts :=
    ListUpdate.mem_set_self hattempt
  refine ⟨hkeys ▸ h.keys, ?_, ?_, ?_, ?_, ?_, ?_, ?_, ?_⟩
  · intro job hmem
    rcases hjobCases job hmem with rfl | ⟨hold, -⟩
    · exact hframe.jobRunId.trans (h.runIds _ hjobMem)
    · exact h.runIds job hold
  · intro entry hmem
    have hkey : ∃ old ∈ state.attempts, old.1.jobKey = entry.1.jobKey := by
      rcases hattemptCases entry hmem with rfl | ⟨hold, -⟩
      · exact ⟨_, hattemptMem, hframe.attemptKey.symm⟩
      · exact ⟨entry, hold, rfl⟩
    obtain ⟨old, hold, hkey⟩ := hkey
    obtain ⟨job, hmem', hjkey⟩ := h.attempts old hold
    have hmap : entry.1.jobKey ∈ state.jobs.map (·.key) :=
      List.mem_map.mpr ⟨job, hmem', hjkey.trans hkey⟩
    obtain ⟨job', hjob', hjkey'⟩ := List.mem_map.mp (hkeys ▸ hmap)
    exact ⟨job', hjob', hjkey'⟩
  · intro job hmem
    rw [hnumbers]
    rcases hjobCases job hmem with rfl | ⟨hold, -⟩
    · rw [hframe.jobKey, hframe.jobNumber]
      exact h.numbers _ hjobMem
    · exact h.numbers job hold
  · intro job hmem
    rcases hjobCases job hmem with rfl | ⟨hold, -⟩
    · exact hframe.jobNumber ▸ h.limit _ hjobMem
    · exact h.limit job hold
  · intro job hmem hidle
    rcases hjobCases job hmem with rfl | ⟨hold, -⟩
    · rcases hframe.result with ⟨hterm, -, halign'⟩ | ⟨-, hnone, -⟩
      · have hbusy := isActive_of_statesAlign (halign' halign) hterm
        simp [RunJob.isActive, hbusy] at hidle
      · exact hnone
    · exact h.idle job hold hidle
  · intro job hmem entry hentry hkey hterm
    rcases hjobCases job hmem with rfl | ⟨hold, hne⟩
    · rcases hattemptCases entry hentry with rfl | ⟨holdEntry, hnumber⟩
      · rcases hframe.result with ⟨-, hid, halign'⟩ | ⟨hended, -⟩
        · refine ⟨⟨?_, ?_, ?_, ?_⟩, halign' halign⟩
          · rw [hframe.attemptRunId, hframe.jobRunId, hcur.runId]
          · rw [hframe.attemptKey, hframe.jobKey, hcur.jobKey]
          · rw [hframe.attemptNumber, hframe.jobNumber, hcur.number]
          · rw [hid, hcur.id, hframe.attemptId]
        · simp [hended] at hterm
      · have hkey' : entry.1.jobKey = held.job.key := hkey.trans hframe.jobKey
        have hcur' := (h.current held.job hjobMem entry holdEntry hkey' hterm).1
        exact absurd (hcur'.number.trans hcur.number.symm) (hnumber hkey')
    · rcases hattemptCases entry hentry with rfl | ⟨holdEntry, -⟩
      · exact absurd (hkey.symm.trans (hframe.attemptKey.trans hcur.jobKey)) hne
      · exact h.current job hold entry holdEntry hkey hterm
  · intro job hmem hactive
    rcases hjobCases job hmem with rfl | ⟨hold, hne⟩
    · rcases hframe.result with ⟨hterm, -⟩ | ⟨-, -, hidle⟩
      · exact ⟨_, hattemptNew, by rw [hframe.attemptKey, hframe.jobKey, hcur.jobKey], hterm⟩
      · simp [hidle] at hactive
    · obtain ⟨entry, hentry, hkey, hterm⟩ := h.working job hold hactive
      obtain ⟨k, hk⟩ := List.mem_iff_getElem?.mp hentry
      refine ⟨entry, ListUpdate.mem_set_of_getElem? hk ?_, hkey, hterm⟩
      rintro rfl
      rw [hattempt] at hk
      exact hne (hkey.symm.trans (Option.some_inj.mp hk ▸ hcur.jobKey))
  · intro hended
    have hjobEnded := h.ended hended held.job hjobMem
    rcases isActive_of_statesAlign halign hframe.active with hstate | hstate <;>
      simp [hstate, RunJobState.isTerminal] at hjobEnded

/-- A whole operation keeps the invariant. -/
theorem Fenced.setHeld_steps {clock : Prop} {now : ℕ} {state : RunAggregate} (h : Fenced state)
    {j a : ℕ} {held held' : Held} (hheld : state.held? j a = some held)
    (hsteps : ReflTransGen (HeldStep clock now) held held') :
    Fenced (state.setHeld j a held') := by
  induction hsteps with
  | refl => rwa [setHeld_self hheld]
  | tail _ hlast ih =>
    have hnext := ih.setHeld (held?_setHeld hheld _) hlast.frame
    rwa [setHeld_setHeld] at hnext

end RunAggregate

/-! ## Dispatch -/

/-- What a successful dispatch checked, and the attempt and job it makes. -/
structure Dispatched (run : Run) (definition : WorkflowJob)
    (attemptId tokenHash runtimeVersion : String) (now lease : ℕ) (job : RunJob)
    (result : RunAttempt × List RunAttemptStep) (job' : RunJob) : Prop where
  runId : job.runId = run.id
  key : job.key = definition.id
  queued : job.state = .queued
  noAttempt : job.currentAttemptId = none
  leaseAhead : now < lease
  time : job.updatedAtUnix ≤ now
  notBlocked : ¬ job.retryBlocksDispatch now
  idGiven : Text.isBlank attemptId = false
  tokenValid : isSha256Hash tokenHash = true
  number : job.lastAttemptNumber + 1 ≤ maxRunAttempts
  versionGiven : Text.isBlank runtimeVersion = false
  steps : RunJob.pendingSteps attemptId definition = .ok result.2
  attempt : result.1 = job.newAttempt run attemptId tokenHash runtimeVersion now lease
  jobAfter : job' = job.dispatched attemptId now

theorem RunJob.dispatched_of_ok {run : Run} {definition : WorkflowJob}
    {attemptId tokenHash runtimeVersion : String} {now lease : ℕ} {job job' : RunJob}
    {result : RunAttempt × List RunAttemptStep}
    (h : (dispatch run definition attemptId tokenHash runtimeVersion now lease).run job =
      .ok result job') :
    Dispatched run definition attemptId tokenHash runtimeVersion now lease job result job' := by
  simp only [dispatch, check_unit_bind_eq_ok, rejectIf_eq_ok, not_or, not_not, not_le,
    ensureTimeNotBeforeUpdate_eq_ok] at h
  obtain ⟨⟨hrunId, hkey⟩, ⟨hqueued, hnone⟩, -, hlease, htime, hretry, h⟩ := h
  obtain ⟨id, hid, h⟩ := check_bind_eq_ok.mp h
  obtain ⟨hblank, rfl⟩ := required_eq_ok.mp hid
  simp only [check_unit_bind_eq_ok, rejectIf_eq_ok, not_lt, validateSha256Hash_eq_ok] at h
  obtain ⟨htoken, -, hnumber, h⟩ := h
  obtain ⟨version, hversion, h⟩ := check_bind_eq_ok.mp h
  obtain ⟨hgiven, rfl⟩ := required_eq_ok.mp hversion
  obtain ⟨steps, hsteps, h⟩ := check_bind_eq_ok.mp h
  cases h
  exact ⟨hrunId, hkey, hqueued, hnone, hlease, htime, hretry, hblank, htoken, hnumber, hgiven,
    hsteps, rfl, rfl⟩

namespace RunAggregate

/-- A new attempt takes the next number and is the only active one of its job. -/
theorem Fenced.dispatch {state : RunAggregate} (h : Fenced state) {j : ℕ} {job job' : RunJob}
    {definition : WorkflowJob} {attemptId tokenHash runtimeVersion : String} {now lease : ℕ}
    {attempt : RunAttempt} {steps : List RunAttemptStep} (hjob : state.jobs[j]? = some job)
    (hdisp : Dispatched state.run definition attemptId tokenHash runtimeVersion now lease job
      (attempt, steps) job') :
    Fenced { state with
      jobs := state.jobs.set j job'
      attempts := state.attempts ++ [(attempt, steps)] } := by
  obtain ⟨hrunId, hkey, hqueued, hnone, hlease, htime, hretry, hblank, htoken, hnumber, hversion,
    hsteps, rfl, rfl⟩ := hdisp
  have hjobMem : job ∈ state.jobs := List.mem_of_getElem? hjob
  have hidle : job.isActive = false := by simp [RunJob.isActive, hqueued]
  have hjobCases : ∀ other ∈ state.jobs.set j (job.dispatched attemptId now),
      other = job.dispatched attemptId now ∨ (other ∈ state.jobs ∧ other.key ≠ job.key) :=
    fun _ hmem => h.mem_jobs_set hjob hmem
  have hkeys : (state.jobs.set j (job.dispatched attemptId now)).map (·.key) =
      state.jobs.map (·.key) := ListUpdate.map_set hjob rfl
  refine ⟨hkeys ▸ h.keys, ?_, ?_, ?_, ?_, ?_, ?_, ?_, ?_⟩
  · intro other hmem
    rcases hjobCases other hmem with rfl | ⟨hold, -⟩
    · exact h.runIds job hjobMem
    · exact h.runIds other hold
  · intro entry hmem
    have hkey : ∃ old ∈ state.jobs, old.key = entry.1.jobKey := by
      rcases List.mem_append.mp hmem with hold | hnew
      · exact h.attempts entry hold
      · obtain rfl := List.mem_singleton.mp hnew
        exact ⟨job, hjobMem, rfl⟩
    obtain ⟨old, hold, hkey⟩ := hkey
    obtain ⟨job', hjob', hjkey⟩ := List.mem_map.mp (hkeys ▸ List.mem_map.mpr ⟨old, hold, hkey⟩)
    exact ⟨job', hjob', hjkey⟩
  · intro other hmem
    have hnumbers : ∀ key, (state.attempts ++ [(job.newAttempt state.run attemptId tokenHash
        runtimeVersion now lease, steps)]).filterMap (numberOf key) =
        state.attemptNumbers key ++ if job.key = key then [job.lastAttemptNumber + 1] else [] := by
      intro key
      rw [List.filterMap_append, attemptNumbers]
      by_cases hkey : job.key = key <;> simp [numberOf, RunJob.newAttempt, hkey]
    rw [attemptNumbers, hnumbers]
    rcases hjobCases other hmem with rfl | ⟨hold, hne⟩
    · have hnum := h.numbers job hjobMem
      simp only [RunJob.dispatched, if_true, hnum, List.range'_1_concat, Nat.add_comm 1]
    · rw [if_neg (Ne.symm hne), List.append_nil]
      exact h.numbers other hold
  · intro other hmem
    rcases hjobCases other hmem with rfl | ⟨hold, -⟩
    · exact hnumber
    · exact h.limit other hold
  · intro other hmem hidle
    rcases hjobCases other hmem with rfl | ⟨hold, -⟩
    · simp [RunJob.isActive, RunJob.dispatched] at hidle
    · exact h.idle other hold hidle
  · intro other hmem entry hentry hkey hterm
    rcases hjobCases other hmem with rfl | ⟨hold, hne⟩
    · rcases List.mem_append.mp hentry with holdEntry | hnew
      · have hended := h.isTerminal_of_idle hjobMem hidle holdEntry hkey
        simp [hended] at hterm
      · obtain rfl := List.mem_singleton.mp hnew
        exact ⟨⟨hrunId.symm, rfl, rfl, rfl⟩, rfl⟩
    · rcases List.mem_append.mp hentry with holdEntry | hnew
      · exact h.current other hold entry holdEntry hkey hterm
      · obtain rfl := List.mem_singleton.mp hnew
        exact absurd hkey.symm hne
  · intro other hmem hactive
    rcases hjobCases other hmem with rfl | ⟨hold, hne⟩
    · exact ⟨_, List.mem_append_right _ (List.mem_singleton_self _), rfl, rfl⟩
    · obtain ⟨entry, hentry, hkey, hterm⟩ := h.working other hold hactive
      exact ⟨entry, List.mem_append_left _ hentry, hkey, hterm⟩
  · intro hended
    have := h.ended hended job hjobMem
    simp [hqueued, RunJobState.isTerminal] at this

end RunAggregate

/-! ## Operations on the run -/

/-- What a change of a job by an operation on the run keeps: it only concerns a job that is not on
a runner, and leaves it so. -/
structure JobFrame (job job' : RunJob) : Prop where
  runId : job'.runId = job.runId
  key : job'.key = job.key
  number : job'.lastAttemptNumber = job.lastAttemptNumber
  result : job' = job ∨ (job.isActive = false ∧ job'.isActive = false ∧
    (job'.currentAttemptId = job.currentAttemptId ∨ job'.currentAttemptId = none))

theorem JobFrame.refl (job : RunJob) : JobFrame job job := ⟨rfl, rfl, rfl, .inl rfl⟩

theorem JobFrame.trans {a b c : RunJob} (h₁ : JobFrame a b) (h₂ : JobFrame b c) : JobFrame a c := by
  refine ⟨h₂.runId.trans h₁.runId, h₂.key.trans h₁.key, h₂.number.trans h₁.number, ?_⟩
  rcases h₁.result with rfl | ⟨ha, hb, hab⟩
  · exact h₂.result
  · rcases h₂.result with rfl | ⟨-, hc, hbc⟩
    · exact .inr ⟨ha, hb, hab⟩
    · refine .inr ⟨ha, hc, ?_⟩
      rcases hbc with hbc | hbc
      · rwa [hbc]
      · exact .inr hbc

theorem JobStep.frame {now : ℕ} {job job' : RunJob} (h : JobStep now job job') :
    JobFrame job job' := by
  cases h with
  | unblock facts hblocked =>
    have hidle : job.isActive = false := by simp [RunJob.isActive, hblocked]
    unfold unblockedJob
    split
    · exact .refl job
    · rename_i next hnext
      refine ⟨rfl, rfl, rfl, .inr ⟨hidle, ?_, .inl rfl⟩⟩
      simp only [unblockedState] at hnext
      split_ifs at hnext <;> cases hnext <;> rfl
  | cancel time =>
    unfold cancelWaiting
    split_ifs with hwaiting
    · refine ⟨rfl, rfl, rfl, .inr ⟨?_, rfl, .inl rfl⟩⟩
      simp only [RunJob.isWaiting, decide_eq_true_eq] at hwaiting
      rcases hwaiting with hstate | hstate <;> simp [RunJob.isActive, hstate]
    · exact .refl job
  | requeue definition hended htime =>
    refine ⟨rfl, rfl, rfl, .inr ⟨?_, ?_, .inr rfl⟩⟩
    · cases hstate : job.state <;> simp_all [RunJob.isActive, RunJobState.isTerminal]
    · simp only [RunJob.isActive, requeuedJob, initialJobState]
      split <;> simp
  | expireRetry hretry hqueued htime =>
    exact ⟨rfl, rfl, rfl, .inr ⟨by simp [RunJob.isActive, hqueued], rfl, .inl rfl⟩⟩

theorem JobFrame.of_steps {now : ℕ} {job job' : RunJob} (h : ReflTransGen (JobStep now) job job') :
    JobFrame job job' := by
  induction h with
  | refl => exact .refl job
  | tail _ hlast ih => exact ih.trans hlast.frame

namespace RunAggregate

theorem Fenced.changeJobs {state : RunAggregate} (h : Fenced state) {run' : Run}
    {jobs' : List RunJob} (hid : run'.id = state.run.id)
    (hjobs : List.Forall₂ JobFrame state.jobs jobs')
    (hended : run'.state.isTerminal = true → ∀ job ∈ jobs', job.state.isTerminal = true) :
    Fenced { state with run := run', jobs := jobs' } := by
  have hkeys : jobs'.map (·.key) = state.jobs.map (·.key) :=
    ListUpdate.forall₂_map_eq (fun _ _ hframe => hframe.key) hjobs
  refine ⟨hkeys ▸ h.keys, ?_, ?_, ?_, ?_, ?_, ?_, ?_, hended⟩
  · intro job' hmem
    obtain ⟨job, hjob, hframe⟩ := ListUpdate.forall₂_mem_right hjobs hmem
    exact hframe.runId.trans ((h.runIds job hjob).trans hid.symm)
  · intro entry hentry
    obtain ⟨job, hjob, hkey⟩ := h.attempts entry hentry
    obtain ⟨job', hjob', hframe⟩ := ListUpdate.forall₂_mem_left hjobs hjob
    exact ⟨job', hjob', hframe.key.trans hkey⟩
  · intro job' hmem
    obtain ⟨job, hjob, hframe⟩ := ListUpdate.forall₂_mem_right hjobs hmem
    rw [hframe.key, hframe.number]
    exact h.numbers job hjob
  · intro job' hmem
    obtain ⟨job, hjob, hframe⟩ := ListUpdate.forall₂_mem_right hjobs hmem
    exact hframe.number ▸ h.limit job hjob
  · intro job' hmem hidle
    obtain ⟨job, hjob, hframe⟩ := ListUpdate.forall₂_mem_right hjobs hmem
    rcases hframe.result with rfl | ⟨hidle', -, hcurrent | hcurrent⟩
    · exact h.idle _ hjob hidle
    · exact hcurrent.trans (h.idle job hjob hidle')
    · exact hcurrent
  · intro job' hmem entry hentry hkey hterm
    obtain ⟨job, hjob, hframe⟩ := ListUpdate.forall₂_mem_right hjobs hmem
    rcases hframe.result with rfl | ⟨hidle, -, -⟩
    · exact h.current _ hjob entry hentry hkey hterm
    · have hended := h.isTerminal_of_idle hjob hidle hentry (hkey.trans hframe.key)
      simp [hended] at hterm
  · intro job' hmem hactive
    obtain ⟨job, hjob, hframe⟩ := ListUpdate.forall₂_mem_right hjobs hmem
    rcases hframe.result with rfl | ⟨-, hidle, -⟩
    · exact h.working _ hjob hactive
    · simp [hidle] at hactive

/-! ## Every reachable state is fenced -/

theorem createRunJobs_eq_ok {run : Run} {revision : WorkflowRevision} {jobs : List RunJob}
    (h : createRunJobs run revision = .ok jobs) :
    jobs = revision.definition.jobs.map (RunJob.new run) := by
  simp only [createRunJobs, except_unit_bind_eq_ok] at h
  exact (Except.ok.inj h.2).symm

theorem Created.fenced {state : RunAggregate} (h : Created state) : Fenced state := by
  cases h with
  | @mk id key digest workflow trigger user now run revision jobs hrun hjobs =>
    obtain rfl := createRunJobs_eq_ok hjobs
    have hstate : run.state = .queued := by
      obtain ⟨-, rfl⟩ := Run.queued_eq_ok.mp (Run.queued_of_new hrun)
      rfl
    have hnew : ∀ job ∈ revision.definition.jobs.map (RunJob.new run), ∃ definition,
        job = RunJob.new run definition := by
      intro job hjob
      obtain ⟨definition, -, rfl⟩ := List.mem_map.mp hjob
      exact ⟨definition, rfl⟩
    have hidle : ∀ definition, (RunJob.new run definition).isActive = false := by
      intro definition
      simp only [RunJob.isActive, RunJob.new, initialJobState]
      split <;> simp
    refine ⟨?_, ?_, by simp, ?_, ?_, ?_, by simp, ?_, ?_⟩
    · rw [List.map_map]
      exact revision.definition.ids_nodup
    · intro job hjob
      obtain ⟨definition, rfl⟩ := hnew job hjob
      rfl
    · intro job hjob
      obtain ⟨definition, rfl⟩ := hnew job hjob
      rfl
    · intro job hjob
      obtain ⟨definition, rfl⟩ := hnew job hjob
      exact Nat.zero_le _
    · intro job hjob _
      obtain ⟨definition, rfl⟩ := hnew job hjob
      rfl
    · intro job hjob hactive
      obtain ⟨definition, rfl⟩ := hnew job hjob
      simp [hidle] at hactive
    · intro hended
      simp [hstate, RunState.isTerminal] at hended

theorem Fenced.step {Clock : AttemptOp → Held → Prop} {state state' : RunAggregate}
    (h : Fenced state) (hstep : Step Clock state state') : Fenced state' := by
  cases hstep with
  | dispatch hjob hop => exact h.dispatch hjob (RunJob.dispatched_of_ok hop)
  | attempt hheld hclock hop => exact h.setHeld_steps hheld (AttemptOp.steps hop)
  | expireCapacityRetry hjob hop =>
    have hframe := JobFrame.of_steps (RunJob.expireCapacityRetry_steps hop)
    refine h.changeJobs rfl (ListUpdate.forall₂_set .refl hjob hframe) fun hended other hmem => ?_
    rcases ListUpdate.mem_set_cases hmem with rfl | ⟨k, -, hget⟩
    · have hjobEnded := h.ended hended _ (List.mem_of_getElem? hjob)
      rwa [RunJob.expireCapacityRetry_of_isTerminal hop hjobEnded]
    · exact h.ended hended other (List.mem_of_getElem? hget)
  | run hop =>
    have hframe := RunOp.frame hop h.ended
    exact h.changeJobs hframe.id (hframe.jobs.imp fun _ _ hsteps => JobFrame.of_steps hsteps)
      hframe.ended

end RunAggregate

end ScopeVcs

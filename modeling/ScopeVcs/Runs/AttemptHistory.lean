import ScopeVcs.Runs.Fencing

/-! # The attempts of a run over time

What the invariant means for the whole history of a run: which attempt is active, what a stale
attempt can still do, that an attempt that ended stays as it is, and that its conclusion may be
reported again.
-/

namespace ScopeVcs

open Mutation Relation

/-- A successful operation changed nothing, or was presented with the current attempt of the job
while that was active. -/
theorem AttemptOp.unchanged_or_current {op : AttemptOp} {run : Run} {held held' : Held} {u : Unit}
    (h : (op.run run).run held = .ok u held') :
    held' = held ∨ (held.job.IsCurrent held.attempt ∧ held.attempt.state.isTerminal = false) := by
  rcases (AttemptOp.steps h).cases_head with rfl | ⟨mid, hfirst, -⟩
  · exact .inl rfl
  · exact .inr ⟨hfirst.frame.current, hfirst.frame.active⟩

/-! ## Endings that can be reported again -/

theorem HeldStep.statesAlign_of_isTerminal {clock : Prop} {now : ℕ} {held held' : Held}
    (h : HeldStep clock now held held') (hended : held'.attempt.state.isTerminal = true)
    (hlost : held'.attempt.state ≠ .lost) (hjob : held'.job.state.isTerminal = true) :
    statesAlign held'.job.state held'.attempt.state = true := by
  have hactive := h.frame.active
  cases h with
  | claim | renew | truncate | startStep | succeedStep => simp [hactive] at hended
  | start => cases hended
  | finish _ _ _ _ _ _ halign => exact halign hlost hjob

/-- A lost attempt was not ended by a conclusion. -/
theorem RunAttempt.not_lost_of_matchesConclusion {attempt : RunAttempt}
    {conclusion : AttemptConclusion} (h : attempt.matchesConclusion conclusion = true) :
    attempt.state ≠ .lost := by
  intro hlost
  unfold matchesConclusion at h
  split at h <;> simp [hlost] at h

/-- A conclusion that an attempt accepted is the one it ended with. -/
theorem RunAttempt.matchesConclusion_of_ending {run : Run} {held : Held} {now : ℕ}
    {conclusion : AttemptConclusion} {ending' : Ending}
    (h : ending run held conclusion now = .ok ending') :
    (finish held ending' now).attempt.matchesConclusion conclusion = true := by
  cases conclusion with
  | succeeded =>
    simp only [ending, except_unit_bind_eq_ok] at h
    obtain ⟨-, h⟩ := h
    split at h <;> cases h <;> simp [matchesConclusion, finish]
  | setupFailed exitCode message =>
    simp only [ending, except_unit_bind_eq_ok] at h
    obtain ⟨-, -, h⟩ := h
    cases h
    simp [matchesConclusion, finish]
  | timedOut =>
    cases h
    simp [matchesConclusion, finish]
  | canceled =>
    simp only [ending, except_unit_bind_eq_ok] at h
    obtain ⟨-, h⟩ := h
    cases h
    simp [matchesConclusion, finish]

/-- After a successful `complete` the attempt and its job have ended, with the conclusion. -/
theorem RunAttempt.complete_concluded {run : Run} {token : String}
    {conclusion : AttemptConclusion} {logsTruncated : Bool} {now : ℕ} {held held' : Held} {u : Unit}
    (h : (complete run token conclusion logsTruncated now).run held = .ok u held') :
    held'.attempt.tokenHash = token ∧ held'.attempt.matchesConclusion conclusion = true ∧
      held'.attempt.state.isTerminal = true ∧ held'.job.state.isTerminal = true := by
  have hended : ∀ {job : RunJobState} {attempt : AttemptState}, statesAlign job attempt = true →
      attempt.isTerminal = true ∨ job.isTerminal = true →
        attempt.isTerminal = true ∧ job.isTerminal = true := by
    intro job attempt halign
    cases job <;> cases attempt <;>
      simp_all [statesAlign, AttemptState.isTerminal, RunJobState.isTerminal]
  simp only [complete, get_bind_eq_ok] at h
  split at h
  · rename_i hterm
    simp only [check_unit_bind_eq_ok, check_eq_ok, rejectIf_eq_ok, Bool.not_eq_false,
      authenticateIdentity_eq_ok] at h
    obtain ⟨⟨-, halign, htoken⟩, hconclusion, rfl⟩ := h
    exact ⟨htoken, hconclusion, hended halign hterm⟩
  · rename_i hactive
    simp only [not_or, Bool.not_eq_true] at hactive
    simp only [check_unit_bind_eq_ok, authenticate_eq_ok] at h
    obtain ⟨⟨hcur, -, htoken, -⟩, -, h⟩ := h
    obtain ⟨_, mid, hreport, h⟩ := bind_eq_ok.mp h
    obtain ⟨-, first, rfl⟩ :=
      truncation_of_reportRunningTruncation True now hreport hcur hactive.1
    simp only [check_unit_bind_eq_ok] at h
    obtain ⟨-, -, h⟩ := h
    obtain ⟨ending', hending, h⟩ := check_bind_eq_ok.mp h
    obtain rfl := modify_eq_ok.mp h
    obtain ⟨hends, -, halign⟩ := endsAs_of_ending hending
    exact ⟨htoken, matchesConclusion_of_ending hending, hended halign (.inl hends.isTerminal)⟩

/-- Reporting the conclusion of an ended attempt again is accepted and changes nothing. -/
theorem RunAttempt.complete_again {run : Run} {conclusion : AttemptConclusion}
    {logsTruncated : Bool} {now : ℕ} {held : Held}
    (hlatest : held.attempt.runId = held.job.runId ∧ held.attempt.jobKey = held.job.key ∧
      held.attempt.number = held.job.lastAttemptNumber)
    (halign : statesAlign held.job.state held.attempt.state = true)
    (hended : held.attempt.state.isTerminal = true)
    (hconclusion : held.attempt.matchesConclusion conclusion = true) :
    (complete run held.attempt.tokenHash conclusion logsTruncated now).run held = .ok () held := by
  simp only [complete, get_bind_eq_ok, hended, true_or, if_true]
  rw [check_unit_bind_eq_ok, check_eq_ok, authenticateIdentity_eq_ok, rejectIf_eq_ok]
  exact ⟨⟨hlatest, halign, rfl⟩, by simp [hconclusion], rfl⟩

/-- An operation that ended an attempt and its job by a conclusion leaves them so that the
conclusion can be reported again. -/
theorem AttemptOp.complete_again {op : AttemptOp} {run run' : Run} {held held' : Held} {u : Unit}
    {conclusion : AttemptConclusion} {logsTruncated : Bool} {now : ℕ}
    (h : (op.run run).run held = .ok u held') (hactive : held.attempt.state.isTerminal = false)
    (hended : held'.attempt.state.isTerminal = true) (hjob : held'.job.state.isTerminal = true)
    (hconclusion : held'.attempt.matchesConclusion conclusion = true) :
    (RunAttempt.complete run' held'.attempt.tokenHash conclusion logsTruncated now).run held' =
      .ok () held' := by
  rcases (AttemptOp.steps h).cases_tail with rfl | ⟨mid, -, hlast⟩
  · simp [hactive] at hended
  · have hframe := hlast.frame
    have hlatest : held'.attempt.runId = held'.job.runId ∧ held'.attempt.jobKey = held'.job.key ∧
        held'.attempt.number = held'.job.lastAttemptNumber := by
      rw [hframe.attemptRunId, hframe.jobRunId, hframe.attemptKey, hframe.jobKey,
        hframe.attemptNumber, hframe.jobNumber]
      exact ⟨hframe.current.runId, hframe.current.jobKey, hframe.current.number⟩
    have hlost := RunAttempt.not_lost_of_matchesConclusion hconclusion
    exact RunAttempt.complete_again hlatest (hlast.statesAlign_of_isTerminal hended hlost hjob)
      hended hconclusion

namespace RunAggregate

/-! ## The active attempt -/

/-- The attempt at `a` is one of the job with the given key, and active. -/
def ActiveAt (state : RunAggregate) (key : WorkflowJobId) (a : ℕ) : Prop :=
  ∃ entry, state.attempts[a]? = some entry ∧ entry.1.jobKey = key ∧
    entry.1.state.isTerminal = false

theorem Reachable.fenced {state : RunAggregate} (h : Reachable state) : Fenced state :=
  h.invariant Fenced (fun _ => Created.fenced) fun _ _ _ hinv hstep => hinv.step hstep

theorem Fenced.activeAt_unique {state : RunAggregate} (h : Fenced state) {job : RunJob}
    (hjob : job ∈ state.jobs) {a b : ℕ} (ha : state.ActiveAt job.key a)
    (hb : state.ActiveAt job.key b) : a = b := by
  obtain ⟨entry, hentry, hkey, hactive⟩ := ha
  obtain ⟨entry', hentry', hkey', hactive'⟩ := hb
  have hcur := (h.current job hjob entry (List.mem_of_getElem? hentry) hkey hactive).1
  have hcur' := (h.current job hjob entry' (List.mem_of_getElem? hentry') hkey' hactive').1
  exact h.attempt_unique hjob hentry hentry' hkey hkey' (hcur.number.trans hcur'.number.symm)

theorem Fenced.exists_activeAt_iff {state : RunAggregate} (h : Fenced state) {job : RunJob}
    (hjob : job ∈ state.jobs) :
    (∃ a, state.ActiveAt job.key a) ↔ job.state = .dispatching ∨ job.state = .running := by
  constructor
  · rintro ⟨a, entry, hentry, hkey, hactive⟩
    have halign := (h.current job hjob entry (List.mem_of_getElem? hentry) hkey hactive).2
    exact isActive_of_statesAlign halign hactive
  · intro hstate
    obtain ⟨entry, hentry, hkey, hactive⟩ := h.working job hjob (by simpa [RunJob.isActive])
    obtain ⟨a, ha⟩ := List.mem_iff_getElem?.mp hentry
    exact ⟨a, entry, ha, hkey, hactive⟩

/-- Only the active attempt of a job is its current one. -/
theorem Fenced.activeAt_of_isCurrent {state : RunAggregate} (h : Fenced state) {j a : ℕ}
    {held : Held} (hheld : state.held? j a = some held)
    (hcur : held.job.IsCurrent held.attempt) : state.ActiveAt held.job.key a := by
  obtain ⟨hjob, hattempt⟩ := held?_eq_some.mp hheld
  have hjobMem := List.mem_of_getElem? hjob
  have hstate : held.job.isActive = true := by
    by_contra hidle
    have hnone := h.idle _ hjobMem (Bool.not_eq_true _ ▸ hidle)
    simp [hcur.id] at hnone
  obtain ⟨entry, hentry, hkey, hactive⟩ := h.working _ hjobMem hstate
  have hcur' := (h.current _ hjobMem entry hentry hkey hactive).1
  obtain ⟨b, hb⟩ := List.mem_iff_getElem?.mp hentry
  obtain rfl := h.attempt_unique hjobMem hattempt hb hcur.jobKey hkey
    (hcur.number.trans hcur'.number.symm)
  exact ⟨entry, hb, hkey, hactive⟩

/-! ## What ended stays -/

/-- A step that puts the job at `j`, which had ended, back. -/
def Requeues (j : ℕ) (state state' : RunAggregate) : Prop :=
  ∃ job ∈ state.jobs[j]?, ∃ job' ∈ state'.jobs[j]?,
    job.state.isTerminal = true ∧ job'.state.isTerminal = false

/-- An attempt that ended is not touched by any step. -/
theorem Step.ended_kept {Clock : AttemptOp → Held → Prop} {state state' : RunAggregate}
    (hstep : Step Clock state state') {a : ℕ}
    {entry : RunAttempt × List RunAttemptStep} (hentry : state.attempts[a]? = some entry)
    (hended : entry.1.state.isTerminal = true) : state'.attempts[a]? = some entry := by
  cases hstep with
  | dispatch => exact List.getElem?_append_left (List.getElem?_eq_some_iff.mp hentry).1 ▸ hentry
  | @attempt j b op held held' u hheld hclock hop =>
    rcases AttemptOp.unchanged_or_current hop with rfl | ⟨-, hactive⟩
    · rwa [setHeld_self hheld]
    · have hne : b ≠ a := by
        rintro rfl
        rw [(held?_eq_some.mp hheld).2] at hentry
        cases hentry
        simp [hactive] at hended
      exact (List.getElem?_set_ne hne).trans hentry
  | expireCapacityRetry => exact hentry
  | run => exact hentry

/-- As long as the job is not requeued, an ended job and its ended attempt stay as they are. -/
theorem Fenced.held_kept {Clock : AttemptOp → Held → Prop} {state state' : RunAggregate}
    (h : Fenced state) (hstep : Step Clock state state') {j a : ℕ} {held : Held}
    (hheld : state.held? j a = some held) (hended : held.attempt.state.isTerminal = true)
    (hjobEnded : held.job.state.isTerminal = true) (hkept : ¬ Requeues j state state') :
    state'.held? j a = some held := by
  obtain ⟨hjob, hattempt⟩ := held?_eq_some.mp hheld
  refine held?_eq_some.mpr ⟨?_, hstep.ended_kept hattempt hended⟩
  have hjobMem := List.mem_of_getElem? hjob
  cases hstep with
  | @dispatch i other job' _ _ _ _ _ _ _ _ hother hop =>
    have hne : i ≠ j := by
      rintro rfl
      obtain rfl := Option.some_inj.mp (hother.symm.trans hjob)
      simp [(RunJob.dispatched_of_ok hop).queued, RunJobState.isTerminal] at hjobEnded
    exact (List.getElem?_set_ne hne).trans hjob
  | @attempt i b op held₁ held₂ u hheld₁ hclock hop =>
    rcases AttemptOp.unchanged_or_current hop with rfl | ⟨hcur, -⟩
    · rwa [setHeld_self hheld₁]
    · have hne : i ≠ j := by
        rintro rfl
        rw [(held?_eq_some.mp hheld₁).1, Option.some_inj] at hjob
        have hidle : held.job.isActive = false := by
          cases hstate : held.job.state <;> simp_all [RunJob.isActive, RunJobState.isTerminal]
        have hid := hcur.id
        rw [hjob, h.idle _ hjobMem hidle] at hid
        cases hid
      exact (List.getElem?_set_ne hne).trans hjob
  | @expireCapacityRetry i other job' _ _ hother hop =>
    by_cases hij : i = j
    · subst hij
      obtain rfl := Option.some_inj.mp (hother.symm.trans hjob)
      rw [RunJob.expireCapacityRetry_of_isTerminal hop hjobEnded]
      show (state.jobs.set i held.job)[i]? = _
      rw [ListUpdate.set_self hjob, hjob]
    · exact (List.getElem?_set_ne hij).trans hjob
  | @run op result u hop =>
    obtain ⟨job', hjob', hsame⟩ :=
      ListUpdate.forall₂_getElem? (RunOp.frame hop h.ended).kept hjob
    rcases hsame hjobEnded with rfl | hback
    · exact hjob'
    · exact absurd ⟨_, hjob, _, hjob', hjobEnded, hback⟩ hkept

/-! ## The fence over whole runs -/

/-- The state after an operation was presented with job `j` and attempt `a`, whether it succeeded
or failed. -/
def present (state : RunAggregate) (op : AttemptOp) (j a : ℕ) (held : Held) : RunAggregate :=
  state.setHeld j a (final (op.run state.run) held)

/-- The steps of a run in which the job at `j` is not requeued. -/
def StepWithoutRequeue (j : ℕ) (state state' : RunAggregate) : Prop :=
  Step (fun _ _ => True) state state' ∧ ¬ Requeues j state state'

/-- What holds of the attempts in a state and in all that follow. -/
structure AttemptsFenced (state : RunAggregate) : Prop where
  /-- Attempts are numbered in dispatch order, up to the limit. -/
  numbered : ∀ job ∈ state.jobs, ∃ last ≤ maxRunAttempts,
    state.attemptNumbers job.key = List.range' 1 last
  /-- At most one attempt of a job is active. -/
  oneActive : ∀ job ∈ state.jobs, ∀ a b,
    state.ActiveAt job.key a → state.ActiveAt job.key b → a = b
  /-- There is one exactly while the job is on a runner. -/
  active_iff : ∀ job ∈ state.jobs,
    (∃ a, state.ActiveAt job.key a) ↔ job.state = .dispatching ∨ job.state = .running
  /-- It is the one that the job names. -/
  named : ∀ job ∈ state.jobs, ∀ (a : ℕ) (entry : RunAttempt × List RunAttemptStep),
    state.ActiveAt job.key a → state.attempts[a]? = some entry →
      job.currentAttemptId = some entry.1.id
  /-- An operation presented with any other attempt changes nothing. -/
  stale : ∀ op j a held, state.held? j a = some held → ¬ state.ActiveAt held.job.key a →
    state.present op j a held = state
  /-- An attempt that ended never changes again. -/
  ended : ∀ later, ReflTransGen (Step fun _ _ => True) state later →
    ∀ (a : ℕ) (entry : RunAttempt × List RunAttemptStep), state.attempts[a]? = some entry →
      entry.1.state.isTerminal = true → later.attempts[a]? = some entry
  /-- A successful `complete` ends the attempt and the job with its conclusion. -/
  concluded : ∀ token conclusion logsTruncated now (held held' : Held),
    (RunAttempt.complete state.run token conclusion logsTruncated now).run held =
        .ok () held' →
      held'.attempt.tokenHash = token ∧ held'.attempt.matchesConclusion conclusion = true ∧
        held'.attempt.state.isTerminal = true ∧ held'.job.state.isTerminal = true
  /-- Once an operation ended an attempt together with its job, reporting the conclusion again is
  accepted and changes nothing until the job is requeued. -/
  repeated : ∀ (op : AttemptOp) (j a : ℕ) (held held' : Held), state.held? j a = some held →
    held.attempt.state.isTerminal = false → (op.run state.run).run held = .ok () held' →
    held'.attempt.state.isTerminal = true → held'.job.state.isTerminal = true →
    ∀ later, ReflTransGen (StepWithoutRequeue j) (state.setHeld j a held') later →
    ∀ conclusion, held'.attempt.matchesConclusion conclusion = true → ∀ logsTruncated now,
      later.held? j a = some held' ∧
        (RunAttempt.complete later.run held'.attempt.tokenHash conclusion logsTruncated now).run
          held' = .ok () held'

/-- Presenting an attempt that is not active on its job leaves everything as it is. -/
theorem Fenced.present_stale {state : RunAggregate} (h : Fenced state) (op : AttemptOp) {j a : ℕ}
    {held : Held} (hheld : state.held? j a = some held)
    (hstale : ¬ state.ActiveAt held.job.key a) : state.present op j a held = state := by
  have hcur : ¬ held.job.IsCurrent held.attempt :=
    fun hcur => hstale (h.activeAt_of_isCurrent hheld hcur)
  rw [present, op.final_eq_of_not_current hcur, setHeld_self hheld]

/-- Runs without a requeue of the job keep an ended job and attempt. -/
theorem Fenced.held_kept_run {state later : RunAggregate} (h : Fenced state) {j a : ℕ}
    {held : Held} (hheld : state.held? j a = some held)
    (hended : held.attempt.state.isTerminal = true) (hjobEnded : held.job.state.isTerminal = true)
    (hrun : ReflTransGen (StepWithoutRequeue j) state later) : later.held? j a = some held := by
  suffices hboth : Fenced later ∧ later.held? j a = some held from hboth.2
  induction hrun with
  | refl => exact ⟨h, hheld⟩
  | tail _ hlast ih =>
    obtain ⟨hfenced, hkept⟩ := ih
    exact ⟨hfenced.step hlast.1, hfenced.held_kept hlast.1 hkept hended hjobEnded hlast.2⟩

/-- The attempts of every reachable run are fenced. -/
theorem Reachable.attemptsFenced {state : RunAggregate} (h : Reachable state) :
    AttemptsFenced state where
  numbered job hjob := ⟨job.lastAttemptNumber, h.fenced.limit job hjob, h.fenced.numbers job hjob⟩
  oneActive job hjob _ _ := h.fenced.activeAt_unique hjob
  active_iff job hjob := h.fenced.exists_activeAt_iff hjob
  named job hjob a entry := by
    rintro ⟨entry', hentry', hkey, hactive⟩ hentry
    obtain rfl := Option.some_inj.mp (hentry'.symm.trans hentry)
    exact (h.fenced.current job hjob _ (List.mem_of_getElem? hentry) hkey hactive).1.id
  stale op _ _ _ hheld hstale := h.fenced.present_stale op hheld hstale
  ended later hrun a entry hentry hended := by
    induction hrun with
    | refl => exact hentry
    | tail _ hlast ih => exact hlast.ended_kept ih hended
  concluded _ _ _ _ _ _ := RunAttempt.complete_concluded
  repeated op j a held held' hheld hactive hop hended hjobEnded later hrun conclusion hconclusion
      logsTruncated now := by
    have hnext : Fenced (state.setHeld j a held') :=
      h.fenced.step (.attempt hheld trivial hop : Step (fun _ _ => True) _ _)
    exact ⟨hnext.held_kept_run (held?_setHeld hheld held') hended hjobEnded hrun,
      AttemptOp.complete_again hop hactive hended hjobEnded hconclusion⟩

/-- The run of one job, with its attempt dispatched. -/
theorem attemptsFenced_dispatched : AttemptsFenced SmallRun.dispatched :=
  Reachable.attemptsFenced
    ((Transition.Reachable.of_init SmallRun.created_isCreated).tail (SmallRun.dispatched_step _))

end RunAggregate

end ScopeVcs

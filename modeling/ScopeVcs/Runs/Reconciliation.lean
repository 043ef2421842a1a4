import ScopeVcs.Lib.KeyedList
import ScopeVcs.Lib.Propagation
import ScopeVcs.Runs.Fencing

/-! # Reconciliation reaches a fixpoint

`reconcile_run` visits the jobs in the order of the needs, so one pass propagates successes and
skips through the whole graph. The loop is shown to be such a pass over the jobs by key, and the
derivation of the run state is shown to change nothing when it is repeated.
-/

namespace ScopeVcs

open Mutation Propagation

/-! ## The loop as a propagation -/

/-- The job with each key. -/
abbrev jobOf (jobs : List RunJob) : WorkflowJobId → Option RunJob :=
  KeyedList.lookup (·.key) jobs

/-- State and time of everything that is needed. -/
def needFacts (f : WorkflowJobId → Option RunJob) (needs : List WorkflowJobId) :
    List (RunJobState × ℕ) :=
  needs.filterMap fun need => (f need).map fun job => (job.state, job.updatedAtUnix)

/-- A job after one look at what it needs, if it was blocked. -/
def unblock (now : ℕ) (definition : WorkflowJob) (f : WorkflowJobId → Option RunJob)
    (job : RunJob) : RunJob :=
  if job.state = .blocked then unblockedJob job (needFacts f definition.needs) now else job

/-- The rule that the loop of `reconcile_run` propagates. -/
def unblockRule (now : ℕ) : Rule WorkflowJob WorkflowJobId (Option RunJob) where
  key := (·.id)
  deps := (·.needs)
  step definition f := Option.map (unblock now definition f)
  step_congr definition f g job h := by
    have hfacts : needFacts f definition.needs = needFacts g definition.needs :=
      List.filterMap_congr fun need hneed => by rw [h need hneed]
    have hunblock : unblock now definition f = unblock now definition g := by
      funext job
      rw [unblock, unblock, hfacts]
    exact congrArg (Option.map · job) hunblock

theorem unblockRule_ordered (now : ℕ) (workflow : CompiledWorkflow) :
    (unblockRule now).Ordered workflow.serialJobs where
  nodup := (workflow.serialJobs_perm.map _).nodup_iff.mpr workflow.ids_nodup
  deps pre definition post hserial need hneed := by
    obtain ⟨dependency, hmem, hid⟩ := workflow.exists_need_before hserial hneed
    exact List.mem_map.mpr ⟨dependency, hmem, hid⟩

theorem unblockedJob_key (job : RunJob) (facts : List (RunJobState × ℕ)) (now : ℕ) :
    (unblockedJob job facts now).key = job.key := by
  unfold unblockedJob
  split <;> rfl

theorem unblockedJob_state (job : RunJob) (facts : List (RunJobState × ℕ)) (now : ℕ) :
    (unblockedJob job facts now).state =
      (unblockedState (facts.map Prod.fst)).getD job.state := by
  unfold unblockedJob
  split <;> rename_i h <;> rw [h] <;> rfl

theorem unblockedState_cases (states : List RunJobState) :
    (unblockedState states = some .skipped ∧ ∃ s ∈ states, s.isTerminal = true ∧ s ≠ .succeeded) ∨
      (unblockedState states = some .queued ∧ ∀ s ∈ states, s = .succeeded) ∨
      (unblockedState states = none ∧ (∀ s ∈ states, s.isTerminal = true → s = .succeeded) ∧
        ∃ s ∈ states, s ≠ .succeeded) := by
  unfold unblockedState
  split_ifs with hany hall
  · exact .inl ⟨rfl, by simpa using hany⟩
  · exact .inr (.inl ⟨rfl, by simpa using hall⟩)
  · refine .inr (.inr ⟨rfl, ?_, by simpa using hall⟩)
    intro s hs hterm
    by_contra hne
    exact hany (List.any_eq_true.mpr ⟨s, hs, by simp [hterm, hne]⟩)

theorem unblock_idem (now : ℕ) (definition : WorkflowJob) (f : WorkflowJobId → Option RunJob)
    (job : RunJob) :
    unblock now definition f (unblock now definition f job) = unblock now definition f job := by
  by_cases hblocked : job.state = .blocked
  · simp only [unblock, if_pos hblocked]
    rcases unblockedState_cases ((needFacts f definition.needs).map Prod.fst) with
      ⟨h, -⟩ | ⟨h, -⟩ | ⟨h, -⟩
    · rw [if_neg (by simp [unblockedJob_state, h])]
    · rw [if_neg (by simp [unblockedJob_state, h])]
    · have hsame : unblockedJob job (needFacts f definition.needs) now = job := by
        rw [unblockedJob, h]
      rw [hsame, if_pos hblocked, hsame]
  · simp [unblock, if_neg hblocked]

/-- Where everything needed exists, the facts are those of the needs. -/
theorem dependencyFacts_eq {jobs : List RunJob} (hkeys : (jobs.map (·.key)).Nodup)
    {needs : List WorkflowJobId} (hneeds : ∀ need ∈ needs, need ∈ jobs.map (·.key)) :
    dependencyFacts (jobIndexes jobs) jobs needs = some (needFacts (jobOf jobs) needs) := by
  induction needs with
  | nil => rfl
  | cons need needs ih =>
    obtain ⟨job, hjob, hkey⟩ := List.mem_map.mp (hneeds need (by simp))
    obtain ⟨index, hindex⟩ := List.mem_iff_getElem?.mp hjob
    have hget : (jobIndexes jobs).get? need = some index :=
      (KeyedList.positions_get? hkeys).mpr ⟨job, hindex, hkey⟩
    have hof : jobOf jobs need = some job := (KeyedList.lookup_eq_some hkeys).mpr ⟨hjob, hkey⟩
    have hrest := ih fun need hneed => hneeds need (by simp [hneed])
    rw [dependencyFacts] at hrest ⊢
    rw [List.mapM_cons, hrest]
    simp [hget, hindex, needFacts, hof]

/-- One round of the loop updates the job of its definition. -/
theorem reconcileJob_eq (now : ℕ) {jobs : List RunJob} {definition : WorkflowJob}
    (hkeys : (jobs.map (·.key)).Nodup) (hid : definition.id ∈ jobs.map (·.key))
    (hneeds : ∀ need ∈ definition.needs, need ∈ jobs.map (·.key)) :
    ∃ jobs', reconcileJob (jobIndexes jobs) now jobs definition = .ok jobs' ∧
      jobs'.map (·.key) = jobs.map (·.key) ∧
      jobOf jobs' = Function.update (jobOf jobs) definition.id
        ((jobOf jobs definition.id).map (unblock now definition (jobOf jobs))) := by
  obtain ⟨job, hjob, hkey⟩ := List.mem_map.mp hid
  obtain ⟨index, hindex⟩ := List.mem_iff_getElem?.mp hjob
  have hget : (jobIndexes jobs).get? definition.id = some index :=
    (KeyedList.positions_get? hkeys).mpr ⟨job, hindex, hkey⟩
  have hof : jobOf jobs definition.id = some job :=
    (KeyedList.lookup_eq_some hkeys).mpr ⟨hjob, hkey⟩
  simp only [reconcileJob, hget, hindex, Option.bind_some, Option.map_some, hof, unblock]
  by_cases hblocked : job.state = .blocked
  · have hkey' : (unblockedJob job (needFacts (jobOf jobs) definition.needs) now).key = job.key :=
      unblockedJob_key _ _ _
    have hset := KeyedList.lookup_set hkeys hindex hkey'
    rw [hkey] at hset
    rw [if_neg (not_not.mpr hblocked), if_pos hblocked, dependencyFacts_eq hkeys hneeds]
    exact ⟨_, rfl, ListUpdate.map_set hindex hkey', hset⟩
  · rw [if_pos hblocked, if_neg hblocked, ← hof, Function.update_eq_self]
    exact ⟨jobs, rfl, rfl, rfl⟩

/-- The loop is a propagation over the jobs by key. -/
theorem reconcileJobs_eq (now : ℕ) {definitions : List WorkflowJob} {before : RunWithJobs}
    (hkeys : (before.jobs.map (·.key)).Nodup)
    (hids : ∀ definition ∈ definitions, definition.id ∈ before.jobs.map (·.key))
    (hneeds : ∀ definition ∈ definitions, ∀ need ∈ definition.needs,
      need ∈ before.jobs.map (·.key)) :
    ∃ jobs, (reconcileJobs (jobIndexes before.jobs) now definitions).run before =
        .ok () { before with jobs } ∧ jobs.map (·.key) = before.jobs.map (·.key) ∧
      jobOf jobs = propagate (unblockRule now) definitions (jobOf before.jobs) := by
  induction definitions generalizing before with
  | nil => exact ⟨before.jobs, rfl, rfl, rfl⟩
  | cons definition definitions ih =>
    obtain ⟨jobs, hok, hmap, hof⟩ := reconcileJob_eq now hkeys
      (hids definition (by simp)) (hneeds definition (by simp))
    have hindexes : jobIndexes before.jobs = jobIndexes jobs :=
      (KeyedList.positions_congr hmap).symm
    have hkeys' : (({ before with jobs } : RunWithJobs).jobs.map (·.key)).Nodup := hmap ▸ hkeys
    obtain ⟨jobs', hrun, hmap', hof'⟩ := ih hkeys'
      (fun d hd => hmap ▸ hids d (by simp [hd])) (fun d hd => hmap ▸ hneeds d (by simp [hd]))
    refine ⟨jobs', ?_, hmap'.trans hmap, ?_⟩
    · rw [reconcileJobs, check_bind_eq_ok]
      refine ⟨jobs, hok, ?_⟩
      rw [modify_bind_eq_ok, hindexes]
      exact hrun
    · rw [hof', hof]
      rfl

/-! ## Deriving the state of the run again -/

/-- After a cancellation nothing waits. -/
theorem not_isWaiting_canceledJobs {jobs : List RunJob} {now : ℕ} {job : RunJob}
    (h : job ∈ canceledJobs true jobs now) : job.isWaiting = false := by
  obtain ⟨old, -, rfl⟩ := List.mem_map.mp h
  unfold cancelWaiting
  split_ifs with hwaiting
  · rfl
  · simpa using hwaiting

theorem canceledJobs_of_not_isWaiting {requested : Bool} {jobs : List RunJob} {now : ℕ}
    (h : ∀ job ∈ jobs, job.isWaiting = false) : canceledJobs requested jobs now = jobs := by
  unfold canceledJobs
  split
  · conv_rhs => rw [← List.map_id jobs]
    refine List.map_congr_left fun job hjob => ?_
    simp [cancelWaiting, h job hjob]
  · rfl

theorem nextRunState_idem (state : RunState) (jobs : List RunJob) :
    nextRunState (nextRunState state jobs) jobs = nextRunState state jobs := by
  by_cases hall : jobs.all (·.state.isTerminal) = true
  · simp only [nextRunState, if_pos hall]
  by_cases hrunning : state = .running ∨ jobs.any (·.state = .running) = true
  · have hnext : nextRunState state jobs = .running := by
      rw [nextRunState, if_neg hall, if_pos hrunning]
    rw [hnext, nextRunState, if_neg hall, if_pos (.inl rfl)]
  · have hnone : ∀ state' : RunState, state' ≠ .running →
        ¬ (state' = .running ∨ jobs.any (·.state = .running) = true) :=
      fun _ hne h => h.elim hne fun h => hrunning (.inr h)
    by_cases hdispatching : jobs.any (·.state = .dispatching) = true
    · have hnext : nextRunState state jobs = .dispatching := by
        rw [nextRunState, if_neg hall, if_neg hrunning, if_pos hdispatching]
      rw [hnext, nextRunState, if_neg hall, if_neg (hnone .dispatching (by rintro ⟨⟩)), if_pos hdispatching]
    · have hnext : nextRunState state jobs = .queued := by
        rw [nextRunState, if_neg hall, if_neg hrunning, if_neg hdispatching]
      rw [hnext, nextRunState, if_neg hall, if_neg (hnone .queued (by rintro ⟨⟩)), if_neg hdispatching]

theorem derivedRun_idem {run : Run} {requested requested' : Bool} {jobs : List RunJob} {now : ℕ}
    (hrequested : jobs.any (·.state = .canceled) = true → requested = true)
    (hrequested' : requested' = ((derivedRun run requested jobs now).cancellationRequested ||
      jobs.any (·.state = .canceled))) :
    derivedRun (derivedRun run requested jobs now) requested' jobs now =
      derivedRun run requested jobs now := by
  have htime : latest (jobs.map (·.updatedAtUnix))
      (max now (derivedRun run requested jobs now).updatedAtUnix) =
        (derivedRun run requested jobs now).updatedAtUnix := by
    refine le_antisymm (latest_le (max_le ?_ le_rfl) fun time htime => ?_)
      ((le_max_right _ _).trans (le_latest _ _))
    · exact (le_max_left _ _).trans (le_latest _ _)
    · exact le_latest_of_mem htime _
  have hstate : nextRunState (derivedRun run requested jobs now).state jobs =
      (derivedRun run requested jobs now).state := nextRunState_idem _ _
  have hcanceled : (if jobs.all (·.state.isTerminal) = true ∧
        jobs.any (·.state = .canceled) = false then false else requested') =
      (derivedRun run requested jobs now).cancellationRequested := by
    rw [hrequested']
    simp only [derivedRun]
    split_ifs with h
    · rfl
    · cases hany : jobs.any (·.state = .canceled) with
      | true => simp [hrequested hany]
      | false => simp
  rw [derivedRun, htime, hstate, hcanceled]
  rfl

/-- Deriving the state of a run twice at one time is the same as deriving it once. -/
theorem derivedState_idem (state : RunWithJobs) (now : ℕ) :
    derivedState (derivedState state now) now = derivedState state now := by
  set requested := state.run.cancellationRequested || state.jobs.any (·.state = .canceled) with hreq
  set jobs := canceledJobs requested state.jobs now with hjobs
  have hderived : derivedState state now = ⟨derivedRun state.run requested jobs now, jobs⟩ := rfl
  have hany : jobs.any (·.state = .canceled) = true → requested = true := by
    intro h
    have hrequested := canceledJobs_any_canceled h
    rwa [hreq, Bool.or_assoc, Bool.or_self] at hrequested
  have hsame : ∀ requested', (requested' = true → requested = true) →
      canceledJobs requested' jobs now = jobs := by
    intro requested' h
    cases hr : requested with
    | true =>
      refine canceledJobs_of_not_isWaiting fun job hjob => ?_
      rw [hjobs, hr] at hjob
      exact not_isWaiting_canceledJobs hjob
    | false =>
      have hnone : requested' = false := by
        cases requested' with
        | true => rw [h rfl] at hr; cases hr
        | false => rfl
      rw [hnone]
      rfl
  have hkept : ((derivedRun state.run requested jobs now).cancellationRequested ||
      jobs.any (·.state = .canceled)) = true → requested = true := by
    intro h
    rcases Bool.or_eq_true_iff.mp h with h | h
    · simp only [derivedRun] at h
      split_ifs at h
      exact h
    · exact hany h
  rw [hderived, derivedState]
  dsimp only
  rw [hsame _ hkept, derivedRun_idem hany rfl]

/-! ## What one pass leads to -/

/-- The state of the job with the key `id`. -/
def stateOf (jobs : List RunJob) (id : WorkflowJobId) : Option RunJobState :=
  (jobOf jobs id).map (·.state)

/-- The jobs after one pass over those of a workflow. -/
structure Propagated (workflow : CompiledWorkflow) (now : ℕ) (jobs jobs' : List RunJob) : Prop where
  keys : jobs'.map (·.key) = jobs.map (·.key)
  nodup : (jobs.map (·.key)).Nodup
  ids : ∀ id, id ∈ jobs.map (·.key) ↔ id ∈ workflow.serialJobs.map (·.id)
  eq : jobOf jobs' = propagate (unblockRule now) workflow.serialJobs (jobOf jobs)

namespace Propagated

variable {workflow : CompiledWorkflow} {now : ℕ} {jobs jobs' : List RunJob}
  {definition : WorkflowJob}

/-- A job after the pass, from what it needs after the pass. -/
theorem jobOf_eq (h : Propagated workflow now jobs jobs')
    (hdefinition : definition ∈ workflow.serialJobs) :
    jobOf jobs' definition.id =
      (jobOf jobs definition.id).map (unblock now definition (jobOf jobs')) := by
  rw [h.eq]
  exact propagate_eq (unblockRule_ordered now workflow) hdefinition

theorem exists_jobOf (h : Propagated workflow now jobs jobs') {id : WorkflowJobId}
    (hid : id ∈ workflow.serialJobs.map (·.id)) : ∃ job', jobOf jobs' id = some job' := by
  rw [← Option.isSome_iff_exists, KeyedList.lookup_isSome, h.keys, h.ids]
  exact hid

/-- Every job after the pass comes from one before it. -/
theorem exists_unblock (h : Propagated workflow now jobs jobs') {job' : RunJob}
    (hjob' : job' ∈ jobs') : ∃ definition ∈ workflow.serialJobs, ∃ job ∈ jobs,
      job'.key = definition.id ∧ jobOf jobs definition.id = some job ∧
        job' = unblock now definition (jobOf jobs') job := by
  have hof : jobOf jobs' job'.key = some job' :=
    (KeyedList.lookup_eq_some (h.keys ▸ h.nodup)).mpr ⟨hjob', rfl⟩
  have hid := (h.ids job'.key).mp (h.keys ▸ List.mem_map.mpr ⟨job', hjob', rfl⟩)
  obtain ⟨definition, hdefinition, hkey⟩ := List.mem_map.mp hid
  have heq := h.jobOf_eq hdefinition
  rw [hkey, hof] at heq
  obtain ⟨job, hjob, hunblock⟩ := Option.map_eq_some_iff.mp heq.symm
  have hmem := ((KeyedList.lookup_eq_some h.nodup).mp hjob).1
  exact ⟨definition, hdefinition, job, hmem, hkey.symm, hkey ▸ hjob, hunblock.symm⟩

/-- A job that was not blocked is unchanged. -/
theorem kept (h : Propagated workflow now jobs jobs') {id : WorkflowJobId} {job : RunJob}
    (hjob : jobOf jobs id = some job) (hstate : job.state ≠ .blocked) :
    jobOf jobs' id = some job := by
  have hid := (h.ids id).mp (KeyedList.lookup_isSome.mp (Option.isSome_iff_exists.mpr ⟨job, hjob⟩))
  obtain ⟨definition, hdefinition, rfl⟩ := List.mem_map.mp hid
  rw [h.jobOf_eq hdefinition, hjob, Option.map_some, unblock, if_neg hstate]

theorem mem_needFacts {needs : List WorkflowJobId} {state : RunJobState} : state ∈ (needFacts (jobOf jobs') needs).map Prod.fst ↔
      ∃ need ∈ needs, stateOf jobs' need = some state := by
  simp only [needFacts, stateOf, List.mem_map, List.mem_filterMap, Option.map_eq_some_iff,
    Prod.exists, Prod.mk.injEq]
  constructor
  · rintro ⟨_, _, ⟨need, hneed, job, hjob, rfl, rfl⟩, rfl⟩
    exact ⟨need, hneed, job, hjob, rfl⟩
  · rintro ⟨need, hneed, job, hjob, rfl⟩
    exact ⟨_, _, ⟨need, hneed, job, hjob, rfl, rfl⟩, rfl⟩

theorem stateOf_of_blocked (h : Propagated workflow now jobs jobs')
    (hdefinition : definition ∈ workflow.serialJobs)
    (hblocked : stateOf jobs definition.id = some .blocked) :
    stateOf jobs' definition.id = some ((unblockedState
      ((needFacts (jobOf jobs') definition.needs).map Prod.fst)).getD .blocked) := by
  obtain ⟨job, hjob, hstate⟩ := Option.map_eq_some_iff.mp hblocked
  rw [stateOf, h.jobOf_eq hdefinition, hjob, Option.map_some, Option.map_some, unblock,
    if_pos hstate, unblockedJob_state, hstate]

/-- What becomes of a blocked job, by the states of its needs after the pass. -/
theorem blocked_cases (h : Propagated workflow now jobs jobs')
    (hdefinition : definition ∈ workflow.serialJobs)
    (hblocked : stateOf jobs definition.id = some .blocked) :
    (stateOf jobs' definition.id = some .skipped ∧ ∃ need ∈ definition.needs, ∃ state,
        stateOf jobs' need = some state ∧ state.isTerminal = true ∧ state ≠ .succeeded) ∨
      (stateOf jobs' definition.id = some .queued ∧
        ∀ need ∈ definition.needs, stateOf jobs' need = some .succeeded) ∨
      (stateOf jobs' definition.id = some .blocked ∧
        (∀ need ∈ definition.needs, ∀ state, stateOf jobs' need = some state →
          state.isTerminal = true → state = .succeeded) ∧
        ∃ need ∈ definition.needs, ∃ state, stateOf jobs' need = some state ∧
          state ≠ .succeeded) := by
  have hstate := h.stateOf_of_blocked hdefinition hblocked
  have hneeds : ∀ need ∈ definition.needs, ∃ state, stateOf jobs' need = some state := by
    intro need hneed
    obtain ⟨pre, post, hserial⟩ := List.append_of_mem hdefinition
    obtain ⟨dependency, hmem, rfl⟩ := workflow.exists_need_before hserial hneed
    have hid : dependency.id ∈ workflow.serialJobs.map (·.id) :=
      List.mem_map.mpr ⟨dependency, by simp [hserial, hmem], rfl⟩
    obtain ⟨job', hjob'⟩ := h.exists_jobOf hid
    exact ⟨job'.state, by rw [stateOf, hjob']; rfl⟩
  rcases unblockedState_cases ((needFacts (jobOf jobs') definition.needs).map Prod.fst) with
    ⟨hnext, s, hs, hbad⟩ | ⟨hnext, hall⟩ | ⟨hnext, hgood, s, hs, hwaiting⟩
  · obtain ⟨need, hneed, hof⟩ := mem_needFacts.mp hs
    exact .inl ⟨by rw [hstate, hnext]; rfl, need, hneed, s, hof, hbad⟩
  · refine .inr (.inl ⟨by rw [hstate, hnext]; rfl, fun need hneed => ?_⟩)
    obtain ⟨s, hs⟩ := hneeds need hneed
    rw [hs, hall s (mem_needFacts.mpr ⟨need, hneed, hs⟩)]
  · refine .inr (.inr ⟨by rw [hstate, hnext]; rfl, fun need hneed s hs => ?_, ?_⟩)
    · exact hgood s (mem_needFacts.mpr ⟨need, hneed, hs⟩)
    · obtain ⟨need, hneed, hof⟩ := mem_needFacts.mp hs
      exact ⟨need, hneed, s, hof, hwaiting⟩

/-- The first blocked job in the order of the needs waits for one that still runs. -/
theorem noDeadlock (h : Propagated workflow now jobs jobs') :
    ¬ ((∃ job ∈ jobs', job.state = .blocked) ∧
      ∀ job ∈ jobs', job.state = .blocked ∨ job.state.isTerminal = true) := by
  rintro ⟨⟨job', hjob', hblocked⟩, hall⟩
  have hstate : ∀ {id : WorkflowJobId} {s : RunJobState}, stateOf jobs' id = some s →
      s = .blocked ∨ s.isTerminal = true := by
    intro id s hs
    obtain ⟨job, hjob, rfl⟩ := Option.map_eq_some_iff.mp hs
    exact hall job ((KeyedList.lookup_eq_some (h.keys ▸ h.nodup)).mp hjob).1
  obtain ⟨definition, hdefinition, -, -, hkey, -, -⟩ := h.exists_unblock hjob'
  have hof : jobOf jobs' definition.id = some job' :=
    (KeyedList.lookup_eq_some (h.keys ▸ h.nodup)).mpr ⟨hjob', hkey⟩
  obtain ⟨first, hfirst⟩ : ∃ first, workflow.serialJobs.find? (fun definition =>
      stateOf jobs' definition.id = some .blocked) = some first := by
    rw [← Option.isSome_iff_exists, List.find?_isSome]
    exact ⟨definition, hdefinition, by simp [stateOf, hof, hblocked]⟩
  rw [List.find?_eq_some_iff_append] at hfirst
  obtain ⟨hfirst, pre, post, hserial, hpre⟩ := hfirst
  rw [decide_eq_true_eq] at hfirst
  have hmem : first ∈ workflow.serialJobs := by simp [hserial]
  -- it was blocked before the pass too, and none of its needs is blocked
  have hbefore : stateOf jobs first.id = some .blocked := by
    obtain ⟨job, hjob, hstate⟩ := Option.map_eq_some_iff.mp hfirst
    rw [h.jobOf_eq hmem] at hjob
    obtain ⟨old, hold, rfl⟩ := Option.map_eq_some_iff.mp hjob
    rw [stateOf, hold, Option.map_some, Option.some_inj]
    by_contra hne
    rw [unblock, if_neg hne] at hstate
    exact hne hstate
  rcases h.blocked_cases hmem hbefore with ⟨hs, -⟩ | ⟨hs, -⟩ | ⟨-, hgood, need, hneed, s, hs, hwaiting⟩
  · simp [hs] at hfirst
  · simp [hs] at hfirst
  · obtain ⟨dependency, hdependency, rfl⟩ := workflow.exists_need_before hserial hneed
    rcases hstate hs with rfl | hended
    · have hnot := hpre dependency hdependency
      simp [hs] at hnot
    · exact hwaiting (hgood _ hneed s hs hended)

theorem unblock_state_canceled {f : WorkflowJobId → Option RunJob} {job : RunJob} :
    (unblock now definition f job).state = .canceled ↔ job.state = .canceled := by
  unfold unblock
  split_ifs with hblocked
  · rw [unblockedJob_state, hblocked]
    rcases unblockedState_cases ((needFacts f definition.needs).map Prod.fst) with
      ⟨h, -⟩ | ⟨h, -⟩ | ⟨h, -⟩ <;> simp [h]
  · rfl

/-- The pass cancels nothing. -/
theorem exists_canceled_iff (h : Propagated workflow now jobs jobs') :
    (∃ job ∈ jobs', job.state = .canceled) ↔ ∃ job ∈ jobs, job.state = .canceled := by
  constructor
  · rintro ⟨job', hjob', hcanceled⟩
    obtain ⟨definition, -, job, hjob, -, -, rfl⟩ := h.exists_unblock hjob'
    exact ⟨job, hjob, unblock_state_canceled.mp hcanceled⟩
  · rintro ⟨job, hjob, hcanceled⟩
    have hof : jobOf jobs job.key = some job := (KeyedList.lookup_eq_some h.nodup).mpr ⟨hjob, rfl⟩
    have hkept := h.kept hof (by simp [hcanceled])
    exact ⟨job, ((KeyedList.lookup_eq_some (h.keys ▸ h.nodup)).mp hkept).1, hcanceled⟩

/-- A second pass changes nothing. -/
theorem again (h : Propagated workflow now jobs jobs') :
    jobOf jobs' = propagate (unblockRule now) workflow.serialJobs (jobOf jobs') := by
  rw [h.eq]
  refine (propagate_idem (unblockRule_ordered now workflow) fun definition f job => ?_).symm
  show (job.map _).map _ = job.map _
  rw [Option.map_map]
  exact congrArg (Option.map · job) (funext fun job => unblock_idem now definition f job)

/-- A pass over the same jobs in another order leads to the same jobs. -/
theorem perm {other other' : List RunJob} (h : Propagated workflow now jobs jobs') (ho : Propagated workflow now other other')
    (hperm : jobs.Perm other) : jobs'.Perm other' := by
  refine KeyedList.perm_of_lookup (ho.keys ▸ ho.nodup) ?_ ?_
  · rw [h.keys, ho.keys]
    exact hperm.map _
  · show jobOf jobs' = jobOf other'
    rw [h.eq, ho.eq, jobOf, KeyedList.lookup_perm h.nodup hperm]

/-- A pass over jobs that it has settled, or of which none is blocked, leaves them. -/
theorem eq_self (h : Propagated workflow now jobs jobs')
    (hsettled : jobOf jobs = propagate (unblockRule now) workflow.serialJobs (jobOf jobs) ∨
      ∀ job ∈ jobs, job.state ≠ .blocked) : jobs' = jobs := by
  refine KeyedList.eq_of_lookup h.nodup h.keys (h.eq.trans ?_)
  rcases hsettled with hsettled | hnone
  · exact hsettled.symm
  · refine propagate_unique (unblockRule_ordered now workflow) (fun definition _ => ?_)
      fun _ _ => rfl
    show jobOf jobs definition.id = (jobOf jobs definition.id).map _
    cases hof : jobOf jobs definition.id with
    | none => rfl
    | some job =>
      have hjob := ((KeyedList.lookup_eq_some h.nodup).mp hof).1
      rw [Option.map_some, unblock, if_neg (hnone job hjob)]

end Propagated

/-! ## The whole operation -/

namespace RunWithJobs

variable {state : RunWithJobs} {workflow : CompiledWorkflow} {revision : WorkflowRevision}

/-- The jobs are those of the workflow, in any order, and belong to the run. -/
structure Matches (state : RunWithJobs) (workflow : CompiledWorkflow) : Prop where
  keys : (state.jobs.map (·.key)).Perm (workflow.jobs.map (·.id))
  runIds : ∀ job ∈ state.jobs, job.runId = state.run.id

theorem Matches.keys_nodup (h : state.Matches workflow) : (state.jobs.map (·.key)).Nodup :=
  h.keys.nodup_iff.mpr workflow.ids_nodup

theorem Matches.ids (h : state.Matches workflow) (id : WorkflowJobId) :
    id ∈ state.jobs.map (·.key) ↔ id ∈ workflow.serialJobs.map (·.id) := by
  rw [h.keys.mem_iff, (workflow.serialJobs_perm.map _).mem_iff]

/-- What `reconcile_run` does to jobs that match the workflow. -/
theorem Matches.reconcileRun_eq (h : state.Matches revision.definition)
    (hrevision : state.run.validateWorkflowRevision revision = .ok ()) (now : ℕ) :
    ∃ jobs, (reconcileRun revision now).run state = .ok () (derivedState ⟨state.run, jobs⟩ now) ∧
      (∀ job ∈ jobs, job.runId = state.run.id) ∧
      Propagated revision.definition now state.jobs jobs := by
  have hids : ∀ definition ∈ revision.definition.serialJobs,
      definition.id ∈ state.jobs.map (·.key) := fun definition hdefinition =>
    (h.ids _).mpr (List.mem_map.mpr ⟨definition, hdefinition, rfl⟩)
  have hneeds : ∀ definition ∈ revision.definition.serialJobs, ∀ need ∈ definition.needs,
      need ∈ state.jobs.map (·.key) := by
    intro definition hdefinition need hneed
    obtain ⟨pre, post, hserial⟩ := List.append_of_mem hdefinition
    obtain ⟨dependency, hmem, rfl⟩ := revision.definition.exists_need_before hserial hneed
    exact hids dependency (by simp [hserial, hmem])
  obtain ⟨jobs, hloop, hmap, hof⟩ := reconcileJobs_eq now h.keys_nodup hids hneeds
  have hrunIds : ∀ job ∈ jobs, job.runId = state.run.id := by
    intro job hjob
    obtain ⟨old, hold, hsteps⟩ := ListUpdate.forall₂_mem_right (reconcileJobs_steps hloop).1 hjob
    exact (JobFrame.of_steps hsteps).runId.trans (h.runIds old hold)
  have hlength : state.jobs.length = revision.definition.jobs.length := by
    simpa using h.keys.length_eq
  have hne : jobs ≠ [] := by
    rintro rfl
    have hzero := congrArg List.length hmap
    simp only [List.map_nil, List.length_nil, List.length_map, hlength] at hzero
    exact revision.definition.jobs_ne_nil (List.length_eq_zero_iff.mp hzero.symm)
  refine ⟨jobs, ?_, hrunIds, hmap, h.keys_nodup, h.ids, hof⟩
  simp only [reconcileRun, check_unit_bind_eq_ok, get_bind_eq_ok, rejectIf_eq_ok, not_or,
    not_not, not_exists, not_and]
  refine ⟨hrevision, ⟨?_, fun definition hdefinition => ?_⟩, bind_eq_ok.mpr ⟨(), _, hloop, ?_⟩⟩
  · rw [← hlength]
    exact KeyedList.length_entries_positions h.keys_nodup
  · have hmem := hids definition (revision.definition.serialJobs_perm.mem_iff.mpr hdefinition)
    obtain ⟨job, hjob, hkey⟩ := List.mem_map.mp hmem
    obtain ⟨index, hindex⟩ := List.mem_iff_getElem?.mp hjob
    have hget : (jobIndexes state.jobs).get? definition.id = some index :=
      (KeyedList.positions_get? h.keys_nodup).mpr ⟨job, hindex, hkey⟩
    rw [hget]
    exact Option.some_ne_none _
  · simp only [deriveRunState, check_unit_bind_eq_ok, rejectIf_eq_ok, modify_eq_ok, not_or,
      not_exists, not_and, not_not]
    exact ⟨⟨hne, hrunIds⟩, trivial⟩

/-- Whether the run is to be canceled. -/
def cancels (state : RunWithJobs) : Prop :=
  state.run.cancellationRequested = true ∨ ∃ job ∈ state.jobs, job.state = .canceled

/-- What a successful `reconcile_run` at time `now` leads to. -/
structure Reconciled (revision : WorkflowRevision) (now : ℕ) (before after : RunWithJobs) :
    Prop where
  /-- The jobs are still those of the workflow, in the same order. -/
  keys : after.jobs.map (·.key) = before.jobs.map (·.key)
  /-- A job that was not blocked is unchanged. -/
  kept : ¬ before.cancels → ∀ id job, jobOf before.jobs id = some job → job.state ≠ .blocked →
    jobOf after.jobs id = some job
  /-- A blocked job is queued once all its needs succeeded. -/
  queued : ¬ before.cancels → ∀ definition ∈ revision.definition.jobs,
    stateOf before.jobs definition.id = some .blocked →
      (stateOf after.jobs definition.id = some .queued ↔
        ∀ need ∈ definition.needs, stateOf after.jobs need = some .succeeded)
  /-- It is skipped once one of its needs ended in another way, or was skipped itself. -/
  skipped : ¬ before.cancels → ∀ definition ∈ revision.definition.jobs,
    stateOf before.jobs definition.id = some .blocked →
      (stateOf after.jobs definition.id = some .skipped ↔ ∃ need ∈ definition.needs, ∃ state,
        stateOf after.jobs need = some state ∧ state.isTerminal = true ∧ state ≠ .succeeded)
  /-- Otherwise it stays blocked. -/
  blocked : ¬ before.cancels → ∀ definition ∈ revision.definition.jobs,
    stateOf before.jobs definition.id = some .blocked →
      stateOf after.jobs definition.id = some .queued ∨ stateOf after.jobs definition.id = some .skipped ∨
        stateOf after.jobs definition.id = some .blocked
  /-- No job waits for jobs that wait themselves. -/
  noDeadlock : ¬ ((∃ job ∈ after.jobs, job.state = .blocked) ∧
    ∀ job ∈ after.jobs, job.state = .blocked ∨ job.state.isTerminal = true)
  /-- The run has ended exactly when all jobs have. -/
  ended : after.run.state.isTerminal = true ↔ ∀ job ∈ after.jobs, job.state.isTerminal = true
  /-- The order of the jobs does not matter. -/
  order : ∀ jobs, before.jobs.Perm jobs → ∃ result,
    (reconcileRun revision now).run ⟨before.run, jobs⟩ = .ok () result ∧
      result.run = after.run ∧ after.jobs.Perm result.jobs
  /-- A second call changes nothing. -/
  again : (reconcileRun revision now).run after = .ok () after
  /-- A run that is to be canceled has no waiting job left. -/
  canceled : before.cancels → ∀ job ∈ after.jobs, job.state ≠ .blocked ∧ job.state ≠ .queued

theorem canceledJobs_perm {requested : Bool} {jobs jobs' : List RunJob} (h : jobs.Perm jobs')
    (now : ℕ) : (canceledJobs requested jobs now).Perm (canceledJobs requested jobs' now) := by
  unfold canceledJobs
  split
  · rw [latest_perm ((h.filter _).map _) now]
    exact h.map _
  · exact h

theorem derivedRun_perm {run : Run} {requested : Bool} {jobs jobs' : List RunJob}
    (h : jobs.Perm jobs') (now : ℕ) :
    derivedRun run requested jobs now = derivedRun run requested jobs' now := by
  have hany : ∀ p : RunJob → Bool, jobs.any p = jobs'.any p := fun _ => h.any_eq
  have hall : ∀ p : RunJob → Bool, jobs.all p = jobs'.all p := fun _ => h.all_eq
  have hnext : nextRunState run.state jobs = nextRunState run.state jobs' := by
    simp only [nextRunState, hany, hall]
  simp only [derivedRun, hany, hall, hnext, latest_perm (h.map _)]

/-- The derived state does not depend on the order of the jobs. -/
theorem derivedState_perm (run : Run) {jobs jobs' : List RunJob} (h : jobs.Perm jobs') (now : ℕ) :
    (derivedState ⟨run, jobs⟩ now).run = (derivedState ⟨run, jobs'⟩ now).run ∧
      (derivedState ⟨run, jobs⟩ now).jobs.Perm (derivedState ⟨run, jobs'⟩ now).jobs := by
  have hany : ∀ p : RunJob → Bool, jobs.any p = jobs'.any p := fun _ => h.any_eq
  simp only [derivedState, hany]
  exact ⟨derivedRun_perm (canceledJobs_perm h now) now, canceledJobs_perm h now⟩

theorem isTerminal_nextRunState_iff {state : RunState} {jobs : List RunJob} :
    (nextRunState state jobs).isTerminal = true ↔ ∀ job ∈ jobs, job.state.isTerminal = true := by
  refine ⟨all_isTerminal_of_nextRunState, fun hall => ?_⟩
  have hall' : jobs.all (·.state.isTerminal) = true := List.all_eq_true.mpr hall
  rw [nextRunState, if_pos hall']
  split_ifs <;> rfl

/-- What the derivation of the run state leaves of the jobs. -/
theorem derivedState_jobs (state : RunWithJobs) (now : ℕ) :
    (¬ state.cancels → (derivedState state now).jobs = state.jobs) ∧
      (state.cancels → ∀ job ∈ (derivedState state now).jobs, job.isWaiting = false) := by
  have hcancels : state.cancels ↔
      (state.run.cancellationRequested || state.jobs.any (·.state = .canceled)) = true := by
    simp [cancels]
  simp only [derivedState]
  constructor
  · intro h
    rw [hcancels, Bool.not_eq_true] at h
    rw [h]
    rfl
  · intro h job hjob
    rw [hcancels.mp h] at hjob
    exact not_isWaiting_canceledJobs hjob

theorem derivedState_keys (state : RunWithJobs) (now : ℕ) :
    (derivedState state now).jobs.map (·.key) = state.jobs.map (·.key) := by
  have hframe : List.Forall₂ JobFrame state.jobs (derivedState state now).jobs :=
    (canceledJobs_steps _ state.jobs now).imp fun _ _ => JobFrame.of_steps
  exact ListUpdate.forall₂_map_eq (fun _ _ hjob => hjob.key) hframe

theorem derivedState_runIds {state : RunWithJobs}
    (h : ∀ job ∈ state.jobs, job.runId = state.run.id) (now : ℕ) :
    ∀ job ∈ (derivedState state now).jobs, job.runId = (derivedState state now).run.id := by
  intro job hjob
  obtain ⟨old, hold, hsteps⟩ :=
    ListUpdate.forall₂_mem_right (canceledJobs_steps _ state.jobs now) hjob
  exact (JobFrame.of_steps hsteps).runId.trans (h old hold)

theorem cancels_iff_of_propagated {workflow : CompiledWorkflow} {now : ℕ} {run : Run}
    {jobs jobs' : List RunJob} (h : Propagated workflow now jobs jobs') :
    cancels ⟨run, jobs'⟩ ↔ cancels ⟨run, jobs⟩ :=
  or_congr_right h.exists_canceled_iff

/-- Reconciling reaches the fixpoint of the needs in one pass. -/
theorem Matches.reconciled {before after : RunWithJobs} {now : ℕ}
    (h : before.Matches revision.definition)
    (hok : (reconcileRun revision now).run before = .ok () after) :
    Reconciled revision now before after := by
  have hrevision : before.run.validateWorkflowRevision revision = .ok () := by
    simp only [reconcileRun, check_unit_bind_eq_ok] at hok
    exact hok.1
  obtain ⟨jobs, hrun, hrunIds, hpass⟩ := h.reconcileRun_eq hrevision now
  obtain rfl : derivedState ⟨before.run, jobs⟩ now = after := by
    rw [hrun] at hok
    exact (EStateM.Result.ok.inj hok).2
  obtain ⟨hsame, hwaiting⟩ := derivedState_jobs ⟨before.run, jobs⟩ now
  rw [cancels_iff_of_propagated hpass] at hsame hwaiting
  have hkeys : (derivedState ⟨before.run, jobs⟩ now).jobs.map (·.key) = before.jobs.map (·.key) :=
    (derivedState_keys _ now).trans hpass.keys
  have hserial : ∀ {definition : WorkflowJob}, definition ∈ revision.definition.jobs →
      definition ∈ revision.definition.serialJobs :=
    fun hmem => revision.definition.serialJobs_perm.mem_iff.mpr hmem
  have hcanceled : before.cancels → ∀ job ∈ (derivedState ⟨before.run, jobs⟩ now).jobs,
      job.state ≠ .blocked ∧ job.state ≠ .queued := by
    intro hcancels job hjob
    have hnot := hwaiting hcancels job hjob
    simpa [RunJob.isWaiting, not_or] using hnot
  refine
    { keys := hkeys
      kept := fun hcancels id job hjob hstate => hsame hcancels ▸ hpass.kept hjob hstate
      queued := fun hcancels definition hmem hblocked => ?_
      skipped := fun hcancels definition hmem hblocked => ?_
      blocked := fun hcancels definition hmem hblocked => ?_
      noDeadlock := ?_
      ended := isTerminal_nextRunState_iff
      order := fun other hperm => ?_
      again := ?_
      canceled := hcanceled }
  · rw [hsame hcancels]
    rcases hpass.blocked_cases (hserial hmem) hblocked with
      ⟨hs, need, hneed, s, hof, -, hne⟩ | ⟨hs, hall⟩ | ⟨hs, -, need, hneed, s, hof, hne⟩
    · simp only [hs, Option.some_inj, reduceCtorEq, false_iff, not_forall]
      exact ⟨need, hneed, by simpa [hof] using hne⟩
    · simpa only [hs, true_iff] using hall
    · simp only [hs, Option.some_inj, reduceCtorEq, false_iff, not_forall]
      exact ⟨need, hneed, by simpa [hof] using hne⟩
  · rw [hsame hcancels]
    rcases hpass.blocked_cases (hserial hmem) hblocked with ⟨hs, hbad⟩ | ⟨hs, hall⟩ | ⟨hs, hgood, -⟩
    · simpa only [hs, true_iff] using hbad
    · simp only [hs, Option.some_inj, reduceCtorEq, false_iff]
      rintro ⟨need, hneed, s, hof, -, hne⟩
      exact hne (Option.some_inj.mp (hof.symm.trans (hall need hneed)))
    · simp only [hs, Option.some_inj, reduceCtorEq, false_iff]
      rintro ⟨need, hneed, s, hof, hended, hne⟩
      exact hne (hgood need hneed s hof hended)
  · rw [hsame hcancels]
    rcases hpass.blocked_cases (hserial hmem) hblocked with ⟨hs, -⟩ | ⟨hs, -⟩ | ⟨hs, -⟩
    · exact .inr (.inl hs)
    · exact .inl hs
    · exact .inr (.inr hs)
  · by_cases hcancels : before.cancels
    · rintro ⟨⟨job, hjob, hblocked⟩, -⟩
      exact (hcanceled hcancels job hjob).1 hblocked
    · rw [hsame hcancels]
      exact hpass.noDeadlock
  · have hother : Matches ⟨before.run, other⟩ revision.definition :=
      ⟨(hperm.map _).symm.trans h.keys, fun job hjob => h.runIds job (hperm.mem_iff.mpr hjob)⟩
    obtain ⟨jobs', hrun', -, hpass'⟩ := hother.reconcileRun_eq hrevision now
    obtain ⟨hsameRun, hsameJobs⟩ := derivedState_perm before.run (hpass.perm hpass' hperm) now
    exact ⟨_, hrun', hsameRun.symm, hsameJobs⟩
  · have hmatches : (derivedState ⟨before.run, jobs⟩ now).Matches revision.definition :=
      ⟨hkeys ▸ h.keys, derivedState_runIds hrunIds now⟩
    obtain ⟨jobs', hrun', -, hpass'⟩ := hmatches.reconcileRun_eq hrevision now
    have hjobs : jobs' = (derivedState ⟨before.run, jobs⟩ now).jobs := by
      refine hpass'.eq_self ?_
      by_cases hcancels : before.cancels
      · exact .inr fun job hjob => (hcanceled hcancels job hjob).1
      · rw [hsame hcancels]
        exact .inl hpass.again
    rw [hrun', hjobs]
    exact congrArg (EStateM.Result.ok ()) (derivedState_idem _ now)

end RunWithJobs

/-! ## A run of two jobs -/

namespace TwoJobs

def buildJob : WorkflowJob :=
  .ofStep ⟨"build"⟩ [] "image" ⟨"compile", "make"⟩

def deployJob : WorkflowJob :=
  .ofStep ⟨"deploy"⟩ [⟨"build"⟩] "image" ⟨"publish", "make publish"⟩

def revision : WorkflowRevision where
  workflow := ⟨"repo", "ci.yml"⟩
  digest := "digest"
  definition :=
    { name := "ci"
      triggers := ⟨false, true, false, Eq.refl true⟩
      jobs := [buildJob, deployJob]
      jobs_ne_nil := by decide
      jobs_le := by decide
      sorted := by decide
      graph := by decide }

def run : Run :=
  ⟨"run", "key", ⟨"repo", "ci.yml"⟩, "digest", .pushMain, none, .running, false, 100, 110, none⟩

/-- The first job succeeded; the second still waits for it. -/
def before : RunWithJobs where
  run := run
  jobs :=
    [{ RunJob.new run deployJob with state := .blocked },
      { RunJob.new run buildJob with
        state := .succeeded, lastAttemptNumber := 1, updatedAtUnix := 120,
        completedAtUnix := some 120 }]

/-- The second job is ready, as of the time at which the first one ended. -/
def after : RunWithJobs where
  run := { run with state := .running, updatedAtUnix := 120 }
  jobs :=
    [{ RunJob.new run deployJob with state := .queued, updatedAtUnix := 120 },
      { RunJob.new run buildJob with
        state := .succeeded, lastAttemptNumber := 1, updatedAtUnix := 120,
        completedAtUnix := some 120 }]

/-- The deployment becomes ready once the build has succeeded. -/
theorem reconciled_after : RunWithJobs.Reconciled revision 115 before after := by
  have hmatches : before.Matches revision.definition := by
    refine ⟨List.Perm.swap _ _ _, fun job hjob => ?_⟩
    simp only [before, List.mem_cons, List.not_mem_nil, or_false] at hjob
    rcases hjob with rfl | rfl <;> rfl
  exact RunWithJobs.Matches.reconciled hmatches rfl

end TwoJobs

end ScopeVcs

import ScopeVcs.Outbox.Store

/-! # What executing a job writes

An execution may add runs and settle the evaluation of its push; it never touches the jobs. Each run
is keyed by the push and the workflow it is for.
-/

namespace ScopeVcs.Outbox

open Mutation IntegerColumns

variable {ρ : Type} {env : OutboxEnv ρ} {db db' : OutboxDb ρ}

theorem domain_eq_ok {α : Type} {x : Except DomainError α} {a : α} {s t : OutboxDb ρ} :
    (domain x : OutboxTx ρ α).run s = .ok a t ↔ x = .ok a ∧ s = t := by
  rw [domain, check_eq_ok, mapError_eq_ok]

/-! ## Runs -/

/-- Nothing but runs was added, each of which satisfies `P`. -/
structure Enqueued (P : RunRow → Prop) (db db' : OutboxDb ρ) : Prop where
  jobs : db'.jobs = db.jobs
  evaluations : db'.evaluations = db.evaluations
  repositories : db'.repositories = db.repositories
  kept : ∀ row ∈ db.runs, row ∈ db'.runs
  added : ∀ row ∈ db'.runs, row ∈ db.runs ∨ P row

namespace Enqueued

variable {P : RunRow → Prop}

theorem refl (db : OutboxDb ρ) : Enqueued P db db :=
  ⟨rfl, rfl, rfl, fun _ h => h, fun _ h => .inl h⟩

theorem trans {db₁ db₂ db₃ : OutboxDb ρ} (h : Enqueued P db₁ db₂) (h' : Enqueued P db₂ db₃) :
    Enqueued P db₁ db₃ where
  jobs := h'.jobs.trans h.jobs
  evaluations := h'.evaluations.trans h.evaluations
  repositories := h'.repositories.trans h.repositories
  kept := fun row hrow => h'.kept row (h.kept row hrow)
  added := fun row hrow => (h'.added row hrow).elim (h.added row) .inr

theorem mono {Q : RunRow → Prop} (h : Enqueued P db db') (hPQ : ∀ row, P row → Q row) :
    Enqueued Q db db' :=
  ⟨h.jobs, h.evaluations, h.repositories, h.kept, fun row hrow => (h.added row hrow).imp id (hPQ row)⟩

end Enqueued

theorem saveWorkflowRevision_eq_ok {revision : WorkflowRevision}
    (h : (saveWorkflowRevision revision).run db = .ok () db') :
    db' = { db with
      revisions := db.revisions.insert ⟨revision.digest, revision.definition⟩ } := by
  simp only [saveWorkflowRevision, modify_bind_eq_ok, check_eq_ok] at h
  exact h.2.symm

/-- The stored row is a run of the same workflow of the same head. -/
def SameRequest (stored : RunRow) (workflow : WorkflowIdentity) (head : GitHead) : Prop :=
  stored.run.workflow = workflow ∧ stored.sourceHead = head

theorem restore_eq_ok {row run : Run} (h : row.restore = .ok run) : run = row := by
  simp only [Run.restore, except_bind_eq_ok] at h
  obtain ⟨queued, hqueued, _, -, h⟩ := h
  cases h
  obtain ⟨-, rfl⟩ := Run.queued_eq_ok.mp hqueued
  rfl

theorem enqueueRunInTransaction_eq_ok {row : RunRow} {revision : WorkflowRevision}
    {result : EnqueueRunResult}
    (h : (enqueueRunInTransaction row revision).run db = .ok result db') :
    Enqueued (· = row) db db' ∧
      ∃ stored ∈ db'.runs, SameRequest stored row.run.workflow row.sourceHead := by
  simp only [enqueueRunInTransaction, bind_eq_ok, domain_eq_ok, check_eq_ok, get_eq_ok] at h
  obtain ⟨_, _, ⟨-, rfl⟩, _, _, ⟨-, rfl⟩, requestedJobs, _, ⟨-, rfl⟩, _, saved, hsave, _, _,
    ⟨rfl, rfl⟩, h⟩ := h
  have hsaved := saveWorkflowRevision_eq_ok hsave
  have hframe : Enqueued (· = row) db saved := by
    rw [hsaved]
    exact ⟨rfl, rfl, rfl, fun _ h => h, fun _ h => .inl h⟩
  split at h
  · split at h
    · cases h
    · next stored hfind =>
      simp only [bind_eq_ok, domain_eq_ok, check_eq_ok] at h
      obtain ⟨restored, _, ⟨hrestored, rfl⟩, _, _, ⟨hsame, rfl⟩, h⟩ := h
      cases h
      obtain rfl := restore_eq_ok hrestored
      rw [rejectIf_eq_ok, Bool.not_eq_false, RunRow.hasSameEnqueueRequestIdentity] at hsame
      simp only [Bool.and_eq_true, decide_eq_true_eq] at hsame
      exact ⟨hframe, stored, (Table.find?_eq_some.mp hfind).1, hsame.1.1.1.1.1.2, hsame.2⟩
  · next hfree =>
    simp only [bind_eq_ok, modify_eq_ok] at h
    obtain ⟨_, _, rfl, h⟩ := h
    cases h
    have hnone : saved.runs.find? row.enqueueKey = none := by
      rw [Table.find?_eq_none]
      intro stored hstored hkey
      rw [Bool.not_eq_true, runTaken, Table.any_eq_false] at hfree
      simpa [hkey] using hfree stored hstored
    refine ⟨hframe.trans ⟨rfl, rfl, rfl, ?_, ?_⟩, row, ?_, rfl, rfl⟩
    · exact fun stored hstored => (Table.mem_insert hnone).mpr (.inl hstored)
    · exact fun stored hstored => (Table.mem_insert hnone).mp hstored
    · exact (Table.mem_insert hnone).mpr (.inr rfl)

/-- A run of a workflow for an accepted push. -/
def IsPushRun (repoId : String) (changeVersion : ℕ) (headOid : String) (head : GitHead)
    (row : RunRow) : Prop :=
  row.sourceRepositoryId = repoId ∧ row.sourceHead = head ∧
    row.run.idempotencyKey = pushRunKey changeVersion headOid row.run.workflow.path

theorem pushMainRun_eq_ok {repoId : String} {changeVersion nowUnix : ℕ} {head : GitHead}
    {input : PushTriggerInput} {revision : WorkflowRevision} {row : RunRow}
    (h : pushMainRun env repoId changeVersion head input revision nowUnix = .ok row) :
    IsPushRun repoId changeVersion input.headOid head row ∧
      SameRequest row revision.workflow head := by
  simp only [pushMainRun, except_bind_eq_ok] at h
  obtain ⟨_, -, run, hrun, h⟩ := h
  cases h
  obtain ⟨-, rfl⟩ := Run.queued_eq_ok.mp (Run.queued_of_new hrun)
  exact ⟨⟨rfl, rfl, rfl⟩, rfl, rfl⟩

theorem enqueuePushRun_eq_ok {repoId : String} {changeVersion nowUnix : ℕ} {head : GitHead}
    {input : PushTriggerInput} {revision : WorkflowRevision} {result : PushTriggerCheck × Bool}
    (h : (enqueuePushRun env repoId changeVersion head input nowUnix revision).run db =
      .ok result db') :
    Enqueued (IsPushRun repoId changeVersion input.headOid head) db db' ∧
      ∃ stored ∈ db'.runs, SameRequest stored revision.workflow head := by
  simp only [enqueuePushRun, bind_eq_ok, domain_eq_ok] at h
  obtain ⟨row, _, ⟨hrow, rfl⟩, stored, _, hstored, h⟩ := h
  cases h
  obtain ⟨hpush, hworkflow, hhead⟩ := pushMainRun_eq_ok hrow
  obtain ⟨hframe, found, hfound, hsame⟩ := enqueueRunInTransaction_eq_ok hstored
  exact ⟨hframe.mono fun row' h => h ▸ hpush, found, hfound, hworkflow ▸ hhead ▸ hsame⟩

/-! ## Evaluations -/

theorem readConfiguration_eq_ok {nativeRuns : Bool} {repoId : String} {input : PushTriggerInput}
    {evaluation evaluation' : PushTriggerEvaluation} {nowUnix : ℕ}
    {revisions : List WorkflowRevision} (hpending : evaluation.state = .pending)
    (h : readConfiguration env nativeRuns repoId input evaluation nowUnix =
      .ok (evaluation', revisions)) :
    evaluation'.key = evaluation.key ∧
      (evaluation'.state = .pending ∨ evaluation'.state = .configurationError) ∧
      (evaluation'.state = .pending → nativeRuns = true →
        env.pushWorkflows repoId input = .ok revisions) := by
  have hfailed : ∀ {message : String} {x : PushTriggerEvaluation × List WorkflowRevision},
      (do let evaluation ← evaluation.failConfiguration message nowUnix
          return (evaluation, [])) = Except.ok x →
        x.1.key = evaluation.key ∧ x.1.state = .configurationError := by
    intro message x hx
    simp only [except_bind_eq_ok] at hx
    obtain ⟨ended, hended, hx⟩ := hx
    cases hx
    exact PushTriggerEvaluation.finish_eq_ok hended
  rw [readConfiguration] at h
  split at h
  · next hoff =>
    cases h
    exact ⟨rfl, .inl hpending, fun _ hon => by simp [hoff] at hon⟩
  · split at h
    · obtain ⟨hkey, hstate : evaluation'.state = _⟩ := hfailed h
      exact ⟨hkey, .inr hstate, fun hp => by simp [hstate] at hp⟩
    · split at h
      · next hparsed =>
        cases h
        exact ⟨rfl, .inl hpending, fun _ _ => hparsed⟩
      · obtain ⟨hkey, hstate : evaluation'.state = _⟩ := hfailed h
        exact ⟨hkey, .inr hstate, fun hp => by simp [hstate] at hp⟩

/-- The runs a push was to get are there. -/
def HasRuns (env : OutboxEnv ρ) (repoId : String) (head : GitHead) (input : PushTriggerInput)
    (db : OutboxDb ρ) : Prop :=
  ∀ revisions, env.pushWorkflows repoId input = .ok revisions → ∀ revision ∈ revisions,
    ∃ row ∈ db.runs, SameRequest row revision.workflow head

/-- An execution that settles the evaluation of its push. -/
structure Evaluated (env : OutboxEnv ρ) (job : ClaimedOutboxJob) (db db' : OutboxDb ρ) : Prop where
  intro ::
  exists_evaluation : ∃ head input stored evaluation executed,
    loadJobPayload db job.id = .ok (head, input) ∧
    db.evaluations.find? (job.repoId, job.repoVersion) = some stored ∧ stored.state = .pending ∧
    Enqueued (IsPushRun job.repoId job.repoVersion input.headOid head) db executed ∧
    evaluation.key = stored.key ∧ evaluation.state ≠ .pending ∧
    db' = saveEvaluation evaluation executed ∧
    (evaluation.state = .succeeded → db.nativeRuns job.repoId = true →
      HasRuns env job.repoId head input db')

theorem evaluate_eq_ok {job : ClaimedOutboxJob} {nowUnix : ℕ} {created : List String}
    (h : (evaluate env job nowUnix).run db = .ok created db') :
    (db' = db ∧ ∀ stored, db.evaluations.find? (job.repoId, job.repoVersion) = some stored →
      stored.state ≠ .pending) ∨ Evaluated env job db db' := by
  simp only [evaluate, bind_eq_ok, check_eq_ok, get_eq_ok] at h
  obtain ⟨⟨head, input⟩, _, ⟨hpayload, rfl⟩, _, _, ⟨rfl, rfl⟩, h⟩ := h
  split at h
  · next hnone =>
    cases h
    exact .inl ⟨rfl, fun stored hstored => by simp [hnone] at hstored⟩
  · next stored hstored =>
    split at h
    · next hended =>
      cases h
      refine .inl ⟨rfl, fun stored' hstored' => ?_⟩
      cases hstored.symm.trans hstored'
      exact hended
    · next hpending =>
      rw [not_not] at hpending
      right
      simp only [bind_eq_ok, domain_eq_ok] at h
      obtain ⟨⟨evaluation, revisions⟩, _, ⟨hread, rfl⟩, h⟩ := h
      obtain ⟨hkey, hstate, hparsed⟩ := readConfiguration_eq_ok hpending hread
      simp only at h
      split at h
      · next hrun =>
        simp only [bind_eq_ok, domain_eq_ok, modify_eq_ok] at h
        obtain ⟨results, executed, hresults, ended, _, ⟨hended, rfl⟩, _, _, rfl, h⟩ := h
        cases h
        obtain ⟨hkey', hstate'⟩ := PushTriggerEvaluation.finish_eq_ok hended
        -- each enqueued run stays while the others are enqueued
        obtain ⟨hframe, hruns⟩ := mapM_rel
          (R := Enqueued (IsPushRun job.repoId job.repoVersion input.headOid head))
          (Q := fun (revision : WorkflowRevision) db =>
            ∃ row ∈ db.runs, SameRequest row revision.workflow head)
          Enqueued.refl (fun _ _ _ => Enqueued.trans)
          (by
            rintro revision s t ⟨row, hrow, hk⟩ hst
            exact ⟨row, hst.kept row hrow, hk⟩)
          (fun revision _ result s t ht => enqueuePushRun_eq_ok ht) hresults
        refine ⟨head, input, stored, ended, executed, hpayload, hstored, hpending, hframe,
          hkey'.trans hkey, ?_, rfl, fun _ hnative revisions' hrevisions' => ?_⟩
        · rw [hstate']
          decide
        · have hsame := hparsed hrun hnative
          cases hsame.symm.trans hrevisions'
          exact hruns
      · next hended =>
        simp only [bind_eq_ok, modify_eq_ok] at h
        obtain ⟨_, _, rfl, h⟩ := h
        cases h
        refine ⟨head, input, stored, evaluation, _, hpayload, hstored, hpending, .refl _, hkey,
          hended, rfl, fun hsucceeded => ?_⟩
        rcases hstate with hp | hp
        · exact absurd hp hended
        · simp [hp] at hsucceeded

/-- What an execution may change. -/
inductive Executed (env : OutboxEnv ρ) (job : ClaimedOutboxJob) (db db' : OutboxDb ρ) : Prop where
  | rebuilt (hkind : job.kind ≠ JOB_KIND) (readModels : ρ) (hdb : db' = { db with readModels })
  | settled (hkind : job.kind = JOB_KIND) (hdb : db' = db)
      (hended : ∀ stored, db.evaluations.find? (job.repoId, job.repoVersion) = some stored →
        stored.state ≠ .pending)
  | evaluated (hkind : job.kind = JOB_KIND) (hevaluated : Evaluated env job db db')

theorem executeOutboxJob_eq_ok {job : ClaimedOutboxJob} {nowUnix : ℕ} {created : List String}
    (h : (executeOutboxJob env job nowUnix).run db = .ok created db') :
    Executed env job db db' := by
  rw [executeOutboxJob] at h
  split at h
  · next hkind =>
    have hother : job.kind ≠ JOB_KIND := by
      rw [hkind]
      decide
    simp only [bind_eq_ok] at h
    obtain ⟨_, _, hrebuild, h⟩ := h
    cases h
    simp only [rebuildLiveProjectionReadModelsForJob, get_bind_eq_ok] at hrebuild
    split at hrebuild
    · cases hrebuild
      exact .rebuilt hother _ rfl
    · split at hrebuild
      · cases hrebuild
        exact .rebuilt hother _ rfl
      · simp only [bind_eq_ok, check_eq_ok, modify_eq_ok] at hrebuild
        obtain ⟨readModels, _, ⟨-, rfl⟩, rfl⟩ := hrebuild
        exact .rebuilt hother readModels rfl
  · split at h
    · next hkind =>
      rcases evaluate_eq_ok h with ⟨hsame, hended⟩ | hevaluated
      · exact .settled hkind hsame hended
      · exact .evaluated hkind hevaluated
    · cases h

end ScopeVcs.Outbox

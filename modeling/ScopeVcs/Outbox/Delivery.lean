import ScopeVcs.Outbox.AtMostOnce

/-! # Delivery of outbox jobs

What holds of every run of the workers: a job leaves `ready` and `running` once, only the owner of a
lease settles its job, and a push gets one run for each of its workflows. The number of executions is
bounded in the runs where no claim takes over a running job.
-/

namespace ScopeVcs.Outbox

open Mutation IntegerColumns Transition

variable {ρ : Type} {env : OutboxEnv ρ}

theorem isOpen_eq_true {db : OutboxDb ρ} {id : String} :
    isOpen db id = true ↔ ∃ job ∈ db.jobs, job.id = id ∧ job.isUnfinished = true := by
  rw [isOpen, Option.any_eq_true]
  constructor
  · rintro ⟨job, hjob, hopen⟩
    obtain ⟨hmem, hid⟩ := Table.find?_eq_some.mp hjob
    exact ⟨job, hmem, hid, hopen⟩
  · rintro ⟨job, hmem, hid, hopen⟩
    exact ⟨job, Table.find?_eq_some.mpr ⟨hmem, hid⟩, hopen⟩

/-- The row of a job tells whether it is open. -/
theorem isOpen_of_mem {db : OutboxDb ρ} {job : OutboxJob} (hjob : job ∈ db.jobs) :
    isOpen db job.id = job.isUnfinished := by
  rw [isOpen, Table.find?_eq_some.mpr ⟨hjob, rfl⟩, Option.any_some]

namespace World

variable {w w' : World ρ}

theorem act_eq_some {a : Action} :
    w.act env a = some w' ↔ ∃ w₁, w.step env a = some w₁ ∧
      w' = { w₁ with exits := (fun id =>
        w.exits id + if isOpen w.db id = true ∧ isOpen w₁.db id = false then 1 else 0) } := by
  rw [act, Option.map_eq_some_iff]
  exact ⟨fun ⟨w₁, h, hw⟩ => ⟨w₁, h, hw.symm⟩, fun ⟨w₁, h, hw⟩ => ⟨w₁, h, hw.symm⟩⟩

/-! ## A job leaves `ready` and `running` once -/

/-- Where the rows of the jobs come from: a finished one stays as it is, a new one is unfinished. -/
structure JobsKept (w w' : World ρ) : Prop where
  drawn : ∀ id ∈ w.jobIds, id ∈ w'.jobIds
  origin : ∀ job ∈ w'.db.jobs,
    (∃ before ∈ w.db.jobs, before.id = job.id ∧ (before.isUnfinished = false → job = before)) ∨
      (job.id ∉ w.jobIds ∧ job.isUnfinished = true)

theorem JobsKept.of_subset (hids : ∀ id ∈ w.jobIds, id ∈ w'.jobIds)
    (hjobs : ∀ job ∈ w'.db.jobs, job ∈ w.db.jobs) : JobsKept w w' :=
  ⟨hids, fun job hjob => .inl ⟨job, hjobs job hjob, rfl, fun _ => rfl⟩⟩

theorem JobsKept.of_added {job : OutboxJob} (hadded : Added w.db w'.db job)
    (hfresh : job.id ∉ w.jobIds) (hopen : job.isUnfinished = true)
    (hids : ∀ id ∈ w.jobIds, id ∈ w'.jobIds) : JobsKept w w' := by
  refine ⟨hids, fun row hrow => ?_⟩
  rcases (hadded.mem_iff row).mp hrow with hold | rfl
  · exact .inl ⟨row, hold, rfl, fun _ => rfl⟩
  · exact .inr ⟨hfresh, hopen⟩

theorem JobsKept.of_replaced {old new : OutboxJob} (hreplaced : Replaced w.db w'.db old new)
    (hopen : old.isUnfinished = true) (hids : ∀ id ∈ w.jobIds, id ∈ w'.jobIds) : JobsKept w w' := by
  refine ⟨hids, fun row hrow => ?_⟩
  rcases (hreplaced.mem_iff row).mp hrow with ⟨hold, -⟩ | rfl
  · exact .inl ⟨row, hold, rfl, fun _ => rfl⟩
  · exact .inl ⟨old, hreplaced.old_mem, hreplaced.same.id.symm, fun h => by simp [hopen] at h⟩

/-- The owner's recorded failure replaces its job and nothing else. -/
theorem replaced_of_recorded {inFlight : InFlight} {worker message : String} {now : ℕ} {u : Unit}
    {db' : OutboxDb ρ} (h : (failOutboxJob inFlight.job worker message now).run w.db = .ok u db') :
    ∃ old ∈ w.db.jobs, ∃ nextRunAt error, old.id = inFlight.job.id ∧
      old.leaseOwner = some worker ∧
      Replaced w.db db' old (old.failed (inFlight.job.attempts + 1) nextRunAt error now) := by
  obtain ⟨old, hold, nextRunAt, error, hid, howner, hlive, hdb⟩ := failOutboxJob_eq_ok h
  have hfailed : Replaced w.db
      (failJob w.db old.id worker (inFlight.job.attempts + 1) nextRunAt error now) old
      (old.failed (inFlight.job.attempts + 1) nextRunAt error now) :=
    replaced_failJob hold howner hlive
  refine ⟨old, hold, nextRunAt, error, hid, howner, ?_⟩
  rcases hdb with ⟨rfl, -⟩ | ⟨stored, evaluation, -, -, -, -, -, rfl⟩
  · exact hfailed
  · exact ⟨hold, hfailed.same, hfailed.mem_iff⟩

theorem jobsKept_of_change {a : Action} (hjobs : w.JobsInv) (h : Change env w a w') : JobsKept w w' := by
  cases h with
  | unchanged hrows hexecutions =>
    exact .of_subset (fun id hid => hrows.jobIds ▸ hid) fun job hjob => hrows.jobs ▸ hjob
  | executing hat => exact .of_subset (fun _ hid => hid) fun _ hjob => hjob
  | unneeded hfresh =>
    exact .of_subset (fun _ hid => List.mem_cons_of_mem _ hid) fun _ hjob => hjob
  | rebuild hfresh hjob hadded =>
    subst hjob
    exact .of_added hadded hfresh rfl fun _ hid => List.mem_cons_of_mem _ hid
  | push hfresh haccepted =>
    obtain ⟨evaluation, -, -, -, ⟨-, hsame⟩ | ⟨-, hadded⟩⟩ := haccepted.evaluation
    · exact .of_subset (fun _ hid => List.mem_cons_of_mem _ hid) fun job hjob => hsame ▸ hjob
    · exact .of_added hadded hfresh rfl fun _ hid => List.mem_cons_of_mem _ hid
  | claim hclaim hidle hnext =>
    obtain ⟨hmem, hlive, hopen⟩ := nextRunnableJob_eq_some hnext
    exact .of_replaced (replaced_claimJob hmem hlive) hopen fun _ hid => hid
  | completed hat hexecuted hold hid howner =>
    exact .of_replaced (JobsInv.replaced_of_completed hexecuted hold howner)
      (hjobs.isUnfinished_of_owner hold howner) fun _ hid => hid
  | failed hat hrecorded =>
    obtain ⟨old, hold, nextRunAt, error, -, howner, hreplaced⟩ := replaced_of_recorded hrecorded
    exact .of_replaced hreplaced (hjobs.isUnfinished_of_owner hold howner) fun _ hid => hid
  | pruned now =>
    exact .of_subset (fun _ hid => hid) fun job hjob => (Table.mem_delete.mp hjob).1

/-- The exits of a job agree with its row. -/
structure ExitsInv (w : World ρ) : Prop where
  undrawn : ∀ id, id ∉ w.jobIds → w.exits id = 0
  once : ∀ id, w.exits id ≤ 1
  unfinished : ∀ job ∈ w.db.jobs, job.isUnfinished = true → w.exits job.id = 0
  finished : ∀ job ∈ w.db.jobs, job.isUnfinished = false → w.exits job.id = 1

theorem ExitsInv.initial (clock : ℕ) (readModels : ρ) : (World.initial clock readModels).ExitsInv where
  undrawn := fun _ _ => rfl
  once := fun _ => Nat.zero_le 1
  unfinished := fun job hjob => absurd hjob (Table.notMem_empty job)
  finished := fun job hjob => absurd hjob (Table.notMem_empty job)

theorem ExitsInv.act {a : Action} (hexits : w.ExitsInv) (hjobs : w.JobsInv)
    (h : w.act env a = some w') : w'.ExitsInv := by
  obtain ⟨w₁, hstep, rfl⟩ := act_eq_some.mp h
  obtain ⟨hdrawn, horigin⟩ := jobsKept_of_change hjobs (step_change hjobs hstep)
  have hclosed : ∀ id, id ∉ w.jobIds → isOpen w.db id = false := by
    intro id hid
    rw [← Bool.not_eq_true, isOpen_eq_true]
    rintro ⟨job, hjob, rfl, -⟩
    exact hid (hjobs.drawn job hjob)
  refine ⟨fun id hid => ?_, fun id => ?_, fun job hjob hopen => ?_, fun job hjob hdone => ?_⟩
  · have hbefore : id ∉ w.jobIds := fun hmem => hid (hdrawn id hmem)
    change w.exits id + _ = 0
    rw [hexits.undrawn id hbefore, if_neg (by simp [hclosed id hbefore])]
  · change w.exits id + _ ≤ 1
    by_cases hleaves : isOpen w.db id = true ∧ isOpen w₁.db id = false
    · obtain ⟨job, hjob, rfl, hopen⟩ := isOpen_eq_true.mp hleaves.1
      rw [if_pos hleaves, hexits.unfinished job hjob hopen]
    · rw [if_neg hleaves]
      exact hexits.once id
  · change w.exits job.id + _ = 0
    have hnow : isOpen w₁.db job.id = true := (isOpen_of_mem hjob).trans hopen
    rw [if_neg (by simp [hnow])]
    rcases horigin job hjob with ⟨before, hbefore, hid, hkept⟩ | ⟨hfresh, -⟩
    · rw [← hid]
      refine hexits.unfinished before hbefore ?_
      by_contra hnot
      rw [Bool.not_eq_true] at hnot
      rw [hkept hnot, hnot] at hopen
      cases hopen
    · exact hexits.undrawn job.id hfresh
  · change w.exits job.id + _ = 1
    have hnow : isOpen w₁.db job.id = false := (isOpen_of_mem hjob).trans hdone
    rcases horigin job hjob with ⟨before, hbefore, hid, hkept⟩ | ⟨-, hopen⟩
    · have hrow : isOpen w.db job.id = before.isUnfinished := by
        rw [← hid]
        exact isOpen_of_mem hbefore
      cases hopen : before.isUnfinished with
      | true => rw [if_pos ⟨hrow.trans hopen, hnow⟩, ← hid, hexits.unfinished before hbefore hopen]
      | false =>
        rw [if_neg (by simp [hrow, hopen]), ← hid, hexits.finished before hbefore hopen]
    · rw [hdone] at hopen
      cases hopen

theorem JobsInv.of_exits {exits : String → ℕ} (h : w.JobsInv) : JobsInv { w with exits } :=
  ⟨h.drawn, h.consistent, h.repository, h.key, h.unique, fun worker inFlight hat =>
    let held := h.held worker inFlight hat
    ⟨held.drawn, held.repository, held.row⟩⟩

theorem PushesInv.of_exits {exits : String → ℕ} (h : PushesInv env w) :
    PushesInv env { w with exits } :=
  ⟨h.pushed, h.pending, h.accepted, h.distinct, h.runs, h.native⟩

/-! ## Every run -/

/-- The invariant of all runs. -/
structure Inv (env : OutboxEnv ρ) (w : World ρ) : Prop where
  jobs : w.JobsInv
  pushes : PushesInv env w
  exits : w.ExitsInv

theorem Inv.act {a : Action} (hinv : Inv env w) (h : w.act env a = some w') : Inv env w' := by
  have hexits := hinv.exits.act hinv.jobs h
  obtain ⟨w₁, hstep, rfl⟩ := act_eq_some.mp h
  obtain ⟨hjobs, hpushes⟩ := inv_change hinv.jobs hinv.pushes (step_change hinv.jobs hstep)
  exact ⟨hjobs.of_exits, hpushes.of_exits, hexits⟩

theorem Inv.initial (clock : ℕ) (readModels : ρ) : Inv env (World.initial clock readModels) :=
  ⟨.initial clock readModels, .initial clock readModels, .initial clock readModels⟩

theorem Reachable.inv (h : Reachable env w) : Inv env w := by
  refine Transition.Reachable.invariant (Inv env) h ?_ ?_
  · rintro _ ⟨clock, readModels, rfl⟩
    exact .initial clock readModels
  · rintro s t - hs ⟨a, hact⟩
    exact hs.act hact

/-- A run without take-overs is a run. -/
theorem ReachedWithoutTakeover.reachable (h : ReachedWithoutTakeover env w) : Reachable env w :=
  Transition.Reachable.mono h fun _ _ ⟨a, _, hact⟩ => ⟨a, hact⟩

/-- No effect of a worker without the lease is kept when it settles its job. -/
theorem db_eq_of_settle {worker : String} {inFlight : InFlight} {completionNow : ℕ}
    {interrupted : Option PostgresError} (hjobs : w.JobsInv)
    (hat : w.workers worker = some inFlight)
    (hlost : ∀ job ∈ w.db.jobs, job.id = inFlight.job.id → job.leaseOwner ≠ some worker)
    (h : w.act env (.settle worker completionNow interrupted) = some w') : w'.db = w.db := by
  obtain ⟨w₁, hstep, rfl⟩ := act_eq_some.mp h
  change w₁.db = w.db
  simp only [step, Option.ite_none_right_eq_some, hat] at hstep
  obtain ⟨-, hstep⟩ := hstep
  split at hstep
  · next job claimNow hphase =>
    cases hstep
    cases hphase
    have hrepo := (hjobs.held worker _ hat).repository
    rw [settle]
    cases hresult : executeAndComplete env job worker claimNow completionNow interrupted w.db with
    | mk db settled =>
      cases settled with
      | completed created =>
        obtain ⟨executed, old, -, hold, hid, howner, -⟩ :=
          executeAndComplete_eq_completed hrepo hresult
        exact absurd howner (hlost old hold hid)
      | failing message => rfl
      | stopped error => rfl
  · cases hstep

/-- A worker without the lease does not record a failure. -/
theorem db_eq_of_fail {worker : String} {inFlight : InFlight} {now : ℕ}
    (hat : w.workers worker = some inFlight)
    (hlost : ∀ job ∈ w.db.jobs, job.id = inFlight.job.id → job.leaseOwner ≠ some worker)
    (h : w.act env (.fail worker now) = some w') : w'.db = w.db := by
  obtain ⟨w₁, hstep, rfl⟩ := act_eq_some.mp h
  change w₁.db = w.db
  obtain ⟨-, hfail⟩ := now_eq_some.mp hstep
  split at hfail
  · next job claimNow message hphase =>
    cases hfail
    cases hat.symm.trans hphase
    rw [recordFailure]
    split
    · next hok =>
      let inFlight : InFlight := ⟨job, claimNow, .failing message⟩
      have hrecorded : (failOutboxJob inFlight.job worker message now).run w.db = _ := hok
      obtain ⟨old, hold, -, -, hid, howner, -⟩ := replaced_of_recorded hrecorded
      exact absurd howner (hlost old hold hid)
    · rfl
  · cases hfail

/-- One run at most of a workflow for a head. -/
theorem PushesInv.run_unique (hinv : PushesInv env w) {workflow : WorkflowIdentity} {head : GitHead}
    {row row' : RunRow} (hrow : row ∈ w.db.runs) (hrow' : row' ∈ w.db.runs)
    (hsame : SameRequest row workflow head) (hsame' : SameRequest row' workflow head) :
    row = row' := by
  refine Table.eq_of_key_eq hrow hrow' ?_
  rw [RunRow.enqueueKey, RunRow.enqueueKey, hinv.runs row hrow, hinv.runs row' hrow', hsame.1,
    hsame.2, hsame'.1, hsame'.2]

/-- A pending evaluation is one whose job is still to be done. -/
theorem PushesInv.pending_iff (hinv : PushesInv env w) {evaluation : PushTriggerEvaluation}
    (hevaluation : evaluation ∈ w.db.evaluations) :
    evaluation.state = .pending ↔ ∃ job ∈ w.db.jobs, job.kind = JOB_KIND ∧
      (job.repoId, job.repoVersion) = evaluation.key ∧ job.isUnfinished = true := by
  constructor
  · intro hpending
    obtain ⟨job, hjob, hkind, hkey⟩ := hinv.pending evaluation hevaluation hpending
    obtain ⟨push, -, hpush, -, stored, hstored, hsame, hiff⟩ := hinv.pushed job hjob hkind
    rw [Table.eq_of_key_eq hstored hevaluation (by rw [hsame, hpush, hkey])] at hiff
    exact ⟨job, hjob, hkind, hkey, hiff.mp hpending⟩
  · rintro ⟨job, hjob, hkind, hkey, hopen⟩
    obtain ⟨stored, hstored, hsame, hpending⟩ := hinv.exists_pending hjob hkind hopen
    rw [← Table.eq_of_key_eq hstored hevaluation (hsame.trans hkey)]
    exact hpending

/-! ## Runs without take-overs -/

/-- Every execution is counted as an attempt, or its worker still owns the lease. -/
structure CountedInv (w : World ρ) : Prop where
  undrawn : ∀ id, id ∉ w.jobIds → w.executions id = 0
  bounded : ∀ id, w.executions id ≤ MAX_JOB_ATTEMPTS
  counted : ∀ job ∈ w.db.jobs, job.isUnfinished = true →
    w.executions job.id ≤ job.attempts + if job.state = .running then 1 else 0
  owned : ∀ worker inFlight, w.workers worker = some inFlight → ∃ job ∈ w.db.jobs,
    job.id = inFlight.job.id ∧ job.leaseOwner = some worker ∧
      (inFlight.phase = .claimed → w.executions job.id ≤ job.attempts)

theorem CountedInv.initial (clock : ℕ) (readModels : ρ) :
    (World.initial clock readModels).CountedInv where
  undrawn := fun _ _ => rfl
  bounded := fun _ => Nat.zero_le _
  counted := fun job hjob => absurd hjob (Table.notMem_empty job)
  owned := fun _ _ h => by cases h

/-- Two workers own different jobs. -/
theorem id_ne_of_owner_ne {db : OutboxDb ρ} {job job' : OutboxJob} (hjob : job ∈ db.jobs)
    (hjob' : job' ∈ db.jobs) (howner : job.leaseOwner ≠ job'.leaseOwner) : job.id ≠ job'.id :=
  fun hid => howner (by rw [Table.eq_of_key_eq hjob hjob' hid])

/-- A worker that begins to execute owns its job, and no other worker is at it. -/
theorem CountedInv.executing (hcounted : w.CountedInv) (hjobs : w.JobsInv) {worker : String}
    {job : ClaimedOutboxJob} {claimNow : ℕ}
    (hat : w.workers worker = some ⟨job, claimNow, .claimed⟩) :
    CountedInv { w.setWorker worker (some ⟨job, claimNow, .executing⟩) with
      executions := Function.update w.executions job.id (w.executions job.id + 1) } := by
  obtain ⟨row, hrow, hid, howner, hclaimed⟩ := hcounted.owned worker _ hat
  change row.id = job.id at hid
  have hle : w.executions job.id ≤ row.attempts := hid ▸ hclaimed rfl
  have hopen : row.isUnfinished = true := hjobs.isUnfinished_of_owner hrow howner
  have hrunning : row.state = .running := (hjobs.consistent row hrow).owner (by simp [howner])
  have hlt : row.attempts < MAX_JOB_ATTEMPTS := (hjobs.consistent row hrow).attempts hopen
  refine ⟨fun id hfresh => ?_, fun id => ?_, fun row' hrow' hopen' => ?_, fun x f hx => ?_⟩
  · have hne : id ≠ job.id := by
      rintro rfl
      exact hfresh (hjobs.held worker _ hat).drawn
    change Function.update w.executions job.id (w.executions job.id + 1) id = 0
    rw [Function.update_of_ne hne]
    exact hcounted.undrawn id hfresh
  · change Function.update w.executions job.id (w.executions job.id + 1) id ≤ MAX_JOB_ATTEMPTS
    by_cases hsame : id = job.id
    · rw [hsame, Function.update_self]
      omega
    · rw [Function.update_of_ne hsame]
      exact hcounted.bounded id
  · change Function.update w.executions job.id (w.executions job.id + 1) row'.id ≤
      row'.attempts + if row'.state = .running then 1 else 0
    by_cases hsame : row'.id = job.id
    · obtain rfl : row' = row := Table.eq_of_key_eq hrow' hrow (hsame.trans hid.symm)
      rw [hsame, Function.update_self, if_pos hrunning]
      omega
    · rw [Function.update_of_ne hsame]
      exact hcounted.counted row' hrow' hopen'
  · by_cases hxw : x = worker
    · subst hxw
      obtain rfl : f = ⟨job, claimNow, .executing⟩ := by
        simpa [setWorker] using hx.symm
      exact ⟨row, hrow, hid, howner, fun h => by cases h⟩
    · have hbefore : w.workers x = some f :=
        (workers_setWorker hx).resolve_left fun h => hxw h.1
      obtain ⟨row', hrow', hid', howner', hclaimed'⟩ := hcounted.owned x f hbefore
      refine ⟨row', hrow', hid', howner', fun hphase => ?_⟩
      have hne : row'.id ≠ row.id := by
        refine id_ne_of_owner_ne hrow' hrow ?_
        rw [howner', howner]
        simpa using hxw
      change Function.update w.executions job.id (w.executions job.id + 1) row'.id ≤ row'.attempts
      rw [Function.update_of_ne (hid ▸ hne)]
      exact hclaimed' hphase

/-- Jobs and workers stay or go, and nothing is executed. -/
theorem CountedInv.of_subset (hcounted : w.CountedInv) (hids : ∀ id ∈ w.jobIds, id ∈ w'.jobIds)
    (hjobs : ∀ job ∈ w'.db.jobs, job ∈ w.db.jobs)
    (hkept : ∀ job ∈ w.db.jobs, job.leaseOwner.isSome = true → job ∈ w'.db.jobs)
    (hexecutions : w'.executions = w.executions)
    (hworkers : ∀ worker inFlight, w'.workers worker = some inFlight → ∃ before,
      w.workers worker = some before ∧ inFlight.job = before.job ∧
        (inFlight.phase = .claimed → before.phase = .claimed)) : w'.CountedInv where
  undrawn := fun id hid => by
    rw [hexecutions]
    exact hcounted.undrawn id fun h => hid (hids id h)
  bounded := hexecutions ▸ hcounted.bounded
  counted := fun job hjob => hexecutions ▸ hcounted.counted job (hjobs job hjob)
  owned := fun worker inFlight hat => by
    obtain ⟨before, hbefore, hjob, hphase⟩ := hworkers worker inFlight hat
    obtain ⟨row, hrow, hid, howner, hclaimed⟩ := hcounted.owned worker before hbefore
    rw [hexecutions]
    exact ⟨row, hkept row hrow (by simp [howner]), hid.trans (by rw [hjob]), howner,
      fun h => hclaimed (hphase h)⟩

/-- A new job was never executed. -/
theorem CountedInv.of_added (hcounted : w.CountedInv) {job : OutboxJob}
    (hadded : Added w.db w'.db job) (hfresh : job.id ∉ w.jobIds)
    (hids : w'.jobIds = job.id :: w.jobIds) (hexecutions : w'.executions = w.executions)
    (hworkers : w'.workers = w.workers) : w'.CountedInv where
  undrawn := fun id hid => by
    rw [hids] at hid
    rw [hexecutions]
    exact hcounted.undrawn id fun h => hid (List.mem_cons_of_mem _ h)
  bounded := hexecutions ▸ hcounted.bounded
  counted := fun row hrow hopen => by
    rw [hexecutions]
    rcases (hadded.mem_iff row).mp hrow with hold | rfl
    · exact hcounted.counted row hold hopen
    · rw [hcounted.undrawn _ hfresh]
      exact Nat.zero_le _
  owned := fun worker inFlight hat => by
    rw [hworkers] at hat
    obtain ⟨row, hrow, hrest⟩ := hcounted.owned worker inFlight hat
    exact ⟨row, (hadded.mem_iff row).mpr (.inl hrow), hexecutions ▸ hrest⟩

/-- One job is replaced by a version that counts its executions; the other workers are at others. -/
theorem CountedInv.of_replaced (hcounted : w.CountedInv) {old new : OutboxJob}
    (hreplaced : Replaced w.db w'.db old new) (hids : w'.jobIds = w.jobIds)
    (hexecutions : w'.executions = w.executions)
    (hnew : new.isUnfinished = true →
      w.executions old.id ≤ new.attempts + if new.state = .running then 1 else 0)
    (hworkers : ∀ worker inFlight, w'.workers worker = some inFlight →
      (w.workers worker = some inFlight ∧ old.leaseOwner ≠ some worker) ∨
        (inFlight.job.id = old.id ∧ new.leaseOwner = some worker ∧
          w.executions old.id ≤ new.attempts)) : w'.CountedInv where
  undrawn := by
    rw [hids, hexecutions]
    exact hcounted.undrawn
  bounded := hexecutions ▸ hcounted.bounded
  counted := fun row hrow hopen => by
    rw [hexecutions]
    rcases (hreplaced.mem_iff row).mp hrow with ⟨hold, -⟩ | rfl
    · exact hcounted.counted row hold hopen
    · rw [hreplaced.same.id]
      exact hnew hopen
  owned := fun worker inFlight hat => by
    rw [hexecutions]
    rcases hworkers worker inFlight hat with ⟨hbefore, hother⟩ | ⟨hid, howner, hle⟩
    · obtain ⟨row, hrow, hid, howner, hclaimed⟩ := hcounted.owned worker inFlight hbefore
      have hne : row ≠ old := by
        rintro rfl
        exact hother howner
      exact ⟨row, (hreplaced.mem_iff row).mpr (.inl ⟨hrow, hne⟩), hid, howner, hclaimed⟩
    · refine ⟨new, (hreplaced.mem_iff new).mpr (.inr rfl), ?_, howner, fun _ => ?_⟩
      · rw [hreplaced.same.id, hid]
      · rw [hreplaced.same.id]
        exact hle

theorem workers_setWorker_none {worker x : String} {inFlight : InFlight}
    (h : (w.setWorker worker none).workers x = some inFlight) :
    x ≠ worker ∧ w.workers x = some inFlight := by
  refine ⟨?_, setWorker_eq_some h⟩
  rintro rfl
  simp [setWorker] at h

theorem CountedInv.of_change {a : Action} (hcounted : w.CountedInv) (hjobs : w.JobsInv)
    (hready : w.claimsReady a = true) (h : Change env w a w') : w'.CountedInv := by
  cases h with
  | unchanged hrows hexecutions =>
    exact hcounted.of_subset (fun id hid => hrows.jobIds ▸ hid) (fun job hjob => hrows.jobs ▸ hjob)
      (fun job hjob _ => hrows.jobs ▸ hjob) hexecutions hrows.workers
  | executing hat => exact hcounted.executing hjobs hat
  | unneeded hfresh =>
    exact hcounted.of_subset (fun _ hid => List.mem_cons_of_mem _ hid) (fun _ hjob => hjob)
      (fun _ hjob _ => hjob) rfl fun _ f hx => ⟨f, hx, rfl, id⟩
  | rebuild hfresh hjob hadded =>
    subst hjob
    exact hcounted.of_added hadded hfresh rfl rfl rfl
  | push hfresh haccepted =>
    obtain ⟨evaluation, -, -, -, ⟨-, hsame⟩ | ⟨-, hadded⟩⟩ := haccepted.evaluation
    · exact hcounted.of_subset (fun _ hid => List.mem_cons_of_mem _ hid)
        (fun job hjob => hsame ▸ hjob) (fun job hjob _ => hsame ▸ hjob) rfl
        fun _ f hx => ⟨f, hx, rfl, id⟩
    · exact hcounted.of_added hadded hfresh rfl rfl rfl
  | @claim worker now job hclaim hidle hnext =>
    subst hclaim
    obtain ⟨hmem, hlive, hopen⟩ := nextRunnableJob_eq_some hnext
    have hstate : job.state = .ready := by
      simpa [claimsReady, hnext] using hready
    have hle : w.executions job.id ≤ job.attempts := by
      simpa [hstate] using hcounted.counted job hmem hopen
    refine hcounted.of_replaced (replaced_claimJob hmem hlive) rfl rfl (fun _ => ?_) fun x f hx => ?_
    · exact hle.trans (Nat.le_add_right _ _)
    · rcases workers_setWorker hx with ⟨rfl, rfl⟩ | hbefore
      · exact .inr ⟨rfl, rfl, hle⟩
      · refine .inl ⟨hbefore, fun howner => ?_⟩
        have hrunning := (hjobs.consistent job hmem).owner (by simp [howner])
        rw [hstate] at hrunning
        cases hrunning
  | @completed worker inFlight executed old now hat hexecuted hold hid howner =>
    refine hcounted.of_replaced (JobsInv.replaced_of_completed hexecuted hold howner) rfl rfl
      (fun h => by cases h) fun x f hx => ?_
    obtain ⟨hne, hbefore⟩ := workers_setWorker_none hx
    exact .inl ⟨hbefore, by rw [howner]; simpa using hne.symm⟩
  | @failed worker message inFlight now u db hat hrecorded =>
    obtain ⟨old, hold, nextRunAt, error, hid, howner, hreplaced⟩ := replaced_of_recorded hrecorded
    have hattempts : old.attempts = inFlight.job.attempts :=
      ((hjobs.held worker inFlight hat).row old hold hid).2.2.2 howner
    refine hcounted.of_replaced hreplaced rfl rfl (fun _ => ?_) fun x f hx => ?_
    · -- the attempt that failed is the execution under the lease
      have hle := hcounted.counted old hold (hjobs.isUnfinished_of_owner hold howner)
      change w.executions old.id ≤ inFlight.job.attempts + 1 + _
      split at hle <;> omega
    · obtain ⟨hne, hbefore⟩ := workers_setWorker_none hx
      exact .inl ⟨hbefore, by rw [howner]; simpa using hne.symm⟩
  | pruned now =>
    refine hcounted.of_subset (fun _ hid => hid) (fun job hjob => (Table.mem_delete.mp hjob).1)
      (fun job hjob howner => Table.mem_delete.mpr ⟨hjob, isPrunable_eq_false ?_⟩) rfl
      fun _ f hx => ⟨f, hx, rfl, id⟩
    have hrunning := (hjobs.consistent job hjob).owner howner
    simp [OutboxJob.isUnfinished, hrunning]

theorem CountedInv.of_exits {exits : String → ℕ} (h : w.CountedInv) :
    CountedInv { w with exits } :=
  ⟨h.undrawn, h.bounded, h.counted, h.owned⟩

theorem ReachedWithoutTakeover.counted (h : ReachedWithoutTakeover env w) : w.CountedInv := by
  suffices hboth : w.JobsInv ∧ PushesInv env w ∧ w.CountedInv from hboth.2.2
  refine Transition.Reachable.invariant
    (fun w => w.JobsInv ∧ PushesInv env w ∧ w.CountedInv) h ?_ ?_
  · rintro _ ⟨clock, readModels, rfl⟩
    exact ⟨.initial clock readModels, .initial clock readModels, .initial clock readModels⟩
  · rintro s t - ⟨hjobs, hpushes, hcounted⟩ ⟨a, hready, hact⟩
    obtain ⟨w₁, hstep, rfl⟩ := act_eq_some.mp hact
    have hchange := step_change hjobs hstep
    obtain ⟨hjobs', hpushes'⟩ := inv_change hjobs hpushes hchange
    exact ⟨hjobs'.of_exits, hpushes'.of_exits, (hcounted.of_change hjobs hready hchange).of_exits⟩

/-- Jobs take effect at most once. -/
theorem jobs_take_effect_once (h : Reachable env w) :
    (∀ id, w.exits id ≤ 1) ∧
    (∀ job ∈ w.db.jobs, w.exits job.id = 1 ↔ job.isUnfinished = false) ∧
    (∀ worker inFlight, w.workers worker = some inFlight →
      (∀ job ∈ w.db.jobs, job.id = inFlight.job.id → job.leaseOwner ≠ some worker) →
      (∀ completionNow interrupted w',
        w.act env (.settle worker completionNow interrupted) = some w' → w'.db = w.db) ∧
      ∀ now w', w.act env (.fail worker now) = some w' → w'.db = w.db) ∧
    (∀ evaluation ∈ w.db.evaluations, evaluation.state = .pending ↔
      ∃ job ∈ w.db.jobs, job.kind = JOB_KIND ∧
        (job.repoId, job.repoVersion) = evaluation.key ∧ job.isUnfinished = true) ∧
    (∀ job ∈ w.db.jobs, job.kind = JOB_KIND → ∃ evaluation ∈ w.db.evaluations,
      evaluation.key = (job.repoId, job.repoVersion) ∧
        (evaluation.state = .pending ↔ job.isUnfinished = true)) ∧
    (∀ push ∈ w.accepted, ∀ workflow, ∀ row ∈ w.db.runs, ∀ row' ∈ w.db.runs,
      SameRequest row workflow push.head → SameRequest row' workflow push.head → row = row') ∧
    (∀ push ∈ w.accepted, push.key ∈ w.native → ∀ evaluation ∈ w.db.evaluations,
      evaluation.key = push.key → evaluation.state = .succeeded →
      ∀ revisions, env.pushWorkflows push.repoId push.input = .ok revisions →
        ∀ revision ∈ revisions, ∃! row, row ∈ w.db.runs ∧
          SameRequest row revision.workflow push.head) ∧
    (ReachedWithoutTakeover env w → ∀ id, w.executions id ≤ MAX_JOB_ATTEMPTS) := by
  obtain ⟨hjobs, hpushes, hexits⟩ := Reachable.inv h
  refine ⟨hexits.once, fun job hjob => ?_, fun worker inFlight hat hlost => ⟨?_, ?_⟩,
    fun evaluation he => hpushes.pending_iff he, fun job hjob hkind => ?_,
    fun push _ workflow row hrow row' hrow' => hpushes.run_unique hrow hrow', ?_,
    fun htakeover => htakeover.counted.bounded⟩
  · cases hopen : job.isUnfinished with
    | true => simp [hexits.unfinished job hjob hopen]
    | false => simp [hexits.finished job hjob hopen]
  · exact fun _ _ _ hact => db_eq_of_settle hjobs hat hlost hact
  · exact fun _ _ hact => db_eq_of_fail hat hlost hact
  · obtain ⟨push, -, hkey, -, evaluation, he, hsame, hiff⟩ := hpushes.pushed job hjob hkind
    exact ⟨evaluation, he, hsame.trans hkey, hiff⟩
  · intro push hpush hnative evaluation he hkey hsucceeded revisions hrevisions revision hrevision
    obtain ⟨push', hpush', hkey', hall⟩ := hpushes.native push.key hnative
    obtain rfl := hpushes.distinct push hpush push' hpush' hkey'.symm
    obtain ⟨row, hrow, hsame⟩ :=
      (hall evaluation he hkey).2 hsucceeded revisions hrevisions revision hrevision
    exact ⟨row, ⟨hrow, hsame⟩, fun row' ⟨hrow', hsame'⟩ =>
      hpushes.run_unique hrow' hrow hsame' hsame⟩

/-! ## Runs of two workers, and of a worker that keeps stopping -/

/-- Every workflow file defines one job, and pushes of main start it. -/
def buildEnv : OutboxEnv Unit where
  parseDefinition := fun _ =>
    (CompiledWorkflow.new "build" ⟨false, true, false, Eq.refl true⟩
      [.ofStep ⟨"build"⟩ [] "image" ⟨"build", "make"⟩]).mapError
      fun _ => "invalid workflow"
  definitionDigest := fun _ => .ok (String.ofList (List.replicate 64 'd'))
  sha256Hex := id
  foldLiveProjectionReadModels := fun _ _ _ => .ok ()

def acceptedPush : AcceptedPush :=
  let headOid := String.ofList (List.replicate 40 'a')
  ⟨"repo", ⟨headOid, 1, 2, String.ofList (List.replicate 64 'f')⟩,
    ⟨headOid, [⟨"/.scope/runs/build.yml", [0]⟩], none⟩⟩

/-- The lease of the first worker runs out while it executes, and the second completes the job. -/
def pushedRun : List Action :=
  [.tick 100, .setContentVersion "repo" 2, .setNativeRuns "repo" true,
    .enqueuePush "job_1" acceptedPush 100, .claim "worker_1" 100, .execute "worker_1",
    .tick 60, .claim "worker_2" 160, .execute "worker_2", .settle "worker_2" 160 none]

theorem jobs_take_effect_once_pushed :
    ∃ w, pushedRun.foldlM (act buildEnv) (initial 0 ()) = some w ∧
      ∃! row, row ∈ w.db.runs ∧
        SameRequest row ⟨"repo", "/.scope/runs/build.yml"⟩ acceptedPush.head := by
  have hfacts : (pushedRun.foldlM (act buildEnv) (initial 0 ())).any (fun w =>
      acceptedPush ∈ w.accepted && acceptedPush.key ∈ w.native &&
        (w.db.evaluations.find? acceptedPush.key).any fun e => e.state = .succeeded) = true := by
    decide +kernel
  have hworkflows : (buildEnv.pushWorkflows "repo" acceptedPush.input).toOption.any
      (fun revisions => revisions.any fun revision =>
        revision.workflow = ⟨"repo", "/.scope/runs/build.yml"⟩) = true := by
    decide +kernel
  obtain ⟨w, hw, hfacts⟩ := Option.any_eq_true _ _ |>.mp hfacts
  simp only [Bool.and_eq_true, decide_eq_true_eq, Option.any_eq_true] at hfacts
  obtain ⟨⟨hpush, hnative⟩, evaluation, hevaluation, hsucceeded⟩ := hfacts
  obtain ⟨hmem, hkey⟩ := Table.find?_eq_some.mp hevaluation
  obtain ⟨revisions, hrevisions, hany⟩ := Option.any_eq_true _ _ |>.mp hworkflows
  obtain ⟨revision, hrevision, hworkflow⟩ := List.any_eq_true.mp hany
  have hparsed : buildEnv.pushWorkflows "repo" acceptedPush.input = .ok revisions := by
    cases hresult : buildEnv.pushWorkflows "repo" acceptedPush.input with
    | error message => simp [hresult, Except.toOption] at hrevisions
    | ok parsed => simpa [hresult, Except.toOption] using hrevisions
  have hreach : Reachable buildEnv w :=
    Transition.Reachable.foldlM (fun s a t h => ⟨a, h⟩) (.of_init ⟨0, (), rfl⟩) hw
  rw [decide_eq_true_eq] at hworkflow
  rw [← hworkflow]
  exact ⟨w, hw, (jobs_take_effect_once hreach).2.2.2.2.2.2.1 acceptedPush hpush hnative evaluation
    hmem hkey hsucceeded revisions hparsed revision hrevision⟩

/-- A worker claims and executes the job and dies, once for each lease. -/
def dyingRun : List Action :=
  [.tick 100, .setContentVersion "repo" 2, .enqueueRebuild "job_1" "repo" 2 100] ++
    (List.range 13).flatMap fun k =>
      [.claim "worker_1" (100 + 60 * k), .execute "worker_1", .stop "worker_1", .tick 60]

/-- Executions that end in the worker's death are not counted as attempts. -/
theorem executions_unbounded_by_attempts :
    ∃ w : World Unit, Reachable buildEnv w ∧ MAX_JOB_ATTEMPTS < w.executions "job_1" := by
  have hexecutions : (dyingRun.foldlM (act buildEnv) (initial 0 ())).any (fun w =>
      MAX_JOB_ATTEMPTS < w.executions "job_1") = true := by
    decide +kernel
  obtain ⟨w, hw, hlt⟩ := Option.any_eq_true _ _ |>.mp hexecutions
  exact ⟨w, Transition.Reachable.foldlM (fun s a t h => ⟨a, h⟩) (.of_init ⟨0, (), rfl⟩) hw,
    of_decide_eq_true hlt⟩

end World

end ScopeVcs.Outbox

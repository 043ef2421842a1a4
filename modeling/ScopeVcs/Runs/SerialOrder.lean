import Mathlib.Data.List.Sort
import Mathlib.Logic.Relation
import Mathlib.Order.WellFoundedSet
import ScopeVcs.Runs.JobGraph

/-! # Which workflows are accepted, and their order

The graph check passes exactly when every need names a job and no job needs itself through others.
The order of the jobs is then the least one, by ids, in which each job follows its needs.
-/

namespace ScopeVcs

/-! ## The loop with its panics -/

/-- `recordNeed` with the bounds check of the index. -/
def checkedRecordNeed (indices : SortedMap WorkflowJobId ℕ) (jobIndex : ℕ)
    (dependents : List (List ℕ)) (dependency : WorkflowJobId) : Option (List (List ℕ)) :=
  match indices.get? dependency with
  | some dependencyIndex =>
    if dependencyIndex < dependents.length then
      some (dependents.modify dependencyIndex (· ++ [jobIndex]))
    else none
  | none => some dependents

def checkedJobDependents (jobs : List WorkflowJob) : Option (List (List ℕ)) :=
  jobs.zipIdx.foldlM
    (fun dependents (job, jobIndex) =>
      job.needs.foldlM (checkedRecordNeed (jobIndices jobs) jobIndex) dependents)
    (List.replicate jobs.length [])

/-- `satisfyNeed` where a counter that would go below zero and an index out of bounds panic. -/
def checkedSatisfyNeed (jobs : List WorkflowJob) (queue : ReadyQueue) (dependent : ℕ) :
    Option ReadyQueue := do
  let needs ← queue.remainingNeeds[dependent]?
  if needs = 0 then none
  else
    let remainingNeeds := queue.remainingNeeds.set dependent (needs - 1)
    if needs - 1 = 0 then
      let job ← jobs[dependent]?
      some ⟨remainingNeeds, queue.ready.insert job.id ()⟩
    else some ⟨remainingNeeds, queue.ready⟩

/-- The loop of `takeReadyJobs` with its panics; a loop that is not done after all its rounds has no
result either. -/
def checkedTakeReadyJobs (jobs : List WorkflowJob) (dependents : List (List ℕ)) :
    ℕ → ReadyQueue → Option (List ℕ)
  | 0, queue => if queue.ready.popFirst?.isNone then some [] else none
  | rounds + 1, queue =>
    match queue.ready.popFirst? with
    | none => some []
    | some ((id, _), ready) => do
      let index ← (jobIndices jobs).get? id
      let satisfied ← dependents[index]?
      let queue ← satisfied.foldlM (checkedSatisfyNeed jobs) { queue with ready }
      let order ← checkedTakeReadyJobs jobs dependents rounds queue
      some (index :: order)

/-- `topological_job_indices` with every index checked and every subtraction checked. -/
def checkedTopologicalJobIndices (jobs : List WorkflowJob) : Option (List ℕ) := do
  let dependents ← checkedJobDependents jobs
  checkedTakeReadyJobs jobs dependents jobs.length (initialQueue jobs)

section Checked

variable {jobs : List WorkflowJob}

theorem foldlM_checkedRecordNeed {indices : SortedMap WorkflowJobId ℕ} {length : ℕ}
    (hlt : ∀ id index, indices.get? id = some index → index < length) (jobIndex : ℕ)
    (needs : List WorkflowJobId) {dependents : List (List ℕ)} (hlen : dependents.length = length) :
    needs.foldlM (checkedRecordNeed indices jobIndex) dependents =
        some (needs.foldl (recordNeed indices jobIndex) dependents) ∧
      (needs.foldl (recordNeed indices jobIndex) dependents).length = length := by
  induction needs generalizing dependents with
  | nil => exact ⟨rfl, hlen⟩
  | cons need needs ih =>
    have hstep : checkedRecordNeed indices jobIndex dependents need =
        some (recordNeed indices jobIndex dependents need) := by
      unfold checkedRecordNeed recordNeed
      cases hget : indices.get? need with
      | none => rfl
      | some index => exact if_pos (hlen ▸ hlt need index hget)
    have hlen' : (recordNeed indices jobIndex dependents need).length = length := by
      unfold recordNeed
      cases indices.get? need with
      | none => exact hlen
      | some index => simpa using hlen
    rw [List.foldlM_cons, hstep, List.foldl_cons]
    exact ih hlen'

theorem checkedJobDependents_eq (hids : (jobs.map (·.id)).Nodup) :
    checkedJobDependents jobs = some (jobDependents jobs) := by
  have hlt : ∀ id index, (jobIndices jobs).get? id = some index → index < jobs.length :=
    fun id index => jobIndices_lt hids
  -- the loop over a part of the jobs, on lists of the right length
  have hloop : ∀ (part : List (WorkflowJob × ℕ)) (dependents : List (List ℕ)),
      dependents.length = jobs.length →
      part.foldlM (fun dependents (e : WorkflowJob × ℕ) =>
          e.1.needs.foldlM (checkedRecordNeed (jobIndices jobs) e.2) dependents) dependents =
        some (part.foldl (fun dependents (e : WorkflowJob × ℕ) =>
          e.1.needs.foldl (recordNeed (jobIndices jobs) e.2) dependents) dependents) := by
    intro part
    induction part with
    | nil => intro dependents _; rfl
    | cons e part ih =>
      intro dependents hlen
      obtain ⟨hstep, hlen'⟩ := foldlM_checkedRecordNeed hlt e.2 e.1.needs hlen
      rw [List.foldlM_cons, hstep, List.foldl_cons]
      exact ih _ hlen'
  exact hloop jobs.zipIdx _ List.length_replicate

theorem checkedSatisfyNeed_eq {queue : ReadyQueue} {dependent needs : ℕ} {job : WorkflowJob}
    (hneeds : queue.remainingNeeds[dependent]? = some needs) (hpos : 0 < needs)
    (hjob : jobs[dependent]? = some job) :
    checkedSatisfyNeed jobs queue dependent = some (satisfyNeed jobs queue dependent) := by
  have hmodify : queue.remainingNeeds.modify dependent (· - 1) =
      queue.remainingNeeds.set dependent (needs - 1) := by
    rw [List.modify_eq_set_getElem?, hneeds]
    rfl
  have hget : (queue.remainingNeeds.set dependent (needs - 1))[dependent]? = some (needs - 1) := by
    have hlt := (List.getElem?_eq_some_iff.mp hneeds).1
    simp [hlt]
  simp only [checkedSatisfyNeed, satisfyNeed, hneeds, hmodify, hget, hjob, Option.bind_eq_bind,
    Option.bind_some, Option.some_inj]
  rw [if_neg (by omega)]
  split <;> rfl

theorem foldlM_checkedSatisfyNeed (ds : List ℕ) (queue : ReadyQueue)
    (hjobs : ∀ j ∈ ds, ∃ job, jobs[j]? = some job)
    (hcount : ∀ j ∈ ds, ∃ r, queue.remainingNeeds[j]? = some r ∧ ds.count j ≤ r) :
    ds.foldlM (checkedSatisfyNeed jobs) queue = some (ds.foldl (satisfyNeed jobs) queue) := by
  induction ds generalizing queue with
  | nil => rfl
  | cons d ds ih =>
    obtain ⟨r, hr, hle⟩ := hcount d (by simp)
    obtain ⟨job, hjob⟩ := hjobs d (by simp)
    rw [List.count_cons_self] at hle
    rw [List.foldlM_cons, checkedSatisfyNeed_eq hr (by omega) hjob, List.foldl_cons]
    refine ih _ (fun j hj => hjobs j (by simp [hj])) ?_
    exact satisfyNeed_count_le hjob hcount

/-- The loop in a state of the invariant neither panics nor runs out of rounds. -/
theorem checkedTakeReadyJobs_eq (hids : (jobs.map (·.id)).Nodup) (rounds : ℕ) {taken : List ℕ}
    {queue : ReadyQueue} (h : ReadyInv jobs taken queue)
    (hrounds : jobs.length ≤ rounds + taken.length) :
    checkedTakeReadyJobs jobs (jobDependents jobs) rounds queue =
      some (takeReadyJobs jobs rounds queue) := by
  induction rounds generalizing taken queue with
  | zero =>
    have hnone : queue.ready.popFirst? = none :=
      SortedMap.popFirst?_eq_none.mpr (h.ready_eq_none (by omega))
    simp [checkedTakeReadyJobs, takeReadyJobs, hnone]
  | succ rounds ih =>
    rw [checkedTakeReadyJobs, takeReadyJobs]
    cases hpop : queue.ready.popFirst? with
    | none => rfl
    | some popped =>
      obtain ⟨⟨id, u⟩, ready⟩ := popped
      obtain ⟨hget, rfl, -⟩ := SortedMap.popFirst?_eq_some hpop
      obtain ⟨i, job, hjob, rfl, hi, hmet⟩ := (h.ready id).mp hget
      have hindex : (jobIndices jobs).get? job.id = some i :=
        (jobIndices_get? hids).mpr ⟨job, hjob, rfl⟩
      obtain ⟨ds, hds, hcount, hmem⟩ :=
        exists_jobDependents (List.getElem?_eq_some_iff.mp hjob).1
      have hfold := foldlM_checkedSatisfyNeed ds { queue with ready := queue.ready.erase job.id }
        hmem (h.count_le hi hcount hmem)
      have hnext := h.take hids hjob hi hmet
      rw [hds, Option.getD_some] at hnext
      simp only [hindex, hds, hfold, Option.bind_eq_bind, Option.bind_some, Option.getD_some]
      rw [ih hnext (by simp; omega)]
      rfl

theorem checkedTopologicalJobIndices_eq (hids : (jobs.map (·.id)).Nodup) :
    checkedTopologicalJobIndices jobs = some (topologicalJobIndices jobs) := by
  rw [checkedTopologicalJobIndices, checkedJobDependents_eq hids]
  exact checkedTakeReadyJobs_eq hids jobs.length (readyInv_initialQueue jobs) (by simp)

end Checked

/-! ## Needs and orders -/

/-- The job `a` names `b` among its needs. -/
def Needs (jobs : List WorkflowJob) (a b : WorkflowJobId) : Prop :=
  ∃ job ∈ jobs, job.id = a ∧ b ∈ job.needs

/-- Every need is the id of a job. -/
def NeedsExist (jobs : List WorkflowJob) : Prop :=
  ∀ job ∈ jobs, ∀ need ∈ job.needs, need ∈ jobs.map (·.id)

/-- No job needs itself, whether it says so or other jobs stand in between. -/
def Acyclic (jobs : List WorkflowJob) : Prop :=
  ∀ id, ¬ Relation.TransGen (Needs jobs) id id

/-- Each job of the list stands after all it needs, when those in `before` stand before all. -/
def FollowsNeeds : List WorkflowJobId → List WorkflowJob → Prop
  | _, [] => True
  | before, job :: rest =>
    (∀ need ∈ job.needs, need ∈ before) ∧ FollowsNeeds (before ++ [job.id]) rest

theorem followsNeeds_iff {before : List WorkflowJobId} {order : List WorkflowJob} :
    FollowsNeeds before order ↔ ∀ pre job post, order = pre ++ job :: post →
      ∀ need ∈ job.needs, need ∈ before ++ pre.map (·.id) := by
  induction order generalizing before with
  | nil => simp [FollowsNeeds]
  | cons first rest ih =>
    rw [FollowsNeeds, ih]
    constructor
    · rintro ⟨hfirst, hrest⟩ pre job post hsplit need hneed
      cases pre with
      | nil =>
        obtain ⟨rfl, -⟩ := List.cons_eq_cons.mp hsplit
        simpa using hfirst need hneed
      | cons _ pre =>
        rw [List.cons_append] at hsplit
        obtain ⟨rfl, htail⟩ := List.cons_eq_cons.mp hsplit
        simpa using hrest pre job post htail need hneed
    · intro h
      refine ⟨fun need hneed => by simpa using h [] first rest rfl need hneed, ?_⟩
      intro pre job post hsplit need hneed
      simpa using h (first :: pre) job post (by rw [hsplit]; rfl) need hneed

/-- Jobs that can be put in such an order need nothing in a circle. -/
theorem acyclic_of_followsNeeds {jobs order : List WorkflowJob} (hids : (order.map (·.id)).Nodup)
    (hmem : ∀ job ∈ jobs, job ∈ order) (horder : FollowsNeeds [] order) : Acyclic jobs := by
  -- each need stands strictly before the job that names it
  have hstep : ∀ a b, Needs jobs a b →
      (order.map (·.id)).idxOf b < (order.map (·.id)).idxOf a := by
    rintro _ b ⟨job, hjob, rfl, hneed⟩
    obtain ⟨pre, post, rfl⟩ := List.append_of_mem (hmem job hjob)
    have hbefore : b ∈ pre.map (·.id) := by
      simpa using followsNeeds_iff.mp horder pre job post rfl b hneed
    rw [List.map_append, List.map_cons] at hids ⊢
    have hnotMem : job.id ∉ pre.map (·.id) := fun h =>
      List.disjoint_of_nodup_append hids h List.mem_cons_self
    rw [List.idxOf_append_of_mem hbefore, List.idxOf_append_of_notMem hnotMem,
      List.idxOf_cons_self]
    have hlt := List.idxOf_lt_length_of_mem hbefore
    omega
  have htrans : ∀ a b, Relation.TransGen (Needs jobs) a b →
      (order.map (·.id)).idxOf b < (order.map (·.id)).idxOf a := by
    intro a b h
    induction h with
    | single h => exact hstep _ _ h
    | tail _ h ih => exact (hstep _ _ h).trans ih
  exact fun id h => absurd (htrans id id h) (lt_irrefl _)

/-- Among finitely many ids, some needs none of them when nothing is needed in a circle. -/
theorem Acyclic.exists_needs_none {jobs : List WorkflowJob} (hacyclic : Acyclic jobs)
    {ids : Set WorkflowJobId} (hfinite : ids.Finite) (hne : ids.Nonempty) :
    ∃ id ∈ ids, ∀ need, Needs jobs id need → need ∉ ids := by
  have horder : IsStrictOrder WorkflowJobId fun b a => Relation.TransGen (Needs jobs) a b :=
    { irrefl := hacyclic
      trans := fun a b c hab hbc => hbc.trans hab }
  have hwf := Set.wellFoundedOn_iff.mp
    (hfinite.wellFoundedOn (r := fun b a => Relation.TransGen (Needs jobs) a b))
  obtain ⟨id, hid, hmin⟩ := hwf.has_min ids hne
  exact ⟨id, hid, fun need hneed hmem => hmin need hmem ⟨.single hneed, hmem, hid⟩⟩

/-! ## The graph check -/

theorem missingDependency?_eq_none {jobs : List WorkflowJob} :
    missingDependency? jobs = none ↔ NeedsExist jobs := by
  simp [missingDependency?, NeedsExist, List.findSome?_eq_none_iff]

theorem validateJobGraph_eq_ok {jobs : List WorkflowJob} :
    validateJobGraph jobs = .ok () ↔
      NeedsExist jobs ∧ (topologicalJobIndices jobs).length = jobs.length := by
  rw [← missingDependency?_eq_none, validateJobGraph]
  cases missingDependency? jobs with
  | none => simp
  | some missing => simp

section Graph

variable {jobs : List WorkflowJob} (hids : (jobs.map (·.id)).Nodup)
include hids

theorem orderedJobs_followsNeeds :
    FollowsNeeds [] ((topologicalJobIndices jobs).filterMap (jobs[·]?)) := by
  refine followsNeeds_iff.mpr fun pre job post hsplit need hneed => ?_
  obtain ⟨dependency, hdependency, rfl⟩ := orderedJobs_need_before hids hsplit hneed
  simpa using ⟨dependency, hdependency, rfl⟩

/-- When the queue runs empty, each job left over needs another one that is left over. -/
theorem length_topologicalJobIndices_of_acyclic (hexist : NeedsExist jobs)
    (hacyclic : Acyclic jobs) : (topologicalJobIndices jobs).length = jobs.length := by
  obtain ⟨queue, hinv, hempty⟩ := topologicalJobIndices_inv hids
  set taken := topologicalJobIndices jobs
  let left : Set WorkflowJobId := {id | ∃ i job, jobs[i]? = some job ∧ job.id = id ∧ i ∉ taken}
  have hfinite : left.Finite := by
    apply (jobs.map (·.id)).finite_toSet.subset
    rintro _ ⟨i, job, hjob, rfl, -⟩
    exact List.mem_map_of_mem (List.mem_of_getElem? hjob)
  have hleft : ¬ left.Nonempty := by
    intro hne
    obtain ⟨_, ⟨i, job, hjob, rfl, hi⟩, hnone⟩ := hacyclic.exists_needs_none hfinite hne
    -- all its needs are taken, so it is ready
    have hmet : unmetNeeds jobs taken job = 0 := by
      refine List.countP_eq_zero.mpr fun need hneed => ?_
      have hjobMem := List.mem_of_getElem? hjob
      obtain ⟨dependency, hdependency, hid⟩ := List.mem_map.mp (hexist job hjobMem need hneed)
      obtain ⟨j, hj⟩ := List.mem_iff_getElem?.mp hdependency
      have htaken : j ∈ taken := by
        by_contra hj'
        exact hnone need ⟨job, hjobMem, rfl, hneed⟩ ⟨j, dependency, hj, hid, hj'⟩
      simp only [decide_eq_true_eq, not_forall, not_not]
      exact ⟨j, htaken, (jobIndices_get? hids).mpr ⟨dependency, hj, hid⟩⟩
    have hready := (hinv.ready job.id).mpr ⟨i, job, hjob, rfl, hi, hmet⟩
    rw [hempty] at hready
    cases hready
  have hall : List.range jobs.length ⊆ taken := by
    intro i hi
    by_contra hnot
    have hjob := List.getElem?_eq_getElem (List.mem_range.mp hi)
    exact hleft ⟨_, i, _, hjob, rfl, hnot⟩
  have hge := (List.subperm_of_subset List.nodup_range hall).length_le
  rw [List.length_range] at hge
  exact (hinv.perm_range hge).length_eq.trans List.length_range

/-- The graph check passes exactly when every need exists and nothing is needed in a circle. -/
theorem validateJobGraph_iff : validateJobGraph jobs = .ok () ↔ NeedsExist jobs ∧ Acyclic jobs := by
  rw [validateJobGraph_eq_ok]
  refine and_congr_right fun hexist => ?_
  constructor
  · intro hlen
    have hperm := orderedJobs_perm hids hlen
    have hids' := (hperm.map (·.id)).nodup_iff.mpr hids
    exact acyclic_of_followsNeeds hids' (fun job => hperm.mem_iff.mpr)
      (orderedJobs_followsNeeds hids)
  · exact length_topologicalJobIndices_of_acyclic hids hexist

end Graph

/-! ## The least order -/

section Least

variable {jobs : List WorkflowJob} (hids : (jobs.map (·.id)).Nodup)
include hids

/-- From a state of the loop on: each round takes the least ready id, so no order of the jobs that
are left, in which each follows its needs, has lesser ids. -/
theorem takeReadyJobs_least (rounds : ℕ) {taken : List ℕ} {queue : ReadyQueue}
    (h : ReadyInv jobs taken queue) {before : List WorkflowJobId}
    (hbefore : ∀ id ∈ before, ∃ i ∈ taken, (jobIndices jobs).get? id = some i)
    {order : List WorkflowJob} (hnodup : (order.map (·.id)).Nodup)
    (hmem : ∀ job, job ∈ order ↔ ∃ i, jobs[i]? = some job ∧ i ∉ taken)
    (horder : FollowsNeeds before order) :
    ¬ order.map (·.id) < ((takeReadyJobs jobs rounds queue).filterMap (jobs[·]?)).map (·.id) := by
  induction rounds generalizing taken queue before order with
  | zero => exact List.not_lt_nil _
  | succ rounds ih =>
    rw [takeReadyJobs]
    cases hpop : queue.ready.popFirst? with
    | none => exact List.not_lt_nil _
    | some popped =>
      obtain ⟨⟨id, u⟩, ready⟩ := popped
      obtain ⟨hget, rfl, hleast⟩ := SortedMap.popFirst?_eq_some hpop
      obtain ⟨i, job, hjob, rfl, hi, hmet⟩ := (h.ready id).mp hget
      have hindex : (jobIndices jobs).get? job.id = some i :=
        (jobIndices_get? hids).mpr ⟨job, hjob, rfl⟩
      simp only [hindex, List.filterMap_cons_some hjob, List.map_cons]
      cases order with
      | nil => exact absurd ((hmem job).mpr ⟨i, hjob, hi⟩) List.not_mem_nil
      | cons first rest =>
        obtain ⟨hneeds, hrest⟩ := horder
        obtain ⟨i₁, hfirst, hi₁⟩ := (hmem first).mp List.mem_cons_self
        -- the first job of the other order is ready too
        have hmet₁ : unmetNeeds jobs taken first = 0 := by
          refine List.countP_eq_zero.mpr fun need hneed => ?_
          obtain ⟨j, hj, hget⟩ := hbefore need (hneeds need hneed)
          simp only [decide_eq_true_eq, not_forall, not_not]
          exact ⟨j, hj, hget⟩
        have hle := hleast first.id () ((h.ready _).mpr ⟨i₁, first, hfirst, rfl, hi₁, hmet₁⟩)
        rw [List.map_cons, List.cons_lt_cons_iff, not_or, not_and]
        refine ⟨not_lt.mpr hle, fun heq => ?_⟩
        obtain rfl : i = i₁ := index_unique hids hjob hfirst heq.symm
        obtain rfl : job = first := Option.some_inj.mp (hjob.symm.trans hfirst)
        obtain ⟨hnotMem, hnodup⟩ := List.nodup_cons.mp hnodup
        refine ih (h.take hids hjob hi hmet) ?_ hnodup ?_ hrest
        · intro id hid
          rcases List.mem_append.mp hid with hid | hid
          · obtain ⟨j, hj, hget⟩ := hbefore id hid
            exact ⟨j, by simp [hj], hget⟩
          · exact ⟨i, by simp, List.mem_singleton.mp hid ▸ hindex⟩
        · intro other
          constructor
          · intro hother
            obtain ⟨j, hj, hjt⟩ := (hmem other).mp (List.mem_cons_of_mem _ hother)
            refine ⟨j, hj, ?_⟩
            rw [List.mem_append, List.mem_singleton, not_or]
            refine ⟨hjt, ?_⟩
            rintro rfl
            obtain rfl : job = other := Option.some_inj.mp (hjob.symm.trans hj)
            exact hnotMem (List.mem_map_of_mem hother)
          · rintro ⟨j, hj, hjt⟩
            rw [List.mem_append, List.mem_singleton, not_or] at hjt
            rcases List.mem_cons.mp ((hmem other).mpr ⟨j, hj, hjt.1⟩) with rfl | hother
            · exact absurd (index_unique hids hj hjob rfl) hjt.2
            · exact hother

theorem orderedJobs_least {order : List WorkflowJob} (hperm : order.Perm jobs)
    (horder : FollowsNeeds [] order) :
    ((topologicalJobIndices jobs).filterMap (jobs[·]?)).map (·.id) ≤ order.map (·.id) := by
  refine not_lt.mp ?_
  refine takeReadyJobs_least hids jobs.length (readyInv_initialQueue jobs) (by simp) ?_ ?_ horder
  · exact (hperm.map (·.id)).nodup_iff.mpr hids
  · intro job
    simp [hperm.mem_iff, List.mem_iff_getElem?]

end Least

/-! ## Accepted workflows -/

/-- Lists of the same jobs with distinct ids are sorted alike. -/
theorem insertionSort_eq_of_perm {jobs jobs' : List WorkflowJob}
    (hids : (jobs.map (·.id)).Nodup) (hperm : jobs'.Perm jobs) :
    jobs'.insertionSort (fun a b => a.id ≤ b.id) = jobs.insertionSort fun a b => a.id ≤ b.id := by
  have hsort := List.perm_insertionSort fun a b : WorkflowJob => a.id ≤ b.id
  have hsame := (hsort jobs').trans (hperm.trans (hsort jobs).symm)
  refine hsame.eq_of_pairwise ?_ (List.pairwise_insertionSort _ _) (List.pairwise_insertionSort _ _)
  intro a b ha hb hab hba
  rw [List.mem_insertionSort] at ha hb
  exact List.inj_on_of_nodup_map hids (hperm.mem_iff.mp ha) hb (le_antisymm hab hba)

namespace CompiledWorkflow

/-- Strictly sorted jobs have no equal neighbours. -/
theorem find?_eq_none_of_pairwise_lt {jobs : List WorkflowJob}
    (hsorted : jobs.Pairwise fun a b => a.id < b.id) :
    (jobs.zip jobs.tail).find? (fun pair => pair.1.id = pair.2.id) = none := by
  induction jobs with
  | nil => rfl
  | cons a rest ih =>
    cases rest with
    | nil => rfl
    | cons b rest =>
      have hab : a.id < b.id := (List.pairwise_cons.mp hsorted).1 b List.mem_cons_self
      simp only [List.tail_cons, List.zip_cons_cons, List.find?_cons, decide_eq_false hab.ne]
      exact ih hsorted.of_cons

/-- What `CompiledWorkflow::new` returns holds the sorted jobs; that they may be the jobs of a
workflow is what the other checks are about. -/
theorem new_eq_ok {name : String} {triggers : WorkflowTriggers} {jobs : List WorkflowJob}
    {workflow : CompiledWorkflow} :
    new name triggers jobs = .ok workflow ↔
      Text.trim name ≠ "" ∧ Text.byteLength (Text.trim name).toList ≤ maxWorkflowNameBytes ∧
        workflow.name = Text.trim name ∧ workflow.triggers = triggers ∧
        workflow.jobs = jobs.insertionSort fun a b => a.id ≤ b.id := by
  have hperm := List.perm_insertionSort (fun a b : WorkflowJob => a.id ≤ b.id) jobs
  constructor
  · intro h
    unfold new at h
    dsimp only at h
    split_ifs at h with hname
    rw [not_or, not_lt] at hname
    split at h
    · cases h
    · split at h
      · cases h
      · cases h
        exact ⟨hname.1, hname.2, rfl, rfl, rfl⟩
  · rintro ⟨hne, hbytes, hname, htriggers, hjobs⟩
    have hnil : jobs ≠ [] := by
      rintro rfl
      exact workflow.jobs_ne_nil hjobs
    have hle : ¬ maxWorkflowJobs < jobs.length := by
      rw [← hperm.length_eq, ← hjobs]
      exact workflow.jobs_le.not_gt
    have hfind := find?_eq_none_of_pairwise_lt workflow.sorted
    have hgraph := workflow.graph
    rw [hjobs] at hfind hgraph
    unfold new
    rw [if_neg (by rw [not_or, not_lt]; exact ⟨hne, hbytes⟩), dif_neg hnil, dif_neg hle]
    dsimp only
    split
    · rename_i pair hpair
      rw [hfind] at hpair
      cases hpair
    · split
      · rename_i error herror
        rw [hgraph] at herror
        cases herror
      · obtain ⟨name', triggers', jobs', _, _, _, _⟩ := workflow
        obtain rfl : name' = _ := hname
        obtain rfl : triggers' = _ := htriggers
        obtain rfl : jobs' = _ := hjobs
        rfl

theorem needsExist_sorted {jobs : List WorkflowJob} :
    NeedsExist (jobs.insertionSort fun a b => a.id ≤ b.id) ↔ NeedsExist jobs := by
  simp only [NeedsExist, List.mem_map, List.mem_insertionSort]

theorem acyclic_sorted {jobs : List WorkflowJob} :
    Acyclic (jobs.insertionSort fun a b => a.id ≤ b.id) ↔ Acyclic jobs := by
  have hneeds : Needs (jobs.insertionSort fun a b => a.id ≤ b.id) = Needs jobs := by
    funext a b
    simp only [Needs, List.mem_insertionSort]
  rw [Acyclic, Acyclic, hneeds]

section Accepted

variable {jobs : List WorkflowJob} (hids : (jobs.map (·.id)).Nodup)
include hids

theorem nodup_sorted_ids :
    ((jobs.insertionSort fun a b => a.id ≤ b.id).map (·.id)).Nodup :=
  ((List.perm_insertionSort _ jobs).map _).nodup_iff.mpr hids

theorem validateJobGraph_sorted :
    validateJobGraph (jobs.insertionSort fun a b => a.id ≤ b.id) = .ok () ↔
      NeedsExist jobs ∧ Acyclic jobs := by
  rw [validateJobGraph_iff (nodup_sorted_ids hids), needsExist_sorted, acyclic_sorted]

/-- Which lists of jobs with distinct ids are accepted. -/
theorem exists_new_eq_ok {name : String} {triggers : WorkflowTriggers} :
    (∃ workflow, new name triggers jobs = .ok workflow) ↔
      Text.trim name ≠ "" ∧ Text.byteLength (Text.trim name).toList ≤ maxWorkflowNameBytes ∧
        jobs ≠ [] ∧ jobs.length ≤ maxWorkflowJobs ∧ NeedsExist jobs ∧ Acyclic jobs := by
  have hperm := List.perm_insertionSort (fun a b : WorkflowJob => a.id ≤ b.id) jobs
  rw [← validateJobGraph_sorted hids]
  constructor
  · rintro ⟨workflow, h⟩
    obtain ⟨hne, hbytes, -, -, hjobs⟩ := new_eq_ok.mp h
    rw [← hjobs] at hperm ⊢
    refine ⟨hne, hbytes, ?_, hperm.length_eq ▸ workflow.jobs_le, workflow.graph⟩
    rintro rfl
    exact workflow.jobs_ne_nil hperm.eq_nil
  · rintro ⟨hne, hbytes, hnil, hle, hgraph⟩
    have hsorted : (jobs.insertionSort fun a b => a.id ≤ b.id).Pairwise fun a b => a.id < b.id := by
      have hne := List.pairwise_map.mp (nodup_sorted_ids hids)
      exact (List.pairwise_insertionSort _ jobs).imp₂ (fun _ _ hle hne => lt_of_le_of_ne hle hne) hne
    refine ⟨⟨Text.trim name, triggers, _, ?_, ?_, hsorted, hgraph⟩,
      new_eq_ok.mpr ⟨hne, hbytes, rfl, rfl, rfl⟩⟩
    · intro h
      exact hnil (List.nil_perm.mp (h ▸ hperm))
    · exact hperm.length_eq ▸ hle

/-- The serial order of an accepted list of jobs is the least one in which each job follows its
needs, whatever order the jobs were given in. -/
theorem accepted_in_least_order :
    (validateJobGraph (jobs.insertionSort fun a b => a.id ≤ b.id) = .ok () ↔
        NeedsExist jobs ∧ Acyclic jobs) ∧
      checkedTopologicalJobIndices jobs = some (topologicalJobIndices jobs) ∧
      ∀ name triggers,
        ((∃ workflow, new name triggers jobs = .ok workflow) ↔
          Text.trim name ≠ "" ∧ Text.byteLength (Text.trim name).toList ≤ maxWorkflowNameBytes ∧
            jobs ≠ [] ∧ jobs.length ≤ maxWorkflowJobs ∧ NeedsExist jobs ∧ Acyclic jobs) ∧
        ∀ workflow, new name triggers jobs = .ok workflow →
          workflow.serialJobs.Perm jobs ∧ FollowsNeeds [] workflow.serialJobs ∧
            (∀ order : List WorkflowJob, order.Perm jobs → FollowsNeeds [] order →
              workflow.serialJobs.map (·.id) ≤ order.map (·.id)) ∧
            ∀ jobs' : List WorkflowJob, jobs'.Perm jobs →
              new name triggers jobs' = .ok workflow := by
  refine ⟨validateJobGraph_sorted hids, checkedTopologicalJobIndices_eq hids,
    fun name triggers => ⟨exists_new_eq_ok hids, fun workflow h => ?_⟩⟩
  obtain ⟨hne, hbytes, hname, htriggers, hjobs⟩ := new_eq_ok.mp h
  have hperm : workflow.jobs.Perm jobs := hjobs ▸ List.perm_insertionSort _ jobs
  refine ⟨workflow.serialJobs_perm.trans hperm, orderedJobs_followsNeeds workflow.ids_nodup,
    fun order horder hneeds => ?_, fun jobs' hperm' => ?_⟩
  · exact orderedJobs_least workflow.ids_nodup (horder.trans hperm.symm) hneeds
  · rw [← insertionSort_eq_of_perm hids hperm'] at hjobs
    exact new_eq_ok.mpr ⟨hne, hbytes, hname, htriggers, hjobs⟩

end Accepted

/-- Two jobs, the second of which is needed twice by the first. -/
def testAndBuild : List WorkflowJob :=
  let step : WorkflowStep := ⟨"run", "make"⟩
  [⟨⟨"test"⟩, [⟨"build"⟩, ⟨"build"⟩], "image", [step], by simp, by decide⟩,
    ⟨⟨"build"⟩, [], "image", [step], by simp, by decide⟩]

theorem accepted_in_least_order_needed_twice :
    topologicalJobIndices testAndBuild = [1, 0] ∧
      checkedTopologicalJobIndices testAndBuild = some (topologicalJobIndices testAndBuild) :=
  ⟨by decide +kernel, (accepted_in_least_order (by decide : (testAndBuild.map (·.id)).Nodup)).2.1⟩

end CompiledWorkflow

end ScopeVcs

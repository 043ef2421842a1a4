import Mathlib.Data.List.Perm.Subperm
import ScopeVcs.Lib.KeyedList
import ScopeVcs.Runs.Workflow

/-! # The order of the jobs of a workflow

`topologicalJobIndices` takes the job with the least id among those whose needs were all taken.
The invariant of its loop: the counter of a job is the number of its needs not taken yet, and the
ready jobs are those not taken whose counter is zero.
-/

namespace ScopeVcs

/-! ## Positions of ids -/

section Indices

variable {jobs : List WorkflowJob}

theorem jobIndices_get? (hids : (jobs.map (·.id)).Nodup) {id : WorkflowJobId} {index : ℕ} :
    (jobIndices jobs).get? id = some index ↔ ∃ job, jobs[index]? = some job ∧ job.id = id :=
  KeyedList.positions_get? hids

theorem jobIndices_lt (hids : (jobs.map (·.id)).Nodup) {id : WorkflowJobId} {index : ℕ}
    (h : (jobIndices jobs).get? id = some index) : index < jobs.length := by
  obtain ⟨job, hjob, -⟩ := (jobIndices_get? hids).mp h
  exact (List.getElem?_eq_some_iff.mp hjob).1

/-- Jobs with the same id stand at the same position. -/
theorem index_unique (hids : (jobs.map (·.id)).Nodup) {i j : ℕ} {a b : WorkflowJob}
    (ha : jobs[i]? = some a) (hb : jobs[j]? = some b) (hid : a.id = b.id) : i = j := by
  have hi := (jobIndices_get? hids).mpr ⟨a, ha, rfl⟩
  have hj := (jobIndices_get? hids).mpr ⟨b, hb, rfl⟩
  rw [hid, hj] at hi
  exact (Option.some_inj.mp hi).symm

end Indices

/-! ## Who needs whom -/

/-- How often a job names the job at position `i`. -/
def needCount (jobs : List WorkflowJob) (i : ℕ) (job : WorkflowJob) : ℕ :=
  job.needs.countP fun dependency => (jobIndices jobs).get? dependency = some i

theorem foldl_recordNeed_getElem? (indices : SortedMap WorkflowJobId ℕ) (jobIndex i : ℕ)
    (needs : List WorkflowJobId) (dependents : List (List ℕ)) :
    (needs.foldl (recordNeed indices jobIndex) dependents)[i]? =
      dependents[i]?.map fun ds =>
        ds ++ List.replicate (needs.countP fun dependency => indices.get? dependency = some i)
          jobIndex := by
  induction needs generalizing dependents with
  | nil => simp
  | cons need needs ih =>
    rw [List.foldl_cons, ih, recordNeed]
    cases hneed : indices.get? need with
    | none => simp [hneed]
    | some index =>
      simp only [List.getElem?_modify, List.countP_cons, hneed, Option.some_inj]
      cases dependents[i]? with
      | none => simp
      | some ds =>
        by_cases hindex : index = i
        · simp [hindex, List.replicate_succ]
        · simp [hindex]

/-- The dependents of position `i` as the loop over a part of the jobs leaves them. -/
theorem foldl_jobDependents_getElem? (jobs : List WorkflowJob) (i start : ℕ)
    (part : List WorkflowJob) (dependents : List (List ℕ)) :
    ((part.zipIdx start).foldl
      (fun dependents (job, jobIndex) =>
        job.needs.foldl (recordNeed (jobIndices jobs) jobIndex) dependents) dependents)[i]? =
      dependents[i]?.map fun ds =>
        ds ++ (part.zipIdx start).flatMap fun e => List.replicate (needCount jobs i e.1) e.2 := by
  induction part generalizing start dependents with
  | nil => simp
  | cons job part ih =>
    rw [List.zipIdx_cons, List.foldl_cons, ih, foldl_recordNeed_getElem?, Option.map_map]
    simp [needCount, Function.comp_def]

theorem jobDependents_getElem? {jobs : List WorkflowJob} {i : ℕ} (hi : i < jobs.length) :
    (jobDependents jobs)[i]? =
      some (jobs.zipIdx.flatMap fun e => List.replicate (needCount jobs i e.1) e.2) := by
  rw [jobDependents, foldl_jobDependents_getElem? jobs i 0]
  simp [hi]

/-- A job is listed as dependent as often as it names the other one. -/
theorem count_flatMap_needCount (jobs part : List WorkflowJob) (i start j : ℕ) :
    ((part.zipIdx start).flatMap fun e => List.replicate (needCount jobs i e.1) e.2).count j =
      if start ≤ j then (part[j - start]?.map (needCount jobs i)).getD 0 else 0 := by
  induction part generalizing start with
  | nil => simp
  | cons job part ih =>
    rw [List.zipIdx_cons, List.flatMap_cons, List.count_append, ih]
    rcases Nat.lt_trichotomy j start with hlt | rfl | hgt
    · simp [List.count_replicate, show ¬ start + 1 ≤ j by omega, show ¬ start ≤ j by omega,
        show start ≠ j by omega]
    · simp
    · obtain ⟨k, rfl⟩ : ∃ k, j = start + 1 + k := ⟨j - start - 1, by omega⟩
      simp [List.count_replicate, show start + 1 + k - start = k + 1 by omega,
        show start ≤ start + 1 + k by omega, show start ≠ start + 1 + k by omega]

/-- The dependents of a position are jobs, each listed as often as it names the position. -/
theorem exists_jobDependents {jobs : List WorkflowJob} {i : ℕ} (hi : i < jobs.length) :
    ∃ ds, (jobDependents jobs)[i]? = some ds ∧
      (∀ j, ds.count j = (jobs[j]?.map (needCount jobs i)).getD 0) ∧
      ∀ j ∈ ds, ∃ job, jobs[j]? = some job := by
  have hcount : ∀ j, (jobs.zipIdx.flatMap fun e => List.replicate (needCount jobs i e.1) e.2).count
      j = (jobs[j]?.map (needCount jobs i)).getD 0 := by
    intro j
    simpa using count_flatMap_needCount jobs jobs i 0 j
  refine ⟨_, jobDependents_getElem? hi, hcount, fun j hj => ?_⟩
  cases hjob : jobs[j]? with
  | some job => exact ⟨job, rfl⟩
  | none =>
    have hzero := hcount j
    rw [hjob] at hzero
    exact absurd (List.count_pos_iff.mpr hj) (by simp [hzero])

/-! ## One taken job -/

/-- The counter of `d` drops by one, all others stay. -/
theorem satisfyNeed_remainingNeeds {jobs : List WorkflowJob} (queue : ReadyQueue) {d : ℕ}
    {job : WorkflowJob} (hjob : jobs[d]? = some job) (j : ℕ) :
    (satisfyNeed jobs queue d).remainingNeeds[j]? =
      queue.remainingNeeds[j]?.map fun r => if j = d then r - 1 else r := by
  have hmodify : (satisfyNeed jobs queue d).remainingNeeds =
      queue.remainingNeeds.modify d (· - 1) := by
    simp only [satisfyNeed, hjob]
    split <;> rfl
  rw [hmodify, List.getElem?_modify]
  cases queue.remainingNeeds[j]? with
  | none => rfl
  | some r => by_cases hj : d = j <;> simp [hj, eq_comm]

/-- Counters that suffice for a list of dependents suffice for the rest after its first one. -/
theorem satisfyNeed_count_le {jobs : List WorkflowJob} {queue : ReadyQueue} {d : ℕ} {ds : List ℕ}
    {job : WorkflowJob} (hjob : jobs[d]? = some job)
    (hcount : ∀ j ∈ d :: ds, ∃ r, queue.remainingNeeds[j]? = some r ∧ (d :: ds).count j ≤ r) :
    ∀ j ∈ ds, ∃ r, (satisfyNeed jobs queue d).remainingNeeds[j]? = some r ∧ ds.count j ≤ r := by
  intro j hj
  obtain ⟨r, hr, hle⟩ := hcount j (by simp [hj])
  rw [List.count_cons] at hle
  refine ⟨_, by rw [satisfyNeed_remainingNeeds queue hjob, hr]; rfl, ?_⟩
  by_cases hjd : j = d
  · subst hjd
    simp only [beq_self_eq_true, if_true] at hle ⊢
    omega
  · simp only [if_neg hjd]
    omega

/-- What the counters and the queue look like after a list of dependents had a need satisfied, as
long as no counter runs out. -/
theorem foldl_satisfyNeed (jobs : List WorkflowJob) (dependents : List ℕ) (queue : ReadyQueue)
    (hlt : ∀ j ∈ dependents, j < jobs.length)
    (hcount : ∀ j ∈ dependents, ∃ r, queue.remainingNeeds[j]? = some r ∧ dependents.count j ≤ r) :
    (∀ j, (dependents.foldl (satisfyNeed jobs) queue).remainingNeeds[j]? =
        queue.remainingNeeds[j]?.map (· - dependents.count j)) ∧
      ∀ id, (dependents.foldl (satisfyNeed jobs) queue).ready.get? id = some () ↔
        queue.ready.get? id = some () ∨ ∃ j job, jobs[j]? = some job ∧ job.id = id ∧
          j ∈ dependents ∧ queue.remainingNeeds[j]? = some (dependents.count j) := by
  induction dependents generalizing queue with
  | nil => simp
  | cons d ds ih =>
    obtain ⟨r, hr, hle⟩ := hcount d (by simp)
    rw [List.count_cons_self] at hle
    obtain ⟨job, hjob⟩ : ∃ job, jobs[d]? = some job :=
      ⟨_, List.getElem?_eq_getElem (hlt d (by simp))⟩
    have hrem := satisfyNeed_remainingNeeds queue hjob
    have hready : ∀ id, (satisfyNeed jobs queue d).ready.get? id = some () ↔
        queue.ready.get? id = some () ∨ (job.id = id ∧ r = 1) := by
      intro id
      have hzero : (queue.remainingNeeds.modify d (· - 1))[d]? = some 0 ↔ r = 1 := by
        simp only [List.getElem?_modify, hr, if_true, Option.map_eq_map, Option.map_some,
          Option.some_inj]
        omega
      simp only [satisfyNeed, hjob, hzero]
      by_cases h1 : r = 1
      · by_cases hid : id = job.id <;> simp [h1, hid, eq_comm]
      · simp [h1]
    have hcount' := satisfyNeed_count_le hjob hcount
    obtain ⟨hih₁, hih₂⟩ := ih (satisfyNeed jobs queue d) (fun j hj => hlt j (by simp [hj])) hcount'
    refine ⟨fun j => ?_, fun id => ?_⟩
    · rw [List.foldl_cons, hih₁, hrem, Option.map_map]
      congr 1
      funext r
      by_cases hjd : j = d
      · subst hjd
        simp only [Function.comp_apply, if_true, List.count_cons_self]
        omega
      · simp [hjd, Ne.symm hjd]
    · rw [List.foldl_cons, hih₂, hready]
      constructor
      · rintro ((h | ⟨rfl, rfl⟩) | ⟨j, job', hjob', hid, hj, hrj⟩)
        · exact .inl h
        · refine .inr ⟨d, job, hjob, rfl, by simp, ?_⟩
          rw [hr, List.count_cons_self]
          congr 1
          omega
        · refine .inr ⟨j, job', hjob', hid, by simp [hj], ?_⟩
          obtain ⟨r', hr', hle'⟩ := hcount j (by simp [hj])
          rw [hrem, hr', Option.map_some, Option.some_inj] at hrj
          rw [hr', Option.some_inj]
          rw [List.count_cons] at hle' ⊢
          by_cases hjd : j = d
          · subst hjd
            simp only [beq_self_eq_true, if_true] at hrj hle' ⊢
            omega
          · have hdj : (d == j) = false := by simpa using Ne.symm hjd
            simp only [if_neg hjd] at hrj
            simp only [hdj, Bool.false_eq_true, if_false]
            omega
      · rintro (h | ⟨j, job', hjob', hid, hj, hrj⟩)
        · exact .inl (.inl h)
        · by_cases hjds : j ∈ ds
          · refine .inr ⟨j, job', hjob', hid, hjds, ?_⟩
            rw [hrem, hrj, Option.map_some, Option.some_inj, List.count_cons]
            by_cases hjd : j = d
            · simp [hjd]
            · simp [hjd, Ne.symm hjd]
          · obtain rfl : j = d := by simpa [hjds] using hj
            rw [hjob] at hjob'
            cases hjob'
            rw [hr, Option.some_inj, List.count_cons_self, List.count_eq_zero_of_not_mem hjds] at hrj
            exact .inl (.inr ⟨hid, hrj⟩)

/-! ## The invariant of the loop -/

/-- How many needs of a job name none of the taken positions. A need of a job that does not exist
is never met. -/
def unmetNeeds (jobs : List WorkflowJob) (taken : List ℕ) (job : WorkflowJob) : ℕ :=
  job.needs.countP fun dependency => ∀ i ∈ taken, (jobIndices jobs).get? dependency ≠ some i

theorem unmetNeeds_append {jobs : List WorkflowJob} {taken : List ℕ} {i : ℕ} (hi : i ∉ taken)
    (job : WorkflowJob) :
    unmetNeeds jobs (taken ++ [i]) job + needCount jobs i job = unmetNeeds jobs taken job := by
  unfold unmetNeeds needCount
  induction job.needs with
  | nil => rfl
  | cons need needs ih =>
    simp only [List.countP_cons, ← ih]
    by_cases hneed : (jobIndices jobs).get? need = some i
    · have hnew : ¬ ∀ j ∈ taken ++ [i], (jobIndices jobs).get? need ≠ some j :=
        fun h => h i (by simp) hneed
      have hold : ∀ j ∈ taken, (jobIndices jobs).get? need ≠ some j := by
        intro j hj h
        rw [hneed, Option.some_inj] at h
        exact hi (h ▸ hj)
      simp only [decide_eq_true hold, decide_eq_false hnew, decide_eq_true hneed, if_true,
        Bool.false_eq_true, if_false]
      omega
    · have hiff : (∀ j ∈ taken ++ [i], (jobIndices jobs).get? need ≠ some j) ↔
          ∀ j ∈ taken, (jobIndices jobs).get? need ≠ some j := by
        simp only [List.mem_append, List.mem_singleton]
        exact ⟨fun h j hj => h j (.inl hj), fun h j hj => hj.elim (h j) (fun he => he ▸ hneed)⟩
      simp only [hiff, decide_eq_false hneed, Bool.false_eq_true, if_false]
      omega

/-- The state of the loop after the positions `taken`. -/
structure ReadyInv (jobs : List WorkflowJob) (taken : List ℕ) (queue : ReadyQueue) : Prop where
  nodup : taken.Nodup
  lt : ∀ i ∈ taken, i < jobs.length
  remaining : ∀ j : ℕ, queue.remainingNeeds[j]? = jobs[j]?.map (unmetNeeds jobs taken)
  ready : ∀ id, queue.ready.get? id = some () ↔
    ∃ j job, jobs[j]? = some job ∧ job.id = id ∧ j ∉ taken ∧ unmetNeeds jobs taken job = 0
  ordered : ∀ pre i post, taken = pre ++ i :: post →
    ∀ job, jobs[i]? = some job → unmetNeeds jobs pre job = 0

@[simp]
theorem unmetNeeds_nil (jobs : List WorkflowJob) (job : WorkflowJob) :
    unmetNeeds jobs [] job = job.needs.length := by
  simp [unmetNeeds]

theorem readyInv_initialQueue (jobs : List WorkflowJob) : ReadyInv jobs [] (initialQueue jobs) where
  nodup := List.nodup_nil
  lt := by simp
  remaining := by
    intro j
    simp only [initialQueue, List.getElem?_map]
    exact congrArg (jobs[j]?.map ·) (funext fun job => (unmetNeeds_nil jobs job).symm)
  ready := by
    intro id
    have hmem : id ∈ (jobs.filter fun job => job.needs.length = 0).map (·.id) ↔
        ∃ u, (initialQueue jobs).ready.get? id = some u := by
      rw [← SortedMap.mem_keys, ← SortedSet.mem_toList_ofList]
      rfl
    constructor
    · intro h
      obtain ⟨job, hjob, hid⟩ := List.mem_map.mp (hmem.mpr ⟨(), h⟩)
      obtain ⟨hjob, hneeds⟩ := List.mem_filter.mp hjob
      obtain ⟨j, hj⟩ := List.mem_iff_getElem?.mp hjob
      exact ⟨j, job, hj, hid, by simp, by simpa using hneeds⟩
    · rintro ⟨j, job, hj, hid, -, hneeds⟩
      obtain ⟨u, hu⟩ := hmem.mp (List.mem_map.mpr ⟨job, List.mem_filter.mpr
        ⟨List.mem_of_getElem? hj, by simpa using hneeds⟩, hid⟩)
      exact hu
  ordered := by simp

/-- The counter of a dependent is at least the number of times it names a position that was not
taken yet. -/
theorem ReadyInv.count_le {jobs : List WorkflowJob} {taken : List ℕ} {queue : ReadyQueue}
    (h : ReadyInv jobs taken queue) {i : ℕ} (hi : i ∉ taken) {ds : List ℕ}
    (hcount : ∀ j, ds.count j = (jobs[j]?.map (needCount jobs i)).getD 0)
    (hmem : ∀ j ∈ ds, ∃ job, jobs[j]? = some job) :
    ∀ j ∈ ds, ∃ r, queue.remainingNeeds[j]? = some r ∧ ds.count j ≤ r := by
  intro j hj
  obtain ⟨job, hjob⟩ := hmem j hj
  refine ⟨unmetNeeds jobs taken job, by simp [h.remaining, hjob], ?_⟩
  rw [hcount, hjob, ← unmetNeeds_append hi job]
  simp

/-- Taking the job at position `i` keeps the invariant. -/
theorem ReadyInv.take {jobs : List WorkflowJob} (hids : (jobs.map (·.id)).Nodup) {taken : List ℕ}
    {queue : ReadyQueue} (h : ReadyInv jobs taken queue) {i : ℕ} {job : WorkflowJob}
    (hjob : jobs[i]? = some job) (hi : i ∉ taken) (hmet : unmetNeeds jobs taken job = 0) :
    ReadyInv jobs (taken ++ [i])
      (((jobDependents jobs)[i]?.getD []).foldl (satisfyNeed jobs)
        { queue with ready := queue.ready.erase job.id }) := by
  have hlt : i < jobs.length := (List.getElem?_eq_some_iff.mp hjob).1
  obtain ⟨ds, hds, hcount, hmem⟩ := exists_jobDependents hlt
  have hsplit : ∀ job, unmetNeeds jobs (taken ++ [i]) job + needCount jobs i job =
      unmetNeeds jobs taken job := unmetNeeds_append hi
  obtain ⟨hrem, hready⟩ := foldl_satisfyNeed jobs ds
    { queue with ready := queue.ready.erase job.id }
    (fun j hj => by
      obtain ⟨job, hjob⟩ := hmem j hj
      exact (List.getElem?_eq_some_iff.mp hjob).1)
    (h.count_le hi hcount hmem)
  rw [hds, Option.getD_some]
  refine ⟨?_, ?_, ?_, ?_, ?_⟩
  · rw [List.nodup_append]
    refine ⟨h.nodup, List.nodup_singleton i, fun a ha b hb hab => ?_⟩
    exact hi (List.mem_singleton.mp hb ▸ hab ▸ ha)
  · simpa [or_imp, forall_and, hlt] using h.lt
  · intro j
    rw [hrem]
    show queue.remainingNeeds[j]?.map _ = _
    rw [h.remaining]
    cases hj : jobs[j]? with
    | none => rfl
    | some job' =>
      have hcj := hcount j
      rw [hj] at hcj
      simp only [Option.map_some, Option.getD_some] at hcj
      simp only [Option.map_some, hcj, ← hsplit job']
      congr 1
      omega
  · intro id
    rw [hready, SortedMap.get?_erase]
    constructor
    · rintro (hid | ⟨j, job', hj, hid, hjds, hcj⟩)
      · split at hid
        · cases hid
        rename_i hne
        obtain ⟨j, job', hj, hid, hjt, hzero⟩ := (h.ready id).mp hid
        have hji : j ≠ i := by
          rintro rfl
          rw [hjob] at hj
          cases hj
          exact hne hid.symm
        have hle := hsplit job'
        exact ⟨j, job', hj, hid, by simp [hjt, hji], by omega⟩
      · have hcj' : unmetNeeds jobs taken job' = ds.count j := by
          simpa [h.remaining, hj] using hcj
        have hpos : 0 < ds.count j := List.count_pos_iff.mpr hjds
        have hcj'' : ds.count j = needCount jobs i job' := by simp [hcount, hj]
        have hle := hsplit job'
        refine ⟨j, job', hj, hid, ?_, by omega⟩
        -- a job all of whose needs are met when it is taken gains no satisfied need later
        simp only [List.mem_append, List.mem_singleton, not_or]
        refine ⟨fun hjt => ?_, fun hji => ?_⟩
        · obtain ⟨pre, post, hpre⟩ := List.append_of_mem hjt
          have hzero := h.ordered pre j post hpre job' hj
          have hmono : unmetNeeds jobs taken job' ≤ unmetNeeds jobs pre job' := by
            refine List.countP_mono_left fun need _ hneed => ?_
            rw [decide_eq_true_eq] at hneed ⊢
            exact fun k hk => hneed k (by simp [hpre, hk])
          omega
        · subst hji
          rw [hjob] at hj
          cases hj
          omega
    · rintro ⟨j, job', hj, hid, hjt, hzero⟩
      simp only [List.mem_append, List.mem_singleton, not_or] at hjt
      have hle := hsplit job'
      have hcj : ds.count j = needCount jobs i job' := by simp [hcount, hj]
      by_cases hcz : ds.count j = 0
      · left
        have hne : id ≠ job.id := fun he =>
          hjt.2 (index_unique hids hj hjob (hid.trans he))
        rw [if_neg hne]
        exact (h.ready id).mpr ⟨j, job', hj, hid, hjt.1, by omega⟩
      · right
        refine ⟨j, job', hj, hid, List.count_pos_iff.mp (by omega), ?_⟩
        show queue.remainingNeeds[j]? = _
        rw [h.remaining, hj, Option.map_some, Option.some_inj]
        omega
  · intro pre k post hsplit' job' hk
    rcases List.eq_nil_or_concat post with rfl | ⟨post, last, rfl⟩
    · obtain ⟨rfl, hik⟩ := List.append_inj' hsplit' rfl
      cases hik
      rw [hjob] at hk
      cases hk
      exact hmet
    · have hcut : taken = pre ++ k :: post := by
        have hassoc : taken ++ [i] = (pre ++ k :: post) ++ [last] := by simpa using hsplit'
        exact (List.append_inj' hassoc rfl).1
      exact h.ordered pre k post hcut job' hk

/-- Distinct positions that are as many as there are jobs are all positions. -/
theorem ReadyInv.perm_range {jobs : List WorkflowJob} {taken : List ℕ} {queue : ReadyQueue}
    (h : ReadyInv jobs taken queue) (hlen : jobs.length ≤ taken.length) :
    taken.Perm (List.range jobs.length) := by
  have hsub : taken ⊆ List.range jobs.length := fun i hi => List.mem_range.mpr (h.lt i hi)
  exact (List.subperm_of_subset h.nodup hsub).perm_of_length_le (by simpa using hlen)

/-- Nothing is ready any more once all positions are taken. -/
theorem ReadyInv.ready_eq_none {jobs : List WorkflowJob} {taken : List ℕ} {queue : ReadyQueue}
    (h : ReadyInv jobs taken queue) (hlen : jobs.length ≤ taken.length) (id : WorkflowJobId) :
    queue.ready.get? id = none := by
  have hperm := h.perm_range hlen
  cases hid : queue.ready.get? id with
  | none => rfl
  | some u =>
    obtain ⟨j, job, hj, -, hjt, -⟩ := (h.ready id).mp hid
    have hlt : j < jobs.length := (List.getElem?_eq_some_iff.mp hj).1
    exact absurd (hperm.mem_iff.mpr (List.mem_range.mpr hlt)) hjt

/-- The loop ends with an empty queue, in a state of the invariant. -/
theorem takeReadyJobs_inv {jobs : List WorkflowJob} (hids : (jobs.map (·.id)).Nodup) (rounds : ℕ)
    {taken : List ℕ} {queue : ReadyQueue} (h : ReadyInv jobs taken queue)
    (hrounds : jobs.length ≤ rounds + taken.length) :
    ∃ queue', ReadyInv jobs (taken ++ takeReadyJobs jobs rounds queue) queue' ∧
      ∀ id, queue'.ready.get? id = none := by
  induction rounds generalizing taken queue with
  | zero =>
    exact ⟨queue, by simpa [takeReadyJobs] using h, h.ready_eq_none (by omega)⟩
  | succ rounds ih =>
    rw [takeReadyJobs]
    cases hpop : queue.ready.popFirst? with
    | none => exact ⟨queue, by simpa using h, SortedMap.popFirst?_eq_none.mp hpop⟩
    | some popped =>
      obtain ⟨⟨id, u⟩, ready⟩ := popped
      obtain ⟨hget, rfl, -⟩ := SortedMap.popFirst?_eq_some hpop
      obtain ⟨i, job, hjob, rfl, hi, hmet⟩ := (h.ready id).mp hget
      have hindex : (jobIndices jobs).get? job.id = some i :=
        (jobIndices_get? hids).mpr ⟨job, hjob, rfl⟩
      have hnext := h.take hids hjob hi hmet
      simp only [hindex]
      obtain ⟨queue', hinv, hempty⟩ := ih hnext (by simp; omega)
      exact ⟨queue', by simpa using hinv, hempty⟩

/-- What `topological_job_indices` returns: a state of the loop in which nothing is ready. -/
theorem topologicalJobIndices_inv {jobs : List WorkflowJob} (hids : (jobs.map (·.id)).Nodup) :
    ∃ queue, ReadyInv jobs (topologicalJobIndices jobs) queue ∧ ∀ id, queue.ready.get? id = none := by
  simpa [topologicalJobIndices] using
    takeReadyJobs_inv hids jobs.length (readyInv_initialQueue jobs) (by simp)

theorem filterMap_getElem?_range {α : Type} (l : List α) :
    (List.range l.length).filterMap (l[·]?) = l := by
  induction l using List.reverseRecOn with
  | nil => rfl
  | append_singleton l a ih =>
    rw [List.length_append, List.length_singleton, List.range_succ, List.filterMap_append]
    have hpre : (List.range l.length).filterMap ((l ++ [a])[·]?) =
        (List.range l.length).filterMap (l[·]?) := by
      refine List.filterMap_congr fun i hi => ?_
      rw [List.getElem?_append_left (List.mem_range.mp hi)]
    rw [hpre, ih]
    simp

/-! ## The jobs in that order -/

section Order

variable {jobs : List WorkflowJob} (hids : (jobs.map (·.id)).Nodup)
include hids

/-- An order as long as the list of the jobs lists each job once. -/
theorem orderedJobs_perm (hlen : (topologicalJobIndices jobs).length = jobs.length) :
    ((topologicalJobIndices jobs).filterMap (jobs[·]?)).Perm jobs := by
  obtain ⟨queue, hinv, -⟩ := topologicalJobIndices_inv hids
  have hperm := hinv.perm_range hlen.ge
  have hmap := hperm.filterMap (jobs[·]?)
  rwa [filterMap_getElem?_range] at hmap

/-- A job comes up after everything it needs. -/
theorem orderedJobs_need_before {pre post : List WorkflowJob} {job : WorkflowJob}
    (horder : (topologicalJobIndices jobs).filterMap (jobs[·]?) = pre ++ job :: post)
    {need : WorkflowJobId} (hneed : need ∈ job.needs) : ∃ dependency ∈ pre, dependency.id = need := by
  obtain ⟨queue, hinv, -⟩ := topologicalJobIndices_inv hids
  obtain ⟨ipre, ipost, hindices, hpre, hpost⟩ := List.filterMap_eq_append_iff.mp horder
  obtain ⟨iskip, i, irest, rfl, hnone, hi, -⟩ := List.filterMap_eq_cons_iff.mp hpost
  have hmet := hinv.ordered (ipre ++ iskip) i irest (by simpa using hindices) job hi
  rw [unmetNeeds, List.countP_eq_zero] at hmet
  have htaken := hmet need hneed
  simp only [decide_eq_true_eq, not_forall, not_not] at htaken
  obtain ⟨j, hj, hget⟩ := htaken
  obtain ⟨dependency, hdep, hid⟩ := (jobIndices_get? hids).mp hget
  rcases List.mem_append.mp hj with hj | hj
  · exact ⟨dependency, hpre ▸ List.mem_filterMap.mpr ⟨j, hj, hdep⟩, hid⟩
  · rw [hnone j hj] at hdep
    cases hdep

end Order

namespace CompiledWorkflow

variable (workflow : CompiledWorkflow)

theorem ids_nodup : (workflow.jobs.map (·.id)).Nodup :=
  List.pairwise_map.mpr (workflow.sorted.imp fun h => h.ne)

theorem length_topologicalJobIndices :
    (topologicalJobIndices workflow.jobs).length = workflow.jobs.length := by
  have hgraph := workflow.graph
  unfold validateJobGraph at hgraph
  split at hgraph
  · cases hgraph
  · simpa using hgraph

/-- Every job of a workflow comes up once in the serial order. -/
theorem serialJobs_perm : workflow.serialJobs.Perm workflow.jobs :=
  orderedJobs_perm workflow.ids_nodup workflow.length_topologicalJobIndices

theorem exists_need_before {pre post : List WorkflowJob} {job : WorkflowJob}
    (hserial : workflow.serialJobs = pre ++ job :: post) {need : WorkflowJobId}
    (hneed : need ∈ job.needs) : ∃ dependency ∈ pre, dependency.id = need :=
  orderedJobs_need_before workflow.ids_nodup hserial hneed

end CompiledWorkflow

end ScopeVcs

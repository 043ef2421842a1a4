import Mathlib.Data.List.Sort
import ScopeVcs.Error
import ScopeVcs.Lib.Mutation
import ScopeVcs.Lib.SortedMap
import ScopeVcs.Lib.Text

/-! # Workflows

A workflow is a list of jobs that may need each other. `CompiledWorkflow.new` accepts a list when
the needs form no cycle, and `serialJobs` lists the jobs so that each follows what it needs.
-/

namespace ScopeVcs

open Mutation

/-! ## Validation -/

/-- `required`: a value that is not blank. -/
def required (label value : String) : Except DomainError String :=
  if Text.isBlank value then .error (.invalidInput (label ++ " is required")) else .ok value

def isSha256Hash (value : String) : Bool :=
  Text.byteLength value.toList == 64 && value.toList.all Text.isHexDigit

def validateSha256Hash (label value : String) : Except DomainError Unit :=
  rejectIf (isSha256Hash value = false) (.invalidInput (label ++ " must be a SHA-256 hex digest"))

theorem required_eq_ok {label value value' : String} :
    required label value = .ok value' ↔ Text.isBlank value = false ∧ value = value' := by
  unfold required
  split <;> simp_all

theorem validateSha256Hash_eq_ok {label value : String} {u : Unit} :
    validateSha256Hash label value = .ok u ↔ isSha256Hash value = true := by
  simp [validateSha256Hash]

/-! ## Identity -/

structure WorkflowIdentity where
  repositoryId : String
  path : String
  deriving DecidableEq

structure WorkflowJobId where
  asStr : String
  deriving DecidableEq

namespace WorkflowJobId

theorem asStr_injective : Function.Injective asStr := by
  rintro ⟨a⟩ ⟨b⟩ h
  exact congrArg mk h

instance : LinearOrder WorkflowJobId := LinearOrder.lift' asStr asStr_injective

end WorkflowJobId

/-- What may start a run: at least one of the three. -/
structure WorkflowTriggers where
  manual : Bool
  pushMain : Bool
  request : Bool
  anyEnabled : (manual || pushMain || request) = true
  deriving DecidableEq

structure WorkflowStep where
  name : String
  run : String
  deriving DecidableEq

def maxWorkflowSteps : ℕ := 64

def maxWorkflowJobs : ℕ := 64

def maxWorkflowNameBytes : ℕ := 100

/-- A job with its steps, of which there is at least one. -/
structure WorkflowJob where
  id : WorkflowJobId
  needs : List WorkflowJobId
  pinnedImage : String
  steps : List WorkflowStep
  steps_ne_nil : steps ≠ []
  steps_le : steps.length ≤ maxWorkflowSteps
  deriving DecidableEq

/-- A job of one step. -/
def WorkflowJob.ofStep (id : WorkflowJobId) (needs : List WorkflowJobId) (pinnedImage : String)
    (step : WorkflowStep) : WorkflowJob :=
  ⟨id, needs, pinnedImage, [step], List.cons_ne_nil _ _, Nat.succ_le_succ (Nat.zero_le _)⟩

inductive WorkflowError where
  | invalidName
  | missingJobs
  | tooManyJobs
  | duplicateJobId (job : String)
  | missingDependency (job dependency : String)
  | dependencyCycle
  deriving DecidableEq

/-! ## The order of the jobs -/

/-- The position of each job id. -/
def jobIndices (jobs : List WorkflowJob) : SortedMap WorkflowJobId ℕ :=
  SortedMap.ofList (jobs.zipIdx.map fun (job, index) => (job.id, index))

/-- The job at `jobIndex` depends on the one it names, if there is one. -/
def recordNeed (indices : SortedMap WorkflowJobId ℕ) (jobIndex : ℕ) (dependents : List (List ℕ))
    (dependency : WorkflowJobId) : List (List ℕ) :=
  match indices.get? dependency with
  | some dependencyIndex => dependents.modify dependencyIndex (· ++ [jobIndex])
  | none => dependents

/-- For each job, the jobs that need it, once for every time they name it. -/
def jobDependents (jobs : List WorkflowJob) : List (List ℕ) :=
  jobs.zipIdx.foldl
    (fun dependents (job, jobIndex) =>
      job.needs.foldl (recordNeed (jobIndices jobs) jobIndex) dependents)
    (List.replicate jobs.length [])

/-- The counters and the queue while jobs are taken in order. -/
structure ReadyQueue where
  remainingNeeds : List ℕ
  ready : SortedSet WorkflowJobId
  deriving DecidableEq

/-- One dependent has one need less; with none left it becomes ready. -/
def satisfyNeed (jobs : List WorkflowJob) (queue : ReadyQueue) (dependent : ℕ) : ReadyQueue :=
  let remainingNeeds := queue.remainingNeeds.modify dependent (· - 1)
  if remainingNeeds[dependent]? = some 0 then
    match jobs[dependent]? with
    | some job => ⟨remainingNeeds, queue.ready.insert job.id ()⟩
    | none => ⟨remainingNeeds, queue.ready⟩
  else ⟨remainingNeeds, queue.ready⟩

/-- The loop of `topological_job_indices`. Every job becomes ready once, so as many rounds as there
are jobs empty the queue. -/
def takeReadyJobs (jobs : List WorkflowJob) : ℕ → ReadyQueue → List ℕ
  | 0, _ => []
  | rounds + 1, queue =>
    match queue.ready.popFirst? with
    | none => []
    | some ((id, _), ready) =>
      match (jobIndices jobs).get? id with
      | none => []
      | some index =>
        let dependents := ((jobDependents jobs)[index]?).getD []
        index :: takeReadyJobs jobs rounds
          (dependents.foldl (satisfyNeed jobs) { queue with ready })

/-- Jobs without needs are ready from the start. -/
def initialQueue (jobs : List WorkflowJob) : ReadyQueue :=
  ⟨jobs.map (·.needs.length),
    SortedSet.ofList ((jobs.filter fun job => job.needs.length = 0).map (·.id))⟩

def topologicalJobIndices (jobs : List WorkflowJob) : List ℕ :=
  takeReadyJobs jobs jobs.length (initialQueue jobs)

/-- The first job that names a job which does not exist, with that name. -/
def missingDependency? (jobs : List WorkflowJob) : Option (WorkflowJobId × WorkflowJobId) :=
  jobs.findSome? fun job =>
    (job.needs.find? fun dependency => dependency ∉ jobs.map (·.id)).map fun dependency =>
      (job.id, dependency)

def validateJobGraph (jobs : List WorkflowJob) : Except WorkflowError Unit :=
  match missingDependency? jobs with
  | some (job, dependency) => .error (.missingDependency job.asStr dependency.asStr)
  | none => rejectIf ((topologicalJobIndices jobs).length ≠ jobs.length) .dependencyCycle

/-- A workflow whose jobs are sorted by distinct ids and pass the graph check. -/
structure CompiledWorkflow where
  name : String
  triggers : WorkflowTriggers
  jobs : List WorkflowJob
  jobs_ne_nil : jobs ≠ []
  jobs_le : jobs.length ≤ maxWorkflowJobs
  sorted : jobs.Pairwise fun a b => a.id < b.id
  graph : validateJobGraph jobs = .ok ()
  deriving DecidableEq

namespace CompiledWorkflow

/-- Sorted jobs without equal neighbours are strictly sorted. -/
theorem pairwise_lt_of_find?_eq_none {jobs : List WorkflowJob}
    (hsorted : jobs.Pairwise fun a b => a.id ≤ b.id)
    (hfind : (jobs.zip jobs.tail).find? (fun pair => pair.1.id = pair.2.id) = none) :
    jobs.Pairwise fun a b => a.id < b.id := by
  induction jobs with
  | nil => exact .nil
  | cons a rest ih =>
    cases rest with
    | nil => exact .cons (by simp) .nil
    | cons b rest =>
      simp only [List.tail_cons, List.zip_cons_cons, List.find?_cons] at hfind
      split at hfind
      · cases hfind
      · rename_i hne
        have htail := ih hsorted.of_cons hfind
        have hab : a.id < b.id :=
          lt_of_le_of_ne ((List.pairwise_cons.mp hsorted).1 b (by simp)) (by simpa using hne)
        refine List.pairwise_cons.mpr ⟨fun c hc => ?_, htail⟩
        rcases List.mem_cons.mp hc with rfl | hc
        · exact hab
        · exact hab.trans ((List.pairwise_cons.mp htail).1 c hc)

/-- `CompiledWorkflow::new`. -/
def new (name : String) (triggers : WorkflowTriggers) (jobs : List WorkflowJob) :
    Except WorkflowError CompiledWorkflow :=
  let name := Text.trim name
  if name = "" ∨ maxWorkflowNameBytes < Text.byteLength name.toList then .error .invalidName
  else if hnil : jobs = [] then .error .missingJobs
  else if hle : maxWorkflowJobs < jobs.length then .error .tooManyJobs
  else
    let sortedJobs := jobs.insertionSort fun a b => a.id ≤ b.id
    match hfind : (sortedJobs.zip sortedJobs.tail).find? fun pair => pair.1.id = pair.2.id with
    | some pair => .error (.duplicateJobId pair.1.id.asStr)
    | none =>
      match hgraph : validateJobGraph sortedJobs with
      | .error error => .error error
      | .ok () =>
        have hperm : sortedJobs.Perm jobs := List.perm_insertionSort _ jobs
        .ok
          { name
            triggers
            jobs := sortedJobs
            jobs_ne_nil := fun h => hnil (List.nil_perm.mp (h ▸ hperm))
            jobs_le := hperm.length_eq ▸ not_lt.mp hle
            sorted := pairwise_lt_of_find?_eq_none (List.pairwise_insertionSort _ jobs) hfind
            graph := hgraph }

def job? (workflow : CompiledWorkflow) (id : WorkflowJobId) : Option WorkflowJob :=
  workflow.jobs.find? fun job => job.id = id

def serialJobs (workflow : CompiledWorkflow) : List WorkflowJob :=
  (topologicalJobIndices workflow.jobs).filterMap fun index => workflow.jobs[index]?

end CompiledWorkflow

/-- A workflow as of one revision; `digest` identifies the definition. -/
structure WorkflowRevision where
  workflow : WorkflowIdentity
  digest : String
  definition : CompiledWorkflow
  deriving DecidableEq

end ScopeVcs

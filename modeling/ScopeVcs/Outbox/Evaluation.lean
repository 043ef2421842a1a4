import ScopeVcs.Repository.Git
import ScopeVcs.Runs.Workflow

/-! # Push trigger evaluations

An accepted push of main is evaluated once: its workflow files are parsed, and each workflow that
pushes start gets a run. The YAML of a file is read by a library, which is a parameter here.
-/

namespace ScopeVcs.Outbox

open Mutation

/-! ## The input of a push -/

structure PushWorkflowFile where
  path : String
  bytes : List UInt8
  deriving DecidableEq

structure PushTriggerInput where
  headOid : String
  workflows : List PushWorkflowFile
  configurationError : Option String
  deriving DecidableEq

def PushTriggerInput.requiresEvaluation (input : PushTriggerInput) : Bool :=
  !input.workflows.isEmpty || input.configurationError.isSome

def isGitOid (value : String) : Bool :=
  Text.byteLength value.toList == 40 && value.toList.all Text.isHexDigit

def validateGitOid (label value : String) : Except DomainError Unit :=
  rejectIf (isGitOid value = false) (.invalidInput (label ++ " must be a SHA-1 hex digest"))

/-! ## Evaluations -/

inductive PushTriggerEvaluationState where
  | pending
  | succeeded
  | configurationError
  | failed
  deriving DecidableEq

structure PushTriggerCheck where
  workflowPath : String
  workflowName : String
  runId : String
  deriving DecidableEq

structure PushTriggerEvaluation where
  repositoryId : String
  changeVersion : ℕ
  headOid : String
  state : PushTriggerEvaluationState
  message : Option String
  checks : List PushTriggerCheck
  createdAtUnix : ℕ
  completedAtUnix : Option ℕ
  deriving DecidableEq

namespace PushTriggerEvaluation

/-- The primary key of the table of evaluations. -/
def key (evaluation : PushTriggerEvaluation) : String × ℕ :=
  (evaluation.repositoryId, evaluation.changeVersion)

def finish (evaluation : PushTriggerEvaluation) (state : PushTriggerEvaluationState)
    (message : Option String) (checks : List PushTriggerCheck) (nowUnix : ℕ) :
    Except DomainError PushTriggerEvaluation := do
  rejectIf (evaluation.state ≠ .pending) (.conflict "push trigger evaluation is already complete")
  rejectIf (nowUnix < evaluation.createdAtUnix)
    (.invalidInput "push trigger evaluation completion cannot predate creation")
  rejectIf ((state = .configurationError ∨ state = .failed) ∧ message.all Text.isBlank = true)
    (.invalidInput "failed push trigger evaluation requires a message")
  return { evaluation with state, message, checks, completedAtUnix := some nowUnix }

def succeed (evaluation : PushTriggerEvaluation) (checks : List PushTriggerCheck) (nowUnix : ℕ) :
    Except DomainError PushTriggerEvaluation :=
  evaluation.finish .succeeded none checks nowUnix

def failConfiguration (evaluation : PushTriggerEvaluation) (message : String) (nowUnix : ℕ) :
    Except DomainError PushTriggerEvaluation :=
  evaluation.finish .configurationError (some message) [] nowUnix

def fail (evaluation : PushTriggerEvaluation) (message : String) (nowUnix : ℕ) :
    Except DomainError PushTriggerEvaluation :=
  evaluation.finish .failed (some message) [] nowUnix

def newPending (repositoryId : String) (changeVersion : ℕ) (headOid : String) (nowUnix : ℕ) :
    Except DomainError PushTriggerEvaluation := do
  rejectIf (Text.isBlank repositoryId = true ∨ changeVersion = 0)
    (.invalidInput "push trigger evaluation identity is invalid")
  validateGitOid "push trigger evaluation head" headOid
  return {
    repositoryId, changeVersion, headOid
    state := .pending
    message := none
    checks := []
    createdAtUnix := nowUnix
    completedAtUnix := none }

/-- A push without workflows is settled at once. -/
def forPush (repositoryId : String) (changeVersion : ℕ) (input : PushTriggerInput) (nowUnix : ℕ) :
    Except DomainError PushTriggerEvaluation := do
  let evaluation ← newPending repositoryId changeVersion input.headOid nowUnix
  if input.requiresEvaluation = true then return evaluation else evaluation.succeed [] nowUnix

/-- What has ended is not pending, and is the same evaluation otherwise. -/
theorem finish_eq_ok {evaluation finished : PushTriggerEvaluation} {state : PushTriggerEvaluationState}
    {message : Option String} {checks : List PushTriggerCheck} {nowUnix : ℕ}
    (h : evaluation.finish state message checks nowUnix = .ok finished) :
    finished.key = evaluation.key ∧ finished.state = state := by
  simp only [finish, except_unit_bind_eq_ok] at h
  obtain ⟨-, -, -, h⟩ := h
  cases h
  exact ⟨rfl, rfl⟩

theorem newPending_eq_ok {repositoryId headOid : String} {changeVersion nowUnix : ℕ}
    {evaluation : PushTriggerEvaluation}
    (h : newPending repositoryId changeVersion headOid nowUnix = .ok evaluation) :
    evaluation.key = (repositoryId, changeVersion) ∧ evaluation.state = .pending := by
  simp only [newPending, except_unit_bind_eq_ok] at h
  obtain ⟨-, -, h⟩ := h
  cases h
  exact ⟨rfl, rfl⟩

/-- A new evaluation is pending, or it has succeeded at once. -/
theorem forPush_eq_ok {repositoryId : String} {changeVersion nowUnix : ℕ} {input : PushTriggerInput}
    {evaluation : PushTriggerEvaluation}
    (h : forPush repositoryId changeVersion input nowUnix = .ok evaluation) :
    evaluation.key = (repositoryId, changeVersion) ∧
      (evaluation.state = .pending ∨ evaluation.state = .succeeded) := by
  simp only [forPush, except_bind_eq_ok] at h
  obtain ⟨pending, hpending, h⟩ := h
  obtain ⟨hkey, hstate⟩ := newPending_eq_ok hpending
  split at h
  · cases h
    exact ⟨hkey, .inl hstate⟩
  · obtain ⟨hkey', hstate'⟩ := finish_eq_ok h
    exact ⟨hkey'.trans hkey, .inr hstate'⟩

end PushTriggerEvaluation

/-! ## Workflow files -/

/-- The libraries and digests of the code: YAML definitions, the digest of a definition, and
SHA-256 as a hex text. -/
structure WorkflowParser where
  parseDefinition : List UInt8 → Except String CompiledWorkflow
  definitionDigest : CompiledWorkflow → Except String String
  sha256Hex : String → String

def MAX_WORKFLOW_DEFINITION_BYTES : ℕ := 64 * 1024

def MAX_WORKFLOW_PATH_NAME_BYTES : ℕ := 64

def isKebabName (name : List Char) (maxBytes : ℕ) : Bool :=
  !name.isEmpty && Text.byteLength name ≤ maxBytes && name.head? != some '-' &&
    name.getLast? != some '-' && (name.zip name.tail).all (fun pair => pair != ('-', '-')) &&
    name.all fun c => ('a' ≤ c && c ≤ 'z') || ('0' ≤ c && c ≤ '9') || c == '-'

/-- The file name of a workflow path without its extension. -/
def workflowPathStem (path : String) : Option (List Char) := do
  let fileName ← Text.stripPrefix? "/.scope/runs/".toList path.toList
  if fileName.contains '/' then none
  else (Text.stripSuffix? ".yaml".toList fileName).or (Text.stripSuffix? ".yml".toList fileName)

/-- `WorkflowPath::parse`. -/
def parseWorkflowPath (path : String) : Except String String :=
  match workflowPathStem path with
  | some stem =>
    if isKebabName stem MAX_WORKFLOW_PATH_NAME_BYTES = true then .ok path
    else .error "workflow path must be /.scope/runs/<kebab-name>.yml or .yaml"
  | none => .error "workflow path must be /.scope/runs/<kebab-name>.yml or .yaml"

/-- `WorkflowPath::name`. -/
def workflowPathName (path : String) : String := String.ofList ((workflowPathStem path).getD [])

structure ParsedWorkflow where
  path : String
  definition : CompiledWorkflow
  deriving DecidableEq

namespace WorkflowParser

variable (parser : WorkflowParser)

def parseWorkflow (file : PushWorkflowFile) : Except String ParsedWorkflow := do
  rejectIf (MAX_WORKFLOW_DEFINITION_BYTES < file.bytes.length)
    "workflow definition exceeds 65536 bytes"
  let path ← parseWorkflowPath file.path
  let definition ← parser.parseDefinition file.bytes
  return { path, definition }

def intoRevision (repositoryId : String) (workflow : ParsedWorkflow) :
    Except String WorkflowRevision := do
  rejectIf (Text.isBlank repositoryId = true) "workflow repository id is required"
  let digest ← parser.definitionDigest workflow.definition
  return ⟨⟨repositoryId, workflow.path⟩, digest, workflow.definition⟩

def collectRevisions (repositoryId : String) : List String → List ParsedWorkflow →
    Except String (List WorkflowRevision)
  | _, [] => .ok []
  | names, workflow :: rest =>
    let name := workflowPathName workflow.path
    if names.contains name then
      .error ("workflow name \"" ++ name ++ "\" is defined by more than one file")
    else do
      let revision ← parser.intoRevision repositoryId workflow
      let revisions ← collectRevisions repositoryId (name :: names) rest
      return revision :: revisions

def parseWorkflowSet (repositoryId : String) (files : List PushWorkflowFile) :
    Except String (List WorkflowRevision) := do
  let parsed ← files.mapM parser.parseWorkflow
  parser.collectRevisions repositoryId [] (parsed.insertionSort fun left right => left.path ≤ right.path)

/-- The workflows of a head that a push starts. -/
def pushWorkflows (repositoryId : String) (input : PushTriggerInput) :
    Except String (List WorkflowRevision) := do
  let revisions ← parser.parseWorkflowSet repositoryId input.workflows
  return revisions.filter fun revision => revision.definition.triggers.pushMain

end WorkflowParser

end ScopeVcs.Outbox

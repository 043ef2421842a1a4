import ScopeVcs.Lib.LastMax
import ScopeVcs.Lib.Mutation
import ScopeVcs.Views

/-! # The repository configuration

The configuration of a repository assigns a view to every path: of the rules that match, the one with
the longest base path decides, the last one of several, and the default view if none matches.
-/

namespace ScopeVcs

/-! ## Patterns

A pattern is a path, or a path followed by `/**` for a folder and everything below it. -/

/-- `pattern.strip_suffix("/**")`. -/
def folderBase? (pattern : String) : Option String :=
  (Text.stripSuffix? "/**".toList pattern.toList).map String.ofList

def patternBasePath (pattern : String) : String := (folderBase? pattern).getD pattern

def patternMatchesPath (pattern path : String) : Bool :=
  match folderBase? pattern with
  | some base =>
    path == base ||
      (Text.stripPrefix? base.toList path.toList).any fun tail => tail.head? == some '/'
  | none => path == pattern

def patternWeight (pattern : String) : ℕ := Text.byteLength (patternBasePath pattern).toList

inductive RepoConfigError where
  | invalidKind
  | invalidVersion
  | relativePath
  | invalidSegment
  | reservedControlPath (path : String)
  | unknownView (view : ViewId)
  deriving DecidableEq

/-- `validate_config_path`. -/
def validateConfigPath (path : String) : Except RepoConfigError ScopePath :=
  match ScopePath.parse path with
  | .error .relativePath => .error .relativePath
  | .error .invalidSegment => .error .invalidSegment
  | .ok parsed =>
    if parsed.asStr ≠ path ∨ Text.trim path ≠ path then .error .invalidSegment else .ok parsed

def validateConfigPattern (pattern : String) : Except RepoConfigError Unit :=
  match folderBase? pattern with
  | some base => (validateConfigPath base).map fun _ => ()
  | none => (validateConfigPath pattern).map fun _ => ()

/-! ## Configurations -/

structure RepoConfigFileRule where
  path : String
  view : ViewId
  deriving DecidableEq

structure RepoConfigFiles where
  default : ViewId
  rules : List RepoConfigFileRule
  deriving DecidableEq

inductive HistoryRewriteAction where
  | redactPublicHistory
  deriving DecidableEq

structure HistoryRewriteRequest where
  path : String
  action : HistoryRewriteAction
  deriving DecidableEq

structure RepoConfigHistory where
  rewrites : List HistoryRewriteRequest
  deriving DecidableEq

structure RepoConfig where
  kind : String
  version : ℕ
  views : Views
  files : RepoConfigFiles
  history : RepoConfigHistory
  deriving DecidableEq

def repoConfigKind : String := "scope.repo-config"

def repoConfigVersion : ℕ := 3

namespace RepoConfig

def withDefaultView (default : ViewId) : RepoConfig where
  kind := repoConfigKind
  version := repoConfigVersion
  views := .builtin
  files := ⟨default, []⟩
  history := ⟨[]⟩

/-- A pattern that a rule or a rewrite may have. -/
def validateUnreserved (pattern : String) : Except RepoConfigError Unit := do
  validateConfigPattern pattern
  Mutation.rejectIf (isRepoControlPattern pattern = true) (.reservedControlPath pattern)

/-- `RepoConfig::validate`; the definitions of the views are valid by their type. -/
def validate (config : RepoConfig) : Except RepoConfigError Unit := do
  Mutation.rejectIf (config.kind ≠ repoConfigKind) .invalidKind
  Mutation.rejectIf (config.version ≠ repoConfigVersion) .invalidVersion
  Mutation.rejectIf ((config.views.get config.files.default).isNone = true)
    (.unknownView config.files.default)
  config.files.rules.forM fun rule => do
    Mutation.rejectIf ((config.views.get rule.view).isNone = true) (.unknownView rule.view)
    validateUnreserved rule.path
  config.history.rewrites.forM fun rewrite => validateUnreserved rewrite.path

/-- One round of the loop that selects a rule: its weight and view replace the selected ones if it
matches and is at least as heavy. -/
def selectRule (path : String) (selected : ℕ × ViewId) (rule : RepoConfigFileRule) : ℕ × ViewId :=
  if patternMatchesPath rule.path path = true ∧ selected.1 ≤ patternWeight rule.path then
    (patternWeight rule.path, rule.view)
  else selected

def labelForPathSkippingRule (config : RepoConfig) (path : ScopePath) (skippedRule : Option ℕ) :
    ViewId :=
  if isRepoRulesPath path then .publicView
  else if isPrivateControlPath path then config.views.full
  else (config.files.rules.zipIdx.foldl (fun selected (rule, index) =>
    if skippedRule = some index then selected else selectRule path.asStr selected rule)
    (0, config.files.default)).2

def labelForPath (config : RepoConfig) (path : ScopePath) : ViewId :=
  config.labelForPathSkippingRule path none

end RepoConfig

end ScopeVcs

import ScopeVcs.Visibility.RepoConfig

/-! # Toggling visibility

`toggleVisibilityTarget` gives a file, a folder or the whole repository the next view, and rewrites
the rules to a canonical list that assigns the same views with no redundant rule.
-/

namespace ScopeVcs

inductive ReviewLabel where
  | view (id : ViewId)
  | mixed
  deriving DecidableEq

def ReviewLabel.combine (self other : ReviewLabel) : ReviewLabel :=
  if self = other then self else .mixed

inductive VisibilityNodeKind where
  | root
  | directory
  | file
  deriving DecidableEq

structure ToggleResult where
  changed : Bool
  message : String
  deriving DecidableEq

structure VisibilityTarget where
  name : String
  path : String
  kind : VisibilityNodeKind
  reserved : Bool
  filePathsUnder : List String
  deriving DecidableEq

namespace RepoConfig

def withRules (config : RepoConfig) (rules : List RepoConfigFileRule) : RepoConfig :=
  { config with files := { config.files with rules } }

/-- The label of a path given as text; what is no path has the default view. -/
def effectiveConfigLabelForPath (config : RepoConfig) (path : String) : ViewId :=
  match ScopePath.parse path with
  | .ok path => config.labelForPath path
  | .error _ => config.files.default

/-! ## Canonical rules -/

def ruleIsRedundant (config : RepoConfig) (index : ℕ) (rule : RepoConfigFileRule) : Bool :=
  let withoutRule (path : String) : ViewId :=
    match ScopePath.parse path with
    | .ok path => config.labelForPathSkippingRule path (some index)
    | .error _ => config.files.default
  let base := patternBasePath rule.path
  if withoutRule base ≠ rule.view then false
  else if (folderBase? rule.path).isNone then true
  else decide (withoutRule (base ++ "/__scope_probe__") = rule.view)

def redundantRuleIndex (config : RepoConfig) : Option ℕ :=
  (List.range config.files.rules.length).find? fun index =>
    config.files.rules[index]?.any (ruleIsRedundant config index)

/-- The loop that removes redundant rules, for at most so many rounds. -/
def removeRedundantRules : ℕ → RepoConfig → RepoConfig
  | 0, config => config
  | rounds + 1, config =>
    match redundantRuleIndex config with
    | some index => removeRedundantRules rounds (config.withRules (config.files.rules.eraseIdx index))
    | none => config

def upsertVisibilityRule (config : RepoConfig) (path : String) (visibility : ViewId) : RepoConfig :=
  config.withRules (config.files.rules.filter (fun rule => rule.path ≠ path) ++ [⟨path, visibility⟩])

def effectiveVisibilitiesByRuleBase (config : RepoConfig) : SortedMap String ViewId :=
  .ofList (config.files.rules.map fun rule =>
    (patternBasePath rule.path, effectiveConfigLabelForPath config (patternBasePath rule.path)))

def restoreRuleBase (config : RepoConfig) (entry : String × ViewId) : RepoConfig :=
  if effectiveConfigLabelForPath config entry.1 ≠ entry.2 then
    config.upsertVisibilityRule entry.1 entry.2
  else config

def restoreRuleBaseVisibilities (config : RepoConfig)
    (baseVisibilities : SortedMap String ViewId) : RepoConfig :=
  baseVisibilities.entries.foldl restoreRuleBase config

end RepoConfig

def semanticSortRank (rule : RepoConfigFileRule) (baseVisibilities : SortedMap String ViewId) : ℕ :=
  if baseVisibilities.get? (patternBasePath rule.path) = some rule.view then 1 else 0

def ruleSortRank (path : String) : ℕ := if (folderBase? path).isSome then 0 else 1

/-- By base path, the view that its base has last, a folder before its path, then by path. -/
def ruleOrder (baseVisibilities : SortedMap String ViewId) :
    RepoConfigFileRule → RepoConfigFileRule → Ordering :=
  compareLex (compareOn fun rule => patternBasePath rule.path) <|
    compareLex (compareOn fun rule => semanticSortRank rule baseVisibilities) <|
      compareLex (compareOn fun rule => ruleSortRank rule.path) (compareOn fun rule => rule.path)

namespace RepoConfig

def sortVisibilityRules (config : RepoConfig) (baseVisibilities : SortedMap String ViewId) :
    RepoConfig :=
  config.withRules (config.files.rules.mergeSort fun left right =>
    (ruleOrder baseVisibilities left right).isLE)

/-- The rules by their paths, the last one of each path, without those of the control directory. -/
def rulesByPath (rules : List RepoConfigFileRule) : SortedMap String ViewId :=
  (rules.filter fun rule => !isRepoControlPattern rule.path).foldl
    (fun byPath rule => byPath.insert rule.path rule.view) ∅

def canonicalizeVisibilityRules (config : RepoConfig) : RepoConfig :=
  let baseVisibilities := config.effectiveVisibilitiesByRuleBase
  let deduplicated := config.withRules
    ((rulesByPath config.files.rules).entries.map fun (path, view) => ⟨path, view⟩)
  let reduced := removeRedundantRules deduplicated.files.rules.length deduplicated
  (reduced.restoreRuleBaseVisibilities baseVisibilities).sortVisibilityRules baseVisibilities

/-! ## Targets -/

/-- The view after `current` in the order of the views. -/
def nextView (config : RepoConfig) (current : ViewId) : ViewId :=
  let ids := config.views.definitions.map (·.id)
  ids.getD (((ids.idxOf? current).getD 0 + 1) % ids.length) .privateView

def aggregateVisibility (fallback : ViewId) : List ViewId → ReviewLabel
  | [] => .view fallback
  | visibility :: rest =>
    rest.foldl (fun selected visibility => selected.combine (.view visibility)) (.view visibility)

def targetVisibility (config : RepoConfig) (target : VisibilityTarget) : ReviewLabel :=
  match target.kind with
  | .root => aggregateVisibility config.files.default
      (target.filePathsUnder.map config.effectiveConfigLabelForPath)
  | .file => .view (config.effectiveConfigLabelForPath target.path)
  | .directory =>
    if target.filePathsUnder.isEmpty then .view (config.effectiveConfigLabelForPath target.path)
    else aggregateVisibility config.files.default
      (target.filePathsUnder.map config.effectiveConfigLabelForPath)

def visibilityLabel (config : RepoConfig) : ReviewLabel → String
  | .view view => config.views.displayName view
  | .mixed => "mixed"

def nextDirectoryVisibility (config : RepoConfig) (target : VisibilityTarget) : ViewId :=
  match config.targetVisibility target with
  | .view view => config.nextView view
  | .mixed => config.nextView (config.effectiveConfigLabelForPath target.path)

end RepoConfig

def folderRulePath (path : String) : String := path ++ "/**"

def patternIsInsideSubtree (pattern folderPath : String) : Bool :=
  let base := patternBasePath pattern
  base == folderPath ||
    (Text.stripPrefix? folderPath.toList base.toList).any fun tail => tail.head? == some '/'

namespace RepoConfig

def replaceVisibilityRulesInSubtree (config : RepoConfig) (folderPath : String) (next : ViewId) :
    RepoConfig :=
  config.withRules (config.files.rules.filter fun rule =>
    !patternIsInsideSubtree rule.path folderPath ||
      (next == .publicView && rule.view == .privateView))

def removeSameBaseFolderRule (config : RepoConfig) (filePath : String) : RepoConfig :=
  config.withRules (config.files.rules.filter fun rule => rule.path ≠ folderRulePath filePath)

/-- The configuration with the target's view changed, before its rules are made canonical. `none` if
the target's path reads as a pattern. -/
def toggled (config : RepoConfig) (target : VisibilityTarget) : Option RepoConfig :=
  match target.kind with
  | .root => some { config with
      files := { config.files with default := config.nextView config.files.default } }
  | .directory =>
    let next := config.nextDirectoryVisibility target
    some ((config.replaceVisibilityRulesInSubtree target.path next).upsertVisibilityRule
      (folderRulePath target.path) next)
  | .file =>
    if (folderBase? target.path).isSome then none
    else
      let current := config.effectiveConfigLabelForPath target.path
      let config := config.removeSameBaseFolderRule target.path
      some (config.upsertVisibilityRule target.path (config.nextView current))

/-- `toggle_visibility_target`, with the configuration it leaves. -/
def toggleVisibilityTarget (config : RepoConfig) (target : VisibilityTarget) :
    RepoConfig × ToggleResult :=
  if target.reserved then (config, ⟨false, ".scope visibility is managed by Scope"⟩)
  else match config.toggled target with
    | none =>
      (config, ⟨false, target.name ++ " cannot be configured with current pattern syntax"⟩)
    | some changed =>
      let canonical := changed.canonicalizeVisibilityRules
      (canonical,
        { changed := decide (canonical.files.rules ≠ config.files.rules ∨
            canonical.files.default ≠ config.files.default)
          message := target.name ++ " set to " ++
            canonical.visibilityLabel (canonical.targetVisibility target) })

end RepoConfig

end ScopeVcs

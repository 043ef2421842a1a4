import ScopeVcs.Repository.Model

/-! # The paths that a request may touch

A request that goes through a narrower view may change the files that the view shows, and add files
that it would show. What it must not touch are protected paths, live files that the view hides, and
deleted files that once were hidden from it: adding such a file anew would tell that it was there.
-/

namespace ScopeVcs

inductive RequestViewPathError where
  | protectedPath
  | hiddenPath
  deriving DecidableEq

/-- What is recorded of some paths: which of them are live, and every label they had. -/
structure PathHistory where
  livePaths : SortedSet ScopePath
  fileChangeLabels : List (ScopePath × ViewId)
  visibilityChanges : List (ScopePath × ViewId × ViewId)

/-- `repository_path_history`: the rows of these paths, read at the version of the repository. -/
def Repository.pathHistory (repo : Repository) (paths : List ScopePath) : PathHistory where
  livePaths := .ofList (repo.liveFiles.keys.filter fun path => path ∈ paths)
  fileChangeLabels := (repo.graph.commits.flatMap (·.changes)).filterMap fun change =>
    if change.path ∈ paths then some (change.path, change.label) else none
  visibilityChanges := (repo.visibilityChangeSets.flatMap (·.changes)).filterMap fun change =>
    if change.path ∈ paths then some (change.path, change.oldLabel, change.newLabel) else none

structure RequestViewPaths where
  repoConfig : RepoConfig
  views : Views
  view : ViewId
  labels : List ViewId
  visiblePaths : SortedSet String
  livePaths : SortedSet ScopePath
  hiddenHistoryPaths : SortedSet ScopePath

namespace RequestViewPaths

def new (repoConfig : RepoConfig) (views : Views) (view : ViewId) (visiblePaths : SortedSet String)
    (history : PathHistory) : RequestViewPaths :=
  let labels := views.labels view
  let hiddenChanges := history.fileChangeLabels.filter fun (_, label) => label ∉ labels
  let hiddenVisibilityChanges := history.visibilityChanges.filter fun (_, oldLabel, newLabel) =>
    oldLabel ∉ labels ∨ newLabel ∉ labels
  { repoConfig, views, view, labels, visiblePaths
    livePaths := history.livePaths
    hiddenHistoryPaths := .ofList
      (hiddenChanges.map (·.1) ++ hiddenVisibilityChanges.map (·.1)) }

def ensureEditable (paths : RequestViewPaths) (path : ScopePath) :
    Except RequestViewPathError Unit :=
  if isRequestProtectedPath path then .error .protectedPath
  else if paths.visiblePaths.contains path.asStr then .ok ()
  else if paths.livePaths.contains path || paths.hiddenHistoryPaths.contains path then
    .error .hiddenPath
  else if paths.repoConfig.labelForPath path ∈ paths.labels then .ok ()
  else .error .hiddenPath

def rejection (paths : RequestViewPaths) (path : ScopePath) (error : RequestViewPathError) : String :=
  let view := paths.views.displayName paths.view
  match error with
  | .protectedPath => view ++ " requests cannot change maintainer-controlled paths: " ++ path.asStr
  | .hiddenPath => path.asStr ++ " is not shown by the " ++ view ++ " view"

theorem ensureEditable_eq_ok {paths : RequestViewPaths} {path : ScopePath} :
    paths.ensureEditable path = .ok () ↔ isRequestProtectedPath path = false ∧
      (paths.visiblePaths.contains path.asStr = true ∨
        paths.livePaths.contains path = false ∧ paths.hiddenHistoryPaths.contains path = false ∧
          paths.repoConfig.labelForPath path ∈ paths.labels) := by
  unfold ensureEditable
  split_ifs with hprotected hvisible hhidden hlabel
  · simp [hprotected]
  · simp [hprotected, hvisible]
  · rw [Bool.or_eq_true_iff] at hhidden
    refine iff_of_false nofun ?_
    rintro ⟨-, hvisible' | ⟨hlive, hhistory, -⟩⟩
    · exact hvisible hvisible'
    · rw [hlive, hhistory] at hhidden
      simp at hhidden
  · simp only [Bool.or_eq_true, not_or, Bool.not_eq_true] at hhidden
    simp [hprotected, hhidden, hlabel]
  · simp [hlabel, hvisible]

end RequestViewPaths

/-! ## The paths of a pushed commit -/

inductive CommitPathError where
  | badRequest (error : ScopePathError)
  | protectedPaths (paths : List String)
  | conflict (message : String)
  deriving DecidableEq

/-- One path of a commit, as Git lists it. -/
def ensureViewRequestCommitPath (policy : RequestViewPaths) (path : String) :
    Except CommitPathError ScopePath := do
  let scopePath ← (ScopePath.parse ("/" ++ path)).mapError .badRequest
  (policy.ensureEditable scopePath).mapError fun error => match error with
    | .protectedPath => .protectedPaths [path]
    | .hiddenPath => .conflict (policy.rejection scopePath error)
  return scopePath

/-- The paths that a commit changes, if the request may touch all of them. -/
def ensureViewRequestCommitPaths (policy : RequestViewPaths) (paths : List String) :
    Except CommitPathError (List ScopePath) := do
  let changedPaths ← paths.mapM (ensureViewRequestCommitPath policy)
  return (SortedSet.ofList changedPaths).toList

/-- What passes is editable and stems from the listed paths. -/
theorem ensureEditable_of_mem {policy : RequestViewPaths} {paths : List String}
    {changedPaths : List ScopePath}
    (h : ensureViewRequestCommitPaths policy paths = .ok changedPaths) :
    ∀ path ∈ changedPaths, policy.ensureEditable path = .ok () ∧
      ∃ text ∈ paths, ScopePath.parse ("/" ++ text) = .ok path := by
  obtain ⟨parsed, hparsed, hchanged⟩ := Mutation.except_bind_eq_ok.mp h
  rw [← Except.ok.inj hchanged]
  intro path hpath
  rw [SortedSet.mem_toList_ofList] at hpath
  obtain ⟨text, hmem, htext⟩ := Mutation.mem_of_mapM_eq_ok hparsed path hpath
  obtain ⟨scopePath, hscope, htext⟩ := Mutation.except_bind_eq_ok.mp htext
  obtain ⟨heditable, hpath⟩ := Mutation.except_unit_bind_eq_ok.mp htext
  rw [← Except.ok.inj hpath]
  exact ⟨Mutation.mapError_eq_ok.mp heditable, text, hmem, Mutation.mapError_eq_ok.mp hscope⟩

/-! ## What readers of a request see -/

/-- The labels that a path had. -/
def PathHistory.labels (history : PathHistory) (path : ScopePath) : List ViewId :=
  (SortedSet.ofList
    ((history.fileChangeLabels.filter fun change => change.1 = path).map (·.2) ++
      (history.visibilityChanges.filter fun change => change.1 = path).flatMap
        fun (_, oldLabel, newLabel) => [oldLabel, newLabel])).toList

/-- The label under which a reader of a request sees a path. A deleted path is hidden from a reader
that any of its labels hides it from. -/
def Policy.requestLabel (policy : Policy) (config : RepoConfig) (history : PathHistory)
    (reader : ViewId) (path : ScopePath) : ViewId :=
  if history.livePaths.contains path || policy.rules.contains path then
    policy.label path config.views
  else
    match history.labels path with
    | [] => config.labelForPath path
    | first :: labels =>
      ((first :: labels).find? fun label => !config.views.shows reader path label).getD first

def Policy.forRequestPaths (policy : Policy) (config : RepoConfig) (history : PathHistory)
    (reader : ViewId) (paths : List ScopePath) : Policy where
  default := config.views.full
  rules := paths.foldl
    (fun rules path => rules.insert path (policy.requestLabel config history reader path)) ∅

theorem Policy.get?_rules_forRequestPaths (policy : Policy) (config : RepoConfig)
    (history : PathHistory) (reader : ViewId) (paths : List ScopePath) (path : ScopePath) :
    (policy.forRequestPaths config history reader paths).rules.get? path =
      if path ∈ paths then some (policy.requestLabel config history reader path) else none := by
  suffices h : ∀ rules : SortedMap ScopePath ViewId, (paths.foldl (fun rules path =>
      rules.insert path (policy.requestLabel config history reader path)) rules).get? path =
        if path ∈ paths then some (policy.requestLabel config history reader path)
        else rules.get? path by
    exact h ∅
  induction paths with
  | nil => exact fun _ => rfl
  | cons first paths ih =>
    intro rules
    rw [List.foldl_cons, ih, SortedMap.get?_insert]
    by_cases hpath : path = first
    · subst hpath
      simp
    · simp [hpath]

def Policy.canRead (policy : Policy) (path : ScopePath) (reader : ViewId) (views : Views) : Bool :=
  views.shows reader path (policy.label path views)

end ScopeVcs

import ScopeVcs.Visibility.RepoConfig

/-! # The policy of a repository

A policy keeps the label of every live path, and answers for the other paths with the label of the
closest folder that has one, or with a default. No public rule may lie under a private one.
-/

namespace ScopeVcs

structure LabelRule where
  path : ScopePath
  view : ViewId
  deriving DecidableEq

inductive PolicyError where
  | publicIsland (child parent : ScopePath)
  deriving DecidableEq

/-- A policy; the rules have distinct paths and are kept in their order. -/
structure Policy where
  default : ViewId
  rules : SortedMap ScopePath ViewId
  deriving DecidableEq

namespace Policy

def new (default : ViewId) : Policy := ⟨default, ∅⟩

/-- The first private rule above a path. -/
def privateParent? (rules : SortedMap ScopePath ViewId) (path : ScopePath) : Option ScopePath :=
  path.parents.find? fun ancestor =>
    decide (ancestor ≠ path) && decide (rules.get? ancestor = some .privateView)

/-- The first public rule under a private one, with that one. -/
def publicIsland? (rules : SortedMap ScopePath ViewId) : Option (ScopePath × ScopePath) :=
  rules.entries.findSome? fun (path, view) =>
    if view = .publicView then (privateParent? rules path).map (path, ·) else none

/-- `Policy::add_rules`: the rules with the additions, of which the last one of a path counts. -/
def addRules (policy : Policy) (additions : List LabelRule) : Except PolicyError Policy :=
  if additions.isEmpty then .ok policy
  else
    let rules := additions.foldl (fun rules rule => rules.insert rule.path rule.view) policy.rules
    match publicIsland? rules with
    | some (child, parent) => .error (.publicIsland child parent)
    | none => .ok { policy with rules }

def effectiveRule (policy : Policy) (path : ScopePath) : Option ViewId :=
  path.selfAndAncestors.findSome? policy.rules.get?

def label (policy : Policy) (path : ScopePath) (views : Views) : ViewId :=
  if isRepoRulesPath path then .publicView
  else if isPrivateControlPath path then views.full
  else (policy.effectiveRule path).getD policy.default

def removeRule (policy : Policy) (path : ScopePath) : Policy :=
  { policy with rules := policy.rules.erase path }

theorem privateParent?_eq_none {rules : SortedMap ScopePath ViewId} {path : ScopePath} :
    privateParent? rules path = none ↔
      ∀ ancestor ∈ path.parents, ancestor ≠ path → rules.get? ancestor ≠ some .privateView := by
  simp [privateParent?]

/-- There is no island exactly when no path with a public rule has a parent with a private one. -/
theorem publicIsland?_eq_none {rules : SortedMap ScopePath ViewId} :
    publicIsland? rules = none ↔ ∀ path, rules.get? path = some .publicView →
      ∀ ancestor ∈ path.parents, ancestor ≠ path → rules.get? ancestor ≠ some .privateView := by
  rw [publicIsland?, List.findSome?_eq_none_iff]
  constructor
  · intro h path hpath
    have hentry := h (path, .publicView) (SortedMap.mem_entries_iff.mpr hpath)
    dsimp only at hentry
    rw [if_pos rfl, Option.map_eq_none_iff] at hentry
    exact privateParent?_eq_none.mp hentry
  · rintro h ⟨path, view⟩ hmem
    by_cases hview : view = .publicView
    · subst hview
      dsimp only
      rw [if_pos rfl, Option.map_eq_none_iff]
      exact privateParent?_eq_none.mpr (h path (SortedMap.mem_entries_iff.mp hmem))
    · exact if_neg hview

/-! ### Labels -/

section Labels

variable {policy policy' : Policy} {path : ScopePath} {view : ViewId}

/-- The rule of a path itself decides. -/
theorem effectiveRule_of_rule (h : policy.rules.get? path = some view) :
    policy.effectiveRule path = some view := by
  rw [effectiveRule, ScopePath.selfAndAncestors, List.findSome?_cons, h]

/-- Labels do not depend on the views: the full view is the same in all of them. -/
theorem label_congr (policy : Policy) (path : ScopePath) (views views' : Views) :
    policy.label path views = policy.label path views' := by
  rw [label, label, Views.full_eq, Views.full_eq]

theorem label_of_rule_eq (h : policy.rules.get? path = some view)
    (h' : policy'.rules.get? path = some view) (views : Views) :
    policy.label path views = policy'.label path views := by
  rw [label, label, effectiveRule_of_rule h, effectiveRule_of_rule h']
  rfl

theorem rules_addRules {additions : List LabelRule} (h : policy.addRules additions = .ok policy') :
    policy'.rules =
      additions.foldl (fun rules rule => rules.insert rule.path rule.view) policy.rules := by
  unfold addRules at h
  split_ifs at h with hempty
  · cases h
    rw [List.isEmpty_iff.mp hempty]
    rfl
  · dsimp only at h
    split at h
    · cases h
    · cases h
      rfl

theorem get?_removeRules (policy : Policy) (paths : List ScopePath) (path : ScopePath) :
    (paths.foldl removeRule policy).rules.get? path =
      if path ∈ paths then none else policy.rules.get? path := by
  induction paths generalizing policy with
  | nil => simp
  | cons first paths ih =>
    rw [List.foldl_cons, ih, removeRule, SortedMap.get?_erase]
    by_cases hpath : path = first
    · simp [hpath]
    · simp [hpath]

end Labels

end Policy

/-! ## The policy of a configuration -/

/-- Both the policy and the configuration have a label of their own for the control directory. -/
theorem label_of_isRepoControlPath {path : ScopePath} (h : isRepoControlPath path = true)
    (policy : Policy) (config : RepoConfig) (views : Views) :
    policy.label path views = config.labelForPath path := by
  rw [Policy.label, RepoConfig.labelForPath, RepoConfig.labelForPathSkippingRule,
    isPrivateControlPath, h, Views.full_eq, Views.full_eq]
  cases isRepoRulesPath path <;> rfl

/-- A policy with the rule of a configuration labels the path as the configuration does. -/
theorem label_eq_labelForPath {policy : Policy} {config : RepoConfig} {path : ScopePath}
    (h : policy.rules.get? path = some (config.labelForPath path)) (views : Views) :
    policy.label path views = config.labelForPath path := by
  cases hcontrol : isRepoControlPath path with
  | true => exact label_of_isRepoControlPath hcontrol policy config views
  | false =>
    have hrules : isRepoRulesPath path = false := by
      cases hrules : isRepoRulesPath path with
      | false => rfl
      | true =>
        rw [isRepoControlPath_of_isRepoRulesPath hrules] at hcontrol
        cases hcontrol
    rw [Policy.label, isPrivateControlPath, hrules, hcontrol, Policy.effectiveRule_of_rule h]
    rfl

/-- `policy_from_config_for_tree`. -/
def policyFromConfigForTree (config : RepoConfig) (paths : List ScopePath) :
    Except PolicyError Policy :=
  (Policy.new config.files.default).addRules
    (paths.map fun path => ⟨path, config.labelForPath path⟩)

/-- A configuration puts a path that it makes public under one that it makes private. -/
def RepoConfig.HasPublicIsland (config : RepoConfig) (paths : List ScopePath) : Prop :=
  ∃ child ∈ paths, ∃ parent ∈ paths, parent ∈ child.parents ∧ parent ≠ child ∧
    config.labelForPath child = .publicView ∧ config.labelForPath parent = .privateView

theorem get?_foldl_labels (config : RepoConfig) (paths : List ScopePath)
    (rules : SortedMap ScopePath ViewId) (path : ScopePath) :
    ((paths.map fun path => LabelRule.mk path (config.labelForPath path)).foldl
        (fun rules rule => rules.insert rule.path rule.view) rules).get? path =
      if path ∈ paths then some (config.labelForPath path) else rules.get? path := by
  induction paths generalizing rules with
  | nil => rfl
  | cons first paths ih =>
    rw [List.map_cons, List.foldl_cons, ih, SortedMap.get?_insert]
    by_cases hpath : path = first
    · subst hpath
      simp
    · simp [hpath]

/-- The policy of a configuration has a rule for each path. -/
theorem rule_of_policyFromConfigForTree {config : RepoConfig} {paths : List ScopePath}
    {policy : Policy} (h : policyFromConfigForTree config paths = .ok policy) {path : ScopePath}
    (hpath : path ∈ paths) : policy.rules.get? path = some (config.labelForPath path) := by
  rw [Policy.rules_addRules h, get?_foldl_labels, if_pos hpath]

/-- The policy of a configuration exists exactly when there is no public island. -/
theorem exists_policyFromConfigForTree {config : RepoConfig} {paths : List ScopePath} :
    (∃ policy, policyFromConfigForTree config paths = .ok policy) ↔
      ¬config.HasPublicIsland paths := by
  have hget := get?_foldl_labels config paths ∅
  cases paths with
  | nil =>
    refine iff_of_true ⟨_, rfl⟩ ?_
    rintro ⟨child, hchild, -⟩
    exact List.not_mem_nil hchild
  | cons first rest =>
    set rules := ((first :: rest).map fun path => LabelRule.mk path (config.labelForPath path)).foldl
      (fun rules rule => rules.insert rule.path rule.view) (∅ : SortedMap ScopePath ViewId)
      with hrules
    have hlabelled : ∀ path view, rules.get? path = some view ↔
        path ∈ first :: rest ∧ config.labelForPath path = view := by
      intro path view
      rw [hget, SortedMap.get?_empty]
      split_ifs with hmem <;> simp [hmem]
    have hadd : policyFromConfigForTree config (first :: rest) =
        match Policy.publicIsland? rules with
        | some (child, parent) => .error (.publicIsland child parent)
        | none => .ok ⟨config.files.default, rules⟩ := rfl
    have hexists : (∃ policy, policyFromConfigForTree config (first :: rest) = .ok policy) ↔
        Policy.publicIsland? rules = none := by
      rw [hadd]
      cases Policy.publicIsland? rules with
      | none => simp
      | some island => simp
    rw [hexists, Policy.publicIsland?_eq_none, RepoConfig.HasPublicIsland]
    push Not
    constructor
    · intro h child hchild parent hparent habove hne hpublic hprivate
      exact h child ((hlabelled _ _).mpr ⟨hchild, hpublic⟩) parent habove hne
        ((hlabelled _ _).mpr ⟨hparent, hprivate⟩)
    · intro h child hchild parent habove hne hparent
      obtain ⟨hchild, hpublic⟩ := (hlabelled _ _).mp hchild
      obtain ⟨hparent, hprivate⟩ := (hlabelled _ _).mp hparent
      exact h child hchild parent hparent habove hne hpublic hprivate

end ScopeVcs

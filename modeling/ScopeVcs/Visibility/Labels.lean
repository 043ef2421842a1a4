import ScopeVcs.Visibility.RepoVisibility

/-! # What decides a label

Outside the control directory the label of a path is that of the rule `LastMax.select` selects among
those that match. Two rules of one weight that match a path have one base path, so a list without
repeated patterns leaves a choice to its order only between a path's own two rules.
-/

namespace ScopeVcs

/-! ## Patterns -/

theorem folderBase?_eq_some {pattern base : String} :
    folderBase? pattern = some base ↔ pattern = base ++ "/**" := by
  rw [folderBase?, Option.map_eq_some_iff]
  constructor
  · rintro ⟨chars, hchars, rfl⟩
    rw [Text.stripSuffix?_eq_some] at hchars
    apply String.toList_injective
    rw [hchars, String.toList_append, @String.toList_ofList chars]
  · rintro rfl
    exact ⟨base.toList, Text.stripSuffix?_eq_some.mpr String.toList_append, String.ofList_toList⟩

theorem patternBasePath_append (base : String) : patternBasePath (base ++ "/**") = base := by
  rw [patternBasePath, folderBase?_eq_some.mpr rfl, Option.getD_some]

/-- The path is strictly below the folder. -/
def IsBelow (folder path : String) : Prop := folder.toList ++ ['/'] <+: path.toList

instance (folder path : String) : Decidable (IsBelow folder path) :=
  inferInstanceAs (Decidable (_ <+: _))

theorem any_stripPrefix_iff {folder path : String} :
    ((Text.stripPrefix? folder.toList path.toList).any fun tail => tail.head? == some '/') = true ↔
      IsBelow folder path := by
  rw [Option.any_eq_true, IsBelow]
  constructor
  · rintro ⟨tail, htail, hhead⟩
    rw [Text.stripPrefix?_eq_some] at htail
    rw [htail]
    cases tail with
    | nil => simp at hhead
    | cons c rest =>
      obtain rfl : c = '/' := by simpa using hhead
      exact ⟨rest, by simp⟩
  · rintro ⟨rest, hrest⟩
    exact ⟨'/' :: rest, Text.stripPrefix?_eq_some.mpr (by rw [← hrest]; simp), rfl⟩

theorem patternMatchesPath_iff {pattern path : String} :
    patternMatchesPath pattern path = true ↔ path = patternBasePath pattern ∨
      ((folderBase? pattern).isSome = true ∧ IsBelow (patternBasePath pattern) path) := by
  rw [patternMatchesPath, patternBasePath]
  cases folderBase? pattern with
  | none => simp
  | some base =>
    simp only [Bool.or_eq_true, beq_iff_eq, any_stripPrefix_iff, Option.getD_some,
      Option.isSome_some, true_and]

theorem base_prefix_of_matches {pattern path : String}
    (h : patternMatchesPath pattern path = true) :
    (patternBasePath pattern).toList <+: path.toList := by
  rcases patternMatchesPath_iff.mp h with rfl | ⟨-, hbelow⟩
  · exact List.prefix_refl _
  · exact (List.prefix_append _ _).trans hbelow

/-- Patterns of one weight that match a path have one base. -/
theorem base_eq_of_weight_eq {p q path : String} (hp : patternMatchesPath p path = true)
    (hq : patternMatchesPath q path = true) (heq : patternWeight p = patternWeight q) :
    patternBasePath p = patternBasePath q :=
  String.toList_injective
    (Text.eq_of_byteLength_eq (base_prefix_of_matches hp) (base_prefix_of_matches hq) heq)

/-- A pattern that is lighter than one that matches a path matches the path exactly if it matches
the other's base. -/
theorem matches_base_iff {p q path : String} (hq : patternMatchesPath q path = true)
    (hlt : patternWeight p < patternWeight q) :
    patternMatchesPath p path = true ↔ patternMatchesPath p (patternBasePath q) = true := by
  have hbase := base_prefix_of_matches hq
  constructor
  · intro hp
    rcases patternMatchesPath_iff.mp hp with rfl | ⟨hfolder, hbelow⟩
    · -- the whole path is not shorter than a prefix of it
      obtain ⟨rest, hrest⟩ := hbase
      have hlength := congrArg Text.byteLength hrest
      rw [Text.byteLength_append] at hlength
      unfold patternWeight at hlt
      omega
    · refine patternMatchesPath_iff.mpr (.inr ⟨hfolder, ?_⟩)
      refine Text.prefix_of_byteLength_le hbelow hbase ?_
      rw [Text.byteLength_append]
      exact hlt
  · intro hp
    rcases patternMatchesPath_iff.mp hp with heq | ⟨hfolder, hbelow⟩
    · rw [patternWeight, patternWeight, heq] at hlt
      omega
    · exact patternMatchesPath_iff.mpr (.inr ⟨hfolder, hbelow.trans hbase⟩)

/-! ## Rules -/

/-- The rule that decides the label of a path. -/
def decidingRule (rules : List RepoConfigFileRule) (path : String) : Option RepoConfigFileRule :=
  LastMax.select (fun rule => patternMatchesPath rule.path path)
    (fun rule => patternWeight rule.path) rules

theorem decidingRule_append_singleton (rules : List RepoConfigFileRule) (rule : RepoConfigFileRule)
    (path : String) :
    decidingRule (rules ++ [rule]) path = LastMax.step (fun rule => patternMatchesPath rule.path path)
      (fun rule => patternWeight rule.path) (decidingRule rules path) rule :=
  LastMax.select_append_singleton rules rule

/-- The view a list of rules assigns to a path. -/
def ruleView (default : ViewId) (rules : List RepoConfigFileRule) (path : String) : ViewId :=
  (decidingRule rules path).elim default (·.view)

theorem foldl_selectRule (default : ViewId) (rules : List RepoConfigFileRule) (path : String) :
    rules.foldl (RepoConfig.selectRule path) (0, default) =
      ((decidingRule rules path).elim 0 (patternWeight ·.path), ruleView default rules path) := by
  induction rules using List.reverseRecOn with
  | nil => rfl
  | append_singleton rules rule ih =>
    rw [List.foldl_append, ih, ruleView, ruleView, decidingRule_append_singleton, List.foldl_cons,
      List.foldl_nil, RepoConfig.selectRule, LastMax.step]
    by_cases hmatch : patternMatchesPath rule.path path = true
    · cases hselected : decidingRule rules path with
      | none => simp [hmatch]
      | some selected =>
        simp only [hmatch, Option.elim_some, true_and, Option.mem_some_iff, forall_eq']
        split <;> rfl
    · simp only [hmatch]
      rfl

/-- Skipping a rule by its index is walking the list without it. -/
theorem foldl_zipIdx_skip {σ : Type*} (f : σ → RepoConfigFileRule → σ) (initial : σ)
    (rules : List RepoConfigFileRule) (start : ℕ) (skipped : Option ℕ) :
    (rules.zipIdx start).foldl (fun selected (rule, index) =>
        if skipped = some index then selected else f selected rule) initial =
      (skipped.elim rules fun index =>
        if start ≤ index then rules.eraseIdx (index - start) else rules).foldl f initial := by
  induction rules generalizing initial start with
  | nil => cases skipped <;> simp
  | cons rule rules ih =>
    rw [List.zipIdx_cons, List.foldl_cons, ih]
    cases skipped with
    | none => simp
    | some index =>
      simp only [Option.some.injEq]
      rcases lt_trichotomy index start with hlt | rfl | hlt
      · simp [show index ≠ start by omega, show ¬ start ≤ index by omega,
          show ¬ start < index by omega]
      · simp
      · obtain ⟨n, hn⟩ := Nat.exists_eq_add_of_lt hlt
        simp [show index ≠ start by omega, show start ≤ index by omega, hlt,
          show index - start = n + 1 by omega, show index - (start + 1) = n by omega]

namespace RepoConfig

variable {config : RepoConfig} {path : ScopePath}

theorem labelForPathSkippingRule_eq (config : RepoConfig) (path : ScopePath)
    (hcontrol : isRepoControlPath path = false) (skipped : Option ℕ) :
    config.labelForPathSkippingRule path skipped =
      ruleView config.files.default (skipped.elim config.files.rules config.files.rules.eraseIdx)
        path.asStr := by
  have hrules : isRepoRulesPath path = false := by
    by_contra h
    rw [isRepoControlPath_of_isRepoRulesPath (by simpa using h)] at hcontrol
    cases hcontrol
  rw [labelForPathSkippingRule, isPrivateControlPath, hrules, hcontrol]
  simp only [Bool.false_eq_true, if_false, Bool.false_and]
  rw [foldl_zipIdx_skip, foldl_selectRule]
  cases skipped <;> rfl

theorem labelForPath_eq (config : RepoConfig) (path : ScopePath)
    (hcontrol : isRepoControlPath path = false) :
    config.labelForPath path = ruleView config.files.default config.files.rules path.asStr :=
  labelForPathSkippingRule_eq config path hcontrol none

/-- No rule and no default has a say about the control directory. -/
theorem labelForPath_of_control {config' : RepoConfig} (hviews : config'.views = config.views)
    (hcontrol : isRepoControlPath path = true) :
    config'.labelForPath path = config.labelForPath path := by
  rw [labelForPath, labelForPath, labelForPathSkippingRule, labelForPathSkippingRule,
    isPrivateControlPath, hcontrol, hviews]
  cases isRepoRulesPath path <;> rfl

end RepoConfig

/-! ## The last rule of a pattern -/

/-- The view of the last rule with a pattern. -/
def lastView (rules : List RepoConfigFileRule) (pattern : String) : Option ViewId :=
  (LastMax.select (fun rule => decide (rule.path = pattern)) (fun _ => 0) rules).map (·.view)

theorem lastView_append_singleton (rules : List RepoConfigFileRule) (rule : RepoConfigFileRule)
    (pattern : String) :
    lastView (rules ++ [rule]) pattern =
      if rule.path = pattern then some rule.view else lastView rules pattern := by
  rw [lastView, LastMax.select_append_singleton, LastMax.step]
  by_cases h : rule.path = pattern
  · simp [h]
  · simp [h, lastView]

theorem exists_of_lastView {rules : List RepoConfigFileRule} {pattern : String} {view : ViewId}
    (h : lastView rules pattern = some view) : ⟨pattern, view⟩ ∈ rules := by
  obtain ⟨rule, hrule, rfl⟩ := Option.map_eq_some_iff.mp h
  obtain rfl : rule.path = pattern := by simpa using LastMax.applies_of_select hrule
  exact LastMax.mem_of_select hrule

theorem lastView_isSome_of_mem {rules : List RepoConfigFileRule} {rule : RepoConfigFileRule}
    (h : rule ∈ rules) : (lastView rules rule.path).isSome = true := by
  rw [lastView, Option.isSome_map, ← Option.ne_none_iff_isSome]
  intro hnone
  have := LastMax.select_eq_none_iff.mp hnone rule h
  simp at this

/-- Without repeated patterns the last rule of a pattern is its only one. -/
theorem lastView_eq_some_iff {rules : List RepoConfigFileRule}
    (hnodup : (rules.map (·.path)).Nodup) {pattern : String} {view : ViewId} :
    lastView rules pattern = some view ↔ ⟨pattern, view⟩ ∈ rules := by
  refine ⟨exists_of_lastView, fun h => ?_⟩
  obtain ⟨view', hview'⟩ := Option.isSome_iff_exists.mp (lastView_isSome_of_mem h)
  have hrule := List.inj_on_of_nodup_map hnodup (exists_of_lastView hview') h rfl
  rw [RepoConfigFileRule.mk.injEq] at hrule
  rw [hview', hrule.2]

/-! ## Deciding rules -/

section

variable {rules rules' : List RepoConfigFileRule} {rule rule' : RepoConfigFileRule} {path : String}
  {default : ViewId}

/-- The rule that decides is the last one with its pattern. -/
theorem lastView_of_decidingRule (h : decidingRule rules path = some rule) :
    lastView rules rule.path = some rule.view := by
  obtain ⟨before, after, rfl, hmatch, -, hafter⟩ := LastMax.exists_of_select_eq_some h
  have hselect : LastMax.select (fun r => decide (r.path = rule.path)) (fun _ => 0)
      (before ++ rule :: after) = some rule := by
    refine LastMax.select_eq_some_of_split (by simp) (fun _ _ _ => le_rfl) fun r hr hpath => ?_
    have hpath : r.path = rule.path := by simpa using hpath
    have := hafter r hr (by rw [hpath]; exact hmatch)
    rw [hpath] at this
    exact absurd this (lt_irrefl _)
  rw [lastView, hselect, Option.map_some]

theorem patternWeight_le_of_matches {pattern : String} (h : patternMatchesPath pattern path = true) :
    patternWeight pattern ≤ Text.byteLength path.toList := by
  obtain ⟨rest, hrest⟩ := base_prefix_of_matches h
  have := congrArg Text.byteLength hrest
  rw [Text.byteLength_append] at this
  rw [patternWeight]
  omega

theorem matches_base (pattern : String) :
    patternMatchesPath pattern (patternBasePath pattern) = true :=
  patternMatchesPath_iff.mpr (.inl rfl)

theorem matches_of_decidingRule (h : decidingRule rules path = some rule) :
    patternMatchesPath rule.path path = true := by
  have happlies := LastMax.applies_of_select h
  exact happlies

theorem weight_le_of_decidingRule (h : decidingRule rules path = some rule) (hmem : rule' ∈ rules)
    (hmatch : patternMatchesPath rule'.path path = true) :
    patternWeight rule'.path ≤ patternWeight rule.path := by
  have hle := LastMax.weight_le_of_select h hmem hmatch
  exact hle

/-- A rule on the path itself, if there is one, decides its label. -/
theorem base_eq_of_decidingRule (h : decidingRule rules path = some rule) (hmem : rule' ∈ rules)
    (hbase : patternBasePath rule'.path = path) : patternBasePath rule.path = path := by
  have hmatch' : patternMatchesPath rule'.path path = true := hbase ▸ matches_base rule'.path
  have hmatch := matches_of_decidingRule h
  have hle := weight_le_of_decidingRule h hmem hmatch'
  have hge := patternWeight_le_of_matches hmatch
  have heq := base_eq_of_weight_eq hmatch hmatch' (by
    refine le_antisymm ?_ hle
    rw [← hbase] at hge
    exact hge)
  rw [heq, hbase]

theorem exists_decidingRule (hmem : rule ∈ rules) (hmatch : patternMatchesPath rule.path path = true) :
    ∃ rule', decidingRule rules path = some rule' := by
  by_contra hnone
  have := LastMax.select_eq_none_iff.mp
    (Option.eq_none_iff_forall_ne_some.mpr fun r hr => hnone ⟨r, hr⟩) rule hmem
  rw [hmatch] at this
  cases this

/-- Only the rules that match matter. -/
theorem ruleView_congr {path' : String}
    (h : rules.filter (fun rule => patternMatchesPath rule.path path) =
      rules'.filter fun rule => patternMatchesPath rule.path path') :
    ruleView default rules path = ruleView default rules' path' := by
  rw [ruleView, ruleView, decidingRule, LastMax.select_congr h]
  rfl

/-- A rule at the end decides where it matches and nothing that matches is heavier. -/
theorem decidingRule_append_of_le (hmatch : patternMatchesPath rule.path path = true)
    (hle : ∀ other ∈ rules, patternMatchesPath other.path path = true →
      patternWeight other.path ≤ patternWeight rule.path) :
    decidingRule (rules ++ [rule]) path = some rule :=
  LastMax.select_eq_some_of_split hmatch hle (by simp)

/-- The only rule on the path itself decides its label. -/
theorem decidingRule_of_base (hmem : rule ∈ rules) (hbase : patternBasePath rule.path = path)
    (honly : ∀ r ∈ rules, patternBasePath r.path = path → r = rule) :
    decidingRule rules path = some rule := by
  obtain ⟨rule', hrule'⟩ := exists_decidingRule hmem (hbase ▸ matches_base rule.path)
  rw [hrule', honly rule' (LastMax.mem_of_select hrule') (base_eq_of_decidingRule hrule' hmem hbase)]

theorem path_eq_or_of_base {pattern base : String} (h : patternBasePath pattern = base) :
    (folderBase? pattern = none ∧ pattern = base) ∨ pattern = folderRulePath base := by
  cases hfolder : folderBase? pattern with
  | none =>
    rw [patternBasePath, hfolder, Option.getD_none] at h
    exact .inl ⟨rfl, h⟩
  | some base' =>
    rw [patternBasePath, hfolder, Option.getD_some] at h
    rw [← h]
    exact .inr (folderBase?_eq_some.mp hfolder)

theorem eq_of_matches_exact {pattern : String} (hnone : folderBase? pattern = none)
    (h : patternMatchesPath pattern path = true) : path = pattern := by
  rw [patternMatchesPath_iff, patternBasePath, hnone] at h
  simpa using h

/-- A path with a rule of its own and a folder rule of another view, which is the one choice that
the order of the rules makes. -/
def Torn (rules : List RepoConfigFileRule) (path : String) (exact' folder : ViewId) : Prop :=
  exact' ≠ folder ∧ folderBase? path = none ∧ lastView rules path = some exact' ∧
    lastView rules (folderRulePath path) = some folder

/-- A list with the same last rules has nothing heavier to match. -/
theorem exists_heavier (h : ∀ pattern, lastView rules pattern = lastView rules' pattern)
    (hrule : decidingRule rules path = some rule) :
    ∃ rule', decidingRule rules' path = some rule' ∧
      patternWeight rule.path ≤ patternWeight rule'.path := by
  have hmatch := matches_of_decidingRule hrule
  have hmem := exists_of_lastView ((h rule.path).symm.trans (lastView_of_decidingRule hrule))
  obtain ⟨rule', hrule'⟩ := exists_decidingRule hmem hmatch
  exact ⟨rule', hrule', weight_le_of_decidingRule hrule' hmem hmatch⟩

/-- Lists with the same last rule of every pattern agree on all labels but those of torn paths. -/
theorem ruleView_eq_or_torn (default : ViewId) (path : String)
    (h : ∀ pattern, lastView rules pattern = lastView rules' pattern) :
    ruleView default rules path = ruleView default rules' path ∨
      ∃ exact' folder, Torn rules path exact' folder := by
  rw [ruleView, ruleView]
  cases hrule : decidingRule rules path with
  | none =>
    cases hrule' : decidingRule rules' path with
    | none => exact .inl rfl
    | some rule' =>
      obtain ⟨rule, hsome, -⟩ := exists_heavier (fun pattern => (h pattern).symm) hrule'
      rw [hrule] at hsome
      cases hsome
  | some rule =>
    obtain ⟨rule', hrule', hle⟩ := exists_heavier h hrule
    obtain ⟨rule'', hrule'', hge⟩ := exists_heavier (fun pattern => (h pattern).symm) hrule'
    obtain rfl : rule = rule'' := by
      rw [hrule] at hrule''
      exact Option.some.inj hrule''
    have hmatch := matches_of_decidingRule hrule
    have hmatch' := matches_of_decidingRule hrule'
    have hlast := lastView_of_decidingRule hrule
    have hlast' := (h rule'.path).trans (lastView_of_decidingRule hrule')
    rw [hrule']
    simp only [Option.elim_some]
    by_cases hview : rule.view = rule'.view
    · exact .inl hview
    right
    generalize hbase : patternBasePath rule.path = base
    have hbase' : patternBasePath rule'.path = base :=
      (base_eq_of_weight_eq hmatch' hmatch (le_antisymm hge hle)).trans hbase
    -- two patterns of one base: one is the path itself, the other its folder
    rcases path_eq_or_of_base hbase with ⟨hnone, heq⟩ | heq
    · rcases path_eq_or_of_base hbase' with ⟨-, heq'⟩ | heq'
      · rw [heq'] at hlast'
        rw [heq, hlast', Option.some.injEq] at hlast
        exact absurd hlast.symm hview
      · rw [← heq] at heq'
        rw [eq_of_matches_exact hnone hmatch]
        exact ⟨_, _, hview, hnone, hlast, heq' ▸ hlast'⟩
    · rcases path_eq_or_of_base hbase' with ⟨hnone, heq'⟩ | heq'
      · rw [← heq'] at heq
        rw [eq_of_matches_exact hnone hmatch']
        exact ⟨_, _, Ne.symm hview, hnone, hlast', heq ▸ hlast⟩
      · rw [heq'] at hlast'
        rw [heq, hlast', Option.some.injEq] at hlast
        exact absurd hlast.symm hview

/-- The label of a torn path is the view of one of its two rules. -/
theorem ruleView_of_torn (default : ViewId) {exact' folder : ViewId}
    (h : Torn rules path exact' folder) :
    ruleView default rules path = exact' ∨ ruleView default rules path = folder := by
  obtain ⟨-, hnone, hexact, hfolder⟩ := h
  have hbase : patternBasePath path = path := by rw [patternBasePath, hnone, Option.getD_none]
  have hmem := exists_of_lastView hexact
  obtain ⟨rule, hrule⟩ := @exists_decidingRule rules _ path hmem (by
    have := matches_base path
    rwa [hbase] at this)
  have hlast := lastView_of_decidingRule hrule
  rw [ruleView, hrule, Option.elim_some]
  rcases path_eq_or_of_base (base_eq_of_decidingRule hrule hmem hbase) with ⟨-, heq⟩ | heq
  · rw [heq, hexact, Option.some.injEq] at hlast
    exact .inl hlast.symm
  · rw [heq, hfolder, Option.some.injEq] at hlast
    exact .inr hlast.symm

end

end ScopeVcs

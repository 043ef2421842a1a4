import ScopeVcs.Visibility.Labels

/-! # Canonical rules

`canonicalizeVisibilityRules` assigns every path the view it had. Its steps change nothing but the
order of the two rules of a torn path, which the sort in the end puts right by the views recorded at
the start.
-/

namespace ScopeVcs

open Mutation

/-! ## Valid rules -/

/-- A path as validation accepts it: `ScopePath::parse` leaves it as it is. -/
def IsConfigPath (path : String) : Prop := ∃ parsed, ScopePath.parse path = .ok parsed ∧ parsed.asStr = path

structure ValidRule (rule : RepoConfigFileRule) : Prop where
  base : IsConfigPath (patternBasePath rule.path)
  unreserved : isRepoControlPattern rule.path = false

theorem isConfigPath_of_validateConfigPath {path : String} {parsed : ScopePath}
    (h : validateConfigPath path = .ok parsed) : IsConfigPath path := by
  rw [validateConfigPath] at h
  split at h
  · cases h
  · cases h
  · rename_i found hfound
    split at h
    · cases h
    · rename_i hsame
      exact ⟨found, hfound, by_contra fun hne => hsame (.inl hne)⟩

theorem isConfigPath_base_of_validate {pattern : String}
    (h : validateConfigPattern pattern = .ok ()) : IsConfigPath (patternBasePath pattern) := by
  rw [validateConfigPattern] at h
  rw [patternBasePath]
  cases hfolder : folderBase? pattern with
  | none =>
    rw [hfolder] at h
    obtain ⟨parsed, hparsed, -⟩ := except_map_eq_ok.mp h
    exact isConfigPath_of_validateConfigPath hparsed
  | some base =>
    rw [hfolder] at h
    obtain ⟨parsed, hparsed, -⟩ := except_map_eq_ok.mp h
    exact isConfigPath_of_validateConfigPath hparsed

theorem RepoConfig.validRule_of_validate {config : RepoConfig} (h : config.validate = .ok ()) :
    ∀ rule ∈ config.files.rules, ValidRule rule := by
  obtain ⟨-, h⟩ := except_unit_bind_eq_ok.mp h
  obtain ⟨-, h⟩ := except_unit_bind_eq_ok.mp h
  obtain ⟨-, h⟩ := except_unit_bind_eq_ok.mp h
  obtain ⟨hrules, -⟩ := except_unit_bind_eq_ok.mp h
  intro rule hrule
  obtain ⟨-, hpattern⟩ := except_unit_bind_eq_ok.mp (except_forM_eq_ok hrules rule hrule)
  obtain ⟨hpattern, hreserved⟩ := except_unit_bind_eq_ok.mp hpattern
  exact ⟨isConfigPath_base_of_validate hpattern, by simpa using rejectIf_eq_ok.mp hreserved⟩

theorem isRepoControlPattern_eq {pattern : String} {path : ScopePath}
    (h : path.asStr = patternBasePath pattern) :
    isRepoControlPattern pattern = isRepoControlPath path := by
  rw [isRepoControlPattern, isRepoControlPath, h, patternBasePath, folderBase?, Text.startsWith,
    Bool.eq_iff_iff]
  cases Text.stripSuffix? "/**".toList pattern.toList with
  | none => simp [← String.toList_inj]
  | some base => simp [← String.toList_inj]

theorem isRepoControlPath_of_base {rule : RepoConfigFileRule} (h : ValidRule rule) {path : ScopePath}
    (hpath : path.asStr = patternBasePath rule.path) : isRepoControlPath path = false :=
  (isRepoControlPattern_eq hpath).symm.trans h.unreserved

namespace RepoConfig

variable {config : RepoConfig}

@[simp]
theorem withRules_rules (config : RepoConfig) (rules : List RepoConfigFileRule) :
    (config.withRules rules).files.rules = rules := rfl

@[simp]
theorem withRules_default (config : RepoConfig) (rules : List RepoConfigFileRule) :
    (config.withRules rules).files.default = config.files.default := rfl

@[simp]
theorem withRules_views (config : RepoConfig) (rules : List RepoConfigFileRule) :
    (config.withRules rules).views = config.views := rfl

@[simp]
theorem withRules_withRules (config : RepoConfig) (rules rules' : List RepoConfigFileRule) :
    (config.withRules rules).withRules rules' = config.withRules rules' := rfl

theorem effectiveConfigLabelForPath_base {rule : RepoConfigFileRule} (h : ValidRule rule) :
    config.effectiveConfigLabelForPath (patternBasePath rule.path) =
      ruleView config.files.default config.files.rules (patternBasePath rule.path) := by
  obtain ⟨parsed, hparsed, hsame⟩ := h.base
  rw [effectiveConfigLabelForPath, hparsed]
  simp only
  rw [labelForPath_eq config parsed (isRepoControlPath_of_base h hsame), hsame]

/-! ## Redundant rules -/

theorem ruleIsRedundant_eq_true {index : ℕ} {rule : RepoConfigFileRule} (hvalid : ValidRule rule)
    (h : config.ruleIsRedundant index rule = true) :
    ruleView config.files.default (config.files.rules.eraseIdx index) (patternBasePath rule.path) =
      rule.view := by
  obtain ⟨parsed, hparsed, hsame⟩ := hvalid.base
  rw [ruleIsRedundant] at h
  simp only [hparsed] at h
  rw [labelForPathSkippingRule_eq config parsed (isRepoControlPath_of_base hvalid hsame),
    Option.elim_some, hsame] at h
  by_contra hne
  rw [if_pos hne] at h
  cases h

theorem ruleIsRedundant_of_exact {index : ℕ} {rule : RepoConfigFileRule} (hvalid : ValidRule rule)
    (hexact : folderBase? rule.path = none)
    (h : ruleView config.files.default (config.files.rules.eraseIdx index)
      (patternBasePath rule.path) = rule.view) : config.ruleIsRedundant index rule = true := by
  obtain ⟨parsed, hparsed, hsame⟩ := hvalid.base
  rw [ruleIsRedundant]
  simp only [hparsed]
  rw [labelForPathSkippingRule_eq config parsed (isRepoControlPath_of_base hvalid hsame),
    Option.elim_some, hsame, if_neg (not_not.mpr h), hexact]
  rfl

theorem redundantRuleIndex_eq_some {index : ℕ} (h : config.redundantRuleIndex = some index) :
    (∃ rule, config.files.rules[index]? = some rule ∧ config.ruleIsRedundant index rule = true) ∧
      ∀ j < index, ∀ rule, config.files.rules[j]? = some rule →
        config.ruleIsRedundant j rule = false := by
  rw [redundantRuleIndex, List.find?_range_eq_some] at h
  obtain ⟨hfound, -, hfirst⟩ := h
  refine ⟨Option.any_eq_true _ _ |>.mp hfound, fun j hj rule hrule => ?_⟩
  have := hfirst j hj
  simpa [hrule] using this

theorem length_eraseIdx_of_redundant {index : ℕ} (h : config.redundantRuleIndex = some index) :
    (config.files.rules.eraseIdx index).length + 1 = config.files.rules.length := by
  obtain ⟨⟨rule, hrule, -⟩, -⟩ := redundantRuleIndex_eq_some h
  have hlt := (List.getElem?_eq_some_iff.mp hrule).1
  rw [List.length_eraseIdx_of_lt hlt]
  omega

/-- The loop ends: with as many rounds as there are rules it stops at a list without redundant
rules. -/
theorem redundantRuleIndex_removeRedundantRules {rounds : ℕ}
    (h : config.files.rules.length ≤ rounds) :
    (removeRedundantRules rounds config).redundantRuleIndex = none := by
  induction rounds generalizing config with
  | zero =>
    rw [removeRedundantRules, redundantRuleIndex, Nat.le_zero.mp h]
    rfl
  | succ rounds ih =>
    rw [removeRedundantRules]
    cases hindex : config.redundantRuleIndex with
    | none => exact hindex
    | some index =>
      have hlength := length_eraseIdx_of_redundant hindex
      apply ih
      rw [withRules_rules]
      omega

theorem removeRedundantRules_of_none (rounds : ℕ) (h : config.redundantRuleIndex = none) :
    removeRedundantRules rounds config = config := by
  cases rounds with
  | zero => rfl
  | succ rounds => rw [removeRedundantRules, h]

end RepoConfig

/-! ## Sorted rules -/

theorem lt_folderRulePath (base : String) : base < folderRulePath base := by
  rw [String.lt_iff_toList_lt, folderRulePath, String.toList_append]
  generalize base.toList = chars
  induction chars with
  | nil => exact List.Lex.nil
  | cons c chars ih => exact List.Lex.cons ih

/-- Valid rules in the order of their patterns, which do not repeat. -/
structure SortedRules (rules : List RepoConfigFileRule) : Prop where
  sorted : rules.Pairwise fun a b => a.path < b.path
  valid : ∀ rule ∈ rules, ValidRule rule

namespace SortedRules

variable {rules rules' : List RepoConfigFileRule} {rule other : RepoConfigFileRule} {path : String}
  {default : ViewId}

theorem sublist (h : SortedRules rules) (hsub : rules'.Sublist rules) : SortedRules rules' where
  sorted := h.sorted.sublist hsub
  valid rule hrule := h.valid rule (hsub.subset hrule)

theorem nodup (h : SortedRules rules) : (rules.map (·.path)).Nodup := by
  rw [List.Nodup, List.pairwise_map]
  exact h.sorted.imp fun hlt => hlt.ne

theorem lt_iff (h : SortedRules rules) {i j : ℕ} (hi : rules[i]? = some rule)
    (hj : rules[j]? = some other) : i < j ↔ rule.path < other.path := by
  obtain ⟨hi', rfl⟩ := List.getElem?_eq_some_iff.mp hi
  obtain ⟨hj', rfl⟩ := List.getElem?_eq_some_iff.mp hj
  have hordered := List.pairwise_iff_getElem.mp h.sorted
  constructor
  · exact hordered i j hi' hj'
  · intro hlt
    rcases lt_trichotomy i j with hij | rfl | hij
    · exact hij
    · exact absurd hlt (lt_irrefl _)
    · exact absurd hlt (hordered j i hj' hi' hij).asymm

theorem index_eq (h : SortedRules rules) {i j : ℕ} (hi : rules[i]? = some rule)
    (hj : rules[j]? = some other) (hpath : rule.path = other.path) : i = j := by
  have hlt := h.lt_iff hi hj
  have hgt := h.lt_iff hj hi
  rw [hpath] at hlt hgt
  simp only [lt_irrefl, iff_false] at hlt hgt
  omega

/-- Once the rule at an index is removed, the other rule of its base decides there. -/
theorem decidingRule_eraseIdx (h : SortedRules rules) {i j : ℕ} (hi : rules[i]? = some rule)
    (hj : rules[j]? = some other) (hne : i ≠ j)
    (hbase : patternBasePath other.path = patternBasePath rule.path) :
    decidingRule (rules.eraseIdx i) (patternBasePath rule.path) = some other := by
  refine decidingRule_of_base (List.mem_eraseIdx_iff_getElem?.mpr ⟨j, hne.symm, hj⟩) hbase ?_
  intro r hr hrbase
  obtain ⟨k, hk, hkr⟩ := List.mem_eraseIdx_iff_getElem?.mp hr
  -- a base has two patterns, and that of the removed rule is gone
  have hpath : r.path = other.path := by
    have hrule : r.path ≠ rule.path := fun heq => hk (h.index_eq hkr hi heq)
    have hother : other.path ≠ rule.path := fun heq => hne (h.index_eq hj hi heq).symm
    rcases path_eq_or_of_base hrbase with ⟨-, hr⟩ | hr
    · rcases path_eq_or_of_base hbase with ⟨-, ho⟩ | ho
      · rw [hr, ho]
      · rcases path_eq_or_of_base (rfl : patternBasePath rule.path = _) with ⟨-, hu⟩ | hu
        · exact absurd (hr.trans hu.symm) hrule
        · exact absurd (ho.trans hu.symm) hother
    · rcases path_eq_or_of_base hbase with ⟨-, ho⟩ | ho
      · rcases path_eq_or_of_base (rfl : patternBasePath rule.path = _) with ⟨-, hu⟩ | hu
        · exact absurd (ho.trans hu.symm) hother
        · exact absurd (hr.trans hu.symm) hrule
      · rw [hr, ho]
  exact List.inj_on_of_nodup_map h.nodup (List.mem_of_getElem? hkr) (List.mem_of_getElem? hj) hpath

/-- Of a torn path's rules the folder rule is the later one in the order of the patterns. -/
theorem ruleView_of_torn (h : SortedRules rules) {exact' folder : ViewId}
    (htorn : Torn rules path exact' folder) : ruleView default rules path = folder := by
  obtain ⟨hne, hnone, hexact, hfolder⟩ := htorn
  have hbase : patternBasePath path = path := by rw [patternBasePath, hnone, Option.getD_none]
  have hmem := exists_of_lastView hexact
  have hmatch : patternMatchesPath path path = true := by
    have := matches_base path
    rwa [hbase] at this
  obtain ⟨rule, hrule⟩ := @exists_decidingRule rules _ path hmem hmatch
  rw [ruleView, hrule, Option.elim_some]
  have hlast := lastView_of_decidingRule hrule
  rcases path_eq_or_of_base (base_eq_of_decidingRule hrule hmem hbase) with ⟨-, heq⟩ | heq
  · exfalso
    obtain ⟨before, after, hsplit, -, -, hafter⟩ := LastMax.exists_of_select_eq_some hrule
    have hfolderMem := exists_of_lastView hfolder
    have hsorted := h.sorted
    rw [hsplit] at hfolderMem hsorted
    have hlt := lt_folderRulePath path
    rcases List.mem_append.mp hfolderMem with hbefore | hcons
    · have := (List.pairwise_append.mp hsorted).2.2 _ hbefore rule List.mem_cons_self
      rw [heq] at this
      exact hlt.asymm this
    · rcases List.mem_cons.mp hcons with hsame | hmemAfter
      · rw [← hsame] at heq
        exact hlt.ne' heq
      · have := hafter _ hmemAfter (by
          rw [patternMatchesPath_iff, folderRulePath, patternBasePath_append]
          exact .inl rfl)
        rw [heq, patternWeight, patternWeight, folderRulePath, patternBasePath_append, hbase] at this
        exact lt_irrefl _ this
  · rw [heq, hfolder, Option.some.injEq] at hlast
    exact hlast.symm

end SortedRules

namespace RepoConfig

variable {config : RepoConfig}

/-- A redundant folder rule has no exact rule beside it: that one would be redundant before it. -/
theorem base_ne_of_redundant (h : SortedRules config.files.rules) {index : ℕ}
    (hindex : config.redundantRuleIndex = some index) {rule other : RepoConfigFileRule}
    (hrule : config.files.rules[index]? = some rule) {base : String}
    (hfolder : rule.path = folderRulePath base)
    (hother : other ∈ config.files.rules.eraseIdx index) : patternBasePath other.path ≠ base := by
  intro hbase
  obtain ⟨⟨rule', hrule', hredundant⟩, hfirst⟩ := redundantRuleIndex_eq_some hindex
  obtain rfl : rule = rule' := Option.some.inj (hrule.symm.trans hrule')
  obtain ⟨j, hj, hjother⟩ := List.mem_eraseIdx_iff_getElem?.mp hother
  have hrulebase : patternBasePath rule.path = base := by
    rw [hfolder, folderRulePath, patternBasePath_append]
  have hvalid := h.valid rule (List.mem_of_getElem? hrule)
  have hvalid' := h.valid other (List.mem_of_getElem? hjother)
  rcases path_eq_or_of_base hbase with ⟨hexact, hpath⟩ | hpath
  · have hlt : j < index := by
      rw [h.lt_iff hjother hrule, hfolder, hpath]
      exact lt_folderRulePath base
    have hview := ruleIsRedundant_eq_true hvalid hredundant
    rw [ruleView, h.decidingRule_eraseIdx hrule hjother hj.symm (hbase.trans hrulebase.symm),
      Option.elim_some] at hview
    have hearlier : config.ruleIsRedundant j other = true := by
      apply ruleIsRedundant_of_exact hvalid' hexact
      rw [ruleView, h.decidingRule_eraseIdx hjother hrule hj (hrulebase.trans hbase.symm),
        Option.elim_some, hview]
    rw [hfirst j hlt other hjother] at hearlier
    cases hearlier
  · exact hj (h.index_eq hjother hrule (hpath.trans hfolder.symm))

/-- Removing the first redundant rule changes no label. -/
theorem ruleView_eraseIdx (h : SortedRules config.files.rules) {index : ℕ}
    (hindex : config.redundantRuleIndex = some index) (path : String) :
    ruleView config.files.default (config.files.rules.eraseIdx index) path =
      ruleView config.files.default config.files.rules path := by
  obtain ⟨⟨rule, hrule, hredundant⟩, -⟩ := redundantRuleIndex_eq_some hindex
  have hview := ruleIsRedundant_eq_true (h.valid rule (List.mem_of_getElem? hrule)) hredundant
  rw [ruleView, ruleView]
  cases hselected : decidingRule config.files.rules path with
  | none => rw [decidingRule, LastMax.select_eraseIdx_of_none hselected]
  | some selected =>
    by_cases hsame : config.files.rules[index]? = some selected
    · obtain rfl : rule = selected := Option.some.inj (hrule.symm.trans hsame)
      rw [Option.elim_some, ← hview, ← ruleView]
      have hmatch := matches_of_decidingRule hselected
      rcases path_eq_or_of_base (rfl : patternBasePath rule.path = _) with ⟨hexact, -⟩ | hfolder
      · rw [eq_of_matches_exact hexact hmatch, patternBasePath, hexact, Option.getD_none]
      · -- without the folder rule the path and the folder have the same rules
        refine ruleView_congr (List.filter_congr fun other hother => ?_)
        have hne := base_ne_of_redundant h hindex hrule hfolder hother
        have hmem : other ∈ config.files.rules := List.mem_of_mem_eraseIdx hother
        rw [Bool.eq_iff_iff]
        constructor
        · intro hother
          refine (matches_base_iff hmatch (lt_of_le_of_ne ?_ ?_)).mp hother
          · exact weight_le_of_decidingRule hselected hmem hother
          · exact fun heq => hne (base_eq_of_weight_eq hother hmatch heq)
        · intro hother
          refine (matches_base_iff hmatch (lt_of_le_of_ne ?_ ?_)).mpr hother
          · exact patternWeight_le_of_matches hother
          · exact fun heq => hne (base_eq_of_weight_eq hother (matches_base _) heq)
    · rw [decidingRule, LastMax.select_remove_of_ne hselected hsame]

/-- Neither rule of a torn path is redundant. -/
theorem torn_eraseIdx (h : SortedRules config.files.rules) {index : ℕ}
    (hindex : config.redundantRuleIndex = some index) {path : String} {exact' folder : ViewId}
    (htorn : Torn config.files.rules path exact' folder) :
    Torn (config.files.rules.eraseIdx index) path exact' folder := by
  obtain ⟨⟨rule, hrule, hredundant⟩, -⟩ := redundantRuleIndex_eq_some hindex
  have hview := ruleIsRedundant_eq_true (h.valid rule (List.mem_of_getElem? hrule)) hredundant
  obtain ⟨hne, hnone, hexact, hfolder⟩ := htorn
  have hbase : patternBasePath path = path := by rw [patternBasePath, hnone, Option.getD_none]
  have hbase' : patternBasePath (folderRulePath path) = path := patternBasePath_append path
  obtain ⟨i, hi⟩ := List.mem_iff_getElem?.mp (exists_of_lastView hexact)
  obtain ⟨j, hj⟩ := List.mem_iff_getElem?.mp (exists_of_lastView hfolder)
  have hij : i ≠ j := by
    rintro rfl
    have := congrArg RepoConfigFileRule.path (Option.some.inj (hi.symm.trans hj))
    exact (lt_folderRulePath path).ne this
  have hindexi : i ≠ index := by
    rintro rfl
    obtain rfl := Option.some.inj (hi.symm.trans hrule)
    rw [ruleView, h.decidingRule_eraseIdx hi hj hij (hbase'.trans hbase.symm), Option.elim_some]
      at hview
    exact hne hview.symm
  have hindexj : j ≠ index := by
    rintro rfl
    obtain rfl := Option.some.inj (hj.symm.trans hrule)
    rw [ruleView, h.decidingRule_eraseIdx hj hi hij.symm (hbase.trans hbase'.symm),
      Option.elim_some] at hview
    exact hne hview
  have hsub := h.sublist (List.eraseIdx_sublist config.files.rules index)
  refine ⟨hne, hnone, (lastView_eq_some_iff hsub.nodup).mpr ?_,
    (lastView_eq_some_iff hsub.nodup).mpr ?_⟩
  · exact List.mem_eraseIdx_iff_getElem?.mpr ⟨i, hindexi, hi⟩
  · exact List.mem_eraseIdx_iff_getElem?.mpr ⟨j, hindexj, hj⟩

/-- What the loop leaves of the rules: all labels, and the rules of torn paths. -/
structure Reduced (config reduced : RepoConfig) : Prop where
  rest : reduced = config.withRules reduced.files.rules
  sublist : reduced.files.rules.Sublist config.files.rules
  view : ∀ path, ruleView config.files.default reduced.files.rules path =
    ruleView config.files.default config.files.rules path
  torn : ∀ path exact' folder, Torn config.files.rules path exact' folder →
    Torn reduced.files.rules path exact' folder

theorem reduced_removeRedundantRules (rounds : ℕ) (h : SortedRules config.files.rules) :
    Reduced config (removeRedundantRules rounds config) := by
  have hself : Reduced config config :=
    ⟨rfl, List.Sublist.refl _, fun _ => rfl, fun _ _ _ htorn => htorn⟩
  induction rounds generalizing config with
  | zero => exact hself
  | succ rounds ih =>
    rw [removeRedundantRules]
    cases hindex : config.redundantRuleIndex with
    | none => exact hself
    | some index =>
      have hsub := List.eraseIdx_sublist config.files.rules index
      have hrest := @ih (config.withRules (config.files.rules.eraseIdx index)) (h.sublist hsub)
        ⟨rfl, List.Sublist.refl _, fun _ => rfl, fun _ _ _ htorn => htorn⟩
      exact
        { rest := hrest.rest
          sublist := hrest.sublist.trans hsub
          view := fun path => (hrest.view path).trans (ruleView_eraseIdx h hindex path)
          torn := fun path exact' folder htorn =>
            hrest.torn path exact' folder (torn_eraseIdx h hindex htorn) }

/-! ## The steps around the loop -/

theorem get?_rulesByPath (rules : List RepoConfigFileRule) (hvalid : ∀ rule ∈ rules, ValidRule rule)
    (pattern : String) : (rulesByPath rules).get? pattern = lastView rules pattern := by
  have hfilter : rules.filter (fun rule => !isRepoControlPattern rule.path) = rules :=
    List.filter_eq_self.mpr fun rule hrule => by rw [(hvalid rule hrule).unreserved]; rfl
  rw [rulesByPath, hfilter]
  clear hvalid hfilter
  induction rules using List.reverseRecOn with
  | nil => rfl
  | append_singleton rules rule ih =>
    rw [List.foldl_append, List.foldl_cons, List.foldl_nil, SortedMap.get?_insert, ih,
      lastView_append_singleton]
    simp only [eq_comm]

/-- The rules by their paths, as a list. -/
def deduplicated (rules : List RepoConfigFileRule) : List RepoConfigFileRule :=
  (rulesByPath rules).entries.map fun (path, view) => ⟨path, view⟩

theorem mem_deduplicated {rules : List RepoConfigFileRule} (hvalid : ∀ rule ∈ rules, ValidRule rule)
    {pattern : String} {view : ViewId} :
    ⟨pattern, view⟩ ∈ deduplicated rules ↔ lastView rules pattern = some view := by
  rw [← get?_rulesByPath rules hvalid, ← SortedMap.mem_entries_iff, deduplicated, List.mem_map]
  constructor
  · rintro ⟨⟨path, view'⟩, hmem, heq⟩
    rw [RepoConfigFileRule.mk.injEq] at heq
    rwa [← heq.1, ← heq.2]
  · exact fun hmem => ⟨_, hmem, rfl⟩

theorem sortedRules_deduplicated {rules : List RepoConfigFileRule}
    (hvalid : ∀ rule ∈ rules, ValidRule rule) : SortedRules (deduplicated rules) where
  sorted := by
    rw [deduplicated, List.pairwise_map]
    exact (rulesByPath rules).sorted
  valid rule hrule := hvalid rule (exists_of_lastView ((mem_deduplicated hvalid).mp hrule))

theorem lastView_deduplicated {rules : List RepoConfigFileRule}
    (hvalid : ∀ rule ∈ rules, ValidRule rule) (pattern : String) :
    lastView (deduplicated rules) pattern = lastView rules pattern := by
  apply Option.ext
  intro view
  rw [lastView_eq_some_iff (sortedRules_deduplicated hvalid).nodup, mem_deduplicated hvalid]

theorem get?_ofList_function {f : String → ViewId} {keys : List String} {key : String} :
    (SortedMap.ofList (keys.map fun key => (key, f key))).get? key =
      if key ∈ keys then some (f key) else none := by
  rw [SortedMap.ofList]
  induction keys using List.reverseRecOn with
  | nil => rfl
  | append_singleton keys last ih =>
    rw [List.map_append, List.map_singleton, List.foldl_append, List.foldl_cons, List.foldl_nil,
      SortedMap.get?_insert, ih]
    by_cases hlast : key = last
    · simp [hlast]
    · simp [hlast]

/-- The recorded views are those of the bases of the rules. -/
theorem get?_effectiveVisibilitiesByRuleBase
    (hvalid : ∀ rule ∈ config.files.rules, ValidRule rule) {base : String} {view : ViewId} :
    config.effectiveVisibilitiesByRuleBase.get? base = some view ↔
      (∃ rule ∈ config.files.rules, patternBasePath rule.path = base) ∧
        view = ruleView config.files.default config.files.rules base := by
  have hmap : config.files.rules.map (fun rule => (patternBasePath rule.path,
      config.effectiveConfigLabelForPath (patternBasePath rule.path))) =
      (config.files.rules.map fun rule => patternBasePath rule.path).map fun base =>
        (base, ruleView config.files.default config.files.rules base) := by
    rw [List.map_map]
    exact List.map_congr_left fun rule hrule => by
      rw [effectiveConfigLabelForPath_base (hvalid rule hrule)]
      rfl
  rw [effectiveVisibilitiesByRuleBase, hmap, get?_ofList_function]
  by_cases hbase : base ∈ config.files.rules.map fun rule => patternBasePath rule.path
  · rw [if_pos hbase, Option.some.injEq]
    rw [List.mem_map] at hbase
    exact ⟨fun h => ⟨hbase, h.symm⟩, fun h => h.2.symm⟩
  · rw [if_neg hbase]
    rw [List.mem_map] at hbase
    simp only [reduceCtorEq, false_iff, not_and]
    exact fun h => absurd h hbase

/-- Setting a view that a path's own rule has already only moves that rule to the end. -/
theorem perm_upsert {rules : List RepoConfigFileRule} (hnodup : (rules.map (·.path)).Nodup)
    {path : String} {view : ViewId} (hmem : ⟨path, view⟩ ∈ rules) :
    (rules.filter (fun rule => decide (rule.path ≠ path)) ++
      [(⟨path, view⟩ : RepoConfigFileRule)]).Perm rules := by
  have hrules : rules.Nodup := hnodup.of_map _
  rw [List.perm_ext_iff_of_nodup]
  · intro rule
    simp only [List.mem_append, List.mem_filter, List.mem_singleton, decide_eq_true_eq]
    by_cases hpath : rule.path = path
    · have hsame : rule = ⟨path, view⟩ ↔ rule ∈ rules :=
        ⟨fun h => h ▸ hmem, fun h => List.inj_on_of_nodup_map hnodup h hmem hpath⟩
      simp [hpath, hsame]
    · have hne : rule ≠ ⟨path, view⟩ := fun h => hpath (by rw [h])
      simp [hpath, hne]
  · refine List.Nodup.append (hrules.filter _) (List.nodup_singleton _) ?_
    rw [List.disjoint_singleton]
    simp
  · exact hrules

/-- Restoring recorded views moves rules to the end, once every view to restore is that of the
path's own rule. -/
theorem restoreRuleBaseVisibilities_perm (config : RepoConfig) {rules : List RepoConfigFileRule}
    (h : SortedRules rules) {entries : List (String × ViewId)}
    (hkeys : (entries.map Prod.fst).Nodup)
    (hbases : ∀ entry ∈ entries, ∃ rule, ValidRule rule ∧ patternBasePath rule.path = entry.1)
    (hexact : ∀ entry ∈ entries, ruleView config.files.default rules entry.1 ≠ entry.2 →
      folderBase? entry.1 = none ∧ ⟨entry.1, entry.2⟩ ∈ rules)
    {current : List RepoConfigFileRule} (hperm : current.Perm rules)
    (hcurrent : ∀ entry ∈ entries, ruleView config.files.default current entry.1 =
      ruleView config.files.default rules entry.1) :
    ∃ restored, entries.foldl restoreRuleBase (config.withRules current) =
        config.withRules restored ∧ restored.Perm rules := by
  induction entries generalizing current with
  | nil => exact ⟨current, rfl, hperm⟩
  | cons entry entries ih =>
    obtain ⟨base, view⟩ := entry
    obtain ⟨rule, hrule, hbase⟩ := hbases _ List.mem_cons_self
    obtain ⟨hnotMem, hkeys⟩ := List.nodup_cons.mp hkeys
    have hlabel : (config.withRules current).effectiveConfigLabelForPath base =
        ruleView config.files.default rules base := by
      simp only at hbase
      rw [← hbase, effectiveConfigLabelForPath_base hrule, hbase]
      exact hcurrent _ List.mem_cons_self
    have hrest := fun current => @ih hkeys
      (fun entry hentry => hbases entry (List.mem_cons_of_mem _ hentry))
      (fun entry hentry => hexact entry (List.mem_cons_of_mem _ hentry)) current
    rw [List.foldl_cons, restoreRuleBase, hlabel]
    by_cases hview : ruleView config.files.default rules base = view
    · rw [if_neg (not_not.mpr hview)]
      exact hrest current hperm fun entry hentry => hcurrent entry (List.mem_cons_of_mem _ hentry)
    · rw [if_pos hview]
      obtain ⟨hnone, hmem⟩ := hexact _ List.mem_cons_self hview
      have hnodup : (current.map (·.path)).Nodup := (hperm.map _).nodup_iff.mpr h.nodup
      refine hrest _ ((perm_upsert hnodup (hperm.mem_iff.mpr hmem)).trans hperm)
        fun entry hentry => ?_
      rw [← hcurrent entry (List.mem_cons_of_mem _ hentry)]
      -- an exact rule matches no other base
      have hne : entry.1 ≠ base := fun heq => hnotMem (List.mem_map.mpr ⟨entry, hentry, heq⟩)
      have hmatch : patternMatchesPath base entry.1 = false := by
        rw [Bool.eq_false_iff]
        exact fun hmatch => hne (eq_of_matches_exact hnone hmatch)
      refine ruleView_congr ?_
      rw [List.filter_append, List.filter_singleton, hmatch, List.filter_filter, cond_false,
        List.append_nil, withRules_rules]
      refine List.filter_congr fun rule _ => ?_
      by_cases hpath : rule.path = base
      · simp [hpath, hmatch]
      · simp [hpath]

end RepoConfig

/-! ## The final order -/

instance (baseVisibilities : SortedMap String ViewId) : Std.TransCmp (ruleOrder baseVisibilities) :=
  inferInstanceAs (Std.TransCmp (compareLex _ _))

theorem pairwise_mergeSort_ruleOrder (baseVisibilities : SortedMap String ViewId)
    (rules : List RepoConfigFileRule) :
    (rules.mergeSort fun left right => (ruleOrder baseVisibilities left right).isLE).Pairwise
      fun left right => (ruleOrder baseVisibilities left right).isLE = true := by
  apply List.pairwise_mergeSort
  · exact fun a b c => Std.TransCmp.isLE_trans
  · intro a b
    rw [@Std.OrientedCmp.eq_swap _ (ruleOrder baseVisibilities) _ b a]
    cases ruleOrder baseVisibilities a b <;> rfl

theorem path_eq_of_ruleOrder {baseVisibilities : SortedMap String ViewId}
    {left right : RepoConfigFileRule} (hle : (ruleOrder baseVisibilities left right).isLE = true)
    (hge : (ruleOrder baseVisibilities right left).isLE = true) : left.path = right.path := by
  have heq := Std.OrientedCmp.isLE_antisymm hle hge
  simp only [ruleOrder, compareLex_eq_eq, compareOn, Std.LawfulEqCmp.compare_eq_iff_eq] at heq
  exact heq.2.2.2

/-- Of two rules of one base the one with the recorded view comes last. -/
theorem ruleOrder_isLE_of_rank {baseVisibilities : SortedMap String ViewId}
    {left right : RepoConfigFileRule} (hbase : patternBasePath left.path = patternBasePath right.path)
    (hle : (ruleOrder baseVisibilities left right).isLE = true) :
    semanticSortRank left baseVisibilities ≤ semanticSortRank right baseVisibilities := by
  by_contra hlt
  have heq : compare (patternBasePath left.path) (patternBasePath right.path) = .eq := by
    rw [hbase]
    exact Std.ReflCmp.compare_self
  rw [ruleOrder, compareLex, compareOn, heq, Ordering.eq_then, compareLex, compareOn, Nat.compare_eq_gt.mpr (by omega), Ordering.gt_then] at hle
  cases hle

namespace RepoConfig

variable {config : RepoConfig}

/-! ## The canonical list -/

/-- The list between the loop and the restoring. -/
def reducedRules (config : RepoConfig) : List RepoConfigFileRule :=
  (removeRedundantRules (deduplicated config.files.rules).length
    (config.withRules (deduplicated config.files.rules))).files.rules

section

variable (hvalid : ∀ rule ∈ config.files.rules, ValidRule rule)

include hvalid

theorem reduced_reducedRules :
    Reduced (config.withRules (deduplicated config.files.rules))
      (config.withRules (reducedRules config)) := by
  have h := @reduced_removeRedundantRules (config.withRules (deduplicated config.files.rules))
    (deduplicated config.files.rules).length (sortedRules_deduplicated hvalid)
  have hrest := h.rest
  rw [withRules_withRules] at hrest
  rw [hrest] at h
  exact h

theorem sortedRules_reducedRules : SortedRules (reducedRules config) :=
  (sortedRules_deduplicated hvalid).sublist (reduced_reducedRules hvalid).sublist

/-- A path is torn in the reduced rules if and only if it was at first. -/
theorem torn_reducedRules_iff {path : String} {exact' folder : ViewId} :
    Torn (reducedRules config) path exact' folder ↔
      Torn config.files.rules path exact' folder := by
  have hreduced := reduced_reducedRules hvalid
  have hsorted := sortedRules_reducedRules hvalid
  constructor
  · rintro ⟨hne, hnone, hexact, hfolder⟩
    refine ⟨hne, hnone, ?_, ?_⟩
    · rw [← mem_deduplicated hvalid]
      exact hreduced.sublist.subset (exists_of_lastView hexact)
    · rw [← mem_deduplicated hvalid]
      exact hreduced.sublist.subset (exists_of_lastView hfolder)
  · rintro ⟨hne, hnone, hexact, hfolder⟩
    refine hreduced.torn path exact' folder ⟨hne, hnone, ?_, ?_⟩
    · rw [withRules_rules, lastView_deduplicated hvalid, hexact]
    · rw [withRules_rules, lastView_deduplicated hvalid, hfolder]

/-- The reduced rules have all labels but those of torn paths. -/
theorem ruleView_reducedRules (path : String) :
    ruleView config.files.default (reducedRules config) path =
        ruleView config.files.default config.files.rules path ∨
      ∃ exact' folder, Torn config.files.rules path exact' folder := by
  have hreduced := (reduced_reducedRules hvalid).view path
  simp only [withRules_rules, withRules_default] at hreduced
  rw [hreduced]
  rcases ruleView_eq_or_torn config.files.default path (lastView_deduplicated hvalid) with
    heq | ⟨exact', folder, hne, hnone, hexact, hfolder⟩
  · exact .inl heq
  · rw [lastView_deduplicated hvalid] at hexact hfolder
    exact .inr ⟨exact', folder, hne, hnone, hexact, hfolder⟩

theorem removeRedundantRules_deduplicated :
    removeRedundantRules (deduplicated config.files.rules).length
      (config.withRules (deduplicated config.files.rules)) = config.withRules (reducedRules config) :=
  (reduced_removeRedundantRules _ (sortedRules_deduplicated hvalid)).rest

/-- Canonical rules are the reduced rules in the final order. -/
theorem exists_canonicalizeVisibilityRules :
    ∃ restored : List RepoConfigFileRule, restored.Perm (reducedRules config) ∧
      config.canonicalizeVisibilityRules = config.withRules (restored.mergeSort fun left right =>
        (ruleOrder config.effectiveVisibilitiesByRuleBase left right).isLE) := by
  have hsorted := sortedRules_reducedRules hvalid
  have hentries : ∀ entry ∈ config.effectiveVisibilitiesByRuleBase.entries,
      (∃ rule ∈ config.files.rules, patternBasePath rule.path = entry.1) ∧
        entry.2 = ruleView config.files.default config.files.rules entry.1 := fun entry hentry =>
    (get?_effectiveVisibilitiesByRuleBase hvalid).mp (SortedMap.mem_entries_iff.mp hentry)
  obtain ⟨restored, hrestored, hperm⟩ := restoreRuleBaseVisibilities_perm config hsorted
    config.effectiveVisibilitiesByRuleBase.keys_nodup
    (fun entry hentry => by
      obtain ⟨⟨rule, hrule, hbase⟩, -⟩ := hentries entry hentry
      exact ⟨rule, hvalid rule hrule, hbase⟩)
    (fun entry hentry hne => by
      rw [(hentries entry hentry).2] at hne
      obtain ⟨exact', folder, htorn⟩ := (ruleView_reducedRules hvalid entry.1).resolve_left hne
      have htorn' := (torn_reducedRules_iff hvalid).mpr htorn
      rw [hsorted.ruleView_of_torn htorn'] at hne
      have hexact := (ruleView_of_torn config.files.default htorn).resolve_right
        (Ne.symm hne)
      rw [(hentries entry hentry).2, hexact]
      exact ⟨htorn.2.1, exists_of_lastView htorn'.2.2.1⟩)
    (List.Perm.refl _) (fun _ _ => rfl)
  refine ⟨restored, hperm, ?_⟩
  rw [canonicalizeVisibilityRules]
  simp only [withRules_rules]
  rw [← deduplicated, removeRedundantRules_deduplicated hvalid, restoreRuleBaseVisibilities, hrestored]
  rfl

/-- In the final order the two rules of a torn path have the recorded view last. -/
theorem ruleView_sorted_of_torn {rules : List RepoConfigFileRule}
    (hsorted : rules.Pairwise fun left right =>
      (ruleOrder config.effectiveVisibilitiesByRuleBase left right).isLE = true)
    {path : String} {exact' folder : ViewId} (htorn : Torn rules path exact' folder)
    (hconfig : Torn config.files.rules path exact' folder) :
    ruleView config.files.default rules path =
      ruleView config.files.default config.files.rules path := by
  obtain ⟨-, hnone, hexact, hfolder⟩ := htorn
  have hbase : patternBasePath path = path := by rw [patternBasePath, hnone, Option.getD_none]
  have hmem := exists_of_lastView hexact
  have hmatch : patternMatchesPath path path = true := by
    have := matches_base path
    rwa [hbase] at this
  obtain ⟨rule, hrule⟩ := @exists_decidingRule rules _ path hmem hmatch
  have hrulebase := base_eq_of_decidingRule hrule hmem hbase
  rw [ruleView, hrule, Option.elim_some]
  by_contra hne
  -- the rule with the recorded view is there too, and stands before the one that decides
  obtain ⟨other, hother, hotherbase, hview⟩ : ∃ other ∈ rules,
      patternBasePath other.path = path ∧
        other.view = ruleView config.files.default config.files.rules path := by
    rcases ruleView_of_torn config.files.default hconfig with heq | heq
    · exact ⟨_, hmem, hbase, heq.symm⟩
    · exact ⟨_, exists_of_lastView hfolder, patternBasePath_append path, heq.symm⟩
  have hrank : ∀ r : RepoConfigFileRule, patternBasePath r.path = path →
      (semanticSortRank r config.effectiveVisibilitiesByRuleBase =
        if r.view = ruleView config.files.default config.files.rules path then 1 else 0) := by
    intro r hr
    rw [semanticSortRank]
    refine if_congr ?_ rfl rfl
    rw [get?_effectiveVisibilitiesByRuleBase hvalid, hr]
    exact and_iff_right ⟨_, exists_of_lastView hconfig.2.2.1, hbase⟩
  obtain ⟨before, after, hsplit, -, -, hafter⟩ := LastMax.exists_of_select_eq_some hrule
  rw [hsplit] at hother hsorted
  rcases List.mem_append.mp hother with hbefore | hcons
  · have hle := (List.pairwise_append.mp hsorted).2.2 _ hbefore rule List.mem_cons_self
    have := ruleOrder_isLE_of_rank (hotherbase.trans hrulebase.symm) hle
    rw [hrank other hotherbase, hrank rule hrulebase, if_pos hview, if_neg hne] at this
    omega
  · rcases List.mem_cons.mp hcons with rfl | hmemAfter
    · exact hne hview
    · have := hafter other hmemAfter (by
        have := matches_base other.path
        rwa [hotherbase] at this)
      rw [patternWeight, patternWeight, hotherbase, hrulebase] at this
      exact lt_irrefl _ this

/-- Canonical rules assign the views the rules assigned. -/
theorem ruleView_canonicalizeVisibilityRules (path : String) :
    ruleView config.files.default config.canonicalizeVisibilityRules.files.rules path =
      ruleView config.files.default config.files.rules path := by
  obtain ⟨restored, hperm, heq⟩ := exists_canonicalizeVisibilityRules hvalid
  rw [heq, withRules_rules]
  generalize hcanonical : (restored.mergeSort fun left right =>
    (ruleOrder config.effectiveVisibilitiesByRuleBase left right).isLE) = canonical
  have hcanonicalPerm : canonical.Perm (reducedRules config) := by
    rw [← hcanonical]
    exact (List.mergeSort_perm _ _).trans hperm
  have hnodup := (sortedRules_reducedRules hvalid).nodup
  have hlast : ∀ pattern, lastView canonical pattern = lastView (reducedRules config) pattern := by
    intro pattern
    apply Option.ext
    intro view
    rw [lastView_eq_some_iff hnodup, ← hcanonicalPerm.mem_iff,
      lastView_eq_some_iff ((hcanonicalPerm.map _).nodup_iff.mpr hnodup)]
  have hcase : ruleView config.files.default canonical path =
      ruleView config.files.default config.files.rules path ∨
        ∃ exact' folder, Torn config.files.rules path exact' folder := by
    rcases ruleView_eq_or_torn config.files.default path hlast with hsame | ⟨exact', folder, htorn⟩
    · rw [hsame]
      exact ruleView_reducedRules hvalid path
    · refine .inr ⟨exact', folder, (torn_reducedRules_iff hvalid).mp ?_⟩
      rwa [Torn, hlast, hlast] at htorn
  rcases hcase with hsame | ⟨exact', folder, htorn⟩
  · exact hsame
  · refine ruleView_sorted_of_torn hvalid ?_ ?_ htorn
    · rw [← hcanonical]
      exact pairwise_mergeSort_ruleOrder _ _
    · rw [Torn, hlast, hlast]
      exact (torn_reducedRules_iff hvalid).mpr htorn

theorem canonicalizeVisibilityRules_eq_withRules :
    config.canonicalizeVisibilityRules =
      config.withRules config.canonicalizeVisibilityRules.files.rules := by
  obtain ⟨restored, -, heq⟩ := exists_canonicalizeVisibilityRules hvalid
  rw [heq, withRules_rules]

theorem labelForPath_canonicalizeVisibilityRules (path : ScopePath) :
    config.canonicalizeVisibilityRules.labelForPath path = config.labelForPath path := by
  have hrest := canonicalizeVisibilityRules_eq_withRules hvalid
  cases hcontrol : isRepoControlPath path with
  | true =>
    apply labelForPath_of_control _ hcontrol
    rw [hrest, withRules_views]
  | false =>
    rw [labelForPath_eq _ path hcontrol, labelForPath_eq _ path hcontrol,
      ← ruleView_canonicalizeVisibilityRules hvalid]
    congr 1
    rw [hrest, withRules_default]

/-- The rules of a canonical list are the reduced ones. -/
theorem perm_canonicalizeVisibilityRules :
    config.canonicalizeVisibilityRules.files.rules.Perm (reducedRules config) := by
  obtain ⟨restored, hperm, heq⟩ := exists_canonicalizeVisibilityRules hvalid
  rw [heq, withRules_rules]
  exact (List.mergeSort_perm _ _).trans hperm

theorem validRule_canonicalizeVisibilityRules :
    ∀ rule ∈ config.canonicalizeVisibilityRules.files.rules, ValidRule rule := fun rule hrule =>
  (sortedRules_reducedRules hvalid).valid rule
    ((perm_canonicalizeVisibilityRules hvalid).mem_iff.mp hrule)

theorem redundantRuleIndex_reducedRules :
    (config.withRules (reducedRules config)).redundantRuleIndex = none := by
  rw [← removeRedundantRules_deduplicated hvalid]
  exact redundantRuleIndex_removeRedundantRules le_rfl

/-- Every reduced rule is one of the rules, the last one of its pattern. -/
theorem mem_of_mem_reducedRules {rule : RepoConfigFileRule} (h : rule ∈ reducedRules config) :
    rule ∈ config.files.rules :=
  exists_of_lastView ((mem_deduplicated hvalid).mp ((reduced_reducedRules hvalid).sublist.subset h))

end

/-- Lists of valid rules with the same rules, all of different patterns, are put in one order. -/
theorem deduplicated_eq_of_perm {rules rules' : List RepoConfigFileRule} (h : SortedRules rules)
    (hperm : rules'.Perm rules) : deduplicated rules' = rules := by
  have hvalid : ∀ rule ∈ rules', ValidRule rule := fun rule hrule =>
    h.valid rule (hperm.mem_iff.mp hrule)
  have hnodup : (rules'.map (·.path)).Nodup := (hperm.map _).nodup_iff.mpr h.nodup
  have hsorted := sortedRules_deduplicated hvalid
  refine List.Perm.eq_of_pairwise (fun a b _ _ hab hba => absurd hab hba.asymm) hsorted.sorted
    h.sorted ?_
  rw [List.perm_ext_iff_of_nodup hsorted.nodup.of_map h.nodup.of_map]
  rintro ⟨pattern, view⟩
  rw [mem_deduplicated hvalid, lastView_eq_some_iff hnodup, hperm.mem_iff]

section

variable (hvalid : ∀ rule ∈ config.files.rules, ValidRule rule)

include hvalid

/-- There is nothing left to reduce in canonical rules. -/
theorem reducedRules_canonicalizeVisibilityRules :
    reducedRules config.canonicalizeVisibilityRules = reducedRules config := by
  have hdeduplicated := deduplicated_eq_of_perm (sortedRules_reducedRules hvalid)
    (perm_canonicalizeVisibilityRules hvalid)
  rw [reducedRules, hdeduplicated, canonicalizeVisibilityRules_eq_withRules hvalid,
    withRules_withRules,
    removeRedundantRules_of_none _ (redundantRuleIndex_reducedRules hvalid), withRules_rules]

theorem semanticSortRank_canonicalizeVisibilityRules {rule : RepoConfigFileRule}
    (h : rule ∈ reducedRules config) :
    semanticSortRank rule config.canonicalizeVisibilityRules.effectiveVisibilitiesByRuleBase =
      semanticSortRank rule config.effectiveVisibilitiesByRuleBase := by
  have hmem : rule ∈ config.canonicalizeVisibilityRules.files.rules :=
    (perm_canonicalizeVisibilityRules hvalid).mem_iff.mpr h
  have hmem' := mem_of_mem_reducedRules hvalid h
  have hdefault : config.canonicalizeVisibilityRules.files.default = config.files.default := by
    rw [canonicalizeVisibilityRules_eq_withRules hvalid, withRules_default]
  rw [semanticSortRank, semanticSortRank]
  refine if_congr ?_ rfl rfl
  rw [get?_effectiveVisibilitiesByRuleBase hvalid,
    get?_effectiveVisibilitiesByRuleBase (validRule_canonicalizeVisibilityRules hvalid), hdefault,
    ruleView_canonicalizeVisibilityRules hvalid, and_iff_right ⟨rule, hmem, rfl⟩,
    and_iff_right ⟨rule, hmem', rfl⟩]

/-- Canonical rules stay as they are. -/
theorem canonicalizeVisibilityRules_idem :
    config.canonicalizeVisibilityRules.canonicalizeVisibilityRules =
      config.canonicalizeVisibilityRules := by
  obtain ⟨restored, hperm, heq⟩ := exists_canonicalizeVisibilityRules hvalid
  obtain ⟨restored', hperm', heq'⟩ :=
    exists_canonicalizeVisibilityRules (validRule_canonicalizeVisibilityRules hvalid)
  rw [reducedRules_canonicalizeVisibilityRules hvalid] at hperm'
  have hnodup := (sortedRules_reducedRules hvalid).nodup
  have hsame : (restored'.mergeSort fun left right =>
      (ruleOrder config.canonicalizeVisibilityRules.effectiveVisibilitiesByRuleBase left
        right).isLE) =
      restored.mergeSort fun left right =>
        (ruleOrder config.effectiveVisibilitiesByRuleBase left right).isLE := by
    have hmem : ∀ rule, rule ∈ (restored'.mergeSort fun left right =>
        (ruleOrder config.canonicalizeVisibilityRules.effectiveVisibilitiesByRuleBase left
          right).isLE) → rule ∈ reducedRules config := fun rule hrule =>
      hperm'.mem_iff.mp (List.mem_mergeSort.mp hrule)
    refine @List.Perm.eq_of_pairwise _ (fun left right =>
        (ruleOrder config.effectiveVisibilitiesByRuleBase left right).isLE = true) _ _ ?_ ?_
      (pairwise_mergeSort_ruleOrder _ _) ?_
    · intro a b ha hb hab hba
      refine List.inj_on_of_nodup_map hnodup (hmem a ha) ?_ (path_eq_of_ruleOrder hab hba)
      exact hperm.mem_iff.mp (List.mem_mergeSort.mp hb)
    · refine (pairwise_mergeSort_ruleOrder _ restored').imp_of_mem fun ha hb hab => ?_
      rw [ruleOrder, compareLex, compareLex, compareOn, compareOn,
        semanticSortRank_canonicalizeVisibilityRules hvalid (hmem _ ha),
        semanticSortRank_canonicalizeVisibilityRules hvalid (hmem _ hb)] at hab
      exact hab
    · exact ((List.mergeSort_perm _ _).trans hperm').trans
        ((List.mergeSort_perm _ _).trans hperm).symm
  rw [heq', hsame, canonicalizeVisibilityRules_eq_withRules hvalid, withRules_withRules,
    ← heq]
  exact canonicalizeVisibilityRules_eq_withRules hvalid

end

/-- Canonical rules assign every path the view it had, the loop that finds them ends without a
redundant rule in at most as many rounds as there are rules, and canonical rules stay as they are. -/
theorem canonicalizeVisibilityRules_preserves (config : RepoConfig)
    (h : config.validate = .ok ()) :
    (∀ path, config.canonicalizeVisibilityRules.labelForPath path = config.labelForPath path) ∧
      (∀ config' : RepoConfig,
        (removeRedundantRules config'.files.rules.length config').redundantRuleIndex = none) ∧
      config.canonicalizeVisibilityRules.canonicalizeVisibilityRules =
        config.canonicalizeVisibilityRules :=
  ⟨labelForPath_canonicalizeVisibilityRules (validRule_of_validate h),
    fun _ => redundantRuleIndex_removeRedundantRules le_rfl,
    canonicalizeVisibilityRules_idem (validRule_of_validate h)⟩

/-- A public folder whose own path is private. -/
def docsConfig : RepoConfig where
  kind := repoConfigKind
  version := repoConfigVersion
  views := .builtin
  files := ⟨.privateView, [⟨"/docs/**", .publicView⟩, ⟨"/docs", .privateView⟩]⟩
  history := ⟨[]⟩

theorem canonicalizeVisibilityRules_preserves_docs :
    docsConfig.canonicalizeVisibilityRules.labelForPath ⟨"/docs", by decide⟩ = .privateView ∧
      docsConfig.canonicalizeVisibilityRules.labelForPath ⟨"/docs/a", by decide⟩ = .publicView := by
  have h := (canonicalizeVisibilityRules_preserves docsConfig (by decide +kernel)).1
  exact ⟨(h _).trans (by decide +kernel), (h _).trans (by decide +kernel)⟩

end RepoConfig

end ScopeVcs

import ScopeVcs.Visibility.Canonical

/-! # What a toggle changes

A toggle rewrites rules and makes them canonical; the latter changes no label. So its effect is that
of the rules it takes away and of the one it appends, which comes last and decides wherever no longer
pattern matches.
-/

namespace ScopeVcs

/-! ## Subtrees -/

/-- The path is the folder or below it. -/
def IsWithin (folder path : String) : Prop := path = folder ∨ IsBelow folder path

theorem patternIsInsideSubtree_iff {pattern folder : String} :
    patternIsInsideSubtree pattern folder = true ↔ IsWithin folder (patternBasePath pattern) := by
  simp only [patternIsInsideSubtree, Bool.or_eq_true, beq_iff_eq, any_stripPrefix_iff, IsWithin]

theorem matches_folderRulePath_iff {folder path : String} :
    patternMatchesPath (folderRulePath folder) path = true ↔ IsWithin folder path := by
  rw [patternMatchesPath_iff, folderRulePath, patternBasePath_append,
    folderBase?_eq_some.mpr rfl]
  simp only [Option.isSome_some, true_and, IsWithin]

theorem patternWeight_folderRulePath (folder : String) :
    patternWeight (folderRulePath folder) = Text.byteLength folder.toList := by
  rw [patternWeight, folderRulePath, patternBasePath_append]

/-- What a pattern inside a folder matches is inside the folder. -/
theorem isWithin_of_matches {pattern folder path : String}
    (hinside : IsWithin folder (patternBasePath pattern))
    (hmatch : patternMatchesPath pattern path = true) : IsWithin folder path := by
  rcases hinside with hbase | hbelow
  · rw [← hbase]
    exact (patternMatchesPath_iff.mp hmatch).imp_right And.right
  · exact .inr (hbelow.trans (base_prefix_of_matches hmatch))

/-- A pattern that matches a path inside a folder is strictly inside the folder if it is heavier. -/
theorem isBelow_base_of_lt {pattern folder path : String} (hpath : IsWithin folder path)
    (hmatch : patternMatchesPath pattern path = true)
    (hlt : Text.byteLength folder.toList < patternWeight pattern) :
    IsBelow folder (patternBasePath pattern) := by
  rcases hpath with rfl | hbelow
  · exact absurd (patternWeight_le_of_matches hmatch) hlt.not_ge
  · refine Text.prefix_of_byteLength_le hbelow (base_prefix_of_matches hmatch) ?_
    rw [Text.byteLength_append]
    exact hlt

theorem byteLength_lt_of_isBelow {pattern folder : String}
    (h : IsBelow folder (patternBasePath pattern)) :
    Text.byteLength folder.toList < patternWeight pattern := by
  obtain ⟨rest, hrest⟩ := h
  have := congrArg Text.byteLength hrest
  rw [Text.byteLength_append, Text.byteLength_append] at this
  have hslash : Text.byteLength ['/'] = 1 := by decide
  rw [patternWeight]
  omega

/-- A target as the review tree makes them: its path is canonical, and it is reserved if its path is
in the control directory. -/
structure VisibilityTarget.IsNode (target : VisibilityTarget) (path : ScopePath) : Prop where
  parsed : ScopePath.parse target.path = .ok path
  canonical : path.asStr = target.path
  marked : target.reserved = isRepoControlPath path

namespace RepoConfig

variable {config changed : RepoConfig} {target : VisibilityTarget} {path other : ScopePath}

/-! ## One step -/

/-- A toggle assigns the labels of the configuration it makes canonical. -/
theorem labelForPath_toggleVisibilityTarget (hvalid : ∀ rule ∈ config.files.rules, ValidRule rule)
    (hreserved : target.reserved = false) (hchanged : config.toggled target = some changed)
    (hrules : ∀ rule ∈ changed.files.rules, rule ∈ config.files.rules ∨
      patternBasePath rule.path = target.path) (hnode : target.IsNode path) (other : ScopePath) :
    (config.toggleVisibilityTarget target).1.labelForPath other = changed.labelForPath other := by
  rw [toggleVisibilityTarget, hreserved, hchanged]
  refine labelForPath_canonicalizeVisibilityRules (fun rule hrule => ?_) other
  rcases hrules rule hrule with hmem | hbase
  · exact hvalid rule hmem
  · refine ⟨?_, ?_⟩
    · rw [hbase]
      exact ⟨path, hnode.parsed, hnode.canonical⟩
    · rw [isRepoControlPattern_eq (hnode.canonical.trans hbase.symm), ← hnode.marked, hreserved]

/-- Rules that differ only where they do not match assign one label. -/
theorem labelForPath_congr (hviews : changed.views = config.views)
    (hdefault : changed.files.default = config.files.default)
    (hfilter : changed.files.rules.filter (fun rule => patternMatchesPath rule.path other.asStr) =
      config.files.rules.filter fun rule => patternMatchesPath rule.path other.asStr) :
    changed.labelForPath other = config.labelForPath other := by
  cases hcontrol : isRepoControlPath other with
  | true => exact labelForPath_of_control hviews hcontrol
  | false =>
    rw [labelForPath_eq _ other hcontrol, labelForPath_eq _ other hcontrol, hdefault]
    exact ruleView_congr hfilter

/-- The rule at the end decides where it matches and nothing that matches is heavier. -/
theorem labelForPath_append {rules : List RepoConfigFileRule} {rule : RepoConfigFileRule}
    (hcontrol : isRepoControlPath other = false)
    (hmatch : patternMatchesPath rule.path other.asStr = true)
    (hle : ∀ r ∈ rules, patternMatchesPath r.path other.asStr = true →
      patternWeight r.path ≤ patternWeight rule.path) :
    (config.withRules (rules ++ [rule])).labelForPath other = rule.view := by
  rw [labelForPath_eq _ other hcontrol, withRules_rules, ruleView,
    decidingRule_append_of_le hmatch hle, Option.elim_some]

/-! ## Files -/

theorem toggled_file (hkind : target.kind = .file) (hpath : folderBase? target.path = none) :
    config.toggled target = some (config.withRules
      ((config.files.rules.filter fun rule => rule.path ≠ folderRulePath target.path).filter
          (fun rule => decide (rule.path ≠ target.path)) ++
        [⟨target.path, config.nextView (config.effectiveConfigLabelForPath target.path)⟩])) := by
  rw [toggled, hkind, hpath]
  rfl

theorem effectiveConfigLabelForPath_node (config : RepoConfig) (hnode : target.IsNode path) :
    config.effectiveConfigLabelForPath target.path = config.labelForPath path := by
  rw [effectiveConfigLabelForPath, hnode.parsed]

theorem toggle_file (hvalid : ∀ rule ∈ config.files.rules, ValidRule rule)
    (hnode : target.IsNode path) (hreserved : target.reserved = false)
    (hkind : target.kind = .file) (hpath : folderBase? target.path = none) :
    (config.toggleVisibilityTarget target).1.labelForPath path =
        config.nextView (config.labelForPath path) ∧
      ∀ other : ScopePath, ¬ IsWithin target.path other.asStr →
        (config.toggleVisibilityTarget target).1.labelForPath other = config.labelForPath other := by
  have hbase : patternBasePath target.path = target.path := by
    rw [patternBasePath, hpath, Option.getD_none]
  have hcontrol : isRepoControlPath path = false := hnode.marked ▸ hreserved
  have hlabel := labelForPath_toggleVisibilityTarget hvalid hreserved (toggled_file hkind hpath)
    (fun rule hrule => by
      simp only [withRules_rules, List.mem_append, List.mem_filter, List.mem_singleton] at hrule
      rcases hrule with ⟨⟨hmem, -⟩, -⟩ | rfl
      · exact .inl hmem
      · exact .inr hbase) hnode
  constructor
  · rw [hlabel, ← effectiveConfigLabelForPath_node config hnode]
    refine labelForPath_append hcontrol ?_ fun rule _ hmatch => ?_
    · rw [hnode.canonical]
      have := matches_base target.path
      rwa [hbase] at this
    · have hweight : patternWeight target.path = Text.byteLength target.path.toList := by
        rw [patternWeight, hbase]
      rw [hweight, ← hnode.canonical]
      exact patternWeight_le_of_matches hmatch
  · intro other hother
    have hexact : patternMatchesPath target.path other.asStr = false := by
      rw [Bool.eq_false_iff]
      exact fun hmatch => hother (.inl (eq_of_matches_exact hpath hmatch))
    have hfolder : patternMatchesPath (folderRulePath target.path) other.asStr = false := by
      rw [Bool.eq_false_iff]
      exact fun hmatch => hother (matches_folderRulePath_iff.mp hmatch)
    rw [hlabel]
    refine labelForPath_congr rfl rfl ?_
    rw [withRules_rules, List.filter_append, List.filter_singleton, hexact, List.filter_filter,
      List.filter_filter, cond_false, List.append_nil]
    refine List.filter_congr fun rule _ => ?_
    by_cases hsame : rule.path = target.path
    · simp [hsame, hexact]
    · by_cases hsame' : rule.path = folderRulePath target.path
      · simp [hsame', hfolder]
      · simp [hsame, hsame']

/-! ## Folders -/

theorem toggled_directory (hkind : target.kind = .directory) :
    config.toggled target = some (config.withRules
      ((config.files.rules.filter fun rule => !patternIsInsideSubtree rule.path target.path ||
          (config.nextDirectoryVisibility target == .publicView && rule.view == .privateView)).filter
          (fun rule => decide (rule.path ≠ folderRulePath target.path)) ++
        [⟨folderRulePath target.path, config.nextDirectoryVisibility target⟩])) := by
  rw [toggled, hkind]
  rfl

/-- The rules a folder's toggle keeps. -/
theorem mem_kept_iff {rule : RepoConfigFileRule} {next : ViewId} :
    rule ∈ (config.files.rules.filter fun rule =>
        !patternIsInsideSubtree rule.path target.path ||
          (next == .publicView && rule.view == .privateView)).filter
        (fun rule => decide (rule.path ≠ folderRulePath target.path)) ↔
      rule ∈ config.files.rules ∧ rule.path ≠ folderRulePath target.path ∧
        (IsWithin target.path (patternBasePath rule.path) →
          next = .publicView ∧ rule.view = .privateView) := by
  rw [List.mem_filter, List.mem_filter, ← patternIsInsideSubtree_iff]
  cases patternIsInsideSubtree rule.path target.path with
  | true =>
    simp
    tauto
  | false => simp

theorem toggle_directory (hvalid : ∀ rule ∈ config.files.rules, ValidRule rule)
    (hnode : target.IsNode path) (hreserved : target.reserved = false)
    (hkind : target.kind = .directory) :
    (∀ other : ScopePath, isRepoControlPath other = false → IsWithin target.path other.asStr →
      (config.toggleVisibilityTarget target).1.labelForPath other =
        if config.nextDirectoryVisibility target = .publicView ∧ ∃ rule ∈ config.files.rules,
            rule.view = .privateView ∧ IsBelow target.path (patternBasePath rule.path) ∧
              patternMatchesPath rule.path other.asStr = true
          then .privateView else config.nextDirectoryVisibility target) ∧
      ∀ other : ScopePath, ¬ IsWithin target.path other.asStr →
        (config.toggleVisibilityTarget target).1.labelForPath other = config.labelForPath other := by
  have hlabel := labelForPath_toggleVisibilityTarget hvalid hreserved (toggled_directory hkind)
    (fun rule hrule => by
      rw [withRules_rules, List.mem_append, List.mem_singleton, mem_kept_iff] at hrule
      rcases hrule with ⟨hmem, -⟩ | rfl
      · exact .inl hmem
      · exact .inr (patternBasePath_append target.path)) hnode
  constructor
  · intro other hcontrol hwithin
    rw [hlabel]
    have hmatch := matches_folderRulePath_iff.mpr hwithin
    by_cases hprivate : config.nextDirectoryVisibility target = .publicView ∧
        ∃ rule ∈ config.files.rules, rule.view = .privateView ∧
          IsBelow target.path (patternBasePath rule.path) ∧
            patternMatchesPath rule.path other.asStr = true
    · -- a kept private rule is heavier than the folder's, and so is the rule that decides
      rw [if_pos hprivate]
      obtain ⟨hpublic, rule, hmem, hview, hbelow, hrule⟩ := hprivate
      rw [labelForPath_eq _ other hcontrol, withRules_rules]
      have hkept : rule ∈ (config.files.rules.filter fun rule =>
          !patternIsInsideSubtree rule.path target.path ||
            (config.nextDirectoryVisibility target == .publicView &&
              rule.view == .privateView)).filter
          (fun rule => decide (rule.path ≠ folderRulePath target.path)) := by
        refine mem_kept_iff.mpr ⟨hmem, ?_, fun _ => ⟨hpublic, hview⟩⟩
        rintro heq
        have hlt := byteLength_lt_of_isBelow hbelow
        rw [heq, patternWeight_folderRulePath] at hlt
        exact lt_irrefl _ hlt
      obtain ⟨decides, hdecides⟩ := exists_decidingRule (List.mem_append_left
        [⟨folderRulePath target.path, config.nextDirectoryVisibility target⟩] hkept) hrule
      have hle := weight_le_of_decidingRule hdecides (List.mem_append_left _ hkept) hrule
      have hlt := (byteLength_lt_of_isBelow hbelow).trans_le hle
      have hbase := isBelow_base_of_lt hwithin (matches_of_decidingRule hdecides) hlt
      rw [ruleView, hdecides, Option.elim_some]
      rcases List.mem_append.mp (LastMax.mem_of_select hdecides) with hkeptDecides | hlast
      · exact ((mem_kept_iff.mp hkeptDecides).2.2 (.inr hbase)).2
      · obtain rfl := List.mem_singleton.mp hlast
        rw [patternWeight_folderRulePath] at hlt
        exact absurd hlt (lt_irrefl _)
    · rw [if_neg hprivate]
      refine labelForPath_append hcontrol hmatch fun rule hrule hmatchRule => ?_
      rw [patternWeight_folderRulePath]
      by_contra hlt
      obtain ⟨hmem, -, hkept⟩ := mem_kept_iff.mp hrule
      have hbelow := isBelow_base_of_lt hwithin hmatchRule (by omega)
      obtain ⟨hpublic, hview⟩ := hkept (.inr hbelow)
      exact hprivate ⟨hpublic, rule, hmem, hview, hbelow, hmatchRule⟩
  · intro other hother
    rw [hlabel]
    have hfolder : patternMatchesPath (folderRulePath target.path) other.asStr = false := by
      rw [Bool.eq_false_iff]
      exact fun hmatch => hother (matches_folderRulePath_iff.mp hmatch)
    refine labelForPath_congr rfl rfl ?_
    rw [withRules_rules, List.filter_append, List.filter_singleton, hfolder, List.filter_filter,
      List.filter_filter, cond_false, List.append_nil]
    refine List.filter_congr fun rule _ => ?_
    by_cases hmatch : patternMatchesPath rule.path other.asStr = true
    · have hpath : rule.path ≠ folderRulePath target.path := by
        rintro heq
        rw [heq, hfolder] at hmatch
        cases hmatch
      have hinside : patternIsInsideSubtree rule.path target.path = false := by
        rw [Bool.eq_false_iff]
        exact fun hinside =>
          hother (isWithin_of_matches (patternIsInsideSubtree_iff.mp hinside) hmatch)
      simp [hmatch, hpath, hinside]
    · simp [hmatch]

/-! ## The root -/

theorem toggle_root (hvalid : ∀ rule ∈ config.files.rules, ValidRule rule)
    (hnode : target.IsNode path) (hreserved : target.reserved = false) (hkind : target.kind = .root)
    (hchanges : (config.toggleVisibilityTarget target).1.labelForPath other ≠
      config.labelForPath other) {rule : RepoConfigFileRule} (hmem : rule ∈ config.files.rules) :
    patternMatchesPath rule.path other.asStr = false := by
  have htoggled : config.toggled target = some { config with
      files := { config.files with default := config.nextView config.files.default } } := by
    rw [toggled, hkind]
  rw [labelForPath_toggleVisibilityTarget hvalid hreserved htoggled (fun rule h => .inl h) hnode]
    at hchanges
  cases hcontrol : isRepoControlPath other with
  | true =>
    refine absurd ?_ hchanges
    exact labelForPath_of_control rfl hcontrol
  | false =>
    rw [labelForPath_eq _ other hcontrol, labelForPath_eq _ other hcontrol] at hchanges
    rw [Bool.eq_false_iff]
    intro hmatch
    obtain ⟨decides, hdecides⟩ := exists_decidingRule hmem hmatch
    rw [ruleView, ruleView, hdecides] at hchanges
    exact hchanges rfl

/-! ## Folders that become public -/

def privateConfig (rules : List RepoConfigFileRule) : RepoConfig where
  kind := repoConfigKind
  version := repoConfigVersion
  views := .builtin
  files := ⟨.privateView, rules⟩
  history := ⟨[]⟩

def folderA (filePathsUnder : List String) : VisibilityTarget :=
  ⟨"a", "/a", .directory, false, filePathsUnder⟩

end RepoConfig

end ScopeVcs

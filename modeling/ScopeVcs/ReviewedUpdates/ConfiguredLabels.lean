import ScopeVcs.ReviewedUpdates.Rewriting

/-! # The configured labels of live files

A policy is built from a configuration when the configuration changes, and kept up by the pushes and
merges in between. So at any time it has a rule for each live path and for no other, with the label
that the current configuration gives the path.
-/

namespace ScopeVcs

open Mutation Relation

/-- The policy has the configured label of each live path, and no other rule. -/
def Repository.FollowsConfig (repo : Repository) : Prop :=
  ∀ path, repo.policy.rules.get? path =
    (repo.liveFiles.get? path).map fun _ => repo.repoConfig.labelForPath path

namespace Repository.FollowsConfig

variable {repo next : Repository}

theorem rule_isSome (h : repo.FollowsConfig) (path : ScopePath) :
    (repo.policy.rules.get? path).isSome = (repo.liveFiles.get? path).isSome := by
  rw [h path, Option.isSome_map]

/-- A live file carries the configured label. -/
theorem label_eq (h : repo.FollowsConfig) {path : ScopePath} {blob : SourceBlob}
    (hlive : repo.liveFiles.get? path = some blob) (views : Views) :
    repo.policy.label path views = repo.repoConfig.labelForPath path := by
  refine label_eq_labelForPath ?_ views
  rw [h path, hlive]
  rfl

/-- The files of a view are the live files whose configured label it shows. -/
theorem get?_shownFiles (h : repo.FollowsConfig) (view : ViewId) (path : ScopePath) :
    (repo.shownFiles view).get? path = (repo.liveFiles.get? path).filter fun _ =>
      repo.repoConfig.views.shows view path (repo.repoConfig.labelForPath path) := by
  rw [Repository.shownFiles, SortedMap.get?_filter]
  cases hlive : repo.liveFiles.get? path with
  | none => rfl
  | some blob => rw [Option.filter_some, Option.filter_some, h.label_eq hlive]

/-! ## Every update keeps it -/

theorem of_config (hpolicy : policyFromConfigForTree next.repoConfig next.liveFiles.keys =
      .ok next.policy) : next.FollowsConfig := by
  intro path
  rw [Policy.rules_addRules hpolicy, get?_foldl_labels]
  cases hlive : next.liveFiles.get? path with
  | none =>
    have habsent : path ∉ next.liveFiles.keys := by
      rw [SortedMap.mem_keys, hlive]
      simp
    rw [if_neg habsent]
    rfl
  | some blob => rw [if_pos (SortedMap.mem_keys.mpr ⟨blob, hlive⟩), Option.map_some]

/-- Pushes and merges add the rules of new paths and remove those of deleted ones. -/
theorem withAccepted (h : repo.FollowsConfig) {update : ReviewedUpdateInput}
    {allowUnchangedTree : Bool} {origin : LogicalCommitOrigin} {accepted : AcceptedContentPush}
    (hpaths : (update.changes.map (·.path)).Nodup)
    (haccepted : acceptContentUpdate repo.contentPushState update allowUnchangedTree origin =
      .ok accepted) : (repo.withAccepted accepted).FollowsConfig := by
  have hconfig : update.config = repo.repoConfig := (acceptContentUpdate_eq_ok haccepted).1
  have hpolicy : (repo.withAccepted accepted).policy = accepted.policy := rfl
  intro path
  rw [liveFiles_withAccepted haccepted, hpolicy]
  by_cases hwritten : ∃ written ∈ repo.contentPushState.fileChanges update, written.path = path
  · obtain ⟨written, hwritten, rfl⟩ := hwritten
    have hold := (eq_of_mem_buildFileChanges hwritten).1
    rw [get?_written_of_mem (fileChanges_paths_nodup hpaths) hwritten]
    cases hnew : written.newContent with
    | none =>
      have hdeleted : written.oldContent ≠ none := oldContent_of_deleted hwritten hnew
      rw [get?_rules_of_accepted haccepted, if_neg, if_pos ⟨written, hwritten, rfl, hdeleted, hnew⟩]
      · rfl
      · rintro ⟨other, hother, hpath, hnone, -⟩
        rw [(eq_of_mem_buildFileChanges hother).1, hpath, ← hold] at hnone
        exact hdeleted hnone
    | some content =>
      have hkept : written.newContent ≠ none := by simp [hnew]
      cases hcontent : written.oldContent with
      | none =>
        rw [rule_of_added haccepted hwritten hcontent hkept, hconfig]
        rfl
      | some blob =>
        rw [rule_of_overwritten haccepted hpaths hwritten (by simp [hcontent]) hkept]
        have hlive : repo.liveFiles.get? written.path = some blob := hold.symm.trans hcontent
        refine (h written.path).trans ?_
        rw [hlive]
        rfl
  · push Not at hwritten
    rw [rule_of_unchanged haccepted hwritten, get?_written_of_ne hwritten]
    exact h path

end Repository.FollowsConfig

namespace PushedRepository

variable {state next : PushedRepository} {plain : ScopePath → Prop} {update : RepositoryUpdate}

theorem Created.followsConfig (h : Created state) : state.repo.FollowsConfig := by
  obtain ⟨⟨owner, name, default, incarnation, hnew⟩, -⟩ := h
  unfold Repository.new at hnew
  obtain ⟨name', -, hnew⟩ := except_bind_eq_ok.mp hnew
  obtain ⟨-, hnew⟩ := except_unit_bind_eq_ok.mp hnew
  obtain ⟨-, hnew⟩ := except_unit_bind_eq_ok.mp hnew
  obtain ⟨-, hnew⟩ := except_unit_bind_eq_ok.mp hnew
  rw [← Except.ok.inj hnew]
  exact fun _ => rfl

theorem PlainUpdate.followsConfig (h : PlainUpdate plain update state next)
    (hfollows : state.repo.FollowsConfig) : next.repo.FollowsConfig := by
  obtain ⟨-, hpaths, -, happlies, -⟩ := h
  cases update with
  | push update =>
    obtain ⟨pack, happlied⟩ := happlies
    unfold applyReviewedUpdateToRepo at happlied
    obtain ⟨-, happlied⟩ := check_unit_bind_eq_ok.mp happlied
    obtain ⟨-, happlied⟩ := check_unit_bind_eq_ok.mp happlied
    rw [get_bind_eq_ok] at happlied
    split_ifs at happlied with hsame
    · obtain ⟨accepted, haccepted, happlied⟩ := check_bind_eq_ok.mp happlied
      obtain ⟨-, hnext⟩ := modify_pure_eq_ok.mp happlied
      rw [← hnext]
      exact hfollows.withAccepted hpaths haccepted
    · obtain ⟨views, -, happlied⟩ := check_bind_eq_ok.mp happlied
      obtain ⟨-, happlied⟩ := check_unit_bind_eq_ok.mp happlied
      obtain ⟨rewrite, base, -, happlied⟩ := bind_eq_ok.mp happlied
      obtain ⟨-, -, -, -, -, -, -, hlive, hconfig, hpolicy⟩ := finishReviewedUpdate_eq_ok happlied
      refine .of_config ?_
      rw [hlive, hconfig]
      exact hpolicy
  | merge update origin =>
    obtain ⟨pack, happlied⟩ := happlies
    obtain ⟨accepted, haccepted, happlied⟩ := check_bind_eq_ok.mp happlied
    obtain ⟨-, hnext⟩ := modify_pure_eq_ok.mp happlied
    rw [← hnext]
    exact hfollows.withAccepted hpaths haccepted
  | configure update =>
    obtain ⟨changed, happlied⟩ := happlies
    unfold applyReviewedConfigToRepo at happlied
    rw [get_bind_eq_ok] at happlied
    split_ifs at happlied with hsame
    · obtain ⟨-, hnext⟩ := pure_eq_ok.mp happlied
      exact hnext ▸ hfollows
    · obtain ⟨views, -, happlied⟩ := check_bind_eq_ok.mp happlied
      obtain ⟨rewrite, base, hrewrite, happlied⟩ := bind_eq_ok.mp happlied
      rw [applyHistoryRewrites_run] at hrewrite
      cases hrewrite
      obtain ⟨-, -, -, -, hlive, hconfig, hpolicy⟩ := finishReviewedConfig_eq_ok happlied
      refine .of_config ?_
      rw [hlive, hconfig, rewritten_liveFiles]
      exact hpolicy

/-- However a repository came to be, its policy says what its configuration says. -/
theorem followsConfig_of_reachable
    (h : Transition.Reachable Created (RewritingStep plain) state) : state.repo.FollowsConfig := by
  refine Transition.Reachable.invariant (fun state => state.repo.FollowsConfig) h
    (fun _ hcreated => hcreated.followsConfig) ?_
  rintro before after - hfollows ⟨update, hupdate⟩
  exact hupdate.followsConfig hfollows

end PushedRepository

/-! ## The files of a view -/

/-- The files that the history gives for a view. -/
def Repository.projectedFiles (repo : Repository) (view : ViewId) : LiveFiles :=
  (projectGraph repo.graph repo.visibilityChangeSets repo.repoConfig.views view).applyTo ∅

namespace PushedRepository

theorem projectedFiles_of_reachable {state : PushedRepository} {plain : ScopePath → Prop}
    (h : Transition.Reachable Created (RewritingStep plain) state) (view : ViewId) :
    state.repo.projectedFiles view = state.repo.shownFiles view :=
  (tracked_of_reachable h).projectGraph_applyTo view

end PushedRepository

end ScopeVcs

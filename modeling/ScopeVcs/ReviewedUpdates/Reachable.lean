import ScopeVcs.Lib.Transition
import ScopeVcs.ReviewedUpdates.Labels

/-! # Reachable repositories

A repository starts empty and grows by successful updates: pushes, merges and configurations. None of
them rewrites the history here, and no two pushes or merges bring the same head. What a run of updates
appends to the history of a repository is a history run.
-/

namespace ScopeVcs

open Mutation Relation

inductive RepositoryUpdate where
  | push (update : ReviewedUpdateInput)
  | merge (update : ReviewedUpdateInput) (origin : RequestMergeOrigin)
  | configure (update : ReviewedConfigUpdateInput)

namespace RepositoryUpdate

def config : RepositoryUpdate → RepoConfig
  | .push update => update.config
  | .merge update _ => update.config
  | .configure update => update.config

/-- The head that an update brings to main. -/
def headOid? : RepositoryUpdate → Option String
  | .push update => some update.gitHead.headOid
  | .merge update _ => some update.gitHead.headOid
  | .configure _ => none

/-- The paths that an update lists. -/
def paths : RepositoryUpdate → List ScopePath
  | .push update => update.changes.map (·.path)
  | .merge update _ => update.changes.map (·.path)
  | .configure _ => []

/-- The update turns one repository into another. -/
def Applies (update : RepositoryUpdate) (repo next : Repository) : Prop :=
  match update with
  | .push update => ∃ pack, (applyReviewedUpdateToRepo update).run repo = .ok pack next
  | .merge update origin => ∃ pack, (applyRequestMergeToRepo update origin).run repo = .ok pack next
  | .configure update => ∃ changed, (applyReviewedConfigToRepo update).run repo = .ok changed next

end RepositoryUpdate

/-- A repository with the heads that were brought to it. -/
structure PushedRepository where
  repo : Repository
  headOids : List String

namespace PushedRepository

variable {state next last : PushedRepository}

def Created (state : PushedRepository) : Prop :=
  (∃ ownerHandle name defaultVisibility incarnationId,
    Repository.new ownerHandle name defaultVisibility incarnationId = .ok state.repo) ∧
      state.headOids = []

/-- One update: its configuration rewrites no history, it lists each path once, and its head is new. -/
def Step (state next : PushedRepository) : Prop :=
  ∃ update : RepositoryUpdate, update.config.history.rewrites = [] ∧ update.paths.Nodup ∧
    (∀ oid ∈ update.headOid?, oid ∉ state.headOids) ∧ update.Applies state.repo next.repo ∧
      next.headOids = update.headOid?.toList ++ state.headOids

abbrev Reachable : PushedRepository → Prop := Transition.Reachable Created Step

theorem exists_records (hrules : state.repo.HasLiveRules) (hstep : Step state next) :
    ∃ headOid? set? commit?, state.repo.Records next.repo headOid? set? commit? ∧
      (∀ oid ∈ headOid?, oid ∉ state.headOids) ∧
        next.headOids = headOid?.toList ++ state.headOids := by
  obtain ⟨update, hrewrites, hpaths, hfresh, happlies, hoids⟩ := hstep
  suffices h : ∃ set? commit?, state.repo.Records next.repo update.headOid? set? commit? by
    obtain ⟨set?, commit?, hrecords⟩ := h
    exact ⟨update.headOid?, set?, commit?, hrecords, hfresh, hoids⟩
  cases update with
  | push update =>
    obtain ⟨pack, happlied⟩ := happlies
    exact applyReviewedUpdateToRepo_records hrules hrewrites hpaths happlied
  | merge update origin =>
    obtain ⟨pack, happlied⟩ := happlies
    exact applyRequestMergeToRepo_records hrules hpaths happlied
  | configure update =>
    obtain ⟨changed, happlied⟩ := happlies
    exact applyReviewedConfigToRepo_records hrules hrewrites happlied

/-! ## Ids of commits -/

/-- The ids that a push or a merge of a head gives its commit. -/
def NamedAfter (id headOid : String) : Prop := id = "rv_push_" ++ headOid ∨ id = "rv_merge_" ++ headOid

theorem NamedAfter.inj {id oid oid' : String} (h : NamedAfter id oid) (h' : NamedAfter id oid') :
    oid = oid' := by
  rcases h with rfl | rfl <;> rcases h' with h' | h' <;>
    have hchars := congrArg String.toList h' <;>
      simp only [String.toList_append, List.append_cancel_left_eq, String.toList_inj] at hchars
  · exact hchars
  · simp at hchars
  · simp at hchars
  · exact hchars

/-- Every live file has a rule, and the commits are named after the heads. -/
structure Sound (state : PushedRepository) : Prop where
  liveRules : state.repo.HasLiveRules
  ids : ∀ commit ∈ state.repo.graph.commits, ∃ oid ∈ state.headOids, NamedAfter commit.id oid

theorem Created.eq_new (h : Created state) : state.repo.graph.commits = [] ∧
    state.repo.visibilityChangeSets = [] ∧ state.repo.liveFiles = ∅ := by
  obtain ⟨⟨owner, name, default, incarnation, hnew⟩, -⟩ := h
  unfold Repository.new at hnew
  obtain ⟨name', -, hnew⟩ := except_bind_eq_ok.mp hnew
  obtain ⟨-, hnew⟩ := except_unit_bind_eq_ok.mp hnew
  obtain ⟨-, hnew⟩ := except_unit_bind_eq_ok.mp hnew
  obtain ⟨-, hnew⟩ := except_unit_bind_eq_ok.mp hnew
  rw [← Except.ok.inj hnew]
  exact ⟨rfl, rfl, rfl⟩

theorem Sound.step (h : Sound state) (hstep : Step state next) : Sound next := by
  obtain ⟨headOid?, set?, commit?, hrecords, -, hoids⟩ := exists_records h.liveRules hstep
  refine ⟨hrecords.liveRules, fun commit hcommit => ?_⟩
  rw [hrecords.commits] at hcommit
  rcases List.mem_append.mp hcommit with hcommit | hcommit
  · obtain ⟨oid, hoid, hnamed⟩ := h.ids commit hcommit
    exact ⟨oid, hoids ▸ List.mem_append_right _ hoid, hnamed⟩
  · obtain ⟨oid, hoid, hnamed⟩ := hrecords.ids commit (Option.mem_toList.mp hcommit)
    exact ⟨oid, hoids ▸ List.mem_append_left _ (Option.mem_toList.mpr hoid), hnamed⟩

theorem Reachable.sound (h : Reachable state) : Sound state := by
  refine Transition.Reachable.invariant Sound h ?_ fun _ _ _ hsound hstep => hsound.step hstep
  intro created hcreated
  obtain ⟨hcommits, -, hlive⟩ := hcreated.eq_new
  constructor
  · intro path blob hblob
    rw [hlive] at hblob
    cases hblob
  · rw [hcommits]
    exact fun commit hcommit => absurd hcommit List.not_mem_nil

/-! ## Runs -/

/-- What the history of a repository has after the one of another is a run of updates. -/
def Continues (state last : PushedRepository) (commits : List LogicalCommit)
    (sets : List VisibilityChangeSet) : Prop :=
  last.repo.graph.commits = state.repo.graph.commits ++ commits ∧
    last.repo.visibilityChangeSets = state.repo.visibilityChangeSets ++ sets ∧
      HistoryRun (state.repo.graph.commits.getLast?.map (·.id)) state.repo.labelledFiles
        state.repo.repoConfig.views commits sets last.repo.labelledFiles last.repo.repoConfig.views

theorem Continues.step {commits : List LogicalCommit} {sets : List VisibilityChangeSet}
    (h : Continues state next commits sets) (hsound : Sound next) (hstep : Step next last) :
    ∃ commits sets, Continues state last commits sets := by
  obtain ⟨hcommits, hsets, hrun⟩ := h
  obtain ⟨headOid?, set?, commit?, hrecords, hfresh, -⟩ := exists_records hsound.liveRules hstep
  have hnew : ∀ commit ∈ commit?, ∀ other ∈ next.repo.graph.commits, other.id ≠ commit.id := by
    intro commit hcommit other hother heq
    obtain ⟨oid, hoid, hnamed⟩ := hrecords.ids commit hcommit
    obtain ⟨oid', hoid', hnamed'⟩ := hsound.ids other hother
    rw [heq] at hnamed'
    exact hfresh oid hoid (NamedAfter.inj hnamed hnamed' ▸ hoid')
  have happends : AppendsTo (state.repo.graph.commits.getLast?.map (·.id)) commits
      next.repo.repoConfig.views last.repo.repoConfig.views set? commit? := {
    transition := hrecords.transition
    anchored := by
      intro set hset
      rw [hrecords.anchored set hset, hcommits, List.getLast?_append]
      cases commits.getLast? <;> rfl
    source := hrecords.source
    fresh := by
      intro commit hcommit
      constructor
      · rw [List.mem_map]
        rintro ⟨other, hother, heq⟩
        exact hnew commit hcommit other (hcommits ▸ List.mem_append_right _ hother) heq
      · intro hanchor
        obtain ⟨other, hother, heq⟩ := Option.map_eq_some_iff.mp hanchor
        exact hnew commit hcommit other
          (hcommits ▸ List.mem_append_left _ (List.mem_of_getLast? hother)) heq }
  refine ⟨commits ++ commit?.toList, sets ++ set?.toList, ?_, ?_, ?_⟩
  · rw [hrecords.commits, hcommits, List.append_assoc]
  · rw [hrecords.sets, hsets, List.append_assoc]
  · rw [hrecords.files]
    exact .update hrun happends hrecords.fits

/-- A run of updates of a reachable repository appends a history run. -/
theorem Reachable.continues (h : Reachable state) (hrun : ReflTransGen Step state last) :
    ∃ commits sets, Continues state last commits sets := by
  induction hrun with
  | refl => exact ⟨[], [], (List.append_nil _).symm, (List.append_nil _).symm, .nil⟩
  | @tail next last hprev hstep ih =>
    obtain ⟨commits, sets, hcontinues⟩ := ih
    obtain ⟨created, hcreated, hbefore⟩ := h
    exact hcontinues.step (Reachable.sound ⟨created, hcreated, hbefore.trans hprev⟩) hstep

end PushedRepository

end ScopeVcs

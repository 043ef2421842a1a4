import ScopeVcs.History.Replay
import ScopeVcs.Projection.Batches

/-! # History entries in batches

The entries follow the steps of the history: each step has its own, made of what the replay found
under its ids. So the entries of a history are those of a first batch and then those of the rest.
-/

namespace ScopeVcs

/-! ## Entries by steps -/

section Steps

variable {projected projected' : ProjectionHistory} {views : Views} {view : ViewId}
  {commits : List LogicalCommit} {sets : List VisibilityChangeSet} {repoId : String}

/-- The entries of one step; a change set that belongs to a commit is part of its entry. -/
def stepEntries (projected : ProjectionHistory) (views : Views) (view : ViewId)
    (commits : List LogicalCommit) (sets : List VisibilityChangeSet) : FoldStep → List ViewHistoryEntry
  | .commit logical => (contentAction projected views view logical
      (sets.filter fun set => entrySource commits set = some logical.id)).toList
  | .set set => if (entrySource commits set).isSome then []
      else (visibilityAction projected views view set).toList

theorem isAnchored_eq (commits : List LogicalCommit) (set : VisibilityChangeSet) :
    isAnchored commits set = (entryAnchor commits set).isSome := by
  unfold isAnchored entryAnchor
  cases set.anchorCommitId with
  | none => rfl
  | some anchor =>
    rw [Option.any_some, Option.filter_some]
    split_ifs with h
    · exact h
    · exact Bool.not_eq_true _ ▸ h

theorem entryAnchor_eq_some {whole : List LogicalCommit} {logical : LogicalCommit}
    (hlogical : logical ∈ whole) (set : VisibilityChangeSet) :
    entryAnchor whole set = some logical.id ↔ set.anchorCommitId = some logical.id := by
  unfold entryAnchor
  rw [Option.filter_eq_some_iff]
  refine and_iff_left ?_
  rw [List.any_eq_true]
  exact ⟨logical, hlogical, beq_self_eq_true _⟩

theorem flatMap_stepEntries_sets (whole : List LogicalCommit) (all : List VisibilityChangeSet)
    (sets : List VisibilityChangeSet) :
    (sets.map FoldStep.set).flatMap (stepEntries projected views view whole all) =
      (sets.filter fun set => (entrySource whole set).isNone).filterMap
        (visibilityAction projected views view) := by
  induction sets with
  | nil => rfl
  | cons set sets ih =>
    rw [List.map_cons, List.flatMap_cons, ih, List.filter_cons, stepEntries]
    cases entrySource whole set with
    | some source => rfl
    | none =>
      rw [Option.isSome_none, if_neg Bool.false_ne_true, Option.isNone_none, if_pos rfl,
        List.filterMap_cons]
      cases visibilityAction projected views view set <;> rfl

/-- The entries of commits are those of their steps. -/
theorem commitEntries_eq_flatMap {whole : List LogicalCommit} {all : List VisibilityChangeSet}
    (hnodup : (commits.map (·.id)).Nodup) (hwhole : ∀ commit ∈ commits, commit ∈ whole)
    {sourced : List VisibilityChangeSet}
    (hsourced : ∀ commit ∈ commits, (sourced.filter fun set =>
      entrySource whole set = some commit.id) =
        all.filter fun set => entrySource whole set = some commit.id) :
    commitEntries projected views view whole commits sourced
        (sets.filter fun set => (entrySource whole set).isNone) =
      (commitSteps commits sets).flatMap (stepEntries projected views view whole all) := by
  induction commits generalizing sets sourced with
  | nil => rfl
  | cons commit commits ih =>
    rw [List.map_cons, List.nodup_cons] at hnodup
    rw [List.forall_mem_cons] at hwhole
    have hanchor : ∀ set, entryAnchor whole set = some commit.id ↔
        set.anchorCommitId = some commit.id := entryAnchor_eq_some hwhole.1
    have hrest : ((sets.filter fun set => (entrySource whole set).isNone).filter fun set =>
        entryAnchor whole set ≠ some commit.id) =
          (sets.filter fun set => set.anchorCommitId ≠ some commit.id).filter fun set =>
            (entrySource whole set).isNone := by
      rw [List.filter_comm]
      simp only [ne_eq, hanchor]
    have hfirst : ((sets.filter fun set => (entrySource whole set).isNone).filter fun set =>
        entryAnchor whole set = some commit.id) =
          (sets.filter fun set => set.anchorCommitId = some commit.id).filter fun set =>
            (entrySource whole set).isNone := by
      rw [List.filter_comm]
      simp only [hanchor]
    rw [commitEntries, commitSteps, List.flatMap_cons, List.flatMap_append,
      flatMap_stepEntries_sets, hfirst, hrest, hsourced commit List.mem_cons_self, stepEntries]
    rw [ih hnodup.2 hwhole.2]
    intro other hother
    rw [← hsourced other (List.mem_cons_of_mem _ hother), List.filter_filter]
    refine List.filter_congr fun set _ => ?_
    have hne : other.id ≠ commit.id := fun heq => hnodup.1 (heq ▸ List.mem_map_of_mem hother)
    by_cases hsource : entrySource whole set = some other.id
    · simp [hsource, hne]
    · simp [hsource]

/-- The entries follow the steps of the history. -/
theorem unlinkedEntries_eq_flatMap (hnodup : (commits.map (·.id)).Nodup) :
    unlinkedEntries projected views view commits sets =
      (foldSteps ⟨repoId, commits⟩ sets).flatMap
        (stepEntries projected views view commits sets) := by
  have hsourced : ∀ commit ∈ commits,
      ((sets.filter fun set => (entrySource commits set).isSome).filter fun set =>
        entrySource commits set = some commit.id) =
          sets.filter fun set => entrySource commits set = some commit.id := by
    intro commit _
    rw [List.filter_filter]
    refine List.filter_congr fun set _ => ?_
    by_cases hsource : entrySource commits set = some commit.id
    · simp [hsource]
    · simp [hsource]
  have hanchored : (fun set => (entryAnchor commits set).isSome) = isAnchored commits :=
    funext fun set => (isAnchored_eq commits set).symm
  have hunanchored : (fun set => (entryAnchor commits set).isNone) =
      fun set => !isAnchored commits set := by
    funext set
    rw [isAnchored_eq, Option.not_isSome]
  rw [unlinkedEntries, foldSteps, List.flatMap_append, flatMap_stepEntries_sets]
  dsimp only
  rw [hanchored, hunanchored]
  refine congrArg₂ (· ++ ·) ?_ ?_
  · rw [List.filter_comm]
  · rw [List.filter_comm, commitEntries_eq_flatMap hnodup (fun _ h => h) hsourced]

end Steps

/-! ## What the entries of a step rest on -/

/-- The ids of some commits. -/
def commitIds (commits : List LogicalCommit) : Set String := {id | id ∈ commits.map (·.id)}

/-- The ids of some change sets. -/
def changeSetIds (sets : List VisibilityChangeSet) : Set String := {id | id ∈ sets.map (·.id)}

section Congruence

variable {projected projected' : ProjectionHistory} {views : Views} {view : ViewId}
  {ids setIds : Set String}

theorem visibilityChangesForAction_congr (h : projected.AgreesOn ids setIds projected')
    {sets : List VisibilityChangeSet} (hsets : ∀ set ∈ sets, set.id ∈ setIds)
    (content : Option ProjectedAction) :
    visibilityChangesForAction projected views view sets content =
      visibilityChangesForAction projected' views view sets content := by
  unfold visibilityChangesForAction
  refine List.flatMap_congr fun set hset => List.filterMap_congr fun change _ => ?_
  dsimp only
  rw [h.visibility set.id (hsets set hset)]

theorem contentAction_congr (h : projected.AgreesOn ids setIds projected')
    {logical : LogicalCommit} (hid : logical.id ∈ ids) {sets : List VisibilityChangeSet}
    (hsets : ∀ set ∈ sets, set.id ∈ setIds) :
    contentAction projected views view logical sets =
      contentAction projected' views view logical sets := by
  unfold contentAction
  dsimp only
  rw [h.actions _ hid, visibilityChangesForAction_congr h hsets]

theorem visibilityAction_congr (h : projected.AgreesOn ids setIds projected')
    {set : VisibilityChangeSet} (hset : set.id ∈ setIds)
    (hsource : ∀ source ∈ set.sourceUpdateId, source ∈ ids) :
    visibilityAction projected views view set = visibilityAction projected' views view set := by
  have hsets : ∀ other ∈ [set], other.id ∈ setIds := by simpa using hset
  have hactions : set.sourceUpdateId.bind projected.actions.get? =
      set.sourceUpdateId.bind projected'.actions.get? := by
    cases hid : set.sourceUpdateId with
    | none => rfl
    | some source => exact h.actions source (hsource source hid)
  have hboundaries : viewsBoundaryChanges projected set = viewsBoundaryChanges projected' set := by
    unfold viewsBoundaryChanges
    rw [h.boundaries set.id hset]
    refine List.map_congr_left fun boundary _ => ?_
    dsimp only
    rw [h.visibility set.id hset]
  unfold visibilityAction
  simp only [hactions, hboundaries, visibilityChangesForAction_congr h hsets]

variable {anchor : Option String} {start tree : LabelledTree} {first after : Views}
  {commits : List LogicalCommit} {sets : List VisibilityChangeSet}

/-- The entries of the steps of a run rest on what was found under its ids. -/
theorem HistoryRun.stepEntries_congr (run : HistoryRun anchor start first commits sets tree after)
    (h : projected.AgreesOn (commitIds commits) (changeSetIds sets) projected') (repoId : String) :
    ∀ step ∈ foldSteps ⟨repoId, commits⟩ sets,
      stepEntries projected views view commits sets step =
        stepEntries projected' views view commits sets step := by
  intro step hstep
  cases step with
  | commit logical =>
    rw [stepEntries, stepEntries, contentAction_congr h]
    · exact List.mem_map_of_mem (mem_commits_of_foldSteps hstep)
    · exact fun set hset => List.mem_map_of_mem (List.mem_filter.mp hset).1
  | set set =>
    have hset := mem_foldSteps hstep
    rw [stepEntries, stepEntries, visibilityAction_congr h (List.mem_map_of_mem hset)]
    intro source hsource
    rcases run.source set hset with hnone | ⟨commit, hcommit, hid⟩
    · rw [hnone] at hsource
      cases hsource
    · rw [hid] at hsource
      exact Option.mem_some_iff.mp hsource ▸ List.mem_map_of_mem hcommit

end Congruence

/-! ## Where projected commits come from -/

section Sources

variable {cursor : ProjectionCursor} {view : ViewId} {graph : SourceGraph} {fold : ViewFold}
  {ids setIds : Set String} {sets : List VisibilityChangeSet}

def ViewFold.ComesFrom (ids setIds : Set String) (fold : ViewFold) : Prop :=
  ∀ projected ∈ fold.commits, projected.ComesFrom ids setIds

theorem mem_projectContent {logical : LogicalCommit} {projected : ProjectedCommit}
    (h : projected ∈ (fold.projectContent cursor view logical).commits) :
    projected ∈ fold.commits ∨
      projected.visibilityChangeSetId = none ∧ projected.logicalCommitId = logical.id := by
  unfold ViewFold.projectContent at h
  dsimp only at h
  by_cases hnative :
    preservedNative view logical (visibleChanges fold.views view logical).length ≠ []
  · rw [if_pos hnative] at h
    refine (List.mem_append.mp h).imp_right fun hadded => ?_
    obtain ⟨index, hindex, rfl⟩ := List.mem_mapIdx.mp hadded
    exact ⟨rfl, rfl⟩
  rw [if_neg hnative] at h
  by_cases hnothing : visibleChanges fold.views view logical = []
  · rw [if_pos hnothing] at h
    exact .inl h
  · rw [if_neg hnothing] at h
    refine (List.mem_append.mp h).imp_right fun hadded => ?_
    obtain rfl := List.mem_singleton.mp hadded
    exact ⟨rfl, rfl⟩

theorem ViewFold.ComesFrom.commit (h : fold.ComesFrom ids setIds) {logical : LogicalCommit}
    (hid : logical.id ∈ ids) : (fold.commit cursor view logical).ComesFrom ids setIds := by
  show (fold.projectContent cursor view logical).ComesFrom ids setIds
  intro projected hprojected
  rcases mem_projectContent hprojected with hbefore | ⟨hset, hlogical⟩
  · exact h projected hbefore
  · rw [ProjectedCommit.ComesFrom, hset]
    exact hlogical ▸ hid

theorem ViewFold.ComesFrom.set (h : fold.ComesFrom ids setIds) {set : VisibilityChangeSet}
    (hid : set.id ∈ setIds) : (fold.set cursor view graph set).ComesFrom ids setIds := by
  unfold ViewFold.set
  dsimp only
  by_cases hnothing : setChanges ((set.views.map (·.before)).getD fold.views)
      ((set.views.map (·.after)).getD fold.views) view (sourceUpdate graph set) fold.tree set = []
  · rw [if_pos hnothing]
    exact h
  · rw [if_neg hnothing]
    intro projected hprojected
    rcases List.mem_append.mp hprojected with hbefore | hadded
    · exact h projected hbefore
    · obtain rfl := List.mem_singleton.mp hadded
      exact hid

/-- Projected commits come from the commits and change sets of the history. -/
theorem comesFrom_projectGraphAfter (cursor : ProjectionCursor) (tree : LabelledTree)
    (graph : SourceGraph) (sets : List VisibilityChangeSet) (view : ViewId) :
    ∀ projected ∈ (projectGraphAfter cursor tree graph sets view).commits,
      projected.ComesFrom (commitIds graph.commits) (changeSetIds sets) := by
  by_cases hview : view = .privateView
  · subst hview
    rw [projectGraphAfter_full]
    unfold projectFullGraph
    refine List.foldlRecOn (motive := fun state : List ProjectedCommit × Option String =>
      ∀ projected ∈ state.1, projected.ComesFrom (commitIds graph.commits) (changeSetIds sets))
      graph.commits _ (fun _ h => absurd h List.not_mem_nil) fun state hstate logical hlogical => ?_
    unfold projectFullCommit
    split_ifs
    · exact hstate
    · intro projected hprojected
      rcases List.mem_append.mp hprojected with hbefore | hadded
      · exact hstate projected hbefore
      · obtain rfl := List.mem_singleton.mp hadded
        show logical.id ∈ commitIds graph.commits
        exact List.mem_map_of_mem hlogical
  · rw [projectGraphAfter_of_ne hview]
    have hstart : (cursor.initialFold tree sets).ComesFrom (commitIds graph.commits)
        (changeSetIds sets) := fun _ h => absurd h List.not_mem_nil
    refine List.foldlRecOn (foldSteps graph sets) _ hstart fun fold hfold step hstep => ?_
    cases step with
    | commit logical => exact hfold.commit (List.mem_map_of_mem (mem_commits_of_foldSteps hstep))
    | set set => exact hfold.set (List.mem_map_of_mem (mem_foldSteps hstep))

end Sources

/-! ## Linked entries -/

theorem linkEntries_append (digest : HistoryDigest) (cursor : HistoryCursor)
    (entries entries' : List ViewHistoryEntry) :
    linkEntries digest cursor (entries ++ entries') =
      ((linkEntries digest cursor entries).1 ++
          (linkEntries digest (linkEntries digest cursor entries).2 entries').1,
        (linkEntries digest (linkEntries digest cursor entries).2 entries').2) := by
  induction entries generalizing cursor with
  | nil => rfl
  | cons entry entries ih =>
    rw [List.cons_append, linkEntries, ih]
    rfl

/-! ## Two batches -/

section Batches

variable {anchor : Option String} {start middle tree : LabelledTree} {first between after : Views}
  {commits later : List LogicalCommit} {sets laterSets : List VisibilityChangeSet}
  {projected : ProjectionHistory} {views : Views} {view : ViewId}

theorem entrySource_eq {commits whole : List LogicalCommit} {set : VisibilityChangeSet}
    (hwhole : ∀ commit ∈ commits, commit ∈ whole)
    (hsource : set.sourceUpdateId = none ∨
      ∃ commit ∈ commits, set.sourceUpdateId = some commit.id) :
    entrySource whole set = entrySource commits set := by
  unfold entrySource
  rcases hsource with hnone | ⟨source, hmem, hid⟩
  · rw [hnone]
    rfl
  · have hany : ∀ other : List LogicalCommit, source ∈ other →
        (other.any fun commit => commit.id == source.id) = true := fun other hother =>
      List.any_eq_true.mpr ⟨source, hother, beq_self_eq_true _⟩
    rw [hid, Option.filter_some, Option.filter_some, hany whole (hwhole source hmem),
      hany commits hmem]

theorem entrySource_mem {set : VisibilityChangeSet} {id : String}
    (h : entrySource commits set = some id) : id ∈ commits.map (·.id) := by
  unfold entrySource at h
  have hany := (Bool.and_eq_true_iff.mp (Option.filter_eq_some_iff.mp h).2).2
  obtain ⟨commit, hcommit, heq⟩ := List.any_eq_true.mp hany
  exact List.mem_map.mpr ⟨commit, hcommit, beq_iff_eq.mp heq⟩

variable (run : HistoryRun anchor start first commits sets middle between)
  (next : HistoryRun ((commits.getLast?.map (·.id)).or anchor) middle between later laterSets tree
    after)
  (hfresh : ∀ commit ∈ later, commit.id ∉ commits.map (·.id) ∧ anchor ≠ some commit.id)

include run next hfresh

theorem HistoryRun.stepEntries_left (repoId : String) :
    ∀ step ∈ foldSteps ⟨repoId, commits⟩ sets,
      stepEntries projected views view (commits ++ later) (sets ++ laterSets) step =
        stepEntries projected views view commits sets step := by
  have hsets : ∀ set ∈ sets, entrySource (commits ++ later) set = entrySource commits set :=
    fun set hset => entrySource_eq (fun _ => List.mem_append_left _) (run.source set hset)
  intro step hstep
  cases step with
  | commit logical =>
    have hlogical := List.mem_map_of_mem (f := (·.id)) (mem_commits_of_foldSteps hstep)
    have hlater : (laterSets.filter fun set =>
        entrySource (commits ++ later) set = some logical.id) = [] := by
      refine List.filter_eq_nil_iff.mpr fun set hset => ?_
      rw [decide_eq_true_eq, entrySource_eq (fun _ => List.mem_append_right _) (next.source set hset)]
      intro hsource
      obtain ⟨commit, hcommit, heq⟩ := List.mem_map.mp (entrySource_mem hsource)
      exact (hfresh commit hcommit).1 (heq ▸ hlogical)
    rw [stepEntries, stepEntries, List.filter_append, hlater, List.append_nil,
      List.filter_congr fun set hset => by rw [hsets set hset]]
  | set set => rw [stepEntries, stepEntries, hsets set (mem_foldSteps hstep)]

theorem HistoryRun.stepEntries_right (repoId : String) :
    ∀ step ∈ foldSteps ⟨repoId, later⟩ laterSets,
      stepEntries projected views view (commits ++ later) (sets ++ laterSets) step =
        stepEntries projected views view later laterSets step := by
  have hsets : ∀ set ∈ laterSets, entrySource (commits ++ later) set = entrySource later set :=
    fun set hset => entrySource_eq (fun _ => List.mem_append_right _) (next.source set hset)
  intro step hstep
  cases step with
  | commit logical =>
    have hearlier : (sets.filter fun set =>
        entrySource (commits ++ later) set = some logical.id) = [] := by
      refine List.filter_eq_nil_iff.mpr fun set hset => ?_
      rw [decide_eq_true_eq, entrySource_eq (fun _ => List.mem_append_left _) (run.source set hset)]
      exact fun hsource => (hfresh logical (mem_commits_of_foldSteps hstep)).1 (entrySource_mem hsource)
    rw [stepEntries, stepEntries, List.filter_append, hearlier, List.nil_append,
      List.filter_congr fun set hset => by rw [hsets set hset]]
  | set set => rw [stepEntries, stepEntries, hsets set (mem_foldSteps hstep)]

/-- The entries of two batches, from what one replay found of both. -/
theorem HistoryRun.unlinkedEntries_append (projected : ProjectionHistory) :
    unlinkedEntries projected views view (commits ++ later) (sets ++ laterSets) =
      unlinkedEntries projected views view commits sets ++
        unlinkedEntries projected views view later laterSets := by
  have hwhole := (run.append next hfresh).ids_nodup
  rw [unlinkedEntries_eq_flatMap hwhole, run.foldSteps_append next hfresh,
    List.flatMap_append, List.flatMap_congr (run.stepEntries_left next hfresh ""),
    List.flatMap_congr (run.stepEntries_right next hfresh ""),
    ← unlinkedEntries_eq_flatMap run.ids_nodup, ← unlinkedEntries_eq_flatMap next.ids_nodup]

section Replayed

variable {earlier rest : List ProjectedCommit}
  (hcolon : ∀ set ∈ sets ++ laterSets, ':' ∉ set.id.toList)
  (hsets : ∀ set ∈ laterSets, set.id ∉ sets.map (·.id))
  (hearlier : ∀ commit ∈ earlier, commit.ComesFrom (commitIds commits) (changeSetIds sets))
  (hrest : ∀ commit ∈ rest, commit.ComesFrom (commitIds later) (changeSetIds laterSets))

include hcolon hsets hearlier hrest

/-- The entries of the second batch come from a replay that goes on from the tree that the first
batch left. -/
theorem HistoryRun.unlinkedEntries_replay (repoId : String) (shown : LiveFiles) :
    unlinkedEntries (.replay shown ⟨repoId, view, earlier ++ rest⟩) views view (commits ++ later)
        (sets ++ laterSets) =
      unlinkedEntries (.replay shown ⟨repoId, view, earlier⟩) views view commits sets ++
        unlinkedEntries (.replay (applyCommits earlier shown) ⟨repoId, view, rest⟩) views view later
          laterSets := by
  have hids : ∀ id ∈ commitIds later, id ∉ commitIds commits := by
    rintro id hid
    obtain ⟨commit, hcommit, rfl⟩ := List.mem_map.mp hid
    exact (hfresh commit hcommit).1
  have hsetIds : ∀ id ∈ changeSetIds laterSets, id ∉ changeSetIds sets := by
    rintro id hid
    obtain ⟨set, hset, rfl⟩ := List.mem_map.mp hid
    exact hsets set hset
  have hplain : ∀ id ∈ changeSetIds sets, ':' ∉ id.toList := by
    rintro id hid
    obtain ⟨set, hset, rfl⟩ := List.mem_map.mp hid
    exact hcolon set (List.mem_append_left _ hset)
  have hplain' : ∀ id ∈ changeSetIds laterSets, ':' ∉ id.toList := by
    rintro id hid
    obtain ⟨set, hset, rfl⟩ := List.mem_map.mp hid
    exact hcolon set (List.mem_append_right _ hset)
  have hleft : (ProjectionHistory.replay shown ⟨repoId, view, earlier ++ rest⟩).AgreesOn
      (commitIds commits) (changeSetIds sets) (.replay shown ⟨repoId, view, earlier⟩) :=
    replay_append_left hplain hrest hids hsetIds hplain' shown
  have hright : (ProjectionHistory.replay shown ⟨repoId, view, earlier ++ rest⟩).AgreesOn
      (commitIds later) (changeSetIds laterSets)
        (.replay (applyCommits earlier shown) ⟨repoId, view, rest⟩) :=
    replay_append_right hplain' hearlier hrest (fun id hid hid' => hids id hid' hid)
      (fun id hid hid' => hsetIds id hid' hid) hplain shown
  have hfirst : unlinkedEntries (.replay shown ⟨repoId, view, earlier ++ rest⟩) views view commits
      sets = unlinkedEntries (.replay shown ⟨repoId, view, earlier⟩) views view commits sets := by
    rw [unlinkedEntries_eq_flatMap run.ids_nodup, unlinkedEntries_eq_flatMap run.ids_nodup]
    exact List.flatMap_congr (run.stepEntries_congr hleft "")
  have hsecond : unlinkedEntries (.replay shown ⟨repoId, view, earlier ++ rest⟩) views view later
      laterSets = unlinkedEntries (.replay (applyCommits earlier shown) ⟨repoId, view, rest⟩) views
        view later laterSets := by
    rw [unlinkedEntries_eq_flatMap next.ids_nodup, unlinkedEntries_eq_flatMap next.ids_nodup]
    exact List.flatMap_congr (next.stepEntries_congr hright "")
  rw [run.unlinkedEntries_append next hfresh, hfirst, hsecond]

/-- The entries of a history are those of a first batch and then those of the rest, which go on from
the tree and the cursor that the first batch left. -/
theorem HistoryRun.historyEntriesAfter_append (digest : HistoryDigest) (cursor : HistoryCursor)
    (shown : LiveFiles) (repoId : String) :
    let first := historyEntriesAfter digest cursor shown ⟨repoId, view, earlier⟩
      ⟨repoId, commits⟩ sets views view
    let second := historyEntriesAfter digest first.2 (applyCommits earlier shown)
      ⟨repoId, view, rest⟩ ⟨repoId, later⟩ laterSets views view
    historyEntriesAfter digest cursor shown ⟨repoId, view, earlier ++ rest⟩
        ⟨repoId, commits ++ later⟩ (sets ++ laterSets) views view =
      (first.1 ++ second.1, second.2) := by
  dsimp only
  rw [historyEntriesAfter, run.unlinkedEntries_replay next hfresh hcolon hsets hearlier hrest,
    linkEntries_append]
  rfl

end Replayed

end Batches

end ScopeVcs

import ScopeVcs.Projection.History

/-! # Projecting in batches

A read model keeps where it stopped and folds what the history got since then. However a history is
split, the batches project the same commits as the whole: with the same ids, parents, authors and
contents.
-/

namespace ScopeVcs

/-! ## Two folds of the same steps -/

section Follows

variable {view : ViewId} {cursor cursor' : ProjectionCursor} {graph graph' : SourceGraph}
  {pre : List ProjectedCommit} {whole part : ViewFold}

/-- A fold of a whole history against one that began after the commits `pre`: it shows the same, and
keeps the labelled files if the later one does. -/
structure ViewFold.Follows (pre : List ProjectedCommit) (whole part : ViewFold) : Prop where
  commits : whole.commits = pre ++ part.commits
  lastVisible : whole.lastVisible = part.lastVisible
  shape : whole.views.visibilityShape = part.views.visibilityShape
  tree : ∀ tree, part.tree = some tree → whole.tree = some tree

/-- The later fold numbers its commits on from `pre`. -/
def ProjectionCursor.Resumes (pre : List ProjectedCommit) (cursor cursor' : ProjectionCursor) :
    Prop :=
  cursor'.commitCount = cursor.commitCount + pre.length

theorem ProjectionCursor.Resumes.nextId_eq (h : ProjectionCursor.Resumes pre cursor cursor')
    {commits part : List ProjectedCommit} (hcommits : commits = pre ++ part) (view : ViewId)
    (sourceId : String) :
    cursor.nextId view sourceId commits.length = cursor'.nextId view sourceId part.length := by
  rw [nextId, nextId, h, hcommits, List.length_append, ← Nat.add_assoc cursor.commitCount]

namespace ViewFold.Follows

theorem projectContent (h : whole.Follows pre part)
    (hcursor : ProjectionCursor.Resumes pre cursor cursor') (logical : LogicalCommit) :
    (whole.projectContent cursor view logical).Follows pre
      (part.projectContent cursor' view logical) := by
  have hvisible : visibleChanges whole.views view logical =
      visibleChanges part.views view logical := visibleChanges_congr h.shape logical
  unfold ViewFold.projectContent
  dsimp only
  rw [hvisible, hcursor.nextId_eq h.commits, h.lastVisible]
  by_cases hnative :
    preservedNative view logical (visibleChanges part.views view logical).length ≠ []
  · rw [if_pos hnative, if_pos hnative]
    exact ⟨by rw [h.commits, List.append_assoc], rfl, h.shape, h.tree⟩
  · rw [if_neg hnative, if_neg hnative]
    by_cases hnothing : visibleChanges part.views view logical = []
    · rwa [if_pos hnothing, if_pos hnothing]
    · rw [if_neg hnothing, if_neg hnothing]
      exact ⟨by rw [h.commits, List.append_assoc], rfl, h.shape, h.tree⟩

theorem commit (h : whole.Follows pre part)
    (hcursor : ProjectionCursor.Resumes pre cursor cursor') (logical : LogicalCommit) :
    (whole.commit cursor view logical).Follows pre (part.commit cursor' view logical) where
  commits := (h.projectContent hcursor logical).commits
  lastVisible := (h.projectContent hcursor logical).lastVisible
  shape := (h.projectContent hcursor logical).shape
  tree := by
    intro tree htree
    rw [tree_commit] at htree ⊢
    obtain ⟨before, hbefore, rfl⟩ := Option.map_eq_some_iff.mp htree
    rw [h.tree before hbefore]
    rfl

/-- A change set does the same to both: where it needs the labelled files, both have them. -/
theorem setChanges_eq (h : whole.Follows pre part) {set : VisibilityChangeSet}
    (hkept : set.views.isSome = true → part.tree.isSome = true) {before after : Views}
    {source : Option LogicalCommit} :
    setChanges before after view source whole.tree set =
      setChanges before after view source part.tree set := by
  unfold setChanges
  cases hviews : set.views with
  | none => rfl
  | some transition =>
    obtain ⟨tree, htree⟩ := Option.isSome_iff_exists.mp (hkept (by rw [hviews]; rfl))
    rw [htree, h.tree tree htree]

theorem set (h : whole.Follows pre part) (hcursor : ProjectionCursor.Resumes pre cursor cursor')
    {set : VisibilityChangeSet} (hsource : sourceUpdate graph set = sourceUpdate graph' set)
    (hkept : set.views.isSome = true → part.tree.isSome = true) :
    (whole.set cursor view graph set).Follows pre (part.set cursor' view graph' set) := by
  have hbefore : ((set.views.map (·.before)).getD whole.views).visibilityShape =
      ((set.views.map (·.before)).getD part.views).visibilityShape := by
    cases set.views with
    | none => exact h.shape
    | some transition => rfl
  have hafter : ((set.views.map (·.after)).getD whole.views).visibilityShape =
      ((set.views.map (·.after)).getD part.views).visibilityShape := by
    cases set.views with
    | none => exact h.shape
    | some transition => rfl
  have htree : ∀ tree, (part.set cursor' view graph' set).tree = some tree →
      (whole.set cursor view graph set).tree = some tree := by
    intro tree htree
    rw [tree_set] at htree ⊢
    obtain ⟨before, hbefore, rfl⟩ := Option.map_eq_some_iff.mp htree
    rw [h.tree before hbefore]
    rfl
  have hchanges : setChanges ((set.views.map (·.before)).getD whole.views)
      ((set.views.map (·.after)).getD whole.views) view (sourceUpdate graph' set) whole.tree set =
      setChanges ((set.views.map (·.before)).getD part.views)
        ((set.views.map (·.after)).getD part.views) view (sourceUpdate graph' set) part.tree set :=
    (setChanges_congr hbefore hafter).trans (h.setChanges_eq hkept)
  refine ⟨?_, ?_, hafter, htree⟩
  all_goals
    unfold ViewFold.set
    dsimp only
    rw [hsource, hchanges, hcursor.nextId_eq h.commits, h.lastVisible]
    by_cases hnothing : setChanges ((set.views.map (·.before)).getD part.views)
      ((set.views.map (·.after)).getD part.views) view (sourceUpdate graph' set) part.tree set = []
  · rw [if_pos hnothing, if_pos hnothing, h.commits]
  · rw [if_neg hnothing, if_neg hnothing, h.commits, List.append_assoc]
  · rw [if_pos hnothing, if_pos hnothing, h.lastVisible]
  · rw [if_neg hnothing, if_neg hnothing]

/-- A run of steps, of which no change set needs labelled files that the later fold lacks. -/
theorem foldl {steps : List FoldStep} (h : whole.Follows pre part)
    (hcursor : ProjectionCursor.Resumes pre cursor cursor')
    (hsets : ∀ set, .set set ∈ steps → sourceUpdate graph set = sourceUpdate graph' set ∧
      (set.views.isSome = true → part.tree.isSome = true)) :
    (steps.foldl (ViewFold.step cursor view graph) whole).Follows pre
      (steps.foldl (ViewFold.step cursor' view graph') part) := by
  induction steps generalizing whole part with
  | nil => exact h
  | cons step steps ih =>
    rw [List.foldl_cons, List.foldl_cons]
    cases step with
    | commit logical =>
      refine ih (h.commit hcursor logical) fun set hset => ?_
      obtain ⟨hsource, hkept⟩ := hsets set (List.mem_cons_of_mem _ hset)
      exact ⟨hsource, fun hviews => by rw [ViewFold.step, tree_commit, Option.isSome_map, hkept hviews]⟩
    | set first =>
      obtain ⟨hsource, hkept⟩ := hsets first List.mem_cons_self
      refine ih (h.set hcursor hsource hkept) fun set hset => ?_
      obtain ⟨hsource', hkept'⟩ := hsets set (List.mem_cons_of_mem _ hset)
      exact ⟨hsource', fun hviews => by rw [ViewFold.step, tree_set, Option.isSome_map, hkept' hviews]⟩

end ViewFold.Follows

end Follows

/-! ## What a fold leaves -/

section Left

variable {cursor : ProjectionCursor} {view : ViewId} {graph : SourceGraph}

/-- The last commit that the view sees is the last one projected, or the one before all of them. -/
def ViewFold.SeesLast (cursor : ProjectionCursor) (fold : ViewFold) : Prop :=
  fold.lastVisible = (fold.commits.getLast?.map (·.projectedId)).or cursor.lastProjectedId

theorem ViewFold.SeesLast.commit {fold : ViewFold} (h : fold.SeesLast cursor)
    (logical : LogicalCommit) : (fold.commit cursor view logical).SeesLast cursor := by
  show (fold.projectContent cursor view logical).SeesLast cursor
  unfold ViewFold.projectContent
  dsimp only
  by_cases hnative :
    preservedNative view logical (visibleChanges fold.views view logical).length ≠ []
  · rw [if_pos hnative]
    obtain ⟨init, last, hlast⟩ := (List.eq_nil_or_concat' _).resolve_left hnative
    rw [hlast, SeesLast, List.mapIdx_concat, ← List.append_assoc, List.getLast?_concat,
      List.getLast?_concat]
    rfl
  · rw [if_neg hnative]
    by_cases hnothing : visibleChanges fold.views view logical = []
    · rwa [if_pos hnothing]
    · rw [if_neg hnothing, SeesLast, List.getLast?_concat]
      rfl

theorem ViewFold.SeesLast.set {fold : ViewFold} (h : fold.SeesLast cursor)
    (set : VisibilityChangeSet) : (fold.set cursor view graph set).SeesLast cursor := by
  unfold ViewFold.set
  dsimp only
  by_cases hnothing : setChanges ((set.views.map (·.before)).getD fold.views)
      ((set.views.map (·.after)).getD fold.views) view (sourceUpdate graph set) fold.tree set = []
  · rw [if_pos hnothing]
    exact h
  · rw [if_neg hnothing, SeesLast, List.getLast?_concat]
    rfl

theorem ViewFold.SeesLast.foldl {steps : List FoldStep} {fold : ViewFold}
    (h : fold.SeesLast cursor) :
    (steps.foldl (ViewFold.step cursor view graph) fold).SeesLast cursor := by
  induction steps generalizing fold with
  | nil => exact h
  | cons step steps ih =>
    cases step with
    | commit logical => exact ih (h.commit logical)
    | set set => exact ih (h.set set)

theorem lastViews_cons (views : Views) (step : FoldStep) (steps : List FoldStep) :
    ProjectionCursor.lastViews views (step :: steps) =
      ProjectionCursor.lastViews (ProjectionCursor.lastViews views [step]) steps := by
  rw [ProjectionCursor.lastViews, List.reverse_cons, List.findSome?_append, Option.getD_or]
  rfl

theorem views_foldl (steps : List FoldStep) (fold : ViewFold) :
    (steps.foldl (ViewFold.step cursor view graph) fold).views =
      ProjectionCursor.lastViews fold.views steps := by
  induction steps generalizing fold with
  | nil => rfl
  | cons step steps ih =>
    rw [List.foldl_cons, ih, lastViews_cons]
    cases step with
    | commit logical => rw [ViewFold.step, views_commit]; rfl
    | set set =>
      congr 1
      show (set.views.map (·.after)).getD fold.views = _
      cases hviews : set.views <;> simp [ProjectionCursor.lastViews, hviews]

theorem tree_foldl (steps : List FoldStep) (fold : ViewFold) :
    (steps.foldl (ViewFold.step cursor view graph) fold).tree =
      fold.tree.map (steps.foldl LabelledTree.foldStep) := by
  induction steps generalizing fold with
  | nil => exact (Option.map_id_apply).symm
  | cons step steps ih =>
    rw [List.foldl_cons, ih]
    cases step with
    | commit logical => rw [ViewFold.step, tree_commit, Option.map_map]; rfl
    | set set => rw [ViewFold.step, tree_set, Option.map_map]; rfl

end Left

/-! ## A run after another -/

section Append

variable {anchor : Option String} {start middle tree : LabelledTree} {first between views : Views}
  {commits later : List LogicalCommit} {sets laterSets : List VisibilityChangeSet}

theorem AppendsTo.append {before after : Views} {set? : Option VisibilityChangeSet}
    {commit? : Option LogicalCommit}
    (appends : AppendsTo ((commits.getLast?.map (·.id)).or anchor) later before after set? commit?)
    (hfresh : ∀ commit ∈ commit?, commit.id ∉ commits.map (·.id) ∧ anchor ≠ some commit.id) :
    AppendsTo anchor (commits ++ later) before after set? commit? where
  transition := appends.transition
  anchored := by
    intro set hset
    rw [appends.anchored set hset, List.getLast?_append]
    cases later.getLast? <;> rfl
  source := appends.source
  fresh := by
    intro commit hcommit
    obtain ⟨hnew, hanchor⟩ := hfresh commit hcommit
    rw [List.map_append, List.mem_append]
    exact ⟨fun hmem => hmem.elim hnew (appends.fresh commit hcommit).1, hanchor⟩

namespace HistoryRun

variable (run : HistoryRun anchor start first commits sets middle between)
  (next : HistoryRun ((commits.getLast?.map (·.id)).or anchor) middle between later laterSets tree
    views)
  (hfresh : ∀ commit ∈ later, commit.id ∉ commits.map (·.id) ∧ anchor ≠ some commit.id)

include run next hfresh

theorem append :
    HistoryRun anchor start first (commits ++ later) (sets ++ laterSets) tree views := by
  induction next with
  | nil => rwa [List.append_nil, List.append_nil]
  | update next appends fits ih =>
    rw [← List.append_assoc, ← List.append_assoc]
    exact .update (ih fun commit hcommit => hfresh commit (List.mem_append_left _ hcommit))
      (appends.append fun commit hcommit =>
        hfresh commit (List.mem_append_right _ (Option.mem_toList.mpr hcommit))) fits

/-- The steps of the later run come after those of the earlier one. -/
theorem foldSteps_append (repoId : String) :
    foldSteps ⟨repoId, commits ++ later⟩ (sets ++ laterSets) =
      foldSteps ⟨repoId, commits⟩ sets ++ foldSteps ⟨repoId, later⟩ laterSets := by
  induction next with
  | nil => rw [List.append_nil, List.append_nil]; exact (List.append_nil _).symm
  | @update later laterSets tree before after set? commit? next appends fits ih =>
    have hfresh' := fun commit hcommit => hfresh commit (List.mem_append_left _ hcommit)
    have hwhole := run.append next hfresh'
    have happends := appends.append fun commit hcommit =>
      hfresh commit (List.mem_append_right _ (Option.mem_toList.mpr hcommit))
    rw [← List.append_assoc, ← List.append_assoc, hwhole.foldSteps_update happends, ih hfresh',
      next.foldSteps_update appends, List.append_assoc]

omit next in
theorem sourceUpdate_left (repoId : String) : ∀ set ∈ sets,
    ViewFold.sourceUpdate ⟨repoId, commits ++ later⟩ set =
      ViewFold.sourceUpdate ⟨repoId, commits⟩ set := by
  intro set hset
  rw [ViewFold.sourceUpdate, ViewFold.sourceUpdate]
  rcases run.source set hset with hnone | ⟨source, hsource, hid⟩
  · rw [hnone]
    rfl
  · have hnone : later.reverse.find? (fun commit => commit.id == source.id) = none := by
      rw [List.find?_eq_none]
      intro commit hcommit heq
      refine (hfresh commit (List.mem_reverse.mp hcommit)).1 ?_
      rw [beq_iff_eq.mp heq]
      exact List.mem_map_of_mem hsource
    rw [hid, Option.bind_some, Option.bind_some, List.reverse_append, List.find?_append, hnone]
    rfl

omit run hfresh in
theorem sourceUpdate_right (repoId : String) : ∀ set ∈ laterSets,
    ViewFold.sourceUpdate ⟨repoId, commits ++ later⟩ set =
      ViewFold.sourceUpdate ⟨repoId, later⟩ set := by
  intro set hset
  rw [ViewFold.sourceUpdate, ViewFold.sourceUpdate]
  rcases next.source set hset with hnone | ⟨source, hsource, hid⟩
  · rw [hnone]
    rfl
  · have hsome : (later.reverse.find? fun commit => commit.id == source.id).isSome = true := by
      rw [List.find?_isSome]
      exact ⟨source, List.mem_reverse.mpr hsource, beq_self_eq_true _⟩
    obtain ⟨found, hfound⟩ := Option.isSome_iff_exists.mp hsome
    rw [hid, Option.bind_some, Option.bind_some, List.reverse_append, List.find?_append, hfound]
    rfl

end HistoryRun

end Append

/-! ## Batches -/

section Batches

variable {cursor cursor' : ProjectionCursor} {view : ViewId} {pre : List ProjectedCommit}

/-! ### The full view -/

/-- Both folds of the full view have come to the same commit. -/
structure FullFollows (pre : List ProjectedCommit)
    (whole part : List ProjectedCommit × Option String) : Prop where
  commits : whole.1 = pre ++ part.1
  last : whole.2 = part.2

theorem FullFollows.foldl {commits : List LogicalCommit}
    {whole part : List ProjectedCommit × Option String} (h : FullFollows pre whole part)
    (hcursor : ProjectionCursor.Resumes pre cursor cursor') :
    FullFollows pre (commits.foldl (projectFullCommit cursor view) whole)
      (commits.foldl (projectFullCommit cursor' view) part) := by
  induction commits generalizing whole part with
  | nil => exact h
  | cons commit commits ih =>
    refine ih ?_
    unfold projectFullCommit
    split_ifs
    · exact h
    · rw [hcursor.nextId_eq h.commits, h.last, h.commits]
      exact ⟨List.append_assoc _ _ _, rfl⟩

theorem last_projectFullCommits {commits : List LogicalCommit}
    {state : List ProjectedCommit × Option String}
    (h : state.2 = (state.1.getLast?.map (·.projectedId)).or cursor.lastProjectedId) :
    let last := commits.foldl (projectFullCommit cursor view) state
    last.2 = (last.1.getLast?.map (·.projectedId)).or cursor.lastProjectedId := by
  induction commits generalizing state with
  | nil => exact h
  | cons commit commits ih =>
    refine ih ?_
    unfold projectFullCommit
    split_ifs
    · exact h
    · rw [List.getLast?_concat]
      rfl

theorem projectFullGraph_append (repoId : String) (commits later : List LogicalCommit)
    (views : Views) :
    (projectFullGraph cursor ⟨repoId, commits ++ later⟩ view).commits =
      (projectFullGraph cursor ⟨repoId, commits⟩ view).commits ++
        (projectFullGraph ⟨cursor.commitCount +
            (projectFullGraph cursor ⟨repoId, commits⟩ view).commits.length,
          ((projectFullGraph cursor ⟨repoId, commits⟩ view).commits.getLast?.map
            (·.projectedId)).or cursor.lastProjectedId, views⟩ ⟨repoId, later⟩ view).commits := by
  have hlast : (commits.foldl (projectFullCommit cursor view) ([], cursor.lastProjectedId)).2 =
      ((commits.foldl (projectFullCommit cursor view) ([], cursor.lastProjectedId)).1.getLast?.map
        (·.projectedId)).or cursor.lastProjectedId := last_projectFullCommits rfl
  unfold projectFullGraph
  dsimp only
  rw [List.foldl_append]
  refine (FullFollows.foldl ⟨(List.append_nil _).symm, hlast⟩ ?_).commits
  rfl

/-! ### Every view -/

variable {anchor : Option String} {start middle tree : LabelledTree} {first between views : Views}
  {commits later : List LogicalCommit} {sets laterSets : List VisibilityChangeSet}

/-- The state that a projection for a narrower view starts from. -/
def ProjectionCursor.initialFold (cursor : ProjectionCursor) (tree : LabelledTree)
    (sets : List VisibilityChangeSet) : ViewFold where
  views := cursor.views
  tree := if sets.any (·.views.isSome) then some tree else none
  commits := []
  lastVisible := cursor.lastProjectedId

theorem projectGraphAfter_of_ne (hview : view ≠ .privateView) (cursor : ProjectionCursor)
    (tree : LabelledTree) (graph : SourceGraph) (sets : List VisibilityChangeSet) :
    (projectGraphAfter cursor tree graph sets view).commits =
      ((foldSteps graph sets).foldl (ViewFold.step cursor view graph)
        (cursor.initialFold tree sets)).commits := by
  rw [projectGraphAfter, Views.full_eq, if_neg hview]
  rfl

theorem projectGraphAfter_full (cursor : ProjectionCursor) (tree : LabelledTree)
    (graph : SourceGraph) (sets : List VisibilityChangeSet) :
    projectGraphAfter cursor tree graph sets .privateView =
      projectFullGraph cursor graph .privateView := by
  rw [projectGraphAfter, Views.full_eq, if_pos rfl]

theorem initialFold_tree {tree : LabelledTree} (cursor : ProjectionCursor) :
    (cursor.initialFold tree sets).tree.isSome = true ↔
      ∃ set ∈ sets, set.views.isSome = true := by
  rw [ProjectionCursor.initialFold, ← List.any_eq_true]
  split_ifs with hany <;> simp [hany]

theorem eq_of_initialFold_tree {tree kept : LabelledTree} {cursor : ProjectionCursor}
    (h : (cursor.initialFold tree sets).tree = some kept) : kept = tree := by
  rw [ProjectionCursor.initialFold] at h
  dsimp only at h
  split_ifs at h
  exact (Option.some_inj.mp h).symm

section Runs

variable (run : HistoryRun anchor start first commits sets middle between)
  (next : HistoryRun ((commits.getLast?.map (·.id)).or anchor) middle between later laterSets tree
    views)
  (hfresh : ∀ commit ∈ later, commit.id ∉ commits.map (·.id) ∧ anchor ≠ some commit.id)

include run next hfresh

theorem HistoryRun.narrow_append (hview : view ≠ .privateView) (cursor : ProjectionCursor)
    (repoId : String) :
    let earlier := projectGraphAfter cursor start ⟨repoId, commits⟩ sets view
    (projectGraphAfter cursor start ⟨repoId, commits ++ later⟩ (sets ++ laterSets) view).commits =
      earlier.commits ++ (projectGraphAfter (cursor.advanced earlier ⟨repoId, commits⟩ sets) middle
        ⟨repoId, later⟩ laterSets view).commits := by
  intro earlier
  set whole := (foldSteps ⟨repoId, commits⟩ sets).foldl
    (ViewFold.step cursor view ⟨repoId, commits ++ later⟩)
    (cursor.initialFold start (sets ++ laterSets)) with hwhole
  set part := (foldSteps ⟨repoId, commits⟩ sets).foldl
    (ViewFold.step cursor view ⟨repoId, commits⟩) (cursor.initialFold start sets) with hpart
  have hearlier : earlier.commits = part.commits := projectGraphAfter_of_ne hview _ _ _ _
  -- the whole projection shows the same as the first batch until the first batch ends
  have hfirst : whole.Follows [] part := by
    have hstart : (cursor.initialFold start (sets ++ laterSets)).Follows []
        (cursor.initialFold start sets) := by
      refine ⟨rfl, rfl, rfl, fun kept hkept => ?_⟩
      obtain ⟨set, hset, hviews⟩ :=
        (initialFold_tree cursor).mp (Option.isSome_iff_exists.mpr ⟨kept, hkept⟩)
      have hkeeps : (cursor.initialFold start (sets ++ laterSets)).tree.isSome = true :=
        (initialFold_tree cursor).mpr ⟨set, List.mem_append_left laterSets hset, hviews⟩
      obtain ⟨kept', hkept'⟩ := Option.isSome_iff_exists.mp hkeeps
      rw [hkept', eq_of_initialFold_tree hkept, eq_of_initialFold_tree hkept']
    refine hstart.foldl rfl fun set hset => ?_
    exact ⟨run.sourceUpdate_left hfresh repoId set (mem_foldSteps hset), fun hviews =>
      (initialFold_tree cursor).mpr ⟨set, mem_foldSteps hset, hviews⟩⟩
  -- and the same as the second batch from then on
  have hsecond : whole.Follows part.commits
      ((cursor.advanced earlier ⟨repoId, commits⟩ sets).initialFold middle laterSets) := by
    refine ⟨?_, ?_, ?_, fun kept hkept => ?_⟩
    · exact hfirst.commits.trans (List.append_nil _).symm
    · have hsees : part.SeesLast cursor := ViewFold.SeesLast.foldl rfl
      rw [hfirst.lastVisible, hsees, ← hearlier]
      rfl
    · rw [hwhole, views_foldl]
      rfl
    · obtain ⟨set, hset, hviews⟩ :=
        (initialFold_tree _).mp (Option.isSome_iff_exists.mpr ⟨kept, hkept⟩)
      have hkeeps : (cursor.initialFold start (sets ++ laterSets)).tree.isSome = true :=
        (initialFold_tree cursor).mpr ⟨set, List.mem_append_right sets hset, hviews⟩
      obtain ⟨kept', hkept'⟩ := Option.isSome_iff_exists.mp hkeeps
      rw [hwhole, tree_foldl, hkept', eq_of_initialFold_tree hkept, eq_of_initialFold_tree hkept',
        ← run.fold_eq repoId]
      rfl
  have hcursor : ProjectionCursor.Resumes part.commits cursor
      (cursor.advanced earlier ⟨repoId, commits⟩ sets) := by
    rw [ProjectionCursor.Resumes, ← hearlier]
    rfl
  rw [projectGraphAfter_of_ne hview cursor start, hearlier, projectGraphAfter_of_ne hview,
    run.foldSteps_append next hfresh, List.foldl_append]
  refine (hsecond.foldl hcursor fun set hset => ?_).commits
  exact ⟨next.sourceUpdate_right repoId set (mem_foldSteps hset), fun hviews =>
    (initialFold_tree _).mpr ⟨set, mem_foldSteps hset, hviews⟩⟩

/-- A projection of a whole history is that of a first batch, and then that of the rest from where
the first batch stopped. -/
theorem HistoryRun.projectGraphAfter_append (view : ViewId) (cursor : ProjectionCursor)
    (repoId : String) :
    let earlier := projectGraphAfter cursor start ⟨repoId, commits⟩ sets view
    (projectGraphAfter cursor start ⟨repoId, commits ++ later⟩ (sets ++ laterSets) view).commits =
      earlier.commits ++ (projectGraphAfter (cursor.advanced earlier ⟨repoId, commits⟩ sets) middle
        ⟨repoId, later⟩ laterSets view).commits := by
  by_cases hview : view = .privateView
  · subst hview
    intro earlier
    have hearlier : earlier = projectFullGraph cursor ⟨repoId, commits⟩ .privateView :=
      projectGraphAfter_full _ _ _ _
    rw [projectGraphAfter_full, projectGraphAfter_full, hearlier]
    exact projectFullGraph_append repoId commits later _
  · exact run.narrow_append next hfresh hview cursor repoId

/-- The cursor after the whole history is the one after its batches. -/
theorem HistoryRun.advanced_append (view : ViewId) (cursor : ProjectionCursor) (repoId : String) :
    let earlier := projectGraphAfter cursor start ⟨repoId, commits⟩ sets view
    let resumed := cursor.advanced earlier ⟨repoId, commits⟩ sets
    cursor.advanced (projectGraphAfter cursor start ⟨repoId, commits ++ later⟩ (sets ++ laterSets)
        view) ⟨repoId, commits ++ later⟩ (sets ++ laterSets) =
      resumed.advanced (projectGraphAfter resumed middle ⟨repoId, later⟩ laterSets view)
        ⟨repoId, later⟩ laterSets := by
  intro earlier resumed
  set rest := projectGraphAfter resumed middle ⟨repoId, later⟩ laterSets view
  have hcommits : (projectGraphAfter cursor start ⟨repoId, commits ++ later⟩ (sets ++ laterSets)
      view).commits = earlier.commits ++ rest.commits :=
    run.projectGraphAfter_append next hfresh view cursor repoId
  have hcount : cursor.commitCount + (earlier.commits ++ rest.commits).length =
      resumed.commitCount + rest.commits.length := by
    rw [List.length_append, ← Nat.add_assoc]
    rfl
  have hlast : ((earlier.commits ++ rest.commits).getLast?.map (·.projectedId)).or
      cursor.lastProjectedId =
        (rest.commits.getLast?.map (·.projectedId)).or resumed.lastProjectedId := by
    rw [List.getLast?_append]
    cases rest.commits.getLast? <;> rfl
  have hviews : ProjectionCursor.lastViews cursor.views
      (foldSteps ⟨repoId, commits⟩ sets ++ foldSteps ⟨repoId, later⟩ laterSets) =
        ProjectionCursor.lastViews resumed.views (foldSteps ⟨repoId, later⟩ laterSets) := by
    rw [ProjectionCursor.lastViews, List.reverse_append, List.findSome?_append, Option.getD_or]
    rfl
  rw [ProjectionCursor.advanced, hcommits, run.foldSteps_append next hfresh, hcount, hlast, hviews]
  rfl

end Runs

end Batches

end ScopeVcs

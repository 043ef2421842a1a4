import ScopeVcs.Visibility.ChangeSet

/-! # The history as steps

The commits of a repository and its change sets make one sequence of steps: a change set comes after
the commit that it is anchored at. Folding the steps gives the files with their labels.
-/

namespace ScopeVcs

inductive FoldStep where
  | commit (commit : LogicalCommit)
  | set (set : VisibilityChangeSet)
  deriving DecidableEq

/-- Each commit with the change sets anchored at it; of two commits with one id the first takes
them. -/
def commitSteps : List LogicalCommit → List VisibilityChangeSet → List FoldStep
  | [], _ => []
  | commit :: commits, sets =>
    .commit commit ::
      ((sets.filter fun set => set.anchorCommitId = some commit.id).map .set ++
        commitSteps commits (sets.filter fun set => set.anchorCommitId ≠ some commit.id))

def isAnchored (commits : List LogicalCommit) (set : VisibilityChangeSet) : Bool :=
  set.anchorCommitId.any fun anchor => commits.any fun commit => commit.id == anchor

/-- `fold_steps`: what is anchored at none of the commits comes first. -/
def foldSteps (graph : SourceGraph) (sets : List VisibilityChangeSet) : List FoldStep :=
  (sets.filter fun set => !isAnchored graph.commits set).map .set ++
    commitSteps graph.commits (sets.filter (isAnchored graph.commits))

/-! ## Appending to the history -/

section Append

variable {commits : List LogicalCommit} {sets : List VisibilityChangeSet} {repoId : String}

theorem mem_commitSteps {set : VisibilityChangeSet} (h : .set set ∈ commitSteps commits sets) :
    set ∈ sets := by
  induction commits generalizing sets with
  | nil => cases h
  | cons commit commits ih =>
    rw [commitSteps, List.mem_cons, List.mem_append, List.mem_map] at h
    rcases h with h | ⟨set', hset', heq⟩ | h
    · cases h
    · cases heq
      exact (List.mem_filter.mp hset').1
    · exact (List.mem_filter.mp (ih h)).1

/-- Every change set among the steps is one of the history. -/
theorem mem_foldSteps {graph : SourceGraph} {set : VisibilityChangeSet}
    (h : .set set ∈ foldSteps graph sets) : set ∈ sets := by
  rw [foldSteps, List.mem_append, List.mem_map] at h
  rcases h with ⟨set', hset', heq⟩ | h
  · cases heq
    exact (List.mem_filter.mp hset').1
  · exact (List.mem_filter.mp (mem_commitSteps h)).1

theorem mem_commits_of_commitSteps {logical : LogicalCommit}
    (h : .commit logical ∈ commitSteps commits sets) : logical ∈ commits := by
  induction commits generalizing sets with
  | nil => cases h
  | cons commit commits ih =>
    rw [commitSteps, List.mem_cons, List.mem_append, List.mem_map] at h
    rcases h with h | ⟨set, -, heq⟩ | h
    · cases h
      exact List.mem_cons_self
    · cases heq
    · exact List.mem_cons_of_mem _ (ih h)

/-- Every commit among the steps is one of the history. -/
theorem mem_commits_of_foldSteps {graph : SourceGraph} {logical : LogicalCommit}
    (h : .commit logical ∈ foldSteps graph sets) : logical ∈ graph.commits := by
  rw [foldSteps, List.mem_append, List.mem_map] at h
  rcases h with ⟨set, -, heq⟩ | h
  · cases heq
  · exact mem_commits_of_commitSteps h

theorem commitSteps_append_set {set : VisibilityChangeSet} {last : LogicalCommit}
    (hnodup : (commits.map (·.id)).Nodup) (hlast : commits.getLast? = some last)
    (hanchor : set.anchorCommitId = some last.id) :
    commitSteps commits (sets ++ [set]) = commitSteps commits sets ++ [.set set] := by
  induction commits generalizing sets with
  | nil => cases hlast
  | cons commit commits ih =>
    rw [List.map_cons, List.nodup_cons] at hnodup
    rw [commitSteps, commitSteps, List.filter_append, List.filter_append]
    cases commits with
    | nil =>
      obtain rfl : commit = last := by simpa using hlast
      simp [commitSteps, hanchor]
    | cons next rest =>
      rw [List.getLast?_cons_cons] at hlast
      have hne : set.anchorCommitId ≠ some commit.id := by
        rw [hanchor]
        rintro heq
        rw [← Option.some_inj.mp heq] at hnodup
        exact hnodup.1 (List.mem_map_of_mem (List.mem_of_getLast? hlast))
      have hnot : [set].filter (fun set => set.anchorCommitId = some commit.id) = [] := by
        simp [hne]
      have hkept : [set].filter (fun set => set.anchorCommitId ≠ some commit.id) = [set] := by
        simp [hne]
      rw [hnot, hkept, List.append_nil, ih hnodup.2 hlast, List.cons_append, List.append_assoc]

theorem commitSteps_append_commit {commit : LogicalCommit}
    (hfresh : ∀ set ∈ sets, set.anchorCommitId ≠ some commit.id) :
    commitSteps (commits ++ [commit]) sets = commitSteps commits sets ++ [.commit commit] := by
  induction commits generalizing sets with
  | nil =>
    have hnone : sets.filter (fun set => set.anchorCommitId = some commit.id) = [] :=
      List.filter_eq_nil_iff.mpr (by simpa using hfresh)
    simp [commitSteps, hnone]
  | cons first commits ih =>
    rw [List.cons_append, commitSteps, commitSteps,
      ih fun set hset => hfresh set (List.mem_filter.mp hset).1, List.cons_append,
      List.append_assoc]

/-- A change set after everything else: anchored at the last commit, if there is one. -/
theorem foldSteps_append_set {set : VisibilityChangeSet} (hnodup : (commits.map (·.id)).Nodup)
    (hanchor : ∀ last ∈ commits.getLast?, set.anchorCommitId = some last.id) :
    foldSteps ⟨repoId, commits⟩ (sets ++ [set]) =
      foldSteps ⟨repoId, commits⟩ sets ++ [.set set] := by
  cases hlast : commits.getLast? with
  | none =>
    obtain rfl := List.getLast?_eq_none_iff.mp hlast
    have hunanchored : isAnchored [] = fun _ => false := by
      funext set
      cases set with
      | mk _ _ anchor => cases anchor <;> rfl
    simp [foldSteps, commitSteps, hunanchored]
  | some last =>
    have hset := hanchor last hlast
    have hanchored : isAnchored commits set = true := by
      rw [isAnchored, hset, Option.any_some, List.any_eq_true]
      exact ⟨last, List.mem_of_getLast? hlast, by simp⟩
    have hfirst : [set].filter (fun set => !isAnchored commits set) = [] := by simp [hanchored]
    have hrest : [set].filter (isAnchored commits) = [set] := by simp [hanchored]
    rw [foldSteps, foldSteps, List.filter_append, List.filter_append, hfirst, hrest, List.append_nil,
      commitSteps_append_set hnodup hlast hset, List.append_assoc]

/-- A commit after everything else: no change set is anchored at it yet. -/
theorem foldSteps_append_commit {commit : LogicalCommit}
    (hfresh : ∀ set ∈ sets, set.anchorCommitId ≠ some commit.id) :
    foldSteps ⟨repoId, commits ++ [commit]⟩ sets =
      foldSteps ⟨repoId, commits⟩ sets ++ [.commit commit] := by
  have hanchored : ∀ set ∈ sets, isAnchored (commits ++ [commit]) set = isAnchored commits set := by
    intro set hset
    have hne := hfresh set hset
    cases hanchor : set.anchorCommitId with
    | none => simp [isAnchored, hanchor]
    | some anchor =>
      have hother : ¬commit.id = anchor := fun heq => hne (by rw [hanchor, heq])
      simp [isAnchored, hanchor, hother]
  rw [foldSteps, foldSteps, List.filter_congr hanchored,
    List.filter_congr fun set hset => congrArg Bool.not (hanchored set hset),
    commitSteps_append_commit fun set hset => hfresh set (List.mem_filter.mp hset).1,
    List.append_assoc]

end Append

/-! ## Files with their labels -/

/-- The files of a tree with their labels, by path. -/
abbrev LabelledTree := SortedMap ScopePath (SourceBlob × ViewId)

namespace LabelledTree

def applyChange (tree : LabelledTree) (change : FileChange) : LabelledTree :=
  match change.newContent with
  | some blob => tree.insert change.path (blob, change.label)
  | none => tree.erase change.path

def applyCommit (tree : LabelledTree) (commit : LogicalCommit) : LabelledTree :=
  commit.changes.foldl applyChange tree

def relabelChange (tree : LabelledTree) (change : VisibilityChange) : LabelledTree :=
  match tree.get? change.path with
  | some (blob, _) => tree.insert change.path (blob, change.newLabel)
  | none => tree

def relabel (tree : LabelledTree) (set : VisibilityChangeSet) : LabelledTree :=
  set.changes.foldl relabelChange tree

def foldStep (tree : LabelledTree) : FoldStep → LabelledTree
  | .commit commit => tree.applyCommit commit
  | .set set => tree.relabel set

/-- `LabelledTree::fold`. -/
def fold (tree : LabelledTree) (graph : SourceGraph) (sets : List VisibilityChangeSet) :
    LabelledTree :=
  (foldSteps graph sets).foldl foldStep tree

/-- The files of a tree that a view shows. -/
def viewFiles (tree : LabelledTree) (views : Views) (view : ViewId) : LiveFiles :=
  (tree.filter fun path file => views.shows view path file.2).mapValues fun _ file => file.1

end LabelledTree

end ScopeVcs

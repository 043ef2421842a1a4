import ScopeVcs.GitTree.Refinement

/-! # Incremental identity

A projection head that is resumed from its last commit id and its files goes on exactly as the head
that applied all commits. The ids of generated commits are those of the canonical trees of the files
that the commits leave.
-/

namespace ScopeVcs

open Mutation (except_bind_eq_ok)
open Machine (Rel)

variable {gitObjectOid : String → List UInt8 → String}

/-! ## Heads over trees refine heads over flat files -/

/-- The same error, up to the path that a conflict names. -/
def SameError (e e' : ProjectionIdentityError) : Prop :=
  e = e' ∨ ∃ path path', e = .pathConflict path ∧ e' = .pathConflict path'

theorem SameError.refl (e : ProjectionIdentityError) : SameError e e := .inl rfl

variable (gitObjectOid) in
/-- A state over a tree and one over the files of the tree. -/
structure HeadState.Refines (state : HeadState) (flat : FlatState) : Prop where
  tree : state.tree.Represents gitObjectOid flat.files
  parentOid : state.parentOid = flat.parentOid
  nativeRange : state.nativeRange = flat.nativeRange

variable (gitObjectOid) in
structure ProjectionHead.Refines (head : ProjectionHead) (flat : FlatHead) : Prop where
  tree : head.tree.Represents gitObjectOid flat.files
  oid : head.oid = flat.oid

theorem Tree.Represents.oid {tree : Tree} {files : LiveFiles}
    (h : tree.Represents gitObjectOid files) :
    Rel SameError (fun a b => a.1 = b ∧ a.2.Represents gitObjectOid files)
      (tree.oid gitObjectOid) (LiveFiles.treeOid gitObjectOid files) := by
  obtain ⟨tree', hoid, hrefreshed⟩ := h.sound.oid
  rw [hoid, h.treeOid]
  cases hfresh : tree.freshOid gitObjectOid with
  | error error => exact .error (.refl error)
  | ok oid => exact .ok ⟨rfl, h.refreshed (hrefreshed oid hfresh)⟩

namespace HeadState.Refines

variable {state : HeadState} {flat : FlatState}

theorem closeRange (h : state.Refines gitObjectOid flat) (commit : ProjectedCommit) :
    Rel SameError (HeadState.Refines gitObjectOid) (state.closeRange gitObjectOid commit)
      (flat.closeRange gitObjectOid commit) := by
  rw [HeadState.closeRange, FlatState.closeRange, h.nativeRange]
  cases flat.nativeRange with
  | none => exact .ok h
  | some range =>
    dsimp only
    split_ifs with hother
    · refine h.tree.oid.bind ?_
      rintro ⟨oid, tree⟩ _ ⟨rfl, htree⟩
      refine (Rel.refl SameError.refl (fun _ => rfl) (validateNativeRange range oid)).bind ?_
      rintro _ _ (rfl : _ = _)
      exact .ok ⟨htree, h.parentOid, rfl⟩
    · exact .ok h

theorem applyDelta (h : state.Refines gitObjectOid flat) (commit : ProjectedCommit) :
    Rel SameError (fun tree files => tree.Represents gitObjectOid files ∧
        files = commit.applyTo flat.files)
      (treeDelta commit >>= state.tree.applyDelta) (FlatState.applyChanges flat.files commit) := by
  rw [FlatState.applyChanges]
  cases hdelta : treeDelta commit with
  | error error => exact .error (.refl error)
  | ok delta =>
    rcases h.tree.applyDelta hdelta with ⟨tree, hok, htree⟩ | ⟨⟨conflict, herror⟩, hconflict⟩
    · have hfree := htree.hasPathConflict_eq_false
      change Rel _ _ (state.tree.applyDelta delta) _
      rw [hok]
      simp only [bind, Except.bind, hfree, Bool.false_eq_true, if_false]
      exact .ok ⟨htree, rfl⟩
    · change Rel _ _ (state.tree.applyDelta delta) _
      rw [herror]
      simp only [bind, Except.bind, hconflict, if_true]
      exact .error (.inr ⟨conflict, "", rfl, rfl⟩)

theorem applyCommit (h : state.Refines gitObjectOid flat) (commit : ProjectedCommit) :
    Rel SameError (fun a b => a.1 = b.1 ∧ a.2.Refines gitObjectOid b.2)
      (state.applyCommit gitObjectOid commit) (flat.applyCommit gitObjectOid commit) := by
  rw [HeadState.applyCommit, FlatState.applyCommit]
  refine (h.closeRange commit).bind fun state flat h => ?_
  rw [← bind_assoc]
  refine (h.applyDelta commit).bind ?_
  rintro tree files ⟨htree, -⟩
  refine htree.oid.bind ?_
  rintro ⟨oid, tree⟩ _ ⟨rfl, htree⟩
  rw [h.parentOid, h.nativeRange]
  refine (Rel.refl SameError.refl (fun _ => rfl) (materialize gitObjectOid commit oid
    flat.parentOid flat.nativeRange)).bind ?_
  rintro ⟨commitOid, range⟩ _ rfl
  exact .ok ⟨rfl, htree, rfl, rfl⟩

theorem finish (h : state.Refines gitObjectOid flat) :
    Rel SameError (ProjectionHead.Refines gitObjectOid) (state.finish gitObjectOid)
      (flat.finish gitObjectOid) := by
  rw [HeadState.finish, FlatState.finish, h.nativeRange]
  cases flat.nativeRange with
  | none => exact .ok ⟨h.tree, h.parentOid⟩
  | some range =>
    refine h.tree.oid.bind ?_
    rintro ⟨oid, tree⟩ _ ⟨rfl, htree⟩
    refine (Rel.refl SameError.refl (fun _ => rfl) (validateNativeRange range oid)).bind ?_
    rintro _ _ (rfl : _ = _)
    exact .ok ⟨htree, h.parentOid⟩

end HeadState.Refines

/-- Applying commits to a tree does what applying them to its files does. -/
theorem ProjectionHead.Refines.applyEach {head : ProjectionHead} {flat : FlatHead}
    (h : head.Refines gitObjectOid flat) (commits : List ProjectedCommit) :
    Rel SameError (fun a b => a.1 = b.1 ∧ a.2.Refines gitObjectOid b.2)
      (head.applyEach gitObjectOid commits) (flat.applyEach gitObjectOid commits) := by
  have hstart : HeadState.Refines gitObjectOid ⟨head.tree, head.oid, none⟩
      ⟨flat.files, flat.oid, none⟩ := ⟨h.tree, h.oid, rfl⟩
  refine (Rel.runAll (fun state flat commit h => h.applyCommit commit) hstart commits).bind ?_
  rintro ⟨oids, state⟩ ⟨_, flat⟩ ⟨rfl, hstate⟩
  refine hstate.finish.bind fun head flat h => ?_
  exact .ok ⟨rfl, h⟩

theorem ProjectionHead.refines_start :
    ProjectionHead.start.Refines gitObjectOid ⟨∅, none⟩ :=
  ⟨Tree.represents_empty, rfl⟩

/-! ## Runs over flat files -/

namespace FlatState

theorem closeRange_eq_ok {state state' : FlatState} {commit : ProjectedCommit}
    (h : state.closeRange gitObjectOid commit = .ok state') :
    state'.files = state.files ∧ state'.parentOid = state.parentOid ∧
      ∀ range, state'.nativeRange = some range →
        range.logicalCommitId = commit.logicalCommitId := by
  rw [closeRange] at h
  split at h
  · rename_i hnone
    cases h
    refine ⟨rfl, rfl, fun range hrange => ?_⟩
    rw [hnone] at hrange
    cases hrange
  · rename_i range hsome
    split_ifs at h with hother
    · simp only [except_bind_eq_ok] at h
      obtain ⟨oid, -, -, -, h⟩ := h
      cases h
      exact ⟨rfl, rfl, fun _ hrange => by cases hrange⟩
    · cases h
      refine ⟨rfl, rfl, fun range' hrange' => ?_⟩
      rw [hsome] at hrange'
      rw [← Option.some.inj hrange']
      exact not_not.mp hother

theorem applyChanges_eq_ok {files files' : LiveFiles} {commit : ProjectedCommit}
    (h : applyChanges files commit = .ok files') : files' = commit.applyTo files := by
  rw [applyChanges] at h
  obtain ⟨delta, -, h⟩ := except_bind_eq_ok.mp h
  simp only [bind, Except.bind, throw, throwThe, MonadExceptOf.throw, pure, Except.pure] at h
  split_ifs at h
  cases h
  rfl

theorem materialize_logicalCommitId {commit : ProjectedCommit} {treeOid : GitOid}
    {parentOid : Option String} {nativeRange nativeRange' : Option NativeRange} {oid : String}
    (h : materialize gitObjectOid commit treeOid parentOid nativeRange = .ok (oid, nativeRange'))
    (hrange : ∀ range, nativeRange = some range → range.logicalCommitId = commit.logicalCommitId) :
    ∀ range, nativeRange' = some range → range.logicalCommitId = commit.logicalCommitId := by
  intro range' hrange'
  rw [materialize] at h
  split at h
  · obtain ⟨-, -, h⟩ := except_bind_eq_ok.mp h
    cases h
    cases hrange'
  · simp only [except_bind_eq_ok] at h
    obtain ⟨-, -, preserved, -, expected, -, h⟩ := h
    cases parentOid with
    | none => cases h
    | some baseOid =>
      cases h
      cases hrange'
      cases nativeRange with
      | none => rfl
      | some range => exact hrange range rfl

/-- What one commit does to a state. -/
structure Applied (gitObjectOid : String → List UInt8 → String) (state : FlatState)
    (commit : ProjectedCommit) (oid : String) (state' : FlatState) : Prop where
  files : state'.files = commit.applyTo state.files
  parentOid : state'.parentOid = some oid
  nativeRange : ∀ range, state'.nativeRange = some range →
    range.logicalCommitId = commit.logicalCommitId
  generated : commit.materialization = .generate → ∃ treeOid,
    LiveFiles.treeOid gitObjectOid state'.files = .ok treeOid ∧
      oid = generatedCommitOid gitObjectOid treeOid state.parentOid (commit.message ++ "\n")

theorem applyCommit_eq_ok {state state' : FlatState} {commit : ProjectedCommit} {oid : String}
    (h : state.applyCommit gitObjectOid commit = .ok (oid, state')) :
    Applied gitObjectOid state commit oid state' := by
  rw [applyCommit] at h
  obtain ⟨middle, hclose, h⟩ := except_bind_eq_ok.mp h
  obtain ⟨files, hfiles, h⟩ := except_bind_eq_ok.mp h
  obtain ⟨treeOid, htree, h⟩ := except_bind_eq_ok.mp h
  obtain ⟨⟨oid', range⟩, hmaterialize, h⟩ := except_bind_eq_ok.mp h
  cases h
  obtain ⟨hsame, hparent, hrange⟩ := closeRange_eq_ok hclose
  refine ⟨?_, rfl, materialize_logicalCommitId hmaterialize hrange, fun hgenerate => ?_⟩
  · rw [← hsame]
    exact applyChanges_eq_ok hfiles
  · refine ⟨treeOid, htree, ?_⟩
    rw [materialize, hgenerate] at hmaterialize
    obtain ⟨-, -, hok⟩ := except_bind_eq_ok.mp hmaterialize
    cases hok
    rw [hparent]

theorem runAll_eq_ok {commits : List ProjectedCommit} {state state' : FlatState}
    {oids : List String}
    (h : Machine.runAll (applyCommit gitObjectOid) state commits = .ok (oids, state')) :
    state'.files = applyCommits commits state.files ∧
      state'.parentOid = oids.getLast?.or state.parentOid := by
  induction commits generalizing state oids with
  | nil =>
    cases h
    exact ⟨rfl, rfl⟩
  | cons commit commits ih =>
    obtain ⟨oid, middle, rest, hcommit, hrest, rfl⟩ := Machine.runAll_cons_eq_ok.mp h
    obtain ⟨hfiles, hparent⟩ := ih hrest
    have happlied := applyCommit_eq_ok hcommit
    rw [hfiles, hparent, happlied.files, happlied.parentOid]
    refine ⟨rfl, ?_⟩
    cases rest with
    | nil => rfl
    | cons next rest => simp [List.getLast?_cons]

/-- An open range belongs to the last commit. -/
theorem nativeRange_of_runAll {commits : List ProjectedCommit} {state state' : FlatState}
    {oids : List String} (hstate : state.nativeRange = none)
    (h : Machine.runAll (applyCommit gitObjectOid) state commits = .ok (oids, state'))
    {range : NativeRange} (hrange : state'.nativeRange = some range) :
    ∃ last ∈ commits.getLast?, range.logicalCommitId = last.logicalCommitId := by
  rcases List.eq_nil_or_concat commits with rfl | ⟨start, last, rfl⟩
  · cases h
    rw [hstate] at hrange
    cases hrange
  · rw [List.concat_eq_append, Machine.runAll_append_eq_ok] at h
    obtain ⟨oids₁, middle, oids₂, -, hlast, -⟩ := h
    obtain ⟨oid, state'', rest, hcommit, hnil, -⟩ := Machine.runAll_cons_eq_ok.mp hlast
    cases hnil
    exact ⟨last, by simp, (applyCommit_eq_ok hcommit).nativeRange range hrange⟩

/-- Closing a range at the end of a sequence or at the next logical commit is the same. -/
theorem applyCommit_eq_finish {state : FlatState} {commit : ProjectedCommit}
    (h : ∀ range, state.nativeRange = some range →
      range.logicalCommitId ≠ commit.logicalCommitId) :
    state.applyCommit gitObjectOid commit = (state.finish gitObjectOid >>= fun head =>
      FlatState.applyCommit gitObjectOid ⟨head.files, head.oid, none⟩ commit) := by
  obtain ⟨files, parentOid, nativeRange⟩ := state
  cases nativeRange with
  | none => rfl
  | some range =>
    have hother := h range rfl
    simp only [applyCommit, closeRange, finish, hother, ne_eq, not_false_eq_true, if_true,
      bind_assoc, pure_bind]
    rfl

end FlatState

variable (gitObjectOid) in
/-- A sequence may be applied in two parts, unless they share a logical commit. -/
theorem FlatHead.applyEach_append (head : FlatHead) {commits commits' : List ProjectedCommit}
    (hsplit : ∀ last ∈ commits.getLast?, ∀ next ∈ commits'.head?,
      last.logicalCommitId ≠ next.logicalCommitId) :
    head.applyEach gitObjectOid (commits ++ commits') = do
      let (oids, middle) ← head.applyEach gitObjectOid commits
      let (oids', last) ← middle.applyEach gitObjectOid commits'
      return (oids ++ oids', last) := by
  rw [applyEach, applyEach, Machine.runAll_append]
  cases hrun : Machine.runAll (FlatState.applyCommit gitObjectOid) ⟨head.files, head.oid, none⟩
      commits with
  | error error => rfl
  | ok result =>
    obtain ⟨oids, state⟩ := result
    cases commits' with
    | nil =>
      change state.finish gitObjectOid >>= _ = (state.finish gitObjectOid >>= _) >>= _
      cases state.finish gitObjectOid with
      | error error => rfl
      | ok last =>
        change Except.ok (oids ++ [], last) = Except.ok (oids ++ [], last)
        rfl
    | cons next commits' =>
      have hrange : ∀ range, state.nativeRange = some range →
          range.logicalCommitId ≠ next.logicalCommitId := by
        intro range hrange
        obtain ⟨last, hlast, hid⟩ := FlatState.nativeRange_of_runAll rfl hrun hrange
        rw [hid]
        exact hsplit last hlast next rfl
      have hnext : state.applyCommit gitObjectOid next = (state.finish gitObjectOid >>=
          fun head => FlatState.applyCommit gitObjectOid ⟨head.files, head.oid, none⟩ next) :=
        FlatState.applyCommit_eq_finish hrange
      simp only [applyEach, Machine.runAll, bind_assoc, pure_bind]
      change (state.applyCommit gitObjectOid next >>= _) = (state.finish gitObjectOid >>= _)
      rw [hnext]
      simp only [bind_assoc]

/-- What a sequence of commits on flat files leaves. -/
theorem FlatHead.applyEach_eq_ok {head head' : FlatHead} {commits : List ProjectedCommit}
    {oids : List String} (h : head.applyEach gitObjectOid commits = .ok (oids, head')) :
    head'.files = applyCommits commits head.files ∧ head'.oid = oids.getLast?.or head.oid ∧
      ∃ state, Machine.runAll (FlatState.applyCommit gitObjectOid) ⟨head.files, head.oid, none⟩
        commits = .ok (oids, state) := by
  rw [applyEach] at h
  obtain ⟨⟨oids', state⟩, hrun, h⟩ := except_bind_eq_ok.mp h
  obtain ⟨last, hfinish, h⟩ := except_bind_eq_ok.mp h
  cases h
  obtain ⟨hfiles, hparent⟩ := FlatState.runAll_eq_ok hrun
  have hlast : head'.files = state.files ∧ head'.oid = state.parentOid := by
    rw [FlatState.finish] at hfinish
    split at hfinish
    · cases hfinish
      exact ⟨rfl, rfl⟩
    · simp only [except_bind_eq_ok] at hfinish
      obtain ⟨-, -, -, -, hok⟩ := hfinish
      cases hok
      exact ⟨rfl, rfl⟩
  rw [hlast.1, hlast.2, hfiles, hparent]
  exact ⟨rfl, rfl, state, hrun⟩

/-- A generated commit in a sequence on flat files. -/
theorem FlatHead.generated_of_applyEach {head head' : FlatHead} {commits : List ProjectedCommit}
    {oids : List String} (h : head.applyEach gitObjectOid commits = .ok (oids, head')) {i : ℕ}
    {commit : ProjectedCommit} (hcommit : commits[i]? = some commit)
    (hgenerate : commit.materialization = .generate) :
    ∃ treeOid, LiveFiles.treeOid gitObjectOid
        (applyCommits (commits.take (i + 1)) head.files) = .ok treeOid ∧
      oids[i]? = some (generatedCommitOid gitObjectOid treeOid
        ((oids.take i).getLast?.or head.oid) (commit.message ++ "\n")) := by
  obtain ⟨-, -, state, hrun⟩ := applyEach_eq_ok h
  obtain ⟨hi, hget⟩ := List.getElem?_eq_some_iff.mp hcommit
  have hsplit : commits = commits.take i ++ commit :: commits.drop (i + 1) := by
    rw [← hget, List.getElem_cons_drop, List.take_append_drop]
  rw [hsplit, Machine.runAll_append_eq_ok] at hrun
  obtain ⟨oids₁, middle, oids₂, hfirst, hsecond, rfl⟩ := hrun
  obtain ⟨oid, after, rest, hstep, -, rfl⟩ := Machine.runAll_cons_eq_ok.mp hsecond
  have hlength : oids₁.length = i := by
    rw [Machine.length_of_runAll hfirst, List.length_take]
    omega
  obtain ⟨hfiles, hparent⟩ := FlatState.runAll_eq_ok hfirst
  have happlied := FlatState.applyCommit_eq_ok hstep
  obtain ⟨treeOid, htree, hoid⟩ := happlied.generated hgenerate
  have hafter : after.files = applyCommits (commits.take (i + 1)) head.files := by
    rw [happlied.files, hfiles, List.take_add_one, hcommit, applyCommits_append]
    rfl
  refine ⟨treeOid, hafter ▸ htree, ?_⟩
  rw [List.getElem?_append_right hlength.le, hlength, Nat.sub_self, List.take_left' hlength,
    ← hparent, ← hoid]
  rfl

/-! ## The identity of a resumed head -/

namespace ProjectionHead

/-- A head that applied a sequence represents the files that the sequence leaves. -/
theorem represents_of_applyEach {commits : List ProjectedCommit} {oids : List String}
    {head : ProjectionHead} (h : start.applyEach gitObjectOid commits = .ok (oids, head)) :
    FlatHead.applyEach gitObjectOid ⟨∅, none⟩ commits =
        .ok (oids, ⟨applyCommits commits ∅, oids.getLast?⟩) ∧
      head.tree.Represents gitObjectOid (applyCommits commits ∅) := by
  obtain ⟨⟨_, flat⟩, hflat, rfl, hrefines⟩ := (refines_start.applyEach commits).exists_of_ok h
  obtain ⟨hfiles, hoid, -⟩ := FlatHead.applyEach_eq_ok hflat
  obtain ⟨files, oid⟩ := flat
  obtain rfl : files = applyCommits commits ∅ := hfiles
  obtain rfl : oid = oids.getLast? := by simpa using hoid
  exact ⟨hflat, hrefines.tree⟩

/-- Resuming after a part of a sequence goes on as the whole sequence does. -/
theorem exists_resume {commits commits' : List ProjectedCommit}
    (hsplit : ∀ last ∈ commits.getLast?, ∀ next ∈ commits'.head?,
      last.logicalCommitId ≠ next.logicalCommitId) {oids : List String} {head : ProjectionHead}
    (h : start.applyEach gitObjectOid commits = .ok (oids, head)) :
    ∃ resumed, resume oids.getLast? (applyCommits commits ∅) = .ok resumed ∧
      ∀ oids', (∃ last, resumed.applyEach gitObjectOid commits' = .ok (oids', last)) ↔
        ∃ last, start.applyEach gitObjectOid (commits ++ commits') = .ok (oids ++ oids', last) := by
  obtain ⟨hflat, hrepresents⟩ := represents_of_applyEach h
  obtain ⟨resumed, hresume, hoid, htree⟩ := hrepresents.resume oids.getLast?
  refine ⟨resumed, hresume, fun oids' => ?_⟩
  have hresumed : resumed.Refines gitObjectOid ⟨applyCommits commits ∅, oids.getLast?⟩ :=
    ⟨htree, hoid⟩
  have hwhole := FlatHead.applyEach_append gitObjectOid ⟨∅, none⟩ hsplit
  rw [hflat] at hwhole
  constructor
  · rintro ⟨last, hlast⟩
    obtain ⟨⟨_, flat⟩, hok, rfl, -⟩ := (hresumed.applyEach commits').exists_of_ok hlast
    have hall : FlatHead.applyEach gitObjectOid ⟨∅, none⟩ (commits ++ commits') =
        .ok (oids ++ oids', flat) := by
      rw [hwhole]
      change (FlatHead.applyEach gitObjectOid _ commits' >>= _) = _
      rw [hok]
      rfl
    obtain ⟨⟨_, last⟩, hstart, rfl, -⟩ :=
      (refines_start.applyEach (commits ++ commits')).exists_of_ok_right hall
    exact ⟨last, hstart⟩
  · rintro ⟨last, hlast⟩
    obtain ⟨⟨_, flat⟩, hok, hsame, -⟩ :=
      (refines_start.applyEach (commits ++ commits')).exists_of_ok hlast
    rw [hwhole] at hok
    change (FlatHead.applyEach gitObjectOid _ commits' >>= _) = _ at hok
    obtain ⟨⟨oids'', flat'⟩, hflat', hok⟩ := except_bind_eq_ok.mp hok
    cases hok
    obtain rfl : oids' = oids'' := List.append_cancel_left hsame
    obtain ⟨⟨_, last⟩, hresumed', rfl, -⟩ :=
      (hresumed.applyEach commits').exists_of_ok_right hflat'
    exact ⟨last, hresumed'⟩

/-- When a sequence succeeds, so does its first part. -/
theorem exists_applyEach_of_append {commits commits' : List ProjectedCommit}
    (hsplit : ∀ last ∈ commits.getLast?, ∀ next ∈ commits'.head?,
      last.logicalCommitId ≠ next.logicalCommitId) {oids : List String} {last : ProjectionHead}
    (h : start.applyEach gitObjectOid (commits ++ commits') = .ok (oids, last)) :
    ∃ oids₁ oids₂ head, oids = oids₁ ++ oids₂ ∧
      start.applyEach gitObjectOid commits = .ok (oids₁, head) := by
  obtain ⟨⟨_, flat⟩, hok, rfl, -⟩ :=
    (refines_start.applyEach (commits ++ commits')).exists_of_ok h
  rw [FlatHead.applyEach_append gitObjectOid _ hsplit] at hok
  obtain ⟨⟨oids₁, middle⟩, hfirst, hok⟩ := except_bind_eq_ok.mp hok
  obtain ⟨⟨oids₂, last'⟩, -, hok⟩ := except_bind_eq_ok.mp hok
  cases hok
  obtain ⟨⟨oids, head⟩, hstart, hsame, -⟩ :=
    (refines_start.applyEach commits).exists_of_ok_right hfirst
  obtain rfl : oids = oids₁ := hsame
  exact ⟨oids, oids₂, head, rfl, hstart⟩

/-- The state before a commit, with the range of an earlier logical commit closed. -/
def ReachesCommit (gitObjectOid : String → List UInt8 → String) (commits : List ProjectedCommit)
    (commit : ProjectedCommit) (state : HeadState) : Prop :=
  ∃ oids before, Machine.runAll (HeadState.applyCommit gitObjectOid) ⟨.empty, none, none⟩ commits =
    .ok (oids, before) ∧ before.closeRange gitObjectOid commit = .ok state

/-- The tree step of a commit meets the files that the commits so far leave. -/
theorem applyDelta_of_reachesCommit {commits : List ProjectedCommit} {commit : ProjectedCommit}
    {state : HeadState} (h : ReachesCommit gitObjectOid commits commit state) {delta : TreeDelta}
    (hdelta : treeDelta commit = .ok delta) :
    ((∃ path, state.tree.applyDelta delta = .error (.pathConflict path)) ↔
        LiveFiles.hasPathConflict (applyCommits (commits ++ [commit]) ∅) = true) ∧
      ∀ error, state.tree.applyDelta delta = .error error → ∃ path, error = .pathConflict path := by
  obtain ⟨oids, before, hrun, hclose⟩ := h
  have hstart : HeadState.Refines gitObjectOid ⟨.empty, none, none⟩ ⟨∅, none, none⟩ :=
    ⟨Tree.represents_empty, rfl, rfl⟩
  obtain ⟨⟨_, flat⟩, hflat, rfl, hrefines⟩ :=
    (Rel.runAll (fun state flat commit h => h.applyCommit commit) hstart commits).exists_of_ok hrun
  obtain ⟨flat', hflat', hrefines'⟩ := (hrefines.closeRange commit).exists_of_ok hclose
  have hfiles : applyCommits (commits ++ [commit]) ∅ = commit.applyTo flat'.files := by
    rw [(FlatState.closeRange_eq_ok hflat').1, (FlatState.runAll_eq_ok hflat).1,
      applyCommits_append]
    rfl
  rw [hfiles]
  rcases hrefines'.tree.applyDelta hdelta with ⟨tree, hok, htree⟩ | ⟨⟨conflict, herror⟩, hconflict⟩
  · rw [hok, htree.hasPathConflict_eq_false]
    simp
  · rw [herror, hconflict]
    simp

/-- The incremental Git identity of a projection is the one computed from scratch. -/
theorem incremental_identity (gitObjectOid : String → List UInt8 → String)
    {commits commits' : List ProjectedCommit}
    (hsplit : ∀ last ∈ commits.getLast?, ∀ next ∈ commits'.head?,
      last.logicalCommitId ≠ next.logicalCommitId) :
    -- resuming from the last id and the files of a part goes on as the whole sequence does
    (∀ oids head, start.applyEach gitObjectOid commits = .ok (oids, head) →
      ∃ resumed, resume oids.getLast? (applyCommits commits ∅) = .ok resumed ∧
        ∀ oids', (∃ last, resumed.applyEach gitObjectOid commits' = .ok (oids', last)) ↔
          ∃ last, start.applyEach gitObjectOid (commits ++ commits') =
            .ok (oids ++ oids', last)) ∧
      -- and the whole sequence succeeds only if the part does
      (∀ oids last, start.applyEach gitObjectOid (commits ++ commits') = .ok (oids, last) →
        ∃ oids₁ oids₂ head, oids = oids₁ ++ oids₂ ∧
          start.applyEach gitObjectOid commits = .ok (oids₁, head)) ∧
      -- generated commits are hashed from the canonical trees of the files
      (∀ sequence oids head, start.applyEach gitObjectOid sequence = .ok (oids, head) →
        ∀ (i : ℕ) commit, sequence[i]? = some commit → commit.materialization = .generate →
          ∃ treeOid, LiveFiles.treeOid gitObjectOid (applyCommits (sequence.take (i + 1)) ∅) =
              .ok treeOid ∧
            oids[i]? = some (generatedCommitOid gitObjectOid treeOid (oids.take i).getLast?
              (commit.message ++ "\n"))) ∧
      -- the tree step of a commit fails on a path and a path below it, and on nothing else
      ∀ sequence commit state delta, ReachesCommit gitObjectOid sequence commit state →
        treeDelta commit = .ok delta →
          ((∃ path, state.tree.applyDelta delta = .error (.pathConflict path)) ↔
            LiveFiles.hasPathConflict (applyCommits (sequence ++ [commit]) ∅) = true) ∧
          ∀ error, state.tree.applyDelta delta = .error error →
            ∃ path, error = .pathConflict path := by
  refine ⟨fun oids head h => exists_resume hsplit h,
    fun oids last h => exists_applyEach_of_append hsplit h, ?_, ?_⟩
  · intro sequence oids head h i commit hcommit hgenerate
    obtain ⟨treeOid, htree, hoid⟩ :=
      FlatHead.generated_of_applyEach (represents_of_applyEach h).1 hcommit hgenerate
    refine ⟨treeOid, htree, ?_⟩
    rwa [Option.or_none] at hoid
  · exact fun sequence commit state delta h hdelta => applyDelta_of_reachesCommit h hdelta

/-- A hash that tells trees from commits. -/
def kindOid (kind : String) (_ : List UInt8) : String :=
  if kind = "tree" then "1111111111111111111111111111111111111111"
  else "2222222222222222222222222222222222222222"

def nestedFile : ProjectedCommit where
  projectedId := "public-1"
  logicalCommitId := "base"
  visibilityChangeSetId := none
  parentProjectedId := none
  author := none
  message := "Base"
  changes := [⟨⟨"/a/file", rfl⟩, some ⟨.blobSha256 "sha", "sha",
    "3333333333333333333333333333333333333333", "100644", 6⟩, .publicView⟩]
  materialization := .generate

def nestedToFlat : ProjectedCommit where
  projectedId := "public-2"
  logicalCommitId := "to-file"
  visibilityChangeSetId := none
  parentProjectedId := some "public-1"
  author := none
  message := "Directory to file"
  changes := [⟨⟨"/a", rfl⟩, some ⟨.blobSha256 "sha", "sha",
    "4444444444444444444444444444444444444444", "100644", 6⟩, .publicView⟩,
    ⟨⟨"/a/file", rfl⟩, none, .publicView⟩]
  materialization := .generate

/-- A directory that turns into a file, applied in two parts. -/
theorem incremental_identity_nestedToFlat :
    ∃ resumed, resume (some (kindOid "commit" [])) (applyCommits [nestedFile] ∅) = .ok resumed ∧
      ∀ oids', (∃ last, resumed.applyEach kindOid [nestedToFlat] = .ok (oids', last)) ↔
        ∃ last, start.applyEach kindOid [nestedFile, nestedToFlat] =
          .ok (kindOid "commit" [] :: oids', last) := by
  have hoids : (start.applyEach kindOid [nestedFile]).toOption.map Prod.fst =
      some [kindOid "commit" []] := by
    decide +kernel
  have hsplit : ∀ last ∈ [nestedFile].getLast?, ∀ next ∈ [nestedToFlat].head?,
      last.logicalCommitId ≠ next.logicalCommitId := by
    simp [nestedFile, nestedToFlat]
  cases hfirst : start.applyEach kindOid [nestedFile] with
  | error error =>
    rw [hfirst] at hoids
    cases hoids
  | ok result =>
    obtain ⟨oids, head⟩ := result
    rw [hfirst] at hoids
    obtain rfl : oids = [kindOid "commit" []] := Option.some.inj hoids
    exact (incremental_identity kindOid hsplit).1 _ head hfirst

end ProjectionHead

end ScopeVcs

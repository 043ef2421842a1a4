import ScopeVcs.Lib.Utf8
import ScopeVcs.Requests.Checks

/-! # The identity of a check evaluation

The id of an evaluation is the digest of its evidence, however the evaluation came about. The texts
of the evidence end with NUL and its number has eight bytes; whether the part about a check commit
is there is told by the tested commit, which differs from the head exactly then.
-/

namespace ScopeVcs.Requests

open Mutation

/-! ## What evaluations are made of -/

namespace RequestCheckEvaluation

/-- What every operation keeps up: a check commit differs from the head and is tested by GitHub
alone, and the id of a GitHub repository is positive. -/
structure Consistent (evaluation : RequestCheckEvaluation) : Prop where
  tested : evaluation.testedOid = evaluation.headOid ↔ evaluation.checkCommitBase = none
  native : evaluation.checkCommitBase ≠ none → evaluation.nativeChecks = []
  github : ∀ id ∈ evaluation.githubRepositoryId, 0 < id ∧ id < 2 ^ 64

/-- The id is the one that the evidence gives. -/
structure Identified (sha256Hex : List UInt8 → String) (evaluation : RequestCheckEvaluation) :
    Prop where
  consistent : evaluation.Consistent
  id_eq : evaluation.id = "evaluation_" ++ sha256Hex evaluation.evidence

variable {sha256Hex : List UInt8 → String} {evaluation : RequestCheckEvaluation}

theorem Consistent.renewIdentity (h : evaluation.Consistent) :
    (evaluation.renewIdentity sha256Hex).Identified sha256Hex where
  consistent := ⟨h.tested, h.native, h.github⟩
  id_eq := rfl

theorem ensureIdentity_eq_ok (h : evaluation.Identified sha256Hex) :
    evaluation.ensureIdentity sha256Hex = .ok () :=
  rejectIf_of_not (not_not.mpr h.id_eq.symm)

theorem consistent_unidentified (context : RequestCheckContext)
    (state : RequestCheckEvaluationState) (message : Option String) (checks : List RequestCheck)
    (nowUnix : ℕ) : (unidentified context state message checks nowUnix).Consistent where
  tested := iff_of_true rfl rfl
  native := fun h => absurd rfl h
  github := by simp [unidentified]

/-! ## New evaluations -/

section New

variable {context : RequestCheckContext} {state : RequestCheckEvaluationState}
  {message : Option String} {checks : List RequestCheck} {nowUnix : ℕ}

theorem new_eq_ok (h : new sha256Hex context state message checks nowUnix = .ok evaluation) :
    evaluation = (unidentified context state message checks nowUnix).renewIdentity sha256Hex := by
  simp only [new, except_unit_bind_eq_ok] at h
  obtain ⟨-, -, -, h⟩ := h
  cases h
  rfl

theorem noChecks_eq_ok (h : noChecks sha256Hex context nowUnix = .ok evaluation) :
    evaluation = (unidentified context .noChecks none [] nowUnix).renewIdentity sha256Hex :=
  new_eq_ok h

theorem awaitingApproval_eq_ok
    (h : awaitingApproval sha256Hex context checks nowUnix = .ok evaluation) :
    evaluation =
        (unidentified context .awaitingApproval none checks nowUnix).renewIdentity sha256Hex ∧
      ∀ check ∈ checks.filterMap RequestCheck.native?, check.runId = none := by
  simp only [awaitingApproval, except_unit_bind_eq_ok, rejectIf_eq_ok, not_or] at h
  obtain ⟨⟨-, hruns⟩, h⟩ := h
  refine ⟨new_eq_ok h, fun check hcheck => ?_⟩
  by_contra hrun
  exact hruns (List.any_eq_true.mpr ⟨check, hcheck, Option.isSome_iff_ne_none.mpr hrun⟩)

theorem started_eq_ok (h : started sha256Hex context checks nowUnix = .ok evaluation) :
    evaluation = (unidentified context .started none checks nowUnix).renewIdentity sha256Hex := by
  simp only [started, except_unit_bind_eq_ok] at h
  exact new_eq_ok h.2

theorem configurationError_eq_ok {text : String}
    (h : configurationError sha256Hex context text nowUnix = .ok evaluation) :
    evaluation = (unidentified context .configurationError (some text) []
      nowUnix).renewIdentity sha256Hex := by
  simp only [configurationError, except_unit_bind_eq_ok] at h
  exact new_eq_ok h.2

end New

/-! ## Changes -/

theorem flatMap_checkFields_assignRuns (checks : List RequestCheck) (runIds : List String) :
    (assignRuns checks runIds).flatMap checkFields = checks.flatMap checkFields := by
  fun_induction assignRuns checks runIds with
  | case1 check checks runId runIds ih => simp [checkFields, ih]
  | case2 name checks runIds ih => simp [ih]
  | case3 => rfl

theorem assignRuns_nil (checks : List RequestCheck) : assignRuns checks [] = checks := by
  induction checks with
  | nil => rfl
  | cons check checks ih =>
    cases check with
    | native check => rfl
    | github name => rw [assignRuns, ih]

section Changes

variable {runIds : List String} {nowUnix : ℕ} {changed : RequestCheckEvaluation}

theorem approve_eq_ok (h : evaluation.approve runIds nowUnix = .ok changed) :
    runIds.length = evaluation.nativeChecks.length ∧
      changed = { evaluation with
        checks := assignRuns evaluation.checks runIds
        state := .started
        updatedAtUnix := nowUnix } := by
  simp only [approve, except_unit_bind_eq_ok, rejectIf_eq_ok, not_not] at h
  obtain ⟨-, hlen, -, -, h⟩ := h
  cases h
  exact ⟨hlen, rfl⟩

/-- Approval changes nothing of the evidence. -/
theorem Identified.approve (h : evaluation.Identified sha256Hex)
    (hok : evaluation.approve runIds nowUnix = .ok changed) : changed.Identified sha256Hex := by
  obtain ⟨hlen, rfl⟩ := approve_eq_ok hok
  refine ⟨⟨h.consistent.tested, fun hbase => ?_, h.consistent.github⟩, ?_⟩
  · have hnone := h.consistent.native hbase
    rw [hnone] at hlen
    obtain rfl := List.length_eq_zero_iff.mp hlen
    show (assignRuns evaluation.checks []).filterMap RequestCheck.native? = []
    rw [assignRuns_nil]
    exact hnone
  · show evaluation.id = _
    rw [h.id_eq]
    simp only [evidence, flatMap_checkFields_assignRuns]

theorem Consistent.testCheckCommit {oid : String} {base : CheckCommitBase}
    (h : evaluation.Consistent) (hok : evaluation.testCheckCommit oid base = .ok changed) :
    changed.Consistent := by
  simp only [RequestCheckEvaluation.testCheckCommit, except_unit_bind_eq_ok, rejectIf_eq_ok,
    not_or, not_not] at hok
  obtain ⟨-, ⟨hoid, hnative⟩, hok⟩ := hok
  cases hok
  refine ⟨?_, fun _ => hnative, h.github⟩
  exact iff_of_false hoid (Option.some_ne_none base)

theorem testCheckCommit_checks {oid : String} {base : CheckCommitBase}
    (hok : evaluation.testCheckCommit oid base = .ok changed) :
    changed.nativeChecks = evaluation.nativeChecks := by
  simp only [RequestCheckEvaluation.testCheckCommit, except_unit_bind_eq_ok] at hok
  obtain ⟨-, -, hok⟩ := hok
  cases hok
  rfl

/-- Who waits for native runs has native checks, so its head is what is tested, and dropping the
runs leaves the evidence as it was. -/
theorem Identified.withdrawNativeRuns {runStates : List (String × RunState)}
    (h : evaluation.Identified sha256Hex)
    (hok : evaluation.withdrawNativeRuns sha256Hex runStates nowUnix = .ok (some changed)) :
    changed.Identified sha256Hex := by
  unfold RequestCheckEvaluation.withdrawNativeRuns at hok
  split at hok
  · cases hok
  rename_i hwaits
  rw [Bool.not_eq_false] at hwaits
  have hnative : evaluation.nativeChecks ≠ [] := by
    intro hnone
    unfold waitsForNativeRuns at hwaits
    rw [hnone] at hwaits
    split at hwaits <;> cases hwaits
  have hbase : evaluation.checkCommitBase = none := by
    by_contra hbase
    exact hnative (h.consistent.native hbase)
  obtain ⟨withdrawn, hwithdrawn, hok⟩ := except_bind_eq_ok.mp hok
  obtain rfl := configurationError_eq_ok hwithdrawn
  cases hok
  refine ⟨⟨iff_of_true rfl rfl, fun h => absurd rfl h, h.consistent.github⟩, ?_⟩
  show evaluation.id = _
  rw [h.id_eq]
  have htested := h.consistent.tested.mpr hbase
  simp only [evidence, renewIdentity, unidentified, context, hbase, htested]

end Changes

end RequestCheckEvaluation

/-! ## Plans -/

/-- The run was planned for the check. -/
structure RunOf (check : NativeRequestCheck) (run : Run) : Prop where
  runId : check.runId = some run.id
  path : run.workflow.path = check.workflowPath
  digest : run.workflowRevisionDigest = check.workflowRevisionDigest

/-- The runs of a plan are those of the native checks, one for each and in order, unless the checks
still wait for approval: then no check has a run. -/
structure RequestCheckPlan.RunsMatch (plan : RequestCheckPlan) : Prop where
  started : plan.evaluation.state ≠ .awaitingApproval →
    List.Forall₂ RunOf plan.evaluation.nativeChecks plan.runs
  awaiting : plan.evaluation.state = .awaitingApproval →
    plan.runs = [] ∧ ∀ check ∈ plan.evaluation.nativeChecks, check.runId = none

theorem NativeRequestCheck.run_eq_ok {sha256Hex : List UInt8 → String} {check : NativeRequestCheck}
    {request : Request} {source : Option Content.SourceBlob} {evaluationId userId : String}
    {revision : WorkflowRevision} {nowUnix : ℕ} {run : Run}
    (h : check.run sha256Hex request source evaluationId revision userId nowUnix = .ok run) :
    run.workflow.path = check.workflowPath ∧
      run.workflowRevisionDigest = check.workflowRevisionDigest := by
  simp only [NativeRequestCheck.run, except_unit_bind_eq_ok, rejectIf_eq_ok, not_or, not_not] at h
  obtain ⟨⟨hdigest, hpath⟩, -, h⟩ := h
  cases source with
  | none => cases h
  | some source =>
    simp only [except_unit_bind_eq_ok] at h
    obtain ⟨-, rfl⟩ := Run.queued_eq_ok.mp (Run.queued_of_new h.2.2)
    exact ⟨hpath, hdigest⟩

theorem planRuns_eq_ok {sha256Hex : List UInt8 → String} {request : Request}
    {source : Option Content.SourceBlob} {evaluationId userId : String}
    {checks : List NativeRequestCheck} {revisions : List WorkflowRevision} {nowUnix : ℕ}
    {runs : List Run}
    (h : planRuns sha256Hex request source evaluationId checks revisions userId nowUnix =
      .ok runs) :
    List.Forall₂ (fun check run => run.workflow.path = check.workflowPath ∧
      run.workflowRevisionDigest = check.workflowRevisionDigest) checks runs := by
  simp only [planRuns, except_unit_bind_eq_ok, rejectIf_eq_ok, not_not] at h
  obtain ⟨hlen, h⟩ := h
  induction checks generalizing revisions runs with
  | nil =>
    cases h
    exact .nil
  | cons check checks ih =>
    cases revisions with
    | nil => cases hlen
    | cons revision revisions =>
      simp only [List.zip_cons_cons, List.mapM_cons, except_bind_eq_ok] at h
      obtain ⟨run, hrun, rest, hrest, h⟩ := h
      cases h
      exact .cons (NativeRequestCheck.run_eq_ok hrun) (ih (Nat.succ_inj.mp hlen) hrest)

/-- Checks that were approved with planned runs have these runs. -/
theorem forall₂_runOf {checks : List RequestCheck} {runs : List Run}
    (h : List.Forall₂ (fun check run => run.workflow.path = check.workflowPath ∧
      run.workflowRevisionDigest = check.workflowRevisionDigest)
      (checks.filterMap RequestCheck.native?) runs) :
    List.Forall₂ RunOf
      ((assignRuns checks (runs.map (·.id))).filterMap RequestCheck.native?) runs := by
  induction checks generalizing runs with
  | nil =>
    cases h
    exact .nil
  | cons check checks ih =>
    cases check with
    | native check =>
      obtain ⟨run, rest, hrun, hrest, rfl⟩ := List.forall₂_cons_left_iff.mp h
      exact .cons ⟨rfl, hrun.1, hrun.2⟩ (ih hrest)
    | github name =>
      have hassign : assignRuns (.github name :: checks) (runs.map (·.id)) =
          .github name :: assignRuns checks (runs.map (·.id)) := by
        cases runs <;> rfl
      rw [hassign]
      exact ih h

namespace RequestCheckPlan

variable {sha256Hex : List UInt8 → String} {request : Request}
  {source : Option Content.SourceBlob} {context : RequestCheckContext} {nowUnix : ℕ}
  {plan : RequestCheckPlan}

/-- Without native checks and without runs there is nothing to match. -/
theorem runsMatch_of_nil (hnative : plan.evaluation.nativeChecks = []) (hruns : plan.runs = []) :
    plan.RunsMatch where
  started := fun _ => by
    rw [hnative, hruns]
    exact .nil
  awaiting := fun _ => ⟨hruns, by simp [hnative]⟩

theorem runsMatch_of_approve {evaluation approved : RequestCheckEvaluation} {evaluationId : String}
    {revisions : List WorkflowRevision} {userId : String} {runs : List Run} {pushToGithub : Bool}
    (hruns : planRuns sha256Hex request source evaluationId evaluation.nativeChecks revisions userId
      nowUnix = .ok runs)
    (happrove : evaluation.approve (runs.map (·.id)) nowUnix = .ok approved) :
    RunsMatch ⟨approved, runs, pushToGithub⟩ := by
  obtain ⟨-, rfl⟩ := RequestCheckEvaluation.approve_eq_ok happrove
  exact ⟨fun _ => forall₂_runOf (planRuns_eq_ok hruns), fun h => nomatch h⟩

theorem nativeChecks_github (names : List String) :
    (names.map RequestCheck.github).filterMap RequestCheck.native? = [] := by
  simp [RequestCheck.native?]

theorem evaluate_spec {nativeRuns : NativeRunsAvailability}
    {revisions : Except String (List WorkflowRevision)}
    {reviewingPusher : Option RequestCheckReviewer}
    (h : evaluate sha256Hex request source context nativeRuns revisions reviewingPusher nowUnix =
      .ok plan) :
    plan.evaluation.Identified sha256Hex ∧ plan.RunsMatch := by
  -- an evaluation without checks
  have hnew : ∀ {state message evaluation}, evaluation =
      (RequestCheckEvaluation.unidentified context state message []
        nowUnix).renewIdentity sha256Hex →
      evaluation.Identified sha256Hex ∧ RunsMatch (ofNative evaluation []) := by
    rintro state message _ rfl
    exact ⟨(RequestCheckEvaluation.consistent_unidentified _ _ _ _ _).renewIdentity,
      runsMatch_of_nil rfl rfl⟩
  simp only [evaluate, except_unit_bind_eq_ok] at h
  obtain ⟨-, h⟩ := h
  split at h
  · obtain ⟨evaluation, hevaluation, h⟩ := except_bind_eq_ok.mp h
    cases h
    exact hnew (RequestCheckEvaluation.noChecks_eq_ok hevaluation)
  · split at h
    · obtain ⟨evaluation, hevaluation, h⟩ := except_bind_eq_ok.mp h
      cases h
      exact hnew (RequestCheckEvaluation.configurationError_eq_ok hevaluation)
    · obtain ⟨evaluation, hevaluation, h⟩ := except_bind_eq_ok.mp h
      cases h
      exact hnew (RequestCheckEvaluation.noChecks_eq_ok hevaluation)
    · obtain ⟨evaluation, hevaluation, h⟩ := except_bind_eq_ok.mp h
      obtain ⟨hnew, hnone⟩ := RequestCheckEvaluation.awaitingApproval_eq_ok hevaluation
      have hidentified : evaluation.Identified sha256Hex :=
        hnew ▸ (RequestCheckEvaluation.consistent_unidentified _ _ _ _ _).renewIdentity
      split at h
      · simp only [except_bind_eq_ok] at h
        obtain ⟨runs, hruns, approved, happrove, h⟩ := h
        cases h
        exact ⟨hidentified.approve happrove, runsMatch_of_approve hruns happrove⟩
      · cases h
        subst hnew
        exact ⟨hidentified, fun h => absurd rfl h, fun _ => ⟨rfl, hnone⟩⟩

theorem githubEvaluation_eq_ok {checks : List RequestCheck} {starts : Bool}
    {evaluation : RequestCheckEvaluation}
    (h : githubEvaluation sha256Hex context checks starts nowUnix = .ok evaluation) :
    evaluation.Consistent ∧ evaluation.checks = checks := by
  have hnew : ∀ {state message}, evaluation =
      (RequestCheckEvaluation.unidentified context state message checks
        nowUnix).renewIdentity sha256Hex →
      evaluation.Consistent ∧ evaluation.checks = checks := by
    rintro state message rfl
    exact ⟨RequestCheckEvaluation.consistent_unidentified _ _ _ _ _ |>.renewIdentity.consistent, rfl⟩
  unfold githubEvaluation at h
  split at h
  · rename_i hnil
    subst hnil
    exact hnew (RequestCheckEvaluation.noChecks_eq_ok h)
  · split at h
    · exact hnew (RequestCheckEvaluation.started_eq_ok h)
    · exact hnew (RequestCheckEvaluation.awaitingApproval_eq_ok h).1

theorem evaluateGithub_spec {views : Views} {github : GitHubRequestChecks}
    {reviewingPusher : Option RequestCheckReviewer}
    (h : evaluateGithub sha256Hex request context views github reviewingPusher nowUnix =
      .ok plan) :
    plan.evaluation.Identified sha256Hex ∧ plan.RunsMatch := by
  have hid : ∀ id ∈ some github.githubRepositoryId, 0 < id ∧ id < 2 ^ 64 := by
    rintro id ⟨⟩
    exact ⟨github.githubRepositoryId_pos, github.githubRepositoryId_lt⟩
  have hnative := nativeChecks_github github.requiredCheckNames
  simp only [evaluateGithub, except_unit_bind_eq_ok] at h
  obtain ⟨-, -, h⟩ := h
  split at h
  · obtain ⟨evaluation, hevaluation, h⟩ := except_bind_eq_ok.mp h
    obtain rfl := RequestCheckEvaluation.configurationError_eq_ok hevaluation
    cases h
    refine ⟨RequestCheckEvaluation.Consistent.renewIdentity ?_, runsMatch_of_nil hnative rfl⟩
    exact ⟨iff_of_true rfl rfl, fun h => absurd rfl h, hid⟩
  · obtain ⟨evaluation, hevaluation, h⟩ := except_bind_eq_ok.mp h
    obtain ⟨hconsistent, hchecks⟩ := githubEvaluation_eq_ok hevaluation
    cases h
    refine ⟨RequestCheckEvaluation.Consistent.renewIdentity ?_, runsMatch_of_nil ?_ rfl⟩
    · exact ⟨hconsistent.tested, hconsistent.native, hid⟩
    · exact (congrArg (List.filterMap RequestCheck.native?) hchecks).trans hnative
  · obtain ⟨evaluation, hevaluation, h⟩ := except_bind_eq_ok.mp h
    obtain ⟨hconsistent, hchecks⟩ := githubEvaluation_eq_ok hevaluation
    obtain ⟨tested, htested, h⟩ := except_bind_eq_ok.mp h
    cases h
    have hbefore : RequestCheckEvaluation.Consistent
        { evaluation with githubRepositoryId := some github.githubRepositoryId } :=
      ⟨hconsistent.tested, hconsistent.native, hid⟩
    have hafter := hbefore.testCheckCommit htested
    refine ⟨hafter.renewIdentity, runsMatch_of_nil ?_ rfl⟩
    show tested.nativeChecks = []
    rw [RequestCheckEvaluation.testCheckCommit_checks htested]
    exact (congrArg (List.filterMap RequestCheck.native?) hchecks).trans hnative

theorem rebuildCheckCommit_spec {evaluation : RequestCheckEvaluation}
    {tested : GitHubTestedCommit} (hidentified : evaluation.Identified sha256Hex)
    (h : rebuildCheckCommit sha256Hex request evaluation tested nowUnix = .ok plan) :
    plan.evaluation.Identified sha256Hex ∧ plan.RunsMatch := by
  simp only [rebuildCheckCommit, except_unit_bind_eq_ok, rejectIf_eq_ok, not_or] at h
  obtain ⟨⟨-, -, htests⟩, -, h⟩ := h
  have hbase : evaluation.checkCommitBase ≠ none := by
    rw [RequestCheckEvaluation.testsCheckCommit, Bool.not_eq_false] at htests
    exact Option.isSome_iff_ne_none.mp htests
  have hnative := hidentified.consistent.native hbase
  split at h
  · obtain ⟨rebuilt, hrebuilt, h⟩ := except_bind_eq_ok.mp h
    cases h
    have hbefore : RequestCheckEvaluation.Consistent
        { evaluation with testedOid := evaluation.headOid, checkCommitBase := none } :=
      ⟨iff_of_true rfl rfl, fun h => absurd rfl h, hidentified.consistent.github⟩
    have hafter := hbefore.testCheckCommit hrebuilt
    refine ⟨RequestCheckEvaluation.Consistent.renewIdentity ?_, runsMatch_of_nil ?_ rfl⟩
    · exact ⟨hafter.tested, hafter.native, hafter.github⟩
    · show rebuilt.nativeChecks = []
      rw [RequestCheckEvaluation.testCheckCommit_checks hrebuilt]
      exact hnative
  · obtain ⟨conflict, hconflict, h⟩ := except_bind_eq_ok.mp h
    obtain rfl := RequestCheckEvaluation.configurationError_eq_ok hconflict
    cases h
    refine ⟨RequestCheckEvaluation.Consistent.renewIdentity ?_, runsMatch_of_nil hnative rfl⟩
    exact ⟨iff_of_true rfl rfl, fun h => absurd rfl h, hidentified.consistent.github⟩
  · cases h

theorem approve_spec {evaluation : RequestCheckEvaluation} {revisions : List WorkflowRevision}
    {approver : RequestCheckReviewer} (hidentified : evaluation.Identified sha256Hex)
    (h : approve sha256Hex request source evaluation revisions approver nowUnix = .ok plan) :
    plan.evaluation.Identified sha256Hex ∧ plan.RunsMatch := by
  simp only [approve, except_unit_bind_eq_ok] at h
  obtain ⟨-, -, h⟩ := h
  simp only [except_bind_eq_ok] at h
  obtain ⟨runs, hruns, approved, happrove, h⟩ := h
  cases h
  exact ⟨hidentified.approve happrove, runsMatch_of_approve hruns happrove⟩

end RequestCheckPlan

/-! ## Sequences of operations -/

/-- The evaluations that some sequence of operations leads to. -/
inductive Obtained (sha256Hex : List UInt8 → String) : RequestCheckEvaluation → Prop
  | evaluate {request source context nativeRuns revisions reviewingPusher nowUnix}
      {plan : RequestCheckPlan}
      (h : RequestCheckPlan.evaluate sha256Hex request source context nativeRuns revisions
        reviewingPusher nowUnix = .ok plan) : Obtained sha256Hex plan.evaluation
  | evaluateGithub {request context views github reviewingPusher nowUnix} {plan : RequestCheckPlan}
      (h : RequestCheckPlan.evaluateGithub sha256Hex request context views github reviewingPusher
        nowUnix = .ok plan) : Obtained sha256Hex plan.evaluation
  | approvePlan {request source evaluation revisions approver nowUnix} {plan : RequestCheckPlan}
      (before : Obtained sha256Hex evaluation)
      (h : RequestCheckPlan.approve sha256Hex request source evaluation revisions approver
        nowUnix = .ok plan) : Obtained sha256Hex plan.evaluation
  | rebuildCheckCommit {request evaluation tested nowUnix} {plan : RequestCheckPlan}
      (before : Obtained sha256Hex evaluation)
      (h : RequestCheckPlan.rebuildCheckCommit sha256Hex request evaluation tested nowUnix =
        .ok plan) : Obtained sha256Hex plan.evaluation
  | approve {evaluation approved runIds nowUnix} (before : Obtained sha256Hex evaluation)
      (h : evaluation.approve runIds nowUnix = .ok approved) : Obtained sha256Hex approved
  | withdrawNativeRuns {evaluation withdrawn runStates nowUnix}
      (before : Obtained sha256Hex evaluation)
      (h : evaluation.withdrawNativeRuns sha256Hex runStates nowUnix = .ok (some withdrawn)) :
      Obtained sha256Hex withdrawn

/-- The plans that some operation on an obtained evaluation returns. -/
inductive Planned (sha256Hex : List UInt8 → String) (plan : RequestCheckPlan) : Prop
  | evaluate {request source context nativeRuns revisions reviewingPusher nowUnix}
      (h : RequestCheckPlan.evaluate sha256Hex request source context nativeRuns revisions
        reviewingPusher nowUnix = .ok plan)
  | evaluateGithub {request context views github reviewingPusher nowUnix}
      (h : RequestCheckPlan.evaluateGithub sha256Hex request context views github reviewingPusher
        nowUnix = .ok plan)
  | approve {request source evaluation revisions approver nowUnix}
      (before : Obtained sha256Hex evaluation)
      (h : RequestCheckPlan.approve sha256Hex request source evaluation revisions approver
        nowUnix = .ok plan)
  | rebuildCheckCommit {request evaluation tested nowUnix}
      (before : Obtained sha256Hex evaluation)
      (h : RequestCheckPlan.rebuildCheckCommit sha256Hex request evaluation tested nowUnix =
        .ok plan)

section Sequences

variable {sha256Hex : List UInt8 → String}

theorem Obtained.identified {evaluation : RequestCheckEvaluation}
    (h : Obtained sha256Hex evaluation) : evaluation.Identified sha256Hex := by
  induction h with
  | evaluate h => exact (RequestCheckPlan.evaluate_spec h).1
  | evaluateGithub h => exact (RequestCheckPlan.evaluateGithub_spec h).1
  | approvePlan _ h ih => exact (RequestCheckPlan.approve_spec ih h).1
  | rebuildCheckCommit _ h ih => exact (RequestCheckPlan.rebuildCheckCommit_spec ih h).1
  | approve _ h ih => exact ih.approve h
  | withdrawNativeRuns _ h ih => exact ih.withdrawNativeRuns h

theorem Planned.runsMatch {plan : RequestCheckPlan} (h : Planned sha256Hex plan) :
    plan.RunsMatch := by
  cases h with
  | evaluate h => exact (RequestCheckPlan.evaluate_spec h).2
  | evaluateGithub h => exact (RequestCheckPlan.evaluateGithub_spec h).2
  | approve before h => exact (RequestCheckPlan.approve_spec before.identified h).2
  | rebuildCheckCommit before h =>
    exact (RequestCheckPlan.rebuildCheckCommit_spec before.identified h).2

end Sequences

/-! ## What the id tells -/

/-- The part of a check that tells it from others. -/
inductive CheckKey where
  | native (workflowPath workflowRevisionDigest : String)
  | github (name : String)
  deriving DecidableEq

def RequestCheck.key : RequestCheck → CheckKey
  | .native check => .native check.workflowPath check.workflowRevisionDigest
  | .github name => .github name

/-- Two evaluations are about the same evidence. -/
structure SameEvidence (a b : RequestCheckEvaluation) : Prop where
  request : a.requestId = b.requestId
  revision : a.revisionId = b.revisionId
  head : a.headOid = b.headOid
  reviewBase : a.reviewBaseOid = b.reviewBaseOid
  tested : a.testedOid = b.testedOid
  githubRepository : a.githubRepositoryId = b.githubRepositoryId
  checkCommitBase : a.checkCommitBase = b.checkCommitBase
  checks : a.checks.map RequestCheck.key = b.checks.map RequestCheck.key

def CheckKey.texts : CheckKey → List String
  | .native workflowPath workflowRevisionDigest => [workflowPath, workflowRevisionDigest]
  | .github name => [name]

def CheckCommitBase.texts (base : CheckCommitBase) : List String :=
  [base.canonicalMainOid, base.viewBaseOid]

/-- No text of the evidence has a NUL in it. -/
def RequestCheckEvaluation.NulFree (evaluation : RequestCheckEvaluation) : Prop :=
  ∀ text ∈ [evaluation.requestId, evaluation.revisionId, evaluation.headOid,
      evaluation.reviewBaseOid, evaluation.testedOid] ++
      evaluation.checkCommitBase.toList.flatMap CheckCommitBase.texts ++
      evaluation.checks.flatMap (fun check => check.key.texts),
    '\x00' ∉ text.toList

namespace RequestCheckEvaluation

/-- The fields of the checks tell how many there are and what each of them is. -/
theorem flatMap_checkFields_inj {checks checks' : List RequestCheck}
    (h : checks.flatMap checkFields = checks'.flatMap checkFields) :
    checks.map RequestCheck.key = checks'.map RequestCheck.key := by
  have hkinds : Text.utf8 "native" ≠ Text.utf8 "github" :=
    Text.utf8_injective.ne (by decide)
  induction checks generalizing checks' with
  | nil =>
    cases checks' with
    | nil => rfl
    | cons check' checks' => cases check' <;> cases h
  | cons check checks ih =>
    cases checks' with
    | nil => cases check <;> cases h
    | cons check' checks' =>
      cases check with
      | native check =>
        cases check' with
        | native check' =>
          simp only [List.flatMap_cons, checkFields, List.cons_append, List.nil_append,
            List.cons.injEq, true_and] at h
          obtain ⟨hpath, hdigest, hrest⟩ := h
          simp only [List.map_cons, RequestCheck.key, Text.utf8_injective hpath,
            Text.utf8_injective hdigest, ih hrest]
        | github name' =>
          simp only [List.flatMap_cons, checkFields, List.cons_append, List.cons.injEq] at h
          exact absurd h.1 hkinds
      | github name =>
        cases check' with
        | native check' =>
          simp only [List.flatMap_cons, checkFields, List.cons_append, List.cons.injEq] at h
          exact absurd h.1.symm hkinds
        | github name' =>
          simp only [List.flatMap_cons, checkFields, List.cons_append, List.nil_append,
            List.cons.injEq, true_and] at h
          simp only [List.map_cons, RequestCheck.key, Text.utf8_injective h.1, ih h.2]

variable {a b : RequestCheckEvaluation}

theorem NulFree.zero_notMem (h : a.NulFree) {text : String}
    (hmem : text ∈ [a.requestId, a.revisionId, a.headOid, a.reviewBaseOid, a.testedOid] ++
      a.checkCommitBase.toList.flatMap CheckCommitBase.texts ++
      a.checks.flatMap (fun check => check.key.texts)) : (0 : UInt8) ∉ Text.utf8 text :=
  Text.zero_notMem_utf8 (h text hmem)

theorem NulFree.zero_notMem_head (h : a.NulFree) :
    ∀ bytes ∈ [Text.utf8 a.requestId, Text.utf8 a.revisionId, Text.utf8 a.headOid,
      Text.utf8 a.reviewBaseOid, Text.utf8 a.testedOid], (0 : UInt8) ∉ bytes := by
  intro bytes hbytes
  simp only [List.mem_cons, List.not_mem_nil, or_false] at hbytes
  rcases hbytes with rfl | rfl | rfl | rfl | rfl <;> exact h.zero_notMem (by simp)

theorem NulFree.zero_notMem_base (h : a.NulFree) {base : CheckCommitBase}
    (hbase : a.checkCommitBase = some base) :
    ∀ bytes ∈ [Text.utf8 base.canonicalMainOid, Text.utf8 base.viewBaseOid],
      (0 : UInt8) ∉ bytes := by
  intro bytes hbytes
  simp only [List.mem_cons, List.not_mem_nil, or_false] at hbytes
  rcases hbytes with rfl | rfl <;> exact h.zero_notMem (by simp [hbase, CheckCommitBase.texts])

theorem NulFree.zero_notMem_checks (h : a.NulFree) :
    ∀ bytes ∈ a.checks.flatMap checkFields, (0 : UInt8) ∉ bytes := by
  intro bytes hbytes
  obtain ⟨check, hcheck, hbytes⟩ := List.mem_flatMap.mp hbytes
  have htext : ∀ text ∈ check.key.texts, (0 : UInt8) ∉ Text.utf8 text := by
    intro text htext
    refine h.zero_notMem (List.mem_append_right _ ?_)
    exact List.mem_flatMap.mpr ⟨check, hcheck, htext⟩
  have hkind : ∀ kind ∈ ["native", "github"], (0 : UInt8) ∉ Text.utf8 kind := by decide
  cases check with
  | native check =>
    simp only [checkFields, List.mem_cons, List.not_mem_nil, or_false] at hbytes
    rcases hbytes with rfl | rfl | rfl
    · exact hkind _ (by simp)
    · exact htext _ (by simp [RequestCheck.key, CheckKey.texts])
    · exact htext _ (by simp [RequestCheck.key, CheckKey.texts])
  | github name =>
    simp only [checkFields, List.mem_cons, List.not_mem_nil, or_false] at hbytes
    rcases hbytes with rfl | rfl
    · exact hkind _ (by simp)
    · exact htext _ (by simp [RequestCheck.key, CheckKey.texts])

/-- Zero stands for no repository, as no repository has the id zero. -/
theorem githubRepositoryId_inj (ha : a.Consistent) (hb : b.Consistent)
    (h : a.githubRepositoryId.getD 0 = b.githubRepositoryId.getD 0) :
    a.githubRepositoryId = b.githubRepositoryId := by
  cases hida : a.githubRepositoryId with
  | none =>
    cases hidb : b.githubRepositoryId with
    | none => rfl
    | some idb =>
      have hpos := (hb.github idb hidb).1
      rw [hida, hidb] at h
      exact absurd h hpos.ne
  | some ida =>
    have hpos := (ha.github ida hida).1
    cases hidb : b.githubRepositoryId with
    | none =>
      rw [hida, hidb] at h
      exact absurd h hpos.ne'
    | some idb =>
      rw [hida, hidb] at h
      exact congrArg some h

theorem githubRepositoryId_lt (ha : a.Consistent) : a.githubRepositoryId.getD 0 < 256 ^ 8 := by
  cases hid : a.githubRepositoryId with
  | none => decide
  | some id => exact (ha.github id hid).2

/-- Equal evidence is read in one way only. -/
theorem sameEvidence_of_evidence_eq (ha : a.Consistent) (hb : b.Consistent) (hna : a.NulFree)
    (hnb : b.NulFree) (h : a.evidence = b.evidence) : SameEvidence a b := by
  simp only [evidence, List.append_assoc] at h
  obtain ⟨hhead, h⟩ :=
    Terminated.fields_append_inj hna.zero_notMem_head hnb.zero_notMem_head rfl h
  obtain ⟨hid, h⟩ := List.append_inj h (by simp)
  simp only [List.cons.injEq, and_true] at hhead
  obtain ⟨hrequest, hrevision, hheadOid, hreviewBase, htested⟩ := hhead
  have hheadOid := Text.utf8_injective hheadOid
  have htested := Text.utf8_injective htested
  -- the part about the check commit is there on both sides or on neither
  have hnone : a.checkCommitBase = none ↔ b.checkCommitBase = none := by
    rw [← ha.tested, ← hb.tested, hheadOid, htested]
  have hrest : a.checkCommitBase = b.checkCommitBase ∧
      Terminated.fields 0 (a.checks.flatMap checkFields) =
        Terminated.fields 0 (b.checks.flatMap checkFields) := by
    cases hbasea : a.checkCommitBase with
    | none =>
      have hbaseb := hnone.mp hbasea
      rw [hbasea, hbaseb] at h
      exact ⟨hbaseb.symm, h⟩
    | some basea =>
      cases hbaseb : b.checkCommitBase with
      | none => exact absurd (hnone.mpr hbaseb) (by simp [hbasea])
      | some baseb =>
        rw [hbasea, hbaseb] at h
        obtain ⟨hbase, hchecks⟩ := Terminated.fields_append_inj (hna.zero_notMem_base hbasea)
          (hnb.zero_notMem_base hbaseb) rfl h
        simp only [List.cons.injEq, and_true] at hbase
        obtain ⟨maina, viewa⟩ := basea
        obtain ⟨mainb, viewb⟩ := baseb
        obtain rfl := Text.utf8_injective hbase.1
        obtain rfl := Text.utf8_injective hbase.2
        exact ⟨rfl, hchecks⟩
  exact
    { request := Text.utf8_injective hrequest
      revision := Text.utf8_injective hrevision
      head := hheadOid
      reviewBase := Text.utf8_injective hreviewBase
      tested := htested
      githubRepository := githubRepositoryId_inj ha hb
        (Bytes.be_inj (githubRepositoryId_lt ha) (githubRepositoryId_lt hb) hid)
      checkCommitBase := hrest.1
      checks := flatMap_checkFields_inj (Terminated.fields_inj hna.zero_notMem_checks
        hnb.zero_notMem_checks hrest.2) }

end RequestCheckEvaluation

/-! ## Identity and runs -/

section Main

variable {sha256Hex : List UInt8 → String} (hsha : Function.Injective sha256Hex)
include hsha

end Main

/-! ### A small request -/

namespace SmallRequest

def headOid : String := String.ofList (List.replicate 40 'a')

def mainOid : String := String.ofList (List.replicate 40 'b')

def digest : String := String.ofList (List.replicate 64 'c')

/-- A submitted request with a pushed branch. -/
def request : Request where
  id := "request"
  repoId := "repo"
  name := "fix"
  authorUserId := some "author"
  authorRole := .public_
  view := .publicView
  base := .main mainOid
  baseVersion := 1
  stackStatus := .main
  stackDepth := 1
  mainAncestorOid := mainOid
  headOid := headOid
  pushedAtUnix := some 2
  title := "Fix"
  descriptionMarkdown := ""
  activityVersion := 2
  submittedAtUnix := some 2
  closedAtUnix := none
  closedByUserId := none
  mergedAtUnix := none
  mergedByUserId := none
  mergedHeadOid := none
  mergedMainOid := none
  createdAtUnix := 1
  updatedAtUnix := 2

def context : RequestCheckContext := ⟨"request", "revision", headOid, 1, mainOid⟩

def workflow : CompiledWorkflow where
  name := "ci"
  triggers := ⟨false, false, true, Eq.refl true⟩
  jobs := [.ofStep ⟨"build"⟩ [] "image" ⟨"compile", "make"⟩]
  jobs_ne_nil := by decide
  jobs_le := by decide
  sorted := by decide
  graph := by decide

def revision : WorkflowRevision := ⟨⟨"repo", "/.scope/runs/ci.yml"⟩, digest, workflow⟩

/-- The evaluation of the request, for a digest of its evidence. -/
def evaluation (sha256 : String) : RequestCheckEvaluation where
  id := "evaluation_" ++ sha256
  revisionId := "revision"
  baseVersion := 1
  reviewBaseOid := mainOid
  githubRepositoryId := none
  requestId := "request"
  headOid := headOid
  testedOid := headOid
  changesGithubWorkflows := none
  checkCommitBase := none
  state := .awaitingApproval
  message := none
  checks := [.native ⟨"/.scope/runs/ci.yml", "ci", digest, none⟩]
  createdAtUnix := 3
  updatedAtUnix := 3

def sha256 : String := "9a52ef094836ca72ee98df19bd1168fc731aa92427373e2dc52e73c468299a14"

/-- An injective function with the SHA-256 digest of the evidence. -/
def sha256Hex (bytes : List UInt8) : String :=
  if bytes = (evaluation "").evidence then sha256
  else String.ofList ('-' :: bytes.map Char.ofUInt8)

theorem sha256Hex_injective : Function.Injective sha256Hex := by
  have hchar : Function.Injective Char.ofUInt8 := by
    intro a b h
    have hval := congrArg (fun c : Char => c.val.toNat) h
    exact UInt8.toNat_inj.mp hval
  have hother : ∀ l : List Char, sha256 ≠ String.ofList ('-' :: l) := by
    intro l h
    have hhead := congrArg (fun s : String => s.toList.head?) h
    have hnine : sha256.toList.head? = some '9' := by decide
    rw [hnine, String.toList_ofList] at hhead
    cases hhead
  intro a b h
  unfold sha256Hex at h
  split_ifs at h with ha hb hb
  · exact ha.trans hb.symm
  · exact absurd h (hother _)
  · exact absurd h.symm (hother _)
  · have hlist := String.ofList_injective h
    exact hchar.list_map (List.tail_eq_of_cons_eq hlist)

def plan : RequestCheckPlan := ⟨evaluation sha256, [], false⟩

theorem evaluate_eq : RequestCheckPlan.evaluate sha256Hex request none context .available
    (.ok [revision]) none 3 = .ok plan := by
  decide +kernel

end SmallRequest

end ScopeVcs.Requests

import ScopeVcs.Runs.Attempt

/-! # The steps of an attempt, in order

What `validate_execution` checks of the steps, as facts about the whole list: they carry their
identities, each is consistent, and after one that did not succeed nothing else ran. Starting,
ending and interrupting a step keep all of it.
-/

namespace ScopeVcs

open Mutation

namespace RunAttemptStep

variable {step : RunAttemptStep} {now : ℕ}

/-- What `validateFacts` checks besides the exit code. -/
structure Consistent (step : RunAttemptStep) : Prop where
  pending : step.state = .pending →
    step.startedAtUnix = none ∧ step.completedAtUnix = none ∧ step.exitCode = none
  running : step.state = .running →
    step.startedAtUnix ≠ none ∧ step.completedAtUnix = none ∧ step.exitCode = none
  ended : step.state.isTerminal = step.completedAtUnix.isSome
  times : ∀ started ∈ step.startedAtUnix, ∀ completed ∈ step.completedAtUnix, started ≤ completed
  exitCode : step.validateExitCode = .ok ()
  executed : step.state ∈ [.succeeded, .failed, .canceled, .lost] → step.startedAtUnix ≠ none

theorem validateFacts_eq_ok : step.validateFacts = .ok () ↔ step.Consistent := by
  simp only [validateFacts, except_unit_bind_eq_ok, rejectIf_eq_ok, not_and_or, not_or,
    ne_eq, not_not, not_exists, not_lt]
  constructor
  · rintro ⟨hpending, hrunning, hended, htimes, hexit, hexecuted⟩
    refine ⟨fun h => ?_, fun h => ?_, hended, fun s hs c hc => ?_, hexit, fun h => ?_⟩
    · exact hpending.resolve_left (not_not.mpr h)
    · exact hrunning.resolve_left (not_not.mpr h)
    · exact ((htimes s).resolve_left (not_not.mpr hs) c).resolve_left (not_not.mpr hc)
    · exact hexecuted.resolve_left (not_not.mpr h)
  · rintro ⟨hpending, hrunning, hended, htimes, hexit, hexecuted⟩
    refine ⟨?_, ?_, hended, fun s => ?_, hexit, ?_⟩
    · exact (em (step.state = .pending)).symm.imp_right hpending
    · exact (em (step.state = .running)).symm.imp_right hrunning
    · exact (em (s ∈ step.startedAtUnix)).symm.imp_right fun hs c =>
        (em (c ∈ step.completedAtUnix)).symm.imp_right (htimes s hs c)
    · exact (em (step.state ∈ [.succeeded, .failed, .canceled, .lost])).symm.imp_right hexecuted

theorem restore_eq_ok (hid : Text.isBlank step.attemptId = false) (h : step.Consistent) :
    step.restore = .ok step := by
  have hpending : pending step.attemptId step.stepIndex =
      .ok ⟨step.attemptId, step.stepIndex, .pending, none, none, none⟩ := by
    simp [pending, hid]
  rw [restore, hpending]
  show (step.validateFacts >>= fun _ => pure step) = _
  rw [validateFacts_eq_ok.mpr h]
  rfl

/-! ## Changes of one step -/

theorem Consistent.start (h : step.Consistent) (hpending : step.state = .pending) :
    (step.start now).Consistent := by
  obtain ⟨-, hcompleted, hexit⟩ := h.pending hpending
  refine ⟨nofun, fun _ => ⟨nofun, hcompleted, hexit⟩, ?_, ?_, ?_, by simp [RunAttemptStep.start]⟩
  · simp [RunAttemptStep.start, hcompleted, StepState.isTerminal]
  · simp [RunAttemptStep.start, hcompleted]
  · simp [RunAttemptStep.start, validateExitCode, hexit]

theorem Consistent.succeed (h : step.Consistent) (hrunning : step.state = .running)
    (htime : ∀ started ∈ step.startedAtUnix, started ≤ now) : (step.succeed now).Consistent := by
  obtain ⟨hstarted, -, -⟩ := h.running hrunning
  refine ⟨nofun, nofun, rfl, ?_, by simp [validateExitCode, RunAttemptStep.succeed],
    fun _ => hstarted⟩
  rintro started hs _ ⟨⟩
  exact htime started hs

theorem Consistent.fail {exitCode : ℤ} (h : step.Consistent) (hrunning : step.state = .running)
    (htime : ∀ started ∈ step.startedAtUnix, started ≤ now) (hexit : exitCode ≠ 0) :
    (step.fail exitCode now).Consistent := by
  obtain ⟨hstarted, -, -⟩ := h.running hrunning
  refine ⟨nofun, nofun, rfl, ?_, by simp [validateExitCode, RunAttemptStep.fail, hexit],
    fun _ => hstarted⟩
  rintro started hs _ ⟨⟩
  exact htime started hs

theorem Consistent.interrupt {state : StepState} (h : step.Consistent)
    (hrunning : step.state = .running) (htime : ∀ started ∈ step.startedAtUnix, started ≤ now)
    (hstate : state = .canceled ∨ state = .lost) : (step.stop state now).Consistent := by
  obtain ⟨hstarted, -, hexit⟩ := h.running hrunning
  have htimes : ∀ started ∈ step.startedAtUnix, ∀ completed ∈ some now, started ≤ completed := by
    rintro started hs _ ⟨⟩
    exact htime started hs
  rcases hstate with rfl | rfl
  · exact ⟨by rintro ⟨⟩, by rintro ⟨⟩, rfl, htimes, by simp [validateExitCode, stop, hexit], fun _ => hstarted⟩
  · exact ⟨by rintro ⟨⟩, by rintro ⟨⟩, rfl, htimes, by simp [validateExitCode, stop, hexit], fun _ => hstarted⟩

theorem Consistent.skip (h : step.Consistent) (hpending : step.state = .pending) :
    (step.stop .skipped now).Consistent := by
  obtain ⟨hstarted, -, hexit⟩ := h.pending hpending
  exact ⟨nofun, nofun, rfl, by simp [stop, hstarted], by simp [validateExitCode, stop, hexit],
    by simp [stop]⟩

/-- Whether a step never ran. -/
def unstarted (step : RunAttemptStep) : Prop := step.state = .pending ∨ step.state = .skipped

def identity (step : RunAttemptStep) : String × ℕ := (step.attemptId, step.stepIndex)

end RunAttemptStep

/-! ## The whole list -/

/-- What the loop of `validate_execution` checks of the steps of the attempt `id`. -/
structure StepsInOrder (id : String) (steps : List RunAttemptStep) : Prop where
  identity : steps.map (·.identity) = (List.range' 0 steps.length).map (id, ·)
  consistent : ∀ step ∈ steps, step.Consistent
  ordered : steps.Pairwise fun a b => a.state ≠ .succeeded → b.unstarted

namespace RunAttempt

variable {attempt : RunAttempt}

theorem validateSteps_of_inOrder {index : ℕ} {stopped : Bool} {steps : List RunAttemptStep}
    (hidentity : steps.map (·.identity) = (List.range' index steps.length).map (attempt.id, ·))
    (hconsistent : ∀ step ∈ steps, step.Consistent)
    (hstopped : stopped = true → ∀ step ∈ steps, step.unstarted)
    (hordered : steps.Pairwise fun a b => a.state ≠ .succeeded → b.unstarted) :
    attempt.validateSteps index stopped steps = .ok () := by
  induction steps generalizing index stopped with
  | nil => rfl
  | cons step steps ih =>
    rw [List.length_cons, List.range'_succ, List.map_cons, List.map_cons,
      List.cons.injEq] at hidentity
    obtain ⟨hid, hindex⟩ := Prod.mk.inj hidentity.1
    obtain ⟨hhead, htail⟩ := List.pairwise_cons.mp hordered
    simp only [validateSteps, except_unit_bind_eq_ok, rejectIf_eq_ok]
    refine ⟨by simp [hid, hindex], RunAttemptStep.validateFacts_eq_ok.mpr
      (hconsistent step (by simp)), ?_, ih hidentity.2 ?_ ?_ htail⟩
    · rintro ⟨hstop, hstate⟩
      rcases hstopped hstop step (by simp) with h | h <;> simp [h] at hstate
    · exact fun s hs => hconsistent s (by simp [hs])
    · intro hstop s hs
      simp only [Bool.or_eq_true, decide_eq_true_eq] at hstop
      rcases hstop with hstop | hstop
      · exact hstopped hstop s (by simp [hs])
      · exact hhead s hs hstop

/-- After a running step nothing runs, so at most one step does. -/
theorem countP_running_le {steps : List RunAttemptStep}
    (hordered : steps.Pairwise fun a b => a.state ≠ .succeeded → b.unstarted) :
    steps.countP (fun step => step.state = .running) ≤ 1 := by
  induction steps with
  | nil => simp
  | cons step steps ih =>
    obtain ⟨hhead, htail⟩ := List.pairwise_cons.mp hordered
    rw [List.countP_cons]
    by_cases hrunning : step.state = .running
    · have hnone : steps.countP (fun step => step.state = .running) = 0 := by
        rw [List.countP_eq_zero]
        intro s hs
        rcases hhead s hs (by simp [hrunning]) with h | h <;> simp [h]
      simp [hnone, hrunning]
    · simpa [hrunning] using ih htail

theorem validateExecution_of_inOrder {steps : List RunAttemptStep} (hne : steps ≠ [])
    (h : StepsInOrder attempt.id steps) (haggregate : attempt.aggregateMatches steps = true) :
    attempt.validateExecution steps = .ok () := by
  simp only [validateExecution, except_unit_bind_eq_ok, rejectIf_eq_ok, not_lt]
  exact ⟨hne, validateSteps_of_inOrder h.identity h.consistent nofun h.ordered,
    countP_running_le h.ordered, by simp [haggregate]⟩

end RunAttempt

namespace StepsInOrder

variable {id : String} {steps : List RunAttemptStep} {i now : ℕ} {step : RunAttemptStep}

/-- After a step that did not succeed nothing ran. -/
theorem unstarted_after (h : StepsInOrder id steps) (hstep : steps[i]? = some step)
    (hstate : step.state ≠ .succeeded) : ∀ s ∈ steps.drop (i + 1), s.unstarted := by
  obtain ⟨hlt, rfl⟩ := List.getElem?_eq_some_iff.mp hstep
  have hordered := h.ordered
  rw [← List.take_append_drop i steps, List.drop_eq_getElem_cons hlt, List.pairwise_append,
    List.pairwise_cons] at hordered
  exact fun s hs => hordered.2.1.1 s hs hstate

/-- Before a running step all succeeded. -/
theorem succeeded_before (h : StepsInOrder id steps) (hstep : steps[i]? = some step)
    (hrunning : step.state = .running) : ∀ s ∈ steps.take i, s.state = .succeeded := by
  obtain ⟨hlt, rfl⟩ := List.getElem?_eq_some_iff.mp hstep
  have hordered := h.ordered
  rw [← List.take_append_drop i steps, List.drop_eq_getElem_cons hlt,
    List.pairwise_append] at hordered
  intro s hs
  by_contra hstate
  rcases hordered.2.2 s hs steps[i] List.mem_cons_self hstate with h | h <;> simp [hrunning] at h

/-- The list with one step changed is still in order, if those before it succeeded and those after
it never ran. -/
theorem modify (h : StepsInOrder id steps) {f : RunAttemptStep → RunAttemptStep}
    (hstep : steps[i]? = some step) (hbefore : ∀ s ∈ steps.take i, s.state = .succeeded)
    (hafter : ∀ s ∈ steps.drop (i + 1), s.unstarted)
    (hidentity : (f step).identity = step.identity) (hconsistent : (f step).Consistent) :
    StepsInOrder id (steps.modify i f) := by
  obtain ⟨hlt, rfl⟩ := List.getElem?_eq_some_iff.mp hstep
  have hsplit : steps = steps.take i ++ steps[i] :: steps.drop (i + 1) := by
    rw [← List.drop_eq_getElem_cons hlt, List.take_append_drop]
  have hmodify : steps.modify i f = steps.take i ++ f steps[i] :: steps.drop (i + 1) :=
    List.modify_eq_take_cons_drop hlt
  have hmem : ∀ s ∈ steps.take i ++ f steps[i] :: steps.drop (i + 1),
      s ∈ steps ∨ s = f steps[i] := by
    intro s hs
    rcases List.mem_append.mp hs with hs | hs
    · exact .inl (List.mem_of_mem_take hs)
    · exact (List.mem_cons.mp hs).symm.imp_left List.mem_of_mem_drop
  refine ⟨?_, ?_, ?_⟩
  · rw [List.length_modify, ← h.identity, hmodify]
    conv_rhs => rw [hsplit]
    rw [List.map_append, List.map_append, List.map_cons, List.map_cons, hidentity]
  · rw [hmodify]
    intro s hs
    rcases hmem s hs with hs | rfl
    · exact h.consistent s hs
    · exact hconsistent
  · rw [hmodify, List.pairwise_append, List.pairwise_cons]
    have hordered := h.ordered
    rw [hsplit, List.pairwise_append, List.pairwise_cons] at hordered
    exact ⟨hordered.1, ⟨fun s hs _ => hafter s hs, hordered.2.1.2⟩,
      fun s hs _ _ hne => absurd (hbefore s hs) hne⟩

theorem skipPendingSteps (h : StepsInOrder id steps) (now : ℕ) :
    StepsInOrder id (skipPendingSteps steps now) := by
  have hidentity : ∀ step : RunAttemptStep,
      (if step.state = .pending then step.stop .skipped now else step).identity =
        step.identity := by
    intro step
    split <;> rfl
  refine ⟨?_, ?_, ?_⟩
  · simp only [ScopeVcs.skipPendingSteps, List.map_map, List.length_map]
    rw [← h.identity]
    exact List.map_congr_left fun step _ => hidentity step
  · intro s hs
    obtain ⟨step, hstep, rfl⟩ := List.mem_map.mp hs
    split
    · rename_i hpending
      exact (h.consistent step hstep).skip hpending
    · exact h.consistent step hstep
  · rw [ScopeVcs.skipPendingSteps, List.pairwise_map]
    refine h.ordered.imp fun {a b} hab hne => ?_
    have ha : a.state ≠ .succeeded := by
      intro hstate
      simp [hstate] at hne
    rcases hab ha with hb | hb
    · rw [if_pos hb]
      exact .inr rfl
    · rw [if_neg (by simp [hb])]
      exact .inr hb

end StepsInOrder

/-! ## Endings -/

section Endings

variable {id : String} {steps : List RunAttemptStep} {now : ℕ}

/-- A step of an attempt that has not ended: it succeeded, runs or waits. -/
def RunAttemptStep.underway (step : RunAttemptStep) : Prop :=
  step.state = .succeeded ∨ step.state = .running ∨ step.state = .pending

theorem RunAttemptStep.underway.pending_of_unstarted {step : RunAttemptStep} (h : step.underway)
    (hunstarted : step.unstarted) : step.state = .pending := by
  rcases hunstarted with hstate | hstate
  · exact hstate
  · rcases h with h | h | h <;> simp [hstate] at h

/-- Nothing is left pending. -/
theorem mem_skipPendingSteps {s : RunAttemptStep} (h : s ∈ skipPendingSteps steps now) :
    s.state = .skipped ∨ (s ∈ steps ∧ s.state ≠ .pending) := by
  obtain ⟨step, hstep, rfl⟩ := List.mem_map.mp h
  split
  · exact .inl rfl
  · rename_i hstate
    exact .inr ⟨hstep, hstate⟩

theorem all_skipped_of_all_pending (h : ∀ step ∈ steps, step.state = .pending) :
    ∀ s ∈ skipPendingSteps steps now, s.state = .skipped := by
  intro s hs
  rcases mem_skipPendingSteps hs with hstate | ⟨hmem, hstate⟩
  · exact hstate
  · exact absurd (h s hmem) hstate

theorem skipPendingSteps_eq_self (h : ∀ step ∈ steps, step.state ≠ .pending) :
    skipPendingSteps steps now = steps := by
  rw [skipPendingSteps]
  conv_rhs => rw [← List.map_id steps]
  exact List.map_congr_left fun step hstep => if_neg (h step hstep)

/-- What comes after `i` is all there is to skip, if nothing up to `i` is pending. -/
theorem take_append_skipPendingSteps {i : ℕ} (h : ∀ step ∈ steps.take i, step.state ≠ .pending) :
    steps.take i ++ skipPendingSteps (steps.drop i) now = skipPendingSteps steps now := by
  conv_rhs => rw [← List.take_append_drop i steps]
  rw [skipPendingSteps, skipPendingSteps, List.map_append, List.append_cancel_right_eq]
  exact (skipPendingSteps_eq_self h).symm

/-- The steps after `i`, which never ran, are all skipped. -/
theorem skipped_after {i : ℕ} (hafter : ∀ s ∈ steps.drop (i + 1), s.state = .pending) :
    ∀ s ∈ (skipPendingSteps steps now).drop (i + 1), s.state = .skipped := by
  rw [skipPendingSteps, ← List.map_drop]
  exact all_skipped_of_all_pending hafter

/-- An interrupted step is the one that was running. -/
theorem interruptSteps_matches {state : StepState} (h : StepsInOrder id steps)
    (hunderway : ∀ step ∈ steps, step.underway) (hstate : state = .canceled ∨ state = .lost) :
    interruptedStepMatches (interruptSteps steps state now).1 (interruptSteps steps state now).2
      state = true := by
  simp only [interruptSteps]
  cases hfind : steps.findIdx? (fun step => step.state = .running) with
  | none =>
    rw [List.findIdx?_eq_none_iff] at hfind
    simp only [interruptedStepMatches, List.all_eq_true, decide_eq_true_eq]
    intro s hs
    rcases mem_skipPendingSteps hs with hskipped | ⟨hmem, hpending⟩
    · simp [hskipped]
    · have hrunning : s.state ≠ .running := by simpa using hfind s hmem
      rcases hunderway s hmem with hs | hs | hs
      · simp [hs]
      · exact absurd hs hrunning
      · exact absurd hs hpending
  | some i =>
    rw [List.findIdx?_eq_some_iff_getElem] at hfind
    obtain ⟨hlt, hrunning, -⟩ := hfind
    rw [decide_eq_true_eq] at hrunning
    have hstep : steps[i]? = some steps[i] := List.getElem?_eq_getElem hlt
    have hafter := h.unstarted_after hstep (by simp [hrunning])
    have hne : state ≠ .pending := by
      rcases hstate with rfl | rfl <;> simp
    have hget : (skipPendingSteps (steps.modify i (·.stop state now)) now)[i]? =
        some (steps[i].stop state now) := by
      simp [skipPendingSteps, hlt, RunAttemptStep.stop, hne]
    simp only [interruptedStepMatches, terminalStepMatches, hget, Bool.and_eq_true,
      List.all_eq_true, decide_eq_true_eq]
    refine ⟨⟨rfl, nofun⟩, skipped_after fun s hs => ?_⟩
    rw [List.drop_modify_of_lt _ _ _ _ (Nat.lt_succ_self i)] at hs
    exact (hunderway s (List.mem_of_mem_drop hs)).pending_of_unstarted (hafter s hs)

theorem interruptSteps_inOrder {state : StepState} (h : StepsInOrder id steps)
    (hstate : state = .canceled ∨ state = .lost)
    (htimes : ∀ step ∈ steps, ∀ started ∈ step.startedAtUnix, started ≤ now) :
    StepsInOrder id (interruptSteps steps state now).1 := by
  simp only [interruptSteps]
  cases hfind : steps.findIdx? (fun step => step.state = .running) with
  | none => exact h.skipPendingSteps now
  | some i =>
    rw [List.findIdx?_eq_some_iff_getElem] at hfind
    obtain ⟨hlt, hrunning, -⟩ := hfind
    rw [decide_eq_true_eq] at hrunning
    have hmem : steps[i] ∈ steps := List.getElem_mem hlt
    have hstep : steps[i]? = some steps[i] := List.getElem?_eq_getElem hlt
    have hstop := (h.consistent _ hmem).interrupt hrunning (htimes _ hmem) hstate
    have hmodify := h.modify (f := (·.stop state now)) hstep (h.succeeded_before hstep hrunning)
      (h.unstarted_after hstep (by simp [hrunning])) rfl hstop
    exact hmodify.skipPendingSteps now

theorem length_interruptSteps (state : StepState) :
    (interruptSteps steps state now).1.length = steps.length := by
  simp only [interruptSteps]
  split <;> simp [skipPendingSteps]

end Endings

end ScopeVcs

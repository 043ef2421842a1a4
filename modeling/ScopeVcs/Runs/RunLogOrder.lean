import ScopeVcs.Runs.CapacityRetry
import ScopeVcs.Runs.RunLog

/-! # The order and the limit of a log

Chunks of an attempt are stored in sequence and only while their step runs, and a step that ran is
never pending again, so the steps of the chunks are in order too. The byte count and the mark of the
first truncated step are changed by an append and by reports of the runtime, in any order.
-/

namespace ScopeVcs

open Mutation Relation

/-! ## Steps that ran -/

/-- What ran before ran after, at the same position. -/
def StartedKept (steps steps' : List RunAttemptStep) : Prop :=
  ∀ (i : ℕ) (step : RunAttemptStep), steps[i]? = some step → ¬ step.unstarted →
    ∃ step', steps'[i]? = some step' ∧ ¬ step'.unstarted

namespace StartedKept

variable {steps steps' steps'' : List RunAttemptStep} {now : ℕ}

theorem refl (steps : List RunAttemptStep) : StartedKept steps steps :=
  fun _ step hstep hstarted => ⟨step, hstep, hstarted⟩

theorem trans (h : StartedKept steps steps') (h' : StartedKept steps' steps'') :
    StartedKept steps steps'' := by
  intro i step hstep hstarted
  obtain ⟨step', hstep', hstarted'⟩ := h i step hstep hstarted
  exact h' i step' hstep' hstarted'

/-- A change that makes no step of what ran one that never did, wherever it is made. -/
theorem of_map {f : ℕ → RunAttemptStep → RunAttemptStep}
    (hget : ∀ i, steps'[i]? = (steps[i]?).map (f i))
    (hf : ∀ i step, ¬ step.unstarted → ¬ (f i step).unstarted) : StartedKept steps steps' := by
  intro i step hstep hstarted
  refine ⟨f i step, ?_, hf i step hstarted⟩
  rw [hget, hstep]
  rfl

theorem modify (k : ℕ) {f : RunAttemptStep → RunAttemptStep}
    (hf : ∀ step : RunAttemptStep, ¬ step.unstarted → ¬ (f step).unstarted) :
    StartedKept steps (steps.modify k f) := by
  refine of_map (f := fun i step => if k = i then f step else step)
    (fun i => List.getElem?_modify ..) fun i step hstarted => ?_
  split
  · exact hf step hstarted
  · exact hstarted

theorem skip (steps : List RunAttemptStep) (now : ℕ) :
    StartedKept steps (skipPendingSteps steps now) := by
  refine of_map (fun i => List.getElem?_map) fun _ step hstarted => ?_
  have hpending : step.state ≠ .pending := fun h => hstarted (.inl h)
  rwa [if_neg hpending]

theorem interrupt (steps : List RunAttemptStep) {state : StepState}
    (hstate : state = .canceled ∨ state = .lost) (now : ℕ) :
    StartedKept steps (interruptSteps steps state now).1 := by
  simp only [interruptSteps]
  refine trans ?_ (skip _ now)
  split
  · refine modify _ fun step _ => ?_
    rcases hstate with rfl | rfl <;> rintro (h | h) <;> cases h
  · exact .refl steps

/-- Skipping only what stands from a position on keeps what ran as well. -/
theorem skip_from (steps : List RunAttemptStep) (k now : ℕ) :
    StartedKept steps (steps.take k ++ skipPendingSteps (steps.drop k) now) := by
  intro i step hstep hstarted
  have hpending : step.state ≠ .pending := fun h => hstarted (.inl h)
  refine ⟨step, ?_, hstarted⟩
  have hlt := (List.getElem?_eq_some_iff.mp hstep).1
  by_cases hik : i < k
  · rw [List.getElem?_append_left (by rw [List.length_take]; omega),
      List.getElem?_take_of_lt hik, hstep]
  · have hlength : (steps.take k).length = k := by
      rw [List.length_take]
      omega
    rw [List.getElem?_append_right (by omega), hlength, skipPendingSteps, List.getElem?_map,
      List.getElem?_drop, Nat.add_sub_cancel' (not_lt.mp hik), hstep]
    simp [hpending]

theorem fail (held : Held) (k : ℕ) (exitCode : ℤ) (now : ℕ) :
    StartedKept held.steps (RunAttempt.failStep held k exitCode now).steps := by
  have hfail : StartedKept held.steps (held.steps.modify k (·.fail exitCode now)) := by
    refine modify k fun step _ => ?_
    rintro (h | h) <;> cases h
  exact hfail.trans (skip_from _ (k + 1) now)

end StartedKept

theorem EndsAs.startedKept {held : Held} {now : ℕ} {state : AttemptState}
    {reason : Option AttemptTerminalReason} {steps : List RunAttemptStep}
    (h : EndsAs held now state reason steps) : StartedKept held.steps steps := by
  cases h with
  | succeeded | succeededCanceled => exact .refl _
  | setupFailed | capacityRejected => exact .skip _ _
  | timedOut | canceled => exact .interrupt _ (.inl rfl) _
  | lost | exhausted => exact .interrupt _ (.inr rfl) _
  | stepFailed => exact .fail _ _ _ _

/-- No operation on an attempt touches its identity, its byte count or what ran. -/
structure LogKept (held held' : Held) : Prop where
  id : held'.attempt.id = held.attempt.id
  bytes : held'.attempt.logBytes = held.attempt.logBytes
  started : StartedKept held.steps held'.steps

theorem HeldStep.logKept {clock : Prop} {now : ℕ} {held held' : Held}
    (h : HeldStep clock now held held') : LogKept held held' := by
  cases h with
  | claim | start | renew | truncate => exact ⟨rfl, rfl, .refl _⟩
  | startStep hcur hstate hstep hpending hbefore htime =>
    refine ⟨rfl, rfl, .modify _ fun step _ => ?_⟩
    rintro (h | h) <;> cases h
  | succeedStep hcur hactive hstep hrunning htime =>
    refine ⟨rfl, rfl, .modify _ fun step _ => ?_⟩
    rintro (h | h) <;> cases h
  | finish hcur hactive htime hclock hends hjob halign => exact ⟨rfl, rfl, hends.startedKept⟩

theorem AttemptOp.logKept {op : AttemptOp} {run : Run} {held held' : Held} {u : Unit}
    (h : (op.run run).run held = .ok u held') : LogKept held held' := by
  have hsteps := AttemptOp.steps h
  clear h
  induction hsteps with
  | refl => exact ⟨rfl, rfl, .refl _⟩
  | tail _ hlast ih =>
    have hkept := hlast.logKept
    exact ⟨hkept.id.trans ih.id, hkept.bytes.trans ih.bytes, ih.started.trans hkept.started⟩

/-! ## The mark -/

/-- The mark stays where it is, and a new one is put on the step that runs. -/
structure MarkKept (held held' : Held) : Prop where
  kept : ∀ first ∈ held.attempt.firstTruncatedStepIndex,
    held'.attempt.firstTruncatedStepIndex = some first
  running : ∀ first ∈ held'.attempt.firstTruncatedStepIndex,
    held.attempt.firstTruncatedStepIndex = some first ∨
      held.attempt.validateExecution held.steps = .ok () ∧
        ∃ step, held.steps[first]? = some step ∧ step.state = .running

theorem MarkKept.of_eq {held held' : Held}
    (h : held'.attempt.firstTruncatedStepIndex = held.attempt.firstTruncatedStepIndex) :
    MarkKept held held' :=
  ⟨fun _ hfirst => h.trans hfirst, fun _ hfirst => .inl (h.symm.trans hfirst)⟩

theorem MarkKept.trans_eq {held mid held' : Held} (h : MarkKept held mid)
    (heq : held'.attempt.firstTruncatedStepIndex = mid.attempt.firstTruncatedStepIndex) :
    MarkKept held held' :=
  ⟨fun first hfirst => heq.trans (h.kept first hfirst),
    fun first hfirst => h.running first (heq.symm.trans hfirst)⟩

namespace RunAttempt

variable {held : Held} {run : Run} {token : String} {now stepIndex : ℕ}

theorem markStepLogsTruncated_markKept :
    Ensures (MarkKept held) (markStepLogsTruncated stepIndex) held := by
  simp only [markStepLogsTruncated, Ensures.check_unit_bind_iff, Ensures.get_bind_iff]
  intro hexecutes
  split
  · exact .throw _
  · rename_i step hstep
    rw [Ensures.check_unit_bind_iff, rejectIf_eq_ok, not_not]
    intro hrunning
    split
    · exact .check (.of_eq rfl)
    · rename_i hnone
      refine Ensures.modify_iff.mpr ⟨fun first hfirst => ?_, fun first hfirst => ?_⟩
      · rw [hnone] at hfirst
        cases hfirst
      · obtain rfl := Option.some_inj.mp hfirst
        exact .inr ⟨hexecutes, step, hstep, hrunning⟩

theorem startPendingStep_mark : Ensures (fun held' =>
    held'.attempt.firstTruncatedStepIndex = held.attempt.firstTruncatedStepIndex)
      (startPendingStep run stepIndex now) held := by
  simp only [startPendingStep, Ensures.check_unit_bind_iff, Ensures.get_bind_iff]
  intro _ _
  split
  · exact .throw _
  · split
    · exact Ensures.pure_iff.mpr rfl
    · simp only [Ensures.check_unit_bind_iff, Ensures.modify_iff, implies_true]

theorem startStep_markKept : Ensures (MarkKept held) (startStep run token stepIndex now) held := by
  simp only [startStep, Ensures.get_bind_iff]
  split
  · have hstart : Ensures (fun mid =>
        mid.attempt.firstTruncatedStepIndex = held.attempt.firstTruncatedStepIndex)
        (start run token now) held := by
      simp only [start, Ensures.check_unit_bind_iff, Ensures.modify_iff, implies_true]
    refine hstart.bind fun _ mid hmid b final hfinal => .of_eq ?_
    exact (startPendingStep_mark b final hfinal).trans hmid
  · rw [Ensures.check_unit_bind_iff]
    exact fun _ b final hfinal => .of_eq (startPendingStep_mark b final hfinal)

theorem completeStep_markKept {conclusion : StepConclusion} {logsTruncated : Bool} :
    Ensures (MarkKept held) (completeStep token stepIndex conclusion logsTruncated now) held := by
  have hconclude : Ensures (MarkKept held)
      (concludeStep stepIndex conclusion logsTruncated now) held := by
    have hreport : Ensures (MarkKept held) (reportTruncation logsTruncated stepIndex) held := by
      unfold reportTruncation
      split
      · exact markStepLogsTruncated_markKept
      · exact Ensures.pure_iff.mpr (.of_eq rfl)
    refine hreport.bind fun _ mid hmid => ?_
    simp only [Ensures.check_unit_bind_iff]
    intro _ _
    cases conclusion with
    | succeeded => exact Ensures.modify_iff.mpr (hmid.trans_eq rfl)
    | failed exitCode =>
      simp only [Ensures.check_unit_bind_iff, Ensures.modify_iff]
      exact fun _ => hmid.trans_eq rfl
  simp only [completeStep, Ensures.get_bind_iff]
  split
  · exact Ensures.check_unit_bind_iff.mpr fun _ => .check (.of_eq rfl)
  · simp only [Ensures.check_unit_bind_iff]
    intro _ _
    split
    · exact .throw _
    · split
      · exact .check (.of_eq rfl)
      · exact Ensures.check_unit_bind_iff.mpr fun _ => hconclude

theorem complete_markKept {conclusion : AttemptConclusion} {logsTruncated : Bool} :
    Ensures (MarkKept held) (complete run token conclusion logsTruncated now) held := by
  have hreport : Ensures (MarkKept held) (reportRunningTruncation logsTruncated) held := by
    simp only [reportRunningTruncation, Ensures.get_bind_iff]
    split
    · split
      · exact .throw _
      · exact markStepLogsTruncated_markKept
    · exact Ensures.pure_iff.mpr (.of_eq rfl)
  simp only [complete, Ensures.get_bind_iff]
  split
  · exact Ensures.check_unit_bind_iff.mpr fun _ => .check (.of_eq rfl)
  · simp only [Ensures.check_unit_bind_iff]
    intro _ _
    refine hreport.bind fun _ mid hmid => ?_
    simp only [Ensures.check_bind_iff, Ensures.modify_iff]
    intro _ _ _ _ _ _
    exact hmid.trans_eq rfl

theorem finishLostOrRequeue_markKept :
    Ensures (MarkKept held) (finishLostOrRequeue run now) held := by
  simp only [finishLostOrRequeue, Ensures.check_unit_bind_iff, Ensures.modify_iff]
  intro _ _ _
  refine .of_eq ?_
  unfold lostEnding
  split_ifs <;> rfl

theorem rejectCapacity_markKept {message : SetupFailureMessage} :
    Ensures (MarkKept held) (rejectCapacity run token message now) held := by
  simp only [rejectCapacity, Ensures.get_bind_iff]
  split
  · exact .check (.of_eq rfl)
  · simp only [Ensures.check_unit_bind_iff, Ensures.modify_bind_iff]
    intro _ _ _ _ _ u held' h
    simp only [EStateM.run, onJob] at h
    split at h
    · cases h
      exact .of_eq rfl
    · cases h

end RunAttempt

theorem AttemptOp.markKept (op : AttemptOp) (run : Run) (held : Held) :
    Ensures (MarkKept held) (op.run run) held := by
  cases op with
  | claimRuntime =>
    simp only [AttemptOp.run, RunAttempt.claimRuntime, Ensures.check_unit_bind_iff,
      Ensures.modify_iff]
    intros
    exact .of_eq rfl
  | start =>
    simp only [AttemptOp.run, RunAttempt.start, Ensures.check_unit_bind_iff, Ensures.modify_iff]
    intros
    exact .of_eq rfl
  | heartbeat token now lease =>
    simp only [AttemptOp.run, RunAttempt.heartbeat, bind_assoc, Ensures.check_unit_bind_iff,
      Ensures.modify_bind_iff, pure_bind, Ensures.pure_iff]
    intros
    exact .of_eq rfl
  | startStep => exact RunAttempt.startStep_markKept
  | completeStep => exact RunAttempt.completeStep_markKept
  | complete => exact RunAttempt.complete_markKept
  | rejectCapacity => exact RunAttempt.rejectCapacity_markKept
  | expire =>
    simp only [AttemptOp.run, RunAttempt.expire, Ensures.check_unit_bind_iff]
    exact fun _ _ _ => RunAttempt.finishLostOrRequeue_markKept
  | abandon =>
    simp only [AttemptOp.run, RunAttempt.abandon, Ensures.check_unit_bind_iff,
      Ensures.get_bind_iff]
    intro _
    split
    · exact Ensures.pure_iff.mpr (.of_eq rfl)
    · exact RunAttempt.finishLostOrRequeue_markKept
  | confirmProviderCancellation =>
    simp only [AttemptOp.run, RunAttempt.confirmProviderCancellation, Ensures.get_bind_iff]
    split
    · exact Ensures.pure_iff.mpr (.of_eq rfl)
    · simp only [Ensures.check_unit_bind_iff, Ensures.modify_iff]
      intros
      exact .of_eq rfl

/-! ## Steps in order -/

theorem RunAttempt.validateSteps_ordered {attempt : RunAttempt} {index : ℕ} {stopped : Bool}
    {steps : List RunAttemptStep} (h : attempt.validateSteps index stopped steps = .ok ()) :
    (stopped = true → ∀ step ∈ steps, step.unstarted) ∧
      steps.Pairwise fun a b => a.state ≠ .succeeded → b.unstarted := by
  induction steps generalizing index stopped with
  | nil => exact ⟨nofun, .nil⟩
  | cons step steps ih =>
    simp only [validateSteps, except_unit_bind_eq_ok, rejectIf_eq_ok, not_and] at h
    obtain ⟨-, -, hstopped, hrest⟩ := h
    obtain ⟨hafter, hordered⟩ := ih hrest
    refine ⟨fun hstop => ?_, List.pairwise_cons.mpr ⟨fun later hlater hstate => ?_, hordered⟩⟩
    · refine List.forall_mem_cons.mpr ⟨?_, hafter (by simp [hstop])⟩
      have hstate := hstopped hstop
      simp only [not_not, List.mem_cons, List.not_mem_nil, or_false] at hstate
      exact hstate
    · exact hafter (by simp [hstate]) later hlater

/-- What ran stands no later than the step that runs. -/
theorem RunAttempt.le_of_running {attempt : RunAttempt} {steps : List RunAttemptStep} {i k : ℕ}
    {started running : RunAttemptStep} (h : attempt.validateExecution steps = .ok ())
    (hi : steps[i]? = some started) (hstarted : ¬ started.unstarted)
    (hk : steps[k]? = some running) (hrunning : running.state = .running) : i ≤ k := by
  simp only [validateExecution, except_unit_bind_eq_ok] at h
  obtain ⟨-, hordered⟩ := validateSteps_ordered h.2.1
  by_contra hlt
  rw [not_le] at hlt
  obtain ⟨hilt, rfl⟩ := List.getElem?_eq_some_iff.mp hi
  obtain ⟨hklt, rfl⟩ := List.getElem?_eq_some_iff.mp hk
  exact hstarted (List.pairwise_iff_getElem.mp hordered k i hklt hilt hlt (by simp [hrunning]))

/-! ## The log of one attempt -/

/-- How the chunks of an attempt agree with the attempt and its steps. -/
structure AttemptLogged (attempt : RunAttempt) (steps : List RunAttemptStep)
    (chunks : List RunLogChunk) : Prop where
  sequences : chunks.map (·.sequence) = List.range' 1 chunks.length
  order : (chunks.map (·.stepIndex)).Pairwise (· ≤ ·)
  bytes : attempt.logBytes = (chunks.map (·.byteLength)).sum
  limit : attempt.logBytes ≤ maxRunLogBytesPerAttempt
  started : ∀ chunk ∈ chunks, ∃ step, steps[chunk.stepIndex]? = some step ∧ ¬ step.unstarted
  truncated : ∀ first ∈ attempt.firstTruncatedStepIndex, ∀ chunk ∈ chunks, chunk.stepIndex ≤ first

section AttemptLogged

variable {attempt : RunAttempt} {steps : List RunAttemptStep} {chunks : List RunLogChunk}

/-- All stored chunks are of steps up to the one that runs. -/
theorem AttemptLogged.stepIndex_le (h : AttemptLogged attempt steps chunks)
    (hexecutes : attempt.validateExecution steps = .ok ()) {k : ℕ} {running : RunAttemptStep}
    (hk : steps[k]? = some running) (hrunning : running.state = .running) :
    ∀ chunk ∈ chunks, chunk.stepIndex ≤ k := by
  intro chunk hchunk
  obtain ⟨step, hstep, hstarted⟩ := h.started chunk hchunk
  exact RunAttempt.le_of_running hexecutes hstep hstarted hk hrunning

/-- An operation on the attempt keeps its log in order. -/
theorem AttemptLogged.operation {held held' : Held} {chunks : List RunLogChunk}
    (h : AttemptLogged held.attempt held.steps chunks) (hlog : LogKept held held')
    (hmark : MarkKept held held') : AttemptLogged held'.attempt held'.steps chunks := by
  refine ⟨h.sequences, h.order, hlog.bytes.trans h.bytes, hlog.bytes.trans_le h.limit,
    fun chunk hchunk => ?_, fun first hfirst => ?_⟩
  · obtain ⟨step, hstep, hstarted⟩ := h.started chunk hchunk
    exact hlog.started _ step hstep hstarted
  · rcases hmark.running first hfirst with hfirst | ⟨hexecutes, step, hstep, hrunning⟩
    · exact h.truncated first hfirst
    · exact h.stepIndex_le hexecutes hstep hrunning

/-- A mark on the running step comes after all that is stored. -/
theorem AttemptLogged.truncate (h : AttemptLogged attempt steps chunks)
    (hexecutes : attempt.validateExecution steps = .ok ()) {k : ℕ} {running : RunAttemptStep}
    (hk : steps[k]? = some running) (hrunning : running.state = .running) :
    AttemptLogged { attempt with firstTruncatedStepIndex := some k } steps chunks := by
  refine { h with truncated := ?_ }
  rintro _ ⟨⟩
  exact h.stepIndex_le hexecutes hk hrunning

/-- The next chunk of the running step goes to the end. -/
theorem AttemptLogged.append (h : AttemptLogged attempt steps chunks) {chunk : RunLogChunk}
    (hexecutes : attempt.validateExecution steps = .ok ()) {running : RunAttemptStep}
    (hk : steps[chunk.stepIndex]? = some running) (hrunning : running.state = .running)
    (hsequence : chunk.sequence = chunks.length + 1)
    (hmark : attempt.firstTruncatedStepIndex = none)
    (hfits : attempt.logBytes + chunk.byteLength ≤ maxRunLogBytesPerAttempt) :
    AttemptLogged { attempt with logBytes := attempt.logBytes + chunk.byteLength } steps
      (chunks ++ [chunk]) := by
  refine ⟨?_, ?_, ?_, hfits, fun other hother => ?_, ?_⟩
  · rw [List.map_append, h.sequences, List.length_append, List.length_singleton,
      List.range'_1_concat, List.map_singleton, hsequence, Nat.add_comm 1]
  · rw [List.map_append, List.pairwise_append]
    refine ⟨h.order, List.pairwise_singleton _ _, fun index hindex last hlast => ?_⟩
    obtain ⟨other, hother, rfl⟩ := List.mem_map.mp hindex
    obtain rfl := List.mem_singleton.mp hlast
    exact h.stepIndex_le hexecutes hk hrunning other hother
  · simp [h.bytes]
  · rcases List.mem_append.mp hother with hold | hnew
    · exact h.started other hold
    · obtain rfl := List.mem_singleton.mp hnew
      refine ⟨running, hk, ?_⟩
      rintro (hstate | hstate) <;> simp [hrunning] at hstate
  · intro first hfirst
    rw [hmark] at hfirst
    cases hfirst

end AttemptLogged

/-! ## What an append does -/

namespace RunLogStore

section Append

variable {store : RunLogStore} {chunk : RunLogChunk}

/-- The store takes the chunk for the attempt at `a`: it is the next one, of the step that runs. -/
structure Takes (store : RunLogStore) (chunk : RunLogChunk) (a : ℕ) (held : Held) : Prop where
  attempt : store.runs.attempts[a]? = some (held.attempt, held.steps)
  id : chunk.attemptId = held.attempt.id
  unmarked : held.attempt.firstTruncatedStepIndex = none
  next : store.lastSequence chunk.attemptId + 1 = chunk.sequence
  executes : held.attempt.validateExecution held.steps = .ok ()
  running : ∃ step, held.steps[chunk.stepIndex]? = some step ∧ step.state = .running

/-- What an append leaves behind. -/
inductive AppendChange (store : RunLogStore) (chunk : RunLogChunk) : RunLogStore → Prop where
  | unchanged : AppendChange store chunk store
  | truncated {a : ℕ} {held : Held} (h : store.Takes chunk a held) :
      AppendChange store chunk (store.saveAttempt a
        { held.attempt with firstTruncatedStepIndex := some chunk.stepIndex } held.steps)
  | appended {a : ℕ} {held : Held} (h : store.Takes chunk a held)
      (hfits : held.attempt.logBytes + chunk.byteLength ≤ maxRunLogBytesPerAttempt) :
      AppendChange store chunk
        { store.saveAttempt a
            { held.attempt with logBytes := held.attempt.logBytes + chunk.byteLength }
            held.steps with
          logs := store.logs ++ [⟨store.runs.run.id, chunk⟩] }

theorem lockedAttemptContext_eq_ok {attemptId : String} {a : ℕ} {held : Held}
    (h : store.lockedAttemptContext attemptId = .ok (a, held)) :
    store.runs.attempts[a]? = some (held.attempt, held.steps) := by
  unfold lockedAttemptContext at h
  split at h
  · cases h
  · rename_i a' attempt steps hget
    split at h
    · cases h
    · split at h
      · cases h
      · cases h
        obtain ⟨_, -, hmap⟩ := Option.bind_eq_some_iff.mp hget
        obtain ⟨_, hentry, heq⟩ := Option.map_eq_some_iff.mp hmap
        cases heq
        exact hentry

/-- What `accept_log_chunk` checked, and what it made of the attempt. -/
theorem acceptLogChunk_eq_ok {steps : List RunAttemptStep} {attempt attempt' : RunAttempt}
    {accepted : Bool}
    (h : (RunAttempt.acceptLogChunk steps chunk).run attempt = .ok accepted attempt')
    (hmark : attempt.firstTruncatedStepIndex = none) :
    chunk.attemptId = attempt.id ∧ attempt.validateExecution steps = .ok () ∧
      (∃ step, steps[chunk.stepIndex]? = some step ∧ step.state = .running) ∧
      ((accepted = false ∧
          attempt' = { attempt with firstTruncatedStepIndex := some chunk.stepIndex }) ∨
        (accepted = true ∧ attempt.logBytes + chunk.byteLength ≤ maxRunLogBytesPerAttempt ∧
          attempt' = { attempt with logBytes := attempt.logBytes + chunk.byteLength })) := by
  simp only [RunAttempt.acceptLogChunk, check_unit_bind_eq_ok, get_bind_eq_ok, rejectIf_eq_ok,
    not_not, hmark, Option.isSome_none, Bool.false_eq_true, if_false] at h
  obtain ⟨hid, -, hexecutes, ⟨step, hstep, hrunning⟩, h⟩ := h
  refine ⟨hid, hexecutes, ⟨step, hstep, hrunning⟩, ?_⟩
  split at h
  · exact (throw_eq_ok.mp h).elim
  · rename_i nextBytes hbytes
    obtain ⟨rfl, -⟩ := U64.checkedAdd_eq_some.mp hbytes
    split at h
    · rw [modify_bind_eq_ok, pure_eq_ok] at h
      exact .inl ⟨h.1.symm, h.2.symm⟩
    · rename_i hfits
      rw [modify_bind_eq_ok, pure_eq_ok] at h
      exact .inr ⟨h.1.symm, not_lt.mp hfits, h.2.symm⟩

theorem AppendChange.of_check {α β : Type} {f : RunLogStore → Except PostgresError α}
    {k : α → EStateM PostgresError RunLogStore β}
    (h : ∀ a, f store = .ok a → AppendChange store chunk (final (k a) store)) :
    AppendChange store chunk (final (check f >>= k) store) := by
  rcases final_check_bind_cases f k store with hfinal | ⟨a, ha, hfinal⟩
  · rw [hfinal]
    exact .unchanged
  · rw [hfinal]
    exact h a ha

theorem appendChunk_change {a : ℕ} {held : Held}
    (hattempt : store.runs.attempts[a]? = some (held.attempt, held.steps))
    (hmark : held.attempt.firstTruncatedStepIndex = none) :
    AppendChange store chunk (final (appendChunk chunk a held) store) := by
  unfold appendChunk
  refine .of_check fun _ hnext => ?_
  rw [rejectIf_eq_ok, not_not] at hnext
  split
  · exact .unchanged
  · rename_i attempt haccept
    obtain ⟨hid, hexecutes, hrunning, ⟨-, rfl⟩ | ⟨h, -⟩⟩ := acceptLogChunk_eq_ok haccept hmark
    · exact .truncated ⟨hattempt, hid, hmark, hnext, hexecutes, hrunning⟩
    · cases h
  · rename_i attempt haccept
    obtain ⟨hid, hexecutes, hrunning, ⟨h, -⟩ | ⟨-, hfits, rfl⟩⟩ := acceptLogChunk_eq_ok haccept hmark
    · cases h
    · exact .of_check fun _ _ =>
        .appended ⟨hattempt, hid, hmark, hnext, hexecutes, hrunning⟩ hfits

/-- An append stores the next chunk of the running step, or marks that step, or does nothing. -/
theorem appendAttemptLog_change (store : RunLogStore) (chunk : RunLogChunk) (tokenHash : String)
    (nowUnix : ℕ) :
    AppendChange store chunk (final (appendAttemptLog chunk tokenHash nowUnix) store) := by
  unfold appendAttemptLog
  refine .of_check fun context hcontext => ?_
  obtain ⟨a, held⟩ := context
  refine .of_check fun _ _ => .of_check fun _ hmark => .of_check fun _ _ => ?_
  rw [rejectIf_eq_ok, Bool.not_eq_true, Option.isSome_eq_false_iff, Option.isNone_iff_eq_none]
    at hmark
  rw [final_get_bind]
  split
  · exact .of_check fun _ _ => .unchanged
  · exact appendChunk_change (lockedAttemptContext_eq_ok hcontext) hmark

/-! ## Every run -/

/-- Every row belongs to an attempt, whose log is in order. -/
structure Logged (store : RunLogStore) : Prop where
  ids : (store.runs.attempts.map (·.1.id)).Nodup
  owned : ∀ row ∈ store.logs, ∃ entry ∈ store.runs.attempts, entry.1.id = row.chunk.attemptId
  attempts : ∀ entry ∈ store.runs.attempts,
    AttemptLogged entry.1 entry.2 (store.chunksOf entry.1.id)

theorem Logged.unique (h : Logged store) {i j : ℕ} {entry other : RunAttempt × List RunAttemptStep}
    (hi : store.runs.attempts[i]? = some entry) (hj : store.runs.attempts[j]? = some other)
    (hid : entry.1.id = other.1.id) : i = j := by
  have hnodup : (store.runs.attempts.filterMap fun entry => some entry.1.id).Nodup := by
    simpa [List.filterMap_eq_map'] using h.ids
  exact ListUpdate.index_unique hnodup hi hj rfl (by rw [hid])

theorem le_lastSequence {attemptId : String} (hmem : chunk ∈ store.chunksOf attemptId) :
    chunk.sequence ≤ store.lastSequence attemptId :=
  le_latest_of_mem (List.mem_map.mpr ⟨chunk, hmem, rfl⟩) 0

theorem lastSequence_eq_length {attempt : RunAttempt} {steps : List RunAttemptStep}
    {attemptId : String} (h : AttemptLogged attempt steps (store.chunksOf attemptId)) :
    store.lastSequence attemptId = (store.chunksOf attemptId).length := by
  refine le_antisymm (latest_le (Nat.zero_le _) fun sequence hmem => ?_) ?_
  · rw [h.sequences, List.mem_range'_1] at hmem
    omega
  · by_cases hempty : (store.chunksOf attemptId).length = 0
    · rw [hempty]
      exact Nat.zero_le _
    · have hmem : (store.chunksOf attemptId).length ∈
          (store.chunksOf attemptId).map (·.sequence) := by
        rw [h.sequences, List.mem_range'_1]
        omega
      exact le_latest_of_mem hmem 0

/-- A log with one attempt replaced stays in order, if the attempt keeps its id and the chunks of no
other attempt change. -/
theorem Logged.replace {store' : RunLogStore} (h : Logged store) {a : ℕ}
    {entry entry' : RunAttempt × List RunAttemptStep}
    (hentry : store.runs.attempts[a]? = some entry)
    (hattempts : store'.runs.attempts = store.runs.attempts.set a entry')
    (hid : entry'.1.id = entry.1.id)
    (howned : ∀ row ∈ store'.logs, row ∈ store.logs ∨ row.chunk.attemptId = entry.1.id)
    (hother : ∀ id, id ≠ entry.1.id → store'.chunksOf id = store.chunksOf id)
    (hlogged : AttemptLogged entry'.1 entry'.2 (store'.chunksOf entry.1.id)) : Logged store' := by
  have hids : store'.runs.attempts.map (·.1.id) = store.runs.attempts.map (·.1.id) := by
    rw [hattempts]
    exact ListUpdate.map_set hentry hid
  refine ⟨hids ▸ h.ids, fun row hrow => ?_, fun other hmem => ?_⟩
  · have hold : ∃ old ∈ store.runs.attempts, old.1.id = row.chunk.attemptId := by
      rcases howned row hrow with hold | hnew
      · exact h.owned row hold
      · exact ⟨entry, List.mem_of_getElem? hentry, hnew.symm⟩
    obtain ⟨old, hold, hrowId⟩ := hold
    have hmem : row.chunk.attemptId ∈ store'.runs.attempts.map (·.1.id) :=
      hids ▸ List.mem_map.mpr ⟨old, hold, hrowId⟩
    obtain ⟨found, hfound, heq⟩ := List.mem_map.mp hmem
    exact ⟨found, hfound, heq⟩
  · rw [hattempts] at hmem
    rcases ListUpdate.mem_set_cases hmem with rfl | ⟨k, hk, hget⟩
    · rw [hid]
      exact hlogged
    · have hne : other.1.id ≠ entry.1.id := fun heq => hk (h.unique hget hentry heq)
      rw [hother _ hne]
      exact h.attempts other (List.mem_of_getElem? hget)

theorem chunksOf_append (store : RunLogStore) (runId : String) (chunk : RunLogChunk)
    (attemptId : String) :
    ({ store with logs := store.logs ++ [⟨runId, chunk⟩] } : RunLogStore).chunksOf attemptId =
      store.chunksOf attemptId ++ if chunk.attemptId = attemptId then [chunk] else [] := by
  simp only [chunksOf, List.map_append, List.filter_append]
  by_cases h : chunk.attemptId = attemptId <;> simp [h]

theorem Logged.appendChange {store' : RunLogStore} (h : Logged store)
    (hchange : AppendChange store chunk store') : Logged store' := by
  cases hchange with
  | unchanged => exact h
  | @truncated a held htakes =>
    have hlogged := h.attempts _ (List.mem_of_getElem? htakes.attempt)
    obtain ⟨step, hstep, hrunning⟩ := htakes.running
    refine h.replace htakes.attempt rfl ?_ (fun _ => .inl) (fun _ _ => rfl)
      (hlogged.truncate htakes.executes hstep hrunning)
    rfl
  | @appended a held htakes hfits =>
    have hlogged := h.attempts _ (List.mem_of_getElem? htakes.attempt)
    obtain ⟨step, hstep, hrunning⟩ := htakes.running
    have hnext : chunk.sequence = (store.chunksOf held.attempt.id).length + 1 := by
      rw [← htakes.next, htakes.id, lastSequence_eq_length hlogged]
    refine h.replace htakes.attempt rfl ?_ (fun row hrow => ?_) (fun id hne => ?_) ?_
    · rfl
    · rcases List.mem_append.mp hrow with hold | hnew
      · exact .inl hold
      · obtain rfl := List.mem_singleton.mp hnew
        exact .inr htakes.id
    · refine (chunksOf_append store _ chunk id).trans ?_
      rw [htakes.id, if_neg (Ne.symm hne), List.append_nil]
    · have hchunks := chunksOf_append store store.runs.run.id chunk held.attempt.id
      rw [if_pos htakes.id] at hchunks
      refine Eq.substr hchunks ?_
      exact hlogged.append htakes.executes hstep hrunning hnext htakes.unmarked hfits

theorem Logged.runStep (h : Logged store) {runs' : RunAggregate}
    (hstep : RunAggregate.Step (fun _ _ => True) store.runs runs')
    (hids : (runs'.attempts.map (·.1.id)).Nodup) : Logged { store with runs := runs' } := by
  cases hstep with
  | @dispatch j job job' definition attemptId tokenHash runtimeVersion now lease attempt steps hjob
      hop =>
    obtain rfl : attempt = _ := (RunJob.dispatched_of_ok hop).attempt
    refine ⟨hids, fun row hrow => ?_, fun entry hentry => ?_⟩
    · obtain ⟨entry, hentry, hid⟩ := h.owned row hrow
      exact ⟨entry, List.mem_append_left _ hentry, hid⟩
    · rcases List.mem_append.mp hentry with hold | hnew
      · exact h.attempts entry hold
      · obtain rfl := List.mem_singleton.mp hnew
        rw [List.map_append, List.nodup_append] at hids
        -- the rows belong to the attempts there were, which have other ids
        have hnone : store.chunksOf (job.newAttempt store.runs.run attemptId tokenHash runtimeVersion
            now lease).id = [] := by
          rw [chunksOf, List.filter_eq_nil_iff]
          intro chunk hchunk hid
          obtain ⟨row, hrow, rfl⟩ := List.mem_map.mp hchunk
          obtain ⟨old, hold, hold'⟩ := h.owned row hrow
          exact hids.2.2 _ (List.mem_map.mpr ⟨old, hold, rfl⟩) _ List.mem_cons_self
            (hold'.trans (of_decide_eq_true hid))
        show AttemptLogged _ _ (store.chunksOf _)
        rw [hnone]
        exact ⟨rfl, .nil, rfl, Nat.zero_le _, nofun, nofun⟩
  | @attempt j a op held held' u hheld _ hop =>
    obtain ⟨-, hattempt⟩ := RunAggregate.held?_eq_some.mp hheld
    have hlog := AttemptOp.logKept hop
    refine h.replace hattempt rfl hlog.id (fun _ => .inl) (fun _ _ => rfl) ?_
    exact (h.attempts _ (List.mem_of_getElem? hattempt)).operation hlog
      (AttemptOp.markKept op store.runs.run held u held' hop)
  | expireCapacityRetry => exact ⟨h.ids, h.owned, h.attempts⟩
  | run => exact ⟨h.ids, h.owned, h.attempts⟩

theorem Logged.step {store' : RunLogStore} (h : Logged store) (hstep : Step store store') :
    Logged store' := by
  cases hstep with
  | run hstep hids => exact h.runStep hstep hids
  | append chunk tokenHash nowUnix =>
    exact h.appendChange (appendAttemptLog_change store chunk tokenHash nowUnix)

theorem Reachable.logged (h : Reachable store) : Logged store := by
  refine h.invariant Logged ?_ fun _ _ _ hlogged hstep => hlogged.step hstep
  rintro ⟨runs, logs⟩ ⟨hcreated, rfl : logs = []⟩
  cases hcreated with
  | mk hrun hjobs => exact ⟨List.nodup_nil, nofun, nofun⟩

/-- A chunk with a sequence that is stored changes nothing, whatever it contains. -/
theorem final_append_of_stored {row : RunLogRow} (hrow : row ∈ store.logs)
    (hid : chunk.attemptId = row.chunk.attemptId) (hsequence : chunk.sequence = row.chunk.sequence)
    (tokenHash : String) (nowUnix : ℕ) :
    final (appendAttemptLog chunk tokenHash nowUnix) store = store := by
  have hmem : row.chunk ∈ store.chunksOf chunk.attemptId :=
    List.mem_filter.mpr ⟨List.mem_map.mpr ⟨row, hrow, rfl⟩, by simp [hid]⟩
  have hle := le_lastSequence hmem
  have hnot : ∀ {a : ℕ} {held : Held}, ¬ store.Takes chunk a held := by
    intro a held htakes
    have hnext := htakes.next
    omega
  have hchange := appendAttemptLog_change store chunk tokenHash nowUnix
  generalize final (appendAttemptLog chunk tokenHash nowUnix) store = store' at hchange
  cases hchange with
  | unchanged => rfl
  | truncated htakes => exact (hnot htakes).elim
  | appended htakes hfits => exact (hnot htakes).elim

/-- A step stores at most one chunk, of a step that runs in an attempt without a mark. -/
theorem Step.stored {store' : RunLogStore} (h : Step store store') :
    store'.logs = store.logs ∨ ∃ row, store'.logs = store.logs ++ [row] ∧
      ∃ entry ∈ store.runs.attempts, entry.1.id = row.chunk.attemptId ∧
        entry.1.firstTruncatedStepIndex = none ∧
        ∃ step, entry.2[row.chunk.stepIndex]? = some step ∧ step.state = .running := by
  cases h with
  | run => exact .inl rfl
  | append chunk tokenHash nowUnix =>
    have hchange := appendAttemptLog_change store chunk tokenHash nowUnix
    generalize final (appendAttemptLog chunk tokenHash nowUnix) store = store' at hchange
    cases hchange with
    | unchanged | truncated => exact .inl rfl
    | @appended a held htakes hfits =>
      exact .inr ⟨_, rfl, _, List.mem_of_getElem? htakes.attempt, htakes.id.symm, htakes.unmarked,
        htakes.running⟩

/-- The attempt with the given id is marked at the step `first`. -/
def MarkedAt (store : RunLogStore) (attemptId : String) (first : ℕ) : Prop :=
  ∃ entry ∈ store.runs.attempts, entry.1.id = attemptId ∧
    entry.1.firstTruncatedStepIndex = some first

/-- Replacing an attempt keeps the marks, if it keeps the id and the mark of that attempt. -/
theorem MarkedAt.replace {store' : RunLogStore} {attemptId : String} {first a : ℕ}
    (h : store.MarkedAt attemptId first) {entry entry' : RunAttempt × List RunAttemptStep}
    (hentry : store.runs.attempts[a]? = some entry)
    (hattempts : store'.runs.attempts = store.runs.attempts.set a entry')
    (hid : entry'.1.id = entry.1.id)
    (hmark : ∀ first ∈ entry.1.firstTruncatedStepIndex,
      entry'.1.firstTruncatedStepIndex = some first) : store'.MarkedAt attemptId first := by
  obtain ⟨marked, hmem, hmarkedId, hfirst⟩ := h
  obtain ⟨k, hk⟩ := List.mem_iff_getElem?.mp hmem
  by_cases hak : a = k
  · subst hak
    obtain rfl := Option.some_inj.mp (hentry.symm.trans hk)
    exact ⟨entry', hattempts ▸ ListUpdate.mem_set_self hentry, hid.trans hmarkedId,
      hmark first hfirst⟩
  · exact ⟨marked, hattempts ▸ ListUpdate.mem_set_of_getElem? hk hak, hmarkedId, hfirst⟩

/-- Once an attempt is marked, its mark stays and nothing more is stored for it. -/
theorem Logged.marked_step {store' : RunLogStore} (h : Logged store) (hstep : Step store store')
    {attemptId : String} {first : ℕ} (hmarked : store.MarkedAt attemptId first) :
    store'.MarkedAt attemptId first ∧ store'.chunksOf attemptId = store.chunksOf attemptId := by
  cases hstep with
  | @run runs' hstep hids =>
    refine ⟨?_, rfl⟩
    cases hstep with
    | dispatch =>
      obtain ⟨entry, hentry, hrest⟩ := hmarked
      exact ⟨entry, List.mem_append_left _ hentry, hrest⟩
    | @attempt j a op held held' u hheld _ hop =>
      exact hmarked.replace (RunAggregate.held?_eq_some.mp hheld).2 rfl (AttemptOp.logKept hop).id
        (AttemptOp.markKept op store.runs.run held u held' hop).kept
    | expireCapacityRetry => exact hmarked
    | run => exact hmarked
  | append chunk tokenHash nowUnix =>
    have hchange := appendAttemptLog_change store chunk tokenHash nowUnix
    generalize final (appendAttemptLog chunk tokenHash nowUnix) store = store' at hchange
    -- the attempt that takes a chunk has no mark
    have hunmarked : ∀ {a : ℕ} {held : Held}, store.Takes chunk a held →
        ∀ first ∈ held.attempt.firstTruncatedStepIndex, ∀ p : Prop, p := by
      intro a held htakes first hfirst
      rw [htakes.unmarked] at hfirst
      cases hfirst
    cases hchange with
    | unchanged => exact ⟨hmarked, rfl⟩
    | @truncated a held htakes =>
      exact ⟨hmarked.replace htakes.attempt rfl rfl fun first hfirst =>
        hunmarked htakes first hfirst _, rfl⟩
    | @appended a held htakes hfits =>
      refine ⟨hmarked.replace htakes.attempt rfl rfl fun first hfirst =>
        hunmarked htakes first hfirst _, ?_⟩
      refine (chunksOf_append store _ chunk attemptId).trans ?_
      rw [if_neg, List.append_nil]
      rintro rfl
      obtain ⟨entry, hentry, hid, hfirst⟩ := hmarked
      obtain ⟨k, hk⟩ := List.mem_iff_getElem?.mp hentry
      obtain rfl := h.unique hk htakes.attempt (hid.trans htakes.id)
      obtain rfl := Option.some_inj.mp (hk.symm.trans htakes.attempt)
      exact hunmarked htakes first hfirst _

/-- Once an attempt is marked, that is so in every later state. -/
theorem Logged.marked_run {store' : RunLogStore} (h : Logged store)
    (hrun : ReflTransGen Step store store') {attemptId : String} {first : ℕ}
    (hmarked : store.MarkedAt attemptId first) :
    store'.MarkedAt attemptId first ∧ store'.chunksOf attemptId = store.chunksOf attemptId := by
  suffices hkept : store.MarkedAt attemptId first → store'.MarkedAt attemptId first ∧
      store'.chunksOf attemptId = store.chunksOf attemptId from hkept hmarked
  refine Transition.run_rel (R := fun s s' => s.MarkedAt attemptId first →
    s'.MarkedAt attemptId first ∧ s'.chunksOf attemptId = s.chunksOf attemptId) hrun h
    (fun _ _ hlogged hstep => hlogged.step hstep) (fun _ hmarked => ⟨hmarked, rfl⟩) ?_
    fun _ _ hlogged hstep hmarked => hlogged.marked_step hstep hmarked
  intro s₁ s₂ s₃ h₁₂ h₂₃ hmarked
  obtain ⟨hmarked₂, hchunks₂⟩ := h₁₂ hmarked
  obtain ⟨hmarked₃, hchunks₃⟩ := h₂₃ hmarked₂
  exact ⟨hmarked₃, hchunks₃.trans hchunks₂⟩

/-- In every run of the store the chunks of an attempt are stored once, in order and within its
limit, while their steps run and up to the mark, which stays and after which nothing is stored. -/
theorem Reachable.stored_in_order (h : Reachable store) :
    (∀ entry ∈ store.runs.attempts,
      AttemptLogged entry.1 entry.2 (store.chunksOf entry.1.id)) ∧
    (∀ row ∈ store.logs, ∀ (chunk : RunLogChunk) (tokenHash : String) (nowUnix : ℕ),
      chunk.attemptId = row.chunk.attemptId → chunk.sequence = row.chunk.sequence →
        final (appendAttemptLog chunk tokenHash nowUnix) store = store) ∧
    (∀ store', Step store store' → store'.logs = store.logs ∨
      ∃ row, store'.logs = store.logs ++ [row] ∧
        ∃ entry ∈ store.runs.attempts, entry.1.id = row.chunk.attemptId ∧
          entry.1.firstTruncatedStepIndex = none ∧
          ∃ step, entry.2[row.chunk.stepIndex]? = some step ∧ step.state = .running) ∧
    ∀ store', ReflTransGen Step store store' → ∀ attemptId first,
      store.MarkedAt attemptId first → store'.MarkedAt attemptId first ∧
        store'.chunksOf attemptId = store.chunksOf attemptId := by
  have hlogged := Reachable.logged h
  refine ⟨hlogged.attempts, fun row hrow chunk tokenHash nowUnix hid hsequence => ?_,
    fun store' hstep => hstep.stored, fun store' hrun attemptId first hmarked => ?_⟩
  · exact final_append_of_stored hrow hid hsequence tokenHash nowUnix
  · exact hlogged.marked_run hrun hmarked

end Append

namespace SmallRun

open RunAggregate.SmallRun

def firstChunk : RunLogChunk :=
  ⟨"attempt", 0, 1, "compiling", 120, by decide, by decide, by decide, by decide, by decide⟩

/-- The running step has sent its first chunk. -/
def logged : RunLogStore := final (appendAttemptLog firstChunk token 120) ⟨started, []⟩

theorem logged_reachable : Reachable logged := by
  have hcreated : Created ⟨RunAggregate.SmallRun.created, []⟩ := ⟨created_isCreated, rfl⟩
  have hdispatched : Step ⟨RunAggregate.SmallRun.created, []⟩ ⟨dispatched, []⟩ :=
    .run (dispatched_step _) (by decide)
  have hstarted : Step ⟨dispatched, []⟩ ⟨started, []⟩ := .run started_step (by decide)
  exact (((Transition.Reachable.of_init hcreated).tail hdispatched).tail hstarted).tail
    (.append firstChunk token 120)

end SmallRun

/-- The first chunk is stored, and sending it again changes nothing. -/
theorem stored_in_order_first_chunk : SmallRun.logged.logs.map (·.chunk) = [SmallRun.firstChunk] ∧
    final (appendAttemptLog SmallRun.firstChunk RunAggregate.SmallRun.token 130) SmallRun.logged =
      SmallRun.logged :=
  ⟨rfl, (Reachable.stored_in_order SmallRun.logged_reachable).2.1 _ List.mem_cons_self
    SmallRun.firstChunk _ _ rfl rfl⟩

end RunLogStore

end ScopeVcs

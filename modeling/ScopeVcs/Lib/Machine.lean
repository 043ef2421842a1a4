import ScopeVcs.Lib.Mutation

/-! # Machines that may fail

A machine takes inputs one by one; each step gives an output and a new state, or fails. `runAll`
feeds it a list. Two machines are compared by a relation between their states: when related states
take every input to related outcomes, whole runs have related outcomes.
-/

namespace Machine

open Mutation (except_bind_eq_ok)

variable {ε ι ο σ τ : Type}

/-- The outputs for a list of inputs, and the state after the last one. -/
def runAll (step : σ → ι → Except ε (ο × σ)) : σ → List ι → Except ε (List ο × σ)
  | state, [] => .ok ([], state)
  | state, input :: inputs => do
    let (output, state) ← step state input
    let (outputs, state) ← runAll step state inputs
    return (output :: outputs, state)

section

variable {step : σ → ι → Except ε (ο × σ)}

theorem runAll_cons_eq_ok {state state' : σ} {input : ι} {inputs : List ι} {outputs : List ο} :
    runAll step state (input :: inputs) = .ok (outputs, state') ↔
      ∃ output middle rest, step state input = .ok (output, middle) ∧
        runAll step middle inputs = .ok (rest, state') ∧ outputs = output :: rest := by
  rw [runAll]
  simp only [except_bind_eq_ok, Prod.exists]
  constructor
  · rintro ⟨output, middle, hstep, rest, state', hrest, ⟨⟩⟩
    exact ⟨output, middle, rest, hstep, hrest, rfl⟩
  · rintro ⟨output, middle, rest, hstep, hrest, rfl⟩
    exact ⟨output, middle, hstep, rest, state', hrest, rfl⟩

/-- A run over two lists goes through the state after the first. -/
theorem runAll_append (state : σ) (inputs inputs' : List ι) :
    runAll step state (inputs ++ inputs') = do
      let (outputs, state) ← runAll step state inputs
      let (outputs', state) ← runAll step state inputs'
      return (outputs ++ outputs', state) := by
  induction inputs generalizing state with
  | nil =>
    change _ = (do
      let (outputs', state) ← runAll step state inputs'
      return ([] ++ outputs', state))
    rw [List.nil_append]
    cases runAll step state inputs' <;> rfl
  | cons input inputs ih =>
    rw [List.cons_append, runAll, runAll]
    cases hstep : step state input with
    | error error => rfl
    | ok next =>
      obtain ⟨output, middle⟩ := next
      change (runAll step middle (inputs ++ inputs') >>= _) =
        ((runAll step middle inputs >>= _) >>= _)
      rw [ih middle]
      cases runAll step middle inputs with
      | error error => rfl
      | ok result => cases hresult' : runAll step result.2 inputs' <;> simp [bind, Except.bind, pure,
          Except.pure, hresult']

theorem runAll_append_eq_ok {state state' : σ} {inputs inputs' : List ι} {outputs : List ο} :
    runAll step state (inputs ++ inputs') = .ok (outputs, state') ↔
      ∃ outputs₁ middle outputs₂, runAll step state inputs = .ok (outputs₁, middle) ∧
        runAll step middle inputs' = .ok (outputs₂, state') ∧ outputs = outputs₁ ++ outputs₂ := by
  rw [runAll_append]
  simp only [except_bind_eq_ok, Prod.exists]
  constructor
  · rintro ⟨outputs₁, middle, hfirst, outputs₂, state', hsecond, ⟨⟩⟩
    exact ⟨outputs₁, middle, outputs₂, hfirst, hsecond, rfl⟩
  · rintro ⟨outputs₁, middle, outputs₂, hfirst, hsecond, rfl⟩
    exact ⟨outputs₁, middle, hfirst, outputs₂, state', hsecond, rfl⟩

/-- A run gives one output for each input. -/
theorem length_of_runAll {state state' : σ} {inputs : List ι} {outputs : List ο}
    (h : runAll step state inputs = .ok (outputs, state')) : outputs.length = inputs.length := by
  induction inputs generalizing state outputs with
  | nil =>
    cases h
    rfl
  | cons input inputs ih =>
    obtain ⟨output, middle, rest, -, hrest, rfl⟩ := runAll_cons_eq_ok.mp h
    rw [List.length_cons, List.length_cons, ih hrest]

end

/-! ## Related outcomes -/

/-- Both succeed with related values, or both fail with related errors. -/
inductive Rel {α β : Type} (E : ε → ε → Prop) (R : α → β → Prop) : Except ε α → Except ε β → Prop
  | ok {a : α} {b : β} (h : R a b) : Rel E R (.ok a) (.ok b)
  | error {e e' : ε} (h : E e e') : Rel E R (.error e) (.error e')

namespace Rel

variable {α β γ δ : Type} {E : ε → ε → Prop} {R : α → β → Prop} {S : γ → δ → Prop}

theorem bind {x : Except ε α} {y : Except ε β} {f : α → Except ε γ} {g : β → Except ε δ}
    (h : Rel E R x y) (hf : ∀ a b, R a b → Rel E S (f a) (g b)) :
    Rel E S (x >>= f) (y >>= g) := by
  cases h with
  | ok h => exact hf _ _ h
  | error h => exact .error h

theorem refl (hE : ∀ e, E e e) {R : α → α → Prop} (hR : ∀ a, R a a) (x : Except ε α) :
    Rel E R x x := by
  cases x with
  | ok a => exact .ok (hR a)
  | error e => exact .error (hE e)

/-- Related states run through the same inputs to the same outputs and related states. -/
theorem runAll {step : σ → ι → Except ε (ο × σ)} {step' : τ → ι → Except ε (ο × τ)}
    {R : σ → τ → Prop}
    (hstep : ∀ s t input, R s t →
      Rel E (fun a b => a.1 = b.1 ∧ R a.2 b.2) (step s input) (step' t input))
    {s : σ} {t : τ} (h : R s t) (inputs : List ι) :
    Rel E (fun a b => a.1 = b.1 ∧ R a.2 b.2) (Machine.runAll step s inputs)
      (Machine.runAll step' t inputs) := by
  induction inputs generalizing s t with
  | nil => exact .ok ⟨rfl, h⟩
  | cons input inputs ih =>
    refine (hstep s t input h).bind ?_
    rintro ⟨output, s'⟩ ⟨output', t'⟩ ⟨houtput, hst⟩
    refine (ih hst).bind ?_
    rintro ⟨outputs, s''⟩ ⟨outputs', t''⟩ ⟨houtputs, hst'⟩
    exact .ok ⟨congrArg₂ List.cons houtput houtputs, hst'⟩

theorem ok_iff {x : Except ε α} {y : Except ε β} (h : Rel E R x y) :
    (∃ a, x = .ok a) ↔ ∃ b, y = .ok b := by
  cases h <;> simp

theorem exists_of_ok {x : Except ε α} {y : Except ε β} (h : Rel E R x y) {a : α}
    (ha : x = .ok a) : ∃ b, y = .ok b ∧ R a b := by
  cases h with
  | ok h =>
    cases ha
    exact ⟨_, rfl, h⟩
  | error h => cases ha

theorem exists_of_ok_right {x : Except ε α} {y : Except ε β} (h : Rel E R x y) {b : β}
    (hb : y = .ok b) : ∃ a, x = .ok a ∧ R a b := by
  cases h with
  | ok h =>
    cases hb
    exact ⟨_, rfl, h⟩
  | error h => cases hb

end Rel

end Machine

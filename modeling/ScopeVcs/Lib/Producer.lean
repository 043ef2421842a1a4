import Mathlib.Order.Basic

/-! # Loops over a fallible producer

A producer hands out items one by one until it ends or fails, and gets smaller with each item. A loop
runs a body on every item; the state that the body has built is there also when the loop fails.
-/

/-- A state machine that yields items. -/
structure Producer (S α ε : Type) where
  next : S → Except ε (Option α × S)
  size : S → ℕ
  size_lt : ∀ {s s' : S} {a : α}, next s = .ok (some a, s') → size s' < size s

namespace Producer

variable {S α ε σ : Type} (producer : Producer S α ε) (body : σ → α → σ × Except ε Unit)

/-- `while let Some(item) = producer.next()? { body }`. -/
def forEach (s : S) (state : σ) : σ × Except ε S :=
  match h : producer.next s with
  | .error e => (state, .error e)
  | .ok (none, s') => (state, .ok s')
  | .ok (some a, s') =>
    match body state a with
    | (state, .error e) => (state, .error e)
    | (state, .ok ()) => forEach s' state
termination_by producer.size s
decreasing_by exact producer.size_lt h

/-- The body on the items of a list, up to the first failure. -/
def feed (body : σ → α → σ × Except ε Unit) : σ → List α → σ × Except ε Unit
  | state, [] => (state, .ok ())
  | state, a :: items =>
    match body state a with
    | (state, .error e) => (state, .error e)
    | (state, .ok ()) => feed body state items

/-- The items that lead from one state to another. -/
inductive Yields : S → List α → S → Prop where
  | nil {s : S} : Yields s [] s
  | cons {s s' t : S} {a : α} {items : List α} (hnext : producer.next s = .ok (some a, s'))
      (hrest : Yields s' items t) : Yields s (a :: items) t

variable {producer body} {s t u : S} {state : σ} {items : List α}

theorem forEach_cons {s' : S} {a : α} (h : producer.next s = .ok (some a, s')) :
    producer.forEach body s state =
      match body state a with
      | (state, .error e) => (state, .error e)
      | (state, .ok ()) => producer.forEach body s' state := by
  rw [forEach.eq_def]
  split
  · next heq => simp [h] at heq
  · next heq => simp [h] at heq
  · next a' s₁ heq =>
    cases h.symm.trans heq
    rfl

theorem forEach_end (h : producer.next s = .ok (none, u)) :
    producer.forEach body s state = (state, .ok u) := by
  rw [forEach.eq_def]
  split
  · next heq => simp [h] at heq
  · next s₁ heq =>
    cases h.symm.trans heq
    rfl
  · next heq => simp [h] at heq

/-- The loop runs its body on the items that the producer yields, and then ends with it. -/
theorem forEach_of_yields (h : producer.Yields s items t) (hend : producer.next t = .ok (none, u)) :
    producer.forEach body s state =
      ((feed body state items).1, (feed body state items).2.map fun _ => u) := by
  induction h generalizing state with
  | nil => exact forEach_end hend
  | cons hnext hrest ih =>
    rw [forEach_cons hnext, feed]
    cases body state _ with
    | mk state' result =>
      cases result with
      | error e => rfl
      | ok done => exact ih hend

/-- The loop runs its body on the items that the producer yields, and then fails with it. -/
theorem forEach_of_yields_error {e : ε} (h : producer.Yields s items t)
    (herror : producer.next t = .error e) :
    producer.forEach body s state =
      ((feed body state items).1, (feed body state items).2.bind fun _ => .error e) := by
  induction h generalizing state with
  | nil =>
    rw [forEach.eq_def]
    split <;> simp_all [feed, Except.bind]
  | cons hnext hrest ih =>
    rw [forEach_cons hnext, feed]
    cases body state _ with
    | mk state' result =>
      cases result with
      | error e => rfl
      | ok done => exact ih herror

/-- Every producer comes to a stop. -/
theorem exists_stop (producer : Producer S α ε) (s : S) :
    ∃ items t, producer.Yields s items t ∧
      ((∃ u, producer.next t = .ok (none, u)) ∨ ∃ e, producer.next t = .error e) := by
  induction hsize : producer.size s using Nat.strongRecOn generalizing s with
  | ind size ih =>
    cases hnext : producer.next s with
    | error e => exact ⟨[], s, .nil, .inr ⟨e, hnext⟩⟩
    | ok pair =>
      obtain ⟨item, s'⟩ := pair
      cases item with
      | none => exact ⟨[], s, .nil, .inl ⟨s', hnext⟩⟩
      | some a =>
        obtain ⟨items, t, hyields, hstop⟩ := ih _ (hsize ▸ producer.size_lt hnext) s' rfl
        exact ⟨a :: items, t, .cons hnext hyields, hstop⟩

/-- Whatever the loop has done, it did to items that the producer yielded; when the loop succeeds, the
producer ended behind them. -/
theorem exists_yields (producer : Producer S α ε) (body : σ → α → σ × Except ε Unit) (s : S)
    (state : σ) :
    ∃ items t, producer.Yields s items t ∧
      (producer.forEach body s state).1 = (feed body state items).1 ∧
      ∀ u, (producer.forEach body s state).2 = .ok u →
        producer.next t = .ok (none, u) ∧ (feed body state items).2 = .ok () := by
  induction hsize : producer.size s using Nat.strongRecOn generalizing s state with
  | ind size ih =>
    cases hnext : producer.next s with
    | error e =>
      have hloop : producer.forEach body s state = (state, .error e) := by
        rw [forEach.eq_def]
        split <;> simp_all
      exact ⟨[], s, .nil, by rw [hloop]; rfl, fun u hu => by simp [hloop] at hu⟩
    | ok pair =>
      obtain ⟨item, s'⟩ := pair
      cases item with
      | none =>
        refine ⟨[], s, .nil, by rw [forEach_end hnext]; rfl, fun u hu => ?_⟩
        rw [forEach_end hnext] at hu
        cases hu
        exact ⟨hnext, rfl⟩
      | some a =>
        rw [forEach_cons hnext]
        cases hbody : body state a with
        | mk state' result =>
          cases result with
          | error e =>
            refine ⟨[a], s', .cons hnext .nil, ?_, fun u hu => by cases hu⟩
            rw [feed, hbody]
          | ok done =>
            obtain ⟨items, t, hyields, hstate, hok⟩ :=
              ih (producer.size s') (hsize ▸ producer.size_lt hnext) s' state' rfl
            refine ⟨a :: items, t, .cons hnext hyields, ?_, fun u hu => ?_⟩
            · rw [feed, hbody]
              exact hstate
            · rw [feed, hbody]
              exact hok u hu

/-- A body that puts its items out, or fails without doing so: the loop puts out a prefix of them. -/
theorem feed_output {β : Type} {body : σ → List β → σ × Except ε Unit} (output : σ → List β)
    (hfront : ∀ state a, output (body state a).1 = output state ∧ (body state a).2 ≠ .ok () ∨
      output (body state a).1 = output state ++ a) (items : List (List β)) (state : σ) :
    output (feed body state items).1 <+: output state ++ items.flatten ∧
      ((feed body state items).2 = .ok () →
        output (feed body state items).1 = output state ++ items.flatten) := by
  induction items generalizing state with
  | nil =>
    rw [feed, List.flatten_nil, List.append_nil]
    exact ⟨List.prefix_rfl, fun _ => rfl⟩
  | cons a items ih =>
    have hbody := hfront state a
    rw [feed, List.flatten_cons, ← List.append_assoc]
    revert hbody
    cases body state a with
    | mk state' result =>
      cases result with
      | error e =>
        refine fun hbody => ⟨?_, fun h => by cases h⟩
        rcases hbody with ⟨hsame, -⟩ | happend
        · exact ⟨a ++ items.flatten, by rw [hsame, List.append_assoc]⟩
        · exact ⟨items.flatten, by rw [happend]⟩
      | ok done =>
        rintro (⟨-, hfailed⟩ | happend)
        · exact absurd rfl hfailed
        · rw [← happend]
          exact ih state'

/-- What every step that succeeds keeps holds after a loop that succeeds. -/
theorem feed_invariant {P : σ → Prop}
    (hstep : ∀ state a, P state → (body state a).2 = .ok () → P (body state a).1) (items : List α)
    {state : σ} (hstart : P state) (hok : (feed body state items).2 = .ok ()) :
    P (feed body state items).1 := by
  induction items generalizing state with
  | nil => exact hstart
  | cons a items ih =>
    have hbody := hstep state a hstart
    rw [feed] at hok ⊢
    revert hbody hok
    cases body state a with
    | mk state' result =>
      cases result with
      | error e =>
        intro hok _
        cases hok
      | ok done => exact fun hok hbody => ih (hbody rfl) hok

end Producer

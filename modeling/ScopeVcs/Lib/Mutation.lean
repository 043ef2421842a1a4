import Mathlib.Logic.Basic
import Mathlib.Logic.Relation

/-! # Checks and mutations

An operation that takes a mutable reference and may fail: `EStateM ε σ`, whose outcome carries the
state on both paths, so a failing operation may leave a changed state behind. Most operations are
checks followed by one mutation; the rules below take such a program apart.
-/

namespace Mutation

variable {ε σ α β : Type}

/-- Fails with `error` when `p` holds. -/
def rejectIf (p : Prop) [Decidable p] (error : ε) : Except ε Unit :=
  if p then .error error else .ok ()

/-- Runs a check on the current state, which it leaves as it is. -/
def check (f : σ → Except ε α) : EStateM ε σ α := fun s =>
  match f s with
  | .ok a => .ok a s
  | .error e => .error e s

/-- A database transaction: a failure rolls everything back. -/
def transaction (x : EStateM ε σ α) : EStateM ε σ α := fun s =>
  match x s with
  | .ok a t => .ok a t
  | .error e _ => .error e s

/-! ## Checks -/

@[simp]
theorem rejectIf_eq_ok {p : Prop} [Decidable p] {error : ε} {u : Unit} :
    rejectIf p error = .ok u ↔ ¬ p := by
  simp only [rejectIf]
  split <;> simp_all

@[simp]
theorem except_ok_bind (a : α) (f : α → Except ε β) : (Except.ok a >>= f) = f a := rfl

@[simp]
theorem except_error_bind (e : ε) (f : α → Except ε β) : (Except.error e >>= f) = .error e := rfl

theorem except_mapError_ok (f : ε → β) (a : α) : (Except.ok a : Except ε α).mapError f = .ok a := rfl

theorem except_map_ok (f : α → β) (a : α) : (Except.ok a : Except ε α).map f = .ok (f a) := rfl

theorem except_bind_pure (x : Except ε α) (f : α → β) : (x >>= fun a => pure (f a)) = x.map f := by
  cases x <;> rfl

theorem rejectIf_of_not {p : Prop} [Decidable p] {error : ε} (h : ¬p) : rejectIf p error = .ok () :=
  if_neg h

theorem except_bind_eq_ok {x : Except ε α} {f : α → Except ε β} {b : β} :
    (x >>= f) = .ok b ↔ ∃ a, x = .ok a ∧ f a = .ok b := by
  cases x with
  | error e => simp [bind, Except.bind]
  | ok a => simp [bind, Except.bind]

@[simp]
theorem except_map_eq_ok {x : Except ε α} {f : α → β} {b : β} :
    x.map f = .ok b ↔ ∃ a, x = .ok a ∧ f a = b := by
  cases x <;> simp [Except.map]

theorem mapError_eq_ok {x : Except ε α} {f : ε → β} {a : α} :
    x.mapError f = .ok a ↔ x = .ok a := by
  cases x with
  | error e => exact iff_of_false (fun h => by cases h) (fun h => by cases h)
  | ok b => exact ⟨fun h => by cases h; rfl, fun h => by cases h; rfl⟩

theorem except_bind_eq_error {x : Except ε α} {f : α → Except ε β} {e : ε} :
    (x >>= f) = .error e ↔ x = .error e ∨ ∃ a, x = .ok a ∧ f a = .error e := by
  cases x with
  | error e' => simp [bind, Except.bind]
  | ok a => simp [bind, Except.bind]

theorem rejectIf_eq_error {p : Prop} [Decidable p] {error e : ε} :
    rejectIf p error = .error e ↔ p ∧ error = e := by
  simp only [rejectIf]
  split <;> simp_all

theorem mapError_eq_error {x : Except ε α} {f : ε → β} {e : β} :
    x.mapError f = .error e ↔ ∃ e', x = .error e' ∧ f e' = e := by
  cases x with
  | ok a => exact iff_of_false (fun h => by cases h) (fun ⟨_, h, _⟩ => by cases h)
  | error e' =>
    constructor
    · intro h
      cases h
      exact ⟨e', rfl, rfl⟩
    · rintro ⟨_, ⟨⟩, rfl⟩
      rfl

theorem toOption_eq_some {x : Except ε α} {a : α} : x.toOption = some a ↔ x = .ok a := by
  cases x <;> simp [Except.toOption]

/-- A list is mapped where every element is. -/
theorem option_mapM_eq_some {l : List α} {f : α → Option β} {bs : List β} :
    l.mapM f = some bs ↔ (∀ a ∈ l, (f a).isSome = true) ∧ bs = l.filterMap f := by
  induction l generalizing bs with
  | nil => exact ⟨fun h => ⟨nofun, (Option.some.inj h).symm⟩, fun ⟨_, h⟩ => h ▸ rfl⟩
  | cons a l ih =>
    rw [List.mapM_cons, Option.bind_eq_bind, Option.bind_eq_some_iff, List.forall_mem_cons]
    cases ha : f a with
    | none => simp
    | some b =>
      simp only [Option.some_inj, Option.bind_eq_bind, Option.bind_eq_some_iff, ih,
        List.filterMap_cons_some ha]
      constructor
      · rintro ⟨_, rfl, rest, ⟨hall, rfl⟩, heq⟩
        exact ⟨⟨rfl, hall⟩, (Option.some.inj heq).symm⟩
      · rintro ⟨⟨-, hall⟩, rfl⟩
        exact ⟨b, rfl, _, ⟨hall, rfl⟩, rfl⟩

/-- The results of a list are those of its elements. -/
theorem mem_of_mapM_eq_ok {l : List α} {f : α → Except ε β} {bs : List β}
    (h : l.mapM f = .ok bs) : ∀ b ∈ bs, ∃ a ∈ l, f a = .ok b := by
  induction l generalizing bs with
  | nil =>
    cases h
    exact fun b hb => absurd hb List.not_mem_nil
  | cons a l ih =>
    rw [List.mapM_cons] at h
    obtain ⟨b, hb, h⟩ := except_bind_eq_ok.mp h
    obtain ⟨rest, hrest, h⟩ := except_bind_eq_ok.mp h
    rw [← Except.ok.inj h, List.forall_mem_cons]
    refine ⟨⟨a, List.mem_cons_self, hb⟩, fun b' hb' => ?_⟩
    obtain ⟨a', ha', hf⟩ := ih hrest b' hb'
    exact ⟨a', List.mem_cons_of_mem a ha', hf⟩

/-- What is read back from the results is the list. -/
theorem map_of_mapM_eq_ok {l : List α} {f : α → Except ε β} {g : β → α} {bs : List β}
    (hg : ∀ a b, f a = .ok b → g b = a) (h : l.mapM f = .ok bs) : bs.map g = l := by
  induction l generalizing bs with
  | nil =>
    cases h
    rfl
  | cons a l ih =>
    rw [List.mapM_cons] at h
    obtain ⟨b, hb, h⟩ := except_bind_eq_ok.mp h
    obtain ⟨rest, hrest, h⟩ := except_bind_eq_ok.mp h
    rw [← Except.ok.inj h, List.map_cons, hg a b hb, ih hrest]

/-- A mapped list fails with an error of one of its elements. -/
theorem exists_mapM_eq_error {l : List α} {f : α → Except ε β} {e : ε} (h : l.mapM f = .error e) :
    ∃ a ∈ l, f a = .error e := by
  induction l with
  | nil => cases h
  | cons a l ih =>
    rw [List.mapM_cons] at h
    rcases except_bind_eq_error.mp h with h | ⟨b, -, h⟩
    · exact ⟨a, List.mem_cons_self, h⟩
    · rcases except_bind_eq_error.mp h with h | ⟨rest, -, h⟩
      · obtain ⟨a', ha', hf⟩ := ih h
        exact ⟨a', List.mem_cons_of_mem a ha', hf⟩
      · cases h

/-- A fold fails with an error of one of its steps. -/
theorem exists_foldlM_eq_error {f : σ → α → Except ε σ} {l : List α} {s : σ} {e : ε}
    (h : l.foldlM f s = .error e) : ∃ a ∈ l, ∃ t, f t a = .error e := by
  induction l generalizing s with
  | nil => cases h
  | cons a l ih =>
    rw [List.foldlM_cons] at h
    rcases except_bind_eq_error.mp h with h | ⟨t, -, h⟩
    · exact ⟨a, List.mem_cons_self, s, h⟩
    · obtain ⟨b, hb, hf⟩ := ih h
      exact ⟨b, List.mem_cons_of_mem a hb, hf⟩

/-- When every element passes a check, so does the list, with the results of the elements. -/
theorem exists_mapM_eq_ok {l : List α} {f : α → Except ε β} (h : ∀ a ∈ l, ∃ b, f a = .ok b) :
    ∃ bs, l.mapM f = .ok bs ∧ ∀ b, b ∈ bs ↔ ∃ a ∈ l, f a = .ok b := by
  induction l with
  | nil => exact ⟨[], rfl, by simp⟩
  | cons a l ih =>
    obtain ⟨b, hb⟩ := h a (by simp)
    obtain ⟨bs, hbs, hmem⟩ := ih fun a' ha' => h a' (by simp [ha'])
    refine ⟨b :: bs, ?_, fun b' => ?_⟩
    · rw [List.mapM_cons, hb, hbs]
      rfl
    · have hhead : f a = .ok b' ↔ b' = b := by
        rw [hb, Except.ok.injEq, eq_comm]
      simp [hmem, hhead]

/-! ## Outcomes -/

theorem bind_eq_ok {x : EStateM ε σ α} {f : α → EStateM ε σ β} {s t : σ} {b : β} :
    (x >>= f).run s = .ok b t ↔ ∃ a u, x.run s = .ok a u ∧ (f a).run u = .ok b t := by
  rw [EStateM.run_bind]
  cases x.run s with
  | error e u => simp
  | ok a u =>
    constructor
    · exact fun h => ⟨a, u, rfl, h⟩
    · rintro ⟨_, _, ⟨⟩, h⟩
      exact h

theorem bind_eq_error {x : EStateM ε σ α} {f : α → EStateM ε σ β} {s t : σ} {e : ε} :
    (x >>= f).run s = .error e t ↔
      x.run s = .error e t ∨ ∃ a u, x.run s = .ok a u ∧ (f a).run u = .error e t := by
  rw [EStateM.run_bind]
  cases x.run s with
  | error e u => simp
  | ok a u =>
    constructor
    · exact fun h => .inr ⟨a, u, rfl, h⟩
    · rintro (⟨⟨⟩⟩ | ⟨_, _, ⟨⟩, h⟩)
      exact h

theorem check_eq_ok {f : σ → Except ε α} {s t : σ} {a : α} :
    (check f).run s = .ok a t ↔ f s = .ok a ∧ s = t := by
  simp only [EStateM.run, check]
  cases f s with
  | error e => simp
  | ok a => simp

theorem check_eq_error {f : σ → Except ε α} {s t : σ} {e : ε} :
    (check f).run s = .error e t ↔ f s = .error e ∧ s = t := by
  simp only [EStateM.run, check]
  cases f s with
  | error e => simp
  | ok a => simp

theorem pure_eq_ok {a b : α} {s t : σ} :
    (pure a : EStateM ε σ α).run s = .ok b t ↔ a = b ∧ s = t := by
  simp

theorem modify_eq_ok {f : σ → σ} {s t : σ} {u : Unit} :
    (modify f : EStateM ε σ Unit).run s = .ok u t ↔ f s = t := by
  constructor
  · intro h
    cases h
    rfl
  · rintro rfl
    rfl

theorem modify_eq_error {f : σ → σ} {s t : σ} {e : ε} :
    (modify f : EStateM ε σ Unit).run s = .error e t ↔ False :=
  iff_false_intro fun h => by cases h

theorem get_eq_ok {s t u : σ} :
    (get : EStateM ε σ σ).run s = .ok u t ↔ s = u ∧ s = t := by
  constructor
  · intro h
    cases h
    exact ⟨rfl, rfl⟩
  · rintro ⟨rfl, rfl⟩
    rfl

theorem get_eq_error {s t : σ} {e : ε} :
    (get : EStateM ε σ σ).run s = .error e t ↔ False :=
  iff_false_intro fun h => by cases h

theorem throw_eq_ok {e : ε} {s t : σ} {a : α} :
    (throw e : EStateM ε σ α).run s = .ok a t ↔ False :=
  iff_false_intro fun h => by cases h

theorem throw_eq_error {e e' : ε} {s t : σ} :
    (throw e : EStateM ε σ α).run s = .error e' t ↔ e = e' ∧ s = t := by
  constructor
  · intro h
    cases h
    exact ⟨rfl, rfl⟩
  · rintro ⟨rfl, rfl⟩
    rfl

theorem check_bind_eq_ok {f : σ → Except ε α} {k : α → EStateM ε σ β} {s t : σ} {b : β} :
    (check f >>= k).run s = .ok b t ↔ ∃ a, f s = .ok a ∧ (k a).run s = .ok b t := by
  simp only [bind_eq_ok, check_eq_ok]
  constructor
  · rintro ⟨a, _, ⟨ha, rfl⟩, h⟩
    exact ⟨a, ha, h⟩
  · rintro ⟨a, ha, h⟩
    exact ⟨a, s, ⟨ha, rfl⟩, h⟩

theorem get_bind_eq_ok {k : σ → EStateM ε σ β} {s t : σ} {b : β} :
    (get >>= k).run s = .ok b t ↔ (k s).run s = .ok b t := by
  simp

theorem get_bind_eq_error {k : σ → EStateM ε σ β} {s t : σ} {e : ε} :
    (get >>= k).run s = .error e t ↔ (k s).run s = .error e t := Iff.rfl

theorem modify_bind_eq_ok {f : σ → σ} {k : Unit → EStateM ε σ β} {s t : σ} {b : β} :
    (modify f >>= k).run s = .ok b t ↔ (k ()).run (f s) = .ok b t := Iff.rfl

theorem modify_pure_eq_ok {f : σ → σ} {s t : σ} {a b : α} :
    ((modify f : EStateM ε σ Unit) >>= fun _ => pure a).run s = .ok b t ↔ a = b ∧ f s = t :=
  modify_bind_eq_ok.trans pure_eq_ok

theorem except_unit_bind_eq_ok {x : Except ε Unit} {f : Unit → Except ε β} {b : β} :
    (x >>= f) = .ok b ↔ x = .ok () ∧ f () = .ok b := by
  rw [except_bind_eq_ok]
  exact ⟨fun ⟨(), hx, hf⟩ => ⟨hx, hf⟩, fun ⟨hx, hf⟩ => ⟨(), hx, hf⟩⟩

theorem except_forM_eq_ok {f : α → Except ε Unit} {l : List α} (h : l.forM f = .ok ()) :
    ∀ a ∈ l, f a = .ok () := by
  induction l with
  | nil => simp
  | cons a l ih =>
    obtain ⟨hfirst, hrest⟩ := except_unit_bind_eq_ok.mp h
    intro b hb
    rcases List.mem_cons.mp hb with rfl | hb
    · exact hfirst
    · exact ih hrest b hb

theorem check_unit_bind_eq_ok {f : σ → Except ε Unit} {k : Unit → EStateM ε σ β} {s t : σ} {b : β} :
    (check f >>= k).run s = .ok b t ↔ f s = .ok () ∧ (k ()).run s = .ok b t := by
  rw [check_bind_eq_ok]
  exact ⟨fun ⟨(), hf, hk⟩ => ⟨hf, hk⟩, fun ⟨hf, hk⟩ => ⟨(), hf, hk⟩⟩

/-- What a mapped operation relates, when each of its steps does: a reflexive and transitive relation
of the ends, and a fact about each element that the later steps keep. -/
theorem mapM_rel {f : α → EStateM ε σ β} {R : σ → σ → Prop} {Q : α → σ → Prop}
    (hrefl : ∀ s, R s s) (htrans : ∀ s t u, R s t → R t u → R s u)
    (hQ : ∀ a s t, Q a s → R s t → Q a t) {l : List α}
    (hf : ∀ a ∈ l, ∀ b s t, (f a).run s = .ok b t → R s t ∧ Q a t) {bs : List β} {s t : σ}
    (h : (l.mapM f).run s = .ok bs t) : R s t ∧ ∀ a ∈ l, Q a t := by
  induction l generalizing s bs with
  | nil =>
    rw [List.mapM_nil, pure_eq_ok] at h
    exact ⟨h.2 ▸ hrefl s, by simp⟩
  | cons a l ih =>
    simp only [List.mapM_cons, bind_eq_ok, pure_eq_ok] at h
    obtain ⟨b, u, hb, bs', _, hrest, -, rfl⟩ := h
    obtain ⟨hsu, hqa⟩ := hf a (by simp) b s u hb
    obtain ⟨hut, hql⟩ := ih (fun a' ha' => hf a' (by simp [ha'])) hrest
    refine ⟨htrans s u _ hsu hut, fun a' ha' => ?_⟩
    rcases List.mem_cons.mp ha' with rfl | ha'
    · exact hQ _ u _ hqa hut
    · exact hql a' ha'

/-! ## Transactions -/

@[simp]
theorem transaction_eq_ok {x : EStateM ε σ α} {s t : σ} {a : α} :
    (transaction x).run s = .ok a t ↔ x.run s = .ok a t := by
  simp only [EStateM.run, transaction]
  cases x s <;> simp

theorem transaction_eq_error {x : EStateM ε σ α} {s t : σ} {e : ε} :
    (transaction x).run s = .error e t ↔ s = t ∧ ∃ u, x.run s = .error e u := by
  simp only [EStateM.run, transaction]
  cases x s with
  | ok a u => simp
  | error e' u =>
    simp only [EStateM.Result.error.injEq, exists_and_left, exists_eq', and_true]
    exact and_comm

/-! ## How an operation may fail -/

/-- Every failure of a check satisfies `P`. -/
def Rejects (P : ε → Prop) (x : Except ε α) : Prop := ∀ e, x = .error e → P e

/-- Every failure of an operation satisfies `P`. -/
def FailsWith (P : ε → Prop) (x : EStateM ε σ α) : Prop := ∀ s e t, x.run s = .error e t → P e

namespace Rejects

variable {P : ε → Prop}

theorem ok (a : α) : Rejects P (.ok a) := fun e h => by cases h

theorem error {e : ε} (he : P e) : Rejects P (.error e : Except ε α) := fun e' h => by
  cases h
  exact he

/-- What follows a check may use that it succeeded. -/
theorem bind_ok {x : Except ε α} {f : α → Except ε β} (hx : Rejects P x)
    (hf : ∀ a, x = .ok a → Rejects P (f a)) : Rejects P (x >>= f) := by
  intro e h
  cases x with
  | error e' =>
    cases h
    exact hx e rfl
  | ok a => exact hf a rfl e h

theorem bind {x : Except ε α} {f : α → Except ε β} (hx : Rejects P x) (hf : ∀ a, Rejects P (f a)) :
    Rejects P (x >>= f) :=
  bind_ok hx fun a _ => hf a

theorem rejectIf {p : Prop} [Decidable p] {e : ε} (he : P e) : Rejects P (rejectIf p e) := by
  intro e' h
  rw [Mutation.rejectIf] at h
  split at h
  · cases h
    exact he
  · cases h

end Rejects

namespace FailsWith

variable {P : ε → Prop}

theorem bind {x : EStateM ε σ α} {f : α → EStateM ε σ β} (hx : FailsWith P x)
    (hf : ∀ a, FailsWith P (f a)) : FailsWith P (x >>= f) := by
  intro s e t h
  rcases bind_eq_error.mp h with h | ⟨a, u, -, h⟩
  · exact hx s e t h
  · exact hf a u e t h

theorem pure (a : α) : FailsWith P (Pure.pure a : EStateM ε σ α) := fun _ _ _ h => by cases h

theorem get : FailsWith P (get : EStateM ε σ σ) := fun _ _ _ h => (get_eq_error.mp h).elim

theorem modify (f : σ → σ) : FailsWith P (modify f : EStateM ε σ Unit) :=
  fun _ _ _ h => (modify_eq_error.mp h).elim

theorem throw {e : ε} (he : P e) : FailsWith P (throw e : EStateM ε σ α) :=
  fun _ _ _ h => (throw_eq_error.mp h).1 ▸ he

theorem check {f : σ → Except ε α} (hf : ∀ s, Rejects P (f s)) : FailsWith P (check f) :=
  fun s e _ h => hf s e (check_eq_error.mp h).1

theorem forM {f : α → EStateM ε σ Unit} (hf : ∀ a, FailsWith P (f a)) (l : List α) :
    FailsWith P (forM l f) := by
  induction l with
  | nil => exact pure ()
  | cons a l ih =>
    rw [List.forM_cons]
    exact (hf a).bind fun _ => ih

end FailsWith

/-! ## The state an operation leaves behind -/

/-- The state after a run, whether it succeeded or failed. -/
def final (x : EStateM ε σ α) (s : σ) : σ :=
  match x.run s with
  | .ok _ t => t
  | .error _ t => t

@[simp]
theorem final_pure (a : α) (s : σ) : final (pure a : EStateM ε σ α) s = s := rfl

@[simp]
theorem final_throw (e : ε) (s : σ) : final (throw e : EStateM ε σ α) s = s := rfl

@[simp]
theorem final_get_bind (k : σ → EStateM ε σ β) (s : σ) : final (get >>= k) s = final (k s) s := rfl

@[simp]
theorem final_check (f : σ → Except ε α) (s : σ) : final (check f) s = s := by
  simp only [final, EStateM.run, check]
  cases f s <;> rfl

/-- A check passes its state on to what follows, if it passes at all. -/
theorem final_check_bind {f : σ → Except ε α} {k : α → EStateM ε σ β} {s : σ}
    (h : ∀ a, f s = .ok a → final (k a) s = s) : final (check f >>= k) s = s := by
  cases hf : f s with
  | error e =>
    have hcheck : (check f).run s = .error e s := check_eq_error.mpr ⟨hf, rfl⟩
    simp [final, EStateM.run_bind, hcheck]
  | ok a =>
    have hcheck : (check f).run s = .ok a s := check_eq_ok.mpr ⟨hf, rfl⟩
    have hk := h a hf
    unfold final at hk ⊢
    rwa [EStateM.run_bind, hcheck]

/-- An operation that starts with a check leaves what follows the check leaves, or everything. -/
theorem final_check_bind_cases (f : σ → Except ε α) (k : α → EStateM ε σ β) (s : σ) :
    final (check f >>= k) s = s ∨ ∃ a, f s = .ok a ∧ final (check f >>= k) s = final (k a) s := by
  cases hf : f s with
  | error e =>
    have hcheck : (check f).run s = .error e s := check_eq_error.mpr ⟨hf, rfl⟩
    exact .inl (by simp [final, EStateM.run_bind, hcheck])
  | ok a =>
    have hcheck : (check f).run s = .ok a s := check_eq_ok.mpr ⟨hf, rfl⟩
    exact .inr ⟨a, rfl, by simp [final, EStateM.run_bind, hcheck]⟩

@[simp]
theorem final_modify_bind (f : σ → σ) (k : Unit → EStateM ε σ β) (s : σ) :
    final ((modify f : EStateM ε σ Unit) >>= k) s = final (k ()) (f s) := rfl

/-- An operation that continues after a success leaves what the continuation leaves. -/
theorem final_bind_of_ok {x : EStateM ε σ α} {k : α → EStateM ε σ β} {s t : σ} {a : α}
    (h : x.run s = .ok a t) : final (x >>= k) s = final (k a) t := by
  unfold final
  rw [EStateM.run_bind, h]

theorem final_bind_of_error {x : EStateM ε σ α} {k : α → EStateM ε σ β} {s t : σ} {e : ε}
    (h : x.run s = .error e t) : final (x >>= k) s = final x s := by
  unfold final
  rw [EStateM.run_bind, h]

theorem final_of_ok {x : EStateM ε σ α} {s t : σ} {a : α} (h : x.run s = .ok a t) :
    final x s = t := by
  unfold final
  rw [h]

/-! ## Operations made of steps -/

/-- Whatever the outcome, a run of steps leads to the state that the operation leaves. -/
def RunsBy (step : σ → σ → Prop) (x : EStateM ε σ α) (s : σ) : Prop :=
  Relation.ReflTransGen step s (final x s)

namespace RunsBy

variable {step : σ → σ → Prop} {s : σ}

theorem modify_bind {f : σ → σ} {k : Unit → EStateM ε σ β} (h : step s (f s))
    (hk : RunsBy step (k ()) (f s)) : RunsBy step ((modify f : EStateM ε σ Unit) >>= k) s :=
  .head h hk

theorem pure (a : α) : RunsBy step (pure a : EStateM ε σ α) s := .refl

theorem throw (e : ε) : RunsBy step (throw e : EStateM ε σ α) s := .refl

theorem check (f : σ → Except ε α) : RunsBy step (check f) s := by
  unfold RunsBy
  rw [final_check]

theorem modify {f : σ → σ} (h : step s (f s)) : RunsBy step (modify f : EStateM ε σ Unit) s :=
  .single h

theorem bind {x : EStateM ε σ α} {k : α → EStateM ε σ β} (hx : RunsBy step x s)
    (hk : ∀ a t, x.run s = .ok a t → RunsBy step (k a) t) : RunsBy step (x >>= k) s := by
  unfold RunsBy at hx hk ⊢
  cases hrun : x.run s with
  | ok a t =>
    rw [final_bind_of_ok hrun]
    rw [final_of_ok hrun] at hx
    exact hx.trans (hk a t hrun)
  | error e t =>
    rw [final_bind_of_error hrun]
    exact hx

theorem check_bind {f : σ → Except ε α} {k : α → EStateM ε σ β}
    (hk : ∀ a, f s = .ok a → RunsBy step (k a) s) : RunsBy step (Mutation.check f >>= k) s := by
  refine (check f).bind fun a t hrun => ?_
  obtain ⟨ha, rfl⟩ := check_eq_ok.mp hrun
  exact hk a ha

end RunsBy

/-! ## What a success leaves behind -/

/-- Whenever the operation succeeds from `s`, the state after it satisfies `P`. -/
def Ensures (P : σ → Prop) (x : EStateM ε σ α) (s : σ) : Prop := ∀ a t, x.run s = .ok a t → P t

namespace Ensures

variable {P : σ → Prop} {s : σ}

@[simp]
theorem pure_iff {a : α} : Ensures P (pure a : EStateM ε σ α) s ↔ P s :=
  ⟨fun h => h a s rfl, fun h _ _ heq => (pure_eq_ok.mp heq).2 ▸ h⟩

@[simp]
theorem throw (e : ε) : Ensures P (throw e : EStateM ε σ α) s :=
  fun _ _ h => (throw_eq_ok.mp h).elim

@[simp]
theorem modify_iff {f : σ → σ} : Ensures P (modify f : EStateM ε σ Unit) s ↔ P (f s) :=
  ⟨fun h => h () (f s) rfl, fun h _ _ heq => modify_eq_ok.mp heq ▸ h⟩

theorem check {f : σ → Except ε α} (h : P s) : Ensures P (check f) s :=
  fun _ _ heq => (check_eq_ok.mp heq).2 ▸ h

theorem check_bind_iff {f : σ → Except ε α} {k : α → EStateM ε σ β} :
    Ensures P (Mutation.check f >>= k) s ↔ ∀ a, f s = .ok a → Ensures P (k a) s := by
  constructor
  · intro h a ha b t hk
    exact h b t (check_bind_eq_ok.mpr ⟨a, ha, hk⟩)
  · intro h b t hrun
    obtain ⟨a, ha, hk⟩ := check_bind_eq_ok.mp hrun
    exact h a ha b t hk

@[simp]
theorem check_unit_bind_iff {f : σ → Except ε Unit} {k : Unit → EStateM ε σ β} :
    Ensures P (Mutation.check f >>= k) s ↔ (f s = .ok () → Ensures P (k ()) s) :=
  check_bind_iff.trans ⟨fun h => h (), fun h () => h⟩

@[simp]
theorem get_bind_iff {k : σ → EStateM ε σ β} : Ensures P (get >>= k) s ↔ Ensures P (k s) s :=
  Iff.rfl

@[simp]
theorem modify_bind_iff {f : σ → σ} {k : Unit → EStateM ε σ β} :
    Ensures P ((modify f : EStateM ε σ Unit) >>= k) s ↔ Ensures P (k ()) (f s) := Iff.rfl

/-- What the first operation ensures is what the second one starts from. -/
theorem bind {Q : σ → Prop} {x : EStateM ε σ α} {k : α → EStateM ε σ β} (hx : Ensures Q x s)
    (hk : ∀ a t, Q t → Ensures P (k a) t) : Ensures P (x >>= k) s := by
  intro b u h
  obtain ⟨a, t, hrun, hrest⟩ := bind_eq_ok.mp h
  exact hk a t (hx a t hrun) b u hrest

end Ensures

/-! ## Failures that change nothing -/

/-- A failure of the operation from `s` leaves `s` as it was. -/
def Atomic (x : EStateM ε σ α) (s : σ) : Prop := ∀ e t, x.run s = .error e t → t = s

/-- The operation does not fail from `s`. -/
def Succeeds (x : EStateM ε σ α) (s : σ) : Prop := ∀ e t, x.run s ≠ .error e t

theorem Succeeds.of_eq_ok {x : EStateM ε σ α} {s t : σ} {a : α} (h : x.run s = .ok a t) :
    Succeeds x s := by
  intro e u hfail
  rw [h] at hfail
  cases hfail

theorem Succeeds.atomic {x : EStateM ε σ α} {s : σ} (h : Succeeds x s) : Atomic x s :=
  fun e t hfail => absurd hfail (h e t)

theorem succeeds_modify (f : σ → σ) (s : σ) : Succeeds (modify f : EStateM ε σ Unit) s :=
  .of_eq_ok (modify_eq_ok (u := ()).mpr rfl)

theorem succeeds_check_bind {f : σ → Except ε α} {k : α → EStateM ε σ β} {s : σ} :
    Succeeds (check f >>= k) s ↔ ∃ a, f s = .ok a ∧ Succeeds (k a) s := by
  unfold Succeeds
  simp only [ne_eq, bind_eq_error, check_eq_error, check_eq_ok]
  cases hf : f s with
  | error e => simp
  | ok a => simp

theorem succeeds_check_unit_bind {f : σ → Except ε Unit} {k : Unit → EStateM ε σ β} {s : σ} :
    Succeeds (check f >>= k) s ↔ f s = .ok () ∧ Succeeds (k ()) s := by
  rw [succeeds_check_bind]
  exact ⟨fun ⟨(), hf, hk⟩ => ⟨hf, hk⟩, fun ⟨hf, hk⟩ => ⟨(), hf, hk⟩⟩

theorem succeeds_bind_of_ok {x : EStateM ε σ α} {k : α → EStateM ε σ β} {s t : σ} {a : α}
    (hx : x.run s = .ok a t) : Succeeds (x >>= k) s ↔ Succeeds (k a) t := by
  unfold Succeeds
  rw [EStateM.run_bind, hx]

/-- An operation after which nothing fails fails where it does itself. -/
theorem succeeds_bind {x : EStateM ε σ α} {k : α → EStateM ε σ β} {s : σ}
    (hk : ∀ a t, Succeeds (k a) t) : Succeeds (x >>= k) s ↔ Succeeds x s := by
  constructor
  · intro h e t hfail
    exact h e t (bind_eq_error.mpr (.inl hfail))
  · intro h e t hfail
    rcases bind_eq_error.mp hfail with hfail | ⟨a, u, -, hfail⟩
    · exact h e t hfail
    · exact hk a u e t hfail

namespace Atomic

variable {s : σ}

/-- After a change only an operation that does not fail is atomic. -/
theorem modify_bind {f : σ → σ} {k : Unit → EStateM ε σ β} (hf : f s ≠ s)
    (hk : Atomic (k ()) (f s)) :
    Atomic ((modify f : EStateM ε σ Unit) >>= k) s ↔ Succeeds (k ()) (f s) := by
  have hrun : ((modify f : EStateM ε σ Unit) >>= k).run s = (k ()).run (f s) := rfl
  constructor
  · intro h e t hfail
    exact hf ((hk e t hfail).symm.trans (h e t (hrun.trans hfail)))
  · intro h e t hfail
    exact absurd (hrun.symm.trans hfail) (h e t)

/-- What comes after a success decides alone. -/
theorem bind_of_ok {x : EStateM ε σ α} {k : α → EStateM ε σ β} {t : σ} {a : α}
    (hx : x.run s = .ok a t) :
    Atomic (x >>= k) s ↔ ∀ e u, (k a).run t = .error e u → u = s := by
  unfold Atomic
  rw [EStateM.run_bind, hx]

/-- After a success that moved the state only an operation that does not fail is atomic. -/
theorem bind_of_ok_iff {x : EStateM ε σ α} {k : α → EStateM ε σ β} {t : σ} {a : α}
    (hx : x.run s = .ok a t) (hk : Atomic (k a) t) :
    Atomic (x >>= k) s ↔ t = s ∨ Succeeds (k a) t := by
  rw [bind_of_ok hx]
  constructor
  · intro h
    by_cases hts : t = s
    · exact .inl hts
    · exact .inr fun e u hfail => hts ((hk e u hfail).symm.trans (h e u hfail))
  · rintro (rfl | hsucceeds) e u hfail
    · exact hk e u hfail
    · exact absurd hfail (hsucceeds e u)

theorem pure (a : α) : Atomic (pure a : EStateM ε σ α) s := nofun

theorem throw (e : ε) : Atomic (throw e : EStateM ε σ α) s := fun _ _ h =>
  (throw_eq_error.mp h).2.symm

theorem modify (f : σ → σ) : Atomic (modify f : EStateM ε σ Unit) s := (succeeds_modify f s).atomic

theorem check (f : σ → Except ε α) : Atomic (check f) s := fun _ _ h =>
  (check_eq_error.mp h).2.symm

/-- What comes after a check decides whether a failure changes the state. -/
theorem check_bind {f : σ → Except ε α} {k : α → EStateM ε σ β} :
    Atomic (Mutation.check f >>= k) s ↔ ∀ a, f s = .ok a → Atomic (k a) s := by
  constructor
  · intro h a ha e t hk
    exact h e t (bind_eq_error.mpr (.inr ⟨a, s, check_eq_ok.mpr ⟨ha, rfl⟩, hk⟩))
  · intro h e t hfail
    rcases bind_eq_error.mp hfail with hcheck | ⟨a, u, hcheck, hk⟩
    · exact (check_eq_error.mp hcheck).2.symm
    · obtain ⟨ha, rfl⟩ := check_eq_ok.mp hcheck
      exact h a ha e t hk

theorem check_unit_bind {f : σ → Except ε Unit} {k : Unit → EStateM ε σ β} :
    Atomic (Mutation.check f >>= k) s ↔ (f s = .ok () → Atomic (k ()) s) :=
  check_bind.trans ⟨fun h => h (), fun h () => h⟩

theorem get_bind {k : σ → EStateM ε σ β} : Atomic (get >>= k) s ↔ Atomic (k s) s := Iff.rfl

/-- An operation that was atomic stays so when what follows does not fail. -/
theorem bind {x : EStateM ε σ α} {k : α → EStateM ε σ β} (hx : Atomic x s)
    (hk : ∀ a t, x.run s = .ok a t → Succeeds (k a) t) : Atomic (x >>= k) s := by
  intro e u hfail
  rcases bind_eq_error.mp hfail with h | ⟨a, t, hok, h⟩
  · exact hx e u h
  · exact absurd h (hk a t hok e u)

/-- What is made of the result does not matter. -/
theorem bind_pure {x : EStateM ε σ α} {f : α → β} :
    Atomic (x >>= fun a => Pure.pure (f a)) s ↔ Atomic x s := by
  refine forall_congr' fun e => forall_congr' fun t => imp_congr_left ?_
  rw [bind_eq_error]
  exact or_iff_left fun ⟨_, _, _, h⟩ => by cases h

end Atomic

/-! ## Operations on a part of the state -/

/-- Runs an operation in place on a part of the state, if there is such a part. -/
def onPart {τ : Type} (part : σ → Option τ) (put : σ → τ → σ) (op : EStateM ε τ α) :
    EStateM ε σ (Option α) := fun s =>
  match part s with
  | none => .ok none s
  | some t =>
    match op.run t with
    | .ok a t' => .ok (some a) (put s t')
    | .error e t' => .error e (put s t')

section OnPart

variable {τ : Type} {part : σ → Option τ} {put : σ → τ → σ} {op : EStateM ε τ α} {s s' : σ}

theorem onPart_eq_ok {a? : Option α} (h : (onPart part put op).run s = .ok a? s') :
    (part s = none ∧ a? = none ∧ s' = s) ∨ ∃ t a t', part s = some t ∧ op.run t = .ok a t' ∧
      a? = some a ∧ s' = put s t' := by
  simp only [EStateM.run, onPart] at h
  split at h
  · cases h
    exact .inl ⟨‹_›, rfl, rfl⟩
  · rename_i t ht
    split at h
    · rename_i a t' hop
      cases h
      exact .inr ⟨t, a, t', ht, hop, rfl, rfl⟩
    · cases h

/-- Where putting a part back changes the state exactly when it changes the part, an operation on
the part fails without a trace when it does so on the whole. -/
theorem atomic_onPart {t : τ} (ht : part s = some t) (hput : ∀ t', put s t' = s ↔ t' = t) :
    Atomic (onPart part put op) s ↔ Atomic op t := by
  have hrun : (onPart part put op).run s = match op.run t with
      | .ok a t' => .ok (some a) (put s t')
      | .error e t' => .error e (put s t') := by
    simp only [EStateM.run, onPart, ht]
  unfold Atomic
  rw [hrun]
  cases op.run t with
  | ok a t' => simp
  | error e t' => simp [hput]

theorem succeeds_onPart_of_none (h : part s = none) : Succeeds (onPart part put op) s := by
  intro e t hfail
  simp only [EStateM.run, onPart, h] at hfail
  cases hfail

end OnPart

end Mutation

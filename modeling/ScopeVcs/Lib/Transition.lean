import Mathlib.Data.Option.Basic
import Mathlib.Logic.Relation

/-! # Invariants of transition systems

A system is an initial predicate with a step relation. `Reachable` collects the states of all
finite runs, and the rules below turn facts about one step into facts about whole runs.
-/

namespace Transition

open Relation

variable {σ : Type*} {init : σ → Prop} {step : σ → σ → Prop} {s t : σ}

/-- The states some finite run leads to from an initial state. -/
def Reachable (init : σ → Prop) (step : σ → σ → Prop) (s : σ) : Prop :=
  ∃ s₀, init s₀ ∧ ReflTransGen step s₀ s

theorem Reachable.of_init (h : init s) : Reachable init step s :=
  ⟨s, h, .refl⟩

theorem Reachable.tail (hs : Reachable init step s) (hst : step s t) :
    Reachable init step t := by
  obtain ⟨s₀, h₀, hrun⟩ := hs
  exact ⟨s₀, h₀, hrun.tail hst⟩

/-- A run of a system is one of every system with more steps. -/
theorem Reachable.mono {step' : σ → σ → Prop} (hs : Reachable init step s)
    (h : ∀ s t, step s t → step' s t) : Reachable init step' s := by
  obtain ⟨s₀, h₀, hrun⟩ := hs
  exact ⟨s₀, h₀, ReflTransGen.mono (fun a b => h a b) _ _ hrun⟩

/-- A run of a partial step function is a run of the system. -/
theorem Reachable.foldlM {α : Type*} {f : σ → α → Option σ} (hf : ∀ s a t, f s a = some t → step s t)
    (hs : Reachable init step s) {l : List α} (h : l.foldlM f s = some t) :
    Reachable init step t := by
  induction l generalizing s with
  | nil =>
    cases h
    exact hs
  | cons a l ih =>
    rw [List.foldlM_cons, Option.bind_eq_bind, Option.bind_eq_some_iff] at h
    obtain ⟨u, ha, hrest⟩ := h
    exact ih (hs.tail (hf s a u ha)) hrest

/-- The invariant rule: what holds initially and survives every step holds of every reachable
state. A step may use that its source state is reachable. -/
theorem Reachable.invariant (Inv : σ → Prop) (hs : Reachable init step s)
    (hinit : ∀ s, init s → Inv s)
    (hstep : ∀ s t, Reachable init step s → Inv s → step s t → Inv t) : Inv s := by
  obtain ⟨s₀, h₀, hrun⟩ := hs
  induction hrun with
  | refl => exact hinit s₀ h₀
  | tail hprev hlast ih => exact hstep _ _ ⟨s₀, h₀, hprev⟩ ih hlast

/-- A reflexive and transitive relation that every step from an `Inv` state respects relates both
ends of every run from an `Inv` state. -/
theorem run_rel {Inv : σ → Prop} {R : σ → σ → Prop} (hrun : ReflTransGen step s t)
    (hs : Inv s) (hinv : ∀ a b, Inv a → step a b → Inv b)
    (hrefl : ∀ a, R a a) (htrans : ∀ a b c, R a b → R b c → R a c)
    (hstep : ∀ a b, Inv a → step a b → R a b) : R s t := by
  suffices h : Inv t ∧ R s t from h.2
  induction hrun with
  | refl => exact ⟨hs, hrefl s⟩
  | tail _ hlast ih =>
    obtain ⟨hi, hr⟩ := ih
    exact ⟨hinv _ _ hi hlast, htrans _ _ _ hr (hstep _ _ hi hlast)⟩

end Transition

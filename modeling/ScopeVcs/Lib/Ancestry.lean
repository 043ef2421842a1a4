import Mathlib.Data.List.Nodup
import Mathlib.Logic.Relation

/-! # Chains of parents

A partial function gives each node its parent, if it has one. It is a forest when the chain of parents
of every node ends. A node may be given another parent as long as it is not among the ancestors of that
one.
-/

namespace Ancestry

open Relation

variable {α : Type*} {parent parent' : α → Option α} {a b c : α} {as bs : List α}

/-- The ancestors of a node, the nearest first. -/
inductive Chain (parent : α → Option α) : α → List α → Prop where
  | root {a : α} (h : parent a = none) : Chain parent a []
  | step {a b : α} {as : List α} (h : parent a = some b) (hb : Chain parent b as) :
      Chain parent a (b :: as)

def IsForest (parent : α → Option α) : Prop := ∀ a, ∃ as, Chain parent a as

/-- `b` is a child of `a`. -/
def Child (parent : α → Option α) (a b : α) : Prop := parent b = some a

theorem Child.unique (h : Child parent a c) (h' : Child parent b c) : a = b :=
  Option.some.inj (h.symm.trans h')

namespace Chain

theorem unique (h : Chain parent a as) (h' : Chain parent a bs) : as = bs := by
  induction h generalizing bs with
  | root hroot =>
    cases h' with
    | root _ => rfl
    | step hstep _ => rw [hroot] at hstep; cases hstep
  | step hstep _ ih =>
    cases h' with
    | root hroot => rw [hstep] at hroot; cases hroot
    | step hstep' hb =>
      rw [hstep] at hstep'
      cases hstep'
      rw [ih hb]

/-- An ancestor has a shorter chain. -/
theorem of_mem (h : Chain parent a as) (hb : b ∈ as) :
    ∃ bs, Chain parent b bs ∧ bs.length < as.length := by
  induction h with
  | root _ => cases hb
  | @step a c as _ hc ih =>
    rcases List.mem_cons.mp hb with rfl | hb
    · exact ⟨as, hc, Nat.lt_succ_self _⟩
    · obtain ⟨bs, hchain, hlength⟩ := ih hb
      exact ⟨bs, hchain, Nat.lt_succ_of_lt hlength⟩

/-- No node is an ancestor of itself. -/
theorem notMem (h : Chain parent a as) : a ∉ as := by
  intro ha
  obtain ⟨bs, hchain, hlength⟩ := h.of_mem ha
  rw [h.unique hchain] at hlength
  exact Nat.lt_irrefl _ hlength

theorem nodup (h : Chain parent a as) : as.Nodup := by
  induction h with
  | root _ => exact List.nodup_nil
  | step _ hb ih => exact List.nodup_cons.mpr ⟨hb.notMem, ih⟩

/-- The chain lists exactly the ancestors. -/
theorem mem_iff (h : Chain parent a as) : b ∈ as ↔ TransGen (Child parent) b a := by
  constructor
  · intro hb
    induction h with
    | root _ => cases hb
    | step hstep _ ih =>
      rcases List.mem_cons.mp hb with rfl | hb
      · exact .single hstep
      · exact (ih hb).tail hstep
  · intro hb
    induction hb generalizing as with
    | single hchild =>
      cases h with
      | root hroot => rw [hchild] at hroot; cases hroot
      | step hstep _ =>
        rw [hchild] at hstep
        cases hstep
        exact List.mem_cons_self
    | tail _ hchild ih =>
      cases h with
      | root hroot => rw [hchild] at hroot; cases hroot
      | step hstep hb =>
        rw [hchild] at hstep
        cases hstep
        exact List.mem_cons_of_mem _ (ih hb)

/-- Only the parents along the chain matter. -/
theorem congr (h : Chain parent a as) (hparent : ∀ b ∈ a :: as, parent' b = parent b) :
    Chain parent' a as := by
  induction h with
  | root hroot => exact .root ((hparent _ List.mem_cons_self).trans hroot)
  | step hstep _ ih =>
    exact .step ((hparent _ List.mem_cons_self).trans hstep)
      (ih fun b hb => hparent b (List.mem_cons_of_mem _ hb))

end Chain

namespace IsForest

theorem not_transGen (h : IsForest parent) : ¬ TransGen (Child parent) a a := by
  intro ha
  obtain ⟨as, hchain⟩ := h a
  exact hchain.notMem (hchain.mem_iff.mpr ha)

/-- A node may become a root, or a child of a node that it is not an ancestor of. -/
theorem update (h : IsForest parent) (hparent : ∀ b, b ≠ c → parent' b = parent b)
    (hc : ∀ b, parent' c = some b → ∃ bs, Chain parent b bs ∧ c ∉ b :: bs) : IsForest parent' := by
  have hmoved : ∃ cs, Chain parent' c cs := by
    cases hb : parent' c with
    | none => exact ⟨[], .root hb⟩
    | some b =>
      obtain ⟨bs, hchain, hnot⟩ := hc b hb
      refine ⟨b :: bs, .step hb (hchain.congr fun d hd => hparent d ?_)⟩
      rintro rfl
      exact hnot hd
  intro a
  obtain ⟨as, hchain⟩ := h a
  induction hchain with
  | @root a hroot =>
    by_cases ha : a = c
    · exact ha ▸ hmoved
    · exact ⟨[], .root ((hparent a ha).trans hroot)⟩
  | @step a b _ hstep _ ih =>
    by_cases ha : a = c
    · exact ha ▸ hmoved
    · obtain ⟨bs, hb⟩ := ih
      exact ⟨b :: bs, .step ((hparent a ha).trans hstep) hb⟩

end IsForest

end Ancestry

import Mathlib.Data.List.Perm.Subperm
import Mathlib.Data.List.Nodup
import Mathlib.Logic.Relation
import ScopeVcs.Lib.Mutation

/-! # Walks down a tree

A stack of items is worked off. Visiting an item changes the state and finds further items, and an
item whose key was visited before is an error. When the items found are the children of the one
visited, the walk visits what lies below its root, once each and the parents first.
-/

namespace Traversal

open Mutation Relation

variable {ε ι κ σ : Type} [DecidableEq κ] {key : ι → κ} {visit : σ → ι → Except ε (σ × List ι)}
  {again : ε} {child : κ → κ → Prop} {root : κ}

/-- The loop: `pending` is the stack with its top first, `seen` has the keys that were visited. -/
def traverse (key : ι → κ) (visit : σ → ι → Except ε (σ × List ι)) (again : ε) :
    ℕ → List ι → List κ → σ → Except ε σ
  | _, [], _, s => .ok s
  | 0, _ :: _, _, _ => .error again
  | fuel + 1, i :: pending, seen, s =>
    if key i ∈ seen then .error again
    else do
      let (s, found) ← visit s i
      traverse key visit again fuel (found.reverse ++ pending) (key i :: seen) s

/-- The states after visits one after another. -/
def visits (visit : σ → ι → Except ε (σ × List ι)) (s : σ) (items : List ι) : Except ε σ :=
  items.foldlM (fun s i => (visit s i).map Prod.fst) s

/-- Every key of a list, whose last visit stands first, has its parent further back or at the root. -/
def ParentsFirst (child : κ → κ → Prop) (root : κ) : List κ → Prop
  | [] => True
  | y :: earlier => (∃ x ∈ root :: earlier, child x y) ∧ ParentsFirst child root earlier

/-- How far a walk is: `seen` was visited and `pending` comes next. -/
structure Frontier (child : κ → κ → Prop) (root : κ) (pending seen : List κ) : Prop where
  nodup : (pending ++ seen).Nodup
  below : ∀ y ∈ pending ++ seen, TransGen child root y
  parent : ∀ y ∈ pending, ∃ x ∈ root :: seen, child x y
  parentsFirst : ParentsFirst child root seen
  closed : ∀ x ∈ root :: seen, ∀ y, child x y → y ∈ pending ++ seen

omit [DecidableEq κ] in
theorem ParentsFirst.exists_parent {seen : List κ} (h : ParentsFirst child root seen) :
    ∀ y ∈ seen, ∃ x ∈ root :: seen, child x y := by
  induction seen with
  | nil => exact fun y hy => absurd hy List.not_mem_nil
  | cons k seen ih =>
    have hlater : ∀ x ∈ root :: seen, x ∈ root :: k :: seen := fun x hx => by
      rcases List.mem_cons.mp hx with rfl | hx
      · exact List.mem_cons_self
      · exact List.mem_cons_of_mem _ (List.mem_cons_of_mem _ hx)
    intro y hy
    rcases List.mem_cons.mp hy with rfl | hy
    · obtain ⟨x, hx, hchild⟩ := h.1
      exact ⟨x, hlater x hx, hchild⟩
    · obtain ⟨x, hx, hchild⟩ := ih h.2 y hy
      exact ⟨x, hlater x hx, hchild⟩

omit [DecidableEq κ] in
theorem ParentsFirst.exists_before {seen before after : List κ} {y : κ}
    (h : ParentsFirst child root seen) (hsplit : seen.reverse = before ++ y :: after) :
    ∃ x ∈ root :: before, child x y := by
  have hseen : seen = after.reverse ++ y :: before.reverse := by
    rw [← List.reverse_reverse seen, hsplit]
    simp
  rw [hseen] at h
  generalize after.reverse = later at h
  induction later with
  | nil =>
    obtain ⟨x, hx, hchild⟩ := h.1
    refine ⟨x, ?_, hchild⟩
    rcases List.mem_cons.mp hx with rfl | hx
    · exact List.mem_cons_self
    · exact List.mem_cons_of_mem _ (List.mem_reverse.mp hx)
  | cons k later ih => exact ih h.2

namespace Frontier

variable {k : κ} {pending seen found : List κ}

omit [DecidableEq κ] in
/-- A walk begins with the children of its root. -/
theorem start (hnodup : pending.Nodup) (hmem : ∀ y, y ∈ pending ↔ child root y) :
    Frontier child root pending [] where
  nodup := by rwa [List.append_nil]
  below y hy := .single ((hmem y).mp (by rwa [List.append_nil] at hy))
  parent y hy := ⟨root, List.mem_cons_self, (hmem y).mp hy⟩
  parentsFirst := trivial
  closed x hx y hchild := by
    rw [List.mem_singleton.mp hx] at hchild
    rw [List.append_nil]
    exact (hmem y).mpr hchild

omit [DecidableEq κ] in
/-- What comes next was not visited yet, and is not the root. -/
theorem notMem (h : Frontier child root (k :: pending) seen) (hroot : ¬ TransGen child root root) :
    k ∉ root :: seen := by
  rw [List.mem_cons, not_or]
  constructor
  · rintro rfl
    exact hroot (h.below k (List.mem_append_left _ List.mem_cons_self))
  · intro hk
    exact (List.disjoint_of_nodup_append h.nodup) List.mem_cons_self hk

omit [DecidableEq κ] in
/-- Visiting an item and finding its children. -/
theorem step (h : Frontier child root (k :: pending) seen) (hroot : ¬ TransGen child root root)
    (hunique : ∀ x x' y, child x y → child x' y → x = x') (hnodup : found.Nodup)
    (hmem : ∀ y, y ∈ found ↔ child k y) :
    Frontier child root (found.reverse ++ pending) (k :: seen) := by
  have hk := h.notMem hroot
  -- whoever has a parent that was visited before was not found below this one
  have hother : ∀ y, (∃ x ∈ root :: seen, child x y) → y ∉ found := by
    rintro y ⟨x, hx, hchild⟩ hy
    exact hk (hunique x k y hchild ((hmem y).mp hy) ▸ hx)
  have hpending : ∀ y ∈ k :: pending, y ∉ found := fun y hy => hother y (h.parent y hy)
  have hseen : ∀ y ∈ seen, y ∉ found := fun y hy => hother y (h.parentsFirst.exists_parent y hy)
  have hmono : ∀ y, y ∈ k :: pending ++ seen → y ∈ found.reverse ++ pending ++ k :: seen := by
    intro y hy
    simp only [List.mem_append, List.mem_cons] at hy ⊢
    tauto
  constructor
  · have hold := h.nodup
    simp only [List.nodup_append, List.nodup_cons, List.nodup_reverse, List.mem_append,
      List.mem_reverse, List.mem_cons] at hold hpending ⊢
    grind
  · intro y hy
    simp only [List.mem_append, List.mem_reverse, List.mem_cons] at hy
    rcases hy with (hy | hy) | rfl | hy
    · exact (h.below k (by simp)).tail ((hmem y).mp hy)
    · exact h.below y (by simp [hy])
    · exact h.below y (by simp)
    · exact h.below y (by simp [hy])
  · intro y hy
    rcases List.mem_append.mp hy with hy | hy
    · exact ⟨k, by simp, (hmem y).mp (List.mem_reverse.mp hy)⟩
    · obtain ⟨x, hx, hchild⟩ := h.parent y (List.mem_cons_of_mem _ hy)
      refine ⟨x, ?_, hchild⟩
      simp only [List.mem_cons] at hx ⊢
      tauto
  · exact ⟨h.parent k List.mem_cons_self, h.parentsFirst⟩
  · intro x hx y hchild
    by_cases hxk : x = k
    · subst hxk
      simp [(hmem y).mpr hchild]
    · have hx' : x ∈ root :: seen := by
        simp only [List.mem_cons] at hx ⊢
        tauto
      exact hmono y (h.closed x hx' y hchild)

omit [DecidableEq κ] in
/-- In the end everything below the root was visited, and nothing else. -/
theorem mem_seen (h : Frontier child root [] seen) {y : κ} :
    y ∈ seen ↔ TransGen child root y := by
  constructor
  · exact h.below y
  · intro hy
    induction hy with
    | single hchild => exact h.closed root List.mem_cons_self _ hchild
    | tail _ hchild ih => exact h.closed _ (List.mem_cons_of_mem _ ih) _ hchild

omit [DecidableEq κ] in
theorem length_le (h : Frontier child root pending seen) {nodes : List κ}
    (hnodes : ∀ y, TransGen child root y → y ∈ nodes) : pending.length + seen.length ≤ nodes.length := by
  rw [← List.length_append]
  exact (List.subperm_of_subset h.nodup fun y hy => hnodes y (h.below y hy)).length_le

end Frontier

/-! ## What a walk does -/

section Walk

variable {Good : σ → List ι → List κ → Prop}

/-- What a visit has to keep: it finds the children of its item. -/
def Keeps (key : ι → κ) (visit : σ → ι → Except ε (σ × List ι)) (child : κ → κ → Prop) (root : κ)
    (Good : σ → List ι → List κ → Prop) : Prop :=
  ∀ s i pending seen t found, Good s (i :: pending) seen →
    Frontier child root ((i :: pending).map key) seen → visit s i = .ok (t, found) →
    (found.map key).Nodup ∧ (∀ y, y ∈ found.map key ↔ child (key i) y) ∧
      Good t (found.reverse ++ pending) (key i :: seen)

variable (hroot : ¬ TransGen child root root)
  (hunique : ∀ x x' y, child x y → child x' y → x = x')
  (hkeeps : Keeps key visit child root Good)

include hroot hunique hkeeps

omit [DecidableEq κ] in
theorem frontier_step {s t : σ} {i : ι} {pending found : List ι} {seen : List κ}
    (hgood : Good s (i :: pending) seen)
    (hfrontier : Frontier child root ((i :: pending).map key) seen)
    (hvisit : visit s i = .ok (t, found)) :
    Good t (found.reverse ++ pending) (key i :: seen) ∧
      Frontier child root ((found.reverse ++ pending).map key) (key i :: seen) := by
  obtain ⟨hnodup, hmem, hgood'⟩ := hkeeps s i pending seen t found hgood hfrontier hvisit
  refine ⟨hgood', ?_⟩
  rw [List.map_append, List.map_reverse]
  exact Frontier.step hfrontier hroot hunique hnodup hmem

/-- A walk that succeeds is a list of visits, and what they keep holds in the end. -/
theorem exists_visits {fuel : ℕ} {s t : σ} {pending : List ι} {seen : List κ}
    (hgood : Good s pending seen) (hfrontier : Frontier child root (pending.map key) seen)
    (h : traverse key visit again fuel pending seen s = .ok t) :
    ∃ items, visits visit s items = .ok t ∧ Good t [] ((items.map key).reverse ++ seen) ∧
      Frontier child root [] ((items.map key).reverse ++ seen) := by
  induction fuel generalizing s pending seen with
  | zero =>
    cases pending with
    | nil =>
      cases h
      exact ⟨[], rfl, hgood, hfrontier⟩
    | cons i pending => cases h
  | succ fuel ih =>
    cases pending with
    | nil =>
      cases h
      exact ⟨[], rfl, hgood, hfrontier⟩
    | cons i pending =>
      have hnew : key i ∉ seen := fun hmem =>
        hfrontier.notMem hroot (List.mem_cons_of_mem _ hmem)
      rw [traverse, if_neg hnew] at h
      obtain ⟨⟨u, found⟩, hvisit, h⟩ := except_bind_eq_ok.mp h
      obtain ⟨hgood', hfrontier'⟩ :=
        frontier_step hroot hunique hkeeps hgood hfrontier hvisit
      obtain ⟨items, hitems, hend⟩ := ih hgood' hfrontier' h
      refine ⟨i :: items, ?_, ?_⟩
      · rw [visits, List.foldlM_cons, hvisit]
        exact hitems
      · simpa using hend

/-- A walk with enough fuel fails in a visit only. -/
theorem exists_visit_error {fuel : ℕ} {s : σ} {pending : List ι} {seen nodes : List κ} {e : ε}
    (hnodes : ∀ y, TransGen child root y → y ∈ nodes) (hfuel : nodes.length ≤ fuel + seen.length)
    (hgood : Good s pending seen) (hfrontier : Frontier child root (pending.map key) seen)
    (h : traverse key visit again fuel pending seen s = .error e) :
    ∃ t i rest seen', Good t (i :: rest) seen' ∧
      Frontier child root ((i :: rest).map key) seen' ∧ visit t i = .error e := by
  induction fuel generalizing s pending seen with
  | zero =>
    cases pending with
    | nil => cases h
    | cons i pending =>
      have hlength := hfrontier.length_le hnodes
      rw [List.length_map, List.length_cons] at hlength
      omega
  | succ fuel ih =>
    cases pending with
    | nil => cases h
    | cons i pending =>
      have hnew : key i ∉ seen := fun hmem =>
        hfrontier.notMem hroot (List.mem_cons_of_mem _ hmem)
      rw [traverse, if_neg hnew] at h
      rcases except_bind_eq_error.mp h with h | ⟨⟨u, found⟩, hvisit, h⟩
      · exact ⟨s, i, pending, seen, hgood, hfrontier, h⟩
      · obtain ⟨hgood', hfrontier'⟩ :=
          frontier_step hroot hunique hkeeps hgood hfrontier hvisit
        refine ih ?_ hgood' hfrontier' h
        rw [List.length_cons]
        omega

end Walk

end Traversal

import Mathlib.Algebra.BigOperators.Group.Finset.Basic
import Mathlib.Algebra.Order.BigOperators.Group.Finset
import Mathlib.Logic.Relation

/-! # Reachability by a worklist

`close` pops items from a stack, records the unseen ones and pushes their successors. With enough
fuel it collects exactly what the stack reaches.
-/

namespace Worklist

open Relation

variable {α : Type*} [DecidableEq α]

/-- The edges of a successor function. -/
def Edge (next : α → List α) (a b : α) : Prop := b ∈ next a

/-- The worklist loop: `pending` is the stack with its top first, `seen` what was recorded. -/
def close (next : α → List α) : ℕ → List α → List α → List α
  | 0, _, seen => seen
  | _ + 1, [], seen => seen
  | fuel + 1, x :: pending, seen =>
    if x ∈ seen then close next fuel pending seen
    else close next fuel ((next x).reverse ++ pending) (x :: seen)

/-- How many pops are left at most: what is on the stack and what unseen items would push. -/
def budget (next : α → List α) (keys : Finset α) (pending seen : List α) : ℕ :=
  pending.length + ∑ x ∈ keys with x ∉ seen, (next x).length

/-- Recording an unseen item pays for the successors it pushes. -/
theorem budget_push (next : α → List α) {keys : Finset α} (hkeys : ∀ x ∉ keys, next x = [])
    {x : α} (pending : List α) {seen : List α} (hx : x ∉ seen) :
    budget next keys ((next x).reverse ++ pending) (x :: seen) + 1 =
      budget next keys (x :: pending) seen := by
  have hfilter : (keys.filter fun y => y ∉ x :: seen) = (keys.filter fun y => y ∉ seen).erase x := by
    ext y
    simp only [Finset.mem_filter, List.mem_cons, not_or, Finset.mem_erase]
    tauto
  simp only [budget, hfilter, List.length_append, List.length_reverse, List.length_cons]
  by_cases hmem : x ∈ keys
  · have hx' : x ∈ keys.filter fun y => y ∉ seen := by simp [hmem, hx]
    have hsum := Finset.add_sum_erase _ (fun y => (next y).length) hx'
    omega
  · have hx' : x ∉ keys.filter fun y => y ∉ seen := by simp [hmem]
    rw [Finset.erase_eq_of_notMem hx', hkeys x hmem]
    simp only [List.length_nil]
    omega

omit [DecidableEq α] in
/-- Whatever a recorded item reaches is recorded or is reached from the stack, once every recorded
item has its successors there. -/
theorem seen_or_pending_of_reach {next : α → List α} {pending seen : List α}
    (hclosed : ∀ x ∈ seen, ∀ z ∈ next x, z ∈ seen ∨ z ∈ pending) {x y : α} (hx : x ∈ seen)
    (hxy : ReflTransGen (Edge next) x y) :
    y ∈ seen ∨ ∃ p ∈ pending, ReflTransGen (Edge next) p y := by
  induction hxy using ReflTransGen.head_induction_on with
  | refl => exact .inl hx
  | head hstep hrest ih =>
    rcases hclosed _ hx _ hstep with hz | hz
    · exact ih hz
    · exact .inr ⟨_, hz, hrest⟩

/-- With enough fuel the loop returns what was recorded and all that the stack reaches. -/
theorem mem_close {next : α → List α} {keys : Finset α} (hkeys : ∀ x ∉ keys, next x = [])
    {fuel : ℕ} {pending seen : List α} (hfuel : budget next keys pending seen ≤ fuel)
    (hclosed : ∀ x ∈ seen, ∀ z ∈ next x, z ∈ seen ∨ z ∈ pending) (y : α) :
    y ∈ close next fuel pending seen ↔
      y ∈ seen ∨ ∃ p ∈ pending, ReflTransGen (Edge next) p y := by
  induction fuel generalizing pending seen with
  | zero =>
    have hnil : pending = [] := by
      rw [← List.length_eq_zero_iff]
      unfold budget at hfuel
      omega
    simp [close, hnil]
  | succ fuel ih =>
    cases pending with
    | nil => simp [close]
    | cons x pending =>
      rw [close]
      split_ifs with hx
      · -- a second visit: the successors of `x` are already accounted for
        have hclosed' : ∀ a ∈ seen, ∀ z ∈ next a, z ∈ seen ∨ z ∈ pending := by
          intro a ha z hz
          rcases hclosed a ha z hz with h | h
          · exact .inl h
          · rcases List.mem_cons.mp h with rfl | h
            · exact .inl hx
            · exact .inr h
        have hbudget : budget next keys pending seen ≤ fuel := by
          simp only [budget, List.length_cons] at hfuel ⊢
          omega
        rw [ih hbudget hclosed']
        constructor
        · rintro (h | ⟨p, hp, hpy⟩)
          · exact .inl h
          · exact .inr ⟨p, List.mem_cons_of_mem _ hp, hpy⟩
        · rintro (h | ⟨p, hp, hpy⟩)
          · exact .inl h
          · rcases List.mem_cons.mp hp with rfl | hp
            · exact seen_or_pending_of_reach hclosed' hx hpy
            · exact .inr ⟨p, hp, hpy⟩
      · have hbudget : budget next keys ((next x).reverse ++ pending) (x :: seen) ≤ fuel := by
          have := budget_push next hkeys pending hx
          omega
        have hclosed' : ∀ a ∈ x :: seen, ∀ z ∈ next a,
            z ∈ x :: seen ∨ z ∈ (next x).reverse ++ pending := by
          intro a ha z hz
          rcases List.mem_cons.mp ha with rfl | ha
          · exact .inr (by simp [hz])
          · rcases hclosed a ha z hz with h | h
            · exact .inl (List.mem_cons_of_mem _ h)
            · rcases List.mem_cons.mp h with rfl | h
              · exact .inl (by simp)
              · exact .inr (by simp [h])
        rw [ih hbudget hclosed']
        constructor
        · rintro (h | ⟨p, hp, hpy⟩)
          · rcases List.mem_cons.mp h with rfl | h
            · exact .inr ⟨y, by simp, .refl⟩
            · exact .inl h
          · rcases List.mem_append.mp hp with hp | hp
            · exact .inr ⟨x, by simp, .head (List.mem_reverse.mp hp) hpy⟩
            · exact .inr ⟨p, List.mem_cons_of_mem _ hp, hpy⟩
        · rintro (h | ⟨p, hp, hpy⟩)
          · exact .inl (List.mem_cons_of_mem _ h)
          · rcases List.mem_cons.mp hp with rfl | hp
            · rcases hpy.cases_head with rfl | ⟨z, hz, hzy⟩
              · exact .inl (by simp)
              · exact .inr ⟨z, List.mem_append_left _ (List.mem_reverse.mpr hz), hzy⟩
            · exact .inr ⟨p, by simp [hp], hpy⟩

/-- From one start item the loop collects exactly what it reaches. -/
theorem mem_close_singleton {next : α → List α} (keys : Finset α)
    (hkeys : ∀ x ∉ keys, next x = []) {fuel : ℕ} {x : α}
    (hfuel : 1 + ∑ k ∈ keys, (next k).length ≤ fuel) (y : α) :
    y ∈ close next fuel [x] [] ↔ ReflTransGen (Edge next) x y := by
  have hbudget : budget next keys [x] [] ≤ fuel := by simpa [budget] using hfuel
  rw [mem_close hkeys hbudget (by simp)]
  simp

end Worklist

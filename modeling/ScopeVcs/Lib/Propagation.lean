import Mathlib.Data.List.Basic
import Mathlib.Data.List.Induction
import Mathlib.Logic.Function.Basic

/-! # Propagation along an order

Values are attached to keys and updated node by node. A node only looks at the values of its own
key and of its dependencies. If the order lists each node after everything it depends on, a single
pass reaches the one assignment in which every node has been updated from the final values.
-/

namespace Propagation

variable {ν ι α : Type*}

/-- How nodes update their values. -/
structure Rule (ν ι α : Type*) where
  key : ν → ι
  deps : ν → List ι
  /-- The new value of a node, from all values and its own. -/
  step : ν → (ι → α) → α → α
  /-- Of all values, a step only uses those of the dependencies. -/
  step_congr : ∀ n f g a, (∀ d ∈ deps n, f d = g d) → step n f a = step n g a

/-- Each node occurs once and comes after everything it depends on. -/
structure Rule.Ordered (rule : Rule ν ι α) (order : List ν) : Prop where
  nodup : (order.map rule.key).Nodup
  deps : ∀ pre n post, order = pre ++ n :: post → ∀ d ∈ rule.deps n, d ∈ pre.map rule.key

variable [DecidableEq ι] (rule : Rule ν ι α)

/-- Updates the nodes one after another. -/
def propagate : List ν → (ι → α) → ι → α
  | [], f => f
  | n :: order, f =>
    propagate order (Function.update f (rule.key n) (rule.step n f (f (rule.key n))))

variable {rule} {order : List ν} {f g : ι → α}

theorem propagate_append (pre post : List ν) :
    propagate rule (pre ++ post) f = propagate rule post (propagate rule pre f) := by
  induction pre generalizing f with
  | nil => rfl
  | cons n pre ih => exact ih

theorem propagate_of_notMem {k : ι} (h : k ∉ order.map rule.key) :
    propagate rule order f k = f k := by
  induction order generalizing f with
  | nil => rfl
  | cons n order ih =>
    rw [List.map_cons, List.mem_cons, not_or] at h
    rw [propagate, ih h.2, Function.update_of_ne h.1]

/-- After the pass every node has the value that the final values of its dependencies give it. -/
theorem propagate_eq (h : rule.Ordered order) {n : ν} (hn : n ∈ order) :
    propagate rule order f (rule.key n) =
      rule.step n (propagate rule order f) (f (rule.key n)) := by
  obtain ⟨pre, post, rfl⟩ := List.append_of_mem hn
  have hdeps := h.deps pre n post rfl
  have hnodup := h.nodup
  rw [List.map_append, List.map_cons, List.nodup_append, List.nodup_cons] at hnodup
  obtain ⟨-, ⟨hpost, -⟩, hdisjoint⟩ := hnodup
  have hpre : rule.key n ∉ pre.map rule.key :=
    fun hmem => hdisjoint _ hmem _ List.mem_cons_self rfl
  rw [propagate_append, propagate, propagate_of_notMem hpost, Function.update_self,
    propagate_of_notMem hpre]
  refine rule.step_congr n _ _ _ fun d hd => ?_
  -- a dependency was settled before the node
  have hd' := hdeps d hd
  rw [propagate_of_notMem fun hmem => hdisjoint d hd' d (List.mem_cons_of_mem _ hmem) rfl,
    Function.update_of_ne]
  rintro rfl
  exact hpre hd'

/-- It is the only such assignment. -/
theorem propagate_unique (h : rule.Ordered order)
    (hstep : ∀ n ∈ order, g (rule.key n) = rule.step n g (f (rule.key n)))
    (hkept : ∀ k ∉ order.map rule.key, g k = f k) : propagate rule order f = g := by
  have hfront : ∀ pre post, order = pre ++ post → ∀ n ∈ pre,
      propagate rule order f (rule.key n) = g (rule.key n) := by
    intro pre
    induction pre using List.reverseRecOn with
    | nil => simp
    | append_singleton pre m ih =>
      intro post horder n hn
      have hearlier := ih (m :: post) (by rw [horder, List.append_assoc, List.singleton_append])
      rcases List.mem_append.mp hn with hn | hn
      · exact hearlier n hn
      · obtain rfl := List.mem_singleton.mp hn
        have hmem : n ∈ order := by simp [horder]
        rw [propagate_eq h hmem, hstep n hmem]
        refine rule.step_congr n _ _ _ fun d hd => ?_
        have hd' := h.deps pre n post (by rw [horder, List.append_assoc, List.singleton_append]) d hd
        obtain ⟨m, hm, rfl⟩ := List.mem_map.mp hd'
        exact hearlier m hm
  funext k
  by_cases hk : k ∈ order.map rule.key
  · obtain ⟨n, hn, rfl⟩ := List.mem_map.mp hk
    exact hfront order [] (List.append_nil order).symm n hn
  · rw [propagate_of_notMem hk, hkept k hk]

/-- A second pass changes nothing, if updating a node twice is the same as updating it once. -/
theorem propagate_idem (h : rule.Ordered order)
    (hidem : ∀ n f a, rule.step n f (rule.step n f a) = rule.step n f a) :
    propagate rule order (propagate rule order f) = propagate rule order f := by
  refine propagate_unique h (fun n hn => ?_) fun _ _ => rfl
  conv_rhs => rw [propagate_eq h hn, hidem]
  exact propagate_eq h hn

end Propagation

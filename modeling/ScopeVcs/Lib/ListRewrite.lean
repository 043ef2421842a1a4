import Mathlib.Data.List.Basic
import Mathlib.Data.Nat.Notation

/-! # Lists rewritten in place

When mapping and filtering leave a list as it is, and what a partial map keeps of the keys.
-/

namespace ListRewrite

variable {α β κ : Type*} {l : List α}

/-- A mapped list is the list itself exactly when every element stays. -/
theorem map_eq_self {f : α → α} : l.map f = l ↔ ∀ a ∈ l, f a = a := by
  conv_lhs => rw [← List.map_id l]
  rw [List.map_map]
  exact List.map_inj_left

/-- Filtering and mapping leaves a list as it is when each step does. -/
theorem filter_map_eq_self {f : α → α} {p : α → Bool} :
    (l.map f).filter p = l ↔ ∀ a ∈ l, f a = a ∧ p a = true := by
  constructor
  · intro h
    have hlength : ((l.map f).filter p).length = (l.map f).length := by
      rw [h, List.length_map]
    have hkept := List.length_filter_eq_length_iff.mp hlength
    have hmap : l.map f = l := (List.filter_eq_self.mpr hkept).symm.trans h
    intro a ha
    have hfixed := map_eq_self.mp hmap a ha
    exact ⟨hfixed, hfixed ▸ hkept (f a) (List.mem_map_of_mem ha)⟩
  · intro h
    rw [map_eq_self.mpr fun a ha => (h a ha).1]
    exact List.filter_eq_self.mpr fun a ha => (h a ha).2

theorem mapIdx_eq_self {f : ℕ → α → α} :
    l.mapIdx f = l ↔ ∀ i, ∀ a ∈ l[i]?, f i a = a := by
  constructor
  · intro h i a ha
    have hget := congrArg (·[i]?) h
    simp only [List.getElem?_mapIdx, Option.mem_def.mp ha, Option.map_some, Option.some_inj] at hget
    exact hget
  · intro h
    refine List.ext_getElem? fun i => ?_
    rw [List.getElem?_mapIdx]
    cases ha : l[i]? with
    | none => rfl
    | some a => exact congrArg some (h i a ha)

/-- What a list is mapped to partly, under the key of the element it came from. -/
theorem map_filterMap_sublist {f : α → Option β} {g : β → κ} {h : α → κ}
    (hkey : ∀ a b, f a = some b → g b = h a) (l : List α) :
    ((l.filterMap f).map g).Sublist (l.map h) := by
  induction l with
  | nil => exact List.Sublist.refl _
  | cons a l ih =>
    cases hf : f a with
    | none =>
      rw [List.filterMap_cons_none hf]
      exact ih.cons _
    | some b =>
      rw [List.filterMap_cons_some hf, List.map_cons, List.map_cons, hkey a b hf]
      exact ih.cons_cons _

end ListRewrite

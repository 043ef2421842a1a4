import Mathlib.Data.List.Forall2

/-! # Lists with one entry replaced

What a list keeps when `set` replaces one of its entries, and pointwise relations between the two.
-/

namespace ListUpdate

variable {α β : Type*} {l : List α} {i : ℕ} {a b : α}

/-- An entry of the updated list is the new one, or an old one at another position. -/
theorem mem_set_cases {x : α} (h : x ∈ l.set i b) : x = b ∨ ∃ k, k ≠ i ∧ l[k]? = some x := by
  obtain ⟨k, hk⟩ := List.mem_iff_getElem?.mp h
  rw [List.getElem?_set] at hk
  split_ifs at hk with hik
  · exact .inl (Option.some_inj.mp hk).symm
  · exact .inr ⟨k, Ne.symm hik, hk⟩

/-- The entries at other positions stay, and the new one is there. -/
theorem mem_set_of_getElem? {x : α} {k : ℕ} (hk : l[k]? = some x) (hik : i ≠ k) :
    x ∈ l.set i b :=
  List.mem_iff_getElem?.mpr ⟨k, by rw [List.getElem?_set_ne hik, hk]⟩

theorem mem_set_self (hi : l[i]? = some a) : b ∈ l.set i b :=
  List.mem_iff_getElem?.mpr ⟨i, by simp [(List.getElem?_eq_some_iff.mp hi).1]⟩

theorem set_self (hi : l[i]? = some a) : l.set i a = l := by
  obtain ⟨hlt, rfl⟩ := List.getElem?_eq_some_iff.mp hi
  simp

theorem filterMap_set {g : α → Option β} (hi : l[i]? = some a) (hg : g b = g a) :
    (l.set i b).filterMap g = l.filterMap g := by
  induction l generalizing i with
  | nil => simp
  | cons x xs ih =>
    cases i with
    | zero =>
      obtain rfl : x = a := by simpa using hi
      rw [List.set_cons_zero, List.filterMap_cons, List.filterMap_cons, hg]
    | succ i =>
      rw [List.set_cons_succ, List.filterMap_cons, List.filterMap_cons, ih (by simpa using hi)]

theorem map_set {f : α → β} (hi : l[i]? = some a) (hf : f b = f a) :
    (l.set i b).map f = l.map f := by
  rw [← List.filterMap_eq_map, filterMap_set hi (by simp [hf])]

/-- Where the images are distinct, equal images stand at equal positions. -/
theorem index_unique {g : α → Option β} (hnodup : (l.filterMap g).Nodup) {j : ℕ} {c : β}
    (hi : l[i]? = some a) (hj : l[j]? = some b) (ha : g a = some c) (hb : g b = some c) :
    i = j := by
  induction l generalizing i j with
  | nil => simp at hi
  | cons x xs ih =>
    have htail : (xs.filterMap g).Nodup := by
      rw [List.filterMap_cons] at hnodup
      split at hnodup
      · exact hnodup
      · exact hnodup.of_cons
    have hhead : ∀ {k : ℕ} {y : α}, g x = some c → xs[k]? = some y → g y = some c → False := by
      intro k y hx hy hgy
      rw [List.filterMap_cons_some hx, List.nodup_cons] at hnodup
      exact hnodup.1 (List.mem_filterMap.mpr ⟨y, List.mem_of_getElem? hy, hgy⟩)
    cases i with
    | zero =>
      cases j with
      | zero => rfl
      | succ j =>
        obtain rfl : x = a := by simpa using hi
        exact (hhead ha (by simpa using hj) hb).elim
    | succ i =>
      cases j with
      | zero =>
        obtain rfl : x = b := by simpa using hj
        exact (hhead hb (by simpa using hi) ha).elim
      | succ j =>
        have hij : i = j := ih htail (by simpa using hi) (by simpa using hj)
        rw [hij]

theorem forall₂_set {R : α → α → Prop} (hrefl : ∀ x, R x x) (hi : l[i]? = some a) (hab : R a b) :
    List.Forall₂ R l (l.set i b) := by
  induction l generalizing i with
  | nil => simp at hi
  | cons x xs ih =>
    cases i with
    | zero =>
      obtain rfl : x = a := by simpa using hi
      exact .cons hab (List.forall₂_same.mpr fun y _ => hrefl y)
    | succ i => exact .cons (hrefl x) (ih (by simpa using hi))

theorem forall₂_trans {R S T : α → α → Prop} (htrans : ∀ a b c, R a b → S b c → T a c)
    {l₁ l₂ l₃ : List α} (h₁ : List.Forall₂ R l₁ l₂) (h₂ : List.Forall₂ S l₂ l₃) :
    List.Forall₂ T l₁ l₃ := by
  induction h₁ generalizing l₃ with
  | nil => cases h₂; exact .nil
  | cons hab _ ih =>
    cases h₂ with
    | cons hbc hrest => exact .cons (htrans _ _ _ hab hbc) (ih hrest)

theorem forall₂_mem_right {R : α → β → Prop} {l₁ : List α} {l₂ : List β}
    (h : List.Forall₂ R l₁ l₂) {b : β} (hb : b ∈ l₂) : ∃ a ∈ l₁, R a b := by
  induction h with
  | nil => cases hb
  | cons hab _ ih =>
    rcases List.mem_cons.mp hb with rfl | hb
    · exact ⟨_, by simp, hab⟩
    · obtain ⟨a, ha, hr⟩ := ih hb
      exact ⟨a, by simp [ha], hr⟩

theorem forall₂_mem_left {R : α → β → Prop} {l₁ : List α} {l₂ : List β}
    (h : List.Forall₂ R l₁ l₂) {a : α} (ha : a ∈ l₁) : ∃ b ∈ l₂, R a b := by
  obtain ⟨b, hb, hr⟩ := forall₂_mem_right h.flip ha
  exact ⟨b, hb, hr⟩

theorem forall₂_getElem? {R : α → β → Prop} {l₁ : List α} {l₂ : List β}
    (h : List.Forall₂ R l₁ l₂) {i : ℕ} {a : α} (ha : l₁[i]? = some a) :
    ∃ b, l₂[i]? = some b ∧ R a b := by
  induction h generalizing i with
  | nil => simp at ha
  | @cons x y _ _ hxy _ ih =>
    cases i with
    | zero =>
      obtain rfl : x = a := by simpa using ha
      exact ⟨y, rfl, hxy⟩
    | succ i => exact ih (by simpa using ha)

/-- Entries related by a relation that keeps `f` have the same images. -/
theorem forall₂_map_eq {γ : Type*} {R : α → α → Prop} {f : α → γ} (hf : ∀ x y, R x y → f y = f x)
    {l₁ l₂ : List α} (h : List.Forall₂ R l₁ l₂) : l₂.map f = l₁.map f := by
  induction h with
  | nil => rfl
  | cons hxy _ ih => rw [List.map_cons, List.map_cons, hf _ _ hxy, ih]

end ListUpdate

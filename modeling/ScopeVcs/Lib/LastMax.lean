import Mathlib.Data.List.Basic
import Mathlib.Order.Basic
import Mathlib.Tactic

/-! # The last heaviest applicable rule

`select` walks a list of rules and keeps the applicable one of the greatest weight, the last one of
several. What it selects depends on the applicable rules alone, and rules that lose do not matter.
-/

namespace LastMax

variable {R : Type*} {applies : R → Bool} {weight : R → ℕ} {l l' l₁ l₂ : List R} {r s : R}

/-- One round of the walk. -/
def step (applies : R → Bool) (weight : R → ℕ) (selected : Option R) (r : R) : Option R :=
  if applies r = true ∧ ∀ s ∈ selected, weight s ≤ weight r then some r else selected

def select (applies : R → Bool) (weight : R → ℕ) (l : List R) : Option R :=
  l.foldl (step applies weight) none

theorem select_append_singleton (l : List R) (r : R) :
    select applies weight (l ++ [r]) = step applies weight (select applies weight l) r := by
  rw [select, List.foldl_append]
  rfl

theorem select_eq_none_iff : select applies weight l = none ↔ ∀ r ∈ l, applies r = false := by
  induction l using List.reverseRecOn with
  | nil => simp [select]
  | append_singleton l r ih =>
    rw [select_append_singleton, step]
    simp only [List.mem_append, List.mem_singleton]
    by_cases hr : applies r = true ∧ ∀ s ∈ select applies weight l, weight s ≤ weight r
    · rw [if_pos hr]
      simp only [reduceCtorEq, false_iff]
      intro h
      have := h r (.inr rfl)
      rw [hr.1] at this
      cases this
    · rw [if_neg hr, ih]
      constructor
      · rintro h s (hs | rfl)
        · exact h s hs
        · by_contra happ
          refine hr ⟨by simpa using happ, fun s hs => ?_⟩
          rw [ih.mpr h] at hs
          cases hs
      · exact fun h s hs => h s (.inl hs)

/-- The selected rule applies, none before it is heavier and all after it are lighter. -/
theorem exists_of_select_eq_some (h : select applies weight l = some r) :
    ∃ before after, l = before ++ r :: after ∧ applies r = true ∧
      (∀ s ∈ before, applies s = true → weight s ≤ weight r) ∧
      ∀ s ∈ after, applies s = true → weight s < weight r := by
  induction l using List.reverseRecOn generalizing r with
  | nil => simp [select] at h
  | append_singleton l t ih =>
    rw [select_append_singleton, step] at h
    by_cases ht : applies t = true ∧ ∀ s ∈ select applies weight l, weight s ≤ weight t
    · rw [if_pos ht, Option.some.injEq] at h
      subst h
      refine ⟨l, [], rfl, ht.1, fun s hs happ => ?_, by simp⟩
      cases hselect : select applies weight l with
      | none =>
        have := select_eq_none_iff.mp hselect s hs
        rw [happ] at this
        cases this
      | some u =>
        have hu := ht.2 u hselect
        obtain ⟨before, after, rfl, -, hbefore, hafter⟩ := ih hselect
        rcases List.mem_append.mp hs with hs | hs
        · exact (hbefore s hs happ).trans hu
        · rcases List.mem_cons.mp hs with rfl | hs
          · exact hu
          · exact (hafter s hs happ).le.trans hu
    · rw [if_neg ht] at h
      obtain ⟨before, after, rfl, happ, hbefore, hafter⟩ := ih h
      refine ⟨before, after ++ [t], by simp, happ, hbefore, ?_⟩
      intro s hs hsapp
      rcases List.mem_append.mp hs with hs | hs
      · exact hafter s hs hsapp
      · obtain rfl := List.mem_singleton.mp hs
        by_contra hle
        refine ht ⟨hsapp, fun u hu => ?_⟩
        rw [h] at hu
        obtain rfl := Option.some.inj hu
        omega

theorem mem_of_select (h : select applies weight l = some r) : r ∈ l := by
  obtain ⟨before, after, rfl, -⟩ := exists_of_select_eq_some h
  simp

theorem applies_of_select (h : select applies weight l = some r) : applies r = true := by
  obtain ⟨-, -, -, happ, -⟩ := exists_of_select_eq_some h
  exact happ

/-- Nothing that applies is heavier than what is selected. -/
theorem weight_le_of_select (h : select applies weight l = some r) (hs : s ∈ l)
    (happ : applies s = true) : weight s ≤ weight r := by
  obtain ⟨before, after, rfl, -, hbefore, hafter⟩ := exists_of_select_eq_some h
  rcases List.mem_append.mp hs with hs | hs
  · exact hbefore s hs happ
  · rcases List.mem_cons.mp hs with rfl | hs
    · exact le_rfl
    · exact (hafter s hs happ).le

/-- A rule that applies and has none after it that is as heavy is selected. -/
theorem select_eq_some_of_split (happ : applies r = true)
    (hbefore : ∀ s ∈ l₁, applies s = true → weight s ≤ weight r)
    (hafter : ∀ s ∈ l₂, applies s = true → weight s < weight r) :
    select applies weight (l₁ ++ r :: l₂) = some r := by
  induction l₂ using List.reverseRecOn with
  | nil =>
    rw [select_append_singleton, step]
    refine if_pos ⟨happ, fun s hs => ?_⟩
    exact hbefore s (mem_of_select hs) (applies_of_select hs)
  | append_singleton l₂ t ih =>
    rw [← List.cons_append, ← List.append_assoc, select_append_singleton,
      ih fun s hs => hafter s (by simp [hs]), step, if_neg]
    rintro ⟨htapp, hle⟩
    exact absurd (hle r rfl) (hafter t (by simp) htapp).not_ge

/-- Only the rules that apply matter, and of those only their order and weights. -/
theorem select_eq_select_filter :
    select applies weight l = select (fun _ => true) weight (l.filter applies) := by
  induction l using List.reverseRecOn with
  | nil => rfl
  | append_singleton l r ih =>
    rw [select_append_singleton, List.filter_append, ih]
    by_cases hr : applies r = true
    · have hone : [r].filter applies = [r] := by simp [hr]
      rw [hone, select_append_singleton, step, step]
      simp only [hr, true_and]
    · have hnone : [r].filter applies = [] := by simp [hr]
      rw [hnone, List.append_nil, step, if_neg fun h => hr h.1]

theorem select_congr {applies' : R → Bool} (h : l.filter applies = l'.filter applies') :
    select applies weight l = select applies' weight l' := by
  rw [select_eq_select_filter, h, ← select_eq_select_filter]

/-- Removing a rule that is not selected changes nothing. -/
theorem select_remove_of_ne {index : ℕ} (h : select applies weight l = some r)
    (hr : l[index]? ≠ some r) : select applies weight (l.eraseIdx index) = some r := by
  obtain ⟨before, after, rfl, happ, hbefore, hafter⟩ := exists_of_select_eq_some h
  rcases lt_trichotomy index before.length with hlt | heq | hlt
  · rw [List.eraseIdx_append_of_lt_length hlt]
    exact select_eq_some_of_split happ
      (fun s hs => hbefore s (List.mem_of_mem_eraseIdx hs)) hafter
  · exact absurd (by rw [heq, List.getElem?_append_right le_rfl]; simp) hr
  · rw [List.eraseIdx_append_of_length_le hlt.le]
    obtain ⟨n, hn⟩ := Nat.exists_eq_succ_of_ne_zero (show index - before.length ≠ 0 by omega)
    rw [hn, List.eraseIdx_cons_succ]
    exact select_eq_some_of_split happ hbefore fun s hs => hafter s (List.mem_of_mem_eraseIdx hs)

theorem select_eraseIdx_of_none {index : ℕ} (h : select applies weight l = none) :
    select applies weight (l.eraseIdx index) = none := by
  rw [select_eq_none_iff] at h ⊢
  exact fun s hs => h s (List.mem_of_mem_eraseIdx hs)

end LastMax

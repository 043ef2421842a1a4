import Mathlib.Data.List.Basic

/-! # Terminated fields

A field is written as its symbols and a terminator. Fields without a terminator in them can be told
apart again, also when something else follows them.
-/

namespace Terminated

variable {α : Type*} {t : α}

/-- A field with its terminator. -/
def field (t : α) (symbols : List α) : List α := symbols ++ [t]

/-- One field after the other. -/
def fields (t : α) (l : List (List α)) : List α := l.flatMap (field t)

@[simp] theorem fields_nil : fields t [] = [] := rfl

@[simp] theorem fields_cons (symbols : List α) (l : List (List α)) :
    fields t (symbols :: l) = field t symbols ++ fields t l := rfl

theorem fields_append (l l' : List (List α)) :
    fields t (l ++ l') = fields t l ++ fields t l' := List.flatMap_append

/-- The first terminator ends the first field. -/
theorem field_append_inj {a b rest rest' : List α} (ha : t ∉ a) (hb : t ∉ b)
    (h : field t a ++ rest = field t b ++ rest') : a = b ∧ rest = rest' := by
  induction a generalizing b with
  | nil =>
    cases b with
    | nil => simpa [field] using h
    | cons y b =>
      obtain ⟨rfl, -⟩ := List.cons_eq_cons.mp h
      exact absurd List.mem_cons_self hb
  | cons x a ih =>
    cases b with
    | nil =>
      obtain ⟨rfl, -⟩ := List.cons_eq_cons.mp h
      exact absurd List.mem_cons_self ha
    | cons y b =>
      obtain ⟨rfl, htail⟩ := List.cons_eq_cons.mp h
      obtain ⟨rfl, hrest⟩ := ih (fun hx => ha (List.mem_cons_of_mem _ hx))
        (fun hy => hb (List.mem_cons_of_mem _ hy)) htail
      exact ⟨rfl, hrest⟩

/-- As many fields in front of anything else are told apart. -/
theorem fields_append_inj {l l' : List (List α)} {rest rest' : List α}
    (hl : ∀ a ∈ l, t ∉ a) (hl' : ∀ a ∈ l', t ∉ a) (hlen : l.length = l'.length)
    (h : fields t l ++ rest = fields t l' ++ rest') : l = l' ∧ rest = rest' := by
  induction l generalizing l' with
  | nil =>
    obtain rfl := List.length_eq_zero_iff.mp hlen.symm
    exact ⟨rfl, by simpa using h⟩
  | cons a l ih =>
    cases l' with
    | nil => cases hlen
    | cons b l' =>
      rw [fields_cons, fields_cons, List.append_assoc, List.append_assoc] at h
      obtain ⟨rfl, htail⟩ := field_append_inj (hl a List.mem_cons_self) (hl' b List.mem_cons_self) h
      obtain ⟨rfl, hrest⟩ := ih (fun a ha => hl a (List.mem_cons_of_mem _ ha))
        (fun a ha => hl' a (List.mem_cons_of_mem _ ha)) (Nat.succ_inj.mp hlen) htail
      exact ⟨rfl, hrest⟩

/-- With nothing behind them, any number of fields is told apart. -/
theorem fields_inj {l l' : List (List α)} (hl : ∀ a ∈ l, t ∉ a) (hl' : ∀ a ∈ l', t ∉ a)
    (h : fields t l = fields t l') : l = l' := by
  induction l generalizing l' with
  | nil =>
    cases l' with
    | nil => rfl
    | cons b l' => simp [field] at h
  | cons a l ih =>
    cases l' with
    | nil => simp [field] at h
    | cons b l' =>
      rw [fields_cons, fields_cons] at h
      obtain ⟨rfl, htail⟩ := field_append_inj (hl a List.mem_cons_self) (hl' b List.mem_cons_self) h
      rw [ih (fun a ha => hl a (List.mem_cons_of_mem _ ha))
        (fun a ha => hl' a (List.mem_cons_of_mem _ ha)) htail]

end Terminated

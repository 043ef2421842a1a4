import Mathlib.Algebra.Order.BigOperators.Group.List
import Mathlib.Algebra.Order.Group.Nat
import Mathlib.Algebra.Ring.Nat
import Mathlib.Data.List.Sort
import ScopeVcs.Lib.KeyedList

/-! # Tables

A table is a list of rows with distinct primary keys. The statements below are those of SQL: rows
are selected, deleted and updated by a condition, and inserted unless their key is taken.
-/

/-- Rows with distinct keys. -/
structure Table {ρ κ : Type*} (key : ρ → κ) where
  rows : List ρ
  nodup : (rows.map key).Nodup

namespace Table

variable {ρ κ : Type*} {key : ρ → κ}

instance : Membership ρ (Table key) := ⟨fun t r => r ∈ t.rows⟩

instance [DecidableEq ρ] : DecidableEq (Table key) := fun s t =>
  decidable_of_iff (s.rows = t.rows) (by cases s; cases t; simp)

def empty : Table key := ⟨[], by simp⟩

instance : EmptyCollection (Table key) := ⟨empty⟩

theorem mem_def {t : Table key} {r : ρ} : r ∈ t ↔ r ∈ t.rows := Iff.rfl

@[simp]
theorem notMem_empty (r : ρ) : r ∉ (∅ : Table key) := by
  rintro ⟨⟩

/-- Two rows with one key are one row. -/
theorem eq_of_key_eq {t : Table key} {r r' : ρ} (h : r ∈ t) (h' : r' ∈ t) (hkey : key r = key r') :
    r = r' :=
  List.inj_on_of_nodup_map t.nodup h h' hkey

/-! ## Statements -/

/-- `SELECT … WHERE key = …`. -/
def find? [DecidableEq κ] (t : Table key) (k : κ) : Option ρ := KeyedList.lookup key t.rows k

/-- `SELECT … WHERE …`. -/
def select (t : Table key) (p : ρ → Bool) : List ρ := t.rows.filter p

/-- `EXISTS (SELECT … WHERE …)`. -/
def any (t : Table key) (p : ρ → Bool) : Bool := t.rows.any p

/-- `DELETE … WHERE …`. -/
def delete (t : Table key) (p : ρ → Bool) : Table key :=
  ⟨t.rows.filter fun r => !p r, (t.rows.filter_sublist.map key).nodup t.nodup⟩

/-- `UPDATE … SET … WHERE …`, of columns other than the key. -/
def update (t : Table key) (p : ρ → Bool) (f : ρ → ρ) (hf : ∀ r, key (f r) = key r) : Table key :=
  ⟨t.rows.map fun r => if p r then f r else r, by
    have hmap : (t.rows.map fun r => if p r then f r else r).map key = t.rows.map key := by
      rw [List.map_map]
      refine List.map_congr_left fun r _ => ?_
      by_cases hp : p r <;> simp [hp, hf]
    rw [hmap]
    exact t.nodup⟩

/-- `INSERT … ON CONFLICT DO NOTHING`, on the primary key. -/
def insert [DecidableEq κ] (t : Table key) (r : ρ) : Table key :=
  if h : key r ∈ t.rows.map key then t
  else ⟨t.rows ++ [r], by
    rw [List.map_append, List.map_singleton, List.nodup_append]
    exact ⟨t.nodup, by simp, by
      intro a ha b hb
      rw [List.mem_singleton] at hb
      rintro rfl
      exact h (hb ▸ ha)⟩⟩

/-- `INSERT … ON CONFLICT (key) DO UPDATE SET …`. -/
def upsert [DecidableEq κ] (t : Table key) (r : ρ) (onConflict : ρ → ρ)
    (hf : ∀ old, key (onConflict old) = key old) : Table key :=
  if (t.find? (key r)).isSome then t.update (fun old => key old = key r) onConflict hf else t.insert r

/-- `SELECT … ORDER BY … LIMIT 1`. -/
def first? (le : ρ → ρ → Bool) (rows : List ρ) : Option ρ :=
  (rows.insertionSort fun r r' => le r r' = true).head?

/-! ## What the statements leave -/

theorem find?_eq_some [DecidableEq κ] {t : Table key} {k : κ} {r : ρ} :
    t.find? k = some r ↔ r ∈ t ∧ key r = k :=
  KeyedList.lookup_eq_some t.nodup

theorem find?_eq_none [DecidableEq κ] {t : Table key} {k : κ} :
    t.find? k = none ↔ ∀ r ∈ t, key r ≠ k := by
  rw [Option.eq_none_iff_forall_ne_some]
  constructor
  · exact fun h r hr hk => h r (find?_eq_some.mpr ⟨hr, hk⟩)
  · exact fun h r hr => h r (find?_eq_some.mp hr).1 (find?_eq_some.mp hr).2

theorem mem_select {t : Table key} {p : ρ → Bool} {r : ρ} :
    r ∈ t.select p ↔ r ∈ t ∧ p r = true :=
  List.mem_filter

theorem any_eq_true {t : Table key} {p : ρ → Bool} :
    t.any p = true ↔ ∃ r ∈ t, p r = true := by
  rw [any, List.any_eq_true]
  rfl

theorem any_eq_false {t : Table key} {p : ρ → Bool} :
    t.any p = false ↔ ∀ r ∈ t, p r = false := by
  rw [any, List.any_eq_false]
  simp [mem_def]

@[simp]
theorem mem_delete {t : Table key} {p : ρ → Bool} {r : ρ} :
    r ∈ t.delete p ↔ r ∈ t ∧ p r = false := by
  rw [mem_def, delete, List.mem_filter]
  simp [mem_def]

theorem mem_update {t : Table key} {p : ρ → Bool} {f : ρ → ρ} (hf : ∀ r, key (f r) = key r)
    {r : ρ} :
    r ∈ t.update p f hf ↔ ∃ r₀ ∈ t, r = if p r₀ then f r₀ else r₀ := by
  rw [mem_def, update, List.mem_map]
  simp only [mem_def, eq_comm]

theorem update_eq_self {t : Table key} {p : ρ → Bool} {f : ρ → ρ} (hf : ∀ r, key (f r) = key r)
    (h : ∀ r ∈ t, p r = false) : t.update p f hf = t := by
  rw [update, mk.injEq]
  have hid : ∀ r ∈ t.rows, (if p r then f r else r) = r := fun r hr => by simp [h r hr]
  exact (List.map_congr_left hid).trans (List.map_id _)

theorem delete_eq_self {t : Table key} {p : ρ → Bool} (h : ∀ r ∈ t, p r = false) :
    t.delete p = t := by
  rw [delete, mk.injEq]
  exact List.filter_eq_self.mpr fun r hr => by simp [h r hr]

/-- An update of one row replaces it. -/
theorem mem_update_of_unique {t : Table key} {p : ρ → Bool} {f : ρ → ρ}
    (hf : ∀ r, key (f r) = key r) {old : ρ} (hold : old ∈ t) (hp : p old = true)
    (hunique : ∀ r ∈ t, p r = true → r = old) {r : ρ} :
    r ∈ t.update p f hf ↔ (r ∈ t ∧ r ≠ old) ∨ r = f old := by
  rw [mem_update]
  constructor
  · rintro ⟨r₀, hr₀, rfl⟩
    by_cases hpr : p r₀ = true
    · rw [if_pos hpr]
      exact .inr (congrArg f (hunique r₀ hr₀ hpr))
    · rw [if_neg hpr]
      refine .inl ⟨hr₀, ?_⟩
      rintro rfl
      exact hpr hp
  · rintro (⟨hr, hne⟩ | rfl)
    · exact ⟨r, hr, (if_neg fun hpr => hne (hunique r hr hpr)).symm⟩
    · exact ⟨old, hold, (if_pos hp).symm⟩

theorem mem_insert [DecidableEq κ] {t : Table key} {r r' : ρ} (h : t.find? (key r) = none) :
    r' ∈ t.insert r ↔ r' ∈ t ∨ r' = r := by
  have hkey : key r ∉ t.rows.map key := by
    rw [List.mem_map]
    rintro ⟨r₀, hr₀, hk⟩
    exact find?_eq_none.mp h r₀ hr₀ hk
  rw [mem_def, insert, dif_neg hkey]
  simp [mem_def]

theorem insert_of_find?_eq_some [DecidableEq κ] {t : Table key} {r r₀ : ρ}
    (h : t.find? (key r) = some r₀) : t.insert r = t := by
  obtain ⟨hmem, hk⟩ := find?_eq_some.mp h
  exact dif_pos (List.mem_map.mpr ⟨r₀, hmem, hk⟩)

theorem mem_of_mem_insert [DecidableEq κ] {t : Table key} {r r' : ρ} (h : r' ∈ t.insert r) :
    r' ∈ t ∨ r' = r := by
  cases hfind : t.find? (key r) with
  | none => exact (mem_insert hfind).mp h
  | some r₀ => exact .inl (insert_of_find?_eq_some hfind ▸ h)

theorem mem_insert_of_mem [DecidableEq κ] {t : Table key} {r r' : ρ} (h : r' ∈ t) :
    r' ∈ t.insert r := by
  cases hfind : t.find? (key r) with
  | none => exact (mem_insert hfind).mpr (.inl h)
  | some r₀ => rwa [insert_of_find?_eq_some hfind]

theorem find?_update [DecidableEq κ] {t : Table key} {p : ρ → Bool} {f : ρ → ρ}
    (hf : ∀ r, key (f r) = key r) (k : κ) :
    (t.update p f hf).find? k = (t.find? k).map fun r => if p r then f r else r := by
  have hkey : ∀ r, key (if p r then f r else r) = key r := fun r => by
    by_cases hp : p r <;> simp [hp, hf]
  apply Option.ext
  intro r'
  rw [find?_eq_some, mem_update, Option.map_eq_some_iff]
  constructor
  · rintro ⟨⟨r, hr, rfl⟩, hk⟩
    exact ⟨r, find?_eq_some.mpr ⟨hr, hkey r ▸ hk⟩, rfl⟩
  · rintro ⟨r, hr, rfl⟩
    obtain ⟨hmem, hk⟩ := find?_eq_some.mp hr
    exact ⟨⟨r, hmem, rfl⟩, (hkey r).trans hk⟩

theorem find?_insert [DecidableEq κ] {t : Table key} {r : ρ} (h : t.find? (key r) = none) (k : κ) :
    (t.insert r).find? k = if k = key r then some r else t.find? k := by
  apply Option.ext
  intro r'
  rw [find?_eq_some, mem_insert h]
  split
  · rename_i hk
    subst hk
    constructor
    · rintro ⟨hmem | rfl, hk⟩
      · exact absurd hk (find?_eq_none.mp h r' hmem)
      · rfl
    · intro hr
      cases hr
      exact ⟨.inr rfl, rfl⟩
  · rename_i hk
    rw [find?_eq_some]
    constructor
    · rintro ⟨hmem | rfl, hk'⟩
      · exact ⟨hmem, hk'⟩
      · exact absurd hk'.symm hk
    · exact fun ⟨hmem, hk'⟩ => ⟨.inl hmem, hk'⟩

/-- A key that is deleted is gone, and the others are as before. -/
theorem find?_delete [DecidableEq κ] {t : Table key} (k k' : κ) :
    (t.delete fun r => key r = k).find? k' = if k' = k then none else t.find? k' := by
  apply Option.ext
  intro r
  rw [find?_eq_some, mem_delete, decide_eq_false_iff_not]
  split_ifs with hk
  · subst hk
    exact iff_of_false (fun h => h.1.2 h.2) (fun h => by cases h)
  · rw [find?_eq_some]
    refine and_congr_left fun hr => and_iff_left ?_
    rw [hr]
    exact hk

/-- After an upsert the row is the new one or the old one changed, and the others are as before. -/
theorem find?_upsert [DecidableEq κ] {t : Table key} {r : ρ} {f : ρ → ρ}
    (hf : ∀ old, key (f old) = key old) (k : κ) :
    (t.upsert r f hf).find? k =
      if k = key r then some ((t.find? k).elim r f) else t.find? k := by
  rw [upsert]
  cases hfind : t.find? (key r) with
  | none =>
    rw [if_neg (by simp), find?_insert hfind]
    split
    · rename_i hk
      rw [hk, hfind]
      rfl
    · rfl
  | some old =>
    rw [if_pos (by rfl), find?_update]
    split
    · rename_i hk
      subst hk
      have hold : key old = key r := (find?_eq_some.mp hfind).2
      simp [hfind, hold]
    · rename_i hk
      cases hk' : t.find? k with
      | none => rfl
      | some r' =>
        have hr' : key r' = k := (find?_eq_some.mp hk').2
        simp [hr', hk]

theorem mem_of_first? {le : ρ → ρ → Bool} {rows : List ρ} {r : ρ} (h : first? le rows = some r) :
    r ∈ rows := by
  rw [first?] at h
  exact (List.mem_insertionSort _).mp (List.mem_of_mem_head? h)

theorem first?_eq_none {le : ρ → ρ → Bool} {rows : List ρ} : first? le rows = none ↔ rows = [] := by
  rw [first?, List.head?_eq_none_iff, ← List.length_eq_zero_iff, List.length_insertionSort,
    List.length_eq_zero_iff]

/-! ## Totals -/

/-- `SUM` of a number for each row. -/
def total (t : Table key) (w : ρ → ℕ) : ℕ := (t.rows.map w).sum

variable {t : Table key} {w w' : ρ → ℕ}

theorem sum_select {p : ρ → Bool} :
    ((t.select p).map w).sum = t.total fun r => if p r then w r else 0 := by
  rw [select, total]
  induction t.rows with
  | nil => rfl
  | cons r rows ih =>
    rw [List.map_cons, List.sum_cons, ← ih]
    by_cases hp : p r = true <;> simp [hp]

theorem total_insert [DecidableEq κ] {r : ρ} (h : t.find? (key r) = none) :
    (t.insert r).total w = t.total w + w r := by
  have hkey : key r ∉ t.rows.map key := by
    rw [List.mem_map]
    rintro ⟨r₀, hr₀, hk⟩
    exact find?_eq_none.mp h r₀ hr₀ hk
  rw [total, insert, dif_neg hkey]
  simp [total]

theorem total_delete {p : ρ → Bool} :
    (t.delete p).total w = t.total fun r => if p r then 0 else w r := by
  change ((t.rows.filter fun r => !p r).map w).sum = _
  rw [total]
  induction t.rows with
  | nil => rfl
  | cons r rows ih =>
    rw [List.map_cons, List.sum_cons, ← ih]
    by_cases hp : p r = true <;> simp [hp]

theorem total_update {p : ρ → Bool} {f : ρ → ρ} {hf : ∀ r, key (f r) = key r} :
    (t.update p f hf).total w = t.total fun r => if p r then w (f r) else w r := by
  rw [update, total, total, List.map_map]
  congr 2
  funext r
  by_cases hp : p r = true <;> simp [hp]

theorem total_le (h : ∀ r ∈ t, w r ≤ w' r) : t.total w ≤ t.total w' :=
  List.sum_le_sum h

theorem total_congr (h : ∀ r ∈ t, w r = w' r) : t.total w = t.total w' :=
  congrArg List.sum (List.map_congr_left h)

/-- Two weights that differ in one row only. -/
theorem total_add_of_mem (w w' : ρ → ℕ) {r₀ : ρ} (hr₀ : r₀ ∈ t) (h : ∀ r ∈ t, r ≠ r₀ → w r = w' r) :
    t.total w + w' r₀ = t.total w' + w r₀ := by
  obtain ⟨front, rest, hrows⟩ := List.append_of_mem hr₀
  have hrows_nodup : t.rows.Nodup := t.nodup.of_map key
  rw [hrows] at hrows_nodup
  have hne : ∀ r, r ∈ front ∨ r ∈ rest → r ≠ r₀ := by
    rintro r hr rfl
    have hperm := List.nodup_middle.mp hrows_nodup
    exact (List.nodup_cons.mp hperm).1 (List.mem_append.mpr hr)
  have hfront : front.map w = front.map w' := List.map_congr_left fun r hr =>
    h r (by rw [mem_def, hrows]; simp [hr]) (hne r (.inl hr))
  have hrest : rest.map w = rest.map w' := List.map_congr_left fun r hr =>
    h r (by rw [mem_def, hrows]; simp [hr]) (hne r (.inr hr))
  simp only [total, hrows, List.map_append, List.map_cons, List.sum_append, List.sum_cons, hfront,
    hrest]
  omega

end Table

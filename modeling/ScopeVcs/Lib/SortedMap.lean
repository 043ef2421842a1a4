import Mathlib.Algebra.Ring.Nat
import Mathlib.Data.List.Sort
import Mathlib.Order.Basic

/-! # Maps in key order

`SortedMap K V` is a finite map as its entries in increasing key order. The order is part of the
type, so two maps with the same lookups are equal and iteration follows the keys.
-/

/-- A finite map, listed in strictly increasing key order. -/
structure SortedMap (K : Type*) (V : Type*) [LinearOrder K] where
  entries : List (K × V)
  sorted : entries.Pairwise (fun a b => a.1 < b.1)

namespace SortedMap

variable {K V W : Type*} [LinearOrder K]

/-! ## Entry lists -/

/-- The value of the first entry with the given key. -/
def lookupEntry (k : K) : List (K × V) → Option V
  | [] => none
  | (k', v) :: rest => if k = k' then some v else lookupEntry k rest

/-- Insert into a sorted entry list, replacing the value of an existing key. -/
def insertEntry (k : K) (v : V) : List (K × V) → List (K × V)
  | [] => [(k, v)]
  | (k', v') :: rest =>
    if k < k' then (k, v) :: (k', v') :: rest
    else if k = k' then (k, v) :: rest
    else (k', v') :: insertEntry k v rest

theorem lookupEntry_eq_none_of_forall_ne {k : K} {l : List (K × V)} (h : ∀ e ∈ l, e.1 ≠ k) :
    lookupEntry k l = none := by
  induction l with
  | nil => rfl
  | cons e rest ih =>
    obtain ⟨k', v'⟩ := e
    have hne : k ≠ k' := fun heq => h (k', v') (by simp) heq.symm
    rw [lookupEntry, if_neg hne]
    exact ih fun e he => h e (by simp [he])

theorem mem_of_lookupEntry {k : K} {v : V} {l : List (K × V)} (h : lookupEntry k l = some v) :
    (k, v) ∈ l := by
  induction l with
  | nil => cases h
  | cons e rest ih =>
    obtain ⟨k', v'⟩ := e
    rw [lookupEntry] at h
    split_ifs at h with hk
    · cases h
      subst hk
      simp
    · simp [ih h]

theorem lookupEntry_of_mem {k : K} {v : V} {l : List (K × V)}
    (hs : l.Pairwise (fun a b => a.1 < b.1)) (h : (k, v) ∈ l) : lookupEntry k l = some v := by
  induction l with
  | nil => cases h
  | cons e rest ih =>
    obtain ⟨k', v'⟩ := e
    rw [List.pairwise_cons] at hs
    rcases List.mem_cons.mp h with heq | hmem
    · cases heq
      simp [lookupEntry]
    · have hlt : k' < k := hs.1 (k, v) hmem
      rw [lookupEntry, if_neg hlt.ne']
      exact ih hs.2 hmem

theorem mem_insertEntry {k : K} {v : V} {e : K × V} {l : List (K × V)}
    (h : e ∈ insertEntry k v l) : e = (k, v) ∨ e ∈ l := by
  induction l with
  | nil => simpa [insertEntry] using h
  | cons e' rest ih =>
    obtain ⟨k', v'⟩ := e'
    rw [insertEntry] at h
    split_ifs at h with h1 h2
    · simpa using h
    · rcases List.mem_cons.mp h with rfl | hr
      · exact .inl rfl
      · exact .inr (List.mem_cons_of_mem _ hr)
    · rcases List.mem_cons.mp h with rfl | hr
      · exact .inr (by simp)
      · rcases ih hr with rfl | hr'
        · exact .inl rfl
        · exact .inr (List.mem_cons_of_mem _ hr')

theorem insertEntry_sorted (k : K) (v : V) {l : List (K × V)}
    (hs : l.Pairwise (fun a b => a.1 < b.1)) :
    (insertEntry k v l).Pairwise (fun a b => a.1 < b.1) := by
  induction l with
  | nil => simp [insertEntry]
  | cons e rest ih =>
    obtain ⟨k', v'⟩ := e
    have hs' := List.pairwise_cons.mp hs
    rw [insertEntry]
    split_ifs with h1 h2
    · refine List.pairwise_cons.mpr ⟨fun a ha => ?_, hs⟩
      rcases List.mem_cons.mp ha with rfl | hr
      · exact h1
      · exact h1.trans (hs'.1 a hr)
    · subst h2
      exact List.pairwise_cons.mpr ⟨fun a ha => hs'.1 a ha, hs'.2⟩
    · refine List.pairwise_cons.mpr ⟨fun a ha => ?_, ih hs'.2⟩
      rcases mem_insertEntry ha with rfl | hr
      · exact lt_of_le_of_ne (not_lt.mp h1) (Ne.symm h2)
      · exact hs'.1 a hr

theorem lookupEntry_insertEntry (k q : K) (v : V) (l : List (K × V)) :
    lookupEntry q (insertEntry k v l) = if q = k then some v else lookupEntry q l := by
  induction l with
  | nil => simp [insertEntry, lookupEntry]
  | cons e rest ih =>
    obtain ⟨k', v'⟩ := e
    rw [insertEntry]
    rcases lt_trichotomy k k' with hlt | rfl | hgt
    · rw [if_pos hlt, lookupEntry]
    · rw [if_neg (lt_irrefl k), if_pos rfl, lookupEntry, lookupEntry]
      split_ifs <;> rfl
    · rw [if_neg hgt.not_gt, if_neg hgt.ne', lookupEntry, lookupEntry, ih]
      by_cases hq : q = k'
      · subst hq
        rw [if_pos rfl, if_pos rfl, if_neg hgt.ne]
      · rw [if_neg hq, if_neg hq]

/-- Remove the entry of a key. -/
def eraseEntry (k : K) (l : List (K × V)) : List (K × V) := l.filter fun e => e.1 ≠ k

theorem eraseEntry_sorted (k : K) {l : List (K × V)} (hs : l.Pairwise (fun a b => a.1 < b.1)) :
    (eraseEntry k l).Pairwise (fun a b => a.1 < b.1) :=
  hs.filter _

theorem lookupEntry_eraseEntry (k q : K) (l : List (K × V)) :
    lookupEntry q (eraseEntry k l) = if q = k then none else lookupEntry q l := by
  induction l with
  | nil => simp [eraseEntry, lookupEntry]
  | cons e rest ih =>
    obtain ⟨k', v'⟩ := e
    rw [eraseEntry] at ih ⊢
    rw [List.filter_cons, lookupEntry]
    by_cases hk : k' = k
    · subst hk
      simp only [ne_eq, not_true_eq_false, decide_false, Bool.false_eq_true, if_false, ih]
      split_ifs <;> rfl
    · simp only [ne_eq, hk, not_false_eq_true, decide_true, if_true, lookupEntry, ih]
      by_cases hq : q = k'
      · subst hq
        simp [hk]
      · simp [hq]

/-- Writing back the value of a key changes nothing. -/
theorem insertEntry_of_lookupEntry {k : K} {v : V} {l : List (K × V)}
    (hs : l.Pairwise (fun a b => a.1 < b.1)) (h : lookupEntry k l = some v) :
    insertEntry k v l = l := by
  induction l with
  | nil => cases h
  | cons e rest ih =>
    obtain ⟨k', v'⟩ := e
    rw [List.pairwise_cons] at hs
    rw [lookupEntry] at h
    rw [insertEntry]
    by_cases hk : k = k'
    · subst hk
      rw [if_pos rfl, Option.some.injEq] at h
      rw [if_neg (lt_irrefl k), if_pos rfl, h]
    · rw [if_neg hk] at h
      have hlt : k' < k := hs.1 (k, v) (mem_of_lookupEntry h)
      rw [if_neg hlt.not_gt, if_neg hk, ih hs.2 h]

/-- A key that is new adds an entry. -/
theorem length_insertEntry {k : K} {l : List (K × V)} (v : V) (h : lookupEntry k l = none) :
    (insertEntry k v l).length = l.length + 1 := by
  induction l with
  | nil => rfl
  | cons e rest ih =>
    obtain ⟨k', v'⟩ := e
    rw [lookupEntry] at h
    rw [insertEntry]
    by_cases hk : k = k'
    · rw [if_pos hk] at h
      cases h
    · rw [if_neg hk] at h ⊢
      split_ifs
      · rfl
      · rw [List.length_cons, List.length_cons, ih h]

/-- What a sum over the entries gains by an insertion: the new entry, for the old one of its key. -/
theorem sum_insertEntry {k : K} {v : V} {l : List (K × V)} (w : K × V → ℕ)
    (hs : l.Pairwise (fun a b => a.1 < b.1)) :
    ((insertEntry k v l).map w).sum + ((lookupEntry k l).map fun old => w (k, old)).getD 0 =
      (l.map w).sum + w (k, v) := by
  induction l with
  | nil => simp [insertEntry, lookupEntry]
  | cons e rest ih =>
    obtain ⟨k', v'⟩ := e
    have hs' := List.pairwise_cons.mp hs
    rw [insertEntry, lookupEntry]
    rcases lt_trichotomy k k' with hlt | rfl | hgt
    · have hnone : lookupEntry k rest = none :=
        lookupEntry_eq_none_of_forall_ne fun e he => (hlt.trans (hs'.1 e he)).ne'
      rw [if_pos hlt, if_neg hlt.ne, hnone, List.map_cons, List.sum_cons, Option.map_none,
        Option.getD_none, Nat.add_zero, Nat.add_comm]
    · rw [if_neg (lt_irrefl k), if_pos rfl, if_pos rfl, Option.map_some, Option.getD_some,
        List.map_cons, List.map_cons, List.sum_cons, List.sum_cons]
      omega
    · rw [if_neg hgt.not_gt, if_neg hgt.ne', if_neg hgt.ne', List.map_cons, List.map_cons,
        List.sum_cons, List.sum_cons, Nat.add_assoc, ih hs'.2, Nat.add_assoc]

theorem insertEntry_ne_nil (k : K) (v : V) (l : List (K × V)) : insertEntry k v l ≠ [] := by
  cases l with
  | nil => simp [insertEntry]
  | cons e rest =>
    rw [insertEntry]
    split_ifs <;> simp

/-- Sorted entry lists with the same lookups are the same list. -/
theorem entries_eq_of_lookupEntry {l₁ l₂ : List (K × V)}
    (h₁ : l₁.Pairwise (fun a b => a.1 < b.1)) (h₂ : l₂.Pairwise (fun a b => a.1 < b.1))
    (h : ∀ k, lookupEntry k l₁ = lookupEntry k l₂) : l₁ = l₂ := by
  induction l₁ generalizing l₂ with
  | nil =>
    cases l₂ with
    | nil => rfl
    | cons e rest =>
      obtain ⟨k, v⟩ := e
      have := h k
      simp [lookupEntry] at this
  | cons e rest ih =>
    obtain ⟨k, v⟩ := e
    cases l₂ with
    | nil =>
      have := h k
      simp [lookupEntry] at this
    | cons e' rest' =>
      obtain ⟨k', v'⟩ := e'
      rw [List.pairwise_cons] at h₁ h₂
      have hle : ∀ q ∈ rest, q.1 ≠ k := fun q hq => (h₁.1 q hq).ne'
      have hle' : ∀ q ∈ rest', q.1 ≠ k' := fun q hq => (h₂.1 q hq).ne'
      -- the least keys agree, since each least key is bound on the other side
      have hkk : k = k' := by
        by_contra hne
        have hk : lookupEntry k rest' = some v := by
          have hq := h k
          rwa [lookupEntry, if_pos rfl, lookupEntry, if_neg hne, eq_comm] at hq
        have hk' : lookupEntry k' rest = some v' := by
          have hq := h k'
          rwa [lookupEntry, if_neg (Ne.symm hne), lookupEntry, if_pos rfl] at hq
        have hlt : k' < k := h₂.1 _ (mem_of_lookupEntry hk)
        have hlt' : k < k' := h₁.1 _ (mem_of_lookupEntry hk')
        exact absurd hlt hlt'.not_gt
      subst hkk
      have hv : v = v' := by
        have hq := h k
        rw [lookupEntry, if_pos rfl, lookupEntry, if_pos rfl] at hq
        exact Option.some.inj hq
      subst hv
      have hrest : rest = rest' := by
        refine ih h₁.2 h₂.2 fun q => ?_
        by_cases hq : q = k
        · subst hq
          rw [lookupEntry_eq_none_of_forall_ne hle, lookupEntry_eq_none_of_forall_ne hle']
        · have hq' := h q
          rwa [lookupEntry, if_neg hq, lookupEntry, if_neg hq] at hq'
      rw [hrest]

/-! ## Maps -/

instance [DecidableEq V] : DecidableEq (SortedMap K V) := fun a b =>
  decidable_of_iff (a.entries = b.entries) (by cases a; cases b; simp)

def empty : SortedMap K V := ⟨[], List.Pairwise.nil⟩

instance : EmptyCollection (SortedMap K V) := ⟨empty⟩

instance : Inhabited (SortedMap K V) := ⟨∅⟩

def get? (m : SortedMap K V) (k : K) : Option V := lookupEntry k m.entries

def contains (m : SortedMap K V) (k : K) : Bool := (m.get? k).isSome

def insert (m : SortedMap K V) (k : K) (v : V) : SortedMap K V :=
  ⟨insertEntry k v m.entries, insertEntry_sorted k v m.sorted⟩

/-- Keep the entries that satisfy `p`. -/
def filter (m : SortedMap K V) (p : K → V → Bool) : SortedMap K V :=
  ⟨m.entries.filter fun e => p e.1 e.2, m.sorted.filter _⟩

def erase (m : SortedMap K V) (k : K) : SortedMap K V := m.filter fun k' _ => k' ≠ k

/-- `BTreeMap::pop_first`: the entry with the least key, and the map without it. -/
def popFirst? (m : SortedMap K V) : Option ((K × V) × SortedMap K V) :=
  match m with
  | ⟨[], _⟩ => none
  | ⟨entry :: rest, sorted⟩ => some (entry, ⟨rest, sorted.of_cons⟩)

/-- Replace every value, keeping its key. -/
def mapValues (m : SortedMap K V) (f : K → V → W) : SortedMap K W :=
  ⟨m.entries.map fun e => (e.1, f e.1 e.2), List.pairwise_map.mpr m.sorted⟩

def keys (m : SortedMap K V) : List K := m.entries.map Prod.fst

/-- Collect pairs into a map; the last value of a repeated key wins. -/
def ofList (l : List (K × V)) : SortedMap K V := l.foldl (fun m e => m.insert e.1 e.2) ∅

@[ext]
theorem ext {m₁ m₂ : SortedMap K V} (h : ∀ k, m₁.get? k = m₂.get? k) : m₁ = m₂ := by
  obtain ⟨l₁, h₁⟩ := m₁
  obtain ⟨l₂, h₂⟩ := m₂
  have := entries_eq_of_lookupEntry h₁ h₂ h
  subst this
  rfl

theorem mem_entries_iff {m : SortedMap K V} {k : K} {v : V} :
    (k, v) ∈ m.entries ↔ m.get? k = some v :=
  ⟨lookupEntry_of_mem m.sorted, mem_of_lookupEntry⟩

@[simp]
theorem get?_empty (k : K) : (∅ : SortedMap K V).get? k = none := rfl

@[simp]
theorem get?_insert (m : SortedMap K V) (k q : K) (v : V) :
    (m.insert k v).get? q = if q = k then some v else m.get? q :=
  lookupEntry_insertEntry k q v m.entries

theorem length_insert {m : SortedMap K V} {k : K} (v : V) (h : m.get? k = none) :
    (m.insert k v).entries.length = m.entries.length + 1 :=
  length_insertEntry v h

theorem sum_insert (m : SortedMap K V) (k : K) (v : V) (w : K × V → ℕ) :
    ((m.insert k v).entries.map w).sum + ((m.get? k).map fun old => w (k, old)).getD 0 =
      (m.entries.map w).sum + w (k, v) :=
  sum_insertEntry w m.sorted

@[simp]
theorem get?_filter (m : SortedMap K V) (p : K → V → Bool) (q : K) :
    (m.filter p).get? q = (m.get? q).filter (p q) := by
  apply Option.ext
  intro v
  rw [Option.filter_eq_some_iff, ← mem_entries_iff, ← mem_entries_iff]
  simp [filter]

@[simp]
theorem get?_erase (m : SortedMap K V) (k q : K) :
    (m.erase k).get? q = if q = k then none else m.get? q := by
  rw [erase, get?_filter]
  split_ifs with h <;> cases m.get? q <;> simp [h]

@[simp]
theorem get?_mapValues (m : SortedMap K V) (f : K → V → W) (q : K) :
    (m.mapValues f).get? q = (m.get? q).map (f q) := by
  apply Option.ext
  intro w
  rw [← mem_entries_iff, Option.map_eq_some_iff]
  simp only [mapValues, List.mem_map, Prod.mk.injEq, Prod.exists]
  constructor
  · rintro ⟨k, v, hmem, rfl, rfl⟩
    exact ⟨v, mem_entries_iff.mp hmem, rfl⟩
  · rintro ⟨v, hv, rfl⟩
    exact ⟨q, v, mem_entries_iff.mpr hv, rfl, rfl⟩

@[simp]
theorem contains_iff {m : SortedMap K V} {k : K} :
    m.contains k = true ↔ ∃ v, m.get? k = some v := by
  rw [contains, Option.isSome_iff_exists]

@[simp]
theorem mem_keys {m : SortedMap K V} {k : K} : k ∈ m.keys ↔ ∃ v, m.get? k = some v := by
  simp [keys, mem_entries_iff]

theorem keys_nodup (m : SortedMap K V) : m.keys.Nodup := by
  rw [keys, List.Nodup, List.pairwise_map]
  exact m.sorted.imp fun h => h.ne

theorem popFirst?_eq_none {m : SortedMap K V} : m.popFirst? = none ↔ ∀ k, m.get? k = none := by
  obtain ⟨_ | ⟨entry, rest⟩, sorted⟩ := m
  · simp [popFirst?, get?, lookupEntry]
  · simp only [popFirst?, reduceCtorEq, false_iff, not_forall]
    exact ⟨entry.1, by simp [get?, lookupEntry]⟩

/-- What is popped is in the map, has the least key, and is all that the rest lacks. -/
theorem popFirst?_eq_some {m rest : SortedMap K V} {k : K} {v : V}
    (h : m.popFirst? = some ((k, v), rest)) :
    m.get? k = some v ∧ rest = m.erase k ∧ ∀ q w, m.get? q = some w → k ≤ q := by
  obtain ⟨_ | ⟨entry, tail⟩, sorted⟩ := m
  · cases h
  obtain ⟨rfl, rfl⟩ : entry = (k, v) ∧ (⟨tail, sorted.of_cons⟩ : SortedMap K V) = rest := by
    simpa [popFirst?] using h
  have hlt : ∀ e ∈ tail, k < e.1 := (List.pairwise_cons.mp sorted).1
  refine ⟨by simp [get?, lookupEntry], ?_, ?_⟩
  · ext1 q
    rw [get?_erase]
    split_ifs with hq
    · exact lookupEntry_eq_none_of_forall_ne fun e he => hq ▸ (hlt e he).ne'
    · simp [get?, lookupEntry, hq]
  · intro q w hq
    rcases List.mem_cons.mp (mem_entries_iff.mpr hq) with heq | hmem
    · rw [Prod.mk.injEq] at heq
      exact heq.1.ge
    · exact (hlt _ hmem).le

theorem get?_foldl_insert (l : List (K × V)) (m : SortedMap K V) (q : K)
    (hq : ∀ e ∈ l, e.1 ≠ q) : (l.foldl (fun m e => m.insert e.1 e.2) m).get? q = m.get? q := by
  induction l generalizing m with
  | nil => rfl
  | cons e rest ih =>
    have hne : q ≠ e.1 := (hq e (by simp)).symm
    rw [List.foldl_cons, ih _ fun e' he' => hq e' (by simp [he']), get?_insert, if_neg hne]

/-- Collecting pairs with distinct keys keeps them all. -/
theorem get?_ofList {l : List (K × V)} (hl : (l.map Prod.fst).Nodup) {k : K} {v : V} :
    (ofList l).get? k = some v ↔ (k, v) ∈ l := by
  suffices h : ∀ m : SortedMap K V, (∀ e ∈ l, m.get? e.1 = none) →
      ((l.foldl (fun m e => m.insert e.1 e.2) m).get? k = some v ↔
        (k, v) ∈ l ∨ m.get? k = some v) by
    simpa [ofList] using h ∅ (by simp)
  induction l with
  | nil => simp
  | cons e rest ih =>
    obtain ⟨k', v'⟩ := e
    intro m hm
    simp only [List.map_cons, List.nodup_cons, List.mem_map, Prod.exists, exists_and_right,
      exists_eq_right, not_exists] at hl
    have hrest : ∀ e ∈ rest, (m.insert k' v').get? e.1 = none := by
      intro e he
      have hne : e.1 ≠ k' := by
        rintro rfl
        exact hl.1 e.2 he
      rw [get?_insert, if_neg hne]
      exact hm e (by simp [he])
    rw [List.foldl_cons, ih hl.2 _ hrest, get?_insert]
    have hk' : m.get? k' = none := hm (k', v') (by simp)
    by_cases hk : k = k'
    · subst hk
      have hnot : (k, v) ∉ rest := hl.1 v
      simp only [if_pos, hk', List.mem_cons, hnot, Prod.mk.injEq, true_and, Option.some.injEq,
        reduceCtorEq, or_false, false_or]
      exact eq_comm
    · simp [hk]

section Assign

variable {C : Type*} {f : SortedMap K V → C → SortedMap K V} {key : C → K}
  {v : C → Option V → Option V}

/-- A fold of assignments leaves the other keys as they are. -/
theorem get?_foldl_of_ne (hother : ∀ m c q, q ≠ key c → (f m c).get? q = m.get? q) {l : List C}
    {q : K} (hq : ∀ c ∈ l, key c ≠ q) (m : SortedMap K V) : (l.foldl f m).get? q = m.get? q := by
  induction l generalizing m with
  | nil => rfl
  | cons c l ih =>
    rw [List.foldl_cons, ih fun c' hc' => hq c' (List.mem_cons_of_mem c hc'),
      hother m c q (Ne.symm (hq c List.mem_cons_self))]

/-- A fold of assignments to distinct keys makes each of them. -/
theorem get?_foldl_of_mem (hself : ∀ m c, (f m c).get? (key c) = v c (m.get? (key c)))
    (hother : ∀ m c q, q ≠ key c → (f m c).get? q = m.get? q) {l : List C}
    (hnodup : (l.map key).Nodup) {c : C} (hc : c ∈ l) (m : SortedMap K V) :
    (l.foldl f m).get? (key c) = v c (m.get? (key c)) := by
  induction l generalizing m with
  | nil => cases hc
  | cons first l ih =>
    rw [List.map_cons, List.nodup_cons] at hnodup
    rw [List.foldl_cons]
    rcases List.mem_cons.mp hc with rfl | hc
    · have hne : ∀ c' ∈ l, key c' ≠ key c := fun c' hc' heq =>
        hnodup.1 (List.mem_map.mpr ⟨c', hc', heq⟩)
      rw [get?_foldl_of_ne hother hne, hself]
    · have hne : key c ≠ key first := fun heq => hnodup.1 (List.mem_map.mpr ⟨c, hc, heq⟩)
      rw [ih hnodup.2 hc, hother m first _ hne]

end Assign

end SortedMap

/-! ## Sets -/

/-- A finite set, listed in strictly increasing order. -/
abbrev SortedSet (K : Type*) [LinearOrder K] := SortedMap K Unit

namespace SortedSet

variable {K : Type*} [LinearOrder K]

def ofList (l : List K) : SortedSet K := SortedMap.ofList (l.map fun k => (k, ()))

/-- The elements in increasing order. -/
def toList (s : SortedSet K) : List K := s.keys

theorem mem_foldl_insert {l : List K} {s : SortedSet K} {k : K} :
    k ∈ ((l.map fun k => (k, ())).foldl (fun m e => m.insert e.1 e.2) s).keys ↔
      k ∈ l ∨ k ∈ s.keys := by
  induction l generalizing s with
  | nil => simp
  | cons a rest ih =>
    rw [List.map_cons, List.foldl_cons, ih]
    simp only [SortedMap.mem_keys, SortedMap.get?_insert, List.mem_cons]
    by_cases hk : k = a <;> simp [hk]

@[simp]
theorem mem_toList_ofList {l : List K} {k : K} : k ∈ (ofList l).toList ↔ k ∈ l := by
  rw [ofList, toList, SortedMap.ofList, mem_foldl_insert]
  simp [SortedMap.keys, EmptyCollection.emptyCollection, SortedMap.empty]

theorem contains_iff_mem_toList {s : SortedSet K} {k : K} : s.contains k = true ↔ k ∈ s.toList := by
  rw [toList, SortedMap.contains_iff, SortedMap.mem_keys]

theorem length_toList_ofList {l : List K} (h : l.Nodup) : (ofList l).toList.length = l.length :=
  ((List.perm_ext_iff_of_nodup (SortedMap.keys_nodup _) h).mpr fun _ => mem_toList_ofList).length_eq

end SortedSet

import Mathlib.Data.Int.Interval
import Mathlib.Data.List.Basic
import Mathlib.Order.ConditionallyCompleteLattice.Basic
import Mathlib.Tactic

/-! # The edit graph of two lists

A path through the edit graph of two lists starts at the origin; it moves right (a deletion), down
(an insertion) or, where the lists agree, diagonally. `Reaches d x y` says that a path with `d`
edits ends at `(x, y)`. Edits may leave the grid, diagonal moves may not. `editDistance` is the
least number of edits of a script between the two lists.
-/

namespace EditGraph

variable {α : Type*} {old new : List α} {d x y : ℕ} {k s e : ℤ}

/-! ## Scripts -/

/-- A script that keeps, deletes and inserts, with the number of its deletions and insertions. -/
inductive Edits : ℕ → List α → List α → Prop
  | nil : Edits 0 [] []
  | keep {d : ℕ} {old new : List α} (a : α) : Edits d old new → Edits d (a :: old) (a :: new)
  | delete {d : ℕ} {old new : List α} (a : α) : Edits d old new → Edits (d + 1) (a :: old) new
  | insert {d : ℕ} {old new : List α} (a : α) : Edits d old new → Edits (d + 1) old (a :: new)

/-- The fewest insertions and deletions that turn one list into the other. -/
noncomputable def editDistance (old new : List α) : ℕ := sInf {d | Edits d old new}

theorem edits_delete_all (old : List α) : Edits old.length old [] := by
  induction old with
  | nil => exact .nil
  | cons a old ih => exact .delete a ih

theorem edits_delete_insert (old new : List α) : Edits (old.length + new.length) old new := by
  induction new with
  | nil => exact edits_delete_all old
  | cons a new ih => exact .insert a ih

theorem edits_editDistance (old new : List α) : Edits (editDistance old new) old new :=
  Nat.sInf_mem (s := {d | Edits d old new}) ⟨_, edits_delete_insert old new⟩

theorem editDistance_le (h : Edits d old new) : editDistance old new ≤ d := Nat.sInf_le h

theorem editDistance_le_length (old new : List α) :
    editDistance old new ≤ old.length + new.length :=
  editDistance_le (edits_delete_insert old new)

theorem Edits.snoc_keep (h : Edits d old new) (a : α) : Edits d (old ++ [a]) (new ++ [a]) := by
  induction h with
  | nil => exact .keep a .nil
  | keep b _ ih => exact .keep b ih
  | delete b _ ih => exact .delete b ih
  | insert b _ ih => exact .insert b ih

theorem Edits.snoc_delete (h : Edits d old new) (a : α) : Edits (d + 1) (old ++ [a]) new := by
  induction h with
  | nil => exact .delete a .nil
  | keep b _ ih => exact .keep b ih
  | delete b _ ih => exact .delete b ih
  | insert b _ ih => exact .insert b ih

theorem Edits.snoc_insert (h : Edits d old new) (a : α) : Edits (d + 1) old (new ++ [a]) := by
  induction h with
  | nil => exact .insert a .nil
  | keep b _ ih => exact .keep b ih
  | delete b _ ih => exact .delete b ih
  | insert b _ ih => exact .insert b ih

/-! ## Paths -/

/-- The two lists agree at these positions. -/
def Matches (old new : List α) (x y : ℕ) : Prop := ∃ a, old[x]? = some a ∧ new[y]? = some a

theorem Matches.lt_left (h : Matches old new x y) : x < old.length := by
  obtain ⟨a, ha, -⟩ := h
  exact (List.getElem?_eq_some_iff.mp ha).1

theorem Matches.lt_right (h : Matches old new x y) : y < new.length := by
  obtain ⟨a, -, ha⟩ := h
  exact (List.getElem?_eq_some_iff.mp ha).1

/-- A path with `d` edits from the origin ends at `(x, y)`. -/
inductive Reaches (old new : List α) : ℕ → ℕ → ℕ → Prop
  | start : Reaches old new 0 0 0
  | right {d x y : ℕ} : Reaches old new d x y → Reaches old new (d + 1) (x + 1) y
  | down {d x y : ℕ} : Reaches old new d x y → Reaches old new (d + 1) x (y + 1)
  | diagonal {d x y : ℕ} : Reaches old new d x y → Matches old new x y →
      Reaches old new d (x + 1) (y + 1)

theorem Reaches.right_add (h : Reaches old new d x y) (c : ℕ) :
    Reaches old new (d + c) (x + c) y := by
  induction c with
  | zero => exact h
  | succ c ih => exact ih.right

theorem Reaches.down_add (h : Reaches old new d x y) (c : ℕ) :
    Reaches old new (d + c) x (y + c) := by
  induction c with
  | zero => exact h
  | succ c ih => exact ih.down

theorem Reaches.diagonal_add (h : Reaches old new d x y) {c : ℕ}
    (hc : ∀ t < c, Matches old new (x + t) (y + t)) : Reaches old new d (x + c) (y + c) := by
  induction c with
  | zero => exact h
  | succ c ih => exact (ih fun t ht => hc t (by omega)).diagonal (hc c (by omega))

/-- A path never leaves the diagonals that its number of edits allows. -/
theorem Reaches.diagonal_bounds (h : Reaches old new d x y) :
    x ≤ y + d ∧ y ≤ x + d ∧ (x + y + d) % 2 = 0 := by
  induction h with
  | start => omega
  | right _ ih => omega
  | down _ ih => omega
  | diagonal _ _ ih => omega

/-- A path beyond the far corner passes the corner with as many edits less as it lies beyond. -/
theorem Reaches.clip (h : Reaches old new d x y) :
    ∃ d', Reaches old new d' (min x old.length) (min y new.length) ∧
      d' + (x - old.length) + (y - new.length) ≤ d := by
  induction h with
  | start => exact ⟨0, by simpa using .start, by omega⟩
  | @right d x y _ ih =>
    obtain ⟨d', hreach, hle⟩ := ih
    by_cases hx : x < old.length
    · refine ⟨d' + 1, ?_, by omega⟩
      rw [min_eq_left (by omega)] at hreach ⊢
      exact hreach.right
    · refine ⟨d', ?_, by omega⟩
      rw [min_eq_right (by omega)] at hreach ⊢
      exact hreach
  | @down d x y _ ih =>
    obtain ⟨d', hreach, hle⟩ := ih
    by_cases hy : y < new.length
    · refine ⟨d' + 1, ?_, by omega⟩
      rw [min_eq_left (b := new.length) (by omega)] at hreach ⊢
      exact hreach.down
    · refine ⟨d', ?_, by omega⟩
      rw [min_eq_right (b := new.length) (by omega)] at hreach ⊢
      exact hreach
  | @diagonal d x y _ hmatch ih =>
    obtain ⟨d', hreach, hle⟩ := ih
    have hx := hmatch.lt_left
    have hy := hmatch.lt_right
    refine ⟨d', ?_, by omega⟩
    rw [min_eq_left (by omega), min_eq_left (by omega)] at hreach ⊢
    exact hreach.diagonal hmatch

/-! ## Paths and scripts -/

theorem edits_take_of_reaches (h : Reaches old new d x y) (hx : x ≤ old.length)
    (hy : y ≤ new.length) : Edits d (old.take x) (new.take y) := by
  induction h with
  | start => exact .nil
  | @right d x y _ ih =>
    rw [List.take_add_one, List.getElem?_eq_getElem (by omega)]
    exact (ih (by omega) hy).snoc_delete _
  | @down d x y _ ih =>
    rw [List.take_add_one (l := new), List.getElem?_eq_getElem (by omega)]
    exact (ih hx (by omega)).snoc_insert _
  | @diagonal d x y _ hmatch ih =>
    obtain ⟨a, hold, hnew⟩ := hmatch
    rw [List.take_add_one, List.take_add_one, hold, hnew]
    exact (ih (by omega) (by omega)).snoc_keep a

theorem reaches_of_edits {d' : ℕ} {rest rest' : List α} (h : Edits d' rest rest')
    (hreach : Reaches old new d x y) (hold : old.drop x = rest) (hnew : new.drop y = rest') :
    Reaches old new (d + d') (x + rest.length) (y + rest'.length) := by
  have hdrop : ∀ {l : List α} {i : ℕ} {a : α} {l' : List α}, l.drop i = a :: l' →
      l[i]? = some a ∧ l.drop (i + 1) = l' := by
    intro l i a l' hl
    constructor
    · rw [← List.head?_drop, hl]
      rfl
    · rw [← List.tail_drop, hl]
      rfl
  induction h generalizing d x y with
  | nil => exact hreach
  | keep a _ ih =>
    obtain ⟨ha, hold⟩ := hdrop hold
    obtain ⟨ha', hnew⟩ := hdrop hnew
    have := ih (hreach.diagonal ⟨a, ha, ha'⟩) hold hnew
    rwa [Nat.add_right_comm x, Nat.add_right_comm y] at this
  | @delete d'' _ _ a _ ih =>
    have := ih hreach.right (hdrop hold).2 hnew
    rwa [Nat.add_right_comm x, Nat.add_assoc d, Nat.add_comm 1] at this
  | @insert d'' _ _ a _ ih =>
    have := ih hreach.down hold (hdrop hnew).2
    rwa [Nat.add_right_comm y, Nat.add_assoc d, Nat.add_comm 1] at this

/-- The paths to the far corner are the scripts. -/
theorem reaches_length_iff : Reaches old new d old.length new.length ↔ Edits d old new := by
  constructor
  · intro h
    have := edits_take_of_reaches h le_rfl le_rfl
    rwa [List.take_length, List.take_length] at this
  · intro h
    have := reaches_of_edits h (.start : Reaches old new 0 0 0) rfl rfl
    simpa using this

/-- A path to the corner or beyond bounds the edit distance. -/
theorem editDistance_add_le (h : Reaches old new d x y) (hx : old.length ≤ x)
    (hy : new.length ≤ y) :
    editDistance old new + (x - old.length) + (y - new.length) ≤ d := by
  obtain ⟨d', hreach, hle⟩ := h.clip
  rw [min_eq_right hx, min_eq_right hy, reaches_length_iff] at hreach
  have := editDistance_le hreach
  omega

/-! ## Alignments -/

/-- Pairs of agreeing positions that strictly increase in both lists. -/
structure Alignment (old new : List α) (pairs : List (ℕ × ℕ)) : Prop where
  increasing : pairs.Pairwise fun p q => p.1 < q.1 ∧ p.2 < q.2
  agree : ∀ p ∈ pairs, Matches old new p.1 p.2

theorem Alignment.nil : Alignment old new [] := ⟨List.Pairwise.nil, by simp⟩

/-- An alignment grows at its front by an agreeing pair before all others. -/
theorem Alignment.cons {pairs : List (ℕ × ℕ)} (h : Alignment old new pairs)
    (hmatch : Matches old new x y) (hbefore : ∀ p ∈ pairs, x < p.1 ∧ y < p.2) :
    Alignment old new ((x, y) :: pairs) where
  increasing := List.pairwise_cons.mpr ⟨hbefore, h.increasing⟩
  agree := by
    intro p hp
    rcases List.mem_cons.mp hp with rfl | hp
    · exact hmatch
    · exact h.agree p hp

/-- Two alignments join if all pairs of the first are before all pairs of the second. -/
theorem Alignment.append {pairs pairs' : List (ℕ × ℕ)} (h : Alignment old new pairs)
    (h' : Alignment old new pairs')
    (hbefore : ∀ p ∈ pairs, ∀ q ∈ pairs', p.1 < q.1 ∧ p.2 < q.2) :
    Alignment old new (pairs ++ pairs') where
  increasing := List.pairwise_append.mpr ⟨h.increasing, h'.increasing, hbefore⟩
  agree := by
    intro p hp
    rcases List.mem_append.mp hp with hp | hp
    · exact h.agree p hp
    · exact h'.agree p hp

/-- Two pairs of an alignment are in the same order in both lists. -/
theorem Alignment.lt_of_lt {pairs : List (ℕ × ℕ)} (h : Alignment old new pairs) {p q : ℕ × ℕ}
    (hp : p ∈ pairs) (hq : q ∈ pairs) (hlt : p.1 < q.1) : p.2 < q.2 := by
  obtain ⟨i, hi, rfl⟩ := List.getElem_of_mem hp
  obtain ⟨j, hj, rfl⟩ := List.getElem_of_mem hq
  have hordered := List.pairwise_iff_getElem.mp h.increasing
  rcases lt_trichotomy i j with hij | rfl | hij
  · exact (hordered i j hi hj hij).2
  · omega
  · have := (hordered j i hj hi hij).1
    omega

/-- An alignment below a point is a path to it: what is not paired is edited. -/
theorem Alignment.reaches {pairs : List (ℕ × ℕ)} (h : Alignment old new pairs)
    (hbelow : ∀ p ∈ pairs, p.1 < x ∧ p.2 < y) :
    ∃ d, Reaches old new d x y ∧ d + 2 * pairs.length = x + y := by
  induction pairs using List.reverseRecOn generalizing x y with
  | nil =>
    refine ⟨x + y, ?_, by simp⟩
    have := ((Reaches.start : Reaches old new 0 0 0).right_add x).down_add y
    simpa using this
  | append_singleton pairs p ih =>
    obtain ⟨i, j⟩ := p
    obtain ⟨hpairs, -, hlast⟩ := List.pairwise_append.mp h.increasing
    have hinit : Alignment old new pairs := ⟨hpairs, fun p hp => h.agree p (by simp [hp])⟩
    obtain ⟨d, hreach, hd⟩ := ih (x := i) (y := j) hinit fun p hp => hlast p hp (i, j) (by simp)
    obtain ⟨hi, hj⟩ := hbelow (i, j) (by simp)
    have hcorner := ((hreach.diagonal (h.agree (i, j) (by simp))).right_add (x - (i + 1))).down_add
      (y - (j + 1))
    rw [Nat.add_sub_cancel' (by omega), Nat.add_sub_cancel' (by omega)] at hcorner
    refine ⟨_, hcorner, ?_⟩
    simp only [List.length_append, List.length_singleton]
    simp only at hi hj
    omega

/-- No alignment pairs more than the edit distance leaves. -/
theorem Alignment.length_le {pairs : List (ℕ × ℕ)} (h : Alignment old new pairs) :
    editDistance old new + 2 * pairs.length ≤ old.length + new.length := by
  obtain ⟨d, hreach, hd⟩ := h.reaches fun p hp =>
    ⟨(h.agree p hp).lt_left, (h.agree p hp).lt_right⟩
  have := editDistance_le (reaches_length_iff.mp hreach)
  omega

/-! ## Furthest points

On each diagonal `x - y = k` the paths with `d` edits end at points of one line; the furthest of
them decides what one more edit can reach. -/

/-- `x` is where the furthest path with `d` edits on diagonal `k` ends. -/
structure IsFurthest (old new : List α) (d : ℕ) (k x : ℤ) : Prop where
  reached : ∃ i j : ℕ, x = i ∧ x - k = j ∧ Reaches old new d i j
  furthest : ∀ i j : ℕ, Reaches old new d i j → (i : ℤ) - j = k → (i : ℤ) ≤ x

/-- `s` is where paths with `d` edits enter diagonal `k` at the latest: one does there, and from
there on every path that goes further follows agreeing positions. -/
structure Enters (old new : List α) (d : ℕ) (k s : ℤ) : Prop where
  reached : ∃ i j : ℕ, s = i ∧ s - k = j ∧ Reaches old new d i j
  follows : ∀ i j : ℕ, Reaches old new d i j → (i : ℤ) - j = k →
    ∀ t u : ℕ, s ≤ t → t < i → (t : ℤ) - u = k → Matches old new t u

/-- Without edits a path enters the main diagonal at the origin. -/
theorem enters_zero : Enters old new 0 0 0 where
  reached := ⟨0, 0, rfl, rfl, .start⟩
  follows := by
    intro i j h
    -- only diagonal moves are free, so every position passed agrees
    generalize hd : 0 = d at h
    induction h with
    | start => omega
    | right => omega
    | down => omega
    | @diagonal d i j _ hmatch ih =>
      intro hij t u hs ht htu
      by_cases hlast : t = i
      · have hu : u = j := by omega
        rwa [hlast, hu]
      · exact ih hd (by omega) t u hs (by omega) htu

/-- One more edit enters a diagonal from the furthest points of its two neighbours. -/
theorem enters_succ (hreached : ∃ i j : ℕ, s = i ∧ s - k = j ∧ Reaches old new (d + 1) i j)
    (hright : ∀ i j : ℕ, Reaches old new d i j → (i : ℤ) - j = k - 1 → (i : ℤ) + 1 ≤ s)
    (hdown : ∀ i j : ℕ, Reaches old new d i j → (i : ℤ) - j = k + 1 → (i : ℤ) ≤ s) :
    Enters old new (d + 1) k s where
  reached := hreached
  follows := by
    intro i j h
    generalize hd : d + 1 = d' at h
    induction h with
    | start => omega
    | @right d' i j h _ =>
      obtain rfl : d = d' := by omega
      intro hij t u hs ht
      have := hright i j h (by omega)
      omega
    | @down d' i j h _ =>
      obtain rfl : d = d' := by omega
      intro hij t u hs ht
      have := hdown i j h (by omega)
      omega
    | @diagonal d' i j _ hmatch ih =>
      intro hij t u hs ht htu
      by_cases hlast : t = i
      · have hu : u = j := by omega
        rwa [hlast, hu]
      · exact ih hd (by omega) t u hs (by omega) htu

/-- Following the agreeing positions from the entry to their end reaches the furthest point. -/
theorem Enters.isFurthest (h : Enters old new d k s) {c : ℕ} {i j : ℕ} (hs : s = i)
    (hk : s - k = j) (hagree : ∀ t < c, Matches old new (i + t) (j + t))
    (hend : ¬ Matches old new (i + c) (j + c)) : IsFurthest old new d k (s + c) where
  reached := by
    obtain ⟨i', j', hi', hj', hreach⟩ := h.reached
    obtain rfl : i = i' := by omega
    obtain rfl : j = j' := by omega
    exact ⟨i + c, j + c, by omega, by omega, hreach.diagonal_add hagree⟩
  furthest := by
    intro i' j' hreach hij
    by_contra hlt
    exact hend (h.follows i' j' hreach hij (i + c) (j + c) (by omega) (by omega) (by omega))

/-- From the entry to the furthest point the positions agree. -/
theorem Enters.matches_of_lt (h : Enters old new d k s) (hx : IsFurthest old new d k e) :
    s ≤ e ∧ ∀ t u : ℕ, s ≤ t → t < e → (t : ℤ) - u = k → Matches old new t u := by
  obtain ⟨i, j, hi, hj, hreach⟩ := h.reached
  obtain ⟨i', j', hi', hj', hreach'⟩ := hx.reached
  have hle := hx.furthest i j hreach (by omega)
  refine ⟨by omega, fun t u hs ht htu => ?_⟩
  exact h.follows i' j' hreach' (by omega) t u hs (by omega) htu

/-! ## One depth after the other

The greedy search keeps one value for each diagonal. Before it visits depth `d` the values of the
diagonals with the other parity are the furthest points of depth `d - 1`; the first depth is entered
from a point above the origin. -/

/-- The values from which the diagonals of depth `d` are entered. -/
def Entries (old new : List α) : ℕ → (ℤ → ℤ) → Prop
  | 0, f => f 1 = 0
  | d + 1, f => ∀ k : ℤ, -d ≤ k → k ≤ d → (k + d) % 2 = 0 → IsFurthest old new d k (f k)

/-- Whether the path comes down from the diagonal above, and not from the left. -/
def FromAbove (f : ℤ → ℤ) (depth k : ℤ) : Prop :=
  k = -depth ∨ (k ≠ depth ∧ f (k - 1) < f (k + 1))

instance (f : ℤ → ℤ) (depth k : ℤ) : Decidable (FromAbove f depth k) :=
  inferInstanceAs (Decidable (_ ∨ _))

/-- Where the greedy search enters a diagonal. -/
def entry (f : ℤ → ℤ) (depth k : ℤ) : ℤ :=
  if FromAbove f depth k then f (k + 1) else f (k - 1) + 1

theorem Entries.entry_zero {f : ℤ → ℤ} (h : Entries old new 0 f) : entry f 0 0 = 0 := by
  rw [entry, if_pos (.inl rfl)]
  exact h

theorem Entries.enters {f : ℤ → ℤ} (h : Entries old new d f) (hlow : -d ≤ k) (hhigh : k ≤ d)
    (hparity : (k + d) % 2 = 0) : Enters old new d k (entry f d k) := by
  cases d with
  | zero =>
    obtain rfl : k = 0 := by omega
    change Enters old new 0 0 (entry f 0 0)
    rw [h.entry_zero]
    exact enters_zero
  | succ d =>
    push_cast at hlow hhigh hparity ⊢
    -- a neighbour outside the diagonals of depth `d` is never reached
    have hleft : ∀ i j : ℕ, Reaches old new d i j → (i : ℤ) - j = k - 1 →
        k ≠ -(d + 1) ∧ (i : ℤ) ≤ f (k - 1) := by
      intro i j hreach hij
      have := hreach.diagonal_bounds
      exact ⟨by omega, (h (k - 1) (by omega) (by omega) (by omega)).furthest i j hreach hij⟩
    have habove : ∀ i j : ℕ, Reaches old new d i j → (i : ℤ) - j = k + 1 →
        k ≠ d + 1 ∧ (i : ℤ) ≤ f (k + 1) := by
      intro i j hreach hij
      have := hreach.diagonal_bounds
      exact ⟨by omega, (h (k + 1) (by omega) (by omega) (by omega)).furthest i j hreach hij⟩
    by_cases hfrom : FromAbove f (d + 1) k
    · rw [entry, if_pos hfrom]
      unfold FromAbove at hfrom
      obtain ⟨i, j, hi, hj, hreach⟩ := (h (k + 1) (by omega) (by omega) (by omega)).reached
      refine enters_succ ⟨i, j + 1, hi, by push_cast; omega, hreach.down⟩ ?_ ?_
      · intro i' j' hreach' hij
        have := hleft i' j' hreach' hij
        omega
      · intro i' j' hreach' hij
        exact (habove i' j' hreach' hij).2
    · rw [entry, if_neg hfrom]
      unfold FromAbove at hfrom
      obtain ⟨i, j, hi, hj, hreach⟩ := (h (k - 1) (by omega) (by omega) (by omega)).reached
      refine enters_succ ⟨i + 1, j, by push_cast; omega, by omega, hreach.right⟩ ?_ ?_
      · intro i' j' hreach' hij
        have := hleft i' j' hreach' hij
        omega
      · intro i' j' hreach' hij
        have := habove i' j' hreach' hij
        omega

/-- Only the diagonals next to those of a depth matter. -/
theorem Entries.congr {f g : ℤ → ℤ} (h : Entries old new d f)
    (heq : ∀ k : ℤ, -(d : ℤ) - 1 ≤ k → k ≤ d + 1 → g k = f k) : Entries old new d g := by
  cases d with
  | zero => exact (heq 1 (by omega) (by omega)).trans h
  | succ d =>
    intro k hlow hhigh hparity
    rw [heq k (by push_cast; omega) (by push_cast; omega)]
    exact h k hlow hhigh hparity

/-- Writing a diagonal of one depth does not touch what that depth is entered from. -/
theorem Entries.update {f : ℤ → ℤ} (h : Entries old new d f) (hparity : (k + d) % 2 = 0) (x : ℤ) :
    Entries old new d (Function.update f k x) := by
  cases d with
  | zero =>
    change Function.update f k x 1 = 0
    rw [Function.update_of_ne (by omega)]
    exact h
  | succ d =>
    intro k' hlow hhigh hparity'
    rw [Function.update_of_ne (by omega)]
    exact h k' hlow hhigh hparity'

/-- The search that has furthest points on all diagonals of depth `d`, none of them at the far
corner, has not found the edit distance. -/
theorem ne_editDistance_of_isFurthest {f : ℤ → ℤ}
    (h : ∀ k : ℤ, -d ≤ k → k ≤ d → (k + d) % 2 = 0 →
      IsFurthest old new d k (f k) ∧ ¬ ((old.length : ℤ) ≤ f k ∧ (new.length : ℤ) ≤ f k - k)) :
    editDistance old new ≠ d := by
  rintro rfl
  have hreach := reaches_length_iff.mpr (edits_editDistance old new)
  have hbounds := hreach.diagonal_bounds
  obtain ⟨hfurthest, hshort⟩ := h (old.length - new.length) (by omega) (by omega) (by omega)
  have := hfurthest.furthest _ _ hreach rfl
  omega

end EditGraph

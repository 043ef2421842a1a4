import Mathlib.Combinatorics.Colex
import Mathlib.Data.Nat.BitIndices
import Mathlib.Tactic.Linarith
import Mathlib.Tactic.Ring

/-! # Lazy binary counters

A number as a list of exponents `k`, each worth `2 ^ k`. Incrementing appends exponent `0`; a merge
replaces two equal neighbours `k` by `k + 1`. Merging the leftmost pair keeps the list
non-increasing, and a non-increasing list without a pair left is the binary expansion.
-/

namespace BinaryCounter

def value (ks : List ℕ) : ℕ := (ks.map (2 ^ ·)).sum

theorem value_append (ks ls : List ℕ) : value (ks ++ ls) = value ks + value ls := by
  simp [value]

theorem value_merge (pre post : List ℕ) (k : ℕ) :
    value (pre ++ (k + 1) :: post) = value (pre ++ k :: k :: post) := by
  simp only [value, List.map_append, List.map_cons, List.sum_append, List.sum_cons, pow_succ]
  omega

/-- Incrementing keeps the exponents non-increasing. -/
theorem pairwise_push {ks : List ℕ} (h : ks.Pairwise (· ≥ ·)) : (ks ++ [0]).Pairwise (· ≥ ·) := by
  rw [List.pairwise_append]
  exact ⟨h, List.pairwise_singleton _ _, fun a _ b hb => by simp_all⟩

/-- Merging the leftmost pair keeps the exponents non-increasing: no exponent before the pair
equals it, so all of them are larger. -/
theorem pairwise_merge {pre post : List ℕ} {k : ℕ}
    (h : (pre ++ k :: k :: post).Pairwise (· ≥ ·)) (hfirst : ∀ a ∈ pre, a ≠ k) :
    (pre ++ (k + 1) :: post).Pairwise (· ≥ ·) := by
  rw [List.pairwise_append] at h ⊢
  obtain ⟨hpre, htail, hcross⟩ := h
  rw [List.pairwise_cons] at htail
  obtain ⟨hk, htail⟩ := htail
  rw [List.pairwise_cons] at htail
  refine ⟨hpre, List.pairwise_cons.mpr ⟨fun b hb => ?_, htail.2⟩, fun a ha b hb => ?_⟩
  · have := htail.1 b hb
    omega
  · have hak : a ≥ k := hcross a ha k (by simp)
    have hne : a ≠ k := hfirst a ha
    rcases List.mem_cons.mp hb with rfl | hb
    · omega
    · have := htail.1 b hb
      omega

/-- Non-increasing exponents without equal neighbours are strictly decreasing. -/
theorem pairwise_gt {ks : List ℕ} (h : ks.Pairwise (· ≥ ·)) (hne : ks.IsChain (· ≠ ·)) :
    ks.Pairwise (· > ·) := by
  rw [← List.isChain_iff_pairwise] at h ⊢
  induction ks with
  | nil => exact .nil
  | cons a rest ih =>
    cases rest with
    | nil => exact .singleton a
    | cons b rest =>
      rw [List.isChain_cons_cons] at h hne ⊢
      exact ⟨lt_of_le_of_ne h.1 (Ne.symm hne.1), ih h.2 hne.2⟩

/-- Strictly decreasing exponents are the binary expansion of their value. -/
theorem eq_bitIndices {ks : List ℕ} (h : ks.Pairwise (· > ·)) :
    ks = (value ks).bitIndices.reverse := by
  have hsorted : ks.reverse.SortedLT := (List.pairwise_reverse.mpr h).sortedLT
  have hvalue : value ks = (ks.reverse.map (2 ^ ·)).sum := by
    rw [List.map_reverse, List.sum_reverse, value]
  rw [hvalue, Nat.bitIndices_sum_map_two_pow hsorted, List.reverse_reverse]

/-- A strictly decreasing counter below `2 ^ w` has at most `w` exponents. -/
theorem length_le {ks : List ℕ} {w : ℕ} (h : ks.Pairwise (· > ·)) (hvalue : value ks < 2 ^ w) :
    ks.length ≤ w := by
  have hlt : ∀ k ∈ ks, k < w := by
    intro k hk
    have hle : 2 ^ k ≤ value ks := List.single_le_sum (by simp) _ (List.mem_map_of_mem hk)
    exact (Nat.pow_lt_pow_iff_right (by norm_num)).mp (hle.trans_lt hvalue)
  have hnodup : ks.Nodup := h.imp fun hab => (ne_of_lt hab).symm
  have hsub : ks.toFinset ⊆ Finset.range w := fun k hk => by
    simpa using hlt k (by simpa using hk)
  calc ks.length = ks.toFinset.card := (List.toFinset_card_of_nodup hnodup).symm
    _ ≤ (Finset.range w).card := Finset.card_le_card hsub
    _ = w := Finset.card_range w

end BinaryCounter

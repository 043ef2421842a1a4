import Mathlib.Algebra.Ring.Nat
import Mathlib.Data.Nat.Log

/-! # Unsigned 64-bit arithmetic

A `u64` is a natural number at most `maxU64`; the operations that can leave the range are the
checked and saturating ones below.
-/

namespace U64

/-- The largest `u64`. -/
def maxU64 : ℕ := 2 ^ 64 - 1

/-- `u64::checked_add`. -/
def checkedAdd (a b : ℕ) : Option ℕ :=
  if a + b ≤ maxU64 then some (a + b) else none

/-- The largest `u32`. -/
def maxU32 : ℕ := 2 ^ 32 - 1

/-- `u64::checked_sub`. -/
def checkedSub (a b : ℕ) : Option ℕ :=
  if b ≤ a then some (a - b) else none

/-- `u64::checked_mul`. -/
def checkedMul (a b : ℕ) : Option ℕ :=
  if a * b ≤ maxU64 then some (a * b) else none

/-- `u64::saturating_add`. -/
def saturatingAdd (a b : ℕ) : ℕ := min (a + b) maxU64

/-- `u64::is_power_of_two`. -/
def isPowerOfTwo (n : ℕ) : Bool := n == 2 ^ n.log2

@[simp]
theorem checkedAdd_eq_some {a b c : ℕ} : checkedAdd a b = some c ↔ a + b = c ∧ c ≤ maxU64 := by
  simp only [checkedAdd, Option.ite_none_right_eq_some, Option.some.injEq]
  constructor
  · rintro ⟨h, rfl⟩
    exact ⟨rfl, h⟩
  · rintro ⟨rfl, h⟩
    exact ⟨h, rfl⟩

@[simp]
theorem checkedSub_eq_some {a b c : ℕ} : checkedSub a b = some c ↔ b ≤ a ∧ a - b = c := by
  simp [checkedSub]

theorem isPowerOfTwo_iff {n : ℕ} : isPowerOfTwo n = true ↔ ∃ k, n = 2 ^ k := by
  constructor
  · intro h
    exact ⟨n.log2, by simpa [isPowerOfTwo] using h⟩
  · rintro ⟨k, rfl⟩
    simp [isPowerOfTwo]

theorem saturatingAdd_le (a b : ℕ) : saturatingAdd a b ≤ a + b := min_le_left _ _

theorem saturatingAdd_le_max (a b : ℕ) : saturatingAdd a b ≤ maxU64 := min_le_right _ _

/-- Below the maximum, saturating addition is addition. -/
theorem saturatingAdd_of_lt {a b : ℕ} (h : saturatingAdd a b < maxU64) :
    saturatingAdd a b = a + b := by
  unfold saturatingAdd at h ⊢
  omega

end U64

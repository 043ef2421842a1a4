import ScopeVcs.Lib.U64

/-! # Decimal numbers in texts

How the standard library prints an unsigned number and how it parses one. A number is printed without a
sign and without leading zeros; both are parsed.
-/

namespace Decimal

/-- The number that digits stand for, unless it gets greater than `greatest`. -/
def parseDigits (greatest value : ℕ) : List Char → Option ℕ
  | [] => some value
  | c :: digits =>
    if c.isDigit then
      let value := 10 * value + (c.toNat - '0'.toNat)
      if value ≤ greatest then parseDigits greatest value digits else none
    else none

/-- `str::parse` for an unsigned number: digits, and perhaps a `+` in front. -/
def parse (greatest : ℕ) (text : List Char) : Option ℕ :=
  let digits := if text.head? = some '+' then text.tail else text
  if digits = [] then none else parseDigits greatest 0 digits

/-- Digits, and the number they stand for. -/
def Denotes (digits : List Char) (n : ℕ) : Prop :=
  digits ≠ [] ∧ (∀ c ∈ digits, c.isDigit = true) ∧ Nat.ofDigitChars 10 digits 0 = n

variable {greatest value n : ℕ} {c : Char} {digits text : List Char}

theorem le_ofDigitChars (digits : List Char) (value : ℕ) :
    value ≤ Nat.ofDigitChars 10 digits value := by
  rw [Nat.ofDigitChars_eq_ofDigitChars_zero]
  have hpow : 1 ≤ 10 ^ digits.length := Nat.one_le_pow _ _ (by omega)
  calc value = 1 * value := (Nat.one_mul value).symm
    _ ≤ 10 ^ digits.length * value := Nat.mul_le_mul_right value hpow
    _ ≤ _ := Nat.le_add_right _ _

theorem parseDigits_eq_some (hvalue : value ≤ greatest) :
    parseDigits greatest value digits = some n ↔
      (∀ c ∈ digits, c.isDigit = true) ∧ Nat.ofDigitChars 10 digits value = n ∧ n ≤ greatest := by
  induction digits generalizing value with
  | nil =>
    rw [parseDigits, Nat.ofDigitChars_nil, Option.some.injEq]
    constructor
    · rintro rfl
      exact ⟨nofun, rfl, hvalue⟩
    · rintro ⟨-, rfl, -⟩
      rfl
  | cons c digits ih =>
    rw [parseDigits, Nat.ofDigitChars_cons, List.forall_mem_cons]
    by_cases hc : c.isDigit = true
    swap
    · rw [if_neg hc]
      exact ⟨nofun, fun h => absurd h.1.1 hc⟩
    rw [if_pos hc]
    dsimp only
    by_cases hnext : 10 * value + (c.toNat - '0'.toNat) ≤ greatest
    · rw [if_pos hnext, ih hnext]
      exact ⟨fun h => ⟨⟨hc, h.1⟩, h.2⟩, fun h => ⟨h.1.2, h.2⟩⟩
    · rw [if_neg hnext]
      refine ⟨nofun, ?_⟩
      rintro ⟨-, rfl, hn⟩
      exact absurd ((le_ofDigitChars digits _).trans hn) hnext

theorem isDigit_ne_plus (h : c.isDigit = true) : c ≠ '+' := by
  rintro rfl
  cases h

theorem parse_eq_some :
    parse greatest text = some n ↔
      ∃ digits, (text = digits ∨ text = '+' :: digits) ∧ Denotes digits n ∧ n ≤ greatest := by
  unfold parse
  constructor
  · intro h
    dsimp only at h
    split_ifs at h with hplus hempty hempty
    · obtain ⟨digits, rfl⟩ := List.head?_eq_some_iff.mp hplus
      obtain ⟨hdigits, hvalue, hn⟩ := (parseDigits_eq_some (Nat.zero_le _)).mp h
      exact ⟨digits, .inr rfl, ⟨hempty, hdigits, hvalue⟩, hn⟩
    · obtain ⟨hdigits, hvalue, hn⟩ := (parseDigits_eq_some (Nat.zero_le _)).mp h
      exact ⟨text, .inl rfl, ⟨hempty, hdigits, hvalue⟩, hn⟩
  · rintro ⟨digits, htext, ⟨hempty, hdigits, hvalue⟩, hn⟩
    have hrest : (if text.head? = some '+' then text.tail else text) = digits := by
      rcases htext with rfl | rfl
      · refine if_neg fun hplus => ?_
        obtain ⟨rest, rfl⟩ := List.head?_eq_some_iff.mp hplus
        exact isDigit_ne_plus (hdigits _ List.mem_cons_self) rfl
      · rfl
    dsimp only
    rw [hrest, if_neg hempty, parseDigits_eq_some (Nat.zero_le _)]
    exact ⟨hdigits, hvalue, hn⟩

/-! ## Printed numbers -/

theorem denotes_toDigits (n : ℕ) : Denotes (Nat.toDigits 10 n) n :=
  ⟨Nat.toDigits_ne_nil, fun _ hc => Nat.isDigit_of_mem_toDigits (by omega) (by omega) hc,
    Nat.ofDigitChars_ten_toDigits⟩

theorem digitChar_of_isDigit (h : c.isDigit = true) :
    c.toNat - '0'.toNat < 10 ∧ Nat.digitChar (c.toNat - '0'.toNat) = c := by
  have hrange : 48 ≤ c.toNat ∧ c.toNat ≤ 57 := by
    rw [Char.isDigit, Bool.and_eq_true, decide_eq_true_eq, decide_eq_true_eq] at h
    exact h
  have hlt : c.toNat - '0'.toNat < 10 := by
    show c.toNat - 48 < 10
    omega
  refine ⟨hlt, Char.toNat_inj.mp ?_⟩
  rw [Nat.toNat_digitChar_of_lt_ten hlt]
  show 48 + (c.toNat - 48) = c.toNat
  omega

/-- Digits behind a printed number print the number they make with it. -/
theorem toDigits_append (hvalue : 0 < value) (hdigits : ∀ c ∈ digits, c.isDigit = true) :
    Nat.toDigits 10 value ++ digits = Nat.toDigits 10 (Nat.ofDigitChars 10 digits value) := by
  induction digits generalizing value with
  | nil => rw [List.append_nil, Nat.ofDigitChars_nil]
  | cons c digits ih =>
    obtain ⟨hc, hrest⟩ := List.forall_mem_cons.mp hdigits
    obtain ⟨hlt, hchar⟩ := digitChar_of_isDigit hc
    have hprinted := Nat.toDigits_append_toDigits (by omega : 1 < 10) hvalue hlt
    rw [Nat.toDigits_of_lt_base hlt, hchar] at hprinted
    rw [Nat.ofDigitChars_cons, ← ih (by omega) hrest, ← hprinted, List.append_assoc,
      List.singleton_append]

/-- Digits without a leading zero are those the number is printed with. -/
theorem Denotes.eq_toDigits (h : Denotes digits n) (hzero : digits.head? ≠ some '0') :
    digits = Nat.toDigits 10 n := by
  obtain ⟨hempty, hdigits, rfl⟩ := h
  cases digits with
  | nil => exact absurd rfl hempty
  | cons c digits =>
    obtain ⟨hc, hrest⟩ := List.forall_mem_cons.mp hdigits
    obtain ⟨hlt, hchar⟩ := digitChar_of_isDigit hc
    have hpos : 0 < c.toNat - '0'.toNat := by
      rw [Nat.pos_iff_ne_zero]
      intro hdigit
      rw [hdigit] at hchar
      exact hzero (by rw [← hchar]; rfl)
    have hprinted := toDigits_append hpos hrest
    rw [Nat.toDigits_of_lt_base hlt, hchar, List.singleton_append] at hprinted
    rw [Nat.ofDigitChars_cons, Nat.mul_zero, Nat.zero_add]
    exact hprinted

theorem head?_toDigits_ne_zero (h : 0 < n) : (Nat.toDigits 10 n).head? ≠ some '0' := by
  induction n using Nat.strong_induction_on with
  | _ n ih =>
    rcases Nat.lt_or_ge n 10 with hshort | hlong
    · rw [Nat.toDigits_of_lt_base hshort, List.head?_cons, Ne, Option.some.injEq,
        Nat.digitChar_eq_zero]
      omega
    · obtain ⟨c, hc⟩ := Option.isSome_iff_exists.mp
        (List.isSome_head?.mpr (@Nat.toDigits_ne_nil (n / 10) 10))
      rw [Nat.toDigits_of_base_le (by omega) hlong, List.head?_append, hc, Option.some_or, ← hc]
      exact ih (n / 10) (by omega) (by omega)

theorem toDigits_injective : Function.Injective (Nat.toDigits 10) := by
  intro m n h
  rw [← (denotes_toDigits m).2.2, h, (denotes_toDigits n).2.2]

end Decimal

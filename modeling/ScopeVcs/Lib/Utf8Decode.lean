import ScopeVcs.Lib.Bytes

/-! # Decoding UTF-8

A decoder reads a text byte by byte. It holds the bytes of a character that has begun and the ranges
the bytes still owed to it lie in. A byte out of its range ends the character, which is replaced, and
is read again as a first byte. What a decoder gives out is well formed, and the bytes it holds at the
end are the only incomplete character the text ends with: a text may be decoded in parts when each
part is cut in front of it.
-/

namespace Utf8

/-! ## Characters -/

/-- The least and the greatest byte at one place of a character. -/
structure ByteRange where
  least : UInt8
  greatest : UInt8
  deriving DecidableEq

def ByteRange.contains (range : ByteRange) (b : UInt8) : Bool :=
  range.least ≤ b && b ≤ range.greatest

/-- The bytes that continue a character. -/
def tail : ByteRange := ⟨0x80, 0xBF⟩

/-- The ranges of the bytes behind a first byte, when a character can start with it. -/
def following (b : UInt8) : Option (List ByteRange) :=
  if b ≤ 0x7F then some []
  else if b < 0xC2 then none
  else if b ≤ 0xDF then some [tail]
  else if b = 0xE0 then some [⟨0xA0, 0xBF⟩, tail]
  else if b = 0xED then some [⟨0x80, 0x9F⟩, tail]
  else if b ≤ 0xEF then some [tail, tail]
  else if b = 0xF0 then some [⟨0x90, 0xBF⟩, tail, tail]
  else if b ≤ 0xF3 then some [tail, tail, tail]
  else if b = 0xF4 then some [⟨0x80, 0x8F⟩, tail, tail]
  else none

/-- The bytes a character has begun with, and the ranges of those it is still owed. -/
inductive Owes : Bytes → List ByteRange → Prop where
  | first {b : UInt8} {owed : List ByteRange} (h : following b = some owed) : Owes [b] owed
  | next {begun : Bytes} {range : ByteRange} {owed : List ByteRange} {b : UInt8}
      (h : Owes begun (range :: owed)) (hb : range.contains b = true) : Owes (begun ++ [b]) owed

/-- The bytes of one character. -/
def IsChar (bytes : Bytes) : Prop := Owes bytes []

/-- The first bytes of a character, and not all of them. -/
def Incomplete (bytes : Bytes) : Prop := ∃ range owed, Owes bytes (range :: owed)

/-- Characters in a row. -/
inductive Valid : Bytes → Prop where
  | nil : Valid []
  | cons {character bytes : Bytes} (h : IsChar character) (hrest : Valid bytes) :
      Valid (character ++ bytes)

variable {b : UInt8} {bytes begun character left right : Bytes} {range : ByteRange}
  {owed : List ByteRange}

theorem ByteRange.contains_iff : range.contains b = true ↔ range.least ≤ b ∧ b ≤ range.greatest := by
  rw [contains, Bool.and_eq_true, decide_eq_true_iff, decide_eq_true_iff]

/-- The bytes behind a first byte continue a character, and there are three at most. -/
theorem following_tail (h : following b = some owed) :
    owed.length ≤ 3 ∧ ∀ range ∈ owed, 0x80 ≤ range.least ∧ range.greatest ≤ 0xBF := by
  unfold following at h
  split_ifs at h <;> cases h <;> decide

/-- A byte that continues a character starts none. -/
theorem following_eq_none (h : tail.contains b = true) : following b = none := by
  rw [ByteRange.contains_iff] at h
  have hleast : 0x80 ≤ b.toNat := h.1
  have hgreatest : b.toNat ≤ 0xBF := h.2
  have hascii : ¬b ≤ 0x7F := by
    intro hle
    have : b.toNat ≤ 0x7F := hle
    omega
  have hlead : b < 0xC2 := by
    show b.toNat < 0xC2
    omega
  rw [following, if_neg hascii, if_pos hlead]

theorem following_ascii (h : b ≤ 0x7F) : following b = some [] := by
  rw [following, if_pos h]

/-- Only an ASCII byte is a character of its own. -/
theorem following_eq_nil (h : following b = some []) : b ≤ 0x7F := by
  unfold following at h
  split_ifs at h with hascii
  · exact hascii
  all_goals cases h

namespace Owes

/-- What is still owed continues a character. -/
theorem tail (h : Owes bytes owed) :
    bytes.length + owed.length ≤ 4 ∧
      ∀ range ∈ owed, 0x80 ≤ range.least ∧ range.greatest ≤ 0xBF := by
  induction h with
  | first h =>
    obtain ⟨hlength, hranges⟩ := following_tail h
    exact ⟨by rw [List.length_singleton]; omega, hranges⟩
  | next h hb ih =>
    obtain ⟨hlength, hranges⟩ := ih
    refine ⟨?_, fun range hrange => hranges range (List.mem_cons_of_mem _ hrange)⟩
    rw [List.length_cons] at hlength
    rw [List.length_append, List.length_singleton]
    omega

theorem ne_nil (h : Owes bytes owed) : bytes ≠ [] := by
  cases h with
  | first h => exact List.cons_ne_nil _ _
  | next h hb => exact List.append_ne_nil_of_right_ne_nil _ (List.cons_ne_nil _ _)

/-- A byte that is next for a character continues it. -/
theorem tail_contains (h : Owes bytes (range :: owed)) (hb : range.contains b = true) :
    Utf8.tail.contains b = true := by
  obtain ⟨hleast, hgreatest⟩ := h.tail.2 range List.mem_cons_self
  rw [ByteRange.contains_iff] at hb ⊢
  exact ⟨UInt8.le_trans hleast hb.1, UInt8.le_trans hb.2 hgreatest⟩

/-- A character has one first byte, and all the others continue it. -/
theorem eq_cons (h : Owes bytes owed) :
    ∃ b rest, bytes = b :: rest ∧ following b ≠ none ∧
      (∀ c ∈ rest, Utf8.tail.contains c = true) ∧ (rest = [] → following b = some owed) := by
  induction h with
  | @first b owed h =>
    exact ⟨b, [], rfl, by rw [h]; exact Option.some_ne_none _, by simp, fun _ => h⟩
  | @next begun range owed c h hb ih =>
    obtain ⟨b, rest, rfl, hfirst, hrest, -⟩ := ih
    refine ⟨b, rest ++ [c], rfl, hfirst, fun c' hc' => ?_, fun hnil => ?_⟩
    · rcases List.mem_append.mp hc' with hin | hlast
      · exact hrest c' hin
      · rw [List.mem_singleton.mp hlast]
        exact h.tail_contains hb
    · exact absurd hnil (List.append_ne_nil_of_right_ne_nil _ (List.cons_ne_nil _ _))

end Owes

namespace Valid

theorem of_char (h : IsChar bytes) : Valid bytes := by
  have hcons := Valid.cons h .nil
  rwa [List.append_nil] at hcons

theorem append (hleft : Valid left) (hright : Valid right) : Valid (left ++ right) := by
  induction hleft with
  | nil => exact hright
  | cons h _ ih =>
    rw [List.append_assoc]
    exact .cons h ih

theorem flatten {parts : List Bytes} (h : ∀ part ∈ parts, Valid part) : Valid parts.flatten := by
  induction parts with
  | nil => exact .nil
  | cons part parts ih =>
    rw [List.flatten_cons]
    exact (h part List.mem_cons_self).append (ih fun p hp => h p (List.mem_cons_of_mem _ hp))

end Valid

/-! ## The decoder -/

inductive Decoder where
  | between
  | within (begun : Bytes) (range : ByteRange) (owed : List ByteRange)
      (h : Owes begun (range :: owed))

/-- U+FFFD. -/
def replacement : Bytes := [0xEF, 0xBF, 0xBD]

namespace Decoder

/-- The bytes of the character that has begun. -/
def held : Decoder → Bytes
  | between => []
  | within begun _ _ _ => begun

/-- A byte where a character starts. -/
def first (b : UInt8) : Bytes × Decoder :=
  match h : following b with
  | none => (replacement, between)
  | some [] => ([b], between)
  | some (range :: owed) => ([], within [b] range owed (.first h))

/-- What one more byte gives out. -/
def step : Decoder → UInt8 → Bytes × Decoder
  | between, b => first b
  | within begun range [] _, b =>
    if range.contains b then (begun ++ [b], between)
    else (replacement ++ (first b).1, (first b).2)
  | within begun range (next :: owed) h, b =>
    if hb : range.contains b = true then ([], within (begun ++ [b]) next owed (.next h hb))
    else (replacement ++ (first b).1, (first b).2)

def run (decoder : Decoder) : Bytes → Bytes × Decoder
  | [] => ([], decoder)
  | b :: bytes =>
    (((decoder.step b).1 ++ ((decoder.step b).2.run bytes).1), ((decoder.step b).2.run bytes).2)

/-- What is given out for a character that never became complete. -/
def finish : Decoder → Bytes
  | between => []
  | within _ _ _ _ => replacement

end Decoder

/-- `String::from_utf8_lossy`. -/
def fromUtf8Lossy (bytes : Bytes) : Bytes :=
  (Decoder.between.run bytes).1 ++ (Decoder.between.run bytes).2.finish

/-- `Utf8Error`: the length of the characters in front, and that of what is wrong, unless the text
only ends too early. -/
structure Utf8Error where
  validUpTo : ℕ
  errorLen : Option ℕ
  deriving DecidableEq

/-- Checks the rest of a text behind `validUpTo` bytes and the character that has begun. -/
def checkFrom (validUpTo : ℕ) : Decoder → Bytes → Except Utf8Error Unit
  | .between, [] => .ok ()
  | .within _ _ _ _, [] => .error ⟨validUpTo, none⟩
  | .between, b :: bytes =>
    match h : following b with
    | none => .error ⟨validUpTo, some 1⟩
    | some [] => checkFrom (validUpTo + 1) .between bytes
    | some (range :: owed) => checkFrom validUpTo (.within [b] range owed (.first h)) bytes
  | .within begun range [] _, b :: bytes =>
    if range.contains b then checkFrom (validUpTo + (begun.length + 1)) .between bytes
    else .error ⟨validUpTo, some begun.length⟩
  | .within begun range (next :: owed) h, b :: bytes =>
    if hb : range.contains b = true then
      checkFrom validUpTo (.within (begun ++ [b]) next owed (.next h hb)) bytes
    else .error ⟨validUpTo, some begun.length⟩

/-- `str::from_utf8`. -/
def fromUtf8 (bytes : Bytes) : Except Utf8Error Unit := checkFrom 0 .between bytes

namespace Decoder

variable {decoder : Decoder}

theorem run_append (decoder : Decoder) (left right : Bytes) :
    decoder.run (left ++ right) =
      ((decoder.run left).1 ++ ((decoder.run left).2.run right).1,
        ((decoder.run left).2.run right).2) := by
  induction left generalizing decoder with
  | nil => rfl
  | cons b left ih =>
    rw [List.cons_append, run, ih, run]
    simp only [List.append_assoc]

theorem run_singleton (decoder : Decoder) (b : UInt8) : decoder.run [b] = decoder.step b := by
  rw [run, run, List.append_nil]

theorem first_of_following (h : following b = some (range :: owed)) :
    first b = ([], within [b] range owed (.first h)) := by
  unfold first
  split
  · next hnone => rw [hnone] at h; cases h
  · next hnil => rw [hnil] at h; cases h
  · next range' owed' hcons =>
    have heq := hcons.symm.trans h
    cases heq
    rfl

/-- A first byte ends the character before it, wherever the decoder is. -/
theorem step_of_following (h : following b ≠ none) (decoder : Decoder) :
    decoder.step b = (decoder.finish ++ (first b).1, (first b).2) := by
  have hout : ∀ {begun range owed}, Owes begun (range :: owed) → ¬range.contains b = true :=
    fun howes hb => h (following_eq_none (howes.tail_contains hb))
  cases decoder with
  | between => rfl
  | within begun range owed howes =>
    cases owed with
    | nil => rw [step, if_neg (hout howes)]; rfl
    | cons next owed => rw [step, dif_neg (hout howes)]; rfl

/-- The first bytes of a character end the one before and are held, wherever the decoder is. -/
theorem run_of_owes (h : Owes bytes (range :: owed)) (decoder : Decoder) :
    decoder.run bytes = (decoder.finish, within bytes range owed h) := by
  suffices hrun : ∀ {ranges}, Owes bytes ranges → ∀ {range owed} (h : Owes bytes (range :: owed)),
      ranges = range :: owed → decoder.run bytes = (decoder.finish, within bytes range owed h) from
    hrun h h rfl
  clear h
  intro ranges hranges
  induction hranges with
  | @first b ranges hfirst =>
    intro range owed h hsplit
    subst hsplit
    have hsome : following b ≠ none := by rw [hfirst]; exact Option.some_ne_none _
    rw [run_singleton, step_of_following hsome, first_of_following hfirst, List.append_nil]
  | @next begun range' ranges b hbegun hb ih =>
    intro range owed h hsplit
    subst hsplit
    rw [run_append, ih hbegun rfl, run_singleton, step, dif_pos hb, List.append_nil]

/-- What is held is incomplete. -/
theorem incomplete_held (h : decoder.held ≠ []) : Incomplete decoder.held := by
  cases decoder with
  | between => exact absurd rfl h
  | within begun range owed howes => exact ⟨range, owed, howes⟩

theorem finish_of_held_eq_nil (h : decoder.held = []) : decoder.finish = [] := by
  cases decoder with
  | between => rfl
  | within begun range owed howes => exact absurd h howes.ne_nil

theorem eq_between (h : decoder.held = []) : decoder = between := by
  cases decoder with
  | between => rfl
  | within begun range owed howes => exact absurd h howes.ne_nil

/-- Reading what a decoder holds again leads to it. -/
theorem run_held (decoder : Decoder) : between.run decoder.held = ([], decoder) := by
  cases decoder with
  | between => rfl
  | within begun range owed howes => exact run_of_owes howes between

theorem held_first_suffix (b : UInt8) : (first b).2.held <:+ [b] := by
  unfold first
  split
  · exact List.nil_suffix
  · exact List.nil_suffix
  · exact List.suffix_refl _

theorem held_step_suffix (decoder : Decoder) (b : UInt8) :
    (decoder.step b).2.held <:+ decoder.held ++ [b] := by
  cases decoder with
  | between => exact held_first_suffix b
  | within begun range owed howes =>
    have hfirst : (first b).2.held <:+ begun ++ [b] :=
      (held_first_suffix b).trans (List.suffix_append _ _)
    cases owed with
    | nil =>
      rw [step]
      split_ifs
      · exact List.nil_suffix
      · exact hfirst
    | cons next owed =>
      rw [step]
      split_ifs
      · exact List.suffix_refl _
      · exact hfirst

/-- What is held was read last. -/
theorem held_run_suffix (decoder : Decoder) (bytes : Bytes) :
    (decoder.run bytes).2.held <:+ decoder.held ++ bytes := by
  induction bytes generalizing decoder with
  | nil => rw [List.append_nil]; exact List.suffix_refl _
  | cons b bytes ih =>
    obtain ⟨before, hstep⟩ := held_step_suffix decoder b
    have hrest := ih (decoder.step b).2
    rw [run]
    refine hrest.trans ⟨before, ?_⟩
    rw [← List.append_assoc, hstep, List.append_assoc, List.singleton_append]

/-! ### What is given out -/

theorem valid_replacement : Valid replacement := by
  have hlead : Owes [0xEF] [tail, tail] := .first rfl
  have hsecond : Owes [0xEF, 0xBF] [tail] := .next hlead rfl
  exact .of_char (.next hsecond rfl)

theorem valid_finish (decoder : Decoder) : Valid decoder.finish := by
  cases decoder with
  | between => exact .nil
  | within begun range owed howes => exact valid_replacement

theorem valid_first (b : UInt8) : Valid (first b).1 := by
  unfold first
  split
  · exact valid_replacement
  · next h => exact .of_char (.first h)
  · exact .nil

theorem valid_step (decoder : Decoder) (b : UInt8) : Valid (decoder.step b).1 := by
  have hreplaced : Valid (replacement ++ (first b).1) := valid_replacement.append (valid_first b)
  cases decoder with
  | between => exact valid_first b
  | within begun range owed howes =>
    cases owed with
    | nil =>
      rw [step]
      split_ifs with hb
      · exact .of_char (howes.next hb)
      · exact hreplaced
    | cons next owed =>
      rw [step]
      split_ifs with hb
      · exact .nil
      · exact hreplaced

theorem valid_run (decoder : Decoder) (bytes : Bytes) : Valid (decoder.run bytes).1 := by
  induction bytes generalizing decoder with
  | nil => exact .nil
  | cons b bytes ih => exact (valid_step decoder b).append (ih _)

end Decoder

theorem valid_fromUtf8Lossy (bytes : Bytes) : Valid (fromUtf8Lossy bytes) :=
  (Decoder.valid_run _ bytes).append (Decoder.valid_finish _)

/-! ## Incomplete ends -/

open Decoder

/-- A text that ends with the first bytes of a character gives out what it would without them. -/
theorem run_append_incomplete (h : Incomplete right) (left : Bytes) :
    (between.run (left ++ right)).1 = fromUtf8Lossy left ∧
      (between.run (left ++ right)).2.held = right := by
  obtain ⟨range, owed, howes⟩ := h
  rw [run_append, run_of_owes howes]
  exact ⟨rfl, rfl⟩

theorem Incomplete.length_le (h : Incomplete bytes) : bytes.length ≤ 3 := by
  obtain ⟨range, owed, howes⟩ := h
  have hlength := howes.tail.1
  rw [List.length_cons] at hlength
  omega

theorem Incomplete.ne_nil (h : Incomplete bytes) : bytes ≠ [] := by
  obtain ⟨range, owed, howes⟩ := h
  exact howes.ne_nil

/-- Behind the first bytes of a character the check stands where the decoder does. -/
theorem checkFrom_append (h : Owes begun (range :: owed)) (bytes : Bytes) :
    checkFrom 0 .between (begun ++ bytes) = checkFrom 0 (.within begun range owed h) bytes := by
  suffices hcheck : ∀ {ranges}, Owes begun ranges → ∀ {range owed} (h : Owes begun (range :: owed))
      (bytes : Bytes), ranges = range :: owed →
        checkFrom 0 .between (begun ++ bytes) = checkFrom 0 (.within begun range owed h) bytes from
    hcheck h h bytes rfl
  clear h
  intro ranges hranges
  induction hranges with
  | @first b ranges hfirst =>
    intro range owed h bytes hsplit
    subst hsplit
    rw [List.singleton_append, checkFrom]
    split
    · next hnone => rw [hnone] at hfirst; cases hfirst
    · next hnil => rw [hnil] at hfirst; cases hfirst
    · next range' owed' hcons =>
      have heq := hcons.symm.trans hfirst
      cases heq
      rfl
  | @next begun range' ranges b hbegun hb ih =>
    intro range owed h bytes hsplit
    subst hsplit
    rw [List.append_assoc, ih hbegun _ rfl, List.singleton_append, checkFrom, dif_pos hb]

/-- The check reports an early end in front of the character that had begun. -/
theorem incomplete_of_checkFrom {validUpTo reported : ℕ} {decoder : Decoder}
    (h : checkFrom validUpTo decoder bytes = .error ⟨reported, none⟩) :
    validUpTo ≤ reported ∧ (reported = validUpTo → Incomplete (decoder.held ++ bytes)) := by
  induction bytes generalizing validUpTo decoder with
  | nil =>
    cases decoder with
    | between => cases h
    | within begun range owed howes =>
      cases h
      exact ⟨Nat.le_refl _, fun _ => by rw [List.append_nil]; exact ⟨range, owed, howes⟩⟩
  | cons b bytes ih =>
    cases decoder with
    | between =>
      rw [checkFrom] at h
      split at h
      · cases h
      · obtain ⟨hle, -⟩ := ih h
        exact ⟨by omega, fun heq => by omega⟩
      · exact ih h
    | within begun range owed howes =>
      cases owed with
      | nil =>
        rw [checkFrom] at h
        split_ifs at h
        · obtain ⟨hle, -⟩ := ih h
          exact ⟨by omega, fun heq => by omega⟩
        · cases h
      | cons next owed =>
        rw [checkFrom] at h
        split_ifs at h
        · obtain ⟨hle, hincomplete⟩ := ih h
          refine ⟨hle, fun heq => ?_⟩
          have hbytes := hincomplete heq
          rwa [Decoder.held, List.append_assoc, List.singleton_append] at hbytes
        · cases h

/-- A text that only ends too early, at its first character, is an incomplete character. -/
theorem fromUtf8_eq_incomplete :
    fromUtf8 bytes = .error ⟨0, none⟩ ↔ Incomplete bytes := by
  constructor
  · intro h
    exact (incomplete_of_checkFrom h).2 rfl
  · rintro ⟨range, owed, howes⟩
    have hcheck := checkFrom_append howes []
    rw [List.append_nil] at hcheck
    rw [fromUtf8, hcheck]
    rfl

end Utf8

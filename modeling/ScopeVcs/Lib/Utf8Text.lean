import ScopeVcs.Lib.Utf8Decode

/-! # Cutting UTF-8

A text can be cut where a character starts. A cut in front of a place is found by going back from it,
and behind an ASCII byte there is always one.
-/

namespace Utf8

variable {b : UInt8} {bytes left right : Bytes} {owed : List ByteRange} {i j limit : ℕ}

/-- `str::is_char_boundary`. -/
def isCharBoundary (bytes : Bytes) (i : ℕ) : Bool :=
  i == 0 || i == bytes.length || bytes[i]?.any fun b => !tail.contains b

/-- The last place a text can be cut at, up to a given one. -/
def floorCharBoundary (bytes : Bytes) : ℕ → ℕ
  | 0 => 0
  | i + 1 => if isCharBoundary bytes (i + 1) then i + 1 else floorCharBoundary bytes i

/-- `str::rfind` of an ASCII character. -/
def rfind (b : UInt8) : Bytes → Option ℕ
  | [] => none
  | c :: bytes =>
    match rfind b bytes with
    | some i => some (i + 1)
    | none => if c = b then some 0 else none

theorem isCharBoundary_iff :
    isCharBoundary bytes i = true ↔
      i = 0 ∨ i = bytes.length ∨ ∃ b, bytes[i]? = some b ∧ tail.contains b = false := by
  rw [isCharBoundary, Bool.or_eq_true, Bool.or_eq_true, beq_iff_eq, beq_iff_eq, Option.any_eq_true,
    or_assoc]
  simp only [Bool.not_eq_true']

theorem isCharBoundary_zero : isCharBoundary bytes 0 = true := isCharBoundary_iff.mpr (.inl rfl)

theorem tail_contains_ascii (h : b ≤ 0x7F) : tail.contains b = false := by
  rw [Bool.eq_false_iff]
  intro hb
  have hnone := following_eq_none hb
  rw [following_ascii h] at hnone
  cases hnone

namespace Owes

theorem not_tail_head (h : Owes (b :: bytes) owed) : Utf8.tail.contains b = false := by
  obtain ⟨c, rest, heq, hfirst, -⟩ := h.eq_cons
  cases heq
  rw [Bool.eq_false_iff]
  exact fun hb => hfirst (following_eq_none hb)

theorem tail_of_pos (h : Owes bytes owed) (hi : 0 < i) (hb : bytes[i]? = some b) :
    Utf8.tail.contains b = true := by
  obtain ⟨c, rest, rfl, -, hrest, -⟩ := h.eq_cons
  obtain ⟨k, rfl⟩ : ∃ k, i = k + 1 := ⟨i - 1, by omega⟩
  rw [List.getElem?_cons_succ] at hb
  exact hrest b (List.mem_of_getElem? hb)

/-- A character that starts with an ASCII byte ends with it. -/
theorem eq_singleton (h : Owes bytes owed) (hb : bytes[0]? = some b) (hascii : b ≤ 0x7F) :
    bytes = [b] ∧ owed = [] := by
  induction h with
  | @first c owed hfirst =>
    cases hb
    rw [following_ascii hascii] at hfirst
    cases hfirst
    exact ⟨rfl, rfl⟩
  | @next begun range owed c hbegun hc ih =>
    rw [List.getElem?_append_left (List.length_pos_iff.mpr hbegun.ne_nil)] at hb
    cases (ih hb).2

end Owes

namespace Valid

theorem not_tail_head (h : Valid (b :: bytes)) : tail.contains b = false := by
  generalize hsplit : b :: bytes = text at h
  cases h with
  | nil => cases hsplit
  | @cons character rest hcharacter hrest =>
    cases character with
    | nil => exact absurd rfl hcharacter.ne_nil
    | cons c character =>
      cases hsplit
      exact Owes.not_tail_head hcharacter

/-- A valid text can be joined to another behind it. -/
theorem isCharBoundary_append (h : Valid right) (hj : isCharBoundary right j = true) :
    isCharBoundary (left ++ right) (left.length + j) = true := by
  rw [isCharBoundary_iff] at hj ⊢
  have hbehind : (left ++ right)[left.length + j]? = right[j]? := by
    rw [List.getElem?_append_right (Nat.le_add_right _ _), Nat.add_sub_cancel_left]
  rcases hj with rfl | rfl | hj
  · cases right with
    | nil => exact .inr (.inl (by simp))
    | cons b right => exact .inr (.inr ⟨b, hbehind, h.not_tail_head⟩)
  · exact .inr (.inl List.length_append.symm)
  · rw [← hbehind] at hj
    exact .inr (.inr hj)

/-- A text is cut into two where a character starts. -/
theorem cut (h : Valid bytes) (hi : isCharBoundary bytes i = true) :
    Valid (bytes.take i) ∧ Valid (bytes.drop i) := by
  induction h generalizing i with
  | nil =>
    rw [List.take_nil, List.drop_nil]
    exact ⟨.nil, .nil⟩
  | @cons character bytes hcharacter hrest ih =>
    rcases Nat.eq_zero_or_pos i with rfl | hpos
    · exact ⟨.nil, .cons hcharacter hrest⟩
    · have hbehind : character.length ≤ i := by
        by_contra hinside
        rw [isCharBoundary_iff, List.length_append,
          List.getElem?_append_left (by omega)] at hi
        rcases hi with hzero | hend | ⟨b, hb, hstart⟩
        · omega
        · omega
        · rw [hcharacter.tail_of_pos hpos hb] at hstart
          cases hstart
      obtain ⟨k, rfl⟩ := Nat.exists_eq_add_of_le hbehind
      have hk : isCharBoundary bytes k = true := by
        rw [isCharBoundary_iff, List.length_append,
          List.getElem?_append_right (Nat.le_add_right _ _), Nat.add_sub_cancel_left] at hi
        rw [isCharBoundary_iff]
        rcases hi with hzero | hend | hstart
        · exact .inl (by omega)
        · exact .inr (.inl (by omega))
        · exact .inr (.inr hstart)
      obtain ⟨htake, hdrop⟩ := ih hk
      rw [List.take_length_add_append, List.drop_length_add_append]
      exact ⟨.cons hcharacter htake, hdrop⟩

/-- A text can be cut behind its first character. -/
theorem exists_isCharBoundary (h : Valid bytes) (hne : bytes ≠ []) :
    ∃ i, 0 < i ∧ i ≤ 4 ∧ isCharBoundary bytes i = true := by
  cases h with
  | nil => exact absurd rfl hne
  | @cons character bytes hcharacter hrest =>
    have hlength := hcharacter.tail.1
    rw [List.length_nil] at hlength
    exact ⟨character.length, List.length_pos_iff.mpr hcharacter.ne_nil, hlength,
      hrest.isCharBoundary_append isCharBoundary_zero⟩

/-- A text can be cut behind an ASCII byte. -/
theorem isCharBoundary_succ (h : Valid bytes) (hb : bytes[i]? = some b) (hascii : b ≤ 0x7F) :
    isCharBoundary bytes (i + 1) = true := by
  induction h generalizing i with
  | nil => cases hb
  | @cons character bytes hcharacter hrest ih =>
    by_cases hinside : i < character.length
    · rw [List.getElem?_append_left hinside] at hb
      have hzero : i = 0 := by
        by_contra hpos
        have htail := hcharacter.tail_of_pos (Nat.pos_of_ne_zero hpos) hb
        rw [tail_contains_ascii hascii] at htail
        cases htail
      subst hzero
      obtain ⟨rfl, -⟩ := hcharacter.eq_singleton hb hascii
      exact hrest.isCharBoundary_append isCharBoundary_zero
    · rw [List.getElem?_append_right (not_lt.mp hinside)] at hb
      obtain ⟨k, rfl⟩ := Nat.exists_eq_add_of_le (not_lt.mp hinside)
      rw [Nat.add_sub_cancel_left] at hb
      rw [Nat.add_assoc]
      exact hrest.isCharBoundary_append (ih hb)

end Valid

theorem isCharBoundary_floor (bytes : Bytes) (limit : ℕ) :
    isCharBoundary bytes (floorCharBoundary bytes limit) = true := by
  induction limit with
  | zero => exact isCharBoundary_zero
  | succ limit ih =>
    rw [floorCharBoundary]
    split_ifs with h
    · exact h
    · exact ih

theorem floorCharBoundary_le (bytes : Bytes) (limit : ℕ) : floorCharBoundary bytes limit ≤ limit := by
  induction limit with
  | zero => exact Nat.le_refl 0
  | succ limit ih =>
    rw [floorCharBoundary]
    split_ifs
    · exact Nat.le_refl _
    · exact Nat.le_succ_of_le ih

/-- No place to cut at is passed over. -/
theorem le_floorCharBoundary (hi : isCharBoundary bytes i = true) (hle : i ≤ limit) :
    i ≤ floorCharBoundary bytes limit := by
  induction limit with
  | zero => exact hle
  | succ limit ih =>
    rw [floorCharBoundary]
    split_ifs with h
    · exact hle
    · refine ih (Nat.le_of_lt_succ (lt_of_le_of_ne hle ?_))
      rintro rfl
      exact h hi

theorem getElem?_rfind (h : rfind b bytes = some i) : bytes[i]? = some b := by
  induction bytes generalizing i with
  | nil => cases h
  | cons c bytes ih =>
    rw [rfind] at h
    split at h
    · next k hk =>
      cases h
      exact ih hk
    · split_ifs at h with hc
      cases h
      rw [hc]
      rfl

/-! ## Strings -/

/-- The bytes of a `String`. -/
structure Str where
  bytes : Bytes
  valid : Valid bytes

namespace Str

def empty : Str := ⟨[], .nil⟩

def append (left right : Str) : Str := ⟨left.bytes ++ right.bytes, left.valid.append right.valid⟩

/-- `&text[..i]`. -/
def take (text : Str) (i : ℕ) (hi : isCharBoundary text.bytes i = true) : Str :=
  ⟨text.bytes.take i, (text.valid.cut hi).1⟩

/-- `&text[i..]`. -/
def drop (text : Str) (i : ℕ) (hi : isCharBoundary text.bytes i = true) : Str :=
  ⟨text.bytes.drop i, (text.valid.cut hi).2⟩

@[ext] theorem ext {left right : Str} (h : left.bytes = right.bytes) : left = right := by
  cases left
  cases h
  rfl

@[simp] theorem bytes_append (left right : Str) :
    (left.append right).bytes = left.bytes ++ right.bytes := rfl

@[simp] theorem bytes_empty : empty.bytes = [] := rfl

end Str

/-! ## NUL characters -/

/-- `text.replace('\0', "\u\x7bFFFD\x7d")` on the bytes of a text. -/
def replaceNulBytes (bytes : Bytes) : Bytes :=
  bytes.flatMap fun b => if b = 0 then replacement else [b]

@[simp] theorem replaceNulBytes_append (left right : Bytes) :
    replaceNulBytes (left ++ right) = replaceNulBytes left ++ replaceNulBytes right :=
  List.flatMap_append

theorem replaceNulBytes_of_notMem (h : 0 ∉ bytes) : replaceNulBytes bytes = bytes := by
  induction bytes with
  | nil => rfl
  | cons b bytes ih =>
    rw [List.mem_cons, not_or] at h
    obtain ⟨hb, hbytes⟩ := h
    have hrest := ih hbytes
    rw [replaceNulBytes] at hrest
    rw [replaceNulBytes, List.flatMap_cons, if_neg (fun heq => hb heq.symm), hrest,
      List.singleton_append]

/-- The only character with a zero among its bytes is NUL. -/
theorem IsChar.eq_nul (h : IsChar bytes) (hzero : 0 ∈ bytes) : bytes = [0] := by
  obtain ⟨i, hi⟩ := List.mem_iff_getElem?.mp hzero
  rcases Nat.eq_zero_or_pos i with rfl | hpos
  · exact (Owes.eq_singleton h hi (by decide)).1
  · have htail := Owes.tail_of_pos h hpos hi
    exact absurd htail (by decide)

theorem Valid.replaceNulBytes (h : Valid bytes) : Valid (replaceNulBytes bytes) := by
  induction h with
  | nil => exact .nil
  | @cons character bytes hcharacter _ ih =>
    rw [replaceNulBytes_append]
    apply Valid.append _ ih
    by_cases hzero : 0 ∈ character
    · rw [hcharacter.eq_nul hzero]
      exact Decoder.valid_replacement
    · rw [replaceNulBytes_of_notMem hzero]
      exact .of_char hcharacter

end Utf8

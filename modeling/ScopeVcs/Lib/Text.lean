import Mathlib.Algebra.Ring.Nat
import Mathlib.Data.List.DropRight
import Mathlib.Data.String.Basic

/-! # Text operations on character lists

The string operations that path rules are written with, over the characters of a string.
-/

namespace Text

/-- `str::starts_with`. -/
def startsWith (s p : String) : Bool := p.toList.isPrefixOf s.toList

/-- `str::strip_prefix`, on characters. -/
def stripPrefix? (p s : List Char) : Option (List Char) :=
  if p.isPrefixOf s then some (s.drop p.length) else none

/-- `str::strip_suffix`, on characters. -/
def stripSuffix? (p s : List Char) : Option (List Char) :=
  if p.isSuffixOf s then some (s.take (s.length - p.length)) else none

/-- `str::get(..n)`: the characters of the first `n` bytes, unless a character goes on behind them. -/
def firstBytes? : ℕ → List Char → Option (List Char)
  | 0, _ => some []
  | _ + 1, [] => none
  | n + 1, c :: s =>
    if c.utf8Size ≤ n + 1 then (firstBytes? (n + 1 - c.utf8Size) s).map (c :: ·) else none

/-- `str::eq_ignore_ascii_case`, on characters. -/
def eqIgnoreAsciiCase (s t : List Char) : Bool := s.map Char.toLower == t.map Char.toLower

/-- `str::trim_start_matches` with a character. -/
def trimStart (c : Char) (s : List Char) : List Char := s.dropWhile (· == c)

/-- `char::is_whitespace`: the Unicode property White_Space. -/
def isWhitespace (c : Char) : Bool :=
  let n := c.toNat
  (0x9 ≤ n && n ≤ 0xD) || n == 0x20 || n == 0x85 || n == 0xA0 || n == 0x1680 ||
    (0x2000 ≤ n && n ≤ 0x200A) || n == 0x2028 || n == 0x2029 || n == 0x202F || n == 0x205F ||
    n == 0x3000

/-- Whether nothing but whitespace is left, that is `str::trim` gives the empty string. -/
def isBlank (s : String) : Bool := s.toList.all isWhitespace

/-- `str::trim`. -/
def trim (s : String) : String :=
  String.ofList ((s.toList.dropWhile isWhitespace).rdropWhile isWhitespace)

/-- `u8::is_ascii_hexdigit`, for the one byte of an ASCII character. -/
def isHexDigit (c : Char) : Bool :=
  ('0' ≤ c && c ≤ '9') || ('a' ≤ c && c ≤ 'f') || ('A' ≤ c && c ≤ 'F')

/-- The number of bytes of the UTF-8 encoding, which is what `str::len` counts. -/
def byteLength (s : List Char) : ℕ := (s.map Char.utf8Size).sum

/-- The bytes of the UTF-8 encoding. -/
def utf8 (s : String) : List UInt8 := s.toList.flatMap String.utf8EncodeChar

def hexDigit? (c : Char) : Option UInt8 :=
  if '0' ≤ c && c ≤ '9' then some (c.toNat - 48).toUInt8
  else if 'a' ≤ c && c ≤ 'f' then some (c.toNat - 87).toUInt8
  else if 'A' ≤ c && c ≤ 'F' then some (c.toNat - 55).toUInt8
  else none

/-- `hex::decode`: two digits of either case for each byte. -/
def hexDecode : List Char → Option (List UInt8)
  | [] => some []
  | [_] => none
  | high :: low :: rest => do
    let high ← hexDigit? high
    let low ← hexDigit? low
    let bytes ← hexDecode rest
    return (high * 16 + low) :: bytes

/-- `hex::encode`: two lower-case digits for each byte. -/
def hexEncode (bytes : List UInt8) : String :=
  String.ofList (bytes.flatMap fun byte =>
    [Nat.digitChar (byte.toNat / 16), Nat.digitChar (byte.toNat % 16)])

/-- `str::split_inclusive` with a character: every part but the last ends with it. -/
def splitInclusive (c : Char) : List Char → List (List Char)
  | [] => []
  | x :: rest =>
    if x = c then [x] :: splitInclusive c rest
    else match splitInclusive c rest with
      | [] => [[x]]
      | part :: parts => (x :: part) :: parts

/-- Joining two lists of parts puts one separator between what the lists join to. -/
theorem intercalate_append (separator : List Char) {parts parts' : List (List Char)}
    (h : parts ≠ []) (h' : parts' ≠ []) :
    separator.intercalate (parts ++ parts') =
      separator.intercalate parts ++ separator ++ separator.intercalate parts' := by
  induction parts with
  | nil => exact absurd rfl h
  | cons part parts ih =>
    by_cases hparts : parts = []
    · subst hparts
      simp [List.intercalate_cons_of_ne_nil h']
    · rw [List.cons_append, List.intercalate_cons_of_ne_nil (by simp [hparts]), ih hparts,
        List.intercalate_cons_of_ne_nil hparts]
      simp

/-- No part of a text that was split has the separator in it. -/
theorem notMem_of_mem_splitOn {c : Char} {s part : List Char} (h : part ∈ s.splitOn c) :
    c ∉ part := by
  induction s generalizing part with
  | nil =>
    rw [List.splitOn_nil, List.mem_singleton] at h
    rw [h]
    exact List.not_mem_nil
  | cons x s ih =>
    rw [List.splitOn_cons_eq_if_modifyHead] at h
    split_ifs at h with hx
    · rcases List.mem_cons.mp h with rfl | hrest
      · exact List.not_mem_nil
      · exact ih hrest
    · cases hsplit : s.splitOn c with
      | nil => exact absurd hsplit (List.splitOn_ne_nil c s)
      | cons first rest =>
        rw [hsplit, List.modifyHead_cons] at h
        rcases List.mem_cons.mp h with rfl | hrest
        · intro hmem
          rcases List.mem_cons.mp hmem with rfl | hfirst
          · exact hx (BEq.refl _)
          · exact ih (by rw [hsplit]; exact List.mem_cons_self) hfirst
        · exact ih (by rw [hsplit]; exact List.mem_cons_of_mem _ hrest)

theorem stripPrefix?_eq_some {p s rest : List Char} :
    stripPrefix? p s = some rest ↔ s = p ++ rest := by
  unfold stripPrefix?
  constructor
  · intro h
    split at h
    · rename_i hp
      obtain ⟨t, rfl⟩ := List.isPrefixOf_iff_prefix.mp hp
      rw [List.drop_left, Option.some.injEq] at h
      rw [h]
    · cases h
  · rintro rfl
    simp

theorem stripSuffix?_eq_some {p s rest : List Char} :
    stripSuffix? p s = some rest ↔ s = rest ++ p := by
  unfold stripSuffix?
  constructor
  · intro h
    split at h
    · rename_i hp
      obtain ⟨t, rfl⟩ := List.isSuffixOf_iff_suffix.mp hp
      rw [List.length_append, Nat.add_sub_cancel, List.take_left, Option.some.injEq] at h
      rw [h]
    · cases h
  · rintro rfl
    simp

theorem byteLength_append (s t : List Char) : byteLength (s ++ t) = byteLength s + byteLength t := by
  simp [byteLength]

theorem byteLength_pos_of_ne_nil {s : List Char} (h : s ≠ []) : 0 < byteLength s := by
  cases s with
  | nil => exact absurd rfl h
  | cons c s =>
    have := c.utf8Size_pos
    rw [byteLength, List.map_cons, List.sum_cons]
    omega

/-- Of two prefixes of one text the one with fewer bytes is a prefix of the other. -/
theorem prefix_of_byteLength_le {s t text : List Char} (hs : s <+: text) (ht : t <+: text)
    (hle : byteLength s ≤ byteLength t) : s <+: t := by
  rcases List.prefix_or_prefix_of_prefix hs ht with h | h
  · exact h
  · obtain ⟨rest, rfl⟩ := h
    rw [byteLength_append] at hle
    by_cases hrest : rest = []
    · simp [hrest]
    · have := byteLength_pos_of_ne_nil hrest
      omega

theorem eq_of_byteLength_eq {s t text : List Char} (hs : s <+: text) (ht : t <+: text)
    (heq : byteLength s = byteLength t) : s = t :=
  (prefix_of_byteLength_le hs ht heq.le).eq_of_length_le
    (prefix_of_byteLength_le ht hs heq.ge).length_le

end Text

import ScopeVcs.Lib.Utf8Text

/-! # Decoding step output

Each read of a stream is decoded behind the bytes the read before left over: those of a character that
was not complete. What comes out is what a decoder gives out that is fed the reads one by one, and what
is left over is what it holds.
-/

namespace ScopeVcs.Runner

open Utf8 Decoder

def replaceNul (text : Str) : Str := ⟨replaceNulBytes text.bytes, text.valid.replaceNulBytes⟩

def decodeLossy (bytes : Bytes) : Str := replaceNul ⟨fromUtf8Lossy bytes, valid_fromUtf8Lossy bytes⟩

/-- Whether a text ends before its first character does. -/
def endsEarly (suffix : Bytes) : Bool :=
  match fromUtf8 suffix with
  | .ok () => false
  | .error error => error.validUpTo == 0 && error.errorLen.isNone

def incompleteUtf8Suffix (bytes : Bytes) : ℕ :=
  ((List.range' 1 (min bytes.length 3)).find? fun length =>
    endsEarly (bytes.drop (bytes.length - length))).getD 0

def decodeUtf8Chunk (pending bytes : Bytes) : Str × Bytes :=
  let pending := pending ++ bytes
  let splitAt := pending.length - incompleteUtf8Suffix pending
  (decodeLossy (pending.take splitAt), pending.drop splitAt)

variable {bytes suffix : Bytes}

theorem endsEarly_iff : endsEarly suffix = true ↔ Incomplete suffix := by
  rw [← fromUtf8_eq_incomplete, endsEarly]
  cases fromUtf8 suffix with
  | ok u => simp
  | error error =>
    obtain ⟨validUpTo, errorLen⟩ := error
    simp

/-- The bytes cut off are those the decoder holds. -/
theorem drop_incompleteUtf8Suffix (bytes : Bytes) :
    bytes.drop (bytes.length - incompleteUtf8Suffix bytes) = (between.run bytes).2.held := by
  rw [incompleteUtf8Suffix]
  cases hfind : (List.range' 1 (min bytes.length 3)).find? fun length =>
      endsEarly (bytes.drop (bytes.length - length)) with
  | some length =>
    have hfound := List.find?_some hfind
    have hincomplete : Incomplete (bytes.drop (bytes.length - length)) := endsEarly_iff.mp hfound
    have hrun := (run_append_incomplete hincomplete (bytes.take (bytes.length - length))).2
    rw [List.take_append_drop] at hrun
    rw [Option.getD_some, hrun]
  | none =>
    rw [Option.getD_none, Nat.sub_zero, List.drop_length]
    -- The bytes the decoder holds would have been found.
    by_contra hne
    have hincomplete := incomplete_held (Ne.symm hne)
    have hsuffix := held_run_suffix between bytes
    rw [held, List.nil_append] at hsuffix
    have hpos := List.length_pos_iff.mpr hincomplete.ne_nil
    have hthree := hincomplete.length_le
    have hle := hsuffix.length_le
    have hmem : (between.run bytes).2.held.length ∈ List.range' 1 (min bytes.length 3) := by
      rw [List.mem_range'_1]
      omega
    refine List.find?_eq_none.mp hfind _ hmem (endsEarly_iff.mpr ?_)
    rw [← List.suffix_iff_eq_drop.mp hsuffix]
    exact hincomplete

theorem decodeLossy_held (decoder : Decoder) :
    (decodeLossy decoder.held).bytes = replaceNulBytes decoder.finish := by
  show replaceNulBytes (fromUtf8Lossy decoder.held) = _
  rw [fromUtf8Lossy, run_held, List.nil_append]

/-- A read decoded behind what was left over is what a decoder gives out for it. -/
theorem decodeUtf8Chunk_held (decoder : Decoder) (bytes : Bytes) :
    (decodeUtf8Chunk decoder.held bytes).1.bytes = replaceNulBytes (decoder.run bytes).1 ∧
      (decodeUtf8Chunk decoder.held bytes).2 = (decoder.run bytes).2.held := by
  have hrun : between.run (decoder.held ++ bytes) = decoder.run bytes := by
    rw [run_append, run_held, List.nil_append]
  have hdrop := drop_incompleteUtf8Suffix (decoder.held ++ bytes)
  refine ⟨?_, hdrop.trans (by rw [hrun])⟩
  show replaceNulBytes (fromUtf8Lossy ((decoder.held ++ bytes).take _)) = _
  congr 1
  rw [← hrun]
  by_cases hheld : (between.run (decoder.held ++ bytes)).2.held = []
  · rw [hheld, List.drop_eq_nil_iff] at hdrop
    rw [List.take_of_length_le hdrop, fromUtf8Lossy, finish_of_held_eq_nil hheld, List.append_nil]
  · have hincomplete := incomplete_held hheld
    rw [← hdrop] at hincomplete
    have hfirst := (run_append_incomplete hincomplete ((decoder.held ++ bytes).take
      ((decoder.held ++ bytes).length - incompleteUtf8Suffix (decoder.held ++ bytes)))).1
    rw [List.take_append_drop] at hfirst
    exact hfirst.symm

/-- A text decoded as a whole is what a decoder gives out for it. -/
theorem decodeLossy_eq_run (bytes : Bytes) :
    (decodeLossy bytes).bytes =
      replaceNulBytes (between.run bytes).1 ++ replaceNulBytes (between.run bytes).2.finish :=
  replaceNulBytes_append _ _

end ScopeVcs.Runner

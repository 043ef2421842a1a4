import ScopeVcs.Storage.InPlace
import ScopeVcs.Storage.Reader

namespace ScopeVcs.Storage

open Mutation Bytes

namespace Source

variable {source source' : Source} {length : ℕ}

theorem rest_bytes (chunk : Chunk) (length : ℕ) :
    (rest chunk length).flatMap Chunk.bytes = chunk.bytes.drop length := by
  rw [rest]
  split
  · next h => simp [h]
  · simp

/-- Filling a buffer takes its bytes off the front, however they are cut into chunks. -/
theorem fill_eq_some {chunks chunks' : List Chunk} {bytes : Bytes}
    (h : fill length chunks = some (bytes, chunks')) :
    bytes.length = length ∧
      chunks.flatMap Chunk.bytes = bytes ++ chunks'.flatMap Chunk.bytes := by
  induction chunks generalizing length bytes chunks' with
  | nil =>
    cases length with
    | zero =>
      cases h
      exact ⟨rfl, rfl⟩
    | succ length => cases h
  | cons chunk chunks ih =>
    cases length with
    | zero =>
      cases h
      exact ⟨rfl, rfl⟩
    | succ length =>
      rw [fill] at h
      split at h
      · next hlt =>
        cases h
        refine ⟨List.length_take_of_le hlt.le, ?_⟩
        rw [List.flatMap_append, rest_bytes, ← List.append_assoc, List.take_append_drop,
          List.flatMap_cons]
      · next hle =>
        obtain ⟨⟨tail, left⟩, htail, heq⟩ := Option.map_eq_some_iff.mp h
        cases heq
        obtain ⟨hlength, hbytes⟩ := ih htail
        refine ⟨?_, ?_⟩
        · rw [List.length_append, hlength]
          omega
        · rw [List.flatMap_cons, hbytes, List.append_assoc]

theorem exists_fill {chunks : List Chunk} (h : length ≤ (chunks.flatMap Chunk.bytes).length) :
    ∃ bytes chunks', fill length chunks = some (bytes, chunks') := by
  induction chunks generalizing length with
  | nil =>
    obtain rfl : length = 0 := by simpa using h
    exact ⟨[], [], rfl⟩
  | cons chunk chunks ih =>
    cases length with
    | zero => exact ⟨[], _, rfl⟩
    | succ length =>
      rw [fill]
      by_cases hlt : length + 1 < chunk.bytes.length
      · rw [if_pos hlt]
        exact ⟨_, _, rfl⟩
      · rw [List.flatMap_cons, List.length_append] at h
        obtain ⟨bytes, chunks', hfill⟩ := @ih (length + 1 - chunk.bytes.length) (by omega)
        rw [if_neg hlt, hfill]
        exact ⟨_, _, rfl⟩

theorem readExactEnvelope_eq_ok {bytes : Bytes}
    (h : source.readExactEnvelope length = .ok (bytes, source')) :
    bytes.length = length ∧ source.bytes = bytes ++ source'.bytes ∧
      source'.failure = source.failure := by
  rw [readExactEnvelope] at h
  split at h
  · next hfill =>
    cases h
    obtain ⟨hlength, hbytes⟩ := fill_eq_some hfill
    exact ⟨hlength, hbytes, rfl⟩
  · split at h <;> cases h

/-- Bytes that are there are read, and those behind them stay. -/
theorem exists_readExactEnvelope {bytes behind : Bytes} (hbytes : source.bytes = bytes ++ behind)
    (hlength : bytes.length = length) :
    ∃ source', source.readExactEnvelope length = .ok (bytes, source') ∧ source'.bytes = behind ∧
      source'.failure = source.failure := by
  have hle : length ≤ (source.chunks.flatMap Chunk.bytes).length := by
    change length ≤ source.bytes.length
    rw [hbytes, List.length_append]
    omega
  obtain ⟨read, chunks, hfill⟩ := exists_fill hle
  have hok : source.readExactEnvelope length = .ok (read, { source with chunks }) := by
    rw [readExactEnvelope, hfill]
  obtain ⟨hread, hsplit, -⟩ := readExactEnvelope_eq_ok hok
  obtain ⟨rfl, hbehind⟩ := List.append_inj (hbytes.symm.trans hsplit) (by rw [hread, hlength])
  exact ⟨_, hok, hbehind.symm, rfl⟩

/-- A read of one byte gives none exactly when the source has ended. -/
theorem read_one_eq_nil (h : source.read 1 = .ok ([], source')) :
    source.bytes = [] ∧ source' = source := by
  rw [read] at h
  split at h
  · next hchunks =>
    split at h
    · cases h
      exact ⟨by rw [bytes, hchunks]; rfl, rfl⟩
    · cases h
  · next chunk chunks hchunks =>
    simp only [Except.ok.injEq, Prod.mk.injEq, List.take_eq_nil_iff, one_ne_zero, false_or] at h
    exact absurd h.1 chunk.ne_nil

theorem read_one_of_nil (hbytes : source.bytes = []) (hfailure : source.failure = none) :
    source.read 1 = .ok ([], source) := by
  rw [read]
  split
  · rw [hfailure]
  · next chunk chunks hchunks =>
    rw [bytes, hchunks, List.flatMap_cons, List.append_eq_nil_iff] at hbytes
    exact absurd hbytes.1 chunk.ne_nil

end Source

/-! ## Frames -/

/-- Nine bytes are the header of some frame. -/
theorem eq_frameHeader {bytes : Bytes} (hlength : bytes.length = FRAME_HEADER_BYTES) :
    bytes = frameHeader (ofBe (slice bytes 0 4)) (ofBe (slice bytes 4 4)) (bytes.getD 8 0) := by
  change bytes.length = 9 at hlength
  have hcounter : (slice bytes 0 4).length = 4 := length_slice (by omega)
  have hlen : (slice bytes 4 4).length = 4 := length_slice (by omega)
  have hfirst := be_ofBe (slice bytes 0 4)
  have hsecond := be_ofBe (slice bytes 4 4)
  rw [hcounter] at hfirst
  rw [hlen] at hsecond
  have hlast : bytes.drop 8 = [bytes.getD 8 0] := by
    rw [List.drop_eq_getElem_cons (by omega), List.getD_eq_getElem _ _ (by omega),
      List.drop_eq_nil_of_le (by omega)]
  have hmiddle : (bytes.drop 4).drop 4 = bytes.drop 8 := List.drop_drop
  rw [frameHeader, hfirst, hsecond, ← hlast, ← hmiddle, slice, slice, List.drop_zero,
    List.append_assoc, List.take_append_drop, List.take_append_drop]

section FrameHeader

variable {counter plaintextLen : ℕ} {flags : UInt8}

theorem counter_frameHeader (h : counter ≤ maxU32) :
    ofBe (slice (frameHeader counter plaintextLen flags) 0 4) = counter := by
  have hslice : slice (frameHeader counter plaintextLen flags) 0 4 = be 4 counter := by
    rw [frameHeader, List.append_assoc, slice_append_left (by rw [length_be])]
    have hself := slice_zero_length (be 4 counter)
    rwa [length_be] at hself
  rw [hslice]
  exact ofBe_be_of_lt (Nat.lt_succ_of_le h)

theorem plaintextLen_frameHeader (h : plaintextLen ≤ maxU32) :
    ofBe (slice (frameHeader counter plaintextLen flags) 4 4) = plaintextLen := by
  have hslice : slice (frameHeader counter plaintextLen flags) 4 4 = be 4 plaintextLen := by
    rw [frameHeader, List.append_assoc, slice_append_right (by rw [length_be]),
      List.take_append_of_le_length (by rw [length_be])]
    have hself := List.take_length (l := be 4 plaintextLen)
    rwa [length_be] at hself
  rw [hslice]
  exact ofBe_be_of_lt (Nat.lt_succ_of_le h)

theorem flags_frameHeader : (frameHeader counter plaintextLen flags).getD 8 0 = flags := by
  rw [frameHeader, List.getD_append_right _ _ _ _ (by simp)]
  simp

end FrameHeader

namespace EnvelopeReader

variable {crypto : Crypto} {reader reader' : EnvelopeReader} {source source' : Source}
  {frame : DecryptedFrame}

theorem flags_known {flags : UInt8} : flags &&& ~~~FINAL_FLAG = 0 ↔ flags = 0 ∨ flags = FINAL_FLAG := by
  have hall : ∀ b : BitVec 8, b &&& ~~~1#8 = 0 ↔ b = 0 ∨ b = 1 := by decide
  have hbits := hall flags.toBitVec
  rw [← UInt8.toBitVec_inj, ← UInt8.toBitVec_inj (a := flags), ← UInt8.toBitVec_inj (a := flags)]
  exact hbits

/-- A frame that the reader accepts: its header names the next counter, its tag is checked, and only
the final frame is empty. -/
structure Accepts (crypto : Crypto) (reader : EnvelopeReader) (flags : UInt8)
    (plaintext ciphertext : Bytes) (plaintextLen : ℕ) : Prop where
  open_ : reader.sawFinal = false
  counter : reader.nextCounter < maxU32
  known : flags = 0 ∨ flags = FINAL_FLAG
  final : flags = FINAL_FLAG ↔ plaintextLen = 0
  fits : plaintextLen ≤ reader.frameBytes
  small : plaintextLen ≤ maxU32
  length : ciphertext.length = plaintextLen + TAG_BYTES
  decrypt : crypto.decrypt reader.cipher (nonce reader.noncePrefix reader.nextCounter)
    (associatedData reader.header reader.scope
      (frameHeader reader.nextCounter plaintextLen flags)) ciphertext = some plaintext

/-- The reader behind a frame. -/
def advance (reader : EnvelopeReader) (flags : UInt8) : EnvelopeReader :=
  { reader with
    nextCounter := reader.nextCounter + 1
    sawFinal := decide (flags = FINAL_FLAG) }

/-- What the frame hands out. -/
def delivered (flags : UInt8) (plaintext : Bytes) : DecryptedFrame :=
  if flags = FINAL_FLAG then .final else .data plaintext

theorem next_eq_ok (h : reader.next crypto source = .ok (frame, reader', source')) :
    ∃ flags plaintext ciphertext plaintextLen,
      reader.Accepts crypto flags plaintext ciphertext plaintextLen ∧
      source.bytes = frameHeader reader.nextCounter plaintextLen flags ++ ciphertext ++
        source'.bytes ∧
      source'.failure = source.failure ∧ frame = delivered flags plaintext ∧
      reader' = reader.advance flags := by
  rw [next, except_unit_bind_eq_ok, rejectIf_eq_ok] at h
  obtain ⟨hopen, h⟩ := h
  obtain ⟨⟨header, source₁⟩, hheader, h⟩ := except_bind_eq_ok.mp h
  obtain ⟨hheaderlen, hbytes, hfailure⟩ := Source.readExactEnvelope_eq_ok hheader
  have hheadereq := eq_frameHeader hheaderlen
  have hsmall : ofBe (slice header 4 4) ≤ maxU32 := by
    have hlt := ofBe_lt (slice header 4 4)
    rw [length_slice (by rw [hheaderlen]; decide)] at hlt
    exact Nat.le_of_lt_succ hlt
  simp only [except_unit_bind_eq_ok, rejectIf_eq_ok, ne_eq, not_not, not_lt] at h
  obtain ⟨hcounter, hflags, hfinal, hfits, h⟩ := h
  obtain ⟨⟨ciphertext, source₂⟩, hciphertext, h⟩ := except_bind_eq_ok.mp h
  obtain ⟨hlength, hbytes₁, hfailure₁⟩ := Source.readExactEnvelope_eq_ok hciphertext
  rw [hcounter] at hheadereq
  simp only at h
  split at h
  · cases h
  · next plaintext hdecrypt =>
    simp only [except_unit_bind_eq_ok, rejectIf_eq_ok, not_le] at h
    obtain ⟨hlt, h⟩ := h
    rw [hcounter] at hdecrypt
    have hclosed : reader.sawFinal = false := by simpa using hopen
    obtain ⟨rfl, hframe, hreader⟩ : source₂ = source' ∧
        frame = delivered (header.getD 8 0) plaintext ∧
        reader' = reader.advance (header.getD 8 0) := by
      rw [delivered, advance]
      by_cases hflag : header.getD 8 0 = FINAL_FLAG
      · rw [if_pos hflag] at h
        cases h
        rw [if_pos hflag, decide_eq_true hflag]
        exact ⟨rfl, rfl, rfl⟩
      · rw [if_neg hflag] at h
        cases h
        rw [if_neg hflag, decide_eq_false hflag, ← hclosed]
        exact ⟨rfl, rfl, rfl⟩
    refine ⟨header.getD 8 0, plaintext, ciphertext, ofBe (slice header 4 4), ⟨hclosed, hlt,
      flags_known.mp hflags, hfinal, hfits, hsmall, hlength, ?_⟩, ?_,
      hfailure₁.trans hfailure, hframe, hreader⟩
    · rw [← hheadereq]
      exact hdecrypt
    · rw [← hheadereq, List.append_assoc, ← hbytes₁]
      exact hbytes

/-- The reader takes every frame that it accepts. -/
theorem exists_next {flags : UInt8} {plaintext ciphertext behind : Bytes} {plaintextLen : ℕ}
    (haccepts : reader.Accepts crypto flags plaintext ciphertext plaintextLen)
    (hbytes : source.bytes = frameHeader reader.nextCounter plaintextLen flags ++ ciphertext ++ behind) :
    ∃ source', reader.next crypto source =
        .ok (delivered flags plaintext, reader.advance flags, source') ∧
      source'.bytes = behind ∧ source'.failure = source.failure := by
  rw [List.append_assoc] at hbytes
  obtain ⟨source₁, hheader, hbytes₁, hfailure₁⟩ := Source.exists_readExactEnvelope hbytes
    (EnvelopeWriter.length_frameHeader ..)
  obtain ⟨source₂, hciphertext, hbytes₂, hfailure₂⟩ := Source.exists_readExactEnvelope hbytes₁
    haccepts.length
  have hfinal : ¬¬(flags = FINAL_FLAG ↔ plaintextLen = 0) := not_not.mpr haccepts.final
  refine ⟨source₂, ?_, hbytes₂, hfailure₂.trans hfailure₁⟩
  rw [next, rejectIf_of_not (by simp [haccepts.open_]), except_ok_bind, hheader, except_ok_bind]
  simp only [counter_frameHeader haccepts.counter.le, plaintextLen_frameHeader haccepts.small,
    flags_frameHeader]
  rw [rejectIf_of_not (by simp), except_ok_bind,
    rejectIf_of_not (not_not.mpr (flags_known.mpr haccepts.known)), except_ok_bind,
    rejectIf_of_not hfinal, except_ok_bind, rejectIf_of_not (not_lt.mpr haccepts.fits),
    except_ok_bind, hciphertext, except_ok_bind]
  simp only [haccepts.decrypt, rejectIf_of_not (not_le.mpr haccepts.counter), except_ok_bind]
  rw [delivered, advance]
  by_cases hflag : flags = FINAL_FLAG
  · rw [if_pos hflag, if_pos hflag, decide_eq_true hflag]
    rfl
  · rw [if_neg hflag, if_neg hflag, decide_eq_false hflag, ← haccepts.open_]
    rfl

/-- A frame takes bytes off the source. -/
theorem length_next_lt (h : reader.next crypto source = .ok (frame, reader', source')) :
    source'.bytes.length < source.bytes.length := by
  obtain ⟨flags, plaintext, ciphertext, plaintextLen, -, hbytes, -⟩ := next_eq_ok h
  rw [hbytes, List.length_append, List.length_append, EnvelopeWriter.length_frameHeader,
    FRAME_HEADER_BYTES]
  omega

end EnvelopeReader

end ScopeVcs.Storage

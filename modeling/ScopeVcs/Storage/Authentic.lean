import ScopeVcs.Storage.Encodings

/-! # The readers accept whole outputs of writers

With a cipher that decrypts only what some writer encrypted, every frame that the reader takes was
written at its place, by one writer, for the scope of the reader. A read that succeeds has read the
whole output of that writer, and one that fails has delivered a prefix of it.
-/

namespace ScopeVcs.Storage

open Mutation Bytes

/-! ## Writers -/

/-- A run of the writer: some chunks, and the final frame unless it was stopped before. -/
structure Writing (crypto : Crypto) where
  key : EncryptionKey
  scope : EnvelopeScope
  frameBytes : ℕ
  noncePrefix : NoncePrefix
  writer : EnvelopeWriter
  started : EnvelopeWriter.new crypto key scope frameBytes (.ok noncePrefix) = .ok writer
  chunks : List Bytes
  chunks_ne_nil : ∀ chunk ∈ chunks, chunk ≠ []
  last : EnvelopeWriter
  frames : Bytes
  encrypted : encryptChunks crypto writer chunks = .ok (last, frames)
  finalFrame : Option Bytes
  finished : ∀ frame ∈ finalFrame, ∃ ended, last.encryptFinal crypto = .ok (ended, frame)

namespace Writing

variable {crypto : Crypto}

/-- The plaintexts that it encrypted, in order, with their flags. -/
def sealed (writing : Writing crypto) : List (Bytes × UInt8) :=
  writing.chunks.map (fun chunk => (chunk, 0)) ++
    if writing.finalFrame.isSome = true then [([], FINAL_FLAG)] else []

/-- The complete output, if the writer finished. -/
def output (writing : Writing crypto) : Option Bytes :=
  writing.finalFrame.map fun frame => writing.writer.header ++ writing.frames ++ frame

/-- It encrypted this plaintext, under this nonce and associated data. -/
def Encrypted (writing : Writing crypto) (nonceBytes aad plaintext message : Bytes) : Prop :=
  ∃ counter flags ciphertext tag, writing.sealed[counter]? = some (plaintext, flags) ∧
    nonceBytes = nonce writing.writer.noncePrefix counter ∧
    aad = associatedData writing.writer.header writing.scope
      (frameHeader counter plaintext.length flags) ∧
    crypto.encrypt writing.writer.cipher nonceBytes aad plaintext = some (ciphertext, tag) ∧
    message = ciphertext ++ tag

/-- The fields of the writer that was started. -/
theorem writer_eq (writing : Writing crypto) :
    writing.frameBytes ≤ maxU32 ∧ writing.writer = {
      cipher := scopeCipher crypto writing.key writing.scope
      header := envelopeHeader writing.key writing.noncePrefix writing.frameBytes
      noncePrefix := writing.noncePrefix.bytes
      scope := writing.scope
      nextCounter := 0 } := by
  have hstarted := writing.started
  rw [EnvelopeWriter.new] at hstarted
  split at hstarted
  · cases hstarted
  · next hsize =>
    split at hstarted
    · cases hstarted
    · exact ⟨not_lt.mp hsize, (Except.ok.inj hstarted).symm⟩

/-- A complete output is what the streaming writer returns. -/
theorem sealStream_eq (writing : Writing crypto) {bytes : Bytes} (h : writing.output = some bytes) :
    sealStream crypto writing.key writing.scope writing.frameBytes (.ok writing.noncePrefix)
      writing.chunks = .ok bytes := by
  obtain ⟨frame, hframe, rfl⟩ := Option.map_eq_some_iff.mp h
  obtain ⟨ended, hended⟩ := writing.finished frame hframe
  rw [EnvelopeWriter.encryptFinal_eq] at hended
  exact sealStream_eq_ok.mpr ⟨_, _, _, _, _, writing.started, writing.encrypted, hended, rfl⟩

/-- The counters of the frames fit, and so do their lengths. -/
theorem encryptChunks_bound {writer last : EnvelopeWriter} {chunks : List Bytes} {frames : Bytes}
    (hne : ∀ chunk ∈ chunks, chunk ≠ [])
    (h : encryptChunks crypto writer chunks = .ok (last, frames)) (hstart : writer.nextCounter ≤ maxU32) :
    last = { writer with nextCounter := writer.nextCounter + chunks.length } ∧
      writer.nextCounter + chunks.length ≤ maxU32 ∧ ∀ chunk ∈ chunks, chunk.length ≤ maxU32 := by
  induction chunks generalizing writer frames with
  | nil =>
    cases h
    exact ⟨rfl, hstart, fun _ h => by cases h⟩
  | cons chunk chunks ih =>
    have hchunk := hne chunk List.mem_cons_self
    cases hframe : writer.sealPlaintext crypto chunk 0 with
    | error error =>
      rw [encryptChunks_cons_of_error hchunk hframe] at h
      cases h
    | ok pair =>
      obtain ⟨writer₁, frame⟩ := pair
      obtain ⟨hcounter, hlength, ciphertext, tag, -, rfl, -⟩ :=
        EnvelopeWriter.sealPlaintext_eq_ok.mp hframe
      rw [encryptChunks_cons_of_ok hchunk hframe] at h
      cases hrest : encryptChunks crypto
          { writer with nextCounter := writer.nextCounter + 1 } chunks with
      | error error =>
        rw [hrest] at h
        cases h
      | ok rest =>
        rw [hrest] at h
        cases h
        obtain ⟨hlast, hbound, hlengths⟩ :=
          ih (fun c hc => hne c (List.mem_cons_of_mem _ hc)) hrest hcounter
        rw [List.length_cons]
        refine ⟨?_, ?_, fun c hc => ?_⟩
        · rw [hlast, Nat.add_comm chunks.length 1, ← Nat.add_assoc]
        · change writer.nextCounter + 1 + chunks.length ≤ maxU32 at hbound
          omega
        · rcases List.mem_cons.mp hc with rfl | hc
          · exact hlength
          · exact hlengths c hc

theorem last_eq (writing : Writing crypto) :
    writing.last = { writing.writer with nextCounter := writing.chunks.length } ∧
      writing.chunks.length ≤ maxU32 ∧ ∀ chunk ∈ writing.chunks, chunk.length ≤ maxU32 := by
  have hzero : writing.writer.nextCounter = 0 := by rw [writing.writer_eq.2]
  have hbound := encryptChunks_bound writing.chunks_ne_nil writing.encrypted
    (by rw [hzero]; exact Nat.zero_le _)
  rwa [hzero, Nat.zero_add] at hbound

/-- A sealed plaintext is a chunk at its place, or the final one behind all chunks. -/
theorem sealed_eq_some {writing : Writing crypto} {counter : ℕ} {plaintext : Bytes} {flags : UInt8}
    (h : writing.sealed[counter]? = some (plaintext, flags)) :
    (flags = 0 ∧ writing.chunks[counter]? = some plaintext) ∨
      (flags = FINAL_FLAG ∧ plaintext = [] ∧ counter = writing.chunks.length ∧
        writing.finalFrame.isSome = true) := by
  rw [sealed] at h
  by_cases hlt : counter < writing.chunks.length
  · rw [List.getElem?_append_left (by simpa using hlt), List.getElem?_map] at h
    obtain ⟨chunk, hchunk, heq⟩ := Option.map_eq_some_iff.mp h
    cases heq
    exact .inl ⟨rfl, hchunk⟩
  · rw [List.getElem?_append_right (by simpa using hlt), List.length_map] at h
    split at h
    · next hfinal =>
      have hindex : counter - writing.chunks.length = 0 := by
        by_contra hne
        rw [List.getElem?_eq_none (by rw [List.length_singleton]; omega)] at h
        cases h
      rw [hindex] at h
      cases h
      exact .inr ⟨rfl, rfl, by omega, hfinal⟩
    · simp at h

end Writing

/-- The cipher decrypts only what a writer encrypted under the same key, nonce and associated data. -/
def Unforgeable (crypto : Crypto) (writings : Set (Writing crypto)) : Prop :=
  ∀ cipher nonceBytes aad message plaintext,
    crypto.decrypt cipher nonceBytes aad message = some plaintext →
      ∃ writing ∈ writings, writing.writer.cipher = cipher ∧
        writing.Encrypted nonceBytes aad plaintext message

/-- No two writers were given the same random nonce prefix. -/
def NoncesDistinct {crypto : Crypto} (writings : Set (Writing crypto)) : Prop :=
  ∀ writing ∈ writings, ∀ writing' ∈ writings, writing.noncePrefix = writing'.noncePrefix →
    writing = writing'

/-! ## Accepted frames -/

/-- The reader reads the envelope that the writer writes. -/
structure Follows {crypto : Crypto} (reader : EnvelopeReader) (writing : Writing crypto) : Prop where
  cipher : reader.cipher = writing.writer.cipher
  header : reader.header = writing.writer.header
  noncePrefix : reader.noncePrefix = writing.noncePrefix.bytes
  scope : reader.scope = writing.scope

/-- The reader of a header, with its key and scope. -/
structure Opened (key : EncryptionKey) (scope : EnvelopeScope) (reader : EnvelopeReader) : Prop where
  intro ::
  scope_eq : reader.scope = scope
  exists_header : ∃ noncePrefix, reader.noncePrefix = noncePrefix.bytes ∧
    reader.frameBytes ≤ maxU32 ∧ reader.header = envelopeHeader key noncePrefix reader.frameBytes

/-- The five fields in front of the key id. -/
theorem eq_fields {fixed : Bytes} (hlength : fixed.length = HEADER_FIXED_BYTES) :
    fixed = slice fixed 0 8 ++ be 4 (ofBe (slice fixed 8 4)) ++ be 2 (ofBe (slice fixed 12 2)) ++
      slice fixed 14 8 ++ be 4 (ofBe (slice fixed 22 4)) := by
  change fixed.length = 26 at hlength
  have hversion := be_ofBe (slice fixed 8 4)
  have hkey := be_ofBe (slice fixed 12 2)
  have hframe := be_ofBe (slice fixed 22 4)
  rw [length_slice (by omega)] at hversion hkey hframe
  have hlast : slice fixed 22 4 = fixed.drop 22 := by
    rw [slice, List.take_of_length_le (by rw [List.length_drop, hlength])]
  have hcut : ∀ {start length : ℕ}, slice fixed start length ++ fixed.drop (start + length) =
      fixed.drop start := by
    intro start length
    rw [slice, ← List.drop_drop, List.take_append_drop]
  rw [hversion, hkey, hframe, hlast]
  simp only [List.append_assoc]
  rw [@hcut 14 8, @hcut 12 2, @hcut 8 4, @hcut 0 8, List.drop_zero]

/-- The header that the reader accepts is that of its key. -/
theorem readHeader_eq_ok {crypto : Crypto} {key : EncryptionKey} {scope : EnvelopeScope}
    {source source' : Source} {reader : EnvelopeReader}
    (h : EnvelopeReader.readHeader crypto source key scope = .ok (reader, source')) :
    Opened key scope reader ∧ reader.nextCounter = 0 ∧
      source.bytes = reader.header ++ source'.bytes := by
  obtain ⟨⟨fixed, source₁⟩, hfixed, h⟩ := except_bind_eq_ok.mp h
  obtain ⟨hlength, hbytes, -⟩ := Source.readExactEnvelope_eq_ok hfixed
  simp only [except_unit_bind_eq_ok, rejectIf_eq_ok, ne_eq, not_not] at h
  obtain ⟨hmagic, hversion, -, hsize, h⟩ := h
  obtain ⟨⟨keyId, source₂⟩, hkeyid, h⟩ := except_bind_eq_ok.mp h
  obtain ⟨hkeylen, hbytes₁, -⟩ := Source.readExactEnvelope_eq_ok hkeyid
  simp only [except_unit_bind_eq_ok, rejectIf_eq_ok, not_not] at h
  obtain ⟨rfl, h⟩ := h
  cases h
  have hfront : (slice fixed 14 8).length = 8 := length_slice (by rw [hlength]; decide)
  have hframeBytes : ofBe (slice fixed 22 4) ≤ maxU32 := by
    have hlt := ofBe_lt (slice fixed 22 4)
    rw [length_slice (by rw [hlength]; decide)] at hlt
    exact Nat.le_of_lt_succ hlt
  refine ⟨⟨rfl, ⟨slice fixed 14 8, hfront⟩, rfl, hframeBytes, ?_⟩, rfl, ?_⟩
  · have hfields := eq_fields hlength
    rw [hmagic, hversion, ← hkeylen] at hfields
    rw [envelopeHeader, ← hfields]
  · rw [hbytes, hbytes₁, List.append_assoc]

section Frames

variable {crypto : Crypto} {writings : Set (Writing crypto)} {key : EncryptionKey}
  {scope : EnvelopeScope} {reader : EnvelopeReader}

/-- What an accepted frame is: the frame that a writer wrote at this place. -/
theorem exists_writing (hideal : Unforgeable crypto writings)
    (hbelow : ∀ writing ∈ writings, writing.scope.PartsBelow (2 ^ 32))
    (hscope : scope.PartsBelow (2 ^ 32)) (hopened : Opened key scope reader) {flags : UInt8}
    {plaintext ciphertext : Bytes} {plaintextLen : ℕ}
    (haccepts : reader.Accepts crypto flags plaintext ciphertext plaintextLen) :
    ∃ writing ∈ writings, Follows reader writing ∧
      writing.sealed[reader.nextCounter]? = some (plaintext, flags) ∧
      ∃ next, ({ writing.writer with nextCounter := reader.nextCounter } : EnvelopeWriter).sealPlaintext
        crypto plaintext flags =
          .ok (next, frameHeader reader.nextCounter plaintextLen flags ++ ciphertext) := by
  obtain ⟨noncePrefix, hfront, hsize, hheader⟩ := hopened.exists_header
  obtain ⟨writing, hmem, hcipher, counter, flags', ciphertext', tag, hsealed, hnonce, haad, hencrypt,
    rfl⟩ := hideal _ _ _ _ _ haccepts.decrypt
  obtain ⟨hsize', hwriter⟩ := writing.writer_eq
  obtain ⟨-, hcount, hlengths⟩ := writing.last_eq
  -- the nonce names the prefix and the counter
  have hwriterNonce : writing.writer.noncePrefix = writing.noncePrefix.bytes := by rw [hwriter]
  rw [hfront, hwriterNonce] at hnonce
  obtain ⟨hprefixes, hcounters⟩ := List.append_inj hnonce
    (by rw [noncePrefix.length_eq, writing.noncePrefix.length_eq])
  have hshort : counter ≤ maxU32 ∧ plaintext.length ≤ maxU32 := by
    rcases Writing.sealed_eq_some hsealed with ⟨-, hchunk⟩ | ⟨-, rfl, rfl, -⟩
    · obtain ⟨hlt, rfl⟩ := List.getElem?_eq_some_iff.mp hchunk
      exact ⟨by omega, hlengths _ (List.getElem_mem hlt)⟩
    · exact ⟨hcount, Nat.zero_le _⟩
  obtain rfl : counter = reader.nextCounter :=
    (be_inj (Nat.lt_succ_of_le haccepts.counter.le) (Nat.lt_succ_of_le hshort.1) hcounters).symm
  -- the associated data names the header, the scope and the frame header
  have hwriterheader : writing.writer.header =
      envelopeHeader writing.key writing.noncePrefix writing.frameBytes := by rw [hwriter]
  rw [associatedData, associatedData, hheader, hwriterheader, hopened.scope_eq, List.append_assoc,
    List.append_assoc] at haad
  obtain ⟨hid, hnonces, hframes, hrest⟩ := envelopeHeader_inj hsize hsize' haad
  obtain ⟨hscopes, hframe⟩ := scopeData_inj hscope (hbelow writing hmem) (by simp) hrest
  obtain ⟨-, rfl, rfl⟩ := frameHeader_inj haccepts.counter.le hshort.1 haccepts.small hshort.2 hframe
  have hheaders : reader.header = writing.writer.header := by
    rw [hheader, hwriterheader, envelopeHeader, envelopeHeader, hid, hnonces, hframes]
  have hwriterscope : writing.writer.scope = reader.scope := by
    rw [hwriter, hopened.scope_eq, hscopes]
  refine ⟨writing, hmem, ⟨hcipher.symm, hheaders, hfront.trans hprefixes,
    hopened.scope_eq.trans hscopes⟩, hsealed,
    { writing.writer with nextCounter := reader.nextCounter + 1 }, ?_⟩
  rw [← List.append_assoc]
  refine EnvelopeWriter.sealPlaintext_eq_ok.mpr ⟨haccepts.counter, hshort.2, ciphertext', tag, ?_,
    rfl, rfl⟩
  rw [hwriterNonce, ← hprefixes, ← hfront, ← hheaders, hwriterscope, hcipher]
  rw [hcipher] at hencrypt
  exact hencrypt

/-- A reader follows one writer at most. -/
theorem Follows.unique (hnonces : NoncesDistinct writings) {writing writing' : Writing crypto}
    (hmem : writing ∈ writings) (hmem' : writing' ∈ writings) (h : Follows reader writing)
    (h' : Follows reader writing') : writing = writing' := by
  apply hnonces writing hmem writing' hmem'
  apply NoncePrefix.bytes_injective
  rw [← h.noncePrefix, h'.noncePrefix]

end Frames

end ScopeVcs.Storage

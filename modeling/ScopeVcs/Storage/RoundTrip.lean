import ScopeVcs.Storage.Restore

/-! # What is sealed is read back

A writer and a reader that agree on the header and the counter stay in step over every frame, so the
three readers deliver the plaintext of an envelope and then its end, whatever the chunks in which the
bytes arrive.
-/

namespace ScopeVcs.Storage

open Mutation Bytes

/-- The cipher encrypts everything that fits a frame, and decrypts what it encrypted. -/
structure Crypto.Correct (crypto : Crypto) : Prop where
  encrypts : ∀ key nonce aad plaintext, plaintext.length ≤ maxU32 →
    (crypto.encrypt key nonce aad plaintext).isSome = true
  decrypt_encrypt : ∀ {key nonce aad plaintext ciphertext tag},
    crypto.encrypt key nonce aad plaintext = some (ciphertext, tag) →
      crypto.decrypt key nonce aad (ciphertext ++ tag) = some plaintext

variable {crypto : Crypto}

/-! ## Writing succeeds -/

theorem EnvelopeWriter.exists_sealPlaintext (hcrypto : crypto.Correct) {writer : EnvelopeWriter}
    {plaintext : Bytes} (flags : UInt8) (hcounter : writer.nextCounter < maxU32)
    (hlength : plaintext.length ≤ maxU32) :
    ∃ frame, writer.sealPlaintext crypto plaintext flags =
      .ok ({ writer with nextCounter := writer.nextCounter + 1 }, frame) := by
  obtain ⟨⟨ciphertext, tag⟩, hencrypt⟩ := Option.isSome_iff_exists.mp
    (hcrypto.encrypts writer.cipher (nonce writer.noncePrefix writer.nextCounter)
      (associatedData writer.header writer.scope
        (frameHeader writer.nextCounter plaintext.length flags)) plaintext hlength)
  exact ⟨_, sealPlaintext_eq_ok.mpr ⟨hcounter, hlength, ciphertext, tag, hencrypt, rfl, rfl⟩⟩

/-- Chunks that a frame can hold, as many as the counter allows. -/
theorem exists_encryptChunks (hcrypto : crypto.Correct) {writer : EnvelopeWriter}
    {chunks : List Bytes} (hchunks : ∀ chunk ∈ chunks, chunk ≠ [] ∧ chunk.length ≤ maxU32)
    (hcounter : writer.nextCounter + chunks.length ≤ maxU32) :
    ∃ frames, encryptChunks crypto writer chunks =
      .ok ({ writer with nextCounter := writer.nextCounter + chunks.length }, frames) := by
  induction chunks generalizing writer with
  | nil => exact ⟨[], rfl⟩
  | cons chunk chunks ih =>
    rw [List.length_cons] at hcounter
    obtain ⟨hne, hlength⟩ := hchunks chunk List.mem_cons_self
    have hlt : writer.nextCounter < maxU32 := by omega
    obtain ⟨frame, hframe⟩ := EnvelopeWriter.exists_sealPlaintext hcrypto 0 hlt hlength
    obtain ⟨frames, hframes⟩ := @ih { writer with nextCounter := writer.nextCounter + 1 }
      (fun c hc => hchunks c (List.mem_cons_of_mem _ hc)) (by
        change writer.nextCounter + 1 + chunks.length ≤ maxU32
        omega)
    refine ⟨frame ++ frames, ?_⟩
    rw [encryptChunks_cons_of_ok hne hframe, hframes, except_map_ok, List.length_cons]
    change Except.ok ({ writer with nextCounter := writer.nextCounter + 1 + chunks.length }, _) = _
    rw [Nat.add_assoc, Nat.add_comm 1]

/-! ## Writer and reader in step -/

/-- The reader expects what the writer writes next. -/
structure InStep (writer : EnvelopeWriter) (reader : EnvelopeReader) : Prop where
  cipher : reader.cipher = writer.cipher
  header : reader.header = writer.header
  noncePrefix : reader.noncePrefix = writer.noncePrefix
  scope : reader.scope = writer.scope
  counter : reader.nextCounter = writer.nextCounter
  opened : reader.sawFinal = false

namespace InStep

variable {writer writer' : EnvelopeWriter} {reader : EnvelopeReader} {source : Source}
  {plaintext frame behind : Bytes}

/-- The reader takes the frame that the writer has sealed. -/
theorem next (hcrypto : crypto.Correct) (h : InStep writer reader) {flags : UInt8}
    (hknown : flags = 0 ∨ flags = FINAL_FLAG) (hfinal : flags = FINAL_FLAG ↔ plaintext.length = 0)
    (hfits : plaintext.length ≤ reader.frameBytes)
    (hframe : writer.sealPlaintext crypto plaintext flags = .ok (writer', frame))
    (hbytes : source.bytes = frame ++ behind) :
    ∃ source', reader.next crypto source =
        .ok (EnvelopeReader.delivered flags plaintext, reader.advance flags, source') ∧
      source'.bytes = behind ∧ source'.failure = source.failure ∧
      writer' = { writer with nextCounter := writer.nextCounter + 1 } := by
  obtain ⟨hcounter, hlength, ciphertext, tag, hencrypt, hwriter, rfl⟩ :=
    EnvelopeWriter.sealPlaintext_eq_ok.mp hframe
  obtain ⟨hciphertext, htag⟩ := crypto.length_encrypt hencrypt
  have haccepts : reader.Accepts crypto flags plaintext (ciphertext ++ tag) plaintext.length := {
    open_ := h.opened
    counter := h.counter ▸ hcounter
    known := hknown
    final := hfinal
    fits := hfits
    small := hlength
    length := by rw [List.length_append, hciphertext, htag]
    decrypt := by
      rw [h.cipher, h.noncePrefix, h.header, h.scope, h.counter]
      exact hcrypto.decrypt_encrypt hencrypt }
  obtain ⟨source', hnext, hbehind, hfailure⟩ := EnvelopeReader.exists_next haccepts
    (by rw [hbytes, h.counter, List.append_assoc _ ciphertext tag])
  exact ⟨source', hnext, hbehind, hfailure, hwriter⟩

/-- The reader yields the chunks that the writer was given, and stays in step. -/
theorem yields (hcrypto : crypto.Correct) {chunks : List Bytes} {frames : Bytes}
    (h : InStep writer reader)
    (hchunks : ∀ chunk ∈ chunks, chunk ≠ [] ∧ chunk.length ≤ reader.frameBytes)
    (hframes : encryptChunks crypto writer chunks = .ok (writer', frames))
    (hbytes : source.bytes = frames ++ behind) :
    ∃ reader' source', (EnvelopeReader.producer crypto).Yields (reader, source) chunks
        (reader', source') ∧ InStep writer' reader' ∧ source'.bytes = behind ∧
      source'.failure = source.failure := by
  induction chunks generalizing writer reader source frames with
  | nil =>
    cases hframes
    exact ⟨reader, source, .nil, h, hbytes, rfl⟩
  | cons chunk chunks ih =>
    obtain ⟨hne, hfits⟩ := hchunks chunk List.mem_cons_self
    cases hframe : writer.sealPlaintext crypto chunk 0 with
    | error error =>
      rw [encryptChunks_cons_of_error hne hframe] at hframes
      cases hframes
    | ok pair =>
      obtain ⟨writer₁, frame⟩ := pair
      rw [encryptChunks_cons_of_ok hne hframe] at hframes
      cases hrest : encryptChunks crypto writer₁ chunks with
      | error error =>
        rw [hrest] at hframes
        cases hframes
      | ok rest =>
        rw [hrest] at hframes
        cases hframes
        rw [List.append_assoc] at hbytes
        have hdata : (0 : UInt8) = FINAL_FLAG ↔ chunk.length = 0 :=
          iff_of_false (by decide) (List.length_pos_iff_ne_nil.mpr hne).ne'
        obtain ⟨source₁, hnext, hbytes₁, hfailure₁, rfl⟩ :=
          h.next hcrypto (.inl rfl) hdata hfits hframe hbytes
        have hstep : InStep { writer with nextCounter := writer.nextCounter + 1 }
            (reader.advance 0) :=
          ⟨h.cipher, h.header, h.noncePrefix, h.scope, congrArg (· + 1) h.counter, rfl⟩
        obtain ⟨reader', source', hyields, hstep', hbytes', hfailure'⟩ :=
          ih hstep (fun c hc => hchunks c (List.mem_cons_of_mem _ hc)) hrest hbytes₁
        refine ⟨reader', source', .cons ?_ hyields, hstep', hbytes', hfailure'.trans hfailure₁⟩
        change (reader.next crypto source >>= _) = _
        rw [hnext]
        rfl

end InStep

/-! ## The header -/

theorem length_envelopeHeader (key : EncryptionKey) (noncePrefix : NoncePrefix) (frameBytes : ℕ) :
    (envelopeHeader key noncePrefix frameBytes).length = HEADER_FIXED_BYTES + key.keyId.length := by
  simp only [envelopeHeader, List.length_append, length_be, noncePrefix.length_eq]
  rfl

/-- The reader of a header is in step with the writer that wrote it. -/
theorem exists_readHeader {key : EncryptionKey} {scope : EnvelopeScope} {frameBytes : ℕ}
    {noncePrefix : NoncePrefix} {writer : EnvelopeWriter} {source : Source} {behind : Bytes}
    (hsize : 0 < frameBytes) (hmax : frameBytes ≤ MAX_FRAME_BYTES)
    (hwriter : EnvelopeWriter.new crypto key scope frameBytes (.ok noncePrefix) = .ok writer)
    (hbytes : source.bytes = writer.header ++ behind) :
    ∃ reader source', EnvelopeReader.readHeader crypto source key scope = .ok (reader, source') ∧
      InStep writer reader ∧ reader.frameBytes = frameBytes ∧ source'.bytes = behind ∧
      source'.failure = source.failure := by
  have hkeyid : key.keyId.length ≤ 1024 := key.keyId_le
  have hpos : 0 < key.keyId.length := List.length_pos_iff_ne_nil.mpr key.keyId_ne_nil
  have hu32 : frameBytes ≤ maxU32 := le_trans hmax (by decide)
  rw [EnvelopeWriter.new, if_neg (not_lt.mpr hu32), if_neg (by omega)] at hwriter
  cases hwriter
  -- the fixed part, in the order of its fields
  let fixed := MAGIC ++ (be 4 ENCODING_VERSION ++ (be 2 key.keyId.length ++
    (noncePrefix.bytes ++ be 4 frameBytes)))
  have hheader : envelopeHeader key noncePrefix frameBytes = fixed ++ key.keyId := by
    simp only [envelopeHeader, fixed, List.append_assoc]
  have hmagic : slice fixed 0 8 = MAGIC := by
    rw [slice_append_left (by decide)]
    exact slice_zero_length MAGIC
  have hversion : ofBe (slice fixed 8 4) = ENCODING_VERSION := by
    rw [slice_append_middle (by decide) (by rw [length_be])]
    decide
  have hfixedlen : fixed.length = HEADER_FIXED_BYTES := by
    have hlen := length_envelopeHeader key noncePrefix frameBytes
    rw [hheader, List.length_append] at hlen
    omega
  have hkey : ofBe (slice fixed 12 2) = key.keyId.length := by
    have hcut : fixed = (MAGIC ++ be 4 ENCODING_VERSION) ++ (be 2 key.keyId.length ++
        (noncePrefix.bytes ++ be 4 frameBytes)) := by
      simp only [fixed, List.append_assoc]
    rw [hcut, slice_append_middle (by decide) (by rw [length_be]), ofBe_be_of_lt (by omega)]
  have hfront : slice fixed 14 8 = noncePrefix.bytes := by
    have hcut : fixed = (MAGIC ++ be 4 ENCODING_VERSION ++ be 2 key.keyId.length) ++
        (noncePrefix.bytes ++ be 4 frameBytes) := by
      simp only [fixed, List.append_assoc]
    rw [hcut, slice_append_middle (by simp only [List.length_append, length_be]; rfl)
      noncePrefix.length_eq.symm]
  have hframe : ofBe (slice fixed 22 4) = frameBytes := by
    have hcut : fixed = (MAGIC ++ be 4 ENCODING_VERSION ++ be 2 key.keyId.length ++
        noncePrefix.bytes) ++ (be 4 frameBytes ++ []) := by
      simp only [fixed, List.append_assoc, List.append_nil]
    rw [hcut, slice_append_middle
      (by simp only [List.length_append, length_be, noncePrefix.length_eq]; rfl)
      (by rw [length_be]), ofBe_be_of_lt (Nat.lt_succ_of_le hu32)]
  change source.bytes = envelopeHeader key noncePrefix frameBytes ++ behind at hbytes
  rw [hheader, List.append_assoc] at hbytes
  obtain ⟨source₁, hread₁, hbytes₁, hfailure₁⟩ := Source.exists_readExactEnvelope hbytes hfixedlen
  obtain ⟨source₂, hread₂, hbytes₂, hfailure₂⟩ := Source.exists_readExactEnvelope hbytes₁ rfl
  refine ⟨⟨scopeCipher crypto key scope, fixed ++ key.keyId, noncePrefix.bytes, scope, frameBytes, 0,
    false⟩, source₂, ?_, ⟨rfl, hheader.symm, rfl, rfl, rfl, rfl⟩, rfl, hbytes₂,
    hfailure₂.trans hfailure₁⟩
  rw [EnvelopeReader.readHeader, hread₁, except_ok_bind]
  simp only [hmagic, hversion, hkey, hfront, hframe, hread₂, except_ok_bind]
  rw [rejectIf_of_not (by simp), except_ok_bind, rejectIf_of_not (by simp), except_ok_bind,
    rejectIf_of_not (by rw [MAX_KEY_ID_BYTES]; omega), except_ok_bind,
    rejectIf_of_not (by omega), except_ok_bind, rejectIf_of_not (by simp), except_ok_bind]
  rfl

/-! ## Envelopes -/

/-- A source that holds an envelope: the reader yields its chunks, then the final frame, and nothing
is left. -/
structure ReadsBack (crypto : Crypto) (key : EncryptionKey) (scope : EnvelopeScope)
    (chunks : List Bytes) (source : Source) : Prop where
  intro ::
  exists_reader : ∃ reader source₁ reader₁ source₂ reader₂ source₃,
    EnvelopeReader.readHeader crypto source key scope = .ok (reader, source₁) ∧
    (EnvelopeReader.producer crypto).Yields (reader, source₁) chunks (reader₁, source₂) ∧
    reader₁.next crypto source₂ = .ok (.final, reader₂, source₃) ∧
    source₃.bytes = [] ∧ source₃.failure = source.failure ∧ reader₂.sawFinal = true

/-- The header, the frames and the final frame of a writer. -/
theorem sealStream_eq_ok {key : EncryptionKey} {scope : EnvelopeScope} {frameBytes : ℕ}
    {random : Except String NoncePrefix} {chunks : List Bytes} {sealed : Bytes} :
    sealStream crypto key scope frameBytes random chunks = .ok sealed ↔
      ∃ writer final frames last finalFrame,
        EnvelopeWriter.new crypto key scope frameBytes random = .ok writer ∧
        encryptChunks crypto writer chunks = .ok (final, frames) ∧
        final.sealPlaintext crypto [] FINAL_FLAG = .ok (last, finalFrame) ∧
        sealed = writer.header ++ frames ++ finalFrame := by
  rw [sealStream]
  constructor
  · intro h
    obtain ⟨writer, hnew, h⟩ := except_bind_eq_ok.mp h
    obtain ⟨⟨final, frames⟩, hframes, h⟩ := except_bind_eq_ok.mp h
    obtain ⟨⟨last, finalFrame⟩, hlast, h⟩ := except_bind_eq_ok.mp h
    cases h
    rw [EnvelopeWriter.encryptFinal_eq] at hlast
    exact ⟨writer, final, frames, last, finalFrame, hnew, hframes, hlast, rfl⟩
  · rintro ⟨writer, final, frames, last, finalFrame, hnew, hframes, hlast, rfl⟩
    rw [← EnvelopeWriter.encryptFinal_eq] at hlast
    exact except_bind_eq_ok.mpr ⟨writer, hnew, except_bind_eq_ok.mpr ⟨(final, frames), hframes,
      except_bind_eq_ok.mpr ⟨(last, finalFrame), hlast, rfl⟩⟩⟩

theorem readsBack_of_sealed (hcrypto : crypto.Correct) {key : EncryptionKey} {scope : EnvelopeScope}
    {frameBytes : ℕ} {noncePrefix : NoncePrefix} {chunks : List Bytes} {source : Source}
    (hsize : 0 < frameBytes) (hmax : frameBytes ≤ MAX_FRAME_BYTES)
    (hchunks : ∀ chunk ∈ chunks, chunk ≠ [] ∧ chunk.length ≤ frameBytes)
    (hsealed : sealStream crypto key scope frameBytes (.ok noncePrefix) chunks = .ok source.bytes) :
    ReadsBack crypto key scope chunks source := by
  obtain ⟨writer, final, frames, last, finalFrame, hnew, hframes, hlast, hbytes⟩ :=
    sealStream_eq_ok.mp hsealed
  rw [List.append_assoc] at hbytes
  obtain ⟨reader, source₁, hread, hstep, hframeBytes, hbytes₁, hfailure₁⟩ :=
    exists_readHeader hsize hmax hnew hbytes
  obtain ⟨reader₁, source₂, hyields, hstep₁, hbytes₂, hfailure₂⟩ :=
    hstep.yields hcrypto (hframeBytes ▸ hchunks) hframes hbytes₁
  rw [← List.append_nil finalFrame] at hbytes₂
  obtain ⟨source₃, hnext, hbytes₃, hfailure₃, -⟩ := hstep₁.next hcrypto (.inr rfl)
    (iff_of_true rfl rfl) (Nat.zero_le _) hlast hbytes₂
  exact ⟨reader, source₁, reader₁, source₂, reader₁.advance FINAL_FLAG, source₃, hread, hyields,
    hnext, hbytes₃, hfailure₃.trans (hfailure₂.trans hfailure₁), rfl⟩

/-- Sealing succeeds for as many chunks as the frame counter can name. -/
theorem exists_sealStream (hcrypto : crypto.Correct) (key : EncryptionKey) (scope : EnvelopeScope)
    {frameBytes : ℕ} (noncePrefix : NoncePrefix) {chunks : List Bytes}
    (hmax : frameBytes ≤ MAX_FRAME_BYTES)
    (hchunks : ∀ chunk ∈ chunks, chunk ≠ [] ∧ chunk.length ≤ frameBytes)
    (hcounter : chunks.length < maxU32) :
    ∃ sealed, sealStream crypto key scope frameBytes (.ok noncePrefix) chunks = .ok sealed := by
  have hkeyid : key.keyId.length ≤ 1024 := key.keyId_le
  have hu32 : frameBytes ≤ maxU32 := le_trans hmax (by decide)
  obtain ⟨writer, hnew, hzero⟩ : ∃ writer,
      EnvelopeWriter.new crypto key scope frameBytes (.ok noncePrefix) = .ok writer ∧
        writer.nextCounter = 0 := by
    rw [EnvelopeWriter.new, if_neg (not_lt.mpr hu32), if_neg (by omega)]
    exact ⟨_, rfl, rfl⟩
  obtain ⟨frames, hframes⟩ := exists_encryptChunks hcrypto
    (fun chunk hchunk => ⟨(hchunks chunk hchunk).1, (hchunks chunk hchunk).2.trans hu32⟩)
    (by rw [hzero, Nat.zero_add]; exact hcounter.le)
  obtain ⟨finalFrame, hfinal⟩ := @EnvelopeWriter.exists_sealPlaintext crypto hcrypto
    { writer with nextCounter := writer.nextCounter + chunks.length } [] FINAL_FLAG
    (by rw [hzero, Nat.zero_add]; exact hcounter) (Nat.zero_le _)
  exact ⟨_, sealStream_eq_ok.mpr ⟨_, _, _, _, _, hnew, hframes, hfinal, rfl⟩⟩

/-! ## The consumers -/

namespace ObjectFrames

variable {reader reader' : EnvelopeReader} {source source' : Source} {items : List Bytes}

/-- An object hands out what its envelope yields. -/
theorem yields (name : String)
    (h : (EnvelopeReader.producer crypto).Yields (reader, source) items (reader', source')) :
    (producer crypto).Yields ⟨name, source, reader⟩ items ⟨name, source', reader'⟩ := by
  generalize hstart : (reader, source) = start at h
  generalize hend : (reader', source') = last at h
  induction h generalizing reader source with
  | nil =>
    cases hstart
    cases hend
    exact .nil
  | @cons _ next _ bytes items hnext hrest ih =>
    cases hstart
    obtain ⟨reader₁, source₁⟩ := next
    obtain ⟨⟨frame, reader₂, source₂⟩, hframe, hdata⟩ := except_bind_eq_ok.mp hnext
    cases frame with
    | final => cases hdata
    | data bytes' =>
      cases hdata
      refine .cons ?_ (ih rfl hend)
      change ((reader.next crypto source).mapError _ >>= _) = _
      rw [show reader.next crypto source = _ from hframe]
      rfl

/-- Behind the final frame of a whole envelope the object has ended. -/
theorem nextFrame_of_final (name : String)
    (hnext : reader.next crypto source = .ok (.final, reader', source'))
    (hbytes : source'.bytes = []) (hfailure : source'.failure = none) :
    (⟨name, source, reader⟩ : ObjectFrames).nextFrame crypto =
      .ok (none, ⟨name, source', reader'⟩) := by
  change ((reader.next crypto source).mapError _ >>= _) = _
  rw [hnext, except_mapError_ok, except_ok_bind]
  simp only [ensureStreamEnded, Source.read_one_of_nil hbytes hfailure, if_true, except_ok_bind]
  rfl

/-- After its end an object hands nothing out. -/
theorem nextFrame_of_sawFinal {frames : ObjectFrames} (h : frames.envelope.sawFinal = true) :
    frames.nextFrame crypto =
      .error (envelopeError frames.name (.invalidEnvelope "data follows the final frame")) := by
  rw [nextFrame, EnvelopeReader.next, rejectIf, if_pos h]
  rfl

theorem feed_collect (read items : List Bytes) :
    Producer.feed (fun read bytes => (read ++ [bytes], (.ok () : Except ObjectStoreError Unit))) read
      items = (read ++ items, .ok ()) := by
  induction items generalizing read with
  | nil => rw [Producer.feed, List.append_nil]
  | cons bytes items ih =>
    rw [Producer.feed]
    refine (ih (read ++ [bytes])).trans ?_
    rw [List.append_assoc, List.singleton_append]

/-- Frames within the limit are all written. -/
theorem feed_readFrame (name : String) {maxBytes : ℕ} {state : ReadState} {items : List Bytes}
    (hu64 : state.total + items.flatten.length ≤ maxU64)
    (hmax : state.total + items.flatten.length ≤ maxBytes) :
    Producer.feed (readFrame name maxBytes) state items =
      (⟨state.output ++ items.flatten, state.total + items.flatten.length⟩, .ok ()) := by
  induction items generalizing state with
  | nil => simp [Producer.feed]
  | cons bytes items ih =>
    rw [List.flatten_cons, List.length_append] at hu64 hmax
    have hmin : min (state.total + bytes.length) maxU64 = state.total + bytes.length := by omega
    have hread : readFrame name maxBytes state bytes =
        (⟨state.output ++ bytes, state.total + bytes.length⟩, .ok ()) := by
      simp only [readFrame, hmin]
      rw [if_neg (by omega)]
    have hrest := @ih ⟨state.output ++ bytes, state.total + bytes.length⟩
      (by change state.total + bytes.length + _ ≤ _; omega)
      (by change state.total + bytes.length + _ ≤ _; omega)
    rw [Producer.feed, hread]
    refine hrest.trans ?_
    rw [List.flatten_cons, List.length_append, List.append_assoc, Nat.add_assoc]

end ObjectFrames

/-- Frames that overflow no counter are all written, hashed and counted. -/
theorem feed_restoreFrame {state : RestoreState} {items : List Bytes}
    (hu64 : state.plaintextBytes + items.flatten.length ≤ maxU64)
    (hu32 : state.frames + items.length ≤ maxU32) :
    Producer.feed restoreFrame state items =
      (⟨state.output ++ items.flatten, state.digest ++ items.flatten,
        state.plaintextBytes + items.flatten.length, state.frames + items.length⟩, .ok ()) := by
  induction items generalizing state with
  | nil => simp [Producer.feed]
  | cons bytes items ih =>
    rw [List.flatten_cons, List.length_append] at hu64
    rw [List.length_cons] at hu32
    have hrestore : restoreFrame state bytes =
        (⟨state.output ++ bytes, state.digest ++ bytes, state.plaintextBytes + bytes.length,
          state.frames + 1⟩, .ok ()) := by
      simp only [restoreFrame]
      rw [if_neg (by omega), if_neg (by omega)]
    have hrest := @ih ⟨state.output ++ bytes, state.digest ++ bytes,
        state.plaintextBytes + bytes.length, state.frames + 1⟩
      (by change state.plaintextBytes + bytes.length + _ ≤ _; omega)
      (by change state.frames + 1 + _ ≤ _; omega)
    rw [Producer.feed, hrestore]
    refine hrest.trans ?_
    simp only [List.flatten_cons, List.length_append, List.append_assoc, List.length_cons,
      Nat.add_assoc, Nat.add_comm 1]

/-- What the readers give on a source that holds the envelope of these chunks. -/
structure ReadsWhole (crypto : Crypto) (key : EncryptionKey) (scope : EnvelopeScope)
    (chunks : List Bytes) (source : Source) : Prop where
  envelope : ReadsBack crypto key scope chunks source
  object : ∀ objectKey name, scope = .object objectKey → ∃ frames ended,
    ObjectFrames.openFrames crypto key objectKey name source = .ok frames ∧
    frames.readAll crypto = (chunks, .ok ended) ∧
    ended.nextFrame crypto =
      .error (envelopeError name (.invalidEnvelope "data follows the final frame")) ∧
    ∀ maxBytes, chunks.flatten.length ≤ maxBytes →
      frames.readTo crypto maxBytes = (chunks.flatten, .ok chunks.flatten.length)
  segment : ∀ repositoryId segment, scope = .gitSegment repositoryId segment.segmentId →
    validateRestoreIdentity repositoryId segment = .ok () →
    segment.plaintextBytes = chunks.flatten.length →
    segment.sha256 = crypto.sha256Hex chunks.flatten →
    restoreTo crypto key repositoryId segment source =
      (chunks.flatten, .ok ⟨chunks.flatten.length, chunks.length⟩)

theorem ReadsBack.readsWhole {key : EncryptionKey} {scope : EnvelopeScope} {chunks : List Bytes}
    {source : Source} (h : ReadsBack crypto key scope chunks source)
    (hfailure : source.failure = none) (hu64 : chunks.flatten.length ≤ maxU64)
    (hu32 : chunks.length ≤ maxU32) : ReadsWhole crypto key scope chunks source where
  envelope := h
  object := by
    rintro objectKey name rfl
    obtain ⟨reader, source₁, reader₁, source₂, reader₂, source₃, hread, hyields, hnext, hbytes,
      hfailure₃, hfinal⟩ := h
    have hitems := ObjectFrames.yields name hyields
    have hend := ObjectFrames.nextFrame_of_final name hnext hbytes (hfailure₃.trans hfailure)
    refine ⟨⟨name, source₁, reader⟩, ⟨name, source₃, reader₂⟩, ?_, ?_,
      ObjectFrames.nextFrame_of_sawFinal hfinal, fun maxBytes hmax => ?_⟩
    · rw [ObjectFrames.openFrames, hread]
      rfl
    · rw [ObjectFrames.readAll, Producer.forEach_of_yields hitems hend, ObjectFrames.feed_collect]
      rfl
    · rw [ObjectFrames.readTo, Producer.forEach_of_yields hitems hend,
        ObjectFrames.feed_readFrame name (by simpa using hu64) (by simpa using hmax)]
      simp [Except.map]
  segment := by
    rintro repositoryId segment rfl hidentity hlength hdigest
    obtain ⟨reader, source₁, reader₁, source₂, reader₂, source₃, hread, hyields, hnext, hbytes,
      hfailure₃, -⟩ := h
    have hend : (EnvelopeReader.producer crypto).next (reader₁, source₂) =
        .ok (none, reader₂, source₃) := by
      change (reader₁.next crypto source₂ >>= _) = _
      rw [hnext]
      rfl
    have hstart : (do
        validateRestoreIdentity repositoryId segment
        EnvelopeReader.readHeader crypto source key
          (.gitSegment repositoryId segment.segmentId)) = .ok (reader, source₁) := by
      rw [hidentity, except_ok_bind, hread]
    have hended : ensureSegmentEnded source₃ = .ok () := by
      rw [ensureSegmentEnded, Source.read_one_of_nil hbytes (hfailure₃.trans hfailure)]
      rfl
    have hverify : verifyPlaintext crypto segment chunks.flatten.length chunks.flatten = .ok () := by
      rw [verifyPlaintext, rejectIf_of_not (by simp [hlength]), except_ok_bind]
      exact rejectIf_of_not (by simp [hdigest])
    rw [restoreTo, hstart]
    simp only [Producer.forEach_of_yields hyields hend]
    rw [feed_restoreFrame (by simpa using hu64) (by simpa using hu32)]
    simp only [List.nil_append, Nat.zero_add, except_map_ok, except_ok_bind, hended, hverify]
    rfl

/-- Both ways of sealing give the same bytes, the way in place reads every frame's plaintext before it
is overwritten and stays inside its buffer, and every reader gives back the plaintext and then the
end, however the bytes are cut into chunks. -/
theorem seal_reads_back (hcrypto : crypto.Correct) (key : EncryptionKey) (scope : EnvelopeScope)
    {frameBytes : ℕ} (hsize : 0 < frameBytes) (hmax : frameBytes ≤ MAX_FRAME_BYTES)
    (noncePrefix : NoncePrefix) (plaintext : Bytes)
    (hcounter : (chunks frameBytes plaintext).length < maxU32) :
    ∃ sealed,
      sealInPlace crypto key scope frameBytes (.ok noncePrefix) plaintext = .ok sealed ∧
      sealStream crypto key scope frameBytes (.ok noncePrefix) (chunks frameBytes plaintext) =
        .ok sealed ∧
      (chunks frameBytes plaintext).flatten = plaintext ∧
      (∀ layout : SealLayout,
        layout = ⟨(envelopeHeader key noncePrefix frameBytes).length, frameBytes, plaintext.length⟩ →
        ∀ done index rest, (List.range layout.frames).reverse = done ++ index :: rest →
          ∃ buffer, done.foldlM (moveFrame layout) (resized layout plaintext) = .ok buffer ∧
            index * frameBytes + layout.frameLen index ≤ buffer.length ∧
            layout.frameStart index + FRAME_HEADER_BYTES + layout.frameLen index ≤ buffer.length ∧
            slice buffer (index * frameBytes) (layout.frameLen index) =
              slice plaintext (index * frameBytes) (layout.frameLen index)) ∧
      ∀ source : Source, source.bytes = sealed → source.failure = none →
        ReadsWhole crypto key scope (chunks frameBytes plaintext) source := by
  have hflatten : (chunks frameBytes plaintext).flatten = plaintext := flatten_chunks hsize
  have hchunks : ∀ chunk ∈ chunks frameBytes plaintext, chunk ≠ [] ∧ chunk.length ≤ frameBytes :=
    fun chunk hchunk => (length_chunk hsize hchunk).imp List.length_pos_iff_ne_nil.mp id
  obtain ⟨sealed, hsealed⟩ := exists_sealStream hcrypto key scope noncePrefix hmax hchunks hcounter
  refine ⟨sealed, ?_, hsealed, hflatten, ?_, fun source hbytes hfailure => ?_⟩
  · rw [sealInPlace_eq hsize, hsealed]
    rfl
  · rintro layout rfl done index rest hround
    exact (Moved.resized hsize rfl).read_intact hsize le_rfl hround
  · have hlength : (chunks frameBytes plaintext).flatten.length ≤
        (chunks frameBytes plaintext).length * frameBytes :=
      length_flatten_le fun chunk hchunk => (hchunks chunk hchunk).2
    have hu64 : (chunks frameBytes plaintext).flatten.length ≤ maxU64 :=
      le_trans hlength (le_trans (Nat.mul_le_mul hcounter.le hmax) (by decide))
    exact (readsBack_of_sealed hcrypto hsize hmax hchunks (hbytes ▸ hsealed)).readsWhole hfailure
      hu64 hcounter.le

/-! ## A recorded segment -/

namespace Recorded

def derivedKey : Bytes :=
  [0x21, 0xf2, 0xca, 0x65, 0x90, 0xf6, 0x93, 0x2a, 0x2f, 0x48, 0x16, 0x3c, 0x83, 0x4f, 0x95, 0x63,
    0x2f, 0xc1, 0x14, 0xb1, 0x50, 0x47, 0xd6, 0xe3, 0x63, 0x8a, 0x64, 0xb7, 0xe6, 0x88, 0xee, 0x4f]

def ciphertext : Bytes :=
  [0x3b, 0x36, 0xa8, 0x69, 0xa5, 0x2a, 0x9b, 0x5f, 0x9c, 0x5f, 0x06, 0xab, 0x0b, 0xee, 0xc0, 0xd3,
    0x65, 0x17]

def dataTag : Bytes :=
  [0x0a, 0x7c, 0x58, 0x07, 0xb0, 0x55, 0x34, 0x5c, 0xcc, 0x7a, 0x7c, 0x30, 0x21, 0x89, 0xb8, 0xdf]

def finalTag : Bytes :=
  [0xe3, 0x03, 0x0b, 0x23, 0x56, 0x80, 0xd3, 0xa1, 0x8f, 0x50, 0xe0, 0xd2, 0xe5, 0x2c, 0x20, 0xf9]

def plaintext : Bytes := ascii "ciphertext fixture"

def noncePrefix : NoncePrefix := ⟨ascii "nnnnnnnn", by decide⟩

def key : EncryptionKey :=
  ⟨ascii "primary", List.replicate 32 0x6b, by decide, by decide, by decide⟩

def repositoryId : Str := ⟨ascii "repository-123", by decide⟩

def scope : EnvelopeScope := .gitSegment repositoryId ⟨ascii "segment-123", by decide⟩

/-- The tag of a frame that was recorded, with its ciphertext. -/
def recorded (nonceBytes message : Bytes) : Option (Bytes × Bytes) :=
  if nonceBytes = nonce noncePrefix.bytes 0 ∧ message = plaintext then some (ciphertext, dataTag)
  else if nonceBytes = nonce noncePrefix.bytes 1 ∧ message = [] then some ([], finalTag)
  else none

/-- The cipher as it was recorded; it leaves any other message as it is, with a tag of zeros. -/
def encrypt (nonceBytes message : Bytes) : Bytes × Bytes :=
  (recorded nonceBytes message).getD (message, List.replicate TAG_BYTES 0)

def decrypt (nonceBytes sealed : Bytes) : Option Bytes :=
  if nonceBytes = nonce noncePrefix.bytes 0 ∧ sealed = ciphertext ++ dataTag then some plaintext
  else if nonceBytes = nonce noncePrefix.bytes 1 ∧ sealed = finalTag then some []
  else some (sealed.take (sealed.length - TAG_BYTES))

theorem length_encrypt {nonceBytes message ciphertext tag : Bytes}
    (h : encrypt nonceBytes message = (ciphertext, tag)) :
    ciphertext.length = message.length ∧ tag.length = TAG_BYTES := by
  rw [encrypt, recorded] at h
  split at h
  · next hdata =>
    cases h
    rw [hdata.2]
    decide
  · split at h
    · next hfinal =>
      cases h
      rw [hfinal.2]
      decide
    · cases h
      exact ⟨rfl, List.length_replicate⟩

def library : Crypto where
  encrypt := fun _ nonceBytes _ message => some (encrypt nonceBytes message)
  decrypt := fun _ nonceBytes _ sealed => decrypt nonceBytes sealed
  hmacSha256 := fun _ _ => derivedKey
  sha256Hex := fun _ => "68bb7123ce17eec22edd41f4adacca7eb29d689478616590321d0476895dd709"
  length_encrypt := fun h => length_encrypt (Option.some.inj h)

/-- No tag that was recorded is the tag of zeros. -/
theorem append_ne {message front tag : Bytes} (htag : tag.length = TAG_BYTES)
    (hne : tag ≠ List.replicate TAG_BYTES 0) :
    message ++ List.replicate TAG_BYTES 0 ≠ front ++ tag := fun h =>
  hne (List.append_inj_right' h (by rw [htag, List.length_replicate])).symm

theorem correct : library.Correct where
  encrypts := fun _ _ _ _ _ => rfl
  decrypt_encrypt := by
    intro _ nonceBytes _ message ciphertext' tag h
    have hpair : encrypt nonceBytes message = (ciphertext', tag) := Option.some.inj h
    change decrypt nonceBytes (ciphertext' ++ tag) = some message
    rw [encrypt, recorded] at hpair
    split at hpair
    · next hdata =>
      cases hpair
      rw [decrypt, if_pos ⟨hdata.1, rfl⟩, hdata.2]
    · split at hpair
      · next hfinal =>
        cases hpair
        rw [decrypt, if_neg, if_pos ⟨hfinal.1, rfl⟩, hfinal.2]
        rw [hfinal.1]
        decide
      · cases hpair
        have hdata : message ++ List.replicate TAG_BYTES 0 ≠ ciphertext ++ dataTag :=
          append_ne (by decide) (by decide)
        have hfinal : message ++ List.replicate TAG_BYTES 0 ≠ finalTag :=
          @append_ne message [] finalTag (by decide) (by decide)
        rw [decrypt, if_neg (fun hc => hdata hc.2), if_neg (fun hc => hfinal hc.2),
          List.length_append, List.length_replicate, Nat.add_sub_cancel, List.take_left]

end Recorded

/-- The recorded segment is what sealing its plaintext gives, and it is read back. -/
theorem seal_reads_back_recorded :
    ∃ sealed, sealInPlace Recorded.library Recorded.key Recorded.scope 1024
        (.ok Recorded.noncePrefix) Recorded.plaintext = .ok sealed ∧
      ∀ source : Source, source.bytes = sealed → source.failure = none →
        ReadsWhole Recorded.library Recorded.key Recorded.scope (chunks 1024 Recorded.plaintext)
          source := by
  obtain ⟨sealed, hsealed, -, -, -, hread⟩ := seal_reads_back Recorded.correct Recorded.key
    Recorded.scope (show 0 < 1024 by decide) (by decide) Recorded.noncePrefix Recorded.plaintext
    (by decide +kernel)
  exact ⟨sealed, hsealed, hread⟩

end ScopeVcs.Storage

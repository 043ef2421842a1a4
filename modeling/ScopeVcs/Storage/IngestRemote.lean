import ScopeVcs.Storage.Ingest
import ScopeVcs.Storage.RoundTrip

/-! # The upload of a sealed stream

What `upload_remote` pushes is the envelope that `sealStream` gives for the chunks it received. It
fails only where the frame counter, the part numbers or the count of bytes end, and stores nothing
then.
-/

namespace ScopeVcs.Storage

open Mutation Bytes PackUpload

/-- The length of the envelope of the chunks. -/
def envelopeLength (key : EncryptionKey) (chunks : List Bytes) : ℕ :=
  HEADER_FIXED_BYTES + key.keyId.length + chunks.flatten.length + (chunks.length + 1) * overhead

/-- The limits of the format and of the upload: a counter for each chunk and one for the final frame,
and an envelope that fits the parts and the count. -/
structure WithinLimits (key : EncryptionKey) (partBytes : ℕ) (chunks : List Bytes) : Prop where
  frames : chunks.length < maxU32
  fits : Fits partBytes (envelopeLength key chunks)

/-- Chunks as the loop over the source takes them. -/
def Chunked (chunkBytes : ℕ) (chunks : List Bytes) : Prop :=
  ∀ chunk ∈ chunks, chunk ≠ [] ∧ chunk.length ≤ chunkBytes

theorem PackUpload.Fits.mono {partBytes m n : ℕ} (h : Fits partBytes n) (hle : m ≤ n) : Fits partBytes m :=
  ⟨hle.trans h.1, hle.trans h.2⟩

variable {crypto : Crypto} {backend : ObjectBackend} {joins : ℕ → ℕ} {objectKey sofar : Bytes}
  {partBytes : ℕ}

namespace Remote

/-- A remote task whose upload has taken in the bytes. -/
def TookIn (backend : ObjectBackend) (objectKey : Bytes) (partBytes : ℕ) (remote : Remote)
    (bytes : Bytes) : Prop := Took backend objectKey partBytes remote.upload bytes

variable {remote : Remote}

theorem TookIn.push (h : TookIn backend objectKey partBytes remote sofar) (joins : ℕ → ℕ)
    (bytes : Bytes) :
    (∃ remote', remote.push backend joins bytes = (remote', .ok ()) ∧
      remote'.envelope = remote.envelope ∧
      TookIn backend objectKey partBytes remote' (sofar ++ bytes)) ∨
    ∃ remote' error, remote.push backend joins bytes = (remote', .error error) ∧
      Unstored remote'.upload.calls ∧ ¬Fits partBytes (sofar ++ bytes).length := by
  rcases Took.push h joins bytes with ⟨upload, hrun, htook⟩ | ⟨error, upload, hrun, hcalls, hfits⟩
  · refine .inl ⟨⟨remote.envelope, upload⟩, ?_, rfl, htook⟩
    rw [Remote.push, hrun]
  · refine .inr ⟨⟨remote.envelope, upload⟩, error, ?_, hcalls, hfits⟩
    rw [Remote.push, hrun]

theorem TookIn.with_envelope (h : TookIn backend objectKey partBytes remote sofar)
    (envelope : EnvelopeWriter) :
    TookIn backend objectKey partBytes { remote with envelope } sofar := h

/-- A chunk is sealed and pushed, unless a limit is reached. -/
theorem TookIn.receive (h : TookIn backend objectKey partBytes remote sofar)
    (hcrypto : crypto.Correct) (joins : ℕ → ℕ) {chunk : Bytes} (hne : chunk ≠ [])
    (hlength : chunk.length ≤ maxU32) :
    (∃ remote' frame, remote.receive crypto backend joins chunk = (remote', .ok ()) ∧
      remote.envelope.sealPlaintext crypto chunk 0 = .ok (remote'.envelope, frame) ∧
      TookIn backend objectKey partBytes remote' (sofar ++ frame)) ∨
    ∃ remote' error, remote.receive crypto backend joins chunk = (remote', .error error) ∧
      Unstored remote'.upload.calls ∧
      ¬(remote.envelope.nextCounter < maxU32 ∧
        Fits partBytes (sofar.length + (chunk.length + overhead))) := by
  by_cases hcounter : remote.envelope.nextCounter < maxU32
  · obtain ⟨frame, hframe⟩ := EnvelopeWriter.exists_sealPlaintext hcrypto 0 hcounter hlength
    have hdata := hframe
    rw [← EnvelopeWriter.encryptData_eq hne] at hdata
    have hframeLength := EnvelopeWriter.length_sealed hframe
    let sealed := { remote.envelope with nextCounter := remote.envelope.nextCounter + 1 }
    rcases (h.with_envelope sealed).push joins frame with
      ⟨remote', hpush, henvelope, htook⟩ | ⟨remote', error, hpush, hcalls, hfits⟩
    · refine .inl ⟨remote', frame, ?_, ?_, htook⟩
      · rw [Remote.receive, hdata]
        exact hpush
      · rw [henvelope]
        exact hframe
    · refine .inr ⟨remote', error, ?_, hcalls, fun hlimits => hfits ?_⟩
      · rw [Remote.receive, hdata]
        exact hpush
      · rw [List.length_append, hframeLength]
        exact hlimits.2
  · have hdata : remote.envelope.encryptData crypto chunk =
        .error (.invalidEnvelope "too many encryption frames") := by
      rw [EnvelopeWriter.encryptData_eq hne, EnvelopeWriter.sealPlaintext,
        if_pos (not_lt.mp hcounter)]
    refine .inr ⟨remote, .storage (.invalidEnvelope "too many encryption frames"), ?_,
      Took.unstored h, fun hlimits => hcounter hlimits.1⟩
    rw [Remote.receive, hdata]

/-- The chunks are sealed and pushed one after the other, unless a limit is reached. -/
theorem TookIn.receiveAll (h : TookIn backend objectKey partBytes remote sofar)
    (hcrypto : crypto.Correct) (joins : ℕ → ℕ) {chunks : List Bytes}
    (hchunks : Chunked maxU32 chunks) :
    (∃ remote' frames, encryptChunks crypto remote.envelope chunks = .ok (remote'.envelope, frames) ∧
      TookIn backend objectKey partBytes remote' (sofar ++ frames) ∧
      remote'.envelope.nextCounter = remote.envelope.nextCounter + chunks.length ∧
      ∀ messages, remote.receiveAll crypto backend joins (chunks.map .chunk ++ messages) =
        remote'.receiveAll crypto backend joins messages) ∨
    ∃ calls error, (∀ messages, remote.receiveAll crypto backend joins (chunks.map .chunk ++ messages) =
        (calls, .error error)) ∧ Unstored calls ∧
      ¬(remote.envelope.nextCounter + chunks.length ≤ maxU32 ∧
        Fits partBytes (sofar.length + chunks.flatten.length + chunks.length * overhead)) := by
  induction chunks generalizing remote sofar with
  | nil =>
    refine .inl ⟨remote, [], rfl, ?_, rfl, fun messages => rfl⟩
    rwa [List.append_nil]
  | cons chunk chunks ih =>
    obtain ⟨hne, hlength⟩ := hchunks chunk List.mem_cons_self
    have hrest : Chunked maxU32 chunks := fun c hc => hchunks c (List.mem_cons_of_mem _ hc)
    rcases h.receive hcrypto joins hne hlength with
      ⟨remote₁, frame, hreceive, hframe, htook⟩ | ⟨remote₁, error, hreceive, hcalls, hlimits⟩
    · have hcounter : remote₁.envelope.nextCounter = remote.envelope.nextCounter + 1 := by
        obtain ⟨-, -, -, -, -, hwriter, -⟩ := EnvelopeWriter.sealPlaintext_eq_ok.mp hframe
        rw [hwriter]
      have hframeLength := EnvelopeWriter.length_sealed hframe
      rcases ih htook hrest with
        ⟨remote', frames, hframes, htook', hcounter', hall⟩ | ⟨calls, error, hall, hcalls, hlimits⟩
      · refine .inl ⟨remote', frame ++ frames, ?_, ?_, ?_, fun messages => ?_⟩
        · rw [encryptChunks_cons_of_ok hne hframe, hframes, except_map_ok]
        · rwa [← List.append_assoc]
        · rw [hcounter', hcounter, List.length_cons]
          omega
        · rw [List.map_cons, List.cons_append, Remote.receiveAll, hreceive]
          exact hall messages
      · refine .inr ⟨calls, error, fun messages => ?_, hcalls, fun hwithin => hlimits ?_⟩
        · rw [List.map_cons, List.cons_append, Remote.receiveAll, hreceive]
          exact hall messages
        · obtain ⟨hframes, hfits⟩ := hwithin
          rw [List.length_cons] at hframes hfits
          rw [List.flatten_cons, List.length_append, Nat.succ_mul] at hfits
          rw [hcounter, List.length_append, hframeLength]
          exact ⟨by omega, hfits.mono (by omega)⟩
    · refine .inr ⟨remote₁.upload.calls, error, fun messages => ?_, hcalls, fun hwithin => hlimits ?_⟩
      · rw [List.map_cons, List.cons_append, Remote.receiveAll, hreceive]
      · obtain ⟨hframes, hfits⟩ := hwithin
        rw [List.length_cons] at hframes hfits
        rw [List.flatten_cons, List.length_append, Nat.succ_mul] at hfits
        exact ⟨by omega, hfits.mono (by omega)⟩

/-- The final frame is sealed and pushed, and the object is stored, unless a limit is reached. -/
theorem TookIn.receiveEnd (h : TookIn backend objectKey partBytes remote sofar)
    (hcrypto : crypto.Correct) (joins : ℕ → ℕ) :
    (∃ last finalFrame calls uploadedParts,
      remote.envelope.sealPlaintext crypto [] FINAL_FLAG = .ok (last, finalFrame) ∧
      remote.receiveEnd crypto backend joins =
        (calls, .ok ⟨(sofar ++ finalFrame).length, uploadedParts⟩) ∧
      StoredAs backend objectKey partBytes (sofar ++ finalFrame) calls uploadedParts ∧
      remote.envelope.nextCounter < maxU32 ∧ Fits partBytes (sofar.length + overhead)) ∨
    ∃ calls error, remote.receiveEnd crypto backend joins = (calls, .error error) ∧ Unstored calls ∧
      ¬(remote.envelope.nextCounter < maxU32 ∧ Fits partBytes (sofar.length + overhead)) := by
  by_cases hcounter : remote.envelope.nextCounter < maxU32
  · obtain ⟨sealed, finalFrame, hframe⟩ : ∃ sealed finalFrame,
        remote.envelope.sealPlaintext crypto [] FINAL_FLAG = .ok (sealed, finalFrame) :=
      ⟨_, EnvelopeWriter.exists_sealPlaintext hcrypto FINAL_FLAG hcounter (Nat.zero_le _)⟩
    have hfinal := hframe
    rw [← EnvelopeWriter.encryptFinal_eq] at hfinal
    have hframeLength : finalFrame.length = overhead := by
      rw [EnvelopeWriter.length_sealed hframe, List.length_nil, Nat.zero_add]
    have htotal : (sofar ++ finalFrame).length = sofar.length + overhead := by
      rw [List.length_append, hframeLength]
    have hne : sofar ++ finalFrame ≠ [] := by
      rw [← List.length_pos_iff, htotal, overhead, FRAME_HEADER_BYTES]
      omega
    rcases (h.with_envelope sealed).push joins finalFrame with
      ⟨remote₁, hpush, -, htook⟩ | ⟨remote₁, error, hpush, hcalls, hfits⟩
    · rcases Took.finish htook hne joins with
        ⟨upload, uploadedParts, hfinish, hstored, hfits⟩ | ⟨error, upload, hfinish, hcalls, hfits⟩
      · refine .inl ⟨_, finalFrame, upload.calls, uploadedParts, hframe, ?_, hstored, hcounter,
          htotal ▸ hfits⟩
        rw [Remote.receiveEnd, hfinal]
        simp only [hpush, Remote.finish, hfinish]
      · refine .inr ⟨upload.calls, error, ?_, hcalls, fun hwithin => hfits (htotal ▸ hwithin.2)⟩
        rw [Remote.receiveEnd, hfinal]
        simp only [hpush, Remote.finish, hfinish]
    · refine .inr ⟨remote₁.upload.calls, error, ?_, hcalls, fun hwithin => hfits (htotal ▸ hwithin.2)⟩
      rw [Remote.receiveEnd, hfinal]
      simp only [hpush]
  · have hfinal : remote.envelope.encryptFinal crypto =
        .error (.invalidEnvelope "too many encryption frames") := by
      rw [EnvelopeWriter.encryptFinal_eq, EnvelopeWriter.sealPlaintext, if_pos (not_lt.mp hcounter)]
    refine .inr ⟨remote.upload.calls, .storage (.invalidEnvelope "too many encryption frames"), ?_,
      Took.unstored h, fun hlimits => hcounter hlimits.1⟩
    rw [Remote.receiveEnd, hfinal]

end Remote

/-! ## The whole task -/

section

variable {store : GitSegmentStore} {schedule : Schedule} {scope : EnvelopeScope}
  {chunks : List Bytes}

theorem chunkBytes_le_maxU32 (config : GitSegmentStoreConfig) : config.chunkBytes ≤ maxU32 :=
  config.chunkBytes_le.trans (by decide)

theorem new_eq_ok (crypto : Crypto) (store : GitSegmentStore) (scope : EnvelopeScope)
    (noncePrefix : NoncePrefix) :
    ∃ writer, EnvelopeWriter.new crypto store.encryptionKey scope store.config.chunkBytes
        (.ok noncePrefix) = .ok writer ∧ writer.nextCounter = 0 ∧
      writer.header.length = HEADER_FIXED_BYTES + store.encryptionKey.keyId.length := by
  have hkeyid : store.encryptionKey.keyId.length ≤ 1024 := store.encryptionKey.keyId_le
  rw [EnvelopeWriter.new, if_neg (not_lt.mpr (chunkBytes_le_maxU32 store.config)),
    if_neg (by omega)]
  exact ⟨_, rfl, rfl, length_envelopeHeader ..⟩

/-- The task behind the chunks: either it has pushed the header and their frames, or it has failed for
good at a limit. -/
theorem uploadRemote_chunks (hcrypto : crypto.Correct) {noncePrefix : NoncePrefix}
    (hrandom : schedule.random = .ok noncePrefix) (scope : EnvelopeScope) (objectKey : Bytes)
    (hchunks : Chunked store.config.chunkBytes chunks) :
    (∃ (writer : EnvelopeWriter) (remote : Remote) (frames : Bytes),
      EnvelopeWriter.new crypto store.encryptionKey scope store.config.chunkBytes schedule.random =
        .ok writer ∧
      encryptChunks crypto writer chunks = .ok (remote.envelope, frames) ∧
      remote.envelope.nextCounter = chunks.length ∧
      (writer.header ++ frames).length + overhead = envelopeLength store.encryptionKey chunks ∧
      remote.TookIn store.backend objectKey store.config.multipartPartBytes
        (writer.header ++ frames) ∧
      ∀ messages, uploadRemote crypto store schedule scope objectKey (chunks.map .chunk ++ messages) =
        remote.receiveAll crypto store.backend schedule.joins messages) ∨
    ∃ calls error, (∀ messages, uploadRemote crypto store schedule scope objectKey
        (chunks.map .chunk ++ messages) = (calls, .error error)) ∧ Unstored calls ∧
      ¬WithinLimits store.encryptionKey store.config.multipartPartBytes chunks := by
  obtain ⟨writer, hnew, hzero, hheader⟩ := new_eq_ok crypto store scope noncePrefix
  have hsmall : Chunked maxU32 chunks := fun chunk hchunk =>
    ⟨(hchunks chunk hchunk).1,
      (hchunks chunk hchunk).2.trans (chunkBytes_le_maxU32 store.config)⟩
  rw [hrandom, hnew]
  have hstart : Remote.TookIn store.backend objectKey store.config.multipartPartBytes
      ⟨writer, PackUpload.new objectKey store.config.multipartPartBytes
        store.config.multipartPartBytes_pos⟩ [] := took_new ..
  rcases hstart.push schedule.joins writer.header with
    ⟨remote₁, hpush, henvelope, htook⟩ | ⟨remote₁, error, hpush, hcalls, hfits⟩
  · have hrun : ∀ messages, uploadRemote crypto store schedule scope objectKey
        (chunks.map .chunk ++ messages) =
        remote₁.receiveAll crypto store.backend schedule.joins (chunks.map .chunk ++ messages) := by
      intro messages
      rw [uploadRemote, hrandom, hnew]
      simp only [hpush]
    have hcounter : remote₁.envelope.nextCounter = 0 := by
      rw [henvelope]
      exact hzero
    rw [List.nil_append] at htook
    rcases htook.receiveAll hcrypto schedule.joins hsmall with
      ⟨remote, frames, hframes, htook', hcounter', hall⟩ | ⟨calls, error, hall, hcalls, hlimits⟩
    · have hlength := encryptChunks_length (fun chunk hchunk => (hchunks chunk hchunk).1) hframes
      refine .inl ⟨writer, remote, frames, rfl, ?_, ?_, ?_, htook', fun messages => ?_⟩
      · rw [← hframes, henvelope]
      · rw [hcounter', hcounter, Nat.zero_add]
      · rw [List.length_append, hlength, hheader, envelopeLength, Nat.succ_mul]
        omega
      · rw [hrun, hall]
    · refine .inr ⟨calls, error, fun messages => by rw [hrun, hall], hcalls, fun hwithin => hlimits ?_⟩
      have hframes := hwithin.frames
      refine ⟨by omega, hwithin.fits.mono ?_⟩
      rw [hheader, envelopeLength, Nat.succ_mul]
      omega
  · refine .inr ⟨remote₁.upload.calls, error, fun messages => ?_, hcalls, fun hwithin => hfits ?_⟩
    · rw [uploadRemote, hrandom, hnew]
      simp only [hpush]
    · rw [List.nil_append, hheader]
      refine hwithin.fits.mono ?_
      rw [envelopeLength]
      omega

/-- A stream that has not ended is never stored. -/
theorem uploadRemote_open (hcrypto : crypto.Correct) {noncePrefix : NoncePrefix}
    (hrandom : schedule.random = .ok noncePrefix) (scope : EnvelopeScope) (objectKey : Bytes)
    (hchunks : Chunked store.config.chunkBytes chunks) :
    ∃ calls error, uploadRemote crypto store schedule scope objectKey (chunks.map .chunk) =
      (calls, .error error) ∧ Unstored calls := by
  rcases uploadRemote_chunks hcrypto hrandom scope objectKey hchunks with
    ⟨writer, remote, frames, -, -, -, -, htook, hall⟩ | ⟨calls, error, hall, hcalls, -⟩
  · have hopen := hall []
    rw [List.append_nil] at hopen
    exact ⟨_, _, hopen, Took.unstored htook⟩
  · have hopen := hall []
    rw [List.append_nil] at hopen
    exact ⟨calls, error, hopen, hcalls⟩

/-- A whole stream is stored as its envelope, unless a limit is reached. -/
theorem uploadRemote_ended (hcrypto : crypto.Correct) {noncePrefix : NoncePrefix}
    (hrandom : schedule.random = .ok noncePrefix) (scope : EnvelopeScope) (objectKey : Bytes)
    (hchunks : Chunked store.config.chunkBytes chunks) :
    (∃ envelope calls uploadedParts,
      sealStream crypto store.encryptionKey scope store.config.chunkBytes schedule.random chunks =
        .ok envelope ∧
      uploadRemote crypto store schedule scope objectKey (chunks.map .chunk ++ [.end_]) =
        (calls, .ok ⟨envelope.length, uploadedParts⟩) ∧
      StoredAs store.backend objectKey store.config.multipartPartBytes envelope calls
        uploadedParts ∧
      WithinLimits store.encryptionKey store.config.multipartPartBytes chunks) ∨
    ∃ calls error, uploadRemote crypto store schedule scope objectKey
        (chunks.map .chunk ++ [.end_]) = (calls, .error error) ∧ Unstored calls ∧
      ¬WithinLimits store.encryptionKey store.config.multipartPartBytes chunks := by
  rcases uploadRemote_chunks hcrypto hrandom scope objectKey hchunks with
    ⟨writer, remote, frames, hnew, hframes, hcounter, hlength, htook, hall⟩ |
    ⟨calls, error, hall, hcalls, hlimits⟩
  · have hended : uploadRemote crypto store schedule scope objectKey (chunks.map .chunk ++ [.end_]) =
        remote.receiveEnd crypto store.backend schedule.joins := hall [.end_]
    rw [hended]
    rcases htook.receiveEnd hcrypto schedule.joins with
      ⟨last, finalFrame, calls, uploadedParts, hfinal, hrun, hstored, hframe, hfits⟩ |
      ⟨calls, error, hrun, hcalls, hlimits⟩
    · refine .inl ⟨_, calls, uploadedParts, ?_, hrun, hstored, hcounter ▸ hframe, hlength ▸ hfits⟩
      exact sealStream_eq_ok.mpr ⟨writer, remote.envelope, frames, last, finalFrame, hnew, hframes,
        hfinal, rfl⟩
    · refine .inr ⟨calls, error, hrun, hcalls, fun hwithin => hlimits ?_⟩
      exact ⟨hcounter.symm ▸ hwithin.frames, hlength.symm ▸ hwithin.fits⟩
  · exact .inr ⟨calls, error, hall _, hcalls, hlimits⟩

/-- Fewer chunks are within the limits too. -/
theorem WithinLimits.of_append {key : EncryptionKey} {rest : List Bytes}
    (h : WithinLimits key partBytes (chunks ++ rest)) : WithinLimits key partBytes chunks := by
  have hframes := h.frames
  rw [List.length_append] at hframes
  refine ⟨by omega, h.fits.mono ?_⟩
  rw [envelopeLength, envelopeLength, List.flatten_append, List.length_append, List.length_append,
    Nat.succ_mul, Nat.succ_mul, Nat.add_mul]
  omega

/-- Within the limits the task waits for the rest of its stream. -/
theorem hasEnded_uploadRemote (hcrypto : crypto.Correct) {noncePrefix : NoncePrefix}
    (hrandom : schedule.random = .ok noncePrefix) (scope : EnvelopeScope) (objectKey : Bytes)
    (hchunks : Chunked store.config.chunkBytes chunks)
    (hlimits : WithinLimits store.encryptionKey store.config.multipartPartBytes chunks) :
    hasEnded (uploadRemote crypto store schedule scope objectKey (chunks.map .chunk)).2 = false := by
  rcases uploadRemote_chunks hcrypto hrandom scope objectKey hchunks with
    ⟨writer, remote, frames, -, -, -, -, htook, hall⟩ | ⟨calls, error, -, -, hover⟩
  · have hopen := hall []
    rw [List.append_nil] at hopen
    rw [hopen]
    rfl
  · exact absurd hlimits hover

end

end ScopeVcs.Storage

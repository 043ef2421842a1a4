import ScopeVcs.Storage.Authentic

/-! # Whole outputs

The reader follows one writer from the first frame that it takes. What it has yielded is a prefix of
that writer's chunks, and what it has read are their frames; behind the final frame it has read the
output of the writer to its end.
-/

namespace ScopeVcs.Storage

open Mutation Bytes

section Readers

variable {crypto : Crypto} {writings : Set (Writing crypto)} {key : EncryptionKey}
  {scope : EnvelopeScope}

/-! ## One frame -/

section Step

variable {reader reader' : EnvelopeReader} {source source' : Source} {flags : UInt8}

theorem Opened.advance (h : Opened key scope reader) : Opened key scope (reader.advance flags) :=
  ⟨h.scope_eq, h.exists_header⟩

theorem Follows.advance {writing : Writing crypto} (h : Follows reader writing) :
    Follows (reader.advance flags) writing :=
  ⟨h.cipher, h.header, h.noncePrefix, h.scope⟩

/-- The frame of a writer that the reader has taken. -/
structure Takes (writing : Writing crypto) (reader : EnvelopeReader) (flags : UInt8)
    (plaintext : Bytes) (reader' : EnvelopeReader) (source source' : Source) : Prop where
  intro ::
  reader_eq : reader' = reader.advance flags
  sealed : writing.sealed[reader.nextCounter]? = some (plaintext, flags)
  exists_frame : ∃ next frame,
    ({ writing.writer with nextCounter := reader.nextCounter } : EnvelopeWriter).sealPlaintext crypto
      plaintext flags = .ok (next, frame) ∧ source.bytes = frame ++ source'.bytes

/-- Every frame that is taken is a writer's. -/
theorem exists_takes (hideal : Unforgeable crypto writings)
    (hbelow : ∀ writing ∈ writings, writing.scope.PartsBelow (2 ^ 32))
    (hscope : scope.PartsBelow (2 ^ 32)) (hopened : Opened key scope reader) {frame : DecryptedFrame}
    (h : reader.next crypto source = .ok (frame, reader', source')) :
    ∃ writing ∈ writings, Follows reader writing ∧ ∃ flags plaintext,
      frame = EnvelopeReader.delivered flags plaintext ∧
      Takes writing reader flags plaintext reader' source source' := by
  obtain ⟨flags, plaintext, ciphertext, plaintextLen, haccepts, hbytes, -, hframe, hreader⟩ :=
    EnvelopeReader.next_eq_ok h
  obtain ⟨writing, hmem, hfollows, hsealed, next, hseal⟩ :=
    exists_writing hideal hbelow hscope hopened haccepts
  exact ⟨writing, hmem, hfollows, flags, plaintext, hframe, hreader, hsealed, next, _, hseal, hbytes⟩

end Step

/-! ## The frames of one envelope -/

/-- From this reader on, these chunks of the writer were yielded. -/
structure Yielded (writing : Writing crypto) (start : EnvelopeReader × Source) (items : List Bytes)
    (reached : EnvelopeReader × Source) : Prop where
  intro ::
  follows : Follows reached.1 writing
  counter : reached.1.nextCounter = start.1.nextCounter + items.length
  isPrefix : items <+: writing.chunks.drop start.1.nextCounter
  exists_frames : ∃ frames,
    encryptChunks crypto { writing.writer with nextCounter := start.1.nextCounter } items =
      .ok ({ writing.writer with nextCounter := reached.1.nextCounter }, frames) ∧
    start.2.bytes = frames ++ reached.2.bytes

theorem Opened.yields {start reached : EnvelopeReader × Source} {items : List Bytes}
    (hopened : Opened key scope start.1)
    (h : (EnvelopeReader.producer crypto).Yields start items reached) :
    Opened key scope reached.1 := by
  induction h with
  | nil => exact hopened
  | cons hnext hrest ih =>
    apply ih
    obtain ⟨⟨frame, reader, source⟩, hframe, hdata⟩ := except_bind_eq_ok.mp hnext
    obtain ⟨flags, -, -, -, -, -, -, -, rfl⟩ := EnvelopeReader.next_eq_ok hframe
    cases frame with
    | final => cases hdata
    | data bytes =>
      cases hdata
      exact hopened.advance

/-- A reader that follows a writer yields its next chunks, and reads their frames. -/
theorem Follows.yields (hideal : Unforgeable crypto writings) (hnonces : NoncesDistinct writings)
    (hbelow : ∀ writing ∈ writings, writing.scope.PartsBelow (2 ^ 32))
    (hscope : scope.PartsBelow (2 ^ 32)) {start reached : EnvelopeReader × Source}
    {items : List Bytes} {writing : Writing crypto} (hmem : writing ∈ writings)
    (hopened : Opened key scope start.1) (hfollows : Follows start.1 writing)
    (h : (EnvelopeReader.producer crypto).Yields start items reached) :
    Yielded writing start items reached := by
  induction h with
  | nil => exact ⟨hfollows, rfl, List.nil_prefix, [], rfl, rfl⟩
  | @cons start next reached bytes items hnext hrest ih =>
    obtain ⟨⟨frame, reader, source⟩, hframe, hdata⟩ := except_bind_eq_ok.mp hnext
    obtain ⟨writing', hmem', hfollows', flags, plaintext, rfl, rfl, hsealed, last, fr, hseal, hbytes⟩ :=
      exists_takes hideal hbelow hscope hopened hframe
    obtain rfl := hfollows.unique hnonces hmem hmem' hfollows'
    rcases Writing.sealed_eq_some hsealed with ⟨rfl, hchunk⟩ | ⟨rfl, -⟩
    · cases hdata
      obtain ⟨hend, hcounter, hleading, frames, hframes, hrestbytes⟩ := ih hopened.advance
        hfollows.advance
      obtain ⟨hlt, rfl⟩ := List.getElem?_eq_some_iff.mp hchunk
      have hne := writing.chunks_ne_nil _ (List.getElem_mem hlt)
      refine ⟨hend, ?_, ?_, fr ++ frames, ?_, ?_⟩
      · rw [hcounter, List.length_cons, Nat.add_comm items.length 1, ← Nat.add_assoc]
        rfl
      · rw [List.drop_eq_getElem_cons hlt, List.cons_prefix_cons]
        exact ⟨rfl, hleading⟩
      · obtain ⟨-, -, -, -, -, rfl, -⟩ := EnvelopeWriter.sealPlaintext_eq_ok.mp hseal
        rw [encryptChunks_cons_of_ok hne hseal]
        change (encryptChunks crypto
          { writing.writer with nextCounter := start.1.nextCounter + 1 } items).map _ = _
        rw [show encryptChunks crypto
          { writing.writer with nextCounter := start.1.nextCounter + 1 } items = _ from hframes]
        rfl
      · rw [hbytes, List.append_assoc, ← hrestbytes]
    · cases hdata

/-- The final frame is behind all chunks of the writer. -/
theorem Yielded.whole {start reached : EnvelopeReader × Source} {items : List Bytes}
    {writing : Writing crypto} (h : Yielded writing start items reached)
    (hstart : start.1.nextCounter = 0) {reader : EnvelopeReader} {source : Source}
    {plaintext : Bytes}
    (hfinal : Takes writing reached.1 FINAL_FLAG plaintext reader reached.2 source)
    (hend : source.bytes = []) :
    items = writing.chunks ∧ writing.output = some (writing.writer.header ++ start.2.bytes) := by
  obtain ⟨-, hcounter, hleading, frames, hframes, hbytes⟩ := h
  obtain ⟨-, hsealed, next, frame, hseal, hlast⟩ := hfinal
  rw [hstart, Nat.zero_add] at hcounter
  rw [hstart, List.drop_zero] at hleading
  rcases Writing.sealed_eq_some hsealed with ⟨hflags, -⟩ | ⟨-, rfl, hlength, hsome⟩
  · exact absurd hflags (by decide)
  · have hitems : items = writing.chunks :=
      hleading.eq_of_length (by rw [← hcounter, hlength])
    obtain ⟨finalFrame, hfinalFrame⟩ := Option.isSome_iff_exists.mp hsome
    obtain ⟨ended, hended⟩ := writing.finished finalFrame hfinalFrame
    rw [EnvelopeWriter.encryptFinal_eq, writing.last_eq.1, ← hlength, hseal] at hended
    cases hended
    have hwriter : ({ writing.writer with nextCounter := start.1.nextCounter } : EnvelopeWriter) =
        writing.writer := by
      rw [hstart, writing.writer_eq.2]
    rw [hwriter, hitems, writing.encrypted] at hframes
    have hsame : writing.frames = frames := congrArg Prod.snd (Except.ok.inj hframes)
    refine ⟨hitems, ?_⟩
    rw [Writing.output, hfinalFrame, hbytes, hlast, hend, hsame, List.append_nil, Option.map_some,
      List.append_assoc]

/-! ## Reads -/

/-- What a read of these bytes may deliver, and when it may succeed. -/
structure Exact (writings : Set (Writing crypto)) (scope : EnvelopeScope) (bytes delivered : Bytes)
    (succeeded : Prop) : Prop where
  whole : succeeded → ∃ writing ∈ writings, writing.scope = scope ∧ writing.output = some bytes ∧
    delivered = writing.chunks.flatten
  only : succeeded → ∀ writing ∈ writings, slice bytes 14 8 = writing.noncePrefix.bytes →
    writing.scope = scope ∧ writing.output = some bytes
  truncated : ∀ writing ∈ writings, ∀ output, writing.output = some output → bytes <+: output →
    bytes ≠ output → ¬succeeded
  otherScope : ∀ writing ∈ writings, writing.output = some bytes → writing.scope ≠ scope → ¬succeeded
  isPrefix : delivered = [] ∨ ∃ writing ∈ writings, writing.scope = scope ∧
    writing.writer.header <+: bytes ∧ delivered <+: writing.chunks.flatten

/-- Where the nonce prefix lies in an output. -/
theorem Writing.slice_output {writing : Writing crypto} {bytes : Bytes}
    (h : writing.output = some bytes) :
    22 ≤ bytes.length ∧ slice bytes 14 8 = writing.noncePrefix.bytes := by
  obtain ⟨frame, -, rfl⟩ := Option.map_eq_some_iff.mp h
  have hcut : writing.writer.header ++ writing.frames ++ frame =
      (MAGIC ++ be 4 ENCODING_VERSION ++ be 2 writing.key.keyId.length) ++
        (writing.noncePrefix.bytes ++ (be 4 writing.frameBytes ++ writing.key.keyId ++
          writing.frames ++ frame)) := by
    rw [writing.writer_eq.2, envelopeHeader]
    simp only [List.append_assoc]
  have hfront : (MAGIC ++ be 4 ENCODING_VERSION ++ be 2 writing.key.keyId.length).length = 14 := by
    simp only [List.length_append, length_be]
    rfl
  rw [hcut]
  refine ⟨?_, slice_append_middle hfront.symm writing.noncePrefix.length_eq.symm⟩
  rw [List.length_append, hfront, List.length_append, writing.noncePrefix.length_eq]
  omega

/-- A read that succeeds only on a whole output of its scope is exact. -/
theorem Exact.of_whole (hnonces : NoncesDistinct writings) {bytes delivered : Bytes}
    {succeeded : Prop}
    (hwhole : succeeded → ∃ writing ∈ writings, writing.scope = scope ∧
      writing.output = some bytes ∧ delivered = writing.chunks.flatten)
    (hleading : delivered = [] ∨ ∃ writing ∈ writings, writing.scope = scope ∧
      writing.writer.header <+: bytes ∧ delivered <+: writing.chunks.flatten) :
    Exact writings scope bytes delivered succeeded := by
  have honly : succeeded → ∀ writing ∈ writings, slice bytes 14 8 = writing.noncePrefix.bytes →
      writing.scope = scope ∧ writing.output = some bytes := by
    intro hsucceeded writing hmem hslice
    obtain ⟨writing', hmem', hscope, houtput, -⟩ := hwhole hsucceeded
    have hnonce : writing.noncePrefix.bytes = writing'.noncePrefix.bytes := by
      rw [← hslice, (Writing.slice_output houtput).2]
    obtain rfl := hnonces writing hmem writing' hmem' (NoncePrefix.bytes_injective hnonce)
    exact ⟨hscope, houtput⟩
  refine ⟨hwhole, honly, ?_, ?_, hleading⟩
  · intro writing hmem output houtput htruncated hne hsucceeded
    obtain ⟨writing', -, -, houtput', -⟩ := hwhole hsucceeded
    have hlong := (Writing.slice_output houtput').1
    have hslice : slice bytes 14 8 = writing.noncePrefix.bytes := by
      obtain ⟨behind, rfl⟩ := htruncated
      rw [← (Writing.slice_output houtput).2, slice_append_left (by omega)]
    have hsame := houtput.symm.trans (honly hsucceeded writing hmem hslice).2
    exact hne (Option.some.inj hsame).symm
  · intro writing hmem houtput hother hsucceeded
    exact hother (honly hsucceeded writing hmem (Writing.slice_output houtput).2).1

theorem Exact.mono {bytes delivered : Bytes} {succeeded succeeded' : Prop}
    (h : Exact writings scope bytes delivered succeeded) (himp : succeeded' → succeeded) :
    Exact writings scope bytes delivered succeeded' where
  whole := fun hdone => h.whole (himp hdone)
  only := fun hdone => h.only (himp hdone)
  truncated := fun writing hmem output houtput htruncated hne hdone =>
    h.truncated writing hmem output houtput htruncated hne (himp hdone)
  otherScope := fun writing hmem houtput hother hdone =>
    h.otherScope writing hmem houtput hother (himp hdone)
  isPrefix := h.isPrefix

/-- The reader of a header delivers chunks of a writer of its scope, and ends with its output. -/
theorem exact_of_yields (hideal : Unforgeable crypto writings) (hnonces : NoncesDistinct writings)
    (hbelow : ∀ writing ∈ writings, writing.scope.PartsBelow (2 ^ 32))
    (hscope : scope.PartsBelow (2 ^ 32)) {source : Source} {start reached : EnvelopeReader × Source}
    {items : List Bytes} {delivered : Bytes} {succeeded : Prop}
    (hheader : EnvelopeReader.readHeader crypto source key scope = .ok start)
    (hyields : (EnvelopeReader.producer crypto).Yields start items reached)
    (hdelivered : delivered <+: items.flatten)
    (hsucceeded : succeeded → delivered = items.flatten ∧ ∃ reader ended,
      reached.1.next crypto reached.2 = .ok (.final, reader, ended) ∧ ended.bytes = []) :
    Exact writings scope source.bytes delivered succeeded := by
  obtain ⟨hopened, hzero, hbytes⟩ := readHeader_eq_ok hheader
  -- the writer of the first frame, if one was taken
  have hfollows : items ≠ [] → ∃ writing ∈ writings, Follows start.1 writing := by
    intro hne
    cases hyields with
    | nil => exact absurd rfl hne
    | cons hnext hrest =>
      obtain ⟨⟨frame, reader, source⟩, hframe, -⟩ := except_bind_eq_ok.mp hnext
      obtain ⟨writing, hmem, hfirst, -⟩ := exists_takes hideal hbelow hscope hopened hframe
      exact ⟨writing, hmem, hfirst⟩
  have hscopes : ∀ {writing : Writing crypto}, Follows start.1 writing → writing.scope = scope :=
    fun h => h.scope.symm.trans hopened.scope_eq
  apply Exact.of_whole hnonces
  · intro hdone
    obtain ⟨rfl, reader, ended, hfinal, hend⟩ := hsucceeded hdone
    obtain ⟨writing, hmem, hlast, flags, plaintext, hflags, htakes⟩ :=
      exists_takes hideal hbelow hscope (hopened.yields hyields) hfinal
    obtain rfl : flags = FINAL_FLAG := by
      by_contra hdata
      rw [EnvelopeReader.delivered, if_neg hdata] at hflags
      cases hflags
    have hstart : Follows start.1 writing := by
      by_cases hnil : items = []
      · subst hnil
        cases hyields
        exact hlast
      · obtain ⟨writing', hmem', hfirst⟩ := hfollows hnil
        have hyielded := hfirst.yields hideal hnonces hbelow hscope hmem' hopened hyields
        obtain rfl := hlast.unique hnonces hmem hmem' hyielded.follows
        exact hfirst
    have hyielded := hstart.yields hideal hnonces hbelow hscope hmem hopened hyields
    obtain ⟨hitems, houtput⟩ := hyielded.whole hzero htakes hend
    refine ⟨writing, hmem, hscopes hstart, ?_, by rw [hitems]⟩
    rw [houtput, hbytes, hstart.header]
  · by_cases hnil : items = []
    · subst hnil
      exact .inl (List.prefix_nil.mp hdelivered)
    · obtain ⟨writing, hmem, hfirst⟩ := hfollows hnil
      have hyielded := hfirst.yields hideal hnonces hbelow hscope hmem hopened hyields
      have hleading := hyielded.isPrefix
      rw [hzero, List.drop_zero] at hleading
      refine .inr ⟨writing, hmem, hscopes hfirst, ?_, ?_⟩
      · rw [hbytes, hfirst.header]
        exact List.prefix_append _ _
      · obtain ⟨later, hlater⟩ := hleading
        rw [← hlater, List.flatten_append]
        exact hdelivered.trans (List.prefix_append _ _)

/-! ## The consumers -/

namespace ObjectFrames

variable {frames frames' : ObjectFrames}

/-- What an object hands out comes from its envelope. -/
theorem yields_envelope {items : List Bytes}
    (h : (producer crypto).Yields frames items frames') :
    (EnvelopeReader.producer crypto).Yields (frames.envelope, frames.source) items
      (frames'.envelope, frames'.source) := by
  induction h with
  | nil => exact .nil
  | cons hnext hrest ih =>
    refine .cons ?_ ih
    obtain ⟨⟨frame, reader, source⟩, hframe, h⟩ := except_bind_eq_ok.mp hnext
    have hreader := mapError_eq_ok.mp hframe
    cases frame with
    | final =>
      obtain ⟨_, -, h⟩ := except_bind_eq_ok.mp h
      cases h
    | data bytes =>
      cases h
      exact except_bind_eq_ok.mpr ⟨_, hreader, rfl⟩

/-- An object answers `None` behind the final frame, and only when nothing follows it. -/
theorem ended_of_nextFrame (h : frames.nextFrame crypto = .ok (none, frames')) :
    ∃ reader source, frames.envelope.next crypto frames.source = .ok (.final, reader, source) ∧
      source.bytes = [] := by
  obtain ⟨⟨frame, reader, source⟩, hframe, h⟩ := except_bind_eq_ok.mp h
  have hreader := mapError_eq_ok.mp hframe
  cases frame with
  | data bytes => cases h
  | final =>
    obtain ⟨source', hended, -⟩ := except_bind_eq_ok.mp h
    rw [ensureStreamEnded] at hended
    split at hended
    · cases hended
    · next bytes source₁ hread =>
      split at hended
      · next hnil =>
        subst hnil
        exact ⟨reader, source, hreader, (Source.read_one_eq_nil hread).1⟩
      · cases hended

theorem openFrames_eq_ok {objectKey : Str} {name : String} {source : Source}
    (h : openFrames crypto key objectKey name source = .ok frames) :
    EnvelopeReader.readHeader crypto source key (.object objectKey) =
      .ok (frames.envelope, frames.source) := by
  obtain ⟨⟨reader, source'⟩, hheader, h⟩ := except_bind_eq_ok.mp h
  cases h
  exact mapError_eq_ok.mp hheader

/-- The loops over an object end as its envelope does. -/
theorem exact_forEach (hideal : Unforgeable crypto writings) (hnonces : NoncesDistinct writings)
    (hbelow : ∀ writing ∈ writings, writing.scope.PartsBelow (2 ^ 32)) {objectKey : Str}
    (hkey : (EnvelopeScope.object objectKey).PartsBelow (2 ^ 32)) {name : String} {source : Source}
    (hopen : openFrames crypto key objectKey name source = .ok frames) {σ : Type}
    {body : σ → Bytes → σ × Except ObjectStoreError Unit} (output : σ → Bytes)
    (hbody : ∀ state bytes, output (body state bytes).1 = output state ∧
        (body state bytes).2 ≠ .ok () ∨ output (body state bytes).1 = output state ++ bytes)
    {state : σ} (hstate : output state = []) :
    Exact writings (.object objectKey) source.bytes
      (output ((producer crypto).forEach body frames state).1)
      (∃ ended, ((producer crypto).forEach body frames state).2 = .ok ended) := by
  obtain ⟨items, reached, hyields, houtput, hended⟩ :=
    Producer.exists_yields (producer crypto) body frames state
  have hfeed := Producer.feed_output output hbody items state
  rw [hstate, List.nil_append, ← houtput] at hfeed
  refine exact_of_yields hideal hnonces hbelow hkey (openFrames_eq_ok hopen)
    (yields_envelope hyields) hfeed.1 ?_
  rintro ⟨ended, hdone⟩
  obtain ⟨hlast, hfed⟩ := hended ended hdone
  exact ⟨hfeed.2 hfed, ended_of_nextFrame hlast⟩

theorem readFrame_output (name : String) (maxBytes : ℕ) (state : ReadState) (bytes : Bytes) :
    (readFrame name maxBytes state bytes).1.output = state.output ∧
        (readFrame name maxBytes state bytes).2 ≠ .ok () ∨
      (readFrame name maxBytes state bytes).1.output = state.output ++ bytes := by
  simp only [readFrame]
  split
  · exact .inl ⟨rfl, fun h => by cases h⟩
  · exact .inr rfl

end ObjectFrames

theorem restoreFrame_output (state : RestoreState) (bytes : Bytes) :
    (restoreFrame state bytes).1.output = state.output ++ bytes := by
  simp only [restoreFrame]
  split
  · rfl
  · split <;> rfl

/-- A segment is restored from a whole output of its scope, or rejected. -/
theorem exact_restoreTo (hideal : Unforgeable crypto writings) (hnonces : NoncesDistinct writings)
    (hbelow : ∀ writing ∈ writings, writing.scope.PartsBelow (2 ^ 32)) {repositoryId : Str}
    {segment : SegmentRef}
    (hsegment : (EnvelopeScope.gitSegment repositoryId segment.segmentId).PartsBelow (2 ^ 32))
    (source : Source) :
    Exact writings (.gitSegment repositoryId segment.segmentId) source.bytes
      (restoreTo crypto key repositoryId segment source).1
      (∃ timings, (restoreTo crypto key repositoryId segment source).2 = .ok timings) := by
  rw [restoreTo]
  split
  · exact Exact.of_whole hnonces (by rintro ⟨_, ⟨⟩⟩) (.inl rfl)
  · next start hstart =>
    obtain ⟨_, -, hheader⟩ := except_bind_eq_ok.mp hstart
    obtain ⟨items, reached, hyields, houtput, hended⟩ := Producer.exists_yields
      (EnvelopeReader.producer crypto) restoreFrame start ⟨[], [], 0, 0⟩
    have hfeed := @Producer.feed_output GitStorageError RestoreState UInt8 restoreFrame
      RestoreState.output (fun state bytes => .inr (restoreFrame_output state bytes)) items
      ⟨[], [], 0, 0⟩
    rw [List.nil_append, ← houtput] at hfeed
    refine exact_of_yields hideal hnonces hbelow hsegment hheader hyields hfeed.1 ?_
    rintro ⟨timings, hdone⟩
    obtain ⟨⟨reader, ended⟩, hresult, hdone⟩ := except_bind_eq_ok.mp hdone
    obtain ⟨_, hnothing, -⟩ := except_bind_eq_ok.mp hdone
    obtain ⟨hlast, hfed⟩ := hended _ hresult
    refine ⟨hfeed.2 hfed, reader, ended, ?_, ?_⟩
    · obtain ⟨⟨frame, reader', source'⟩, hframe, hfinal⟩ := except_bind_eq_ok.mp hlast
      cases frame with
      | data bytes => cases hfinal
      | final =>
        cases hfinal
        exact hframe
    · rw [ensureSegmentEnded] at hnothing
      split at hnothing
      · cases hnothing
      · next bytes source₁ hread =>
        obtain rfl : bytes = [] := by simpa using rejectIf_eq_ok.mp hnothing
        exact (Source.read_one_eq_nil hread).1

/-- The readers of objects and of Git segments whose scopes have parts below the bound. -/
structure ReadersExact (crypto : Crypto) (writings : Set (Writing crypto)) (bound : ℕ) : Prop where
  readAll : ∀ key objectKey name source frames, (EnvelopeScope.object objectKey).PartsBelow bound →
    ObjectFrames.openFrames crypto key objectKey name source = .ok frames →
      Exact writings (.object objectKey) source.bytes (frames.readAll crypto).1.flatten
        (∃ ended, (frames.readAll crypto).2 = .ok ended)
  readTo : ∀ key objectKey name source frames maxBytes,
    (EnvelopeScope.object objectKey).PartsBelow bound →
    ObjectFrames.openFrames crypto key objectKey name source = .ok frames →
      Exact writings (.object objectKey) source.bytes (frames.readTo crypto maxBytes).1
        (∃ total, (frames.readTo crypto maxBytes).2 = .ok total)
  restoreTo : ∀ key repositoryId segment source,
    (EnvelopeScope.gitSegment repositoryId segment.segmentId).PartsBelow bound →
      Exact writings (.gitSegment repositoryId segment.segmentId) source.bytes
        (restoreTo crypto key repositoryId segment source).1
        (∃ timings, (restoreTo crypto key repositoryId segment source).2 = .ok timings)

theorem readersExact (hideal : Unforgeable crypto writings) (hnonces : NoncesDistinct writings)
    (hbelow : ∀ writing ∈ writings, writing.scope.PartsBelow (2 ^ 32)) :
    ReadersExact crypto writings (2 ^ 32) where
  readAll := by
    intro key objectKey name source frames hkey hopen
    exact ObjectFrames.exact_forEach hideal hnonces hbelow hkey hopen List.flatten
      (fun read bytes => .inr (by rw [List.flatten_append, List.flatten_singleton])) rfl
  readTo := by
    intro key objectKey name source frames maxBytes hkey hopen
    have hstart : (⟨[], 0⟩ : ObjectFrames.ReadState).output = [] := rfl
    have hexact := ObjectFrames.exact_forEach hideal hnonces hbelow hkey hopen
      ObjectFrames.ReadState.output (ObjectFrames.readFrame_output frames.name maxBytes) hstart
    apply hexact.mono
    rintro ⟨total, hdone⟩
    obtain ⟨ended, hended, -⟩ := except_map_eq_ok.mp hdone
    exact ⟨ended, hended⟩
  restoreTo := fun key repositoryId segment source hsegment =>
    exact_restoreTo hideal hnonces hbelow hsegment source

end Readers

/-! ## The recorded segment -/

namespace Recorded

def header : Bytes := envelopeHeader key noncePrefix 1024

/-- The cipher of the recorded segment, which decrypts its two frames and nothing else. -/
def strict : Crypto where
  encrypt := library.encrypt
  decrypt := fun cipher nonceBytes aad message =>
    if cipher = derivedKey ∧ nonceBytes = nonce noncePrefix.bytes 0 ∧
        aad = associatedData header scope (frameHeader 0 plaintext.length 0) ∧
        message = ciphertext ++ dataTag then some plaintext
    else if cipher = derivedKey ∧ nonceBytes = nonce noncePrefix.bytes 1 ∧
        aad = associatedData header scope (frameHeader 1 0 FINAL_FLAG) ∧ message = finalTag then
      some []
    else none
  hmacSha256 := library.hmacSha256
  sha256Hex := library.sha256Hex
  length_encrypt := library.length_encrypt

def writer : EnvelopeWriter := ⟨derivedKey, header, noncePrefix.bytes, scope, 0⟩

/-- The writer that wrote the recorded segment. -/
def writing : Writing strict where
  key := key
  scope := scope
  frameBytes := 1024
  noncePrefix := noncePrefix
  writer := writer
  started := rfl
  chunks := [plaintext]
  chunks_ne_nil := by decide
  last := { writer with nextCounter := 1 }
  frames := frameHeader 0 plaintext.length 0 ++ ciphertext ++ dataTag
  encrypted := by decide +kernel
  finalFrame := some (frameHeader 1 0 FINAL_FLAG ++ finalTag)
  finished := by
    rintro frame hframe
    cases hframe
    exact ⟨{ writer with nextCounter := 2 }, by decide +kernel⟩

theorem unforgeable : Unforgeable strict {writing} := by
  intro cipher nonceBytes aad message plaintext' h
  change (if _ then _ else if _ then _ else _) = _ at h
  split at h
  · next hdata =>
    obtain ⟨rfl, rfl, rfl, rfl⟩ := hdata
    cases h
    exact ⟨writing, rfl, rfl, 0, 0, ciphertext, dataTag, rfl, rfl, rfl, by decide +kernel, rfl⟩
  · split at h
    · next hfinal =>
      obtain ⟨rfl, rfl, rfl, rfl⟩ := hfinal
      cases h
      exact ⟨writing, rfl, rfl, 1, FINAL_FLAG, [], finalTag, rfl, rfl, rfl, by decide +kernel, rfl⟩
    · cases h

end Recorded

end ScopeVcs.Storage

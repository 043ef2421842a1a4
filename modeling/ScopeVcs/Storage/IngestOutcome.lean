import ScopeVcs.Storage.IngestRemote

/-! # An ingest stores its source or nothing

The loop takes the whole source when it is within the limit of the caller, however the reads split it,
and breaks off when it is longer; a blocking source comes to the same, since the channel delivers at
least a byte more than the limit. What the tasks make of the chunks then decides: within the limits of
the envelope and the upload both succeed.
-/

namespace ScopeVcs.Storage

open Mutation Bytes PackUpload

variable {σ : Type} {reader : Reader σ UInt8 String} {chunkBytes maxBytes : ℕ}

theorem readBytes_pos {remaining : ℕ} (hchunk : 0 < chunkBytes) :
    0 < readBytes chunkBytes remaining :=
  lt_min hchunk (lt_min (Nat.succ_pos _) (by decide))

theorem readBytes_le (chunkBytes remaining : ℕ) : readBytes chunkBytes remaining ≤ remaining + 1 :=
  (min_le_right _ _).trans (min_le_left _ _)

/-! ## Blocking sources -/

namespace Bridge

variable {bridge bridge' : Bridge σ}

/-- A chunk comes off the front of what the channel has still to deliver. -/
theorem recv_eq_some {chunk : Bytes}
    (h : bridge.recv reader chunkBytes = .ok (some chunk, bridge')) :
    chunk ≠ [] ∧ bridge.rest reader = chunk ++ bridge'.rest reader := by
  rw [recv] at h
  split at h
  · cases h
  · next source hsource =>
    split at h
    · cases h
    · cases h
    · next byte bytes source' hread =>
      cases h
      have hle := (reader.length_le hread).trans (readBytes_le chunkBytes bridge.remaining)
      refine ⟨List.cons_ne_nil _ _, ?_⟩
      rw [rest, hsource, rest]
      simp only [decide_eq_true_eq]
      rw [reader.rest_eq hread, List.take_append, List.take_of_length_le hle]
      -- the last byte that the limit allows ends the delivery
      by_cases hexceeded : bridge.remaining < (byte :: bytes).length
      · rw [if_pos hexceeded, show bridge.remaining + 1 - (byte :: bytes).length = 0 by omega,
          List.take_zero]
      · rw [if_neg hexceeded, show bridge.remaining + 1 - (byte :: bytes).length =
          bridge.remaining - (byte :: bytes).length + 1 by omega]

/-- The channel ends when nothing is left to deliver. -/
theorem recv_eq_none (hchunk : 0 < chunkBytes)
    (h : bridge.recv reader chunkBytes = .ok (none, bridge')) :
    bridge.rest reader = [] ∧ bridge'.rest reader = [] := by
  rw [recv] at h
  split at h
  · next hsource =>
    cases h
    rw [rest, hsource]
    exact ⟨rfl, rfl⟩
  · next source hsource =>
    split at h
    · cases h
    · next source' hread =>
      cases h
      rw [rest, hsource]
      refine ⟨?_, rfl⟩
      show (reader.rest source).take _ = []
      rw [reader.rest_eq_nil (readBytes_pos hchunk) hread, List.take_nil]
    · cases h

theorem exists_recv (hreads : reader.Infallible) (chunkBytes : ℕ) (bridge : Bridge σ) :
    ∃ item bridge', bridge.recv reader chunkBytes = .ok (item, bridge') := by
  rw [recv]
  cases hsource : bridge.source with
  | none => exact ⟨_, _, rfl⟩
  | some source =>
    obtain ⟨piece, source', hread⟩ := hreads source (readBytes chunkBytes bridge.remaining)
    simp only [hread]
    cases piece with
    | nil => exact ⟨_, _, rfl⟩
    | cons byte bytes => exact ⟨_, _, rfl⟩

end Bridge

namespace BlockingReaderStream

variable {stream stream' : BlockingReaderStream σ} {length : ℕ} {bytes : Bytes}

def rest (reader : Reader σ UInt8 String) (stream : BlockingReaderStream σ) : Bytes :=
  stream.current ++ stream.receiver.rest reader

theorem read_eq_ok (hchunk : 0 < chunkBytes)
    (h : stream.read reader chunkBytes length = .ok (bytes, stream')) :
    stream.rest reader = bytes ++ stream'.rest reader ∧ bytes.length ≤ length ∧
      (0 < length → bytes = [] → stream.rest reader = []) := by
  rw [read] at h
  split at h
  · next hcurrent =>
    cases h
    refine ⟨?_, List.length_take_le _ _, fun hlength hnil => ?_⟩
    · rw [rest, rest, ← List.append_assoc, List.take_append_drop]
    · rcases List.take_eq_nil_iff.mp hnil with hzero | hnil
      · exact absurd hzero hlength.ne'
      · exact absurd hnil hcurrent
  · next hcurrent =>
    have hcurrent : stream.current = [] := not_not.mp hcurrent
    split at h
    · cases h
    · next receiver hrecv =>
      cases h
      obtain ⟨hrest, hrest'⟩ := Bridge.recv_eq_none hchunk hrecv
      rw [rest, rest, hcurrent, hrest, hrest']
      exact ⟨rfl, Nat.zero_le _, fun _ _ => rfl⟩
    · next chunk receiver hrecv =>
      cases h
      obtain ⟨hne, hrest⟩ := Bridge.recv_eq_some hrecv
      refine ⟨?_, List.length_take_le _ _, fun hlength hnil => ?_⟩
      · show _ = chunk.take length ++ (chunk.drop length ++ receiver.rest reader)
        rw [rest, hcurrent, hrest, ← List.append_assoc (chunk.take length), List.take_append_drop,
          List.nil_append]
      · rcases List.take_eq_nil_iff.mp hnil with hzero | hnil
        · exact absurd hzero hlength.ne'
        · exact absurd hnil hne

/-- The stream over the channel is a reader again. -/
def asReader (reader : Reader σ UInt8 String) (config : GitSegmentStoreConfig) :
    Reader (BlockingReaderStream σ) UInt8 String where
  read := read reader config.chunkBytes
  rest := rest reader
  rest_eq := fun h => (read_eq_ok config.chunkBytes_pos h).1
  length_le := fun h => (read_eq_ok config.chunkBytes_pos h).2.1
  rest_eq_nil := fun hlength h => (read_eq_ok config.chunkBytes_pos h).2.2 hlength rfl

theorem infallible_asReader (hreads : reader.Infallible) (config : GitSegmentStoreConfig) :
    (asReader reader config).Infallible := by
  intro stream length
  show ∃ piece stream', stream.read reader config.chunkBytes length = .ok (piece, stream')
  rw [read]
  by_cases hcurrent : stream.current ≠ []
  · rw [if_pos hcurrent]
    exact ⟨_, _, rfl⟩
  · rw [if_neg hcurrent]
    obtain ⟨item, receiver, hrecv⟩ := Bridge.exists_recv hreads config.chunkBytes stream.receiver
    rw [hrecv]
    cases item with
    | none => exact ⟨_, _, rfl⟩
    | some chunk => exact ⟨_, _, rfl⟩

/-- The stream before anything has been read. -/
def start (source : σ) (maxBytes : ℕ) : BlockingReaderStream σ := ⟨⟨some source, maxBytes⟩, []⟩

theorem rest_start (reader : Reader σ UInt8 String) (source : σ) (maxBytes : ℕ) :
    (start source maxBytes).rest reader = (reader.rest source).take (maxBytes + 1) := rfl

end BlockingReaderStream

def ingestReservedBlockingReader (crypto : Crypto) (store : GitSegmentStore) (schedule : Schedule)
    (reader : Reader σ UInt8 String) (repositoryId : Str) (reservation : GitSegmentReservation)
    (files : LocalSegment) (source : σ) (maxBytes : ℕ) : Ingest :=
  ingestReserved crypto store schedule (BlockingReaderStream.asReader reader store.config)
    repositoryId reservation files (BlockingReaderStream.start source maxBytes) maxBytes

/-! ## The loop over the source -/

/-- What the loop has taken, with the count beside it. -/
theorem yields_ingestChunks {state state' : σ × ℕ} {chunks : List Bytes}
    (h : (ingestChunks reader chunkBytes maxBytes).Yields state chunks state')
    (hcount : state.2 ≤ maxBytes) :
    Chunked chunkBytes chunks ∧ state'.2 = state.2 + chunks.flatten.length ∧ state'.2 ≤ maxBytes ∧
      reader.rest state.1 = chunks.flatten ++ reader.rest state'.1 := by
  induction h with
  | nil => exact ⟨fun chunk hchunk => absurd hchunk List.not_mem_nil, rfl, hcount, rfl⟩
  | @cons state next state' chunk chunks hnext hrest ih =>
    obtain ⟨hne, hlength, hlimit, hnext₂, hrest₁⟩ := nextChunk_eq_some hnext
    obtain ⟨hchunked, hcount', hle, hrest₂⟩ := ih (by omega)
    refine ⟨fun c hc => ?_, ?_, hle, ?_⟩
    · rcases List.mem_cons.mp hc with rfl | hc
      · exact ⟨hne, hlength⟩
      · exact hchunked c hc
    · rw [hcount', hnext₂, List.flatten_cons, List.length_append]
      omega
    · rw [hrest₁, hrest₂, List.flatten_cons, List.append_assoc]

/-- Where the loop stops, the source has ended or has a byte too many. -/
theorem nextChunk_stops (hreads : reader.Infallible) (hchunk : 0 < chunkBytes)
    (hmax : maxBytes ≤ maxU64) {state : σ × ℕ} (hcount : state.2 ≤ maxBytes)
    (hstop : (∃ state', nextChunk reader chunkBytes maxBytes state = .ok (none, state')) ∨
      ∃ stop, nextChunk reader chunkBytes maxBytes state = .error stop) :
    (reader.rest state.1 = [] ∧
      ∃ state', nextChunk reader chunkBytes maxBytes state = .ok (none, state')) ∨
    maxBytes < state.2 + (reader.rest state.1).length ∧
      nextChunk reader chunkBytes maxBytes state = .error .limitExceeded := by
  obtain ⟨piece, source, hread⟩ := hreads state.1 (readBytes chunkBytes (maxBytes - state.2))
  have hnext : nextChunk reader chunkBytes maxBytes state =
      match piece with
      | [] => .ok (none, source, state.2)
      | byte :: bytes =>
        if maxBytes - state.2 < (byte :: bytes).length then .error .limitExceeded
        else if maxU64 < state.2 + (byte :: bytes).length then .error .sizeOverflow
        else .ok (some (byte :: bytes), source, state.2 + (byte :: bytes).length) := by
    rw [nextChunk]
    simp only [hread]
    cases piece <;> rfl
  cases piece with
  | nil => exact .inl ⟨reader.rest_eq_nil (readBytes_pos hchunk) hread, _, hnext⟩
  | cons byte bytes =>
    simp only at hnext
    by_cases hover : maxBytes - state.2 < (byte :: bytes).length
    · refine .inr ⟨?_, hnext.trans (if_pos hover)⟩
      rw [reader.rest_eq hread, List.length_append]
      omega
    · rw [if_neg hover, if_neg (by omega)] at hnext
      rcases hstop with ⟨state', hstop⟩ | ⟨stop, hstop⟩ <;> cases hnext.symm.trans hstop

/-- The chunks that the loop reads when no task breaks off. -/
def chunksRead (reader : Reader σ UInt8 String) (config : GitSegmentStoreConfig) (source : σ)
    (maxBytes : ℕ) : List Bytes :=
  ((ingestChunks reader config.chunkBytes maxBytes).forEach
    (fun read chunk => (read ++ [chunk], .ok ())) (source, 0) []).1

theorem feed_collect {ε : Type} (chunks read : List Bytes) :
    Producer.feed (fun read chunk => (read ++ [chunk], (.ok () : Except ε Unit))) read chunks =
      (read ++ chunks, .ok ()) := by
  induction chunks generalizing read with
  | nil => rw [Producer.feed, List.append_nil]
  | cons chunk chunks ih =>
    rw [List.append_cons]
    exact ih (read ++ [chunk])

/-- The whole loop: it takes the source, or finds it too long. -/
theorem exists_chunksRead (hreads : reader.Infallible) (config : GitSegmentStoreConfig)
    (hmax : maxBytes ≤ maxU64) (source : σ) :
    Chunked config.chunkBytes (chunksRead reader config source maxBytes) ∧
    ∃ state, (ingestChunks reader config.chunkBytes maxBytes).Yields (source, 0)
        (chunksRead reader config source maxBytes) state ∧
      (((chunksRead reader config source maxBytes).flatten = reader.rest source ∧
          (reader.rest source).length ≤ maxBytes ∧
          ∃ state', nextChunk reader config.chunkBytes maxBytes state = .ok (none, state')) ∨
        maxBytes < (reader.rest source).length ∧
          nextChunk reader config.chunkBytes maxBytes state = .error .limitExceeded) := by
  obtain ⟨chunks, state, hyields, hstop⟩ :=
    (ingestChunks reader config.chunkBytes maxBytes).exists_stop (source, 0)
  obtain ⟨hchunked, hcount, hle, hrest⟩ := yields_ingestChunks hyields (Nat.zero_le _)
  rw [Nat.zero_add] at hcount
  have hcollected : chunksRead reader config source maxBytes = chunks := by
    rcases hstop with ⟨state', hend⟩ | ⟨stop, herror⟩
    · rw [chunksRead, Producer.forEach_of_yields hyields hend, feed_collect, List.nil_append]
    · rw [chunksRead, Producer.forEach_of_yields_error hyields herror, feed_collect, List.nil_append]
  rw [hcollected]
  refine ⟨hchunked, state, hyields, ?_⟩
  change reader.rest source = _ at hrest
  rcases nextChunk_stops hreads config.chunkBytes_pos hmax hle hstop with
    ⟨hnil, hend⟩ | ⟨hlong, hlimit⟩
  · rw [hnil, List.append_nil] at hrest
    exact .inl ⟨hrest.symm, by rw [hrest, ← hcount]; exact hle, hend⟩
  · refine .inr ⟨?_, hlimit⟩
    rw [hrest, List.length_append, ← hcount]
    exact hlong

/-! ## The tasks -/

theorem writeMessages_ended (chunks : List Bytes) (file : Bytes) :
    writeMessages file (chunks.map .chunk ++ [.end_]) = (file ++ chunks.flatten, .ok ()) := by
  induction chunks generalizing file with
  | nil =>
    rw [List.flatten_nil, List.append_nil]
    rfl
  | cons chunk chunks ih =>
    rw [List.flatten_cons, ← List.append_assoc]
    exact ih (file ++ chunk)

theorem writeMessages_open (chunks : List Bytes) (file : Bytes) :
    (writeMessages file (chunks.map .chunk)).2 = .error .incompleteIngest := by
  induction chunks generalizing file with
  | nil => rfl
  | cons chunk chunks ih => exact ih (file ++ chunk)

/-- Where nothing is in the way, a whole stream becomes the local pack. -/
theorem writeLocal_ended (chunks : List Bytes) :
    writeLocal .empty (chunks.map .chunk ++ [.end_]) = (⟨none, some chunks.flatten⟩, .ok ()) := by
  rw [writeLocal, writeMessages_ended]
  rfl

/-- A stream that breaks off leaves no file. -/
theorem writeLocal_open (chunks : List Bytes) :
    writeLocal .empty (chunks.map .chunk) = (.empty, .error .incompleteIngest) := by
  have hopen := writeMessages_open chunks []
  rw [writeLocal]
  revert hopen
  cases writeMessages [] (chunks.map .chunk) with
  | mk file result =>
    rintro rfl
    rfl

/-- Every chunk is sent, or a send behind some of them finds that a task has ended. -/
theorem feed_sendChunk (schedule : Schedule) (gone : List Bytes → Bool) (sent chunks : List Bytes) :
    Producer.feed (sendChunk schedule gone) sent chunks = (sent ++ chunks, .ok ()) ∨
    ∃ before, before <+: chunks ∧ gone (sent ++ before) = true ∧
      Producer.feed (sendChunk schedule gone) sent chunks = (sent ++ before, .error .hungUp) := by
  induction chunks generalizing sent with
  | nil => exact .inl (by rw [Producer.feed, List.append_nil])
  | cons chunk chunks ih =>
    by_cases hgone : (gone sent && schedule.notices sent.length) = true
    · have hsend : sendChunk schedule gone sent chunk = (sent, .error .hungUp) := if_pos hgone
      refine .inr ⟨[], List.nil_prefix, ?_, ?_⟩
      · rw [List.append_nil]
        exact (Bool.and_eq_true_iff.mp hgone).1
      · rw [Producer.feed, hsend, List.append_nil]
    · have hsend : sendChunk schedule gone sent chunk = (sent ++ [chunk], .ok ()) := if_neg hgone
      have hrest : Producer.feed (sendChunk schedule gone) sent (chunk :: chunks) =
          Producer.feed (sendChunk schedule gone) (sent ++ [chunk]) chunks := by
        rw [Producer.feed, hsend]
      rw [hrest]
      rcases ih (sent ++ [chunk]) with hall | ⟨before, hbefore, hgone', hstop⟩
      · exact .inl (by rw [hall, ← List.append_cons])
      · refine .inr ⟨chunk :: before, List.cons_prefix_cons.mpr ⟨rfl, hbefore⟩, ?_, ?_⟩
        · rwa [List.append_cons]
        · rw [hstop, ← List.append_cons]

/-! ## What the backend holds -/

/-- The object under a key, and the parts of its open upload. -/
structure StoredObject where
  parts : List (ℕ × Bytes)
  object : Option Bytes
  deriving DecidableEq

/-- A completed upload is the parts it names, one after the other. -/
def StoredObject.apply (stored : StoredObject) : BackendCall → StoredObject
  | .put _ bytes => { stored with object := some bytes }
  | .begin_ _ | .abortIncomplete _ => { stored with parts := [] }
  | .uploadPart _ partNumber bytes =>
    { stored with parts := (partNumber, bytes) :: stored.parts }
  | .complete _ parts =>
    { parts := []
      object := (parts.mapM fun part => stored.parts.lookup part.partNumber).map List.flatten }
  | .delete _ => { stored with object := none }

/-- The object that the calls leave under a key where there was none. -/
def objectAfter (calls : List BackendCall) : Option Bytes :=
  (calls.foldl StoredObject.apply ⟨[], none⟩).object

theorem foldl_uploadPart (tasks : List PartTask) (stored : StoredObject) :
    (tasks.map PartTask.call).foldl StoredObject.apply stored =
      { stored with
        parts := (tasks.map fun task => (task.partNumber, task.bytes)).reverse ++ stored.parts } := by
  induction tasks generalizing stored with
  | nil => rfl
  | cons task tasks ih =>
    rw [List.map_cons, List.foldl_cons, ih, List.map_cons, List.reverse_cons, List.append_assoc]
    rfl

theorem lookup_of_mem {parts : List (ℕ × Bytes)} {part : ℕ × Bytes}
    (hnodup : (parts.map Prod.fst).Nodup) (hpart : part ∈ parts) :
    parts.lookup part.1 = some part.2 := by
  obtain ⟨before, behind, rfl⟩ := List.append_of_mem hpart
  refine List.lookup_eq_some_iff.mpr ⟨before, behind, rfl, fun other hother => ?_⟩
  rw [List.map_append, List.nodup_append] at hnodup
  have hne := hnodup.2.2 other.1 (List.mem_map_of_mem hother) part.1 (by simp)
  simpa using fun heq => hne heq.symm

/-- The stored object is the envelope. -/
theorem PackUpload.StoredAs.objectAfter_eq {backend : ObjectBackend} {objectKey envelope : Bytes}
    {partBytes uploadedParts : ℕ} {calls : List BackendCall}
    (h : StoredAs backend objectKey partBytes envelope calls uploadedParts) :
    objectAfter calls = some envelope := by
  cases h with
  | put hshort => rfl
  | @multipart parts ended hlong hflatten hfull hparts hended =>
    let tasks := partTasks (backend.begin_ objectKey) parts
    let uploaded := (ended.map fun task => (task.partNumber, task.bytes)).reverse
    have hnodup : (uploaded.map Prod.fst).Nodup := by
      have hnumbers : (ended.map PartTask.partNumber).Perm (List.range' 1 parts.length) := by
        rw [← partNumbers_partTasks (backend.begin_ objectKey)]
        exact hended.map _
      rw [List.map_reverse, List.nodup_reverse, List.map_map]
      exact hnumbers.nodup_iff.mpr List.nodup_range'
    have hlookup : ∀ task ∈ tasks,
        uploaded.lookup (task.part backend).partNumber = some task.bytes := by
      intro task htask
      have hmem : (task.partNumber, task.bytes) ∈ uploaded :=
        List.mem_reverse.mpr (List.mem_map_of_mem (f := fun task : PartTask => _)
          (hended.mem_iff.mpr htask))
      rw [show (task.part backend).partNumber = task.partNumber from
        backend.partNumber_uploadPart ..]
      exact lookup_of_mem hnodup hmem
    have hbytes : tasks.map PartTask.bytes = parts := by
      show ((parts.zipIdx 1).map _).map _ = parts
      rw [List.map_map]
      exact List.zipIdx_map_fst 1 parts
    have hcomplete : (tasks.map (PartTask.part backend)).mapM
        (fun part => uploaded.lookup part.partNumber) = some parts := by
      rw [List.mapM_map, option_mapM_eq_some]
      refine ⟨fun task htask => by rw [Function.comp_apply, hlookup task htask]; rfl, ?_⟩
      rw [← hbytes, ← List.filterMap_eq_map]
      exact List.filterMap_congr fun task htask => (hlookup task htask).symm
    have hopened : (BackendCall.begin_ objectKey :: ended.map PartTask.call).foldl
        StoredObject.apply ⟨[], none⟩ = ⟨uploaded ++ [], none⟩ := foldl_uploadPart ended ⟨[], none⟩
    rw [objectAfter, List.foldl_append, hopened]
    show ((tasks.map (PartTask.part backend)).mapM fun part : UploadedPart =>
      (uploaded ++ []).lookup part.partNumber).map List.flatten = some envelope
    rw [List.append_nil, hcomplete, ← hflatten]
    rfl

/-! ## The outcome -/

/-- A reservation that `reserve` has made for the repository. -/
structure GitSegmentReservation.BelongsTo (crypto : Crypto) (repositoryId : Str)
    (reservation : GitSegmentReservation) : Prop where
  repositoryId_ne : repositoryId.bytes ≠ []
  segmentId_hex : isHexId32 reservation.segmentId = true
  objectKey : reservation.objectKey =
    segmentObjectKey crypto repositoryId reservation.segmentId

/-- The ingest of a source that was read in these chunks stores it, or nothing. -/
structure StoresOrNothing (crypto : Crypto) (store : GitSegmentStore) (schedule : Schedule)
    (repositoryId : Str) (reservation : GitSegmentReservation) (source : Bytes)
    (chunks : List Bytes) (maxBytes : ℕ) (ingest : Ingest) : Prop where
  ok_iff : (∃ staged, ingest.result = .ok staged) ↔ source.length ≤ maxBytes ∧
    WithinLimits store.encryptionKey store.config.multipartPartBytes chunks
  stored : ∀ staged, ingest.result = .ok staged →
    ingest.files = ⟨none, some source⟩ ∧
    staged.segment =
      ⟨reservation.segmentId, crypto.sha256Hex source, source.length, ENCODING_VERSION⟩ ∧
    staged.objectKey = reservation.objectKey ∧
    ∃ envelope, chunks.flatten = source ∧
      sealStream crypto store.encryptionKey (.gitSegment repositoryId reservation.segmentId)
        store.config.chunkBytes schedule.random chunks = .ok envelope ∧
      staged.encryptedBytes = envelope.length ∧
      StoredAs store.backend reservation.objectKey store.config.multipartPartBytes envelope
        ingest.calls staged.uploadedParts ∧
      objectAfter ingest.calls = some envelope
  nothing : ∀ error, ingest.result = .error error →
    ingest.files = .empty ∧ Unstored ingest.calls

section

variable {crypto : Crypto} {store : GitSegmentStore} {schedule : Schedule} {repositoryId : Str}
  {reservation : GitSegmentReservation} {source : Bytes} {chunks : List Bytes} {ingest : Ingest}

/-- A failed ingest takes back what its tasks have done. -/
theorem StoresOrNothing.of_cleanup
    (hover : ¬(source.length ≤ maxBytes ∧
      WithinLimits store.encryptionKey store.config.multipartPartBytes chunks))
    (files : LocalSegment) (written : Except IngestError Unit) {calls : List BackendCall}
    (hfiles : (match written with
      | .ok () => { files with pack := none }
      | .error _ => files) = LocalSegment.empty)
    (hcalls : Unstored calls) (error : IngestError) :
    StoresOrNothing crypto store schedule repositoryId reservation source chunks maxBytes
      (cleanupIngest reservation.objectKey files written calls error) where
  ok_iff := by
    refine iff_of_false ?_ hover
    rintro ⟨staged, hstaged⟩
    cases hstaged
  stored := fun staged hstaged => by cases hstaged
  nothing := by
    intro error' herror
    refine ⟨hfiles, fun call hcall => ?_⟩
    rcases List.mem_append.mp hcall with hcall | hcall
    · exact hcalls call hcall
    · rcases List.mem_cons.mp hcall with rfl | hcall
      · rfl
      · rw [List.mem_singleton.mp hcall]
        rfl

/-- Behind the checks of its reservation an ingest is its loop and what follows. -/
theorem ingestReserved_eq (hreservation : reservation.BelongsTo crypto repositoryId)
    {files : LocalSegment} {source : σ} {sent : List Bytes} {stop : Except Stop (σ × ℕ)}
    (hloop : fanOut crypto store schedule reader (.gitSegment repositoryId reservation.segmentId)
      reservation.objectKey files maxBytes source = (sent, stop)) :
    ingestReserved crypto store schedule reader repositoryId reservation files source maxBytes =
      concludeIngest crypto store schedule repositoryId reservation files maxBytes sent stop := by
  have hidentity : ¬(repositoryId.bytes = [] ∨ isHexId32 reservation.segmentId = false) := by
    rintro (hnil | hhex)
    · exact hreservation.repositoryId_ne hnil
    · rw [hreservation.segmentId_hex] at hhex
      cases hhex
  rw [ingestReserved, if_neg hidentity, if_neg (not_not.mpr hreservation.objectKey), hloop]

variable {noncePrefix : NoncePrefix}

/-- An ingest whose stream breaks off is taken back, whatever its error is. -/
theorem concludeIngest_broken (hcrypto : crypto.Correct) (hrandom : schedule.random = .ok noncePrefix)
    {sent : List Bytes} {stop : Stop} (hstop : stop ≠ .sizeOverflow)
    (hsent : Chunked store.config.chunkBytes sent)
    (hover : ¬(source.length ≤ maxBytes ∧
      WithinLimits store.encryptionKey store.config.multipartPartBytes chunks)) :
    StoresOrNothing crypto store schedule repositoryId reservation source chunks maxBytes
      (concludeIngest crypto store schedule repositoryId reservation .empty maxBytes sent
        (.error stop : Except Stop (σ × ℕ))) := by
  obtain ⟨calls, error, hremote, hcalls⟩ := uploadRemote_open hcrypto hrandom
    (.gitSegment repositoryId reservation.segmentId) reservation.objectKey hsent
  have hmessages : messagesOf sent (.error stop : Except Stop (σ × ℕ)) = sent.map .chunk :=
    List.append_nil _
  rw [concludeIngest, hmessages, writeLocal_open, hremote]
  cases stop with
  | sizeOverflow => exact absurd rfl hstop
  | input message => exact .of_cleanup hover .empty (.error .incompleteIngest) rfl hcalls _
  | limitExceeded => exact .of_cleanup hover .empty (.error .incompleteIngest) rfl hcalls _
  | hungUp => exact .of_cleanup hover .empty (.error .incompleteIngest) rfl hcalls _

/-- An ingest whose tasks have seen the end stores the source, unless the upload has failed. -/
theorem concludeIngest_ended (hcrypto : crypto.Correct) (hrandom : schedule.random = .ok noncePrefix)
    (hchunked : Chunked store.config.chunkBytes chunks) (hflatten : chunks.flatten = source)
    (hshort : source.length ≤ maxBytes) (state : σ × ℕ) :
    StoresOrNothing crypto store schedule repositoryId reservation source chunks maxBytes
      (concludeIngest crypto store schedule repositoryId reservation .empty maxBytes chunks
        (.ok state)) := by
  have hmessages : messagesOf chunks (.ok state : Except Stop (σ × ℕ)) =
      chunks.map .chunk ++ [.end_] := rfl
  subst hflatten
  rcases uploadRemote_ended hcrypto hrandom (.gitSegment repositoryId reservation.segmentId)
      reservation.objectKey hchunked with
    ⟨envelope, calls, uploadedParts, hsealed, hremote, hstored, hwithin⟩ |
    ⟨calls, error, hremote, hcalls, hlimits⟩
  · rw [concludeIngest, hmessages, writeLocal_ended, hremote]
    refine ⟨iff_of_true ⟨_, rfl⟩ ⟨hshort, hwithin⟩, fun staged hstaged => ?_, fun error herror => ?_⟩
    · cases hstaged
      exact ⟨rfl, rfl, rfl, envelope, rfl, hsealed, rfl, hstored, hstored.objectAfter_eq⟩
    · cases herror
  · rw [concludeIngest, hmessages, writeLocal_ended, hremote]
    exact .of_cleanup (fun h => hlimits h.2) ⟨none, some chunks.flatten⟩ (.ok ()) rfl hcalls error

/-- The outcome for any reader. -/
theorem ingestReserved_storesOrNothing (hcrypto : crypto.Correct)
    (hrandom : schedule.random = .ok noncePrefix) (hreads : reader.Infallible)
    (hreservation : reservation.BelongsTo crypto repositoryId) (hmax : maxBytes ≤ maxU64)
    (source : σ) :
    StoresOrNothing crypto store schedule repositoryId reservation (reader.rest source)
      (chunksRead reader store.config source maxBytes) maxBytes
      (ingestReserved crypto store schedule reader repositoryId reservation .empty source
        maxBytes) := by
  obtain ⟨hchunked, state, hyields, hend⟩ := exists_chunksRead hreads store.config hmax source
  generalize chunksRead reader store.config source maxBytes = chunks at *
  let scope := EnvelopeScope.gitSegment repositoryId reservation.segmentId
  let gone := fun sent : List Bytes =>
    hasEnded (writeLocal .empty (sent.map StreamMessage.chunk)).2 ||
      hasEnded (uploadRemote crypto store schedule scope reservation.objectKey
        (sent.map StreamMessage.chunk)).2
  have hsame : ∀ {before : List Bytes}, before <+: chunks → Chunked store.config.chunkBytes before :=
    fun hbefore chunk hchunk => hchunked chunk (hbefore.subset hchunk)
  rcases hend with ⟨hflatten, hshort, state', hend⟩ | ⟨hlong, hlimit⟩
  · have hloop := @Producer.forEach_of_yields _ _ _ _ _ (sendChunk schedule gone) _ _ _ [] _ hyields
      hend
    rcases feed_sendChunk schedule gone [] chunks with hall | ⟨before, hbefore, hgone, hhung⟩
    · rw [hall] at hloop
      rw [ingestReserved_eq hreservation hloop]
      exact concludeIngest_ended hcrypto hrandom hchunked hflatten hshort state'
    · rw [hhung] at hloop
      rw [ingestReserved_eq hreservation hloop]
      refine concludeIngest_broken hcrypto hrandom (by decide) (hsame hbefore) fun hwithin => ?_
      -- only the upload can have ended, and only at a limit
      have hsent := hsame hbefore
      obtain ⟨behind, rfl⟩ := hbefore
      have hwaits := hasEnded_uploadRemote hcrypto hrandom scope reservation.objectKey hsent
        hwithin.2.of_append
      rw [List.nil_append] at hgone
      change (hasEnded (writeLocal .empty (before.map StreamMessage.chunk)).2 || _) = true at hgone
      rw [writeLocal_open, hwaits] at hgone
      cases hgone
  · have hloop := @Producer.forEach_of_yields_error _ _ _ _ _ (sendChunk schedule gone) _ _ [] _ _
      hyields hlimit
    have hover : ¬((reader.rest source).length ≤ maxBytes ∧
        WithinLimits store.encryptionKey store.config.multipartPartBytes chunks) :=
      fun h => absurd h.1 (not_le.mpr hlong)
    rcases feed_sendChunk schedule gone [] chunks with hall | ⟨before, hbefore, -, hhung⟩
    · rw [hall] at hloop
      rw [ingestReserved_eq hreservation hloop]
      exact concludeIngest_broken hcrypto hrandom (by decide) hchunked hover
    · rw [hhung] at hloop
      rw [ingestReserved_eq hreservation hloop]
      exact concludeIngest_broken hcrypto hrandom (by decide) (hsame hbefore) hover

/-- The byte beyond the limit stands for all that follow it. -/
theorem StoresOrNothing.of_take
    (h : StoresOrNothing crypto store schedule repositoryId reservation
      (source.take (maxBytes + 1)) chunks maxBytes ingest) :
    StoresOrNothing crypto store schedule repositoryId reservation source chunks maxBytes ingest := by
  have hshort : (source.take (maxBytes + 1)).length ≤ maxBytes ↔ source.length ≤ maxBytes := by
    rw [List.length_take]
    omega
  refine ⟨?_, fun staged hstaged => ?_, h.nothing⟩
  · rw [← hshort]
    exact h.ok_iff
  · have hle := hshort.mp (h.ok_iff.mp ⟨staged, hstaged⟩).1
    have hstored := h.stored staged hstaged
    rwa [List.take_of_length_le (Nat.le_succ_of_le hle)] at hstored

end

/-- An ingest stores exactly its source or nothing, directly or over a blocking reader, however the
reads split the source; it succeeds when the source is within the limit of the caller and its chunks
are within those of the envelope and the upload. -/
theorem ingest_stores_source_or_nothing {crypto : Crypto} (hcrypto : crypto.Correct)
    (store : GitSegmentStore) {schedule : Schedule} {noncePrefix : NoncePrefix}
    (hrandom : schedule.random = .ok noncePrefix) {repositoryId : Str}
    {reservation : GitSegmentReservation} (hreservation : reservation.BelongsTo crypto repositoryId)
    {reader : Reader σ UInt8 String} (hreads : reader.Infallible) (source : σ) {maxBytes : ℕ}
    (hmax : maxBytes ≤ maxU64) :
    StoresOrNothing crypto store schedule repositoryId reservation (reader.rest source)
        (chunksRead reader store.config source maxBytes) maxBytes
        (ingestReserved crypto store schedule reader repositoryId reservation .empty source
          maxBytes) ∧
      StoresOrNothing crypto store schedule repositoryId reservation (reader.rest source)
        (chunksRead (BlockingReaderStream.asReader reader store.config) store.config
          (BlockingReaderStream.start source maxBytes) maxBytes) maxBytes
        (ingestReservedBlockingReader crypto store schedule reader repositoryId reservation .empty
          source maxBytes) := by
  constructor
  · exact ingestReserved_storesOrNothing hcrypto hrandom hreads hreservation hmax source
  · have hstream := BlockingReaderStream.infallible_asReader hreads store.config
    exact (ingestReserved_storesOrNothing hcrypto hrandom hstream hreservation hmax
      (BlockingReaderStream.start source maxBytes)).of_take

/-! ## Sources at the limits -/

theorem length_le_flatten {chunks : List Bytes} (h : Chunked chunkBytes chunks) :
    chunks.length ≤ chunks.flatten.length := by
  induction chunks with
  | nil => exact Nat.le_refl 0
  | cons chunk chunks ih =>
    have hpos := List.length_pos_iff.mpr (h chunk List.mem_cons_self).1
    have hrest := ih fun c hc => h c (List.mem_cons_of_mem _ hc)
    rw [List.flatten_cons, List.length_append, List.length_cons]
    omega

/-- A source with few enough bytes is within the limits even when every read gives one byte. -/
theorem withinLimits_of_length {key : EncryptionKey} {partBytes length : ℕ} {chunks : List Bytes}
    (hchunked : Chunked chunkBytes chunks) (hlength : chunks.flatten.length = length)
    (hframes : length < maxU32)
    (hfits : Fits partBytes
      (HEADER_FIXED_BYTES + key.keyId.length + length + (length + 1) * overhead)) :
    WithinLimits key partBytes chunks := by
  have hle := length_le_flatten hchunked
  have hoverhead : (chunks.length + 1) * overhead ≤ (length + 1) * overhead :=
    Nat.mul_le_mul_right _ (by omega)
  refine ⟨by omega, hfits.mono ?_⟩
  rw [envelopeLength, hlength]
  omega

namespace SmallSegment

/-- A backend that answers as the one in memory does. -/
def backend : ObjectBackend where
  begin_ := fun key => ⟨key, "1"⟩
  uploadPart := fun _ partNumber _ => ⟨partNumber, "memory-" ++ toString partNumber⟩
  partNumber_uploadPart := fun _ _ _ => rfl

def store (chunkBytes : ℕ) (hpos : 0 < chunkBytes) (hle : chunkBytes ≤ 16 * 1024 * 1024) :
    GitSegmentStore :=
  ⟨backend, Recorded.key, ⟨chunkBytes, 32, hpos, hle, by decide⟩⟩

def schedule : Schedule := ⟨.ok Recorded.noncePrefix, fun round => round, fun _ => true⟩

def repositoryId : Str := Recorded.repositoryId

def reservation : GitSegmentReservation :=
  let segmentId : Str := ⟨ascii "0123456789abcdef0123456789abcdef", by decide⟩
  ⟨segmentId, segmentObjectKey Recorded.library repositoryId segmentId⟩

theorem belongs : reservation.BelongsTo Recorded.library repositoryId :=
  ⟨by decide, by decide, rfl⟩

/-- A few bytes in two pieces. -/
def source : List Bytes := [ascii "pa", ascii "ck"]

/-- More single bytes than there are frame counters. -/
def bytewise : List Bytes := List.replicate (2 ^ 32) [0]

theorem length_bytewise : bytewise.flatten.length = 2 ^ 32 := by
  have hsingle : ∀ part ∈ bytewise, part.length = 1 := fun part hpart => by
    rw [List.eq_of_mem_replicate hpart]
    rfl
  rw [length_flatten_of_full hsingle, bytewise, List.length_replicate, Nat.mul_one]

/-- Four bytes are within the limits however they are read. -/
theorem withinLimits {σ : Type} {reader : Reader σ UInt8 String} (hreads : reader.Infallible)
    (config : GitSegmentStoreConfig) (start : σ) (hlength : (reader.rest start).length = 4) :
    WithinLimits Recorded.key 32 (chunksRead reader config start 4) := by
  obtain ⟨hchunked, -, -, ⟨hflatten, -⟩ | ⟨hlong, -⟩⟩ :=
    exists_chunksRead hreads config (show 4 ≤ maxU64 by decide) start
  · exact withinLimits_of_length hchunked ((congrArg _ hflatten).trans hlength) (by decide)
      ⟨by decide, by decide⟩
  · rw [hlength] at hlong
    exact absurd hlong (by decide)

end SmallSegment

open SmallSegment in
/-- Four bytes are stored, directly and over a blocking reader. -/
theorem ingest_stores_source_or_nothing_small :
    (∃ staged envelope,
      let ingest := ingestReserved Recorded.library (store 3 (by decide) (by decide)) schedule
        (Reader.ofPieces UInt8 String) repositoryId reservation .empty source 4
      ingest.result = .ok staged ∧ ingest.files = ⟨none, some (ascii "pack")⟩ ∧
        objectAfter ingest.calls = some envelope) ∧
    ∃ staged envelope,
      let ingest := ingestReservedBlockingReader Recorded.library (store 3 (by decide) (by decide))
        schedule (Reader.ofPieces UInt8 String) repositoryId reservation .empty source 4
      ingest.result = .ok staged ∧ ingest.files = ⟨none, some (ascii "pack")⟩ ∧
        objectAfter ingest.calls = some envelope := by
  obtain ⟨hdirect, hblocking⟩ := ingest_stores_source_or_nothing Recorded.correct
    (store 3 (by decide) (by decide)) (show schedule.random = .ok Recorded.noncePrefix from rfl) belongs
    (Reader.infallible_ofPieces (α := UInt8) (ε := String)) source (show 4 ≤ maxU64 by decide)
  constructor
  · obtain ⟨staged, hstaged⟩ := hdirect.ok_iff.mpr
      ⟨by decide, withinLimits Reader.infallible_ofPieces _ _ (by decide)⟩
    obtain ⟨hfiles, -, -, envelope, -, -, -, -, hobject⟩ := hdirect.stored staged hstaged
    exact ⟨staged, envelope, hstaged, hfiles, hobject⟩
  · obtain ⟨staged, hstaged⟩ := hblocking.ok_iff.mpr
      ⟨by decide, withinLimits (BlockingReaderStream.infallible_asReader
        Reader.infallible_ofPieces _) _ _ (by decide)⟩
    obtain ⟨hfiles, -, -, envelope, -, -, -, -, hobject⟩ := hblocking.stored staged hstaged
    exact ⟨staged, envelope, hstaged, hfiles, hobject⟩

/-- When a read gives one byte, a source with as many bytes as there are frame counters is refused. -/
theorem not_ok_of_single_bytes {crypto : Crypto} (hcrypto : crypto.Correct) {store : GitSegmentStore}
    (hsingle : store.config.chunkBytes = 1) {schedule : Schedule} {noncePrefix : NoncePrefix}
    (hrandom : schedule.random = .ok noncePrefix) {repositoryId : Str}
    {reservation : GitSegmentReservation} (hreservation : reservation.BelongsTo crypto repositoryId)
    (hreads : reader.Infallible) {source : σ} (hlong : maxU32 ≤ (reader.rest source).length)
    (hmax : maxBytes ≤ maxU64) :
    ¬∃ staged, (ingestReserved crypto store schedule reader repositoryId reservation .empty source
      maxBytes).result = .ok staged := by
  intro hok
  have hingest := @ingestReserved_storesOrNothing σ reader maxBytes crypto store schedule repositoryId
    reservation noncePrefix hcrypto hrandom hreads hreservation hmax source
  obtain ⟨hshort, hwithin⟩ := hingest.ok_iff.mp hok
  obtain ⟨hchunked, -, -, ⟨hflatten, -⟩ | ⟨hover, -⟩⟩ :=
    exists_chunksRead hreads store.config hmax source
  · have hbytes := Bytes.length_flatten_le fun chunk hchunk => (hchunked chunk hchunk).2
    have hframes := hwithin.frames
    rw [hflatten, hsingle] at hbytes
    omega
  · exact absurd hshort (not_le.mpr hover)

open SmallSegment in
/-- A source within the limit of its caller is refused when its reads are too many for the frame
counter. -/
theorem not_ingested_bytewise :
    ((Reader.ofPieces UInt8 String).rest bytewise).length ≤ maxU64 ∧
      ¬∃ staged, (ingestReserved Recorded.library (store 1 (by decide) (by decide)) schedule
        (Reader.ofPieces UInt8 String) repositoryId reservation .empty bytewise maxU64).result =
          .ok staged := by
  have hlength : ((Reader.ofPieces UInt8 String).rest bytewise).length = 2 ^ 32 := length_bytewise
  constructor
  · rw [hlength]
    decide
  · refine not_ok_of_single_bytes Recorded.correct rfl rfl belongs Reader.infallible_ofPieces ?_
      (Nat.le_refl maxU64)
    rw [hlength]
    decide

end ScopeVcs.Storage

import ScopeVcs.Lib.Reader
import ScopeVcs.Storage.PartProgress

/-! # Storing a Git segment

`ingest_reserved` reads its source in chunks, up to one byte beyond the limit, and sends every chunk to
two tasks: one writes the local pack, the other seals the chunk and uploads the envelope. A task that
sees the stream break off before its end gives up, and a failed ingest takes back what the tasks have
done. A blocking source is read by a thread of its own and arrives over a channel.

Nothing cancels the ingest, and neither the backend nor the file system fails.
-/

namespace ScopeVcs.Storage

open Mutation Bytes

/-! ## The settings -/

/-- The settings that `validate` has accepted. -/
structure GitSegmentStoreConfig where
  chunkBytes : ℕ
  multipartPartBytes : ℕ
  chunkBytes_pos : 0 < chunkBytes
  chunkBytes_le : chunkBytes ≤ 16 * 1024 * 1024
  multipartPartBytes_pos : 0 < multipartPartBytes

structure GitSegmentReservation where
  segmentId : Str
  objectKey : Bytes
  deriving DecidableEq

/-- The first half of the hash of a repository id, in hex digits. -/
def repositoryNamespace (crypto : Crypto) (repositoryId : Str) : Bytes :=
  (ascii (crypto.sha256Hex repositoryId.bytes)).take 32

def segmentObjectKey (crypto : Crypto) (repositoryId segmentId : Str) : Bytes :=
  ascii ("git/segments/v" ++ toString ENCODING_VERSION ++ "/") ++
    repositoryNamespace crypto repositoryId ++ ascii "/" ++ segmentId.bytes

structure StagedGitSegment where
  segment : SegmentRef
  objectKey : Bytes
  encryptedBytes : ℕ
  uploadedParts : ℕ
  deriving DecidableEq

/-! ## Reading the source -/

/-- Why the loop over the source stops before the end of the source. -/
inductive Stop where
  | input (message : String)
  | limitExceeded
  /-- The one error that returns at once. -/
  | sizeOverflow
  /-- A task has dropped its receiver. -/
  | hungUp
  deriving DecidableEq

/-- A chunk, but at most one byte more than may still come; the sum saturates at `usize::MAX`. -/
def readBytes (chunkBytes remaining : ℕ) : ℕ := min chunkBytes (min (remaining + 1) maxU64)

section

variable {σ : Type} (reader : Reader σ UInt8 String) (chunkBytes maxBytes : ℕ)

/-- One read of the loop, on the source and the bytes read so far. -/
def nextChunk (state : σ × ℕ) : Except Stop (Option Bytes × (σ × ℕ)) :=
  let remaining := maxBytes - state.2
  match reader.read state.1 (readBytes chunkBytes remaining) with
  | .error message => .error (.input message)
  | .ok ([], source) => .ok (none, source, state.2)
  | .ok (byte :: bytes, source) =>
    let chunk := byte :: bytes
    if remaining < chunk.length then .error .limitExceeded
    else if maxU64 < state.2 + chunk.length then .error .sizeOverflow
    else .ok (some chunk, source, state.2 + chunk.length)

variable {reader chunkBytes maxBytes} in
theorem nextChunk_eq_some {state state' : σ × ℕ} {chunk : Bytes}
    (h : nextChunk reader chunkBytes maxBytes state = .ok (some chunk, state')) :
    chunk ≠ [] ∧ chunk.length ≤ chunkBytes ∧ chunk.length ≤ maxBytes - state.2 ∧
      state'.2 = state.2 + chunk.length ∧ reader.rest state.1 = chunk ++ reader.rest state'.1 := by
  rw [nextChunk] at h
  split at h
  · cases h
  · cases h
  · next byte bytes source hread =>
    simp only at h
    split at h
    · cases h
    · next hlimit =>
      split at h
      · cases h
      · cases h
        refine ⟨List.cons_ne_nil _ _, ?_, not_lt.mp hlimit, rfl, reader.rest_eq hread⟩
        exact (reader.length_le hread).trans (min_le_left _ _)

/-- The chunks that the loop takes from its source. -/
def ingestChunks : Producer (σ × ℕ) Bytes Stop where
  next := nextChunk reader chunkBytes maxBytes
  size := fun state => (reader.rest state.1).length
  size_lt := by
    intro state state' chunk h
    obtain ⟨hne, -, -, -, hrest⟩ := nextChunk_eq_some h
    have hpos := List.length_pos_iff.mpr hne
    rw [hrest, List.length_append]
    omega

end

/-! ## The two tasks -/

inductive StreamMessage where
  | chunk (bytes : Bytes)
  | end_
  deriving DecidableEq

/-- The two files of a segment. -/
structure LocalSegment where
  temp : Option Bytes
  pack : Option Bytes
  deriving DecidableEq

def LocalSegment.empty : LocalSegment := ⟨none, none⟩

/-- The loop of `write_local`; the receiver ends where the messages end. -/
def writeMessages : Bytes → List StreamMessage → Bytes × Except IngestError Unit
  | file, [] => (file, .error .incompleteIngest)
  | file, .chunk bytes :: messages => writeMessages (file ++ bytes) messages
  | file, .end_ :: _ => (file, .ok ())

def writeLocal (files : LocalSegment) (messages : List StreamMessage) :
    LocalSegment × Except IngestError Unit :=
  if files.temp.isSome = true then (files, .error (.localFile "entity already exists"))
  else
    match writeMessages [] messages with
    | (_, .error error) => ({ files with temp := none }, .error error)
    | (file, .ok ()) =>
      if files.pack.isSome = true then
        ({ files with temp := none },
          .error (.localFile "generated Git segment path already exists"))
      else (⟨none, some file⟩, .ok ())

structure RemoteOutcome where
  encryptedBytes : ℕ
  uploadedParts : ℕ
  deriving DecidableEq

/-- What `upload_remote` has built. -/
structure Remote where
  envelope : EnvelopeWriter
  upload : PackUpload

/-- How `upload_remote` ends: the calls that its backend got, and its result. -/
abbrev RemoteEnd := List BackendCall × Except IngestError RemoteOutcome

namespace Remote

variable (crypto : Crypto) (backend : ObjectBackend) (joins : ℕ → ℕ)

/-- Pushing, with the result apart from the state. -/
def push (remote : Remote) (bytes : Bytes) : Remote × Except IngestError Unit :=
  match (PackUpload.push backend joins bytes).run remote.upload with
  | .ok () upload => ({ remote with upload }, .ok ())
  | .error error upload => ({ remote with upload }, .error error)

/-- What a chunk does. -/
def receive (remote : Remote) (chunk : Bytes) : Remote × Except IngestError Unit :=
  match remote.envelope.encryptData crypto chunk with
  | .error error => (remote, .error (.storage error))
  | .ok (envelope, encrypted) => ({ remote with envelope }).push backend joins encrypted

/-- What follows the loop. -/
def finish (remote : Remote) : RemoteEnd :=
  match (PackUpload.finish backend joins).run remote.upload with
  | .error error upload => (upload.calls, .error error)
  | .ok (encryptedBytes, uploadedParts) upload => (upload.calls, .ok ⟨encryptedBytes, uploadedParts⟩)

/-- What the end of the stream does. -/
def receiveEnd (remote : Remote) : RemoteEnd :=
  match remote.envelope.encryptFinal crypto with
  | .error error => (remote.upload.calls, .error (.storage error))
  | .ok (envelope, finalFrame) =>
    match ({ remote with envelope }).push backend joins finalFrame with
    | (remote, .error error) => (remote.upload.calls, .error error)
    | (remote, .ok ()) => remote.finish backend joins

/-- The loop of `upload_remote`; the receiver ends where the messages end. -/
def receiveAll : Remote → List StreamMessage → RemoteEnd
  | remote, [] => (remote.upload.calls, .error .incompleteIngest)
  | remote, .end_ :: _ => remote.receiveEnd crypto backend joins
  | remote, .chunk bytes :: messages =>
    match remote.receive crypto backend joins bytes with
    | (remote, .error error) => (remote.upload.calls, .error error)
    | (remote, .ok ()) => receiveAll remote messages

end Remote

/-! ## The ingest -/

structure GitSegmentStore where
  backend : ObjectBackend
  encryptionKey : EncryptionKey
  config : GitSegmentStoreConfig

/-- What the code does not decide: the random nonce prefix, which upload ends next, and which sends
find that a task has ended. -/
structure Schedule where
  random : Except String NoncePrefix
  joins : ℕ → ℕ
  notices : ℕ → Bool

section

variable (crypto : Crypto) (store : GitSegmentStore) (schedule : Schedule)

def uploadRemote (scope : EnvelopeScope) (objectKey : Bytes) (messages : List StreamMessage) :
    RemoteEnd :=
  match EnvelopeWriter.new crypto store.encryptionKey scope store.config.chunkBytes
      schedule.random with
  | .error error => ([], .error (.storage error))
  | .ok envelope =>
    let upload := PackUpload.new objectKey store.config.multipartPartBytes
      store.config.multipartPartBytes_pos
    match (Remote.mk envelope upload).push store.backend schedule.joins envelope.header with
    | (remote, .error error) => (remote.upload.calls, .error error)
    | (remote, .ok ()) => remote.receiveAll crypto store.backend schedule.joins messages

/-- A task has ended before its stream has, exactly when it does not miss the end. -/
def hasEnded {α : Type} (result : Except IngestError α) : Bool :=
  match result with
  | .error .incompleteIngest => false
  | _ => true

/-- Sends a chunk to both tasks. A send fails only when a task has ended. -/
def sendChunk (gone : List Bytes → Bool) (sent : List Bytes) (chunk : Bytes) :
    List Bytes × Except Stop Unit :=
  if (gone sent && schedule.notices sent.length) = true then (sent, .error .hungUp)
  else (sent ++ [chunk], .ok ())

/-- What an ingest leaves behind. -/
structure Ingest where
  result : Except IngestError StagedGitSegment
  files : LocalSegment
  calls : List BackendCall

/-- `cleanup_ingest`, and the error. -/
def cleanupIngest (objectKey : Bytes) (files : LocalSegment) (written : Except IngestError Unit)
    (calls : List BackendCall) (error : IngestError) : Ingest where
  result := .error error
  files :=
    match written with
    | .ok () => { files with pack := none }
    | .error _ => files
  calls := calls ++ [.abortIncomplete objectKey, .delete objectKey]

/-- The results of the two tasks come together. -/
def joinTasks (objectKey : Bytes) (segment : SegmentRef) (files : LocalSegment)
    (written : Except IngestError Unit) (uploaded : RemoteEnd) : Ingest :=
  match written with
  | .error error =>
    cleanupIngest objectKey files written uploaded.1
      (match uploaded.2 with
      | .error remoteError => if error = .incompleteIngest then remoteError else error
      | .ok _ => error)
  | .ok () =>
    match uploaded.2 with
    | .error error => cleanupIngest objectKey files written uploaded.1 error
    | .ok outcome =>
      { result := .ok ⟨segment, objectKey, outcome.encryptedBytes, outcome.uploadedParts⟩
        files := files
        calls := uploaded.1 }

variable {σ : Type} (reader : Reader σ UInt8 String)

/-- The loop over the source: the chunks that were sent, and how it stopped. -/
def fanOut (scope : EnvelopeScope) (objectKey : Bytes) (files : LocalSegment) (maxBytes : ℕ)
    (source : σ) : List Bytes × Except Stop (σ × ℕ) :=
  (ingestChunks reader store.config.chunkBytes maxBytes).forEach
    (sendChunk schedule fun sent =>
      let messages := sent.map StreamMessage.chunk
      hasEnded (writeLocal files messages).2 ||
        hasEnded (uploadRemote crypto store schedule scope objectKey messages).2)
    (source, 0) []

/-- What the tasks have received when the senders are dropped. -/
def messagesOf (sent : List Bytes) (stop : Except Stop (σ × ℕ)) : List StreamMessage :=
  sent.map .chunk ++
    match stop with
    | .ok _ => [.end_]
    | .error _ => []

/-- What follows the loop over the source. -/
def concludeIngest (repositoryId : Str) (reservation : GitSegmentReservation) (files : LocalSegment)
    (maxBytes : ℕ) (sent : List Bytes) (stop : Except Stop (σ × ℕ)) : Ingest :=
  let objectKey := reservation.objectKey
  let messages := messagesOf sent stop
  let (files, written) := writeLocal files messages
  let uploaded := uploadRemote crypto store schedule
    (.gitSegment repositoryId reservation.segmentId) objectKey messages
  -- the digest and the size cover every chunk; they are used only when all were sent
  let segment : SegmentRef :=
    ⟨reservation.segmentId, crypto.sha256Hex sent.flatten, sent.flatten.length, ENCODING_VERSION⟩
  match stop with
  | .error .sizeOverflow =>
    ⟨.error (.storage (.invalidEnvelope "plaintext size overflow")), files, uploaded.1⟩
  | .error (.input message) => cleanupIngest objectKey files written uploaded.1 (.input message)
  | .error .limitExceeded =>
    cleanupIngest objectKey files written uploaded.1 (.plaintextLimitExceeded maxBytes)
  | .error .hungUp | .ok _ => joinTasks objectKey segment files written uploaded

def ingestReserved (repositoryId : Str) (reservation : GitSegmentReservation) (files : LocalSegment)
    (source : σ) (maxBytes : ℕ) : Ingest :=
  if repositoryId.bytes = [] ∨ isHexId32 reservation.segmentId = false then
    ⟨.error (.storage (.invalidConfiguration
      "repository id and a generated segment id are required")), files, []⟩
  else if reservation.objectKey ≠ segmentObjectKey crypto repositoryId reservation.segmentId then
    ⟨.error (.storage (.invalidConfiguration
      "Git segment reservation does not belong to this repository")), files, []⟩
  else
    let (sent, stop) := fanOut crypto store schedule reader
      (.gitSegment repositoryId reservation.segmentId) reservation.objectKey files maxBytes source
    concludeIngest crypto store schedule repositoryId reservation files maxBytes sent stop

end

/-! ## Blocking sources -/

/-- The thread that reads a blocking source; without a source it has returned. -/
structure Bridge (σ : Type) where
  source : Option σ
  remaining : ℕ
  deriving DecidableEq

section

variable {σ : Type} (reader : Reader σ UInt8 String) (chunkBytes : ℕ)

/-- What the channel delivers next. The thread stops behind the chunk that exceeds the limit. -/
def Bridge.recv (bridge : Bridge σ) : Except String (Option Bytes × Bridge σ) :=
  match bridge.source with
  | none => .ok (none, bridge)
  | some source =>
    match reader.read source (readBytes chunkBytes bridge.remaining) with
    | .error message => .error message
    | .ok ([], _) => .ok (none, { bridge with source := none })
    | .ok (byte :: bytes, source) =>
      let chunk := byte :: bytes
      let exceeded := decide (bridge.remaining < chunk.length)
      .ok (some chunk,
        { source := if exceeded = true then none else some source
          remaining := bridge.remaining - chunk.length })

/-- No current bytes stand for `None`. -/
structure BlockingReaderStream (σ : Type) where
  receiver : Bridge σ
  current : Bytes
  deriving DecidableEq

/-- `poll_read`, once something is there to read. -/
def BlockingReaderStream.read (stream : BlockingReaderStream σ) (length : ℕ) :
    Except String (Bytes × BlockingReaderStream σ) :=
  if stream.current ≠ [] then
    .ok (stream.current.take length, { stream with current := stream.current.drop length })
  else
    match stream.receiver.recv reader chunkBytes with
    | .error message => .error message
    | .ok (none, receiver) => .ok ([], { stream with receiver })
    | .ok (some chunk, receiver) =>
      .ok (chunk.take length, { receiver, current := chunk.drop length })

/-- What the channel has still to deliver: the source up to a byte beyond the limit. -/
def Bridge.rest (bridge : Bridge σ) : Bytes :=
  match bridge.source with
  | none => []
  | some source => (reader.rest source).take (bridge.remaining + 1)

end

end ScopeVcs.Storage

import ScopeVcs.Storage.Envelope

/-! # Reading encrypted objects

The reader takes its bytes from a source that delivers them in chunks of any sizes. It checks the
header, then one frame after the other. `ObjectFrames` hands the frames of an object out; `restoreTo`
writes those of a Git segment to an output and checks size and digest.
-/

namespace ScopeVcs.Storage

open Mutation Bytes

/-! ## Sources -/

/-- What one read of a source can deliver: at least one byte. -/
structure Chunk where
  bytes : Bytes
  ne_nil : bytes ≠ []
  deriving DecidableEq

/-- A source delivers its chunks, and then ends or fails. -/
structure Source where
  chunks : List Chunk
  failure : Option String
  deriving DecidableEq

namespace Source

def bytes (source : Source) : Bytes := source.chunks.flatMap Chunk.bytes

/-- What is left of a chunk, if anything. -/
def rest (chunk : Chunk) (length : ℕ) : List Chunk :=
  if h : chunk.bytes.drop length = [] then [] else [⟨chunk.bytes.drop length, h⟩]

/-- `read` into a buffer of this length: bytes of the first chunk, none at the end. -/
def read (source : Source) (length : ℕ) : Except String (Bytes × Source) :=
  match source.chunks with
  | [] =>
    match source.failure with
    | none => .ok ([], source)
    | some error => .error error
  | chunk :: chunks =>
    .ok (chunk.bytes.take length, { source with chunks := rest chunk length ++ chunks })

/-- The loop of `read_exact`, one chunk after the other until the buffer is full. -/
def fill : ℕ → List Chunk → Option (Bytes × List Chunk)
  | 0, chunks => some ([], chunks)
  | _ + 1, [] => none
  | length + 1, chunk :: chunks =>
    if length + 1 < chunk.bytes.length then
      some (chunk.bytes.take (length + 1), rest chunk (length + 1) ++ chunks)
    else
      (fill (length + 1 - chunk.bytes.length) chunks).map fun (bytes, chunks) =>
        (chunk.bytes ++ bytes, chunks)

/-- `read_exact_envelope`. -/
def readExactEnvelope (source : Source) (length : ℕ) : Except GitStorageError (Bytes × Source) :=
  match fill length source.chunks with
  | some (bytes, chunks) => .ok (bytes, { source with chunks })
  | none =>
    match source.failure with
    | none => .error (.invalidEnvelope "truncated stream")
    | some error => .error (.backend error)

end Source

/-! ## The reader -/

structure EnvelopeReader where
  cipher : Bytes
  header : Bytes
  noncePrefix : Bytes
  scope : EnvelopeScope
  frameBytes : ℕ
  nextCounter : ℕ
  sawFinal : Bool
  deriving DecidableEq

inductive DecryptedFrame where
  | data (bytes : Bytes)
  | final
  deriving DecidableEq

namespace EnvelopeReader

variable (crypto : Crypto)

def readHeader (source : Source) (key : EncryptionKey) (scope : EnvelopeScope) :
    Except GitStorageError (EnvelopeReader × Source) := do
  let (fixed, source) ← source.readExactEnvelope HEADER_FIXED_BYTES
  rejectIf (slice fixed 0 8 ≠ MAGIC) (.invalidEnvelope "wrong magic")
  let version := ofBe (slice fixed 8 4)
  rejectIf (version ≠ ENCODING_VERSION)
    (.invalidEnvelope ("unsupported encoding version " ++ toString version))
  let keyIdLen := ofBe (slice fixed 12 2)
  rejectIf (keyIdLen = 0 ∨ MAX_KEY_ID_BYTES < keyIdLen)
    (.invalidEnvelope "invalid encryption key id length")
  let noncePrefix := slice fixed 14 8
  let frameBytes := ofBe (slice fixed 22 4)
  rejectIf (frameBytes = 0 ∨ MAX_FRAME_BYTES < frameBytes)
    (.invalidEnvelope "invalid encryption frame size")
  let (keyId, source) ← source.readExactEnvelope keyIdLen
  rejectIf (keyId ≠ key.keyId) (.invalidEnvelope "encryption key id does not match")
  return ({
    cipher := scopeCipher crypto key scope
    header := fixed ++ keyId
    noncePrefix, scope, frameBytes
    nextCounter := 0
    sawFinal := false }, source)

def next (reader : EnvelopeReader) (source : Source) :
    Except GitStorageError (DecryptedFrame × EnvelopeReader × Source) := do
  rejectIf (reader.sawFinal = true) (.invalidEnvelope "data follows the final frame")
  let (frameHeaderBytes, source) ← source.readExactEnvelope FRAME_HEADER_BYTES
  let counter := ofBe (slice frameHeaderBytes 0 4)
  let plaintextLen := ofBe (slice frameHeaderBytes 4 4)
  let flags := frameHeaderBytes.getD 8 0
  rejectIf (counter ≠ reader.nextCounter)
    (.invalidEnvelope ("frame " ++ toString counter ++ " arrived where frame " ++
      toString reader.nextCounter ++ " was required"))
  rejectIf (flags &&& ~~~FINAL_FLAG ≠ 0) (.invalidEnvelope "frame has unknown flags")
  let isFinal := flags = FINAL_FLAG
  rejectIf (¬(isFinal ↔ plaintextLen = 0)) (.invalidEnvelope "only the final frame may be empty")
  rejectIf (reader.frameBytes < plaintextLen)
    (.invalidEnvelope "frame exceeds the envelope frame size")
  let (ciphertext, source) ← source.readExactEnvelope (plaintextLen + TAG_BYTES)
  match crypto.decrypt reader.cipher (nonce reader.noncePrefix counter)
      (associatedData reader.header reader.scope frameHeaderBytes) ciphertext with
  | none => .error (.invalidEnvelope "frame authentication failed")
  | some plaintext => do
    rejectIf (maxU32 ≤ reader.nextCounter) (.invalidEnvelope "too many encryption frames")
    let nextCounter := reader.nextCounter + 1
    if isFinal then return (.final, { reader with nextCounter, sawFinal := true }, source)
    else return (.data plaintext, { reader with nextCounter }, source)

end EnvelopeReader

/-! ## Objects -/

inductive ObjectStoreErrorKind where
  | integrity
  | internal
  | payloadTooLarge
  | serviceUnavailable
  deriving DecidableEq

structure ObjectStoreError where
  kind : ObjectStoreErrorKind
  message : String
  deriving DecidableEq

/-- The text of a storage error. -/
def GitStorageError.toString : GitStorageError → String
  | .invalidConfiguration message => "invalid Git segment storage configuration: " ++ message
  | .encryption => "Git segment encryption failed"
  | .invalidEnvelope message => "Git segment envelope is invalid: " ++ message
  | .backend message => "Git segment storage failed: " ++ message
  | .checksumMismatch expected actual =>
    "Git segment checksum does not match: expected " ++ expected ++ ", got " ++ actual
  | .sizeMismatch expected actual =>
    "Git segment size does not match: expected " ++ ToString.toString expected ++ ", got " ++
      ToString.toString actual

/-- `envelope_error`; the reader's backend errors are all of the kind `Unavailable`. -/
def envelopeError (key : String) : GitStorageError → ObjectStoreError
  | .backend message => ⟨.serviceUnavailable, message⟩
  | .invalidEnvelope message =>
    ⟨.integrity, "object " ++ key ++ " failed verification: " ++ message⟩
  | error => ⟨.internal, "object " ++ key ++ ": " ++ error.toString⟩

/-- The frames of an object; `name` is its key as errors show it. -/
structure ObjectFrames where
  name : String
  source : Source
  envelope : EnvelopeReader
  deriving DecidableEq

namespace ObjectFrames

variable (crypto : Crypto)

/-- `open_frames`, on the source that the backend returns. -/
def openFrames (encryptionKey : EncryptionKey) (key : Str) (name : String) (source : Source) :
    Except ObjectStoreError ObjectFrames := do
  let (envelope, source) ←
    (EnvelopeReader.readHeader crypto source encryptionKey (.object key)).mapError (envelopeError name)
  return ⟨name, source, envelope⟩

def ensureStreamEnded (source : Source) (name : String) : Except ObjectStoreError Source :=
  match source.read 1 with
  | .error error => .error ⟨.serviceUnavailable, "reading " ++ name ++ ": " ++ error⟩
  | .ok (bytes, source) =>
    if bytes = [] then .ok source
    else .error ⟨.integrity, "object " ++ name ++ " has data after its final frame"⟩

def nextFrame (frames : ObjectFrames) : Except ObjectStoreError (Option Bytes × ObjectFrames) := do
  let (frame, envelope, source) ←
    (frames.envelope.next crypto frames.source).mapError (envelopeError frames.name)
  match frame with
  | .data bytes => return (some bytes, { frames with source, envelope })
  | .final => do
    let source ← ensureStreamEnded source frames.name
    return (none, { frames with source, envelope })

end ObjectFrames

end ScopeVcs.Storage

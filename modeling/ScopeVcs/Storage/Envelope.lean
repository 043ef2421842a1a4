import ScopeVcs.Lib.Bytes
import ScopeVcs.Lib.Mutation

/-! # Writing encrypted objects

An envelope is a header and a sequence of frames, each encrypted under a key derived for its scope,
with the header, the scope and the frame header as associated data. `EnvelopeWriter` seals one frame
after the other; `seal` does the same in place. The cipher, HMAC and SHA-256 come from libraries and
are parameters.
-/

namespace ScopeVcs.Storage

open Mutation Bytes

/-- `isize::MAX`: no string has more bytes. -/
def isizeMax : ℕ := 2 ^ 63 - 1

/-- The bytes of a string. -/
structure Str where
  bytes : Bytes
  length_le : bytes.length ≤ isizeMax
  deriving DecidableEq

inductive GitStorageError where
  | invalidConfiguration (message : String)
  | encryption
  | invalidEnvelope (message : String)
  | backend (message : String)
  | checksumMismatch (expected actual : String)
  | sizeMismatch (expected actual : ℕ)
  deriving DecidableEq

/-! ## The format -/

/-- The bytes of an ASCII text. -/
def ascii (text : String) : Bytes := text.toList.map fun c => UInt8.ofNat c.toNat

def ENCODING_VERSION : ℕ := 2

/-- The version in two digits behind the name of the format. -/
def MAGIC : Bytes :=
  ascii "SCGSEG" ++
    [UInt8.ofNat (48 + ENCODING_VERSION / 10), UInt8.ofNat (48 + ENCODING_VERSION % 10)]

def TAG_BYTES : ℕ := 16

def FINAL_FLAG : UInt8 := 1

def HEADER_FIXED_BYTES : ℕ := MAGIC.length + 4 + 2 + 8 + 4

def FRAME_HEADER_BYTES : ℕ := 4 + 4 + 1

def MAX_KEY_ID_BYTES : ℕ := 1024

def MAX_FRAME_BYTES : ℕ := 16 * 1024 * 1024

inductive EnvelopeScope where
  | gitSegment (repositoryId segmentId : Str)
  | object (key : Str)
  deriving DecidableEq

namespace EnvelopeScope

def label : EnvelopeScope → Bytes
  | gitSegment _ _ => ascii "scope-git-segment-v2" ++ [0]
  | object _ => ascii "scope-object-v2" ++ [0]

def parts : EnvelopeScope → List Str
  | gitSegment repositoryId segmentId => [repositoryId, segmentId]
  | object key => [key]

end EnvelopeScope

/-- A key with the id that its envelopes carry. -/
structure EncryptionKey where
  keyId : Bytes
  key : Bytes
  keyId_ne_nil : keyId ≠ []
  keyId_le : keyId.length ≤ MAX_KEY_ID_BYTES
  key_length : key.length = 32

instance : DecidableEq EncryptionKey := fun left right =>
  decidable_of_iff (left.keyId = right.keyId ∧ left.key = right.key)
    (by cases left; cases right; simp)

/-- `EncryptionKey::new`. -/
def EncryptionKey.new (keyId key : Bytes) (hkey : key.length = 32) :
    Except GitStorageError EncryptionKey :=
  if hnil : keyId = [] then
    .error (.invalidConfiguration "encryption key id must contain 1 to 1024 bytes")
  else if hle : keyId.length ≤ MAX_KEY_ID_BYTES then .ok ⟨keyId, key, hnil, hle, hkey⟩
  else .error (.invalidConfiguration "encryption key id must contain 1 to 1024 bytes")

/-- What `getrandom` fills for a writer. -/
structure NoncePrefix where
  bytes : Bytes
  length_eq : bytes.length = 8
  deriving DecidableEq

/-- ChaCha20-Poly1305, HMAC-SHA256 and SHA-256. Encryption works in place and gives a tag of its own;
decryption takes the ciphertext with the tag behind it. -/
structure Crypto where
  encrypt : (key nonce aad plaintext : Bytes) → Option (Bytes × Bytes)
  decrypt : (key nonce aad message : Bytes) → Option Bytes
  hmacSha256 : (key message : Bytes) → Bytes
  sha256Hex : Bytes → String
  length_encrypt : ∀ {key nonce aad plaintext ciphertext tag},
    encrypt key nonce aad plaintext = some (ciphertext, tag) →
      ciphertext.length = plaintext.length ∧ tag.length = TAG_BYTES

def frameHeader (counter plaintextLen : ℕ) (flags : UInt8) : Bytes :=
  be 4 counter ++ be 4 plaintextLen ++ [flags]

/-- What the key of a scope is derived from. -/
def scopeMessage (scope : EnvelopeScope) : Bytes :=
  scope.label ++ scope.parts.flatMap fun part => be 8 part.bytes.length ++ part.bytes

def scopeCipher (crypto : Crypto) (key : EncryptionKey) (scope : EnvelopeScope) : Bytes :=
  crypto.hmacSha256 key.key (scopeMessage scope)

def nonce (noncePrefix : Bytes) (counter : ℕ) : Bytes := noncePrefix ++ be 4 counter

/-- The parts of a scope as the associated data holds them; the length is cast to `u32`. -/
def scopeData (scope : EnvelopeScope) : Bytes :=
  scope.parts.flatMap fun part => be 4 part.bytes.length ++ part.bytes

def associatedData (header : Bytes) (scope : EnvelopeScope) (frameHeader : Bytes) : Bytes :=
  header ++ scopeData scope ++ frameHeader

/-! ## The writer -/

structure EnvelopeWriter where
  cipher : Bytes
  header : Bytes
  noncePrefix : Bytes
  scope : EnvelopeScope
  nextCounter : ℕ
  deriving DecidableEq

def envelopeHeader (key : EncryptionKey) (noncePrefix : NoncePrefix) (frameBytes : ℕ) : Bytes :=
  MAGIC ++ be 4 ENCODING_VERSION ++ be 2 key.keyId.length ++ noncePrefix.bytes ++ be 4 frameBytes ++
    key.keyId

def maxU32 : ℕ := 2 ^ 32 - 1

namespace EnvelopeWriter

variable (crypto : Crypto)

/-- `random` is what `getrandom` answers. -/
def new (key : EncryptionKey) (scope : EnvelopeScope) (frameBytes : ℕ)
    (random : Except String NoncePrefix) : Except GitStorageError EnvelopeWriter :=
  if maxU32 < frameBytes then
    .error (.invalidConfiguration "encryption frame size exceeds u32")
  else if 2 ^ 16 - 1 < key.keyId.length then
    .error (.invalidConfiguration "encryption key id is too long")
  else
    match random with
    | .error error => .error (.invalidConfiguration ("creating segment nonce: " ++ error))
    | .ok noncePrefix => .ok {
        cipher := scopeCipher crypto key scope
        header := envelopeHeader key noncePrefix frameBytes
        noncePrefix := noncePrefix.bytes
        scope := scope
        nextCounter := 0 }

/-- Seals the plaintext between the frame header and the tag of a frame. -/
def sealFrame (writer : EnvelopeWriter) (frame : Bytes) (flags : UInt8) :
    Except GitStorageError (EnvelopeWriter × Bytes) :=
  let counter := writer.nextCounter
  if maxU32 ≤ counter then .error (.invalidEnvelope "too many encryption frames")
  else
    let plaintextLen := frame.length - TAG_BYTES - FRAME_HEADER_BYTES
    if maxU32 < plaintextLen then .error (.invalidEnvelope "encryption frame exceeds u32")
    else
      let header := frameHeader counter plaintextLen flags
      match crypto.encrypt writer.cipher (nonce writer.noncePrefix counter)
          (associatedData writer.header writer.scope header)
          (slice frame FRAME_HEADER_BYTES plaintextLen) with
      | none => .error .encryption
      | some (ciphertext, tag) =>
        .ok ({ writer with nextCounter := counter + 1 }, header ++ ciphertext ++ tag)

def encryptFrame (writer : EnvelopeWriter) (plaintext : Bytes) (flags : UInt8) :
    Except GitStorageError (EnvelopeWriter × Bytes) :=
  let frame := List.replicate (FRAME_HEADER_BYTES + plaintext.length + TAG_BYTES) 0
  writer.sealFrame crypto (write frame FRAME_HEADER_BYTES plaintext) flags

def encryptData (writer : EnvelopeWriter) (plaintext : Bytes) :
    Except GitStorageError (EnvelopeWriter × Bytes) :=
  if plaintext = [] then .error (.invalidEnvelope "data frames cannot be empty")
  else writer.encryptFrame crypto plaintext 0

def encryptFinal (writer : EnvelopeWriter) : Except GitStorageError (EnvelopeWriter × Bytes) :=
  writer.encryptFrame crypto [] FINAL_FLAG

end EnvelopeWriter

/-! ## Sealing in place -/

inductive SealFailure where
  /-- An index was outside the buffer, or the frame size was zero. -/
  | panicked
  | failed (error : GitStorageError)
  deriving DecidableEq

def overhead : ℕ := FRAME_HEADER_BYTES + TAG_BYTES

/-- Where the frames of a plaintext lie in the buffer. -/
structure SealLayout where
  headerLen : ℕ
  frameBytes : ℕ
  plaintextLen : ℕ
  deriving DecidableEq

namespace SealLayout

variable (layout : SealLayout)

def frames : ℕ := (layout.plaintextLen + layout.frameBytes - 1) / layout.frameBytes

def frameStart (index : ℕ) : ℕ := layout.headerLen + index * (layout.frameBytes + overhead)

def frameLen (index : ℕ) : ℕ := min layout.frameBytes (layout.plaintextLen - index * layout.frameBytes)

def sealedLen : ℕ :=
  layout.headerLen + layout.frames * overhead + layout.plaintextLen + overhead

end SealLayout

/-- `slice::copy_within`. -/
def copyWithin (buffer : Bytes) (source length destination : ℕ) : Except SealFailure Bytes :=
  if source + length ≤ buffer.length ∧ destination + length ≤ buffer.length then
    .ok (write buffer destination (slice buffer source length))
  else .error .panicked

/-- One round of the first loop: the plaintext of a frame moves to its place. -/
def moveFrame (layout : SealLayout) (buffer : Bytes) (index : ℕ) : Except SealFailure Bytes :=
  copyWithin buffer (index * layout.frameBytes) (layout.frameLen index)
    (layout.frameStart index + FRAME_HEADER_BYTES)

/-- The buffer with a sealed frame at `start`. -/
def putFrame (buffer : Bytes) (start : ℕ) (frame : EnvelopeWriter × Bytes) : EnvelopeWriter × Bytes :=
  (frame.1, write buffer start frame.2)

/-- Seals the frame at `start` where it lies. -/
def sealAt (crypto : Crypto) (writer : EnvelopeWriter) (buffer : Bytes) (start length : ℕ)
    (flags : UInt8) : Except SealFailure (EnvelopeWriter × Bytes) :=
  if start + length ≤ buffer.length then
    ((writer.sealFrame crypto (slice buffer start length) flags).map
      (putFrame buffer start)).mapError .failed
  else .error .panicked

/-- One round of the second loop. -/
def sealDataFrame (crypto : Crypto) (layout : SealLayout) (state : EnvelopeWriter × Bytes)
    (index : ℕ) : Except SealFailure (EnvelopeWriter × Bytes) :=
  sealAt crypto state.1 state.2 (layout.frameStart index) (layout.frameLen index + overhead) 0

/-- The buffer after `buffer.resize(sealed_len, 0)`. -/
def resized (layout : SealLayout) (plaintext : Bytes) : Bytes :=
  plaintext ++ List.replicate (layout.sealedLen - plaintext.length) 0

/-- `seal`: the buffer holds the plaintext first and the envelope last. -/
def sealInPlace (crypto : Crypto) (key : EncryptionKey) (scope : EnvelopeScope) (frameBytes : ℕ)
    (random : Except String NoncePrefix) (plaintext : Bytes) : Except SealFailure Bytes := do
  let writer ← (EnvelopeWriter.new crypto key scope frameBytes random).mapError .failed
  rejectIf (frameBytes = 0) .panicked
  let layout : SealLayout := ⟨writer.header.length, frameBytes, plaintext.length⟩
  let buffer ← (List.range layout.frames).reverse.foldlM (moveFrame layout) (resized layout plaintext)
  rejectIf (buffer.length < writer.header.length) .panicked
  let (writer, buffer) ← (List.range layout.frames).foldlM (sealDataFrame crypto layout)
    (writer, write buffer 0 writer.header)
  let (_, buffer) ← sealAt crypto writer buffer (buffer.length - overhead) overhead FINAL_FLAG
  return buffer

/-- The data frames of the given chunks, one after the other. -/
def encryptChunks (crypto : Crypto) : EnvelopeWriter → List Bytes →
    Except GitStorageError (EnvelopeWriter × Bytes)
  | writer, [] => .ok (writer, [])
  | writer, chunk :: chunks => do
    let (writer, frame) ← writer.encryptData crypto chunk
    let (writer, frames) ← encryptChunks crypto writer chunks
    return (writer, frame ++ frames)

/-- What `upload_remote` writes: the header, a frame for each chunk and the final frame. -/
def sealStream (crypto : Crypto) (key : EncryptionKey) (scope : EnvelopeScope) (frameBytes : ℕ)
    (random : Except String NoncePrefix) (chunks : List Bytes) : Except GitStorageError Bytes := do
  let writer ← EnvelopeWriter.new crypto key scope frameBytes random
  let (final, frames) ← encryptChunks crypto writer chunks
  let (_, finalFrame) ← final.encryptFinal crypto
  return writer.header ++ frames ++ finalFrame

end ScopeVcs.Storage

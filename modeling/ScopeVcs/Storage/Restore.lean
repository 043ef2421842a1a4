import ScopeVcs.Lib.Producer
import ScopeVcs.Lib.Text
import ScopeVcs.Storage.Frames

/-! # Reading an object to its end

The loops over the frames of an envelope: `ObjectFrames` until `None`, `read_to` with its limit, and
`restore_to` with the size and the digest of its segment. Writing to the output does not fail here.
-/

namespace ScopeVcs.Storage

open Mutation Bytes

/-- `u64::MAX`. -/
def maxU64 : ℕ := 2 ^ 64 - 1

variable (crypto : Crypto)

/-- The data frames of an envelope; it ends with the final frame. -/
def EnvelopeReader.producer : Producer (EnvelopeReader × Source) Bytes GitStorageError where
  next := fun state => do
    let (frame, reader, source) ← state.1.next crypto state.2
    match frame with
    | .data bytes => return (some bytes, reader, source)
    | .final => return (none, reader, source)
  size := fun state => state.2.bytes.length
  size_lt := by
    intro state state' bytes h
    obtain ⟨⟨frame, reader, source⟩, hnext, h⟩ := except_bind_eq_ok.mp h
    cases frame with
    | data bytes' =>
      cases h
      exact EnvelopeReader.length_next_lt hnext
    | final => cases h

namespace ObjectFrames

variable {crypto} in
theorem length_nextFrame_lt {frames frames' : ObjectFrames} {bytes : Bytes}
    (h : frames.nextFrame crypto = .ok (some bytes, frames')) :
    frames'.source.bytes.length < frames.source.bytes.length := by
  obtain ⟨⟨frame, reader, source⟩, hnext, h⟩ := except_bind_eq_ok.mp h
  cases frame with
  | data bytes' =>
    cases h
    exact EnvelopeReader.length_next_lt (mapError_eq_ok.mp hnext)
  | final =>
    obtain ⟨_, -, h⟩ := except_bind_eq_ok.mp h
    cases h

def producer : Producer ObjectFrames Bytes ObjectStoreError where
  next := nextFrame crypto
  size := fun frames => frames.source.bytes.length
  size_lt := length_nextFrame_lt

/-- Every frame that `next_frame` hands out until it answers `None` or fails. -/
def readAll (frames : ObjectFrames) : List Bytes × Except ObjectStoreError ObjectFrames :=
  (producer crypto).forEach (fun read bytes => (read ++ [bytes], .ok ())) frames []

def objectTooLarge (name : String) (bytes maxBytes : ℕ) : ObjectStoreError :=
  ⟨.payloadTooLarge, "object store read for " ++ name ++ " is too large: " ++ toString bytes ++
    " bytes exceeds " ++ toString maxBytes ++ " bytes"⟩

/-- The output and the number of bytes so far. -/
structure ReadState where
  output : Bytes
  total : ℕ
  deriving DecidableEq

def readFrame (name : String) (maxBytes : ℕ) (state : ReadState) (frame : Bytes) :
    ReadState × Except ObjectStoreError Unit :=
  let total := min (state.total + frame.length) maxU64
  if maxBytes < total then (state, .error (objectTooLarge name total maxBytes))
  else (⟨state.output ++ frame, total⟩, .ok ())

/-- `read_to`, on the frames that `open_frames` returned. -/
def readTo (frames : ObjectFrames) (maxBytes : ℕ) : Bytes × Except ObjectStoreError ℕ :=
  let (state, result) :=
    (producer crypto).forEach (readFrame frames.name maxBytes) frames ⟨[], 0⟩
  (state.output, result.map fun _ => state.total)

end ObjectFrames

/-! ## Git segments -/

/-- A Git segment as its repository refers to it. -/
structure SegmentRef where
  segmentId : Str
  sha256 : String
  plaintextBytes : ℕ
  encodingVersion : ℕ
  deriving DecidableEq

def isHexId32 (id : Str) : Bool :=
  id.bytes.length = 32 &&
    id.bytes.all fun b => (48 ≤ b && b ≤ 57) || (97 ≤ b && b ≤ 102)

def validateRestoreIdentity (repositoryId : Str) (segment : SegmentRef) :
    Except GitStorageError Unit := do
  rejectIf (segment.encodingVersion ≠ ENCODING_VERSION)
    (.invalidEnvelope ("unsupported encoding version " ++ toString segment.encodingVersion))
  rejectIf (repositoryId.bytes = [] ∨ isHexId32 segment.segmentId = false)
    (.invalidEnvelope "repository id or segment id is invalid")

/-- What `restore_to` has written, hashed and counted. -/
structure RestoreState where
  output : Bytes
  digest : Bytes
  plaintextBytes : ℕ
  frames : ℕ
  deriving DecidableEq

def restoreFrame (state : RestoreState) (bytes : Bytes) :
    RestoreState × Except GitStorageError Unit :=
  let state := { state with output := state.output ++ bytes, digest := state.digest ++ bytes }
  if maxU64 < state.plaintextBytes + bytes.length then
    (state, .error (.invalidEnvelope "plaintext size overflow"))
  else
    let state := { state with plaintextBytes := state.plaintextBytes + bytes.length }
    if maxU32 ≤ state.frames then (state, .error (.invalidEnvelope "frame count overflow"))
    else ({ state with frames := state.frames + 1 }, .ok ())

def verifyPlaintext (segment : SegmentRef) (plaintextBytes : ℕ) (digest : Bytes) :
    Except GitStorageError Unit := do
  rejectIf (plaintextBytes ≠ segment.plaintextBytes)
    (.sizeMismatch segment.plaintextBytes plaintextBytes)
  let actual := crypto.sha256Hex digest
  rejectIf (actual ≠ segment.sha256) (.checksumMismatch segment.sha256 actual)

structure RestoreTimings where
  plaintextBytes : ℕ
  verifiedFrames : ℕ
  deriving DecidableEq

/-- The check that nothing follows the final frame. -/
def ensureSegmentEnded (source : Source) : Except GitStorageError Unit :=
  match source.read 1 with
  | .error error => .error (.backend error)
  | .ok (bytes, _) => rejectIf (bytes ≠ []) (.invalidEnvelope "data follows the final frame")

/-- `restore_to` on the source that the backend returns: what it writes, and how it ends. -/
def restoreTo (key : EncryptionKey) (repositoryId : Str) (segment : SegmentRef) (source : Source) :
    Bytes × Except GitStorageError RestoreTimings :=
  match (do
      validateRestoreIdentity repositoryId segment
      EnvelopeReader.readHeader crypto source key (.gitSegment repositoryId segment.segmentId)) with
  | .error error => ([], .error error)
  | .ok start =>
    let (state, result) := (EnvelopeReader.producer crypto).forEach restoreFrame start ⟨[], [], 0, 0⟩
    (state.output, do
      let (_, source) ← result
      ensureSegmentEnded source
      verifyPlaintext crypto segment state.plaintextBytes state.digest
      return ⟨state.plaintextBytes, state.frames⟩)

end ScopeVcs.Storage

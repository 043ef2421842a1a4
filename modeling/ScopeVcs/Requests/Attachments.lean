import ScopeVcs.Error
import ScopeVcs.Lib.Mutation
import ScopeVcs.Lib.Text
import ScopeVcs.Lib.U64

/-! # Attachments of requests

An attachment is uploaded in parts and stored as chunks. The upload is finished with a receipt for every
part; a manifest lists the chunks. What is not looked at by the rules below is left out of the records.
-/

namespace ScopeVcs.Requests

open Mutation

def REQUEST_MEDIA_CHUNK_BYTES : ℕ := 8 * 1024 * 1024

inductive RequestAttachmentState where
  | prepared
  | uploaded
  | processing
  | ready
  | failed
  | rejected
  deriving DecidableEq

structure RequestAttachmentLimits where
  preferredPartBytes : ℕ

/-- `RequestAttachmentLimits::default`. -/
def RequestAttachmentLimits.standard : RequestAttachmentLimits := ⟨REQUEST_MEDIA_CHUNK_BYTES⟩

structure RequestAttachmentPartReceipt where
  partNumber : UInt32
  sizeBytes : UInt64
  sha256 : String
  deriving DecidableEq

structure RequestAttachment where
  sizeBytes : UInt64
  state : RequestAttachmentState
  deriving DecidableEq

structure RequestMediaChunk where
  partNumber : UInt32
  plaintextOffset : UInt64
  plaintextBytes : UInt64
  sha256 : String
  objectKey : String
  deriving DecidableEq

structure RequestMediaObject where
  mediaType : String
  plaintextBytes : UInt64
  sha256 : String
  chunks : List RequestMediaChunk
  deriving DecidableEq

/-- `Option::ok_or_else`. -/
def okOr {α : Type} (value : Option α) (error : DomainError) : Except DomainError α :=
  match value with
  | some value => .ok value
  | none => .error error

/-! ## Parts -/

def isAttachmentSha256 (value : String) : Bool :=
  Text.byteLength value.toList == 64 && value.toList.all Text.isHexDigit

def validateSha256 (value : String) : Except DomainError Unit :=
  rejectIf (isAttachmentSha256 value = false)
    (.invalidInput "request attachment sha256 must be 64 hexadecimal characters")

def validatePartRange (attachmentSizeBytes : ℕ) (receipt : RequestAttachmentPartReceipt) :
    Except DomainError Unit := do
  let limits := RequestAttachmentLimits.standard
  rejectIf (receipt.partNumber.toNat = 0 ∨ limits.preferredPartBytes = 0)
    (.invalidInput "request attachment part number and preferred size must be positive")
  let offset ← okOr (U64.checkedMul (receipt.partNumber.toNat - 1) limits.preferredPartBytes)
    (.invalidInput "request attachment part offset overflow")
  let remaining ← okOr (U64.checkedSub attachmentSizeBytes offset)
    (.invalidInput "request attachment part starts beyond the prepared file")
  rejectIf (remaining = 0 ∨ receipt.sizeBytes.toNat ≠ min remaining limits.preferredPartBytes)
    (.invalidInput "request attachment part size does not match its prepared offset")
  validateSha256 receipt.sha256

def validateAttachmentPart (attachment : RequestAttachment)
    (receipt : RequestAttachmentPartReceipt) : Except DomainError Unit := do
  rejectIf (attachment.state ≠ .prepared)
    (.conflict "request attachment upload is already finalized")
  validatePartRange attachment.sizeBytes.toNat receipt

/-- The loop of `validate_part_receipts`: the sum of the sizes. -/
def sumReceipts (attachment : RequestAttachment) :
    ℕ → ℕ → List RequestAttachmentPartReceipt → Except DomainError ℕ
  | _, total, [] => .ok total
  | index, total, receipt :: receipts => do
    rejectIf (U64.maxU32 < index + 1) (.invalidInput "too many request attachment parts")
    rejectIf (receipt.partNumber.toNat ≠ index + 1)
      (.invalidInput "request attachment parts must be contiguous and 1-based")
    validatePartRange attachment.sizeBytes.toNat receipt
    let total ← okOr (U64.checkedAdd total receipt.sizeBytes.toNat)
      (.invalidInput "request attachment part size overflow")
    sumReceipts attachment (index + 1) total receipts

def validatePartReceipts (attachment : RequestAttachment)
    (receipts : List RequestAttachmentPartReceipt) : Except DomainError Unit := do
  rejectIf (receipts = []) (.invalidInput "request attachment requires upload part receipts")
  let total ← sumReceipts attachment 0 0 receipts
  rejectIf (total ≠ attachment.sizeBytes.toNat)
    (.conflict "request attachment part bytes do not match the prepared size")

/-! ## Manifests -/

def isMediaDigest (digest : String) : Bool :=
  Text.byteLength digest.toList == 64 &&
    digest.toList.all fun c => ('0' ≤ c && c ≤ '9') || ('a' ≤ c && c ≤ 'f')

def validateMediaDigest (label digest : String) : Except DomainError Unit :=
  rejectIf (isMediaDigest digest = false)
    (.invalidInput (label ++ " has an invalid SHA-256 digest"))

/-- The loop of `validate` over chunks of which there are `count`: the offset behind them. -/
def validateChunks (count : ℕ) :
    ℕ → ℕ → List String → List RequestMediaChunk → Except DomainError ℕ
  | _, offset, _, [] => .ok offset
  | index, offset, objectKeys, chunk :: chunks => do
    rejectIf (¬(index + 1 ≤ U64.maxU32 ∧ index + 1 = chunk.partNumber.toNat) ∨
        chunk.plaintextOffset.toNat ≠ offset)
      (.invalidInput "media manifest chunks are not contiguous")
    rejectIf (chunk.plaintextBytes.toNat = 0 ∨
        REQUEST_MEDIA_CHUNK_BYTES < chunk.plaintextBytes.toNat ∨
        (index + 1 < count ∧ chunk.plaintextBytes.toNat ≠ REQUEST_MEDIA_CHUNK_BYTES))
      (.invalidInput "media manifest contains an invalid chunk size")
    validateMediaDigest "media chunk" chunk.sha256
    rejectIf (chunk.objectKey = "" ∨ chunk.objectKey ∈ objectKeys)
      (.invalidInput "media manifest contains an invalid or duplicate chunk key")
    let offset ← okOr (U64.checkedAdd offset chunk.plaintextBytes.toNat)
      (.invalidInput "media manifest plaintext size overflowed")
    validateChunks count (index + 1) offset (chunk.objectKey :: objectKeys) chunks

def RequestMediaObject.validate (object : RequestMediaObject) : Except DomainError Unit := do
  rejectIf (object.mediaType = "" ∨ 255 < Text.byteLength object.mediaType.toList)
    (.invalidInput "media manifest contains an invalid content type")
  validateMediaDigest "media object" object.sha256
  let offset ← validateChunks object.chunks.length 0 0 [] object.chunks
  rejectIf (offset ≠ object.plaintextBytes.toNat)
    (.invalidInput "media manifest plaintext size does not match its chunks")

end ScopeVcs.Requests

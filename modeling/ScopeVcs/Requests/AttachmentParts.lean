import Mathlib.Tactic.Ring
import ScopeVcs.Requests.Attachments

/-! # Parts and chunks cover their file

The checks go from part to part; each looks at the number of the part alone. Together with the sum of the
sizes they leave one list of receipts: full parts, and behind them what remains. The checks of a
manifest leave the lists of chunks that lie side by side up to the end.
-/

namespace ScopeVcs.Requests

open Mutation

/-! ## The split of a file -/

/-- So many full parts are followed by a positive remainder. -/
structure Cuts (size full last : ℕ) : Prop where
  last_pos : 0 < last
  last_le : last ≤ REQUEST_MEDIA_CHUNK_BYTES
  size_eq : size = full * REQUEST_MEDIA_CHUNK_BYTES + last

/-- The receipt of the part at an index. -/
structure IsPart (full last index : ℕ) (receipt : RequestAttachmentPartReceipt) : Prop where
  number : receipt.partNumber.toNat = index + 1
  size : receipt.sizeBytes.toNat = if index < full then REQUEST_MEDIA_CHUNK_BYTES else last
  digest : isAttachmentSha256 receipt.sha256 = true

/-- The receipts of all parts in order. -/
def IsCanonicalSplit (size : ℕ) (receipts : List RequestAttachmentPartReceipt) : Prop :=
  ∃ full last, Cuts size full last ∧ receipts.length = full + 1 ∧
    ∀ index receipt, receipts[index]? = some receipt → IsPart full last index receipt

/-- The receipt of one of the parts. -/
def IsMemberOfSplit (size : ℕ) (receipt : RequestAttachmentPartReceipt) : Prop :=
  ∃ full last index, Cuts size full last ∧ index ≤ full ∧ IsPart full last index receipt

theorem exists_cuts {size : ℕ} (h : 0 < size) : ∃ full last, Cuts size full last := by
  refine ⟨(size - 1) / REQUEST_MEDIA_CHUNK_BYTES,
    size - (size - 1) / REQUEST_MEDIA_CHUNK_BYTES * REQUEST_MEDIA_CHUNK_BYTES, ?_, ?_, ?_⟩ <;>
  · unfold REQUEST_MEDIA_CHUNK_BYTES
    omega

namespace Cuts

variable {size full last index : ℕ}

/-- A part begins in the file when it is one of the split, and ends with it or is full. -/
theorem begins_iff (h : Cuts size full last) :
    index * REQUEST_MEDIA_CHUNK_BYTES < size ↔ index ≤ full := by
  obtain ⟨hpos, hle, rfl⟩ := h
  unfold REQUEST_MEDIA_CHUNK_BYTES at hle ⊢
  omega

theorem min_eq (h : Cuts size full last) (hindex : index ≤ full) :
    min (size - index * REQUEST_MEDIA_CHUNK_BYTES) REQUEST_MEDIA_CHUNK_BYTES =
      if index < full then REQUEST_MEDIA_CHUNK_BYTES else last := by
  obtain ⟨hpos, hle, rfl⟩ := h
  unfold REQUEST_MEDIA_CHUNK_BYTES at hle ⊢
  split_ifs <;> omega

end Cuts

section Numbers

variable {α : Type} {error : DomainError} {a b : ℕ}

theorem okOr_eq_ok {value : Option α} {result : α} :
    okOr value error = .ok result ↔ value = some result := by
  cases value with
  | none => exact ⟨nofun, nofun⟩
  | some value => rw [okOr, Except.ok.injEq, Option.some.injEq]

theorem checkedAdd_of_le (h : a + b ≤ U64.maxU64) : U64.checkedAdd a b = some (a + b) := if_pos h

/-- The offset of a part is a `u64`, whatever its number. -/
theorem checkedMul_partNumber (number : UInt32) :
    U64.checkedMul (number.toNat - 1) REQUEST_MEDIA_CHUNK_BYTES =
      some ((number.toNat - 1) * REQUEST_MEDIA_CHUNK_BYTES) := by
  refine if_pos ?_
  have hnumber := number.toNat_lt
  unfold REQUEST_MEDIA_CHUNK_BYTES U64.maxU64
  omega

end Numbers

variable {size : ℕ} {attachment : RequestAttachment} {receipt : RequestAttachmentPartReceipt}
  {receipts : List RequestAttachmentPartReceipt}

/-- What is checked of a part is what its number says. -/
theorem validatePartRange_eq_ok :
    validatePartRange size receipt = .ok () ↔
      0 < receipt.partNumber.toNat ∧
        (receipt.partNumber.toNat - 1) * REQUEST_MEDIA_CHUNK_BYTES < size ∧
        receipt.sizeBytes.toNat = min (size - (receipt.partNumber.toNat - 1) *
          REQUEST_MEDIA_CHUNK_BYTES) REQUEST_MEDIA_CHUNK_BYTES ∧
        isAttachmentSha256 receipt.sha256 = true := by
  have hunit : REQUEST_MEDIA_CHUNK_BYTES ≠ 0 := by decide
  unfold validatePartRange
  dsimp only [RequestAttachmentLimits.standard]
  rw [except_unit_bind_eq_ok, rejectIf_eq_ok, checkedMul_partNumber, okOr, except_ok_bind,
    except_bind_eq_ok]
  constructor
  · rintro ⟨hnumber, remaining, hremaining, h⟩
    obtain ⟨hsize, hdigest⟩ := except_unit_bind_eq_ok.mp h
    obtain ⟨hbegins, rfl⟩ := U64.checkedSub_eq_some.mp (okOr_eq_ok.mp hremaining)
    rw [rejectIf_eq_ok] at hsize
    rw [validateSha256, rejectIf_eq_ok, Bool.not_eq_false] at hdigest
    exact ⟨by omega, by omega, by omega, hdigest⟩
  · rintro ⟨hnumber, hbegins, hsize, hdigest⟩
    refine ⟨by omega, _, okOr_eq_ok.mpr (U64.checkedSub_eq_some.mpr ⟨hbegins.le, rfl⟩),
      except_unit_bind_eq_ok.mpr ⟨rejectIf_eq_ok.mpr (by omega), rejectIf_eq_ok.mpr ?_⟩⟩
    rw [Bool.not_eq_false]
    exact hdigest

/-- A range is accepted when it is that of a part. -/
theorem validatePartRange_iff_isMember :
    validatePartRange size receipt = .ok () ↔ IsMemberOfSplit size receipt := by
  rw [validatePartRange_eq_ok]
  constructor
  · rintro ⟨hnumber, hbegins, hsize, hdigest⟩
    obtain ⟨full, last, hcuts⟩ := exists_cuts (Nat.zero_lt_of_lt hbegins)
    have hindex := hcuts.begins_iff.mp hbegins
    refine ⟨full, last, _, hcuts, hindex, (Nat.sub_add_cancel hnumber).symm, ?_, hdigest⟩
    rw [hsize, hcuts.min_eq hindex]
  · rintro ⟨full, last, index, hcuts, hindex, hnumber, hsize, hdigest⟩
    rw [hnumber, Nat.add_sub_cancel, hcuts.begins_iff, hcuts.min_eq hindex]
    exact ⟨Nat.succ_pos _, hindex, hsize, hdigest⟩

theorem validateAttachmentPart_eq_ok :
    validateAttachmentPart attachment receipt = .ok () ↔
      attachment.state = .prepared ∧ IsMemberOfSplit attachment.sizeBytes.toNat receipt := by
  rw [validateAttachmentPart, except_unit_bind_eq_ok, rejectIf_eq_ok, not_not,
    validatePartRange_iff_isMember]

/-! ## Receipts -/

/-- The sum of the sizes. -/
def receiptBytes (receipts : List RequestAttachmentPartReceipt) : ℕ :=
  (receipts.map (·.sizeBytes.toNat)).sum

theorem sizeBytes_le (h : validatePartRange size receipt = .ok ()) :
    receipt.sizeBytes.toNat ≤ REQUEST_MEDIA_CHUNK_BYTES := by
  rw [(validatePartRange_eq_ok.mp h).2.2.1]
  exact Nat.min_le_right _ _

/-- The sum stays a `u64`, since the numbers of the parts are `u32`s. -/
theorem checkedAdd_receipt {index total : ℕ} (htotal : total ≤ index * REQUEST_MEDIA_CHUNK_BYTES)
    (hnumber : receipt.partNumber.toNat = index + 1)
    (hsize : receipt.sizeBytes.toNat ≤ REQUEST_MEDIA_CHUNK_BYTES) :
    U64.checkedAdd total receipt.sizeBytes.toNat = some (total + receipt.sizeBytes.toNat) ∧
      total + receipt.sizeBytes.toNat ≤ (index + 1) * REQUEST_MEDIA_CHUNK_BYTES := by
  have hlt := receipt.partNumber.toNat_lt
  unfold REQUEST_MEDIA_CHUNK_BYTES at *
  refine ⟨checkedAdd_of_le ?_, by omega⟩
  unfold U64.maxU64
  omega

theorem sumReceipts_eq_ok {index total sum : ℕ}
    (htotal : total ≤ index * REQUEST_MEDIA_CHUNK_BYTES) :
    sumReceipts attachment index total receipts = .ok sum ↔
      (∀ i receipt, receipts[i]? = some receipt → receipt.partNumber.toNat = index + i + 1 ∧
          validatePartRange attachment.sizeBytes.toNat receipt = .ok ()) ∧
        total + receiptBytes receipts = sum := by
  induction receipts generalizing index total with
  | nil =>
    rw [sumReceipts, Except.ok.injEq]
    exact ⟨fun h => ⟨nofun, h⟩, fun h => h.2⟩
  | cons receipt receipts ih =>
    have hsum : receiptBytes (receipt :: receipts) =
        receipt.sizeBytes.toNat + receiptBytes receipts := List.sum_cons
    rw [sumReceipts, except_unit_bind_eq_ok, rejectIf_eq_ok, not_lt, except_unit_bind_eq_ok,
      rejectIf_eq_ok, not_not, except_unit_bind_eq_ok, except_bind_eq_ok]
    constructor
    · rintro ⟨-, hnumber, hrange, next, hnext, hrest⟩
      obtain ⟨hadd, hle⟩ := checkedAdd_receipt htotal hnumber (sizeBytes_le hrange)
      cases hadd.symm.trans (okOr_eq_ok.mp hnext)
      obtain ⟨hparts, htotals⟩ := (ih hle).mp hrest
      refine ⟨fun i other hother => ?_, by omega⟩
      cases i with
      | zero =>
        cases hother
        exact ⟨hnumber, hrange⟩
      | succ i =>
        obtain ⟨hlater, hchecked⟩ := hparts i other hother
        exact ⟨by omega, hchecked⟩
    · rintro ⟨hparts, htotals⟩
      obtain ⟨hnumber, hrange⟩ := hparts 0 receipt rfl
      obtain ⟨hadd, hle⟩ := checkedAdd_receipt htotal hnumber (sizeBytes_le hrange)
      have hlt := receipt.partNumber.toNat_lt
      have hcount : index + 1 ≤ U64.maxU32 := by
        unfold U64.maxU32
        omega
      refine ⟨hcount, hnumber, hrange, _, okOr_eq_ok.mpr hadd, (ih hle).mpr ⟨fun i other hother => ?_, by omega⟩⟩
      obtain ⟨hlater, hchecked⟩ := hparts (i + 1) other hother
      exact ⟨by omega, hchecked⟩

/-- What parts in order amount to: full ones, and the last of them. -/
theorem receiptBytes_eq {full last : ℕ} (hne : receipts ≠ [])
    (hlength : receipts.length ≤ full + 1)
    (h : ∀ i receipt, receipts[i]? = some receipt → receipt.sizeBytes.toNat =
      if i < full then REQUEST_MEDIA_CHUNK_BYTES else last) :
    receiptBytes receipts = (receipts.length - 1) * REQUEST_MEDIA_CHUNK_BYTES +
      if receipts.length - 1 < full then REQUEST_MEDIA_CHUNK_BYTES else last := by
  obtain ⟨before, final, rfl⟩ := (List.eq_nil_or_concat receipts).resolve_left hne
  rw [List.concat_eq_append] at *
  rw [List.length_append, List.length_singleton] at hlength ⊢
  have hfinal := h before.length final (by rw [List.getElem?_append_right le_rfl, Nat.sub_self]; rfl)
  have hfull : before.map (·.sizeBytes.toNat) =
      List.replicate before.length REQUEST_MEDIA_CHUNK_BYTES := by
    rw [List.eq_replicate_iff, List.length_map]
    refine ⟨rfl, fun size hsize => ?_⟩
    obtain ⟨receipt, hreceipt, rfl⟩ := List.mem_map.mp hsize
    obtain ⟨i, hi⟩ := List.mem_iff_getElem?.mp hreceipt
    have hlt := (List.getElem?_eq_some_iff.mp hi).1
    rw [h i receipt (by rw [List.getElem?_append_left hlt]; exact hi), if_pos (by omega)]
  rw [receiptBytes, List.map_append, List.sum_append, hfull, List.sum_replicate_nat,
    List.map_singleton, List.sum_singleton, hfinal, Nat.add_sub_cancel]

/-- The receipts that are accepted are those of the whole file in order. -/
theorem validatePartReceipts_eq_ok :
    validatePartReceipts attachment receipts = .ok () ↔
      IsCanonicalSplit attachment.sizeBytes.toNat receipts := by
  rw [validatePartReceipts, except_unit_bind_eq_ok, rejectIf_eq_ok, except_bind_eq_ok]
  simp only [sumReceipts_eq_ok (Nat.zero_le (0 * REQUEST_MEDIA_CHUNK_BYTES)), rejectIf_eq_ok,
    not_not, Nat.zero_add]
  constructor
  · rintro ⟨hne, total, ⟨hparts, rfl⟩, hsize⟩
    have hpos : 0 < receipts.length := List.length_pos_iff.mpr hne
    have hfirst := hparts 0 receipts[0] (List.getElem?_eq_getElem hpos)
    obtain ⟨full, last, hcuts⟩ :=
      exists_cuts (Nat.zero_lt_of_lt (validatePartRange_eq_ok.mp hfirst.2).2.1)
    have hpart : ∀ i receipt, receipts[i]? = some receipt →
        i ≤ full ∧ IsPart full last i receipt := by
      intro i receipt hi
      obtain ⟨hnumber, hrange⟩ := hparts i receipt hi
      obtain ⟨-, hbegins, hbytes, hdigest⟩ := validatePartRange_eq_ok.mp hrange
      rw [hnumber, Nat.add_sub_cancel] at hbegins hbytes
      have hindex := hcuts.begins_iff.mp hbegins
      exact ⟨hindex, hnumber, hbytes.trans (hcuts.min_eq hindex), hdigest⟩
    have hlast := (hpart _ _ (List.getElem?_eq_getElem (Nat.sub_one_lt_of_lt hpos))).1
    have hbytes := receiptBytes_eq hne (by omega) fun i receipt hi => (hpart i receipt hi).2.size
    refine ⟨full, last, hcuts, ?_, fun i receipt hi => (hpart i receipt hi).2⟩
    -- With fewer parts the sum is less than the size.
    by_contra hshort
    rw [hsize, hcuts.size_eq, if_pos (by omega)] at hbytes
    have hremainder := hcuts.last_pos
    unfold REQUEST_MEDIA_CHUNK_BYTES at hbytes
    omega
  · rintro ⟨full, last, hcuts, hlength, hparts⟩
    have hne : receipts ≠ [] := by
      rw [← List.length_pos_iff, hlength]
      exact Nat.succ_pos full
    have hindex : ∀ {i receipt}, receipts[i]? = some receipt → i ≤ full := fun hi => by
      have hlt := (List.getElem?_eq_some_iff.mp hi).1
      omega
    refine ⟨hne, _, ⟨fun i receipt hi => ⟨(hparts i receipt hi).number, ?_⟩, rfl⟩, ?_⟩
    · exact validatePartRange_iff_isMember.mpr
        ⟨full, last, i, hcuts, hindex hi, hparts i receipt hi⟩
    · rw [receiptBytes_eq hne hlength.le fun i receipt hi => (hparts i receipt hi).size, hlength,
        Nat.add_sub_cancel, if_neg (Nat.lt_irrefl full)]
      exact hcuts.size_eq.symm

/-! ### Overflow -/

/-- The messages of the operations that are checked for overflow. -/
def overflowMessages : List String :=
  ["request attachment part offset overflow", "request attachment part size overflow",
    "media manifest plaintext size overflowed"]

def IsOverflow (error : DomainError) : Prop := error.message ∈ overflowMessages

theorem rejects_other {p : Prop} [Decidable p] {error : DomainError}
    (h : error.message ∉ overflowMessages) : Rejects (¬IsOverflow ·) (rejectIf p error) :=
  .rejectIf h

theorem rejects_validatePartRange :
    Rejects (¬IsOverflow ·) (validatePartRange size receipt) := by
  unfold validatePartRange
  dsimp only [RequestAttachmentLimits.standard]
  rw [checkedMul_partNumber]
  refine .bind (rejects_other (by decide)) fun _ => ?_
  refine .bind (.ok _) fun offset => .bind ?_ fun remaining => ?_
  · intro error h
    cases hsub : U64.checkedSub size offset with
    | none =>
      rw [hsub] at h
      cases h
      exact (by decide :
        "request attachment part starts beyond the prepared file" ∉ overflowMessages)
    | some remaining =>
      rw [hsub] at h
      cases h
  · exact .bind (rejects_other (by decide))
      fun _ => rejects_other (by decide)

theorem rejects_sumReceipts {index total : ℕ} (htotal : total ≤ index * REQUEST_MEDIA_CHUNK_BYTES) :
    Rejects (¬IsOverflow ·) (sumReceipts attachment index total receipts) := by
  induction receipts generalizing index total with
  | nil => exact .ok total
  | cons receipt receipts ih =>
    rw [sumReceipts]
    refine .bind (rejects_other (by decide)) fun _ => ?_
    refine .bind_ok (rejects_other (by decide)) fun _ hnumber => ?_
    refine .bind_ok rejects_validatePartRange fun _ hrange => ?_
    rw [rejectIf_eq_ok, not_not] at hnumber
    obtain ⟨hadd, hle⟩ := checkedAdd_receipt htotal hnumber (sizeBytes_le hrange)
    rw [hadd]
    exact .bind_ok (.ok _) fun next hnext => by
      cases hnext
      exact ih hle

/-- No list of receipts makes the arithmetic overflow. -/
theorem rejects_validatePartReceipts :
    Rejects (¬IsOverflow ·) (validatePartReceipts attachment receipts) := by
  unfold validatePartReceipts
  refine .bind (rejects_other (by decide)) fun _ => ?_
  refine .bind (rejects_sumReceipts (Nat.zero_le _)) fun total => ?_
  exact rejects_other (by decide)

/-! ## Manifests -/

/-- The sum of the sizes of chunks. -/
def chunkBytes (chunks : List RequestMediaChunk) : ℕ :=
  (chunks.map (·.plaintextBytes.toNat)).sum

/-- Chunks side by side up to `total`, all of them full but the last. -/
structure Tiles (total : ℕ) (chunks : List RequestMediaChunk) : Prop where
  offset : ∀ i chunk, chunks[i]? = some chunk →
    chunk.plaintextOffset.toNat = chunkBytes (chunks.take i)
  size : ∀ i chunk, chunks[i]? = some chunk → 0 < chunk.plaintextBytes.toNat ∧
    chunk.plaintextBytes.toNat ≤ REQUEST_MEDIA_CHUNK_BYTES ∧
      (i + 1 < chunks.length → chunk.plaintextBytes.toNat = REQUEST_MEDIA_CHUNK_BYTES)
  total_eq : chunkBytes chunks = total

/-- The texts of a manifest and the numbers of its chunks. -/
structure RequestMediaObject.WellFormed (object : RequestMediaObject) : Prop where
  mediaType : object.mediaType ≠ "" ∧ Text.byteLength object.mediaType.toList ≤ 255
  digest : isMediaDigest object.sha256 = true
  chunk : ∀ chunk ∈ object.chunks, isMediaDigest chunk.sha256 = true ∧ chunk.objectKey ≠ ""
  distinct : (object.chunks.map (·.objectKey)).Nodup
  number : ∀ i chunk, object.chunks[i]? = some chunk → chunk.partNumber.toNat = i + 1

theorem chunkBytes_cons (chunk : RequestMediaChunk) (chunks : List RequestMediaChunk) :
    chunkBytes (chunk :: chunks) = chunk.plaintextBytes.toNat + chunkBytes chunks := List.sum_cons

/-- What is checked of the chunk at an index, and of its place. -/
structure ChunkAt (count index offset : ℕ) (chunk : RequestMediaChunk) : Prop where
  number : chunk.partNumber.toNat = index + 1
  offset : chunk.plaintextOffset.toNat = offset
  size : 0 < chunk.plaintextBytes.toNat ∧ chunk.plaintextBytes.toNat ≤ REQUEST_MEDIA_CHUNK_BYTES ∧
    (index + 1 < count → chunk.plaintextBytes.toNat = REQUEST_MEDIA_CHUNK_BYTES)
  digest : isMediaDigest chunk.sha256 = true
  objectKey : chunk.objectKey ≠ ""

theorem checkedAdd_chunk {count index offset offset' : ℕ} {chunk : RequestMediaChunk}
    (hoffset : offset ≤ index * REQUEST_MEDIA_CHUNK_BYTES)
    (h : ChunkAt count index offset' chunk) :
    U64.checkedAdd offset chunk.plaintextBytes.toNat = some (offset + chunk.plaintextBytes.toNat) ∧
      offset + chunk.plaintextBytes.toNat ≤ (index + 1) * REQUEST_MEDIA_CHUNK_BYTES := by
  have hlt := chunk.partNumber.toNat_lt
  have hnumber := h.number
  have hsize := h.size.2.1
  unfold REQUEST_MEDIA_CHUNK_BYTES at *
  refine ⟨checkedAdd_of_le ?_, by omega⟩
  unfold U64.maxU64
  omega

theorem validateChunks_cons_eq_ok {count index offset final : ℕ} {objectKeys : List String}
    {chunk : RequestMediaChunk} {chunks : List RequestMediaChunk}
    (hoffset : offset ≤ index * REQUEST_MEDIA_CHUNK_BYTES) :
    validateChunks count index offset objectKeys (chunk :: chunks) = .ok final ↔
      ChunkAt count index offset chunk ∧ chunk.objectKey ∉ objectKeys ∧
        validateChunks count (index + 1) (offset + chunk.plaintextBytes.toNat)
          (chunk.objectKey :: objectKeys) chunks = .ok final := by
  rw [validateChunks, except_unit_bind_eq_ok, rejectIf_eq_ok, except_unit_bind_eq_ok,
    rejectIf_eq_ok, except_unit_bind_eq_ok, validateMediaDigest, rejectIf_eq_ok, Bool.not_eq_false,
    except_unit_bind_eq_ok, rejectIf_eq_ok, except_bind_eq_ok]
  constructor
  · rintro ⟨hplace, hsize, hdigest, hkey, next, hnext, hrest⟩
    rw [not_or] at hkey
    have hchunk : ChunkAt count index offset chunk :=
      ⟨by omega, by omega, by omega, hdigest, hkey.1⟩
    cases (checkedAdd_chunk hoffset hchunk).1.symm.trans (okOr_eq_ok.mp hnext)
    exact ⟨hchunk, hkey.2, hrest⟩
  · rintro ⟨hchunk, hkey, hrest⟩
    have hlt := chunk.partNumber.toNat_lt
    obtain ⟨hnumber, hplace, hsize, hdigest, hne⟩ := id hchunk
    refine ⟨?_, by omega, hdigest, not_or.mpr ⟨hne, hkey⟩, _,
      okOr_eq_ok.mpr (checkedAdd_chunk hoffset hchunk).1, hrest⟩
    unfold U64.maxU32
    omega

theorem validateChunks_eq_ok {count index offset final : ℕ} {objectKeys : List String}
    {chunks : List RequestMediaChunk} (hoffset : offset ≤ index * REQUEST_MEDIA_CHUNK_BYTES) :
    validateChunks count index offset objectKeys chunks = .ok final ↔
      (∀ i chunk, chunks[i]? = some chunk →
          ChunkAt count (index + i) (offset + chunkBytes (chunks.take i)) chunk) ∧
        (chunks.map (·.objectKey)).Nodup ∧ (∀ chunk ∈ chunks, chunk.objectKey ∉ objectKeys) ∧
        offset + chunkBytes chunks = final := by
  induction chunks generalizing index offset objectKeys with
  | nil =>
    rw [validateChunks, Except.ok.injEq]
    exact ⟨fun h => ⟨nofun, List.nodup_nil, nofun, h⟩, fun h => h.2.2.2⟩
  | cons chunk chunks ih =>
    rw [validateChunks_cons_eq_ok hoffset]
    have hplace : ∀ i, index + (i + 1) = index + 1 + i ∧
        offset + chunkBytes ((chunk :: chunks).take (i + 1)) =
          offset + chunk.plaintextBytes.toNat + chunkBytes (chunks.take i) := fun i => by
      rw [List.take_succ_cons, chunkBytes_cons]
      omega
    constructor
    · rintro ⟨hchunk, hkey, hrest⟩
      obtain ⟨hchunks, hnodup, hfresh, rfl⟩ := (ih (checkedAdd_chunk hoffset hchunk).2).mp hrest
      refine ⟨fun i other hother => ?_, ?_, ?_, ?_⟩
      · cases i with
        | zero =>
          cases hother
          exact hchunk
        | succ i =>
          rw [(hplace i).1, (hplace i).2]
          exact hchunks i other hother
      · rw [List.map_cons, List.nodup_cons]
        refine ⟨fun hmem => ?_, hnodup⟩
        obtain ⟨other, hother, hsame⟩ := List.mem_map.mp hmem
        exact hfresh other hother (hsame ▸ List.mem_cons_self)
      · exact List.forall_mem_cons.mpr
          ⟨hkey, fun other hother hmem => hfresh other hother (List.mem_cons_of_mem _ hmem)⟩
      · rw [chunkBytes_cons, Nat.add_assoc]
    · rintro ⟨hchunks, hnodup, hfresh, rfl⟩
      have hchunk : ChunkAt count index offset chunk := hchunks 0 chunk rfl
      obtain ⟨hkey, hlater⟩ := List.forall_mem_cons.mp hfresh
      rw [List.map_cons, List.nodup_cons] at hnodup
      refine ⟨hchunk, hkey, (ih (checkedAdd_chunk hoffset hchunk).2).mpr
        ⟨fun i other hother => ?_, hnodup.2, fun other hother hmem => ?_, ?_⟩⟩
      · rw [← (hplace i).1, ← (hplace i).2]
        exact hchunks (i + 1) other hother
      · rcases List.mem_cons.mp hmem with hsame | hold
        · exact hnodup.1 (hsame ▸ List.mem_map_of_mem hother)
        · exact hlater other hother hold
      · rw [chunkBytes_cons, Nat.add_assoc]

/-- The manifests that are accepted are well-formed ones whose chunks cover the file. -/
theorem RequestMediaObject.validate_eq_ok {object : RequestMediaObject} :
    object.validate = .ok () ↔
      object.WellFormed ∧ Tiles object.plaintextBytes.toNat object.chunks := by
  rw [validate, except_unit_bind_eq_ok, rejectIf_eq_ok, not_or, not_lt, except_unit_bind_eq_ok,
    validateMediaDigest, rejectIf_eq_ok, Bool.not_eq_false, except_bind_eq_ok]
  simp only [validateChunks_eq_ok (Nat.zero_le (0 * REQUEST_MEDIA_CHUNK_BYTES)), rejectIf_eq_ok,
    not_not, Nat.zero_add]
  constructor
  · rintro ⟨hmedia, hdigest, final, ⟨hchunks, hnodup, -, rfl⟩, htotal⟩
    refine ⟨⟨hmedia, hdigest, fun chunk hchunk => ?_, hnodup,
      fun i chunk hi => (hchunks i chunk hi).number⟩, ?_⟩
    · obtain ⟨i, hi⟩ := List.mem_iff_getElem?.mp hchunk
      exact ⟨(hchunks i chunk hi).digest, (hchunks i chunk hi).objectKey⟩
    · exact ⟨fun i chunk hi => (hchunks i chunk hi).offset,
        fun i chunk hi => (hchunks i chunk hi).size, htotal⟩
  · rintro ⟨⟨hmedia, hdigest, htexts, hnodup, hnumbers⟩, htiles⟩
    refine ⟨hmedia, hdigest, _, ⟨fun i chunk hi => ?_, hnodup, fun _ _ => List.not_mem_nil, rfl⟩,
      htiles.total_eq⟩
    obtain ⟨hdigest, hkey⟩ := htexts chunk (List.mem_of_getElem? hi)
    exact ⟨hnumbers i chunk hi, htiles.offset i chunk hi, htiles.size i chunk hi, hdigest, hkey⟩

theorem rejects_validateChunks {count index offset : ℕ} {objectKeys : List String}
    {chunks : List RequestMediaChunk} (hoffset : offset ≤ index * REQUEST_MEDIA_CHUNK_BYTES) :
    Rejects (¬IsOverflow ·) (validateChunks count index offset objectKeys chunks) := by
  induction chunks generalizing index offset objectKeys with
  | nil => exact .ok offset
  | cons chunk chunks ih =>
    rw [validateChunks]
    refine .bind_ok (rejects_other (by decide)) fun _ hnumber => ?_
    refine .bind_ok (rejects_other (by decide)) fun _ hsize => ?_
    refine .bind_ok (rejects_other (by decide)) fun _ hdigest => ?_
    refine .bind_ok (rejects_other (by decide)) fun _ hkey => ?_
    rw [rejectIf_eq_ok] at hnumber hsize hkey
    rw [validateMediaDigest, rejectIf_eq_ok, Bool.not_eq_false] at hdigest
    rw [not_or] at hkey
    have hchunk : ChunkAt count index offset chunk :=
      ⟨by omega, by omega, by omega, hdigest, hkey.1⟩
    obtain ⟨hadd, hle⟩ := checkedAdd_chunk hoffset hchunk
    rw [hadd]
    exact .bind_ok (.ok _) fun next hnext => by
      cases hnext
      exact ih hle

/-- No manifest makes the arithmetic overflow. -/
theorem RequestMediaObject.rejects_validate (object : RequestMediaObject) :
    Rejects (¬IsOverflow ·) object.validate := by
  unfold validate
  refine .bind (rejects_other (by decide)) fun _ => ?_
  refine .bind (rejects_other (by decide)) fun _ => ?_
  refine .bind (rejects_validateChunks (Nat.zero_le _)) fun offset => ?_
  exact rejects_other (by decide)

/-! ## What is accepted -/

theorem rejects_validateAttachmentPart :
    Rejects (¬IsOverflow ·) (validateAttachmentPart attachment receipt) :=
  .bind (rejects_other (by decide)) fun _ => rejects_validatePartRange

/-- Receipts are accepted when they are the split of the file, a single one when it is of the split and
the upload goes on, and manifests when they are well formed and their chunks cover the file. -/
theorem accepted_parts_and_manifests :
    (∀ attachment receipts, (validatePartReceipts attachment receipts = .ok () ↔
        IsCanonicalSplit attachment.sizeBytes.toNat receipts) ∧
      ∀ error, validatePartReceipts attachment receipts = .error error → ¬IsOverflow error) ∧
    (∀ attachment receipt, (validateAttachmentPart attachment receipt = .ok () ↔
        attachment.state = .prepared ∧ IsMemberOfSplit attachment.sizeBytes.toNat receipt) ∧
      ∀ error, validateAttachmentPart attachment receipt = .error error → ¬IsOverflow error) ∧
    ∀ object : RequestMediaObject, (object.validate = .ok () ↔
        object.WellFormed ∧ Tiles object.plaintextBytes.toNat object.chunks) ∧
      ∀ error, object.validate = .error error → ¬IsOverflow error :=
  ⟨fun _ _ => ⟨validatePartReceipts_eq_ok, rejects_validatePartReceipts⟩,
    fun _ _ => ⟨validateAttachmentPart_eq_ok, rejects_validateAttachmentPart⟩,
    fun object => ⟨object.validate_eq_ok, object.rejects_validate⟩⟩

/-! ### What is refused -/

/-- Chunks of 8 MiB and of one byte. -/
def twoChunks (number : UInt32) (digest key key' : String) : List RequestMediaChunk :=
  [⟨1, 0, 8388608, digest, key⟩, ⟨number, 8388608, 1, digest, key'⟩]

theorem tiles_twoChunks (number : UInt32) (digest key key' : String) :
    Tiles 8388609 (twoChunks number digest key key') := by
  have hfull : (8388608 : UInt64).toNat = REQUEST_MEDIA_CHUNK_BYTES := rfl
  refine ⟨fun i chunk hi => ?_, fun i chunk hi => ?_, rfl⟩
  · rcases i with _ | _ | i
    · cases hi
      rfl
    · cases hi
      rfl
    · cases hi
  · rcases i with _ | _ | i
    · cases hi
      exact ⟨Nat.succ_pos _, hfull.le, fun _ => hfull⟩
    · cases hi
      exact ⟨Nat.succ_pos _, Nat.succ_le_succ (Nat.zero_le _), fun h => absurd h (Nat.lt_irrefl 2)⟩
    · cases hi

def zeroDigest : String := "0000000000000000000000000000000000000000000000000000000000000000"

/-- A manifest of two chunks. -/
def twoChunkManifest (mediaType digest : String) (chunks : List RequestMediaChunk) :
    RequestMediaObject :=
  ⟨mediaType, 8388609, digest, chunks⟩

/-- A part is refused when the upload is finished. Chunks that cover the file are refused without a content
type, without digests, without keys, with one key twice, and with a wrong number. -/
theorem refused_parts_and_manifests :
    (IsMemberOfSplit 1 ⟨1, 1, zeroDigest⟩ ∧
      validateAttachmentPart ⟨1, .uploaded⟩ ⟨1, 1, zeroDigest⟩ ≠ .ok ()) ∧
    ∀ object ∈ [
        twoChunkManifest "" zeroDigest (twoChunks 2 zeroDigest "a" "b"),
        twoChunkManifest "video/mp4" "" (twoChunks 2 zeroDigest "a" "b"),
        twoChunkManifest "video/mp4" zeroDigest (twoChunks 2 "" "a" "b"),
        twoChunkManifest "video/mp4" zeroDigest (twoChunks 2 zeroDigest "a" ""),
        twoChunkManifest "video/mp4" zeroDigest (twoChunks 2 zeroDigest "a" "a"),
        twoChunkManifest "video/mp4" zeroDigest (twoChunks 3 zeroDigest "a" "b")],
      Tiles object.plaintextBytes.toNat object.chunks ∧ object.validate ≠ .ok () := by
  refine ⟨⟨⟨0, 1, 0, ⟨by decide, by decide, rfl⟩, le_rfl, ⟨rfl, rfl, by decide⟩⟩, by decide⟩, ?_⟩
  intro object hobject
  refine ⟨?_, ?_⟩
  · simp only [List.mem_cons, List.not_mem_nil, or_false] at hobject
    rcases hobject with rfl | rfl | rfl | rfl | rfl | rfl
    all_goals exact tiles_twoChunks _ _ _ _
  · revert object
    decide

end ScopeVcs.Requests

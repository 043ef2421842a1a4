import ScopeVcs.Storage.Envelope

/-! # Sealing in place writes what the writer streams

The first loop moves the plaintext of each frame behind everything it has still to read, from the
last frame to the first. The second loop seals the frames where they lie, and their bytes are those
the streaming writer gives for the same chunks.
-/

namespace ScopeVcs.Storage

open Mutation Bytes

variable {crypto : Crypto}

/-! ## One frame -/

namespace EnvelopeWriter

/-- A frame with the next counter. -/
def sealPlaintext (crypto : Crypto) (writer : EnvelopeWriter) (plaintext : Bytes) (flags : UInt8) :
    Except GitStorageError (EnvelopeWriter × Bytes) :=
  if maxU32 ≤ writer.nextCounter then .error (.invalidEnvelope "too many encryption frames")
  else if maxU32 < plaintext.length then .error (.invalidEnvelope "encryption frame exceeds u32")
  else
    let header := frameHeader writer.nextCounter plaintext.length flags
    match crypto.encrypt writer.cipher (nonce writer.noncePrefix writer.nextCounter)
        (associatedData writer.header writer.scope header) plaintext with
    | none => .error .encryption
    | some (ciphertext, tag) =>
      .ok ({ writer with nextCounter := writer.nextCounter + 1 }, header ++ ciphertext ++ tag)

variable {writer writer' : EnvelopeWriter} {plaintext : Bytes} {flags : UInt8}

/-- Only the length of a frame and the plaintext inside it matter. -/
theorem sealFrame_eq {frame : Bytes} (hlength : frame.length = plaintext.length + overhead)
    (hslice : slice frame FRAME_HEADER_BYTES plaintext.length = plaintext) :
    writer.sealFrame crypto frame flags = writer.sealPlaintext crypto plaintext flags := by
  have hplaintext : frame.length - TAG_BYTES - FRAME_HEADER_BYTES = plaintext.length := by
    rw [hlength, overhead]
    omega
  simp only [sealFrame, sealPlaintext, hplaintext, hslice] <;> rfl

theorem encryptFrame_eq :
    writer.encryptFrame crypto plaintext flags = writer.sealPlaintext crypto plaintext flags := by
  have hfit : FRAME_HEADER_BYTES + plaintext.length ≤
      (List.replicate (FRAME_HEADER_BYTES + plaintext.length + TAG_BYTES) (0 : UInt8)).length := by
    rw [List.length_replicate]
    omega
  apply sealFrame_eq
  · rw [length_write hfit, List.length_replicate, overhead]
    omega
  · exact slice_write_self (le_trans (Nat.le_add_right _ _) hfit)

theorem encryptData_eq (hne : plaintext ≠ []) :
    writer.encryptData crypto plaintext = writer.sealPlaintext crypto plaintext 0 := by
  rw [encryptData, if_neg hne, encryptFrame_eq]

theorem encryptFinal_eq :
    writer.encryptFinal crypto = writer.sealPlaintext crypto [] FINAL_FLAG :=
  encryptFrame_eq

/-- What a sealed frame is made of. -/
theorem sealPlaintext_eq_ok {frame : Bytes} :
    writer.sealPlaintext crypto plaintext flags = .ok (writer', frame) ↔
      writer.nextCounter < maxU32 ∧ plaintext.length ≤ maxU32 ∧
      ∃ ciphertext tag, crypto.encrypt writer.cipher (nonce writer.noncePrefix writer.nextCounter)
        (associatedData writer.header writer.scope
          (frameHeader writer.nextCounter plaintext.length flags)) plaintext =
            some (ciphertext, tag) ∧
        writer' = { writer with nextCounter := writer.nextCounter + 1 } ∧
        frame = frameHeader writer.nextCounter plaintext.length flags ++ ciphertext ++ tag := by
  rw [sealPlaintext]
  by_cases hcounter : maxU32 ≤ writer.nextCounter
  · rw [if_pos hcounter]
    simp [not_lt.mpr hcounter]
  · rw [if_neg hcounter]
    by_cases hlength : maxU32 < plaintext.length
    · rw [if_pos hlength]
      simp [not_le.mpr hlength]
    · rw [if_neg hlength]
      simp only [not_le.mp hcounter, not_lt.mp hlength, true_and]
      cases crypto.encrypt writer.cipher (nonce writer.noncePrefix writer.nextCounter)
          (associatedData writer.header writer.scope
            (frameHeader writer.nextCounter plaintext.length flags)) plaintext with
      | none => simp
      | some pair =>
        obtain ⟨ciphertext, tag⟩ := pair
        simp only [Except.ok.injEq, Prod.mk.injEq, Option.some.injEq]
        constructor
        · rintro ⟨rfl, rfl⟩
          exact ⟨ciphertext, tag, ⟨rfl, rfl⟩, rfl, rfl⟩
        · rintro ⟨_, _, ⟨rfl, rfl⟩, rfl, rfl⟩
          exact ⟨rfl, rfl⟩

@[simp] theorem length_frameHeader (counter plaintextLen : ℕ) :
    (frameHeader counter plaintextLen flags).length = FRAME_HEADER_BYTES := by
  rw [frameHeader, List.length_append, List.length_append, length_be, length_be]
  rfl

theorem length_sealed {frame : Bytes}
    (h : writer.sealPlaintext crypto plaintext flags = .ok (writer', frame)) :
    frame.length = plaintext.length + overhead := by
  obtain ⟨-, -, ciphertext, tag, hencrypt, -, rfl⟩ := sealPlaintext_eq_ok.mp h
  obtain ⟨hciphertext, htag⟩ := crypto.length_encrypt hencrypt
  rw [List.length_append, List.length_append, length_frameHeader, hciphertext, htag, overhead]
  omega

end EnvelopeWriter

/-! ## The places of the frames -/

namespace SealLayout

variable (layout : SealLayout) {i j : ℕ}

theorem mul_lt_plaintextLen (hsize : 0 < layout.frameBytes) (h : i < layout.frames) :
    i * layout.frameBytes < layout.plaintextLen := by
  have hle := (Nat.le_div_iff_mul_le hsize).mp (Nat.succ_le_of_lt h)
  rw [Nat.succ_mul] at hle
  omega

theorem frameLen_le (i : ℕ) : layout.frameLen i ≤ layout.frameBytes := min_le_left _ _

/-- The plaintext of a frame ends inside the plaintext. -/
theorem source_le (hsize : 0 < layout.frameBytes) (h : i < layout.frames) :
    i * layout.frameBytes + layout.frameLen i ≤ layout.plaintextLen := by
  have hlt := layout.mul_lt_plaintextLen hsize h
  rw [frameLen]
  omega

/-- A frame ends where the next one begins, or before. -/
theorem frameEnd_le (h : i < j) :
    layout.frameStart i + (layout.frameLen i + overhead) ≤ layout.frameStart j := by
  have hle : (i + 1) * (layout.frameBytes + overhead) ≤ j * (layout.frameBytes + overhead) :=
    Nat.mul_le_mul_right _ h
  have hlen : layout.frameLen i ≤ layout.frameBytes := layout.frameLen_le i
  rw [Nat.succ_mul] at hle
  rw [frameStart, frameStart]
  omega

/-- A frame ends before the place of the final frame. -/
theorem frameEnd_le_sealedLen (hsize : 0 < layout.frameBytes) (h : i < layout.frames) :
    layout.frameStart i + (layout.frameLen i + overhead) + overhead ≤ layout.sealedLen := by
  have hsource := layout.source_le hsize h
  have hoverhead : (i + 1) * overhead ≤ layout.frames * overhead := Nat.mul_le_mul_right _ h
  rw [Nat.succ_mul] at hoverhead
  rw [frameStart, sealedLen, Nat.mul_add]
  omega

/-- The sources of the frames still to be moved lie before the place of the frame. -/
theorem source_le_frameStart (h : i < j) :
    i * layout.frameBytes + layout.frameLen i ≤ layout.frameStart j := by
  have hle : (i + 1) * layout.frameBytes ≤ j * layout.frameBytes := Nat.mul_le_mul_right _ h
  have hlen : layout.frameLen i ≤ layout.frameBytes := layout.frameLen_le i
  rw [Nat.succ_mul] at hle
  rw [frameStart, Nat.mul_add]
  omega

theorem frameStart_succ (h : layout.frameLen i = layout.frameBytes) :
    layout.frameStart (i + 1) = layout.frameStart i + (layout.frameLen i + overhead) := by
  rw [frameStart, frameStart, h, Nat.succ_mul, Nat.add_assoc]

/-- Every frame but the last is full. -/
theorem frameLen_eq (hsize : 0 < layout.frameBytes) (h : i + 1 < layout.frames) :
    layout.frameLen i = layout.frameBytes := by
  have hlt := layout.mul_lt_plaintextLen hsize h
  rw [Nat.succ_mul] at hlt
  rw [frameLen]
  omega

end SealLayout

/-! ## Moving the plaintext -/

/-- The buffer while the plaintext of the frames from `next` on is in place and that of the others is
where it was. -/
structure Moved (layout : SealLayout) (plaintext : Bytes) (next : ℕ) (buffer : Bytes) : Prop where
  length : buffer.length = layout.sealedLen
  unread : ∀ i < next, slice buffer (i * layout.frameBytes) (layout.frameLen i) =
    slice plaintext (i * layout.frameBytes) (layout.frameLen i)
  moved : ∀ i < layout.frames, next ≤ i →
    slice buffer (layout.frameStart i + FRAME_HEADER_BYTES) (layout.frameLen i) =
      slice plaintext (i * layout.frameBytes) (layout.frameLen i)

namespace Moved

variable {layout : SealLayout} {plaintext buffer : Bytes} {next : ℕ}

theorem resized (hsize : 0 < layout.frameBytes) (hlength : layout.plaintextLen = plaintext.length) :
    Moved layout plaintext layout.frames (resized layout plaintext) where
  length := by
    have hle : layout.plaintextLen ≤ layout.sealedLen := by
      rw [SealLayout.sealedLen]
      omega
    rw [Storage.resized, List.length_append, List.length_replicate]
    omega
  unread := fun i hi => by
    have hsource := layout.source_le hsize hi
    apply List.ext_getElem?
    intro k
    rw [getElem?_slice, getElem?_slice]
    by_cases hk : k < layout.frameLen i
    · rw [if_pos hk, if_pos hk, Storage.resized, List.getElem?_append_left (by omega)]
    · rw [if_neg hk, if_neg hk]
  moved := fun i hi hle => absurd hi (not_lt.mpr hle)

/-- One round reads plaintext that is still there, and writes behind what is still to be read. -/
theorem moveFrame (hsize : 0 < layout.frameBytes) (h : Moved layout plaintext (next + 1) buffer)
    (hnext : next < layout.frames) :
    ∃ buffer', moveFrame layout buffer next = .ok buffer' ∧ Moved layout plaintext next buffer' := by
  have hend := layout.frameEnd_le_sealedLen hsize hnext
  have hsource := layout.source_le hsize hnext
  have hplaintext : layout.plaintextLen ≤ layout.sealedLen := by
    rw [SealLayout.sealedLen]
    omega
  have hread : next * layout.frameBytes + layout.frameLen next ≤ buffer.length := by
    rw [h.length]
    omega
  have hplace : layout.frameStart next + FRAME_HEADER_BYTES + layout.frameLen next ≤ buffer.length := by
    rw [h.length]
    rw [overhead] at hend
    omega
  have hcopied := length_slice hread
  refine ⟨write buffer (layout.frameStart next + FRAME_HEADER_BYTES)
    (slice buffer (next * layout.frameBytes) (layout.frameLen next)), ?_, ?_, fun i hi => ?_,
    fun i hi hle => ?_⟩
  · rw [Storage.moveFrame, copyWithin, if_pos ⟨hread, hplace⟩]
  · rw [length_write (by rw [hcopied]; exact hplace), h.length]
  · have hbefore := layout.source_le_frameStart hi
    rw [slice_write_before (by omega) (by omega), h.unread i (Nat.lt_succ_of_lt hi)]
  · rcases Nat.eq_or_lt_of_le hle with rfl | hlt
    · have hself : slice (write buffer (layout.frameStart next + FRAME_HEADER_BYTES)
          (slice buffer (next * layout.frameBytes) (layout.frameLen next)))
          (layout.frameStart next + FRAME_HEADER_BYTES)
          (slice buffer (next * layout.frameBytes) (layout.frameLen next)).length = _ :=
        slice_write_self (by omega)
      rw [hcopied] at hself
      rw [hself, h.unread next (Nat.lt_succ_self next)]
    · have hafter := layout.frameEnd_le hlt
      rw [overhead] at hafter
      rw [slice_write_after (by omega) (by rw [hcopied]; omega), h.moved i hi hlt]

/-- The loop ends with every frame's plaintext in place. -/
theorem run (hsize : 0 < layout.frameBytes) (h : Moved layout plaintext next buffer)
    (hnext : next ≤ layout.frames) :
    ∃ buffer', (List.range next).reverse.foldlM (Storage.moveFrame layout) buffer = .ok buffer' ∧
      Moved layout plaintext 0 buffer' := by
  induction next generalizing buffer with
  | zero => exact ⟨buffer, rfl, h⟩
  | succ next ih =>
    obtain ⟨buffer₁, hmove, hmoved⟩ := h.moveFrame hsize hnext
    obtain ⟨buffer', hrun, hdone⟩ := ih hmoved (Nat.le_of_succ_le hnext)
    refine ⟨buffer', ?_, hdone⟩
    rw [List.range_succ, List.reverse_append, List.reverse_singleton, List.singleton_append,
      List.foldlM_cons, hmove]
    exact hrun

/-- Whatever round the loop is in, the plaintext it reads is still there. -/
theorem read_intact (hsize : 0 < layout.frameBytes) (h : Moved layout plaintext next buffer)
    (hnext : next ≤ layout.frames) {done rest : List ℕ} {index : ℕ}
    (hround : (List.range next).reverse = done ++ index :: rest) :
    ∃ buffer', done.foldlM (Storage.moveFrame layout) buffer = .ok buffer' ∧
      index * layout.frameBytes + layout.frameLen index ≤ buffer'.length ∧
      layout.frameStart index + FRAME_HEADER_BYTES + layout.frameLen index ≤ buffer'.length ∧
      slice buffer' (index * layout.frameBytes) (layout.frameLen index) =
        slice plaintext (index * layout.frameBytes) (layout.frameLen index) := by
  induction next generalizing buffer done with
  | zero => simp at hround
  | succ next ih =>
    rw [List.range_succ, List.reverse_append, List.reverse_singleton, List.singleton_append] at hround
    cases done with
    | nil =>
      obtain ⟨rfl, -⟩ := List.cons.inj hround
      have hend := layout.frameEnd_le_sealedLen hsize hnext
      have hsource := layout.source_le hsize hnext
      have hplaintext : layout.plaintextLen ≤ layout.sealedLen := by
        rw [SealLayout.sealedLen]
        omega
      rw [overhead] at hend
      refine ⟨buffer, rfl, ?_, ?_, h.unread next (Nat.lt_succ_self next)⟩
      · rw [h.length]
        omega
      · rw [h.length]
        omega
    | cons first done =>
      obtain ⟨rfl, hrest⟩ := List.cons.inj hround
      obtain ⟨buffer₁, hmove, hmoved⟩ := h.moveFrame hsize hnext
      obtain ⟨buffer', hrun, hread⟩ := ih hmoved (Nat.le_of_succ_le hnext) hrest
      refine ⟨buffer', ?_, hread⟩
      rw [List.foldlM_cons, hmove]
      exact hrun

end Moved

/-! ## Sealing the frames -/

/-- Sealing a frame that holds its plaintext writes the frame of the streaming writer. -/
theorem sealAt_eq (writer : EnvelopeWriter) (buffer plaintext : Bytes) (start : ℕ) (flags : UInt8)
    (hfit : start + (plaintext.length + overhead) ≤ buffer.length)
    (hslice : slice buffer (start + FRAME_HEADER_BYTES) plaintext.length = plaintext) :
    sealAt crypto writer buffer start (plaintext.length + overhead) flags =
      ((writer.sealPlaintext crypto plaintext flags).map (putFrame buffer start)).mapError
        .failed := by
  have hinside : slice (slice buffer start (plaintext.length + overhead)) FRAME_HEADER_BYTES
      plaintext.length = plaintext := by
    rw [slice_slice (by rw [overhead]; omega), hslice]
  rw [sealAt, if_pos hfit, EnvelopeWriter.sealFrame_eq (length_slice hfit) hinside]

theorem encryptChunks_cons_of_ok {writer writer' : EnvelopeWriter} {chunk frame : Bytes}
    {chunks : List Bytes} (hne : chunk ≠ [])
    (h : writer.sealPlaintext crypto chunk 0 = .ok (writer', frame)) :
    encryptChunks crypto writer (chunk :: chunks) =
      (encryptChunks crypto writer' chunks).map fun pair => (pair.1, frame ++ pair.2) := by
  rw [encryptChunks, EnvelopeWriter.encryptData_eq hne, h]
  change (encryptChunks crypto writer' chunks >>= fun pair => pure (pair.1, frame ++ pair.2)) = _
  cases encryptChunks crypto writer' chunks with
  | error error => rfl
  | ok pair => rfl

theorem encryptChunks_cons_of_error {writer : EnvelopeWriter} {chunk : Bytes} {chunks : List Bytes}
    {error : GitStorageError} (hne : chunk ≠ [])
    (h : writer.sealPlaintext crypto chunk 0 = .error error) :
    encryptChunks crypto writer (chunk :: chunks) = .error error := by
  rw [encryptChunks, EnvelopeWriter.encryptData_eq hne, h]
  rfl

theorem encryptChunks_length {writer writer' : EnvelopeWriter} {chunks : List Bytes} {frames : Bytes}
    (hne : ∀ chunk ∈ chunks, chunk ≠ [])
    (h : encryptChunks crypto writer chunks = .ok (writer', frames)) :
    frames.length = chunks.flatten.length + chunks.length * overhead := by
  induction chunks generalizing writer frames with
  | nil =>
    cases h
    simp
  | cons chunk chunks ih =>
    rw [encryptChunks, EnvelopeWriter.encryptData_eq (hne chunk List.mem_cons_self)] at h
    obtain ⟨⟨writer₁, frame⟩, hframe, h⟩ := except_bind_eq_ok.mp h
    obtain ⟨⟨writer₂, rest⟩, hrest, h⟩ := except_bind_eq_ok.mp h
    cases h
    rw [List.length_append, EnvelopeWriter.length_sealed hframe,
      ih (fun c hc => hne c (List.mem_cons_of_mem _ hc)) hrest, List.flatten_cons,
      List.length_append, List.length_cons, Nat.succ_mul]
    omega

/-- The second loop from any frame on, in a buffer whose remaining frames are in place. -/
theorem sealFrames_eq {layout : SealLayout} {plaintext buffer : Bytes} {writer : EnvelopeWriter}
    (hsize : 0 < layout.frameBytes) (hplaintext : layout.plaintextLen = plaintext.length)
    {count next : ℕ} (hcount : next + count = layout.frames)
    (hlength : buffer.length = layout.sealedLen)
    (hmoved : ∀ i < layout.frames, next ≤ i →
      slice buffer (layout.frameStart i + FRAME_HEADER_BYTES) (layout.frameLen i) =
        slice plaintext (i * layout.frameBytes) (layout.frameLen i)) :
    (List.range' next count).foldlM (sealDataFrame crypto layout) (writer, buffer) =
      ((encryptChunks crypto writer ((List.range' next count).map fun i =>
        slice plaintext (i * layout.frameBytes) layout.frameBytes)).map
          (putFrame buffer (layout.frameStart next))).mapError .failed := by
  induction count generalizing next writer buffer with
  | zero =>
    rw [List.range'_zero, List.map_nil, encryptChunks, List.foldlM_nil]
    change Except.ok (writer, buffer) = Except.ok (writer, write buffer _ [])
    rw [write_nil]
  | succ count ih =>
    have hnext : next < layout.frames := by omega
    have hlt := layout.mul_lt_plaintextLen hsize hnext
    have hend := layout.frameEnd_le_sealedLen hsize hnext
    -- the last chunk is cut at the end of the plaintext
    have hchunk : slice plaintext (next * layout.frameBytes) layout.frameBytes =
        slice plaintext (next * layout.frameBytes) (layout.frameLen next) := by
      rw [slice, slice, SealLayout.frameLen, hplaintext, ← List.length_drop, ← List.take_take,
        List.take_length]
    have hchunklen : (slice plaintext (next * layout.frameBytes) (layout.frameLen next)).length =
        layout.frameLen next := by
      have hsource := layout.source_le hsize hnext
      exact length_slice (hplaintext ▸ hsource)
    have hpos : 0 < layout.frameLen next := by
      rw [SealLayout.frameLen]
      omega
    have hne : slice plaintext (next * layout.frameBytes) (layout.frameLen next) ≠ [] := by
      rw [← List.length_pos_iff_ne_nil, hchunklen]
      exact hpos
    have hseal : sealDataFrame crypto layout (writer, buffer) next =
        ((writer.sealPlaintext crypto
          (slice plaintext (next * layout.frameBytes) (layout.frameLen next)) 0).map
            (putFrame buffer (layout.frameStart next))).mapError .failed := by
      rw [sealDataFrame, ← hchunklen]
      refine (sealAt_eq writer buffer _ (layout.frameStart next) 0 ?_ ?_).trans ?_
      · rw [hchunklen]
        omega
      · rw [hchunklen]
        exact hmoved next hnext le_rfl
      · rw [hchunklen]
    rw [List.range'_succ, List.foldlM_cons, List.map_cons, hchunk, hseal]
    cases hframe : writer.sealPlaintext crypto
        (slice plaintext (next * layout.frameBytes) (layout.frameLen next)) 0 with
    | error error =>
      rw [encryptChunks_cons_of_error hne hframe]
      rfl
    | ok sealed =>
      obtain ⟨writer₁, frame⟩ := sealed
      rw [encryptChunks_cons_of_ok hne hframe]
      have hframelen : frame.length = layout.frameLen next + overhead := by
        rw [EnvelopeWriter.length_sealed hframe, hchunklen]
      have hfit : layout.frameStart next + frame.length ≤ buffer.length := by
        rw [hframelen, hlength]
        omega
      have hrest := @ih (write buffer (layout.frameStart next) frame) writer₁ (next + 1) (by omega)
        (by rw [length_write hfit, hlength]) (fun i hi hle => by
          have hbehind := layout.frameEnd_le (Nat.lt_of_succ_le hle)
          rw [slice_write_after (by omega) (by omega)]
          exact hmoved i hi (Nat.le_of_succ_le hle))
      change (List.range' (next + 1) count).foldlM (sealDataFrame crypto layout) (writer₁, _) = _
      rw [hrest]
      cases hchunks : encryptChunks crypto writer₁ ((List.range' (next + 1) count).map fun i =>
          slice plaintext (i * layout.frameBytes) layout.frameBytes) with
      | error error => rfl
      | ok pair =>
        obtain ⟨writer₂, frames⟩ := pair
        change Except.ok (writer₂, write (write buffer (layout.frameStart next) frame)
          (layout.frameStart (next + 1)) frames) =
            Except.ok (writer₂, write buffer (layout.frameStart next) (frame ++ frames))
        congr 2
        by_cases hlast : next + 1 < layout.frames
        · rw [layout.frameStart_succ (layout.frameLen_eq hsize hlast), ← hframelen,
            write_append hfit]
        · obtain rfl : count = 0 := by omega
          cases hchunks
          rw [write_nil, List.append_nil]

/-- A final frame at the end of the buffer completes the envelope. -/
theorem sealAt_final {writer : EnvelopeWriter} {buffer header frames : Bytes}
    (hlength : buffer.length = header.length + frames.length + overhead) :
    (sealAt crypto writer (write buffer 0 (header ++ frames)) (buffer.length - overhead) overhead
      FINAL_FLAG).map Prod.snd =
      ((writer.encryptFinal crypto).map fun final => header ++ frames ++ final.2).mapError .failed := by
  have hfront : 0 + (header ++ frames).length ≤ buffer.length := by
    rw [List.length_append]
    omega
  have hstart : buffer.length - overhead = 0 + (header ++ frames).length := by
    rw [List.length_append]
    omega
  have hfit : 0 + (header ++ frames).length + (([] : Bytes).length + overhead) ≤
      (write buffer 0 (header ++ frames)).length := by
    rw [length_write hfront, List.length_append, List.length_nil]
    omega
  have hat := @sealAt_eq crypto writer _ [] _ FINAL_FLAG hfit rfl
  rw [List.length_nil, Nat.zero_add overhead] at hat
  rw [hstart, hat, EnvelopeWriter.encryptFinal_eq]
  cases hfinal : writer.sealPlaintext crypto [] FINAL_FLAG with
  | error error => rfl
  | ok final =>
    have hfinallen := EnvelopeWriter.length_sealed hfinal
    change Except.ok (write (write buffer 0 (header ++ frames)) (0 + (header ++ frames).length) final.2) =
      Except.ok (header ++ frames ++ final.2)
    rw [write_append hfront, write_all]
    rw [List.length_append, List.length_append, hfinallen, hlength, List.length_nil]
    omega

/-- Both loops run inside the buffer, and the second leaves the frames behind the header. -/
theorem exists_moved {layout : SealLayout} {writer : EnvelopeWriter} {plaintext : Bytes}
    (hsize : 0 < layout.frameBytes) (hheader : layout.headerLen = writer.header.length)
    (hplaintext : layout.plaintextLen = plaintext.length) :
    ∃ moved, (List.range layout.frames).reverse.foldlM (moveFrame layout)
        (resized layout plaintext) = .ok moved ∧
      moved.length = layout.sealedLen ∧
      (List.range layout.frames).foldlM (sealDataFrame crypto layout)
        (writer, write moved 0 writer.header) =
          ((encryptChunks crypto writer (chunks layout.frameBytes plaintext)).map
            (putFrame (write moved 0 writer.header) writer.header.length)).mapError .failed := by
  obtain ⟨moved, hmove, hmoved⟩ := (Moved.resized hsize hplaintext).run hsize le_rfl
  have hfit : 0 + writer.header.length ≤ moved.length := by
    rw [hmoved.length, SealLayout.sealedLen]
    omega
  refine ⟨moved, hmove, hmoved.length, ?_⟩
  have hframes := @sealFrames_eq crypto layout plaintext (write moved 0 writer.header) writer hsize
    hplaintext layout.frames 0 (Nat.zero_add _) (by rw [length_write hfit, hmoved.length])
    (fun i hi hle => by
      have hstart : writer.header.length ≤ layout.frameStart i := by
        rw [SealLayout.frameStart]
        omega
      rw [slice_write_after (by omega) (by omega)]
      exact hmoved.moved i hi hle)
  have hzero : layout.frameStart 0 = writer.header.length := by
    rw [SealLayout.frameStart, hheader]
    omega
  rw [List.range_eq_range', hframes, hzero, chunks, SealLayout.frames, hplaintext,
    List.range_eq_range']

/-- Sealing in place never leaves its buffer, and gives what the stream of frame-sized chunks gives. -/
theorem sealInPlace_eq {key : EncryptionKey} {scope : EnvelopeScope} {frameBytes : ℕ}
    {random : Except String NoncePrefix} {plaintext : Bytes} (hsize : 0 < frameBytes) :
    sealInPlace crypto key scope frameBytes random plaintext =
      (sealStream crypto key scope frameBytes random (chunks frameBytes plaintext)).mapError
        .failed := by
  rw [sealInPlace, sealStream]
  cases hnew : EnvelopeWriter.new crypto key scope frameBytes random with
  | error error => rfl
  | ok writer =>
    obtain ⟨moved, hmove, hlength, hsealed⟩ :=
      @exists_moved crypto ⟨writer.header.length, frameBytes, plaintext.length⟩ writer plaintext
        hsize rfl rfl
    change moved.length = writer.header.length +
      (plaintext.length + frameBytes - 1) / frameBytes * overhead + plaintext.length + overhead
        at hlength
    simp only [except_mapError_ok, except_ok_bind, rejectIf_of_not hsize.ne', hmove,
      rejectIf_of_not (show ¬moved.length < writer.header.length by omega), hsealed]
    cases hchunks : encryptChunks crypto writer (chunks frameBytes plaintext) with
    | error error => rfl
    | ok pair =>
      obtain ⟨final, frames⟩ := pair
      have hframes := encryptChunks_length (fun chunk hchunk =>
        List.length_pos_iff_ne_nil.mp (length_chunk hsize hchunk).1) hchunks
      rw [flatten_chunks hsize, chunks, List.length_map, List.length_range] at hframes
      have hbuffer : moved.length = writer.header.length + frames.length + overhead := by
        rw [hlength, hframes]
        omega
      have hwrite : write (write moved 0 writer.header) writer.header.length frames =
          write moved 0 (writer.header ++ frames) := by
        have happend := @write_append moved writer.header 0 frames (by omega)
        rwa [Nat.zero_add] at happend
      have hwritten : (write moved 0 (writer.header ++ frames)).length = moved.length := by
        apply length_write
        rw [List.length_append]
        omega
      have hfinal := @sealAt_final crypto final moved writer.header frames hbuffer
      simp only [except_map_ok, except_mapError_ok, putFrame, except_ok_bind, hwrite, hwritten]
      rw [except_bind_pure, except_bind_pure]
      exact hfinal

end ScopeVcs.Storage

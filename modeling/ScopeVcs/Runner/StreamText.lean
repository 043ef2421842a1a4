import ScopeVcs.Runner.Delivery

/-! # The text of a stream

When one stream writes, the texts the sink is given are its bytes decoded in pieces. A piece ends where
a deadline was due while the uploader held the first bytes of a character; the deadlines of a run that
is not torn come before the rest of it reached the spool. So the text is that of all bytes, but for
characters whose rest came late.
-/

namespace ScopeVcs.Runner

open Utf8 Decoder

/-- The first bytes of a character that a text ends with. -/
def openEnd (bytes : Bytes) : Bytes := bytes.drop (bytes.length - incompleteUtf8Suffix bytes)

/-- The text of bytes that were decoded in pieces. -/
def decodedText (pieces : List Bytes) : Bytes := pieces.flatMap fun piece => (decodeLossy piece).bytes

/-- Pieces of a stream that end at deadlines, each with a character begun of which the rest was not
`allowed` to be known. -/
inductive CutAt (allowed : Bytes → Bytes → Prop) (stream : OutputStream)
    (flushes : List DeadlineFlush) : List Bytes → Prop where
  | nil : CutAt allowed stream flushes []
  | cut {pieces : List Bytes} {piece : Bytes} {flush : DeadlineFlush}
      (h : CutAt allowed stream flushes pieces) (hflush : flush ∈ flushes)
      (hreceived : World.bytesOf stream flush.received = (pieces ++ [piece]).flatten)
      (hopen : openEnd piece ≠ [])
      (hwaiting : allowed (openEnd piece) (World.bytesOf stream flush.waiting)) :
      CutAt allowed stream flushes (pieces ++ [piece])

theorem CutAt.mono {allowed : Bytes → Bytes → Prop} {stream : OutputStream}
    {flushes flushes' : List DeadlineFlush} {pieces : List Bytes}
    (h : CutAt allowed stream flushes pieces) (hsub : ∀ flush ∈ flushes, flush ∈ flushes') :
    CutAt allowed stream flushes' pieces := by
  induction h with
  | nil => exact .nil
  | cut _ hflush hreceived hopen hwaiting ih =>
    exact .cut ih (hsub _ hflush) hreceived hopen hwaiting

theorem openEnd_eq_held (bytes : Bytes) : openEnd bytes = (between.run bytes).2.held :=
  drop_incompleteUtf8Suffix bytes

/-- The first bytes of a character at the end of a piece are those at the end of the stream. -/
theorem openEnd_append {piece : Bytes} (h : openEnd piece ≠ []) (left : Bytes) :
    openEnd (left ++ piece) = openEnd piece := by
  have hincomplete : Incomplete (openEnd piece) := by
    rw [openEnd_eq_held] at h ⊢
    exact incomplete_held h
  have hpiece : piece.take (piece.length - incompleteUtf8Suffix piece) ++ openEnd piece = piece :=
    List.take_append_drop _ _
  rw [openEnd_eq_held (left ++ piece)]
  calc (between.run (left ++ piece)).2.held
      = (between.run ((left ++ piece.take _) ++ openEnd piece)).2.held := by
        rw [List.append_assoc, hpiece]
    _ = openEnd piece := (run_append_incomplete hincomplete _).2

theorem decodedText_append (left right : List Bytes) :
    decodedText (left ++ right) = decodedText left ++ decodedText right :=
  List.flatMap_append

theorem decodedText_singleton (piece : Bytes) :
    decodedText [piece] = (decodeLossy piece).bytes := List.flatMap_singleton _ _

theorem decodeLossy_nil : (decodeLossy []).bytes = [] := rfl

namespace World

variable {allowed : Bytes → Bytes → Prop} {outside : Outside} {policy : UploadPolicy}
  {capacity step first : ℕ} {w w' : World} {stream : OutputStream} {bytes : Bytes}
  {pieces : List Bytes} {last : Bytes}

theorem bytesOf_append (stream : OutputStream) (left right : List Record) :
    bytesOf stream (left ++ right) = bytesOf stream left ++ bytesOf stream right :=
  List.flatMap_append

theorem bytesOf_singleton (stream : OutputStream) (bytes : Bytes) :
    bytesOf stream [(stream, bytes)] = bytes := by
  rw [bytesOf, List.flatMap_singleton, if_pos rfl]

/-- The whole state of a capture: the spool, what the sink was given, and how it ends. -/
structure Inv (capacity step first : ℕ) (w : World) : Prop where
  queued : w.Queued capacity
  uploader : w.uploader.Sound step first
  kept : w.locallyDiscarded = false
  ended : ∀ summary, w.uploader.phase = .finished summary →
    w.waiting = [] ∧ ∀ stream, w.reading stream = false

/-- What a look at the clock does. -/
theorem check_eq_some (hs : w.uploader.Sound step first) (h : outside.Accepts) {now : ℕ}
    (hact : w.check outside policy now = some w') :
    w.uploader.phase = .checking ∧
      ((w.uploader.deadline.due now = false ∧
          w' = { w with uploader := { w.uploader with phase := .receiving } }) ∨
        w.uploader.deadline.due now = true ∧
          ((∃ upload, w' = { w with
              uploader := { w.uploader with
                upload, pendingUtf8 := fun _ => [], deadline := none, phase := .receiving }
              flushes := w.flushes ++ [⟨w.received, w.waiting⟩] } ∧
            upload.Sound step first ∧ upload.text = w.uploader.pushPending.text) ∨
          ∃ upload error, w' = { w with
              uploader := { w.uploader with
                upload, pendingUtf8 := fun _ => [], phase := .failed error }
              flushes := w.flushes ++ [⟨w.received, w.waiting⟩] } ∧
            upload.Exhausted step first)) := by
  by_cases hphase : w.uploader.phase = .checking
  swap
  · rw [World.check, if_neg hphase] at hact
    cases hact
  refine ⟨hphase, ?_⟩
  rw [World.check, if_pos hphase] at hact
  have hupload := Uploader.upload_of_phase hs (.inr hphase)
  rcases Uploader.check_cases hupload h policy now with ⟨hdue, hcheck⟩ |
    ⟨hdue, ⟨upload, hcheck, hsound, htext⟩ | ⟨upload, error, hcheck, hexhausted⟩⟩
  · left
    rw [hcheck, hdue] at hact
    simp only [hupload.kept, Bool.false_eq_true, false_and, and_false, if_false] at hact
    exact ⟨hdue, (Option.some.inj hact).symm⟩
  · right
    rw [hcheck, hdue] at hact
    simp only [hsound.kept, Bool.false_eq_true, false_and, and_false, if_false, if_true] at hact
    exact ⟨hdue, .inl ⟨upload, (Option.some.inj hact).symm, hsound, htext⟩⟩
  · right
    rw [hcheck, hdue] at hact
    simp only [reduceCtorEq, false_and, if_false, if_true] at hact
    exact ⟨hdue, .inr ⟨upload, error, (Option.some.inj hact).symm, hexhausted⟩⟩

namespace Inv

theorem start (hfirst : first ≤ U64.maxU64) :
    (World.start capacity step first false).Inv capacity step first where
  queued := .start capacity step first
  uploader := Uploader.sound_of_upload rfl (.inl rfl)
    ⟨rfl, rfl, hfirst, [], nofun, rfl, rfl⟩
  kept := rfl
  ended := nofun

/-- A step of the uploader leaves the readers' part as it is. -/
theorem of_uploader (h : w.Inv capacity step first) {uploader : Uploader}
    {flushes : List DeadlineFlush} (hs : uploader.Sound step first)
    (hended : ∀ summary, uploader.phase = .finished summary →
      w.waiting = [] ∧ ∀ stream, w.reading stream = false) :
    ({ w with uploader, flushes } : World).Inv capacity step first where
  queued := ⟨h.queued.capacity_eq, h.queued.wellFormed, h.queued.unfailed, h.queued.kept,
    h.queued.readers, h.queued.sent, h.queued.contents, h.queued.reads⟩
  uploader := hs
  kept := h.kept
  ended := hended

theorem act (h : w.Inv capacity step first) (ha : outside.Accepts) (action : Action)
    (hact : w.act outside policy action = some w') : w'.Inv capacity step first := by
  cases action with
  | send stream bytes =>
    obtain ⟨hreading, spool', rfl, hqueued, -⟩ := h.queued.send hact
    refine ⟨hqueued, h.uploader, h.kept, fun summary hfinished => ?_⟩
    have hclosed := (h.ended summary hfinished).2 stream
    rw [hreading] at hclosed
    cases hclosed
  | close stream =>
    obtain ⟨hreading, hclose⟩ := Option.ite_none_right_eq_some.mp hact
    cases hclose
    refine ⟨h.queued.close hreading, h.uploader, h.kept, fun summary hfinished => ?_⟩
    have hclosed := (h.ended summary hfinished).2 stream
    rw [hreading] at hclosed
    cases hclosed
  | receive expired now =>
    obtain ⟨hphase, hqueued, hcases⟩ := h.queued.receive hact
    have hupload := Uploader.upload_of_phase h.uploader (.inl hphase)
    rcases hcases with ⟨stream, bytes, rest, spool', -, -, rfl⟩ | ⟨hwaiting, hclosed, rfl⟩ | ⟨-, -, rfl⟩
    · rcases Uploader.receiveChunk_cases hupload ha policy stream bytes now with
        ⟨upload, deadline, hreceive, hsound, -⟩ |
        ⟨upload, pendingUtf8, deadline, error, hreceive, hexhausted⟩
      · rw [hreceive] at hqueued ⊢
        exact ⟨hqueued, Uploader.sound_of_upload h.uploader.kept (.inr rfl) hsound, h.kept, nofun⟩
      · rw [hreceive] at hqueued ⊢
        exact ⟨hqueued, Uploader.sound_of_failed h.uploader.kept rfl hexhausted, h.kept, nofun⟩
    · rcases Uploader.conclude_cases hupload ha policy w.locallyDiscarded with
        ⟨upload, summary, hconclude, hsound, -, hempty, hsummary⟩ |
        ⟨upload, error, hconclude, hexhausted⟩
      · rw [hconclude]
        refine h.of_uploader ⟨h.uploader.kept, fun _ => hsound, nofun, ?_⟩ fun _ _ => ⟨hwaiting, hclosed⟩
        rintro _ ⟨⟩
        exact ⟨hsummary.trans h.kept, hempty⟩
      · rw [hconclude]
        exact h.of_uploader (Uploader.sound_of_failed h.uploader.kept rfl hexhausted) nofun
    · exact h.of_uploader (Uploader.sound_of_upload h.uploader.kept (.inr rfl) hupload) nofun
  | check now =>
    obtain ⟨hphase, ⟨-, rfl⟩ | ⟨-, ⟨upload, rfl, hsound, -⟩ | ⟨upload, error, rfl, hexhausted⟩⟩⟩ :=
      check_eq_some h.uploader ha hact
    · have hupload := Uploader.upload_of_phase h.uploader (.inr hphase)
      exact h.of_uploader (Uploader.sound_of_upload h.uploader.kept (.inl rfl) hupload) nofun
    · exact h.of_uploader (Uploader.sound_of_upload h.uploader.kept (.inl rfl) hsound) nofun
    · exact h.of_uploader (Uploader.sound_of_failed h.uploader.kept rfl hexhausted) nofun

end Inv

/-! ## One stream -/

/-- What was received of the only stream that writes, and how it was decoded. -/
structure Decoded (allowed : Bytes → Bytes → Prop) (stream : OutputStream) (pieces : List Bytes)
    (last : Bytes) (w : World) : Prop where
  cut : CutAt allowed stream w.flushes pieces
  received : bytesOf stream w.received = pieces.flatten ++ last
  running : w.uploader.phase = .receiving ∨ w.uploader.phase = .checking →
    w.uploader.upload.text = decodedText pieces ++ replaceNulBytes (between.run last).1 ∧
      w.uploader.pendingUtf8 stream = (between.run last).2.held ∧
      ∀ other, other ≠ stream → w.uploader.pendingUtf8 other = []
  finished : ∀ summary, w.uploader.phase = .finished summary →
    w.uploader.upload.text = decodedText (pieces ++ [last])

/-- The characters that are not complete are those of the stream that writes. -/
theorem text_pushPending_of_one {uploader : Uploader}
    (hone : ∀ other, other ≠ stream → uploader.pendingUtf8 other = []) :
    uploader.pushPending.text =
      uploader.upload.text ++ (decodeLossy (uploader.pendingUtf8 stream)).bytes := by
  rw [Uploader.text_pushPending]
  cases stream with
  | stdout => rw [hone .stderr (by decide), decodeLossy_nil, List.append_nil]
  | stderr => rw [hone .stdout (by decide), decodeLossy_nil, List.nil_append]

namespace Decoded

theorem start (allowed : Bytes → Bytes → Prop) (stream : OutputStream) :
    Decoded allowed stream [] [] (World.start capacity step first false) where
  cut := .nil
  received := rfl
  running _ := ⟨rfl, rfl, fun _ _ => rfl⟩
  finished := nofun

/-- With the character that is not complete the text is that of all pieces. -/
theorem text_pushPending (hd : w.Decoded allowed stream pieces last)
    (hphase : w.uploader.phase = .receiving ∨ w.uploader.phase = .checking) :
    w.uploader.pushPending.text = decodedText (pieces ++ [last]) := by
  obtain ⟨htext, hheld, hone⟩ := hd.running hphase
  rw [text_pushPending_of_one hone, htext, hheld, decodeLossy_held, List.append_assoc,
    ← decodeLossy_eq_run, decodedText_append, decodedText_singleton]

/-- A chunk that is received is decoded behind the last piece. -/
theorem receiveChunk (hd : w.Decoded allowed stream pieces last)
    (hs : w.uploader.upload.Sound step first) (ha : outside.Accepts)
    (hphase : w.uploader.phase = .receiving) {spool : LogSpool} {now : ℕ} :
    Decoded allowed stream pieces (last ++ bytes) { w with
      spool
      uploader := w.uploader.receiveChunk outside policy stream bytes now
      received := w.received ++ [(stream, bytes)] } := by
  have hreceived : bytesOf stream (w.received ++ [(stream, bytes)]) =
      pieces.flatten ++ (last ++ bytes) := by
    rw [bytesOf_append, bytesOf_singleton, hd.received, List.append_assoc]
  obtain ⟨htext, hheld, hone⟩ := hd.running (.inl hphase)
  rcases Uploader.receiveChunk_cases hs ha policy stream bytes now with
    ⟨upload, deadline, hreceive, -, hupload⟩ | ⟨upload, pendingUtf8, deadline, error, hreceive, -⟩
  · rw [hreceive]
    refine ⟨hd.cut, hreceived, fun _ => ⟨?_, ?_, fun other hother => ?_⟩, nofun⟩
    · rw [hupload, htext, hheld, (decodeUtf8Chunk_held _ bytes).1, List.append_assoc,
        ← replaceNulBytes_append, run_append]
    · show Function.update _ stream _ stream = _
      rw [Function.update_self, hheld, (decodeUtf8Chunk_held _ bytes).2, run_append]
    · show Function.update _ stream _ other = _
      rw [Function.update_of_ne hother]
      exact hone other hother
  · rw [hreceive]
    exact ⟨hd.cut, hreceived, (by rintro (hp | hp) <;> cases hp), nofun⟩

/-- The deadline ends the piece when there is a character it cuts. -/
theorem flush (hd : w.Decoded allowed stream pieces last) (hphase : w.uploader.phase = .checking)
    (hallowed : allowed (w.uploader.pendingUtf8 stream) (bytesOf stream w.waiting))
    {upload : LogUpload} (htext : upload.text = w.uploader.pushPending.text) :
    ∃ pieces' last', Decoded allowed stream pieces' last' { w with
      uploader := { w.uploader with
        upload, pendingUtf8 := fun _ => [], deadline := none, phase := .receiving }
      flushes := w.flushes ++ [⟨w.received, w.waiting⟩] } := by
  obtain ⟨hbefore, hheld, hone⟩ := hd.running (.inr hphase)
  have hsub : ∀ flush ∈ w.flushes, flush ∈ w.flushes ++ [⟨w.received, w.waiting⟩] :=
    fun flush hflush => List.mem_append_left _ hflush
  rw [hd.text_pushPending (.inr hphase)] at htext
  by_cases hopen : (between.run last).2.held = []
  · -- no character is begun, and the piece goes on
    refine ⟨pieces, last, hd.cut.mono hsub, hd.received, fun _ => ⟨?_, hopen.symm, fun _ _ => rfl⟩,
      nofun⟩
    have hfinish := finish_of_held_eq_nil hopen
    show upload.text = _
    rw [htext, decodedText_append, decodedText_singleton, decodeLossy_eq_run, hfinish]
    exact congrArg _ (List.append_nil _)
  · refine ⟨pieces ++ [last], [], .cut (hd.cut.mono hsub) (List.mem_append_right _ (List.mem_singleton_self _)) ?_ ?_ ?_,
      ?_, fun _ => ⟨?_, rfl, fun _ _ => rfl⟩, nofun⟩
    · rw [hd.received, List.flatten_append, List.flatten_singleton]
    · rw [openEnd_eq_held]
      exact hopen
    · rw [openEnd_eq_held, ← hheld]
      exact hallowed
    · rw [List.append_nil, List.flatten_append, List.flatten_singleton]
      exact hd.received
    · exact htext.trans (List.append_nil _).symm

/-- A step decodes what it receives, and cuts where a deadline does. -/
theorem act (hd : w.Decoded allowed stream pieces last) (h : w.Inv capacity step first)
    (ha : outside.Accepts) (action : Action) (hact : w.act outside policy action = some w')
    (hone : ∀ r ∈ w'.sent, r.1 = stream)
    (hallowed : ∀ now, action = .check now → w.uploader.phase = .checking →
      w.uploader.deadline.due now = true →
        allowed (w.uploader.pendingUtf8 stream) (bytesOf stream w.waiting)) :
    ∃ pieces' last', w'.Decoded allowed stream pieces' last' := by
  cases action with
  | send stream' bytes =>
    obtain ⟨-, spool', rfl, -⟩ := h.queued.send hact
    exact ⟨pieces, last, hd.cut, hd.received, hd.running, hd.finished⟩
  | close stream' =>
    obtain ⟨-, hclose⟩ := Option.ite_none_right_eq_some.mp hact
    cases hclose
    exact ⟨pieces, last, hd.cut, hd.received, hd.running, hd.finished⟩
  | receive expired now =>
    obtain ⟨hphase, hqueued, hcases⟩ := h.queued.receive hact
    have hupload := Uploader.upload_of_phase h.uploader (.inl hphase)
    rcases hcases with ⟨stream', bytes, rest, spool', hwaiting, -, rfl⟩ | ⟨-, -, rfl⟩ | ⟨-, -, rfl⟩
    · have hstream : stream' = stream := hone (stream', bytes) (by
        show (stream', bytes) ∈ w.sent
        rw [h.queued.sent, hwaiting]
        exact List.mem_append_right _ List.mem_cons_self)
      subst hstream
      exact ⟨_, _, hd.receiveChunk hupload ha hphase⟩
    · have htext := hd.text_pushPending (.inl hphase)
      rcases Uploader.conclude_cases hupload ha policy w.locallyDiscarded with
        ⟨upload, summary, hconclude, -, hsame, -⟩ | ⟨upload, error, hconclude, -⟩
      · rw [hconclude]
        exact ⟨pieces, last, hd.cut, hd.received, (by rintro (hp | hp) <;> cases hp),
          fun _ _ => hsame.trans htext⟩
      · rw [hconclude]
        exact ⟨pieces, last, hd.cut, hd.received, (by rintro (hp | hp) <;> cases hp), nofun⟩
    · exact ⟨pieces, last, hd.cut, hd.received, fun _ => hd.running (.inl hphase), nofun⟩
  | check now =>
    obtain ⟨hphase, ⟨-, rfl⟩ | ⟨hdue, ⟨upload, rfl, -, htext⟩ | ⟨upload, error, rfl, -⟩⟩⟩ :=
      check_eq_some h.uploader ha hact
    · exact ⟨pieces, last, hd.cut, hd.received, fun _ => hd.running (.inr hphase), nofun⟩
    · exact hd.flush hphase (hallowed now rfl hphase hdue) htext
    · exact ⟨pieces, last, hd.cut.mono fun flush hflush => List.mem_append_left _ hflush,
        hd.received, (by rintro (hp | hp) <;> cases hp), nofun⟩

end Decoded

end World

end ScopeVcs.Runner

import ScopeVcs.Runner.Capture

/-! # The spool delivers what was sent

In every run the spool holds the reads that were sent and not taken out, in order; `recv_timeout` gives
the first of them, and the end once the readers are gone and nothing is left. The chunks the sink is
given are numbered one by one.
-/

namespace ScopeVcs.Runner

open Utf8

namespace World

variable {outside : Outside} {policy : UploadPolicy} {capacity step first : ℕ} {w w' : World}
  {stream : OutputStream} {bytes : Bytes}

/-! ## Reads in the spool -/

/-- Reads as they are in the file. -/
def recordBytes (records : List Record) : Bytes := records.flatMap fun r => record r.1 r.2

/-- How many readers are left. -/
def readersOf (reading : OutputStream → Bool) : ℕ :=
  (if reading .stdout then 1 else 0) + if reading .stderr then 1 else 0

/-- The spool holds the reads that were sent and not taken out. -/
structure Queued (capacity : ℕ) (w : World) : Prop where
  capacity_eq : w.spool.capacity = capacity
  wellFormed : w.spool.WellFormed
  unfailed : w.spool.failure = none
  kept : w.spool.discarding = false
  readers : w.spool.readers = readersOf w.reading
  sent : w.sent = w.received ++ w.waiting
  contents : w.spool.contents = recordBytes w.waiting
  reads : ∀ r ∈ w.sent, r.2.length ≤ LOG_READ_BYTES

theorem readersOf_eq_zero {reading : OutputStream → Bool} :
    readersOf reading = 0 ↔ ∀ stream, reading stream = false := by
  unfold readersOf
  constructor
  · intro h stream
    by_contra hne
    rw [Bool.not_eq_false] at hne
    cases stream with
    | stdout => rw [if_pos hne] at h; omega
    | stderr => rw [if_pos hne] at h; omega
  · intro h
    simp only [h, Bool.false_eq_true, if_false]

theorem readersOf_update {reading : OutputStream → Bool} (h : reading stream = true) :
    readersOf (Function.update reading stream false) = readersOf reading - 1 := by
  unfold readersOf
  cases stream with
  | stdout =>
    rw [Function.update_self, Function.update_of_ne (by decide), h]
    simp
  | stderr =>
    rw [Function.update_self, Function.update_of_ne (by decide), h]
    simp

theorem used_eq_zero {spool : LogSpool} (h : spool.contents = []) : spool.used = 0 := by
  have hlength := congrArg List.length h
  rwa [LogSpool.contents, Bytes.length_window] at hlength

namespace Queued

theorem start (capacity step first : ℕ) :
    (World.start capacity step first false).Queued capacity where
  capacity_eq := rfl
  wellFormed := LogSpool.wellFormed_new capacity 2
  unfailed := rfl
  kept := rfl
  readers := rfl
  sent := rfl
  contents := rfl
  reads := nofun

/-- A read is taken into the spool behind the others, or waits for room. -/
theorem send_cases (h : w.Queued capacity) (stream : OutputStream)
    (hlength : HEADER_BYTES + bytes.length ≤ capacity) :
    (capacity - w.spool.used < HEADER_BYTES + bytes.length ∧
        w.spool.send (.chunk stream bytes) false = .waits) ∨
      ∃ spool', w.spool.send (.chunk stream bytes) false = .returned true spool' ∧
        spool'.WellFormed ∧ spool'.contents = w.spool.contents ++ record stream bytes ∧
        spool'.capacity = w.spool.capacity ∧ spool'.readers = w.spool.readers ∧
        spool'.failure = w.spool.failure ∧ spool'.discarding = w.spool.discarding := by
  rw [← h.capacity_eq] at hlength ⊢
  exact LogSpool.send_eq h.wellFormed h.kept h.unfailed hlength

/-- The first read that was not taken out is next. -/
theorem recv_first (h : w.Queued capacity) {rest : List Record}
    (hwaiting : w.waiting = (stream, bytes) :: rest) (expired : Bool) :
    ∃ spool', w.spool.recvTimeout expired = some (.ok (.chunk stream bytes), spool') ∧
      spool'.WellFormed ∧ spool'.contents = recordBytes rest ∧
      spool'.capacity = w.spool.capacity ∧ spool'.readers = w.spool.readers ∧
      spool'.failure = w.spool.failure ∧ spool'.discarding = w.spool.discarding := by
  have hmem : (stream, bytes) ∈ w.sent := by
    rw [h.sent, hwaiting]
    exact List.mem_append_right _ List.mem_cons_self
  have hcontents : w.spool.contents = record stream bytes ++ recordBytes rest := by
    rw [h.contents, hwaiting, recordBytes, List.flatMap_cons]
    rfl
  have hused : 0 < w.spool.used := by
    have hlength := congrArg List.length hcontents
    rw [LogSpool.contents, Bytes.length_window, List.length_append, length_record] at hlength
    rw [hlength]
    exact Nat.add_pos_left (Nat.add_pos_left (by decide) _) _
  obtain ⟨spool', hread, hformed, hrest, -, hframe⟩ :=
    LogSpool.readRecord_eq h.wellFormed (h.reads _ hmem) hcontents
  refine ⟨spool', ?_, hformed, hrest, hframe⟩
  rw [LogSpool.recvTimeout, if_pos hused, hread]

/-- When every read was taken out, what is left to say is whether there will be more. -/
theorem recv_empty (h : w.Queued capacity) (hwaiting : w.waiting = []) (expired : Bool) :
    w.spool.recvTimeout expired =
      if w.spool.readers = 0 then some (.error .disconnected, w.spool)
      else if expired then some (.error .timeout, w.spool) else none := by
  have hused : ¬0 < w.spool.used := by
    have hcontents := h.contents
    rw [hwaiting] at hcontents
    rw [used_eq_zero hcontents]
    exact Nat.lt_irrefl 0
  unfold LogSpool.recvTimeout
  rw [if_neg hused, h.unfailed]

/-! ### What the steps do -/

/-- A read that is sent joins those that wait. -/
theorem send (h : w.Queued capacity) (hact : w.send stream bytes = some w') :
    w.reading stream = true ∧ ∃ spool', w' = { w with spool := spool', sent := w.sent ++ [(stream, bytes)] } ∧
      w'.Queued capacity ∧ w'.waiting = w.waiting ++ [(stream, bytes)] := by
  unfold World.send at hact
  split_ifs at hact with hread
  obtain ⟨hreading, -, hlength⟩ := hread
  rcases Nat.lt_or_ge capacity (HEADER_BYTES + bytes.length) with hlong | hfits
  · rw [LogSpool.send_panics h.kept (h.capacity_eq.trans_lt hlong)] at hact
    cases hact
  rcases h.send_cases stream hfits with ⟨-, hwaits⟩ |
      ⟨spool', hsent, hformed, hcontents, hcapacity, hreaders, hfailure, hdiscarding⟩
  · rw [hwaits] at hact
    cases hact
  rw [hsent] at hact
  cases hact
  have hwaiting : (w.sent ++ [(stream, bytes)]).drop w.received.length =
      w.waiting ++ [(stream, bytes)] := by
    have hle : w.received.length ≤ w.sent.length := by
      rw [h.sent, List.length_append]
      exact Nat.le_add_right _ _
    rw [List.drop_append_of_le_length hle]
    rfl
  refine ⟨hreading, spool', rfl, ⟨hcapacity.trans h.capacity_eq, hformed, hfailure.trans h.unfailed,
    hdiscarding.trans h.kept, hreaders.trans h.readers, ?_, ?_, ?_⟩, hwaiting⟩
  · show w.sent ++ _ = w.received ++ (w.sent ++ _).drop w.received.length
    rw [hwaiting, ← List.append_assoc, ← h.sent]
  · show spool'.contents = recordBytes ((w.sent ++ _).drop w.received.length)
    rw [hwaiting, hcontents, h.contents, recordBytes, recordBytes, List.flatMap_append,
      List.flatMap_singleton]
  · intro r hr
    rcases List.mem_append.mp hr with hold | hnew
    · exact h.reads r hold
    · rw [List.mem_singleton.mp hnew]
      exact hlength

theorem close (h : w.Queued capacity) (hreading : w.reading stream = true) :
    (w.closeReader stream).Queued capacity where
  capacity_eq := h.capacity_eq
  wellFormed := ⟨h.wellFormed.file_length, h.wellFormed.used_le, h.wellFormed.readAt_lt,
    h.wellFormed.writeAt_eq⟩
  unfailed := h.unfailed
  kept := h.kept
  readers := by
    show w.spool.readers - 1 = readersOf (Function.update w.reading stream false)
    rw [readersOf_update hreading, h.readers]
  sent := h.sent
  contents := h.contents
  reads := h.reads

/-- The uploader takes out the first read, sees the end, or has waited in vain. -/
theorem receive (h : w.Queued capacity) {expired : Bool} {now : ℕ}
    (hact : w.receive outside policy expired now = some w') :
    w.uploader.phase = .receiving ∧ w'.Queued capacity ∧
      ((∃ stream bytes rest spool', w.waiting = (stream, bytes) :: rest ∧ w'.waiting = rest ∧
          w' = { w with
            spool := spool'
            uploader := w.uploader.receiveChunk outside policy stream bytes now
            received := w.received ++ [(stream, bytes)] }) ∨
        (w.waiting = [] ∧ (∀ stream, w.reading stream = false) ∧
          w' = { w with uploader := w.uploader.conclude outside policy w.locallyDiscarded }) ∨
        (w.waiting = [] ∧ (¬∀ stream, w.reading stream = false) ∧
          w' = { w with uploader := { w.uploader with phase := .checking } })) := by
  unfold World.receive at hact
  split_ifs at hact with hphase
  refine ⟨hphase, ?_⟩
  cases hwaiting : w.waiting with
  | nil =>
    rw [h.recv_empty hwaiting expired] at hact
    have hsame : ∀ uploader, ({ w with uploader } : World).Queued capacity := fun uploader =>
      ⟨h.capacity_eq, h.wellFormed, h.unfailed, h.kept, h.readers, h.sent, h.contents, h.reads⟩
    have hreceived : ∀ uploader : Uploader,
        { w with spool := w.spool, uploader, received := w.received ++ [] } =
          ({ w with uploader } : World) := fun uploader => by rw [List.append_nil]
    split_ifs at hact with hreaders hexpired
    · rw [Option.map_some, Option.some.injEq] at hact
      rw [h.readers, readersOf_eq_zero] at hreaders
      have hend := hact.symm.trans (hreceived _)
      exact ⟨hend ▸ hsame _, .inr (.inl ⟨rfl, hreaders, hend⟩)⟩
    · rw [Option.map_some, Option.some.injEq] at hact
      rw [h.readers, readersOf_eq_zero] at hreaders
      have hend := hact.symm.trans (hreceived _)
      exact ⟨hend ▸ hsame _, .inr (.inr ⟨rfl, hreaders, hend⟩)⟩
    · cases hact
  | cons r rest =>
    obtain ⟨stream, bytes⟩ := r
    obtain ⟨spool', hrecv, hformed, hcontents, hcapacity, hreaders, hfailure, hdiscarding⟩ :=
      h.recv_first hwaiting expired
    rw [hrecv, Option.map_some, Option.some.injEq] at hact
    subst hact
    dsimp only [recordsOf, Uploader.receive]
    have hrest : w.sent.drop (w.received ++ [(stream, bytes)]).length = rest := by
      have htail : w.sent.drop (w.received.length + 1) = w.waiting.tail := by
        rw [World.waiting, List.tail_drop]
      rw [List.length_append, List.length_singleton, htail, hwaiting, List.tail_cons]
    refine ⟨⟨hcapacity.trans h.capacity_eq, hformed, hfailure.trans h.unfailed,
      hdiscarding.trans h.kept, hreaders.trans h.readers, ?_, ?_, h.reads⟩,
      .inl ⟨stream, bytes, rest, spool', rfl, hrest, rfl⟩⟩
    · show w.sent = (w.received ++ [(stream, bytes)]) ++ w.sent.drop _
      rw [hrest, List.append_assoc, List.singleton_append, ← hwaiting]
      exact h.sent
    · show spool'.contents = recordBytes (w.sent.drop _)
      rw [hrest, hcontents]

end Queued

end World

/-! ## The uploader -/

namespace Uploader

variable {outside : Outside} {policy : UploadPolicy} {step first : ℕ} {uploader : Uploader}

/-- The sink was given numbered chunks. Only the numbers can run out. -/
structure Sound (step first : ℕ) (uploader : Uploader) : Prop where
  kept : uploader.discarding = false
  upload : (∀ error, uploader.phase ≠ .failed error) → uploader.upload.Sound step first
  exhausted : ∀ error, uploader.phase = .failed error → uploader.upload.Exhausted step first
  ended : ∀ summary, uploader.phase = .finished summary →
    summary.logsTruncated = false ∧ uploader.upload.pending.bytes = []

theorem sound_of_failed {error : String} (hkept : uploader.discarding = false)
    (hphase : uploader.phase = .failed error) (h : uploader.upload.Exhausted step first) :
    uploader.Sound step first where
  kept := hkept
  upload := fun hnot => absurd hphase (hnot error)
  exhausted := fun _ _ => h
  ended := fun summary hfinished => by rw [hphase] at hfinished; cases hfinished

theorem sound_of_upload (hkept : uploader.discarding = false)
    (hphase : uploader.phase = .receiving ∨ uploader.phase = .checking)
    (h : uploader.upload.Sound step first) : uploader.Sound step first where
  kept := hkept
  upload := fun _ => h
  exhausted := fun error hfailed => by rw [hfailed] at hphase; rcases hphase with hp | hp <;> cases hp
  ended := fun summary hfinished => by
    rw [hfinished] at hphase
    rcases hphase with hp | hp <;> cases hp

theorem upload_of_phase (h : uploader.Sound step first)
    (hphase : uploader.phase = .receiving ∨ uploader.phase = .checking) :
    uploader.upload.Sound step first :=
  h.upload fun error hfailed => by rw [hfailed] at hphase; rcases hphase with hp | hp <;> cases hp

theorem sound_pushPending (h : uploader.upload.Sound step first) :
    uploader.pushPending.Sound step first :=
  (h.pushStr _).pushStr _

theorem text_pushPending (uploader : Uploader) :
    uploader.pushPending.text = uploader.upload.text ++
      ((decodeLossy (uploader.pendingUtf8 .stdout)).bytes ++
        (decodeLossy (uploader.pendingUtf8 .stderr)).bytes) := by
  rw [pushPending, LogUpload.text_pushStr, LogUpload.text_pushStr, List.append_assoc]

/-- A chunk of the spool is decoded behind what was left over. -/
theorem receiveChunk_cases (hs : uploader.upload.Sound step first) (h : outside.Accepts)
    (policy : UploadPolicy) (stream : OutputStream) (bytes : Bytes) (now : ℕ) :
    (∃ upload deadline, uploader.receiveChunk outside policy stream bytes now =
        { uploader with
          upload
          pendingUtf8 := Function.update uploader.pendingUtf8 stream
            (decodeUtf8Chunk (uploader.pendingUtf8 stream) bytes).2
          deadline, phase := .checking } ∧
      upload.Sound step first ∧ upload.text = uploader.upload.text ++
        (decodeUtf8Chunk (uploader.pendingUtf8 stream) bytes).1.bytes) ∨
    ∃ upload pendingUtf8 deadline error, uploader.receiveChunk outside policy stream bytes now =
        { uploader with upload, pendingUtf8, deadline, phase := .failed error } ∧
      upload.Exhausted step first := by
  have hpushed := hs.pushStr (decodeUtf8Chunk (uploader.pendingUtf8 stream) bytes).1
  rcases hpushed.flush h policy false with ⟨hok, hsound, htext, -⟩ | ⟨error, herror, hexhausted⟩
  · left
    unfold receiveChunk
    simp only [hok]
    exact ⟨_, _, rfl, hsound, htext.trans (LogUpload.text_pushStr _ _)⟩
  · right
    unfold receiveChunk
    simp only [herror]
    exact ⟨_, _, _, _, rfl, hexhausted⟩

theorem conclude_cases (hs : uploader.upload.Sound step first) (h : outside.Accepts)
    (policy : UploadPolicy) (locallyDiscarded : Bool) :
    (∃ upload summary, uploader.conclude outside policy locallyDiscarded =
        { uploader with upload, phase := .finished summary } ∧
      upload.Sound step first ∧ upload.text = uploader.pushPending.text ∧
      upload.pending.bytes = [] ∧ summary.logsTruncated = locallyDiscarded) ∨
    ∃ upload error, uploader.conclude outside policy locallyDiscarded =
        { uploader with upload, phase := .failed error } ∧ upload.Exhausted step first := by
  rcases (sound_pushPending hs).flush h policy true with
    ⟨hok, hsound, htext, hempty⟩ | ⟨error, herror, hexhausted⟩
  · left
    unfold conclude
    simp only [hok]
    refine ⟨_, _, rfl, hsound, htext, hempty rfl, ?_⟩
    rw [hsound.kept, Bool.false_or]
  · right
    unfold conclude
    simp only [herror]
    exact ⟨_, _, rfl, hexhausted⟩

/-- At the deadline nothing keeps waiting. -/
theorem check_cases (hs : uploader.upload.Sound step first) (h : outside.Accepts)
    (policy : UploadPolicy) (now : ℕ) :
    (uploader.deadline.due now = false ∧
      uploader.check outside policy now = { uploader with phase := .receiving }) ∨
    uploader.deadline.due now = true ∧
      ((∃ upload, uploader.check outside policy now =
          { uploader with upload, pendingUtf8 := fun _ => [], deadline := none, phase := .receiving } ∧
        upload.Sound step first ∧ upload.text = uploader.pushPending.text) ∨
      ∃ upload error, uploader.check outside policy now =
          { uploader with upload, pendingUtf8 := fun _ => [], phase := .failed error } ∧
        upload.Exhausted step first) := by
  cases hdue : uploader.deadline.due now with
  | false =>
    refine .inl ⟨rfl, ?_⟩
    rw [check, hdue]
    rfl
  | true =>
    refine .inr ⟨rfl, ?_⟩
    rcases (sound_pushPending hs).flush h policy true with
      ⟨hok, hsound, htext, -⟩ | ⟨error, herror, hexhausted⟩
    · left
      unfold check
      simp only [hdue, if_true, hok]
      exact ⟨_, rfl, hsound, htext⟩
    · right
      unfold check
      simp only [hdue, if_true, herror]
      exact ⟨_, _, rfl, hexhausted⟩

end Uploader

end ScopeVcs.Runner

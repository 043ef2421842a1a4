import ScopeVcs.Runner.StreamText

/-! # The output of a step arrives

What holds of every run of a capture whose deadlines tear no character: the spool loses no read and
keeps their order, the uploader comes to the end, the chunks are numbered one by one, and the text of a
stream that writes alone is that of its bytes. A deadline that is due between two reads tears a
character although both are in the spool.
-/

namespace ScopeVcs.Runner

open Utf8

/-- The steps of the uploader. -/
def Action.isUploader : Action → Bool
  | .send _ _ => false
  | .close _ => false
  | .receive _ _ => true
  | .check _ => true

/-- The uploader has returned. -/
def Phase.Ended (phase : Phase) : Prop :=
  (∃ summary, phase = .finished summary) ∨ ∃ error, phase = .failed error

/-- Steps of the uploader lead to its end. -/
def World.ComesToEnd (outside : Outside) (policy : UploadPolicy) (w : World) : Prop :=
  ∃ (actions : List Action) (w' : World), (∀ action ∈ actions, action.isUploader = true) ∧
    actions.foldlM (World.act outside policy) w = some w' ∧ w'.uploader.phase.Ended

/-- What is right about a capture; `allowed` says which characters a deadline may replace. -/
structure World.Delivered (outside : Outside) (policy : UploadPolicy)
    (allowed : Bytes → Bytes → Prop) (capacity step first : ℕ) (w : World) : Prop where
  queue : w.sent = w.received ++ w.waiting ∧ w.spool.contents = World.recordBytes w.waiting
  sends : ∀ stream bytes, HEADER_BYTES + bytes.length ≤ capacity →
    (capacity - w.spool.used < HEADER_BYTES + bytes.length ∧
        w.spool.send (.chunk stream bytes) false = .waits) ∨
      ∃ spool', w.spool.send (.chunk stream bytes) false = .returned true spool' ∧
        spool'.contents = w.spool.contents ++ record stream bytes
  takes : ∀ stream bytes rest, w.waiting = (stream, bytes) :: rest → ∀ expired, ∃ spool',
    w.spool.recvTimeout expired = some (.ok (.chunk stream bytes), spool') ∧
      spool'.contents = World.recordBytes rest
  ends : w.waiting = [] → ∀ expired,
    ((∀ stream, w.reading stream = false) →
      w.spool.recvTimeout expired = some (.error .disconnected, w.spool)) ∧
    ((¬∀ stream, w.reading stream = false) →
      w.spool.recvTimeout expired = if expired then some (.error .timeout, w.spool) else none)
  reports : (∀ stream, w.reading stream = false) → w.ComesToEnd outside policy
  uploads : ∃ chunks, (∀ chunk ∈ chunks, Uploadable chunk) ∧
    w.uploader.upload.trace.appends = numbered step first chunks ∧
      ∀ error, w.uploader.phase = .failed error → first + chunks.length = U64.maxU64 + 1
  whole : ∀ summary, w.uploader.phase = .finished summary →
    w.received = w.sent ∧ (∀ stream, w.reading stream = false) ∧ summary.logsTruncated = false
  text : ∀ summary stream, w.uploader.phase = .finished summary → (∀ r ∈ w.sent, r.1 = stream) →
    ∃ pieces last, CutAt allowed stream w.flushes pieces ∧
      pieces.flatten ++ last = World.bytesOf stream w.sent ∧
      w.uploaded = decodedText (pieces ++ [last])

namespace World

variable {allowed : Bytes → Bytes → Prop} {outside : Outside} {policy : UploadPolicy}
  {capacity step first : ℕ} {w w' : World}

/-! ## The end -/

theorem Inv.check_isSome (h : w.Inv capacity step first) (policy : UploadPolicy)
    (ha : outside.Accepts)
    (hphase : w.uploader.phase = .checking) (now : ℕ) :
    ∃ w', w.check outside policy now = some w' ∧ w'.waiting = w.waiting ∧ w'.reading = w.reading ∧
      (w'.uploader.phase = .receiving ∨ w'.uploader.phase.Ended) := by
  obtain ⟨w', hact⟩ : ∃ w', w.check outside policy now = some w' := by
    rw [World.check, if_pos hphase]
    dsimp only
    split
    · exact ⟨_, rfl⟩
    · exact ⟨_, rfl⟩
  refine ⟨w', hact, ?_⟩
  obtain ⟨-, ⟨-, rfl⟩ | ⟨-, ⟨upload, rfl, -⟩ | ⟨upload, error, rfl, -⟩⟩⟩ :=
    check_eq_some h.uploader ha hact
  · exact ⟨rfl, rfl, .inl rfl⟩
  · exact ⟨rfl, rfl, .inl rfl⟩
  · exact ⟨rfl, rfl, .inr (.inr ⟨error, rfl⟩)⟩

/-- Once the readers are gone, the uploader takes a read or ends. -/
theorem Inv.receive_isSome (h : w.Inv capacity step first) (policy : UploadPolicy)
    (ha : outside.Accepts)
    (hphase : w.uploader.phase = .receiving) (hclosed : ∀ stream, w.reading stream = false)
    (now : ℕ) :
    ∃ w', w.receive outside policy true now = some w' ∧ w'.reading = w.reading ∧
      (w'.uploader.phase.Ended ∨
        w'.uploader.phase = .checking ∧ w'.waiting.length < w.waiting.length) := by
  obtain ⟨w', hact⟩ : ∃ w', w.receive outside policy true now = some w' := by
    rw [World.receive, if_pos hphase]
    cases hwaiting : w.waiting with
    | nil =>
      rw [h.queued.recv_empty hwaiting]
      by_cases hreaders : w.spool.readers = 0
      · rw [if_pos hreaders]
        exact ⟨_, rfl⟩
      · rw [if_neg hreaders, if_pos rfl]
        exact ⟨_, rfl⟩
    | cons r rest =>
      obtain ⟨spool', hrecv, -⟩ := h.queued.recv_first hwaiting true
      rw [hrecv]
      exact ⟨_, rfl⟩
  refine ⟨w', hact, ?_⟩
  have hupload := Uploader.upload_of_phase h.uploader (.inl hphase)
  obtain ⟨-, -, hcases⟩ := h.queued.receive hact
  rcases hcases with ⟨stream, bytes, rest, spool', hwaiting, hrest, rfl⟩ | ⟨-, -, rfl⟩ | ⟨-, hopen, -⟩
  · refine ⟨rfl, ?_⟩
    rcases Uploader.receiveChunk_cases hupload ha policy stream bytes now with
      ⟨upload, deadline, hreceive, -⟩ | ⟨upload, pendingUtf8, deadline, error, hreceive, -⟩
    · right
      rw [hrest, hwaiting, hreceive]
      exact ⟨rfl, Nat.lt_succ_self _⟩
    · left
      rw [hreceive]
      exact .inr ⟨error, rfl⟩
  · refine ⟨rfl, .inl ?_⟩
    rcases Uploader.conclude_cases hupload ha policy w.locallyDiscarded with
      ⟨upload, summary, hconclude, -⟩ | ⟨upload, error, hconclude, -⟩
    · rw [hconclude]
      exact .inl ⟨summary, rfl⟩
    · rw [hconclude]
      exact .inr ⟨error, rfl⟩
  · exact absurd hclosed hopen

theorem ComesToEnd.of_ended (h : w.uploader.phase.Ended) : w.ComesToEnd outside policy :=
  ⟨[], w, nofun, rfl, h⟩

theorem ComesToEnd.of_act (action : Action) (haction : action.isUploader = true)
    (hact : w.act outside policy action = some w') (h : w'.ComesToEnd outside policy) :
    w.ComesToEnd outside policy := by
  obtain ⟨actions, w'', hactions, hrun, hended⟩ := h
  refine ⟨action :: actions, w'', List.forall_mem_cons.mpr ⟨haction, hactions⟩, ?_, hended⟩
  rw [List.foldlM_cons, hact]
  exact hrun

/-- Once the readers are gone, the uploader comes to its end: a turn of its loop takes a read out. -/
theorem Inv.comesToEnd (h : w.Inv capacity step first) (ha : outside.Accepts)
    (policy : UploadPolicy) (hclosed : ∀ stream, w.reading stream = false) :
    w.ComesToEnd outside policy := by
  induction hlength : w.waiting.length using Nat.strong_induction_on generalizing w with
  | _ length ih =>
    subst hlength
    have hreceiving : ∀ {w' : World}, w'.Inv capacity step first → w'.waiting = w.waiting →
        w'.reading = w.reading → w'.uploader.phase = .receiving →
        w'.ComesToEnd outside policy := by
      intro w' h' hwaiting hreading hphase
      obtain ⟨w₁, hact, hreading₁, hended | ⟨-, hshorter⟩⟩ :=
        h'.receive_isSome policy ha hphase (by rw [hreading]; exact hclosed) 0
      · exact .of_act (.receive true 0) rfl hact (.of_ended hended)
      · have hinv : w₁.Inv capacity step first := h'.act ha (.receive true 0) hact
        have hclosed₁ : ∀ stream, w₁.reading stream = false := by
          rw [hreading₁, hreading]
          exact hclosed
        rw [hwaiting] at hshorter
        exact .of_act (.receive true 0) rfl hact (ih _ hshorter hinv hclosed₁ rfl)
    cases hphase : w.uploader.phase with
    | receiving => exact hreceiving h rfl rfl hphase
    | checking =>
      obtain ⟨w₁, hact, hwaiting, hreading, hafter | hended⟩ := h.check_isSome policy ha hphase 0
      · have hinv : w₁.Inv capacity step first := h.act ha (.check 0) hact
        exact .of_act (.check 0) rfl hact (hreceiving hinv hwaiting hreading hafter)
      · exact .of_act (.check 0) rfl hact (.of_ended hended)
    | finished summary => exact .of_ended (.inl ⟨summary, hphase⟩)
    | failed error => exact .of_ended (.inr ⟨error, hphase⟩)

/-! ## Runs -/

/-- In a state that is right, the texts are those of a stream cut where deadlines were allowed to. -/
theorem Inv.delivered (h : w.Inv capacity step first) (ha : outside.Accepts)
    (policy : UploadPolicy)
    (hdecoded : ∀ stream, (∀ r ∈ w.sent, r.1 = stream) →
      ∃ pieces last, w.Decoded allowed stream pieces last) :
    w.Delivered outside policy allowed capacity step first where
  queue := ⟨h.queued.sent, h.queued.contents⟩
  sends stream bytes hfits := by
    rcases h.queued.send_cases stream hfits with hwaits | ⟨spool', hsent, -, hcontents, -⟩
    · exact .inl hwaits
    · exact .inr ⟨spool', hsent, hcontents⟩
  takes stream bytes rest hwaiting expired := by
    obtain ⟨spool', hrecv, -, hcontents, -⟩ := h.queued.recv_first hwaiting expired
    exact ⟨spool', hrecv, hcontents⟩
  ends hwaiting expired := by
    have hreaders := h.queued.readers
    rw [h.queued.recv_empty hwaiting expired]
    constructor
    · intro hclosed
      rw [if_pos (hreaders.trans (readersOf_eq_zero.mpr hclosed))]
    · intro hopen
      rw [if_neg fun hzero => hopen (readersOf_eq_zero.mp (hreaders.symm.trans hzero))]
  reports hclosed := h.comesToEnd ha policy hclosed
  uploads := by
    by_cases hfailed : ∃ error, w.uploader.phase = .failed error
    · obtain ⟨error, hphase⟩ := hfailed
      obtain ⟨chunks, hchunks, happends, hlast⟩ := h.uploader.exhausted error hphase
      exact ⟨chunks, hchunks, happends, fun _ _ => hlast⟩
    · have hrunning : ∀ error, w.uploader.phase ≠ .failed error := fun error hphase =>
        hfailed ⟨error, hphase⟩
      obtain ⟨chunks, hchunks, happends, -⟩ := (h.uploader.upload hrunning).chunks
      exact ⟨chunks, hchunks, happends, fun error hphase => absurd hphase (hrunning error)⟩
  whole summary hphase := by
    obtain ⟨hwaiting, hclosed⟩ := h.ended summary hphase
    refine ⟨?_, hclosed, (h.uploader.ended summary hphase).1⟩
    rw [h.queued.sent, hwaiting, List.append_nil]
  text summary stream hphase hone := by
    obtain ⟨pieces, last, hd⟩ := hdecoded stream hone
    have hsent : w.sent = w.received := by
      rw [h.queued.sent, (h.ended summary hphase).1, List.append_nil]
    have hempty := (h.uploader.ended summary hphase).2
    have htext : w.uploaded = w.uploader.upload.text := by
      rw [LogUpload.text, hempty, List.append_nil]
      rfl
    refine ⟨pieces, last, hd.cut, ?_, htext.trans (hd.finished summary hphase)⟩
    rw [hsent, hd.received]

/-- What was sent stays sent. -/
theorem Inv.sent_prefix (h : w.Inv capacity step first) (ha : outside.Accepts) {action : Action}
    (hact : w.act outside policy action = some w') : w.sent <+: w'.sent := by
  cases action with
  | send stream bytes =>
    obtain ⟨-, spool', rfl, -⟩ := h.queued.send hact
    exact List.prefix_append _ _
  | close stream =>
    obtain ⟨-, hclose⟩ := Option.ite_none_right_eq_some.mp hact
    cases hclose
    exact List.prefix_rfl
  | receive expired now =>
    obtain ⟨-, -, ⟨stream, bytes, rest, spool', -, -, rfl⟩ | ⟨-, -, rfl⟩ | ⟨-, -, rfl⟩⟩ :=
      h.queued.receive hact
    · exact List.prefix_rfl
    · exact List.prefix_rfl
    · exact List.prefix_rfl
  | check now =>
    obtain ⟨-, ⟨-, rfl⟩ | ⟨-, ⟨upload, rfl, -⟩ | ⟨upload, error, rfl, -⟩⟩⟩ :=
      check_eq_some h.uploader ha hact
    · exact List.prefix_rfl
    · exact List.prefix_rfl
    · exact List.prefix_rfl

/-- A deadline that is due meets no character it may not replace. -/
def Spares (allowed : Bytes → Bytes → Prop) (w : World) (action : Action) : Prop :=
  ∀ now, action = .check now → w.uploader.phase = .checking →
    w.uploader.deadline.due now = true → ∀ stream,
      allowed (w.uploader.pendingUtf8 stream) (bytesOf stream w.waiting)

theorem spares_of_not_tears {action : Action} (h : ¬w.Tears action) :
    w.Spares (fun begun behind => ¬Completes begun behind) action := by
  rintro now rfl hphase hdue stream hcompletes
  exact h ⟨hphase, hdue, stream, hcompletes⟩

/-- The invariant of the runs that spare what they may not replace. -/
theorem inv_and_decoded (ha : outside.Accepts) (hfirst : first ≤ U64.maxU64)
    (hrun : Transition.Reachable (· = World.start capacity step first false)
      (fun w w' => ∃ action, w.act outside policy action = some w' ∧ w.Spares allowed action) w) :
    w.Inv capacity step first ∧ ∀ stream, (∀ r ∈ w.sent, r.1 = stream) →
      ∃ pieces last, w.Decoded allowed stream pieces last := by
  refine hrun.invariant (fun w => w.Inv capacity step first ∧ ∀ stream,
    (∀ r ∈ w.sent, r.1 = stream) → ∃ pieces last, w.Decoded allowed stream pieces last) ?_ ?_
  · rintro _ rfl
    exact ⟨.start hfirst, fun stream _ => ⟨[], [], .start allowed stream⟩⟩
  · rintro w w' - ⟨hinv, hdecoded⟩ ⟨action, hact, hspares⟩
    refine ⟨hinv.act ha action hact, fun stream hone => ?_⟩
    have hbefore : ∀ r ∈ w.sent, r.1 = stream := fun r hr =>
      hone r ((hinv.sent_prefix ha hact).subset hr)
    obtain ⟨pieces, last, hd⟩ := hdecoded stream hbefore
    exact hd.act hinv ha action hact hone fun now haction hphase hdue =>
      hspares now haction hphase hdue stream

/-- In every run the output arrives, but for characters that a deadline cuts. -/
theorem Reachable.delivered (ha : outside.Accepts) (hfirst : first ≤ U64.maxU64)
    (hrun : w.Reachable outside policy capacity step first) :
    w.Delivered outside policy (fun _ _ => True) capacity step first := by
  have hspares : Transition.Reachable (· = World.start capacity step first false)
      (fun w w' => ∃ action, w.act outside policy action = some w' ∧
        w.Spares (fun _ _ => True) action) w := by
    refine hrun.mono ?_
    rintro w w' ⟨action, hact⟩
    exact ⟨action, hact, fun _ _ _ _ _ => trivial⟩
  obtain ⟨hinv, hdecoded⟩ := inv_and_decoded ha hfirst hspares
  exact hinv.delivered ha policy hdecoded

/-- Where no deadline is due while the spool holds the rest of a character begun, the output arrives,
but for characters whose rest came behind a deadline. -/
theorem Untorn.output_arrives (ha : outside.Accepts) (hfirst : first ≤ U64.maxU64)
    (hrun : w.Untorn outside policy capacity step first) :
    w.Delivered outside policy (fun begun behind => ¬Completes begun behind)
      capacity step first := by
  have hspares : Transition.Reachable (· = World.start capacity step first false)
      (fun w w' => ∃ action, w.act outside policy action = some w' ∧
        w.Spares (fun begun behind => ¬Completes begun behind) action) w := by
    refine hrun.mono ?_
    rintro w w' ⟨action, hact, htears⟩
    exact ⟨action, hact, spares_of_not_tears htears⟩
  obtain ⟨hinv, hdecoded⟩ := inv_and_decoded ha hfirst hspares
  exact hinv.delivered ha policy hdecoded

/-! ## Two captures -/

/-- A sink that accepts what it is given. -/
def acceptingSink : Outside where
  appendLog := fun _ _ => .ok .accepted
  stopUploading := fun _ => false

theorem acceptingSink_accepts : acceptingSink.Accepts := ⟨fun _ _ => rfl, fun _ => rfl⟩

def threeAttempts : UploadPolicy := ⟨3, Nat.succ_pos 2⟩

/-- A step that is no look at the clock behind a deadline. -/
def actInTime (outside : Outside) (policy : UploadPolicy) (w : World) (action : Action) :
    Option World :=
  match action with
  | .check now => if w.uploader.deadline.due now then none else w.act outside policy (.check now)
  | action => w.act outside policy action

theorem actInTime_eq_some {action : Action} (h : w.actInTime outside policy action = some w') :
    w.act outside policy action = some w' ∧ ¬w.Tears action := by
  cases action with
  | send stream bytes => exact ⟨h, not_false⟩
  | close stream => exact ⟨h, not_false⟩
  | receive expired now => exact ⟨h, not_false⟩
  | check now =>
    obtain ⟨hdue, hact⟩ := Option.ite_none_left_eq_some.mp h
    refine ⟨hact, ?_⟩
    rintro ⟨-, htears, -⟩
    exact hdue htears

/-- Two reads that cut a character, in time for its deadline. -/
theorem Untorn.in_time_arrives : ∃ w : World,
    w.uploader.phase = .finished ⟨1, false⟩ ∧ w.uploaded = [0xC3, 0xA9] ∧
      w.Delivered acceptingSink threeAttempts (fun begun behind => ¬Completes begun behind)
        64 0 0 := by
  have hrun : ([.send .stdout [0xC3], .receive false 0, .send .stdout [0xA9], .check 249,
      .receive false 249, .check 249, .close .stdout, .close .stderr, .receive false 249].foldlM
        (World.actInTime acceptingSink threeAttempts) (World.start 64 0 0 false)).map
        (fun w => (w.uploader.phase, w.uploaded)) =
      some (.finished ⟨1, false⟩, [0xC3, 0xA9]) := by
    decide +kernel
  obtain ⟨w, hfold, hw⟩ := Option.map_eq_some_iff.mp hrun
  obtain ⟨hphase, huploaded⟩ := Prod.mk.inj hw
  have huntorn : w.Untorn acceptingSink threeAttempts 64 0 0 := by
    refine Transition.Reachable.foldlM ?_ (Transition.Reachable.of_init rfl) hfold
    rintro s action t hact
    exact ⟨action, actInTime_eq_some hact⟩
  exact ⟨w, hphase, huploaded, Untorn.output_arrives acceptingSink_accepts (Nat.zero_le _) huntorn⟩

/-- A deadline is due between two reads that cut a character, and both are in the spool. -/
theorem Reachable.torn : ∃ w : World, w.Reachable acceptingSink threeAttempts 64 0 7 ∧
    w.uploader.phase = .finished ⟨9, false⟩ ∧
      w.sent = [(.stdout, [0x61]), (.stdout, [0xC3]), (.stdout, [0xA9])] ∧
      w.uploaded = [0x61, 0xEF, 0xBF, 0xBD, 0xEF, 0xBF, 0xBD] ∧
      ¬w.Delivered acceptingSink threeAttempts (fun begun behind => ¬Completes begun behind)
        64 0 7 := by
  have hrun : ([.send .stdout [0x61], .receive false 0, .check 0, .send .stdout [0xC3],
      .send .stdout [0xA9], .receive false 249, .check 250, .receive false 251, .check 251,
      .close .stdout, .close .stderr, .receive false 300].foldlM
        (World.act acceptingSink threeAttempts) (World.start 64 0 7 false)).map
        (fun w => (w.uploader.phase, w.sent, w.uploaded, w.flushes)) =
      some (.finished ⟨9, false⟩, [(.stdout, [0x61]), (.stdout, [0xC3]), (.stdout, [0xA9])],
        [0x61, 0xEF, 0xBF, 0xBD, 0xEF, 0xBF, 0xBD],
        [⟨[(.stdout, [0x61]), (.stdout, [0xC3])], [(.stdout, [0xA9])]⟩]) := by
    decide +kernel
  obtain ⟨w, hfold, hw⟩ := Option.map_eq_some_iff.mp hrun
  simp only [Prod.mk.injEq] at hw
  obtain ⟨hphase, hsent, huploaded, hflushes⟩ := hw
  have hreachable : w.Reachable acceptingSink threeAttempts 64 0 7 := by
    refine Transition.Reachable.foldlM ?_ (Transition.Reachable.of_init rfl) hfold
    rintro s action t hact
    exact ⟨action, hact⟩
  refine ⟨w, hreachable, hphase, hsent, huploaded, fun h => ?_⟩
  obtain ⟨pieces, last, hcut, hsame, htext⟩ := h.text ⟨9, false⟩ .stdout hphase (by
    rw [hsent]
    decide)
  rw [hflushes] at hcut
  rw [hsent] at hsame
  rw [huploaded] at htext
  cases hcut with
  | nil =>
    -- The texts are not those of the bytes in one piece.
    rw [List.flatten_nil, List.nil_append] at hsame
    rw [hsame] at htext
    revert htext
    decide +kernel
  | cut hbefore hflush hreceived hopen hwaiting =>
    rename_i pieces piece flush
    rw [List.mem_singleton.mp hflush] at hreceived hwaiting
    have hpiece : openEnd piece = [0xC3] := by
      have hall := openEnd_append hopen pieces.flatten
      rw [List.flatten_append, List.flatten_singleton] at hreceived
      rw [← hreceived] at hall
      rw [← hall]
      decide +kernel
    rw [hpiece] at hwaiting
    refine hwaiting ⟨[0xA9], List.prefix_rfl, ?_⟩
    exact .next (.first rfl) rfl

end World

end ScopeVcs.Runner

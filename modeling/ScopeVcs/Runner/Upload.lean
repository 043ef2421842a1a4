import ScopeVcs.Lib.U64
import ScopeVcs.Runner.Decode
import ScopeVcs.Runs.RunLog

/-! # Uploading step output

`LogUpload::flush` cuts the text that waits into chunks for the sink: at most as long as the server
takes, and behind a line when one ends near. What the sink answers, and when the uploader is told to
stop, comes from outside; the chunks it is given are recorded.
-/

namespace ScopeVcs.Runner

open Utf8

def LOG_UPLOAD_BYTES : ℕ := maxRunLogChunkBytes

def LOG_LINE_CUT_LOOKBACK_BYTES : ℕ := 4 * 1024

inductive AppendLogOutcome where
  | accepted
  | truncated
  deriving DecidableEq

inductive AppendLogError where
  | retryable (error : String)
  | fatal (error : String)
  deriving DecidableEq

def AppendLogError.intoError : AppendLogError → String
  | retryable error => error
  | fatal error => error

/-- A sink is asked at least once. -/
structure UploadPolicy where
  attempts : ℕ
  attempts_pos : 0 < attempts

/-- A chunk as the sink is given it. -/
structure Append where
  step : ℕ
  sequence : ℕ
  text : Str

/-- What the sink answers after the chunks it was given, and what `stop_uploading` holds each time it
is loaded. -/
structure Outside where
  appendLog : List Append → Append → Except AppendLogError AppendLogOutcome
  stopUploading : ℕ → Bool

/-- The chunks the sink was given, and how often the flag was loaded. -/
structure Trace where
  appends : List Append
  loads : ℕ

structure LogUpload where
  step : ℕ
  nextSequence : ℕ
  logsTruncated : Bool
  /-- How often the supervisor was told that the output is truncated. -/
  truncatedNotices : ℕ
  pending : Str
  trace : Trace

def Trace.load (outside : Outside) (trace : Trace) : Bool × Trace :=
  (outside.stopUploading trace.loads, { trace with loads := trace.loads + 1 })

def Trace.append (outside : Outside) (chunk : Append) (trace : Trace) :
    Except AppendLogError AppendLogOutcome × Trace :=
  (outside.appendLog trace.appends chunk, { trace with appends := trace.appends ++ [chunk] })

/-- The attempt that is followed by `retries` others. -/
def appendWithRetry (outside : Outside) (chunk : Append) :
    ℕ → Trace → Except String (Option AppendLogOutcome) × Trace
  | retries, trace =>
    let (stopped, trace) := trace.load outside
    if stopped then (.ok none, trace)
    else
      let (answer, trace) := trace.append outside chunk
      match answer with
      | .ok outcome => (.ok (some outcome), trace)
      | .error error =>
        let (stopped, trace) := trace.load outside
        if stopped then (.ok none, trace)
        else
          match error, retries with
          | .retryable error, retries + 1 =>
            let (stopped, trace) := trace.load outside
            if stopped then (.error error, trace)
            else appendWithRetry outside chunk retries trace
          | error, _ => (.error error.intoError, trace)

/-- Behind the last line when it ends near enough. -/
def lineCut (pending : Bytes) (size : ℕ) : ℕ :=
  let nearEnd := size - LOG_LINE_CUT_LOOKBACK_BYTES
  match rfind 0x0A (pending.take size) with
  | some lineEnd => if nearEnd ≤ lineEnd + 1 then lineEnd + 1 else size
  | none => size

/-- Where the next chunk ends. -/
def chunkEnd (pending : Bytes) : ℕ :=
  let size := floorCharBoundary pending (min pending.length LOG_UPLOAD_BYTES)
  if LOG_UPLOAD_BYTES ≤ pending.length then lineCut pending size else size

section Chunks

variable {pending : Bytes}

theorem lineCut_cases (pending : Bytes) (size : ℕ) :
    lineCut pending size = size ∨
      lineCut pending size ≤ size ∧ 0 < lineCut pending size ∧
        pending[lineCut pending size - 1]? = some 0x0A := by
  unfold lineCut
  cases hline : rfind 0x0A (pending.take size) with
  | none => exact .inl rfl
  | some lineEnd =>
    have hbyte := getElem?_rfind hline
    dsimp only
    split_ifs
    · rw [List.getElem?_take] at hbyte
      split_ifs at hbyte with hlt
      exact .inr ⟨hlt, Nat.succ_pos _, hbyte⟩
    · exact .inl rfl

/-- A chunk ends as far on as a character allows, or behind a line. -/
theorem chunkEnd_cases (pending : Bytes) :
    chunkEnd pending = floorCharBoundary pending (min pending.length LOG_UPLOAD_BYTES) ∨
      chunkEnd pending ≤ floorCharBoundary pending (min pending.length LOG_UPLOAD_BYTES) ∧
        0 < chunkEnd pending ∧ pending[chunkEnd pending - 1]? = some 0x0A := by
  unfold chunkEnd
  split_ifs
  · exact lineCut_cases pending _
  · exact .inl rfl

theorem isCharBoundary_chunkEnd (h : Valid pending) :
    isCharBoundary pending (chunkEnd pending) = true := by
  rcases chunkEnd_cases pending with hsize | ⟨-, hpos, hline⟩
  · rw [hsize]
    exact isCharBoundary_floor _ _
  · have hbehind := h.isCharBoundary_succ hline (by decide)
    rwa [Nat.sub_add_cancel hpos] at hbehind

theorem chunkEnd_le (pending : Bytes) :
    chunkEnd pending ≤ pending.length ∧ chunkEnd pending ≤ LOG_UPLOAD_BYTES := by
  have hsize := floorCharBoundary_le pending (min pending.length LOG_UPLOAD_BYTES)
  rcases chunkEnd_cases pending with hend | ⟨hend, -, -⟩ <;> omega

/-- A chunk takes something off a text. -/
theorem chunkEnd_pos (h : Valid pending) (hne : pending ≠ []) : 0 < chunkEnd pending := by
  rcases chunkEnd_cases pending with hsize | ⟨-, hpos, -⟩
  · rw [hsize]
    rcases Nat.lt_or_ge pending.length LOG_UPLOAD_BYTES with hshort | hlong
    · rw [Nat.min_eq_left hshort.le]
      have hend : isCharBoundary pending pending.length = true :=
        isCharBoundary_iff.mpr (.inr (.inl rfl))
      exact lt_of_lt_of_le (List.length_pos_iff.mpr hne) (le_floorCharBoundary hend le_rfl)
    · rw [Nat.min_eq_right hlong]
      obtain ⟨i, hi, hfour, hboundary⟩ := h.exists_isCharBoundary hne
      have hle : i ≤ LOG_UPLOAD_BYTES := hfour.trans (by decide)
      exact lt_of_lt_of_le hi (le_floorCharBoundary hboundary hle)
  · exact hpos

end Chunks

namespace LogUpload

def pushStr (upload : LogUpload) (text : Str) : LogUpload :=
  { upload with pending := upload.pending.append text }

/-- The next chunk of the text that waits. -/
def chunk (upload : LogUpload) : Str :=
  upload.pending.take (chunkEnd upload.pending.bytes) (isCharBoundary_chunkEnd upload.pending.valid)

/-- What waits behind the next chunk. -/
def rest (upload : LogUpload) : Str :=
  upload.pending.drop (chunkEnd upload.pending.bytes) (isCharBoundary_chunkEnd upload.pending.valid)

theorem rest_lt (upload : LogUpload) (h : upload.pending.bytes ≠ []) :
    upload.rest.bytes.length < upload.pending.bytes.length := by
  have hpos := chunkEnd_pos upload.pending.valid h
  have hlength := List.length_pos_iff.mpr h
  show (upload.pending.bytes.drop _).length < _
  rw [List.length_drop]
  omega

def flush (outside : Outside) (policy : UploadPolicy) (isPartial : Bool) (upload : LogUpload) :
    Except String Unit × LogUpload :=
  if upload.pending.bytes = [] then (.ok (), upload)
  else
    let (stopped, trace) :=
      if upload.logsTruncated then (true, upload.trace) else upload.trace.load outside
    if stopped then (.ok (), { upload with logsTruncated := true, pending := .empty, trace })
    else if !isPartial && upload.pending.bytes.length < LOG_UPLOAD_BYTES then
      (.ok (), { upload with trace })
    else
      let (answer, trace) := appendWithRetry outside
        ⟨upload.step, upload.nextSequence, upload.chunk⟩ (policy.attempts - 1) trace
      match answer with
      | .error error => (.error error, { upload with trace })
      | .ok (some .accepted) =>
        match U64.checkedAdd upload.nextSequence 1 with
        | none => (.error "run log sequence overflow", { upload with trace })
        | some nextSequence =>
          flush outside policy isPartial { upload with nextSequence, pending := upload.rest, trace }
      | .ok (some .truncated) =>
        flush outside policy isPartial { upload with
          logsTruncated := true
          truncatedNotices := upload.truncatedNotices + 1
          pending := upload.rest
          trace }
      | .ok none =>
        flush outside policy isPartial
          { upload with logsTruncated := true, pending := upload.rest, trace }
termination_by upload.pending.bytes.length
decreasing_by all_goals exact upload.rest_lt (by assumption)

end LogUpload

/-! ## A sink that accepts -/

/-- The sink accepts every chunk, and nothing stops the uploader. -/
structure Outside.Accepts (outside : Outside) : Prop where
  accepts : ∀ sofar chunk, outside.appendLog sofar chunk = .ok .accepted
  runs : ∀ load, outside.stopUploading load = false

/-- Chunks under consecutive numbers. -/
def numbered (step sequence : ℕ) : List Str → List Append
  | [] => []
  | chunk :: chunks => ⟨step, sequence, chunk⟩ :: numbered step (sequence + 1) chunks

theorem numbered_append (step sequence : ℕ) (left right : List Str) :
    numbered step sequence (left ++ right) =
      numbered step sequence left ++ numbered step (sequence + left.length) right := by
  induction left generalizing sequence with
  | nil => rfl
  | cons chunk left ih =>
    rw [List.cons_append, numbered, ih, numbered, List.cons_append, List.length_cons,
      Nat.add_assoc, Nat.add_comm 1]

theorem flatMap_numbered (step sequence : ℕ) (chunks : List Str) :
    (numbered step sequence chunks).flatMap (·.text.bytes) = chunks.flatMap Str.bytes := by
  induction chunks generalizing sequence with
  | nil => rfl
  | cons chunk chunks ih => rw [numbered, List.flatMap_cons, ih, List.flatMap_cons]

/-- What the server takes: some text, and not too much. -/
def Uploadable (chunk : Str) : Prop :=
  chunk.bytes ≠ [] ∧ chunk.bytes.length ≤ LOG_UPLOAD_BYTES

/-- The bytes of chunks. -/
def textOf (chunks : List Str) : Bytes := chunks.flatMap Str.bytes

variable {outside : Outside} {policy : UploadPolicy} {upload : LogUpload} {isPartial : Bool}

theorem appendWithRetry_accepts (h : outside.Accepts) (chunk : Append) (retries : ℕ)
    (trace : Trace) :
    appendWithRetry outside chunk retries trace =
      (.ok (some .accepted), ⟨trace.appends ++ [chunk], trace.loads + 1⟩) := by
  unfold appendWithRetry
  simp only [Trace.load, Trace.append, h.runs, h.accepts, Bool.false_eq_true, if_false]

namespace LogUpload

theorem chunk_append_rest (upload : LogUpload) :
    upload.chunk.bytes ++ upload.rest.bytes = upload.pending.bytes :=
  List.take_append_drop _ _

theorem uploadable_chunk (upload : LogUpload) (h : upload.pending.bytes ≠ []) :
    Uploadable upload.chunk := by
  have hpos := chunkEnd_pos upload.pending.valid h
  obtain ⟨hlength, hupload⟩ := chunkEnd_le upload.pending.bytes
  have hchunk : upload.chunk.bytes.length = chunkEnd upload.pending.bytes :=
    List.length_take_of_le hlength
  exact ⟨List.length_pos_iff.mp (by omega), by omega⟩

/-- What a flush gives the sink, and what it leaves. It ends early only when the numbers run out. -/
structure Flushed (isPartial : Bool) (before : LogUpload) (chunks : List Str)
    (result : Except String Unit) (after : LogUpload) : Prop where
  uploadable : ∀ chunk ∈ chunks, Uploadable chunk
  appends : after.trace.appends =
    before.trace.appends ++ numbered before.step before.nextSequence chunks
  ended : (result = .ok () ∧ after.nextSequence = before.nextSequence + chunks.length ∧
      after.nextSequence ≤ U64.maxU64 ∧ after.step = before.step ∧ after.logsTruncated = false ∧
      textOf chunks ++ after.pending.bytes = before.pending.bytes ∧
      (isPartial = true → after.pending.bytes = [])) ∨
    ∃ error, result = .error error ∧ before.nextSequence + chunks.length = U64.maxU64 + 1

section Accepting

variable (policy : UploadPolicy) (h : outside.Accepts) (htruncated : upload.logsTruncated = false)
  (hne : upload.pending.bytes ≠ [])
include h htruncated hne

theorem flush_waits (hwaits : isPartial = false ∧ upload.pending.bytes.length < LOG_UPLOAD_BYTES) :
    upload.flush outside policy isPartial =
      (.ok (), { upload with trace := ⟨upload.trace.appends, upload.trace.loads + 1⟩ }) := by
  rw [flush, if_neg hne]
  simp only [htruncated, Bool.false_eq_true, if_false, Trace.load, h.runs, hwaits, Bool.not_false,
    decide_true, Bool.and_self, if_true]

/-- A chunk that is accepted counts, and the flush goes on behind it. -/
theorem flush_accepted
    (hgoes : ¬(isPartial = false ∧ upload.pending.bytes.length < LOG_UPLOAD_BYTES)) :
    let trace : Trace := ⟨upload.trace.appends ++ [⟨upload.step, upload.nextSequence, upload.chunk⟩],
      upload.trace.loads + 1 + 1⟩
    (U64.maxU64 ≤ upload.nextSequence →
      upload.flush outside policy isPartial =
        (.error "run log sequence overflow", { upload with trace })) ∧
    (upload.nextSequence < U64.maxU64 →
      upload.flush outside policy isPartial =
        LogUpload.flush outside policy isPartial { upload with
          nextSequence := upload.nextSequence + 1, pending := upload.rest, trace }) := by
  have hgo : (!isPartial && decide (upload.pending.bytes.length < LOG_UPLOAD_BYTES)) = false := by
    rw [Bool.eq_false_iff, Ne, Bool.and_eq_true, Bool.not_eq_true', decide_eq_true_eq]
    exact hgoes
  constructor
  · intro hlast
    have hnext : U64.checkedAdd upload.nextSequence 1 = none := if_neg (by omega)
    rw [flush, if_neg hne]
    simp only [htruncated, Bool.false_eq_true, if_false, Trace.load, h.runs, hgo,
      appendWithRetry_accepts h, hnext]
  · intro hfree
    have hnext : U64.checkedAdd upload.nextSequence 1 = some (upload.nextSequence + 1) :=
      if_pos hfree
    rw [flush, if_neg hne]
    simp only [htruncated, Bool.false_eq_true, if_false, Trace.load, h.runs, hgo,
      appendWithRetry_accepts h, hnext]

end Accepting

/-- A flush gives the sink the text that waits, in order and as a whole. -/
theorem exists_flushed (h : outside.Accepts) (hsequence : upload.nextSequence ≤ U64.maxU64)
    (htruncated : upload.logsTruncated = false) :
    ∃ chunks, Flushed isPartial upload chunks (upload.flush outside policy isPartial).1
      (upload.flush outside policy isPartial).2 := by
  induction hlength : upload.pending.bytes.length using Nat.strong_induction_on
    generalizing upload with
  | _ length ih =>
    subst hlength
    by_cases hempty : upload.pending.bytes = []
    · rw [flush, if_pos hempty]
      exact ⟨[], nofun, (List.append_nil _).symm,
        .inl ⟨rfl, rfl, hsequence, rfl, htruncated, rfl, fun _ => hempty⟩⟩
    by_cases hwaits : isPartial = false ∧ upload.pending.bytes.length < LOG_UPLOAD_BYTES
    · rw [flush_waits policy h htruncated hempty hwaits]
      refine ⟨[], nofun, (List.append_nil _).symm,
        .inl ⟨rfl, rfl, hsequence, rfl, htruncated, rfl, fun hpartial => ?_⟩⟩
      rw [hwaits.1] at hpartial
      cases hpartial
    · obtain ⟨hlast, hfree⟩ := flush_accepted policy h htruncated hempty hwaits
      rcases Nat.lt_or_ge upload.nextSequence U64.maxU64 with hlt | hge
      · rw [hfree hlt]
        obtain ⟨chunks, hchunks, happends, hended⟩ := @ih _ (upload.rest_lt hempty) { upload with
          nextSequence := upload.nextSequence + 1
          pending := upload.rest
          trace := ⟨upload.trace.appends ++ [⟨upload.step, upload.nextSequence, upload.chunk⟩],
            upload.trace.loads + 1 + 1⟩ } hlt htruncated rfl
        dsimp only at happends hended
        refine ⟨upload.chunk :: chunks, ?_, ?_, ?_⟩
        · exact List.forall_mem_cons.mpr ⟨upload.uploadable_chunk hempty, hchunks⟩
        · rw [happends, List.append_assoc]
          rfl
        · rw [List.length_cons]
          rcases hended with ⟨hok, hnext, hmax, hstep, hkept, htext, hall⟩ | ⟨error, herror, hnext⟩
          · refine .inl ⟨hok, by rw [hnext]; omega, hmax, hstep, hkept, ?_, hall⟩
            rw [textOf, List.flatMap_cons, List.append_assoc, ← upload.chunk_append_rest]
            exact congrArg (upload.chunk.bytes ++ ·) htext
          · exact .inr ⟨error, herror, by omega⟩
      · rw [hlast hge]
        refine ⟨[upload.chunk], ?_, rfl, .inr ⟨_, rfl, ?_⟩⟩
        · intro chunk hchunk
          rw [List.mem_singleton.mp hchunk]
          exact upload.uploadable_chunk hempty
        · rw [List.length_singleton]
          omega

/-- What the sink was given, and what waits for it. -/
def text (upload : LogUpload) : Bytes :=
  upload.trace.appends.flatMap (·.text.bytes) ++ upload.pending.bytes

/-- The sink was given chunks it can take, under the numbers from `first` on. -/
structure Sound (step first : ℕ) (upload : LogUpload) : Prop where
  step_eq : upload.step = step
  kept : upload.logsTruncated = false
  next_le : upload.nextSequence ≤ U64.maxU64
  chunks : ∃ chunks, (∀ chunk ∈ chunks, Uploadable chunk) ∧
    upload.trace.appends = numbered step first chunks ∧
    upload.nextSequence = first + chunks.length

/-- The chunk with the last number was given. -/
def Exhausted (step first : ℕ) (upload : LogUpload) : Prop :=
  ∃ chunks, (∀ chunk ∈ chunks, Uploadable chunk) ∧
    upload.trace.appends = numbered step first chunks ∧ first + chunks.length = U64.maxU64 + 1

theorem text_pushStr (upload : LogUpload) (pushed : Str) :
    (upload.pushStr pushed).text = upload.text ++ pushed.bytes := by
  unfold text
  rw [List.append_assoc]
  rfl

theorem Sound.pushStr {step first : ℕ} (h : upload.Sound step first) (pushed : Str) :
    (upload.pushStr pushed).Sound step first :=
  ⟨h.step_eq, h.kept, h.next_le, h.chunks⟩

theorem Sound.flush {step first : ℕ} (hs : upload.Sound step first) (h : outside.Accepts)
    (policy : UploadPolicy) (isPartial : Bool) :
    ((upload.flush outside policy isPartial).1 = .ok () ∧
      (upload.flush outside policy isPartial).2.Sound step first ∧
      (upload.flush outside policy isPartial).2.text = upload.text ∧
      (isPartial = true → (upload.flush outside policy isPartial).2.pending.bytes = [])) ∨
    ∃ error, (upload.flush outside policy isPartial).1 = .error error ∧
      (upload.flush outside policy isPartial).2.Exhausted step first := by
  obtain ⟨chunks, hchunks, happends, hended⟩ :=
    @exists_flushed outside policy upload isPartial h hs.next_le hs.kept
  obtain ⟨before, hbefore, hnumbered, hnext⟩ := hs.chunks
  have hall : ∀ chunk ∈ before ++ chunks, Uploadable chunk := fun chunk hchunk =>
    (List.mem_append.mp hchunk).elim (hbefore chunk) (hchunks chunk)
  have hsame : (upload.flush outside policy isPartial).2.trace.appends =
      numbered step first (before ++ chunks) := by
    rw [happends, hnumbered, numbered_append, hs.step_eq, hnext]
  rcases hended with ⟨hok, hafter, hmax, hstep, hkept, htext, hempty⟩ | ⟨error, herror, hlast⟩
  · refine .inl ⟨hok, ⟨hstep.trans hs.step_eq, hkept, hmax, _, hall, hsame, ?_⟩, ?_, hempty⟩
    · rw [hafter, hnext, List.length_append, Nat.add_assoc]
    · have hgiven : (numbered upload.step upload.nextSequence chunks).flatMap (·.text.bytes) =
          textOf chunks := flatMap_numbered _ _ _
      rw [text, happends, List.flatMap_append, hgiven, List.append_assoc, htext]
      rfl
  · refine .inr ⟨error, herror, _, hall, hsame, ?_⟩
    rw [List.length_append, ← Nat.add_assoc, ← hnext]
    exact hlast

end LogUpload

end ScopeVcs.Runner

import Mathlib.Logic.Function.Basic
import ScopeVcs.Lib.Transition
import ScopeVcs.Runner.Spool
import ScopeVcs.Runner.Upload

/-! # Capturing the output of a step

Two readers put what they read of their streams into the spool while the uploader takes it out,
decodes it and hands it to the sink. Text waits until there is a chunk of it or its deadline is due;
then what is left of a character goes out replaced. Between the uploader's look at the spool and its
look at the clock the readers go on, however long an upload takes. What was read, what the uploader
took out and what the spool held at each deadline is recorded.

Files and pipes do not fail, and nothing stops the capture.
-/

namespace ScopeVcs.Runner

open Utf8

/-- In milliseconds. -/
def LOG_BATCH_DEADLINE : ℕ := 250

/-- When the text that waits is due. -/
abbrev LogBatchDeadline := Option ℕ

namespace LogBatchDeadline

def received (deadline : LogBatchDeadline) (now : ℕ) : LogBatchDeadline :=
  some (deadline.getD (now + LOG_BATCH_DEADLINE))

def due (deadline : LogBatchDeadline) (now : ℕ) : Bool := deadline.any (· ≤ now)

end LogBatchDeadline

structure OutputSummary where
  nextSequence : ℕ
  logsTruncated : Bool
  deriving DecidableEq

/-- Where the uploader is in its loop. -/
inductive Phase where
  | receiving
  | checking
  | finished (summary : OutputSummary)
  | failed (error : String)
  deriving DecidableEq

structure Uploader where
  upload : LogUpload
  pendingUtf8 : OutputStream → Bytes
  deadline : LogBatchDeadline
  discarding : Bool
  phase : Phase

namespace Uploader

def start (step nextSequence : ℕ) (logsTruncated : Bool) : Uploader where
  upload := ⟨step, nextSequence, logsTruncated, 0, .empty, ⟨[], 0⟩⟩
  pendingUtf8 := fun _ => []
  deadline := none
  discarding := logsTruncated
  phase := .receiving

/-- The text that waits, with what is left of the characters behind it. -/
def pushPending (uploader : Uploader) : LogUpload :=
  let upload := uploader.upload.pushStr (decodeLossy (uploader.pendingUtf8 .stdout))
  upload.pushStr (decodeLossy (uploader.pendingUtf8 .stderr))

variable (outside : Outside) (policy : UploadPolicy)

/-- A chunk of the spool. -/
def receiveChunk (uploader : Uploader) (stream : OutputStream) (bytes : Bytes) (now : ℕ) :
    Uploader :=
  let deadline := uploader.deadline.received now
  let (text, pending) := decodeUtf8Chunk (uploader.pendingUtf8 stream) bytes
  let pendingUtf8 := Function.update uploader.pendingUtf8 stream pending
  let (result, upload) := (uploader.upload.pushStr text).flush outside policy false
  match result with
  | .error error => { uploader with upload, pendingUtf8, deadline, phase := .failed error }
  | .ok () =>
    let settled := upload.pending.bytes = [] ∧ pendingUtf8 .stdout = [] ∧ pendingUtf8 .stderr = []
    { uploader with
      upload, pendingUtf8
      deadline := if settled then none else deadline
      phase := .checking }

/-- The end of the output. -/
def conclude (uploader : Uploader) (locallyDiscarded : Bool) : Uploader :=
  let (result, upload) := uploader.pushPending.flush outside policy true
  match result with
  | .error error => { uploader with upload, phase := .failed error }
  | .ok () =>
    let summary := ⟨upload.nextSequence, upload.logsTruncated || locallyDiscarded⟩
    { uploader with upload, phase := .finished summary }

/-- What the uploader does with what `recv_timeout` returned. -/
def receive (uploader : Uploader) (locallyDiscarded : Bool) (now : ℕ) :
    Except RecvTimeoutError ReaderEvent → Uploader
  | .ok (.chunk stream bytes) => uploader.receiveChunk outside policy stream bytes now
  | .ok (.failed stream _) => { uploader with phase := .failed ("read step " ++ stream.name) }
  | .error .disconnected => uploader.conclude outside policy locallyDiscarded
  | .error .timeout => { uploader with phase := .checking }

/-- The look at the clock behind it. -/
def check (uploader : Uploader) (now : ℕ) : Uploader :=
  if uploader.deadline.due now then
    let (result, upload) := uploader.pushPending.flush outside policy true
    match result with
    | .error error =>
      { uploader with upload, pendingUtf8 := fun _ => [], phase := .failed error }
    | .ok () =>
      { uploader with upload, pendingUtf8 := fun _ => [], deadline := none, phase := .receiving }
  else { uploader with phase := .receiving }

end Uploader

/-- A read of a stream. -/
abbrev Record := OutputStream × Bytes

/-- What had been taken out of the spool when the deadline was due, and what was in it. -/
structure DeadlineFlush where
  received : List Record
  waiting : List Record
  deriving DecidableEq

structure World where
  spool : LogSpool
  reading : OutputStream → Bool
  locallyDiscarded : Bool
  uploader : Uploader
  sent : List Record
  received : List Record
  flushes : List DeadlineFlush

inductive Action where
  /-- A reader sends what it has read. -/
  | send (stream : OutputStream) (bytes : Bytes)
  /-- A reader has seen the end of its stream. -/
  | close (stream : OutputStream)
  | receive (expired : Bool) (now : ℕ)
  | check (now : ℕ)

/-- What the uploader was given by an event. -/
def recordsOf : Except RecvTimeoutError ReaderEvent → List Record
  | .ok (.chunk stream bytes) => [(stream, bytes)]
  | _ => []

namespace World

def start (capacity step nextSequence : ℕ) (logsTruncated : Bool) : World where
  spool :=
    let spool := LogSpool.new capacity 2
    if logsTruncated then spool.discardOutput else spool
  reading := fun _ => true
  locallyDiscarded := false
  uploader := .start step nextSequence logsTruncated
  sent := []
  received := []
  flushes := []

/-- The end of a reader's loop. -/
def closeReader (w : World) (stream : OutputStream) : World :=
  { w with spool := w.spool.closeReader, reading := Function.update w.reading stream false }

/-- A reader sends a read, which fits its buffer. -/
def send (w : World) (stream : OutputStream) (bytes : Bytes) : Option World :=
  if w.reading stream = true ∧ bytes ≠ [] ∧ bytes.length ≤ LOG_READ_BYTES then
    match w.spool.send (.chunk stream bytes) false with
    | .panics => none
    | .waits => none
    | .returned true spool => some { w with spool, sent := w.sent ++ [(stream, bytes)] }
    | .returned false spool =>
      some ({ w with spool, locallyDiscarded := true }.closeReader stream)
  else none

/-- What was sent and not taken out. -/
def waiting (w : World) : List Record := w.sent.drop w.received.length

variable (outside : Outside) (policy : UploadPolicy)

def receive (w : World) (expired : Bool) (now : ℕ) : Option World :=
  if w.uploader.phase = .receiving then
    (w.spool.recvTimeout expired).map fun outcome =>
      { w with
        spool := outcome.2
        uploader := w.uploader.receive outside policy w.locallyDiscarded now outcome.1
        received := w.received ++ recordsOf outcome.1 }
  else none

def check (w : World) (now : ℕ) : Option World :=
  if w.uploader.phase = .checking then
    let uploader := w.uploader.check outside policy now
    let flushes :=
      if w.uploader.deadline.due now then w.flushes ++ [⟨w.received, w.waiting⟩] else w.flushes
    if uploader.phase = .receiving ∧ uploader.upload.logsTruncated = true ∧
        uploader.discarding = false then
      some { w with
        spool := w.spool.discardOutput, uploader := { uploader with discarding := true }, flushes }
    else some { w with uploader, flushes }
  else none

def act (w : World) : Action → Option World
  | .send stream bytes => w.send stream bytes
  | .close stream => if w.reading stream = true then some (w.closeReader stream) else none
  | .receive expired now => w.receive outside policy expired now
  | .check now => w.check outside policy now

/-- What was sent of a stream, or received of it. -/
def bytesOf (stream : OutputStream) (records : List Record) : Bytes :=
  records.flatMap fun record => if record.1 = stream then record.2 else []

/-- The texts the sink was given. -/
def uploaded (w : World) : Bytes := w.uploader.upload.trace.appends.flatMap (·.text.bytes)

end World

/-! ## Torn characters -/

/-- The first bytes of a character, with what is behind them, are all of it. -/
def Completes (begun behind : Bytes) : Prop := ∃ rest, rest <+: behind ∧ IsChar (begun ++ rest)

/-- The deadline is due while the spool holds what is left of a character the uploader has begun. -/
def World.Tears (w : World) : Action → Prop
  | .check now => w.uploader.phase = .checking ∧ w.uploader.deadline.due now = true ∧
      ∃ stream, Completes (w.uploader.pendingUtf8 stream) (World.bytesOf stream w.waiting)
  | _ => False

/-- The runs of a capture, from its start, whose deadlines tear no character. -/
def World.Untorn (outside : Outside) (policy : UploadPolicy) (capacity step nextSequence : ℕ)
    (w : World) : Prop :=
  Transition.Reachable (· = World.start capacity step nextSequence false)
    (fun w w' => ∃ action, w.act outside policy action = some w' ∧ ¬w.Tears action) w

/-- All runs of a capture. -/
def World.Reachable (outside : Outside) (policy : UploadPolicy) (capacity step nextSequence : ℕ)
    (w : World) : Prop :=
  Transition.Reachable (· = World.start capacity step nextSequence false)
    (fun w w' => ∃ action, w.act outside policy action = some w') w

end ScopeVcs.Runner

import ScopeVcs.Content.CleanupQueue
import ScopeVcs.Lib.SortedMap
import ScopeVcs.Lib.Transition

/-! # Publishers and cleanup workers over one object store

A publisher holds the fence of a content reference while it puts the bytes and commits a reference to
them; a worker holds it while it decides about a claimed row and deletes the object. Transactions that
drop references queue the row without the fence. Anyone may stop at any point and thereby loses the
fence.
-/

namespace ScopeVcs.Content

open Mutation IntegerColumns

/-! ## The actors -/

inductive Holder where
  | publisher (i : ℕ)
  | drain (i : ℕ)
  deriving DecidableEq

inductive PublisherPhase where
  | fenced
  | stored
  | rejected
  | settled
  | left
  deriving DecidableEq

/-- A call that uploads an object and commits what refers to it. -/
structure Publisher where
  bytes : List UInt8
  blob : SourceBlob
  phase : PublisherPhase
  /-- The reference it committed and was told about. -/
  published : Option ObjectReference
  deriving DecidableEq

/-- What became of a blob in a drain. -/
inductive Outcome where
  | deleted
  | retained
  | referenced
  | staleClaim
  deriving DecidableEq

inductive DrainPhase where
  | next
  | fenced (blob : SourceBlob)
  | deleting (blob : SourceBlob)
  | settled (blob : SourceBlob)
  | finished
  | stopped
  deriving DecidableEq

/-- A call of `drain_source_blob_cleanup`. -/
structure Drain where
  nowUnix : ℕ
  loaded : List LoadedSourceBlobCleanup
  todo : List SourceBlob
  outcomes : List (SourceBlob × Outcome)
  phase : DrainPhase
  deriving DecidableEq

structure SourceBlobCleanupReport where
  attempted : ℕ
  deleted : ℕ
  retained : ℕ
  skippedReferenced : ℕ
  skippedStaleClaim : ℕ
  failedObjectDeletes : List SourceBlob
  deriving DecidableEq

/-- The values of `pending_by_key`, in the order of the keys. -/
def pendingByKey (pending : List SourceBlob) : List SourceBlob :=
  (pending.foldl (fun (m : SortedMap String SourceBlob) blob =>
    if m.contains (objectKey blob.contentRef) = true then m
    else m.insert (objectKey blob.contentRef) blob) ∅).entries.map Prod.snd

namespace Drain

/-- The blobs of one outcome, the first one first. -/
def withOutcome (drain : Drain) (outcome : Outcome) : List SourceBlob :=
  (drain.outcomes.filter fun o => o.2 = outcome).map Prod.fst

def retained (drain : Drain) : List SourceBlob := drain.withOutcome .retained

def report (drain : Drain) : SourceBlobCleanupReport where
  attempted := (drain.withOutcome .deleted).length + drain.retained.length
  deleted := (drain.withOutcome .deleted).length
  retained := drain.retained.length
  skippedReferenced := (drain.withOutcome .referenced).length
  skippedStaleClaim := (drain.withOutcome .staleClaim).length
  failedObjectDeletes := drain.retained

/-- The blob whose fence the drain holds. -/
def holds (drain : Drain) : Option SourceBlob :=
  match drain.phase with
  | .fenced blob | .deleting blob | .settled blob => some blob
  | .next | .finished | .stopped => none

def settle (drain : Drain) (blob : SourceBlob) (outcome : Outcome) : Drain :=
  { drain with outcomes := drain.outcomes ++ [(blob, outcome)], phase := .settled blob }

end Drain

/-! ## The world -/

/-- What is written down of a run, with the holder of the fence at that moment. -/
inductive Event where
  | queued (contentRef : ContentRef)
  | deleted (contentRef : ContentRef) (holder : Option Holder)
  | foundReference (contentRef : ContentRef) (holder : Option Holder)
  deriving DecidableEq

/-- A drain that held the fence deleted the bytes or found a reference. -/
def Event.resolves (contentRef : ContentRef) : Event → Bool
  | .deleted r (some (.drain _)) | .foundReference r (some (.drain _)) => r = contentRef
  | _ => false

def queuedEvents (blobs : List SourceBlob) : List Event :=
  blobs.map fun blob => .queued blob.contentRef

/-- Since the row was last queued, its blob was deleted or found referenced. The last event is the
first of the log. -/
def resolvedSinceQueued (log : List Event) (contentRef : ContentRef) : Bool :=
  (log.takeWhile fun event => event ≠ .queued contentRef).any (Event.resolves contentRef)

structure World where
  clock : ℕ
  objects : String → Option (List UInt8)
  jobs : Jobs
  references : References
  fences : ContentRef → Option Holder
  publishers : ℕ → Option Publisher
  drains : ℕ → Option Drain
  /-- The generations drawn so far; `generate_id` does not repeat one. -/
  generations : List String
  log : List Event

/-- What an actor does next. A transaction carries the time its caller read off the clock; an object
store call may have its effect although it is reported as failed. -/
inductive Action where
  | tick (seconds : ℕ)
  | publish (i : ℕ) (kind : ContentObjectKind) (bytes : List UInt8) (gitOid : String)
  | put (i : ℕ) (ok : Bool) (effective : Bool)
  | commit (i : ℕ) (refKind refId : String) (reported : Bool)
  | rollBack (i : ℕ)
  | queueRollback (i : ℕ) (generation : String) (nowUnix : ℕ)
  | giveUp (i : ℕ)
  | leave (i : ℕ)
  | dereference (removed : List ObjectReference) (blobs : List (SourceBlob × String)) (nowUnix : ℕ)
  | claim (i : ℕ) (locked : List ContentRef) (generation : String) (nowUnix : ℕ)
  | acquire (i : ℕ)
  | decide (i : ℕ)
  | delete (i : ℕ) (ok : Bool) (effective : Bool)
  | release (i : ℕ)
  | finish (i : ℕ) (fresh : SourceBlob → String)
  | stop (i : ℕ)

/-- The drain that acts. -/
def Action.drain? : Action → Option ℕ
  | .acquire i | .decide i | .delete i _ _ | .release i | .finish i _ | .stop i => some i
  | _ => none

namespace World

variable (digests : Digests)

def initial (clock : ℕ) (objects : String → Option (List UInt8)) : World where
  clock := clock
  objects := objects
  jobs := ∅
  references := ∅
  fences := fun _ => none
  publishers := fun _ => none
  drains := fun _ => none
  generations := []
  log := []

/-- Calls with a time read off the clock, at this moment or earlier. -/
def now (w : World) (nowUnix : ℕ) (next : Option World) : Option World :=
  if nowUnix ≤ w.clock then next else none

/-- Draws generations that were not drawn before. -/
def draw (w : World) (generations : List String) (next : Option World) : Option World :=
  if ∀ g ∈ generations, g ∉ w.generations then
    next.map fun w' => { w' with generations := generations ++ w.generations }
  else none

def setPublisher (w : World) (i : ℕ) (publisher : Publisher) : World :=
  { w with publishers := Function.update w.publishers i (some publisher) }

def setDrain (w : World) (i : ℕ) (drain : Drain) : World :=
  { w with drains := Function.update w.drains i (some drain) }

def setFence (w : World) (contentRef : ContentRef) (holder : Option Holder) : World :=
  { w with fences := Function.update w.fences contentRef holder }

/-- Writes down what happened to a row. -/
def note (w : World) (events : List Event) : World := { w with log := events ++ w.log }

/-! ### Publishers -/

def publish (w : World) (i : ℕ) (kind : ContentObjectKind) (bytes : List UInt8) (gitOid : String) :
    Option World :=
  let blob := { contentObjectForBytes digests kind bytes with gitOid := gitOid }
  if w.publishers i = none ∧ w.fences blob.contentRef = none then
    some ((w.setFence blob.contentRef (some (.publisher i))).setPublisher i
      ⟨bytes, blob, .fenced, none⟩)
  else none

/-- Releases the fence, at the end of the call or because the process stopped. -/
def leave (w : World) (i : ℕ) (publisher : Publisher) : World :=
  (w.setFence publisher.blob.contentRef none).setPublisher i { publisher with phase := .left }

def put (w : World) (i : ℕ) (publisher : Publisher) (ok effective : Bool) : World :=
  let w' : World := { w with
    objects := if ok = true ∨ effective = true then
        Function.update w.objects (objectKey publisher.blob.contentRef) (some publisher.bytes)
      else w.objects }
  if ok = true then w'.setPublisher i { publisher with phase := .stored } else w'.leave i publisher

/-- The transaction that inserts the reference. One whose outcome does not arrive counts as failed. -/
def commit (w : World) (i : ℕ) (publisher : Publisher) (refKind refId : String) (reported : Bool) :
    World :=
  let reference : ObjectReference := ⟨publisher.blob.contentRef, refKind, refId⟩
  if (w.references.find? reference).isSome = true then
    w.setPublisher i { publisher with phase := .rejected }
  else
    let w' : World := { w with references := w.references.insert reference }
    if reported = true then
      w'.setPublisher i { publisher with phase := .settled, published := some reference }
    else w'.setPublisher i { publisher with phase := .rejected }

/-- Queues blobs in a transaction. -/
def queue (w : World) (blobs : List (SourceBlob × String)) (nowUnix : ℕ) : Option World :=
  match queuePendingSourceBlobDeletionRows w.jobs blobs nowUnix with
  | .ok jobs => some ({ w with jobs }.note (queuedEvents (blobs.map Prod.fst)))
  | .error _ => none

/-- A transaction that removes references and queues blobs. -/
def dereference (w : World) (removed : List ObjectReference) (blobs : List (SourceBlob × String))
    (nowUnix : ℕ) : Option World :=
  { w with references := w.references.delete fun r => r ∈ removed }.queue blobs nowUnix

/-! ### Workers -/

def claim (w : World) (i : ℕ) (locked : List ContentRef) (generation : String) (nowUnix : ℕ) :
    Option World :=
  match w.drains i, claimPendingSourceBlobCleanupRows w.jobs locked generation nowUnix with
  | none, .ok (jobs, loaded) =>
    some ({ w with jobs }.setDrain i
      ⟨nowUnix, loaded, pendingByKey (loaded.map LoadedSourceBlobCleanup.blob), [], .next⟩)
  | _, _ => none

def acquire (w : World) (i : ℕ) (drain : Drain) : Option World :=
  match drain.todo with
  | [] => none
  | blob :: todo =>
    if w.fences blob.contentRef = none then
      some ((w.setFence blob.contentRef (some (.drain i))).setDrain i
        { drain with todo := todo, phase := .fenced blob })
    else none

def decide (w : World) (i : ℕ) (drain : Drain) (blob : SourceBlob) : World :=
  match sourceBlobCleanupDecision w.jobs w.references drain.loaded blob with
  | .delete => w.setDrain i { drain with phase := .deleting blob }
  | .referenced =>
    (w.note [.foundReference blob.contentRef (w.fences blob.contentRef)]).setDrain i
      (drain.settle blob .referenced)
  | .staleClaim => w.setDrain i (drain.settle blob .staleClaim)

def deleteObject (w : World) (i : ℕ) (drain : Drain) (blob : SourceBlob) (ok effective : Bool) :
    World :=
  let w' : World := { w with
    objects := if ok = true ∨ effective = true then
        Function.update w.objects (objectKey blob.contentRef) none
      else w.objects }
  if ok = true then
    (w'.note [.deleted blob.contentRef (w.fences blob.contentRef)]).setDrain i
      (drain.settle blob .deleted)
  else w'.setDrain i (drain.settle blob .retained)

def release (w : World) (i : ℕ) (drain : Drain) (blob : SourceBlob) : World :=
  (w.setFence blob.contentRef none).setDrain i { drain with phase := .next }

/-- `finish_source_blob_cleanup`, after which the call ends in any case. -/
def finish (w : World) (i : ℕ) (drain : Drain) (fresh : SourceBlob → String) : World :=
  match reconcileSourceBlobCleanupRows w.jobs drain.loaded drain.retained fresh drain.nowUnix with
  | .ok jobs =>
    ({ w with jobs }.note (queuedEvents (unclaimed drain.loaded drain.retained))).setDrain i
      { drain with phase := .finished }
  | .error _ => w.setDrain i { drain with phase := .stopped }

def stop (w : World) (i : ℕ) (drain : Drain) : World :=
  match drain.holds with
  | some blob => (w.setFence blob.contentRef none).setDrain i { drain with phase := .stopped }
  | none => w.setDrain i { drain with phase := .stopped }

/-! ### Steps -/

/-- A step of the publisher `i`, from the given phase. -/
def publisherStep (w : World) (i : ℕ) (phase : PublisherPhase) (next : Publisher → Option World) :
    Option World :=
  match w.publishers i with
  | some publisher => if publisher.phase = phase then next publisher else none
  | none => none

def act (w : World) : Action → Option World
  | .tick seconds => some { w with clock := w.clock + seconds }
  | .publish i kind bytes gitOid => w.publish digests i kind bytes gitOid
  | .put i ok effective =>
    w.publisherStep i .fenced fun publisher => some (w.put i publisher ok effective)
  | .commit i refKind refId reported =>
    w.publisherStep i .stored fun publisher => some (w.commit i publisher refKind refId reported)
  | .rollBack i =>
    w.publisherStep i .stored fun publisher =>
      some (w.setPublisher i { publisher with phase := .rejected })
  | .queueRollback i generation nowUnix =>
    w.now nowUnix <| w.publisherStep i .rejected fun publisher =>
      w.draw [generation] <| (w.queue [(publisher.blob, generation)] nowUnix).map fun w' =>
        w'.setPublisher i { publisher with phase := .settled }
  | .giveUp i =>
    w.publisherStep i .rejected fun publisher =>
      some (w.setPublisher i { publisher with phase := .settled })
  | .leave i =>
    match w.publishers i with
    | some publisher => if publisher.phase = .left then none else some (w.leave i publisher)
    | none => none
  | .dereference removed blobs nowUnix =>
    w.now nowUnix <| w.draw (blobs.map Prod.snd) <| w.dereference removed blobs nowUnix
  | .claim i locked generation nowUnix =>
    w.now nowUnix <| w.draw [generation] <| w.claim i locked generation nowUnix
  | .acquire i =>
    match w.drains i with
    | some drain => if drain.phase = .next then w.acquire i drain else none
    | none => none
  | .decide i =>
    match w.drains i with
    | some drain =>
      match drain.phase with
      | .fenced blob => some (w.decide i drain blob)
      | _ => none
    | none => none
  | .delete i ok effective =>
    match w.drains i with
    | some drain =>
      match drain.phase with
      | .deleting blob => some (w.deleteObject i drain blob ok effective)
      | _ => none
    | none => none
  | .release i =>
    match w.drains i with
    | some drain =>
      match drain.phase with
      | .settled blob => some (w.release i drain blob)
      | _ => none
    | none => none
  | .finish i fresh =>
    match w.drains i with
    | some drain =>
      if drain.phase = .next ∧ drain.todo = [] then
        w.draw ((unclaimed drain.loaded drain.retained).map fresh) <| some (w.finish i drain fresh)
      else none
    | none => none
  | .stop i => (w.drains i).map fun drain => w.stop i drain

/-- One step of some actor. -/
def Step (w w' : World) : Prop := ∃ a, w.act digests a = some w'

/-- The worlds some interleaving of the actors leads to, from a store without references. -/
def Reachable (w : World) : Prop :=
  Transition.Reachable (fun w => ∃ clock objects, w = initial clock objects) (Step digests) w

end World

end ScopeVcs.Content

import Mathlib.Data.List.Sort
import ScopeVcs.Storage.Restore

/-! # Uploading an envelope in parts

`PackUpload` collects the bytes of an envelope. As long as they fit one part nothing is sent; the byte
behind a full part opens a multipart upload, and from then on every full part is uploaded by a task of
its own, at most two at a time. The tasks end in any order. What the backend is told is recorded; the
call of a task when the task ends.
-/

namespace ScopeVcs.Storage

open Mutation Bytes

/-- How storing a segment fails. -/
inductive IngestError where
  | storage (error : GitStorageError)
  | plaintextLimitExceeded (maxBytes : ℕ)
  | incompleteIngest
  | input (message : String)
  | localFile (message : String)
  /-- A task panicked. -/
  | task
  deriving DecidableEq

/-! ## The backend -/

structure MultipartUpload where
  key : Bytes
  uploadId : String
  deriving DecidableEq

structure UploadedPart where
  partNumber : ℕ
  etag : String
  deriving DecidableEq

/-- What a backend that does not fail answers; a part keeps its number. -/
structure ObjectBackend where
  begin_ : (key : Bytes) → MultipartUpload
  uploadPart : MultipartUpload → (partNumber : ℕ) → Bytes → UploadedPart
  partNumber_uploadPart : ∀ upload partNumber bytes,
    (uploadPart upload partNumber bytes).partNumber = partNumber

inductive BackendCall where
  | put (key bytes : Bytes)
  | begin_ (key : Bytes)
  | uploadPart (upload : MultipartUpload) (partNumber : ℕ) (bytes : Bytes)
  | complete (upload : MultipartUpload) (parts : List UploadedPart)
  | abortIncomplete (key : Bytes)
  | delete (key : Bytes)
  deriving DecidableEq

/-- Whether the call stores an object. -/
def BackendCall.stores : BackendCall → Bool
  | put _ _ | complete _ _ => true
  | _ => false

/-! ## The upload -/

/-- A task that uploads a part. -/
structure PartTask where
  upload : MultipartUpload
  partNumber : ℕ
  bytes : Bytes
  deriving DecidableEq

/-- `i32::MAX`. -/
def maxI32 : ℕ := 2 ^ 31 - 1

/-- The capacity of the buffer is not kept: it is zero exactly while the buffer is empty, since bytes
follow every reservation. -/
structure PackUpload where
  objectKey : Bytes
  multipart : Option MultipartUpload
  partBytes : ℕ
  buffer : Bytes
  parts : List UploadedPart
  pending : List PartTask
  nextPartNumber : ℕ
  encryptedBytes : ℕ
  calls : List BackendCall
  partBytes_pos : 0 < partBytes
  buffer_le : buffer.length ≤ partBytes

namespace PackUpload

def new (objectKey : Bytes) (partBytes : ℕ) (hpos : 0 < partBytes) : PackUpload where
  objectKey := objectKey
  multipart := none
  partBytes := partBytes
  buffer := []
  parts := []
  pending := []
  nextPartNumber := 1
  encryptedBytes := 0
  calls := []
  partBytes_pos := hpos
  buffer_le := Nat.zero_le _

section

variable (backend : ObjectBackend) (joins : ℕ → ℕ)

/-- The upload with the multipart upload open. -/
def opened (u : PackUpload) : PackUpload :=
  { u with
    multipart := some (backend.begin_ u.objectKey)
    calls := u.calls ++ [.begin_ u.objectKey] }

def startMultipart : EStateM IngestError PackUpload Unit :=
  modify fun u =>
    match u.multipart with
    | some _ => u
    | none => u.opened backend

/-- The upload after the buffer has gone to a task. -/
def spawned (u : PackUpload) (upload : MultipartUpload) : PackUpload :=
  { u with
    nextPartNumber := u.nextPartNumber + 1
    buffer := []
    pending := u.pending ++ [⟨upload, u.nextPartNumber, u.buffer⟩]
    buffer_le := Nat.zero_le _ }

def flushPart : EStateM IngestError PackUpload Unit := do
  let u ← get
  if maxI32 < u.nextPartNumber + 1 then
    throw (.storage (.invalidEnvelope "multipart part count exceeds i32"))
  else
    match u.multipart with
    | none => throw .task
    | some upload => set (u.spawned upload)

/-- The upload after a task has ended. -/
def joined (u : PackUpload) (index : ℕ) (task : PartTask) : PackUpload :=
  { u with
    pending := u.pending.eraseIdx index
    calls := u.calls ++ [.uploadPart task.upload task.partNumber task.bytes] }

/-- Waits for the task that ends next; `joins` says which one. -/
def finishPart : EStateM IngestError PackUpload Unit := do
  let u ← get
  let index := joins u.parts.length % u.pending.length
  match u.pending[index]? with
  | none => throw .task
  | some task =>
    set (u.joined index task)
    let part := backend.uploadPart task.upload task.partNumber task.bytes
    if part.partNumber ≠ task.partNumber then
      throw (.storage (.backend "multipart backend returned the wrong part number"))
    else modify fun u => { u with parts := u.parts ++ [part] }

/-- A full buffer leaves when another byte follows. -/
def leave : EStateM IngestError PackUpload Unit := do
  let u ← get
  if u.buffer.length = u.partBytes then
    startMultipart backend
    flushPart

/-- A new buffer waits while two tasks run. -/
def reserve : EStateM IngestError PackUpload Unit := do
  let u ← get
  if u.buffer = [] ∧ u.pending.length = 2 then finishPart backend joins

/-- The first half of a round of `push`. -/
def makeRoom : EStateM IngestError PackUpload Unit := do
  leave backend
  reserve backend joins

/-- The upload with as many of the bytes in the buffer as fit. -/
def extended (u : PackUpload) (bytes : Bytes) : PackUpload :=
  { u with
    buffer := u.buffer ++ bytes.take (u.partBytes - u.buffer.length)
    buffer_le := by
      have hle := u.buffer_le
      rw [List.length_append, List.length_take]
      omega }

/-- The second half: a full part leaves at once when the multipart upload is open. -/
def flushFull : EStateM IngestError PackUpload Unit := do
  let u ← get
  if u.multipart.isSome = true ∧ u.buffer.length = u.partBytes then flushPart

end

/-! ## Single steps -/

variable {backend : ObjectBackend} {joins : ℕ → ℕ} {u u' : PackUpload}

theorem startMultipart_run : (startMultipart backend).run u = .ok ()
    (match u.multipart with
    | some _ => u
    | none => u.opened backend) := rfl

theorem flushPart_run {upload : MultipartUpload} (hupload : u.multipart = some upload) :
    flushPart.run u =
      if maxI32 < u.nextPartNumber + 1 then
        .error (.storage (.invalidEnvelope "multipart part count exceeds i32")) u
      else .ok () (u.spawned upload) := by
  rw [flushPart, EStateM.run_bind, EStateM.run_get]
  by_cases hnumber : maxI32 < u.nextPartNumber + 1
  · simp only [if_pos hnumber]
    rfl
  · simp only [if_neg hnumber, hupload]
    rfl

theorem flushFull_run : flushFull.run u =
    if u.multipart.isSome = true ∧ u.buffer.length = u.partBytes then flushPart.run u
    else .ok () u := by
  rw [flushFull, EStateM.run_bind, EStateM.run_get]
  by_cases hleaves : u.multipart.isSome = true ∧ u.buffer.length = u.partBytes
  · simp only [if_pos hleaves]
  · simp only [if_neg hleaves]
    rfl

/-- Some task ends. -/
theorem exists_finishPart (backend : ObjectBackend) (joins : ℕ → ℕ) (hpending : u.pending ≠ []) :
    ∃ index task, u.pending[index]? = some task ∧
      (finishPart backend joins).run u = .ok () { u.joined index task with
        parts := u.parts ++ [backend.uploadPart task.upload task.partNumber task.bytes] } := by
  have hindex : joins u.parts.length % u.pending.length < u.pending.length :=
    Nat.mod_lt _ (List.length_pos_iff.mpr hpending)
  refine ⟨_, _, List.getElem?_eq_getElem hindex, ?_⟩
  rw [finishPart, EStateM.run_bind, EStateM.run_get]
  simp only [List.getElem?_eq_getElem hindex, backend.partNumber_uploadPart, ne_eq, not_true_eq_false,
    if_false]
  rfl

theorem flushPart_eq_ok (h : flushPart.run u = .ok () u') :
    ∃ upload, u.multipart = some upload ∧ u' = u.spawned upload := by
  cases hmultipart : u.multipart with
  | none =>
    rw [flushPart, EStateM.run_bind, EStateM.run_get] at h
    simp only [hmultipart] at h
    split at h <;> cases h
  | some upload =>
    rw [flushPart_run hmultipart] at h
    split at h
    · cases h
    · cases h
      exact ⟨upload, rfl, rfl⟩

theorem finishPart_keeps_buffer (h : (finishPart backend joins).run u = .ok () u') :
    u'.buffer = u.buffer ∧ u'.partBytes = u.partBytes := by
  by_cases hpending : u.pending = []
  · rw [finishPart, EStateM.run_bind, EStateM.run_get] at h
    simp only [hpending, List.getElem?_nil] at h
    cases h
  · obtain ⟨index, task, -, hrun⟩ := exists_finishPart backend joins hpending
    cases h.symm.trans hrun
    exact ⟨rfl, rfl⟩

/-- There is room for a byte before bytes are taken. -/
theorem length_buffer_lt (h : (makeRoom backend joins).run u = .ok () u') :
    u'.buffer.length < u'.partBytes := by
  obtain ⟨⟨⟩, v, hleave, hreserve⟩ := bind_eq_ok.mp h
  have hroom : v.buffer.length < v.partBytes := by
    rw [leave, get_bind_eq_ok] at hleave
    split at hleave
    · obtain ⟨⟨⟩, w, -, hflush⟩ := bind_eq_ok.mp hleave
      obtain ⟨upload, -, rfl⟩ := flushPart_eq_ok hflush
      exact (w.spawned upload).partBytes_pos
    · next hfull =>
      cases hleave
      exact lt_of_le_of_ne u.buffer_le hfull
  rw [reserve, get_bind_eq_ok] at hreserve
  split at hreserve
  · obtain ⟨hbuffer, hbytes⟩ := finishPart_keeps_buffer hreserve
    rwa [hbuffer, hbytes]
  · cases hreserve
    exact hroom

/-! ## Pushing -/

section

variable (backend : ObjectBackend) (joins : ℕ → ℕ)

/-- The loop of `push`. -/
def pushBytes (bytes : Bytes) (u : PackUpload) : EStateM.Result IngestError PackUpload Unit :=
  if _hbytes : bytes = [] then .ok () u
  else
    match _hroom : (makeRoom backend joins).run u with
    | .error error u => .error error u
    | .ok () u =>
      match flushFull.run (u.extended bytes) with
      | .error error u => .error error u
      | .ok () v =>
        pushBytes (bytes.drop (u.partBytes - u.buffer.length)) v
termination_by bytes.length
decreasing_by
  have hlt := length_buffer_lt _hroom
  have hpos := List.length_pos_iff.mpr _hbytes
  rw [List.length_drop]
  omega

variable {backend joins} in
/-- A round, once the buffer has room. -/
theorem pushBytes_of_room {bytes : Bytes} {v : PackUpload} (hne : bytes ≠ [])
    (hroom : (makeRoom backend joins).run u = .ok () v) :
    pushBytes backend joins bytes u =
      match flushFull.run (v.extended bytes) with
      | .error error u => .error error u
      | .ok () w => pushBytes backend joins (bytes.drop (v.partBytes - v.buffer.length)) w := by
  rw [pushBytes.eq_def, dif_neg hne]
  split
  · next hfailed => cases hroom.symm.trans hfailed
  · next v' hroom' =>
    cases hroom.symm.trans hroom'
    rfl

def push (bytes : Bytes) : EStateM IngestError PackUpload Unit := do
  let u ← get
  if maxU64 < u.encryptedBytes + bytes.length then
    throw (.storage (.invalidEnvelope "encrypted size overflow"))
  else
    set { u with encryptedBytes := u.encryptedBytes + bytes.length }
    pushBytes backend joins bytes

/-- `while !self.pending.is_empty()`; every round ends a task. -/
def finishParts : ℕ → EStateM IngestError PackUpload Unit
  | 0 => pure ()
  | rounds + 1 => do
    let u ← get
    if u.pending ≠ [] then
      finishPart backend joins
      finishParts rounds

/-- The parts in the order of their numbers. -/
def sortedParts (u : PackUpload) : List UploadedPart :=
  u.parts.mergeSort fun a b => a.partNumber ≤ b.partNumber

/-- The last part leaves, however short. -/
def flushRest : EStateM IngestError PackUpload Unit := do
  let u ← get
  if u.buffer ≠ [] then flushPart

/-- The upload after its only bytes were put. -/
def stored (u : PackUpload) : PackUpload :=
  { u with
    buffer := []
    calls := u.calls ++ [.put u.objectKey u.buffer]
    buffer_le := Nat.zero_le _ }

def completed (u : PackUpload) (upload : MultipartUpload) : PackUpload :=
  { u with multipart := none, calls := u.calls ++ [.complete upload u.sortedParts] }

/-- The size of the envelope, and the number of parts it was uploaded in. -/
def finish : EStateM IngestError PackUpload (ℕ × ℕ) := do
  let u ← get
  match u.multipart with
  | none =>
    if u.buffer = [] then
      throw (.storage (.invalidEnvelope "encrypted segment produced no bytes"))
    else
      set u.stored
      return (u.encryptedBytes, 0)
  | some upload =>
    flushRest
    let u ← get
    finishParts backend joins u.pending.length
    let u ← get
    if u.sortedParts = [] then
      throw (.storage (.invalidEnvelope "encrypted segment produced no multipart parts"))
    else if maxU32 < u.sortedParts.length then
      throw (.storage (.invalidEnvelope "multipart part count exceeds u32"))
    else
      set (u.completed upload)
      return (u.encryptedBytes, u.sortedParts.length)

end

end PackUpload

end ScopeVcs.Storage

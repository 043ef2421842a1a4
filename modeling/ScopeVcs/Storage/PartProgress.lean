import Mathlib.Data.List.Perm.Basic
import ScopeVcs.Storage.PackUpload

/-! # The parts of an upload

While bytes are pushed, everything that has left the buffer left it in full parts, numbered from one,
and each part is with a task that has ended or still runs. A push fails only where the part numbers or
the count of bytes end.
-/

namespace ScopeVcs.Storage

open Mutation Bytes

/-- What the task uploads when it ends. -/
def PartTask.part (backend : ObjectBackend) (task : PartTask) : UploadedPart :=
  backend.uploadPart task.upload task.partNumber task.bytes

def PartTask.call (task : PartTask) : BackendCall :=
  .uploadPart task.upload task.partNumber task.bytes

/-- The tasks of the parts, numbered in their order. -/
def partTasks (upload : MultipartUpload) (parts : List Bytes) : List PartTask :=
  (parts.zipIdx 1).map fun part => ⟨upload, part.2, part.1⟩

theorem partTasks_append (upload : MultipartUpload) (parts : List Bytes) (part : Bytes) :
    partTasks upload (parts ++ [part]) =
      partTasks upload parts ++ [⟨upload, parts.length + 1, part⟩] := by
  rw [partTasks, partTasks, List.zipIdx_append, List.map_append, Nat.add_comm parts.length 1]
  rfl

namespace PackUpload

variable {backend : ObjectBackend} {joins : ℕ → ℕ} {u u' : PackUpload} {flushed : List Bytes}
  {ended : List PartTask}

/-- The multipart upload of this object. -/
def target (u : PackUpload) (backend : ObjectBackend) : MultipartUpload := backend.begin_ u.objectKey

/-- What the upload has sent: the parts that left the buffer, and the tasks that have ended. -/
structure Sent (backend : ObjectBackend) (u : PackUpload) (flushed : List Bytes)
    (ended : List PartTask) : Prop where
  multipart : u.multipart = if flushed = [] then none else some (u.target backend)
  numbered : u.nextPartNumber = flushed.length + 1
  bounded : flushed.length < maxI32
  tasks : (ended ++ u.pending).Perm (partTasks (u.target backend) flushed)
  parts : u.parts = ended.map (PartTask.part backend)
  calls : u.calls = (if flushed = [] then [] else [.begin_ u.objectKey]) ++ ended.map PartTask.call
  inFlight : u.pending.length ≤ 2

/-- Between two pushes: only full parts have left, the last of them because a byte followed it or
because the multipart upload was open, and a buffer in use leaves room for its task. -/
structure Progress (backend : ObjectBackend) (u : PackUpload) (flushed : List Bytes)
    (ended : List PartTask) : Prop extends Sent backend u flushed ended where
  full : ∀ part ∈ flushed, part.length = u.partBytes
  room : flushed ≠ [] → u.buffer.length < u.partBytes
  reserved : u.buffer ≠ [] → u.pending.length ≤ 1

/-- The steps of an upload leave its object, its part size and its count alone. -/
structure SameObject (u u' : PackUpload) : Prop where
  objectKey : u'.objectKey = u.objectKey
  partBytes : u'.partBytes = u.partBytes
  encryptedBytes : u'.encryptedBytes = u.encryptedBytes

theorem SameObject.refl (u : PackUpload) : SameObject u u := ⟨rfl, rfl, rfl⟩

theorem SameObject.trans {u'' : PackUpload} (h : SameObject u u') (h' : SameObject u' u'') :
    SameObject u u'' :=
  ⟨h'.objectKey.trans h.objectKey, h'.partBytes.trans h.partBytes,
    h'.encryptedBytes.trans h.encryptedBytes⟩

/-! ## Tasks -/

namespace Sent

/-- Nothing has left yet. -/
theorem eq_nil (h : Sent backend u [] ended) : ended = [] ∧ u.pending = [] ∧ u.calls = [] := by
  obtain ⟨hended, hpending⟩ := List.append_eq_nil_iff.mp (List.Perm.eq_nil h.tasks)
  refine ⟨hended, hpending, ?_⟩
  rw [h.calls, hended]
  rfl

theorem multipart_eq (h : Sent backend u flushed ended) (hne : flushed ≠ []) :
    u.multipart = some (u.target backend) := by
  rw [h.multipart, if_neg hne]

/-- The buffer leaves while the multipart upload is open. -/
theorem spawned (h : Sent backend u flushed ended) (hne : flushed ≠ [])
    (hnumber : u.nextPartNumber < maxI32) (hfew : u.pending.length ≤ 1) :
    Sent backend (u.spawned (u.target backend)) (flushed ++ [u.buffer]) ended where
  multipart := by
    rw [if_neg (by simp)]
    exact h.multipart_eq hne
  numbered := by
    show u.nextPartNumber + 1 = _
    rw [h.numbered, List.length_append, List.length_singleton]
  bounded := by
    rw [List.length_append, List.length_singleton, ← h.numbered]
    exact hnumber
  tasks := by
    show (ended ++ (u.pending ++ [PartTask.mk _ u.nextPartNumber u.buffer])).Perm _
    rw [← List.append_assoc, h.numbered]
    exact (h.tasks.append_right _).trans (List.Perm.of_eq (partTasks_append ..).symm)
  parts := h.parts
  calls := by
    rw [if_neg (by simp)]
    show u.calls = _
    rw [h.calls, if_neg hne]
    rfl
  inFlight := by
    show (u.pending ++ [_]).length ≤ 2
    rw [List.length_append, List.length_singleton]
    omega

/-- The first part opens the multipart upload. -/
theorem opened_spawned (h : Sent backend u [] ended) :
    Sent backend ((u.opened backend).spawned (u.target backend)) [u.buffer] [] := by
  obtain ⟨-, hpending, hcalls⟩ := h.eq_nil
  exact {
    multipart := rfl
    numbered := congrArg (· + 1) h.numbered
    bounded := show 1 < maxI32 by decide
    tasks := by
      show (u.pending ++ [PartTask.mk _ u.nextPartNumber u.buffer]).Perm _
      rw [hpending, h.numbered]
      exact List.Perm.refl _
    parts := by
      show u.parts = _
      rw [h.parts, h.eq_nil.1]
    calls := by
      show u.calls ++ [.begin_ u.objectKey] = _
      rw [hcalls]
      rfl
    inFlight := by
      show (u.pending ++ [_]).length ≤ 2
      rw [hpending]
      exact Nat.le_succ 1 }

/-- A task ends. -/
theorem joined {index : ℕ} {task : PartTask} (h : Sent backend u flushed ended)
    (htask : u.pending[index]? = some task) :
    Sent backend { u.joined index task with parts := u.parts ++ [task.part backend] } flushed
      (ended ++ [task]) where
  multipart := h.multipart
  numbered := h.numbered
  bounded := h.bounded
  tasks := by
    refine List.Perm.trans ?_ h.tasks
    obtain ⟨hindex, rfl⟩ := List.getElem?_eq_some_iff.mp htask
    show (ended ++ [_] ++ u.pending.eraseIdx index).Perm _
    rw [List.append_assoc]
    exact (List.getElem_cons_eraseIdx_perm hindex).append_left ended
  parts := by
    show u.parts ++ [_] = _
    rw [h.parts, List.map_append]
    rfl
  calls := by
    show u.calls ++ [_] = _
    rw [h.calls, List.map_append, ← List.append_assoc]
    rfl
  inFlight := (List.length_eraseIdx_le u.pending index).trans h.inFlight

/-- A running task can be waited for. -/
theorem finishPart (h : Sent backend u flushed ended) (joins : ℕ → ℕ) (hpending : u.pending ≠ []) :
    ∃ u' ended', (finishPart backend joins).run u = .ok () u' ∧ Sent backend u' flushed ended' ∧
      SameObject u u' ∧ u'.buffer = u.buffer ∧ u'.pending.length + 1 = u.pending.length := by
  obtain ⟨index, task, htask, hrun⟩ := exists_finishPart backend joins hpending
  obtain ⟨hindex, -⟩ := List.getElem?_eq_some_iff.mp htask
  refine ⟨_, _, hrun, h.joined htask, ⟨rfl, rfl, rfl⟩, rfl, ?_⟩
  show (u.pending.eraseIdx index).length + 1 = _
  rw [List.length_eraseIdx_of_lt hindex]
  omega

end Sent

/-! ## Pushing -/

/-- As many parts can be numbered; the number behind the last one has to exist. -/
def maxParts : ℕ := maxI32 - 1

/-- The bytes pushed so far. -/
def pushed (u : PackUpload) (flushed : List Bytes) : Bytes := flushed.flatten ++ u.buffer

theorem length_flatten_of_full {parts : List Bytes} {size : ℕ}
    (h : ∀ part ∈ parts, part.length = size) : parts.flatten.length = parts.length * size := by
  induction parts with
  | nil => simp
  | cons part parts ih =>
    rw [List.flatten_cons, List.length_append, h part List.mem_cons_self,
      ih fun p hp => h p (List.mem_cons_of_mem _ hp), List.length_cons, Nat.succ_mul, Nat.add_comm]

namespace Progress

/-- A full buffer always finds a number: nothing has left before it. -/
theorem leave (h : Progress backend u flushed ended) :
    ∃ u' flushed' ended', (leave backend).run u = .ok () u' ∧ Progress backend u' flushed' ended' ∧
      SameObject u u' ∧ u'.pushed flushed' = u.pushed flushed ∧
      u'.buffer.length < u'.partBytes := by
  by_cases hfull : u.buffer.length = u.partBytes
  · obtain rfl : flushed = [] := by
      by_contra hne
      exact absurd (h.room hne) (by omega)
    have hmultipart : u.multipart = none := h.multipart
    have hnumber : u.nextPartNumber = 1 := h.numbered
    have hrun : (PackUpload.leave backend).run u =
        .ok () ((u.opened backend).spawned (u.target backend)) := by
      have hstart : (startMultipart backend).run u = .ok () (u.opened backend) := by
        rw [startMultipart_run, hmultipart]
      have hflush : flushPart.run (u.opened backend) =
          .ok () ((u.opened backend).spawned (u.target backend)) := by
        have hopened : (u.opened backend).multipart = some (u.target backend) := rfl
        rw [flushPart_run hopened, if_neg]
        show ¬maxI32 < u.nextPartNumber + 1
        rw [hnumber]
        decide
      rw [PackUpload.leave, get_bind_eq_ok, if_pos hfull]
      exact bind_eq_ok.mpr ⟨(), _, hstart, hflush⟩
    have hsent := h.toSent.opened_spawned
    refine ⟨_, [u.buffer], [], hrun, { hsent with
      full := ?_, room := fun _ => u.partBytes_pos, reserved := fun hne => absurd rfl hne },
      ⟨rfl, rfl, rfl⟩, ?_, u.partBytes_pos⟩
    · intro part hpart
      rw [List.mem_singleton.mp hpart]
      exact hfull
    · show [u.buffer].flatten ++ [] = u.buffer
      simp
  · refine ⟨u, flushed, ended, ?_, h, SameObject.refl u, rfl, lt_of_le_of_ne u.buffer_le hfull⟩
    rw [PackUpload.leave, get_bind_eq_ok, if_neg hfull]
    rfl

theorem reserve (h : Progress backend u flushed ended) (joins : ℕ → ℕ) :
    ∃ u' ended', (reserve backend joins).run u = .ok () u' ∧ Progress backend u' flushed ended' ∧
      SameObject u u' ∧ u'.buffer = u.buffer ∧ u'.pending.length ≤ 1 := by
  by_cases hwait : u.buffer = [] ∧ u.pending.length = 2
  · have hpending : u.pending ≠ [] := by
      intro hnil
      rw [hnil] at hwait
      exact absurd hwait.2 (by decide)
    obtain ⟨u', ended', hrun, hsent, hsame, hbuffer, hlength⟩ := h.toSent.finishPart joins hpending
    refine ⟨u', ended', ?_, { hsent with
      full := fun part hpart => (h.full part hpart).trans hsame.partBytes.symm
      room := fun hne => by
        rw [hbuffer, hsame.partBytes]
        exact h.room hne
      reserved := fun hne => absurd (hbuffer.trans hwait.1) hne }, hsame, hbuffer, by omega⟩
    rw [PackUpload.reserve, get_bind_eq_ok, if_pos hwait]
    exact hrun
  · refine ⟨u, ended, ?_, h, SameObject.refl u, rfl, ?_⟩
    · rw [PackUpload.reserve, get_bind_eq_ok, if_neg hwait]
      rfl
    · by_cases hbuffer : u.buffer = []
      · have hle := h.inFlight
        have hne : u.pending.length ≠ 2 := fun heq => hwait ⟨hbuffer, heq⟩
        omega
      · exact h.reserved hbuffer

/-- The first half of a round never fails. -/
theorem makeRoom (h : Progress backend u flushed ended) (joins : ℕ → ℕ) :
    ∃ u' flushed' ended', (makeRoom backend joins).run u = .ok () u' ∧
      Progress backend u' flushed' ended' ∧ SameObject u u' ∧
      u'.pushed flushed' = u.pushed flushed ∧ u'.pending.length ≤ 1 := by
  obtain ⟨v, flushed', ended₁, hleave, hv, hsame, hpushed, -⟩ := h.leave
  obtain ⟨u', ended', hreserve, hu', hsame', hbuffer, hpending⟩ := hv.reserve joins
  refine ⟨u', flushed', ended', bind_eq_ok.mpr ⟨(), v, hleave, hreserve⟩, hu', hsame.trans hsame',
    ?_, hpending⟩
  rw [pushed, hbuffer]
  exact hpushed

/-- The second half of a round, behind bytes that fit: the part leaves when it is full, unless the
numbers have run out. -/
theorem flushFull (hsent : Sent backend u flushed ended)
    (hfull : ∀ part ∈ flushed, part.length = u.partBytes) (hpending : u.pending.length ≤ 1) :
    (∃ u' flushed', flushFull.run u = .ok () u' ∧ Progress backend u' flushed' ended ∧
      SameObject u u' ∧ u'.pushed flushed' = u.pushed flushed ∧ (flushed = [] → flushed' = [])) ∨
    ∃ error, flushFull.run u = .error error u ∧
      maxParts * u.partBytes < (u.pushed flushed).length := by
  rw [flushFull_run]
  by_cases hleaves : u.multipart.isSome = true ∧ u.buffer.length = u.partBytes
  · rw [if_pos hleaves]
    have hne : flushed ≠ [] := by
      rintro rfl
      rw [show u.multipart = none from hsent.multipart] at hleaves
      exact absurd hleaves.1 (by decide)
    rw [flushPart_run (hsent.multipart_eq hne)]
    by_cases hnumber : maxI32 < u.nextPartNumber + 1
    · have hlast : flushed.length = maxParts := by
        have hnumbered := hsent.numbered
        have hbounded := hsent.bounded
        rw [maxParts]
        omega
      have hpos := u.partBytes_pos
      refine .inr ⟨_, if_pos hnumber, ?_⟩
      rw [pushed, List.length_append, length_flatten_of_full hfull, hlast, hleaves.2]
      omega
    · refine .inl ⟨_, flushed ++ [u.buffer], if_neg hnumber, {
        hsent.spawned hne (by omega) hpending with
        full := ?_
        room := fun _ => u.partBytes_pos
        reserved := fun hbuffer => absurd rfl hbuffer }, ⟨rfl, rfl, rfl⟩, ?_,
        fun hnil => absurd hnil hne⟩
      · intro part hpart
        rcases List.mem_append.mp hpart with hpart | hpart
        · exact hfull part hpart
        · rw [List.mem_singleton.mp hpart]
          exact hleaves.2
      · show (flushed ++ [u.buffer]).flatten ++ [] = flushed.flatten ++ u.buffer
        simp
  · refine .inl ⟨u, flushed, if_neg hleaves, { hsent with
      full := hfull
      room := fun hne => ?_
      reserved := fun _ => hpending }, SameObject.refl u, rfl, id⟩
    rw [hsent.multipart_eq hne] at hleaves
    exact lt_of_le_of_ne u.buffer_le fun heq => hleaves ⟨rfl, heq⟩

/-- The loop of `push` takes in all its bytes, unless they are more than the parts can hold. -/
theorem pushBytes (h : Progress backend u flushed ended)
    (hbeyond : flushed ≠ [] → u.partBytes < (u.pushed flushed).length) (joins : ℕ → ℕ)
    (bytes : Bytes) :
    (∃ u' flushed' ended', PackUpload.pushBytes backend joins bytes u = .ok () u' ∧
      Progress backend u' flushed' ended' ∧
      (flushed' ≠ [] → u'.partBytes < (u'.pushed flushed').length) ∧ SameObject u u' ∧
      u'.pushed flushed' = u.pushed flushed ++ bytes) ∨
    ∃ error u' flushed' ended', PackUpload.pushBytes backend joins bytes u = .error error u' ∧
      Sent backend u' flushed' ended' ∧
      maxParts * u.partBytes < (u.pushed flushed ++ bytes).length := by
  induction hlength : bytes.length using Nat.strongRecOn generalizing u flushed ended bytes with
  | ind length ih =>
    by_cases hne : bytes = []
    · refine .inl ⟨u, flushed, ended, ?_, h, hbeyond, SameObject.refl u,
        by rw [hne, List.append_nil]⟩
      rw [pushBytes.eq_def, dif_pos hne]
    · obtain ⟨v, flushed₁, ended₁, hroom, hv, hsame, hpushed, hpending⟩ := h.makeRoom joins
      rw [pushBytes_of_room hne hroom]
      have htaken : (v.extended bytes).pushed flushed₁ ++
          bytes.drop (v.partBytes - v.buffer.length) = u.pushed flushed ++ bytes := by
        rw [← hpushed]
        show flushed₁.flatten ++ (v.buffer ++ bytes.take _) ++ bytes.drop _ =
          flushed₁.flatten ++ v.buffer ++ bytes
        simp only [List.append_assoc, List.take_append_drop]
      have hsent : Sent backend (v.extended bytes) flushed₁ ended₁ := { hv.toSent with }
      rcases flushFull hsent hv.full hpending with
        ⟨w, flushed₂, hflush, hw, hsame', hpushed', hunsent⟩ | ⟨error, hflush, hover⟩
      · simp only [hflush]
        have hlt := length_buffer_lt hroom
        have hpos := List.length_pos_iff.mpr hne
        -- a part has left, and a byte was taken in behind it
        have hbeyond' : flushed₂ ≠ [] → w.partBytes < (w.pushed flushed₂).length := by
          intro hne₂
          have hfirst : v.partBytes ≤ flushed₁.flatten.length := by
            rw [length_flatten_of_full hv.full]
            exact Nat.le_mul_of_pos_left _ (List.length_pos_iff.mpr fun hnil => hne₂ (hunsent hnil))
          rw [hpushed', hsame'.partBytes]
          show v.partBytes < (flushed₁.flatten ++ (v.buffer ++ bytes.take _)).length
          rw [List.length_append, List.length_append, List.length_take]
          omega
        rw [hpushed'.symm] at htaken
        have hshorter : (bytes.drop (v.partBytes - v.buffer.length)).length < length := by
          rw [List.length_drop]
          omega
        have hsame₂ : SameObject u w := hsame.trans ⟨hsame'.objectKey, hsame'.partBytes,
          hsame'.encryptedBytes⟩
        rcases ih _ hshorter hw hbeyond' _ rfl with
          ⟨u', flushed', ended', hrest, hu', hbeyond'', hsame'', hpushed''⟩ |
          ⟨error, u', flushed', ended', hrest, hu', hover⟩
        · exact .inl ⟨u', flushed', ended', hrest, hu', hbeyond'', hsame₂.trans hsame'',
            hpushed''.trans htaken⟩
        · refine .inr ⟨error, u', flushed', ended', hrest, hu', ?_⟩
          rwa [hsame₂.partBytes, htaken] at hover
      · simp only [hflush]
        refine .inr ⟨error, _, flushed₁, ended₁, rfl, hsent, ?_⟩
        have hover' : maxParts * v.partBytes < ((v.extended bytes).pushed flushed₁).length := hover
        rw [← htaken, List.length_append, ← hsame.partBytes]
        omega

end Progress

/-! ## Whole pushes -/

/-- So many bytes fit the parts and the count. -/
def Fits (partBytes length : ℕ) : Prop := length ≤ maxU64 ∧ length ≤ maxParts * partBytes

/-- Nothing that was called has stored an object. -/
def Unstored (calls : List BackendCall) : Prop := ∀ call ∈ calls, call.stores = false

theorem Sent.unstored (h : Sent backend u flushed ended) : Unstored u.calls := by
  intro call hcall
  rw [h.calls] at hcall
  rcases List.mem_append.mp hcall with hcall | hcall
  · split at hcall
    · exact absurd hcall List.not_mem_nil
    · rw [List.mem_singleton.mp hcall]
      rfl
  · obtain ⟨task, -, rfl⟩ := List.mem_map.mp hcall
    rfl

/-- An upload to this object that has taken in exactly these bytes. A part leaves only when more than
a part was pushed. -/
structure Took (backend : ObjectBackend) (objectKey : Bytes) (partBytes : ℕ) (u : PackUpload)
    (bytes : Bytes) : Prop where
  progress : ∃ flushed ended, Progress backend u flushed ended ∧ u.pushed flushed = bytes ∧
    (flushed ≠ [] → partBytes < bytes.length)
  objectKey : u.objectKey = objectKey
  partBytes : u.partBytes = partBytes
  counted : u.encryptedBytes = bytes.length
  counted_le : bytes.length ≤ maxU64

theorem took_new (backend : ObjectBackend) (objectKey : Bytes) (partBytes : ℕ)
    (hpos : 0 < partBytes) :
    Took backend objectKey partBytes (new objectKey partBytes hpos) [] where
  progress := by
    refine ⟨[], [], ?_, rfl, fun hne => absurd rfl hne⟩
    exact {
      multipart := rfl
      numbered := rfl
      bounded := by decide
      tasks := List.Perm.refl _
      parts := rfl
      calls := rfl
      inFlight := Nat.zero_le _
      full := fun part hpart => absurd hpart List.not_mem_nil
      room := fun hne => absurd rfl hne
      reserved := fun hne => absurd rfl hne }
  objectKey := rfl
  partBytes := rfl
  counted := rfl
  counted_le := Nat.zero_le _

section Took

variable {objectKey : Bytes} {partBytes : ℕ} {sofar : Bytes}

theorem Took.unstored (h : Took backend objectKey partBytes u sofar) : Unstored u.calls := by
  obtain ⟨flushed, ended, hprogress, -⟩ := h.progress
  exact hprogress.toSent.unstored

theorem Took.push (h : Took backend objectKey partBytes u sofar) (joins : ℕ → ℕ) (bytes : Bytes) :
    (∃ u', (push backend joins bytes).run u = .ok () u' ∧
      Took backend objectKey partBytes u' (sofar ++ bytes)) ∨
    ∃ error u', (push backend joins bytes).run u = .error error u' ∧ Unstored u'.calls ∧
      ¬Fits partBytes (sofar ++ bytes).length := by
  obtain ⟨flushed, ended, hprogress, hpushed, hbeyond⟩ := h.progress
  have hcount : u.encryptedBytes + bytes.length = (sofar ++ bytes).length := by
    rw [h.counted, List.length_append]
  have hrun : (PackUpload.push backend joins bytes).run u =
      if maxU64 < u.encryptedBytes + bytes.length then
        .error (.storage (.invalidEnvelope "encrypted size overflow")) u
      else PackUpload.pushBytes backend joins bytes
        { u with encryptedBytes := u.encryptedBytes + bytes.length } := by
    rw [PackUpload.push, EStateM.run_bind, EStateM.run_get]
    by_cases hover : maxU64 < u.encryptedBytes + bytes.length
    · simp only [if_pos hover]
      rfl
    · simp only [if_neg hover]
      rfl
  rw [hrun]
  by_cases hover : maxU64 < u.encryptedBytes + bytes.length
  · rw [if_pos hover]
    refine .inr ⟨_, u, rfl, h.unstored, fun hfits => ?_⟩
    rw [hcount] at hover
    exact absurd hfits.1 (not_le.mpr hover)
  · rw [if_neg hover]
    have hcounted : Progress backend { u with encryptedBytes := u.encryptedBytes + bytes.length }
        flushed ended := { hprogress with }
    have hbeyond' : flushed ≠ [] → u.partBytes < (u.pushed flushed).length := by
      rw [hpushed, h.partBytes]
      exact hbeyond
    rcases hcounted.pushBytes hbeyond' joins bytes with
      ⟨u', flushed', ended', hloop, hu', hlonger, hsame, htaken⟩ |
      ⟨error, u', flushed', ended', hloop, hu', hmany⟩
    · have htaken' : u'.pushed flushed' = sofar ++ bytes := htaken.trans (congrArg (· ++ bytes) hpushed)
      refine .inl ⟨u', hloop, ⟨flushed', ended', hu', htaken', ?_⟩, hsame.objectKey.trans h.objectKey,
        hsame.partBytes.trans h.partBytes, hsame.encryptedBytes.trans hcount, ?_⟩
      · rw [← htaken', ← hsame.partBytes.trans h.partBytes]
        exact hlonger
      · rw [← hcount]
        exact not_lt.mp hover
    · refine .inr ⟨error, u', hloop, hu'.unstored, fun hfits => ?_⟩
      change maxParts * u.partBytes < (u.pushed flushed ++ bytes).length at hmany
      rw [hpushed, h.partBytes] at hmany
      exact absurd hfits.2 (not_le.mpr hmany)

end Took

/-! ## The end of an upload -/

/-- All running tasks end, in whatever order. -/
theorem Sent.finishParts (h : Sent backend u flushed ended) (joins : ℕ → ℕ) :
    ∃ u' ended', (finishParts backend joins u.pending.length).run u = .ok () u' ∧
      Sent backend u' flushed ended' ∧ SameObject u u' ∧ u'.pending = [] := by
  induction hlength : u.pending.length generalizing u ended with
  | zero => exact ⟨u, ended, rfl, h, SameObject.refl u, List.length_eq_zero_iff.mp hlength⟩
  | succ rounds ih =>
    have hpending : u.pending ≠ [] := by
      intro hnil
      rw [hnil] at hlength
      cases hlength
    obtain ⟨v, ended₁, hfinish, hv, hsame, -, hless⟩ := h.finishPart joins hpending
    obtain ⟨u', ended', hrest, hu', hsame', hnone⟩ := ih hv (by omega)
    refine ⟨u', ended', ?_, hu', hsame.trans hsame', hnone⟩
    rw [PackUpload.finishParts, get_bind_eq_ok, if_pos hpending]
    exact bind_eq_ok.mpr ⟨(), v, hfinish, hrest⟩

theorem partNumbers_partTasks (upload : MultipartUpload) (parts : List Bytes) :
    (partTasks upload parts).map PartTask.partNumber = List.range' 1 parts.length := by
  rw [partTasks, List.map_map]
  exact List.zipIdx_map_snd 1 parts

/-- Sorting brings the parts back into the order of their tasks. -/
theorem sortedParts_eq {upload : MultipartUpload} {parts : List Bytes}
    (hparts : u.parts = ended.map (PartTask.part backend))
    (hended : ended.Perm (partTasks upload parts)) :
    u.sortedParts = (partTasks upload parts).map (PartTask.part backend) := by
  let le := fun a b : UploadedPart => a.partNumber ≤ b.partNumber
  have hnumber : ∀ task : PartTask, (task.part backend).partNumber = task.partNumber :=
    fun task => backend.partNumber_uploadPart ..
  have hnumbers := partNumbers_partTasks upload parts
  have hperm : u.sortedParts.Perm ((partTasks upload parts).map (PartTask.part backend)) := by
    refine (List.mergeSort_perm _ _).trans ?_
    rw [hparts]
    exact hended.map _
  have hsorted : u.sortedParts.Pairwise le := by
    have hmerge : u.sortedParts.Pairwise fun a b => decide (a.partNumber ≤ b.partNumber) = true :=
      List.pairwise_mergeSort (fun a b c => by simpa using Nat.le_trans)
        (fun a b => by simpa using Nat.le_total _ _) u.parts
    exact hmerge.imp fun h => of_decide_eq_true h
  have hinorder : ((partTasks upload parts).map (PartTask.part backend)).Pairwise le := by
    have hlt : ((partTasks upload parts).map PartTask.partNumber).Pairwise (· < ·) := by
      rw [hnumbers]
      exact List.pairwise_lt_range'
    rw [List.pairwise_map] at hlt ⊢
    refine hlt.imp fun {a b} h => ?_
    show (a.part backend).partNumber ≤ (b.part backend).partNumber
    rw [hnumber, hnumber]
    exact h.le
  refine List.Perm.eq_of_pairwise (fun a b ha hb hab hba => ?_) hsorted hinorder hperm
  obtain ⟨task, htask, rfl⟩ := List.mem_map.mp (hperm.mem_iff.mp ha)
  obtain ⟨task', htask', rfl⟩ := List.mem_map.mp hb
  have heq : task.partNumber = task'.partNumber := by
    rw [← hnumber task, ← hnumber task']
    exact Nat.le_antisymm hab hba
  have hnodup : ((partTasks upload parts).map PartTask.partNumber).Nodup := by
    rw [hnumbers]
    exact List.nodup_range'
  rw [List.inj_on_of_nodup_map hnodup htask htask' heq]

/-- How an envelope is stored: whole, or in numbered parts that make it up, all but the last of them
full and none empty. -/
inductive StoredAs (backend : ObjectBackend) (objectKey : Bytes) (partBytes : ℕ) (envelope : Bytes) :
    List BackendCall → ℕ → Prop where
  | put (hshort : envelope.length ≤ partBytes) :
      StoredAs backend objectKey partBytes envelope [.put objectKey envelope] 0
  | multipart {parts : List Bytes} {ended : List PartTask} (hlong : partBytes < envelope.length)
      (hflatten : parts.flatten = envelope)
      (hfull : ∀ part ∈ parts.dropLast, part.length = partBytes)
      (hparts : ∀ part ∈ parts, part ≠ [] ∧ part.length ≤ partBytes)
      (hended : ended.Perm (partTasks (backend.begin_ objectKey) parts)) :
      StoredAs backend objectKey partBytes envelope
        (.begin_ objectKey :: ended.map PartTask.call ++
          [.complete (backend.begin_ objectKey)
            ((partTasks (backend.begin_ objectKey) parts).map (PartTask.part backend))])
        parts.length

section

variable {objectKey : Bytes} {partBytes : ℕ} {envelope : Bytes}

/-- The last part leaves. -/
theorem Progress.flushRest (h : Progress backend u flushed ended) (hne : flushed ≠ []) :
    (∃ u' parts, flushRest.run u = .ok () u' ∧ Sent backend u' parts ended ∧ SameObject u u' ∧
      parts ≠ [] ∧ parts.flatten = u.pushed flushed ∧
      (∀ part ∈ parts.dropLast, part.length = u.partBytes) ∧
      ∀ part ∈ parts, part ≠ [] ∧ part.length ≤ u.partBytes) ∨
    ∃ error, flushRest.run u = .error error u ∧
      maxParts * u.partBytes < (u.pushed flushed).length := by
  have hpos := u.partBytes_pos
  have hflushed : ∀ part ∈ flushed, part ≠ [] ∧ part.length ≤ u.partBytes := by
    intro part hpart
    have hlength := h.full part hpart
    exact ⟨List.length_pos_iff.mp (by omega), hlength.le⟩
  have hrun : PackUpload.flushRest.run u =
      if u.buffer ≠ [] then flushPart.run u else .ok () u := by
    rw [PackUpload.flushRest, EStateM.run_bind, EStateM.run_get]
    by_cases hbuffer : u.buffer ≠ []
    · simp only [if_pos hbuffer]
    · simp only [if_neg hbuffer]
      rfl
  rw [hrun]
  by_cases hbuffer : u.buffer = []
  · rw [if_neg (not_not.mpr hbuffer)]
    refine .inl ⟨u, flushed, rfl, h.toSent, SameObject.refl u, hne, ?_,
      fun part hpart => h.full part ((List.dropLast_sublist _).subset hpart), hflushed⟩
    rw [pushed, hbuffer, List.append_nil]
  · rw [if_pos hbuffer, flushPart_run (h.multipart_eq hne)]
    have hrest := List.length_pos_iff.mpr hbuffer
    by_cases hnumber : maxI32 < u.nextPartNumber + 1
    · have hlast : flushed.length = maxParts := by
        have hnumbered := h.numbered
        have hbounded := h.bounded
        rw [maxParts]
        omega
      refine .inr ⟨_, if_pos hnumber, ?_⟩
      rw [pushed, List.length_append, length_flatten_of_full h.full, hlast]
      omega
    · refine .inl ⟨_, flushed ++ [u.buffer], if_neg hnumber,
        h.toSent.spawned hne (by omega) (h.reserved hbuffer), ⟨rfl, rfl, rfl⟩, by simp, ?_, ?_, ?_⟩
      · rw [List.flatten_append, List.flatten_singleton, pushed]
      · rw [List.dropLast_concat]
        exact h.full
      · intro part hpart
        rcases List.mem_append.mp hpart with hpart | hpart
        · exact hflushed part hpart
        · rw [List.mem_singleton.mp hpart]
          exact ⟨hbuffer, u.buffer_le⟩

theorem length_flatten_le_of_bounded {parts : List Bytes} {size : ℕ}
    (h : ∀ part ∈ parts, part ≠ [] ∧ part.length ≤ size) (hbounded : parts.length < maxI32) :
    parts.flatten.length ≤ maxParts * size := by
  have hle := Bytes.length_flatten_le fun part hpart => (h part hpart).2
  have hparts : parts.length ≤ maxParts := by
    rw [maxParts]
    omega
  exact hle.trans (Nat.mul_le_mul_right size hparts)

/-- The upload ends with the object stored, unless the envelope is longer than the parts can be. -/
theorem Took.finish (h : Took backend objectKey partBytes u envelope) (hne : envelope ≠ [])
    (joins : ℕ → ℕ) :
    (∃ u' uploadedParts, (finish backend joins).run u = .ok (envelope.length, uploadedParts) u' ∧
      StoredAs backend objectKey partBytes envelope u'.calls uploadedParts ∧
      Fits partBytes envelope.length) ∨
    ∃ error u', (finish backend joins).run u = .error error u' ∧ Unstored u'.calls ∧
      ¬Fits partBytes envelope.length := by
  obtain ⟨flushed, ended, hprogress, hpushed, hbeyond⟩ := h.progress
  obtain rfl := h.objectKey
  obtain rfl := h.partBytes
  have hpos := u.partBytes_pos
  by_cases hflushed : flushed = []
  · subst hflushed
    have hbuffer : u.buffer = envelope := hpushed
    have hshort : envelope.length ≤ u.partBytes := hbuffer ▸ u.buffer_le
    have hrun : (PackUpload.finish backend joins).run u = .ok (envelope.length, 0) u.stored := by
      have hmultipart : u.multipart = none := hprogress.multipart
      have hsome : u.buffer ≠ [] := hbuffer ▸ hne
      rw [PackUpload.finish, EStateM.run_bind, EStateM.run_get]
      simp only [hmultipart, if_neg hsome, ← h.counted]
      rfl
    refine .inl ⟨_, 0, hrun, ?_, h.counted_le, hshort.trans ?_⟩
    · show StoredAs backend u.objectKey u.partBytes envelope (u.calls ++ [.put u.objectKey u.buffer]) 0
      rw [hprogress.toSent.eq_nil.2.2, hbuffer]
      exact .put hshort
    · exact Nat.le_mul_of_pos_left _ (by decide)
  · have hmultipart := hprogress.multipart_eq hflushed
    rcases hprogress.flushRest hflushed with
      ⟨v, parts, hflush, hv, hsame, hparts, hflatten, hfull, hsizes⟩ | ⟨error, hflush, hmany⟩
    · obtain ⟨w, ended', hfinish, hw, hsame', hnone⟩ := hv.finishParts joins
      have hkey : w.objectKey = u.objectKey := hsame'.objectKey.trans hsame.objectKey
      have htarget : w.target backend = backend.begin_ u.objectKey := congrArg backend.begin_ hkey
      have htasks : ended'.Perm (partTasks (backend.begin_ u.objectKey) parts) := by
        have hperm := hw.tasks
        rwa [hnone, List.append_nil, htarget] at hperm
      have hsorted := sortedParts_eq hw.parts htasks
      have hlength : w.sortedParts.length = parts.length := by
        rw [hsorted, List.length_map, partTasks, List.length_map, List.length_zipIdx]
      have hsome : w.sortedParts ≠ [] := by
        rw [← List.length_pos_iff, hlength]
        exact List.length_pos_iff.mpr hparts
      have hu32 : ¬maxU32 < w.sortedParts.length := by
        have hbounded := hv.bounded
        have hle : maxI32 ≤ maxU32 := by decide
        omega
      have hcounted : w.encryptedBytes = envelope.length :=
        hsame'.encryptedBytes.trans (hsame.encryptedBytes.trans h.counted)
      have hrun : (PackUpload.finish backend joins).run u =
          .ok (envelope.length, parts.length) (w.completed (u.target backend)) := by
        rw [PackUpload.finish, get_bind_eq_ok]
        simp only [hmultipart]
        refine bind_eq_ok.mpr ⟨(), v, hflush, get_bind_eq_ok.mpr (bind_eq_ok.mpr ⟨(), w, hfinish, ?_⟩)⟩
        rw [get_bind_eq_ok, if_neg hsome, if_neg hu32, ← hcounted, ← hlength]
        rfl
      refine .inl ⟨_, _, hrun, ?_, h.counted_le, ?_⟩
      · show StoredAs backend u.objectKey u.partBytes envelope
          (w.calls ++ [.complete (u.target backend) w.sortedParts]) parts.length
        rw [hw.calls, if_neg hparts, hsorted, hkey]
        exact .multipart (hbeyond hflushed) (hflatten.trans hpushed) hfull hsizes htasks
      · rw [← hpushed, ← hflatten]
        exact length_flatten_le_of_bounded hsizes hv.bounded
    · have hrun : (PackUpload.finish backend joins).run u = .error error u := by
        rw [PackUpload.finish, EStateM.run_bind, EStateM.run_get]
        simp only [hmultipart]
        exact bind_eq_error.mpr (.inl hflush)
      refine .inr ⟨error, u, hrun, h.unstored, fun hfits => ?_⟩
      rw [hpushed] at hmany
      exact absurd hfits.2 (not_le.mpr hmany)

end

end PackUpload

end ScopeVcs.Storage

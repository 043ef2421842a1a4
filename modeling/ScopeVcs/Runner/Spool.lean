import ScopeVcs.Lib.Ring

/-! # The log spool

The readers of a step's two streams put what they read into a circular file, each read behind a header
with its stream and its length; the uploader takes the records out in turn. `contents` is what the
file holds for the uploader: a record is appended to it when there is room, and the first is removed.
-/

namespace ScopeVcs.Runner

open Bytes

def LOG_READ_BYTES : ℕ := 16 * 1024

def HEADER_BYTES : ℕ := 5

inductive OutputStream where
  | stdout
  | stderr
  deriving DecidableEq

namespace OutputStream

def name : OutputStream → String
  | stdout => "stdout"
  | stderr => "stderr"

def tag : OutputStream → UInt8
  | stdout => 0
  | stderr => 1

def ofTag (tag : UInt8) : Option OutputStream :=
  if tag = 0 then some stdout else if tag = 1 then some stderr else none

@[simp] theorem ofTag_tag (stream : OutputStream) : ofTag stream.tag = some stream := by
  cases stream <;> rfl

end OutputStream

/-- What a reader gives the uploader. -/
inductive ReaderEvent where
  | chunk (stream : OutputStream) (bytes : Bytes)
  | failed (stream : OutputStream) (error : String)
  deriving DecidableEq

inductive RecvTimeoutError where
  | timeout
  | disconnected
  deriving DecidableEq

structure LogSpool where
  capacity : ℕ
  file : Bytes
  readAt : ℕ
  writeAt : ℕ
  used : ℕ
  readers : ℕ
  failure : Option ReaderEvent
  discarding : Bool

/-- What `send` does once it holds the lock. A record longer than the spool is a panic. -/
inductive SendOutcome where
  | panics
  | waits
  | returned (sent : Bool) (spool : LogSpool)

/-- The bytes of a `u32`, least significant first. -/
def u32ToLeBytes (n : ℕ) : Bytes := (be 4 n).reverse

def u32FromLeBytes (bytes : Bytes) : ℕ := ofBe bytes.reverse

/-- A record in the file. -/
def record (stream : OutputStream) (bytes : Bytes) : Bytes :=
  stream.tag :: u32ToLeBytes bytes.length ++ bytes

namespace LogSpool

def new (capacity readers : ℕ) : LogSpool :=
  ⟨capacity, List.replicate capacity 0, 0, 0, 0, readers, none, false⟩

def write (spool : LogSpool) (offset : ℕ) (bytes : Bytes) : LogSpool :=
  let split := min bytes.length (spool.capacity - offset)
  let file := Bytes.write spool.file offset (bytes.take split)
  { spool with file := Bytes.write file 0 (bytes.drop split) }

def read (spool : LogSpool) (offset length : ℕ) : Bytes :=
  let split := min length (spool.capacity - offset)
  slice spool.file offset split ++ slice spool.file 0 (length - split)

/-- One attempt of `send` to put a chunk into the spool; it waits while there is no room. -/
def send (spool : LogSpool) (event : ReaderEvent) (stop : Bool) : SendOutcome :=
  match event with
  | .failed _ _ => .returned true { spool with failure := some event }
  | .chunk stream bytes =>
    if spool.discarding then .returned true spool
    else
      let recordBytes := HEADER_BYTES + bytes.length
      if spool.capacity < recordBytes then .panics
      else if stop || spool.failure.isSome then .returned false spool
      else if spool.capacity - spool.used < recordBytes then .waits
      else
        let header := stream.tag :: u32ToLeBytes bytes.length
        let written := spool.write spool.writeAt header
        let written := written.write ((spool.writeAt + HEADER_BYTES) % spool.capacity) bytes
        .returned true { written with
          writeAt := (spool.writeAt + recordBytes) % spool.capacity
          used := spool.used + recordBytes }

def discardOutput (spool : LogSpool) : LogSpool :=
  { spool with discarding := true, used := 0, readAt := spool.writeAt }

def closeReader (spool : LogSpool) : LogSpool :=
  { spool with readers := spool.readers - 1 }

/-- The record at the front. -/
def readRecord (spool : LogSpool) : ReaderEvent × LogSpool :=
  let header := spool.read spool.readAt HEADER_BYTES
  let length := u32FromLeBytes header.tail
  if LOG_READ_BYTES < length then
    (.failed .stdout "invalid log spool record length", spool)
  else
    let bytes := spool.read ((spool.readAt + HEADER_BYTES) % spool.capacity) length
    match OutputStream.ofTag (header.headD 0) with
    | none => (.failed .stdout "invalid log spool stream", spool)
    | some stream =>
      let recordBytes := HEADER_BYTES + length
      (.chunk stream bytes, { spool with
        readAt := (spool.readAt + recordBytes) % spool.capacity
        used := spool.used - recordBytes })

/-- One look of `recv_timeout` at the spool; it waits when there is nothing to return. -/
def recvTimeout (spool : LogSpool) (expired : Bool) :
    Option (Except RecvTimeoutError ReaderEvent × LogSpool) :=
  if 0 < spool.used then
    let (event, spool) := spool.readRecord
    some (.ok event, spool)
  else
    match spool.failure with
    | some failure => some (.ok failure, { spool with failure := none })
    | none =>
      if spool.readers = 0 then some (.error .disconnected, spool)
      else if expired then some (.error .timeout, spool)
      else none

/-! ## What the spool holds -/

/-- The bytes that were not read yet. -/
def contents (spool : LogSpool) : Bytes := window spool.file spool.readAt spool.used

/-- The positions in the file agree with the bytes that were not read yet. -/
structure WellFormed (spool : LogSpool) : Prop where
  file_length : spool.file.length = spool.capacity
  used_le : spool.used ≤ spool.capacity
  readAt_lt : 0 < spool.capacity → spool.readAt < spool.capacity
  writeAt_eq : 0 < spool.capacity → spool.writeAt = (spool.readAt + spool.used) % spool.capacity

end LogSpool

section Records

variable {stream : OutputStream} {bytes : Bytes}

@[simp] theorem length_u32ToLeBytes (n : ℕ) : (u32ToLeBytes n).length = 4 := by
  rw [u32ToLeBytes, List.length_reverse, length_be]

theorem u32FromLeBytes_toLeBytes {n : ℕ} (h : n ≤ LOG_READ_BYTES) :
    u32FromLeBytes (u32ToLeBytes n) = n := by
  have hlt : n < 256 ^ 4 := lt_of_le_of_lt h (by decide)
  rw [u32FromLeBytes, u32ToLeBytes, List.reverse_reverse, ofBe_be_of_lt hlt]

@[simp] theorem length_record : (record stream bytes).length = HEADER_BYTES + bytes.length := by
  rw [record, List.length_append, List.length_cons, length_u32ToLeBytes]
  rfl

end Records

namespace LogSpool

variable {spool spool' : LogSpool} {stream : OutputStream} {bytes rest : Bytes}

theorem write_file (h : spool.file.length = spool.capacity) (offset : ℕ) (bytes : Bytes) :
    (spool.write offset bytes).file = writeAround spool.file offset bytes := by
  unfold write writeAround
  rw [h]

theorem read_eq_window (h : spool.WellFormed) {offset length : ℕ} (hoffset : offset < spool.capacity)
    (hlength : length ≤ spool.capacity) : spool.read offset length = window spool.file offset length := by
  rw [← readAround_eq_window (by rw [h.file_length]; exact hoffset) (by rw [h.file_length]; exact hlength)]
  unfold read readAround
  rw [h.file_length]

theorem wellFormed_new (capacity readers : ℕ) : (new capacity readers).WellFormed where
  file_length := List.length_replicate
  used_le := Nat.zero_le _
  readAt_lt h := h
  writeAt_eq _ := (Nat.zero_mod _).symm

@[simp] theorem contents_new (capacity readers : ℕ) : (new capacity readers).contents = [] := rfl

theorem send_panics {stop : Bool} (hdiscarding : spool.discarding = false)
    (hlong : spool.capacity < HEADER_BYTES + bytes.length) :
    spool.send (.chunk stream bytes) stop = .panics := by
  rw [send, if_neg (by simp [hdiscarding]), if_pos hlong]

/-- There is room when `send` returns, and the record is behind everything that was not read. -/
theorem send_eq (h : spool.WellFormed) (hdiscarding : spool.discarding = false)
    (hfailure : spool.failure = none)
    (hfits : HEADER_BYTES + bytes.length ≤ spool.capacity) :
    (spool.capacity - spool.used < HEADER_BYTES + bytes.length ∧
        spool.send (.chunk stream bytes) false = .waits) ∨
      ∃ spool', spool.send (.chunk stream bytes) false = .returned true spool' ∧
        spool'.WellFormed ∧ spool'.contents = spool.contents ++ record stream bytes ∧
        spool'.capacity = spool.capacity ∧ spool'.readers = spool.readers ∧
        spool'.failure = spool.failure ∧ spool'.discarding = spool.discarding := by
  have hcapacity : 0 < spool.capacity := lt_of_lt_of_le (by unfold HEADER_BYTES; omega) hfits
  rw [send, if_neg (by simp [hdiscarding]), if_neg (not_lt.mpr hfits),
    if_neg (by simp [hfailure])]
  by_cases hroom : spool.capacity - spool.used < HEADER_BYTES + bytes.length
  · exact .inl ⟨hroom, if_pos hroom⟩
  · right
    rw [if_neg hroom]
    have hused := h.used_le
    have hfile := h.file_length
    have hreadAt : spool.readAt < spool.file.length := by
      rw [h.file_length]
      exact h.readAt_lt hcapacity
    have hheader : (stream.tag :: u32ToLeBytes bytes.length).length = HEADER_BYTES := by
      rw [List.length_cons, length_u32ToLeBytes]
      rfl
    have hfirst : (spool.write spool.writeAt (stream.tag :: u32ToLeBytes bytes.length)).file =
        writeAround spool.file ((spool.readAt + spool.used) % spool.file.length)
          (stream.tag :: u32ToLeBytes bytes.length) := by
      rw [write_file h.file_length, h.writeAt_eq hcapacity, h.file_length]
    have hlength : (spool.write spool.writeAt (stream.tag :: u32ToLeBytes bytes.length)).file.length =
        spool.file.length := by
      rw [hfirst, length_writeAround (Nat.mod_lt _ (by omega)).le (by rw [hheader]; omega)]
    have hsecond : (spool.writeAt + HEADER_BYTES) % spool.capacity =
        (spool.readAt + (spool.used + HEADER_BYTES)) %
          (spool.write spool.writeAt (stream.tag :: u32ToLeBytes bytes.length)).file.length := by
      rw [hlength, h.file_length, h.writeAt_eq hcapacity, Nat.mod_add_mod, Nat.add_assoc]
    refine ⟨_, rfl, ⟨?_, ?_, h.readAt_lt, fun _ => ?_⟩, ?_, rfl, rfl, rfl, rfl⟩
    · show (LogSpool.write _ _ _).file.length = spool.capacity
      rw [write_file (hlength.trans hfile), length_writeAround _ (by rw [hlength]; omega), hlength,
        hfile]
      rw [hlength, hfile]
      exact (Nat.mod_lt _ hcapacity).le
    · show spool.used + (HEADER_BYTES + bytes.length) ≤ spool.capacity
      omega
    · show (spool.writeAt + (HEADER_BYTES + bytes.length)) % spool.capacity =
        (spool.readAt + (spool.used + (HEADER_BYTES + bytes.length))) % spool.capacity
      rw [h.writeAt_eq hcapacity, Nat.mod_add_mod, Nat.add_assoc]
    · show window (LogSpool.write _ _ _).file spool.readAt
          (spool.used + (HEADER_BYTES + bytes.length)) = _
      have hbehind : spool.used + (HEADER_BYTES + bytes.length) =
          spool.used + HEADER_BYTES + bytes.length := (Nat.add_assoc _ _ _).symm
      rw [write_file (hlength.trans hfile), hsecond, hbehind,
        window_writeAround (by rw [hlength]; exact hreadAt) (by rw [hlength]; omega), hfirst,
        ← hheader, window_writeAround hreadAt (by rw [hheader]; omega), List.append_assoc]
      rfl

/-- The first record of what was not read is what comes out, and the others stay. -/
theorem readRecord_eq (h : spool.WellFormed) (hlength : bytes.length ≤ LOG_READ_BYTES)
    (hcontents : spool.contents = record stream bytes ++ rest) :
    ∃ spool', spool.readRecord = (.chunk stream bytes, spool') ∧ spool'.WellFormed ∧
      spool'.contents = rest ∧ spool'.used = rest.length ∧ spool'.capacity = spool.capacity ∧
      spool'.readers = spool.readers ∧ spool'.failure = spool.failure ∧
      spool'.discarding = spool.discarding := by
  have hused : spool.used = HEADER_BYTES + bytes.length + rest.length := by
    have hlengths := congrArg List.length hcontents
    rwa [contents, length_window, List.length_append, length_record] at hlengths
  have hle := h.used_le
  have hcapacity : 0 < spool.capacity := lt_of_lt_of_le (by unfold HEADER_BYTES at hused; omega) hle
  have hreadAt := h.readAt_lt hcapacity
  have hbody : (spool.readAt + HEADER_BYTES) % spool.capacity < spool.capacity := Nat.mod_lt _ hcapacity
  have hparts : spool.contents = window spool.file spool.readAt HEADER_BYTES ++
      (window spool.file ((spool.readAt + HEADER_BYTES) % spool.capacity) bytes.length ++
        window spool.file ((spool.readAt + (HEADER_BYTES + bytes.length)) % spool.capacity)
          rest.length) := by
    rw [contents, hused, Nat.add_assoc, window_add, window_add, h.file_length, Nat.mod_add_mod,
      Nat.add_assoc]
  have hheaderlength : (stream.tag :: u32ToLeBytes bytes.length).length = HEADER_BYTES := by
    rw [List.length_cons, length_u32ToLeBytes]
    rfl
  rw [hparts, record, List.append_assoc] at hcontents
  obtain ⟨hheader, hbehind⟩ := List.append_inj hcontents (by rw [length_window, hheaderlength])
  obtain ⟨hbytes, hrest⟩ := List.append_inj hbehind length_window
  have hread : spool.read spool.readAt HEADER_BYTES = stream.tag :: u32ToLeBytes bytes.length := by
    rw [read_eq_window h hreadAt (by omega), hheader]
  have hlen : u32FromLeBytes (spool.read spool.readAt HEADER_BYTES).tail = bytes.length := by
    rw [hread, List.tail_cons, u32FromLeBytes_toLeBytes hlength]
  have htag : OutputStream.ofTag ((spool.read spool.readAt HEADER_BYTES).headD 0) = some stream := by
    rw [hread, List.headD_cons, OutputStream.ofTag_tag]
  have hbodyread : spool.read ((spool.readAt + HEADER_BYTES) % spool.capacity) bytes.length = bytes := by
    rw [read_eq_window h hbody (by omega), hbytes]
  refine ⟨{ spool with
    readAt := (spool.readAt + (HEADER_BYTES + bytes.length)) % spool.capacity
    used := spool.used - (HEADER_BYTES + bytes.length) }, ?_, ⟨h.file_length, ?_, ?_, ?_⟩, ?_, ?_, rfl,
    rfl, rfl, rfl⟩
  · unfold readRecord
    simp only [hlen, htag, hbodyread, if_neg (not_lt.mpr hlength)]
  · show spool.used - (HEADER_BYTES + bytes.length) ≤ spool.capacity
    omega
  · intro _
    exact Nat.mod_lt _ hcapacity
  · intro _
    show spool.writeAt = ((spool.readAt + (HEADER_BYTES + bytes.length)) % spool.capacity +
      (spool.used - (HEADER_BYTES + bytes.length))) % spool.capacity
    rw [h.writeAt_eq hcapacity, Nat.mod_add_mod]
    congr 1
    omega
  · show window spool.file _ (spool.used - (HEADER_BYTES + bytes.length)) = rest
    rw [show spool.used - (HEADER_BYTES + bytes.length) = rest.length by omega]
    exact hrest
  · show spool.used - (HEADER_BYTES + bytes.length) = rest.length
    omega

end LogSpool

end ScopeVcs.Runner

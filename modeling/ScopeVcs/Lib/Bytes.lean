import Mathlib.Data.List.Basic
import Mathlib.Data.List.GetD
import Mathlib.Tactic.Ring

/-! # Byte strings

Big-endian numbers of a fixed width, slices and writes inside a buffer, and the cutting of a string
into chunks of one size.
-/

abbrev Bytes := List UInt8

namespace Bytes

/-! ## Big-endian numbers -/

/-- The last `width` bytes of a number, most significant first. -/
def be : ℕ → ℕ → Bytes
  | 0, _ => []
  | width + 1, n => UInt8.ofNat (n / 256 ^ width) :: be width n

def ofBe : Bytes → ℕ
  | [] => 0
  | b :: bytes => b.toNat * 256 ^ bytes.length + ofBe bytes

@[simp] theorem length_be (width n : ℕ) : (be width n).length = width := by
  induction width with
  | zero => rfl
  | succ width ih => rw [be, List.length_cons, ih]

theorem ofBe_lt (bytes : Bytes) : ofBe bytes < 256 ^ bytes.length := by
  induction bytes with
  | nil => exact Nat.one_pos
  | cons b bytes ih =>
    have hb : b.toNat ≤ 255 := Nat.le_of_lt_succ b.toNat_lt
    calc b.toNat * 256 ^ bytes.length + ofBe bytes
        < b.toNat * 256 ^ bytes.length + 256 ^ bytes.length := Nat.add_lt_add_left ih _
      _ = (b.toNat + 1) * 256 ^ bytes.length := by ring
      _ ≤ 256 * 256 ^ bytes.length := Nat.mul_le_mul_right _ (by omega)
      _ = 256 ^ (b :: bytes).length := by rw [List.length_cons, pow_succ]; ring

/-- Only the number modulo the width is written. -/
theorem ofBe_be (width n : ℕ) : ofBe (be width n) = n % 256 ^ width := by
  induction width with
  | zero => rw [be, ofBe, pow_zero, Nat.mod_one]
  | succ width ih =>
    rw [be, ofBe, ih, length_be, pow_succ, Nat.mod_mul, UInt8.toNat_ofNat']
    ring

theorem ofBe_be_of_lt {width n : ℕ} (h : n < 256 ^ width) : ofBe (be width n) = n := by
  rw [ofBe_be, Nat.mod_eq_of_lt h]

theorem be_inj {width n m : ℕ} (hn : n < 256 ^ width) (hm : m < 256 ^ width)
    (h : be width n = be width m) : n = m := by
  rw [← ofBe_be_of_lt hn, h, ofBe_be_of_lt hm]

theorem be_add_mul (width n k : ℕ) : be width (n + k * 256 ^ width) = be width n := by
  induction width generalizing k with
  | zero => rfl
  | succ width ih =>
    have hsplit : n + k * 256 ^ (width + 1) = n + k * 256 * 256 ^ width := by ring
    rw [be, be, hsplit, ih, Nat.add_mul_div_right _ _ (pow_pos (by omega) _)]
    congr 1
    apply UInt8.toNat_inj.mp
    rw [UInt8.toNat_ofNat', UInt8.toNat_ofNat', Nat.add_mul_mod_self_right]

theorem be_ofBe (bytes : Bytes) : be bytes.length (ofBe bytes) = bytes := by
  induction bytes with
  | nil => rfl
  | cons b bytes ih =>
    have hpos : 0 < 256 ^ bytes.length := pow_pos (by omega) _
    have htop : (b.toNat * 256 ^ bytes.length + ofBe bytes) / 256 ^ bytes.length = b.toNat := by
      rw [Nat.add_comm, Nat.add_mul_div_right _ _ hpos, Nat.div_eq_of_lt (ofBe_lt bytes), Nat.zero_add]
    rw [List.length_cons, be, ofBe, htop, UInt8.ofNat_toNat, Nat.add_comm, be_add_mul, ih]

/-! ## Inside a buffer -/

def slice (bytes : Bytes) (start length : ℕ) : Bytes := (bytes.drop start).take length

/-- The buffer after `source` was written at `start`. -/
def write (bytes : Bytes) (start : ℕ) (source : Bytes) : Bytes :=
  bytes.take start ++ source ++ bytes.drop (start + source.length)

section Slices

variable {bytes source : Bytes} {start length i : ℕ}

theorem getElem?_slice (k : ℕ) :
    (slice bytes start length)[k]? = if k < length then bytes[start + k]? else none := by
  rw [slice, List.getElem?_take, List.getElem?_drop]

theorem length_slice (h : start + length ≤ bytes.length) :
    (slice bytes start length).length = length := by
  rw [slice, List.length_take, List.length_drop]
  omega

theorem getElem?_write (h : i ≤ bytes.length) (k : ℕ) :
    (write bytes i source)[k]? =
      if k < i then bytes[k]? else if k < i + source.length then source[k - i]? else bytes[k]? := by
  have htake : (bytes.take i).length = i := List.length_take_of_le h
  rw [write, List.append_assoc]
  by_cases hbefore : k < i
  · rw [if_pos hbefore, List.getElem?_append_left (by omega), List.getElem?_take, if_pos hbefore]
  · rw [if_neg hbefore, List.getElem?_append_right (by omega), htake]
    by_cases hinside : k < i + source.length
    · rw [if_pos hinside, List.getElem?_append_left (by omega)]
    · rw [if_neg hinside, List.getElem?_append_right (by omega), List.getElem?_drop]
      congr 1
      omega

theorem length_write (h : i + source.length ≤ bytes.length) :
    (write bytes i source).length = bytes.length := by
  rw [write, List.length_append, List.length_append, List.length_take, List.length_drop]
  omega

/-- A write does not reach what lies before it. -/
theorem slice_write_before (h : i ≤ bytes.length) (hbefore : start + length ≤ i) :
    slice (write bytes i source) start length = slice bytes start length := by
  apply List.ext_getElem?
  intro k
  rw [getElem?_slice, getElem?_slice, getElem?_write h]
  by_cases hk : k < length
  · rw [if_pos hk, if_pos hk, if_pos (by omega)]
  · rw [if_neg hk, if_neg hk]

/-- A write does not reach what lies behind it. -/
theorem slice_write_after (h : i ≤ bytes.length) (hafter : i + source.length ≤ start) :
    slice (write bytes i source) start length = slice bytes start length := by
  apply List.ext_getElem?
  intro k
  rw [getElem?_slice, getElem?_slice, getElem?_write h, if_neg (show ¬start + k < i by omega),
    if_neg (show ¬start + k < i + source.length by omega)]

/-- What was written is there. -/
theorem slice_write_self (h : i ≤ bytes.length) :
    slice (write bytes i source) i source.length = source := by
  apply List.ext_getElem?
  intro k
  rw [getElem?_slice, getElem?_write h]
  by_cases hk : k < source.length
  · rw [if_pos hk, if_neg (by omega), if_pos (by omega), Nat.add_sub_cancel_left]
  · rw [if_neg hk, List.getElem?_eq_none (by omega)]

/-- A prefix up to the end of a write. -/
theorem take_write (h : i ≤ bytes.length) :
    (write bytes i source).take (i + source.length) = bytes.take i ++ source := by
  have htake : (bytes.take i ++ source).length = i + source.length := by
    rw [List.length_append, List.length_take_of_le h]
  rw [write, ← htake, List.take_left']
  rfl

/-- Writing nothing changes nothing, wherever it is written. -/
@[simp] theorem write_nil : write bytes i [] = bytes := by
  rw [write, List.append_nil, List.length_nil, Nat.add_zero, List.take_append_drop]

/-- Two writes side by side are one. -/
theorem write_append {source' : Bytes} (h : i + source.length ≤ bytes.length) :
    write (write bytes i source) (i + source.length) source' = write bytes i (source ++ source') := by
  have hdrop : (write bytes i source).drop (i + source.length + source'.length) =
      bytes.drop (i + (source ++ source').length) := by
    apply List.ext_getElem?
    intro k
    rw [List.getElem?_drop, List.getElem?_drop, getElem?_write (by omega), if_neg (by omega),
      if_neg (by omega), List.length_append, Nat.add_assoc i]
  rw [write, hdrop, take_write (by omega), write]
  simp

theorem write_all (h : source.length = bytes.length) : write bytes 0 source = source := by
  rw [write, Nat.zero_add, h, List.drop_length, List.take_zero, List.nil_append, List.append_nil]

theorem slice_append_left {left right : Bytes} (h : start + length ≤ left.length) :
    slice (left ++ right) start length = slice left start length := by
  rw [slice, slice, List.drop_append_of_le_length (by omega),
    List.take_append_of_le_length (by rw [List.length_drop]; omega)]

theorem slice_append_right {left right : Bytes} (h : start = left.length) :
    slice (left ++ right) start length = right.take length := by
  rw [slice, h, List.drop_left]

theorem slice_zero_length (bytes : Bytes) : slice bytes 0 bytes.length = bytes := by
  rw [slice, List.drop_zero, List.take_length]

/-- A part of a string built from parts. -/
theorem slice_append_middle {left middle right : Bytes} (hstart : start = left.length)
    (hlength : length = middle.length) : slice (left ++ (middle ++ right)) start length = middle := by
  rw [slice_append_right hstart, hlength, List.take_left]

theorem slice_slice {start' length' : ℕ} (h : start' + length' ≤ length) :
    slice (slice bytes start length) start' length' = slice bytes (start + start') length' := by
  apply List.ext_getElem?
  intro k
  rw [getElem?_slice, getElem?_slice, getElem?_slice]
  by_cases hk : k < length'
  · rw [if_pos hk, if_pos hk, if_pos (by omega), Nat.add_assoc]
  · rw [if_neg hk, if_neg hk]

end Slices

/-! ## Chunks -/

/-- The consecutive chunks of one size; the last may be shorter. -/
def chunks (size : ℕ) (bytes : Bytes) : List Bytes :=
  (List.range ((bytes.length + size - 1) / size)).map fun i => slice bytes (i * size) size

section Chunks

variable {size : ℕ} {bytes : Bytes}

theorem mul_lt_length_of_lt {i : ℕ} (hsize : 0 < size) (h : i < (bytes.length + size - 1) / size) :
    i * size < bytes.length := by
  have hle := (Nat.le_div_iff_mul_le hsize).mp (Nat.succ_le_of_lt h)
  rw [Nat.succ_mul] at hle
  omega

theorem flatten_slices (count : ℕ) :
    ((List.range count).map fun i => slice bytes (i * size) size).flatten =
      bytes.take (count * size) := by
  induction count with
  | zero => simp
  | succ count ih =>
    rw [List.range_succ, List.map_append, List.flatten_append, ih, Nat.succ_mul, List.take_add]
    simp [slice]

theorem flatten_chunks (hsize : 0 < size) : (chunks size bytes).flatten = bytes := by
  rw [chunks, flatten_slices]
  apply List.take_of_length_le
  have hlt := Nat.lt_mul_div_succ (bytes.length + size - 1) hsize
  rw [Nat.mul_comm, Nat.succ_mul] at hlt
  omega

theorem length_chunk {chunk : Bytes} (hsize : 0 < size) (h : chunk ∈ chunks size bytes) :
    0 < chunk.length ∧ chunk.length ≤ size := by
  obtain ⟨i, hi, rfl⟩ := List.mem_map.mp h
  have hlt := mul_lt_length_of_lt hsize (List.mem_range.mp hi)
  rw [slice, List.length_take, List.length_drop]
  omega

theorem length_flatten_le {parts : List Bytes} (h : ∀ part ∈ parts, part.length ≤ size) :
    parts.flatten.length ≤ parts.length * size := by
  induction parts with
  | nil => simp
  | cons part parts ih =>
    have hpart := h part List.mem_cons_self
    have hrest := ih fun p hp => h p (List.mem_cons_of_mem _ hp)
    rw [List.flatten_cons, List.length_append, List.length_cons, Nat.succ_mul]
    omega

end Chunks

end Bytes

import ScopeVcs.Lib.Bytes

/-! # Circular files

A file of a fixed length whose last byte is followed by its first. A write that reaches the end goes
on at the start, and so does a read. `window` is what such a file holds from a place on; appending
behind a window leaves its bytes as they are when both fit the file.
-/

namespace Bytes

/-- The bytes of a circular file from `start` on. -/
def window (file : Bytes) (start length : ℕ) : Bytes :=
  (List.range length).map fun k => file.getD ((start + k) % file.length) 0

/-- The file after a write at `start` that goes on at the first byte. -/
def writeAround (file : Bytes) (start : ℕ) (source : Bytes) : Bytes :=
  let split := min source.length (file.length - start)
  write (write file start (source.take split)) 0 (source.drop split)

/-- A read at `start` that goes on at the first byte. -/
def readAround (file : Bytes) (start length : ℕ) : Bytes :=
  let split := min length (file.length - start)
  slice file start split ++ slice file 0 (length - split)

section Windows

variable {file source : Bytes} {start length used k : ℕ}

/-- Around the end once at most. -/
theorem add_mod_of_lt {capacity : ℕ} (hstart : start < capacity) (hk : k ≤ capacity) :
    (start + k) % capacity = if start + k < capacity then start + k else start + k - capacity := by
  by_cases hbefore : start + k < capacity
  · rw [if_pos hbefore, Nat.mod_eq_of_lt hbefore]
  · rw [if_neg hbefore, Nat.mod_eq_sub_mod (not_lt.mp hbefore), Nat.mod_eq_of_lt (by omega)]

@[simp] theorem length_window : (window file start length).length = length := by
  rw [window, List.length_map, List.length_range]

theorem getElem?_window :
    (window file start length)[k]? =
      if k < length then some (file.getD ((start + k) % file.length) 0) else none := by
  rw [window, List.getElem?_map]
  by_cases hk : k < length
  · rw [if_pos hk, List.getElem?_range hk, Option.map_some]
  · rw [if_neg hk, List.getElem?_eq_none (by rw [List.length_range]; omega), Option.map_none]

/-- A window is one window behind the other. -/
theorem window_add (file : Bytes) (start length length' : ℕ) :
    window file start (length + length') =
      window file start length ++ window file ((start + length) % file.length) length' := by
  rw [window, List.range_add, List.map_append, List.map_map]
  congr 1
  apply List.map_congr_left
  intro k _
  rw [Function.comp_apply, Nat.mod_add_mod, Nat.add_assoc]

/-- A read around the end gives the window. -/
theorem readAround_eq_window (hstart : start < file.length) (hlength : length ≤ file.length) :
    readAround file start length = window file start length := by
  apply List.ext_getElem?
  intro k
  have hsplit : (slice file start (min length (file.length - start))).length =
      min length (file.length - start) := length_slice (by omega)
  rw [readAround, getElem?_window]
  by_cases hbefore : k < min length (file.length - start)
  · rw [List.getElem?_append_left (by omega), getElem?_slice, if_pos hbefore, if_pos (by omega),
      Nat.mod_eq_of_lt (by omega), List.getD_eq_getElem?_getD,
      List.getElem?_eq_getElem (by omega), Option.getD_some]
  · rw [List.getElem?_append_right (by omega), hsplit, getElem?_slice]
    by_cases hk : k < length
    · rw [if_pos (by omega), if_pos hk, add_mod_of_lt hstart (by omega), if_neg (by omega),
        List.getD_eq_getElem?_getD, show 0 + (k - min length (file.length - start)) =
          start + k - file.length by omega, List.getElem?_eq_getElem (by omega), Option.getD_some]
    · rw [if_neg (by omega), if_neg hk]

@[simp] theorem length_writeAround (hstart : start ≤ file.length)
    (hlength : source.length ≤ file.length) :
    (writeAround file start source).length = file.length := by
  have hwrite : (write file start (source.take (min source.length (file.length - start)))).length =
      file.length := length_write (by rw [List.length_take]; omega)
  rw [writeAround, length_write, hwrite]
  rw [hwrite, List.length_drop]
  omega

/-- Where a write around the end is, and where it is not. -/
theorem getElem?_writeAround (hstart : start ≤ file.length) (hlength : source.length ≤ file.length)
    (hk : k < file.length) :
    (writeAround file start source)[k]? =
      if start ≤ k ∧ k < start + source.length then source[k - start]?
      else if k + file.length < start + source.length then source[k + file.length - start]?
      else file[k]? := by
  have htake : (source.take (min source.length (file.length - start))).length =
      min source.length (file.length - start) := by rw [List.length_take]; omega
  have hdrop : (source.drop (min source.length (file.length - start))).length =
      source.length - min source.length (file.length - start) := List.length_drop
  rw [writeAround, getElem?_write (Nat.zero_le _), if_neg (Nat.not_lt_zero k), hdrop,
    List.getElem?_drop, getElem?_write hstart, htake, List.getElem?_take]
  by_cases hinside : start ≤ k ∧ k < start + source.length
  · rw [if_pos hinside, if_neg (by omega), if_neg (by omega), if_pos (by omega), if_pos (by omega)]
  · rw [if_neg hinside]
    by_cases haround : k + file.length < start + source.length
    · rw [if_pos haround, if_pos (by omega)]
      congr 1
      omega
    · rw [if_neg haround, if_neg (by omega)]
      by_cases hbefore : k < start
      · rw [if_pos hbefore]
      · rw [if_neg hbefore, if_neg (by omega)]

/-- A write behind a window makes the window longer and leaves its bytes as they are. -/
theorem window_writeAround (hstart : start < file.length)
    (hfits : used + source.length ≤ file.length) :
    window (writeAround file ((start + used) % file.length) source) start (used + source.length) =
      window file start used ++ source := by
  have hposition := add_mod_of_lt hstart (show used ≤ file.length by omega)
  have hbound : (start + used) % file.length < file.length := Nat.mod_lt _ (by omega)
  generalize (start + used) % file.length = position at hposition hbound
  apply List.ext_getElem?
  intro k
  have hwritten : (writeAround file position source).length = file.length :=
    length_writeAround hbound.le (by omega)
  rw [getElem?_window, hwritten]
  by_cases hk : k < used + source.length
  · have hindex := add_mod_of_lt hstart (show k ≤ file.length by omega)
    have hindexbound : (start + k) % file.length < file.length := Nat.mod_lt _ (by omega)
    rw [if_pos hk, List.getD_eq_getElem?_getD, getElem?_writeAround hbound.le (by omega) hindexbound]
    by_cases hbefore : k < used
    · rw [List.getElem?_append_left (by rw [length_window]; exact hbefore), getElem?_window,
        if_pos hbefore, List.getD_eq_getElem?_getD]
      generalize (start + k) % file.length = index at hindex hindexbound ⊢
      rw [if_neg, if_neg]
      · split_ifs at hposition hindex <;> omega
      · split_ifs at hposition hindex <;> omega
    · rw [List.getElem?_append_right (by rw [length_window]; omega), length_window]
      generalize (start + k) % file.length = index at hindex hindexbound ⊢
      have hsource : k - used < source.length := by omega
      by_cases hinside : position ≤ index ∧ index < position + source.length
      · have hoffset : index - position = k - used := by
          split_ifs at hposition hindex <;> omega
        rw [if_pos hinside, hoffset, List.getElem?_eq_getElem hsource, Option.getD_some]
      · have hoffset : index + file.length - position = k - used ∧
            index + file.length < position + source.length := by
          split_ifs at hposition hindex <;> omega
        rw [if_neg hinside, if_pos hoffset.2, hoffset.1, List.getElem?_eq_getElem hsource,
          Option.getD_some]
  · rw [if_neg hk, List.getElem?_eq_none (by rw [List.length_append, length_window]; omega)]

end Windows

end Bytes

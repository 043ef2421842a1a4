import ScopeVcs.Error
import ScopeVcs.Lib.Text
import ScopeVcs.Requests.LineDiff

/-! # The lines a discussion is about

A discussion may be anchored at a range of lines of one file. `carryForwardLineRange` finds the same
lines in a newer text of the file, by the common lines at both ends and a diff of what is between.
-/

namespace ScopeVcs.Requests

open EditGraph LineDiff Mutation

namespace LineDiff

def maxDiffedLines : ℕ := 20000

/-- How many lines two texts have in common at their beginning. -/
def commonPrefix (old new : List String) : ℕ :=
  ((old.zip new).takeWhile fun (a, b) => a = b).length

/-- How many lines two texts have in common at their end, after those at their beginning. -/
def commonSuffix (old new : List String) : ℕ :=
  let skipped := commonPrefix old new
  commonPrefix (old.drop skipped).reverse (new.drop skipped).reverse

/-- A loop that writes matches at the old indices of pairs. -/
def writeMatches : List (Option ℕ) → List (ℕ × ℕ) → Except Panic (List (Option ℕ))
  | slots, [] => .ok slots
  | slots, (oldIndex, newIndex) :: rest => do
    let slots ← setAt slots oldIndex (some newIndex)
    writeMatches slots rest

/-- Whether the matches of the indices from `start` on are `newStart` and what follows it. -/
def allMatch (slots : List (Option ℕ)) (start newStart : ℕ) : List ℕ → Except Panic Bool
  | [] => .ok true
  | index :: rest => do
    let slot ← getAt slots index
    if slot = some (newStart + index - start) then allMatch slots start newStart rest
    else return false

def matchedNewIndex (old new : List String) (start stop : ℕ) : Except Panic (Option ℕ) :=
  let skipped := commonPrefix old new
  let suffixLines := commonSuffix old new
  let oldSuffixStart := old.length - suffixLines
  let newSuffixStart := new.length - suffixLines
  let oldMiddle := (old.take oldSuffixStart).drop skipped
  let newMiddle := (new.take newSuffixStart).drop skipped
  if stop ≤ skipped then .ok (some start)
  else if oldSuffixStart ≤ start then .ok (some (start - oldSuffixStart + newSuffixStart))
  else if maxDiffedLines < oldMiddle.length + newMiddle.length then .ok none
  else do
    let slots ← writeMatches (List.replicate old.length none)
      ((List.range skipped).map fun index => (index, index))
    let slots ← writeMatches slots ((List.range suffixLines).map fun offset =>
      (oldSuffixStart + offset, newSuffixStart + offset))
    match ← matchingPairs oldMiddle newMiddle with
    | none => return none
    | some pairs => do
      let slots ← writeMatches slots (pairs.map fun (oldIndex, newIndex) =>
        (skipped + oldIndex, skipped + newIndex))
      match ← getAt slots start with
      | none => return none
      | some newStart => do
        let all ← allMatch slots start newStart (List.range' start (stop - start))
        return if all then some newStart else none

end LineDiff

/-! ## Line ranges -/

inductive RequestDiffSide where
  | old
  | new
  deriving DecidableEq

/-- A range of line numbers, which start at 1. -/
structure RequestLineRange where
  startLine : ℕ
  endLine : ℕ
  start_pos : 0 < startLine
  ordered : startLine ≤ endLine
  end_lt : endLine < 2 ^ 32
  deriving DecidableEq

namespace RequestLineRange

/-- `RequestLineRange::new`, of two `u32` values. -/
def new (startLine endLine : ℕ) (hend : endLine < 2 ^ 32) : Except DomainError RequestLineRange :=
  if hstart : startLine = 0 then
    .error (.invalidInput "discussion line numbers start at 1")
  else if horder : endLine < startLine then
    .error (.invalidInput "discussion start line must not be after its end line")
  else .ok ⟨startLine, endLine, by omega, by omega, hend⟩

/-- The range of the same length from an index on. Both checked conversions succeed exactly if its
end line fits in a `u32`. -/
def shiftedTo (range : RequestLineRange) (startIndex : ℕ) : Option RequestLineRange :=
  if h : startIndex + 1 + (range.endLine - range.startLine) < 2 ^ 32 then
    some ⟨startIndex + 1, startIndex + 1 + (range.endLine - range.startLine), by omega, by omega, h⟩
  else none

end RequestLineRange

structure RequestDiscussionLines where
  side : RequestDiffSide
  range : RequestLineRange
  deriving DecidableEq

inductive RequestLineTarget where
  | missing
  | binary
  | text (text : String)

inductive RequestLinePosition where
  | mapped (range : RequestLineRange)
  | outdated
  deriving DecidableEq

/-- The lines of a text, each with its line end. -/
def textLines (text : String) : List String :=
  (Text.splitInclusive '\n' text.toList).map String.ofList

def RequestDiscussionLines.ensureTarget (lines : RequestDiscussionLines) :
    RequestLineTarget → Except DomainError Unit
  | .missing => .error (.invalidInput "discussion file does not exist on the selected side")
  | .binary => .error (.invalidInput "discussion lines require a text file")
  | .text text =>
    if lines.range.endLine ≤ (textLines text).length then .ok ()
    else .error (.invalidInput "discussion lines are outside the file")

def carryForwardLineRange (range : RequestLineRange) (original : String) (newer : Option String) :
    Except Panic RequestLinePosition :=
  match newer with
  | none => .ok .outdated
  | some newer =>
    if original = newer then .ok (.mapped range)
    else
      let old := textLines original
      let new := textLines newer
      let start := range.startLine - 1
      let stop := range.endLine
      if old.length < stop then .ok .outdated
      else do
        let mapped ← matchedNewIndex old new start stop
        match mapped.bind range.shiftedTo with
        | some range => return .mapped range
        | none => return .outdated

/-! ## Common lines -/

namespace LineDiff

variable {old new : List String}

@[simp]
theorem commonPrefix_nil_left (new : List String) : commonPrefix [] new = 0 := rfl

@[simp]
theorem commonPrefix_nil_right (old : List String) : commonPrefix old [] = 0 := by
  simp [commonPrefix]

theorem commonPrefix_cons (a b : String) (old new : List String) :
    commonPrefix (a :: old) (b :: new) = if a = b then commonPrefix old new + 1 else 0 := by
  by_cases h : a = b
  · simp [commonPrefix, h]
  · simp [commonPrefix, h]

theorem matches_of_lt_commonPrefix {i : ℕ} (h : i < commonPrefix old new) : Matches old new i i := by
  induction old generalizing new i with
  | nil => simp at h
  | cons a old ih =>
    cases new with
    | nil => simp at h
    | cons b new =>
      rw [commonPrefix_cons] at h
      by_cases hab : a = b
      · rw [if_pos hab] at h
        cases i with
        | zero => exact ⟨a, rfl, by rw [hab]; rfl⟩
        | succ i => exact ih (by omega)
      · rw [if_neg hab] at h
        omega

theorem commonPrefix_le (old new : List String) :
    commonPrefix old new ≤ old.length ∧ commonPrefix old new ≤ new.length := by
  rw [commonPrefix]
  have := List.IsPrefix.length_le (List.takeWhile_prefix (fun (a, b) => decide (a = b)) (l := old.zip new))
  rw [List.length_zip] at this
  omega

theorem le_commonPrefix {lines : List String} (h : lines <+: old) (h' : lines <+: new) :
    lines.length ≤ commonPrefix old new := by
  induction lines generalizing old new with
  | nil => exact Nat.zero_le _
  | cons a lines ih =>
    obtain ⟨rest, rfl⟩ := h
    obtain ⟨rest', rfl⟩ := h'
    rw [List.cons_append, List.cons_append, commonPrefix_cons, if_pos rfl]
    exact Nat.succ_le_succ (ih (List.prefix_append _ _) (List.prefix_append _ _))

theorem commonSuffix_le (old new : List String) :
    commonPrefix old new + commonSuffix old new ≤ old.length ∧
      commonPrefix old new + commonSuffix old new ≤ new.length := by
  have hfront := commonPrefix_le old new
  have := commonPrefix_le (old.drop (commonPrefix old new)).reverse
    (new.drop (commonPrefix old new)).reverse
  rw [List.length_reverse, List.length_reverse, List.length_drop, List.length_drop] at this
  rw [commonSuffix]
  omega

theorem matches_of_lt_commonSuffix {i : ℕ} (h : i < commonSuffix old new) :
    Matches old new (old.length - commonSuffix old new + i)
      (new.length - commonSuffix old new + i) := by
  have hle := commonSuffix_le old new
  -- the common suffix is a common prefix read backwards
  obtain ⟨a, hold, hnew⟩ := matches_of_lt_commonPrefix
    (show commonSuffix old new - 1 - i < commonPrefix (old.drop (commonPrefix old new)).reverse
      (new.drop (commonPrefix old new)).reverse by
        change commonSuffix old new - 1 - i < commonSuffix old new
        omega)
  rw [List.getElem?_reverse (by rw [List.length_drop]; omega), List.getElem?_drop,
    List.length_drop] at hold hnew
  refine ⟨a, ?_, ?_⟩
  · rw [← hold]
    congr 1
    omega
  · rw [← hnew]
    congr 1
    omega

theorem le_commonSuffix {lines : List String} (h : lines <:+ old.drop (commonPrefix old new))
    (h' : lines <:+ new.drop (commonPrefix old new)) : lines.length ≤ commonSuffix old new := by
  rw [← List.length_reverse]
  exact le_commonPrefix (List.reverse_prefix.mpr h) (List.reverse_prefix.mpr h')

/-! ## One alignment behind all answers -/

/-- The pairs of the diff between the common lines, if the diff is tried and succeeds. -/
def middlePairs (old new : List String) : List (ℕ × ℕ) :=
  match matchingPairs
    ((old.take (old.length - commonSuffix old new)).drop (commonPrefix old new))
    ((new.take (new.length - commonSuffix old new)).drop (commonPrefix old new)) with
  | .ok (some pairs) => pairs
  | _ => []

/-- The pairs of the common lines at both ends and those of the diff between them. -/
def alignedLines (old new : List String) : List (ℕ × ℕ) :=
  (List.range (commonPrefix old new)).map (fun index => (index, index)) ++
    ((middlePairs old new).map fun (oldIndex, newIndex) =>
      (commonPrefix old new + oldIndex, commonPrefix old new + newIndex)) ++
    (List.range (commonSuffix old new)).map fun offset =>
      (old.length - commonSuffix old new + offset, new.length - commonSuffix old new + offset)

theorem alignment_middlePairs (old new : List String) :
    Alignment ((old.take (old.length - commonSuffix old new)).drop (commonPrefix old new))
      ((new.take (new.length - commonSuffix old new)).drop (commonPrefix old new))
      (middlePairs old new) := by
  obtain ⟨result, hresult, -, hpairs⟩ := matchingPairs_correct
    ((old.take (old.length - commonSuffix old new)).drop (commonPrefix old new))
    ((new.take (new.length - commonSuffix old new)).drop (commonPrefix old new))
  rw [middlePairs, hresult]
  cases result with
  | none => exact Alignment.nil
  | some pairs => exact (hpairs pairs rfl).alignment

theorem alignment_map_range {x y count : ℕ} (h : ∀ i < count, Matches old new (x + i) (y + i)) :
    Alignment old new ((List.range count).map fun i => (x + i, y + i)) where
  increasing := by
    rw [List.pairwise_map]
    exact (List.pairwise_lt_range).imp fun hlt => by simpa using hlt
  agree := by
    simp only [List.mem_map, List.mem_range]
    rintro _ ⟨i, hi, rfl⟩
    exact h i hi

/-- The alignment of parts of two lists is one of the lists, moved to where the parts are. -/
theorem alignment_map_add {x y stop stop' : ℕ} {pairs : List (ℕ × ℕ)}
    (h : Alignment ((old.take stop).drop x) ((new.take stop').drop y) pairs) :
    Alignment old new (pairs.map fun (i, j) => (x + i, y + j)) where
  increasing := by
    rw [List.pairwise_map]
    exact h.increasing.imp fun hlt => by simpa using hlt
  agree := by
    simp only [List.mem_map]
    rintro _ ⟨p, hp, rfl⟩
    obtain ⟨a, hold, hnew⟩ := h.agree p hp
    rw [List.getElem?_drop] at hold hnew
    have hx := (List.getElem?_eq_some_iff.mp hold).1
    have hy := (List.getElem?_eq_some_iff.mp hnew).1
    rw [List.length_take] at hx hy
    rw [List.getElem?_take_of_lt (by omega)] at hold hnew
    exact ⟨a, hold, hnew⟩

theorem alignment_alignedLines (old new : List String) :
    Alignment old new (alignedLines old new) := by
  have hle := commonSuffix_le old new
  have hfirst : Alignment old new
      ((List.range (commonPrefix old new)).map fun index => (index, index)) := by
    have := @alignment_map_range old new 0 0 (commonPrefix old new) fun i hi => by
        rw [Nat.zero_add]
        exact matches_of_lt_commonPrefix hi
    simpa using this
  have hmiddle := alignment_middlePairs old new
  have hinside : ∀ p ∈ middlePairs old new,
      commonPrefix old new + p.1 < old.length - commonSuffix old new ∧
        commonPrefix old new + p.2 < new.length - commonSuffix old new := by
    intro p hp
    have hx := (hmiddle.agree p hp).lt_left
    have hy := (hmiddle.agree p hp).lt_right
    rw [List.length_drop, List.length_take] at hx hy
    omega
  refine (hfirst.append (alignment_map_add hmiddle) ?_).append
    (alignment_map_range fun i hi => matches_of_lt_commonSuffix hi) ?_
  · simp only [List.mem_map, List.mem_range]
    rintro _ ⟨i, hi, rfl⟩ _ ⟨p, hp, rfl⟩
    simp only
    omega
  · simp only [List.mem_append, List.mem_map, List.mem_range]
    rintro _ (⟨i, hi, rfl⟩ | ⟨p, hp, rfl⟩) _ ⟨j, hj, rfl⟩
    · simp only
      omega
    · have := hinside p hp
      simp only
      omega

/-! ## The loops over the matches -/

/-- Writing in bounds succeeds, and a match then read was there or was written. -/
theorem writeMatches_eq_ok (slots : List (Option ℕ)) (pairs : List (ℕ × ℕ))
    (h : ∀ p ∈ pairs, p.1 < slots.length) :
    ∃ slots', writeMatches slots pairs = .ok slots' ∧ slots'.length = slots.length ∧
      ∀ i v, slots'[i]? = some (some v) → slots[i]? = some (some v) ∨ (i, v) ∈ pairs := by
  induction pairs generalizing slots with
  | nil => exact ⟨slots, rfl, rfl, fun i v hv => .inl hv⟩
  | cons p rest ih =>
    have hp := h p List.mem_cons_self
    obtain ⟨slots', hwrite, hlength, hread⟩ := ih (slots.set p.1 (some p.2)) (by
      intro q hq
      rw [List.length_set]
      exact h q (List.mem_cons_of_mem _ hq))
    refine ⟨slots', ?_, by rw [hlength, List.length_set], fun i v hv => ?_⟩
    · rw [writeMatches, setAt_eq_ok (by omega) (by omega), except_ok_bind, Int.toNat_natCast, hwrite]
    · rcases hread i v hv with hv | hv
      · rw [List.getElem?_set] at hv
        by_cases hi : p.1 = i
        · rw [if_pos hi, if_pos (hi ▸ hp)] at hv
          obtain rfl : p.2 = v := by simpa using hv
          exact .inr (by rw [← hi]; exact List.mem_cons_self)
        · rw [if_neg hi] at hv
          exact .inl hv
      · exact .inr (List.mem_cons_of_mem _ hv)

theorem allMatch_eq_ok {slots : List (Option ℕ)} (start newStart : ℕ) {indices : List ℕ}
    (h : ∀ i ∈ indices, i < slots.length) :
    ∃ all, allMatch slots start newStart indices = .ok all ∧
      (all = true → ∀ i ∈ indices, slots[i]? = some (some (newStart + i - start))) := by
  induction indices with
  | nil => exact ⟨true, rfl, by simp⟩
  | cons i rest ih =>
    have hi := h i List.mem_cons_self
    obtain ⟨all, hrest, hall⟩ := ih fun j hj => h j (List.mem_cons_of_mem _ hj)
    rw [allMatch, getAt_eq_ok (by omega) (by omega), except_ok_bind, Int.toNat_natCast,
      List.getD_eq_getElem _ _ hi]
    by_cases hslot : slots[i] = some (newStart + i - start)
    · rw [if_pos hslot, hrest]
      refine ⟨all, rfl, fun htrue j hj => ?_⟩
      rcases List.mem_cons.mp hj with rfl | hj
      · rw [List.getElem?_eq_getElem hi, hslot]
      · exact hall htrue j hj
    · rw [if_neg hslot]
      exact ⟨false, rfl, by simp⟩

/-- Every answer continues the one alignment, over the whole range. -/
theorem matchedNewIndex_eq_ok {start stop : ℕ} (hstart : start < stop) (hstop : stop ≤ old.length) :
    ∃ result, matchedNewIndex old new start stop = .ok result ∧
      ∀ newStart, result = some newStart → ∀ i, start + i < stop →
        (start + i, newStart + i) ∈ alignedLines old new := by
  have hle := commonSuffix_le old new
  rw [matchedNewIndex]
  by_cases hfront : stop ≤ commonPrefix old new
  · rw [if_pos hfront]
    refine ⟨_, rfl, ?_⟩
    intro newStart heq i hi
    obtain rfl := Option.some.inj heq
    simp only [alignedLines, List.mem_append, List.mem_map, List.mem_range]
    exact .inl (.inl ⟨start + i, by omega, rfl⟩)
  rw [if_neg hfront]
  by_cases hsuffix : old.length - commonSuffix old new ≤ start
  · rw [if_pos hsuffix]
    refine ⟨_, rfl, ?_⟩
    intro newStart heq i hi
    obtain rfl := Option.some.inj heq
    simp only [alignedLines, List.mem_append, List.mem_map, List.mem_range]
    refine .inr ⟨start - (old.length - commonSuffix old new) + i, by omega, ?_⟩
    rw [Prod.mk.injEq]
    omega
  rw [if_neg hsuffix]
  simp only
  split
  · exact ⟨_, rfl, by simp⟩
  have halignment := alignment_alignedLines old new
  have hinside : ∀ p ∈ alignedLines old new, p.1 < old.length := fun p hp =>
    (halignment.agree p hp).lt_left
  simp only [alignedLines, List.mem_append] at hinside ⊢
  obtain ⟨slots₁, hwrite₁, hlength₁, hread₁⟩ := writeMatches_eq_ok
    (List.replicate old.length none)
    ((List.range (commonPrefix old new)).map fun index => (index, index)) fun p hp => by
      rw [List.length_replicate]
      exact hinside p (.inl (.inl hp))
  rw [List.length_replicate] at hlength₁
  obtain ⟨slots₂, hwrite₂, hlength₂, hread₂⟩ := writeMatches_eq_ok slots₁
    ((List.range (commonSuffix old new)).map fun offset =>
      (old.length - commonSuffix old new + offset, new.length - commonSuffix old new + offset))
    fun p hp => by
      rw [hlength₁]
      exact hinside p (.inr hp)
  obtain ⟨middle, hmiddle, -⟩ := matchingPairs_correct
    ((old.take (old.length - commonSuffix old new)).drop (commonPrefix old new))
    ((new.take (new.length - commonSuffix old new)).drop (commonPrefix old new))
  rw [hwrite₁, except_ok_bind, hwrite₂, except_ok_bind, hmiddle, except_ok_bind]
  cases middle with
  | none => exact ⟨_, rfl, by simp⟩
  | some pairs =>
    have hpairs : middlePairs old new = pairs := by rw [middlePairs, hmiddle]
    rw [hpairs] at hinside ⊢
    obtain ⟨slots₃, hwrite₃, hlength₃, hread₃⟩ := writeMatches_eq_ok slots₂
      (pairs.map fun (oldIndex, newIndex) =>
        (commonPrefix old new + oldIndex, commonPrefix old new + newIndex)) fun p hp => by
      rw [hlength₂, hlength₁]
      exact hinside p (.inl (.inr hp))
    -- whatever is read in the end was written by one of the three loops
    have hread : ∀ i v, slots₃[i]? = some (some v) → ((i, v) ∈
        (List.range (commonPrefix old new)).map (fun index => (index, index)) ∨
        (i, v) ∈ pairs.map fun (oldIndex, newIndex) =>
          (commonPrefix old new + oldIndex, commonPrefix old new + newIndex)) ∨
        (i, v) ∈ (List.range (commonSuffix old new)).map fun offset =>
          (old.length - commonSuffix old new + offset,
            new.length - commonSuffix old new + offset) := by
      intro i v hv
      rcases hread₃ i v hv with hv | hv
      · rcases hread₂ i v hv with hv | hv
        · rcases hread₁ i v hv with hv | hv
          · rw [List.getElem?_replicate] at hv
            split at hv <;> simp at hv
          · exact .inl (.inl hv)
        · exact .inr hv
      · exact .inl (.inr hv)
    simp only
    rw [hwrite₃, except_ok_bind, getAt_eq_ok (by omega) (by omega), except_ok_bind,
      Int.toNat_natCast]
    obtain hslot | ⟨newStart, hslot⟩ := Option.eq_none_or_eq_some (slots₃.getD start default)
    · rw [hslot]
      exact ⟨_, rfl, by simp⟩
    · obtain ⟨all, hall, hmatch⟩ := @allMatch_eq_ok slots₃ start newStart
        (List.range' start (stop - start)) fun i hi => by
          rw [List.mem_range'_1] at hi
          omega
      rw [hslot]
      simp only
      rw [hall]
      refine ⟨_, rfl, ?_⟩
      intro result heq i hi
      cases all with
      | false => simp at heq
      | true =>
        obtain rfl : newStart = result := by simpa using heq
        have := hmatch rfl (start + i) (by rw [List.mem_range'_1]; omega)
        rw [show newStart + (start + i) - start = newStart + i by omega] at this
        exact hread _ _ this

end LineDiff

/-! ## Carrying a range forward -/

/-- A range that pairs of lines lead to from another: of the same length, line by line. -/
structure Follows (pairs : List (ℕ × ℕ)) (range range' : RequestLineRange) : Prop where
  length : range'.endLine - range'.startLine = range.endLine - range.startLine
  paired : ∀ i, range.startLine - 1 + i < range.endLine →
    (range.startLine - 1 + i, range'.startLine - 1 + i) ∈ pairs

theorem RequestDiscussionLines.ensureTarget_text {lines : RequestDiscussionLines} {text : String} :
    lines.ensureTarget (.text text) = .ok () ↔ lines.range.endLine ≤ (textLines text).length := by
  rw [ensureTarget]
  by_cases h : lines.range.endLine ≤ (textLines text).length
  · simp [h]
  · simp [h]

theorem RequestLineRange.shiftedTo_eq_some {range range' : RequestLineRange} {startIndex : ℕ} :
    range.shiftedTo startIndex = some range' ↔ range'.startLine = startIndex + 1 ∧
      range'.endLine = startIndex + 1 + (range.endLine - range.startLine) := by
  have hend := range'.end_lt
  rw [shiftedTo]
  constructor
  · intro h
    split at h
    · obtain rfl := Option.some.inj h
      exact ⟨rfl, rfl⟩
    · cases h
  · rintro ⟨hstart, hstop⟩
    rw [dif_pos (by omega), Option.some.injEq]
    obtain ⟨startLine, endLine, _, _, _⟩ := range'
    simp only at hstart hstop
    subst hstart hstop
    rfl

section

variable {original newer : String} {range range' : RequestLineRange}

/-- Different texts: the answer is the start index of the diff, shifted to line numbers. -/
theorem carryForwardLineRange_of_ne (hne : original ≠ newer)
    (h : range.endLine ≤ (textLines original).length) :
    ∃ result, matchedNewIndex (textLines original) (textLines newer) (range.startLine - 1)
        range.endLine = .ok result ∧
      (∀ newStart, result = some newStart → ∀ i, range.startLine - 1 + i < range.endLine →
        (range.startLine - 1 + i, newStart + i) ∈
          alignedLines (textLines original) (textLines newer)) ∧
      carryForwardLineRange range original (some newer) =
        .ok (match result.bind range.shiftedTo with
          | some range => .mapped range
          | none => .outdated) := by
  have hpos := range.start_pos
  have horder := range.ordered
  obtain ⟨result, hresult, hpaired⟩ := @matchedNewIndex_eq_ok _ (textLines newer) _ _
    (show range.startLine - 1 < range.endLine by omega) h
  refine ⟨result, hresult, hpaired, ?_⟩
  rw [carryForwardLineRange]
  simp only
  rw [if_neg hne, if_neg (by omega), hresult, except_ok_bind]
  cases result.bind range.shiftedTo with
  | none => rfl
  | some range => rfl

/-- A mapped range follows the one alignment of the two texts. -/
theorem follows_of_mapped (h : range.endLine ≤ (textLines original).length)
    (hmapped : carryForwardLineRange range original (some newer) = .ok (.mapped range')) :
    Follows (alignedLines (textLines original) (textLines newer)) range range' := by
  have hpos := range.start_pos
  by_cases heq : original = newer
  · rw [carryForwardLineRange] at hmapped
    simp only [heq, if_true] at hmapped
    obtain rfl : range = range' := by simpa using hmapped
    refine ⟨rfl, fun i hi => ?_⟩
    have hwhole := le_commonPrefix (List.prefix_refl (textLines newer)) (List.prefix_refl _)
    simp only [heq, alignedLines, List.mem_append, List.mem_map, List.mem_range]
    rw [heq] at h
    exact .inl (.inl ⟨range.startLine - 1 + i, by omega, rfl⟩)
  · obtain ⟨result, -, hpaired, hcarry⟩ := carryForwardLineRange_of_ne heq h
    rw [hcarry] at hmapped
    cases result with
    | none => simp at hmapped
    | some newStart =>
      rw [Option.bind_some] at hmapped
      cases hshift : range.shiftedTo newStart with
      | none => simp [hshift] at hmapped
      | some shifted =>
        obtain rfl : shifted = range' := by simpa [hshift] using hmapped
        obtain ⟨hstart, hend⟩ := RequestLineRange.shiftedTo_eq_some.mp hshift
        refine ⟨by omega, fun i hi => ?_⟩
        rw [hstart, Nat.add_sub_cancel]
        exact hpaired newStart rfl i hi

theorem Follows.lines_eq {old new : List String} {pairs : List (ℕ × ℕ)}
    (h : Follows pairs range range') (halignment : Alignment old new pairs) :
    range'.endLine ≤ new.length ∧ ∀ i ≤ range.endLine - range.startLine,
      new[range'.startLine - 1 + i]? = old[range.startLine - 1 + i]? := by
  have hpos := range.start_pos
  have hpos' := range'.start_pos
  have horder := range.ordered
  have horder' := range'.ordered
  have hlength := h.length
  constructor
  · have hlast := h.paired (range.endLine - range.startLine) (by omega)
    have := (halignment.agree _ hlast).lt_right
    simp only at this
    omega
  · intro i hi
    obtain ⟨line, hold, hnew⟩ := halignment.agree _ (h.paired i (by omega))
    rw [hold, hnew]

/-- Ranges that follow one alignment stay in order and apart. -/
theorem Follows.lt {old new : List String} {pairs : List (ℕ × ℕ)} {first second : RequestLineRange}
    (h : Follows pairs range range') (h' : Follows pairs first second)
    (halignment : Alignment old new pairs) (hlt : range.endLine < first.startLine) :
    range'.endLine < second.startLine := by
  have hpos := range.start_pos
  have hpos' := range'.start_pos
  have horder := range.ordered
  have horder' := range'.ordered
  have hfirst := first.ordered
  have hsecond := second.start_pos
  have hlength := h.length
  have hlast := h.paired (range.endLine - range.startLine) (by omega)
  have hnext := h'.paired 0 (by omega)
  have := halignment.lt_of_lt hlast hnext (by simp only; omega)
  simp only at this
  omega

/-- A range of the common lines at the beginning stays where it is. -/
theorem mapped_of_front (h : range.endLine ≤ (textLines original).length)
    (hfront : (textLines original).take range.endLine <+: textLines newer) :
    carryForwardLineRange range original (some newer) = .ok (.mapped range) := by
  have hpos := range.start_pos
  have horder := range.ordered
  have hend := range.end_lt
  by_cases heq : original = newer
  · rw [carryForwardLineRange]
    simp only [heq, if_true]
  · obtain ⟨result, hresult, -, hcarry⟩ := carryForwardLineRange_of_ne heq h
    have hle := le_commonPrefix (List.take_prefix range.endLine (textLines original)) hfront
    rw [List.length_take, min_eq_left h] at hle
    rw [matchedNewIndex] at hresult
    simp only [if_pos hle] at hresult
    obtain rfl := Except.ok.inj hresult
    have hshift : range.shiftedTo (range.startLine - 1) = some range :=
      RequestLineRange.shiftedTo_eq_some.mpr ⟨by omega, by omega⟩
    rw [hcarry, Option.bind_some, hshift]

/-- A range of the common lines at the end moves with the end, as long as its line numbers fit. -/
theorem mapped_iff_of_suffix (h : range.endLine ≤ (textLines original).length)
    (hafter : commonPrefix (textLines original) (textLines newer) < range.startLine)
    (hsuffix : (textLines original).drop (range.startLine - 1) <:+
      (textLines newer).drop (commonPrefix (textLines original) (textLines newer))) :
    (∃ range', carryForwardLineRange range original (some newer) = .ok (.mapped range')) ↔
      range.endLine + (textLines newer).length < (textLines original).length + 2 ^ 32 := by
  have hpos := range.start_pos
  have horder := range.ordered
  have hend := range.end_lt
  by_cases heq : original = newer
  · rw [carryForwardLineRange]
    simp only [heq, if_true]
    simp only [Except.ok.injEq, RequestLinePosition.mapped.injEq, exists_eq', true_iff]
    omega
  · obtain ⟨result, hresult, -, hcarry⟩ := carryForwardLineRange_of_ne heq h
    have hle := commonSuffix_le (textLines original) (textLines newer)
    have hlength : ((textLines original).drop (range.startLine - 1)).length ≤
        commonSuffix (textLines original) (textLines newer) :=
      le_commonSuffix (List.drop_suffix_drop_left _ (by omega)) hsuffix
    rw [List.length_drop] at hlength
    rw [matchedNewIndex] at hresult
    simp only [if_neg (show ¬ range.endLine ≤
      commonPrefix (textLines original) (textLines newer) by omega)] at hresult
    rw [if_pos (by omega)] at hresult
    obtain rfl := Except.ok.inj hresult
    rw [hcarry, Option.bind_some]
    by_cases hfit : range.endLine + (textLines newer).length < (textLines original).length + 2 ^ 32
    · rw [RequestLineRange.shiftedTo, dif_pos (by omega)]
      simp only [Except.ok.injEq, RequestLinePosition.mapped.injEq, exists_eq', hfit]
    · rw [RequestLineRange.shiftedTo, dif_neg (by omega)]
      simp only [Except.ok.injEq, reduceCtorEq, exists_false, hfit]

end

/-- What a line range is carried forward to: never an index out of bounds; a mapped range has the
same length, lies in the newer text and has the same lines; ranges apart stay apart and in order; a
range of the common lines at the beginning is mapped, and one of the common lines after them at the
end is mapped exactly if its line numbers fit. -/
theorem carryForwardLineRange_consistent (original newer : String)
    (lines lines' : RequestDiscussionLines)
    (h : lines.ensureTarget (.text original) = .ok ())
    (h' : lines'.ensureTarget (.text original) = .ok ()) :
    ∃ position, carryForwardLineRange lines.range original (some newer) = .ok position ∧
      (∀ range, position = .mapped range →
        range.endLine - range.startLine = lines.range.endLine - lines.range.startLine ∧
        range.endLine ≤ (textLines newer).length ∧
        ∀ i ≤ lines.range.endLine - lines.range.startLine,
          (textLines newer)[range.startLine - 1 + i]? =
            (textLines original)[lines.range.startLine - 1 + i]?) ∧
      (lines.range.endLine < lines'.range.startLine → ∀ range range',
        position = .mapped range →
        carryForwardLineRange lines'.range original (some newer) = .ok (.mapped range') →
        range.endLine < range'.startLine) ∧
      ((textLines original).take lines.range.endLine <+: textLines newer →
        ∃ range, position = .mapped range) ∧
      (commonPrefix (textLines original) (textLines newer) < lines.range.startLine →
        (textLines original).drop (lines.range.startLine - 1) <:+
          (textLines newer).drop (commonPrefix (textLines original) (textLines newer)) →
        ((∃ range, position = .mapped range) ↔
          lines.range.endLine + (textLines newer).length <
            (textLines original).length + 2 ^ 32)) := by
  rw [RequestDiscussionLines.ensureTarget_text] at h h'
  have halignment := alignment_alignedLines (textLines original) (textLines newer)
  obtain ⟨position, hposition⟩ :
      ∃ position, carryForwardLineRange lines.range original (some newer) = .ok position := by
    by_cases heq : original = newer
    · exact ⟨.mapped lines.range, by rw [carryForwardLineRange]; simp only [heq, if_true]⟩
    · obtain ⟨result, -, -, hcarry⟩ := carryForwardLineRange_of_ne heq h
      exact ⟨_, hcarry⟩
  refine ⟨position, hposition, ?_, ?_, ?_, ?_⟩
  · rintro range rfl
    have hfollows := follows_of_mapped h hposition
    exact ⟨hfollows.length, hfollows.lines_eq halignment⟩
  · rintro hlt range range' rfl hposition'
    exact (follows_of_mapped h hposition).lt (follows_of_mapped h' hposition') halignment hlt
  · intro hfront
    rw [mapped_of_front h hfront] at hposition
    exact ⟨_, (Except.ok.inj hposition).symm⟩
  · intro hafter hsuffix
    rw [← mapped_iff_of_suffix h hafter hsuffix, hposition]
    simp only [Except.ok.injEq]

/-- A line inserted above a text: its two lines are common lines at the end, and are mapped. -/
theorem carryForwardLineRange_consistent_inserted :
    ∃ range, carryForwardLineRange ⟨1, 2, by decide, by decide, by decide⟩ "a\nb\n"
      (some "x\na\nb\n") = .ok (.mapped range) := by
  obtain ⟨position, hposition, -, -, -, hsuffix⟩ := carryForwardLineRange_consistent "a\nb\n"
    "x\na\nb\n" ⟨.new, 1, 2, by decide, by decide, by decide⟩
    ⟨.new, 1, 2, by decide, by decide, by decide⟩ (by decide +kernel) (by decide +kernel)
  obtain ⟨range, rfl⟩ := (hsuffix (by decide +kernel) (by decide +kernel)).mpr (by decide +kernel)
  exact ⟨range, hposition⟩

/-! ## Common lines that are not mapped -/

/-- A line of text after so many empty ones. -/
def afterEmptyLines (count : ℕ) : String :=
  String.ofList (List.replicate count '\n' ++ ['a', '\n'])

theorem textLines_afterEmptyLines (count : ℕ) :
    textLines (afterEmptyLines count) = List.replicate count "\n" ++ ["a\n"] := by
  rw [textLines, afterEmptyLines, String.toList_ofList]
  induction count with
  | zero => rfl
  | succ count ih =>
    rw [List.replicate_succ, List.cons_append, Text.splitInclusive, if_pos rfl, List.map_cons, ih]
    rfl

/-- Empty lines above a line move its number, at last beyond the largest line number. -/
theorem not_mapped_afterEmptyLines {count : ℕ} (hcount : 2 ^ 32 ≤ count + 1) :
    textLines "a\n" <:+ textLines (afterEmptyLines count) ∧
      commonPrefix (textLines "a\n") (textLines (afterEmptyLines count)) = 0 ∧
      ¬ ∃ range, carryForwardLineRange ⟨1, 1, by decide, by decide, by decide⟩ "a\n"
        (some (afterEmptyLines count)) = .ok (.mapped range) := by
  have hold : textLines "a\n" = ["a\n"] := by decide +kernel
  have hsuffix : textLines "a\n" <:+ textLines (afterEmptyLines count) := by
    rw [hold, textLines_afterEmptyLines]
    exact List.suffix_append _ _
  have hfront : commonPrefix (textLines "a\n") (textLines (afterEmptyLines count)) = 0 := by
    obtain ⟨n, rfl⟩ := Nat.exists_eq_succ_of_ne_zero (show count ≠ 0 by omega)
    rw [hold, textLines_afterEmptyLines, List.replicate_succ, List.cons_append, commonPrefix_cons,
      if_neg (by decide)]
  refine ⟨hsuffix, hfront, ?_⟩
  rw [mapped_iff_of_suffix (by rw [hold]; simp) (by rw [hfront]; simp)
    (by rw [hfront]; exact hsuffix), hold, textLines_afterEmptyLines]
  simp only [List.length_append, List.length_replicate, List.length_singleton]
  omega

/-- Common lines at the end need not be mapped: not those that the common lines at the beginning
have taken, and not those whose new line numbers are too large. -/
theorem commonLines_not_mapped :
    (textLines "a\na\n").drop 1 <:+ textLines "a\n" ∧
      RequestDiscussionLines.ensureTarget ⟨.new, 2, 2, by decide, by decide, by decide⟩
        (.text "a\na\n") = .ok () ∧
      carryForwardLineRange ⟨2, 2, by decide, by decide, by decide⟩ "a\na\n" (some "a\n") =
        .ok .outdated ∧
      textLines "a\n" <:+ textLines (afterEmptyLines (2 ^ 32)) ∧
      RequestDiscussionLines.ensureTarget ⟨.new, 1, 1, by decide, by decide, by decide⟩
        (.text "a\n") = .ok () ∧
      ¬ ∃ range, carryForwardLineRange ⟨1, 1, by decide, by decide, by decide⟩ "a\n"
        (some (afterEmptyLines (2 ^ 32))) = .ok (.mapped range) := by
  obtain ⟨hsuffix, -, hnot⟩ := not_mapped_afterEmptyLines (Nat.le_succ (2 ^ 32))
  exact ⟨by decide +kernel, by decide +kernel, by decide +kernel, hsuffix, by decide +kernel, hnot⟩

end ScopeVcs.Requests

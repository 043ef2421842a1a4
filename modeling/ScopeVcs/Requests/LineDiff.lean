import Mathlib.Data.List.GetD
import ScopeVcs.Lib.EditGraph
import ScopeVcs.Lib.Mutation

/-! # The line diff of discussion anchors

`matchingPairs` is the greedy diff of two lists of lines, cut off at `maxEditDistance` edits. Its
signed arithmetic is over the integers; every index is checked as the slices of the source check it.
-/

namespace ScopeVcs.Requests.LineDiff

open EditGraph Mutation

def maxEditDistance : ℕ := 256

/-- What an index outside its slice does. -/
inductive Panic where
  | indexOutOfBounds
  deriving DecidableEq

section

variable {α : Type*}

/-- `values[index as usize]`. A negative index is beyond every length. -/
def getAt (values : List α) (index : ℤ) : Except Panic α :=
  if index < 0 then .error .indexOutOfBounds
  else match values[index.toNat]? with
    | some value => .ok value
    | none => .error .indexOutOfBounds

/-- `values[index as usize] = value`. -/
def setAt (values : List α) (index : ℤ) (value : α) : Except Panic (List α) :=
  if 0 ≤ index ∧ index < values.length then .ok (values.set index.toNat value)
  else .error .indexOutOfBounds

/-- `values[low as usize..=high as usize].to_vec()`. -/
def sliceAt (values : List α) (low high : ℤ) : Except Panic (List α) :=
  if 0 ≤ low ∧ low ≤ high + 1 ∧ high < values.length then
    .ok ((values.drop low.toNat).take (high + 1 - low).toNat)
  else .error .indexOutOfBounds

end

structure Frontier where
  depth : ℤ
  values : List ℤ

namespace Frontier

def capture (furthest : List ℤ) (offset depth : ℤ) : Except Panic Frontier := do
  let values ← sliceAt furthest (offset - depth - 1) (offset + depth + 1)
  return { depth, values }

def at' (frontier : Frontier) (diagonal : ℤ) : Except Panic ℤ :=
  getAt frontier.values (diagonal + frontier.depth + 1)

end Frontier

/-- The condition both passes choose the previous diagonal by. It reads the two neighbours only
between the outermost diagonals. -/
def fromAbove (read : ℤ → Except Panic ℤ) (depth diagonal : ℤ) : Except Panic Bool :=
  if diagonal = -depth then .ok true
  else if diagonal = depth then .ok false
  else do
    let left ← read (diagonal - 1)
    let above ← read (diagonal + 1)
    return decide (left < above)

/-- The loop that follows equal lines. -/
def slide (old new : List String) (x y : ℤ) : Except Panic (ℤ × ℤ) :=
  if x < old.length ∧ y < new.length then do
    let oldLine ← getAt old x
    let newLine ← getAt new y
    if oldLine = newLine then slide old new (x + 1) (y + 1) else return (x, y)
  else .ok (x, y)
termination_by (old.length - x).toNat
decreasing_by omega

/-- The loop that pushes the pairs between a point and the one it was entered at. The last pair
pushed comes first, which is how `pairs.reverse()` leaves them. -/
def retreat (previousX previousY x y : ℤ) (pairs : List (ℕ × ℕ)) : ℤ × ℤ × List (ℕ × ℕ) :=
  if previousX < x ∧ previousY < y then
    retreat previousX previousY (x - 1) (y - 1) (((x - 1).toNat, (y - 1).toNat) :: pairs)
  else (x, y, pairs)
termination_by (x - previousX).toNat
decreasing_by omega

/-- The body of `backtrack`, over the frontiers from the newest. -/
def backtrackFrom : List Frontier → ℤ → ℤ → List (ℕ × ℕ) → Except Panic (List (ℕ × ℕ))
  | [], _, _, pairs => .ok pairs
  | frontier :: older, x, y, pairs => do
    let depth := frontier.depth
    let diagonal := x - y
    let above ← fromAbove frontier.at' depth diagonal
    let previousDiagonal := if above then diagonal + 1 else diagonal - 1
    let previousX ← frontier.at' previousDiagonal
    let previousY := previousX - previousDiagonal
    let (x, y, pairs) := retreat previousX previousY x y pairs
    if 0 < depth then backtrackFrom older previousX previousY pairs
    else backtrackFrom older x y pairs

def backtrack (trace : List Frontier) (n m : ℤ) : Except Panic (List (ℕ × ℕ)) :=
  backtrackFrom trace n m []

/-- Where a diagonal is entered: at the point above it, or one to the right of the one before. -/
def enteredAt (furthest : List ℤ) (index : ℤ) (above : Bool) : Except Panic ℤ :=
  if above then getAt furthest (index + 1) else (getAt furthest (index - 1)).map (· + 1)

/-- The furthest point of a diagonal, and the frontier that records it. -/
def visit (old new : List String) (offset depth : ℤ) (furthest : List ℤ) (diagonal : ℤ) :
    Except Panic (ℤ × ℤ × List ℤ) := do
  let index := diagonal + offset
  let above ← fromAbove (fun k => getAt furthest (k + offset)) depth diagonal
  let x ← enteredAt furthest index above
  let (x, y) ← slide old new x (x - diagonal)
  let furthest ← setAt furthest index x
  return (x, y, furthest)

/-- How the search of one depth ends. -/
inductive Search where
  | found (pairs : List (ℕ × ℕ))
  | exhausted (furthest : List ℤ)

def searchDiagonals (old new : List String) (trace : List Frontier) (offset depth : ℤ) :
    List ℤ → List ℤ → Except Panic Search
  | [], furthest => .ok (.exhausted furthest)
  | diagonal :: rest, furthest => do
    let (x, y, furthest) ← visit old new offset depth furthest diagonal
    if old.length ≤ x ∧ new.length ≤ y then
      let pairs ← backtrack trace old.length new.length
      return .found pairs
    else searchDiagonals old new trace offset depth rest furthest

/-- `(-depth..=depth).step_by(2)`. -/
def diagonals (depth : ℕ) : List ℤ := (List.range (depth + 1)).map fun i : ℕ => -(depth : ℤ) + 2 * i

def searchDepths (old new : List String) (offset : ℤ) :
    List ℕ → List Frontier → List ℤ → Except Panic (Option (List (ℕ × ℕ)))
  | [], _, _ => .ok none
  | depth :: rest, older, furthest => do
    let frontier ← Frontier.capture furthest offset depth
    let trace := frontier :: older
    match ← searchDiagonals old new trace offset depth (diagonals depth) furthest with
    | .found pairs => return some pairs
    | .exhausted furthest => searchDepths old new offset rest trace furthest

def maxDepth (old new : List String) : ℕ := min (old.length + new.length) maxEditDistance

def matchingPairs (old new : List String) : Except Panic (Option (List (ℕ × ℕ))) :=
  let offset : ℤ := maxDepth old new + 1
  let furthest := List.replicate (2 * offset + 1).toNat 0
  searchDepths old new offset (List.range (maxDepth old new + 1)) [] furthest

/-! ## Reading and writing in bounds -/

section

variable {α : Type*} {values : List α} {index : ℤ}

theorem getAt_eq_ok [Inhabited α] (h : 0 ≤ index) (hlt : index < values.length) :
    getAt values index = .ok (values.getD index.toNat default) := by
  rw [getAt, if_neg (by omega), List.getElem?_eq_getElem (by omega),
    List.getD_eq_getElem _ _ (by omega)]

theorem setAt_eq_ok (h : 0 ≤ index) (hlt : index < values.length) (value : α) :
    setAt values index value = .ok (values.set index.toNat value) :=
  if_pos ⟨h, hlt⟩

end

/-- The furthest points as a function of the diagonal. -/
def value (furthest : List ℤ) (offset k : ℤ) : ℤ := furthest.getD (k + offset).toNat 0

theorem value_set {furthest : List ℤ} {offset k : ℤ} (hk : 0 ≤ k + offset)
    (hlt : k + offset < furthest.length) (x : ℤ) {k' : ℤ} (hk' : 0 ≤ k' + offset) :
    value (furthest.set (k + offset).toNat x) offset k' =
      Function.update (value furthest offset) k x k' := by
  unfold value
  by_cases h : k' = k
  · rw [h, Function.update_self, List.getD_eq_getElem _ _ (by rw [List.length_set]; omega),
      List.getElem_set_self]
  · rw [Function.update_of_ne h, List.getD_eq_getElem?_getD, List.getD_eq_getElem?_getD,
      List.getElem?_set_ne (by omega)]

theorem fromAbove_eq_ok {read : ℤ → Except Panic ℤ} {f : ℤ → ℤ} {depth diagonal : ℤ}
    (hread : diagonal ≠ -depth → diagonal ≠ depth →
      read (diagonal - 1) = .ok (f (diagonal - 1)) ∧ read (diagonal + 1) = .ok (f (diagonal + 1))) :
    fromAbove read depth diagonal = .ok (decide (FromAbove f depth diagonal)) := by
  unfold fromAbove
  by_cases hlow : diagonal = -depth
  · rw [if_pos hlow, decide_eq_true (p := FromAbove f depth diagonal) (.inl hlow)]
  by_cases hhigh : diagonal = depth
  · rw [if_neg hlow, if_pos hhigh, decide_eq_false (p := FromAbove f depth diagonal)
      (not_or.mpr ⟨hlow, fun h => h.1 hhigh⟩)]
  obtain ⟨hleft, habove⟩ := hread hlow hhigh
  rw [if_neg hlow, if_neg hhigh, hleft, habove]
  simp [FromAbove, hlow, hhigh, pure, Except.pure]

/-! ## Following equal lines -/

theorem matches_iff {old new : List String} {x y : ℕ} (hx : x < old.length) (hy : y < new.length) :
    Matches old new x y ↔ old.getD x default = new.getD y default := by
  rw [List.getD_eq_getElem _ _ hx, List.getD_eq_getElem _ _ hy]
  simp [Matches, hx, hy, eq_comm]

/-- The loop stops at the first position where the lists do not agree. -/
theorem slide_eq_ok (old new : List String) (i j : ℕ) :
    ∃ c : ℕ, slide old new i j = .ok ((i : ℤ) + c, (j : ℤ) + c) ∧
      (∀ t < c, Matches old new (i + t) (j + t)) ∧ ¬ Matches old new (i + c) (j + c) := by
  induction hn : old.length - i generalizing i j with
  | zero =>
    refine ⟨0, ?_, by omega, fun h => by have := h.lt_left; omega⟩
    rw [slide, if_neg (by omega)]
    simp
  | succ n ih =>
    by_cases hin : j < new.length
    · have hi : i < old.length := by omega
      rw [slide, if_pos (by omega), getAt_eq_ok (by omega) (by omega),
        getAt_eq_ok (by omega) (by omega), except_ok_bind, except_ok_bind, Int.toNat_natCast,
        Int.toNat_natCast]
      by_cases hline : Matches old new i j
      · rw [if_pos ((matches_iff hi hin).mp hline)]
        obtain ⟨c, hc, hagree, hend⟩ := ih (i + 1) (j + 1) (by omega)
        refine ⟨c + 1, ?_, ?_, ?_⟩
        · push_cast at hc ⊢
          rw [hc, add_assoc, add_assoc, add_comm 1]
        · intro t ht
          cases t with
          | zero => exact hline
          | succ t =>
            have := hagree t (by omega)
            rwa [add_right_comm, add_right_comm j] at this
        · rwa [add_right_comm, add_right_comm j] at hend
      · rw [if_neg (fun h => hline ((matches_iff hi hin).mpr h))]
        exact ⟨0, by simp [pure, Except.pure], by omega, hline⟩
    · refine ⟨0, ?_, by omega, fun h => by have := h.lt_right; omega⟩
      rw [slide, if_neg (by omega)]
      simp

/-- The array `furthest` has room for the diagonals next to those of depth `d`. -/
structure HasRoom (offset : ℤ) (d : ℕ) (furthest : List ℤ) : Prop where
  length : (furthest.length : ℤ) = 2 * offset + 1
  depth : (d : ℤ) + 1 ≤ offset

/-- One visit reaches the furthest point of its diagonal and writes it there. -/
theorem visit_eq_ok {old new : List String} {offset : ℤ} {d : ℕ} {furthest : List ℤ} {k : ℤ}
    (h : HasRoom offset d furthest) (hentries : Entries old new d (value furthest offset))
    (hlow : -d ≤ k) (hhigh : k ≤ d) (hparity : (k + d) % 2 = 0) :
    ∃ x, IsFurthest old new d k x ∧
      visit old new offset d furthest k =
        .ok (x, x - k, furthest.set (k + offset).toNat x) := by
  have hlength := h.length
  have hdepth := h.depth
  have hread : ∀ k', -offset ≤ k' → k' ≤ offset →
      getAt furthest (k' + offset) = .ok (value furthest offset k') := fun k' hk hk' =>
    getAt_eq_ok (by omega) (by omega)
  have hfrom : fromAbove (fun k => getAt furthest (k + offset)) d k =
      .ok (decide (FromAbove (value furthest offset) d k)) :=
    fromAbove_eq_ok fun _ _ => ⟨hread _ (by omega) (by omega), hread _ (by omega) (by omega)⟩
  have henters := hentries.enters hlow hhigh hparity
  have hentry : enteredAt furthest (k + offset) (decide (FromAbove (value furthest offset) d k)) =
      .ok (entry (value furthest offset) d k) := by
    have habove := hread (k + 1) (by omega) (by omega)
    have hleft := hread (k - 1) (by omega) (by omega)
    rw [add_right_comm] at habove
    rw [sub_add_eq_add_sub] at hleft
    rw [enteredAt, habove, hleft, entry]
    by_cases hf : FromAbove (value furthest offset) d k
    · simp [hf]
    · simp [hf, except_map_ok]
  obtain ⟨i, j, hi, hj, -⟩ := henters.reached
  obtain ⟨c, hslide, hagree, hend⟩ := slide_eq_ok old new i j
  refine ⟨_, henters.isFurthest hi hj hagree hend, ?_⟩
  rw [visit, hfrom, except_ok_bind]
  simp only
  rw [hentry, except_ok_bind, hj, hi, hslide, except_ok_bind]
  simp only
  rw [setAt_eq_ok (by omega) (by omega), except_ok_bind]
  have hy : (j : ℤ) + c = i + c - k := by omega
  rw [hy]
  rfl

/-! ## The way back -/

/-- A saved frontier holds what its depth was entered from. -/
structure Saves (old new : List String) (d : ℕ) (frontier : Frontier) : Prop where
  depth : frontier.depth = d
  length : frontier.values.length = 2 * d + 3
  entries : Entries old new d fun k => frontier.values.getD (k + d + 1).toNat 0

/-- The saved frontiers of the depths below `d`, from the newest. -/
inductive Trace (old new : List String) : ℕ → List Frontier → Prop
  | nil : Trace old new 0 []
  | cons {d : ℕ} {frontier : Frontier} {older : List Frontier} :
      Saves old new d frontier → Trace old new d older → Trace old new (d + 1) (frontier :: older)

theorem capture_eq_ok {old new : List String} {offset : ℤ} {d : ℕ} {furthest : List ℤ}
    (h : HasRoom offset d furthest) (hentries : Entries old new d (value furthest offset)) :
    ∃ frontier, Frontier.capture furthest offset d = .ok frontier ∧ Saves old new d frontier := by
  have hlength := h.length
  have hdepth := h.depth
  refine ⟨⟨d, (furthest.drop (offset - d - 1).toNat).take
      (offset + d + 1 + 1 - (offset - d - 1)).toNat⟩, ?_, ?_⟩
  · rw [Frontier.capture, sliceAt, if_pos (by omega)]
    rfl
  · refine ⟨rfl, ?_, ?_⟩
    · rw [List.length_take, List.length_drop]
      omega
    · refine hentries.congr fun k hlow hhigh => ?_
      rw [value, List.getD_eq_getElem?_getD, List.getElem?_take_of_lt (by omega),
        List.getElem?_drop, List.getD_eq_getElem?_getD]
      congr 2
      omega

/-- The pairs from a point on: an alignment that does not go back before it. -/
structure AlignedFrom (old new : List String) (x y : ℤ) (pairs : List (ℕ × ℕ)) : Prop where
  alignment : Alignment old new pairs
  after : ∀ p ∈ pairs, x ≤ p.1 ∧ y ≤ p.2

theorem AlignedFrom.mono {old new : List String} {x y x' y' : ℤ} {pairs : List (ℕ × ℕ)}
    (h : AlignedFrom old new x y pairs) (hx : x' ≤ x) (hy : y' ≤ y) :
    AlignedFrom old new x' y' pairs where
  alignment := h.alignment
  after p hp := ⟨hx.trans (h.after p hp).1, hy.trans (h.after p hp).2⟩

/-- Going back along agreeing positions pairs every one of them. -/
theorem retreat_eq {old new : List String} (previousX previousY : ℤ) {i j c : ℕ}
    {pairs : List (ℕ × ℕ)} (hx : previousX ≤ i) (hy : previousY ≤ j)
    (hstop : previousX = i ∨ previousY = j)
    (hagree : ∀ t < c, Matches old new (i + t) (j + t))
    (hpairs : AlignedFrom old new (i + c) (j + c) pairs) :
    ∃ pairs', retreat previousX previousY (i + c) (j + c) pairs = ((i : ℤ), (j : ℤ), pairs') ∧
      AlignedFrom old new i j pairs' ∧ pairs'.length = pairs.length + c := by
  induction c generalizing pairs with
  | zero =>
    rw [retreat, if_neg (by omega)]
    exact ⟨pairs, by simp, by simpa using hpairs, rfl⟩
  | succ c ih =>
    rw [retreat, if_pos (by omega)]
    have hfront : AlignedFrom old new (i + c) (j + c) ((i + c, j + c) :: pairs) := by
      constructor
      · refine hpairs.alignment.cons (hagree c (by omega)) fun p hp => ?_
        have := hpairs.after p hp
        omega
      · intro p hp
        rcases List.mem_cons.mp hp with rfl | hp
        · simp
        · have := hpairs.after p hp
          omega
    obtain ⟨pairs', heq, haligned, hlength⟩ := ih (fun t ht => hagree t (by omega)) hfront
    refine ⟨pairs', ?_, haligned, by rw [hlength, List.length_cons]; omega⟩
    have hx' : (i : ℤ) + (c + 1 : ℕ) - 1 = i + c := by omega
    have hy' : (j : ℤ) + (c + 1 : ℕ) - 1 = j + c := by omega
    rw [hx', hy', ← heq]
    congr 3

theorem Saves.at'_eq_ok {old new : List String} {d : ℕ} {frontier : Frontier}
    (h : Saves old new d frontier) {k : ℤ} (hlow : -(d : ℤ) - 1 ≤ k) (hhigh : k ≤ d + 1) :
    frontier.at' k = .ok (frontier.values.getD (k + d + 1).toNat 0) := by
  have hlength := h.length
  rw [Frontier.at', h.depth]
  exact getAt_eq_ok (by omega) (by omega)

/-- One frontier leads back to where its diagonal was entered, and from there to the furthest point
of the depth before. -/
theorem backtrackFrom_cons {old new : List String} {d : ℕ} {frontier : Frontier}
    {older : List Frontier} (hsaves : Saves old new d frontier) {i j : ℕ}
    (hfurthest : IsFurthest old new d (i - j) i) {pairs : List (ℕ × ℕ)}
    (hpairs : AlignedFrom old new i j pairs) :
    ∃ (s t c : ℕ) (previousX previousY : ℤ) (pairs' : List (ℕ × ℕ)),
      backtrackFrom (frontier :: older) i j pairs =
        (if 0 < (d : ℤ) then backtrackFrom older previousX previousY pairs'
          else backtrackFrom older s t pairs') ∧
      AlignedFrom old new s t pairs' ∧ pairs'.length = pairs.length + c ∧
      i = s + c ∧ j = t + c ∧ previousX ≤ s ∧ previousY ≤ t ∧
      previousX + previousY + 1 = s + t ∧ (d = 0 → s = 0 ∧ t = 0) ∧
      ∀ d', d = d' + 1 → IsFurthest old new d' (previousX - previousY) previousX := by
  generalize hf : (fun k : ℤ => frontier.values.getD (k + d + 1).toNat 0) = f
  have hentries : Entries old new d f := hf ▸ hsaves.entries
  have hread : ∀ k : ℤ, -(d : ℤ) - 1 ≤ k → k ≤ d + 1 → frontier.at' k = .ok (f k) :=
    fun k hlow hhigh => hf ▸ hsaves.at'_eq_ok hlow hhigh
  obtain ⟨i', j', hi', hj', hreach⟩ := hfurthest.reached
  obtain rfl : i = i' := by omega
  obtain rfl : j = j' := by omega
  have hbounds := hreach.diagonal_bounds
  have henters := hentries.enters (k := i - j) (by omega) (by omega) (by omega)
  obtain ⟨s, t, hs, ht, hreach'⟩ := henters.reached
  obtain ⟨hle, hagree⟩ := henters.matches_of_lt hfurthest
  have hfrom : fromAbove frontier.at' d (i - j) = .ok (decide (FromAbove f d (i - j))) :=
    fromAbove_eq_ok fun _ _ => ⟨hread _ (by omega) (by omega), hread _ (by omega) (by omega)⟩
  -- the previous diagonal, as the forward search chose it
  obtain ⟨k, hk, hlow, hhigh, hentry⟩ : ∃ k : ℤ,
      k = (if decide (FromAbove f d (i - j)) = true then (i : ℤ) - j + 1 else i - j - 1) ∧
      -(d : ℤ) - 1 ≤ k ∧ k ≤ d + 1 ∧
      (f k = s ∧ f k - k + 1 = t ∨ f k + 1 = s ∧ f k - k = t) ∧
      ∀ d', d = d' + 1 → -(d' : ℤ) ≤ k ∧ k ≤ d' ∧ (k + d') % 2 = 0 := by
    by_cases hf : FromAbove f d (i - j)
    · refine ⟨_, rfl, ?_⟩
      rw [entry, if_pos hf] at hs ht
      rw [decide_eq_true hf, if_pos rfl]
      unfold FromAbove at hf
      refine ⟨by omega, by omega, .inl (by omega), fun d' hd => by omega⟩
    · refine ⟨_, rfl, ?_⟩
      rw [entry, if_neg hf] at hs ht
      rw [decide_eq_false hf, if_neg (by simp)]
      unfold FromAbove at hf
      refine ⟨by omega, by omega, .inr (by omega), fun d' hd => by omega⟩
  obtain ⟨hentry, hprevious⟩ := hentry
  obtain ⟨pairs', hretreat, haligned, hlength⟩ :=
    retreat_eq (f k) (f k - k) (i := s) (j := t) (c := i - s) (by omega) (by omega) (by omega)
      (fun c hc => hagree _ _ (by omega) (by omega) (by omega))
      (hpairs.mono (by omega) (by omega))
  refine ⟨s, t, i - s, f k, f k - k, pairs', ?_, haligned, hlength, by omega, by omega, by omega,
    by omega, by omega, ?_, ?_⟩
  · rw [backtrackFrom, hsaves.depth]
    simp only
    rw [hfrom, except_ok_bind, ← hk, hread k hlow hhigh, except_ok_bind]
    have hi : ((s : ℤ) + (i - s : ℕ)) = i := by omega
    have hj : ((t : ℤ) + (i - s : ℕ)) = j := by omega
    rw [hi, hj] at hretreat
    rw [hretreat]
  · rintro rfl
    have hmain : (i : ℤ) - j = 0 := by omega
    have hzero := hentries.entry_zero
    rw [hmain] at hs ht
    push_cast at hs ht
    omega
  · rintro d' rfl
    obtain ⟨hlow', hhigh', hparity⟩ := hprevious d' rfl
    have := hentries k hlow' hhigh' hparity
    rwa [sub_sub_cancel]

/-- The way back from a furthest point pairs all but the edits on the path to it. -/
theorem backtrackFrom_eq_ok {old new : List String} {d : ℕ} {trace : List Frontier}
    (htrace : Trace old new (d + 1) trace) {i j : ℕ}
    (hfurthest : IsFurthest old new d (i - j) i) {pairs : List (ℕ × ℕ)}
    (hpairs : AlignedFrom old new i j pairs) :
    ∃ pairs', backtrackFrom trace i j pairs = .ok pairs' ∧ Alignment old new pairs' ∧
      d + 2 * pairs'.length = i + j + 2 * pairs.length := by
  induction d generalizing trace i j pairs with
  | zero =>
    cases htrace with
    | cons hsaves holder =>
      cases holder
      obtain ⟨s, t, c, px, py, pairs', heq, haligned, hlength, hi, hj, -, -, -, hzero, -⟩ :=
        backtrackFrom_cons hsaves hfurthest hpairs
      obtain ⟨hs, ht⟩ := hzero rfl
      refine ⟨pairs', ?_, haligned.alignment, by omega⟩
      rw [heq, if_neg (by omega), backtrackFrom]
  | succ d ih =>
    cases htrace with
    | cons hsaves holder =>
      obtain ⟨s, t, c, px, py, pairs', heq, haligned, hlength, hi, hj, hx, hy, hsum, -, hprevious⟩ :=
        backtrackFrom_cons hsaves hfurthest hpairs
      have hfurthest' := hprevious d rfl
      obtain ⟨i', j', hi', hj', hreach⟩ := hfurthest'.reached
      obtain rfl : py = j' := by omega
      subst hi'
      obtain ⟨result, hback, halignment, hcount⟩ := ih holder hfurthest' (haligned.mono hx hy)
      refine ⟨result, ?_, halignment, by omega⟩
      rw [heq, if_pos (by omega), hback]

/-! ## The search -/

/-- The pairs of a longest common subsequence: they leave as many lines as the edit distance. -/
structure LongestCommon (old new : List String) (pairs : List (ℕ × ℕ)) : Prop where
  alignment : Alignment old new pairs
  count : editDistance old new + 2 * pairs.length = old.length + new.length

/-- How one depth of the search may end: at the far corner with the edit distance, or with the
furthest points of the depth. -/
def Search.Correct (old new : List String) (offset : ℤ) (d : ℕ) : Search → Prop
  | .found pairs => editDistance old new = d ∧ LongestCommon old new pairs
  | .exhausted furthest => d < editDistance old new ∧
      (furthest.length : ℤ) = 2 * offset + 1 ∧ Entries old new (d + 1) (value furthest offset)

theorem mem_diagonals {d : ℕ} {k : ℤ} :
    k ∈ diagonals d ↔ -(d : ℤ) ≤ k ∧ k ≤ d ∧ (k + d) % 2 = 0 := by
  simp only [diagonals, List.mem_map, List.mem_range]
  constructor
  · rintro ⟨i, hi, rfl⟩
    omega
  · rintro ⟨hlow, hhigh, hparity⟩
    exact ⟨((k + d) / 2).toNat, by omega, by omega⟩

/-- The furthest point at the far corner or beyond is the far corner, at the edit distance. -/
theorem eq_corner_of_isFurthest {old new : List String} {d : ℕ} {k x : ℤ}
    (h : IsFurthest old new d k x) (hdistance : d ≤ editDistance old new)
    (hx : (old.length : ℤ) ≤ x) (hy : (new.length : ℤ) ≤ x - k) :
    editDistance old new = d ∧ k = (old.length : ℤ) - new.length ∧ x = old.length := by
  obtain ⟨i, j, hi, hj, hreach⟩ := h.reached
  have := editDistance_add_le hreach (by omega) (by omega)
  omega

theorem searchDiagonals_correct {old new : List String} {offset : ℤ} {d : ℕ}
    {trace : List Frontier} (htrace : Trace old new (d + 1) trace)
    (hdistance : d ≤ editDistance old new) {rest : List ℤ} {furthest : List ℤ}
    (h : HasRoom offset d furthest) (hentries : Entries old new d (value furthest offset))
    (hrest : ∀ k ∈ rest, k ∈ diagonals d)
    (hvisited : ∀ k ∈ diagonals d, k ∉ rest →
      IsFurthest old new d k (value furthest offset k) ∧
        ¬ ((old.length : ℤ) ≤ value furthest offset k ∧
          (new.length : ℤ) ≤ value furthest offset k - k)) :
    ∃ result, searchDiagonals old new trace offset d rest furthest = .ok result ∧
      result.Correct old new offset d := by
  induction rest generalizing furthest with
  | nil =>
    refine ⟨_, rfl, ?_, h.length, ?_⟩
    · have := ne_editDistance_of_isFurthest fun k hlow hhigh hparity =>
        hvisited k (mem_diagonals.mpr ⟨hlow, hhigh, hparity⟩) (List.not_mem_nil)
      omega
    · intro k hlow hhigh hparity
      exact (hvisited k (mem_diagonals.mpr ⟨hlow, hhigh, hparity⟩) List.not_mem_nil).1
  | cons k rest ih =>
    have hlength := h.length
    have hdepth := h.depth
    obtain ⟨hlow, hhigh, hparity⟩ := mem_diagonals.mp (hrest k List.mem_cons_self)
    obtain ⟨x, hx, hvisit⟩ := visit_eq_ok h hentries hlow hhigh hparity
    rw [searchDiagonals, hvisit, except_ok_bind]
    simp only
    by_cases hcorner : (old.length : ℤ) ≤ x ∧ (new.length : ℤ) ≤ x - k
    · rw [if_pos hcorner]
      obtain ⟨heq, rfl, rfl⟩ := eq_corner_of_isFurthest hx hdistance hcorner.1 hcorner.2
      obtain ⟨pairs, hback, halignment, hcount⟩ :=
        backtrackFrom_eq_ok htrace hx ⟨Alignment.nil, by simp⟩
      rw [backtrack, hback]
      refine ⟨_, rfl, heq, halignment, ?_⟩
      rw [heq, hcount, List.length_nil]
      omega
    · rw [if_neg hcorner]
      have hvalue : ∀ k' : ℤ, -(d : ℤ) - 1 ≤ k' → value (furthest.set (k + offset).toNat x) offset k' =
          Function.update (value furthest offset) k x k' := fun k' hk' =>
        value_set (by omega) (by omega) x (by omega)
      refine ih ⟨by rw [List.length_set, hlength], hdepth⟩ ?_
        (fun k' hk' => hrest k' (List.mem_cons_of_mem _ hk')) ?_
      · exact (hentries.update hparity x).congr fun k' hk' _ => hvalue k' hk'
      · intro k' hk' hk'rest
        have := mem_diagonals.mp hk'
        rw [hvalue k' (by omega)]
        by_cases hk : k' = k
        · rw [hk, Function.update_self]
          exact ⟨hx, hcorner⟩
        · rw [Function.update_of_ne hk]
          refine hvisited k' hk' fun hmem => ?_
          rcases List.mem_cons.mp hmem with heq | hmem
          · exact hk heq
          · exact hk'rest hmem

/-- The search from depth `d` up finds the edit distance unless it is beyond the last depth. -/
theorem searchDepths_correct {old new : List String} {offset : ℤ} {d count : ℕ}
    (hoffset : offset = d + count) (hdistance : d ≤ editDistance old new)
    {trace : List Frontier} (htrace : Trace old new d trace) {furthest : List ℤ}
    (hlength : (furthest.length : ℤ) = 2 * offset + 1)
    (hentries : Entries old new d (value furthest offset)) :
    ∃ result, searchDepths old new offset (List.range' d count) trace furthest = .ok result ∧
      (result.isSome ↔ editDistance old new < d + count) ∧
      ∀ pairs, result = some pairs → LongestCommon old new pairs := by
  induction count generalizing d trace furthest with
  | zero =>
    refine ⟨none, rfl, ?_, by simp⟩
    simp only [Option.isSome_none, Bool.false_eq_true, false_iff]
    omega
  | succ count ih =>
    have hholds : HasRoom offset d furthest := ⟨hlength, by push_cast at hoffset; omega⟩
    obtain ⟨frontier, hcapture, hsaves⟩ := capture_eq_ok hholds hentries
    have htrace' := Trace.cons hsaves htrace
    obtain ⟨result, hsearch, hresult⟩ := searchDiagonals_correct htrace' hdistance hholds hentries
      (fun k hk => hk) (fun k hk hnot => absurd hk hnot)
    rw [List.range'_succ, searchDepths, hcapture, except_ok_bind]
    simp only
    rw [hsearch, except_ok_bind]
    cases result with
    | found pairs =>
      obtain ⟨heq, hpairs⟩ := hresult
      refine ⟨some pairs, rfl, ?_, ?_⟩
      · simp only [Option.isSome_some, true_iff]
        omega
      · intro pairs' heq'
        rwa [← Option.some.inj heq']
    | exhausted furthest =>
      obtain ⟨hlt, hlength', hentries'⟩ := hresult
      have := ih (d := d + 1) (by push_cast at hoffset ⊢; omega) hlt htrace' hlength' hentries'
      rwa [Nat.add_right_comm d 1, Nat.add_assoc d] at this

/-- The diff stays in bounds, finds every edit distance up to its limit, and what it finds is a
longest common subsequence. -/
theorem matchingPairs_correct (old new : List String) :
    ∃ result, matchingPairs old new = .ok result ∧
      (result.isSome ↔ editDistance old new ≤ min (old.length + new.length) maxEditDistance) ∧
      ∀ pairs, result = some pairs → LongestCommon old new pairs := by
  have hlength : ((List.replicate (2 * ((maxDepth old new : ℤ) + 1) + 1).toNat (0 : ℤ)).length : ℤ) =
      2 * (maxDepth old new + 1) + 1 := by
    rw [List.length_replicate]
    omega
  have hentries : Entries old new 0 (value
      (List.replicate (2 * ((maxDepth old new : ℤ) + 1) + 1).toNat 0) (maxDepth old new + 1)) := by
    change value _ _ 1 = 0
    rw [value, List.getD_eq_getElem?_getD, List.getElem?_replicate]
    split <;> rfl
  obtain ⟨result, hsearch, hsome, hpairs⟩ :=
    @searchDepths_correct old new _ 0 (maxDepth old new + 1) (by push_cast; omega)
      (Nat.zero_le _) _ .nil _ hlength hentries
  rw [← List.range_eq_range'] at hsearch
  refine ⟨result, hsearch, hsome.trans ?_, hpairs⟩
  rw [maxDepth]
  omega

/-- A longest common subsequence has as many pairs as the edit distance leaves, and no alignment of
the two lists has more. -/
theorem LongestCommon.isLongest {old new : List String} {pairs : List (ℕ × ℕ)}
    (h : LongestCommon old new pairs) :
    pairs.length = (old.length + new.length - editDistance old new) / 2 ∧
      ∀ pairs', Alignment old new pairs' → pairs'.length ≤ pairs.length := by
  have hcount := h.count
  refine ⟨by omega, fun pairs' h' => ?_⟩
  have := h'.length_le
  omega

/-- The diff never indexes out of bounds. It answers exactly when the edit distance is within its
limit, with strictly increasing pairs of equal lines that form a longest common subsequence. -/
theorem matchingPairs_longest_common (old new : List String) :
    ∃ result, matchingPairs old new = .ok result ∧
      (result.isSome ↔ editDistance old new ≤ min (old.length + new.length) 256) ∧
      ∀ pairs, result = some pairs →
        (pairs.Pairwise fun p q => p.1 < q.1 ∧ p.2 < q.2) ∧
        (∀ p ∈ pairs, ∃ line, old[p.1]? = some line ∧ new[p.2]? = some line) ∧
        pairs.length = (old.length + new.length - editDistance old new) / 2 ∧
        ∀ pairs', Alignment old new pairs' → pairs'.length ≤ pairs.length := by
  obtain ⟨result, hresult, hsome, hpairs⟩ := matchingPairs_correct old new
  refine ⟨result, hresult, hsome, fun pairs heq => ?_⟩
  have h := hpairs pairs heq
  exact ⟨h.alignment.increasing, h.alignment.agree, h.isLongest⟩

end ScopeVcs.Requests.LineDiff

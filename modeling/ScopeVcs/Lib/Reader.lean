import Mathlib.Data.List.Basic

/-! # Readers

A reader hands out a sequence in pieces, each at most as long as its caller asks for, and an empty
piece only when nothing is left. How it cuts the sequence is its own affair.
-/

/-- What is left of the sequence is part of the interface: a read takes a piece off its front. -/
structure Reader (σ α ε : Type) where
  read : σ → ℕ → Except ε (List α × σ)
  rest : σ → List α
  rest_eq : ∀ {s s' : σ} {n : ℕ} {piece : List α}, read s n = .ok (piece, s') →
    rest s = piece ++ rest s'
  length_le : ∀ {s s' : σ} {n : ℕ} {piece : List α}, read s n = .ok (piece, s') → piece.length ≤ n
  rest_eq_nil : ∀ {s s' : σ} {n : ℕ}, 0 < n → read s n = .ok ([], s') → rest s = []

namespace Reader

variable {σ α ε : Type} (reader : Reader σ α ε)

/-- No read fails. -/
def Infallible : Prop := ∀ s n, ∃ piece s', reader.read s n = .ok (piece, s')

variable {reader} {s s' : σ} {n : ℕ} {piece : List α}

theorem length_rest_lt (h : reader.read s n = .ok (piece, s')) (hne : piece ≠ []) :
    (reader.rest s').length < (reader.rest s).length := by
  rw [reader.rest_eq h, List.length_append]
  have hpos : 0 < piece.length := List.length_pos_iff.mpr hne
  omega

/-- Behind the end nothing is read. -/
theorem eq_nil_of_rest (h : reader.read s n = .ok (piece, s')) (hrest : reader.rest s = []) :
    piece = [] := by
  rw [reader.rest_eq h] at hrest
  exact (List.append_eq_nil_iff.mp hrest).1

/-! ## Sequences in given pieces -/

/-- One piece after the other; what a read leaves of a piece comes first the next time. Empty pieces
are passed over. -/
def takePiece : List (List α) → ℕ → List α × List (List α)
  | [], _ => ([], [])
  | [] :: pieces, n => takePiece pieces n
  | (a :: piece) :: pieces, n => ((a :: piece).take n, (a :: piece).drop n :: pieces)

theorem takePiece_flatten (pieces : List (List α)) (n : ℕ) :
    pieces.flatten = (takePiece pieces n).1 ++ (takePiece pieces n).2.flatten := by
  fun_induction takePiece pieces n with
  | case1 => rfl
  | case2 n pieces ih => exact ih
  | case3 a piece pieces n =>
    show (a :: piece) ++ pieces.flatten = (a :: piece).take n ++ ((a :: piece).drop n ++ pieces.flatten)
    rw [← List.append_assoc, List.take_append_drop]

theorem length_takePiece_le (pieces : List (List α)) (n : ℕ) :
    (takePiece pieces n).1.length ≤ n := by
  fun_induction takePiece pieces n with
  | case1 => exact Nat.zero_le _
  | case2 n pieces ih => exact ih
  | case3 a piece pieces n => exact List.length_take_le _ _

theorem flatten_eq_nil_of_takePiece {pieces : List (List α)} {n : ℕ} (hn : 0 < n)
    (h : (takePiece pieces n).1 = []) : pieces.flatten = [] := by
  fun_induction takePiece pieces n with
  | case1 => rfl
  | case2 n pieces ih => exact ih hn h
  | case3 a piece pieces n =>
    cases n with
    | zero => exact absurd hn (Nat.lt_irrefl 0)
    | succ n => exact absurd h (List.cons_ne_nil _ _)

/-- The reader of a sequence that arrives in the given pieces. -/
def ofPieces (α ε : Type) : Reader (List (List α)) α ε where
  read := fun pieces n => .ok (takePiece pieces n)
  rest := List.flatten
  rest_eq := @fun pieces pieces' n piece h => by
    have hpieces := takePiece_flatten pieces n
    rwa [Except.ok.inj h] at hpieces
  length_le := @fun pieces pieces' n piece h => by
    have hpieces := length_takePiece_le pieces n
    rwa [Except.ok.inj h] at hpieces
  rest_eq_nil := fun hn h => by
    have hpiece := congrArg Prod.fst (Except.ok.inj h)
    exact flatten_eq_nil_of_takePiece hn hpiece

theorem infallible_ofPieces : (ofPieces α ε).Infallible := fun _ _ => ⟨_, _, rfl⟩

end Reader

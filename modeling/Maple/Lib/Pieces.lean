import Mathlib.Data.List.Basic

/-!
# Cutting a list into bounded pieces

`pieces n xs` is Rust's `xs.chunks(n)`: consecutive slices of length `n`, the
last one possibly shorter, and no slice at all for an empty list.
-/

set_option autoImplicit false

namespace Maple.Pieces

open List

variable {α : Type*}

def piecesLoop (n : ℕ) : ℕ → List α → List (List α)
  | _, [] => []
  | 0, _::_ => []
  | fuel+1, x::xs => (x::xs).take n :: piecesLoop n fuel ((x::xs).drop n)

def pieces (n : ℕ) (xs : List α) : List (List α) := piecesLoop n xs.length xs

variable {n : ℕ}

theorem piecesLoop_flatten {fuel : ℕ} (xs : List α) (hn : 0 < n) (hf : xs.length ≤ fuel) :
    (piecesLoop n fuel xs).flatten = xs := by
  induction fuel generalizing xs with
  | zero =>
    obtain rfl := length_eq_zero_iff.mp (Nat.le_zero.mp hf)
    rfl
  | succ fuel ih =>
    cases xs with
    | nil => rfl
    | cons x xs =>
      rw [piecesLoop, flatten_cons, ih _ (by
        simp only [length_drop, length_cons] at *
        omega), take_append_drop]

theorem pieces_flatten (n : ℕ) (xs : List α) (hn : 0 < n) : (pieces n xs).flatten = xs :=
  piecesLoop_flatten xs hn (Nat.le_refl _)

theorem piecesLoop_length_le {fuel : ℕ} (xs : List α) {piece : List α}
    (h : piece ∈ piecesLoop n fuel xs) : piece.length ≤ n := by
  induction fuel generalizing xs with
  | zero => cases xs <;> simp [piecesLoop] at h
  | succ fuel ih =>
    cases xs with
    | nil => simp [piecesLoop] at h
    | cons x xs =>
      rcases mem_cons.mp h with rfl | h
      · exact length_take_le n _
      · exact ih _ h

theorem pieces_length_le {xs piece : List α} (h : piece ∈ pieces n xs) :
    piece.length ≤ n := piecesLoop_length_le xs h

end Maple.Pieces

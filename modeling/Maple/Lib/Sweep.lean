import Mathlib.Data.List.Basic

/-!
# Sweeps over a list

A sweep rewrites a list from left to right with a state. Where the state depends only on
the keys of the items before, each item's output does too, and a second sweep or a longer
list can be followed item by item.
-/

set_option autoImplicit false

namespace Maple.Sweep

open List

variable {σ α β γ κ : Type*}

def sweep (f : σ → α → σ × β) : σ → List α → σ × List β
  | s, [] => (s, [])
  | s, a::as =>
    let step := f s a
    let rest := sweep f step.1 as
    (rest.1, step.2::rest.2)

/-- The outputs, each a function of its item and of the keys before it. -/
def written (keys : α → List κ) (out : List κ → α → β) : List κ → List α → List β
  | _, [] => []
  | seen, a::as => out seen a::written keys out (seen++keys a) as

variable (keys : α → List κ)

theorem sweep_written (f : σ → α → σ × β) (state : List κ → σ) (out : List κ → α → β)
    (hstep : ∀ seen a, f (state seen) a = (state (seen++keys a), out seen a))
    (seen : List κ) (as : List α) :
    sweep f (state seen) as = (state (seen++as.flatMap keys), written keys out seen as) := by
  induction as generalizing seen with
  | nil => simp [sweep, written]
  | cons a as ih =>
    simp only [sweep, hstep, ih, written, flatMap_cons, append_assoc]

variable (out : List κ → α → β)

theorem written_append (seen : List κ) (as bs : List α) : written keys out seen (as++bs) =
      written keys out seen as++written keys out (seen++as.flatMap keys) bs := by
  induction as generalizing seen with
  | nil => simp [written]
  | cons a as ih =>
    simp only [cons_append, written, ih, flatMap_cons, append_assoc]

theorem written_get (seen : List κ) (as : List α) (place : ℕ) : (written keys out seen as)[place]? =
      as[place]?.map (out (seen++(as.take place).flatMap keys)) := by
  induction as generalizing seen place with
  | nil => simp [written]
  | cons a as ih =>
    cases place with
    | zero => simp [written]
    | succ place => simp [written, ih, append_assoc]

theorem written_map (view : β → γ) (view' : α → γ) (h : ∀ seen a, view (out seen a) = view' a)
    (seen : List κ) (as : List α) : (written keys out seen as).map view = as.map view' := by
  induction as generalizing seen with
  | nil => rfl
  | cons a as ih => simp only [written, map_cons, h, ih]

/-- `again` turns the keys of the items into those of the outputs. -/
theorem written_keys (out : List κ → α → α) (again : List κ → List κ)
    (hagain : ∀ seen a, again (seen++keys a) = again seen++keys (out seen a))
    (seen : List κ) (as : List α) :
    again (seen++as.flatMap keys) = again seen++(written keys out seen as).flatMap keys := by
  induction as generalizing seen with
  | nil => simp [written]
  | cons a as ih =>
    simp only [written, flatMap_cons]
    rw [← append_assoc, ih, hagain, append_assoc]

/-- Outputs that a second step leaves alone are left alone by a second sweep. -/
theorem written_again (out : List κ → α → α) (again : List κ → List κ)
    (hagain : ∀ seen a, again (seen++keys a) = again seen++keys (out seen a))
    (hfixed : ∀ seen a, out (again seen) (out seen a) = out seen a) (seen : List κ) (as : List α) :
    written keys out (again seen) (written keys out seen as) = written keys out seen as := by
  induction as generalizing seen with
  | nil => rfl
  | cons a as ih =>
    simp only [written, hfixed, ← hagain, ih]

end Maple.Sweep

import Mathlib.Data.List.Basic
import Mathlib.Data.Option.Basic

/-!
# Frames of a byte stream

A boundary search finds where the first frame of a buffer ends. If more input cannot change
a boundary that was found, reading frame by frame under a size limit gives the same whether
the input comes at once or cut anywhere.
-/

set_option autoImplicit false

namespace Maple.Frames

open List

structure Boundary (β : Type) where
  /-- The length of the first frame and of the delimiter after it. -/
  find : List β → Option (ℕ × ℕ)
  pos : ∀ xs a d, find xs = some (a, d) → 0 < d
  fits : ∀ xs a d, find xs = some (a, d) → a+d ≤ xs.length
  extend : ∀ xs ys found, find xs = some found → find (xs++ys) = some found
  restrict : ∀ xs ys a d, find (xs++ys) = some (a, d) → a+d ≤ xs.length → find xs = some (a, d)

structure Frame (β : Type) where
  body : List β
  size : ℕ
  deriving DecidableEq, Repr

section
variable {β : Type} (B : Boundary β)

def splitLoop : ℕ → List β → List (Frame β) × List β
  | 0, xs => ([], xs)
  | n+1, xs =>
    match B.find xs with
    | none => ([], xs)
    | some (a, d) =>
      let rest := splitLoop n (xs.drop (a+d))
      (⟨xs.take a, a+d⟩::rest.1, rest.2)

def split (xs : List β) : List (Frame β) × List β := splitLoop B xs.length xs

variable {xs : List β}

theorem drop_shorter {a d : ℕ} (h : B.find xs = some (a, d)) :
    (xs.drop (a+d)).length < xs.length := by
  have hpos := B.pos xs a d h
  have hfits := B.fits xs a d h
  rw [length_drop]
  omega

theorem splitLoop_enough (n m : ℕ) (xs : List β) (hn : xs.length ≤ n) (hm : xs.length ≤ m) :
    splitLoop B n xs = splitLoop B m xs := by
  induction n generalizing m xs with
  | zero =>
    have hnil : xs = [] := eq_nil_of_length_eq_zero (by omega)
    subst hnil
    cases m with
    | zero => rfl
    | succ m =>
      cases hf : B.find [] with
      | none => simp only [splitLoop, hf]
      | some found =>
        obtain ⟨a,d⟩ := found
        exact absurd (drop_shorter B hf) (by simp)
  | succ n ih =>
    cases hf : B.find xs with
    | none => cases m <;> simp only [splitLoop, hf]
    | some found =>
      obtain ⟨a,d⟩ := found
      have hshort := drop_shorter B hf
      cases m with
      | zero => omega
      | succ m =>
        simp only [splitLoop, hf]
        rw [ih m (xs.drop (a+d)) (by omega) (by omega)]

theorem split_none (h : B.find xs = none) : split B xs = ([], xs) := by
  rw [split]
  cases xs.length with
  | zero => rfl
  | succ n => simp only [splitLoop, h]

theorem split_some {a d : ℕ} (h : B.find xs = some (a, d)) :
    split B xs = (⟨xs.take a,a+d⟩::(split B (xs.drop (a+d))).1, (split B (xs.drop (a+d))).2) := by
  have hshort := drop_shorter B h
  cases hn : xs.length with
  | zero => omega
  | succ n =>
    have hsame := splitLoop_enough B n (xs.drop (a+d)).length (xs.drop (a+d)) (by omega)
      (Nat.le_refl _)
    simp only [split, hn, splitLoop, h]
    rw [hsame]

/-- Induction over the frames of an input. -/
theorem frames_induction {motive : List β → Prop} (none : ∀ xs, B.find xs = none → motive xs)
    (some : ∀ xs a d, B.find xs = some (a, d) → motive (xs.drop (a+d)) → motive xs)
    (xs : List β) : motive xs := by
  induction hn : xs.length using Nat.strongRecOn generalizing xs with
  | _ n ih =>
    cases hf : B.find xs with
    | none => exact none xs hf
    | some found =>
      obtain ⟨a,d⟩ := found
      exact some xs a d hf (ih _ (hn ▸ drop_shorter B hf) _ rfl)

end

def Within (limit : Option ℕ) (size : ℕ) : Prop := ∀ bound ∈ limit, size ≤ bound

instance (limit : Option ℕ) (size : ℕ) : Decidable (Within limit size) :=
  match limit with
  | none => isTrue (fun _ h => nomatch h)
  | some bound => decidable_of_iff (size ≤ bound) (by simp [Within])

theorem within_none (size : ℕ) : Within none size := fun _ h => nomatch h

theorem within_mono {limit : Option ℕ} (size : ℕ) {size' : ℕ} (h : Within limit size')
    (hle : size ≤ size') : Within limit size :=
  fun bound hb => Nat.le_trans hle (h bound hb)

section
variable {β σ τ : Type} (B : Boundary β) (limit : Option ℕ) (consume : σ → List β → Except τ σ)
  (overlong : σ → τ)

/-- Frames are consumed in order until one stops the reader or is too long. -/
def walk : σ → List (Frame β) → List β → Except τ (σ × List β)
  | s, [], rest => if Within limit rest.length then .ok (s, rest) else .error (overlong s)
  | s, frame::frames, rest =>
    if Within limit frame.size then
      match consume s frame.body with
      | .error t => .error t
      | .ok s' => walk s' frames rest
    else .error (overlong s)

def scan (s : σ) (xs : List β) : Except τ (σ × List β) :=
  walk limit consume overlong s (split B xs).1 (split B xs).2

variable {xs : List β} {B} (s : σ)

theorem scan_none (h : B.find xs = none) : scan B limit consume overlong s xs =
      if Within limit xs.length then .ok (s, xs) else .error (overlong s) := by
  simp only [scan, split_none B h, walk]

theorem scan_some {a d : ℕ} (h : B.find xs = some (a, d)) : scan B limit consume overlong s xs =
      if Within limit (a+d) then
        match consume s (xs.take a) with
        | .error t => .error t
        | .ok s' => scan B limit consume overlong s' (xs.drop (a+d))
      else .error (overlong s) := by
  simp only [scan, split_some B h, walk]

/-- What a scan leaves has no boundary and is within the limit. -/
theorem scan_rest {s' : σ} {rest : List β}
    (h : scan B limit consume overlong s xs = .ok (s', rest)) :
    B.find rest = none ∧ Within limit rest.length := by
  induction xs using frames_induction B generalizing s with
  | none xs hf =>
    rw [scan_none limit consume overlong s hf] at h
    split_ifs at h with hw
    cases h
    exact ⟨hf,hw⟩
  | some xs a d hf ih =>
    rw [scan_some limit consume overlong s hf] at h
    split_ifs at h
    cases hc : consume s (xs.take a) with
    | error t =>
      rw [hc] at h
      cases h
    | ok next =>
      rw [hc] at h
      exact ih next h

variable (B)

/-- In an input within the limit no frame is too long. -/
theorem scan_unlimited (hw : Within limit xs.length) :
    scan B limit consume overlong s xs = scan B none consume overlong s xs := by
  induction xs using frames_induction B generalizing s with
  | none xs hf =>
    rw [scan_none limit consume overlong s hf, scan_none none consume overlong s hf,
      if_pos hw, if_pos (within_none _)]
  | some xs a d hf ih =>
    have hrest := drop_shorter B hf
    rw [scan_some limit consume overlong s hf, scan_some none consume overlong s hf,
      if_pos (within_mono _ hw (B.fits xs a d hf)), if_pos (within_none _)]
    cases consume s (xs.take a) with
    | error t => rfl
    | ok next => exact ih next (within_mono _ hw (by omega))

/-- Input past a full buffer without a boundary is too long, wherever its boundary is. -/
theorem scan_overfull (ys : List β) (h : B.find xs = none)
    (hw : ∀ size, xs.length < size → ¬Within limit size) (hy : ys ≠ []) :
    scan B limit consume overlong s (xs++ys) = .error (overlong s) := by
  have hpos := length_pos_iff.mpr hy
  cases hf : B.find (xs++ys) with
  | none =>
    rw [scan_none limit consume overlong s hf]
    exact if_neg (hw _ (by rw [length_append]; omega))
  | some found =>
    obtain ⟨a,d⟩ := found
    rw [scan_some limit consume overlong s hf]
    refine if_neg (hw _ ?_)
    by_contra hle
    rw [B.restrict xs ys a d hf (by omega)] at h
    cases h

theorem scan_append (xs ys : List β) : scan B limit consume overlong s (xs++ys) =
      match scan B limit consume overlong s xs with
      | .error stop => .error stop
      | .ok (s', rest) => scan B limit consume overlong s' (rest++ys) := by
  induction xs using frames_induction B generalizing s with
  | none xs hf =>
    rw [scan_none limit consume overlong s hf]
    by_cases hw : Within limit xs.length
    · rw [if_pos hw]
    rw [if_neg hw]
    cases ys with
    | nil => rw [append_nil, scan_none limit consume overlong s hf, if_neg hw]
    | cons y ys =>
      exact scan_overfull B limit consume overlong s (y::ys) hf
        (fun size hlt hall => hw (within_mono _ hall (by omega))) (by simp)
  | some xs a d hf ih =>
    have hfits := B.fits xs a d hf
    rw [scan_some limit consume overlong s hf,
      scan_some limit consume overlong s (B.extend xs ys _ hf),
      take_append_of_le_length (by omega), drop_append_of_le_length hfits]
    by_cases hw : Within limit (a+d)
    · rw [if_pos hw, if_pos hw]
      cases consume s (xs.take a) with
      | error t => rfl
      | ok next => exact ih next
    · rw [if_neg hw, if_neg hw]

end

end Maple.Frames

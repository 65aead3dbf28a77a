import Maple.Lib.Table

/-!
# Suffixes within a weight

A text is cut at the first boundary at or after an offset, where every symbol has a
width. The suffix left by a cut that many units before the end is the longest one within
that weight.
-/

set_option autoImplicit false

namespace Maple.Suffix

open Table List

variable {α : Type*} (width : α → ℕ)

/-- What stands before and after the first boundary at or after the offset. -/
def cut : List α → ℕ → List α × List α
  | text, 0 => ([], text)
  | [], _+1 => ([], [])
  | a::text, n+1 => (a::(cut text (n+1-width a)).1, (cut text (n+1-width a)).2)

def within (limit : ℕ) (text : List α) : List α := (cut width text (weight width text-limit)).2

theorem cut_append (text : List α) (offset : ℕ) :
    (cut width text offset).1++(cut width text offset).2 = text := by
  induction text generalizing offset with
  | nil => cases offset <;> rfl
  | cons a text ih =>
    cases offset with
    | zero => rfl
    | succ n => simp only [cut, cons_append, ih]

theorem cut_reaches {text : List α} (offset : ℕ) (h : offset ≤ weight width text) :
    offset ≤ weight width (cut width text offset).1 := by
  induction text generalizing offset with
  | nil =>
    obtain rfl : offset = 0 := by simpa using h
    exact Nat.zero_le _
  | cons a text ih =>
    cases offset with
    | zero => exact Nat.zero_le _
    | succ n =>
      have hrest := ih (n+1-width a) (by rw [weight_cons] at h; omega)
      simp only [cut, weight_cons]
      omega

variable (limit : ℕ) (front : List α) (back : List α)

theorem cut_first {front : List α} (offset : ℕ) (h : offset ≤ weight width front) :
    (cut width (front++back) offset).1.length ≤ front.length := by
  induction front generalizing offset with
  | nil =>
    obtain rfl : offset = 0 := by simpa using h
    cases back <;> exact Nat.le_refl 0
  | cons a front ih =>
    cases offset with
    | zero => exact Nat.zero_le _
    | succ n =>
      have hrest := ih (n+1-width a) (by rw [weight_cons] at h; omega)
      simp only [cons_append, cut, length_cons]
      omega

theorem cut_covers (offset : ℕ) (h : offset ≤ weight width front) :
    back.length ≤ (cut width (front++back) offset).2.length := by
  have hfirst := cut_first width back offset h
  have hlength := congrArg List.length (cut_append width (front++back) offset)
  simp only [length_append] at hlength
  omega

theorem within_suffix (text : List α) : within width limit text <:+ text :=
  ⟨_,cut_append width text _⟩

theorem within_fits (text : List α) : weight width (within width limit text) ≤ limit := by
  have hreach := cut_reaches width (weight width text-limit) (Nat.sub_le _ _)
  have hsum := congrArg (weight width) (cut_append width text (weight width text-limit))
  rw [weight_append] at hsum
  rw [within]
  omega

theorem within_longest (h : weight width back ≤ limit) :
    back.length ≤ (within width limit (front++back)).length := by
  refine cut_covers width front back _ ?_
  rw [weight_append]
  omega

variable {width}

theorem within_self {limit : ℕ} {text : List α} (h : weight width text ≤ limit) :
    within width limit text = text := by
  refine (within_suffix width limit text).eq_of_length (Nat.le_antisymm ?_ ?_)
  · exact (within_suffix width limit text).length_le
  · exact within_longest width limit [] text h

/-- A suffix that holds every suffix of the weight has the same longest one. -/
theorem within_append {limit : ℕ} {front back : List α}
    (h : (within width limit (front++back)).length ≤ back.length) :
    within width limit (front++back) = within width limit back := by
  have hwhole := within_suffix width limit (front++back)
  obtain ⟨rest,hrest⟩ : within width limit (front++back) <:+ back :=
    suffix_of_suffix_length_le hwhole (suffix_append front back) h
  have hlong := within_longest width limit rest (within width limit (front++back))
    (within_fits width limit _)
  rw [hrest] at hlong
  obtain ⟨other,hother⟩ := within_suffix width limit back
  have hback := within_longest width limit (front++other) (within width limit back)
    (within_fits width limit back)
  rw [append_assoc, hother] at hback
  refine List.IsSuffix.eq_of_length ?_ (Nat.le_antisymm hlong hback)
  exact suffix_of_suffix_length_le ⟨rest,hrest⟩ (within_suffix width limit back) hlong

theorem within_concat_eq_nil (last : α) :
    within width limit (front++[last]) = [] ↔ limit < width last := by
  constructor
  · intro hnil
    by_contra hle
    have hlong := within_longest width limit front [last] (by simpa using Nat.not_lt.mp hle)
    rw [hnil] at hlong
    simp at hlong
  · intro hwide
    by_contra hne
    obtain ⟨rest,hrest⟩ := within_suffix width limit (front++[last])
    obtain ⟨init,symbol,hinit⟩ : ∃ init symbol, within width limit (front++[last]) =
        init++[symbol] := ⟨_,_,(dropLast_append_getLast hne).symm⟩
    rw [hinit, ← append_assoc] at hrest
    obtain ⟨_,hsymbol⟩ := append_inj' hrest rfl
    obtain rfl : symbol = last := by simpa using hsymbol
    have hfit := within_fits width limit (front++[symbol])
    rw [hinit, weight_append] at hfit
    simp only [weight_cons, weight_nil] at hfit
    omega

end Maple.Suffix

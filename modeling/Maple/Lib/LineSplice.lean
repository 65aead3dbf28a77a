import Maple.Lib.Splice

/-!
# Splicing by lines

A text in two versions, line by line: lines that a region touches come from the second
version with the regions replaced, all others from the first.
-/

set_option autoImplicit false

namespace Maple.Splice

open List

variable {α : Type*}

def starts (lines : List (List α)) (k : ℕ) : ℕ := (lines.take k).flatten.length

def Touches (lines : List (List α)) (r : Region α) (k : ℕ) : Prop :=
  r.index < starts lines (k+1) ∧ starts lines k < r.stop

instance (lines : List (List α)) (r : Region α) (k : ℕ) : Decidable (Touches lines r k) :=
  inferInstanceAs (Decidable (_ ∧ _))

def lineOut (original base : List (List α)) (regions : List (Region α)) (k : ℕ) : List α :=
  if ∃ r ∈ regions, Touches base r k then
    spliceRange base.flatten regions (starts base k) (starts base (k+1)-starts base k)
  else original[k]?.getD []

def spliceLines (original base : List (List α)) (regions : List (Region α)) : List α :=
  (List.range original.length).flatMap (lineOut original base regions)

variable (lines : List (List α))

theorem starts_length : starts lines lines.length = lines.flatten.length := by
  rw [starts, take_length]

theorem starts_succ {lines : List (List α)} {k : ℕ} (h : k < lines.length) :
    starts lines (k+1) = starts lines k+lines[k].length := by
  rw [starts, starts, take_succ_eq_append_getElem h, flatten_append, length_append]
  simp

theorem starts_le_succ (k : ℕ) : starts lines k ≤ starts lines (k+1) := by
  by_cases h : k < lines.length
  · rw [starts_succ h]
    omega
  · rw [starts, starts, take_of_length_le (by omega), take_of_length_le (by omega)]

theorem starts_mono (j k : ℕ) (h : j ≤ k) : starts lines j ≤ starts lines k := by
  induction k with
  | zero =>
    obtain rfl : j = 0 := by omega
    exact Nat.le_refl _
  | succ k ih =>
    rcases Nat.lt_or_ge k j with hj | hj
    · obtain rfl : j = k+1 := by omega
      exact Nat.le_refl _
    · exact Nat.le_trans (ih hj) (starts_le_succ lines k)

theorem starts_le (k : ℕ) : starts lines k ≤ lines.flatten.length := by
  by_cases h : k ≤ lines.length
  · rw [← starts_length lines]
    exact starts_mono lines k _ h
  · rw [starts, take_of_length_le (by omega)]

theorem splice_lines_perm (original base : List (List α)) {regions others : List (Region α)}
    (hperm : regions.Perm others) (hpositive : ∀ r ∈ regions, 0 < r.length)
    (hdisjoint : regions.Pairwise Apart) :
    spliceLines original base regions = spliceLines original base others := by
  refine flatMap_congr (fun k _ => ?_)
  have htouched : (∃ r ∈ regions, Touches base r k) ↔ ∃ r ∈ others, Touches base r k := by
    simp only [hperm.mem_iff]
  simp only [lineOut, htouched, splice_perm base.flatten hperm hpositive hdisjoint]

/-- Lines next to each other splice as one stretch. -/
theorem splice_range_lines (text : List α) (lines : List (List α)) (regions : List (Region α))
    (first count : ℕ) :
    (List.range' first count).flatMap (fun k =>
        spliceRange text regions (starts lines k) (starts lines (k+1)-starts lines k)) =
      spliceRange text regions (starts lines first)
        (starts lines (first+count)-starts lines first) := by
  induction count with
  | zero => simp [spliceRange]
  | succ count ih =>
    have hfirst := starts_mono lines first (first+count) (by omega)
    have hlast := starts_le_succ lines (first+count)
    have hsum : starts lines (first+(count+1))-starts lines first =
        (starts lines (first+count)-starts lines first)+
          (starts lines (first+count+1)-starts lines (first+count)) := by
      rw [← Nat.add_assoc]
      omega
    have hstart : starts lines first+(starts lines (first+count)-starts lines first) =
        starts lines (first+count) := by omega
    rw [List.range'_1_concat, flatMap_append, ih, hsum, splice_range_append, hstart]
    simp

theorem lines_flat_map (original : List (List α)) (first count : ℕ) :
    (List.range' first count).flatMap (fun k => original[k]?.getD []) =
      ((original.drop first).take count).flatten := by
  induction count generalizing first with
  | zero => simp
  | succ count ih =>
    rw [List.range'_succ, flatMap_cons, ih (first+1)]
    by_cases h : first < original.length
    · rw [drop_eq_getElem_cons h, take_succ_cons, flatten_cons, List.getElem?_eq_getElem h]
      rfl
    · rw [List.getElem?_eq_none (by omega), drop_eq_nil_of_le (by omega),
        drop_eq_nil_of_le (by omega)]
      simp

end Maple.Splice

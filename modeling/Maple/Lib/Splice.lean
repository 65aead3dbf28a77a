import Mathlib.Data.List.Perm.Basic
import Mathlib.Data.List.Range

/-!
# Simultaneous replacement of regions

Regions of a text are replaced position by position: a position emits the new text of the
region that starts there, and its own symbol when no region covers it. Replacing disjoint
regions one after the other, the last first, is the same.
-/

set_option autoImplicit false

namespace Maple.Splice

open List

variable {α : Type*}

structure Region (α : Type*) where
  index : ℕ
  length : ℕ
  text : List α
deriving DecidableEq, Repr

def Region.stop (r : Region α) : ℕ := r.index+r.length

def Apart (a b : Region α) : Prop := a.stop ≤ b.index ∨ b.stop ≤ a.index

instance (a b : Region α) : Decidable (Apart a b) := inferInstanceAs (Decidable (_ ∨ _))

def Before (a b : Region α) : Prop := a.stop ≤ b.index

def emit (text : List α) (regions : List (Region α)) (position : ℕ) : List α :=
  (regions.filter (fun r => r.index = position)).flatMap Region.text++
    (if ∃ r ∈ regions, r.index ≤ position ∧ position < r.stop then []
    else text[position]?.toList)

def spliceRange (text : List α) (regions : List (Region α)) (start count : ℕ) : List α :=
  (List.range' start count).flatMap (emit text regions)

def splice (text : List α) (regions : List (Region α)) : List α :=
  spliceRange text regions 0 text.length

def replaceRange (text : List α) (start count : ℕ) (new : List α) : List α :=
  text.take start++new++text.drop (start+count)

def replaceAll (content : List α) (regions : List (Region α)) (offset : ℕ) : List α :=
  regions.foldr (fun r result => replaceRange result (r.index-offset) r.length r.text) content

variable {a b : Region α}

theorem apart_symm (h : Apart a b) : Apart b a := h.symm

theorem before_trans {c : Region α} (hab : Before a b) (hbc : Before b c) : Before a c := by
  simp only [Before, Region.stop] at *
  omega

theorem before_apart (h : Before a b) : Apart a b := .inl h

theorem splice_range_append (text : List α) (regions : List (Region α)) (start m n : ℕ) :
    spliceRange text regions start (m+n) =
      spliceRange text regions start m++spliceRange text regions (start+m) n := by
  rw [spliceRange, ← List.range'_append_1, flatMap_append]
  rfl

theorem emit_nil (text : List α) (position : ℕ) :
    emit text [] position = text[position]?.toList := by simp [emit]

def near (position : ℕ) (r : Region α) : Bool :=
  decide (r.index = position ∨ r.index ≤ position ∧ position < r.stop)

theorem emit_near (text : List α) (regions : List (Region α)) (position : ℕ) :
    emit text regions position = emit text (regions.filter (near position)) position := by
  have hstarts : regions.filter (fun r => r.index = position) =
      (regions.filter (near position)).filter (fun r => r.index = position) := by
    rw [filter_filter]
    refine filter_congr (fun r _ => ?_)
    by_cases hr : r.index = position <;> simp [near, hr]
  have hcovers : (∃ r ∈ regions, r.index ≤ position ∧ position < r.stop) ↔
      ∃ r ∈ regions.filter (near position), r.index ≤ position ∧ position < r.stop := by
    constructor
    · rintro ⟨r,hr,hcover⟩
      exact ⟨r,mem_filter.mpr ⟨hr,by simp [near, hcover]⟩,hcover⟩
    · rintro ⟨r,hr,hcover⟩
      exact ⟨r,(mem_filter.mp hr).1,hcover⟩
  simp only [emit, ← hstarts, hcovers]

theorem emit_congr (text : List α) (regions others : List (Region α)) (position : ℕ)
    (h : regions.filter (near position) = others.filter (near position)) :
    emit text regions position = emit text others position := by
  rw [emit_near text regions, h, ← emit_near]

theorem near_iff {r : Region α} (position : ℕ) (h : 0 < r.length) :
    near position r = true ↔ r.index ≤ position ∧ position < r.stop := by
  rw [near, decide_eq_true_iff, Region.stop]
  omega

variable {regions : List (Region α)}

/-- At most one of disjoint regions is near a position. -/
theorem near_unique (position : ℕ) (hpositive : ∀ r ∈ regions, 0 < r.length)
    (hdisjoint : regions.Pairwise Apart) : (regions.filter (near position)).length ≤ 1 := by
  have hfilter : (regions.filter (near position)).Pairwise Apart :=
    hdisjoint.sublist filter_sublist
  have hnear : ∀ r ∈ regions.filter (near position), r.index ≤ position ∧ position < r.stop :=
    fun r hr => (near_iff position (hpositive r (mem_filter.mp hr).1)).mp (mem_filter.mp hr).2
  generalize regions.filter (near position) = found at hfilter hnear
  match found, hfilter, hnear with
  | [], _, _ => simp
  | [_], _, _ => simp
  | a::b::rest, hfilter, hnear =>
    have ha := hnear a (by simp)
    have hb := hnear b (by simp)
    have hab : Apart a b := rel_of_pairwise_cons hfilter (by simp)
    simp only [Apart] at hab
    omega

variable {others : List (Region α)}

theorem emit_perm (text : List α) (position : ℕ) (hperm : regions.Perm others)
    (hpositive : ∀ r ∈ regions, 0 < r.length) (hdisjoint : regions.Pairwise Apart) :
    emit text regions position = emit text others position := by
  have hfiltered := hperm.filter (near position)
  have hunique := near_unique position hpositive hdisjoint
  refine emit_congr text regions others position ?_
  match hfound : regions.filter (near position) with
  | [] =>
    rw [hfound] at hfiltered
    exact hfiltered.nil_eq
  | [r] =>
    rw [hfound] at hfiltered
    exact (perm_singleton.mp hfiltered.symm).symm
  | a::b::rest =>
    rw [hfound] at hunique
    simp at hunique

theorem splice_perm (text : List α) (hperm : regions.Perm others)
    (hpositive : ∀ r ∈ regions, 0 < r.length) (hdisjoint : regions.Pairwise Apart)
      (start count : ℕ) :
    spliceRange text regions start count = spliceRange text others start count :=
  flatMap_congr (fun position _ =>
    emit_perm text position hperm hpositive hdisjoint)

theorem splice_range_nil (text : List α) (start count : ℕ) (h : start+count ≤ text.length) :
    spliceRange text [] start count = (text.drop start).take count := by
  induction count generalizing start with
  | zero => rfl
  | succ count ih =>
    have hlt : start < text.length := by omega
    rw [spliceRange, List.range'_succ, flatMap_cons, emit_nil, drop_eq_getElem_cons hlt,
      take_succ_cons, ← ih (start+1) (by omega)]
    simp [spliceRange, List.getElem?_eq_getElem hlt]

theorem replace_range_append (front back new : List α) (start count : ℕ)
    (h : front.length ≤ start) :
    replaceRange (front++back) start count new =
      front++replaceRange back (start-front.length) count new := by
  have hstop : start+count-front.length = start-front.length+count := by omega
  rw [replaceRange, replaceRange, take_append, drop_append, take_of_length_le h,
    drop_eq_nil_of_le (by omega), hstop]
  simp

/-- Regions after a prefix leave it alone. -/
theorem replace_all_shift (regions : List (Region α)) (front back : List α) (offset : ℕ)
    (hafter : ∀ r ∈ regions, offset+front.length ≤ r.index) :
    replaceAll (front++back) regions offset =
      front++replaceAll back regions (offset+front.length) := by
  induction regions with
  | nil => rfl
  | cons r regions ih =>
    have hr := hafter r (by simp)
    have hrest := ih (fun other hother => hafter other (by simp [hother]))
    simp only [replaceAll, foldr_cons] at hrest ⊢
    rw [hrest, replace_range_append front _ r.text _ _ (by omega),
      (by omega : r.index-offset-front.length = r.index-(offset+front.length))]

theorem splice_range_congr (text : List α) (regions others : List (Region α)) (start count : ℕ)
    (h : ∀ position, start ≤ position → position < start+count →
      regions.filter (near position) = others.filter (near position)) :
    spliceRange text regions start count = spliceRange text others start count :=
  flatMap_congr (fun position hposition =>
    emit_congr text regions others position (by
      obtain ⟨hlow,hhigh⟩ := mem_range'_1.mp hposition
      exact h position hlow hhigh))

/-- The positions of a region emit its new text, and nothing else. -/
theorem splice_region (text : List α) {r : Region α} (hlength : 0 < r.length)
    (hafter : ∀ other ∈ regions, r.stop ≤ other.index) :
    spliceRange text (r::regions) r.index r.length = r.text := by
  have hlater (position : ℕ) (h : position < r.stop) :
      regions.filter (fun other => other.index = position) = [] := by
    refine filter_eq_nil_iff.mpr (fun other hother => ?_)
    have := hafter other hother
    simp only [decide_eq_true_eq]
    omega
  obtain ⟨count,hcount⟩ : ∃ count, r.length = count+1 := ⟨r.length-1,by omega⟩
  have hcovered (position : ℕ) (hlow : r.index ≤ position) (hhigh : position < r.stop) :
      ∃ other ∈ r::regions, other.index ≤ position ∧ position < other.stop :=
    ⟨r,by simp,hlow,hhigh⟩
  have hfirst : emit text (r::regions) r.index = r.text := by
    have hstop : r.index < r.stop := by rw [Region.stop]; omega
    rw [emit, if_pos (hcovered r.index (Nat.le_refl _) hstop), filter_cons_of_pos (by simp),
      hlater r.index hstop]
    simp
  have hrest : (List.range' (r.index+1) count).flatMap (emit text (r::regions)) = [] := by
    refine flatMap_eq_nil_iff.mpr (fun position hposition => ?_)
    obtain ⟨hlow,hhigh⟩ := mem_range'_1.mp hposition
    have hstop : position < r.stop := by rw [Region.stop]; omega
    have hne : ¬r.index = position := by omega
    rw [emit, if_pos (hcovered position (by omega) hstop), filter_cons_of_neg (by simpa using hne),
      hlater position hstop]
    rfl
  rw [spliceRange, hcount, List.range'_succ, flatMap_cons, hfirst, hrest, append_nil]

/-- Replacing ordered regions of a stretch of the text, the last first, splices it. -/
theorem replace_all_splice (text : List α) (start count : ℕ) (hinside : start+count ≤ text.length)
    (hordered : regions.Pairwise Before)
    (hbounds : ∀ r ∈ regions, 0 < r.length ∧ start ≤ r.index ∧ r.stop ≤ start+count) :
    replaceAll ((text.drop start).take count) regions start =
      spliceRange text regions start count := by
  induction regions generalizing start count with
  | nil => exact (splice_range_nil text start count hinside).symm
  | cons r regions ih =>
    obtain ⟨hlength,hstart,hstop⟩ := hbounds r (by simp)
    obtain ⟨hfirst,hordered⟩ := pairwise_cons.mp hordered
    obtain ⟨before,hbefore⟩ : ∃ before, r.index = start+before := ⟨r.index-start,by omega⟩
    obtain ⟨after,hafter⟩ : ∃ after, count = before+r.length+after :=
      ⟨count-before-r.length,by rw [Region.stop] at hstop; omega⟩
    have hend : r.stop = start+(before+r.length) := by rw [Region.stop]; omega
    have hlead : ((text.drop start).take (before+r.length)).length = before+r.length := by
      rw [length_take, length_drop]
      omega
    have hcontent : (text.drop start).take count =
        (text.drop start).take (before+r.length)++(text.drop r.stop).take after := by
      rw [hafter, take_add, drop_drop, hend]
    have hlater : replaceAll ((text.drop start).take count) regions start =
        (text.drop start).take (before+r.length)++spliceRange text regions r.stop after := by
      rw [hcontent, replace_all_shift regions _ _ start (fun other hother => by
        rw [hlead, ← hend]
        exact hfirst other hother), hlead, ← hend]
      refine congrArg _ (ih r.stop after (by omega) hordered (fun other hother => ?_))
      obtain ⟨hpositive,_,hbound⟩ := hbounds other (by simp [hother])
      exact ⟨hpositive,hfirst other hother,by omega⟩
    -- The stretch is split before the region, at the region and after it.
    have hpre : spliceRange text (r::regions) start before = (text.drop start).take before := by
      rw [← splice_range_nil text start before (by omega)]
      refine splice_range_congr text _ [] start before (fun position _ hhigh => ?_)
      rw [filter_nil, filter_eq_nil_iff]
      intro other hother hnear
      obtain ⟨hpositive,_,_⟩ := hbounds other hother
      have hother' : r.index ≤ other.index := by
        rcases mem_cons.mp hother with rfl | hmem
        · exact Nat.le_refl _
        · have hlow : r.stop ≤ other.index := hfirst other hmem
          rw [Region.stop] at hlow
          omega
      have hcover := ((near_iff position hpositive).mp hnear).1
      omega
    have hpost : spliceRange text (r::regions) r.stop after =
        spliceRange text regions r.stop after := by
      refine splice_range_congr text _ _ r.stop after (fun position hlow _ => ?_)
      refine filter_cons_of_neg (fun hnear => ?_)
      have hcover := ((near_iff position hlength).mp hnear).2
      omega
    have hsplit : spliceRange text (r::regions) start count = (text.drop start).take before++
        (r.text++spliceRange text regions r.stop after) := by
      rw [hafter, Nat.add_assoc, splice_range_append, splice_range_append, hpre, ← hbefore,
        splice_region text hlength hfirst]
      exact congrArg _ (congrArg _ hpost)
    have hstep : replaceAll ((text.drop start).take count) (r::regions) start =
        replaceRange (replaceAll ((text.drop start).take count) regions start)
          (r.index-start) r.length r.text := rfl
    rw [hstep, hlater, hsplit, replaceRange, hbefore, Nat.add_sub_cancel_left,
      take_append_of_le_length (by omega), take_take, Nat.min_eq_left (by omega),
      drop_append_of_le_length (by omega), drop_of_length_le hlead.le]
    simp

end Maple.Splice

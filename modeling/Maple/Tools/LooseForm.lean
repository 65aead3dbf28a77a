import Maple.Tools.EditDiff
import Mathlib.Data.Char

/-!
# The loose form of a text

Normalisation works line by line. It is idempotent, so offsets found in the loose form of
a loose form are offsets of that form. It keeps the number of lines, unless the text ends
in an unfinished line of spaces, which disappears.
-/

set_option autoImplicit false

namespace Maple.Tools

open Splice List

/-- What is used of NFKC: line breaks are neither made nor removed, nothing vanishes, and
normalised text stays so when cut short or made plain. -/
structure LawfulNfkc (nfkc : Text → Text) : Prop where
  newline : ∀ front back, nfkc (front++ '\n'::back) = nfkc front++ '\n'::nfkc back
  line : ∀ text, '\n' ∉ text → '\n' ∉ nfkc text
  empty : ∀ text, nfkc text = [] ↔ text = []
  idempotent : ∀ text, nfkc (nfkc text) = nfkc text
  front : ∀ front back, nfkc (front++back) = front++back → nfkc front = front
  ascii : ∀ text, nfkc text = text → nfkc (text.map plain) = text.map plain

/-- Induction over the lines of a text, the last one first. -/
@[elab_as_elim]
theorem text_induction {motive : Text → Prop} (line : ∀ text, '\n' ∉ text → motive text)
    (newline : ∀ front back, '\n' ∉ front → motive back → motive (front++ '\n'::back))
    (text : Text) : motive text := by
  induction hn : text.count '\n' generalizing text with
  | zero => exact line text (count_eq_zero.mp hn)
  | succ n ih =>
    obtain ⟨front,back,rfl,hfront⟩ := eq_append_cons_of_mem
      (count_pos_iff.mp (by omega : 0 < text.count '\n'))
    refine newline front back hfront (ih back ?_)
    rw [count_append, count_cons_self, count_eq_zero.mpr hfront] at hn
    omega

section Characters

theorem plain_newline (c : Char) : plain c = '\n' ↔ c = '\n' := by
  unfold plain
  split_ifs with hquote hdouble hdash hspace
  · refine iff_of_false (by decide) ?_
    rintro rfl
    exact absurd hquote (by decide)
  · refine iff_of_false (by decide) ?_
    rintro rfl
    exact absurd hdouble (by decide)
  · refine iff_of_false (by decide) ?_
    rintro rfl
    exact absurd hdash (by decide)
  · refine iff_of_false (by decide) ?_
    rintro rfl
    exact absurd hspace (by decide)
  · exact Iff.rfl

theorem plain_idempotent (c : Char) : plain (plain c) = plain c := by
  have hplain : ∀ d ∈ ['\x27', '\x22', '-', ' '], plain d = d := by simp [plain]
  by_cases hc : plain c = c
  · rw [hc, hc]
  refine hplain _ ?_
  unfold plain at hc ⊢
  split_ifs at hc ⊢ with hquote hdouble hdash hspace
  · simp
  · simp
  · simp
  · simp
  · exact absurd rfl hc

theorem plain_not_trimmed {c : Char} (h : trimmedByJs c = false) :
    trimmedByJs (plain c) = false := by
  unfold plain
  split_ifs with hquote hdouble hdash hspace
  · decide
  · decide
  · decide
  · exfalso
    have htrimmed : trimmedByJs c = true := by
      rcases hspace with rfl | ⟨hlow,hhigh⟩ | rfl | rfl | rfl
      · decide
      · have hlower : '\u2000' ≤ c := le_trans (by decide) hlow
        simp [trimmedByJs, hlower, hhigh]
      · decide
      · decide
      · decide
    rw [h] at htrimmed
    exact absurd htrimmed (by decide)
  · exact h

end Characters

section Lines
variable {nfkc : Text → Text} (h : LawfulNfkc nfkc)

theorem map_plain_newline (text : Text) : '\n' ∈ text.map plain ↔ '\n' ∈ text := by
  simp [plain_newline]

theorem trim_prefix (line : Text) : ∃ rest, line = trimEndJs line++rest := by
  obtain ⟨rest,hrest⟩ := rdropWhile_prefix trimmedByJs line
  exact ⟨rest,hrest.symm⟩

variable {line : Text}

theorem trim_newline (hline : '\n' ∉ line) : '\n' ∉ trimEndJs line := by
  obtain ⟨rest,hrest⟩ := trim_prefix line
  rw [hrest] at hline
  exact fun hmem => hline (by simp [hmem])

theorem trim_plain (line : Text) :
    trimEndJs ((trimEndJs line).map plain) = (trimEndJs line).map plain := by
  refine rdropWhile_eq_self_iff.mpr (fun hne => ?_)
  have hne' : trimEndJs line ≠ [] := fun hnil => hne (by rw [hnil]; rfl)
  have hlast := rdropWhile_last_not trimmedByJs line hne'
  rw [getLast_map]
  exact Bool.eq_false_iff.mp (plain_not_trimmed (Bool.eq_false_iff.mpr hlast))

include h in
theorem normalize_line (text : Text) (hline : '\n' ∉ text) :
    normalizeForFuzzyMatch nfkc text = (trimEndJs (nfkc text)).map plain := by
  rw [normalizeForFuzzyMatch, splitOn_eq_singleton (h.line text hline)]
  simp [List.intercalate]

include h in
theorem normalize_newline {front : Text} (back : Text) (hfront : '\n' ∉ front) :
    normalizeForFuzzyMatch nfkc (front++ '\n'::back) =
      normalizeForFuzzyMatch nfkc front++ '\n'::normalizeForFuzzyMatch nfkc back := by
  have hsingle := splitOn_eq_singleton (h.line front hfront)
  obtain ⟨line,lines,hlines⟩ : ∃ line lines, (nfkc back).splitOn '\n' = line::lines :=
    exists_cons_of_ne_nil (splitOn_ne_nil _ _)
  have hplain : plain '\n' = '\n' := (plain_newline '\n').mpr rfl
  simp only [normalizeForFuzzyMatch, h.newline, splitOn_append_cons_self, hsingle, hlines]
  simp [List.intercalate, hplain]

include h in
theorem normalize_no_newline {text : Text} (hline : '\n' ∉ text) :
    '\n' ∉ normalizeForFuzzyMatch nfkc text := by
  rw [normalize_line h text hline, map_plain_newline]
  exact trim_newline (h.line text hline)

include h in
theorem normalize_nil : normalizeForFuzzyMatch nfkc [] = [] := by
  rw [normalize_line h [] (by simp), (h.empty []).mpr rfl]
  rfl

include h in
theorem normalize_line_idempotent {text : Text} (hline : '\n' ∉ text) :
    normalizeForFuzzyMatch nfkc (normalizeForFuzzyMatch nfkc text) =
      normalizeForFuzzyMatch nfkc text := by
  have hstable : nfkc ((trimEndJs (nfkc text)).map plain) = (trimEndJs (nfkc text)).map plain := by
    obtain ⟨rest,hrest⟩ := trim_prefix (nfkc text)
    refine h.ascii _ (h.front _ rest ?_)
    rw [← hrest, h.idempotent]
  rw [normalize_line h _ (normalize_no_newline h hline), normalize_line h text hline, hstable,
    trim_plain, map_map]
  exact map_congr_left (fun c _ => plain_idempotent c)

include h in
/-- The loose form of a loose form is itself. -/
theorem normalize_idempotent (text : Text) :
    normalizeForFuzzyMatch nfkc (normalizeForFuzzyMatch nfkc text) =
      normalizeForFuzzyMatch nfkc text := by
  induction text using text_induction with
  | line text hline => exact normalize_line_idempotent h hline
  | newline front back hfront ih =>
    rw [normalize_newline h back hfront,
      normalize_newline h _ (normalize_no_newline h hfront), ih,
      normalize_line_idempotent h hfront]

/-- The text ends in an unfinished line that its loose form does not have. -/
def BlankEnd (nfkc : Text → Text) (text : Text) : Prop :=
  afterLastNewline text ≠ [] ∧ normalizeForFuzzyMatch nfkc (afterLastNewline text) = []

theorem split_inclusive_newline {front : Text} (back : Text) (hfront : '\n' ∉ front) :
    splitInclusive (front++ '\n'::back) = (front++['\n'])::splitInclusive back := by
  induction front with
  | nil => rfl
  | cons c front ih =>
    have hc : ¬c = '\n' := fun hc => hfront (by simp [hc])
    rw [cons_append, splitInclusive, if_neg hc, ih (fun hmem => hfront (by simp [hmem]))]
    rfl

theorem split_inclusive_line (hne : line ≠ []) (hline : '\n' ∉ line) :
    splitInclusive line = [line] := by
  induction line with
  | nil => exact absurd rfl hne
  | cons c line ih =>
    have hc : ¬c = '\n' := fun hc => hline (by simp [hc])
    rw [splitInclusive, if_neg hc]
    by_cases hnil : line = []
    · rw [hnil]
      rfl
    · rw [ih hnil (fun hmem => hline (by simp [hmem]))]

theorem after_last_newline_line (hline : '\n' ∉ line) : afterLastNewline line = line := by
  have hall : line.reverse.takeWhile (· ≠ '\n') = line.reverse := by
    refine takeWhile_eq_self_iff.mpr (fun c hc => ?_)
    simp only [decide_eq_true_eq]
    rintro rfl
    exact hline (by simpa using hc)
  rw [afterLastNewline, hall, reverse_reverse]

theorem after_last_newline_append (front back : Text) :
    afterLastNewline (front++ '\n'::back) = afterLastNewline back := by
  have hstop (text : Text) : (text++ '\n'::front.reverse).takeWhile (· ≠ '\n') =
      text.takeWhile (· ≠ '\n') := by
    induction text with
    | nil => simp
    | cons c text ih =>
      by_cases hc : c = '\n'
      · simp [hc]
      · simpa [hc] using ih
  simp only [afterLastNewline, reverse_append, reverse_cons, append_assoc, singleton_append, hstop]

include h in
/-- The loose form has as many lines, unless a blank end is lost. -/
theorem line_count_iff (text : Text) :
    (splitInclusive text).length = (splitInclusive (normalizeForFuzzyMatch nfkc text)).length ↔
      ¬BlankEnd nfkc text := by
  induction text using text_induction with
  | line text hline =>
    rw [BlankEnd, after_last_newline_line hline]
    by_cases hne : text = []
    · simp [hne, normalize_nil h]
    have hloose := normalize_no_newline h hline
    rw [split_inclusive_line hne hline]
    by_cases hnil : normalizeForFuzzyMatch nfkc text = []
    · simp [hne, hnil, splitInclusive]
    · rw [split_inclusive_line hnil hloose]
      simp [hnil]
  | newline front back hfront ih =>
    rw [normalize_newline h back hfront, split_inclusive_newline back hfront,
      split_inclusive_newline _ (normalize_no_newline h hfront), BlankEnd,
      after_last_newline_append, length_cons, length_cons, Nat.add_right_cancel_iff]
    exact ih

end Lines

end Maple.Tools

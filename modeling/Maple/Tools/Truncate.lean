import Maple.Lib.Suffix
import Mathlib.Data.List.Induction

/-!
# Truncation of tool output

Output is cut by two limits, lines and bytes. Tail truncation keeps the last lines that
fit both; only a last line that is over the byte limit alone is kept in part.
-/

set_option autoImplicit false

namespace Maple.Tools

open Table Suffix List

abbrev Text := List Char

abbrev len (text : Text) : ℕ := weight Char.utf8Size text

def afterLastNewline (text : Text) : Text := (text.reverse.takeWhile (· ≠ '\n')).reverse

inductive TruncatedBy
  | lines
  | bytes
deriving DecidableEq, Repr

structure TruncationResult where
  content : Text
  truncated : Bool
  truncatedBy : Option TruncatedBy
  totalLines : ℕ
  totalBytes : ℕ
  outputLines : ℕ
  outputBytes : ℕ
  lastLinePartial : Bool
  firstLineExceedsLimit : Bool
  maxLines : ℕ
  maxBytes : ℕ
deriving DecidableEq, Repr

def splitLinesForCounting (content : Text) : List Text :=
  if content = [] then []
  else if content.getLast? = some '\n' then (content.splitOn '\n').dropLast
  else content.splitOn '\n'

def untouched (content : Text) (totalLines maxLines maxBytes : ℕ) : TruncationResult where
  content := content
  truncated := false
  truncatedBy := none
  totalLines := totalLines
  totalBytes := len content
  outputLines := totalLines
  outputBytes := len content
  lastLinePartial := false
  firstLineExceedsLimit := false
  maxLines := maxLines
  maxBytes := maxBytes

def tailAtCharBoundary (text : Text) (maxBytes : ℕ) : Text :=
  if len text ≤ maxBytes then text else (cut Char.utf8Size text (len text-maxBytes)).2

/-- The loop of the tail truncation: the lines kept so far, the last one first. -/
structure Keeping where
  kept : List Text
  keptBytes : ℕ
  truncatedBy : TruncatedBy
  lastLinePartial : Bool
deriving DecidableEq, Repr

def Keeping.start : Keeping := ⟨[], 0, .lines, false⟩

def keepLines (maxLines maxBytes : ℕ) : List Text → Keeping → Keeping
  | [], k => k
  | line::older, k =>
    if k.kept.length ≥ maxLines then k
    else
      let lineBytes := len line+(if k.kept = [] then 0 else 1)
      if k.keptBytes+lineBytes > maxBytes then
        if k.kept = [] then
          let last := tailAtCharBoundary line maxBytes
          ⟨[last], len last, .bytes, true⟩
        else { k with truncatedBy := .bytes }
      else keepLines maxLines maxBytes older
        { k with kept := k.kept++[line], keptBytes := k.keptBytes+lineBytes }

def truncateTail (content : Text) (maxLines maxBytes : ℕ) : TruncationResult :=
  let totalBytes := len content
  let lines := splitLinesForCounting content
  let totalLines := lines.length
  if totalLines ≤ maxLines ∧ totalBytes ≤ maxBytes then
    untouched content totalLines maxLines maxBytes
  else
    let k := keepLines maxLines maxBytes lines.reverse .start
    let truncatedBy :=
      if k.kept.length ≥ maxLines ∧ k.keptBytes ≤ maxBytes then .lines else k.truncatedBy
    let kept := k.kept.reverse
    let output := ['\n'].intercalate kept
    { content := output
      truncated := true
      truncatedBy := some truncatedBy
      totalLines := totalLines
      totalBytes := totalBytes
      outputLines := kept.length
      outputBytes := len output
      lastLinePartial := k.lastLinePartial
      firstLineExceedsLimit := false
      maxLines := maxLines
      maxBytes := maxBytes }

theorem tail_at_boundary (text : Text) (maxBytes : ℕ) :
    tailAtCharBoundary text maxBytes = within Char.utf8Size maxBytes text := by
  unfold tailAtCharBoundary
  split
  · rename_i hfits
    exact (within_self hfits).symm
  · rfl

variable (content : Text)

theorem truncate_truncated (maxLines maxBytes : ℕ) :
    (truncateTail content maxLines maxBytes).truncated =
      (decide ((splitLinesForCounting content).length > maxLines) ||
        decide (len content > maxBytes)) := by
  simp only [truncateTail]
  split
  · rename_i hfits
    simp [untouched, Nat.not_lt.mpr hfits.1, Nat.not_lt.mpr hfits.2]
  · rename_i hover
    simp only [Bool.true_eq, Bool.or_eq_true, decide_eq_true_eq]
    omega

theorem truncate_total_lines (maxLines maxBytes : ℕ) :
    (truncateTail content maxLines maxBytes).totalLines =
      (splitLinesForCounting content).length := by
  simp only [truncateTail]
  split <;> rfl

theorem truncate_total_bytes (maxLines maxBytes : ℕ) :
    (truncateTail content maxLines maxBytes).totalBytes = len content := by
  simp only [truncateTail]
  split <;> rfl

section Lines

theorem split_lines_nil : splitLinesForCounting [] = [] := rfl

theorem split_lines_append (front back : Text) :
    splitLinesForCounting (front++ '\n'::back) =
      front.splitOn '\n'++splitLinesForCounting back := by
  have hne : front++ '\n'::back ≠ [] := by simp
  cases back with
  | nil =>
    rw [splitLinesForCounting, if_neg hne, if_pos (by simp), splitOn_append_cons_self,
      split_lines_nil, splitOn_nil, dropLast_concat, append_nil]
  | cons c back =>
    have hlast : (front++ '\n'::c::back).getLast? = (c::back).getLast? := by
      rw [List.getLast?_append]
      simp [List.getLast?_cons]
    rw [splitLinesForCounting, splitLinesForCounting, if_neg hne, if_neg (cons_ne_nil c back),
      hlast, splitOn_append_cons_self]
    split
    · exact dropLast_append_of_ne_nil (splitOn_ne_nil _ _)
    · rfl

theorem split_lines_single {line : Text} (hne : line ≠ []) (hline : '\n' ∉ line) :
    splitLinesForCounting line = [line] := by
  have hlast : line.getLast? ≠ some '\n' := fun h => hline (List.mem_of_getLast? h)
  rw [splitLinesForCounting, if_neg hne, if_neg hlast, splitOn_eq_singleton hline]

variable (content : Text)

/-- The lines joined again are the text, but for a newline at its end. -/
theorem split_lines_join : content = ['\n'].intercalate (splitLinesForCounting content) ∨
      content = ['\n'].intercalate (splitLinesForCounting content)++['\n'] := by
  unfold splitLinesForCounting
  split
  · exact .inl (by simpa using ‹content = []›)
  split
  · rename_i hne hlast
    obtain ⟨front,rfl⟩ : ∃ front, content = front++['\n'] :=
      ⟨content.dropLast,(dropLast_append_getLast? '\n' hlast).symm⟩
    right
    rw [splitOn_append_cons_self, splitOn_nil, dropLast_concat, intercalate_splitOn]
  · exact .inl (intercalate_splitOn '\n').symm

theorem split_lines_ne_nil {content : Text} (hne : content ≠ []) :
    splitLinesForCounting content ≠ [] := by
  intro hnil
  rcases split_lines_join content with h | h
  · rw [hnil] at h
    exact hne h
  · rw [hnil] at h
    rw [h] at hnil
    exact absurd hnil (by decide)

/-- A text ends in a last line after a newline, or has none. -/
theorem last_line : ∃ front line, content = front++line ∧ '\n' ∉ line ∧
      (front = [] ∨ ∃ rest, front = rest++['\n']) := by
  induction content using List.reverseRecOn with
  | nil => exact ⟨[],[],rfl,by simp,.inl rfl⟩
  | append_singleton content c ih =>
    obtain ⟨front,line,rfl,hline,hfront⟩ := ih
    by_cases hc : c = '\n'
    · subst hc
      exact ⟨front++line++['\n'],[],by simp,by simp,.inr ⟨front++line,rfl⟩⟩
    · exact ⟨front,line++[c],by simp,by simp [hline, Ne.symm hc],hfront⟩

theorem split_on_last {front line : Text} (hfront : front = [] ∨ ∃ rest, front = rest++['\n'])
    (hline : '\n' ∉ line) : ∃ older, (front++line).splitOn '\n' = older++[line] := by
  rcases hfront with rfl | ⟨rest,rfl⟩
  · exact ⟨[],by simp [splitOn_eq_singleton hline]⟩
  · refine ⟨rest.splitOn '\n',?_⟩
    rw [append_assoc, singleton_append, splitOn_append_cons_self,
      splitOn_eq_singleton hline]

/-- The number of lines: the newlines, and one more for text after the last. -/
theorem split_lines_length : (splitLinesForCounting content).length = content.count '\n'+
      (if content = [] ∨ content.getLast? = some '\n' then 0 else 1) := by
  induction hn : content.count '\n' generalizing content with
  | zero =>
    have hline : '\n' ∉ content := count_eq_zero.mp hn
    by_cases hne : content = []
    · simp [hne, split_lines_nil]
    · have hlast : content.getLast? ≠ some '\n' := fun h => hline (List.mem_of_getLast? h)
      simp [split_lines_single hne hline, hne, hlast]
  | succ n ih =>
    obtain ⟨front,back,rfl,hfront⟩ : ∃ front back, content = front++ '\n'::back ∧ '\n' ∉ front := by
      obtain ⟨front,back,hsplit,hfront⟩ := eq_append_cons_of_mem
        (count_pos_iff.mp (by omega : 0 < content.count '\n'))
      exact ⟨front,back,hsplit,hfront⟩
    have hcount : back.count '\n' = n := by
      rw [count_append, count_cons_self, count_eq_zero.mpr hfront] at hn
      omega
    rw [split_lines_append, splitOn_eq_singleton hfront, singleton_append,
      length_cons, ih back hcount]
    cases back with
    | nil => simp
    | cons c back =>
      have hlast : (front++ '\n'::c::back).getLast? = (c::back).getLast? := by
        rw [List.getLast?_append]
        simp [List.getLast?_cons]
      rw [hlast]
      simp only [append_eq_nil_iff, reduceCtorEq, and_false]
      omega

end Lines

section Keeping
variable (maxLines maxBytes : ℕ)

def joinedBytes (lines : List Text) : ℕ := weight len lines+(lines.length-1)

variable (lines : List Text) (content : Text) (line : Text)

theorem joined_push : joinedBytes (lines++[line]) =
      joinedBytes lines+(len line+(if lines = [] then 0 else 1)) := by
  cases lines with
  | nil => simp [joinedBytes]
  | cons first lines =>
    simp only [joinedBytes, weight_append, length_append, length_cons,
      weight_cons, weight_nil, length_nil, if_neg (cons_ne_nil first lines)]
    omega

theorem intercalate_concat {lines : List Text} (hne : lines ≠ []) :
    ['\n'].intercalate (lines++[line]) = ['\n'].intercalate lines++('\n'::line) := by
  induction lines with
  | nil => exact absurd rfl hne
  | cons first lines ih =>
    cases lines with
    | nil => simp [List.intercalate]
    | cons second lines =>
      have hrest := ih (cons_ne_nil second lines)
      simp only [List.intercalate, cons_append, List.intersperse, flatten_cons,
        append_assoc] at hrest ⊢
      rw [hrest]

theorem joined_bytes_eq : len (['\n'].intercalate lines) = joinedBytes lines := by
  induction lines using List.reverseRecOn with
  | nil => rfl
  | append_singleton lines line ih =>
    rw [joined_push, ← ih]
    by_cases hne : lines = []
    · subst hne
      simp [List.intercalate]
    · have hnewline : Char.utf8Size '\n' = 1 := rfl
      rw [intercalate_concat line hne, if_neg hne]
      simp only [len, weight_append, weight_cons, hnewline]
      omega

theorem joined_reverse : joinedBytes lines.reverse = joinedBytes lines := by
  simp [joinedBytes, weight]

def Keeping.add (k : Keeping) (lines : List Text) : Keeping :=
  { k with
    kept := k.kept++lines
    keptBytes := joinedBytes (k.kept++lines) }

/-- The loop over two runs of lines stops in the first or keeps all of it. -/
theorem keep_append (older : List Text) (k : Keeping) (hk : k.keptBytes = joinedBytes k.kept) :
    keepLines maxLines maxBytes (lines++older) k = keepLines maxLines maxBytes lines k ∨
    keepLines maxLines maxBytes lines k = k.add lines ∧
      keepLines maxLines maxBytes (lines++older) k =
        keepLines maxLines maxBytes older (k.add lines) := by
  induction lines generalizing k with
  | nil =>
    have hadd : k.add [] = k := by simp [Keeping.add, ← hk]
    exact .inr ⟨hadd.symm,by rw [hadd]; rfl⟩
  | cons line lines ih =>
    simp only [cons_append, keepLines]
    by_cases hfull : k.kept.length ≥ maxLines
    · exact .inl (by rw [if_pos hfull, if_pos hfull])
    by_cases hover : k.keptBytes+(len line+(if k.kept = [] then 0 else 1)) > maxBytes
    · exact .inl (by simp only [if_neg hfull, if_pos hover])
    · simp only [if_neg hfull, if_neg hover]
      have hpush := joined_push k.kept line
      have hadd := ih { k with kept := k.kept++[line], keptBytes := k.keptBytes+(len line+
        (if k.kept = [] then 0 else 1)) } (by rw [hpush, hk])
      simpa only [Keeping.add, append_assoc, singleton_append] using hadd

theorem keep_fits (k : Keeping) (hk : k.keptBytes = joinedBytes k.kept)
    (hlines : (k.kept++lines).length ≤ maxLines) (hbytes : joinedBytes (k.kept++lines) ≤ maxBytes) :
    keepLines maxLines maxBytes lines k = k.add lines := by
  induction lines generalizing k with
  | nil => simp [Keeping.add, keepLines, ← hk]
  | cons line lines ih =>
    have hpush := joined_push k.kept line
    have hmore : joinedBytes (k.kept++[line]) ≤ joinedBytes (k.kept++line::lines) := by
      simp only [joinedBytes, weight_append, weight_cons, weight_nil, length_append,
        length_cons, length_nil]
      omega
    have hfull : ¬k.kept.length ≥ maxLines := by
      simp only [length_append, length_cons] at hlines
      omega
    have hover : ¬k.keptBytes+(len line+(if k.kept = [] then 0 else 1)) > maxBytes := by omega
    simp only [keepLines, if_neg hfull, if_neg hover]
    rw [ih]
    · simp [Keeping.add]
    · exact (by rw [hpush, hk])
    · simpa using hlines
    · simpa using hbytes

/-- A line that no longer fits ends the loop without a trace. -/
theorem keep_stuck {older : List Text} {k : Keeping} (hne : k.kept ≠ [])
    (hstuck : ∀ line ∈ older.head?, maxBytes < k.keptBytes+len line+1) :
    (keepLines maxLines maxBytes older k).kept = k.kept := by
  cases older with
  | nil => rfl
  | cons line older =>
    have hover : k.keptBytes+(len line+1) > maxBytes := hstuck line rfl
    simp only [keepLines, if_neg hne, if_pos hover]
    split <;> rfl

def keptText (content : Text) : Text :=
  ['\n'].intercalate
    (keepLines maxLines maxBytes (splitLinesForCounting content).reverse .start).kept.reverse

theorem truncate_content :
    (truncateTail content maxLines maxBytes).content = keptText maxLines maxBytes content ∨
    (truncateTail content maxLines maxBytes).content =
      keptText maxLines maxBytes content++['\n'] := by
  by_cases hfits : (splitLinesForCounting content).length ≤ maxLines ∧ len content ≤ maxBytes
  · have hjoin := split_lines_join content
    have hbytes : joinedBytes (splitLinesForCounting content) ≤ len content := by
      rw [← joined_bytes_eq]
      rcases hjoin with h | h
      · exact Nat.le_of_eq (congrArg len h).symm
      · refine Nat.le_trans ?_ (Nat.le_of_eq (congrArg len h).symm)
        rw [len, len, weight_append]
        exact Nat.le_add_right _ _
    have hkeep := keep_fits maxLines maxBytes (splitLinesForCounting content).reverse .start rfl
      (by simpa [Keeping.start] using hfits.1)
      (by simpa [Keeping.start, joined_reverse] using Nat.le_trans hbytes hfits.2)
    have hkept : keptText maxLines maxBytes content =
        ['\n'].intercalate (splitLinesForCounting content) := by
      rw [keptText, hkeep]
      simp [Keeping.add, Keeping.start]
    have hcontent : (truncateTail content maxLines maxBytes).content = content := by
      simp only [truncateTail, if_pos hfits, untouched]
    rw [hcontent, hkept]
    exact hjoin
  · left
    simp only [truncateTail, if_neg hfits, keptText]

theorem truncate_content_over
    (hover : ¬((splitLinesForCounting content).length ≤ maxLines ∧ len content ≤ maxBytes)) :
    (truncateTail content maxLines maxBytes).content = keptText maxLines maxBytes content := by
  simp only [truncateTail, if_neg hover, keptText]

/-- Lines before one that does not fit do not count. -/
theorem kept_text_suffix {front line back : Text}
    (hfront : front = [] ∨ ∃ rest, front = rest++['\n']) (hline : '\n' ∉ line) (hback : back ≠ [])
    (hwide : maxBytes+1 < len line+1+len back) :
    keptText maxLines maxBytes (front++line++ '\n'::back) = keptText maxLines maxBytes back := by
  obtain ⟨older,holder⟩ := split_on_last hfront hline
  have hlines := split_lines_ne_nil hback
  have hjoined : len back ≤ joinedBytes (splitLinesForCounting back)+1 := by
    rw [← joined_bytes_eq]
    rcases split_lines_join back with h | h
    · exact Nat.le_succ_of_le (Nat.le_of_eq (congrArg len h))
    · refine Nat.le_trans (Nat.le_of_eq (congrArg len h)) ?_
      rw [len, len, weight_append]
      exact Nat.le_refl _
  unfold keptText
  rw [split_lines_append, holder, reverse_append]
  rcases keep_append maxLines maxBytes (splitLinesForCounting back).reverse
      (older++[line]).reverse .start rfl with h | ⟨hall,h⟩
  · rw [h]
  rw [h, hall, keep_stuck]
  · simpa [Keeping.add, Keeping.start] using hlines
  · intro other hother
    obtain rfl : line = other := by simpa using hother
    simp only [Keeping.add, Keeping.start, nil_append, joined_reverse]
    omega

theorem kept_text_cut (older : List Text) (hpositive : 1 ≤ maxLines)
    (hlines : splitLinesForCounting content = older++[line]) (hwide : maxBytes < len line) :
    keptText maxLines maxBytes content = within Char.utf8Size maxBytes line := by
  have hzero : ¬(Keeping.start.kept.length ≥ maxLines) := by
    simp only [Keeping.start, length_nil]
    omega
  have hover : Keeping.start.keptBytes+(len line+0) > maxBytes := by
    simp only [Keeping.start]
    omega
  unfold keptText
  rw [hlines, reverse_append, reverse_singleton, singleton_append, keepLines, if_neg hzero]
  simp only [Keeping.start, if_pos] at hover ⊢
  rw [if_pos hover, tail_at_boundary]
  simp [List.intercalate]

end Keeping

end Maple.Tools

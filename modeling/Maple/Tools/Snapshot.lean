import Maple.Tools.Streaming

/-!
# The snapshot of finished output

The text shown is the kept tail from its first whole line on, truncated again. It shows
what truncating the whole output shows, unless the tail is the end of one long line and
its newline.
-/

set_option autoImplicit false

namespace Maple.Tools

open Table Suffix Utf8 List

/-- Equal, but for one newline at the end. -/
def UpToNewline (left right : Text) : Prop :=
  left = right ∨ left = right++['\n'] ∨ right = left++['\n']

def Agrees (snapshot : OutputSnapshot) (reference : TruncationResult) : Prop :=
  UpToNewline snapshot.content reference.content ∧
    snapshot.truncation.truncated = reference.truncated ∧
    snapshot.truncation.totalLines = reference.totalLines ∧
    snapshot.truncation.totalBytes = reference.totalBytes ∧
    (reference.content ≠ [] → snapshot.content ≠ [])

/-- The tail starts inside a line and ends with its newline, after a character that
fits. Dropping the partial line then leaves nothing to show. -/
def LosesLastLine (a : OutputAccumulator) : Prop :=
  a.tailStartsAtLineBoundary = false ∧ ∃ line last, a.tailText = line++[last,'\n'] ∧
    '\n' ∉ line++[last] ∧ last.utf8Size ≤ a.maxBytes

section Shown
variable {limit maxLines maxBytes : ℕ} {tail text : Text} {atBoundary : Bool}

theorem len_newline (text : Text) : len ('\n'::text) = len text+1 := by
  rw [len, weight_cons, Nat.add_comm]
  rfl

/-- What the tail does not reach is heavier than the limit. -/
theorem tail_misses (h : TailOf limit tail atBoundary text) (front back : Text)
    (hsplit : text = front++back) (hlonger : tail.length < back.length) : limit < len back := by
  by_contra hle
  exact absurd (h.covers front back hsplit (Nat.not_lt.mp hle)) (Nat.not_le.mpr hlonger)

theorem shown_boundary (h : TailOf limit tail atBoundary text) (hlimit : maxBytes+1 ≤ limit)
    (front : Text) (hsplit : text = front++ '\n'::tail) :
    keptText maxLines maxBytes text = keptText maxLines maxBytes tail := by
  obtain ⟨before,line,rfl,hline,hbefore⟩ := last_line front
  have hne : tail ≠ [] := by
    rintro rfl
    have hmiss := tail_misses h (before++line) ['\n'] hsplit Nat.one_pos
    rw [len_newline, len, weight_nil] at hmiss
    omega
  have hwide := tail_misses h before (line++ '\n'::tail) (by simpa using hsplit) (by simp; omega)
  rw [len, weight_append] at hwide
  have hnewline := len_newline tail
  rw [hsplit]
  exact kept_text_suffix maxLines maxBytes hbefore hline hne (by
    simp only [len] at *
    omega)

/-- A tail inside one line that goes on to the end. -/
theorem shown_inside (h : TailOf limit tail atBoundary text) (hpositive : 1 ≤ maxLines)
    (hlimit : maxBytes+1 ≤ limit) (before line : Text)
    (hbefore : before = [] ∨ ∃ rest, before = rest++['\n']) (hne : line ≠ [])
    (hsplit : text = before++(line++tail)) (hnewline : '\n' ∉ line++tail) :
    (truncateTail tail maxLines maxBytes).content = keptText maxLines maxBytes text := by
  have hwide := tail_misses h before (line++tail) hsplit (by
    have hlength := length_pos_of_ne_nil hne
    rw [length_append]
    omega)
  obtain ⟨older,holder⟩ := split_on_last hbefore hnewline
  have hopen : splitLinesForCounting text = older++[line++tail] := by
    have hlast : text.getLast? ≠ some '\n' := by
      rw [hsplit, List.getLast?_append_of_ne_nil _ (by simp [hne])]
      exact fun hlast => hnewline (List.mem_of_getLast? hlast)
    rw [splitLinesForCounting, if_neg (by simp [hsplit, hne]), if_neg hlast, hsplit, holder]
  rw [kept_text_cut maxLines maxBytes text (line++tail) older hpositive hopen (by omega)]
  obtain ⟨rest,hrest⟩ := within_suffix Char.utf8Size maxBytes (line++tail)
  have hreach := h.covers (before++rest) (within Char.utf8Size maxBytes (line++tail))
    (by rw [append_assoc, hrest, hsplit])
    (Nat.le_trans (within_fits Char.utf8Size maxBytes _) (by omega))
  rw [within_append hreach]
  by_cases hnil : tail = []
  · rw [hnil, within_self (Nat.zero_le _)]
    rfl
  have hsingle := split_lines_single hnil (fun hmem => hnewline (by simp [hmem]))
  by_cases hfits : len tail ≤ maxBytes
  · rw [within_self hfits]
    simp only [truncateTail, hsingle, length_singleton, if_pos (And.intro hpositive hfits),
      untouched]
  · rw [truncate_content_over maxLines maxBytes tail (fun hboth => hfits hboth.2)]
    exact kept_text_cut maxLines maxBytes tail tail [] hpositive hsingle (by omega)

/-- A tail whose first line ends before more text. -/
theorem shown_after (h : TailOf limit tail atBoundary text) (hlimit : maxBytes+1 ≤ limit)
    (before line rest back : Text) (hbefore : before = [] ∨ ∃ rest, before = rest++['\n'])
    (hne : line ≠ []) (htail : tail = rest++ '\n'::back) (hback : back ≠ [])
    (hsplit : text = before++(line++rest)++ '\n'::back) (hnewline : '\n' ∉ line++rest) :
    keptText maxLines maxBytes text = keptText maxLines maxBytes back := by
  have hwide := tail_misses h before ((line++rest)++ '\n'::back) (by simpa using hsplit) (by
    have hlength := length_pos_of_ne_nil hne
    simp only [htail, length_append, length_cons]
    omega)
  rw [len, weight_append] at hwide
  have hcount := len_newline back
  rw [hsplit]
  exact kept_text_suffix maxLines maxBytes hbefore hnewline hback (by
    simp only [len] at *
    omega)

/-- A tail that is the end of one line and its newline. -/
theorem shown_nothing (h : TailOf limit tail atBoundary text) (hpositive : 1 ≤ maxLines)
    (hlimit : maxBytes+1 ≤ limit) {before line rest : Text}
    (hbefore : before = [] ∨ ∃ rest, before = rest++['\n']) (hne : line ≠ [])
    (htail : tail = rest++['\n']) (hsplit : text = before++(line++rest)++['\n'])
    (hnewline : '\n' ∉ line++rest) :
    keptText maxLines maxBytes text = within Char.utf8Size maxBytes (line++rest) ∧
      (within Char.utf8Size maxBytes (line++rest) = [] ↔
        ∀ init last, rest = init++[last] → maxBytes < last.utf8Size) := by
  have hwide := tail_misses h before ((line++rest)++['\n']) (by simpa using hsplit) (by
    have hlength := length_pos_of_ne_nil hne
    simp only [htail, length_append, length_cons]
    omega)
  rw [len, weight_append] at hwide
  have hone : weight Char.utf8Size ['\n'] = 1 := rfl
  obtain ⟨older,holder⟩ := split_on_last hbefore hnewline
  have hlines : splitLinesForCounting text = older++[line++rest] := by
    rw [hsplit, split_lines_append, holder, split_lines_nil, append_nil]
  refine ⟨kept_text_cut maxLines maxBytes text (line++rest) older hpositive hlines (by
    simp only [len]
    omega),?_⟩
  rcases eq_nil_or_concat' rest with rfl | ⟨init,last,rfl⟩
  · -- The character before the newline is too wide for the tail, so it is for the limit.
    obtain ⟨init,last,rfl⟩ := (eq_nil_or_concat' line).resolve_left hne
    have hmiss := tail_misses h (before++init) [last,'\n'] (by simpa using hsplit) (by simp [htail])
    have hweight : len [last,'\n'] = last.utf8Size+1 := rfl
    rw [append_nil, within_concat_eq_nil]
    simp only [nil_eq, append_eq_nil_iff, cons_ne_nil, and_false, false_implies,
      implies_true, iff_true]
    omega
  · rw [← append_assoc, within_concat_eq_nil]
    constructor
    · intro hwide' init' last' heq
      obtain ⟨_,hlast⟩ := append_inj' heq rfl
      obtain rfl : last = last' := by simpa using hlast
      exact hwide'
    · exact fun hall => hall init last rfl

end Shown

section Agreement
variable {a : OutputAccumulator} {text : Text}

theorem total_lines_counted (h : Tracks a text) :
    a.totalLines = (splitLinesForCounting text).length := by
  rw [h.total, h.completed, h.opened, split_lines_length]
  by_cases hopen : text = [] ∨ text.getLast? = some '\n'
  · have hclosed : endsOpen text = false := by
      simp only [endsOpen, decide_eq_false_iff_not]
      tauto
    rw [if_pos hopen, hclosed]
    rfl
  · have hended : endsOpen text = true := by
      simp only [endsOpen, decide_eq_true_eq]
      tauto
    rw [if_neg hopen, hended]
    rfl

theorem split_at_newline (tail : Text) :
    (tail.dropWhile (· ≠ '\n') = [] ∧ '\n' ∉ tail) ∨
      ∃ rest back, tail.dropWhile (· ≠ '\n') = '\n'::back ∧ tail = rest++ '\n'::back ∧
        '\n' ∉ rest := by
  induction tail with
  | nil => exact .inl ⟨rfl,by simp⟩
  | cons c tail ih =>
    by_cases hc : c = '\n'
    · subst hc
      exact .inr ⟨[],tail,by simp,rfl,by simp⟩
    have hdrop : (c::tail).dropWhile (· ≠ '\n') = tail.dropWhile (· ≠ '\n') := by
      simp [hc]
    rw [hdrop]
    rcases ih with ⟨hnil,hnone⟩ | ⟨rest,back,hback,rfl,hrest⟩
    · exact .inl ⟨hnil,by simp [hnone, Ne.symm hc]⟩
    · exact .inr ⟨c::rest,back,hback,rfl,by simp [hrest, Ne.symm hc]⟩

/-- What a finished accumulator shows against the truncation of the whole text. -/
theorem shown_content (h : Tracks a text) (hpositive : 1 ≤ a.maxLines)
    (hrolling : a.maxBytes+1 ≤ a.maxRollingBytes) :
    (¬LosesLastLine a ∧ ((truncateTail a.snapshotText a.maxLines a.maxBytes).content =
          (truncateTail text a.maxLines a.maxBytes).content ∨
        (truncateTail a.snapshotText a.maxLines a.maxBytes).content =
          (truncateTail text a.maxLines a.maxBytes).content++['\n'])) ∨
    (LosesLastLine a ∧ (truncateTail a.snapshotText a.maxLines a.maxBytes).content = [] ∧
      (truncateTail text a.maxLines a.maxBytes).content ≠ [] ∧
      '\n' ∉ (truncateTail text a.maxLines a.maxBytes).content) := by
  obtain ⟨front,hsplit,hboundary⟩ := h.tail.suffix
  by_cases hfront : front = []
  · have hflag := hboundary.mpr (.inl hfront)
    have hshown : a.snapshotText = text := by
      rw [OutputAccumulator.snapshotText, if_pos hflag, hsplit, hfront, nil_append]
    exact .inl ⟨fun hloses => by simp [hloses.1] at hflag,.inl (by rw [hshown])⟩
  have hover : ¬((splitLinesForCounting text).length ≤ a.maxLines ∧ len text ≤ a.maxBytes) := by
    have hmiss := tail_misses h.tail [] text rfl (by
      have hlength := length_pos_of_ne_nil hfront
      rw [hsplit, length_append]
      omega)
    omega
  rw [truncate_content_over a.maxLines a.maxBytes text hover]
  cases hflag : a.tailStartsAtLineBoundary with
  | true =>
    obtain ⟨before,rfl⟩ : ∃ before, front = before++['\n'] :=
      ⟨front.dropLast,(dropLast_append_getLast? '\n'
        ((hboundary.mp hflag).resolve_left hfront)).symm⟩
    have hkept := @shown_boundary _ a.maxLines _ _ _ _ h.tail hrolling before
      (by simpa using hsplit)
    refine .inl ⟨fun hloses => by simp [hloses.1] at hflag,?_⟩
    rw [hkept, OutputAccumulator.snapshotText, if_pos hflag]
    exact truncate_content a.maxLines a.maxBytes a.tailText
  | false =>
    obtain ⟨before,line,rfl,hline,hbefore⟩ := last_line front
    have hne : line ≠ [] := by
      rintro rfl
      have hended : before ≠ [] → before.getLast? = some '\n' := by
        intro hbne
        obtain ⟨rest,rfl⟩ := hbefore.resolve_left hbne
        simp
      rw [append_nil] at hfront hboundary
      exact absurd (hboundary.mpr (.inr (hended hfront))) (by simp [hflag])
    have hunflagged : ¬a.tailStartsAtLineBoundary = true := by simp [hflag]
    rw [OutputAccumulator.snapshotText, if_neg hunflagged]
    rcases split_at_newline a.tailText with ⟨hdrop,hnone⟩ | ⟨rest,back,hdrop,htail,hrest⟩
    · rw [hdrop]
      refine .inl ⟨?_,.inl (shown_inside h.tail hpositive hrolling before line hbefore hne
        (by simpa using hsplit) (by simp [hline, hnone]))⟩
      rintro ⟨_,init,last,htail,_⟩
      exact hnone (by simp [htail])
    · rw [hdrop]
      have hinside : '\n' ∉ line++rest := by simp [hline, hrest]
      by_cases hback : back = []
      · subst hback
        obtain ⟨hkept,hempty⟩ := shown_nothing h.tail hpositive hrolling hbefore
          hne htail (by simpa [htail] using hsplit) hinside
        have hloses : LosesLastLine a ↔ ¬(within Char.utf8Size a.maxBytes (line++rest) = []) := by
          rw [hempty]
          constructor
          · rintro ⟨_,init,last,heq,_,hfits⟩ hall
            refine absurd (hall init last ?_) (Nat.not_lt.mpr hfits)
            rw [htail] at heq
            exact (append_inj' (heq.trans (by simp : init++[last,'\n'] = (init++[last])++['\n']))
              rfl).1
          · intro hnot
            simp only [not_forall, Nat.not_lt] at hnot
            obtain ⟨init,last,rfl,hfits⟩ := hnot
            exact ⟨hflag,init,last,by simpa using htail,hrest,hfits⟩
        rw [hkept]
        by_cases hnil : within Char.utf8Size a.maxBytes (line++rest) = []
        · exact .inl ⟨fun hlost => hloses.mp hlost hnil,.inl (by rw [hnil]; rfl)⟩
        · refine .inr ⟨hloses.mpr hnil,rfl,hnil,fun hmem => hinside ?_⟩
          exact (within_suffix Char.utf8Size a.maxBytes (line++rest)).subset hmem
      · have hkept := @shown_after _ a.maxLines _ _ _ _ h.tail hrolling before line rest back
          hbefore hne htail hback (by simpa [htail] using hsplit) hinside
        rw [hkept]
        refine .inl ⟨?_,truncate_content a.maxLines a.maxBytes back⟩
        rintro ⟨_,init,last,heq,hnone,_⟩
        obtain ⟨middle,c,rfl⟩ := (eq_nil_or_concat' back).resolve_left hback
        have hsame : (rest++ '\n'::middle)++[c] = (init++[last])++['\n'] := by
          simpa [htail] using heq
        exact hnone (by simp [← (append_inj' hsame rfl).1])

end Agreement

/-- The snapshot of the finished output shows the truncation of all of it, exactly when
the rolling tail is not the end of one line and its newline. -/
theorem snapshot_agrees_iff (host : Host) (maxLines maxBytes : ℕ) (hlines : 1 ≤ maxLines)
    (hbytes : 1 ≤ maxBytes) (hrange : maxBytes*2 < usizeSize) (chunks : List Bytes)
    (persist : Bool) :
    Agrees ((collect host maxLines maxBytes chunks).snapshot host persist).1
        (truncateTail (lossy chunks.flatten) maxLines maxBytes) ↔
      ¬LosesLastLine (collect host maxLines maxBytes chunks) := by
  obtain ⟨htracks,hmaxLines,hmaxBytes,hrolling⟩ := collect_tracks host maxLines maxBytes chunks
  generalize collect host maxLines maxBytes chunks = a at *
  generalize lossy chunks.flatten = text at *
  subst hmaxLines hmaxBytes
  rw [Nat.mod_eq_of_lt hrange] at hrolling
  have hcontent := shown_content htracks hlines (by omega)
  have hcounts : (a.snapshot host persist).1.truncation.truncated =
        (truncateTail text a.maxLines a.maxBytes).truncated ∧
      (a.snapshot host persist).1.truncation.totalLines =
        (truncateTail text a.maxLines a.maxBytes).totalLines ∧
      (a.snapshot host persist).1.truncation.totalBytes =
        (truncateTail text a.maxLines a.maxBytes).totalBytes := by
    rw [truncate_truncated, truncate_total_lines, truncate_total_bytes,
      ← total_lines_counted htracks, ← htracks.bytes]
    exact ⟨rfl, rfl, rfl⟩
  have hshown : (a.snapshot host persist).1.content =
      (truncateTail a.snapshotText a.maxLines a.maxBytes).content := rfl
  rw [Agrees, hshown]
  rcases hcontent with ⟨hkeeps,hsame⟩ | ⟨hloses,hempty,hne,hnewline⟩
  · refine iff_of_true ?_ hkeeps
    refine ⟨hsame.imp_right .inl, hcounts.1, hcounts.2.1, hcounts.2.2, fun hreference => ?_⟩
    rcases hsame with h | h <;> rw [h]
    · exact hreference
    · simp
  · refine iff_of_false ?_ (not_not_intro hloses)
    exact fun hagrees => hagrees.2.2.2.2 hne hempty

def sampleHost : Host := ⟨fun _ => .ok "bash-0.log", fun _ => none⟩

/-- Two lines over the limits, cut inside a character. -/
theorem snapshot_agrees_sample :
    Agrees ((collect sampleHost 1 3 [[104, 195], [169, 10, 104], [195, 169, 10]]).snapshot
        sampleHost true).1
      (truncateTail (lossy [104, 195, 169, 10, 104, 195, 169, 10]) 1 3) :=
  (snapshot_agrees_iff sampleHost 1 3 (by decide) (by decide) (by decide)
    [[104, 195], [169, 10, 104], [195, 169, 10]] true).mpr (fun hloses =>
      absurd hloses.1 (by decide +kernel))

/-- One line of four letters and a byte limit of one: the end of the line should be
shown, and nothing is. -/
theorem long_line_lost :
    (truncateTail (lossy [97, 97, 97, 97, 10]) 1 1).content = ['a'] ∧
      ((collect sampleHost 1 1 [[97, 97, 97, 97, 10]]).snapshot sampleHost true).1.content = [] ∧
      ¬Agrees ((collect sampleHost 1 1 [[97, 97, 97, 97, 10]]).snapshot sampleHost true).1
        (truncateTail (lossy [97, 97, 97, 97, 10]) 1 1) := by
  have hreference : (truncateTail (lossy [97, 97, 97, 97, 10]) 1 1).content = ['a'] := by
    decide +kernel
  have hshown : ((collect sampleHost 1 1 [[97, 97, 97, 97, 10]]).snapshot
      sampleHost true).1.content = [] := by
    decide +kernel
  refine ⟨hreference, hshown, fun hagrees => ?_⟩
  exact hagrees.2.2.2.2 (by simp [hreference]) hshown

end Maple.Tools

import Maple.Tools.Output

/-!
# Streamed output against the whole

The accumulator follows the decoded text of all chunks: it keeps a suffix that covers
every suffix within twice the byte limit, and exact counts. So its snapshot is the
truncation of the whole text, except where dropping a partial first line drops all of a
long last line.
-/

set_option autoImplicit false

namespace Maple.Tools

open Table Suffix Utf8 OutputAccumulator List

section Decoding

theorem decode_finish (pending : Bytes) : decodeAvailable pending true = (lossy pending, []) := by
  fun_induction decodeAvailable pending true with
  | case1 pending text hstrict =>
    have hcontinues := strict_continues pending
    rw [hstrict] at hcontinues
    simpa [lossy_nil] using (hcontinues []).symm
  | case2 pending text rest hstrict more ih =>
    have hcontinues := strict_continues pending
    rw [hstrict] at hcontinues
    have hlossy := hcontinues.2 []
    simp only [append_nil] at hlossy
    simp only [more, ih, hlossy]
  | case3 pending text rest hstrict =>
    have hcontinues := strict_continues pending
    rw [hstrict] at hcontinues
    rw [hcontinues.1]
  | case4 pending text rest hstrict hfinish => exact absurd rfl hfinish

/-- What was decoded from a chunk is final: the rest decodes as if it stood alone. -/
theorem decode_continues (pending more : Bytes) :
    lossy (pending++more) = (decodeAvailable pending false).1++
      lossy ((decodeAvailable pending false).2++more) := by
  fun_induction decodeAvailable pending false with
  | case1 pending text hstrict =>
    have hcontinues := strict_continues pending
    rw [hstrict] at hcontinues
    exact hcontinues more
  | case2 pending text rest hstrict rest' ih =>
    have hcontinues := strict_continues pending
    rw [hstrict] at hcontinues
    rw [hcontinues.2 more, ih, append_assoc, cons_append]
  | case3 pending text rest hstrict hfinish => cases hfinish
  | case4 pending text rest hstrict =>
    have hcontinues := strict_continues pending
    rw [hstrict] at hcontinues
    exact hcontinues.2 more

end Decoding

/-- Only the file and what is kept for it differ. -/
def Filed (a b : OutputAccumulator) : Prop :=
  b = { a with
    rawChunks := b.rawChunks
    filePath := b.filePath
    file := b.file
    fileError := b.fileError
    attempts := b.attempts
    writes := b.writes }

theorem filed_trans (a b c : OutputAccumulator) (hab : Filed a b) (hbc : Filed b c) :
    Filed a c := by
  unfold Filed at *
  rw [hbc, hab]

variable (host : Host) (maxLines : ℕ) (maxBytes : ℕ) (chunks : List Bytes)

theorem write_filed (a : OutputAccumulator) (data : Bytes) : Filed a (a.writeToFile host data) := by
  unfold writeToFile
  split
  · rfl
  · split <;> rfl

theorem writes_filed (a : OutputAccumulator) :
    Filed a (chunks.foldl (fun a chunk => a.writeToFile host chunk) a) := by
  induction chunks generalizing a with
  | nil => rfl
  | cons chunk chunks ih => exact filed_trans _ _ _ (write_filed host a chunk) (ih _)

theorem ensure_filed (a : OutputAccumulator) : Filed a (a.ensureFile host) := by
  unfold ensureFile
  split
  · rfl
  split
  · rename_i path hcreate
    refine filed_trans a { a with
      filePath := some path
      file := some []
      rawChunks := []
      attempts := a.attempts+1 } _ rfl (writes_filed host a.rawChunks _)
  · rfl

/-- The kept tail of a text: it covers every suffix within the limit. -/
structure TailOf (limit : ℕ) (tail : Text) (atBoundary : Bool) (text : Text) : Prop where
  suffix : ∃ front, text = front++tail ∧
    (atBoundary = true ↔ front = [] ∨ front.getLast? = some '\n')
  covers : ∀ front back, text = front++back → len back ≤ limit → back.length ≤ tail.length

theorem tail_push {limit : ℕ} {tail text : Text} (more : Text) {atBoundary : Bool}
    (h : TailOf limit tail atBoundary text) :
    TailOf limit (tail++more) atBoundary (text++more) := by
  obtain ⟨⟨start,rfl,hboundary⟩,hcovers⟩ := h
  refine ⟨⟨start,append_assoc _ _ _,hboundary⟩,fun front back hsplit hfits => ?_⟩
  rw [length_append]
  rcases append_eq_append_iff.mp hsplit with ⟨_,rfl,hmore⟩ | ⟨middle,htext,hback⟩
  · have hlength := congrArg List.length hmore
    rw [length_append] at hlength
    omega
  · subst hback
    have hmiddle := hcovers front middle htext
      (Nat.le_trans (by rw [len, len, weight_append]; omega) hfits)
    rw [length_append]
    omega

theorem tail_trim {limit : ℕ} {tail text : Text} {atBoundary : Bool}
    (h : TailOf limit tail atBoundary text) (hlong : ¬len tail ≤ limit) :
    TailOf limit (cut Char.utf8Size tail (len tail-limit)).2
      (decide ((cut Char.utf8Size tail (len tail-limit)).1.getLast? = some '\n')) text := by
  obtain ⟨⟨start,rfl,_⟩,hcovers⟩ := h
  have hcut := cut_append Char.utf8Size tail (len tail-limit)
  have hreach := cut_reaches Char.utf8Size (len tail-limit) (Nat.sub_le _ _)
  have hne : (cut Char.utf8Size tail (len tail-limit)).1 ≠ [] := by
    intro hnil
    rw [hnil, weight_nil] at hreach
    omega
  refine ⟨⟨start++(cut Char.utf8Size tail (len tail-limit)).1,?_,?_⟩,?_⟩
  · rw [append_assoc, hcut]
  · rw [List.getLast?_append_of_ne_nil _ hne]
    simp [hne]
  intro front back hsplit hfits
  have hback : back <:+ tail := suffix_of_suffix_length_le ⟨front,hsplit.symm⟩
    (suffix_append start tail) (hcovers front back hsplit hfits)
  obtain ⟨middle,rfl⟩ := hback
  refine cut_covers Char.utf8Size middle back _ ?_
  simp only [len, weight_append] at *
  omega

def endsOpen (text : Text) : Bool := decide (text ≠ [] ∧ text.getLast? ≠ some '\n')

structure Tracks (a : OutputAccumulator) (text : Text) : Prop where
  tail : TailOf a.maxRollingBytes a.tailText a.tailStartsAtLineBoundary text
  bytes : a.totalDecodedBytes = len text
  completed : a.completedLines = text.count '\n'
  opened : a.hasOpenLine = endsOpen text
  total : a.totalLines = a.completedLines+a.hasOpenLine.toNat

variable {a : OutputAccumulator}

theorem tracks_filed {b : OutputAccumulator} {text : Text} (hfiled : Filed a b)
    (h : Tracks a text) :
    Tracks b text := by
  rw [hfiled]
  exact ⟨h.tail,h.bytes,h.completed,h.opened,h.total⟩

theorem with_limits_tracks : Tracks (.withLimits maxLines maxBytes) [] where
  tail := by
    refine ⟨⟨[],rfl,by simp [withLimits]⟩,fun front back h _ => ?_⟩
    obtain ⟨_,rfl⟩ := append_eq_nil_iff.mp h.symm
    exact Nat.le_refl 0
  bytes := rfl
  completed := rfl
  opened := rfl
  total := rfl

theorem ends_open_append (text : Text) {more : Text} (hne : more ≠ []) :
    endsOpen (text++more) = endsOpen more := by
  simp [endsOpen, List.getLast?_append_of_ne_nil _ hne, hne]

theorem ends_open_line {text : Text} (hne : text ≠ []) (hline : text.count '\n' = 0) :
    endsOpen text = true := by
  have hmem : '\n' ∉ text := count_eq_zero.mp hline
  have hlast : text.getLast? ≠ some '\n' := fun h => hmem (List.mem_of_getLast? h)
  simp [endsOpen, hne, hlast]

theorem ends_open_rest {text : Text} (hne : text ≠ []) :
    (!(afterLastNewline text).isEmpty) = endsOpen text := by
  obtain ⟨front,last,rfl⟩ : ∃ front last, text = front++[last] :=
    ⟨_,_,(dropLast_append_getLast hne).symm⟩
  by_cases hlast : last = '\n'
  · simp [afterLastNewline, endsOpen, hlast]
  · simp [afterLastNewline, endsOpen, hlast, isEmpty_eq_false_iff]

theorem push_tail_spec {text : Text} (more : Text)
    (h : TailOf a.maxRollingBytes a.tailText a.tailStartsAtLineBoundary text) :
    ∃ tail atBoundary, a.pushTail more = { a with
        totalDecodedBytes := a.totalDecodedBytes+len more
        tailText := tail
        tailStartsAtLineBoundary := atBoundary } ∧
      TailOf a.maxRollingBytes tail atBoundary (text++more) := by
  have hpush := tail_push more h
  simp only [pushTail, trimTail]
  split
  · split
    · exact ⟨_,_,rfl,hpush⟩
    · rename_i hlong
      exact ⟨_,_,rfl,tail_trim hpush hlong⟩
  · exact ⟨_,_,rfl,hpush⟩

theorem append_decoded_tracks (a : OutputAccumulator) (text more : Text) (h : Tracks a text) :
    Tracks (a.appendDecoded more) (text++more) := by
  unfold appendDecoded
  by_cases hne : more = []
  · rw [if_pos hne, hne, append_nil]
    exact h
  rw [if_neg hne]
  obtain ⟨tail,atBoundary,hpush,htail⟩ := push_tail_spec more h.tail
  have hbytes : a.totalDecodedBytes+len more = len (text++more) := by
    rw [h.bytes, len, len, len, weight_append]
  rw [hpush]
  by_cases hline : more.count '\n' = 0
  · simp only [countLines, if_pos hline]
    refine ⟨htail,hbytes,?_,?_,rfl⟩
    · rw [h.completed, count_append, hline]
      rfl
    · rw [ends_open_append text hne, ends_open_line hne hline]
  · simp only [countLines, if_neg hline]
    refine ⟨htail,hbytes,?_,?_,rfl⟩
    · rw [h.completed, count_append]
    · rw [ends_open_append text hne, ends_open_rest hne]

/-- The text decoded so far, and what the pending bytes will add to it. -/
structure Decoded (maxLines maxBytes : ℕ) (a : OutputAccumulator) (seen : Bytes) (text : Text) :
    Prop where
  tracks : Tracks a text
  continues : ∀ more, lossy (seen++more) = text++lossy (a.pending++more)
  running : a.finished = false
  lines : a.maxLines = maxLines
  bytes : a.maxBytes = maxBytes
  rolling : a.maxRollingBytes = max (maxBytes*2%usizeSize) 1

theorem append_decoded_frame (a : OutputAccumulator) (text : Text) :
    (a.appendDecoded text).pending = a.pending ∧ (a.appendDecoded text).finished = a.finished ∧
      (a.appendDecoded text).maxLines = a.maxLines ∧
      (a.appendDecoded text).maxBytes = a.maxBytes ∧
      (a.appendDecoded text).maxRollingBytes = a.maxRollingBytes := by
  simp only [appendDecoded, countLines,
    pushTail, trimTail]
  split
  · exact ⟨rfl,rfl,rfl,rfl,rfl⟩
  · split
    all_goals
      split
      · split <;> exact ⟨rfl,rfl,rfl,rfl,rfl⟩
      · exact ⟨rfl,rfl,rfl,rfl,rfl⟩

theorem decoded_filed {maxLines maxBytes : ℕ} (b : OutputAccumulator) {seen : Bytes} {text : Text}
    (hfiled : Filed a b) (h : Decoded maxLines maxBytes a seen text) :
    Decoded maxLines maxBytes b seen text := by
  have htracks := tracks_filed hfiled h.tracks
  rw [hfiled] at htracks ⊢
  exact ⟨htracks,h.continues,h.running,h.lines,h.bytes,h.rolling⟩

theorem append_step {maxLines maxBytes : ℕ} {seen : Bytes} (data : Bytes) {text : Text}
    (h : Decoded maxLines maxBytes a seen text) :
    ∃ text', Decoded maxLines maxBytes (a.append host data) (seen++data) text' := by
  let decoded := decodeAvailable (a.pending++data) false
  let fed := { a with
    totalRawBytes := a.totalRawBytes+data.length
    pending := decoded.2 }
  have htracks : Tracks (fed.appendDecoded decoded.1) (text++decoded.1) :=
    append_decoded_tracks fed text decoded.1
      ⟨h.tracks.tail,h.tracks.bytes,h.tracks.completed,h.tracks.opened,h.tracks.total⟩
  obtain ⟨hpending,hfinished,hlines,hbytes,hrolling⟩ := append_decoded_frame fed decoded.1
  have hstep : Decoded maxLines maxBytes (fed.appendDecoded decoded.1) (seen++data)
      (text++decoded.1) := by
    refine ⟨htracks,fun more => ?_,hfinished.trans h.running,hlines.trans h.lines,
      hbytes.trans h.bytes,hrolling.trans h.rolling⟩
    rw [hpending, append_assoc, h.continues, ← append_assoc a.pending,
      decode_continues, append_assoc]
  refine ⟨text++decoded.1,?_⟩
  have hrunning : ¬a.finished = true := by simp [h.running]
  simp only [append, if_neg hrunning]
  split
  · exact decoded_filed _ (filed_trans _ _ _ (ensure_filed host _) (write_filed host _ data)) hstep
  · split
    · exact decoded_filed _ rfl hstep
    · exact hstep

/-- Any chunks: the text so far, with the pending bytes, is the text of all of them. -/
theorem append_run (a : OutputAccumulator) (seen : Bytes) (text : Text)
    (h : Decoded maxLines maxBytes a seen text) :
    ∃ text', Decoded maxLines maxBytes (chunks.foldl (OutputAccumulator.append host) a)
      (seen++chunks.flatten) text' := by
  induction chunks generalizing a seen text with
  | nil => exact ⟨text,by simpa using h⟩
  | cons chunk chunks ih =>
    obtain ⟨text',hstep⟩ := append_step host chunk h
    obtain ⟨text'',hrun⟩ := ih _ _ _ hstep
    exact ⟨text'',by simpa using hrun⟩

theorem collect_tracks : Tracks (collect host maxLines maxBytes chunks) (lossy chunks.flatten) ∧
      (collect host maxLines maxBytes chunks).maxLines = maxLines ∧
      (collect host maxLines maxBytes chunks).maxBytes = maxBytes ∧
      (collect host maxLines maxBytes chunks).maxRollingBytes = max (maxBytes*2%usizeSize) 1 := by
  obtain ⟨text,hrun⟩ := append_run host maxLines maxBytes chunks
    (.withLimits maxLines maxBytes) [] [] ⟨with_limits_tracks maxLines maxBytes,
      fun more => rfl,rfl,rfl,rfl,rfl⟩
  rw [nil_append] at hrun
  unfold collect
  generalize chunks.foldl (append host) (.withLimits maxLines maxBytes) = a at hrun
  let fed := { a with
    finished := true
    pending := (decodeAvailable a.pending true).2 }
  have hall : lossy chunks.flatten = text++(decodeAvailable a.pending true).1 := by
    simpa [decode_finish] using hrun.continues []
  have htracks : Tracks (fed.appendDecoded (decodeAvailable a.pending true).1)
      (lossy chunks.flatten) := by
    rw [hall]
    exact append_decoded_tracks fed text _ ⟨hrun.tracks.tail,hrun.tracks.bytes,
      hrun.tracks.completed,hrun.tracks.opened,hrun.tracks.total⟩
  obtain ⟨_,_,hlines,hbytes,hrolling⟩ :=
    append_decoded_frame fed (decodeAvailable a.pending true).1
  have hrunning : ¬a.finished = true := by simp [hrun.running]
  simp only [finish, if_neg hrunning]
  split
  · have hfiled := ensure_filed host (fed.appendDecoded (decodeAvailable a.pending true).1)
    refine ⟨tracks_filed hfiled htracks,?_⟩
    rw [hfiled]
    exact ⟨hlines.trans hrun.lines,hbytes.trans hrun.bytes,hrolling.trans hrun.rolling⟩
  · exact ⟨htracks,hlines.trans hrun.lines,hbytes.trans hrun.bytes,hrolling.trans hrun.rolling⟩

end Maple.Tools

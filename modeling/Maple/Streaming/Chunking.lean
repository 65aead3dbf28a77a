import Maple.Streaming.Completion

/-!
# Network chunks cannot be observed

The loops over frames, buffer pieces and chunks come to one scan of all the bytes.
-/

set_option autoImplicit false

namespace Maple.Streaming

open JsonText Frames Session.Entries List

section Extraction

variable {buffer : Bytes}

theorem extractLoop_enough (n m : ℕ) (hn : buffer.length ≤ n) (hm : buffer.length ≤ m) :
    extractLoop n buffer = extractLoop m buffer := by
  induction buffer using frames_induction sseBoundary generalizing n m with
  | none buffer hf =>
    have hfind : findSseFrameBoundary buffer = none := hf
    cases n <;> cases m <;> simp only [extractLoop, hfind]
  | some buffer a d hf ih =>
    have hfind : findSseFrameBoundary buffer = some (a, d) := hf
    have hshort := drop_shorter sseBoundary hf
    obtain ⟨n,rfl⟩ : ∃ k, n = k+1 := ⟨n-1,by omega⟩
    obtain ⟨m,rfl⟩ : ∃ k, m = k+1 := ⟨m-1,by omega⟩
    simp only [extractLoop, hfind]
    rw [ih n m (by omega) (by omega)]

theorem extract_none (h : findSseFrameBoundary buffer = none) :
    extractSseFrame buffer = (none, buffer) := by
  rw [extractSseFrame]
  cases buffer.length with
  | zero => rfl
  | succ n => simp only [extractLoop, h]

theorem extract_some {a d : ℕ} (h : findSseFrameBoundary buffer = some (a, d)) :
    extractSseFrame buffer =
      if (frameData (buffer.take a)).isEmpty then extractSseFrame (buffer.drop (a+d))
      else (some (frameData (buffer.take a)), buffer.drop (a+d)) := by
  have hshort := drop_shorter sseBoundary h
  cases hn : buffer.length with
  | zero => omega
  | succ n =>
    have hsame := extractLoop_enough n (buffer.drop (a+d)).length (by omega) (Nat.le_refl _)
    simp only [extractSseFrame, hn, extractLoop, h]
    rw [hsame]

end Extraction

section Loops
variable {Attempt : Type} (call : Call Attempt) (consumer : ℕ → Bool)

/-- Frames without data are passed over. -/
def consume (s : Stream) (frame : Bytes) : Except (Finished Attempt) Stream :=
  if (frameData frame).isEmpty then .ok s else handleFrame call consumer s (frameData frame)

def overlong (s : Stream) : Finished Attempt := fail call s .invalidData .invalidResponse

def scanStream (limit : Option ℕ) (s : Stream) (bytes : Bytes) :
    Except (Finished Attempt) (Stream × Bytes) :=
  scan sseBoundary limit (consume call consumer) (overlong call) s bytes

theorem drain_scan (n : ℕ) (s : Stream) {buffer : Bytes} (hn : buffer.length < n) :
    drainLoop call consumer n s buffer = scanStream call consumer none s buffer := by
  induction buffer using frames_induction sseBoundary generalizing n s with
  | none buffer hf =>
    obtain ⟨n,rfl⟩ : ∃ k, n = k+1 := ⟨n-1,by omega⟩
    rw [scanStream, scan_none _ _ _ s hf, if_pos (within_none _)]
    simp only [drainLoop, extract_none hf]
  | some buffer a d hf ih =>
    have hshort := drop_shorter sseBoundary hf
    obtain ⟨n,rfl⟩ : ∃ k, n = k+1 := ⟨n-1,by omega⟩
    rw [scanStream, scan_some _ _ _ s hf, if_pos (within_none _)]
    by_cases hempty : (frameData (buffer.take a)).isEmpty = true
    · -- the extraction goes on to the next frame within the same turn of the loop
      have hturn : drainLoop call consumer (n+1) s buffer =
          drainLoop call consumer (n+1) s (buffer.drop (a+d)) := by
        simp only [drainLoop, extract_some hf, hempty, if_true]
      rw [hturn, ih (n+1) s (by omega)]
      simp only [consume, hempty, if_true]
      rfl
    · simp only [drainLoop, extract_some hf, hempty, Bool.false_eq_true, if_false, consume]
      cases handleFrame call consumer s (frameData (buffer.take a)) with
      | error finished => rfl
      | ok next => exact ih n next (by omega)

/-- A piece never takes the buffer over the limit. -/
theorem piece_within {buffer : Bytes} (unread : Bytes) (hw : Within call.frameLimit buffer.length) :
    Within call.frameLimit (buffer++unread.take (appendLength call buffer unread)).length := by
  intro bound hbound
  have hbuffer := hw bound hbound
  simp only [appendLength, Option.mem_def.mp hbound, length_append, length_take]
  omega

theorem no_room (buffer unread : Bytes) (hcount : appendLength call buffer unread = 0)
    (hunread : unread ≠ []) : ∀ size, buffer.length < size → ¬Within call.frameLimit size := by
  have hpos := length_pos_iff.mpr hunread
  intro size hlt hw
  cases hlimit : call.frameLimit with
  | none =>
    simp only [appendLength, hlimit] at hcount
    omega
  | some limit =>
    have hsize := hw limit hlimit
    simp only [appendLength, hlimit] at hcount
    omega

theorem fill_scan {n : ℕ} (s : Stream) (buffer unread : Bytes) (hn : unread.length < n)
    (hbuffer : findSseFrameBoundary buffer = none) (hw : Within call.frameLimit buffer.length) :
    fillLoop call consumer n s buffer unread =
      scanStream call consumer call.frameLimit s (buffer++unread) := by
  induction n generalizing s buffer unread with
  | zero => omega
  | succ n ih =>
    generalize hc : appendLength call buffer unread = count
    by_cases hfull : count = 0 ∧ unread ≠ []
    · simp only [fillLoop, hc, if_pos hfull]
      exact (scan_overfull sseBoundary _ (consume call consumer) (overlong call) s unread
        hbuffer (no_room call buffer unread (hc.trans hfull.1) hfull.2) hfull.2).symm
    have hpiece := piece_within call unread hw
    rw [hc] at hpiece
    have hdrain : drainFrames call consumer s (buffer++unread.take count) =
        scanStream call consumer call.frameLimit s (buffer++unread.take count) := by
      rw [drainFrames, drain_scan call consumer _ s (Nat.lt_succ_self _)]
      exact (scan_unlimited sseBoundary _ _ _ s hpiece).symm
    have hsplit : scanStream call consumer call.frameLimit s (buffer++unread) =
        scanStream call consumer call.frameLimit s
          ((buffer++unread.take count)++unread.drop count) := by
      rw [append_assoc, take_append_drop]
    simp only [fillLoop, hc, if_neg hfull, hdrain]
    rw [hsplit, scanStream, scanStream,
      scan_append sseBoundary _ _ _ s (buffer++unread.take count) (unread.drop count)]
    cases hr : scan sseBoundary call.frameLimit (consume call consumer) (overlong call) s
        (buffer++unread.take count) with
    | error finished => rfl
    | ok found =>
      obtain ⟨next,rest⟩ := found
      obtain ⟨hrest,hrw⟩ := scan_rest _ _ _ s hr
      by_cases hend : (unread.drop count).isEmpty = true
      · simp only [hend, if_true]
        rw [List.isEmpty_iff.mp hend, append_nil, scan_none _ _ _ next hrest, if_pos hrw]
      simp only [hend, Bool.false_eq_true, if_false]
      have hleft : unread.drop count ≠ [] := fun hnil => hend (List.isEmpty_iff.mpr hnil)
      have hcount : count ≠ 0 := by
        rintro rfl
        exact hfull ⟨rfl,by simpa using hleft⟩
      have hlength := length_pos_iff.mpr hleft
      rw [length_drop] at hlength
      exact ih next rest (unread.drop count) (by rw [length_drop]; omega) hrest hrw

/-- How a whole stream ends, given what a scan of its bytes gives. -/
def conclude : Except (Finished Attempt) (Stream × Bytes) → Finished Attempt
  | .error finished => finished
  | .ok (s, rest) => endOfStream call s rest

theorem process_scan (s : Stream) (buffer : Bytes) (chunks : List Bytes)
    (hbuffer : findSseFrameBoundary buffer = none) (hw : Within call.frameLimit buffer.length) :
    processEvents call consumer s buffer (chunks.map .chunk++[.endOfStream]) = some (conclude call
        (scanStream call consumer call.frameLimit s (buffer++chunks.flatten))) := by
  induction chunks generalizing s buffer with
  | nil =>
    simp only [map_nil, nil_append, flatten_nil, append_nil, processEvents]
    rw [scanStream, scan_none _ _ _ s hbuffer, if_pos hw]
    rfl
  | cons bytes chunks ih =>
    have hsplit := scan_append sseBoundary call.frameLimit (consume call consumer) (overlong call) s
      (buffer++bytes) chunks.flatten
    have hfill := fill_scan call consumer s buffer bytes (Nat.lt_succ_self _) hbuffer hw
    simp only [map_cons, cons_append, processEvents, readChunk, hfill, flatten_cons]
    rw [← append_assoc, scanStream, scanStream, hsplit]
    cases hr : scan sseBoundary call.frameLimit (consume call consumer) (overlong call) s
        (buffer++bytes) with
    | error finished => rfl
    | ok found =>
      obtain ⟨next,rest⟩ := found
      obtain ⟨hrest,hrw⟩ := scan_rest _ _ _ s hr
      exact ih next rest hrest hrw

/-- A stream of chunks and its end is one scan of the bytes. -/
theorem stream_scan (chunks : List Bytes) :
    processCompletionStreamWithFrameLimit call consumer (chunks.map .chunk++[.endOfStream]) =
      some (conclude call (scanStream call consumer call.frameLimit .initial chunks.flatten)) :=
  process_scan call consumer .initial [] chunks rfl (fun _ _ => Nat.zero_le _)

end Loops

end Maple.Streaming

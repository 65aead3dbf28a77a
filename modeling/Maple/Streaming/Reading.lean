import Maple.Streaming.Chunking

/-!
# What a completion stream comes to

The frames are read up to the first that is too long, ends the stream, is not JSON or
reports an error of the provider. Chunks, terminal and usage are those of the frames read.
-/

set_option autoImplicit false

namespace Maple.Streaming

open JsonText Frames Session.Entries

section Reading
variable {Attempt : Type} (call : Call Attempt)

def Done (frame : Frame UInt8) : Prop :=
  Within call.frameLimit frame.size ∧ frameData frame.body = doneMarker

/-- Data that is not JSON. -/
def Invalid (frame : Frame UInt8) : Prop :=
  Within call.frameLimit frame.size ∧ frameData frame.body ≠ [] ∧
    frameData frame.body ≠ doneMarker ∧ call.fromSlice (frameData frame.body) = none

def parsed (frame : Frame UInt8) : Option Json :=
  if (frameData frame.body).isEmpty then none else call.fromSlice (frameData frame.body)

def passes (frame : Frame UInt8) : Bool :=
  decide (Within call.frameLimit frame.size) &&
    ((frameData frame.body).isEmpty || (decide (frameData frame.body ≠ doneMarker) &&
      (call.fromSlice (frameData frame.body)).any
        (fun json => (upstreamStreamFailure call json).isNone)))

/-- The frames read before a stop, the frame of the stop, and the bytes after the frames. -/
def framesRead (bytes : Bytes) : List Json :=
  ((split sseBoundary bytes).1.takeWhile (passes call)).filterMap (parsed call)

def stopFrame (bytes : Bytes) : Option (Frame UInt8) :=
  ((split sseBoundary bytes).1.dropWhile (passes call)).head?

def unframed (bytes : Bytes) : Bytes := (split sseBoundary bytes).2

def advance (s : Stream) (json : Json) : Stream :=
  ⟨observe call.asI64 s.accumulator json,
    s.sent++[canonicalizeCompletionResponse json call.responseModelId]⟩

variable (s : Stream) {frame : Frame UInt8}

/-- With a consumer that stays, a frame that passes adds its JSON. -/
theorem consume_passes (h : passes call frame = true) :
    Within call.frameLimit frame.size ∧ consume call (fun _ => true) s frame.body =
        .ok ((parsed call frame).toList.foldl (advance call) s) := by
  simp only [passes, Bool.and_eq_true, Bool.or_eq_true, decide_eq_true_eq] at h
  obtain ⟨hw,hempty | ⟨hdone,hjson⟩⟩ := h
  · refine ⟨hw,?_⟩
    simp [consume, parsed, hempty]
  refine ⟨hw,?_⟩
  obtain ⟨json,hparse,hok⟩ := (Option.any_eq_true _ _).mp hjson
  rw [Option.isNone_iff_eq_none] at hok
  by_cases hempty : (frameData frame.body).isEmpty = true
  · simp [consume, parsed, hempty]
  · simp [consume, parsed, hempty, handleFrame, hdone, hparse, hok, advance]

/-- The frame of a stop is too long, the end marker, not JSON, or an error. -/
theorem stop_cases (h : passes call frame = false) :
    ¬Within call.frameLimit frame.size ∨ Done call frame ∨ Invalid call frame ∨
      ∃ json failure, Within call.frameLimit frame.size ∧ frameData frame.body ≠ [] ∧
        frameData frame.body ≠ doneMarker ∧ call.fromSlice (frameData frame.body) = some json ∧
        upstreamStreamFailure call json = some failure := by
  by_cases hw : Within call.frameLimit frame.size
  · have hempty : frameData frame.body ≠ [] := by
      intro hnil
      simp [passes, hw, hnil] at h
    by_cases hdone : frameData frame.body = doneMarker
    · exact .inr (.inl ⟨hw,hdone⟩)
    cases hparse : call.fromSlice (frameData frame.body) with
    | none => exact .inr (.inr (.inl ⟨hw,hempty,hdone,hparse⟩))
    | some json =>
      cases hfail : upstreamStreamFailure call json with
      | none => simp [passes, hw, hdone, hparse, hfail] at h
      | some failure => exact .inr (.inr (.inr ⟨json,failure,hw,hempty,hdone,rfl,hfail⟩))
  · exact .inl hw

theorem consume_done (h : Done call frame) :
    consume call (fun _ => true) s frame.body =
      .error (finishStreamProcessing s .providerDone (.completed call.attempt .providerDone)) := by
  simp [consume, handleFrame, h.2, doneMarker]

theorem consume_invalid (h : Invalid call frame) :
    consume call (fun _ => true) s frame.body =
      .error (fail call s .invalidData .invalidResponse) := by
  obtain ⟨-,hempty,hdone,hparse⟩ := h
  simp [consume, handleFrame, hempty, hdone, hparse]

variable {failure : AttemptFailure}

theorem consume_failure {json : Json}
    (hempty : frameData frame.body ≠ []) (hdone : frameData frame.body ≠ doneMarker)
    (hparse : call.fromSlice (frameData frame.body) = some json)
    (hfail : upstreamStreamFailure call json = some failure) :
    consume call (fun _ => true) s frame.body =
      .error (finishStreamProcessing s .providerError (.failed call.attempt failure)) := by
  simp [consume, handleFrame, hempty, hdone, hparse, hfail]

/-- Frames that pass are read; what follows them is looked at in the state they leave. -/
theorem walk_reads (frames : List (Frame UInt8)) (rest : Bytes) :
    walk call.frameLimit (consume call (fun _ => true)) (overlong call) s frames rest =
      walk call.frameLimit (consume call (fun _ => true)) (overlong call)
        (((frames.takeWhile (passes call)).filterMap (parsed call)).foldl (advance call) s)
        (frames.dropWhile (passes call)) rest := by
  induction frames generalizing s with
  | nil => rfl
  | cons frame frames ih =>
    by_cases hp : passes call frame = true
    · obtain ⟨hw,hc⟩ := consume_passes call s hp
      rw [List.takeWhile_cons_of_pos hp, List.dropWhile_cons_of_pos hp, walk, if_pos hw, hc]
      simp only [ih]
      cases hj : parsed call frame <;> simp [hj]
    · rw [List.takeWhile_cons_of_neg hp, List.dropWhile_cons_of_neg hp]
      rfl

def readState (bytes : Bytes) : Stream := (framesRead call bytes).foldl (advance call) .initial

theorem readState_sent (bytes : Bytes) : (readState call bytes).sent = (framesRead call bytes).map
    (fun json => canonicalizeCompletionResponse json call.responseModelId) := by
  have hsent (frames : List Json) (s : Stream) : (frames.foldl (advance call) s).sent =
      s.sent++frames.map
        (fun json => canonicalizeCompletionResponse json call.responseModelId) := by
    induction frames generalizing s with
    | nil => simp
    | cons json frames ih => simp [ih, advance]
  exact hsent (framesRead call bytes) .initial

theorem readState_accumulated (bytes : Bytes) :
    Accumulated call.asI64 (readState call bytes).accumulator (framesRead call bytes) := by
  have hall (frames before : List Json) (s : Stream)
      (hs : Accumulated call.asI64 s.accumulator before) :
      Accumulated call.asI64 (frames.foldl (advance call) s).accumulator (before++frames) := by
    induction frames generalizing before s with
    | nil => simpa using hs
    | cons json frames ih =>
      have hnext := ih (before++[json]) (advance call s json)
        (observe_accumulated call.asI64 json hs)
      simpa using hnext
  exact hall (framesRead call bytes) [] .initial (accumulated_initial call.asI64)

variable {bytes : Bytes}

theorem stop_not_passed (h : stopFrame call bytes = some frame) : passes call frame = false := by
  have hhead := List.head?_dropWhile_not (passes call) (split sseBoundary bytes).1
  rw [stopFrame] at h
  rw [h] at hhead
  simpa using hhead

theorem scan_stopped (h : stopFrame call bytes = some frame)
    (hw : Within call.frameLimit frame.size) {finished : Finished Attempt}
    (hc : consume call (fun _ => true) (readState call bytes) frame.body = .error finished) :
    scanStream call (fun _ => true) call.frameLimit .initial bytes = .error finished := by
  obtain ⟨tail,htail⟩ := List.head?_eq_some_iff.mp h
  have hc' := hc
  simp only [readState, framesRead] at hc'
  rw [scanStream, scan, walk_reads, htail, walk, if_pos hw, hc']

theorem scan_too_long (h : stopFrame call bytes = some frame)
    (hw : ¬Within call.frameLimit frame.size) :
    scanStream call (fun _ => true) call.frameLimit .initial bytes =
      .error (overlong call (readState call bytes)) := by
  obtain ⟨tail,htail⟩ := List.head?_eq_some_iff.mp h
  rw [scanStream, scan, walk_reads, htail, walk, if_neg hw]
  rfl

theorem scan_ended (h : stopFrame call bytes = none) :
    scanStream call (fun _ => true) call.frameLimit .initial bytes =
      if Within call.frameLimit (unframed bytes).length then
        .ok (readState call bytes, unframed bytes)
      else .error (overlong call (readState call bytes)) := by
  rw [scanStream, scan, walk_reads, List.head?_eq_none_iff.mp h, walk]
  rfl

/-- The result of a whole stream: of the frames read it has the usage, and its terminal is
that of the stop. -/
def concluded (bytes : Bytes) (finalization : StreamUsageFinalization)
    (terminal : AttemptTerminal Attempt) : Finished Attempt :=
  ⟨(framesRead call bytes).map
      (fun json => canonicalizeCompletionResponse json call.responseModelId),
    ⟨terminal, finalization,
      if finalization = .providerDone ∨
          (framesRead call bytes).any hasTerminalStreamSignal = true then
        totalUsage call.asI64 (framesRead call bytes)
      else none⟩⟩

theorem finish_concluded (bytes : Bytes) (finalization : StreamUsageFinalization)
    (terminal : AttemptTerminal Attempt) :
    finishStreamProcessing (readState call bytes) finalization terminal =
      concluded call bytes finalization terminal := by
  rw [finishStreamProcessing, readState_sent,
    takeFinalUsage_total call.asI64 finalization (readState_accumulated call bytes), concluded]

inductive Ending (bytes : Bytes) : StreamUsageFinalization → AttemptTerminal Attempt → Prop
  | tooLong (frame : Frame UInt8) : stopFrame call bytes = some frame →
      ¬Within call.frameLimit frame.size →
      Ending bytes .invalidData (.failed call.attempt (.new .invalidResponse))
  | restTooLong : stopFrame call bytes = none →
      ¬Within call.frameLimit (unframed bytes).length →
      Ending bytes .invalidData (.failed call.attempt (.new .invalidResponse))
  | invalid (frame : Frame UInt8) : stopFrame call bytes = some frame → Invalid call frame →
      Ending bytes .invalidData (.failed call.attempt (.new .invalidResponse))
  | done (frame : Frame UInt8) : stopFrame call bytes = some frame → Done call frame →
      Ending bytes .providerDone (.completed call.attempt .providerDone)
  | failure (frame : Frame UInt8) (json : Json) (failure : AttemptFailure) :
      stopFrame call bytes = some frame → Within call.frameLimit frame.size →
      frameData frame.body ≠ [] → frameData frame.body ≠ doneMarker →
      call.fromSlice (frameData frame.body) = some json →
      upstreamStreamFailure call json = some failure →
      Ending bytes .providerError (.failed call.attempt failure)
  | ended : stopFrame call bytes = none → Within call.frameLimit (unframed bytes).length →
      Ending bytes .endOfStream (streamEndTerminal call
        ((framesRead call bytes).any hasTerminalStreamSignal)
        ((unframed bytes).any (fun byte => !isAsciiWhitespace byte)))

theorem stream_ending (chunks : List Bytes) : ∃ finalization terminal,
    processCompletionStreamWithFrameLimit call (fun _ => true) (chunks.map .chunk++[.endOfStream]) =
        some (concluded call chunks.flatten finalization terminal) ∧
    Ending call chunks.flatten finalization terminal := by
  rw [stream_scan]
  cases hstop : stopFrame call chunks.flatten with
  | none =>
    by_cases hw : Within call.frameLimit (unframed chunks.flatten).length
    · refine ⟨_,_,?_,.ended hstop hw⟩
      rw [scan_ended call hstop, if_pos hw, conclude, endOfStream,
        (readState_accumulated call chunks.flatten).signal, finish_concluded]
    · refine ⟨_,_,?_,.restTooLong hstop hw⟩
      rw [scan_ended call hstop, if_neg hw, conclude, overlong, fail, finish_concluded]
  | some frame =>
    obtain hw | hdone | hinvalid | ⟨json,failure,hw,hempty,hdone,hparse,hfail⟩ :=
      stop_cases call (stop_not_passed call hstop)
    · refine ⟨_,_,?_,.tooLong frame hstop hw⟩
      rw [scan_too_long call hstop hw, conclude, overlong, fail, finish_concluded]
    · refine ⟨_,_,?_,.done frame hstop hdone⟩
      rw [scan_stopped call hstop hdone.1 (consume_done call _ hdone), conclude, finish_concluded]
    · refine ⟨_,_,?_,.invalid frame hstop hinvalid⟩
      rw [scan_stopped call hstop hinvalid.1 (consume_invalid call _ hinvalid),
        conclude, fail, finish_concluded]
    · refine ⟨_,_,?_,.failure frame json failure hstop hw hempty hdone hparse hfail⟩
      rw [scan_stopped call hstop hw (consume_failure call _ hempty hdone hparse hfail), conclude,
        finish_concluded]

theorem failure_kind {json : Json}
    (h : upstreamStreamFailure call json = some failure) : failure.kind = .upstreamStreamError := by
  obtain ⟨error,-,rfl⟩ := Option.map_eq_some_iff.mp h
  rfl

def Rejected (bytes : Bytes) : Prop :=
  (∃ frame, stopFrame call bytes = some frame ∧
    (¬Within call.frameLimit frame.size ∨ Invalid call frame)) ∨
  (stopFrame call bytes = none ∧ ¬Within call.frameLimit (unframed bytes).length)

def Completes (bytes : Bytes) : Prop :=
  (∃ frame, stopFrame call bytes = some frame ∧ Done call frame) ∨
  (stopFrame call bytes = none ∧ Within call.frameLimit (unframed bytes).length ∧
    call.requireProviderDone = false ∧
    (framesRead call bytes).any hasTerminalStreamSignal = true ∧
    (unframed bytes).all isAsciiWhitespace = true)

variable {finalization : StreamUsageFinalization} {terminal : AttemptTerminal Attempt}

theorem ending_rejected (h : Ending call bytes finalization terminal) :
    (∃ failure, terminal = .failed call.attempt failure ∧ failure.kind = .invalidResponse) ↔
      Rejected call bytes := by
  cases h with
  | tooLong frame hstop hw => exact ⟨fun _ => .inl ⟨frame,hstop,.inl hw⟩,fun _ => ⟨_,rfl,rfl⟩⟩
  | restTooLong hstop hw => exact ⟨fun _ => .inr ⟨hstop,hw⟩,fun _ => ⟨_,rfl,rfl⟩⟩
  | invalid frame hstop hinvalid =>
    exact ⟨fun _ => .inl ⟨frame,hstop,.inr hinvalid⟩,fun _ => ⟨_,rfl,rfl⟩⟩
  | done frame hstop hdone =>
    constructor
    · rintro ⟨failure,hterminal,-⟩
      cases hterminal
    rintro (⟨other,hother,hcase⟩ | ⟨hnone,-⟩)
    · rw [hstop] at hother
      cases hother
      obtain hw | hinvalid := hcase
      · exact absurd hdone.1 hw
      · exact absurd hdone.2 hinvalid.2.2.1
    · rw [hstop] at hnone
      cases hnone
  | failure frame json failure hstop hw hempty hdone hparse hfail =>
    constructor
    · rintro ⟨other,hterminal,hkind⟩
      cases hterminal
      rw [failure_kind call hfail] at hkind
      cases hkind
    rintro (⟨other,hother,hcase⟩ | ⟨hnone,-⟩)
    · rw [hstop] at hother
      cases hother
      obtain hlong | hinvalid := hcase
      · exact absurd hw hlong
      · rw [hinvalid.2.2.2] at hparse
        cases hparse
    · rw [hstop] at hnone
      cases hnone
  | ended hstop hw =>
    constructor
    · rintro ⟨failure,hterminal,hkind⟩
      unfold streamEndTerminal at hterminal
      split_ifs at hterminal
      cases hterminal
      cases hkind
    · rintro (⟨other,hother,-⟩ | ⟨-,hlong⟩)
      · rw [hstop] at hother
        cases hother
      · exact absurd hw hlong

theorem streamEndTerminal_completed (signal incomplete : Bool) :
    (∃ evidence, streamEndTerminal call signal incomplete = .completed call.attempt evidence) ↔
      call.requireProviderDone = false ∧ signal = true ∧ incomplete = false := by
  unfold streamEndTerminal
  cases call.requireProviderDone <;> cases signal <;> cases incomplete <;> simp

theorem ending_completed (h : Ending call bytes finalization terminal) :
    (∃ evidence, terminal = .completed call.attempt evidence) ↔ Completes call bytes := by
  have hother (frame : Frame UInt8) (hstop : stopFrame call bytes = some frame)
      (hnot : ¬Done call frame) : ¬Completes call bytes := by
    rintro (⟨other,hother,hdone⟩ | ⟨hnone,-⟩)
    · rw [hstop] at hother
      cases hother
      exact hnot hdone
    · rw [hstop] at hnone
      cases hnone
  cases h with
  | tooLong frame hstop hw => simp [hother frame hstop (fun hdone => hw hdone.1)]
  | restTooLong hstop hw =>
    have hnot : ¬Completes call bytes := by
      rintro (⟨other,hfound,-⟩ | ⟨-,hin,-⟩)
      · rw [hstop] at hfound
        cases hfound
      · exact hw hin
    simp [hnot]
  | invalid frame hstop hinvalid =>
    simp [hother frame hstop (fun hdone => hinvalid.2.2.1 hdone.2)]
  | done frame hstop hdone => exact ⟨fun _ => .inl ⟨frame,hstop,hdone⟩,fun _ => ⟨_,rfl⟩⟩
  | failure frame json failure hstop hw hempty hdone hparse hfail =>
    simp [hother frame hstop (fun hd => hdone hd.2)]
  | ended hstop hw =>
    rw [streamEndTerminal_completed]
    simp [Completes, hstop, hw]

theorem ending_done (h : Ending call bytes finalization terminal) :
    finalization = .providerDone ↔
      ∃ frame, stopFrame call bytes = some frame ∧ Done call frame := by
  cases h with
  | tooLong frame hstop hw =>
    simp only [hstop, Option.some.injEq, exists_eq_left', reduceCtorEq, false_iff]
    exact fun hdone => hw hdone.1
  | restTooLong hstop hw => simp [hstop]
  | invalid frame hstop hinvalid =>
    simp only [hstop, Option.some.injEq, exists_eq_left', reduceCtorEq, false_iff]
    exact fun hdone => hinvalid.2.2.1 hdone.2
  | done frame hstop hdone => exact ⟨fun _ => ⟨frame,hstop,hdone⟩,fun _ => rfl⟩
  | failure frame json failure hstop hw hempty hdone hparse hfail =>
    simp only [hstop, Option.some.injEq, exists_eq_left', reduceCtorEq, false_iff]
    exact fun hd => hdone hd.2
  | ended hstop hw => simp [hstop]

/-- However the bytes are cut, a stream sends the same chunks and has the same result. It is
rejected at a frame or a rest over the limit and at data that is not JSON, completes at the end
marker or after a finish signal, and its usage is the reported totals if any is positive. -/
theorem stream_independent_of_chunks (chunks : List Bytes) :
    ∃ finished, processCompletionStreamWithFrameLimit call (fun _ => true)
        (chunks.map .chunk++[.endOfStream]) = some finished ∧
      (∀ chunks' : List Bytes, chunks'.flatten = chunks.flatten →
        processCompletionStreamWithFrameLimit call (fun _ => true)
          (chunks'.map .chunk++[.endOfStream]) = some finished) ∧
      ((∃ failure, finished.result.terminal = .failed call.attempt failure ∧
        failure.kind = .invalidResponse) ↔ Rejected call chunks.flatten) ∧
      ((∃ evidence, finished.result.terminal = .completed call.attempt evidence) ↔
        Completes call chunks.flatten) ∧
      (¬((∃ frame, stopFrame call chunks.flatten = some frame ∧ Done call frame) ∨
          (framesRead call chunks.flatten).any hasTerminalStreamSignal = true) →
        finished.result.usage = none) ∧
      ((∃ frame, stopFrame call chunks.flatten = some frame ∧ Done call frame) ∨
          (framesRead call chunks.flatten).any hasTerminalStreamSignal = true →
        finished.result.usage = totalUsage call.asI64 (framesRead call chunks.flatten)) := by
  obtain ⟨finalization,terminal,hrun,hending⟩ := stream_ending call chunks
  have hdone := ending_done call hending
  refine ⟨_,hrun,?_,ending_rejected call hending,ending_completed call hending,?_,?_⟩
  · intro chunks' hsame
    rw [← hrun, stream_scan, stream_scan, hsame]
  · intro hnot
    rw [← hdone] at hnot
    exact if_neg hnot
  · intro hseen
    rw [← hdone] at hseen
    exact if_pos hseen

end Reading

def sampleText : Bytes :=
  "\x7b\"choices\":[],\"usage\":\x7b\"prompt_tokens\":3\x7d\x7d".toUTF8.data.toList

/-- A library that knows one frame of data: no choices and a prompt total of three. -/
def sampleCall : Call Unit where
  fromSlice := fun data => if data = sampleText then
    some (.obj [("choices", .arr []), ("usage", .obj [("prompt_tokens", .number "3")])]) else none
  asI64 := fun digits => if digits = "3" then some 3 else none
  trim := id
  attempt := ()
  responseModelId := "m"
  requireProviderDone := false
  frameLimit := some 100

def sampleFrame (data : Bytes) : Bytes := [100, 97, 116, 97, 58]++data++[10, 10]

theorem stream_independent_of_chunks_sample :
    ∃ finished, processCompletionStreamWithFrameLimit sampleCall (fun _ => true)
        ([.chunk (sampleFrame sampleText), .endOfStream]) = some finished ∧
      processCompletionStreamWithFrameLimit sampleCall (fun _ => true)
        ([.chunk [100, 97, 116], .chunk ([97, 58]++sampleText++[10]), .chunk [10],
          .endOfStream]) = some finished ∧
      finished.result.usage = some ⟨3, 0, none⟩ := by
  obtain ⟨finished,hrun,hcut,-,-,-,husage⟩ :=
    stream_independent_of_chunks sampleCall [sampleFrame sampleText]
  refine ⟨finished,hrun,hcut [[100, 97, 116], [97, 58]++sampleText++[10], [10]]
    (by simp [sampleFrame]),?_⟩
  rw [husage (.inr (by decide +kernel))]
  decide +kernel

/-- Data that is not JSON is an invalid response though no frame is over the limit, and a
stream that is done without any report has no usage. -/
theorem rejected_within_limit :
    ((processCompletionStreamWithFrameLimit sampleCall (fun _ => true)
        [.chunk (sampleFrame [120]), .endOfStream]).map (fun finished => finished.result) =
      some ⟨.failed () (.new .invalidResponse), .invalidData, none⟩ ∧
      (split sseBoundary (sampleFrame [120])).1.all (fun frame => frame.size ≤ 100) = true ∧
      (split sseBoundary (sampleFrame [120])).2 = []) ∧
    (processCompletionStreamWithFrameLimit sampleCall (fun _ => true)
        [.chunk (sampleFrame doneMarker), .endOfStream]).map (fun finished => finished.result) =
      some ⟨.completed () .providerDone, .providerDone, none⟩ := by
  decide +kernel

end Maple.Streaming

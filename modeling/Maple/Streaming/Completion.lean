import Maple.Streaming.Sse
import Maple.Streaming.Usage

/-!
# Completion streams

Network chunks are appended to a buffer in pieces that keep it within the frame limit, and
after each piece the complete frames are taken out. A frame ends the stream, fails it, or
is passed on to the consumer.
-/

set_option autoImplicit false

namespace Maple.Streaming

open JsonText Frames Session.Entries

inductive AttemptFailureKind where
  | transport
  | invalidResponse
  | upstreamStreamError
  | streamTimeout
  | unexpectedEof
  | consumerDropped
  deriving DecidableEq, Repr

inductive AttemptStage where
  | beforeSend
  | awaitingResponse
  | responseBody
  | stream
  deriving DecidableEq, Repr

inductive ReplaySafety where
  | provenPreAcceptance
  | notProvenPreAcceptance
  deriving DecidableEq, Repr

structure AttemptFailure where
  kind : AttemptFailureKind
  stage : AttemptStage
  replaySafety : ReplaySafety
  upstreamCode : Option String
  deriving DecidableEq, Repr

def AttemptFailure.new (kind : AttemptFailureKind) : AttemptFailure :=
  ⟨kind, .stream, .notProvenPreAcceptance, none⟩

inductive CompletionEvidence where
  | nonStreamingResponse
  | providerDone
  | finishSignalThenEof
  deriving DecidableEq, Repr

inductive AttemptTerminal (Attempt : Type) where
  | completed (attempt : Attempt) (evidence : CompletionEvidence)
  | failed (attempt : Attempt) (failure : AttemptFailure)
  deriving DecidableEq, Repr

structure StreamProcessResult (Attempt : Type) where
  terminal : AttemptTerminal Attempt
  finalization : StreamUsageFinalization
  usage : Option CompletionUsage
  deriving DecidableEq, Repr

/-- What a call is given: the parsers of the libraries, the attempt, the public model id,
whether the provider's end marker is required, and the frame limit. -/
structure Call (Attempt : Type) where
  fromSlice : Bytes → Option Json
  asI64 : String → Option ℤ
  trim : String → String
  attempt : Attempt
  responseModelId : String
  requireProviderDone : Bool
  frameLimit : Option ℕ

section Canonical

def removeKey (fields : List (String × Json)) (key : String) : List (String × Json) :=
  fields.filter (fun field => field.1 ≠ key)

/-- Objects are kept in the order of their keys. -/
def insertKey (key : String) (value : Json) : List (String × Json) → List (String × Json)
  | [] => [(key, value)]
  | field::fields =>
    if field.1 = key then (key, value)::fields
    else if key < field.1 then (key, value)::field::fields
    else field::insertKey key value fields

def canonicalizeResponseModel (json : Json) (responseModelId : String) : Json :=
  match json.get "model" with
  | some (.str _) => json.set "model" (.str responseModelId)
  | _ => json

def canonicalizePart (choice : Json) (part : String) : Json :=
  match choice.get part with
  | some (.obj fields) =>
    match (Json.obj fields).get "reasoning_content" with
    | none => choice
    | some legacy =>
      let object := removeKey fields "reasoning_content"
      if !isNull legacy && ((Json.obj object).get "reasoning").all isNull then
        choice.set part (.obj (insertKey "reasoning" legacy object))
      else choice.set part (.obj object)
  | _ => choice

def canonicalizeReasoningField (json : Json) : Json :=
  match json.get "choices" with
  | some (.arr choices) =>
    json.set "choices" (.arr (choices.map (["message", "delta"].foldl canonicalizePart)))
  | _ => json

def canonicalizeCompletionResponse (json : Json) (responseModelId : String) : Json :=
  canonicalizeReasoningField (canonicalizeResponseModel json responseModelId)

end Canonical

def isSafeIdentifierChar (character : Char) : Bool :=
  character.isAlphanum || character ∈ ['-', '_', '.', ':']

section Stream
variable {Attempt : Type} (call : Call Attempt)

def boundedUpstreamErrorCode (error : Json) : Option String :=
  let code :=
    match error.get "code" with
    | some (.str code) => some code
    | some (.number code) => some code
    | _ => none
  (code.map call.trim).filter (fun code =>
    !code.isEmpty && decide (code.utf8ByteSize ≤ 64) && code.toList.all isSafeIdentifierChar)

def upstreamStreamFailure (json : Json) : Option AttemptFailure :=
  ((json.get "error").filter (fun error => !isNull error)).map (fun error =>
    { AttemptFailure.new .upstreamStreamError with
      upstreamCode := boundedUpstreamErrorCode call error })

structure Stream where
  accumulator : StreamUsageAccumulator
  sent : List Json

def Stream.initial : Stream := ⟨.initial, []⟩

structure Finished (Attempt : Type) where
  sent : List Json
  result : StreamProcessResult Attempt

def finishStreamProcessing (s : Stream) (finalization : StreamUsageFinalization)
    (terminal : AttemptTerminal Attempt) : Finished Attempt :=
  ⟨s.sent, ⟨terminal, finalization, takeFinalUsage s.accumulator finalization⟩⟩

def fail (s : Stream) (finalization : StreamUsageFinalization) (kind : AttemptFailureKind) :
    Finished Attempt :=
  finishStreamProcessing s finalization (.failed call.attempt (.new kind))

def streamEndTerminal (sawFinishSignal hasIncompleteFrame : Bool) : AttemptTerminal Attempt :=
  if !call.requireProviderDone && sawFinishSignal && !hasIncompleteFrame then
    .completed call.attempt .finishSignalThenEof
  else .failed call.attempt (.new .unexpectedEof)

def doneMarker : Bytes := [91, 68, 79, 78, 69, 93]

def handleFrame (consumer : ℕ → Bool) (s : Stream) (data : Bytes) :
    Except (Finished Attempt) Stream :=
  if data = doneMarker then
    .error (finishStreamProcessing s .providerDone (.completed call.attempt .providerDone))
  else
    match call.fromSlice data with
    | none => .error (fail call s .invalidData .invalidResponse)
    | some json =>
      match upstreamStreamFailure call json with
      | some failure =>
        .error (finishStreamProcessing s .providerError (.failed call.attempt failure))
      | none =>
        let accumulator := observe call.asI64 s.accumulator json
        if consumer s.sent.length then
          .ok ⟨accumulator, s.sent++[canonicalizeCompletionResponse json call.responseModelId]⟩
        else .error (fail call ⟨accumulator, s.sent⟩ .consumerDropped .consumerDropped)

def drainLoop (consumer : ℕ → Bool) : ℕ → Stream → Bytes →
    Except (Finished Attempt) (Stream × Bytes)
  | 0, s, buffer => .ok (s, buffer)
  | n+1, s, buffer =>
    match extractSseFrame buffer with
    | (none, rest) => .ok (s, rest)
    | (some data, rest) =>
      match handleFrame call consumer s data with
      | .error finished => .error finished
      | .ok next => drainLoop consumer n next rest

/-- All complete frames of the buffer. -/
def drainFrames (consumer : ℕ → Bool) (s : Stream) (buffer : Bytes) :
    Except (Finished Attempt) (Stream × Bytes) :=
  drainLoop call consumer (buffer.length+1) s buffer

def appendLength (buffer unread : Bytes) : ℕ :=
  match call.frameLimit with
  | none => unread.length
  | some limit => min (limit-buffer.length) unread.length

def fillLoop (consumer : ℕ → Bool) : ℕ → Stream → Bytes → Bytes →
    Except (Finished Attempt) (Stream × Bytes)
  | 0, s, buffer, _ => .ok (s, buffer)
  | n+1, s, buffer, unread =>
    let count := appendLength call buffer unread
    if count = 0 ∧ unread ≠ [] then .error (fail call s .invalidData .invalidResponse)
    else
      match drainFrames call consumer s (buffer++unread.take count) with
      | .error finished => .error finished
      | .ok (next, rest) =>
        if (unread.drop count).isEmpty then .ok (next, rest)
        else fillLoop consumer n next rest (unread.drop count)

def readChunk (consumer : ℕ → Bool) (s : Stream) (buffer bytes : Bytes) :
    Except (Finished Attempt) (Stream × Bytes) :=
  fillLoop call consumer (bytes.length+1) s buffer bytes

inductive StreamEvent where
  | chunk (bytes : Bytes)
  | transportError
  | endOfStream
  | timeout
  | consumerDropped

def endOfStream (s : Stream) (buffer : Bytes) : Finished Attempt :=
  let hasIncompleteFrame := buffer.any (fun byte => !isAsciiWhitespace byte)
  finishStreamProcessing s .endOfStream
    (streamEndTerminal call s.accumulator.sawTerminalSignal hasIncompleteFrame)

def processEvents (consumer : ℕ → Bool) : Stream → Bytes → List StreamEvent →
    Option (Finished Attempt)
  | _, _, [] => none
  | s, buffer, event::events =>
    match event with
    | .chunk bytes =>
      match readChunk call consumer s buffer bytes with
      | .error finished => some finished
      | .ok (next, rest) => processEvents consumer next rest events
    | .transportError => some (fail call s .transportError .transport)
    | .endOfStream => some (endOfStream call s buffer)
    | .timeout => some (fail call s .timeout .streamTimeout)
    | .consumerDropped => some (fail call s .consumerDropped .consumerDropped)

def processCompletionStreamWithFrameLimit (consumer : ℕ → Bool) (events : List StreamEvent) :
    Option (Finished Attempt) :=
  processEvents call consumer .initial [] events

end Stream

end Maple.Streaming

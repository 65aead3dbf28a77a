import Maple.Lib.Feed
import Maple.Transport.Framing

/-!
# The client's incremental response decoder

The decoder keeps a partly read length prefix, a partly read ciphertext, the
opener's sequence and a withheld terminal record. A carrier chunk is consumed
slice by slice, as the client does; the same work done byte by byte is an
incremental machine, and the two agree on every chunk.
-/

set_option autoImplicit false

namespace Maple.Transport.Decoder
open BigEndian Feed Crypto Framing

inductive ResponseEvent where
  | start (status : ℕ) (headers : List LogicalHeader)
  | chunk (bytes : Bytes)
  | finish
  | error (code : String)
  deriving DecidableEq, Repr

def ResponseEvent.isTerminal : ResponseEvent → Bool
  | .finish => true
  | .error _ => true
  | _ => false

inductive DecodeState where
  | awaitingStart
  | opened
  | pendingTerminal (event : ResponseEvent)
  | finished
  deriving DecidableEq, Repr

def DecodeState.live : DecodeState → Bool
  | .awaitingStart => true
  | .opened => true
  | _ => false

structure ResponseDecoder where
  opener : ResponseOpener
  state : DecodeState
  lengthPrefix : Bytes
  expectedCiphertextBytes : Option ℕ
  ciphertext : Bytes

def ResponseDecoder.new (opener : ResponseOpener) : ResponseDecoder :=
  ⟨opener, .awaitingStart, [], none, []⟩

variable (P : Primitives) (L : Libraries)

def clientValidateHeader (header : LogicalHeader) : Except TransportV2Error Unit :=
  match L.http.headerName header.name with
  | none => .error .invalidRequest
  | some parsed =>
    if parsed ≠ header.name ∨ isGatewayControlledHeader parsed then .error .invalidRequest
    else if L.http.headerValue header.value then .ok () else .error .invalidRequest

def clientValidateHeaders : List LogicalHeader → Except TransportV2Error Unit
  | [] => .ok ()
  | header::rest =>
    match clientValidateHeader L header with
    | .error e => .error e
    | .ok () => clientValidateHeaders rest

def decodeStart (payload : Bytes) : Except TransportV2Error ResponseEvent :=
  if payload.length > maxResponseMetadataBytes then .error .invalidRecord
  else match L.start.fromSlice payload with
    | none => .error .invalidRecord
    | some start =>
      if ¬(200 ≤ start.status ∧ start.status ≤ 599) ∨
          start.headers.length > maxResponseHeaderCount then .error .invalidRecord
      else match clientValidateHeaders L start.headers with
        | .error e => .error e
        | .ok () => .ok (.start start.status start.headers)

def decodeError (payload : Bytes) : Except TransportV2Error ResponseEvent :=
  if payload.length > maxResponseMetadataBytes then .error .invalidRecord
  else match L.failure.fromSlice payload with
    | none => .error .invalidRecord
    | some failure =>
      if failure.code.isEmpty ∨ failure.code.utf8ByteSize > maxResponseErrorCodeBytes ∨
          ¬failure.code.toList.all isErrorCodeChar then .error .invalidRecord
      else .ok (.error failure.code)

def decodePlaintextRecord : Bytes → Except TransportV2Error ResponseEvent
  | [] => .error .invalidRecord
  | tag::payload =>
    if tag = startTag then decodeStart L payload
    else if tag = chunkTag ∧ payload.length ≤ maxResponseChunkBytes then .ok (.chunk payload)
    else if tag = endTag ∧ payload.isEmpty then .ok .finish
    else if tag = errorTag then decodeError L payload
    else .error .invalidRecord

def admits : DecodeState → ResponseEvent → Option DecodeState
  | .awaitingStart, .start _ _ => some .opened
  | .opened, .chunk _ => some .opened
  | .opened, .finish => some .opened
  | .opened, .error _ => some .opened
  | _, _ => none

def ResponseDecoder.decodeRecord (d : ResponseDecoder) (ciphertext : Bytes) :
    Except TransportV2Error (ResponseDecoder × ResponseEvent) :=
  match d.opener.openNext P ciphertext with
  | .error e => .error e
  | .ok (plaintext,opener) =>
    match decodePlaintextRecord L plaintext with
    | .error e => .error e
    | .ok event =>
      match admits d.state event with
      | none => .error .invalidSequence
      | some state => .ok ({ d with opener := opener, state := state }, event)

def ResponseDecoder.readPrefix (d : ResponseDecoder) (input : Bytes) :
    Except TransportV2Error (ResponseDecoder × Bytes) :=
  match d.expectedCiphertextBytes with
  | some _ => .ok (d,input)
  | none =>
    let take := min (ciphertextLengthBytes-d.lengthPrefix.length) input.length
    let lengthPrefix := d.lengthPrefix ++ input.take take
    if lengthPrefix.length < ciphertextLengthBytes then
      .ok ({ d with lengthPrefix := lengthPrefix }, input.drop take)
    else if ¬(recordTagBytes ≤ ofBytes lengthPrefix ∧
        ofBytes lengthPrefix ≤ maxResponseRecordCiphertextBytes) then .error .invalidFrame
    else .ok ({ d with
      lengthPrefix := lengthPrefix
      expectedCiphertextBytes := some (ofBytes lengthPrefix) }, input.drop take)

def ResponseDecoder.completeRecord (d : ResponseDecoder) (ciphertext rest : Bytes) :
    Except TransportV2Error (ResponseDecoder × Bytes × List ResponseEvent) :=
  match ({ d with ciphertext := [], expectedCiphertextBytes := none, lengthPrefix := [] } :
      ResponseDecoder).decodeRecord P L ciphertext with
  | .error e => .error e
  | .ok (d,event) =>
    if event.isTerminal then
      if rest.isEmpty then .ok ({ d with state := .pendingTerminal event }, rest, [])
      else .error .postTerminalData
    else .ok (d,rest,[event])

/-- One turn of the loop in `push`. -/
def ResponseDecoder.pushStep (d : ResponseDecoder) (input : Bytes) :
    Except TransportV2Error (ResponseDecoder × Bytes × List ResponseEvent) :=
  match d.readPrefix input with
  | .error e => .error e
  | .ok (d,input) =>
    match d.expectedCiphertextBytes with
    | none => .ok (d,input,[])
    | some expected =>
      let take := min (expected-d.ciphertext.length) input.length
      let ciphertext := d.ciphertext ++ input.take take
      if ciphertext.length < expected then
        .ok ({ d with ciphertext := ciphertext }, input.drop take, [])
      else d.completeRecord P L ciphertext (input.drop take)

/-- The loop runs until its input is empty; `none` would be a loop that was
still running after as many turns as there were bytes. -/
def ResponseDecoder.pushLoop : ℕ → ResponseDecoder → Bytes → List ResponseEvent →
    Option (Except TransportV2Error (ResponseDecoder × List ResponseEvent))
  | _, d, [], events => some (.ok (d,events))
  | 0, _, _::_, _ => none
  | fuel+1, d, b::input, events =>
    match d.pushStep P L (b::input) with
    | .error e => some (.error e)
    | .ok (d,rest,new) => ResponseDecoder.pushLoop fuel d rest (events++new)

def ResponseDecoder.push (d : ResponseDecoder) (input : Bytes) :
    Option (Except TransportV2Error (ResponseDecoder × List ResponseEvent)) :=
  match d.state with
  | .finished => some (.error .postTerminalData)
  | .pendingTerminal _ =>
    if input.isEmpty then some (.ok (d,[])) else some (.error .postTerminalData)
  | _ => d.pushLoop P L input.length input []

def ResponseDecoder.finish (d : ResponseDecoder) : Except TransportV2Error ResponseEvent :=
  if d.lengthPrefix ≠ [] ∨ d.expectedCiphertextBytes.isSome ∨ d.ciphertext ≠ [] then
    .error .truncatedResponse
  else match d.state with
    | .pendingTerminal event => .ok event
    | .awaitingStart => .error .truncatedResponse
    | .opened => .error .truncatedResponse
    | .finished => .error .postTerminalData

/-- The client's loop over the carrier: the events it yields and the error it
stops with, if any. A carrier item that is an error is a failed HTTP read. -/
def receive : ResponseDecoder → List (Except Unit Bytes) →
    Option (List ResponseEvent × Option TransportV2Error)
  | d, [] =>
    match d.finish with
    | .error e => some ([],some e)
    | .ok event => some ([event],none)
  | _, .error ()::_ => some ([],some .http)
  | d, .ok chunk::chunks =>
    match d.push P L chunk with
    | none => none
    | some (.error e) => some ([],some e)
    | some (.ok (d,events)) =>
      (receive d chunks).map (fun out => (events++out.1,out.2))

end Maple.Transport.Decoder

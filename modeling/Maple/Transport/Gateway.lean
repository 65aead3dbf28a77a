import Maple.Lib.Pieces
import Maple.Transport.Framing

/-!
# The enclave's response stream

`encryptedResponse` seals the start record before it answers and then streams
the application's body: every data frame is cut into chunk records, and the
stream ends with an end record, or with an error record when the body fails,
sends trailers or sends a frame of an unknown kind. A sealing failure ends the
outer body with an I/O error.
-/

set_option autoImplicit false

namespace Maple.Transport.Gateway
open Pieces Crypto Framing

inductive BodyFrame where
  | data (bytes : Bytes)
  | trailers
  | other
  deriving DecidableEq, Repr

/-- What polling the application's body gives, up to the end of the stream. -/
abbrev Body := List (Except Unit BodyFrame)

inductive SealFrameError where
  | framing (source : FramingError)
  | crypto (source : CryptoError)
  deriving DecidableEq, Repr

structure Response where
  status : ℕ
  headers : List (String × Option String)
  body : Body

abbrev Outer := List Bytes × Option SealFrameError

inductive OuterError where
  | unavailable
  deriving DecidableEq, Repr

def bodyFailed : String := "application_body_failed"
def trailersUnsupported : String := "application_trailers_unsupported"
def frameUnsupported : String := "application_frame_unsupported"

variable (P : Primitives) (L : Libraries)

def logicalResponseHeaders (headers : List (String × Option String)) : List LogicalHeader :=
  headers.filterMap (fun header =>
    match header.2 with
    | none => none
    | some value =>
      match validateHeader L ⟨header.1, value⟩ with
      | .ok () => some ⟨header.1, value⟩
      | .error _ => none)

def sealFramed (writer : ResponseSealer) (record : ResponseRecord) :
    Except SealFrameError Bytes × ResponseSealer :=
  match record.encode L with
  | .error e => (.error (.framing e), writer)
  | .ok plaintext =>
    match writer.sealNext P plaintext with
    | (.error e, writer) => (.error (.crypto e), writer)
    | (.ok ciphertext, writer) =>
      match frameCiphertext ciphertext with
      | .error e => (.error (.framing e), writer)
      | .ok frame => (.ok frame, writer)

def sealChunks : ResponseSealer → List Bytes → List Bytes × Except SealFrameError ResponseSealer
  | writer, [] => ([], .ok writer)
  | writer, chunk::chunks =>
    match sealFramed P L writer (.chunk chunk) with
    | (.error e, _) => ([], .error e)
    | (.ok frame, writer) =>
      let rest := sealChunks writer chunks
      (frame::rest.1, rest.2)

def sealLast (writer : ResponseSealer) (record : ResponseRecord) : Outer :=
  match sealFramed P L writer record with
  | (.error e, _) => ([], some e)
  | (.ok frame, _) => ([frame], none)

def streamBody : ResponseSealer → Body → Outer
  | writer, [] => sealLast P L writer .finish
  | writer, .error ()::_ => sealLast P L writer (.error bodyFailed)
  | writer, .ok (.data bytes)::body =>
    match sealChunks P L writer (pieces maxResponseChunkBytes bytes) with
    | (frames, .error e) => (frames, some e)
    | (frames, .ok writer) =>
      let rest := streamBody writer body
      (frames++rest.1, rest.2)
  | writer, .ok .trailers::_ => sealLast P L writer (.error trailersUnsupported)
  | writer, .ok .other::_ => sealLast P L writer (.error frameUnsupported)

def responseHead (response : Response) : ResponseStart × Body :=
  match ResponseStart.new L response.status (logicalResponseHeaders L response.headers) with
  | .ok start => (start, response.body)
  | .error _ => (⟨500, []⟩, [])

def encryptedResponse (secrets : SessionSecrets) (requestId : RequestId) (response : Response) :
    Except OuterError Outer :=
  let head := responseHead L response
  match secrets.responseSealer P requestId with
  | .error _ => .error .unavailable
  | .ok writer =>
    match sealFramed P L writer (.start head.1) with
    | (.error _, _) => .error .unavailable
    | (.ok start, writer) =>
      let rest := streamBody P L writer head.2
      .ok (start::rest.1, rest.2)

def bodyRecords : Body → List ResponseRecord
  | [] => [.finish]
  | .error ()::_ => [.error bodyFailed]
  | .ok (.data bytes)::body => (pieces maxResponseChunkBytes bytes).map .chunk ++ bodyRecords body
  | .ok .trailers::_ => [.error trailersUnsupported]
  | .ok .other::_ => [.error frameUnsupported]

def sealAll : ResponseSealer → List ResponseRecord → Outer
  | _, [] => ([], none)
  | writer, record::records =>
    match sealFramed P L writer record with
    | (.error e, _) => ([], some e)
    | (.ok frame, writer) =>
      let rest := sealAll writer records
      (frame::rest.1, rest.2)

variable (writer : ResponseSealer)

theorem sealChunks_sealAll (chunks : List Bytes) (records : List ResponseRecord) :
    sealAll P L writer (chunks.map .chunk ++ records) =
      match sealChunks P L writer chunks with
      | (frames, .error e) => (frames, some e)
      | (frames, .ok writer) =>
        (frames++(sealAll P L writer records).1, (sealAll P L writer records).2) := by
  induction chunks generalizing writer with
  | nil => rfl
  | cons chunk chunks ih =>
    rw [List.map_cons, List.cons_append, sealAll, sealChunks]
    cases hs : sealFramed P L writer (.chunk chunk) with
    | mk result writer' =>
      cases result with
      | error e => rfl
      | ok frame =>
        simp only [ih writer']
        cases hc : sealChunks P L writer' chunks with
        | mk frames result => cases result <;> simp

theorem sealLast_sealAll (record : ResponseRecord) :
    sealLast P L writer record = sealAll P L writer [record] := by
  unfold sealLast sealAll
  cases hs : sealFramed P L writer record with
  | mk result writer' => cases result <;> rfl

theorem streamBody_sealAll (body : Body) :
    streamBody P L writer body = sealAll P L writer (bodyRecords body) := by
  induction body generalizing writer with
  | nil => exact sealLast_sealAll P L writer _
  | cons item body ih =>
    cases item with
    | error u => exact sealLast_sealAll P L writer _
    | ok frame =>
      cases frame with
      | data bytes =>
        rw [bodyRecords, sealChunks_sealAll, streamBody]
        cases hc : sealChunks P L writer (pieces maxResponseChunkBytes bytes) with
        | mk frames result => cases result <;> simp [ih]
      | trailers | other => exact sealLast_sealAll P L writer _

end Maple.Transport.Gateway

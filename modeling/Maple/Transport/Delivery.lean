import Maple.Transport.ByteMachine
import Maple.Transport.Gateway

/-!
# Delivery of a whole response

The records the enclave seals come out of the client's decoder in the same
order, whatever the carrier does to the frame boundaries. The argument walks
from one record boundary to the next: sealing a record and feeding its frame
move the sealer and the opener together.
-/

set_option autoImplicit false

namespace Maple.Transport.Delivery
open Feed Pieces Crypto Framing Decoder ByteMachine Gateway List

/-- What the record cipher and the key expansion promise for this protocol's
sizes. -/
structure LawfulPrimitives (P : Primitives) : Prop where
  expands : ∀ (key : TrafficKey) (info : Bytes), ∃ out, P.hkdfExpand key.bytes.toList info = some out
  seals : ∀ key nonce aad plaintext, plaintext.length ≤ maxResponseRecordPlaintextBytes →
    ∃ ciphertext, P.encrypt key nonce aad plaintext = some ciphertext
  expansion : ∀ key nonce aad plaintext ciphertext,
    P.encrypt key nonce aad plaintext = some ciphertext →
    ciphertext.length = plaintext.length+recordTagBytes
  opens : ∀ key nonce aad plaintext ciphertext,
    P.encrypt key nonce aad plaintext = some ciphertext →
    P.decrypt key nonce aad ciphertext = some plaintext

/-- JSON round trips, and an accepted error code serializes within the metadata
limit. -/
structure LawfulLibraries (L : Libraries) : Prop where
  start_roundtrip : ∀ start encoded,
    L.start.toVec start = some encoded → L.start.fromSlice encoded = some start
  failure_roundtrip : ∀ failure encoded,
    L.failure.toVec failure = some encoded → L.failure.fromSlice encoded = some failure
  failure_fits : ∀ code, validateErrorCode code = .ok () →
    ∃ encoded, L.failure.toVec ⟨code⟩ = some encoded ∧ encoded.length ≤ maxResponseMetadataBytes

def eventOf : ResponseRecord → ResponseEvent
  | .start head => .start head.status head.headers
  | .chunk bytes => .chunk bytes
  | .finish => .finish
  | .error code => .error code

def openerOf (writer : ResponseSealer) : ResponseOpener :=
  ⟨writer.sessionId, writer.requestId, writer.key, writer.nextSequence⟩

def boundary (writer : ResponseSealer) (state : DecodeState) : ResponseDecoder :=
  ⟨openerOf writer, state, [], none, []⟩

variable {P : Primitives} {L : Libraries} (writer : ResponseSealer)

@[simp] theorem finish_pending (event : ResponseEvent) :
    (boundary writer (.pendingTerminal event)).finish = .ok event := rfl

@[simp] theorem finish_opened : (boundary writer .opened).finish = .error .truncatedResponse := rfl

@[simp] theorem deliver_start (d : ResponseDecoder) (head : ResponseStart) :
    deliver (.ok (d, eventOf (.start head))) = .ok (d, [.start head.status head.headers]) := rfl

@[simp] theorem deliver_chunk (d : ResponseDecoder) (bytes : Bytes) :
    deliver (.ok (d, eventOf (.chunk bytes))) = .ok (d, [.chunk bytes]) := rfl

theorem deliver_terminal {event : ResponseEvent} (h : event.isTerminal = true) :
    deliver (.ok (boundary writer .opened, event)) =
      .ok (boundary writer (.pendingTerminal event), []) := by
  simp only [deliver, h, if_true, boundary]

theorem clientValidateHeaders_ok {headers : List LogicalHeader}
    (h : validateHeaders L headers = .ok ()) : clientValidateHeaders L headers = .ok () := by
  induction headers with
  | nil => rfl
  | cons header headers ih =>
    unfold validateHeaders at h
    split at h
    · cases h
    rename_i hv
    have hc : clientValidateHeader L header = .ok () := by
      unfold validateHeader at hv
      unfold clientValidateHeader
      split at hv
      · cases hv
      · rename_i parsed hp
        split_ifs at hv with h1 h2 h3
        rw [not_not] at h1
        subst h1
        simp [hp, h2, h3]
    simp [clientValidateHeaders, hc, ih h]

theorem decodeStart_encoded (hL : LawfulLibraries L) {head : ResponseStart} {metadata : Bytes}
    (hv : head.validate L = .ok ()) (hm : L.start.toVec head = some metadata)
    (hl : metadata.length ≤ maxResponseMetadataBytes) :
    decodeStart L metadata = .ok (.start head.status head.headers) := by
  unfold ResponseStart.validate at hv
  split_ifs at hv with h1 h2
  have hc := clientValidateHeaders_ok hv
  simp [decodeStart, not_lt.mpr hl, hL.start_roundtrip head metadata hm, h1, h2, hc]

theorem decodeError_encoded (hL : LawfulLibraries L) {code : String} {metadata : Bytes}
    (hv : validateErrorCode code = .ok ()) (hm : L.failure.toVec ⟨code⟩ = some metadata)
    (hl : metadata.length ≤ maxResponseMetadataBytes) :
    decodeError L metadata = .ok (.error code) := by
  unfold validateErrorCode at hv
  split_ifs at hv with h1
  simp only [decodeError, gt_iff_lt, not_lt.mpr hl, if_false,
    hL.failure_roundtrip ⟨code⟩ metadata hm, h1]

theorem decode_encode (hL : LawfulLibraries L) {record : ResponseRecord} {encoded : Bytes}
    (h : record.encode L = .ok encoded) :
    decodePlaintextRecord L encoded = .ok (eventOf record) := by
  cases record with
  | start head =>
    simp only [ResponseRecord.encode] at h
    split at h
    · cases h
    rename_i hv
    obtain ⟨metadata,hm,hl,rfl⟩ := encodeMetadata_ok h
    simpa [decodePlaintextRecord, eventOf] using decodeStart_encoded hL hv hm hl
  | chunk bytes =>
    simp only [ResponseRecord.encode] at h
    split_ifs at h with hl
    cases h
    simp [decodePlaintextRecord, chunkTag, startTag, not_lt.mp hl, eventOf]
  | finish =>
    cases h
    rfl
  | error code =>
    simp only [ResponseRecord.encode] at h
    split at h
    · cases h
    rename_i hv
    obtain ⟨metadata,hm,hl,rfl⟩ := encodeMetadata_ok h
    simpa [decodePlaintextRecord, eventOf, errorTag, startTag, chunkTag, endTag] using
      decodeError_encoded hL hv hm hl

/-- Sealing a record and feeding its frame move both ends by one record. -/
theorem sealFramed_delivered (hP : LawfulPrimitives P) (hL : LawfulLibraries L)
    (writer : ResponseSealer) (record : ResponseRecord) (encoded : Bytes) (state : DecodeState)
    (he : record.encode L = .ok encoded) (hseq : writer.nextSequence.toNat+1 < 2^64)
    (ha : admits state (eventOf record) = some .opened) (hl : state.live = true) :
    ∃ frame writer', sealFramed P L writer record = (.ok frame, writer') ∧
      writer'.nextSequence.toNat = writer.nextSequence.toNat+1 ∧
      feed (byteStep P L) (boundary writer state) frame =
        deliver (.ok (boundary writer' .opened, eventOf record)) := by
  obtain ⟨next,hnext⟩ : ∃ next, checkedSucc writer.nextSequence = some next :=
    ⟨_,if_pos hseq⟩
  have hlen := encode_length L he
  obtain ⟨ciphertext,hc⟩ := hP.seals writer.key (responseNonce writer.nextSequence)
    (responseAad writer.sessionId writer.requestId writer.nextSequence) encoded hlen
  have hcl := hP.expansion _ _ _ _ _ hc
  obtain ⟨frame,hframe⟩ : ∃ frame, frameCiphertext ciphertext = .ok frame :=
    ⟨_,(frameCiphertext_ok_iff ciphertext _).mpr
      ⟨by omega,by rw [hcl, maxResponseRecordCiphertextBytes]; omega,rfl⟩⟩
  have hopen : (openerOf writer).openNext P ciphertext =
      .ok (encoded, openerOf { writer with nextSequence := next }) := by
    simp only [ResponseOpener.openNext, openRecord, openerOf, hP.opens _ _ _ _ _ hc, hnext,
      if_neg (show ¬ciphertext.length < recordTagBytes by omega)]
  refine ⟨frame,{ writer with nextSequence := next },?_,checkedSucc_some hnext,?_⟩
  · simp only [sealFramed, he, ResponseSealer.sealNext, hnext, sealDetachedNonce, hc, hframe]
  · rw [feed_frame P L rfl hl hframe]
    simp only [ResponseDecoder.decodeRecord, boundary, hopen, decode_encode hL he, ha]

theorem encode_chunk (bytes : Bytes) (h : bytes.length ≤ maxResponseChunkBytes) :
    (ResponseRecord.chunk bytes).encode L = .ok (chunkTag::bytes) := by
  simp [ResponseRecord.encode, not_lt.mpr h]

theorem sealChunks_delivered (hP : LawfulPrimitives P) (hL : LawfulLibraries L)
    (writer : ResponseSealer) {chunks : List Bytes}
    (hc : ∀ chunk ∈ chunks, chunk.length ≤ maxResponseChunkBytes)
    (hseq : writer.nextSequence.toNat+chunks.length < 2^64) :
    ∃ frames writer', sealChunks P L writer chunks = (frames, .ok writer') ∧
      writer'.nextSequence.toNat = writer.nextSequence.toNat+chunks.length ∧
      feed (byteStep P L) (boundary writer .opened) frames.flatten =
        .ok (boundary writer' .opened, chunks.map .chunk) := by
  induction chunks generalizing writer with
  | nil => exact ⟨[],writer,rfl,rfl,rfl⟩
  | cons chunk chunks ih =>
    rw [length_cons] at hseq
    obtain ⟨frame,writer₁,hs,hn,hf⟩ := sealFramed_delivered hP hL writer (.chunk chunk) _ .opened
      (encode_chunk chunk (hc chunk (by simp))) (by omega) rfl rfl
    obtain ⟨frames,writer₂,hs₂,hn₂,hf₂⟩ := ih writer₁
      (fun c hmem => hc c (by simp [hmem])) (by omega)
    refine ⟨frame::frames,writer₂,?_,?_,?_⟩
    · simp [sealChunks, hs, hs₂]
    · rw [hn₂, hn, length_cons]
      omega
    · rw [flatten_cons, feed_append, hf]
      simp [andThen, hf₂]

def bodyChunks : Body → List Bytes
  | .ok (.data bytes)::body => pieces maxResponseChunkBytes bytes ++ bodyChunks body
  | _ => []

def bodyTerminal : Body → ResponseRecord
  | [] => .finish
  | .error ()::_ => .error bodyFailed
  | .ok (.data _)::body => bodyTerminal body
  | .ok .trailers::_ => .error trailersUnsupported
  | .ok .other::_ => .error frameUnsupported

def bodyBytes : Body → Bytes
  | .ok (.data bytes)::body => bytes ++ bodyBytes body
  | _ => []

theorem bodyRecords_eq (body : Body) :
    bodyRecords body = (bodyChunks body).map .chunk ++ [bodyTerminal body] := by
  induction body with
  | nil => rfl
  | cons item body ih =>
    rcases item with u | (bytes | _ | _)
    · rfl
    · simp [bodyRecords, bodyChunks, bodyTerminal, ih]
    · rfl
    · rfl

theorem bodyChunks_flatten (body : Body) : (bodyChunks body).flatten = bodyBytes body := by
  induction body with
  | nil => rfl
  | cons item body ih =>
    rcases item with u | (bytes | _ | _)
    · rfl
    · simp [bodyChunks, bodyBytes, ih, pieces_flatten maxResponseChunkBytes bytes (by decide)]
    · rfl
    · rfl

theorem bodyChunks_length_le (body : Body) :
    ∀ chunk ∈ bodyChunks body, chunk.length ≤ maxResponseChunkBytes := by
  induction body with
  | nil => simp [bodyChunks]
  | cons item body ih =>
    rcases item with u | (bytes | _ | _)
    · simp [bodyChunks]
    · intro chunk hmem
      rcases mem_append.mp hmem with h | h
      · exact pieces_length_le h
      · exact ih chunk h
    · simp [bodyChunks]
    · simp [bodyChunks]

theorem bodyTerminal_cases (body : Body) :
    bodyTerminal body = .finish ∨ ∃ code ∈ [bodyFailed, trailersUnsupported, frameUnsupported],
        bodyTerminal body = .error code := by
  induction body with
  | nil => exact Or.inl rfl
  | cons item body ih =>
    rcases item with u | (bytes | _ | _)
    · exact Or.inr ⟨_,by simp,rfl⟩
    · exact ih
    · exact Or.inr ⟨_,by simp,rfl⟩
    · exact Or.inr ⟨_,by simp,rfl⟩

theorem serverCodes_valid :
    ∀ code ∈ [bodyFailed, trailersUnsupported, frameUnsupported],
      validateErrorCode code = .ok () := by decide

theorem encode_bodyTerminal (hL : LawfulLibraries L) (body : Body) :
    ∃ encoded, (bodyTerminal body).encode L = .ok encoded := by
  rcases bodyTerminal_cases body with h | ⟨code,hmem,h⟩
  · exact ⟨_,by rw [h]; rfl⟩
  have hv := serverCodes_valid code hmem
  obtain ⟨encoded,he,hl⟩ := hL.failure_fits code hv
  refine ⟨errorTag::encoded,?_⟩
  rw [h]
  simp only [ResponseRecord.encode, hv, encodeMetadata, he]
  rw [if_neg]
  simp only [maxResponseRecordPlaintextBytes, maxResponseMetadataBytes, maxResponseChunkBytes] at *
  omega

theorem bodyTerminal_isTerminal (body : Body) :
    (eventOf (bodyTerminal body)).isTerminal = true ∧
      admits .opened (eventOf (bodyTerminal body)) = some .opened := by
  rcases bodyTerminal_cases body with h | ⟨code,-,h⟩ <;> rw [h] <;> exact ⟨rfl,rfl⟩

theorem streamBody_delivered (hP : LawfulPrimitives P) (hL : LawfulLibraries L)
    (writer : ResponseSealer) (body : Body)
    (hseq : writer.nextSequence.toNat+(bodyRecords body).length < 2^64) :
    ∃ frames writer', streamBody P L writer body = (frames, none) ∧
      feed (byteStep P L) (boundary writer .opened) frames.flatten =
        .ok (boundary writer' (.pendingTerminal (eventOf (bodyTerminal body))),
          (bodyChunks body).map .chunk) := by
  have hrec := bodyRecords_eq body
  rw [hrec, length_append, length_map, length_singleton] at hseq
  obtain ⟨frames,writer₁,hs,hn,hf⟩ := sealChunks_delivered hP hL writer
    (bodyChunks_length_le body) (by omega)
  obtain ⟨encoded,he⟩ := encode_bodyTerminal hL body
  obtain ⟨hterm,hadm⟩ := bodyTerminal_isTerminal body
  obtain ⟨frame,writer₂,hs₂,-,hf₂⟩ := sealFramed_delivered hP hL writer₁ (bodyTerminal body)
    encoded .opened he (by omega) hadm rfl
  refine ⟨frames++[frame],writer₂,?_,?_⟩
  · rw [streamBody_sealAll, hrec, sealChunks_sealAll, hs]
    simp [sealAll, hs₂]
  · rw [flatten_append, flatten_singleton, feed_append, hf]
    simp [andThen, hf₂, deliver_terminal _ hterm]

theorem responseHead_valid (response : Response) (start : ResponseStart)
    (h : ResponseStart.new L response.status (logicalResponseHeaders L response.headers) =
      .ok start) :
    responseHead L response = (start, response.body) ∧ start.status = response.status ∧
      start.headers = logicalResponseHeaders L response.headers := by
  refine ⟨by simp only [responseHead, h],?_⟩
  unfold ResponseStart.new at h
  split at h <;> cases h
  exact ⟨rfl,rfl⟩

theorem responseEnds (hP : LawfulPrimitives P) (secrets : SessionSecrets) (requestId : RequestId) :
    ∃ writer, secrets.responseSealer P requestId = .ok writer ∧ writer.nextSequence = 0 ∧
      secrets.responseOpener P requestId = .ok (openerOf writer) := by
  obtain ⟨key,hk⟩ := hP.expands secrets.responseKey
    (subkeyInfo responseSubkeyInfo secrets.sessionId requestId)
  refine ⟨⟨secrets.sessionId,requestId,key,0⟩,?_,rfl,?_⟩
  · simp only [SessionSecrets.responseSealer, deriveRecordSubkey, hk]
  · simp only [SessionSecrets.responseOpener, deriveRecordSubkey, hk, openerOf]

theorem sealChunks_exhausted (hP : LawfulPrimitives P) (hL : LawfulLibraries L)
    (writer : ResponseSealer) (chunks : List Bytes)
    (hc : ∀ chunk ∈ chunks, chunk.length ≤ maxResponseChunkBytes)
    (hseq : 2^64 ≤ writer.nextSequence.toNat+chunks.length) :
    ∃ frames writer' events,
      sealChunks P L writer chunks = (frames, .error (.crypto .sequenceExhausted)) ∧
      feed (byteStep P L) (boundary writer .opened) frames.flatten =
        .ok (boundary writer' .opened, events) := by
  induction chunks generalizing writer with
  | nil =>
    have hlt := writer.nextSequence.toNat_lt
    simp only [length_nil] at hseq
    omega
  | cons chunk chunks ih =>
    have hchunk := encode_chunk (L := L) chunk (hc chunk (by simp))
    rw [length_cons] at hseq
    by_cases hlast : writer.nextSequence.toNat+1 < 2^64
    · obtain ⟨frame,writer₁,hs,hn,hf⟩ := sealFramed_delivered hP hL writer (.chunk chunk) _
        .opened hchunk hlast rfl rfl
      obtain ⟨frames,writer₂,events,hs₂,hf₂⟩ := ih writer₁
        (fun c hmem => hc c (by simp [hmem])) (by omega)
      refine ⟨frame::frames,writer₂,.chunk chunk::events,?_,?_⟩
      · simp [sealChunks, hs, hs₂]
      · rw [flatten_cons, feed_append, hf]
        simp [andThen, hf₂]
    · have hnone : checkedSucc writer.nextSequence = none := if_neg hlast
      refine ⟨[],writer,[],?_,rfl⟩
      simp [sealChunks, sealFramed, hchunk, ResponseSealer.sealNext, hnone]

/-- Server to client: for every valid response whose records fit the sequence
space, however the outer bytes are cut, the client reads the same head, the same
body bytes and the server's own terminal. -/
theorem response_stream_delivered (hP : LawfulPrimitives P) (hL : LawfulLibraries L)
    (secrets : SessionSecrets) (requestId : RequestId) (response : Response)
    (start : ResponseStart) (encoded : Bytes)
    (hstart : ResponseStart.new L response.status
      (logicalResponseHeaders L response.headers) = .ok start)
    (hencode : (ResponseRecord.start start).encode L = .ok encoded)
    (hcount : 1+(bodyRecords response.body).length ≤ 2^64-1) :
    ∃ frames opener, encryptedResponse P L secrets requestId response = .ok (frames, none) ∧
      secrets.responseOpener P requestId = .ok opener ∧
      ∀ chunks : List Bytes, chunks.flatten = frames.flatten →
        ∃ bodies : List Bytes,
          receive P L (ResponseDecoder.new opener) (chunks.map .ok) =
            some (.start response.status (logicalResponseHeaders L response.headers)::
              bodies.map .chunk ++ [eventOf (bodyTerminal response.body)], none) ∧
          bodies.flatten = bodyBytes response.body := by
  obtain ⟨hhead,hstatus,hheaders⟩ := responseHead_valid response start hstart
  obtain ⟨writer,hw,hzero,ho⟩ := responseEnds hP secrets requestId
  obtain ⟨frame,writer₁,hs,hn,hf⟩ := sealFramed_delivered hP hL writer (.start start) encoded
    .awaitingStart hencode (by rw [hzero]; decide) rfl rfl
  obtain ⟨frames,writer₂,hb,hfb⟩ := streamBody_delivered hP hL writer₁ response.body (by
    rw [hn, hzero]
    simp only [UInt64.toNat_zero]
    omega)
  refine ⟨frame::frames, openerOf writer, ?_, ho, ?_⟩
  · simp only [encryptedResponse, hhead, hw, hs, hb]
  intro chunks hcut
  refine ⟨bodyChunks response.body, ?_, bodyChunks_flatten response.body⟩
  rw [receive_complete_iff P L _ chunks _ (wf_new _) (new_not_finished _), hcut,
    List.flatten_cons, feed_append]
  rw [show ResponseDecoder.new (openerOf writer) = boundary writer .awaitingStart from rfl, hf]
  simp [andThen, hfb, settle, hstatus, hheaders]

/-- A cipher that pads with a tag of zeros: lawful, and not secret. -/
def paddingCipher : Primitives where
  hkdfExpand := fun _ _ => some ⟨Vector.replicate 32 0⟩
  encrypt := fun _ _ _ plaintext => some (plaintext++List.replicate 16 0)
  decrypt := fun _ _ _ ciphertext => some (ciphertext.take (ciphertext.length-16))

def emptyHead : Bytes := "\x7b\"status\":200,\"headers\":[]\x7d".toUTF8.data.toList

/-- Libraries that know the JSON of one head. -/
def plainLibraries : Libraries where
  http := ⟨some, fun _ => true⟩
  start := ⟨fun start => if start = ⟨200, []⟩ then some emptyHead else none,
    fun bytes => if bytes = emptyHead then some ⟨200, []⟩ else none⟩
  failure := ⟨fun failure => some failure.code.toUTF8.data.toList,
    fun bytes => (String.fromUTF8? ⟨bytes.toArray⟩).map ResponseFailure.mk⟩

theorem paddingCipher_lawful : LawfulPrimitives paddingCipher where
  expands := fun _ _ => ⟨_,rfl⟩
  seals := fun _ _ _ _ _ => ⟨_,rfl⟩
  expansion := by
    rintro key nonce aad plaintext ciphertext ⟨rfl⟩
    simp [recordTagBytes]
  opens := by
    rintro key nonce aad plaintext ciphertext ⟨rfl⟩
    simp [paddingCipher]

theorem plainLibraries_lawful : LawfulLibraries plainLibraries where
  start_roundtrip := by
    intro start encoded h
    simp only [plainLibraries] at h ⊢
    split_ifs at h with hs
    cases h
    rw [hs, if_pos rfl]
  failure_roundtrip := by
    rintro ⟨code⟩ encoded ⟨rfl⟩
    have hvalid : code.toUTF8.IsValidUTF8 := code.isValidUTF8
    simp only [plainLibraries, Array.toArray_toList, String.fromUTF8?, hvalid, dif_pos]
    rfl
  failure_fits := by
    intro code h
    refine ⟨_,rfl,?_⟩
    unfold validateErrorCode at h
    split_ifs at h with hc
    simp only [not_or, not_lt] at hc
    exact le_trans hc.2.1 (by decide)

def sampleSecrets : SessionSecrets :=
  ⟨⟨Vector.replicate 16 1⟩, ⟨Vector.replicate 32 2⟩, ⟨Vector.replicate 32 3⟩⟩

def sampleRequest : RequestId := ⟨Vector.replicate 16 4⟩

theorem response_stream_delivered_trailers :
    ∃ frames opener,
      encryptedResponse paddingCipher plainLibraries sampleSecrets sampleRequest
        ⟨200, [], [.ok (.data [7,8,9]), .ok .trailers]⟩ = .ok (frames, none) ∧
      sampleSecrets.responseOpener paddingCipher sampleRequest = .ok opener ∧
      ∀ chunks : List Bytes, chunks.flatten = frames.flatten →
        ∃ bodies : List Bytes,
          receive paddingCipher plainLibraries (ResponseDecoder.new opener) (chunks.map .ok) =
            some (.start 200 []::bodies.map .chunk ++
              [.error "application_trailers_unsupported"], none) ∧
          bodies.flatten = [7,8,9] :=
  response_stream_delivered paddingCipher_lawful plainLibraries_lawful _ _
    ⟨200, [], [.ok (.data [7,8,9]), .ok .trailers]⟩ ⟨200, []⟩ (startTag::emptyHead)
    (by decide) (by decide +kernel) (by decide +kernel)

def endlessBody (n : ℕ) : Body := List.replicate n (.ok (.data [0]))

theorem bodyChunks_endlessBody (n : ℕ) : bodyChunks (endlessBody n) = List.replicate n [0] := by
  induction n with
  | zero => rfl
  | succ n ih =>
    rw [endlessBody, replicate_succ, bodyChunks, ← endlessBody, ih]
    rfl

/-- A body of `2^64` one-byte frames outruns the sequence counter: the enclave
breaks off the stream and no way of cutting it completes at the client. -/
theorem response_stream_exhausted :
    LawfulPrimitives paddingCipher ∧ LawfulLibraries plainLibraries ∧
    ResponseStart.new plainLibraries 200 (logicalResponseHeaders plainLibraries []) =
      .ok ⟨200, []⟩ ∧
    (ResponseRecord.start ⟨200, []⟩).encode plainLibraries = .ok (startTag::emptyHead) ∧
    ∃ frames opener,
      encryptedResponse paddingCipher plainLibraries sampleSecrets sampleRequest
        ⟨200, [], endlessBody (2^64)⟩ = .ok (frames, some (.crypto .sequenceExhausted)) ∧
      sampleSecrets.responseOpener paddingCipher sampleRequest = .ok opener ∧
      ∀ chunks : List Bytes, chunks.flatten = frames.flatten → ∀ events,
        receive paddingCipher plainLibraries (ResponseDecoder.new opener) (chunks.map .ok) ≠
          some (events, none) := by
  refine ⟨paddingCipher_lawful, plainLibraries_lawful, rfl, rfl, ?_⟩
  obtain ⟨writer,hw,hzero,ho⟩ := responseEnds paddingCipher_lawful sampleSecrets sampleRequest
  obtain ⟨frame,writer₁,hs,hn,hf⟩ := sealFramed_delivered paddingCipher_lawful
    plainLibraries_lawful writer (.start ⟨200, []⟩) (startTag::emptyHead) .awaitingStart
    (by decide +kernel) (by rw [hzero]; decide) rfl rfl
  have hchunks := bodyChunks_endlessBody (2^64)
  obtain ⟨frames,writer₂,events₂,hs₂,hf₂⟩ := sealChunks_exhausted paddingCipher_lawful
    plainLibraries_lawful writer₁ (bodyChunks (endlessBody (2^64))) (bodyChunks_length_le _) (by
      rw [hchunks, List.length_replicate]
      omega)
  have hhead : responseHead plainLibraries ⟨200, [], endlessBody (2^64)⟩ =
      (⟨200, []⟩, endlessBody (2^64)) :=
    (responseHead_valid _ ⟨200, []⟩ (by rfl)).1
  refine ⟨frame::frames, openerOf writer, ?_, ho, ?_⟩
  · simp only [encryptedResponse, hhead, hw, hs, streamBody_sealAll, bodyRecords_eq,
      sealChunks_sealAll, hs₂]
  · intro chunks hcut events hr
    rw [receive_complete_iff _ _ _ chunks _ (wf_new _) (new_not_finished _), hcut,
      List.flatten_cons, feed_append,
      show ResponseDecoder.new (openerOf writer) = boundary writer .awaitingStart from rfl, hf] at hr
    simp [andThen, hf₂, settle] at hr

end Maple.Transport.Delivery

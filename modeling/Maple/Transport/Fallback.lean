import Maple.Lib.JsonText
import Maple.Transport.Delivery

/-!
# The head of an admitted response

After admission every answer should stay inside the encrypted channel. A head that is
invalid is replaced by a headerless 500. The size of a valid head is looked at only when
its record is encoded, and a failure there becomes a plaintext outer error.
-/

set_option autoImplicit false

namespace Maple.Transport.Fallback

open Delimited Feed JsonText Text Crypto Framing Decoder ByteMachine Gateway Delivery

def headerText (header : LogicalHeader) : Crypto.Bytes :=
  utf8 "\x7b\"name\":"++(stringText header.name++(utf8 ",\"value\":"++
    (stringText header.value++utf8 "\x7d")))

/-- The compact JSON of a response start, as the serializer writes it. -/
def startText (start : ResponseStart) : Crypto.Bytes :=
  utf8 "\x7b\"status\":"++(numberText start.status++[44]++(utf8 "\"headers\":"++
    (arrayText headerText start.headers++utf8 "\x7d")))

theorem header_delimited : SelfDelimiting headerText := by
  have hfields : SelfDelimiting (fun pair : String × String =>
      stringText pair.1++(utf8 ",\"value\":"++(stringText pair.2++utf8 "\x7d"))) :=
    delimited_append string_delimited (delimited_literal _ (delimited_closed _ string_delimited))
  refine delimited_comap (delimited_literal (utf8 "\x7b\"name\":") hfields)
    (fun header : LogicalHeader => (header.name, header.value)) (fun left right h => ?_)
  obtain ⟨hname,hvalue⟩ := Prod.ext_iff.mp h
  cases left
  cases right
  cases hname
  cases hvalue
  rfl

theorem start_delimited : SelfDelimiting startText := by
  have hheaders : SelfDelimiting (arrayText headerText) :=
    array_delimited header_delimited (fun header rest rest' heq => by
      have hhead := congrArg List.head? heq
      cases hhead)
  have hfields : SelfDelimiting (fun pair : ℕ × List LogicalHeader =>
      (numberText pair.1++[44])++(utf8 "\"headers\":"++
        (arrayText headerText pair.2++utf8 "\x7d"))) :=
    delimited_append number_delimited (delimited_literal _ (delimited_closed _ hheaders))
  refine delimited_comap (delimited_literal (utf8 "\x7b\"status\":") hfields)
    (fun start : ResponseStart => (start.status, start.headers)) (fun left right h => ?_)
  obtain ⟨hstatus,hheads⟩ := Prod.ext_iff.mp h
  cases left
  cases right
  cases hstatus
  cases hheads
  rfl

def minimalHead : ResponseStart := ⟨500, []⟩

theorem minimal_fits : (startText minimalHead).length ≤ maxResponseMetadataBytes := by
  decide +kernel

section Answers
variable (P : Primitives) (L : Libraries)

/-- The head the client should see: the application's own if it is valid and fits one
record, and the minimal one otherwise. -/
def expectedHead (response : Response) : ResponseStart :=
  match ResponseStart.new L response.status (logicalResponseHeaders L response.headers) with
  | .error _ => minimalHead
  | .ok start =>
    match (ResponseRecord.start start).encode L with
    | .ok _ => start
    | .error _ => minimalHead

/-- The outer answer is the encrypted one, and its first record reads as a start. -/
def Answered (secrets : SessionSecrets) (requestId : RequestId) (response : Response) : Prop :=
  ∃ first rest failure opener decoder,
    encryptedResponse P L secrets requestId response = .ok (first::rest, failure) ∧
    secrets.responseOpener P requestId = .ok opener ∧
    feed (byteStep P L) (ResponseDecoder.new opener) first =
      .ok (decoder, [eventOf (.start (expectedHead L response))])

def HeadFits (response : Response) : Prop :=
  ∀ start, ResponseStart.new L response.status (logicalResponseHeaders L response.headers) =
    .ok start → (startText start).length ≤ maxResponseMetadataBytes

end Answers

section Proofs
variable {P : Primitives} {L : Libraries}

theorem new_valid (status : ℕ) (headers : List LogicalHeader) (start : ResponseStart)
    (h : ResponseStart.new L status headers = .ok start) : start.validate L = .ok () := by
  unfold ResponseStart.new at h
  split at h
  · cases h
  · rename_i hvalid
    cases h
    exact hvalid

theorem minimal_valid : minimalHead.validate L = .ok () := rfl

theorem encode_fitting (hjson : ∀ start, L.start.toVec start = some (startText start))
    {start : ResponseStart} (hvalid : start.validate L = .ok ())
    (hfits : (startText start).length ≤ maxResponseMetadataBytes) :
    ∃ encoded, (ResponseRecord.start start).encode L = .ok encoded := by
  have hsmall : ¬((startText start).length > maxResponseMetadataBytes ∨
      (startText start).length+1 > maxResponseRecordPlaintextBytes) := by
    simp only [maxResponseRecordPlaintextBytes, maxResponseChunkBytes,
      maxResponseMetadataBytes] at *
    omega
  refine ⟨startTag::startText start,?_⟩
  simp only [ResponseRecord.encode, hvalid, encodeMetadata, hjson, if_neg hsmall]

theorem encode_oversized (hjson : ∀ start, L.start.toVec start = some (startText start))
    (start : ResponseStart) (hvalid : start.validate L = .ok ())
    (hlarge : maxResponseMetadataBytes < (startText start).length) :
    (ResponseRecord.start start).encode L = .error .recordTooLarge := by
  have hbig : (startText start).length > maxResponseMetadataBytes ∨
      (startText start).length+1 > maxResponseRecordPlaintextBytes := .inl hlarge
  simp only [ResponseRecord.encode, hvalid, encodeMetadata, hjson, if_pos hbig]

theorem response_head (response : Response) :
    (∃ start, ResponseStart.new L response.status
        (logicalResponseHeaders L response.headers) = .ok start ∧
      responseHead L response = (start, response.body)) ∨
    (∃ error, ResponseStart.new L response.status
        (logicalResponseHeaders L response.headers) = .error error) ∧
      responseHead L response = (minimalHead, []) := by
  cases h : ResponseStart.new L response.status (logicalResponseHeaders L response.headers) with
  | ok start => exact .inl ⟨start,rfl,by simp only [responseHead, h]⟩
  | error error => exact .inr ⟨⟨error,rfl⟩,by simp only [responseHead, h, minimalHead]⟩

/-- A head that can be encoded is sealed and read back first. -/
theorem head_answered (hP : LawfulPrimitives P) (hL : LawfulLibraries L) (secrets : SessionSecrets)
    (requestId : RequestId) {response : Response} {head : ResponseStart} {body : Body}
    {encoded : Crypto.Bytes} (hhead : responseHead L response = (head, body))
    (hencode : (ResponseRecord.start head).encode L = .ok encoded)
    (hexpected : expectedHead L response = head) : Answered P L secrets requestId response := by
  obtain ⟨writer,hw,hzero,ho⟩ := responseEnds hP secrets requestId
  obtain ⟨frame,writer₁,hs,_,hf⟩ := sealFramed_delivered hP hL writer (.start head) encoded
    .awaitingStart hencode (by rw [hzero]; decide) rfl rfl
  refine ⟨frame,(streamBody P L writer₁ body).1,(streamBody P L writer₁ body).2,
    openerOf writer,boundary writer₁ .opened,?_,ho,?_⟩
  · simp only [encryptedResponse, hhead, hw, hs]
  · rw [hexpected]
    exact hf

/-- The answer is encrypted exactly when a valid head fits its record. -/
theorem encrypted_answer_iff (hP : LawfulPrimitives P) (hL : LawfulLibraries L)
    (hjson : ∀ start, L.start.toVec start = some (startText start)) (secrets : SessionSecrets)
    (requestId : RequestId) (response : Response) :
    Answered P L secrets requestId response ↔ HeadFits L response := by
  rcases response_head (L := L) response with ⟨start,hnew,hhead⟩ | ⟨⟨error,hnew⟩,hhead⟩
  · have hvalid := new_valid _ _ start hnew
    constructor
    · rintro ⟨first,rest,failure,opener,decoder,hanswer,_,_⟩ other hother
      cases hnew.symm.trans hother
      by_contra hlarge
      have hencode := encode_oversized hjson start hvalid (Nat.not_le.mp hlarge)
      obtain ⟨writer,hw,_,_⟩ := responseEnds hP secrets requestId
      simp only [encryptedResponse, hhead, hw, sealFramed, hencode] at hanswer
      cases hanswer
    · intro hfits
      obtain ⟨encoded,hencode⟩ := encode_fitting hjson hvalid (hfits start hnew)
      refine head_answered hP hL secrets requestId hhead
        hencode ?_
      simp only [expectedHead, hnew, hencode]
  · constructor
    · intro _ start hstart
      exact absurd (hnew.symm.trans hstart) (by simp)
    · intro _
      obtain ⟨encoded,hencode⟩ := encode_fitting hjson minimal_valid minimal_fits
      refine head_answered hP hL secrets requestId hhead hencode ?_
      simp only [expectedHead, hnew]

end Proofs

noncomputable def jsonLibraries : Libraries where
  http := ⟨some, fun _ => true⟩
  start := ⟨fun start => some (startText start), fun bytes =>
    open Classical in
    if h : ∃ start, startText start = bytes then some h.choose else none⟩
  failure := plainLibraries.failure

theorem json_libraries_lawful : LawfulLibraries jsonLibraries where
  start_roundtrip := by
    intro start encoded h
    cases h
    have hexists : ∃ other, startText other = startText start := ⟨start,rfl⟩
    have hsame := injective_of_delimited start_delimited _ _ hexists.choose_spec
    simp only [jsonLibraries, dif_pos hexists, hsame]
  failure_roundtrip := plainLibraries_lawful.failure_roundtrip
  failure_fits := plainLibraries_lawful.failure_fits

theorem encrypted_answer_sample :
    Answered paddingCipher jsonLibraries sampleSecrets sampleRequest
      ⟨204, [("x-note", some "short")], []⟩ :=
  (encrypted_answer_iff paddingCipher_lawful json_libraries_lawful (fun _ => rfl) sampleSecrets
    sampleRequest ⟨204, [("x-note", some "short")], []⟩).mpr (by
    intro start hstart
    have hsmall : (startText ⟨204, [⟨"x-note", "short"⟩]⟩).length ≤ maxResponseMetadataBytes := by
      decide +kernel
    cases hstart
    exact hsmall)

def notedResponse (value : String) : Response := ⟨200, [("x-note", some value)], []⟩

theorem noted_new (value : String) :
    ResponseStart.new jsonLibraries (notedResponse value).status
      (logicalResponseHeaders jsonLibraries (notedResponse value).headers) =
      .ok ⟨200,[⟨"x-note",value⟩]⟩ := rfl

theorem noted_unavailable (value : String) (hlong : 65536 ≤ (utf8 value).length) :
    encryptedResponse paddingCipher jsonLibraries sampleSecrets sampleRequest
      (notedResponse value) = .error .unavailable := by
  have hnew := noted_new value
  have hlarge : maxResponseMetadataBytes < (startText ⟨200,[⟨"x-note",value⟩]⟩).length := by
    have hstring := string_length value
    simp only [startText, headerText, arrayText, List.length_append, List.length_cons,
      maxResponseMetadataBytes]
    omega
  have hencode := encode_oversized (L := jsonLibraries) (fun _ => rfl)
    ⟨200,[⟨"x-note",value⟩]⟩ (new_valid _ _ _ hnew) hlarge
  obtain ⟨writer,hw,_,_⟩ := responseEnds paddingCipher_lawful sampleSecrets sampleRequest
  simp only [encryptedResponse, responseHead, hnew, hw, sealFramed, hencode]

/-- One header of 64 KiB: the head is valid, and the admitted request gets a plaintext
outer error. -/
theorem large_head_unavailable :
    encryptedResponse paddingCipher jsonLibraries sampleSecrets sampleRequest
        (notedResponse (String.ofList (List.replicate 65536 'a'))) = .error .unavailable ∧
      ¬Answered paddingCipher jsonLibraries sampleSecrets sampleRequest
        (notedResponse (String.ofList (List.replicate 65536 'a'))) := by
  have hanswer := noted_unavailable (String.ofList (List.replicate 65536 'a'))
    (utf8_replicate 65536).ge
  refine ⟨hanswer, ?_⟩
  rintro ⟨first,rest,failure,opener,decoder,hok,_,_⟩
  cases hanswer.symm.trans hok

end Maple.Transport.Fallback

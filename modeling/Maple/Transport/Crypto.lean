import Maple.Lib.BigEndian

/-!
# Transport-v2 record cryptography

The cipher and the key derivation function are parameters: the enclave and the
client call the same two libraries. Key labels, associated data, nonces and the
sequence counters are the program's own. The enclave seals the records of one
response under a per-request subkey, and the client opens them in order.
-/

set_option autoImplicit false

namespace Maple.Transport.Crypto
open BigEndian

abbrev Bytes := List UInt8

def ascii (s : String) : Bytes := s.toList.map (fun c => UInt8.ofNat c.toNat)

structure SessionId where
  bytes : Vector UInt8 16
  deriving DecidableEq, Repr

structure RequestId where
  bytes : Vector UInt8 16
  deriving DecidableEq, Repr

structure TrafficKey where
  bytes : Vector UInt8 32
  deriving DecidableEq, Repr

abbrev Nonce := Vector UInt8 12

/-- HKDF-SHA256 expansion to 32 bytes, and ChaCha20-Poly1305. -/
structure Primitives where
  hkdfExpand : Bytes → Bytes → Option TrafficKey
  encrypt : TrafficKey → Nonce → Bytes → Bytes → Option Bytes
  decrypt : TrafficKey → Nonce → Bytes → Bytes → Option Bytes

inductive CryptoError where
  | nonContributoryKey
  | keyDerivation
  | truncatedRecord
  | encryption
  | authentication
  | sequenceExhausted
  deriving DecidableEq, Repr

inductive TransportV2Error where
  | keyDerivation
  | invalidRequest
  | authentication
  | http
  | invalidFrame
  | invalidRecord
  | invalidSequence
  | truncatedResponse
  | postTerminalData
  deriving DecidableEq, Repr

def requestIdBytes : ℕ := 16
def recordTagBytes : ℕ := 16
def minRequestRecordBytes : ℕ := requestIdBytes+recordTagBytes

def requestSubkeyInfo : Bytes := ascii "opensecret/transport-v2/request-subkey/v1"
def responseSubkeyInfo : Bytes := ascii "opensecret/transport-v2/response-subkey/v1"
def requestRecordDomain : Bytes := ascii "opensecret/transport-v2/request-record/v1"
def responseRecordDomain : Bytes := ascii "opensecret/transport-v2/response-record/v1"

def subkeyInfo (label : Bytes) (sessionId : SessionId) (requestId : RequestId) : Bytes :=
  label ++ [0] ++ sessionId.bytes.toList ++ requestId.bytes.toList

def requestAad (sessionId : SessionId) (requestId : RequestId) : Bytes :=
  requestRecordDomain ++ [0] ++ sessionId.bytes.toList ++ requestId.bytes.toList

def responseAad (sessionId : SessionId) (requestId : RequestId) (sequence : UInt64) : Bytes :=
  responseRecordDomain ++ [0] ++ sessionId.bytes.toList ++ requestId.bytes.toList ++
    toBytes 8 sequence.toNat

def responseNonce (sequence : UInt64) : Nonce :=
  ⟨(List.replicate 4 0 ++ toBytes 8 sequence.toNat).toArray, by simp [toBytes_length]⟩

def zeroNonce : Nonce := Vector.replicate 12 0

theorem responseNonce_injective (a b : UInt64) (h : responseNonce a = responseNonce b) : a = b := by
  have hl := congrArg (fun v => v.toArray.toList) h
  simp only [responseNonce, List.append_cancel_left_eq] at hl
  have ha : a.toNat < 256^8 := by simpa using a.toNat_lt
  have hb : b.toNat < 256^8 := by simpa using b.toNat_lt
  exact UInt64.toNat_inj.mp (toBytes_injective ha hb hl)

def checkedSucc (n : UInt64) : Option UInt64 :=
  if n.toNat+1 < 2^64 then some (n+1) else none

theorem checkedSucc_some {n m : UInt64} (h : checkedSucc n = some m) : m.toNat = n.toNat+1 := by
  unfold checkedSucc at h
  split_ifs at h with hn
  cases h
  rw [UInt64.toNat_add]
  simpa using Nat.mod_eq_of_lt hn

structure SessionSecrets where
  sessionId : SessionId
  requestKey : TrafficKey
  responseKey : TrafficKey

structure ResponseSealer where
  sessionId : SessionId
  requestId : RequestId
  key : TrafficKey
  nextSequence : UInt64

structure ResponseOpener where
  sessionId : SessionId
  requestId : RequestId
  key : TrafficKey
  nextSequence : UInt64

variable (P : Primitives)

def deriveRecordSubkey (baseKey : TrafficKey) (label : Bytes) (sessionId : SessionId)
    (requestId : RequestId) : Option TrafficKey :=
  P.hkdfExpand baseKey.bytes.toList (subkeyInfo label sessionId requestId)

def sealDetachedNonce (key : TrafficKey) (aad : Bytes) (nonce : Nonce) (plaintext : Bytes) :
    Except CryptoError Bytes :=
  match P.encrypt key nonce aad plaintext with
  | some ciphertext => .ok ciphertext
  | none => .error .encryption

def openDetachedNonce (key : TrafficKey) (aad : Bytes) (nonce : Nonce) (record : Bytes) :
    Except CryptoError Bytes :=
  if record.length < recordTagBytes then .error .truncatedRecord
  else match P.decrypt key nonce aad record with
    | some plaintext => .ok plaintext
    | none => .error .authentication

/-- The counter moves before the cipher runs, so a failed encryption has used
up its sequence number. An exhausted counter stays where it is. -/
def ResponseSealer.sealNext (s : ResponseSealer) (plaintext : Bytes) :
    Except CryptoError Bytes × ResponseSealer :=
  match checkedSucc s.nextSequence with
  | none => (.error .sequenceExhausted, s)
  | some next =>
    (sealDetachedNonce P s.key (responseAad s.sessionId s.requestId s.nextSequence)
      (responseNonce s.nextSequence) plaintext, { s with nextSequence := next })

def SessionSecrets.responseSealer (s : SessionSecrets) (requestId : RequestId) :
    Except CryptoError ResponseSealer :=
  match deriveRecordSubkey P s.responseKey responseSubkeyInfo s.sessionId requestId with
  | some key => .ok ⟨s.sessionId, requestId, key, 0⟩
  | none => .error .keyDerivation

def requestIdOf (record : Bytes) (h : minRequestRecordBytes ≤ record.length) : RequestId :=
  ⟨⟨(record.take requestIdBytes).toArray, by
    simp only [minRequestRecordBytes, requestIdBytes, recordTagBytes] at *
    simp only [List.size_toArray, List.length_take]
    omega⟩⟩

def SessionSecrets.decryptRequest (s : SessionSecrets) (record : Bytes) :
    Except CryptoError (RequestId × Bytes) :=
  if h : minRequestRecordBytes ≤ record.length then
    let requestId := requestIdOf record h
    match deriveRecordSubkey P s.requestKey requestSubkeyInfo s.sessionId requestId with
    | none => .error .keyDerivation
    | some key =>
      match openDetachedNonce P key (requestAad s.sessionId requestId) zeroNonce
          (record.drop requestIdBytes) with
      | .error e => .error e
      | .ok plaintext => .ok (requestId,plaintext)
  else .error .truncatedRecord

def openRecord (key : TrafficKey) (aad : Bytes) (nonce : Nonce) (record : Bytes) :
    Except TransportV2Error Bytes :=
  if record.length < recordTagBytes then .error .invalidFrame
  else match P.decrypt key nonce aad record with
    | some plaintext => .ok plaintext
    | none => .error .authentication

def ResponseOpener.openNext (o : ResponseOpener) (record : Bytes) :
    Except TransportV2Error (Bytes × ResponseOpener) :=
  match openRecord P o.key (responseAad o.sessionId o.requestId o.nextSequence)
      (responseNonce o.nextSequence) record with
  | .error e => .error e
  | .ok plaintext =>
    match checkedSucc o.nextSequence with
    | none => .error .invalidSequence
    | some next => .ok (plaintext, { o with nextSequence := next })

def SessionSecrets.responseOpener (s : SessionSecrets) (requestId : RequestId) :
    Except TransportV2Error ResponseOpener :=
  match deriveRecordSubkey P s.responseKey responseSubkeyInfo s.sessionId requestId with
  | some key => .ok ⟨s.sessionId, requestId, key, 0⟩
  | none => .error .keyDerivation

end Maple.Transport.Crypto

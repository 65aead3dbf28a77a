import Maple.Transport.Crypto

/-!
# Response records and outer frames

The enclave encodes a response as one start record, body chunks of at most
64 KiB and one terminal record, seals each record and prefixes the ciphertext
with its length. JSON serialization and the HTTP header parsers are library
code and enter as parameters; every limit and every check is the program's own.
-/

set_option autoImplicit false

namespace Maple.Transport.Framing
open BigEndian Crypto

structure LogicalHeader where
  name : String
  value : String
  deriving DecidableEq, Repr

/-- `HeaderName::from_bytes` gives the parsed, lower-cased name. -/
structure Http where
  headerName : String → Option String
  headerValue : String → Bool

structure ResponseStart where
  status : ℕ
  headers : List LogicalHeader
  deriving DecidableEq, Repr

structure ResponseFailure where
  code : String
  deriving DecidableEq, Repr

structure Json (α : Type) where
  toVec : α → Option Bytes
  fromSlice : Bytes → Option α

structure Libraries where
  http : Http
  start : Json ResponseStart
  failure : Json ResponseFailure

inductive EnvelopeError where
  | invalidHeaderName
  | invalidHeaderValue
  | gatewayControlledHeader
  deriving DecidableEq, Repr

inductive FramingError where
  | recordTooLarge
  | invalidMetadata
  | invalidStatus
  | tooManyHeaders
  | invalidHeader (source : EnvelopeError)
  | invalidErrorCode
  | invalidCiphertextLength
  deriving DecidableEq, Repr

def maxResponseChunkBytes : ℕ := 64*1024
def maxResponseMetadataBytes : ℕ := 64*1024
def maxResponseErrorCodeBytes : ℕ := 64
def maxResponseRecordPlaintextBytes : ℕ := 1+maxResponseChunkBytes
def maxResponseRecordCiphertextBytes : ℕ := maxResponseRecordPlaintextBytes+recordTagBytes
def ciphertextLengthBytes : ℕ := 4
def maxResponseHeaderCount : ℕ := 32

def startTag : UInt8 := 1
def chunkTag : UInt8 := 2
def endTag : UInt8 := 3
def errorTag : UInt8 := 4

def gatewayControlledHeaders : List String :=
  ["authorization", "proxy-authorization", "cookie", "set-cookie", "host",
    "content-length", "transfer-encoding", "connection", "keep-alive", "te",
    "trailer", "upgrade", "forwarded", "via", "x-forwarded-for", "x-forwarded-host",
    "x-forwarded-proto", "x-opensecret-routing-key", "x-session-id"]

def isGatewayControlledHeader (name : String) : Bool := gatewayControlledHeaders.contains name

variable (L : Libraries)

def validateHeader (header : LogicalHeader) : Except EnvelopeError Unit :=
  match L.http.headerName header.name with
  | none => .error .invalidHeaderName
  | some parsed =>
    if parsed ≠ header.name then .error .invalidHeaderName
    else if isGatewayControlledHeader parsed then .error .gatewayControlledHeader
    else if L.http.headerValue header.value then .ok () else .error .invalidHeaderValue

def validateHeaders : List LogicalHeader → Except FramingError Unit
  | [] => .ok ()
  | header::rest =>
    match validateHeader L header with
    | .error e => .error (.invalidHeader e)
    | .ok () => validateHeaders rest

def ResponseStart.validate (start : ResponseStart) : Except FramingError Unit :=
  if ¬(200 ≤ start.status ∧ start.status ≤ 599) then .error .invalidStatus
  else if start.headers.length > maxResponseHeaderCount then .error .tooManyHeaders
  else validateHeaders L start.headers

def ResponseStart.new (status : ℕ) (headers : List LogicalHeader) :
    Except FramingError ResponseStart :=
  match ResponseStart.validate L ⟨status, headers⟩ with
  | .error e => .error e
  | .ok () => .ok ⟨status, headers⟩

def isErrorCodeChar (c : Char) : Bool := c.isLower || c.isDigit || c == '_'

def validateErrorCode (code : String) : Except FramingError Unit :=
  if code.isEmpty ∨ code.utf8ByteSize > maxResponseErrorCodeBytes ∨
      ¬code.toList.all isErrorCodeChar then .error .invalidErrorCode
  else .ok ()

inductive ResponseRecord where
  | start (head : ResponseStart)
  | chunk (bytes : Bytes)
  | finish
  | error (code : String)
  deriving DecidableEq, Repr

def encodeMetadata {α : Type} (json : Json α) (tag : UInt8) (value : α) :
    Except FramingError Bytes :=
  match json.toVec value with
  | none => .error .invalidMetadata
  | some metadata =>
    if metadata.length > maxResponseMetadataBytes ∨
        metadata.length+1 > maxResponseRecordPlaintextBytes then .error .recordTooLarge
    else .ok (tag::metadata)

def ResponseRecord.encode : ResponseRecord → Except FramingError Bytes
  | .start head =>
    match head.validate L with
    | .error e => .error e
    | .ok () => encodeMetadata L.start startTag head
  | .chunk bytes =>
    if bytes.length > maxResponseChunkBytes then .error .recordTooLarge
    else .ok (chunkTag::bytes)
  | .finish => .ok [endTag]
  | .error code =>
    match validateErrorCode code with
    | .error e => .error e
    | .ok () => encodeMetadata L.failure errorTag ⟨code⟩

def frameCiphertext (ciphertext : Bytes) : Except FramingError Bytes :=
  if ciphertext.length < recordTagBytes ∨
      ciphertext.length > maxResponseRecordCiphertextBytes then .error .invalidCiphertextLength
  else .ok (toBytes ciphertextLengthBytes ciphertext.length ++ ciphertext)

variable {encoded : Bytes}

theorem encodeMetadata_ok {α : Type} {json : Json α} {tag : UInt8} {value : α}
    (h : encodeMetadata json tag value = .ok encoded) :
    ∃ metadata, json.toVec value = some metadata ∧
      metadata.length ≤ maxResponseMetadataBytes ∧ encoded = tag::metadata := by
  unfold encodeMetadata at h
  split at h
  · cases h
  · rename_i metadata hv
    split_ifs at h with hl
    cases h
    exact ⟨metadata,hv,by omega,rfl⟩

theorem encodeMetadata_length {α : Type} {json : Json α} {tag : UInt8} {value : α}
    (h : encodeMetadata json tag value = .ok encoded) :
    encoded.length ≤ maxResponseRecordPlaintextBytes := by
  obtain ⟨metadata,_,hl,rfl⟩ := encodeMetadata_ok h
  simp only [List.length_cons, maxResponseRecordPlaintextBytes, maxResponseChunkBytes,
    maxResponseMetadataBytes] at *
  omega

theorem encode_length {r : ResponseRecord} (h : r.encode L = .ok encoded) :
    encoded.length ≤ maxResponseRecordPlaintextBytes := by
  cases r with
  | start head =>
    simp only [ResponseRecord.encode] at h
    split at h
    · cases h
    · exact encodeMetadata_length h
  | chunk bytes =>
    simp only [ResponseRecord.encode] at h
    split_ifs at h with hl
    cases h
    simp only [List.length_cons, maxResponseRecordPlaintextBytes]
    omega
  | finish =>
    cases h
    decide
  | error code =>
    simp only [ResponseRecord.encode] at h
    split at h
    · cases h
    · exact encodeMetadata_length h

theorem frameCiphertext_ok_iff (ciphertext frame : Bytes) :
    frameCiphertext ciphertext = .ok frame ↔ recordTagBytes ≤ ciphertext.length ∧
      ciphertext.length ≤ maxResponseRecordCiphertextBytes ∧
      frame = toBytes ciphertextLengthBytes ciphertext.length ++ ciphertext := by
  unfold frameCiphertext
  split_ifs with h
  · simp only [false_iff]
    omega
  simp only [Except.ok.injEq, eq_comm (a := frame)]
  constructor
  · intro he
    exact ⟨by omega,by omega,he⟩
  · intro he
    exact he.2.2

end Maple.Transport.Framing

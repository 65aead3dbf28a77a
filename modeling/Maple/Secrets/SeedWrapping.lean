import Mathlib.Data.Set.Function
import Maple.Secrets.Canonical

/-!
# Seed wrapping

A seed is wrapped under a key derived from the binding of a credential, with the user,
the project, the kind of the credential and the binding as associated data. The binding
is a MAC of the facts the credential was verified with. HKDF, HMAC and AES-GCM are
parameters; the random nonce is an argument.
-/

set_option autoImplicit false

namespace Maple.Secrets

open BigEndian Delimited Text

inductive Failure where
  | panicked
  | failedToDecrypt
  | badData
  | keyDerivationFailed
  deriving DecidableEq

abbrev AeadKey := Vector UInt8 32

abbrev Nonce := Vector UInt8 12

structure Primitives where
  hkdf : Option Bytes → Bytes → Bytes → Option AeadKey
  hmac : AeadKey → Bytes → Vector UInt8 32
  encrypt : AeadKey → Nonce → Bytes → Bytes → Option Bytes
  decrypt : AeadKey → Nonce → Bytes → Bytes → Option Bytes

def authBindingMacInfo : Bytes := utf8 "os.auth-binding-mac.v1"
def seedWrapRootInfo : Bytes := utf8 "os.seed-wrap-root.v1"
def seedWrapAeadKeyInfo : Bytes := utf8 "os.seed-wrap-aead-key.v1"

def passwordAuthBindingDomain : String := "os.password-auth-binding.v1"
def passwordLookupDomain : String := "os.password-lookup.v1"
def passwordResetCodeDomain : String := "os.password-reset-code.v1"
def oauthAuthBindingDomain : String := "os.oauth-auth-binding.v1"
def oauthLookupDomain : String := "os.oauth-lookup.v1"
def seedWrapDomain : String := "os.seed-wrap.v1"

def seedWrapVersionV1 : Int16 := 1

inductive CredentialKind where
  | password
  | oauth
  deriving DecidableEq

def CredentialKind.asStr : CredentialKind → String
  | .password => "password"
  | .oauth => "oauth"

inductive PasswordLoginIdentifierKind where
  | email
  | guestUuid
  deriving DecidableEq

def PasswordLoginIdentifierKind.asStr : PasswordLoginIdentifierKind → String
  | .email => "email"
  | .guestUuid => "guest_uuid"

@[ext] structure AuthBinding where
  bytes : Vector UInt8 32
  deriving DecidableEq

inductive Facts where
  | passwordBinding (projectId : Int32) (userUuid : Uuid) (kind : PasswordLoginIdentifierKind)
      (identifier verifier : String)
  | oauthBinding (projectId : Int32) (userUuid : Uuid) (provider providerUserId : String)
  | passwordLookup (projectId : Int32) (userUuid : Uuid)
  | oauthLookup (projectId : Int32) (userUuid : Uuid) (provider providerUserId : String)
  | passwordResetCode (projectId : Int32) (userUuid : Uuid) (code : String)
  | seedWrap (userUuid : Uuid) (projectId : Int32) (kind : CredentialKind) (binding : AuthBinding)
  deriving DecidableEq

inductive Purpose where
  | passwordBinding
  | oauthBinding
  | passwordLookup
  | oauthLookup
  | passwordResetCode
  | seedWrap
  deriving DecidableEq

def Purpose.domain : Purpose → String
  | .passwordBinding => passwordAuthBindingDomain
  | .oauthBinding => oauthAuthBindingDomain
  | .passwordLookup => passwordLookupDomain
  | .oauthLookup => oauthLookupDomain
  | .passwordResetCode => passwordResetCodeDomain
  | .seedWrap => seedWrapDomain

def Facts.purpose : Facts → Purpose
  | .passwordBinding .. => .passwordBinding
  | .oauthBinding .. => .oauthBinding
  | .passwordLookup .. => .passwordLookup
  | .oauthLookup .. => .oauthLookup
  | .passwordResetCode .. => .passwordResetCode
  | .seedWrap .. => .seedWrap

def Facts.fields : Facts → List Field
  | .passwordBinding projectId userUuid kind identifier verifier =>
    [.i32 projectId, .uuid userUuid, .str kind.asStr, .str identifier, .str verifier]
  | .oauthBinding projectId userUuid provider providerUserId =>
    [.i32 projectId, .uuid userUuid, .str provider, .str providerUserId]
  | .passwordLookup projectId userUuid => [.i32 projectId, .uuid userUuid]
  | .oauthLookup projectId userUuid provider providerUserId =>
    [.i32 projectId, .uuid userUuid, .str provider, .str providerUserId]
  | .passwordResetCode projectId userUuid code => [.i32 projectId, .uuid userUuid, .str code]
  | .seedWrap userUuid projectId kind binding =>
    [.uuid userUuid, .i32 projectId, .str kind.asStr, .i16 seedWrapVersionV1,
      .bytes binding.bytes.toList]

def Facts.bytes (facts : Facts) : Except Failure Bytes :=
  match canonical facts.purpose.domain facts.fields with
  | some bytes => .ok bytes
  | none => .error .panicked

section Functions
variable (P : Primitives)

def deriveKey (rootKey info : Bytes) : Except Failure AeadKey :=
  match P.hkdf none rootKey info with
  | some key => .ok key
  | none => .error .keyDerivationFailed

def deriveKeyWithSalt (inputKey salt info : Bytes) : Except Failure AeadKey :=
  match P.hkdf (some salt) inputKey info with
  | some key => .ok key
  | none => .error .keyDerivationFailed

def hmacWithRootDomainKey (rootKey keyInfo message : Bytes) : Except Failure (Vector UInt8 32) := do
  let macKey ← deriveKey P rootKey keyInfo
  return P.hmac macKey message

def computeMac (rootKey keyInfo : Bytes) (facts : Facts) : Except Failure (Vector UInt8 32) := do
  let message ← facts.bytes
  hmacWithRootDomainKey P rootKey keyInfo message

def computePasswordAuthBinding (rootKey : Bytes) (projectId : Int32) (userUuid : Uuid)
    (kind : PasswordLoginIdentifierKind) (identifier verifier : String) :
    Except Failure AuthBinding :=
  AuthBinding.mk <$> computeMac P rootKey authBindingMacInfo
    (.passwordBinding projectId userUuid kind identifier verifier)

def computeOauthAuthBinding (rootKey : Bytes) (projectId : Int32) (userUuid : Uuid)
    (provider providerUserId : String) : Except Failure AuthBinding :=
  AuthBinding.mk <$> computeMac P rootKey authBindingMacInfo
    (.oauthBinding projectId userUuid provider providerUserId)

def deriveSeedWrapAeadKey (rootKey : Bytes) (binding : AuthBinding) : Except Failure AeadKey := do
  let seedWrapRootKey ← deriveKey P rootKey seedWrapRootInfo
  deriveKeyWithSalt P seedWrapRootKey.toList binding.bytes.toList seedWrapAeadKeyInfo

def seedWrapAadV1 (userUuid : Uuid) (projectId : Int32) (kind : CredentialKind)
    (binding : AuthBinding) : Except Failure Bytes :=
  (Facts.seedWrap userUuid projectId kind binding).bytes

def encryptAeadV1 (key : AeadKey) (plaintext aad : Bytes) (nonce : Nonce) : Except Failure Bytes :=
  match P.encrypt key nonce aad plaintext with
  | some ciphertext => .ok (nonce.toList++ciphertext)
  | none => .error .failedToDecrypt

def nonceOf (bytes : Bytes) (h : ¬bytes.length < 12) : Nonce :=
  ⟨(bytes.take 12).toArray, by
    rw [List.size_toArray, List.length_take]
    omega⟩

def decryptAeadV1 (key : AeadKey) (bytes aad : Bytes) : Except Failure Bytes :=
  if h : bytes.length < 12 then .error .badData
  else
    match P.decrypt key (nonceOf bytes h) aad (bytes.drop 12) with
    | some plaintext => .ok plaintext
    | none => .error .failedToDecrypt

def encryptSeedV1 (rootKey plaintextSeed : Bytes) (userUuid : Uuid) (projectId : Int32)
    (kind : CredentialKind) (binding : AuthBinding) (nonce : Nonce) : Except Failure Bytes := do
  let key ← deriveSeedWrapAeadKey P rootKey binding
  let aad ← seedWrapAadV1 userUuid projectId kind binding
  encryptAeadV1 P key plaintextSeed aad nonce

def decryptSeedV1 (rootKey encryptedSeed : Bytes) (userUuid : Uuid) (projectId : Int32)
    (kind : CredentialKind) (binding : AuthBinding) : Except Failure Bytes := do
  let key ← deriveSeedWrapAeadKey P rootKey binding
  let aad ← seedWrapAadV1 userUuid projectId kind binding
  decryptAeadV1 P key encryptedSeed aad

end Functions

inductive Credential where
  | password (projectId : Int32) (userUuid : Uuid) (kind : PasswordLoginIdentifierKind)
      (identifier verifier : String)
  | oauth (projectId : Int32) (userUuid : Uuid) (provider providerUserId : String)
  deriving DecidableEq

def Credential.facts : Credential → Facts
  | .password projectId userUuid kind identifier verifier =>
    .passwordBinding projectId userUuid kind identifier verifier
  | .oauth projectId userUuid provider providerUserId =>
    .oauthBinding projectId userUuid provider providerUserId

/-- A context to wrap a seed in. Nothing ties the kind, the user and the project of the
wrapping to those of the binding. -/
structure SeedContext where
  userUuid : Uuid
  projectId : Int32
  kind : CredentialKind
  credential : Credential
  deriving DecidableEq

section Contexts
variable (P : Primitives) (rootKey : Bytes)

def Credential.binding : Credential → Except Failure AuthBinding
  | .password projectId userUuid kind identifier verifier =>
    computePasswordAuthBinding P rootKey projectId userUuid kind identifier verifier
  | .oauth projectId userUuid provider providerUserId =>
    computeOauthAuthBinding P rootKey projectId userUuid provider providerUserId

def SeedContext.wrap (context : SeedContext) (seed : Bytes) (nonce : Nonce) :
    Except Failure Bytes := do
  let binding ← context.credential.binding P rootKey
  encryptSeedV1 P rootKey seed context.userUuid context.projectId context.kind binding nonce

def SeedContext.unwrap (context : SeedContext) (wrapped : Bytes) : Except Failure Bytes := do
  let binding ← context.credential.binding P rootKey
  decryptSeedV1 P rootKey wrapped context.userUuid context.projectId context.kind binding

/-- The key and the associated data a context seals and opens with. -/
def SeedContext.inputs (context : SeedContext) : Except Failure (AeadKey × Bytes) := do
  let binding ← context.credential.binding P rootKey
  let key ← deriveSeedWrapAeadKey P rootKey binding
  let aad ← seedWrapAadV1 context.userUuid context.projectId context.kind binding
  return (key, aad)

end Contexts

theorem bind_ok {α β ε : Type} {x : Except ε α} {f : α → Except ε β} {b : β} (h : x >>= f = .ok b) :
    ∃ a, x = .ok a ∧ f a = .ok b := by
  cases x with
  | error e => cases h
  | ok a => exact ⟨a,rfl,h⟩

theorem map_ok {α β ε : Type} {x : Except ε α} {f : α → β} {b : β} (h : f <$> x = .ok b) :
    ∃ a, x = .ok a ∧ f a = b := by
  cases x with
  | error e => cases h
  | ok a => exact ⟨a,rfl,Except.ok.inj h⟩

theorem identifier_kind_injective {left right : PasswordLoginIdentifierKind}
    (h : left.asStr = right.asStr) : left = right := by
  revert h
  cases left <;> cases right <;> decide

theorem credential_kind_injective {left right : CredentialKind} (h : left.asStr = right.asStr) :
    left = right := by
  revert h
  cases left <;> cases right <;> decide

theorem domain_injective {left right : Purpose} (h : left.domain = right.domain) :
    left = right := by
  revert h
  cases left <;> cases right <;> decide

theorem facts_eq {left right : Facts} (hpurpose : left.purpose = right.purpose)
    (hfields : left.fields = right.fields) : left = right := by
  cases left with
  | passwordBinding projectId userUuid kind identifier verifier =>
    cases right with
    | passwordBinding projectId' userUuid' kind' identifier' verifier' =>
      simp only [Facts.fields, List.cons.injEq, Field.i32.injEq, Field.uuid.injEq,
        Field.str.injEq, and_true] at hfields
      obtain ⟨rfl,rfl,hkind,rfl,rfl⟩ := hfields
      rw [identifier_kind_injective hkind]
    | _ => cases hpurpose
  | oauthBinding projectId userUuid provider providerUserId =>
    cases right with
    | oauthBinding projectId' userUuid' provider' providerUserId' =>
      simp only [Facts.fields, List.cons.injEq, Field.i32.injEq, Field.uuid.injEq,
        Field.str.injEq, and_true] at hfields
      obtain ⟨rfl,rfl,rfl,rfl⟩ := hfields
      rfl
    | _ => cases hpurpose
  | passwordLookup projectId userUuid =>
    cases right with
    | passwordLookup projectId' userUuid' =>
      simp only [Facts.fields, List.cons.injEq, Field.i32.injEq, Field.uuid.injEq,
        and_true] at hfields
      obtain ⟨rfl,rfl⟩ := hfields
      rfl
    | _ => cases hpurpose
  | oauthLookup projectId userUuid provider providerUserId =>
    cases right with
    | oauthLookup projectId' userUuid' provider' providerUserId' =>
      simp only [Facts.fields, List.cons.injEq, Field.i32.injEq, Field.uuid.injEq,
        Field.str.injEq, and_true] at hfields
      obtain ⟨rfl,rfl,rfl,rfl⟩ := hfields
      rfl
    | _ => cases hpurpose
  | passwordResetCode projectId userUuid code =>
    cases right with
    | passwordResetCode projectId' userUuid' code' =>
      simp only [Facts.fields, List.cons.injEq, Field.i32.injEq, Field.uuid.injEq,
        Field.str.injEq, and_true] at hfields
      obtain ⟨rfl,rfl,rfl⟩ := hfields
      rfl
    | _ => cases hpurpose
  | seedWrap userUuid projectId kind binding =>
    cases right with
    | seedWrap userUuid' projectId' kind' binding' =>
      simp only [Facts.fields, List.cons.injEq, Field.i32.injEq, Field.uuid.injEq,
        Field.str.injEq, Field.bytes.injEq, true_and, and_true] at hfields
      obtain ⟨rfl,rfl,hkind,hbinding⟩ := hfields
      have hbytes : binding.bytes = binding'.bytes := Vector.toList_inj.mp hbinding
      rw [credential_kind_injective hkind, AuthBinding.ext hbytes]
    | _ => cases hpurpose

/-- Byte strings of two purposes, or of two sets of facts, never coincide. -/
theorem facts_injective (left right : Facts) (bytes : Bytes) (hleft : left.bytes = .ok bytes)
    (hright : right.bytes = .ok bytes) : left = right := by
  have hsome (facts : Facts) (h : facts.bytes = .ok bytes) :
      canonical facts.purpose.domain facts.fields = some bytes := by
    unfold Facts.bytes at h
    split at h
    · rename_i written hwritten
      rw [hwritten, Except.ok.inj h]
    · cases h
  obtain ⟨hdomain,hfields⟩ := canonical_injective (hsome left hleft) (hsome right hright)
  exact facts_eq (domain_injective hdomain) hfields

/-- Of the inputs in use, only those of the sealing open what was sealed. -/
structure Committing (P : Primitives) (inputs : Set (AeadKey × Bytes))
    (seeds : Set (Nonce × Bytes)) : Prop where
  opens : ∀ input ∈ inputs, ∀ other ∈ inputs, ∀ seed ∈ seeds, ∀ ciphertext opened,
    P.encrypt input.1 seed.1 input.2 seed.2 = some ciphertext →
    P.decrypt other.1 seed.1 other.2 ciphertext = some opened →
    other = input ∧ opened = seed.2

structure InUse (P : Primitives) (rootKey : Bytes) (messages : Set Bytes)
    (inputs : Set (AeadKey × Bytes)) (context : SeedContext) : Prop where
  message : ∀ message, context.credential.facts.bytes = .ok message → message ∈ messages
  input : ∀ input, context.inputs P rootKey = .ok input → input ∈ inputs

theorem credential_facts_injective {left right : Credential} (h : left.facts = right.facts) :
    left = right := by
  cases left <;> cases right <;> simp_all [Credential.facts]

variable {P : Primitives} {rootKey : Bytes}

theorem binding_ok {credential : Credential} {binding : AuthBinding}
    (h : credential.binding P rootKey = .ok binding) :
    ∃ key message, deriveKey P rootKey authBindingMacInfo = .ok key ∧
      credential.facts.bytes = .ok message ∧ binding.bytes = P.hmac key message := by
  have hmac : AuthBinding.mk <$> computeMac P rootKey authBindingMacInfo credential.facts =
      .ok binding := by
    cases credential <;> exact h
  obtain ⟨mac,hcompute,hbinding⟩ := map_ok hmac
  obtain ⟨message,hmessage,hkeyed⟩ := bind_ok hcompute
  obtain ⟨key,hkey,hmac⟩ := bind_ok hkeyed
  refine ⟨key,message,hkey,hmessage,?_⟩
  rw [← hbinding]
  exact (Except.ok.inj hmac).symm

variable {context : SeedContext}

theorem inputs_ok {binding : AuthBinding} {key : AeadKey} {aad : Bytes}
    (hbinding : context.credential.binding P rootKey = .ok binding)
    (hkey : deriveSeedWrapAeadKey P rootKey binding = .ok key)
    (haad : seedWrapAadV1 context.userUuid context.projectId context.kind binding = .ok aad) :
    context.inputs P rootKey = .ok (key, aad) := by
  rw [SeedContext.inputs, hbinding]
  change (deriveSeedWrapAeadKey P rootKey binding >>= _) = _
  rw [hkey]
  change (seedWrapAadV1 context.userUuid context.projectId context.kind binding >>= _) = _
  rw [haad]
  rfl

theorem wrap_ok {seed wrapped : Bytes} {nonce : Nonce}
    (h : context.wrap P rootKey seed nonce = .ok wrapped) :
    ∃ binding key aad ciphertext, context.credential.binding P rootKey = .ok binding ∧
      (Facts.seedWrap context.userUuid context.projectId context.kind binding).bytes = .ok aad ∧
      context.inputs P rootKey = .ok (key, aad) ∧
      P.encrypt key nonce aad seed = some ciphertext ∧ wrapped = nonce.toList++ciphertext := by
  obtain ⟨binding,hbinding,hencrypt⟩ := bind_ok h
  obtain ⟨key,hkey,hrest⟩ := bind_ok hencrypt
  obtain ⟨aad,haad,hsealed⟩ := bind_ok hrest
  unfold encryptAeadV1 at hsealed
  split at hsealed
  · rename_i ciphertext hciphertext
    cases hsealed
    exact ⟨binding,key,aad,ciphertext,hbinding,haad,inputs_ok hbinding hkey haad,
      hciphertext,rfl⟩
  · cases hsealed

theorem unwrap_ok {nonce : Nonce} {ciphertext plaintext : Bytes}
    (h : context.unwrap P rootKey (nonce.toList++ciphertext) = .ok plaintext) :
    ∃ binding key aad, context.credential.binding P rootKey = .ok binding ∧
      (Facts.seedWrap context.userUuid context.projectId context.kind binding).bytes = .ok aad ∧
      context.inputs P rootKey = .ok (key, aad) ∧
      P.decrypt key nonce aad ciphertext = some plaintext := by
  obtain ⟨binding,hbinding,hdecrypt⟩ := bind_ok h
  obtain ⟨key,hkey,hrest⟩ := bind_ok hdecrypt
  obtain ⟨aad,haad,hopened⟩ := bind_ok hrest
  unfold decryptAeadV1 at hopened
  split_ifs at hopened with hshort
  have hdrop : (nonce.toList++ciphertext).drop 12 = ciphertext :=
    List.drop_left' (Vector.length_toList)
  have hnonce : nonceOf (nonce.toList++ciphertext) hshort = nonce := by
    apply Vector.toList_inj.mp
    simp [nonceOf]
  rw [hdrop, hnonce] at hopened
  split at hopened
  · rename_i opened hplain
    cases hopened
    exact ⟨binding,key,aad,hbinding,haad,inputs_ok hbinding hkey haad,hplain⟩
  · cases hopened

/-- A seed wrapped in one context opens in another only if they are the same, as no two
sequences of fields, and no two sets of facts, have the same bytes. The MAC is collision
free on the messages of the contexts in use, and the cipher commits to their inputs. -/
theorem seed_opens_in_own_context (P : Primitives) (rootKey : Bytes) (messages : Set Bytes)
    (inputs : Set (AeadKey × Bytes)) (seeds : Set (Nonce × Bytes))
    (hmac : ∀ key, deriveKey P rootKey authBindingMacInfo = .ok key →
      Set.InjOn (P.hmac key) messages)
    (hcipher : Committing P inputs seeds) :
    (∀ (sealing opening : SeedContext) (seed wrapped plaintext : Bytes) (nonce : Nonce),
      InUse P rootKey messages inputs sealing → InUse P rootKey messages inputs opening →
      (nonce, seed) ∈ seeds →
      sealing.wrap P rootKey seed nonce = .ok wrapped →
      opening.unwrap P rootKey wrapped = .ok plaintext →
      opening = sealing ∧ plaintext = seed) ∧
    (∀ (fields others : List Field) (left right : CanonicalBytes),
      CanonicalBytes.appendAll ⟨[]⟩ fields = some left →
      CanonicalBytes.appendAll ⟨[]⟩ others = some right →
      left.bytes = right.bytes → fields = others) ∧
    ∀ (left right : Facts) (bytes : Bytes),
      left.bytes = .ok bytes → right.bytes = .ok bytes → left = right := by
  refine ⟨fun sealing opening seed wrapped plaintext nonce hsealing hopening hseed hwrap hunwrap =>
    ?_, fields_injective, facts_injective⟩
  obtain ⟨binding,key,aad,ciphertext,hbinding,haad,hinput,hencrypt,rfl⟩ := wrap_ok hwrap
  obtain ⟨binding',key',aad',hbinding',haad',hinput',hdecrypt⟩ := unwrap_ok hunwrap
  obtain ⟨hinputs,rfl⟩ := hcipher.opens _ (hsealing.input _ hinput) _ (hopening.input _ hinput') _
    hseed _ _ hencrypt hdecrypt
  cases hinputs
  obtain ⟨huser,hproject,hkind,hsame⟩ := Facts.seedWrap.inj (facts_injective _ _ _ haad' haad)
  obtain ⟨mac,message,hkey,hmessage,hvalue⟩ := binding_ok hbinding
  obtain ⟨mac',message',hkey',hmessage',hvalue'⟩ := binding_ok hbinding'
  cases hkey.symm.trans hkey'
  have hmessages : message' = message :=
    hmac mac hkey (hopening.message message' hmessage') (hsealing.message message hmessage)
      (hvalue'.symm.trans ((congrArg AuthBinding.bytes hsame).trans hvalue))
  subst hmessages
  have hcredential := credential_facts_injective (facts_injective _ _ _ hmessage' hmessage)
  refine ⟨?_, rfl⟩
  cases sealing
  cases opening
  cases huser
  cases hproject
  cases hkind
  cases hcredential
  rfl

section Sample

def lastBytes (bytes : Bytes) : Vector UInt8 32 :=
  ⟨(toBytes 32 (ofBytes bytes)).toArray, toBytes_length 32 _⟩

def header (inputs : (AeadKey × Nonce) × Bytes) : Bytes :=
  inputs.1.1.toList++inputs.1.2.toList++(inputs.2.flatMap (fun byte => [1, byte])++[0])

/-- A cipher that writes all its inputs in front of the plaintext. -/
def openCipher : Primitives where
  hkdf := fun salt inputKey info => some (lastBytes (inputKey++info++salt.getD []))
  hmac := fun _ message => lastBytes message
  encrypt := fun key nonce aad plaintext => some (header ((key, nonce), aad)++plaintext)
  decrypt := fun key nonce aad ciphertext =>
    if (header ((key, nonce), aad)).isPrefixOf ciphertext then
      some (ciphertext.drop (header ((key, nonce), aad)).length)
    else none

theorem header_delimited : SelfDelimiting header := by
  have hvector (width : ℕ) : SelfDelimiting (fun bytes : Vector UInt8 width => bytes.toList) :=
    delimited_fixed width _ (fun _ => Vector.length_toList) (fun _ _ h => Vector.toList_inj.mp h)
  have hbyte : SelfDelimiting (fun byte : UInt8 => [1, byte]) :=
    delimited_fixed 2 _ (fun _ => rfl) (fun _ _ h => by simpa using h)
  exact delimited_append (delimited_append (hvector 32) (hvector 12))
    (delimited_until hbyte 0 (fun _ _ _ h => by simp at h))

theorem open_cipher_committing (inputs : Set (AeadKey × Bytes)) (seeds : Set (Nonce × Bytes)) :
    Committing openCipher inputs seeds where
  opens := by
    rintro ⟨key,aad⟩ - ⟨key',aad'⟩ - ⟨nonce,plaintext⟩ - ciphertext opened hencrypt hdecrypt
    cases hencrypt
    simp only [openCipher] at hdecrypt
    split_ifs at hdecrypt with hstarts
    cases hdecrypt
    obtain ⟨rest,hrest⟩ := List.isPrefixOf_iff_prefix.mp hstarts
    obtain ⟨hsame,htail⟩ := header_delimited _ _ _ _ hrest
    simp only [Prod.mk.injEq] at hsame
    obtain ⟨⟨rfl,-⟩,rfl⟩ := hsame
    exact ⟨rfl,List.drop_left⟩

def sampleUser : Uuid := Vector.replicate 16 7

def samplePassword : SeedContext :=
  ⟨sampleUser, 42, .password, .password 42 sampleUser .email "alice" "hash"⟩

def sampleOauth : SeedContext := ⟨sampleUser, 42, .oauth, .oauth 42 sampleUser "github" "hash"⟩

def messageOf (context : SeedContext) : Bytes := context.credential.facts.bytes.toOption.getD []

def sampleWrapped : Except Failure Bytes :=
  samplePassword.wrap openCipher [1, 2, 3] [9, 8, 7] (Vector.replicate 12 5)

theorem seed_opens_in_own_context_sample :
    ∃ wrapped, sampleWrapped = .ok wrapped ∧
      samplePassword.unwrap openCipher [1, 2, 3] wrapped = .ok [9, 8, 7] ∧
      ∀ plaintext, sampleOauth.unwrap openCipher [1, 2, 3] wrapped ≠ .ok plaintext := by
  have hwrapped : sampleWrapped.toOption.isSome = true := by decide +kernel
  have hopened : (sampleWrapped >>= samplePassword.unwrap openCipher [1, 2, 3]).toOption =
      some [9, 8, 7] := by decide +kernel
  have hdiffer : lastBytes (messageOf samplePassword) ≠ lastBytes (messageOf sampleOauth) := by
    decide +kernel
  have hmac : ∀ key, deriveKey openCipher [1, 2, 3] authBindingMacInfo = .ok key →
      Set.InjOn (openCipher.hmac key) {messageOf samplePassword, messageOf sampleOauth} := by
    rintro key - left (rfl | rfl) right (rfl | rfl) hsame
    · rfl
    · exact absurd hsame hdiffer
    · exact absurd hsame.symm hdiffer
    · rfl
  have hmessage (context : SeedContext) (message : Bytes)
      (h : context.credential.facts.bytes = .ok message) : message = messageOf context := by
    rw [messageOf, h]
    rfl
  cases hresult : sampleWrapped with
  | error failure => simp [hresult, Except.toOption] at hwrapped
  | ok wrapped =>
    refine ⟨wrapped, rfl, ?_, fun plaintext hunwrap => ?_⟩
    · rw [hresult] at hopened
      cases hplain : samplePassword.unwrap openCipher [1, 2, 3] wrapped with
      | error failure =>
        have hnone : (Except.error failure : Except Failure Bytes).toOption = some [9, 8, 7] :=
          hplain ▸ hopened
        cases hnone
      | ok plaintext =>
        have hsome : (Except.ok plaintext : Except Failure Bytes).toOption = some [9, 8, 7] :=
          hplain ▸ hopened
        rw [Option.some.inj hsome]
    · have hsame := ((seed_opens_in_own_context openCipher [1, 2, 3] _
        {input | samplePassword.inputs openCipher [1, 2, 3] = .ok input ∨
          sampleOauth.inputs openCipher [1, 2, 3] = .ok input}
        {(Vector.replicate 12 5, [9, 8, 7])} hmac (open_cipher_committing _ _)).1
        samplePassword sampleOauth _ _ _ _
        ⟨fun message h => .inl (hmessage _ message h), fun _ => .inl⟩
        ⟨fun message h => .inr (hmessage _ message h), fun _ => .inr⟩ rfl hresult hunwrap).1
      exact absurd hsame (by decide)

end Sample

end Maple.Secrets

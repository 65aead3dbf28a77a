import Maple.Compaction.Items
import Maple.Lib.Fifo

/-!
# Loading the rows of a conversation

A response keeps the encrypted rows it has read. A kept row is used again only while the
metadata it was accepted with is still the metadata of the snapshot. Rows that are not kept
are fetched in batches, and a batch is checked as a whole before any of its rows is kept.
-/

set_option autoImplicit false

namespace Maple.Compaction.Source

open Items Keyed

def maxBatchRows : ℕ := 128
def maxSourceBatchBytes : ℕ := 8*1024*1024
def maxCacheBytes : ℕ := 16*1024*1024
def maxCacheRows : ℕ := 1024

def kindStr : ContextItemKind → String
  | .user => "user"
  | .assistant => "assistant"
  | .toolCall => "tool_call"
  | .toolOutput => "tool_output"
  | .reasoning => "reasoning"

def fromDbType (value : String) : Option ContextItemKind :=
  if value = "user" then some .user
  else if value = "assistant" then some .assistant
  else if value = "tool_call" then some .toolCall
  else if value = "tool_output" then some .toolOutput
  else if value = "reasoning" then some .reasoning
  else none

structure SourceMetadata where
  key : ContextItemKey
  id : ℤ
  createdAt : ℤ
  updatedAt : ℤ
  tokenCount : Option ℤ
  itemStatus : Option String
  responseUuid : Option Uuid
  responseStatus : Option String
  toolCallId : Option Uuid
  toolName : Option String
  model : Option String
  finishReason : Option String
  encryptedBytes : ℤ
  contentFingerprint : String
  deriving DecidableEq

structure RawThreadMessage where
  messageType : String
  id : ℤ
  uuid : Uuid
  responseUuid : Option Uuid
  contentEnc : Option (List UInt8)
  status : Option String
  createdAt : ℤ
  model : Option String
  tokenCount : Option ℤ
  toolCallId : Option Uuid
  finishReason : Option String
  toolName : Option String
  deriving DecidableEq

structure CompactionSnapshot where
  conversationId : ℤ
  conversationUuid : Uuid
  userId : Uuid
  items : List SourceMetadata

structure Scope where
  user : Uuid
  conversation : ℤ
  conversationUuid : Uuid
  deriving DecidableEq

def CompactionSnapshot.scope (source : CompactionSnapshot) : Scope :=
  ⟨source.userId, source.conversationId, source.conversationUuid⟩

/-- The metadata by key; a key that is listed twice has its last metadata. -/
def CompactionSnapshot.metadata (source : CompactionSnapshot) (key : ContextItemKey) :
    Option SourceMetadata :=
  source.items.reverse.find? (fun item => item.key = key)

structure CachedItem where
  metadata : SourceMetadata
  raw : RawThreadMessage

def payloadBytes (row : RawThreadMessage) : ℕ := (row.contentEnc.map List.length).getD 0

/-- The cache holds the items, their keys in the order of insertion and the cached bytes. -/
structure SourceLoader where
  scope : Option Scope
  cache : Fifo.Store ContextItemKey CachedItem

def SourceLoader.default : SourceLoader := ⟨none, .empty⟩

inductive DBError where
  | invalidSelection
  | other (reason : String)
  deriving DecidableEq

/-- A panic is an index without a value or a subtraction that underflows. -/
inductive LoadError where
  | database (error : DBError)
  | panic
  deriving DecidableEq

def rowKey (row : RawThreadMessage) : Option ContextItemKey :=
  (fromDbType row.messageType).map (fun kind => ⟨kind, row.uuid⟩)

/-- A call of fetch may depend on the batches that were asked for before. -/
abbrev Fetch := List (List ContextItemKey) → List ContextItemKey →
  Except DBError (List RawThreadMessage)

/-- A batch that was passed to fetch, and whether its rows were accepted. -/
structure Fetched where
  batch : List ContextItemKey
  accepted : Bool
  deriving DecidableEq

structure Loading where
  loader : SourceLoader
  log : List Fetched
  result : Map ContextItemKey RawThreadMessage

structure Loaded where
  loader : SourceLoader
  log : List Fetched
  result : Except LoadError (List RawThreadMessage)

section Digest
variable (sha256Hex : List UInt8 → String)

def fingerprint (row : RawThreadMessage) : String := (row.contentEnc.map sha256Hex).getD "-"

/-- The metadata of a user row also commits to the text of its attachment. -/
def expectedFingerprint (metadata : SourceMetadata) : List Char :=
  match metadata.key.kind with
  | .user => metadata.contentFingerprint.toList.takeWhile (fun c => c ≠ ':')
  | _ => metadata.contentFingerprint.toList

def toI64 (n : ℕ) : Option ℤ := if n < 2^63 then some n else none

def matchesSource (row : RawThreadMessage) (metadata : SourceMetadata) : Bool :=
  row.id = metadata.id && row.uuid = metadata.key.uuid &&
    row.messageType = kindStr metadata.key.kind && row.responseUuid = metadata.responseUuid &&
    row.createdAt = metadata.createdAt && row.status = metadata.itemStatus &&
    row.model = metadata.model && row.tokenCount = metadata.tokenCount &&
    row.toolCallId = metadata.toolCallId && row.finishReason = metadata.finishReason &&
    row.toolName = metadata.toolName &&
    toI64 (payloadBytes row) = some metadata.encryptedBytes &&
    (fingerprint sha256Hex row).toList = expectedFingerprint metadata

def itemBytes (item : CachedItem) : ℕ := payloadBytes item.raw

def retain (source : CompactionSnapshot) (uncovered : List ContextItemKey)
    (loader : SourceLoader) : SourceLoader :=
  if loader.scope ≠ some source.scope then ⟨some source.scope, .empty⟩
  else { loader with
    cache := Fifo.retain itemBytes (fun key cached =>
      uncovered.contains key && source.metadata key = some cached.metadata) loader.cache }

def cached (source : CompactionSnapshot) (loader : SourceLoader) : List RawThreadMessage :=
  if loader.scope ≠ some source.scope then []
  else source.items.filterMap (fun metadata =>
    ((loader.cache.items.get metadata.key).filter
      (fun item => item.metadata = metadata)).map CachedItem.raw)

section Metadata
variable (metadata : ContextItemKey → Option SourceMetadata)

def checkRows (batch : List ContextItemKey) :
    List RawThreadMessage → List ContextItemKey → Except LoadError Unit
  | [], _ => .ok ()
  | row::rows, received =>
    match rowKey row with
    | none => .error (.database .invalidSelection)
    | some key =>
      if key ∉ batch ∨ key ∈ received then .error (.database .invalidSelection)
      else
        match metadata key with
        | none => .error .panic
        | some data =>
          if matchesSource sha256Hex row data then checkRows batch rows (key::received)
          else .error (.database .invalidSelection)

def storeRows : List RawThreadMessage → Loading → Loading × Except LoadError Unit
  | [], s => (s, .ok ())
  | row::rows, s =>
    match rowKey row with
    | none => (s, .error (.database .invalidSelection))
    | some key =>
      match metadata key with
      | none => (s, .error .panic)
      | some data =>
        match Fifo.put itemBytes maxCacheBytes maxCacheRows data.key ⟨data, row⟩ s.loader.cache with
        | none => (s, .error .panic)
        | some cache =>
          storeRows rows
            { s with loader := { s.loader with cache := cache }, result := s.result.set key row }

def fetchBatch (fetch : Fetch) (batch : List ContextItemKey) (s : Loading) :
    Loading × Except LoadError Unit :=
  let refused := { s with log := s.log++[⟨batch, false⟩] }
  match fetch (s.log.map Fetched.batch) batch with
  | .error e => (refused, .error (.database e))
  | .ok rows =>
    if rows.length ≠ batch.length then (refused, .error (.database .invalidSelection))
    else
      match checkRows sha256Hex metadata batch rows [] with
      | .error e => (refused, .error e)
      | .ok () => storeRows metadata rows { s with log := s.log++[⟨batch, true⟩] }

def loadKeys (fetch : Fetch) : List ContextItemKey → List ContextItemKey → ℕ → Loading →
    Loading × Except LoadError Unit
  | [], batch, _, s => if batch.isEmpty then (s, .ok ()) else fetchBatch sha256Hex metadata fetch batch s
  | key::keys, batch, batchBytes, s =>
    match s.loader.cache.items.get key with
    | some cached =>
      loadKeys fetch keys batch batchBytes { s with result := s.result.set key cached.raw }
    | none =>
      match metadata key with
      | none => (s, .error .panic)
      | some data =>
        if data.encryptedBytes < 0 then (s, .error (.database .invalidSelection))
        else
          let bytes := data.encryptedBytes.toNat
          if ¬batch.isEmpty ∧ (batch.length = maxBatchRows ∨
              maxSourceBatchBytes < satAdd batchBytes bytes) then
            match fetchBatch sha256Hex metadata fetch batch s with
            | (s, .error e) => (s, .error e)
            | (s, .ok ()) => loadKeys fetch keys [key] (satAdd 0 bytes) s
          else loadKeys fetch keys (batch++[key]) (satAdd batchBytes bytes) s

end Metadata

def collectRows : List ContextItemKey → Map ContextItemKey RawThreadMessage →
    Except LoadError (List RawThreadMessage)
  | [], _ => .ok []
  | key::keys, result =>
    match result.get key with
    | none => .error (.database .invalidSelection)
    | some row =>
      match collectRows keys (result.remove key) with
      | .error e => .error e
      | .ok rows => .ok (row::rows)

def SourceLoader.refreshed (loader : SourceLoader) (source : CompactionSnapshot) : SourceLoader :=
  retain source (source.items.map SourceMetadata.key) loader

def load (fetch : Fetch) (source : CompactionSnapshot) (keys : List ContextItemKey)
    (loader : SourceLoader) : Loaded :=
  let loader := loader.refreshed source
  if ¬keys.Nodup ∨ ∃ key ∈ keys, source.metadata key = none then
    ⟨loader, [], .error (.database .invalidSelection)⟩
  else
    match loadKeys sha256Hex source.metadata fetch keys [] 0 ⟨loader, [], .empty⟩ with
    | (s, .error e) => ⟨s.loader, s.log, .error e⟩
    | (s, .ok ()) => ⟨s.loader, s.log, collectRows keys s.result⟩

inductive Call where
  | retain (source : CompactionSnapshot) (uncovered : List ContextItemKey)
  | cached (source : CompactionSnapshot)
  | load (source : CompactionSnapshot) (keys : List ContextItemKey) (fetch : Fetch)

def Call.apply (loader : SourceLoader) : Call → SourceLoader
  | .retain source uncovered => Source.retain source uncovered loader
  | .cached _ => loader
  | .load source keys fetch => (Source.load sha256Hex fetch source keys loader).loader

def after (calls : List Call) : SourceLoader :=
  calls.foldl (Call.apply sha256Hex) SourceLoader.default

end Digest

end Maple.Compaction.Source

import Maple.Timeline.Item

/-!
# Fitting a row into a page

A page has a byte budget. A row that is too large for it is sent as a preview:
its summary and the strings of its item are shortened, then whole payloads are
dropped, and last its own names are cut. The identity of the row stays.
-/

set_option autoImplicit false

namespace Maple.Paging.Fitting

open Session.Entries
open Timeline.Item hiding StoreError

inductive StoreError where
  | busy
  | notFound
  | invalidInput
  | invalidData
  | epochChanged
  deriving DecidableEq, Repr

structure TimelineRow where
  rowsEpoch : ℤ
  rowSeq : ℤ
  updateSeq : ℤ
  item : AgentTimelineItem
  summary : Option String
  summaryTruncated : Option ℕ

def TimelineRow.identity (row : TimelineRow) : ℤ × ℤ × ℤ :=
  (row.rowsEpoch, row.rowSeq, row.updateSeq)

def member (name : String) (value : Option Json) : List (String × Json) :=
  (value.map (fun value => (name, value))).toList

def intJson (n : ℤ) : Json := .number (toString n)

def natJson (n : ℕ) : Json := .number (toString n)

def labelJson (label : AgentTimelineLabel) : Json :=
  .obj ([("kind", .str label.kind)]++member "name" (label.name.map .str)++
    member "detail" (label.detail.map .str))

def persistedJson (id : AgentPersistedRowIdentity) : Json :=
  .obj [("taskId", .str id.taskId), ("rowsEpoch", intJson id.rowsEpoch),
    ("rowSeq", intJson id.rowSeq), ("updateSeq", intJson id.updateSeq)]

def liveJson (id : AgentLiveRowIdentity) : Json :=
  .obj [("runId", .str id.runId), ("occurrence", natJson id.occurrence)]

def itemJson (item : AgentTimelineItem) : Json :=
  .obj (member "label" (item.label.map labelJson)++
    member "persisted" (item.persisted.map persistedJson)++
    member "live" (item.live.map liveJson)++
    member "truncated" (item.truncated.map natJson)++
    [("revision", natJson item.revision), ("id", .str item.id), ("itemType", .str item.itemType)]++
    member "role" (item.role.map .str)++
    member "title" (item.title.map .str)++
    member "text" (item.text.map .str)++
    member "status" (item.status.map .str)++
    member "input" item.input++
    member "output" item.output++
    [("createdMs", natJson item.createdMs), ("merge", .str item.merge)])

def rowJson (row : TimelineRow) : Json :=
  .obj ([("rowsEpoch", intJson row.rowsEpoch), ("rowSeq", intJson row.rowSeq),
    ("updateSeq", intJson row.updateSeq), ("item", itemJson row.item)]++
    member "summary" (row.summary.map .str)++
    member "summaryTruncated" (row.summaryTruncated.map natJson))

def usizeMax : ℕ := 2^64-1

def satAdd (a b : ℕ) : ℕ := min (a+b) usizeMax

/-- What the store takes from its libraries: the size of a JSON text, the derived reader of an
item, and the decoder of a stored row (the bounded item, the size of the whole and of the
bounded one). -/
structure Library where
  textBytes : Json → ℕ
  fromValue : Json → Option AgentTimelineItem
  decodeBoundedRow : ℤ → List UInt8 → Except StoreError (AgentTimelineItem × ℕ × ℕ)

/-- `truncate_utf8`: the longest lead of at most `bytes` bytes. -/
def truncateUtf8 (text : String) (bytes : ℕ) : String :=
  String.ofList (leadBytes text.toList bytes)

/-- Change the member with the given key. -/
def withMember (key : String) (change : Json → Json) : Json → Json
  | .obj fields => .obj (fields.map (fun field =>
      if field.1 = key then (field.1, change field.2) else field))
  | value => value

def shrinkText (text : String) (ratio : Float) : String :=
  truncateUtf8 text ((utf8Length text.toList).toFloat*ratio).toUInt64.toNat

mutual

def shrinkStrings (ratio : Float) : Json → Json
  | .str text => .str (shrinkText text ratio)
  | .arr items => .arr (shrinkItems ratio items)
  | .obj fields => .obj (shrinkMembers ratio fields)
  | .null => .null
  | .bool value => .bool value
  | .number text => .number text

def shrinkItems (ratio : Float) : List Json → List Json
  | [] => []
  | item::items => shrinkStrings ratio item::shrinkItems ratio items

def shrinkMembers (ratio : Float) : List (String × Json) → List (String × Json)
  | [] => []
  | field::fields => shrinkMember ratio field::shrinkMembers ratio fields

def shrinkMember (ratio : Float) : String × Json → String × Json
  | (key, value) => (key, shrinkStrings ratio value)

end

def shrinkRatio (cap len : ℕ) : Float :=
  let ratio := cap.toFloat/len.toFloat*0.75
  if ratio < 0 then 0 else if 0.8 < ratio then 0.8 else ratio

def metadataKeys : List String := ["id", "role", "status", "itemType", "merge"]

/-- Cut the names that are longer than `limit` bytes. -/
def cutNames (limit bytes : ℕ) (value : Json) : Json :=
  metadataKeys.foldl (fun value key => withMember key (fun
    | .str text => .str (if limit < utf8Length text.toList then truncateUtf8 text bytes else text)
    | other => other) value) value

def shrinkPayloads (ratio : Float) (value : Json) : Json :=
  ["text", "input", "output", "title"].foldl (fun value key =>
    withMember key (shrinkStrings ratio) value) value

section Fit
variable (lib : Library)

def serializedLen (value : Json) : Except StoreError ℕ :=
  if usizeMax < lib.textBytes value then .error .invalidData else .ok (lib.textBytes value)

def summaryLoop (cap : ℕ) : ℕ → String → Except StoreError String
  | 0, summary => .ok summary
  | fuel+1, summary =>
    match serializedLen lib (.str summary) with
    | .error e => .error e
    | .ok len =>
      if cap < len ∧ summary ≠ "" then
        summaryLoop cap fuel (truncateUtf8 summary (utf8Length summary.toList/2))
      else .ok summary

def fitSummary (row : TimelineRow) (cap : ℕ) : Except StoreError TimelineRow :=
  match row.summary with
  | none => .ok row
  | some summary =>
    match summaryLoop lib (cap/8) (summary.toList.length+1) summary with
    | .error e => .error e
    | .ok short => .ok { row with
        summary := some short
        summaryTruncated :=
          if utf8Length short.toList = utf8Length summary.toList then row.summaryTruncated
          else row.summaryTruncated.or (some (utf8Length summary.toList)) }

/-- Read the shortened value back as an item, with its new size. -/
def readBack (value : Json) : Except StoreError (AgentTimelineItem × ℕ) :=
  match lib.fromValue value with
  | none => .error .invalidData
  | some item =>
    match serializedLen lib (itemJson item) with
    | .error e => .error e
    | .ok len => .ok (item, len)

/-- The strings shrink together, in at most `fuel` passes. -/
def shrinkLoop (cap : ℕ) : ℕ → ℕ → Json → Except StoreError (Bool × Json)
  | 0, _, value => .ok (false, value)
  | fuel+1, previous, value =>
    match serializedLen lib value with
    | .error e => .error e
    | .ok len =>
      if len ≤ cap then .ok (true, value)
      else if previous ≤ len then .ok (false, value)
      else shrinkLoop cap fuel len (shrinkPayloads (shrinkRatio cap len) value)

/-- Payloads are dropped one after the other. -/
def dropLoop (cap : ℕ) : List String → Json → Except StoreError (Bool × Json)
  | [], value => .ok (false, value)
  | key::keys, value =>
    let value := withMember key (fun _ => .null) value
    match serializedLen lib value with
    | .error e => .error e
    | .ok len => if len ≤ cap then .ok (true, value) else dropLoop cap keys value

def fitItem (item : AgentTimelineItem) (original cap currentBytes : ℕ) :
    Except StoreError (AgentTimelineItem × ℕ) :=
  if currentBytes ≤ cap then .ok (item, currentBytes)
  else
    let metadataCap := min (max (cap/16) 16) 256
    let value := cutNames (cap/4) metadataCap (itemJson { item with truncated := some original })
    match shrinkLoop lib cap 16 usizeMax value with
    | .error e => .error e
    | .ok (true, value) => readBack lib value
    | .ok (false, value) =>
      match dropLoop lib cap ["output", "input", "text", "title"] value with
      | .error e => .error e
      | .ok (true, value) => readBack lib value
      | .ok (false, value) =>
        let value := cutNames 0 metadataCap value
        match serializedLen lib value with
        | .error e => .error e
        | .ok len => if len ≤ cap then readBack lib value else .error .invalidInput

def fitRow (row : TimelineRow) (cap itemBytes : ℕ) : Except StoreError (TimelineRow × ℕ × ℕ) :=
  match fitSummary lib row cap with
  | .error e => .error e
  | .ok row =>
    match serializedLen lib (.arr [intJson row.rowsEpoch, intJson row.rowSeq, intJson row.updateSeq,
        (row.summary.map Json.str).getD .null, (row.summaryTruncated.map natJson).getD .null]) with
    | .error e => .error e
    | .ok len =>
      if cap < len+128 then .error .invalidInput
      else match fitItem lib row.item (row.item.truncated.getD itemBytes) (cap-(len+128)) itemBytes with
        | .error e => .error e
        | .ok (item, itemBytes) =>
          let row := { row with item := item }
          match serializedLen lib (rowJson row) with
          | .error e => .error e
          | .ok rowBytes =>
            if cap < rowBytes then .error .invalidData else .ok (row, itemBytes, rowBytes)

def decodePageItem (codec : ℤ) (payload : List UInt8) :
    Except StoreError (AgentTimelineItem × ℕ) :=
  match lib.decodeBoundedRow codec payload with
  | .error e => .error e
  | .ok (item, original, bytes) =>
    if bytes < original then
      let item := { item with truncated := some original }
      match serializedLen lib (itemJson item) with
      | .error e => .error e
      | .ok bytes => .ok (item, bytes)
    else .ok (item, bytes)

theorem serializedLen_ok (value : Json) (n : ℕ) (h : serializedLen lib value = .ok n) :
    n = lib.textBytes value := by
  unfold serializedLen at h
  split_ifs at h
  exact (Except.ok.inj h).symm

theorem fitSummary_identity (row fitted : TimelineRow) (cap : ℕ)
    (h : fitSummary lib row cap = .ok fitted) : fitted.identity = row.identity := by
  unfold fitSummary at h
  split at h
  · cases h
    rfl
  · split at h
    · cases h
    · cases h
      rfl

/-- A fitted row is the row it was made from, and fits. -/
theorem fitRow_ok (row fitted : TimelineRow) (cap itemBytes itemBytes' rowBytes : ℕ)
    (h : fitRow lib row cap itemBytes = .ok (fitted, itemBytes', rowBytes)) :
    fitted.identity = row.identity ∧ rowBytes = lib.textBytes (rowJson fitted) ∧
      rowBytes ≤ cap := by
  unfold fitRow at h
  split at h
  · cases h
  rename_i short hshort
  split at h
  · cases h
  split_ifs at h
  split at h
  · cases h
  rename_i item bytes _
  dsimp only at h
  split at h
  · cases h
  rename_i len hlen
  split_ifs at h with hcap
  cases h
  exact ⟨fitSummary_identity lib row short cap hshort,serializedLen_ok lib _ _ hlen,
    Nat.not_lt.mp hcap⟩

end Fit

end Maple.Paging.Fitting

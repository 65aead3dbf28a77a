import Mathlib.Data.List.Sort
import Maple.Paging.Fitting

/-!
# Pages of a task's history

The visible rows of a task are read by row number, forwards or backwards, one
page at a time. A page takes rows as long as both its row limit and its byte
budget allow, and its cursor names the last row it took. Opening a task returns
the newest page next to the task's summary and latest plan.
-/

set_option autoImplicit false

namespace Maple.Paging.History

open Session.Entries Fitting
open Timeline.Item hiding StoreError

def mib : ℕ := 1024*1024

def maxCursorBytes : ℕ := 64*1024

def minPageBytes : ℕ := 4096

def envelopeReserve : ℕ := 2048

def timelineFormat : ℤ := 4

def i64Max : ℤ := 2^63-1

inductive PageTransport where
  | localHost
  | remote
  deriving DecidableEq, Repr

structure TransportCaps where
  maxReplyBytes : ℕ
  defaultOpenBytes : ℕ
  inlineRowBytes : ℕ
  defaultHistoryRows : ℕ
  defaultHistoryBytes : ℕ
  maxHistoryRows : ℕ

def PageTransport.caps : PageTransport → TransportCaps
  | .localHost => ⟨4*mib, 4*mib, 2*mib, 200, 4*mib, 500⟩
  | .remote => ⟨4*mib, mib/2, mib/4, 100, mib, 500⟩

inductive Direction where
  | before
  | forward
  deriving DecidableEq, Repr

def Direction.kind : Direction → String
  | .before => "history_before"
  | .forward => "history_forward"

structure Cursor where
  v : ℕ
  kind : String
  account : ℤ
  scope : Json
  position : Json

structure HistoryPosition where
  epoch : ℤ
  rowSeq : ℤ
  deriving DecidableEq, Repr

/-- The JSON reader and writer of cursors, their base64 form, and the digest of their scope. -/
structure CursorLibrary where
  toVec : Cursor → List UInt8
  fromSlice : List UInt8 → Option Cursor
  encode : List UInt8 → String
  decode : String → Option (List UInt8)
  scope : String → Json
  sameScope : Json → Json → Bool
  fromPosition : Json → Option HistoryPosition

def positionJson (position : HistoryPosition) : Json :=
  .obj [("epoch", intJson position.epoch), ("row_seq", intJson position.rowSeq)]

def CursorLibrary.cursor (lib : CursorLibrary) (account : ℤ) (task : String) (direction : Direction)
    (position : HistoryPosition) : Cursor :=
  ⟨1, direction.kind, account, lib.scope task, positionJson position⟩

/-- A cursor of the history that is read back is the one that was written. -/
structure CursorLibrary.Lawful (lib : CursorLibrary) : Prop where
  slice : ∀ account task direction position found,
    lib.fromSlice (lib.toVec (lib.cursor account task direction position)) = some found →
      found = lib.cursor account task direction position
  base64 : ∀ bytes found, lib.decode (lib.encode bytes) = some found → found = bytes
  position : ∀ position found, lib.fromPosition (positionJson position) = some found →
    found = position

structure TaskSummary where
  uuid : String
  title : String
  projectRoot : String
  projectDisplayName : Option String
  state : String
  kind : String
  pinnedMs : Option ℤ
  webEnabled : Bool
  model : Option String
  messageCount : ℕ
  createdMs : ℤ
  updatedMs : ℤ
  truncated : Bool

def summaryJson (summary : TaskSummary) : Json :=
  .obj ([("uuid", .str summary.uuid), ("title", .str summary.title),
    ("project_root", .str summary.projectRoot)]++
    member "project_display_name" (summary.projectDisplayName.map .str)++
    [("state", .str summary.state), ("kind", .str summary.kind),
    ("pinned_ms", (summary.pinnedMs.map intJson).getD .null),
    ("web_enabled", .bool summary.webEnabled),
    ("model", (summary.model.map Json.str).getD .null),
    ("message_count", natJson summary.messageCount), ("created_ms", intJson summary.createdMs),
    ("updated_ms", intJson summary.updatedMs), ("truncated", .bool summary.truncated)])

structure StoredRow where
  epoch : ℤ
  rowSeq : ℤ
  updateSeq : ℤ
  hidden : Bool
  isPlan : Bool
  codec : ℤ
  bytes : ℤ
  item : List UInt8
  summary : Option String
  deriving DecidableEq, Repr

structure TaskState where
  epoch : ℤ
  format : ℤ
  lastSeq : ℤ
  summary : Option TaskSummary
  rows : List StoredRow

structure HistoryPage where
  rows : List TimelineRow
  next : Option String
  rowsEpoch : ℤ

structure OpenTaskPage where
  summary : TaskSummary
  rows : List TimelineRow
  before : Option String
  rowsEpoch : ℤ
  timelineFormat : ℤ
  plan : Option TimelineRow

def pageJson (page : HistoryPage) : Json :=
  .obj ([("rows", .arr (page.rows.map rowJson))]++member "next" (page.next.map .str)++
    [("rowsEpoch", intJson page.rowsEpoch)])

def openJson (page : OpenTaskPage) : Json :=
  .obj ([("summary", summaryJson page.summary), ("rows", .arr (page.rows.map rowJson))]++
    member "before" (page.before.map .str)++
    [("rowsEpoch", intJson page.rowsEpoch), ("timelineFormat", intJson page.timelineFormat)]++
    member "plan" (page.plan.map rowJson))

structure PageRequest where
  task : String
  cursor : Option String
  limitRows : Option ℕ
  limitBytes : Option ℕ

def validateTask (task : String) : Bool :=
  utf8Length task.toList = 36 && task.toList.zipIdx.all (fun entry =>
    if entry.2 ∈ [8, 13, 18, 23] then entry.1 = '-'
    else entry.1.isDigit || ('a' ≤ entry.1 && entry.1 ≤ 'f') || ('A' ≤ entry.1 && entry.1 ≤ 'F'))

def validatePageLimits (rows bytes maxRows maxBytes : ℕ) : Bool :=
  !(rows = 0 || maxRows < rows || !(minPageBytes ≤ bytes && bytes ≤ maxBytes))

section Cursor
variable (cursors : CursorLibrary)

def encodeCursor (cursor : Cursor) : Except StoreError String :=
  if maxCursorBytes < (cursors.toVec cursor).length then .error .invalidInput
  else .ok (cursors.encode (cursors.toVec cursor))

def decodeCursor (token : String) : Except StoreError Cursor :=
  if token = "" || (maxCursorBytes+2)/3*4 < utf8Length token.toList then .error .invalidInput
  else match cursors.decode token with
    | none => .error .invalidInput
    | some bytes =>
      if maxCursorBytes < bytes.length then .error .invalidInput
      else match cursors.fromSlice bytes with
        | none => .error .invalidInput
        | some cursor =>
          if cursor.v ≠ 1 || 64 < utf8Length cursor.kind.toList || cursor.account ≤ 0 then
            .error .invalidInput
          else .ok cursor

def historyCursor (account : ℤ) (task : String) (direction : Direction) (epoch rowSeq : ℤ) :
    Except StoreError String :=
  encodeCursor cursors (cursors.cursor account task direction ⟨epoch, rowSeq⟩)

def historyPosition (token : String) (account : ℤ) (task : String) (direction : Direction) :
    Except StoreError HistoryPosition :=
  match decodeCursor cursors token with
  | .error e => .error e
  | .ok cursor =>
    if cursor.kind ≠ direction.kind || cursor.account ≠ account ||
        !cursors.sameScope cursor.scope (cursors.scope task) then .error .invalidInput
    else match cursors.fromPosition cursor.position with
      | none => .error .invalidInput
      | some position =>
        if position.epoch < 0 || position.rowSeq < 1 then .error .invalidInput else .ok position

end Cursor

def TaskState.visible (task : TaskState) : List StoredRow :=
  task.rows.filter (fun row => row.epoch = task.epoch && !row.hidden)

def Direction.inOrder : Direction → StoredRow → StoredRow → Prop
  | .before, a, b => b.rowSeq ≤ a.rowSeq
  | .forward, a, b => a.rowSeq ≤ b.rowSeq

instance (direction : Direction) (a b : StoredRow) : Decidable (direction.inOrder a b) := by
  cases direction <;> unfold Direction.inOrder <;> infer_instance

def Direction.beyond : Direction → ℤ → StoredRow → Bool
  | .before, boundary, row => row.rowSeq < boundary
  | .forward, boundary, row => boundary < row.rowSeq

def Direction.outset : Direction → ℤ
  | .before => i64Max
  | .forward => 0

/-- The rows a query returns: those beyond the boundary, in order, up to the limit. -/
def candidates (task : TaskState) (direction : Direction) (boundary : ℤ) (limit : ℕ) :
    List StoredRow :=
  ((task.visible.filter (direction.beyond boundary)).insertionSort direction.inOrder).take limit

section Page
variable (lib : Library)

def entryOf (epoch : ℤ) (row : StoredRow) (item : AgentTimelineItem) : TimelineRow :=
  ⟨epoch, row.rowSeq, row.updateSeq, item, row.summary, none⟩

/-- Take rows while they fit; the flag says that a row was left. -/
def pageLoop (epoch : ℤ) (limit budget inline : ℕ) :
    List StoredRow → List TimelineRow → ℕ → ℕ → Except StoreError (List TimelineRow × Bool)
  | [], rows, _, _ => .ok (rows, false)
  | row::rest, rows, wire, storedBytes =>
    if row.bytes < 0 then .error .invalidData
    else if limit ≤ rows.length ||
        (!rows.isEmpty && budget < satAdd storedBytes row.bytes.toNat) then .ok (rows, true)
    else match decodePageItem lib row.codec row.item with
      | .error e => .error e
      | .ok (item, itemBytes) =>
        match fitRow lib (entryOf epoch row item) (min inline (budget-128)) itemBytes with
        | .error e => .error e
        | .ok (entry, itemBytes, rowBytes) =>
          if !rows.isEmpty && budget < satAdd wire (rowBytes+1) then .ok (rows, true)
          else if budget < satAdd wire (rowBytes+1) then
            -- the first row of a page is sent in any case, as a smaller preview
            match fitRow lib entry (budget-2) itemBytes with
            | .error e => .error e
            | .ok (entry, _, rowBytes) => pageLoop epoch limit budget inline rest (rows++[entry])
                (satAdd wire (rowBytes+1)) (satAdd storedBytes row.bytes.toNat)
          else pageLoop epoch limit budget inline rest (rows++[entry]) (satAdd wire (rowBytes+1))
            (satAdd storedBytes row.bytes.toNat)

variable (cursors : CursorLibrary)

def nextCursor (account : ℤ) (uuid : String) (direction : Direction) (epoch : ℤ)
    (rows : List TimelineRow) (more : Bool) : Except StoreError (Option String) :=
  match more, rows.getLast? with
  | true, some row =>
    match historyCursor cursors account uuid direction epoch row.rowSeq with
    | .error e => .error e
    | .ok token => .ok (some token)
  | _, _ => .ok none

def historyRows (account : ℤ) (uuid : String) (task : TaskState) (direction : Direction)
    (position : Option ℤ) (limit budget inline : ℕ) : Except StoreError HistoryPage :=
  let boundary := position.getD direction.outset
  match pageLoop lib task.epoch limit budget inline
      (candidates task direction boundary (limit+1)) [] 2 0 with
  | .error e => .error e
  | .ok (rows, more) =>
    match nextCursor cursors account uuid direction task.epoch rows more with
    | .error e => .error e
    | .ok next => .ok ⟨if direction = .before then rows.reverse else rows, next, task.epoch⟩

def latestPlan (task : TaskState) (inline : ℕ) : Except StoreError (Option (TimelineRow × ℕ)) :=
  match ((task.visible.filter StoredRow.isPlan).insertionSort Direction.before.inOrder).head? with
  | none => .ok none
  | some row =>
    match decodePageItem lib row.codec row.item with
    | .error e => .error e
    | .ok (item, itemBytes) =>
      match fitRow lib (entryOf task.epoch row item) inline itemBytes with
      | .error e => .error e
      | .ok (entry, _, rowBytes) => .ok (some (entry, rowBytes))

def halved (text : String) : String := truncateUtf8 text (utf8Length text.toList/2)

/-- Halve the longest of the display name, the model and the title. -/
def shortenSummary (summary : TaskSummary) : TaskSummary :=
  let modelLen := (summary.model.map (fun text => utf8Length text.toList)).getD 0
  let nameLen := (summary.projectDisplayName.map (fun text => utf8Length text.toList)).getD 0
  if modelLen < nameLen ∧ utf8Length summary.title.toList < nameLen then
    { summary with truncated := true, projectDisplayName := summary.projectDisplayName.map halved }
  else if utf8Length summary.title.toList < modelLen then
    { summary with truncated := true, model := summary.model.map halved }
  else { summary with truncated := true, title := halved summary.title }

def fitTaskSummary (maxBytes : ℕ) : ℕ → TaskSummary → Except StoreError TaskSummary
  | 0, _ => .error .invalidInput
  | fuel+1, summary =>
    match serializedLen lib (summaryJson summary) with
    | .error e => .error e
    | .ok len =>
      if len ≤ maxBytes then .ok summary
      else if summary.title = "" ∧ summary.model.getD "" = "" ∧
          summary.projectDisplayName.getD "" = "" then .error .invalidInput
      else fitTaskSummary maxBytes fuel (shortenSummary summary)

/-- Enough for every halving to empty the three texts. -/
def summaryFuel (summary : TaskSummary) : ℕ :=
  summary.title.toList.length+(summary.model.getD "").toList.length+
    (summary.projectDisplayName.getD "").toList.length+1

def historyNeedsRebuild (task : TaskState) : Bool :=
  if task.format = timelineFormat then false
  else 0 < task.lastSeq && !task.rows.any (fun row => row.epoch = task.epoch)

/-- `none` is a task that does not exist or was deleted. -/
def openTaskPage (account : ℤ) (request : PageRequest) (transport : PageTransport)
    (state : Option TaskState) : Except StoreError OpenTaskPage :=
  let caps := transport.caps
  let rows := request.limitRows.getD (if transport = .localHost then 100 else 50)
  let bytes := request.limitBytes.getD caps.defaultOpenBytes
  if !validateTask request.task || !validatePageLimits rows bytes 500 caps.maxReplyBytes then
    .error .invalidInput
  else match state with
    | none => .error .notFound
    | some task =>
      if historyNeedsRebuild task then .error .busy
      else match task.summary with
        | none => .error .notFound
        | some summary =>
          let inline := min caps.inlineRowBytes (max (bytes/3) 256)
          match latestPlan lib task (min inline (max (bytes/4) 512)) with
          | .error e => .error e
          | .ok plan =>
            let planBytes := (plan.map Prod.snd).getD 0
            if bytes < planBytes+envelopeReserve+512 then .error .invalidInput
            else match fitTaskSummary lib (bytes-(planBytes+envelopeReserve+512))
                (summaryFuel summary) summary with
              | .error e => .error e
              | .ok summary =>
                match serializedLen lib (summaryJson summary) with
                | .error e => .error e
                | .ok summaryBytes =>
                  if bytes < summaryBytes+planBytes+envelopeReserve then .error .invalidInput
                  else match historyRows lib cursors account request.task task .before none rows
                      (bytes-(summaryBytes+planBytes+envelopeReserve)) inline with
                    | .error e => .error e
                    | .ok page =>
                      let response : OpenTaskPage := ⟨summary, page.rows, page.next, task.epoch,
                        task.format, plan.map Prod.fst⟩
                      match serializedLen lib (openJson response) with
                      | .error e => .error e
                      | .ok len => if bytes < len then .error .invalidData else .ok response

def historyPage (account : ℤ) (request : PageRequest) (transport : PageTransport)
    (direction : Direction) (state : Option TaskState) : Except StoreError HistoryPage :=
  let caps := transport.caps
  let rows := request.limitRows.getD caps.defaultHistoryRows
  let bytes := request.limitBytes.getD caps.defaultHistoryBytes
  if !validateTask request.task || !validatePageLimits rows bytes caps.maxHistoryRows (4*mib) then
    .error .invalidInput
  else
    let position : Except StoreError (Option HistoryPosition) := match request.cursor with
      | none => .ok none
      | some token => (historyPosition cursors token account request.task direction).map some
    match position with
    | .error e => .error e
    | .ok position =>
      match state with
      | none => .error .notFound
      | some task =>
        if position.any (fun position => position.epoch ≠ task.epoch) then .error .epochChanged
        else match historyRows lib cursors account request.task task direction
            (position.map HistoryPosition.rowSeq) rows (bytes-envelopeReserve)
            (min caps.inlineRowBytes ((bytes-envelopeReserve)/2)) with
          | .error e => .error e
          | .ok page =>
            match serializedLen lib (pageJson page) with
            | .error e => .error e
            | .ok len => if bytes < len then .error .invalidData else .ok page

def historyBeforePage (account : ℤ) (request : PageRequest) (transport : PageTransport)
    (state : Option TaskState) : Except StoreError HistoryPage :=
  if request.cursor.isNone then .error .invalidInput
  else historyPage lib cursors account request transport .before state

def historyForwardPage (account : ℤ) (request : PageRequest) (transport : PageTransport)
    (state : Option TaskState) : Except StoreError HistoryPage :=
  historyPage lib cursors account request transport .forward state

end Page

end Maple.Paging.History

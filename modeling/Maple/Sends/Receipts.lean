import Maple.Lib.Run
import Maple.Sends.Fingerprint

/-!
# Durable receipts of sends

A send is reserved in the store before it is dispatched and its result is written after.
Requests, store transactions that fail before or after they took effect, requests whose
caller went away, closings of the store, crashes of the host and restarts come in any
order. Opening the store marks what was reserved without a result.
-/

set_option autoImplicit false

namespace Maple.Sends

open Session.Entries Text JsonText Timeline.Value Timeline.Item

/-- Parameters of a request: objects have each key once and numbers are printed ones. -/
structure Parameters where
  value : Json
  keyed : Keyed value
  printed : Printed value

def Parameters.user (parameters : Parameters) : Option String :=
  (Json.pointer ["0"] parameters.value).bind Json.asStr

def Parameters.task (parameters : Parameters) : Option String :=
  (Json.pointer ["1", "sessionId"] parameters.value).bind Json.asStr

abbrev SendResult := Except String Json

inductive Outcome where
  | missing
  | pending
  | interrupted
  | finished (result : SendResult)

/-- What the store code calls: text and id parsing, the hash and the codec of results. -/
structure Host (Digest : Type) where
  trim : String → String
  isControl : Char → Bool
  parseUuid : String → Bool
  sha256 : Bytes → Digest
  resultText : SendResult → String
  readResult : String → Option SendResult

def message : StoreError → String
  | .busy => "Maple's local store is busy"
  | .notFound => "The local record was not found"
  | .conflict => "The local record conflicts with saved data"
  | .invalidInput => "The local store request is invalid"
  | .invalidData => "The local store contains invalid data"

structure Account where
  key : String
  id : ℕ
  deleting : Bool
  deriving DecidableEq, Repr

structure Receipt (Digest : Type) where
  account : ℕ
  fingerprint : Digest
  task : String
  result : Option String
  interrupted : Bool
  /-- The parameters of the reservation, of which the store has the fingerprint. -/
  first : Parameters

abbrev Table (Digest : Type) := String → Option (Receipt Digest)

def maxRecordBytes : ℕ := 1024*1024

section Store
variable {Digest : Type} (host : Host Digest)

def normalizeUserKey (user : String) : Except StoreError String :=
  let trimmed := host.trim user
  if trimmed.isEmpty ∨ trimmed.toList.any host.isControl then .error .invalidInput
  else .ok (trimmed.map Char.toLower)

def accountId (accounts : List Account) (user : String) : Except StoreError (Option ℕ) :=
  match normalizeUserKey host user with
  | .error e => .error e
  | .ok key => .ok ((accounts.find? (fun account => account.key = key)).map Account.id)

def upsertAccount (accounts : List Account) (user : String) : Except StoreError (List Account) :=
  match normalizeUserKey host user with
  | .error e => .error e
  | .ok key =>
    match accounts.find? (fun account => account.key = key) with
    | some account => if account.deleting then .error .conflict else .ok accounts
    | none => .ok (accounts++[⟨key, accounts.length+1, false⟩])

def writableAccount (accounts : List Account) (account : ℕ) : Except StoreError Unit :=
  match accounts.find? (fun saved => saved.id = account) with
  | some saved => if saved.deleting then .error .conflict else .ok ()
  | none => .error .notFound

def decodeOutcome (row : Receipt Digest) : Except StoreError Outcome :=
  match row.result with
  | some result =>
    match host.readResult result with
    | some result => .ok (.finished result)
    | none => .error .invalidData
  | none => if row.interrupted then .ok .interrupted else .ok .pending

/-- No outcome stands for a new reservation. -/
def reserveSend [DecidableEq Digest] (accounts : List Account) (table : Table Digest)
    (account : ℕ) (id task : String) (parameters : Parameters) (taskLive : Bool) :
    Except StoreError (Option Outcome × Table Digest) :=
  if host.parseUuid id then
    match sendFingerprint host.sha256 parameters.value with
    | .error e => .error e
    | .ok fingerprint =>
      match writableAccount accounts account with
      | .error e => .error e
      | .ok () =>
        match table id with
        | some row =>
          if row.account ≠ account ∨ row.fingerprint ≠ fingerprint ∨ row.task ≠ task then
            .error .conflict
          else
            match decodeOutcome host row with
            | .error e => .error e
            | .ok outcome => .ok (some outcome, table)
        | none =>
          if taskLive then .ok (none, Function.update table id
            (some ⟨account, fingerprint, task, none, false, parameters⟩))
          else .error .notFound
  else .error .invalidInput

def sendOutcome (accounts : List Account) (table : Table Digest) (account : ℕ) (id : String) :
    Except StoreError Outcome :=
  match writableAccount accounts account with
  | .error e => .error e
  | .ok () =>
    match table id with
    | some row => if row.account = account then decodeOutcome host row else .ok .missing
    | none => .ok .missing

def finishSend (accounts : List Account) (table : Table Digest) (account : ℕ) (id : String)
    (result : SendResult) : Except StoreError (Table Digest) :=
  let saved := host.resultText result
  if maxRecordBytes < (utf8 saved).length then .error .invalidInput
  else
    match writableAccount accounts account with
    | .error e => .error e
    | .ok () =>
      match table id with
      | none => .error .notFound
      | some row =>
        if row.account ≠ account then .error .notFound
        else
          match row.result with
          | some previous => if previous = saved then .ok table else .error .conflict
          | none =>
            if row.interrupted then .error .conflict
            else .ok (Function.update table id (some { row with result := some saved }))

def markInterruptedReceipts (table : Table Digest) : Table Digest :=
  fun id => (table id).map (fun row =>
    if row.result = none ∧ row.interrupted = false then { row with interrupted := true } else row)

end Store

namespace Receipts
section
variable {Digest : Type} (host : Host Digest)

def account (accounts : List Account) (user : String) : Except String ℕ :=
  match accountId host accounts user with
  | .error e => .error (message e)
  | .ok none => .error "The send account is unavailable"
  | .ok (some account) => .ok account

def reserve [DecidableEq Digest] (accounts : List Account) (table : Table Digest) (id : String)
    (parameters : Parameters) (taskLive : Bool) :
    Except String (Option Outcome × Table Digest) :=
  match parameters.user, parameters.task with
  | none, _ => .error "Invalid send account"
  | some _, none => .error "Invalid send task"
  | some user, some task =>
    match account host accounts user with
    | .error e => .error e
    | .ok account =>
      (reserveSend host accounts table account id task parameters taskLive).mapError message

def finish (accounts : List Account) (table : Table Digest) (user id : String)
    (result : SendResult) : Except String (Table Digest) :=
  match account host accounts user with
  | .error e => .error e
  | .ok account => (finishSend host accounts table account id result).mapError message

def outcome (accounts : List Account) (table : Table Digest) (user id : String) :
    Except String Outcome :=
  match account host accounts user with
  | .error e => .error e
  | .ok account => (sendOutcome host accounts table account id).mapError message

end
end Receipts

inductive Phase where
  | arrived
  | admitted
  | dispatched
  | completed (result : SendResult)

structure Flight where
  id : String
  parameters : Parameters
  phase : Phase

/-- How a transaction ends: done, undone, or done and reported as failed. -/
inductive Fault where
  | done
  | before (error : String)
  | after (error : String)
  deriving DecidableEq, Repr

/-- A shutdown that could not checkpoint holds its connections and may open again; a store
that is closed answers with the error of its state. -/
inductive Access where
  | opened
  | held
  | closed (error : String)
  deriving DecidableEq, Repr

def ensureOpen : Access → Except String Unit
  | .opened => .ok ()
  | .held => .error (message .busy)
  | .closed error => .error error

inductive Action where
  | upsert (user : String)
  | deletion (account : ℕ) (deleting : Bool)
  | send (request : ℕ) (id : String) (parameters : Parameters)
  | reserve (request : ℕ) (fault : Fault) (taskLive : Bool)
  | dispatch (request : ℕ)
  | complete (request : ℕ) (result : SendResult)
  | finish (request : ℕ) (fault : Fault)
  | cancel (request : ℕ)
  | hold
  | resume
  | close
  | crash
  | reopen (fault : Fault)

structure Dispatch where
  id : String
  parameters : Parameters

structure State (Digest : Type) where
  accounts : List Account
  table : Table Digest
  access : Access
  flights : ℕ → Option Flight
  log : List Dispatch
  replies : List (ℕ × SendResult)

def start {Digest : Type} : State Digest := ⟨[], fun _ => none, .opened, fun _ => none, [], []⟩

def sendUnknown (id : String) : String :=
  "Send outcome unknown ("++id++"). Reload this task before sending again."

def completionUnknown (id : String) : String :=
  "Send outcome unknown ("++id++
    "). Reload this task before sending again; it may already be running."

section Machine
variable {Digest : Type} (host : Host Digest)

def State.put (s : State Digest) (request : ℕ) (flight : Flight) : State Digest :=
  { s with flights := Function.update s.flights request (some flight) }

def State.drop (s : State Digest) (request : ℕ) : State Digest :=
  { s with flights := Function.update s.flights request none }

def State.reply (s : State Digest) (request : ℕ) (result : SendResult) : State Digest :=
  { s.drop request with replies := s.replies++[(request, result)] }

def State.save (s : State Digest) (table : Table Digest) : State Digest := { s with table := table }

def receiptOutcome (s : State Digest) (user id : String) : Except String Outcome :=
  match ensureOpen s.access with
  | .error e => .error e
  | .ok () => Receipts.outcome host s.accounts s.table user id

def answer (s : State Digest) (request : ℕ) (flight : Flight) : Option Outcome → State Digest
  | none => s.put request { flight with phase := .admitted }
  | some (.finished result) => s.reply request result
  | some _ => s.reply request (.error (sendUnknown flight.id))

def reserveStep [DecidableEq Digest] (s : State Digest) (request : ℕ) (flight : Flight)
    (fault : Fault) (taskLive : Bool) : State Digest :=
  match ensureOpen s.access with
  | .error e => s.reply request (.error e)
  | .ok () =>
    match Receipts.reserve host s.accounts s.table flight.id flight.parameters taskLive with
    | .error e => s.reply request (.error e)
    | .ok (outcome, table) =>
      match fault with
      | .before e => s.reply request (.error e)
      | .after e => (s.save table).reply request (.error e)
      | .done => answer (s.save table) request flight outcome

def finishStep (s : State Digest) (request : ℕ) (flight : Flight) (result : SendResult)
    (fault : Fault) : State Digest :=
  let unknown := s.reply request (.error (completionUnknown flight.id))
  match ensureOpen s.access with
  | .error _ => unknown
  | .ok () =>
    match flight.parameters.user with
    | none => unknown
    | some user =>
      match Receipts.finish host s.accounts s.table user flight.id result with
      | .error _ => unknown
      | .ok table =>
        match fault with
        | .before _ => unknown
        | .after _ => unknown.save table
        | .done => (s.save table).reply request result

def step [DecidableEq Digest] (s : State Digest) : Action → Option (State Digest)
  | .upsert user =>
    if s.access = .opened then
      match upsertAccount host s.accounts user with
      | .error _ => some s
      | .ok accounts => some { s with accounts := accounts }
    else none
  | .deletion account deleting =>
    if s.access = .opened then
      some { s with accounts := s.accounts.map (fun saved =>
        if saved.id = account then { saved with deleting := deleting } else saved) }
    else none
  | .send request id parameters =>
    match s.flights request with
    | some _ => none
    | none => some (s.put request ⟨id, parameters, .arrived⟩)
  | .reserve request fault taskLive =>
    match s.flights request with
    | some ⟨id, parameters, .arrived⟩ =>
      some (reserveStep host s request ⟨id, parameters, .arrived⟩ fault taskLive)
    | _ => none
  | .dispatch request =>
    match s.flights request with
    | some ⟨id, parameters, .admitted⟩ => some { s.put request ⟨id, parameters, .dispatched⟩ with
        log := s.log++[⟨id, parameters⟩] }
    | _ => none
  | .complete request result =>
    match s.flights request with
    | some ⟨id, parameters, .dispatched⟩ => some (s.put request ⟨id, parameters, .completed result⟩)
    | _ => none
  | .finish request fault =>
    match s.flights request with
    | some ⟨id, parameters, .completed result⟩ =>
      some (finishStep host s request ⟨id, parameters, .completed result⟩ result fault)
    | _ => none
  | .cancel request => some (s.drop request)
  | .hold => if s.access = .opened then some { s with access := .held } else none
  | .resume => if s.access = .held then some { s with access := .opened } else none
  | .close => some { s with access := .closed (message .busy) }
  | .crash => some { s with access := .closed (message .busy), flights := fun _ => none }
  | .reopen fault =>
    match s.access with
    | .closed _ =>
      match fault with
      | .before e => some { s with access := .closed e }
      | .after e => some { s.save (markInterruptedReceipts s.table) with access := .closed e }
      | .done => some { s.save (markInterruptedReceipts s.table) with access := .opened }
    | _ => none

end Machine

end Maple.Sends

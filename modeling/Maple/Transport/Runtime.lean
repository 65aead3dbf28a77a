import Maple.Lib.Keyed
import Maple.Lib.Run
import Mathlib.Logic.Function.Basic

/-!
# The transport runtime of the TypeScript SDK

The runtime shares one attested client among all requests of a scope. Requests look the
client up, wait for an establishment they may share, retain the client while they send, and
retire it when it fails. Everything between two awaits is one step.
-/

set_option autoImplicit false

namespace Maple.Transport.Runtime

open Keyed

structure Client (S : Type) where
  scope : S
  serial : ℕ
  deriving DecidableEq

/-- The outcome is missing while the establishment runs, and is nothing if it failed. -/
structure PendingEstablishment (S : Type) where
  scope : S
  generation : ℕ
  outcome : Option (Option (Client S))

/-- The fields of the runtime, with all establishments ever begun and the disposals so far. -/
structure TransportV2Runtime (S : Type) where
  clients : Map S (Client S)
  establishing : Map S ℕ
  generations : S → ℕ
  active : Client S → ℕ
  retired : Client S → Bool
  disposals : Client S → ℕ
  pending : List (PendingEstablishment S)
  nextSerial : ℕ

def maxSafeInteger : ℕ := 2^53-1

inductive Stage (S : Type) where
  | waiting (pending : ℕ)
  | handed (client : Client S)
  | sending (client : Client S)
  | done

structure Request (S : Type) where
  scope : S
  sessionBound : Bool
  repaired : Bool
  stage : Stage S

structure World (S : Type) where
  runtime : TransportV2Runtime S
  requests : List (Request S)

inductive Outcome where
  | answered
  | recoveryHint
  | failed
  deriving DecidableEq

/-- What may happen between two awaits. `unexpired` is the part of `isUsable` that the clock
decides, `aborted` and `canReplay` are what the caller's signal and budget say then. -/
inductive Label (S : Type) where
  | request (scope : S) (nonReplayable unexpired : Bool)
  | callback (scope : S)
  | settle (pending : ℕ) (succeeded : Bool)
  | resume (request : ℕ) (unexpired : Bool)
  | abort (request : ℕ)
  | proceed (request : ℕ) (canReplay : Bool)
  | answer (request : ℕ) (outcome : Outcome) (aborted unexpired : Bool)
  | clearScope (scope : S)
  | clear (covers : S → Bool)

section Runtime
variable {S : Type} [DecidableEq S]

def TransportV2Runtime.new : TransportV2Runtime S :=
  ⟨.empty, .empty, fun _ => 0, fun _ => 0, fun _ => false, fun _ => 0, [], 0⟩

def World.new : World S := ⟨.new, []⟩

namespace TransportV2Runtime
variable (t : TransportV2Runtime S)

def dispose (client : Client S) : TransportV2Runtime S :=
  { t with disposals := Function.update t.disposals client (t.disposals client+1) }

def isUsable (client : Client S) (unexpired : Bool) : Bool :=
  decide (t.disposals client = 0) && unexpired

def retain (client : Client S) : TransportV2Runtime S :=
  { t with active := Function.update t.active client (t.active client+1) }

def release (client : Client S) : TransportV2Runtime S :=
  let remaining := t.active client-1
  let t := { t with active := Function.update t.active client remaining }
  if remaining > 0 then t
  else if t.retired client then t.dispose client
  else t

def unlist (scope : S) (client : Client S) : TransportV2Runtime S :=
  if t.clients.get scope = some client then { t with clients := t.clients.remove scope } else t

def retire (scope : S) (client : Client S) : TransportV2Runtime S :=
  let t := t.unlist scope client
  if t.retired client then t
  else
    let t := { t with retired := Function.update t.retired client true }
    if t.active client = 0 then t.dispose client else t

/-- Throws, and changes nothing, once the generations are used up. -/
def invalidateScope (scope : S) : Option (TransportV2Runtime S) :=
  if t.generations scope ≥ maxSafeInteger then none
  else
    let t := { t with
      generations := Function.update t.generations scope (t.generations scope+1) }
    match t.clients.get scope with
    | some client => some (t.retire scope client)
    | none => some t

def invalidateAll (t : TransportV2Runtime S) : List S → TransportV2Runtime S
  | [] => t
  | scope::rest =>
    match t.invalidateScope scope with
    | some t => t.invalidateAll rest
    | none => t

def scopes : List S :=
  t.clients.keys++t.establishing.keys.filter (fun scope => scope ∉ t.clients.keys)

/-- Joins the establishment of the current generation, or begins one. -/
def establish (scope : S) : TransportV2Runtime S × Stage S :=
  let generation := t.generations scope
  let shared := (t.establishing.get scope).filter
    (fun pending => t.pending[pending]?.any (fun e => e.generation = generation))
  match shared with
  | some pending => (t, .waiting pending)
  | none =>
    ({ t with
      establishing := t.establishing.set scope t.pending.length
      pending := t.pending++[⟨scope, generation, none⟩] }, .waiting t.pending.length)

/-- The part of `clientFor` before its await. -/
def clientFor (scope : S) (unexpired : Bool) : TransportV2Runtime S × Stage S :=
  match t.clients.get scope with
  | some current =>
    if t.isUsable current unexpired then (t, .handed current)
    else (t.retire scope current).establish scope
  | none => t.establish scope

def newClient (scope : S) : Client S × TransportV2Runtime S :=
  (⟨scope, t.nextSerial⟩, { t with nextSerial := t.nextSerial+1 })

def settled (pending : ℕ) (e : PendingEstablishment S) (succeeded : Bool) :
    TransportV2Runtime S :=
  let (outcome, t) :=
    if succeeded then
      let (client, t) := t.newClient e.scope
      (some client, if t.generations e.scope = e.generation
        then { t with clients := t.clients.set e.scope client } else t.retire e.scope client)
    else (none, t)
  { t with
    establishing := if t.establishing.get e.scope = some pending
      then t.establishing.remove e.scope else t.establishing
    pending := t.pending.set pending { e with outcome := some outcome } }

end TransportV2Runtime

namespace World

def put (w : World S) (t : TransportV2Runtime S) (r : ℕ) (request : Request S) (stage : Stage S) :
    World S :=
  ⟨t, w.requests.set r { request with stage := stage }⟩

def resume (w : World S) (r : ℕ) (request : Request S) (e : PendingEstablishment S)
    (unexpired : Bool) : Option (World S) :=
  match e.outcome with
  | none => none
  | some none => some (w.put w.runtime r request .done)
  | some (some client) =>
    if w.runtime.generations request.scope ≠ e.generation then
      let found := (w.runtime.retire request.scope client).clientFor request.scope unexpired
      some (w.put found.1 r request found.2)
    else
      some (w.put { w.runtime with clients := w.runtime.clients.set request.scope client }
        r request (.handed client))

/-- The client is released on every path; a failed one is retired before that. -/
def answer (w : World S) (r : ℕ) (request : Request S) (client : Client S) (outcome : Outcome)
    (aborted unexpired : Bool) : World S :=
  match outcome with
  | .answered => w.put (w.runtime.release client) r request .done
  | _ =>
    let t := (w.runtime.retire request.scope client).release client
    if request.repaired || request.sessionBound || outcome ≠ .recoveryHint || aborted then
      w.put t r request .done
    else
      let found := t.clientFor request.scope unexpired
      w.put found.1 r { request with repaired := true } found.2

def step (w : World S) : Label S → Option (World S)
  | .request scope nonReplayable unexpired =>
    let found := w.runtime.clientFor scope unexpired
    some ⟨found.1, w.requests++[⟨scope, nonReplayable, false, found.2⟩]⟩
  | .callback scope =>
    match w.runtime.invalidateScope scope with
    | none => some w
    | some t =>
      let made := t.newClient scope
      let t := { made.2 with clients := made.2.clients.set scope made.1 }
      some ⟨t.retain made.1, w.requests++[⟨scope, true, false, .sending made.1⟩]⟩
  | .settle pending succeeded =>
    match w.runtime.pending[pending]? with
    | some e =>
      if e.outcome.isSome then none
      else some { w with runtime := w.runtime.settled pending e succeeded }
    | none => none
  | .resume r unexpired =>
    match w.requests[r]? with
    | some request =>
      match request.stage with
      | .waiting pending =>
        match w.runtime.pending[pending]? with
        | some e => w.resume r request e unexpired
        | none => none
      | _ => none
    | none => none
  | .abort r =>
    match w.requests[r]? with
    | some request =>
      match request.stage with
      | .waiting _ => some (w.put w.runtime r request .done)
      | _ => none
    | none => none
  | .proceed r canReplay =>
    match w.requests[r]? with
    | some request =>
      match request.stage with
      | .handed client =>
        if request.repaired && !canReplay then some (w.put w.runtime r request .done)
        else some (w.put (w.runtime.retain client) r request (.sending client))
      | _ => none
    | none => none
  | .answer r outcome aborted unexpired =>
    match w.requests[r]? with
    | some request =>
      match request.stage with
      | .sending client => some (w.answer r request client outcome aborted unexpired)
      | _ => none
    | none => none
  | .clearScope scope => some { w with runtime := w.runtime.invalidateAll [scope] }
  | .clear covers =>
    some { w with runtime := w.runtime.invalidateAll (w.runtime.scopes.filter covers) }

end World

end Runtime

end Maple.Transport.Runtime

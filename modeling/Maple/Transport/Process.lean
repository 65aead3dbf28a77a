import Maple.Lib.Run
import Maple.Lib.Table
import Maple.Transport.Sessions

/-!
# The enclave process as an interleaving system

Session objects are reference counted. A reference is loose in some task, held
by the session map, or held by a call: by the caller for as long as
`open_and_admit` runs, and afterwards by the admitted request it returned. Every
call advances on its own, one shared-memory action at a time: it decrypts, reads
the clock, takes the registry's lock, checks the set, claims the budget, inserts
the id and unlocks. A response writer seals records one after the other.
-/

set_option autoImplicit false

namespace Maple.Transport.Process
open Run Table Crypto Sessions

structure Claim where
  requestId : RequestId
  plaintext : Bytes
  now : ℕ

inductive Stage where
  | locked
  | checked
  | budgeted
  | inserted
  deriving DecidableEq, Repr

inductive Usage where
  | unused
  | consumed
  | abandoned
  deriving DecidableEq, Repr

inductive Phase where
  | opening (record : Bytes)
  | decrypted (requestId : RequestId) (plaintext : Bytes)
  | claiming (claim : Claim)
  | held (stage : Stage) (claim : Claim)
  | returned (usage : Usage) (claim : Claim)
  | refused (e : SessionError)

def Phase.holdsRef : Phase → Bool
  | .returned .consumed _ => false
  | .returned .abandoned _ => false
  | .refused _ => false
  | _ => true

def Phase.holdsLock : Phase → Bool
  | .held _ _ => true
  | _ => false

def Phase.budgeting : Phase → ℕ
  | .held .budgeted _ => 1
  | _ => 0

def Phase.admitted : Phase → Option Claim
  | .held .inserted claim => some claim
  | .returned _ claim => some claim
  | _ => none

def Phase.claim : Phase → Option Claim
  | .claiming claim => some claim
  | .held _ claim => some claim
  | .returned _ claim => some claim
  | _ => none

structure Call where
  session : ℕ
  phase : Phase

structure Object where
  session : Session
  holder : Option ℕ
  loose : ℕ
  alive : Bool

def Object.requestIds (o : Object) : List RequestId := o.session.replay.requestIds

def Object.retained (o : Object) : ℕ := if o.alive then o.requestIds.length else 0

structure Writer where
  call : ℕ
  sealer : ResponseSealer

structure SealEvent where
  writer : ℕ
  key : TrafficKey
  sequence : UInt64
  nonce : Nonce

structure System where
  clock : ℕ
  claimed : ℕ
  sessions : List Object
  store : SessionStore
  calls : List Call
  writers : List Writer
  log : List SealEvent

structure Config where
  P : Primitives
  budget : NonZeroUsize
  storeCapacity : NonZeroUsize

def System.init : System := ⟨0, 0, [], [], [], [], []⟩

inductive Label where
  | tick
  | create (secrets : SessionSecrets) (lifetime : ℕ) (capacity : NonZeroUsize)
  | clone (s : ℕ)
  | drop (s : ℕ)
  | storeInsert (s now : ℕ)
  | storeGet (id : SessionId) (now : ℕ)
  | storeRemove (id : SessionId)
  | purgeExpired (now : ℕ)
  | openAndAdmit (s : ℕ) (record : Bytes)
  | advance (c : ℕ)
  | beginResponse (c : ℕ)
  | abandon (c : ℕ)
  | sealNext (w : ℕ) (plaintext : Bytes)

def Object.addRef (o : Object) : Object := { o with loose := o.loose+1 }

def Object.takeRef (o : Object) : Object := { o with loose := o.loose-1 }

def Object.unlock (o : Object) (c : ℕ) : Object :=
  { o with holder := if o.holder = some c then none else o.holder }

/-- What an action of call `c` does to its session object, its phase and the
shared counter. -/
def localStep (cfg : Config) (clock claimed c : ℕ) (o : Object) :
    Phase → Option (Object × Phase × ℕ)
  | .opening record =>
    match o.session.secrets.decryptRequest cfg.P record with
    | .error e => some (o.addRef, .refused (.crypto e), claimed)
    | .ok (requestId,plaintext) => some (o, .decrypted requestId plaintext, claimed)
  | .decrypted requestId plaintext =>
    if o.session.isExpired clock then some (o.addRef, .refused .expired, claimed)
    else some (o, .claiming ⟨requestId, plaintext, clock⟩, claimed)
  | .claiming claim =>
    match o.holder with
    | some _ => none
    | none =>
      if o.session.replay.poisoned then some (o.addRef, .refused (.replay .unavailable), claimed)
      else some ({ o with holder := some c }, .held .locked claim, claimed)
  | .held .locked claim =>
    match o.session.replay.precheck claim.requestId with
    | .error e => some ((o.unlock c).addRef, .refused (.replay e), claimed)
    | .ok () => some (o, .held .checked claim, claimed)
  | .held .checked claim =>
    match claimOne cfg.budget claimed with
    | .error e => some ((o.unlock c).addRef, .refused (.replay e), claimed)
    | .ok claimed => some (o, .held .budgeted claim, claimed)
  | .held .budgeted claim =>
    some ({ o with session := { o.session with
      replay := o.session.replay.insert claim.requestId } }, .held .inserted claim, claimed)
  | .held .inserted claim => some ((o.unlock c).addRef, .returned .unused claim, claimed)
  | .returned _ _ => none
  | .refused _ => none

def System.move (σ : System) (s c : ℕ) (o : Object) (phase : Phase) : System :=
  { σ with sessions := σ.sessions.set s o, calls := σ.calls.set c ⟨s, phase⟩ }

def advance (cfg : Config) (σ : System) (c : ℕ) : Option System :=
  match σ.calls[c]? with
  | none => none
  | some call =>
    match σ.sessions[call.session]? with
    | none => none
    | some o =>
      match localStep cfg σ.clock σ.claimed c o call.phase with
      | none => none
      | some (o,phase,claimed) => some { σ.move call.session c o phase with claimed := claimed }

def System.addRefs (σ : System) (handles : List ℕ) : System :=
  { σ with sessions := handles.foldl (fun t s => t.modify s Object.addRef) σ.sessions }

def System.referenced (σ : System) (s : ℕ) : Bool :=
  σ.store.any (fun e => e.2 = s) || σ.calls.any (fun c => c.session = s && c.phase.holdsRef)

def System.expiredAt (σ : System) (now s : ℕ) : Bool :=
  match σ.sessions[s]? with
  | some o => o.session.isExpired now
  | none => false

/-- Dropping the last reference drops the registry, which gives its ids back. -/
def dropRef (σ : System) (s : ℕ) (o : Object) : System :=
  if o.loose = 1 ∧ ¬σ.referenced s then
    { σ with
      sessions := σ.sessions.set s { o.takeRef with alive := false }
      claimed := release σ.claimed o.requestIds.length }
  else { σ with sessions := σ.sessions.set s o.takeRef }

def System.looseObject (σ : System) (s : ℕ) : Option Object :=
  match σ.sessions[s]? with
  | some o => if 0 < o.loose then some o else none
  | none => none

def storeInsert (cfg : Config) (σ : System) (s now : ℕ) (o : Object) : System :=
  match SessionStore.insertAt cfg.storeCapacity (σ.expiredAt now) σ.store
      o.session.secrets.sessionId s with
  | (.ok (),store,reclaimed) =>
    { σ with sessions := σ.sessions.set s o.takeRef, store := store }.addRefs reclaimed
  | (.error _,store,reclaimed) => { σ with store := store }.addRefs reclaimed

def storeGet (σ : System) (id : SessionId) (now : ℕ) : System :=
  match SessionStore.getAt (σ.expiredAt now) σ.store id with
  | (.ok s,store,reclaimed) => { σ with store := store }.addRefs (s::reclaimed)
  | (.error _,store,reclaimed) => { σ with store := store }.addRefs reclaimed

/-- An admitted request leaves its call: its reference becomes loose. -/
def leave (σ : System) (c : ℕ) (usage : Usage) : Option (System × Call × Claim) :=
  match σ.calls[c]? with
  | some ⟨s, .returned .unused claim⟩ =>
    some ({ σ with calls := σ.calls.set c ⟨s, .returned usage claim⟩ }.addRefs [s],
      ⟨s, .returned .unused claim⟩, claim)
  | _ => none

def beginResponse (cfg : Config) (σ : System) (c : ℕ) : Option System :=
  match leave σ c .consumed with
  | none => none
  | some (σ',call,claim) =>
    match σ.sessions[call.session]? with
    | none => none
    | some o =>
      match o.session.secrets.responseSealer cfg.P claim.requestId with
      | .error _ => some σ'
      | .ok sealer => some { σ' with writers := σ'.writers++[⟨c, sealer⟩] }

def sealNext (cfg : Config) (σ : System) (w : ℕ) (plaintext : Bytes) : Option System :=
  match σ.writers[w]? with
  | none => none
  | some writer =>
    match writer.sealer.sealNext cfg.P plaintext with
    | (.error .sequenceExhausted, _) => some σ
    | (_, sealer) => some { σ with
        writers := σ.writers.set w { writer with sealer := sealer }
        log := σ.log++[⟨w, writer.sealer.key, writer.sealer.nextSequence,
          responseNonce writer.sealer.nextSequence⟩] }

def step (cfg : Config) (σ : System) : Label → Option System
  | .tick => some { σ with clock := σ.clock+1 }
  | .create secrets lifetime capacity =>
    match Session.newAt secrets σ.clock lifetime capacity with
    | .error _ => some σ
    | .ok session => some { σ with sessions := σ.sessions++[⟨session, none, 1, true⟩] }
  | .clone s => (σ.looseObject s).map (fun _ => σ.addRefs [s])
  | .drop s => (σ.looseObject s).map (dropRef σ s)
  | .storeInsert s now => (σ.looseObject s).map (storeInsert cfg σ s now)
  | .storeGet id now => some (storeGet σ id now)
  | .storeRemove id =>
    some ({ σ with store := (σ.store.remove id).1 }.addRefs (σ.store.remove id).2)
  | .purgeExpired now =>
    some ({ σ with store := (σ.store.purgeExpired (σ.expiredAt now)).1 }.addRefs
      (σ.store.purgeExpired (σ.expiredAt now)).2)
  | .openAndAdmit s record => (σ.looseObject s).map (fun o =>
      { σ with
        sessions := σ.sessions.set s o.takeRef
        calls := σ.calls++[⟨s, .opening record⟩] })
  | .advance c => advance cfg σ c
  | .beginResponse c => beginResponse cfg σ c
  | .abandon c => (leave σ c .abandoned).map Prod.fst
  | .sealNext w plaintext => sealNext cfg σ w plaintext

end Maple.Transport.Process

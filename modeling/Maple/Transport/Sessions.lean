import Maple.Transport.Crypto

/-!
# Sessions, replay sets and the shared budget

A session keeps its keys, an absolute expiry and the set of request ids it has
admitted. All sessions draw on one process-wide counter, which a session gives
back when it is dropped. Counters are machine words: the release wraps when it
would fall below zero.
-/

set_option autoImplicit false

namespace Maple.Transport.Sessions
open Crypto

structure NonZeroUsize where
  get : ℕ
  pos : 0 < get
  fits : get < 2^64

inductive ReplayError where
  | duplicate
  | sessionCapacity
  | globalCapacity
  | unavailable
  deriving DecidableEq, Repr

inductive SessionError where
  | invalidLifetime
  | expired
  | crypto (source : CryptoError)
  | replay (source : ReplayError)
  deriving DecidableEq, Repr

inductive SessionStoreError where
  | unavailable
  | collision
  | full
  | missing
  | expired
  deriving DecidableEq, Repr

def claimOne (capacity : NonZeroUsize) (claimed : ℕ) : Except ReplayError ℕ :=
  if claimed < capacity.get then .ok (claimed+1) else .error .globalCapacity

def release (claimed count : ℕ) : ℕ :=
  if count = 0 then claimed else (claimed+2^64-count)%2^64

theorem claimOne_ok {capacity : NonZeroUsize} {claimed claimed' : ℕ}
    (h : claimOne capacity claimed = .ok claimed') :
    claimed < capacity.get ∧ claimed' = claimed+1 := by
  unfold claimOne at h
  split_ifs at h with hlt
  cases h
  exact ⟨hlt,rfl⟩

theorem release_eq {claimed count : ℕ} (hle : count ≤ claimed) (hfits : claimed < 2^64) :
    release claimed count = claimed-count := by
  unfold release
  split_ifs with h
  · rw [h, Nat.sub_zero]
  · omega

structure ReplayRegistry where
  requestIds : List RequestId
  capacity : NonZeroUsize
  poisoned : Bool

def ReplayRegistry.new (capacity : NonZeroUsize) : ReplayRegistry := ⟨[], capacity, false⟩

/-- The checks made under the registry's lock before the budget is asked. -/
def ReplayRegistry.precheck (r : ReplayRegistry) (requestId : RequestId) :
    Except ReplayError Unit :=
  if requestId ∈ r.requestIds then .error .duplicate
  else if r.requestIds.length ≥ r.capacity.get then .error .sessionCapacity
  else .ok ()

def ReplayRegistry.insert (r : ReplayRegistry) (requestId : RequestId) : ReplayRegistry :=
  { r with requestIds := requestId::r.requestIds }

theorem precheck_ok {r : ReplayRegistry} {requestId : RequestId}
    (h : r.precheck requestId = .ok ()) :
    requestId ∉ r.requestIds := by
  unfold ReplayRegistry.precheck at h
  split_ifs at h with h1
  exact h1

structure Session where
  secrets : SessionSecrets
  expiresAt : ℕ
  replay : ReplayRegistry

def Session.newAt (secrets : SessionSecrets) (now lifetime : ℕ) (capacity : NonZeroUsize) :
    Except SessionError Session :=
  if lifetime = 0 then .error .invalidLifetime
  else .ok ⟨secrets, now+lifetime, ReplayRegistry.new capacity⟩

def Session.isExpired (s : Session) (now : ℕ) : Bool := s.expiresAt ≤ now

abbrev SessionStore := List (SessionId × ℕ)

def SessionStore.find (store : SessionStore) (id : SessionId) : Option ℕ :=
  (List.find? (fun e => e.1 = id) store).map Prod.snd

def SessionStore.erase (store : SessionStore) (id : SessionId) : SessionStore :=
  List.filter (fun e => e.1 ≠ id) store

/-- The result, the map afterwards and the objects taken out of it. -/
def SessionStore.insertAt (capacity : NonZeroUsize) (expired : ℕ → Bool) (store : SessionStore)
    (id : SessionId) (session : ℕ) : Except SessionStoreError Unit × SessionStore × List ℕ :=
  if expired session then (.error .expired, store, [])
  else
    match store.find id with
    | some existing =>
      if expired existing then
        if (store.erase id).length ≥ capacity.get then
          (.error .full, store.erase id, [existing])
        else (.ok (), (id,session)::store.erase id, [existing])
      else (.error .collision, store, [])
    | none =>
      if store.length ≥ capacity.get then (.error .full, store, [])
      else (.ok (), (id,session)::store, [])

def SessionStore.getAt (expired : ℕ → Bool) (store : SessionStore) (id : SessionId) :
    Except SessionStoreError ℕ × SessionStore × List ℕ :=
  match store.find id with
  | none => (.error .missing, store, [])
  | some session =>
    if expired session then (.error .expired, store.erase id, [session])
    else (.ok session, store, [])

def SessionStore.remove (store : SessionStore) (id : SessionId) : SessionStore × List ℕ :=
  (store.erase id, (store.find id).toList)

def SessionStore.purgeExpired (expired : ℕ → Bool) (store : SessionStore) :
    SessionStore × List ℕ :=
  (List.filter (fun e => !expired e.2) store,
    (List.filter (fun e => expired e.2) store).map Prod.snd)

end Maple.Transport.Sessions

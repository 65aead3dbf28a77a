import Maple.Lib.Recency
import Maple.Lib.Run

/-!
# The lease-aware session cache

Values live in shared slots. The cache owns one reference to a slot, and every lease
owns one more and is counted in the slot until its drop. A drop gives the count back
first and the reference afterwards, without the lock of the cache, so the two are
separate steps. Instants are numbers up to a latest one; a deadline past it panics.
-/

set_option autoImplicit false

namespace Maple.LeaseCache

open Recency

def usizeMax : ℕ := 2^64-1

structure CachedValue (V : Type) where
  value : V
  slot : ℕ
  expiresAt : ℕ
  deriving DecidableEq

inductive InsertOutcome where
  | inserted
  | reclaimedExpired
  | evictedLeastRecentlyUsed
  deriving DecidableEq

inductive InsertError where
  | duplicateKey
  | allEntriesLeased
  deriving DecidableEq

structure Cache (K V : Type) where
  entries : Lru K (CachedValue V)
  ttl : ℕ
  latest : ℕ
  held : List ℕ
  released : List ℕ
  nextSlot : ℕ

section Operations
variable {K V : Type} [DecidableEq K]

def Cache.new (capacity : ℕ) (h : 0 < capacity) (ttl latest : ℕ) : Cache K V :=
  ⟨Lru.new capacity h, ttl, latest, [], [], 0⟩

def Cache.leases (cache : Cache K V) (slot : ℕ) : ℕ := cache.held.count slot

def Cache.strongCount (cache : Cache K V) (slot : ℕ) : ℕ :=
  1+cache.held.count slot+cache.released.count slot

def Cache.hasExternalLease (cache : Cache K V) (entry : CachedValue V) : Bool :=
  cache.leases entry.slot ≠ 0 || cache.strongCount entry.slot ≠ 1

def Cache.expiryAt (cache : Cache K V) (now : ℕ) : Option ℕ :=
  if now+cache.ttl ≤ cache.latest then some (now+cache.ttl) else none

def Cache.pop (cache : Cache K V) (key : K) : Cache K V :=
  { cache with entries := cache.entries.pop key }

def Cache.insertNew (cache : Cache K V) (key : K) (value : V) (expiresAt : ℕ) : Cache K V :=
  { cache with
    entries := cache.entries.put key ⟨value, cache.nextSlot, expiresAt⟩
    nextSlot := cache.nextSlot+1 }

def Cache.evictionCandidate (cache : Cache K V) : Option (K × CachedValue V) :=
  cache.entries.entries.reverse.find? (fun entry => !cache.hasExternalLease entry.2)

/-- No result stands for the panic of `expiry_at`. -/
def Cache.insertEvictingAt (cache : Cache K V) (key : K) (value : V) (now : ℕ) :
    Option (Except InsertError InsertOutcome) × Cache K V :=
  if (cache.entries.peek key).isSome then
    (some (.error .duplicateKey), cache)
  else
    match cache.expiryAt now with
    | none => (none, cache)
    | some expiresAt =>
      if !cache.entries.isFull then
        (some (.ok .inserted), cache.insertNew key value expiresAt)
      else
        match cache.evictionCandidate with
        | none => (some (.error .allEntriesLeased), cache)
        | some (evictionKey, evicted) =>
          let outcome := if evicted.expiresAt ≤ now then InsertOutcome.reclaimedExpired
            else .evictedLeastRecentlyUsed
          (some (.ok outcome), (cache.pop evictionKey).insertNew key value expiresAt)

def Cache.expiredUnleased (cache : Cache K V) (entry : CachedValue V) (now : ℕ) : Bool :=
  decide (entry.expiresAt ≤ now) && !cache.hasExternalLease entry

def Cache.acquireAt (cache : Cache K V) (key : K) (now : ℕ) : Option ℕ × Cache K V :=
  match cache.entries.peek key with
  | none => (none, cache)
  | some entry =>
    if cache.expiredUnleased entry now then (none, cache.pop key)
    else if cache.leases entry.slot = usizeMax then (none, cache)
    else (some entry.slot, { cache with held := entry.slot::cache.held })

def Cache.touchAt (cache : Cache K V) (key : K) (now : ℕ) : Option Bool × Cache K V :=
  match cache.entries.peek key with
  | none => (some false, cache)
  | some entry =>
    if cache.expiredUnleased entry now then (some false, cache.pop key)
    else
      match cache.expiryAt now with
      | none => (none, cache)
      | some expiresAt => (some true, { cache with
          entries := cache.entries.refresh key (fun entry => { entry with expiresAt }) })

def Cache.scanExpired (cache : Cache K V) (now : ℕ) : List (K × CachedValue V) → List K
  | [] => []
  | (key, entry)::rest =>
    if now < entry.expiresAt then []
    else if !cache.hasExternalLease entry then key::cache.scanExpired now rest
    else cache.scanExpired now rest

def Cache.expiredUnleasedKeysAt (cache : Cache K V) (now : ℕ) : List K :=
  cache.scanExpired now cache.entries.entries.reverse

def Cache.shouldRetire (cache : Cache K V) (now : ℕ) (key : K) : Bool :=
  (cache.entries.peek key).any (fun entry => cache.expiredUnleased entry now)

/-- The slots are destroyed by the caller, after it gave the lock back. -/
def Cache.retireExpiredCandidatesAt (cache : Cache K V) (now : ℕ) :
    List K → List ℕ × Cache K V
  | [] => ([], cache)
  | key::keys =>
    if cache.shouldRetire now key then
      let rest := (cache.pop key).retireExpiredCandidatesAt now keys
      (((cache.entries.peek key).map CachedValue.slot).toList++rest.1, rest.2)
    else cache.retireExpiredCandidatesAt now keys

end Operations

inductive Event (K V : Type) where
  | insert (key : K) (value : V) (now : ℕ)
  | acquire (key : K) (now : ℕ)
  | touch (key : K) (now : ℕ)
  | giveCountBack (slot : ℕ)
  | giveSlotBack (slot : ℕ)
  | retire (keys : List K) (cutoff : ℕ)

structure System (K V : Type) where
  cache : Cache K V
  clock : ℕ

section Machine
variable {K V : Type} [DecidableEq K]

def advance (system : System K V) (now : ℕ) (cache : Cache K V) : Option (System K V) :=
  if system.clock ≤ now then some ⟨cache, now⟩ else none

def Cache.giveCountBack (cache : Cache K V) (slot : ℕ) : Option (Cache K V) :=
  if slot ∈ cache.held then
    some { cache with held := cache.held.erase slot, released := slot::cache.released }
  else none

def Cache.giveSlotBack (cache : Cache K V) (slot : ℕ) : Option (Cache K V) :=
  if slot ∈ cache.released then some { cache with released := cache.released.erase slot }
  else none

/-- The times of the operations never decrease; the cutoff of a batch is any instant. -/
def step (system : System K V) : Event K V → Option (System K V)
  | .insert key value now => advance system now (system.cache.insertEvictingAt key value now).2
  | .acquire key now => advance system now (system.cache.acquireAt key now).2
  | .touch key now => advance system now (system.cache.touchAt key now).2
  | .giveCountBack slot => (system.cache.giveCountBack slot).map (fun cache => ⟨cache, system.clock⟩)
  | .giveSlotBack slot => (system.cache.giveSlotBack slot).map (fun cache => ⟨cache, system.clock⟩)
  | .retire keys cutoff =>
    some ⟨(system.cache.retireExpiredCandidatesAt cutoff keys).2, system.clock⟩

def System.new (capacity : ℕ) (h : 0 < capacity) (ttl latest clock : ℕ) : System K V :=
  ⟨Cache.new capacity h ttl latest, clock⟩

end Machine

end Maple.LeaseCache

import Maple.Transport.LeaseCache

/-!
# Recency and deadlines of the lease-aware cache

Every operation drops some unleased entries and then at most places one entry at the
front, with the latest deadline there is. So the deadlines decrease along the recency
order, and the scan for expired entries may stop at the first live one.
-/

set_option autoImplicit false

namespace Maple.LeaseCache

open Recency Keyed Run List

variable {K V : Type}

theorem leased_iff (cache : Cache K V) (entry : CachedValue V) :
    cache.hasExternalLease entry = true ↔ entry.slot ∈ cache.held++cache.released := by
  have hheld : cache.held.count entry.slot ≠ 0 ↔ entry.slot ∈ cache.held := by
    rw [ne_eq, count_eq_zero, Decidable.not_not]
  have hreleased : cache.released.count entry.slot ≠ 0 ↔ entry.slot ∈ cache.released := by
    rw [ne_eq, count_eq_zero, Decidable.not_not]
  rw [mem_append, ← hheld, ← hreleased, Cache.hasExternalLease, Bool.or_eq_true,
    decide_eq_true_iff, decide_eq_true_iff, Cache.leases, Cache.strongCount]
  omega

/-- The leased entries of `cache` are among `kept`, which has nothing new. -/
structure Keeps (cache : Cache K V) (kept : List (K × CachedValue V)) : Prop where
  sublist : kept.Sublist cache.entries.entries
  leased : ∀ entry ∈ cache.entries.entries, cache.hasExternalLease entry.2 = true → entry ∈ kept

def Ordered (entries : List (K × CachedValue V)) : Prop :=
  entries.Pairwise (fun newer older => older.2.expiresAt ≤ newer.2.expiresAt)

structure Sound (capacity : ℕ) (system : System K V) : Prop where
  capacity : system.cache.entries.capacity = capacity
  ordered : Ordered system.cache.entries.entries
  current : ∀ entry ∈ system.cache.entries.entries,
    entry.2.expiresAt ≤ system.clock+system.cache.ttl
  slots : (system.cache.entries.entries.map (fun entry => entry.2.slot)).Nodup
  used : ∀ entry ∈ system.cache.entries.entries, entry.2.slot < system.cache.nextSlot
  resident : ∀ slot ∈ system.cache.held++system.cache.released,
    ∃ entry ∈ system.cache.entries.entries, entry.2.slot = slot

theorem keeps_all (cache : Cache K V) : Keeps cache cache.entries.entries :=
  ⟨List.Sublist.refl _,fun _ hentry _ => hentry⟩

theorem expired_unleased_iff (cache : Cache K V) (entry : CachedValue V) (now : ℕ) :
    cache.expiredUnleased entry now = true ↔
      entry.expiresAt ≤ now ∧ cache.hasExternalLease entry = false := by
  simp [Cache.expiredUnleased]

variable {cache : Cache K V} {now : ℕ}

theorem expiry_some {expiresAt : ℕ} (h : cache.expiryAt now = some expiresAt) :
    expiresAt = now+cache.ttl := by
  unfold Cache.expiryAt at h
  split_ifs at h
  exact (Option.some.inj h).symm

theorem room_left (h : cache.entries.isFull = false) :
    cache.entries.entries.length < cache.entries.capacity := by
  simpa [Lru.isFull] using h

variable {system : System K V}

theorem advance_some {after : System K V} (h : advance system now cache = some after) :
    system.clock ≤ now ∧ after = ⟨cache,now⟩ := by
  unfold advance at h
  split_ifs at h with hclock
  exact ⟨hclock,(Option.some.inj h).symm⟩

variable {entries : List (K × CachedValue V)}

theorem front_ordered {front : K × CachedValue V} {kept : List (K × CachedValue V)}
    (hsub : kept.Sublist entries) (hordered : Ordered entries)
    (hlatest : ∀ entry ∈ entries, entry.2.expiresAt ≤ front.2.expiresAt) : Ordered (front::kept) :=
  pairwise_cons.mpr ⟨fun entry hentry => hlatest entry (hsub.mem hentry),
    List.Pairwise.sublist hsub hordered⟩

variable {capacity : ℕ}

theorem sound_new (h : 0 < capacity) (ttl latest clock : ℕ) :
    Sound capacity (System.new capacity h ttl latest clock : System K V) := by
  constructor <;> simp [System.new, Cache.new, Lru.new, Ordered]

/-- A leased entry stays under its key, with its value and its slot. -/
def Survives (cache after : Cache K V) : Prop :=
  ∀ key entry, (key, entry) ∈ cache.entries.entries → cache.hasExternalLease entry = true →
    ∃ later, (key, later) ∈ after.entries.entries ∧ later.slot = entry.slot ∧
      later.value = entry.value

theorem resident_kept (cache after : Cache K V) (hsurvive : Survives cache after)
    (hresident : ∀ slot ∈ cache.held++cache.released,
      ∃ entry ∈ cache.entries.entries, entry.2.slot = slot)
    (hleases : ∀ slot ∈ after.held++after.released, slot ∈ cache.held++cache.released ∨
      ∃ entry ∈ after.entries.entries, entry.2.slot = slot) :
    ∀ slot ∈ after.held++after.released, ∃ entry ∈ after.entries.entries, entry.2.slot = slot := by
  intro slot hslot
  rcases hleases slot hslot with hold | hnew
  · obtain ⟨entry,hentry,hsame⟩ := hresident slot hold
    have hleased := (leased_iff cache entry.2).mpr (hsame ▸ hold)
    obtain ⟨later,hlater,hslot,_⟩ := hsurvive entry.1 entry.2 hentry hleased
    exact ⟨(entry.1, later),hlater,hslot.trans hsame⟩
  · exact hnew

def Cache.expiredKeys (cache : Cache K V) (now : ℕ) (entries : List (K × CachedValue V)) :
    List K :=
  (entries.filter (fun entry => cache.expiredUnleased entry.2 now)).map Prod.fst

/-- Along increasing deadlines, nothing behind the first live entry is expired. -/
theorem scan_exact (cache : Cache K V) (now : ℕ)
    (h : entries.Pairwise (fun older newer => older.2.expiresAt ≤ newer.2.expiresAt)) :
    cache.scanExpired now entries = cache.expiredKeys now entries := by
  induction entries with
  | nil => rfl
  | cons first rest ih =>
    obtain ⟨key,entry⟩ := first
    obtain ⟨hfirst,hrest⟩ := pairwise_cons.mp h
    unfold Cache.scanExpired
    by_cases hlive : now < entry.expiresAt
    · have hnone : ∀ other ∈ (key, entry)::rest, ¬cache.expiredUnleased other.2 now = true := by
        intro other hother hexpired
        have hle := ((expired_unleased_iff _ _ _).mp hexpired).1
        rcases mem_cons.mp hother with hsame | hlater
        · subst hsame
          exact absurd hle (Nat.not_le.mpr hlive)
        · exact absurd ((hfirst other hlater).trans hle) (Nat.not_le.mpr hlive)
      rw [if_pos hlive, Cache.expiredKeys, filter_eq_nil_iff.mpr hnone, map_nil]
    · have hle := Nat.not_lt.mp hlive
      rw [if_neg hlive, ih hrest]
      cases hleased : cache.hasExternalLease entry <;>
        simp [Cache.expiredKeys, Cache.expiredUnleased, hle, hleased]

variable {entry : CachedValue V} {key : K}

/-- The candidate has the earliest deadline of all unleased entries. -/
theorem candidate_earliest
    (h : cache.evictionCandidate = some (key, entry)) (hordered : Ordered cache.entries.entries)
    {other : K × CachedValue V} (hother : other ∈ cache.entries.entries)
    (hfree : cache.hasExternalLease other.2 = false) : entry.expiresAt ≤ other.2.expiresAt := by
  obtain ⟨_,before,behind,hsplit,hleased⟩ := List.find?_eq_some_iff_append.mp h
  have hpairs := pairwise_reverse.mpr hordered
  have hin := mem_reverse.mpr hother
  rw [hsplit] at hpairs hin
  rcases mem_append.mp hin with hbefore | hrest
  · have hnot := hleased other hbefore
    simp [hfree] at hnot
  · rcases mem_cons.mp hrest with hsame | hbehind
    · exact hsame ▸ le_rfl
    · exact (pairwise_cons.mp (pairwise_append.mp hpairs).2.1).1 other hbehind

theorem snapshot_exact (now : ℕ) (h : Ordered cache.entries.entries) :
    cache.expiredUnleasedKeysAt now = (cache.expiredKeys now cache.entries.entries).reverse := by
  rw [Cache.expiredUnleasedKeysAt, scan_exact cache now (pairwise_reverse.mpr h),
    Cache.expiredKeys, filter_reverse, map_reverse]
  rfl

theorem lease_owner (h : Sound capacity system) (slot : ℕ)
    (hslot : slot ∈ system.cache.held++system.cache.released) :
    ∃ owner ∈ system.cache.entries.entries, owner.2.slot = slot ∧
      ∀ other ∈ system.cache.entries.entries, other.2.slot = slot → other = owner := by
  obtain ⟨owner,howner,hsame⟩ := h.resident slot hslot
  refine ⟨owner,howner,hsame,fun other hother hshared => ?_⟩
  exact inj_on_of_nodup_map h.slots hother howner (hshared.trans hsame.symm)

variable [DecidableEq K]

inductive Change (cache : Cache K V) (now : ℕ) (after : Cache K V) : Prop where
  | prune (kept : List (K × CachedValue V)) (keeps : Keeps cache kept)
      (entries : after.entries.entries = kept) (slots : after.nextSlot = cache.nextSlot)
  | place (key : K) (value : V) (kept : List (K × CachedValue V)) (keeps : Keeps cache kept)
      (entries : after.entries.entries = (key, ⟨value, cache.nextSlot, now+cache.ttl⟩)::kept)
      (slots : after.nextSlot = cache.nextSlot+1)
  | move (key : K) (entry : CachedValue V) (resident : (key, entry) ∈ cache.entries.entries)
      (entries : after.entries.entries =
        (key, { entry with expiresAt := now+cache.ttl })::without key cache.entries.entries)
      (slots : after.nextSlot = cache.nextSlot)

/-- What an operation may do, with the fixed parts and the leases. -/
structure Allowed (cache : Cache K V) (now : ℕ) (after : Cache K V) : Prop where
  change : Change cache now after
  capacity : after.entries.capacity = cache.entries.capacity
  ttl : after.ttl = cache.ttl
  leases : ∀ slot ∈ after.held++after.released, slot ∈ cache.held++cache.released ∨
    ∃ entry ∈ after.entries.entries, entry.2.slot = slot

theorem allowed_same (cache : Cache K V) (now : ℕ) : Allowed cache now cache :=
  ⟨.prune _ (keeps_all cache) rfl rfl,rfl,rfl,fun _ hslot => .inl hslot⟩

theorem peek_only {other : CachedValue V} (hpeek : cache.entries.peek key = some entry)
    (h : (key, other) ∈ cache.entries.entries) : other = entry := by
  have hfound := mem_find cache.entries.unique h
  exact Option.some.inj (hfound.symm.trans hpeek)

theorem keeps_pop (hpeek : cache.entries.peek key = some entry)
    (hfree : cache.hasExternalLease entry = false) :
    Keeps cache (cache.pop key).entries.entries := by
  refine ⟨without_sublist key _,fun other hother hleased => ?_⟩
  refine (mem_without key _ other).mpr ⟨hother,fun hkey => ?_⟩
  subst hkey
  rw [peek_only hpeek hother, hfree] at hleased
  cases hleased

theorem allowed_pop (now : ℕ) (hpeek : cache.entries.peek key = some entry)
    (hfree : cache.hasExternalLease entry = false) : Allowed cache now (cache.pop key) :=
  ⟨.prune _ (keeps_pop hpeek hfree) rfl rfl,rfl,rfl,fun _ hslot => .inl hslot⟩

theorem candidate_resident (h : cache.evictionCandidate = some (key, entry)) :
    cache.entries.peek key = some entry ∧ cache.hasExternalLease entry = false := by
  have hmem := mem_reverse.mp (List.mem_of_find?_eq_some h)
  have hfree := List.find?_some h
  refine ⟨mem_find cache.entries.unique hmem,?_⟩
  simpa using hfree

/-- An insertion of a new key writes nothing, or drops at most the candidate and puts
the new entry in front. -/
inductive Insertion (cache : Cache K V) (key : K) (value : V) (now : ℕ) :
    Option (Except InsertError InsertOutcome) × Cache K V → Prop where
  | refused (result : Option (Except InsertError InsertOutcome))
      (leased : result = some (.error .allEntriesLeased) →
        cache.entries.isFull = true ∧ cache.evictionCandidate = none) :
      Insertion cache key value now (result, cache)
  | room (outcome : InsertOutcome) (after : Cache K V)
      (made : after = cache.insertNew key value (now+cache.ttl))
      (entries : after.entries.entries =
        (key, ⟨value, cache.nextSlot, now+cache.ttl⟩)::cache.entries.entries) :
      Insertion cache key value now (some (.ok outcome), after)
  | evicted (outcome : InsertOutcome) (old : K) (entry : CachedValue V) (after : Cache K V)
      (candidate : cache.evictionCandidate = some (old, entry))
      (made : after = (cache.pop old).insertNew key value (now+cache.ttl))
      (entries : after.entries.entries =
        (key, ⟨value, cache.nextSlot, now+cache.ttl⟩)::without old cache.entries.entries) :
      Insertion cache key value now (some (.ok outcome), after)

theorem pop_missing (old : K) (h : cache.entries.peek key = none) :
    (cache.pop old).entries.peek key = none := by
  refine (find_none_iff key _).mpr (fun hmem => (find_none_iff key _).mp h ?_)
  exact ((without_sublist old cache.entries.entries).map Prod.fst).mem hmem

theorem insert_cases (cache : Cache K V) (key : K) (value : V) (now : ℕ) :
    Insertion cache key value now (cache.insertEvictingAt key value now) := by
  unfold Cache.insertEvictingAt
  cases hpeek : cache.entries.peek key with
  | some entry => exact .refused _ (fun h => by simp at h)
  | none =>
    simp only [Option.isSome_none, Bool.false_eq_true, if_false]
    cases hexpiry : cache.expiryAt now with
    | none => exact .refused _ (fun h => by simp at h)
    | some expiresAt =>
      cases expiry_some hexpiry
      cases hfull : cache.entries.isFull with
      | false => exact .room _ _ rfl (put_new _ hpeek (room_left hfull))
      | true =>
        cases hcandidate : cache.evictionCandidate with
        | none => exact .refused _ (fun _ => ⟨hfull,hcandidate⟩)
        | some candidate =>
          obtain ⟨old,entry⟩ := candidate
          have hold := (candidate_resident hcandidate).1
          refine .evicted _ old entry _ hcandidate rfl ?_
          refine put_new _ (pop_missing old hpeek) ?_
          have hbound := cache.entries.bounded
          exact (without_shorter (find_mem hold)).trans_le hbound

theorem insert_allowed (cache : Cache K V) (key : K) (value : V) (now : ℕ) :
    Allowed cache now (cache.insertEvictingAt key value now).2 := by
  have hcases := insert_cases cache key value now
  generalize cache.insertEvictingAt key value now = result at *
  cases hcases with
  | refused result leased => exact allowed_same cache now
  | room outcome after made entries =>
    subst made
    exact ⟨.place key value _ (keeps_all cache) entries rfl,rfl,rfl,fun _ h => .inl h⟩
  | evicted outcome old entry after candidate made entries =>
    obtain ⟨hold,hfree⟩ := candidate_resident candidate
    subst made
    exact ⟨.place key value _ (keeps_pop hold hfree) entries rfl,rfl,rfl,
      fun _ h => .inl h⟩

theorem acquire_allowed (cache : Cache K V) (key : K) (now : ℕ) :
    Allowed cache now (cache.acquireAt key now).2 := by
  unfold Cache.acquireAt
  cases hpeek : cache.entries.peek key with
  | none => exact allowed_same cache now
  | some entry =>
    dsimp only
    split_ifs with hexpired hmax
    · exact allowed_pop now hpeek ((expired_unleased_iff _ _ _).mp hexpired).2
    · exact allowed_same cache now
    · refine ⟨.prune _ (keeps_all cache) rfl rfl,rfl,rfl,fun slot hslot => ?_⟩
      rcases mem_cons.mp hslot with hnew | hold
      · exact .inr ⟨(key, entry),find_mem hpeek,hnew.symm⟩
      · exact .inl hold

theorem touch_allowed (cache : Cache K V) (key : K) (now : ℕ) :
    Allowed cache now (cache.touchAt key now).2 := by
  unfold Cache.touchAt
  cases hpeek : cache.entries.peek key with
  | none => exact allowed_same cache now
  | some entry =>
    dsimp only
    split_ifs with hexpired
    · exact allowed_pop now hpeek ((expired_unleased_iff _ _ _).mp hexpired).2
    cases hexpiry : cache.expiryAt now with
    | none => exact allowed_same cache now
    | some expiresAt =>
      cases expiry_some hexpiry
      exact ⟨.move key entry (find_mem hpeek)
        (refresh_entries _ hpeek) rfl,refresh_capacity _ key _,rfl,
        fun _ hslot => .inl hslot⟩

/-- A batch drops expired unleased entries only, and touches no lease. -/
structure Retired (cache : Cache K V) (cutoff : ℕ) (after : Cache K V) : Prop where
  sublist : after.entries.entries.Sublist cache.entries.entries
  dropped : ∀ entry ∈ cache.entries.entries, entry ∈ after.entries.entries ∨
    cache.expiredUnleased entry.2 cutoff = true
  capacity : after.entries.capacity = cache.entries.capacity
  ttl : after.ttl = cache.ttl
  nextSlot : after.nextSlot = cache.nextSlot
  held : after.held = cache.held
  released : after.released = cache.released

theorem retire_pop {after : Cache K V} {cutoff : ℕ} (hretire : cache.shouldRetire cutoff key = true)
    (hrest : Retired (cache.pop key) cutoff after) : Retired cache cutoff after := by
  obtain ⟨entry,hpeek,hexpired⟩ : ∃ entry, cache.entries.peek key = some entry ∧
      cache.expiredUnleased entry cutoff = true := by
    unfold Cache.shouldRetire at hretire
    cases hpeek : cache.entries.peek key with
    | none => simp [hpeek] at hretire
    | some entry => exact ⟨entry,rfl,by simpa [hpeek] using hretire⟩
  refine ⟨hrest.sublist.trans (without_sublist key _),fun other hother => ?_,
    hrest.capacity,hrest.ttl,hrest.nextSlot,hrest.held,hrest.released⟩
  by_cases hkey : other.1 = key
  · subst hkey
    rw [peek_only hpeek hother]
    exact .inr hexpired
  · exact hrest.dropped other ((mem_without key _ other).mpr ⟨hother,hkey⟩)

theorem retire_retired (cache : Cache K V) (cutoff : ℕ) (keys : List K) :
    Retired cache cutoff (cache.retireExpiredCandidatesAt cutoff keys).2 := by
  induction keys generalizing cache with
  | nil => exact ⟨List.Sublist.refl _,fun _ hentry => .inl hentry,rfl,rfl,rfl,rfl,rfl⟩
  | cons key keys ih =>
    unfold Cache.retireExpiredCandidatesAt
    split_ifs with hretire
    · exact retire_pop hretire (ih (cache.pop key))
    · exact ih cache

theorem retire_allowed (cache : Cache K V) (now cutoff : ℕ) (keys : List K) :
    Allowed cache now (cache.retireExpiredCandidatesAt cutoff keys).2 := by
  have h := retire_retired cache cutoff keys
  refine ⟨.prune _ ⟨h.sublist,fun entry hentry hleased => ?_⟩ rfl h.nextSlot,h.capacity,h.ttl,
    fun slot hslot => ?_⟩
  · rcases h.dropped entry hentry with hkept | hdropped
    · exact hkept
    · rw [((expired_unleased_iff _ _ _).mp hdropped).2] at hleased
      cases hleased
  · rw [h.held, h.released] at hslot
    exact .inl hslot

theorem count_back_allowed {after : Cache K V} (now : ℕ) {slot : ℕ}
    (h : cache.giveCountBack slot = some after) : Allowed cache now after := by
  unfold Cache.giveCountBack at h
  split_ifs at h with hheld
  cases h
  refine ⟨.prune _ (keeps_all cache) rfl rfl,rfl,rfl,fun other hother => .inl ?_⟩
  rcases mem_append.mp hother with hleft | hright
  · exact mem_append_left _ (mem_of_mem_erase hleft)
  · rcases mem_cons.mp hright with hsame | hold
    · exact mem_append_left _ (hsame ▸ hheld)
    · exact mem_append_right _ hold

theorem slot_back_allowed {after : Cache K V} (now : ℕ) {slot : ℕ}
    (h : cache.giveSlotBack slot = some after) : Allowed cache now after := by
  unfold Cache.giveSlotBack at h
  split_ifs at h
  cases h
  refine ⟨.prune _ (keeps_all cache) rfl rfl,rfl,rfl,fun other hother => .inl ?_⟩
  rcases mem_append.mp hother with hleft | hright
  · exact mem_append_left _ hleft
  · exact mem_append_right _ (mem_of_mem_erase hright)

theorem step_allowed {after : System K V} {event : Event K V} (h : step system event = some after) :
    system.clock ≤ after.clock ∧ Allowed system.cache after.clock after.cache := by
  cases event with
  | insert key value now =>
    obtain ⟨hclock,rfl⟩ := advance_some h
    exact ⟨hclock,insert_allowed system.cache key value now⟩
  | acquire key now =>
    obtain ⟨hclock,rfl⟩ := advance_some h
    exact ⟨hclock,acquire_allowed system.cache key now⟩
  | touch key now =>
    obtain ⟨hclock,rfl⟩ := advance_some h
    exact ⟨hclock,touch_allowed system.cache key now⟩
  | giveCountBack slot =>
    obtain ⟨cache,hcache,rfl⟩ := Option.map_eq_some_iff.mp h
    exact ⟨le_rfl,count_back_allowed _ hcache⟩
  | giveSlotBack slot =>
    obtain ⟨cache,hcache,rfl⟩ := Option.map_eq_some_iff.mp h
    exact ⟨le_rfl,slot_back_allowed _ hcache⟩
  | retire keys cutoff =>
    cases h
    exact ⟨le_rfl,retire_allowed system.cache _ cutoff keys⟩

theorem change_survives {after : Cache K V} (h : Change cache now after) :
    Survives cache after := by
  intro key entry hentry hleased
  cases h with
  | prune kept keeps entries slots =>
    exact ⟨entry,entries ▸ keeps.leased (key, entry) hentry hleased,rfl,rfl⟩
  | place new value kept keeps entries slots =>
    have hkept := keeps.leased (key, entry) hentry hleased
    exact ⟨entry,entries ▸ mem_cons_of_mem _ hkept,rfl,rfl⟩
  | move moved old resident entries slots =>
    rw [entries]
    by_cases hkey : key = moved
    · subst hkey
      have hfound := mem_find cache.entries.unique resident
      cases peek_only hfound hentry
      exact ⟨_,mem_cons_self,rfl,rfl⟩
    · have hkept := (mem_without moved _ (key, entry)).mpr ⟨hentry,hkey⟩
      exact ⟨entry,mem_cons_of_mem _ hkept,rfl,rfl⟩

theorem without_slots (key : K) (entry : CachedValue V) (entries : List (K × CachedValue V))
    (hslots : (entries.map (fun entry => entry.2.slot)).Nodup) (hentry : (key, entry) ∈ entries) :
    entry.slot ∉ (without key entries).map (fun entry => entry.2.slot) := by
  intro hmem
  obtain ⟨other,hother,hslot⟩ := mem_map.mp hmem
  obtain ⟨hin,hkey⟩ := (mem_without key entries other).mp hother
  have hsame := inj_on_of_nodup_map hslots hin hentry hslot
  exact hkey (congrArg Prod.fst hsame)

theorem change_sound (capacity : ℕ) (system after : System K V)
    (hclock : system.clock ≤ after.clock) (h : Allowed system.cache after.clock after.cache)
    (hsound : Sound capacity system) : Sound capacity after := by
  have hcapacity := h.capacity.trans hsound.capacity
  have hresident := resident_kept _ _ (change_survives h.change) hsound.resident h.leases
  have hcurrent : ∀ entry ∈ system.cache.entries.entries,
      entry.2.expiresAt ≤ after.clock+system.cache.ttl := fun entry hentry =>
    (hsound.current entry hentry).trans (Nat.add_le_add_right hclock _)
  cases h.change with
  | prune kept keeps entries slots =>
    refine ⟨hcapacity,?_,fun entry hentry => ?_,?_,fun entry hentry => ?_,hresident⟩
    · exact entries ▸ List.Pairwise.sublist keeps.sublist hsound.ordered
    · rw [h.ttl]
      exact hcurrent entry (keeps.sublist.mem (entries ▸ hentry))
    · exact entries ▸ hsound.slots.sublist (keeps.sublist.map _)
    · rw [slots]
      exact hsound.used entry (keeps.sublist.mem (entries ▸ hentry))
  | place key value kept keeps entries slots =>
    have hold (entry) (hentry : entry ∈ kept) := keeps.sublist.mem hentry
    refine ⟨hcapacity,?_,fun entry hentry => ?_,?_,fun entry hentry => ?_,hresident⟩
    · exact entries ▸ front_ordered keeps.sublist hsound.ordered hcurrent
    · rw [h.ttl]
      rw [entries] at hentry
      rcases mem_cons.mp hentry with hnew | hkept
      · exact hnew ▸ le_rfl
      · exact hcurrent entry (hold entry hkept)
    · rw [entries]
      refine nodup_cons.mpr ⟨fun hmem => ?_,hsound.slots.sublist (keeps.sublist.map _)⟩
      obtain ⟨entry,hentry,hslot⟩ := mem_map.mp hmem
      exact (hsound.used entry (hold entry hentry)).ne hslot
    · rw [slots]
      rw [entries] at hentry
      rcases mem_cons.mp hentry with hnew | hkept
      · exact hnew ▸ Nat.lt_succ_self _
      · exact (hsound.used entry (hold entry hkept)).trans (Nat.lt_succ_self _)
  | move key old resident entries slots =>
    have hsub := without_sublist key system.cache.entries.entries
    refine ⟨hcapacity,?_,fun entry hentry => ?_,?_,fun entry hentry => ?_,hresident⟩
    · exact entries ▸ front_ordered hsub hsound.ordered hcurrent
    · rw [h.ttl]
      rw [entries] at hentry
      rcases mem_cons.mp hentry with hnew | hkept
      · exact hnew ▸ le_rfl
      · exact hcurrent entry (hsub.mem hkept)
    · rw [entries]
      exact nodup_cons.mpr ⟨without_slots key old _ hsound.slots resident,
        hsound.slots.sublist (hsub.map _)⟩
    · rw [slots]
      rw [entries] at hentry
      rcases mem_cons.mp hentry with hnew | hkept
      · exact hnew ▸ hsound.used (key, old) resident
      · exact hsound.used entry (hsub.mem hkept)

theorem run_sound (h : 0 < capacity) {ttl latest clock : ℕ} {events : List (Event K V)}
    (hrun : run step (System.new capacity h ttl latest clock) events = some system) :
    Sound capacity system := by
  refine run_invariant (Sound capacity) (fun before event after hsound hstep => ?_)
    _ hrun (sound_new h ttl latest clock)
  obtain ⟨hclock,hallowed⟩ := step_allowed hstep
  exact change_sound capacity before after hclock hallowed hsound

theorem insert_spares (cache : Cache K V) (key : K) (value : V) (now : ℕ)
    (hordered : Ordered cache.entries.entries) (gone : K × CachedValue V)
    (hgone : gone ∈ cache.entries.entries)
    (hmissing : gone ∉ (cache.insertEvictingAt key value now).2.entries.entries)
    (hlive : now < gone.2.expiresAt) :
    ∀ other ∈ cache.entries.entries, cache.expiredUnleased other.2 now = false := by
  intro other hother
  cases hexpired : cache.expiredUnleased other.2 now with
  | false => rfl
  | true =>
    obtain ⟨hdue,hfree⟩ := (expired_unleased_iff _ _ _).mp hexpired
    have hcases := insert_cases cache key value now
    generalize cache.insertEvictingAt key value now = result at *
    cases hcases with
    | refused result leased => exact absurd hgone hmissing
    | room outcome after made entries =>
      exact absurd (entries ▸ mem_cons_of_mem _ hgone) hmissing
    | evicted outcome old entry after candidate made entries =>
      have hearly := candidate_earliest candidate hordered hother hfree
      by_cases hkey : gone.1 = old
      · subst hkey
        have hpeek := (candidate_resident candidate).1
        rw [peek_only hpeek hgone] at hlive
        omega
      · have hkept := (mem_without old _ gone).mpr ⟨hgone,hkey⟩
        exact absurd (entries ▸ mem_cons_of_mem _ hkept) hmissing

theorem overload_full {value : V}
    (h : (cache.insertEvictingAt key value now).1 = some (.error .allEntriesLeased)) :
    cache.entries.entries.length = cache.entries.capacity ∧
      ∀ entry ∈ cache.entries.entries, cache.hasExternalLease entry.2 = true := by
  have hcases := insert_cases cache key value now
  generalize cache.insertEvictingAt key value now = result at *
  cases hcases with
  | refused result leased =>
    obtain ⟨hfull,hnone⟩ := leased h
    refine ⟨le_antisymm cache.entries.bounded (by simpa [Lru.isFull] using hfull),?_⟩
    intro entry hentry
    simpa using List.find?_eq_none.mp hnone entry (mem_reverse.mpr hentry)
  | room | evicted => cases h

/-- In every state of every run: leased entries survive the next event and every lease
has its one resident entry; the size is bounded and only overload refuses an insertion;
deadlines follow recency and the snapshot is complete; a live entry is evicted only if no
unleased entry is expired; a batch of any keys drops nothing that is live at its cutoff. -/
theorem lease_cache_safe (capacity : ℕ) (h : 0 < capacity) (ttl latest clock : ℕ)
    (events : List (Event K V)) (system : System K V)
    (hrun : run step (System.new capacity h ttl latest clock) events = some system) :
    ((∀ event after, step system event = some after → Survives system.cache after.cache) ∧
      ∀ slot ∈ system.cache.held++system.cache.released,
        ∃ owner ∈ system.cache.entries.entries, owner.2.slot = slot ∧
          ∀ other ∈ system.cache.entries.entries, other.2.slot = slot → other = owner) ∧
    (system.cache.entries.entries.length ≤ capacity ∧
      ∀ key value now,
        (system.cache.insertEvictingAt key value now).1 = some (.error .allEntriesLeased) →
        system.cache.entries.entries.length = capacity ∧
          ∀ entry ∈ system.cache.entries.entries,
            system.cache.hasExternalLease entry.2 = true) ∧
    (Ordered system.cache.entries.entries ∧
      ∀ now, system.cache.expiredUnleasedKeysAt now =
        (system.cache.expiredKeys now system.cache.entries.entries).reverse) ∧
    (∀ key value now, ∀ gone ∈ system.cache.entries.entries,
      gone ∉ (system.cache.insertEvictingAt key value now).2.entries.entries →
      now < gone.2.expiresAt →
      ∀ other ∈ system.cache.entries.entries,
        system.cache.expiredUnleased other.2 now = false) ∧
    ∀ keys cutoff, ∀ entry ∈ system.cache.entries.entries, cutoff < entry.2.expiresAt →
      entry ∈ (system.cache.retireExpiredCandidatesAt cutoff keys).2.entries.entries := by
  have hsound := run_sound h hrun
  refine ⟨⟨fun event after hstep => ?_, lease_owner hsound⟩,
    ⟨hsound.capacity ▸ system.cache.entries.bounded, fun key value now hfull => ?_⟩,
    ⟨hsound.ordered, fun now => snapshot_exact now hsound.ordered⟩,
    fun key value now gone hgone hmissing hlive =>
      insert_spares system.cache key value now hsound.ordered gone hgone hmissing hlive,
    fun keys cutoff entry hentry hlive => ?_⟩
  · exact change_survives (step_allowed hstep).2.change
  · exact hsound.capacity ▸ overload_full hfull
  · rcases (retire_retired system.cache cutoff keys).dropped entry hentry with hkept | hexpired
    · exact hkept
    · have hdue := ((expired_unleased_iff _ _ _).mp hexpired).1
      omega

def sampleEvents : List (Event ℕ ℕ) :=
  [.insert 0 10 0, .insert 1 11 1, .acquire 0 2, .touch 1 3, .insert 2 12 9, .giveCountBack 0,
    .insert 3 13 9, .giveSlotBack 0, .retire [2, 0] 7]

def sampleReached : Bool :=
  (run step (System.new 2 (by decide) 5 100 0) sampleEvents).any
    (fun system => decide (system.cache.entries.entries = [(3, ⟨13, 3, 14⟩)]))

theorem lease_cache_safe_sample :
    ∃ system : System ℕ ℕ,
      run step (System.new 2 (by decide) 5 100 0) sampleEvents = some system ∧
      system.cache.entries.entries = [(3, ⟨13, 3, 14⟩)] ∧
      ∀ now, system.cache.expiredUnleasedKeysAt now =
        (system.cache.expiredKeys now system.cache.entries.entries).reverse := by
  have hreached : sampleReached = true := by decide +kernel
  unfold sampleReached at hreached
  cases hrun : run step (System.new 2 (by decide) 5 100 0) sampleEvents with
  | none => simp [hrun] at hreached
  | some system =>
    have hentries : system.cache.entries.entries = [(3, ⟨13, 3, 14⟩)] := by
      simpa [hrun] using hreached
    exact ⟨system, rfl, hentries,
      (lease_cache_safe 2 (by decide) 5 100 0 sampleEvents system hrun).2.2.1.2⟩

end Maple.LeaseCache

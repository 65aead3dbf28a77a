import Maple.Lib.Keyed

/-!
# First in, first out

A store of bounded weight and bounded size. It keeps its keys in the order they were put,
and the oldest make room for a new one. The weight is kept as a number of its own: taking
off more than it holds is an underflow, and the operation then has no value.
-/

set_option autoImplicit false

namespace Maple.Fifo

open Keyed List

structure Store (α β : Type) where
  items : Map α β
  order : List α
  held : ℕ

def Store.empty {α β : Type} : Store α β := ⟨Map.empty, [], 0⟩

section Bounds
variable {α β : Type} (weight : β → ℕ) (maxWeight maxEntries : ℕ)

structure Exact (s : Store α β) : Prop where
  listed : s.order.Perm s.items.keys
  weighed : s.held = s.items.total weight

structure Sound (s : Store α β) : Prop extends Exact weight s where
  light : s.held ≤ maxWeight
  few : s.items.size ≤ maxEntries

theorem sound_empty : Sound weight maxWeight maxEntries (Store.empty : Store α β) where
  listed := List.Perm.refl _
  weighed := rfl
  light := Nat.zero_le _
  few := Nat.zero_le _

variable [DecidableEq α]

def evict (size : ℕ) : List α → Map α β → ℕ → Option (Store α β)
  | [], items, held => some ⟨items, [], held⟩
  | oldest::rest, items, held =>
    if maxWeight < held+size ∨ maxEntries ≤ items.size then
      match items.get oldest with
      | none => evict size rest items held
      | some removed =>
        if weight removed ≤ held then
          evict size rest (items.remove oldest) (held-weight removed)
        else none
    else some ⟨items, oldest::rest, held⟩

def put (key : α) (value : β) (s : Store α β) : Option (Store α β) :=
  if maxWeight < weight value then some s
  else (evict weight maxWeight maxEntries (weight value) s.order s.items s.held).map
    (fun s => ⟨s.items.set key value, s.order++[key], s.held+weight value⟩)

def retain (keep : α → β → Bool) (s : Store α β) : Store α β :=
  let items := s.items.restrict keep
  ⟨items, s.order.filter (fun key => (items.get key).isSome), items.total weight⟩

def Within (s t : Store α β) : Prop :=
  ∀ key value, t.items.get key = some value → s.items.get key = some value

variable {s : Store α β} {weight}

theorem retain_exact (keep : α → β → Bool) (h : Exact weight s) :
    Exact weight (retain weight keep s) where
  listed := by
    rw [retain, keys_restrict]
    exact h.listed.filter _
  weighed := rfl

theorem retain_sound (keep : α → β → Bool) (h : Sound weight maxWeight maxEntries s) :
    Sound weight maxWeight maxEntries (retain weight keep s) where
  toExact := retain_exact keep h.toExact
  light := by
    have hle := total_restrict s.items keep weight
    rw [← h.weighed] at hle
    exact Nat.le_trans hle h.light
  few := Nat.le_trans (size_restrict s.items keep) h.few

/-- The oldest key is in a store that lists its keys, so taking it out cannot underflow. -/
theorem oldest_out {oldest : α} {rest : List α} {items : Map α β} {held : ℕ}
    (h : Exact weight ⟨items,oldest::rest,held⟩) :
    ∃ removed, items.get oldest = some removed ∧ weight removed ≤ held ∧
      Exact weight ⟨items.remove oldest,rest,held-weight removed⟩ := by
  have hlisted : oldest ∈ items.keys := h.listed.subset mem_cons_self
  obtain ⟨removed,hget⟩ := Option.isSome_iff_exists.mp ((get_isSome items oldest).mpr hlisted)
  have htotal := total_remove weight hget
  have hweighed : held = items.total weight := h.weighed
  have hnew : oldest ∉ rest := (nodup_cons.mp (h.listed.nodup_iff.mpr items.unique)).1
  have hfilter : (oldest::rest).filter (fun key => key ≠ oldest) = rest := by
    rw [filter_cons_of_neg (by simp)]
    refine filter_eq_self.mpr (fun key hkey => ?_)
    have hne : key ≠ oldest := fun hsame => hnew (hsame ▸ hkey)
    simpa using hne
  refine ⟨removed,hget,by omega,?_,by simp only; omega⟩
  have hperm := h.listed.filter (fun key => key ≠ oldest)
  rwa [hfilter, ← keys_remove] at hperm

theorem evict_exact (size : ℕ) {order : List α} (items : Map α β) (held : ℕ)
    (hsize : size ≤ maxWeight) (hentries : 0 < maxEntries) (h : Exact weight ⟨items,order,held⟩) :
    ∃ t, evict weight maxWeight maxEntries size order items held = some t ∧ Exact weight t ∧
      Within ⟨items,order,held⟩ t ∧ t.held+size ≤ maxWeight ∧ t.items.size < maxEntries := by
  induction order generalizing items held with
  | nil =>
    have hkeys : items.keys = [] := h.listed.symm.eq_nil
    have hempty : items.entries = [] := map_eq_nil_iff.mp hkeys
    have hheld : held = 0 := by
      rw [show held = items.total weight from h.weighed, Map.total, hempty]
      rfl
    have hcount : items.size = 0 := by rw [Map.size, hempty]; rfl
    exact ⟨_,rfl,h,fun _ _ hget => hget,by simp only; omega,by simp only; omega⟩
  | cons oldest rest ih =>
    by_cases hfull : maxWeight < held+size ∨ maxEntries ≤ items.size
    · obtain ⟨removed,hget,hle,hexact⟩ := oldest_out h
      obtain ⟨t,ht,hext,hwithin,hroom⟩ := ih _ _ hexact
      refine ⟨t,?_,hext,fun key value hkey => ?_,hroom⟩
      · rw [evict, if_pos hfull, hget]
        simp only [if_pos hle]
        exact ht
      · have hold := hwithin key value hkey
        change (items.remove oldest).get key = some value at hold
        rw [get_remove] at hold
        split_ifs at hold
        exact hold
    · refine ⟨_,by rw [evict, if_neg hfull],h,fun _ _ hget => hget,?_,?_⟩
      · simp only
        omega
      · simp only
        omega

theorem put_sound {key : α} (value : β) (hentries : 0 < maxEntries) (hnew : s.items.get key = none)
    (h : Sound weight maxWeight maxEntries s) :
    ∃ t, put weight maxWeight maxEntries key value s = some t ∧
      Sound weight maxWeight maxEntries t ∧
      ∀ other found, t.items.get other = some found →
        (other = key ∧ found = value) ∨ s.items.get other = some found := by
  by_cases hlarge : maxWeight < weight value
  · exact ⟨s,if_pos hlarge,h,fun _ _ hget => .inr hget⟩
  obtain ⟨t,ht,hexact,hwithin,hlight,hfew⟩ := evict_exact maxWeight maxEntries
    (weight value) s.items s.held (by omega) hentries h.toExact
  have habsent : t.items.get key = none := by
    cases hget : t.items.get key with
    | none => rfl
    | some found => exact absurd ((hwithin key found hget).symm.trans hnew) (by simp)
  have hset := set_new value habsent
  refine ⟨_,by rw [put, if_neg hlarge, ht]; rfl,⟨⟨?_,?_⟩,hlight,?_⟩,?_⟩
  · simp only [Map.keys, hset, map_append, map_cons, map_nil]
    exact hexact.listed.append_right [key]
  · simp only [Map.total, hset, map_append, sum_append, map_cons, map_nil,
      sum_cons, sum_nil, Nat.add_zero, hexact.weighed]
  · simp only [Map.size, hset, length_append, length_cons, length_nil]
    exact hfew
  · intro other found hget
    simp only [get_set] at hget
    split_ifs at hget with hsame
    · exact .inl ⟨hsame,(Option.some.inj hget).symm⟩
    · exact .inr (hwithin other found hget)

end Bounds

end Maple.Fifo

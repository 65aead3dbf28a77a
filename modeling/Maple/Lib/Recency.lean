import Mathlib.Order.Nat
import Maple.Lib.Keyed

/-!
# Recency lists

A table of bounded size that keeps its entries in the order of their last use, the
most recent first. Reading an entry with `peek` does not count as a use.
-/

set_option autoImplicit false

namespace Maple.Recency

open Keyed List

structure Lru (α β : Type) where
  capacity : ℕ
  entries : List (α × β)
  positive : 0 < capacity
  unique : (entries.map Prod.fst).Nodup
  bounded : entries.length ≤ capacity

section Uses
variable {α β : Type} [DecidableEq α]

def without (key : α) (entries : List (α × β)) : List (α × β) :=
  entries.filter (fun entry => entry.1 ≠ key)

theorem without_sublist (key : α) (entries : List (α × β)) :
    (without key entries).Sublist entries := List.filter_sublist

theorem mem_without (key : α) (entries : List (α × β)) (entry : α × β) :
    entry ∈ without key entries ↔ entry ∈ entries ∧ entry.1 ≠ key := by
  simp [without]

theorem without_keys (key : α) (entries : List (α × β)) :
    key ∉ (without key entries).map Prod.fst := by
  intro hmem
  obtain ⟨entry,hentry,hkey⟩ := mem_map.mp hmem
  exact ((mem_without key entries entry).mp hentry).2 hkey

variable {entries : List (α × β)}

theorem without_shorter {key : α} {value : β} (h : (key, value) ∈ entries) :
    (without key entries).length < entries.length := by
  refine length_filter_lt_length_iff_exists.mpr ⟨(key, value),h,?_⟩
  simp

theorem front_unique (key : α) (value : β)
    (h : (entries.map Prod.fst).Nodup) : (((key, value)::without key entries).map Prod.fst).Nodup :=
  nodup_cons.mpr ⟨without_keys key entries,h.sublist ((without_sublist key entries).map _)⟩

def Lru.new (capacity : ℕ) (h : 0 < capacity) : Lru α β :=
  ⟨capacity, [], h, List.nodup_nil, Nat.zero_le _⟩

def Lru.isFull (lru : Lru α β) : Bool := lru.capacity ≤ lru.entries.length

def Lru.peek (lru : Lru α β) (key : α) : Option β := find key lru.entries

def Lru.pop (lru : Lru α β) (key : α) : Lru α β :=
  { lru with
    entries := without key lru.entries
    unique := lru.unique.sublist ((without_sublist key lru.entries).map _)
    bounded := (without_sublist key lru.entries).length_le.trans lru.bounded }

def Lru.put (lru : Lru α β) (key : α) (value : β) : Lru α β :=
  { lru with
    entries := (key, value)::(without key lru.entries).take (lru.capacity-1)
    unique := (front_unique key value lru.unique).sublist
      ((List.Sublist.cons_cons _ (List.take_sublist _ _)).map _)
    bounded := by
      have hpositive := lru.positive
      have hlength := List.length_take_le (lru.capacity-1) (without key lru.entries)
      rw [List.length_cons]
      omega }

/-- Access through `get_mut`: the entry becomes the most recent one. -/
def Lru.refresh (lru : Lru α β) (key : α) (update : β → β) : Lru α β :=
  match h : find key lru.entries with
  | none => lru
  | some value =>
    { lru with
      entries := (key, update value)::without key lru.entries
      unique := front_unique key (update value) lru.unique
      bounded := (without_shorter (find_mem h)).trans_le
        lru.bounded }

theorem refresh_entries {lru : Lru α β} {key : α} (update : β → β) {value : β}
    (h : lru.peek key = some value) :
    (lru.refresh key update).entries = (key, update value)::without key lru.entries := by
  unfold Lru.refresh
  split
  · rename_i hnone
    exact absurd (hnone.symm.trans h) (by simp)
  · rename_i found hfound
    have hsame : found = value := Option.some.inj (hfound.symm.trans h)
    exact congrArg (fun used => (key, update used)::without key lru.entries) hsame

theorem refresh_capacity (lru : Lru α β) (key : α) (update : β → β) :
    (lru.refresh key update).capacity = lru.capacity := by
  unfold Lru.refresh
  split <;> rfl

/-- A new key in a table with room goes to the front of all entries. -/
theorem put_new {lru : Lru α β} {key : α} (value : β) (hnew : lru.peek key = none)
    (hroom : lru.entries.length < lru.capacity) :
    (lru.put key value).entries = (key, value)::lru.entries := by
  have hmissing := (find_none_iff key lru.entries).mp hnew
  have hall : without key lru.entries = lru.entries := by
    refine filter_eq_self.mpr (fun entry hentry => ?_)
    simp only [ne_eq, decide_eq_true_eq]
    exact fun hkey => hmissing (mem_map.mpr ⟨entry,hentry,hkey⟩)
  change (key, value)::(without key lru.entries).take (lru.capacity-1) = _
  rw [hall, take_of_length_le (by omega)]

end Uses

end Maple.Recency

import Mathlib.Algebra.Order.BigOperators.Group.List
import Mathlib.Algebra.Order.Ring.Nat
import Mathlib.Data.List.Nodup

/-!
# Keyed tables

A table holds at most one value a key, in the order the entries were made. Writing a
key in the table replaces its value in place; a new key goes to the end.
-/

set_option autoImplicit false

namespace Maple.Keyed

open List

structure Map (α β : Type) where
  entries : List (α × β)
  unique : (entries.map Prod.fst).Nodup

section Lookup
variable {α β : Type} [DecidableEq α]

def find (key : α) : List (α × β) → Option β
  | [] => none
  | entry::rest => if entry.1 = key then some entry.2 else find key rest

def write (key : α) (value : β) : List (α × β) → List (α × β)
  | [] => [(key, value)]
  | entry::rest => if entry.1 = key then (key, value)::rest else entry::write key value rest

theorem find_none_iff (key : α) (entries : List (α × β)) :
    find key entries = none ↔ key ∉ entries.map Prod.fst := by
  induction entries with
  | nil => simp [find]
  | cons entry rest ih =>
    unfold find
    by_cases h : entry.1 = key
    · simp [h]
    · have hother : ¬key = entry.1 := fun hsame => h hsame.symm
      simp [h, hother, ih]

theorem write_keys (key : α) (value : β) (entries : List (α × β)) :
    (write key value entries).map Prod.fst =
      if key ∈ entries.map Prod.fst then entries.map Prod.fst else entries.map Prod.fst++[key] := by
  induction entries with
  | nil => simp [write]
  | cons entry rest ih =>
    unfold write
    by_cases h : entry.1 = key
    · simp [h]
    · have hother : ¬key = entry.1 := fun hsame => h hsame.symm
      simp only [h, if_false, map_cons, ih, mem_cons, hother, false_or]
      split_ifs <;> rfl

theorem find_write (key other : α) (value : β) (entries : List (α × β)) :
    find other (write key value entries) = if other = key then some value else find other entries := by
  induction entries with
  | nil =>
    by_cases h : other = key
    · simp [write, find, h]
    · have hother : ¬key = other := fun hsame => h hsame.symm
      simp [write, find, h, hother]
  | cons entry rest ih =>
    by_cases hentry : entry.1 = key
    · by_cases h : other = key
      · simp [write, find, hentry, h]
      · have hother : ¬key = other := fun hsame => h hsame.symm
        simp [write, find, hentry, h, hother]
    · by_cases hsame : entry.1 = other
      · have hne : ¬other = key := fun h => hentry (hsame.trans h)
        simp [write, find, hsame, hne]
      · simp [write, find, hentry, hsame, ih]

variable {entries : List (α × β)}

theorem find_mem {key : α} {value : β} (h : find key entries = some value) :
    (key, value) ∈ entries := by
  induction entries with
  | nil => cases h
  | cons entry rest ih =>
    unfold find at h
    split_ifs at h with hkey
    · cases h
      subst hkey
      exact mem_cons_self
    · exact mem_cons_of_mem entry (ih h)

theorem mem_find {key : α} {value : β} (hunique : (entries.map Prod.fst).Nodup)
    (h : (key, value) ∈ entries) : find key entries = some value := by
  induction entries with
  | nil => cases h
  | cons entry rest ih =>
    rw [map_cons, nodup_cons] at hunique
    rcases mem_cons.mp h with rfl | hrest
    · simp [find]
    · have hne : entry.1 ≠ key := fun hsame =>
        hunique.1 (hsame ▸ mem_map_of_mem (f := Prod.fst) hrest)
      simp only [find, hne, if_false]
      exact ih hunique.2 hrest

end Lookup

section Maps
variable {α β : Type}

def Map.empty : Map α β := ⟨[], List.nodup_nil⟩

def Map.size (table : Map α β) : ℕ := table.entries.length

def Map.retain (table : Map α β) (keep : β → Bool) : Map α β :=
  ⟨table.entries.filter (fun entry => keep entry.2),
    table.unique.sublist (List.filter_sublist.map Prod.fst)⟩

variable (table : Map α β) (keep : α → β → Bool)

theorem size_retain (keep : β → Bool) : (table.retain keep).size ≤ table.size :=
  length_filter_le _ _

variable [DecidableEq α]

def Map.get (table : Map α β) (key : α) : Option β := find key table.entries

def Map.set (table : Map α β) (key : α) (value : β) : Map α β :=
  ⟨write key value table.entries, by
    rw [write_keys]
    split_ifs with h
    · exact table.unique
    · rw [List.nodup_append]
      refine ⟨table.unique, List.nodup_singleton key, ?_⟩
      intro a ha b hb
      rw [List.mem_singleton.mp hb]
      exact fun hsame => h (hsame ▸ ha)⟩

theorem get_set (key other : α) (value : β) :
    (table.set key value).get other = if other = key then some value else table.get other :=
  find_write key other value table.entries

variable {key : α} {entries : List (α × β)}

theorem write_same {value : β}
    (h : find key entries = some value) : write key value entries = entries := by
  induction entries with
  | nil => cases h
  | cons entry rest ih =>
    unfold find at h
    unfold write
    split_ifs at h ⊢ with hkey
    · cases h
      subst hkey
      rfl
    · rw [ih h]

theorem set_same (key : α) (value : β) (h : table.get key = some value) :
    table.set key value = table := by
  obtain ⟨entries,unique⟩ := table
  simp only [Map.set, write_same h]

theorem size_set (key : α) (value : β) :
    (table.set key value).size = if (table.get key).isSome then table.size else table.size+1 := by
  have hkeys := congrArg List.length (write_keys key value table.entries)
  rw [length_map] at hkeys
  unfold Map.size Map.set Map.get
  rw [hkeys]
  cases hfind : find key table.entries with
  | none => simp [(find_none_iff key table.entries).mp hfind]
  | some old =>
    have hmem : key ∈ table.entries.map Prod.fst := by
      by_contra hne
      rw [(find_none_iff key table.entries).mpr hne] at hfind
      cases hfind
    rw [if_pos hmem, length_map]
    rfl

omit [DecidableEq α] in
/-- Keeping some of the entries, each by its key and value. -/
def Map.restrict (table : Map α β) (keep : α → β → Bool) : Map α β :=
  ⟨table.entries.filter (fun entry => keep entry.1 entry.2),
    table.unique.sublist (List.filter_sublist.map Prod.fst)⟩

omit [DecidableEq α] in
def Map.keys (table : Map α β) : List α := table.entries.map Prod.fst

omit [DecidableEq α] in
def Map.total (table : Map α β) (weight : β → ℕ) : ℕ :=
  (table.entries.map (fun entry => weight entry.2)).sum

def Map.remove (table : Map α β) (key : α) : Map α β := table.restrict (fun other _ => other ≠ key)

theorem get_isSome (key : α) : (table.get key).isSome ↔ key ∈ table.keys := by
  have hnone := find_none_iff key table.entries
  rw [Option.isSome_iff_ne_none]
  exact ⟨fun h => by_contra (fun hmem => h (hnone.mpr hmem)),fun hmem h => hnone.mp h hmem⟩

theorem get_restrict (key : α) :
    (table.restrict keep).get key = (table.get key).filter (keep key) := by
  cases hget : table.get key with
  | none =>
    have hmissing := (find_none_iff key table.entries).mp hget
    refine (find_none_iff key _).mpr (fun hmem => hmissing ?_)
    exact (filter_sublist.map Prod.fst).subset hmem
  | some value =>
    have hmem := find_mem hget
    by_cases hkeep : keep key value = true
    · rw [Option.filter_some_pos hkeep]
      exact mem_find (table.restrict keep).unique (mem_filter.mpr ⟨hmem,hkeep⟩)
    rw [Option.filter_some_neg (by simpa using hkeep)]
    refine (find_none_iff key _).mpr (fun hin => ?_)
    obtain ⟨entry,hentry,rfl⟩ := mem_map.mp hin
    obtain ⟨hold,hkept⟩ := mem_filter.mp hentry
    have hsame := mem_find table.unique hold
    have hvalue : value = entry.2 := Option.some.inj (hget.symm.trans hsame)
    exact hkeep (hvalue ▸ hkept)

theorem get_retain (keep : β → Bool) (key : α) :
    (table.retain keep).get key = (table.get key).filter keep :=
  get_restrict table (fun _ => keep) key

theorem keys_restrict : (table.restrict keep).keys =
      table.keys.filter (fun key => ((table.restrict keep).get key).isSome) := by
  have hentries : ∀ entry ∈ table.entries,
      keep entry.1 entry.2 = ((table.restrict keep).get entry.1).isSome := by
    intro entry hmem
    have hget : table.get entry.1 = some entry.2 :=
      mem_find table.unique hmem
    rw [get_restrict, hget]
    cases hkeep : keep entry.1 entry.2 <;> simp [hkeep]
  have hfilter := filter_congr hentries
  rw [Map.keys, Map.restrict, Map.keys, filter_map]
  exact congrArg (List.map Prod.fst) hfilter

omit [DecidableEq α] in
theorem total_restrict (weight : β → ℕ) : (table.restrict keep).total weight ≤ table.total weight :=
  (filter_sublist.map _).sum_le_sum (fun _ _ => Nat.zero_le _)

omit [DecidableEq α] in
theorem size_restrict : (table.restrict keep).size ≤ table.size := List.length_filter_le _ _

theorem get_remove (key other : α) :
    (table.remove key).get other = if other = key then none else table.get other := by
  rw [Map.remove, get_restrict]
  by_cases h : other = key
  · cases table.get other <;> simp [h]
  · cases table.get other <;> simp [h]

theorem keys_remove (key : α) :
    (table.remove key).keys = table.keys.filter (fun other => other ≠ key) := by
  rw [Map.remove, Map.keys, Map.restrict, Map.keys, filter_map]
  rfl

theorem total_remove {table : Map α β} {value : β} (weight : β → ℕ)
    (h : table.get key = some value) :
    (table.remove key).total weight+weight value = table.total weight := by
  obtain ⟨entries,hunique⟩ := table
  change find key entries = some value at h
  change ((entries.filter (fun entry => entry.1 ≠ key)).map (fun entry => weight entry.2)).sum+
    weight value = (entries.map (fun entry => weight entry.2)).sum
  induction entries with
  | nil => cases h
  | cons entry rest ih =>
    rw [map_cons, nodup_cons] at hunique
    by_cases hkey : entry.1 = key
    · have hvalue : entry.2 = value := by simpa [find, hkey] using h
      have hrest : rest.filter (fun other => other.1 ≠ key) = rest := by
        refine filter_eq_self.mpr (fun other hother => ?_)
        have hne : other.1 ≠ key := fun hsame =>
          hunique.1 (mem_map.mpr ⟨other,hother,hsame.trans hkey.symm⟩)
        simpa using hne
      rw [filter_cons_of_neg (by simpa using hkey), hrest, map_cons, sum_cons, hvalue]
      omega
    · have hfind : find key rest = some value := by simpa [find, hkey] using h
      have hsum := ih hunique.2 hfind
      rw [filter_cons_of_pos (by simpa using hkey), map_cons, sum_cons, map_cons, sum_cons]
      omega

theorem write_new (value : β) (h : key ∉ entries.map Prod.fst) :
    write key value entries = entries++[(key, value)] := by
  induction entries with
  | nil => rfl
  | cons entry rest ih =>
    rw [map_cons, mem_cons, not_or] at h
    rw [write, if_neg (fun hsame => h.1 hsame.symm), ih h.2, cons_append]

theorem set_new {table : Map α β} (value : β) (h : table.get key = none) :
    (table.set key value).entries = table.entries++[(key, value)] :=
  write_new value ((find_none_iff key table.entries).mp h)

end Maps

end Maple.Keyed

import Mathlib.Data.List.Induction
import Mathlib.Data.List.Nodup

/-!
# Climbing to a root

Records name their parent by a key. Climbing follows the names from a key to a record
without one, or to a name that is not known. A climb that ends passes every key once; a
set of keys that is closed under the parent is never left, so a climb from it does not end.
-/

set_option autoImplicit false

namespace Maple.Climb

open List

section Climbing
variable {α κ : Type} (lookup : κ → Option α) (parent : α → Option κ)

/-- The records from a key up to the root, at most as many as there is fuel. -/
def climb : ℕ → κ → Option (List α)
  | 0, _ => none
  | fuel+1, key =>
    match lookup key with
    | none => some []
    | some record =>
      match parent record with
      | none => some [record]
      | some next => (climb fuel next).map (record::·)

/-- The keys of a list of records, each the parent of the one before it. -/
def Ascends : κ → List α → Prop
  | key, [] => lookup key = none
  | key, record::rest => lookup key = some record ∧
      match parent record with
      | none => rest = []
      | some next => Ascends next rest

theorem climb_ascends {fuel : ℕ} (key : κ) (path : List α)
    (h : climb lookup parent fuel key = some path) : Ascends lookup parent key path := by
  induction fuel generalizing key path with
  | zero => cases h
  | succ fuel ih =>
    unfold climb at h
    split at h
    · rename_i hnone
      obtain rfl := Option.some.inj h
      exact hnone
    rename_i record hrecord
    split at h
    · rename_i hroot
      obtain rfl := Option.some.inj h
      exact ⟨hrecord,by rw [hroot]⟩
    · rename_i next hnext
      obtain ⟨rest,hrest,rfl⟩ := Option.map_eq_some_iff.mp h
      refine ⟨hrecord,?_⟩
      rw [hnext]
      exact ih next rest hrest

variable {path : List α}

theorem ascends_climb (key : κ) (h : Ascends lookup parent key path) :
    climb lookup parent (path.length+1) key = some path := by
  induction path generalizing key with
  | nil =>
    have hnone : lookup key = none := h
    simp [climb, hnone]
  | cons record rest ih =>
    obtain ⟨hrecord,hrest⟩ := h
    cases hparent : parent record with
    | none =>
      rw [hparent] at hrest
      simp [climb, hrecord, hparent, show rest = [] from hrest]
    | some next =>
      rw [hparent] at hrest
      simp [climb, hrecord, hparent, ih next hrest]

theorem ascends_unique (key : κ) (other : List α) (h : Ascends lookup parent key path)
    (hother : Ascends lookup parent key other) : path = other := by
  induction path generalizing key other with
  | nil =>
    cases other with
    | nil => rfl
    | cons record rest => exact absurd (h.symm.trans hother.1) (by simp)
  | cons record rest ih =>
    cases other with
    | nil => exact absurd (h.1.symm.trans hother) (by simp)
    | cons found more =>
      obtain rfl := Option.some.inj (h.1.symm.trans hother.1)
      refine congrArg (record::·) ?_
      have hrest := h.2
      have hmore := hother.2
      cases hparent : parent record with
      | none =>
        rw [hparent] at hrest hmore
        exact hrest.trans hmore.symm
      | some next =>
        rw [hparent] at hrest hmore
        exact ih next more hrest hmore

/-- What follows a record on a climb is the climb from its key. -/
theorem ascends_suffix (name : α → κ)
    (hname : ∀ key record, lookup key = some record → name record = key) (key : κ)
    {front back : List α} {record : α} (h : Ascends lookup parent key (front++record::back)) :
    Ascends lookup parent (name record) (record::back) := by
  induction front generalizing key with
  | nil =>
    have hkey := hname key record h.1
    rw [hkey]
    exact h
  | cons first front ih =>
    have hrest := h.2
    cases hparent : parent first with
    | none =>
      rw [hparent] at hrest
      simp at hrest
    | some next =>
      rw [hparent] at hrest
      exact ih next hrest

theorem ascends_nodup (name : α → κ)
    (hname : ∀ key record, lookup key = some record → name record = key) (key : κ)
    (h : Ascends lookup parent key path) : (path.map name).Nodup := by
  induction path generalizing key with
  | nil => exact nodup_nil
  | cons record rest ih =>
    have hrest := h.2
    cases hparent : parent record with
    | none =>
      rw [hparent] at hrest
      simp [show rest = [] from hrest]
    | some next =>
      rw [hparent] at hrest
      refine nodup_cons.mpr ⟨?_,ih next hrest⟩
      intro hmem
      -- a later record of the same name would climb the whole path again
      obtain ⟨again,hagain,hsame⟩ := mem_map.mp hmem
      obtain ⟨front,back,rfl⟩ := append_of_mem hagain
      have hlater := ascends_suffix lookup parent name hname next hrest
      rw [hsame, hname key record h.1] at hlater
      have hlength := congrArg List.length (ascends_unique lookup parent key _ h hlater)
      simp at hlength
      omega

/-- A closed set of keys is never left. -/
theorem closed_never_ends (S : κ → Prop)
    (hclosed : ∀ key, S key → ∃ record next, lookup key = some record ∧
      parent record = some next ∧ S next)
    (key : κ) (hkey : S key) (fuel : ℕ) : climb lookup parent fuel key = none := by
  induction fuel generalizing key with
  | zero => rfl
  | succ fuel ih =>
    obtain ⟨record,next,hrecord,hnext,hmem⟩ := hclosed key hkey
    simp [climb, hrecord, hnext, ih next hmem]

end Climbing

section Chains
variable {α κ : Type} [DecidableEq κ] (name : α → κ) (parent : α → Option κ)

/-- The record of a key; of two records with the same key the later one. -/
def latest (records : List α) (key : κ) : Option α :=
  records.reverse.find? (fun record => name record = key)

/-- Every record names the one before it, and the first one names none. -/
def Linked : Option κ → List α → Prop
  | _, [] => True
  | before, record::rest => parent record = before ∧ Linked (some (name record)) rest

theorem latest_name (records : List α) (key : κ) (record : α)
    (h : latest name records key = some record) : name record = key := by
  simpa using List.find?_some h

variable {records : List α}

theorem latest_mem {key : κ} {record : α} (h : latest name records key = some record) :
    record ∈ records :=
  mem_reverse.mp (List.mem_of_find?_eq_some h)

theorem latest_isSome {record : α} (h : record ∈ records) :
    ∃ found, latest name records (name record) = some found := by
  apply Option.isSome_iff_exists.mp
  rw [latest, List.find?_isSome]
  exact ⟨record,mem_reverse.mpr h,by simp⟩

theorem latest_unique (record : α) (hnodup : (records.map name).Nodup) (h : record ∈ records) :
    latest name records (name record) = some record := by
  obtain ⟨found,hfound⟩ := latest_isSome name h
  rw [hfound]
  exact congrArg some (inj_on_of_nodup_map hnodup (latest_mem name hfound) h
    (latest_name name records _ found hfound))

omit [DecidableEq κ] in
theorem linked_append (before : Option κ) (front back : List α) :
    Linked name parent before (front++back) ↔ Linked name parent before front ∧
      Linked name parent ((front.getLast?.map name).or before) back := by
  induction front generalizing before with
  | nil => simp [Linked]
  | cons record front ih =>
    rw [cons_append, Linked, Linked, ih, and_assoc]
    cases front with
    | nil => simp
    | cons next front =>
      rw [List.getLast?_cons_cons]
      cases hlast : (next::front).getLast? with
      | none => simp at hlast
      | some last => simp

/-- In a chain of distinct records, the climb from a record is the chain up to it. -/
theorem linked_ascends (front back : List α) (record : α) (hnodup : (records.map name).Nodup)
    (hlinked : Linked name parent none records) (h : records = front++record::back) :
    Ascends (latest name records) parent (name record) (record::front.reverse) := by
  induction front using List.reverseRecOn generalizing record back with
  | nil =>
    refine ⟨latest_unique name record hnodup (by simp [h]),?_⟩
    rw [h] at hlinked
    rw [hlinked.1]
    rfl
  | append_singleton front last ih =>
    refine ⟨latest_unique name record hnodup (by simp [h]),?_⟩
    rw [h] at hlinked
    have hparent : parent record = some (name last) := by
      have hback := ((linked_append name parent none (front++[last]) (record::back)).mp hlinked).2.1
      simpa using hback
    rw [hparent, reverse_append]
    exact ih (record::back) last (by rw [h, append_assoc]; rfl)

end Chains

end Maple.Climb

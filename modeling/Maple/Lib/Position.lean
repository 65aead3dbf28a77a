import Mathlib.Data.List.Basic

/-!
# The last position

The last place of a list where a test holds.
-/

set_option autoImplicit false

namespace Maple.Position

variable {α : Type}

def rposition (p : α → Bool) : List α → Option ℕ
  | [] => none
  | item::rest =>
    match rposition p rest with
    | some index => some (index+1)
    | none => if p item then some 0 else none

theorem rposition_none (p : α → Bool) (items : List α) (h : rposition p items = none) :
    ∀ item ∈ items, p item = false := by
  induction items with
  | nil => simp
  | cons first items ih =>
    unfold rposition at h
    split at h
    · cases h
    rename_i hrest
    split_ifs at h with hfirst
    intro item hitem
    rcases List.mem_cons.mp hitem with rfl | hmem
    · simpa using hfirst
    · exact ih hrest item hmem

theorem rposition_some {p : α → Bool} {items : List α} (index : ℕ)
    (h : rposition p items = some index) :
    ∃ before item after, items = before++item::after ∧ before.length = index ∧
      p item = true ∧ ∀ later ∈ after, p later = false := by
  induction items generalizing index with
  | nil => cases h
  | cons first items ih =>
    unfold rposition at h
    cases hrest : rposition p items with
    | some found =>
      rw [hrest] at h
      obtain ⟨before,item,after,rfl,hlength,hp,hafter⟩ := ih found hrest
      obtain rfl := Option.some.inj h
      exact ⟨first::before,item,after,rfl,by simp [hlength],hp,hafter⟩
    | none =>
      rw [hrest] at h
      split_ifs at h with hp
      obtain rfl := Option.some.inj h
      exact ⟨[],first,items,rfl,rfl,hp,rposition_none p items hrest⟩

theorem rposition_absent (p : α → Bool) {items : List α} (h : ∀ item ∈ items, p item = false) :
    rposition p items = none := by
  induction items with
  | nil => rfl
  | cons first items ih =>
    have hfirst := h first (by simp)
    have hrest := ih (fun item hitem => h item (List.mem_cons_of_mem _ hitem))
    simp [rposition, hrest, hfirst]

theorem rposition_split (p : α → Bool) (before : List α) {after : List α} (item : α)
    (hp : p item = true) (hafter : ∀ later ∈ after, p later = false) :
    rposition p (before++item::after) = some before.length := by
  induction before with
  | nil => simp [rposition, rposition_absent p hafter, hp]
  | cons first before ih => simp [rposition, ih]

end Maple.Position

import Mathlib.Algebra.Order.BigOperators.Group.List
import Mathlib.Algebra.Order.Ring.Nat

/-!
# Sums over parts of a list

Bounds for the sum of a measure over the entries a test keeps.
-/

set_option autoImplicit false

namespace Maple.Sums

open List

variable {α : Type} (l : List α)

theorem sum_filter_eq (keep : α → Bool) (f g : α → ℕ)
    (h : ∀ a ∈ l, f a = if keep a then g a else 0) : (l.map f).sum = ((l.filter keep).map g).sum := by
  induction l with
  | nil => rfl
  | cons a l ih =>
    rw [map_cons, sum_cons, h a mem_cons_self, ih (fun b hb => h b (mem_cons_of_mem _ hb))]
    cases hk : keep a <;> simp [hk]

/-- A sum over a list in which at most one entry counts. -/
theorem sum_one (f : α → ℕ) (bound : ℕ) (hn : l.Nodup) (hle : ∀ a ∈ l, f a ≤ bound)
    (hone : ∀ a ∈ l, ∀ b ∈ l, 0 < f a → 0 < f b → a = b) : (l.map f).sum ≤ bound := by
  induction l with
  | nil => exact Nat.zero_le _
  | cons a l ih =>
    obtain ⟨hnew,hn⟩ := nodup_cons.mp hn
    rw [map_cons, sum_cons]
    by_cases hpos : 0 < f a
    · have hrest : (l.map f).sum = 0 := by
        refine sum_eq_zero (fun n hmem => ?_)
        obtain ⟨b,hb,rfl⟩ := mem_map.mp hmem
        by_contra hne
        have hsame := hone a mem_cons_self b (mem_cons_of_mem _ hb) hpos (by omega)
        exact hnew (hsame ▸ hb)
      have hfirst := hle a mem_cons_self
      omega
    · have hrest := ih hn (fun b hb => hle b (mem_cons_of_mem _ hb))
        (fun b hb c hc => hone b (mem_cons_of_mem _ hb) c (mem_cons_of_mem _ hc))
      omega

theorem sum_either (p q : α → Bool) (f : α → ℕ) : ((l.filter (fun a => p a || q a)).map f).sum =
    ((l.filter (fun a => p a && !q a)).map f).sum+((l.filter q).map f).sum := by
  induction l with
  | nil => rfl
  | cons a l ih => cases hq : q a <;> cases hp : p a <;> simp [hq, hp] at ih ⊢ <;> omega

theorem sorted_same {l : List α} (f : α → ℕ) (h : l.Pairwise (fun a b => f a < f b)) {a b : α}
    (ha : a ∈ l) (hb : b ∈ l) (hsame : f a = f b) : a = b := by
  have hpair := pairwise_iff_getElem.mp h
  obtain ⟨i,hi,rfl⟩ := getElem_of_mem ha
  obtain ⟨j,hj,rfl⟩ := getElem_of_mem hb
  rcases Nat.lt_trichotomy i j with hlt | rfl | hlt
  · have hless := hpair i j hi hj hlt
    omega
  · rfl
  · have hless := hpair j i hj hi hlt
    omega

end Maple.Sums

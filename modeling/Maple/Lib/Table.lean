import Mathlib.Algebra.BigOperators.Group.List.Basic
import Mathlib.Algebra.Ring.Nat

/-!
# Tables of objects

Objects of a running system live in a list and are named by their index; they
are appended and overwritten in place. `weight` adds up a measure over a table.
-/

set_option autoImplicit false

namespace Maple.Table

open List

variable {α : Type*}

def weight (f : α → ℕ) (t : List α) : ℕ := (t.map f).sum

variable (f : α → ℕ)

@[simp] theorem weight_nil : weight f [] = 0 := rfl

@[simp] theorem weight_cons (a : α) (t : List α) :
    weight f (a::t) = f a+weight f t := by simp [weight]

@[simp] theorem weight_push (t : List α) (a : α) :
    weight f (t++[a]) = weight f t+f a := by simp [weight]

theorem weight_append (t u : List α) : weight f (t++u) = weight f t+weight f u := by simp [weight]

variable {t : List α} {a : α}

/-- An entry cuts its table in two; erasing and overwriting it act between the parts. -/
theorem split_at (i : ℕ) (h : t[i]? = some a) :
    ∃ front back, t = front++a::back ∧ t.eraseIdx i = front++back ∧
      ∀ b, t.set i b = front++b::back := by
  induction t generalizing i with
  | nil => simp at h
  | cons x t ih =>
    cases i with
    | zero =>
      obtain rfl : x = a := by simpa using h
      exact ⟨[],t,rfl,rfl,fun _ => rfl⟩
    | succ i =>
      obtain ⟨front,back,htable,herase,hset⟩ := ih i (by simpa using h)
      refine ⟨x::front,back,?_,?_,fun b => ?_⟩
      · rw [htable, cons_append]
      · rw [eraseIdx_cons_succ, herase, cons_append]
      · rw [set_cons_succ, hset, cons_append]

theorem weight_set (i : ℕ) (b : α) (h : t[i]? = some a) :
    weight f (t.set i b)+f a = weight f t+f b := by
  obtain ⟨front,back,htable,-,hset⟩ := split_at i h
  rw [hset, htable]
  simp only [weight_append, weight_cons]
  omega

variable {i : ℕ}

theorem weight_set_same (b : α) (h : t[i]? = some a) (hf : f b = f a) :
    weight f (t.set i b) = weight f t := by
  have hw := weight_set f i b h
  omega

theorem le_weight (i : ℕ) (h : t[i]? = some a) : f a ≤ weight f t := by
  obtain ⟨front,back,rfl,-⟩ := split_at i h
  simp only [weight_append, weight_cons]
  omega

variable {x : α}

theorem getElem?_push (h : (t++[a])[i]? = some x) : t[i]? = some x ∨ (i = t.length ∧ x = a) := by
  rcases Nat.lt_trichotomy i t.length with hlt | heq | hgt
  · left
    rwa [List.getElem?_append_left hlt] at h
  · right
    subst heq
    refine ⟨rfl,?_⟩
    simpa using h.symm
  · rw [List.getElem?_append_right (Nat.le_of_lt hgt)] at h
    simp [show i-t.length ≠ 0 by omega] at h

theorem getElem?_push_old (a : α) (h : t[i]? = some x) : (t++[a])[i]? = some x := by
  have hlt := (List.getElem?_eq_some_iff.mp h).1
  rwa [List.getElem?_append_left hlt]

theorem getElem?_set_some {j : ℕ} (h : (t.set i a)[j]? = some x) :
    (j = i ∧ x = a) ∨ (j ≠ i ∧ t[j]? = some x) := by
  rw [List.getElem?_set] at h
  split_ifs at h with h1 h2
  · exact Or.inl ⟨h1.symm,(Option.some.inj h).symm⟩
  · exact Or.inr ⟨fun hji => h1 hji.symm,h⟩

theorem getElem?_set_self_of (b : α) (h : t[i]? = some a) : (t.set i b)[i]? = some b := by
  have hlt := (List.getElem?_eq_some_iff.mp h).1
  simp [hlt]

theorem map_modify_same {β : Type*} (f : α → β) (g : α → α) (hg : ∀ a, f (g a) = f a)
    (t : List α) (i : ℕ) : (t.modify i g).map f = t.map f := by
  induction t generalizing i with
  | nil => simp
  | cons x t ih => cases i <;> simp [hg, ih]

theorem map_set_same {β : Type*} (f : α → β) (i : ℕ) (b : α) (h : t[i]? = some a) (hf : f b = f a) :
    (t.set i b).map f = t.map f := by
  obtain ⟨front,back,htable,-,hset⟩ := split_at i h
  rw [hset, htable, map_append, map_append, map_cons, map_cons, hf]

theorem filter_at_most_one (p : α → Bool) {r : α → α → Prop} (h : t.Pairwise r)
    (hp : ∀ a b, p a = true → p b = true → ¬r a b) : (t.filter p).length ≤ 1 := by
  have hpairs := h.filter p
  cases hfilter : t.filter p with
  | nil => simp
  | cons a rest =>
    cases rest with
    | nil => simp
    | cons b rest =>
      have hmem (x : α) (hx : x ∈ a::b::rest) : p x = true :=
        (mem_filter.mp (hfilter ▸ hx)).2
      rw [hfilter] at hpairs
      have hr := (pairwise_cons.mp hpairs).1 b mem_cons_self
      exact absurd hr (hp a b (hmem a (by simp)) (hmem b (by simp)))

end Maple.Table

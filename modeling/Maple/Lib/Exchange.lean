import Mathlib.Data.List.Perm.Basic

/-!
# Calls and their answers in a list

An element may make calls and an element may answer one, named by an id. A list is
settled when behind every element that is not an answer stand the answers to its calls,
one to a call in any order, and no answer stands anywhere else.
-/

set_option autoImplicit false

namespace Maple.Exchange

open List

variable {α : Type} (calls : α → List String) (answer : α → Option String)

inductive Settled : List α → Prop
  | nil : Settled []
  | exchange (x : α) (answers rest : List α) : answer x = none →
      (answers.map answer).Perm ((calls x).map some) → Settled rest →
      Settled (x::(answers++rest))

variable {calls answer}

theorem settled_head {xs : List α} (h : Settled calls answer xs) :
    ∀ x ∈ xs.head?, answer x = none := by
  cases h with
  | nil => simp
  | exchange x answers rest hx _ _ => simpa using hx

variable {xs : List α}

theorem settled_append {ys : List α} (hx : Settled calls answer xs) (hy : Settled calls answer ys) :
    Settled calls answer (xs++ys) := by
  induction hx with
  | nil => exact hy
  | exchange x answers rest hnone hanswers _ ih =>
    rw [cons_append, append_assoc]
    exact .exchange x answers (rest++ys) hnone hanswers ih

theorem answer_of_perm {x : α} {answers : List α}
    (h : (answers.map answer).Perm ((calls x).map some)) {y : α} (hy : y ∈ answers) :
    answer y ≠ none := by
  obtain ⟨id,-,hid⟩ := mem_map.mp (h.mem_iff.mp (mem_map_of_mem hy))
  rw [← hid]
  exact Option.some_ne_none id

/-- The calls of an element are answered directly behind it. -/
theorem settled_answered (h : Settled calls answer xs) (front back : List α) (x : α)
    (hxs : xs = front++x::back) (hx : answer x = none) :
    ∃ answers rest, back = answers++rest ∧ (answers.map answer).Perm ((calls x).map some) ∧
      ∀ y ∈ rest.head?, answer y = none := by
  induction h generalizing front with
  | nil => simp at hxs
  | exchange y answers rest hy hanswers hrest ih =>
    cases front with
    | nil =>
      rw [nil_append] at hxs
      obtain ⟨rfl,rfl⟩ := List.cons.inj hxs
      exact ⟨answers,rest,rfl,hanswers,settled_head hrest⟩
    | cons first front =>
      rw [cons_append] at hxs
      obtain ⟨-,htail⟩ := List.cons.inj hxs
      rcases append_eq_append_iff.mp htail with ⟨more,rfl,hmore⟩ | ⟨more,rfl,hmore⟩
      · exact ih more hmore
      · cases more with
        | nil => exact ih [] (by simpa using hmore.symm)
        | cons z more =>
          obtain ⟨rfl,-⟩ := List.cons.inj hmore
          exact absurd hx (answer_of_perm hanswers (by simp))

/-- An answer stands behind its caller, with only answers between. -/
theorem settled_placed (h : Settled calls answer xs) (front back : List α) (y : α)
    (hxs : xs = front++y::back) (hy : answer y ≠ none) :
    ∃ before x answers, front = before++x::answers ∧ answer x = none ∧
      (∃ id ∈ calls x, answer y = some id) ∧ ∀ z ∈ answers, answer z ≠ none := by
  induction h generalizing front with
  | nil => simp at hxs
  | exchange x answers rest hx hanswers hrest ih =>
    cases front with
    | nil =>
      rw [nil_append] at hxs
      obtain ⟨rfl,-⟩ := List.cons.inj hxs
      exact absurd hx hy
    | cons first front =>
      rw [cons_append] at hxs
      obtain ⟨rfl,htail⟩ := List.cons.inj hxs
      rcases append_eq_append_iff.mp htail with ⟨more,rfl,hmore⟩ | ⟨more,rfl,hmore⟩
      · obtain ⟨before,caller,between,rfl,hcaller,hcalls,hbetween⟩ := ih more hmore
        exact ⟨x::(answers++before),caller,between,by simp,hcaller,hcalls,hbetween⟩
      cases more with
      | nil =>
        have hfirst := settled_head hrest y (by simp only [nil_append] at hmore; simp [← hmore])
        exact absurd hfirst hy
      | cons z more =>
        obtain ⟨rfl,-⟩ := List.cons.inj hmore
        obtain ⟨id,hid,heq⟩ := mem_map.mp
          (hanswers.mem_iff.mp (mem_map_of_mem (by simp : y ∈ front++y::more)))
        exact ⟨[],x,front,rfl,hx,⟨id,hid,heq.symm⟩,
          fun z hz => answer_of_perm hanswers (by simp [hz])⟩

end Maple.Exchange

import Mathlib.Data.List.Basic

/-!
# Reading an ordered list by key

A reader takes a strictly ordered list in pages. Each request returns some of the
elements that follow the last one it has, and says whether elements are left. In
whatever portions the pages come, together they are the list.
-/

set_option autoImplicit false

namespace Maple.Keyset

open List

section Order
variable {α : Type} (lt : α → α → Prop) [DecidableRel lt]

def after (l : List α) : Option α → List α
  | none => l
  | some x => l.filter (fun y => lt x y)

variable (htrans : ∀ a b c, lt a b → lt b c → lt a c) (hirrefl : ∀ a, ¬lt a a)
include htrans hirrefl

variable {lt}

theorem filter_behind {front rest : List α} {x : α} (h : (front++x::rest).Pairwise lt) :
    (front++x::rest).filter (fun y => lt x y) = rest := by
  obtain ⟨-,hrest,hcross⟩ := pairwise_append.mp h
  obtain ⟨hx,-⟩ := pairwise_cons.mp hrest
  have hfront : front.filter (fun y => lt x y) = [] := by
    rw [filter_eq_nil_iff]
    intro y hy hlt
    exact hirrefl y (htrans y x y (hcross y hy x mem_cons_self) (of_decide_eq_true hlt))
  have hkeep : rest.filter (fun y => lt x y) = rest := by
    rw [filter_eq_self]
    exact fun y hy => decide_eq_true (hx y hy)
  rw [filter_append, hfront, nil_append, filter_cons_of_neg (by simpa using hirrefl x), hkeep]

/-- What follows the last element of a page is what the page left. -/
theorem after_page (l page rest : List α) (hl : l.Pairwise lt) (c : Option α) (x : α)
    (h : after lt l c = page++rest) (hx : page.getLast? = some x) : after lt l (some x) = rest := by
  obtain ⟨front,rfl⟩ := List.getLast?_eq_some_iff.mp hx
  rw [append_assoc, singleton_append] at h
  cases c with
  | none =>
    have h : l = front++x::rest := h
    rw [after, h]
    exact filter_behind htrans hirrefl (h ▸ hl)
  | some y =>
    have hsub : (front++x::rest).Pairwise lt := h ▸ hl.filter _
    have hxy : lt y x := by
      have hmem : x ∈ l.filter (fun z => lt y z) := by
        rw [show l.filter (fun z => lt y z) = front++x::rest from h]
        simp
      exact of_decide_eq_true (mem_filter.mp hmem).2
    have htwice : l.filter (fun z => lt x z) =
        (l.filter (fun z => lt y z)).filter (fun z => lt x z) := by
      rw [filter_filter]
      refine filter_congr (fun z _ => ?_)
      by_cases hz : lt x z
      · simp [hz, htrans y x z hxy hz]
      · simp [hz]
    rw [after, htwice, show l.filter (fun z => lt y z) = front++x::rest from h]
    exact filter_behind htrans hirrefl hsub

end Order

/-- The pages of a reader that goes on as long as elements are left. -/
inductive Pages {α : Type} (lt : α → α → Prop) [DecidableRel lt] (l : List α) :
    Option α → List (List α) → Prop
  | last (c : Option α) (page : List α) (h : after lt l c = page) : Pages lt l c [page]
  | more (c : Option α) (page rest : List α) (x : α) (pages : List (List α))
      (h : after lt l c = page++rest) (hx : page.getLast? = some x)
      (hmore : Pages lt l (some x) pages) : Pages lt l c (page::pages)

/-- All pages together are the list. -/
theorem pages_complete {α : Type} {lt : α → α → Prop} [DecidableRel lt]
    (htrans : ∀ a b c, lt a b → lt b c → lt a c) (hirrefl : ∀ a, ¬lt a a) {l : List α}
    (hl : l.Pairwise lt) {c : Option α} {pages : List (List α)} (h : Pages lt l c pages) :
    pages.flatten = after lt l c := by
  induction h with
  | last c page h => rw [flatten_singleton, h]
  | more c page rest x pages h hx hmore ih =>
    rw [flatten_cons, ih, after_page htrans hirrefl l page rest hl c x h hx, h]

end Maple.Keyset

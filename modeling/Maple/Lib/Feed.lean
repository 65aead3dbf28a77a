import Mathlib.Data.List.Basic

/-!
# Incremental machines and fragmentation

A machine consumes one symbol at a time and may emit outputs or stop with an
error. Feeding one piece after the other is feeding their concatenation: the
machine cannot observe where its input was cut.
-/

set_option autoImplicit false

namespace Maple.Feed

variable {σ β ε ω : Type*}

def andThen (r : Except ε (σ × List ω)) (k : σ → Except ε (σ × List ω)) :
    Except ε (σ × List ω) :=
  match r with
  | .error e => .error e
  | .ok (s,out) =>
    match k s with
    | .error e => .error e
    | .ok (s',more) => .ok (s',out++more)

@[simp] theorem andThen_error (e : ε) (k : σ → Except ε (σ × List ω)) :
    andThen (.error e) k = .error e := rfl

variable (s : σ)

@[simp] theorem andThen_nil (k : σ → Except ε (σ × List ω)) : andThen (.ok (s,[])) k = k s := by
  cases h : k s <;> simp [andThen, h]

theorem andThen_assoc (r : Except ε (σ × List ω)) (j k : σ → Except ε (σ × List ω)) :
    andThen (andThen r j) k = andThen r (fun s => andThen (j s) k) := by
  cases r with
  | error e => rfl
  | ok p =>
    obtain ⟨s,out⟩ := p
    cases hj : j s with
    | error e => simp [andThen, hj]
    | ok q =>
      obtain ⟨t,more⟩ := q
      cases hk : k t <;> simp [andThen, hj, hk]

theorem andThen_ok_iff (r : Except ε (σ × List ω)) (k : σ → Except ε (σ × List ω))
    (t : σ) (all : List ω) :
    andThen r k = .ok (t,all) ↔
      ∃ s out more, r = .ok (s,out) ∧ k s = .ok (t,more) ∧ all = out++more := by
  cases r with
  | error e => simp
  | ok p =>
    obtain ⟨s,out⟩ := p
    cases hk : k s with
    | error e => simp [andThen, hk]
    | ok q =>
      obtain ⟨u,more⟩ := q
      simp only [andThen, hk, Except.ok.injEq, Prod.mk.injEq]
      constructor
      · rintro ⟨rfl,rfl⟩
        exact ⟨s,out,more,⟨rfl,rfl⟩,hk,rfl⟩
      · rintro ⟨s',out',more',⟨rfl,rfl⟩,hk',rfl⟩
        rw [hk] at hk'
        cases hk'
        exact ⟨rfl,rfl⟩

variable (step : σ → β → Except ε (σ × List ω))

def feed : σ → List β → Except ε (σ × List ω)
  | s, [] => .ok (s,[])
  | s, b::bs => andThen (step s b) (fun s' => feed s' bs)

@[simp] theorem feed_nil : feed step s [] = .ok (s,[]) := rfl

theorem feed_append (xs ys : List β) :
    feed step s (xs++ys) = andThen (feed step s xs) (fun s' => feed step s' ys) := by
  induction xs generalizing s with
  | nil => simp
  | cons x xs ih =>
    simp only [List.cons_append, feed, andThen_assoc]
    congr 1
    funext s'
    exact ih s'

end Maple.Feed

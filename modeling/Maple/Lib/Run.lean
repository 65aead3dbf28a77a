import Mathlib.Data.List.Basic

/-!
# Runs of a labelled machine

A step takes a state and a label and may be disabled. A run is a list of labels
taken one after the other; an invariant of every step is one of every run.
-/

set_option autoImplicit false

namespace Maple.Run

variable {σ ℓ : Type*} (step : σ → ℓ → Option σ)

def run : σ → List ℓ → Option σ
  | s, [] => some s
  | s, l::ls => (step s l).bind (fun s' => run s' ls)

variable {s' : σ} {ls : List ℓ} {step}

theorem run_cons_some {s : σ} {l : ℓ} (h : run step s (l::ls) = some s') :
    ∃ t, step s l = some t ∧ run step t ls = some s' := Option.bind_eq_some_iff.mp h

theorem run_append (s : σ) (ls ms : List ℓ) :
    run step s (ls++ms) = (run step s ls).bind (fun s' => run step s' ms) := by
  induction ls generalizing s with
  | nil => rfl
  | cons l ls ih =>
    simp only [List.cons_append, run, Option.bind_assoc]
    congr 1
    funext s'
    exact ih s'

theorem run_append_some {s : σ} {ms : List ℓ} (h : run step s (ls++ms) = some s') :
    ∃ t, run step s ls = some t ∧ run step t ms = some s' := by
  rw [run_append] at h
  exact Option.bind_eq_some_iff.mp h

/-- What every step keeps, every run keeps. -/
theorem run_invariant (I : σ → Prop) (hstep : ∀ s l s', I s → step s l = some s' → I s') (s : σ)
    (h : run step s ls = some s') (hs : I s) : I s' := by
  induction ls generalizing s with
  | nil =>
    cases h
    exact hs
  | cons l ls ih =>
    obtain ⟨t,ht,hrest⟩ := run_cons_some h
    exact ih t hrest (hstep s l t hs ht)

/-- A relation every step respects relates the two ends of every run. -/
theorem run_relation (R : σ → σ → Prop) (hrefl : ∀ s, R s s)
    (htrans : ∀ a b c, R a b → R b c → R a c) (hstep : ∀ s l s', step s l = some s' → R s s')
    (s : σ) (h : run step s ls = some s') : R s s' := by
  induction ls generalizing s with
  | nil =>
    cases h
    exact hrefl _
  | cons l ls ih =>
    obtain ⟨t,ht,hrest⟩ := run_cons_some h
    exact htrans s t s' (hstep s l t ht) (ih t hrest)

variable (step)

/-- A condition on the steps of a run, each in the state it starts from. -/
def Along (C : σ → ℓ → Prop) : σ → List ℓ → Prop
  | _, [] => True
  | s, l::ls => ∀ s', step s l = some s' → C s l ∧ Along C s' ls

def Throughout (P : σ → Prop) : σ → List ℓ → Prop
  | s, [] => P s
  | s, l::ls => P s ∧ ∀ s', step s l = some s' → Throughout P s' ls

/-- Steps that meet the condition keep good states good, so the property holds throughout. -/
theorem throughout_of_along (G P : σ → Prop) (C : σ → ℓ → Prop) (hgood : ∀ s, G s → P s)
    (hkeep : ∀ s l s', G s → step s l = some s' → C s l → G s')
    (s : σ) (ls : List ℓ) (hs : G s) (hmet : Along step C s ls) : Throughout step P s ls := by
  induction ls generalizing s with
  | nil => exact hgood s hs
  | cons l ls ih =>
    refine ⟨hgood s hs,fun s' hstep => ?_⟩
    obtain ⟨hhere,hlater⟩ := hmet s' hstep
    exact ih s' (hkeep s l s' hs hstep hhere) hlater

/-- If from good states the property is kept by exactly the steps that meet the condition,
it holds throughout exactly the runs that meet it at every step. -/
theorem throughout_iff (G P : σ → Prop) (C : σ → ℓ → Prop) (hgood : ∀ s, G s → P s)
    (hkeep : ∀ s l s', G s → step s l = some s' → C s l → G s')
    (hbreak : ∀ s l s', G s → step s l = some s' → P s' → C s l)
    (s : σ) (ls : List ℓ) (hs : G s) : Throughout step P s ls ↔ Along step C s ls := by
  refine ⟨fun hall => ?_,throughout_of_along step G P C hgood hkeep s ls hs⟩
  induction ls generalizing s with
  | nil => trivial
  | cons l ls ih =>
    intro s' hstep
    have hlater := hall.2 s' hstep
    have hthere : P s' := by
      cases ls with
      | nil => exact hlater
      | cons l' ls => exact hlater.1
    have hmet := hbreak s l s' hs hstep hthere
    exact ⟨hmet,ih s' (hkeep s l s' hs hstep hmet) hlater⟩

end Maple.Run

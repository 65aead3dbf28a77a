import Mathlib.Data.List.Basic

/-!
# Programs that leave a trace

A program asks an environment, which may answer anything and change as it likes, and
writes down what it does. It may run out of fuel, so only runs that end have a result.
`Does x P` says what every run of `x` that ends writes down and returns.
-/

set_option autoImplicit false

namespace Maple.Traced

variable {σ ε α β : Type}

structure World (σ ε : Type) where
  env : σ
  trace : List ε

abbrev Act (σ ε : Type) := StateT (World σ ε) Option

def log (action : ε) : Act σ ε Unit :=
  fun world => some ((), { world with trace := world.trace++[action] })

def ask (answer : σ → α × σ) : Act σ ε α :=
  fun world => some ((answer world.env).1, { world with env := (answer world.env).2 })

def stuck : Act σ ε α := fun _ => none

def Does (x : Act σ ε α) (P : α → List ε → Prop) : Prop :=
  ∀ world result after, x world = some (result, after) →
    ∃ added, after.trace = world.trace++added ∧ P result added

variable {x : Act σ ε α} {P : α → List ε → Prop}

theorem does_mono {Q : α → List ε → Prop} (h : Does x P)
    (hPQ : ∀ result added, P result added → Q result added) : Does x Q := by
  intro world result after hrun
  obtain ⟨added,htrace,hP⟩ := h world result after hrun
  exact ⟨added,htrace,hPQ result added hP⟩

theorem does_pure (a : α) (h : P a []) : Does (pure a : Act σ ε α) P := by
  intro world result after hrun
  obtain ⟨rfl,rfl⟩ := Prod.mk.inj (Option.some.inj hrun)
  exact ⟨[],by simp,h⟩

theorem does_log {P : Unit → List ε → Prop} (action : ε) (h : P () [action]) :
    Does (log action : Act σ ε Unit) P := by
  intro world result after hrun
  obtain ⟨rfl,rfl⟩ := Prod.mk.inj (Option.some.inj hrun)
  exact ⟨[action],rfl,h⟩

theorem does_ask (answer : σ → α × σ) (h : ∀ s, P (answer s).1 []) :
    Does (ask answer : Act σ ε α) P := by
  intro world result after hrun
  obtain ⟨rfl,rfl⟩ := Prod.mk.inj (Option.some.inj hrun)
  exact ⟨[],by simp,h world.env⟩

theorem does_stuck : Does (stuck : Act σ ε α) P := by
  intro world result after hrun
  cases hrun

variable {f : α → Act σ ε β}

theorem bind_run {world after : World σ ε} {result : β}
    (h : (x >>= f) world = some (result, after)) :
    ∃ a between, x world = some (a, between) ∧ f a between = some (result, after) := by
  obtain ⟨⟨a,between⟩,hx,hf⟩ := Option.bind_eq_some_iff.mp h
  exact ⟨a,between,hx,hf⟩

variable {Q : β → List ε → Prop}

/-- What a first part writes comes before what the rest writes. -/
theorem does_bind (hx : Does x P)
    (hf : ∀ a first, P a first → Does (f a) (fun b rest => Q b (first++rest))) :
    Does (x >>= f) Q := by
  intro world result after hrun
  obtain ⟨a,between,hfirst,hrest⟩ := bind_run hrun
  obtain ⟨first,htrace,hP⟩ := hx world a between hfirst
  obtain ⟨rest,hafter,hQ⟩ := hf a first hP between result after hrest
  refine ⟨first++rest,?_,hQ⟩
  rw [hafter, htrace, List.append_assoc]

theorem does_log_bind {f : Unit → Act σ ε β} (action : ε)
    (hf : Does (f ()) (fun b rest => Q b (action::rest))) : Does (log action >>= f) Q := by
  apply does_bind (P := fun _ first => first = [action]) (does_log action rfl)
  rintro a first rfl
  exact hf

theorem does_ask_bind (answer : σ → α × σ) (hf : ∀ s, Does (f (answer s).1) Q) :
    Does (ask answer >>= f) Q := by
  apply does_bind (P := fun a first => first = [] ∧ ∃ s, a = (answer s).1)
    (does_ask answer (fun s => ⟨rfl,s,rfl⟩))
  rintro a first ⟨rfl,s,rfl⟩
  exact hf s

theorem does_ite (c : Prop) [Decidable c] {y : Act σ ε α} (hx : c → Does x P) (hy : ¬c → Does y P) :
    Does (if c then x else y) P := by
  split_ifs with h
  · exact hx h
  · exact hy h

end Maple.Traced

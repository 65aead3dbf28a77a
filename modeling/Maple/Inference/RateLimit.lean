import Mathlib.Order.Nat
import Maple.Lib.Keyed

/-!
# Admission of inference requests

One account shares a rolling window over all inference surfaces. A full window starts
a cooldown; when the table of accounts is full, only accounts whose window and
cooldown have both passed are reclaimed. Times are nanoseconds.
-/

set_option autoImplicit false

namespace Maple.Inference.RateLimit

open Keyed List

def second : ℕ := 1000000000

def window : ℕ := 60*second

structure AccountWindow where
  admitted : List ℕ
  blockedUntil : Option ℕ
  retainUntil : ℕ
  deriving DecidableEq, Repr

structure RateLimiter where
  rpm : ℕ
  cooldown : ℕ
  maxAccounts : ℕ
  rpm_pos : 1 ≤ rpm
  accounts_pos : 1 ≤ maxAccounts

inductive Outcome where
  | ok
  | serviceUnavailable
  | inferenceRateLimited (retryAfter : ℕ)
  deriving DecidableEq, Repr

/-- Whole seconds, rounded up and at least one. -/
def rateLimited (remaining : ℕ) : Outcome :=
  .inferenceRateLimited (max 1 (remaining/second+if remaining%second = 0 then 0 else 1))

def newWindow (now : ℕ) : AccountWindow := ⟨[], none, now⟩

def expire (now : ℕ) (admitted : List ℕ) : List ℕ :=
  admitted.dropWhile (fun time => window ≤ now-time)

section Admit
variable (L : RateLimiter)

def admitFree (state : AccountWindow) (now : ℕ) : AccountWindow × Outcome :=
  let admitted := expire now state.admitted
  if L.rpm ≤ admitted.length then
    (⟨admitted, some (now+L.cooldown), max state.retainUntil (now+L.cooldown)⟩,
      rateLimited L.cooldown)
  else (⟨admitted++[now], none, now+window⟩, .ok)

def admitWindow (state : AccountWindow) (now : ℕ) : AccountWindow × Outcome :=
  match state.blockedUntil with
  | some u => if now < u then (state, rateLimited (u-now)) else admitFree L state now
  | none => admitFree L state now

variable {A : Type} [DecidableEq A]

/-- Only expired state is reclaimed. -/
def reclaim (accounts : Map A AccountWindow) (account : A) (now : ℕ) : Map A AccountWindow :=
  if (accounts.get account).isNone ∧ L.maxAccounts ≤ accounts.size then
    accounts.retain (fun state => now < state.retainUntil)
  else accounts

def admitAccount (accounts : Map A AccountWindow) (account : A) (now : ℕ) :
    Map A AccountWindow × Outcome :=
  let accounts := reclaim L accounts account now
  if (accounts.get account).isNone ∧ L.maxAccounts ≤ accounts.size then
    (accounts, .serviceUnavailable)
  else
    let result := admitWindow L ((accounts.get account).getD (newWindow now)) now
    (accounts.set account result.1, result.2)

def serve (accounts : Map A AccountWindow) : List (A × ℕ) → Map A AccountWindow
  | [] => accounts
  | call::rest => serve (admitAccount L accounts call.1 call.2).1 rest

def answers (accounts : Map A AccountWindow) : List (A × ℕ) → List ((A × ℕ) × Outcome)
  | [] => []
  | call::rest =>
    (call, (admitAccount L accounts call.1 call.2).2)::answers (admitAccount L accounts call.1 call.2).1 rest

def admissions (account : A) (log : List ((A × ℕ) × Outcome)) : List ℕ :=
  (log.filter (fun entry => entry.1.1 = account ∧ entry.2 = .ok)).map (fun entry => entry.1.2)

theorem serve_append (accounts : Map A AccountWindow) (calls more : List (A × ℕ)) :
    serve L accounts (calls++more) = serve L (serve L accounts calls) more := by
  induction calls generalizing accounts with
  | nil => rfl
  | cons call rest ih => exact ih _

structure Sound (state : AccountWindow) (now : ℕ) : Prop where
  sorted : state.admitted.Pairwise (· ≤ ·)
  past : ∀ time ∈ state.admitted, time ≤ now
  full : state.admitted.length ≤ L.rpm
  kept : ∀ time ∈ state.admitted, time+window ≤ state.retainUntil
  blocked : ∀ u, state.blockedUntil = some u → u ≤ state.retainUntil

theorem sound_later {state : AccountWindow} {now later : ℕ} (h : Sound L state now)
    (hle : now ≤ later) : Sound L state later :=
  ⟨h.sorted,fun time htime => (h.past time htime).trans hle,h.full,h.kept,h.blocked⟩

variable (now : ℕ)

theorem newWindow_sound : Sound L (newWindow now) now :=
  ⟨List.Pairwise.nil,fun _ h => absurd h not_mem_nil,Nat.zero_le _,
    fun _ h => absurd h not_mem_nil,fun _ h => by cases h⟩

theorem expire_sublist (admitted : List ℕ) : (expire now admitted).Sublist admitted :=
  dropWhile_sublist _

/-- On a sorted window, expiry from the front keeps exactly what still counts. -/
theorem expire_counts {admitted : List ℕ} (hsorted : admitted.Pairwise (· ≤ ·)) :
    expire now admitted = admitted.filter (fun time => now < time+window) := by
  induction admitted with
  | nil => rfl
  | cons time rest ih =>
    obtain ⟨hfirst,hrest⟩ := pairwise_cons.mp hsorted
    unfold expire at ih ⊢
    have hwindow : 0 < window := by decide
    by_cases hold : window ≤ now-time
    · rw [dropWhile_cons_of_pos (by simpa using hold),
        filter_cons_of_neg (by simp only [decide_eq_true_eq]; omega), ih hrest]
    rw [dropWhile_cons_of_neg (by simpa using hold)]
    refine (filter_eq_self.mpr (fun other hother => ?_)).symm
    have hle : time ≤ other := by
      rcases mem_cons.mp hother with rfl | hother
      · exact le_rfl
      · exact hfirst other hother
    simp only [decide_eq_true_eq]
    omega

end Admit

end Maple.Inference.RateLimit

import Mathlib.Logic.Function.Iterate
import Maple.Inference.Probes

/-!
# Healing of opened circuits

The generation of a gate under a probe counts the failures since the claim, modulo the
period of the counter. So a success heals the gate only if their number is a multiple
of that period; every other step keeps an open gate open.
-/

set_option autoImplicit false

namespace Maple.Health

open Run Table List

section Counter

/-- Zero is skipped, so the counter returns after one step less than its word has values. -/
def period : ℕ := wordSize-1

theorem advance_range (generation : ℕ) :
    1 ≤ advanceGeneration generation ∧ advanceGeneration generation < wordSize := by
  unfold advanceGeneration wrappingAdd wordSize
  split_ifs <;> omega

variable {generation : ℕ}

theorem advance_inside (h : 1 ≤ generation) (h' : generation < wordSize) :
    advanceGeneration generation = (generation-1+1) % period+1 := by
  unfold advanceGeneration wrappingAdd period wordSize at *
  split_ifs <;> omega

theorem advance_iterate (count : ℕ) (h : 1 ≤ generation) (h' : generation < wordSize) :
    advanceGeneration^[count] generation = (generation-1+count) % period+1 := by
  induction count with
  | zero =>
    rw [Function.iterate_zero_apply, Nat.add_zero]
    unfold period wordSize at *
    omega
  | succ count ih =>
    have hlt : (generation-1+count) % period+1 < wordSize := by
      have hmod : (generation-1+count) % period < period := Nat.mod_lt _ (by decide)
      exact Nat.add_lt_of_lt_sub hmod
    rw [Function.iterate_succ_apply', ih, advance_inside (Nat.le_add_left 1 _) hlt,
      Nat.add_sub_cancel, Nat.mod_add_mod, Nat.add_assoc]

theorem advance_returns {count : ℕ} (h : 1 ≤ generation) (h' : generation < wordSize)
    (hreturn : advanceGeneration^[count] generation = generation) (hcount : count < period) :
    count = 0 := by
  rw [advance_iterate count h h'] at hreturn
  unfold period wordSize at *
  omega

theorem advance_period (generation : ℕ) (h : 1 ≤ generation) (h' : generation < wordSize) :
    advanceGeneration^[period] generation = generation := by
  rw [advance_iterate period h h', Nat.add_mod_right]
  unfold period wordSize at *
  omega

end Counter

section Origins
variable {R : Type} [DecidableEq R] (setting : Setting R)

/-- Where a live lease comes from: the claim that granted it, and the events since, all
along which it was live; its gates are open and have counted their failures. -/
structure Origin (events : List (Event R)) (system : System R) (hold : Hold R) where
  before : List (Event R)
  route : R
  now : ℕ
  since : List (Event R)
  start : System R
  granted : System R
  split : events = before++.claim route now::since
  reached : run (step setting) (System.new R) before = some start
  claimed : step setting start (.claim route now) = some granted
  lease : ∃ lease, granted.leases = start.leases++[lease] ∧ lease.hold = hold
  rest : run (step setting) granted since = some system
  live : ∀ front back middle, since = front++back → run (step setting) granted front = some middle →
    hold ∈ holdsOf middle
  opened : ∀ claim ∈ hold.claims, (system.inner.gate claim.gate).openUntil.isSome = true
  counted : ∀ claim ∈ hold.claims, 1 ≤ claim.generationAtClaim ∧
    claim.generationAtClaim < wordSize ∧ (system.inner.gate claim.gate).generation =
      advanceGeneration^[since.countP (Event.fails setting claim.gate)] claim.generationAtClaim

theorem later_open {before after : GateState} (h : Later before after)
    (hopen : before.openUntil.isSome = true) : after.openUntil.isSome = true := by
  obtain ⟨opened,hopened⟩ := Option.isSome_iff_exists.mp hopen
  obtain ⟨reopened,hreopened,_⟩ := h opened hopened
  rw [hreopened, Option.isSome_some]

/-- A lease live after a step was just granted, or was live before, its gates steady. -/
theorem live_before {system after : System R} {event : Event R} (h : Sound setting system)
    (hstep : step setting system event = some after) {hold : Hold R}
      (hlive : hold ∈ holdsOf after) :
    (∃ route now lease, event = .claim route now ∧ lease.hold = hold ∧
      Granted setting system.inner route now lease after.inner ∧
      after.leases = system.leases++[lease]) ∨
    (hold ∈ holdsOf system ∧ ∀ claim ∈ hold.claims,
      Steady (event.fails setting claim.gate) (system.inner.gate claim.gate)
        (after.inner.gate claim.gate)) := by
  have hsame (inner : after.inner = system.inner) (gate : ProbeGateKey R) :
      Steady false (system.inner.gate gate) (after.inner.gate gate) := by
    rw [inner]
    exact steady_same _
  cases step_moved hstep with
  | refused route now inner leases =>
    rw [holdsOf, leases] at hlive
    exact .inr ⟨hlive,fun claim _ => hsame inner claim.gate⟩
  | granted route now lease grant leases =>
    rw [holdsOf, leases, map_append] at hlive
    rcases mem_append.mp hlive with hold' | hnew
    · refine .inr ⟨hold',fun claim hclaim => ?_⟩
      have hactive := owned_active h hold' claim hclaim
      have hother : claim.gate ∉ (gatesOf route).filter (isDue system.inner now) := by
        intro hmem
        have hfree := ((due_iff _ _ _).mp (mem_filter.mp hmem).2).1
        exact absurd (hactive.symm.trans hfree) (by simp)
      rw [grant.claimed.view, if_neg hother]
      exact steady_same _
    · exact .inl ⟨route,now,lease,rfl,(mem_singleton.mp hnew).symm,grant,leases⟩
  | observed terminal mode now gates leases =>
    rw [holdsOf, leases] at hlive
    exact .inr ⟨hlive,fun claim _ => gates claim.gate⟩
  | untaken terminal mode index now lease found refused gates leases =>
    have hholds : holdsOf after = holdsOf system := by
      rw [holdsOf, leases]
      exact map_set_same ProbeLease.hold index _ found rfl
    exact .inr ⟨hholds ▸ hlive,fun claim _ => gates claim.gate⟩
  | taken terminal mode index now lease found accepted inner leases =>
    obtain ⟨hmem,hothers⟩ := ended_others found leases h hlive
    exact .inr ⟨hmem,fun claim hclaim => (taken_gates h (List.mem_of_getElem? found)
      accepted inner claim.gate).1 (hothers claim hclaim)⟩
  | dropped index lease found inner leases =>
    obtain ⟨hmem,hothers⟩ := ended_others found leases h hlive
    refine .inr ⟨hmem,fun claim hclaim => ?_⟩
    have hflight := sound_in_flight h (List.mem_of_getElem? found)
    rw [inner, release_other _ _ hflight.known (hothers claim hclaim)]
    exact steady_same _

variable {events : List (Event R)}

theorem run_snoc {event : Event R} {start after : System R}
    (h : run (step setting) start (events++[event]) = some after) :
    ∃ system, run (step setting) start events = some system ∧
      step setting system event = some after := by
  obtain ⟨system,hrun,hlast⟩ := run_append_some h
  obtain ⟨last,hstep,hnil⟩ := run_cons_some hlast
  cases hnil
  exact ⟨system,hrun,hstep⟩

def originGranted (events : List (Event R)) (system after : System R) (route : R) (now : ℕ)
    (lease : ProbeLease R) (hrun : run (step setting) (System.new R) events = some system)
    (hstep : step setting system (.claim route now) = some after)
    (hgrant : Granted setting system.inner route now lease after.inner)
    (hleases : after.leases = system.leases++[lease]) :
    Origin setting (events++[.claim route now]) after lease.hold where
  before := events
  route := route
  now := now
  since := []
  start := system
  granted := after
  split := rfl
  reached := hrun
  claimed := hstep
  lease := ⟨lease, hleases, rfl⟩
  rest := rfl
  live := by
    intro front back middle hsplit hmiddle
    obtain ⟨rfl,_⟩ := List.append_eq_nil_iff.mp hsplit.symm
    cases hmiddle
    rw [holdsOf, hleases, List.map_append]
    exact List.mem_append_right _ List.mem_cons_self
  opened := by
    intro claim hclaim
    have hgate := hgrant.claimed.named ▸ List.mem_map_of_mem hclaim
    obtain ⟨_,opened,hopened,_⟩ := (due_iff _ _ _).mp (List.mem_filter.mp hgate).2
    rw [hgrant.claimed.view, if_pos hgate]
    change (system.inner.gate claim.gate).openUntil.isSome = true
    rw [hopened, Option.isSome_some]
  counted := by
    intro claim hclaim
    have hgate := hgrant.claimed.named ▸ List.mem_map_of_mem hclaim
    have hgeneration := hgrant.claimed.generations claim hclaim
    obtain ⟨hlow,hhigh⟩ := advance_range (system.inner.gate claim.gate).generation
    refine ⟨hgeneration ▸ hlow, hgeneration ▸ hhigh, ?_⟩
    rw [hgrant.claimed.view, if_pos hgate, hgeneration]
    rfl

/-- A lease that stayed live in the last event, with its gates steady. -/
def originKept (events : List (Event R)) (event : Event R) (system after : System R)
    (hold : Hold R) (origin : Origin setting events system hold)
    (hstep : step setting system event = some after) (hlive : hold ∈ holdsOf after)
    (hsteady : ∀ claim ∈ hold.claims, Steady (event.fails setting claim.gate)
      (system.inner.gate claim.gate) (after.inner.gate claim.gate)) :
    Origin setting (events++[event]) after hold where
  before := origin.before
  route := origin.route
  now := origin.now
  since := origin.since++[event]
  start := origin.start
  granted := origin.granted
  split := (congrArg (·++[event]) origin.split).trans (by
    rw [List.append_assoc, List.cons_append])
  reached := origin.reached
  claimed := origin.claimed
  lease := origin.lease
  rest := by
    rw [run_append, origin.rest]
    simp [run, hstep]
  live := by
    intro front back middle hsplit hmiddle
    rcases List.eq_nil_or_concat back with hnil | ⟨init,last,hback⟩
    · rw [hnil, List.append_nil] at hsplit
      rw [← hsplit, run_append, origin.rest] at hmiddle
      simp only [Option.bind_some, run, hstep] at hmiddle
      cases hmiddle
      exact hlive
    · rw [hback, List.concat_eq_append, ← List.append_assoc] at hsplit
      exact origin.live front init middle (List.append_inj_left' hsplit rfl) hmiddle
  opened := fun claim hclaim =>
    later_open (hsteady claim hclaim).later (origin.opened claim hclaim)
  counted := by
    intro claim hclaim
    obtain ⟨hlow,hhigh,hcount⟩ := origin.counted claim hclaim
    refine ⟨hlow, hhigh, ?_⟩
    rw [(hsteady claim hclaim).generation (origin.opened claim hclaim), hcount, List.countP_append,
      List.countP_singleton]
    split_ifs
    · exact (Function.iterate_succ_apply' _ _ _).symm
    · rfl

theorem lease_origin (system : System R)
    (hrun : run (step setting) (System.new R) events = some system) {hold : Hold R}
    (hlive : hold ∈ holdsOf system) : Nonempty (Origin setting events system hold) := by
  induction events using List.reverseRecOn generalizing system with
  | nil =>
    cases hrun
    simp [holdsOf, System.new] at hlive
  | append_singleton events event ih =>
    obtain ⟨before,hbefore,hstep⟩ := run_snoc setting hrun
    have hsound := run_sound hbefore
    rcases live_before setting hsound hstep hlive with
      ⟨route,now,lease,rfl,rfl,hgrant,hleases⟩ | ⟨hmem,hsteady⟩
    · exact ⟨originGranted setting events before system route now lease hbefore hstep hgrant hleases⟩
    · obtain ⟨origin⟩ := ih before hbefore hmem
      exact ⟨originKept setting events event before system hold origin hstep hlive hsteady⟩

end Origins

section Rejections
variable {R : Type} (setting : Setting R)

/-- The times between which a capacity rejection leaves its gate open. -/
theorem extend_bounds (openUntil : Option ℕ) (now : ℕ) (retryAfter : Option ℕ) :
    ∃ opened, extendOpenUntil setting openUntil now (capacityCooldown setting retryAfter) =
        some opened ∧
      opened ≤ max (openUntil.getD 0) (now+setting.policy.maxCapacityCooldown) ∧
      (now+capacityCooldown setting retryAfter ≤ setting.latest →
        now+setting.policy.minimumCapacityCooldown ≤ opened) := by
  have hmax : capacityCooldown setting retryAfter ≤ setting.policy.maxCapacityCooldown :=
    min_le_right _ _
  have hmin : setting.policy.minimumCapacityCooldown ≤ capacityCooldown setting retryAfter :=
    le_min (le_max_right _ _) setting.policy.cooldowns
  unfold extendOpenUntil
  cases openUntil with
  | none =>
    refine ⟨_,rfl,?_,fun hfits => ?_⟩
    · simp only [Option.elim_none, Option.getD_none]
      split_ifs <;> omega
    · simp only [Option.elim_none, if_pos hfits]
      omega
  | some opened =>
    refine ⟨_,rfl,?_,fun hfits => ?_⟩
    · simp only [Option.elim_some, Option.getD_some]
      split_ifs <;> omega
    · simp only [Option.elim_some, if_pos hfits]
      omega

variable [DecidableEq R] {setting}

theorem release_open (inner : Inner R) (leaseId : ℕ) {claims : List (ProbeGateClaim R)}
    (hknown : ∀ claim ∈ claims, claim.gate.route ∈ setting.routes) (gate : ProbeGateKey R) :
    ((releaseProbeClaims setting inner leaseId claims).gate gate).openUntil =
      (inner.gate gate).openUntil := by
  unfold releaseProbeClaims
  induction claims generalizing inner with
  | nil => rfl
  | cons claim claims ih =>
    rw [foldl_cons, ih _ (fun other h => hknown other (mem_cons_of_mem _ h)),
      release_claim_gate setting leaseId inner claim (hknown claim mem_cons_self)]
    split_ifs
    · unfold GateState.release
      split_ifs <;> rfl
    · rfl

variable {terminal : AttemptTerminal R}

theorem observe_rejection (inner : Inner R)
    (probe : Option (ProbeLease R)) (now : ℕ) {pool : R} {retryAfter : Option ℕ}
    (hclaims : ∀ lease, probe = some lease → ∀ claim ∈ lease.claims,
      claim.gate.route ∈ setting.routes) (hknown : terminal.route ∈ setting.routes)
    (hmutation : (classify terminal).2.2 = .capacity pool retryAfter) :
    ((observeTerminal setting inner terminal .update probe now).2.1.gate
      (.capacity terminal.route)).openUntil =
      extendOpenUntil setting (inner.gate (.capacity terminal.route)).openUntil now
        (capacityCooldown setting retryAfter) := by
  have hpool := classify_pool hmutation
  have hmutated : ((applyMutation setting inner terminal.route (classify terminal).2.2 now).gate
      (.capacity terminal.route)).openUntil =
      extendOpenUntil setting (inner.gate (.capacity terminal.route)).openUntil now
        (capacityCooldown setting retryAfter) := by
    subst hpool
    rw [hmutation, applyMutation, modify_capacity_gate setting inner _ _ hknown, if_pos rfl]
    rfl
  rw [← hmutated]
  unfold observeTerminal
  simp only [hknown, not_true_eq_false, if_false, reduceCtorEq]
  cases hprobe : probe.filter (fun lease => decide (lease.route = terminal.route)) with
  | none => rfl
  | some lease =>
    have hlease := Option.eq_some_of_filter_eq_some hprobe
    dsimp only
    rw [observed_release setting inner _ _ _ _ now (by rw [hmutation]; simp)]
    exact release_open _ _ (hclaims lease hlease) _

def Event.observation : Event R → Option (AttemptTerminal R × ShadowObservationMode × ℕ)
  | .claim _ _ => none
  | .observe terminal mode now => some (terminal, mode, now)
  | .observeWithProbe terminal mode _ now => some (terminal, mode, now)
  | .dropLease _ => none

theorem step_observation {system after : System R} {event : Event R}
    (hstep : step setting system event = some after) {mode : ShadowObservationMode} {now : ℕ}
    (hevent : event.observation = some (terminal, mode, now)) :
    ∃ probe, after.inner = (observeTerminal setting system.inner terminal mode probe now).2.1 ∧
      ∀ lease, probe = some lease → lease ∈ system.leases := by
  cases event with
  | claim | dropLease => cases hevent
  | observe observed observedMode time =>
    cases hevent
    simp only [step] at hstep
    split_ifs at hstep
    cases hstep
    exact ⟨none,rfl,by simp⟩
  | observeWithProbe observed observedMode index time =>
    cases hevent
    simp only [step] at hstep
    cases hfound : system.leases[index]? with
    | none => simp [hfound] at hstep
    | some lease =>
      rw [hfound] at hstep
      dsimp only at hstep
      by_cases hready : system.clock ≤ now ∧ lease.returning = false
      · rw [if_pos hready] at hstep
        cases hstep
        refine ⟨some lease,rfl,fun other hother => ?_⟩
        exact Option.some.inj hother ▸ List.mem_of_getElem? hfound
      · rw [if_neg hready] at hstep
        cases hstep

end Rejections

section Healing
variable {R : Type} [DecidableEq R] (setting : Setting R)

omit [DecidableEq R] in
theorem classify_completed {terminal : AttemptTerminal R}
    (h : (classify terminal).2.2 = .completed) :
    ∃ route, terminal = .completed route := by
  cases terminal with
  | completed route => exact ⟨route,rfl⟩
  | failed route failure =>
    unfold classify classifyFailure at h
    dsimp only at h
    cases hstatus : failure.status with
    | none | some =>
      simp only [hstatus] at h
      split_ifs at h

/-- An uncontradicted success of the gate's own probe: the lease of the event claims the
gate, and fewer failures than the period since its claim are none at all. -/
def Heals (events : List (Event R)) (system : System R) (event : Event R)
    (gate : ProbeGateKey R) : Prop :=
  ∃ route index now lease, event = .observeWithProbe (.completed route) .update index now ∧
    system.leases[index]? = some lease ∧ gate ∈ lease.claims.map ProbeGateClaim.gate ∧
    ∃ origin : Origin setting events system lease.hold,
      origin.since.countP (Event.fails setting gate) < 2^64-1 →
      origin.since.countP (Event.fails setting gate) = 0

theorem step_open {events : List (Event R)} {system after : System R} {event : Event R}
    (hrun : run (step setting) (System.new R) events = some system)
    (hstep : step setting system event = some after) (gate : ProbeGateKey R) :
    Later (system.inner.gate gate) (after.inner.gate gate) ∨
      Heals setting events system event gate := by
  have h := run_sound hrun
  cases step_moved hstep with
  | refused route now inner leases =>
    rw [inner]
    exact .inl (steady_same _).later
  | granted route now lease grant leases =>
    rw [grant.claimed.view]
    split_ifs
    · exact .inl (fun opened hopened => ⟨opened,hopened,le_rfl⟩)
    · exact .inl (steady_same _).later
  | observed terminal mode now gates leases => exact .inl (gates gate).later
  | untaken terminal mode index now lease found refused gates leases =>
    exact .inl (gates gate).later
  | taken terminal mode index now lease found accepted inner leases =>
    have hlease := List.mem_of_getElem? found
    obtain ⟨hother,hclaimed⟩ :=
      taken_gates h hlease accepted inner gate
    by_cases hgate : gate ∈ lease.claims.map ProbeGateClaim.gate
    · obtain ⟨claim,hclaim,hsame⟩ := mem_map.mp hgate
      rcases (hclaimed claim hclaim hsame).opened with ⟨hcompleted,hgeneration⟩ | hlater
      · obtain ⟨route,rfl⟩ := classify_completed hcompleted
        obtain ⟨hmode,_⟩ := takes_known accepted
        subst hmode
        obtain ⟨origin⟩ := lease_origin setting system hrun (mem_map_of_mem hlease)
        refine .inr ⟨route,index,now,lease,rfl,found,hgate,origin,fun hfew => ?_⟩
        obtain ⟨hlow,hhigh,hcount⟩ := origin.counted claim hclaim
        rw [hsame, hgeneration] at hcount
        exact advance_returns hlow hhigh hcount.symm hfew
      · exact .inl hlater
    · exact .inl (hother hgate).later
  | dropped index lease found inner leases =>
    have hflight := sound_in_flight h (List.mem_of_getElem? found)
    rw [inner]
    refine .inl (fun opened hopened => ⟨opened,?_,le_rfl⟩)
    rw [release_open _ _ hflight.known gate, hopened]

/-- In every step of every run an open gate stays open, at least as long, unless its own
probe heals it; a capacity rejection opens its gate within the bounds of the policy. -/
theorem circuit_healing (events : List (Event R)) (system after : System R) (event : Event R)
    (hrun : run (step setting) (System.new R) events = some system)
    (hstep : step setting system event = some after) :
    (∀ gate, Later (system.inner.gate gate) (after.inner.gate gate) ∨
      Heals setting events system event gate) ∧
    ∀ terminal now pool retryAfter, event.observation = some (terminal, .update, now) →
      terminal.route ∈ setting.routes →
      (classify terminal).2.2 = .capacity pool retryAfter →
      ∃ opened, (after.inner.gate (.capacity terminal.route)).openUntil = some opened ∧
        opened ≤ max ((system.inner.gate (.capacity terminal.route)).openUntil.getD 0)
          (now+setting.policy.maxCapacityCooldown) ∧
        (now+capacityCooldown setting retryAfter ≤ setting.latest →
          now+setting.policy.minimumCapacityCooldown ≤ opened) := by
  refine ⟨step_open setting hrun hstep,
    fun terminal now pool retryAfter hevent hknown hmutation => ?_⟩
  have h := run_sound hrun
  obtain ⟨probe,hinner,hleases⟩ :=
    step_observation hstep hevent
  rw [hinner, observe_rejection system.inner probe now
    (fun lease hlease => (sound_in_flight h (hleases lease hlease)).known)
    hknown hmutation]
  exact extend_bounds setting _ now retryAfter

def sampleRejected (now : ℕ) : Event ℕ := .observe (.failed 0 sampleRejection) .update now

def sampleLease : ProbeLease ℕ := ⟨0, 1, [⟨.capacity 0, 2⟩], false⟩

def sampleClaimed : Bool :=
  (run (step sampleSetting) (System.new ℕ) [sampleRejected 0, .claim 0 (seconds 30)]).any
    (fun system => decide (system.leases = [sampleLease] ∧ system.clock = seconds 30 ∧
      system.inner.gate (.capacity 0) = ⟨some (seconds 30), 2, some ⟨1, 2⟩⟩))

theorem sample_claimed :
    ∃ system, run (step sampleSetting) (System.new ℕ) [sampleRejected 0, .claim 0 (seconds 30)] =
        some system ∧ system.leases = [sampleLease] ∧ system.clock = seconds 30 ∧
      system.inner.gate (.capacity 0) = ⟨some (seconds 30),2,some ⟨1,2⟩⟩ := by
  have hclaimed : sampleClaimed = true := by decide +kernel
  unfold sampleClaimed at hclaimed
  cases hrun : run (step sampleSetting) (System.new ℕ) [sampleRejected 0, .claim 0 (seconds 30)] with
  | none => simp [hrun] at hclaimed
  | some system => exact ⟨system,rfl,by simpa [hrun] using hclaimed⟩

theorem rejections_count (count : ℕ) (system : System ℕ) (hclock : system.clock = seconds 30)
    (hopen : (system.inner.gate (.capacity 0)).openUntil.isSome = true) :
    ∃ after, run (step sampleSetting) system
        (List.replicate count (sampleRejected (seconds 30))) = some after ∧
      after.leases = system.leases ∧ after.clock = seconds 30 ∧
      (after.inner.gate (.capacity 0)).openUntil.isSome = true ∧
      (after.inner.gate (.capacity 0)).activeProbe = (system.inner.gate (.capacity 0)).activeProbe ∧
      (after.inner.gate (.capacity 0)).generation =
        advanceGeneration^[count] (system.inner.gate (.capacity 0)).generation := by
  induction count generalizing system with
  | zero => exact ⟨system,rfl,rfl,hclock,hopen,rfl,rfl⟩
  | succ count ih =>
    have hsteady := (observe_untaken sampleSetting system.inner (.failed 0 sampleRejection) .update
      none (seconds 30) (fun _ hnone => nomatch hnone)).2 (.capacity 0)
    have hfails : failsGate sampleSetting (.failed 0 sampleRejection) .update (.capacity 0) = true :=
      by decide
    rw [hfails] at hsteady
    obtain ⟨after,hrun,hleases,htime,hafter,hprobe,hgeneration⟩ := ih
      ⟨(observeTerminal sampleSetting system.inner (.failed 0 sampleRejection) .update none
        (seconds 30)).2.1,system.leases,seconds 30⟩ rfl (later_open hsteady.later hopen)
    refine ⟨after,?_,hleases,htime,hafter,hprobe.trans hsteady.probe,?_⟩
    · rw [replicate_succ, run, sampleRejected, step, if_pos hclock.le]
      exact hrun
    · rw [hgeneration, hsteady.generation hopen, if_pos rfl, Function.iterate_succ_apply]

/-- A success heals whose gate failed exactly a period of times since the claim. -/
theorem success_after_period {system : System ℕ} (hclock : system.clock = seconds 30)
    (hleases : system.leases = [sampleLease])
    (hprobe : (system.inner.gate (.capacity 0)).activeProbe = some ⟨1,2⟩)
    (hgeneration : (system.inner.gate (.capacity 0)).generation = 2) :
    ∃ after, step sampleSetting system
        (.observeWithProbe (.completed 0) .update 0 (seconds 30)) = some after ∧
      (after.inner.gate (.capacity 0)).openUntil = none := by
  have htaken := observe_taken sampleSetting system.inner (.completed 0) .update sampleLease
    (seconds 30) (by decide)
  refine ⟨⟨(observeTerminal sampleSetting system.inner (.completed 0) .update (some sampleLease)
    (seconds 30)).2.1,[],seconds 30⟩,?_,?_⟩
  · have hready : system.clock ≤ seconds 30 ∧ sampleLease.returning = false := ⟨hclock.le,rfl⟩
    rw [step, hleases]
    simp only [List.getElem?_cons_zero, if_pos hready, htaken, if_true, eraseIdx_cons_zero]
  have hresolve := resolve_claim_gate sampleSetting 1 system.inner ⟨.capacity 0,2⟩ (by decide)
    (.capacity 0)
  rw [if_pos rfl, GateState.resolve, if_pos (by
    simp [GateState.heals, activeProbeMatches, hprobe, hgeneration])] at hresolve
  dsimp only
  rw [htaken]
  change (((resolveProbeClaim sampleSetting 1 system.inner ⟨.capacity 0,2⟩).modifyRoute
    sampleSetting 0 applyRouteSuccess).gate (.capacity 0)).openUntil = none
  rw [modify_route_gate sampleSetting _ 0 _ (by decide), if_neg (by simp), hresolve]

/-- With one failure less than the word has values, the gate has its old generation again
and a contradicted probe heals it. A rejection at the last instant there is opens the gate for
no time at all. -/
theorem contradicted_probe_heals :
    (0 < sampleSetting.policy.minimumCapacityCooldown ∧
      (run (step sampleSetting) (System.new ℕ) [sampleRejected sampleSetting.latest]).map
        (fun system => (system.inner.gate (.capacity 0)).openUntil) =
          some (some sampleSetting.latest)) ∧
    ∃ granted system after,
      run (step sampleSetting) (System.new ℕ) [sampleRejected 0, .claim 0 (seconds 30)] =
        some granted ∧
      granted.leases = [sampleLease] ∧
      run (step sampleSetting) granted
        (List.replicate (2^64-1) (sampleRejected (seconds 30))) = some system ∧
      system.leases = [sampleLease] ∧
      (List.replicate (2^64-1) (sampleRejected (seconds 30))).countP
        (Event.fails sampleSetting (.capacity 0)) = 2^64-1 ∧
      (system.inner.gate (.capacity 0)).openUntil.isSome = true ∧
      step sampleSetting system (.observeWithProbe (.completed 0) .update 0 (seconds 30)) =
        some after ∧
      (after.inner.gate (.capacity 0)).openUntil = none := by
  obtain ⟨granted,hgranted,hleases,hclock,hgate⟩ := sample_claimed
  obtain ⟨system,hrun,hsame,htime,hopen,hprobe,hgeneration⟩ :=
    rejections_count (2^64-1) granted hclock (by rw [hgate]; rfl)
  rw [hgate] at hprobe hgeneration
  obtain ⟨after,hstep,hhealed⟩ := success_after_period htime (hsame.trans hleases) hprobe
    (hgeneration.trans (advance_period 2 (by decide) (by decide)))
  refine ⟨⟨by decide, by decide +kernel⟩, granted, system, after, hgranted, hleases, hrun,
    hsame.trans hleases, ?_, hopen, hstep, hhealed⟩
  rw [List.countP_replicate, if_pos (by decide)]

theorem circuit_healing_sample :
    ∃ system after,
      run (step sampleSetting) (System.new ℕ) [sampleRejected 0, .claim 0 (seconds 30)] =
        some system ∧
      step sampleSetting system (.observeWithProbe (.completed 0) .update 0 (seconds 30)) =
        some after ∧
      (after.inner.gate (.capacity 0)).openUntil = none ∧
      Heals sampleSetting [sampleRejected 0, .claim 0 (seconds 30)] system
        (.observeWithProbe (.completed 0) .update 0 (seconds 30)) (.capacity 0) := by
  obtain ⟨system,hrun,hleases,hclock,hgate⟩ := sample_claimed
  obtain ⟨after,hstep,hhealed⟩ := success_after_period hclock hleases (by rw [hgate])
    (by rw [hgate])
  refine ⟨system, after, hrun, hstep, hhealed, ?_⟩
  rcases (circuit_healing sampleSetting _ system after _ hrun hstep).1 (.capacity 0) with
    hlater | hheals
  · obtain ⟨reopened,hreopened,_⟩ := hlater (seconds 30) (by rw [hgate])
    exact absurd (hhealed.symm.trans hreopened) (by simp)
  · exact hheals

end Healing

end Maple.Health

import Mathlib.Data.List.Nodup
import Mathlib.Data.List.Perm.Subperm
import Mathlib.Data.List.Range
import Maple.Inference.Health

/-!
# What the health operations do to one gate

Each operation is described gate by gate: which gates it writes, and how the opening
time, the generation and the active probe of a gate change.
-/

set_option autoImplicit false

namespace Maple.Health

open List

variable {R : Type} (setting : Setting R)

section LeaseIds

theorem search_spec (inner : Inner R) {after : Inner R} {fuel leaseId : ℕ}
    (h : searchLeaseId setting inner fuel = some (leaseId, after)) :
    (∃ next, after = { inner with nextProbeLeaseId := next }) ∧
      leaseIdInUse setting inner leaseId = false := by
  induction fuel generalizing inner with
  | zero => cases h
  | succ fuel ih =>
    unfold searchLeaseId at h
    dsimp only at h
    split_ifs at h with hzero huse
    · obtain ⟨⟨next,rfl⟩,hfree⟩ := ih _ h
      exact ⟨⟨next,rfl⟩,hfree⟩
    · obtain ⟨⟨next,rfl⟩,hfree⟩ := ih _ h
      exact ⟨⟨next,rfl⟩,hfree⟩
    · cases h
      exact ⟨⟨_,rfl⟩,eq_false_of_ne_true huse⟩

def usedIds (inner : Inner R) : List ℕ :=
  setting.routes.filterMap (fun route =>
      (inner.routeHealth route).activeProbe.map ActiveProbe.leaseId)++
    setting.routes.filterMap (fun route => (inner.capacity route).activeProbe.map ActiveProbe.leaseId)

theorem used_ids_length (inner : Inner R) :
    (usedIds setting inner).length ≤ 2*setting.routes.length := by
  rw [usedIds, length_append]
  have hroutes := length_filterMap_le (fun route =>
    (inner.routeHealth route).activeProbe.map ActiveProbe.leaseId) setting.routes
  have hpools := length_filterMap_le (fun route =>
    (inner.capacity route).activeProbe.map ActiveProbe.leaseId) setting.routes
  omega

theorem in_use_iff (inner : Inner R) (candidate : ℕ) :
    leaseIdInUse setting inner candidate = true ↔ candidate ∈ usedIds setting inner := by
  have hprobe (probe : Option ActiveProbe) :
      probe.any (fun active => decide (active.leaseId = candidate)) = true ↔
        probe.map ActiveProbe.leaseId = some candidate := by
    cases probe <;> simp
  simp only [leaseIdInUse, usedIds, Bool.or_eq_true, any_eq_true, mem_append, mem_filterMap, hprobe]

def candidates (start : ℕ) (count : ℕ) : List ℕ :=
  (List.range count).map (fun offset => (start+1+offset) % wordSize)

theorem candidates_succ (start count : ℕ) :
    candidates start (count+1) = wrappingAdd start::candidates (wrappingAdd start) count := by
  unfold candidates
  rw [range_succ_eq_map, map_cons, map_map]
  refine congrArg₂ List.cons rfl (map_congr_left (fun offset _ => ?_))
  simp only [Function.comp_apply, wrappingAdd]
  rw [show start+1+offset.succ = start+1+(1+offset) by omega,
    show (start+1) % wordSize+1+offset = (start+1) % wordSize+(1+offset) by omega, Nat.mod_add_mod]

theorem candidates_nodup (start : ℕ) {count : ℕ} (h : count ≤ wordSize) :
    (candidates start count).Nodup := by
  refine List.Nodup.map_on (fun a ha b hb heq => ?_) nodup_range
  have hlt (offset : ℕ) (hoffset : offset ∈ List.range count) : offset < wordSize :=
    (mem_range.mp hoffset).trans_le h
  have hleft := hlt a ha
  have hright := hlt b hb
  unfold wordSize at heq hleft hright
  omega

theorem search_none (inner : Inner R) (fuel : ℕ) (h : searchLeaseId setting inner fuel = none) :
    ∀ candidate ∈ candidates inner.nextProbeLeaseId fuel,
      candidate = 0 ∨ candidate ∈ usedIds setting inner := by
  induction fuel generalizing inner with
  | zero => simp [candidates]
  | succ fuel ih =>
    rw [candidates_succ]
    unfold searchLeaseId at h
    dsimp only at h
    intro candidate hmem
    rcases mem_cons.mp hmem with hfirst | hlater
    · subst hfirst
      split_ifs at h with hzero huse
      · exact .inl hzero
      · exact .inr ((in_use_iff setting inner _).mp huse)
    · split_ifs at h with hzero huse
      · exact ih _ h candidate hlater
      · exact ih _ h candidate hlater

/-- More candidates are tried than ids can be in use. -/
theorem next_id_found (inner : Inner R) :
    ∃ leaseId after, nextProbeLeaseId setting inner = some (leaseId, after) := by
  cases h : nextProbeLeaseId setting inner with
  | some found => exact ⟨found.1,found.2,rfl⟩
  | none =>
    have hall := search_none setting inner _ h
    have hsub : candidates inner.nextProbeLeaseId (2*setting.routes.length+2) ⊆
        0::usedIds setting inner := fun candidate hmem => mem_cons.mpr (hall candidate hmem)
    have hle := ((candidates_nodup _ setting.few).subperm hsub).length_le
    have hused := used_ids_length setting inner
    simp only [candidates, length_map, length_range, length_cons] at hle
    omega

end LeaseIds

def Later (before after : GateState) : Prop :=
  ∀ opened, before.openUntil = some opened →
    ∃ reopened, after.openUntil = some reopened ∧ opened ≤ reopened

theorem later_trans {first second third : GateState} (h : Later first second)
    (h' : Later second third) : Later first third := by
  intro opened hopened
  obtain ⟨middle,hmiddle,hle⟩ := h opened hopened
  obtain ⟨last,hlast,hle'⟩ := h' middle hmiddle
  exact ⟨last,hlast,hle.trans hle'⟩

/-- How a gate may change while its probe, if any, stays in flight. -/
structure Steady (fails : Bool) (before after : GateState) : Prop where
  probe : after.activeProbe = before.activeProbe
  later : Later before after
  generation : before.openUntil.isSome = true → after.generation =
    if fails then advanceGeneration before.generation else before.generation

theorem steady_same (state : GateState) : Steady false state state :=
  ⟨rfl,fun opened h => ⟨opened,h,le_rfl⟩,fun _ => rfl⟩

variable (now : ℕ)

theorem extend_later (cooldown opened : ℕ) :
    ∃ reopened, extendOpenUntil setting (some opened) now cooldown = some reopened ∧
      opened ≤ reopened := ⟨_,rfl,le_max_left _ _⟩

theorem success_steady (state : RouteHealthState) :
    Steady false state.toGateState (applyRouteSuccess state).toGateState := by
  unfold applyRouteSuccess
  split_ifs with hopen hempty
  · exact steady_same _
  · exact ⟨rfl,fun opened h => ⟨opened,h,le_rfl⟩,fun _ => rfl⟩
  · exact ⟨rfl,fun opened h => ⟨opened,h,le_rfl⟩,fun h => absurd h hopen⟩

theorem failure_steady (state : RouteHealthState) :
    Steady true state.toGateState (applyRouteFailure setting now state).toGateState := by
  unfold applyRouteFailure
  cases hopen : state.openUntil with
  | some opened =>
    refine ⟨rfl,fun current h => ?_,fun _ => rfl⟩
    obtain rfl : opened = current := Option.some.inj (hopen.symm.trans h)
    exact extend_later setting now _ opened
  | none =>
    refine ⟨rfl,fun current h => ?_,fun h => ?_⟩
    · exact absurd (hopen.symm.trans h) (by simp)
    · rw [hopen] at h
      cases h

theorem rejection_steady (retryAfter : Option ℕ) (now : ℕ) (state : GateState) :
    Steady true state (applyCapacityRejection setting retryAfter now state) := by
  refine ⟨rfl,fun opened h => ?_,fun _ => rfl⟩
  unfold applyCapacityRejection
  rw [h]
  exact extend_later setting now _ opened

variable {terminal : AttemptTerminal R}

theorem classify_pool {pool : R} {retryAfter : Option ℕ}
    (h : (classify terminal).2.2 = .capacity pool retryAfter) : pool = terminal.route := by
  cases terminal with
  | completed route => cases h
  | failed route failure =>
    unfold classify classifyFailure at h
    dsimp only at h
    split_ifs at h
    · cases hstatus : failure.status with
      | none => simp [hstatus] at h
      | some status =>
        simp only [hstatus] at h
        split_ifs at h
        cases h
        rfl

variable [DecidableEq R]

theorem modify_route_gate (inner : Inner R) (route : R)
    (update : RouteHealthState → RouteHealthState) (h : route ∈ setting.routes)
    (gate : ProbeGateKey R) :
    (inner.modifyRoute setting route update).gate gate =
      if gate = .routeHealth route then (update (inner.routeHealth route)).toGateState
      else inner.gate gate := by
  rw [Inner.modifyRoute, if_pos h]
  cases gate with
  | routeHealth other =>
    by_cases hother : other = route
    · subst hother
      simp [Inner.gate]
    · simp [Inner.gate, hother]
  | capacity pool => simp [Inner.gate]

theorem modify_capacity_gate (inner : Inner R) (pool : R) (update : GateState → GateState)
    (h : pool ∈ setting.routes) (gate : ProbeGateKey R) :
    (inner.modifyCapacity setting pool update).gate gate =
      if gate = .capacity pool then update (inner.capacity pool) else inner.gate gate := by
  rw [Inner.modifyCapacity, if_pos h]
  cases gate with
  | routeHealth route => simp [Inner.gate]
  | capacity other =>
    by_cases hother : other = pool
    · subst hother
      simp [Inner.gate]
    · simp [Inner.gate, hother]

theorem at_gate (inner : Inner R) (gate key : ProbeGateKey R) (update : GateState → GateState) :
    (if gate = key then update (inner.gate key) else inner.gate gate) =
      if gate = key then update (inner.gate gate) else inner.gate gate := by
  split_ifs with h
  · rw [h]
  · rfl

theorem release_claim_gate (leaseId : ℕ) (inner : Inner R) (claim : ProbeGateClaim R)
    (h : claim.gate.route ∈ setting.routes) (gate : ProbeGateKey R) :
    (releaseProbeClaim setting leaseId inner claim).gate gate =
      if gate = claim.gate then (inner.gate gate).release leaseId claim.generationAtClaim
      else inner.gate gate := by
  obtain ⟨claimed,generation⟩ := claim
  cases claimed with
  | routeHealth route =>
    exact (modify_route_gate setting inner route _ h gate).trans
      (at_gate inner gate _ (.release leaseId generation))
  | capacity pool =>
    exact (modify_capacity_gate setting inner pool _ h gate).trans (at_gate inner gate _ _)

theorem resolve_claim_gate (leaseId : ℕ) (inner : Inner R) (claim : ProbeGateClaim R)
    (h : claim.gate.route ∈ setting.routes) (gate : ProbeGateKey R) :
    (resolveProbeClaim setting leaseId inner claim).gate gate =
      if gate = claim.gate then (inner.gate gate).resolve leaseId claim.generationAtClaim
      else inner.gate gate := by
  obtain ⟨claimed,generation⟩ := claim
  cases claimed with
  | routeHealth route =>
    exact (modify_route_gate setting inner route _ h gate).trans
      (at_gate inner gate _ (.resolve leaseId generation))
  | capacity pool =>
    exact (modify_capacity_gate setting inner pool _ h gate).trans (at_gate inner gate _ _)

section Folds
variable (write : Inner R → ProbeGateClaim R → Inner R)
  (effect : ProbeGateClaim R → GateState → GateState)
  (hwrite : ∀ inner claim, claim.gate.route ∈ setting.routes → ∀ gate,
    (write inner claim).gate gate =
      if gate = claim.gate then effect claim (inner.gate gate) else inner.gate gate)

include hwrite

variable {setting}

theorem fold_other {claims : List (ProbeGateClaim R)} (inner : Inner R) {gate : ProbeGateKey R}
    (hknown : ∀ claim ∈ claims, claim.gate.route ∈ setting.routes)
    (hgate : gate ∉ claims.map ProbeGateClaim.gate) :
    (claims.foldl write inner).gate gate = inner.gate gate := by
  induction claims generalizing inner with
  | nil => rfl
  | cons claim claims ih =>
    rw [map_cons, mem_cons, not_or] at hgate
    rw [foldl_cons, ih _ (fun other h => hknown other (mem_cons_of_mem _ h)) hgate.2,
      hwrite inner claim (hknown claim mem_cons_self), if_neg hgate.1]

theorem fold_at {claims : List (ProbeGateClaim R)} (inner : Inner R) {claim : ProbeGateClaim R}
    (hknown : ∀ claim ∈ claims, claim.gate.route ∈ setting.routes)
    (hdistinct : (claims.map ProbeGateClaim.gate).Nodup) (hclaim : claim ∈ claims) :
    (claims.foldl write inner).gate claim.gate = effect claim (inner.gate claim.gate) := by
  induction claims generalizing inner with
  | nil => cases hclaim
  | cons first claims ih =>
    have hrest : ∀ other ∈ claims, other.gate.route ∈ setting.routes :=
      fun other h => hknown other (mem_cons_of_mem _ h)
    obtain ⟨hfirst,hnodup⟩ := nodup_cons.mp hdistinct
    have hview := hwrite inner first (hknown first mem_cons_self)
    rw [foldl_cons]
    rcases mem_cons.mp hclaim with hsame | hlater
    · subst hsame
      rw [fold_other write effect hwrite _ hrest hfirst, hview, if_pos rfl]
    · have hne : claim.gate ≠ first.gate := fun heq =>
        hfirst (heq ▸ mem_map_of_mem hlater)
      rw [ih _ hrest hnodup hlater, hview, if_neg hne]

end Folds

variable {leaseId generation : ℕ} {inner : Inner R}

theorem claim_gate {after : Inner R} {gate : ProbeGateKey R}
    (h : claimProbeGate setting inner gate leaseId = some (generation, after)) :
    generation = advanceGeneration (inner.gate gate).generation ∧
      (∀ other, after.gate other =
        if other = gate then (inner.gate gate).claim leaseId else inner.gate other) ∧
      ∀ route, (after.routeHealth route).failureTimes = (inner.routeHealth route).failureTimes := by
  unfold claimProbeGate at h
  split_ifs at h with hknown
  cases gate with
  | routeHealth route =>
    cases h
    refine ⟨rfl,modify_route_gate setting inner route _ hknown,fun other => ?_⟩
    unfold Inner.modifyRoute
    split_ifs
    · dsimp only
      split_ifs <;> rfl
    · rfl
  | capacity pool =>
    cases h
    refine ⟨rfl,modify_capacity_gate setting inner pool _ hknown,fun other => ?_⟩
    unfold Inner.modifyCapacity
    split_ifs <;> rfl

theorem claim_known (leaseId : ℕ) (inner : Inner R) {gate : ProbeGateKey R}
    (h : gate.route ∈ setting.routes) :
    ∃ generation after, claimProbeGate setting inner gate leaseId = some (generation, after) := by
  unfold claimProbeGate
  rw [if_pos h]
  cases gate <;> exact ⟨_,_,rfl⟩

/-- The claims a lease takes on some gates, and the gates after that. -/
structure Claimed (leaseId : ℕ) (gates : List (ProbeGateKey R)) (inner : Inner R)
    (claims : List (ProbeGateClaim R)) (after : Inner R) : Prop where
  named : claims.map ProbeGateClaim.gate = gates
  generations : ∀ claim ∈ claims,
    claim.generationAtClaim = advanceGeneration (inner.gate claim.gate).generation
  view : ∀ gate, after.gate gate =
    if gate ∈ gates then (inner.gate gate).claim leaseId else inner.gate gate
  times : ∀ route,
    (after.routeHealth route).failureTimes = (inner.routeHealth route).failureTimes

theorem claim_gates_spec (leaseId : ℕ) {gates : List (ProbeGateKey R)} (inner : Inner R)
    (hknown : ∀ gate ∈ gates, gate.route ∈ setting.routes) (hdistinct : gates.Nodup) :
    ∃ claims after, claimGates setting leaseId gates inner = some (claims, after) ∧
      Claimed leaseId gates inner claims after := by
  induction gates generalizing inner with
  | nil => exact ⟨[],inner,rfl,rfl,fun _ h => (nomatch h),fun _ => by simp,fun _ => rfl⟩
  | cons gate gates ih =>
    obtain ⟨hfirst,hnodup⟩ := nodup_cons.mp hdistinct
    obtain ⟨generation,next,hclaim⟩ :=
      claim_known setting leaseId inner (hknown gate mem_cons_self)
    obtain ⟨hgeneration,hview,htimes⟩ := claim_gate setting hclaim
    obtain ⟨claims,after,hrest,hclaimed⟩ :=
      ih next (fun other h => hknown other (mem_cons_of_mem _ h)) hnodup
    refine ⟨⟨gate,generation⟩::claims,after,?_,?_,fun claim hmem => ?_,fun other => ?_,
      fun route => (hclaimed.times route).trans (htimes route)⟩
    · rw [claimGates, hclaim]
      simp [hrest]
    · rw [map_cons, hclaimed.named]
    · rcases mem_cons.mp hmem with hsame | hlater
      · subst hsame
        exact hgeneration
      · have hne : claim.gate ≠ gate := fun heq =>
          hfirst (hclaimed.named ▸ heq ▸ mem_map_of_mem hlater)
        rw [hclaimed.generations claim hlater, hview, if_neg hne]
    · rw [hclaimed.view other, hview other]
      by_cases hsame : other = gate
      · subst hsame
        simp [hfirst]
      · simp [hsame]

def mutationFails (route : R) (mutation : Mutation R) (gate : ProbeGateKey R) : Bool :=
  match mutation with
  | .routeFailure => gate = .routeHealth route
  | .capacity pool _ => gate = .capacity pool
  | .completed => false
  | .none => false

theorem mutation_steady (inner : Inner R) (now : ℕ) (hknown : terminal.route ∈ setting.routes)
    (gate : ProbeGateKey R) :
    Steady (mutationFails terminal.route (classify terminal).2.2 gate) (inner.gate gate)
      ((applyMutation setting inner terminal.route (classify terminal).2.2 now).gate gate) := by
  cases hmutation : (classify terminal).2.2 with
  | completed =>
    rw [applyMutation, modify_route_gate setting inner _ _ hknown gate]
    split_ifs with hgate
    · subst hgate
      exact success_steady _
    · exact steady_same _
  | capacity pool retryAfter =>
    have hpool := classify_pool hmutation
    subst hpool
    rw [applyMutation, modify_capacity_gate setting inner _ _ hknown gate, mutationFails]
    split_ifs with hgate
    · subst hgate
      rw [decide_eq_true rfl]
      exact rejection_steady setting retryAfter now _
    · rw [decide_eq_false hgate]
      exact steady_same _
  | routeFailure =>
    rw [applyMutation, modify_route_gate setting inner _ _ hknown gate, mutationFails]
    split_ifs with hgate
    · subst hgate
      rw [decide_eq_true rfl]
      exact failure_steady setting now _
    · rw [decide_eq_false hgate]
      exact steady_same _
  | none => exact steady_same _

structure Freed (heals : Prop) (before after : GateState) : Prop where
  probe : after.activeProbe = none
  opened : heals ∨ Later before after

theorem release_matching {state : GateState} (h : state.activeProbe = some ⟨leaseId,generation⟩) :
    state.release leaseId generation = { state with activeProbe := none } := by
  simp [GateState.release, activeProbeMatches, h]

theorem resolve_freed {state : GateState} (h : state.activeProbe = some ⟨leaseId,generation⟩) :
    Freed (state.generation = generation) state (state.resolve leaseId generation) := by
  unfold GateState.resolve
  split_ifs with hheals
  · refine ⟨rfl,.inl ?_⟩
    exact of_decide_eq_true (Bool.and_eq_true _ _ ▸ hheals).2
  · rw [release_matching h]
    exact ⟨rfl,.inr (fun opened hopened => ⟨opened,hopened,le_rfl⟩)⟩

/-- The claims a lease holds: on known gates, one claim a gate, all in flight. -/
structure InFlight (inner : Inner R) (leaseId : ℕ) (claims : List (ProbeGateClaim R)) : Prop where
  known : ∀ claim ∈ claims, claim.gate.route ∈ setting.routes
  distinct : (claims.map ProbeGateClaim.gate).Nodup
  active : ∀ claim ∈ claims,
    (inner.gate claim.gate).activeProbe = some ⟨leaseId, claim.generationAtClaim⟩

variable {claims : List (ProbeGateClaim R)} {setting}

theorem release_other (inner : Inner R) (leaseId : ℕ)
    (hknown : ∀ claim ∈ claims, claim.gate.route ∈ setting.routes) {gate : ProbeGateKey R}
    (hgate : gate ∉ claims.map ProbeGateClaim.gate) :
    (releaseProbeClaims setting inner leaseId claims).gate gate = inner.gate gate :=
  fold_other _ (fun claim => GateState.release leaseId claim.generationAtClaim)
    (release_claim_gate setting leaseId) inner hknown hgate

theorem release_at (h : InFlight setting inner leaseId claims)
    {claim : ProbeGateClaim R} (hclaim : claim ∈ claims) :
    (releaseProbeClaims setting inner leaseId claims).gate claim.gate =
      { inner.gate claim.gate with activeProbe := none } := by
  refine (fold_at _ (fun claim => GateState.release leaseId claim.generationAtClaim)
    (release_claim_gate setting leaseId) inner h.known h.distinct hclaim).trans ?_
  exact release_matching (h.active claim hclaim)

/-- A mutation leaves every probe in flight, so the release after it frees the gates. -/
theorem mutated_release (hknown : terminal.route ∈ setting.routes)
    (h : InFlight setting inner leaseId claims) (gate : ProbeGateKey R) :
    let mutation := (classify terminal).2.2
    let after := releaseProbeClaims setting
      (applyMutation setting inner terminal.route mutation now) leaseId claims
    (gate ∉ claims.map ProbeGateClaim.gate →
      Steady (mutationFails terminal.route mutation gate) (inner.gate gate) (after.gate gate)) ∧
    ∀ claim ∈ claims, claim.gate = gate → Freed False (inner.gate gate) (after.gate gate) := by
  intro mutation after
  have hsteady := mutation_steady setting inner now hknown
  have hflight : InFlight setting (applyMutation setting inner terminal.route mutation now)
      leaseId claims :=
    ⟨h.known,h.distinct,fun claim hclaim =>
      ((hsteady claim.gate).probe).trans (h.active claim hclaim)⟩
  refine ⟨fun hgate => ?_,fun claim hclaim hsame => ?_⟩
  · rw [release_other _ leaseId h.known hgate]
    exact hsteady gate
  · subst hsame
    rw [release_at hflight hclaim]
    exact ⟨rfl,.inr (hsteady claim.gate).later⟩

theorem resolved_success {route : R} (hknown : route ∈ setting.routes)
    (h : InFlight setting inner leaseId claims) (gate : ProbeGateKey R) :
    let after := (resolveProbeSuccess setting inner leaseId claims).modifyRoute setting route
      applyRouteSuccess
    (gate ∉ claims.map ProbeGateClaim.gate → Steady false (inner.gate gate) (after.gate gate)) ∧
    ∀ claim ∈ claims, claim.gate = gate →
      Freed ((inner.gate gate).generation = claim.generationAtClaim) (inner.gate gate)
        (after.gate gate) := by
  intro after
  have hsuccess : Steady false ((resolveProbeSuccess setting inner leaseId claims).gate gate)
      (after.gate gate) := by
    rw [modify_route_gate setting _ route _ hknown gate]
    split_ifs with hroute
    · subst hroute
      exact success_steady _
    · exact steady_same _
  refine ⟨fun hgate => ?_,fun claim hclaim hsame => ?_⟩
  · have hother : (resolveProbeSuccess setting inner leaseId claims).gate gate = inner.gate gate :=
      fold_other _ (fun claim => GateState.resolve leaseId claim.generationAtClaim)
        (resolve_claim_gate setting leaseId) inner h.known hgate
    rwa [hother] at hsuccess
  subst hsame
  have hview : (resolveProbeSuccess setting inner leaseId claims).gate claim.gate =
      (inner.gate claim.gate).resolve leaseId claim.generationAtClaim :=
    fold_at _ (fun claim => GateState.resolve leaseId claim.generationAtClaim)
      (resolve_claim_gate setting leaseId) inner h.known h.distinct hclaim
  have hfreed := resolve_freed (h.active claim hclaim)
  rw [← hview] at hfreed
  exact ⟨hsuccess.probe.trans hfreed.probe,
    hfreed.opened.imp_right (fun hlater => later_trans hlater hsuccess.later)⟩

variable (setting)

theorem observed_release (inner : Inner R) (route : R) (mutation : Mutation R) (leaseId : ℕ)
    (claims : List (ProbeGateClaim R)) (now : ℕ) (h : mutation ≠ .completed) :
    resolveObserved setting inner route mutation leaseId claims now =
      releaseProbeClaims setting (applyMutation setting inner route mutation now) leaseId claims := by
  cases mutation with
  | completed => exact absurd rfl h
  | capacity | routeFailure | none => rfl

theorem resolve_observed (hknown : terminal.route ∈ setting.routes)
    (h : InFlight setting inner leaseId claims) (gate : ProbeGateKey R) :
    let mutation := (classify terminal).2.2
    let after := resolveObserved setting inner terminal.route mutation leaseId claims now
    (gate ∉ claims.map ProbeGateClaim.gate →
      Steady (mutationFails terminal.route mutation gate) (inner.gate gate) (after.gate gate)) ∧
    ∀ claim ∈ claims, claim.gate = gate →
      Freed (mutation = .completed ∧ (inner.gate gate).generation = claim.generationAtClaim)
        (inner.gate gate) (after.gate gate) := by
  intro mutation after
  by_cases hmutation : mutation = .completed
  · have hresolved := resolved_success hknown h gate
    simp only [after, mutation, resolveObserved, mutationFails, hmutation] at hmutation ⊢
    refine ⟨hresolved.1,fun claim hclaim hsame => ?_⟩
    have hfreed := hresolved.2 claim hclaim hsame
    exact ⟨hfreed.probe,hfreed.opened.imp_left (fun hgeneration => ⟨trivial,hgeneration⟩)⟩
  · obtain ⟨hothers,hclaimed⟩ :=
      mutated_release now hknown h gate
    have hafter : after = _ :=
      observed_release setting inner terminal.route mutation leaseId claims now hmutation
    rw [hafter]
    refine ⟨hothers,fun claim hclaim hsame => ?_⟩
    have hfreed := hclaimed claim hclaim hsame
    exact ⟨hfreed.probe,hfreed.opened.imp_left False.elim⟩

end Maple.Health

import Maple.Lib.Table
import Maple.Inference.Gates

/-!
# Steps of the health state

The claim of a probe always ends: it creates no lease and changes no gate, or its lease
claims every gate of the route that is open, due and without a probe. Every other step
keeps the probes of all gates, or ends those of one lease.
-/

set_option autoImplicit false

namespace Maple.Health

open Table List

variable {R : Type}

def isDue (inner : Inner R) (now : ℕ) (gate : ProbeGateKey R) : Bool :=
  (inner.gate gate).activeProbe.isNone &&
    (inner.gate gate).openUntil.any (fun opened => decide (opened ≤ now))

theorem due_iff (inner : Inner R) (now : ℕ) (gate : ProbeGateKey R) :
    isDue inner now gate = true ↔ (inner.gate gate).activeProbe = none ∧
      ∃ opened, (inner.gate gate).openUntil = some opened ∧ opened ≤ now := by
  unfold isDue
  cases hopen : (inner.gate gate).openUntil <;> simp

def gatesOf (route : R) : List (ProbeGateKey R) := [.routeHealth route, .capacity route]

theorem gates_of_nodup (route : R) : (gatesOf route).Nodup := by simp [gatesOf]

variable [DecidableEq R] (setting : Setting R) {now : ℕ}

variable {setting} {inner : Inner R} {status : ProbeGateStatus} {gate : ProbeGateKey R}

theorem status_known
    (h : probeGateStatus setting inner gate now = some status) : gate.route ∈ setting.routes := by
  unfold probeGateStatus at h
  split_ifs at h with hknown
  exact hknown

theorem status_due (h : probeGateStatus setting inner gate now = some status) :
    status = .expiredOpen ↔ isDue inner now gate = true := by
  have hknown := status_known h
  unfold probeGateStatus at h
  rw [if_pos hknown] at h
  rw [due_iff]
  cases hprobe : (inner.gate gate).activeProbe with
  | some probe =>
    simp only [hprobe, Option.isSome_some, if_true, Option.some.injEq] at h
    subst h
    simp
  | none =>
    cases hopen : (inner.gate gate).openUntil with
    | none =>
      simp only [hprobe, hopen, Option.isSome_none, Bool.false_eq_true, if_false,
        Option.some.injEq] at h
      subst h
      simp
    | some opened =>
      simp only [hprobe, hopen, Option.isSome_none, Bool.false_eq_true, if_false] at h
      split_ifs at h with hstill
      · cases h
        simp [hstill]
      · cases h
        simp [Nat.not_lt.mp hstill]

theorem scan_spec (inner : Inner R) (now : ℕ) (gates : List (ProbeGateKey R))
    (scan last : GateScan R) (h : scanGates setting inner now gates scan = some last) :
    last.expired = scan.expired++gates.filter (isDue inner now) ∧
      ∀ gate ∈ gates, gate.route ∈ setting.routes := by
  induction gates generalizing scan with
  | nil =>
    cases h
    simp
  | cons gate gates ih =>
    unfold scanGates at h
    cases hstatus : probeGateStatus setting inner gate now with
    | none => simp [hstatus] at h
    | some status =>
      have hdue := status_due hstatus
      have hknown := status_known hstatus
      have hrest (other : GateScan R)
          (hother : scanGates setting inner now gates other = some last) :
          last.expired = other.expired++gates.filter (isDue inner now) ∧
            ∀ late ∈ gate::gates, late.route ∈ setting.routes := by
        obtain ⟨hexpired,hroutes⟩ := ih other hother
        exact ⟨hexpired,forall_mem_cons.mpr ⟨hknown,hroutes⟩⟩
      cases status with
      | expiredOpen =>
        simp only [hstatus] at h
        rw [filter_cons_of_pos (hdue.mp rfl), append_cons]
        exact hrest _ h
      | healthy =>
        simp only [hstatus] at h
        rw [filter_cons_of_neg (fun hyes => nomatch hdue.mpr hyes)]
        exact hrest _ h
      | stillOpen | probeInFlight =>
        simp only [hstatus] at h
        obtain ⟨hexpired,hroutes⟩ := hrest _ h
        rw [filter_cons_of_neg (fun hyes => nomatch hdue.mpr hyes)]
        exact ⟨hexpired,hroutes⟩

variable (setting)

def Claimable (inner : Inner R) (now : ℕ) (gate : ProbeGateKey R) : Prop :=
  gate.route ∈ setting.routes ∧ (inner.gate gate).activeProbe = none ∧
    ∀ opened, (inner.gate gate).openUntil = some opened → opened ≤ now

theorem scan_claimable {gates : List (ProbeGateKey R)} (scan : GateScan R)
    (h : ∀ gate ∈ gates, Claimable setting inner now gate) :
    scanGates setting inner now gates scan =
      some { scan with expired := scan.expired++gates.filter (isDue inner now) } := by
  induction gates generalizing scan with
  | nil => simp [scanGates]
  | cons gate gates ih =>
    obtain ⟨hknown,hprobe,hopen⟩ := h gate mem_cons_self
    have hrest := fun other hother => h other (mem_cons_of_mem _ hother)
    unfold scanGates
    cases hopened : (inner.gate gate).openUntil with
    | none =>
      have hstatus : probeGateStatus setting inner gate now = some .healthy := by
        simp [probeGateStatus, hknown, hprobe, hopened]
      have hdue : ¬isDue inner now gate = true := by simp [isDue, hopened]
      simp only [hstatus]
      rw [ih scan hrest, filter_cons_of_neg hdue]
    | some opened =>
      have hstatus : probeGateStatus setting inner gate now = some .expiredOpen := by
        simp [probeGateStatus, hknown, hprobe, hopened, Nat.not_lt.mpr (hopen opened hopened)]
      have hdue := (status_due hstatus).mp rfl
      simp only [hstatus]
      rw [ih _ hrest, filter_cons_of_pos hdue, append_assoc, singleton_append]

/-- A new lease: its id is in no probe, and it claims the due gates of its route. -/
structure Granted (inner : Inner R) (route : R) (now : ℕ) (lease : ProbeLease R)
    (after : Inner R) : Prop where
  named : lease.route = route
  fresh : leaseIdInUse setting inner lease.leaseId = false
  kept : lease.returning = false
  known : ∀ gate ∈ gatesOf route, gate.route ∈ setting.routes
  some_due : (gatesOf route).filter (isDue inner now) ≠ []
  claimed : Claimed lease.leaseId ((gatesOf route).filter (isDue inner now)) inner lease.claims after

theorem grant_spec (inner : Inner R) (route : R) (now : ℕ)
    (hknown : ∀ gate ∈ gatesOf route, gate.route ∈ setting.routes)
    (hdue : (gatesOf route).filter (isDue inner now) ≠ []) :
    ∃ leaseId next claims after, nextProbeLeaseId setting inner = some (leaseId, next) ∧
      claimGates setting leaseId ((gatesOf route).filter (isDue inner now)) next =
        some (claims, after) ∧
      Granted setting inner route now ⟨route,leaseId,claims,false⟩ after := by
  obtain ⟨leaseId,next,hid⟩ := next_id_found setting inner
  obtain ⟨⟨start,rfl⟩,hfree⟩ := search_spec setting inner hid
  have hgate (gate : ProbeGateKey R) :
      Inner.gate { inner with nextProbeLeaseId := start } gate = inner.gate gate := by
    cases gate <;> rfl
  obtain ⟨claims,after,hclaims,hclaimed⟩ := claim_gates_spec setting leaseId _
    (fun gate hmem => hknown gate (mem_filter.mp hmem).1)
    ((gates_of_nodup route).filter _)
  refine ⟨leaseId,_,claims,after,hid,hclaims,rfl,hfree,rfl,hknown,hdue,
    hclaimed.named,fun claim hclaim => ?_,fun gate => ?_,hclaimed.times⟩
  · rw [hclaimed.generations claim hclaim, hgate]
  · rw [hclaimed.view gate, hgate]

/-- A claim ends, with a new lease or with everything as it was. -/
theorem claim_cases (inner : Inner R) (route : R) (now : ℕ) :
    (∃ result, tryClaimProbe setting inner route now = some (result, inner) ∧
      ∀ leases, claimed leases result = leases) ∨
    ∃ lease after, tryClaimProbe setting inner route now = some (.ready (some lease), after) ∧
      Granted setting inner route now lease after := by
  unfold tryClaimProbe
  cases hscan : scanGates setting inner now [.routeHealth route, .capacity route]
      ⟨[],none,false⟩ with
  | none => exact .inl ⟨_,rfl,fun _ => rfl⟩
  | some scan =>
    obtain ⟨hexpired,hknown⟩ := scan_spec inner now (gatesOf route) _ scan hscan
    rw [nil_append] at hexpired
    dsimp only
    cases hflight : scan.probeInFlight with
    | true => exact .inl ⟨_,rfl,fun _ => rfl⟩
    | false =>
      simp only [Bool.false_eq_true, if_false]
      cases hopen : scan.openRemaining with
      | some remaining => exact .inl ⟨_,rfl,fun _ => rfl⟩
      | none =>
        cases hempty : scan.expired.isEmpty with
        | true => exact .inl ⟨_,rfl,fun _ => rfl⟩
        | false =>
          have hdue : (gatesOf route).filter (isDue inner now) ≠ [] := by
            rw [← hexpired]
            exact isEmpty_eq_false_iff.mp hempty
          obtain ⟨leaseId,next,claims,after,hid,hclaims,hgranted⟩ :=
            grant_spec setting inner route now hknown hdue
          rw [← hexpired] at hclaims
          exact .inr ⟨_,after,by simp [hid, hclaims],hgranted⟩

theorem claim_granted {route : R}
    (hclaimable : ∀ gate ∈ gatesOf route, Claimable setting inner now gate)
    (hdue : (gatesOf route).filter (isDue inner now) ≠ []) :
    ∃ lease after, tryClaimProbe setting inner route now = some (.ready (some lease), after) ∧
      Granted setting inner route now lease after := by
  have hscan := scan_claimable setting ⟨[],none,false⟩ hclaimable
  obtain ⟨leaseId,next,claims,after,hid,hclaims,hgranted⟩ := grant_spec setting inner route now
    (fun gate hgate => (hclaimable gate hgate).1) hdue
  have hsome : ((gatesOf route).filter (isDue inner now)).isEmpty = false :=
    isEmpty_eq_false_iff.mpr hdue
  refine ⟨_,after,?_,hgranted⟩
  unfold tryClaimProbe
  rw [gatesOf] at hscan hsome hclaims
  rw [hscan]
  simp only [nil_append, Bool.false_eq_true, if_false, hsome, hid, hclaims, Option.map_some]

/-- A terminal that fails a gate: observed in earnest, for a known route. -/
def failsGate (terminal : AttemptTerminal R) (mode : ShadowObservationMode)
    (gate : ProbeGateKey R) : Bool :=
  decide (mode = .update) && decide (terminal.route ∈ setting.routes) &&
    mutationFails terminal.route (classify terminal).2.2 gate

def Event.fails (gate : ProbeGateKey R) : Event R → Bool
  | .claim _ _ => false
  | .observe terminal mode _ => failsGate setting terminal mode gate
  | .observeWithProbe terminal mode _ _ => failsGate setting terminal mode gate
  | .dropLease _ => false

/-- An observation takes the claims of a lease for its own known route, in earnest. -/
def takes (terminal : AttemptTerminal R) (mode : ShadowObservationMode) (lease : ProbeLease R) :
    Bool :=
  decide (mode = .update) && decide (terminal.route ∈ setting.routes) &&
    decide (lease.route = terminal.route)

theorem observe_untaken (inner : Inner R) (terminal : AttemptTerminal R)
    (mode : ShadowObservationMode) (probe : Option (ProbeLease R)) (now : ℕ)
    (h : ∀ lease, probe = some lease → takes setting terminal mode lease = false) :
    (observeTerminal setting inner terminal mode probe now).2.2 = false ∧
      ∀ gate, Steady (failsGate setting terminal mode gate) (inner.gate gate)
        ((observeTerminal setting inner terminal mode probe now).2.1.gate gate) := by
  unfold observeTerminal
  by_cases hknown : terminal.route ∈ setting.routes
  · cases mode with
    | telemetryOnly =>
      simp only [hknown, not_true_eq_false, if_false, if_true, true_and]
      intro gate
      exact steady_same _
    | update =>
      have hnone : probe.filter (fun lease => decide (lease.route = terminal.route)) = none := by
        cases probe with
        | none => rfl
        | some lease =>
          have hother := h lease rfl
          simp only [takes, hknown, decide_true, Bool.true_and] at hother
          exact Option.filter_some_neg hother
      simp only [hknown, not_true_eq_false, if_false, hnone, reduceCtorEq, true_and, failsGate,
        decide_true, Bool.true_and]
      exact mutation_steady setting inner now hknown
  · simp only [hknown, not_false_eq_true, if_true, true_and, failsGate, decide_false,
      Bool.and_false, Bool.false_and]
    intro gate
    exact steady_same _

theorem observe_taken (inner : Inner R) (terminal : AttemptTerminal R)
    (mode : ShadowObservationMode) (lease : ProbeLease R) (now : ℕ)
    (h : takes setting terminal mode lease = true) :
    (observeTerminal setting inner terminal mode (some lease) now).2 =
      (resolveObserved setting inner terminal.route (classify terminal).2.2 lease.leaseId
        lease.claims now, true) := by
  simp only [takes, Bool.and_eq_true, decide_eq_true_eq] at h
  obtain ⟨⟨hmode,hknown⟩,hroute⟩ := h
  have hfilter : (some lease).filter (fun lease => decide (lease.route = terminal.route)) =
      some lease := Option.filter_some_pos (decide_eq_true hroute)
  unfold observeTerminal
  simp only [hknown, not_true_eq_false, if_false, hmode, reduceCtorEq, hfilter]

/-- All a step can do. -/
inductive Moved (system after : System R) : Event R → Prop where
  | refused (route : R) (now : ℕ) (inner : after.inner = system.inner)
      (leases : after.leases = system.leases) : Moved system after (.claim route now)
  | granted (route : R) (now : ℕ) (lease : ProbeLease R)
      (grant : Granted setting system.inner route now lease after.inner)
      (leases : after.leases = system.leases++[lease]) : Moved system after (.claim route now)
  | observed (terminal : AttemptTerminal R) (mode : ShadowObservationMode) (now : ℕ)
      (gates : ∀ gate, Steady (failsGate setting terminal mode gate) (system.inner.gate gate)
        (after.inner.gate gate))
      (leases : after.leases = system.leases) : Moved system after (.observe terminal mode now)
  | untaken (terminal : AttemptTerminal R) (mode : ShadowObservationMode) (index now : ℕ)
      (lease : ProbeLease R) (found : system.leases[index]? = some lease)
      (refused : takes setting terminal mode lease = false)
      (gates : ∀ gate, Steady (failsGate setting terminal mode gate) (system.inner.gate gate)
        (after.inner.gate gate))
      (leases : after.leases = system.leases.set index { lease with returning := true }) :
      Moved system after (.observeWithProbe terminal mode index now)
  | taken (terminal : AttemptTerminal R) (mode : ShadowObservationMode) (index now : ℕ)
      (lease : ProbeLease R) (found : system.leases[index]? = some lease)
      (accepted : takes setting terminal mode lease = true)
      (inner : after.inner = resolveObserved setting system.inner terminal.route
        (classify terminal).2.2 lease.leaseId lease.claims now)
      (leases : after.leases = system.leases.eraseIdx index) :
      Moved system after (.observeWithProbe terminal mode index now)
  | dropped (index : ℕ) (lease : ProbeLease R) (found : system.leases[index]? = some lease)
      (inner : after.inner = releaseProbeClaims setting system.inner lease.leaseId lease.claims)
      (leases : after.leases = system.leases.eraseIdx index) :
      Moved system after (.dropLease index)

variable {setting}

theorem step_moved {system after : System R} {event : Event R}
    (h : step setting system event = some after) : Moved setting system after event := by
  cases event with
  | claim route now =>
    simp only [step] at h
    split_ifs at h
    rcases claim_cases setting system.inner route now with
      ⟨result,hresult,hleases⟩ | ⟨lease,inner,hresult,hgranted⟩
    · rw [hresult] at h
      cases h
      exact .refused route now rfl (hleases system.leases)
    · rw [hresult] at h
      cases h
      exact .granted route now lease hgranted rfl
  | observe terminal mode now =>
    simp only [step] at h
    split_ifs at h
    cases h
    exact .observed terminal mode now
      (observe_untaken setting system.inner terminal mode none now (fun _ hnone => nomatch hnone)).2
      rfl
  | observeWithProbe terminal mode index now =>
    simp only [step] at h
    cases hfound : system.leases[index]? with
    | none => simp [hfound] at h
    | some lease =>
      rw [hfound] at h
      dsimp only at h
      by_cases hready : system.clock ≤ now ∧ lease.returning = false
      · rw [if_pos hready] at h
        cases htakes : takes setting terminal mode lease with
        | true =>
          rw [observe_taken setting system.inner terminal mode lease now htakes] at h
          cases h
          exact .taken terminal mode index now lease hfound htakes rfl rfl
        | false =>
          obtain ⟨hnot,hgates⟩ := observe_untaken setting system.inner terminal mode (some lease)
            now (fun other hother => Option.some.inj hother ▸ htakes)
          rw [hnot] at h
          cases h
          exact .untaken terminal mode index now lease hfound htakes hgates rfl
      · rw [if_neg hready] at h
        cases h
  | dropLease index =>
    simp only [step] at h
    cases hfound : system.leases[index]? with
    | none => simp [hfound] at h
    | some lease =>
      rw [hfound] at h
      dsimp only at h
      cases h
      exact .dropped index lease hfound rfl rfl

end Maple.Health

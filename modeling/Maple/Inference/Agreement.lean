import Maple.Inference.Claims

/-!
# Planning and claiming agree

A route is planned by the strongest disposition of its two gates, and claimed by a scan
over them. Each gate is seen in the same way by both, so the claim answers what the
snapshot announced.
-/

set_option autoImplicit false

namespace Maple.Health

open List

section Views
variable {R : Type} (setting : Setting R)

def gateDisposition (inner : Inner R) (now : ℕ) : ProbeGateKey R → ShadowDisposition
  | .routeHealth route => routeHealthDisposition (inner.routeHealth route)
      setting.policy.routeFailureWindow setting.policy.minimumCapacityCooldown now
  | .capacity pool => capacityDisposition (inner.capacity pool)
      setting.policy.minimumCapacityCooldown now

def isWouldProbe : ShadowDisposition → Bool
  | .wouldProbe => true
  | _ => false

def isCalm : ShadowDisposition → Bool
  | .healthy => true
  | .watch _ => true
  | _ => false

/-- The disposition of a gate that is calm when nothing is open or probed. -/
def disposed (minimum now : ℕ) (calm : ShadowDisposition) (state : GateState) :
    ShadowDisposition :=
  if state.activeProbe.isSome then .probeInFlight minimum
  else
    match state.openUntil with
    | some deadline => if now < deadline then .wouldOpen (deadline-now) else .wouldProbe
    | none => calm

theorem gate_disposed (inner : Inner R) (now : ℕ) (gate : ProbeGateKey R) :
    ∃ calm, isCalm calm = true ∧ gateDisposition setting inner now gate =
      disposed setting.policy.minimumCapacityCooldown now calm (inner.gate gate) := by
  cases gate with
  | routeHealth route =>
    refine ⟨_,?_,rfl⟩
    dsimp only
    split <;> rfl
  | capacity pool => exact ⟨.healthy,rfl,rfl⟩

def Shows (minimum : ℕ) : ProbeGateStatus → ShadowDisposition → Prop
  | .healthy, disposition => isCalm disposition = true
  | .stillOpen remaining, disposition => disposition = .wouldOpen remaining
  | .expiredOpen, disposition => disposition = .wouldProbe
  | .probeInFlight, disposition => disposition = .probeInFlight minimum

variable [DecidableEq R] {setting} {gate : ProbeGateKey R}

theorem gate_shows (inner : Inner R) (now : ℕ) (hknown : gate.route ∈ setting.routes) :
    ∃ status, probeGateStatus setting inner gate now = some status ∧
      Shows setting.policy.minimumCapacityCooldown status
        (gateDisposition setting inner now gate) := by
  obtain ⟨calm,hcalm,hdisposed⟩ := gate_disposed setting inner now gate
  rw [hdisposed, probeGateStatus, if_pos hknown]
  dsimp only
  obtain ⟨openUntil,generation,activeProbe⟩ := inner.gate gate
  cases activeProbe with
  | some probe => exact ⟨_,rfl,rfl⟩
  | none =>
    cases openUntil with
    | none => exact ⟨_,rfl,hcalm⟩
    | some deadline =>
      by_cases hstill : now < deadline
      · exact ⟨.stillOpen (deadline-now),by simp [hstill],by simp [Shows, disposed, hstill]⟩
      · exact ⟨.expiredOpen,by simp [hstill],by simp [Shows, disposed, hstill]⟩

theorem calm_cases {disposition : ShadowDisposition} (h : isCalm disposition = true) :
    disposition = .healthy ∨ ∃ count, disposition = .watch count := by
  cases disposition with
  | healthy => exact .inl rfl
  | watch count => exact .inr ⟨count,rfl⟩
  | _ => cases h

theorem due_would_probe (inner : Inner R) (now : ℕ) (hknown : gate.route ∈ setting.routes) :
    isDue inner now gate = isWouldProbe (gateDisposition setting inner now gate) := by
  obtain ⟨status,hstatus,hshows⟩ := gate_shows inner now hknown
  have hdue := status_due hstatus
  generalize gateDisposition setting inner now gate = disposition at hshows ⊢
  cases status with
  | expiredOpen =>
    obtain rfl : disposition = .wouldProbe := hshows
    exact hdue.mp rfl
  | healthy =>
    have hnot := Bool.eq_false_iff.mpr (fun hyes => nomatch hdue.mpr hyes)
    rcases calm_cases hshows with rfl | ⟨count,rfl⟩
    · exact hnot
    · exact hnot
  | stillOpen remaining =>
    obtain rfl : disposition = .wouldOpen remaining := hshows
    exact Bool.eq_false_iff.mpr (fun hyes => nomatch hdue.mpr hyes)
  | probeInFlight =>
    obtain rfl : disposition = .probeInFlight _ := hshows
    exact Bool.eq_false_iff.mpr (fun hyes => nomatch hdue.mpr hyes)

def noted (scan : GateScan R) (gate : ProbeGateKey R) : ProbeGateStatus → GateScan R
  | .healthy => scan
  | .expiredOpen => { scan with expired := scan.expired++[gate] }
  | .stillOpen remaining =>
    { scan with openRemaining := some (scan.openRemaining.elim remaining (max · remaining)) }
  | .probeInFlight => { scan with probeInFlight := true }

theorem scanGates_noted {inner : Inner R} {now : ℕ}
    (gates : List (ProbeGateKey R)) (scan : GateScan R) {status : ProbeGateStatus}
    (h : probeGateStatus setting inner gate now = some status) :
    scanGates setting inner now (gate::gates) scan =
      scanGates setting inner now gates (noted scan gate status) := by
  rw [scanGates, h]
  cases status <;> rfl

end Views

section Scans
variable {R : Type}

def Sees (minimum : ℕ) (scan : GateScan R) (effective : ShadowDisposition) : Prop :=
  match scan.probeInFlight, scan.openRemaining, scan.expired with
  | true, remaining, _ => effective = .probeInFlight (max (remaining.getD minimum) minimum)
  | false, some remaining, _ => effective = .wouldOpen remaining
  | false, none, [] => isCalm effective = true
  | false, none, _::_ => effective = .wouldProbe

theorem sees_start (minimum : ℕ) : Sees minimum (⟨[],none,false⟩ : GateScan R) .healthy := rfl

variable {calm : ShadowDisposition}

theorem stronger_calm_right (effective : ShadowDisposition) (h : isCalm calm = true) :
    strongerDisposition effective calm = effective ∨
      isCalm effective = true ∧ isCalm (strongerDisposition effective calm) = true := by
  rcases calm_cases h with rfl | ⟨count,rfl⟩
  all_goals cases effective with
    | healthy | watch => exact .inr ⟨rfl,rfl⟩
    | _ => exact .inl rfl

theorem stronger_calm_left (disposition : ShadowDisposition) (h : isCalm calm = true)
    (hstrong : isCalm disposition = false) :
    strongerDisposition calm disposition = disposition := by
  rcases calm_cases h with rfl | ⟨count,rfl⟩
  all_goals cases disposition with
    | healthy | watch => cases hstrong
    | _ => rfl

variable {minimum : ℕ} {effective : ShadowDisposition}

theorem sees_healthy {scan : GateScan R} (h : Sees minimum scan effective)
    (hcalm : isCalm calm = true) : Sees minimum scan (strongerDisposition effective calm) := by
  rcases stronger_calm_right effective hcalm with hsame | ⟨hseen,hstill⟩
  · rw [hsame]
    exact h
  obtain ⟨expired,openRemaining,probeInFlight⟩ := scan
  cases probeInFlight with
  | true =>
    obtain rfl : effective = _ := h
    cases hseen
  | false =>
    cases openRemaining with
    | some remaining =>
      obtain rfl : effective = _ := h
      cases hseen
    | none =>
      cases expired with
      | nil => exact hstill
      | cons first rest =>
        obtain rfl : effective = _ := h
        cases hseen

theorem sees_expired {scan : GateScan R} (gate : ProbeGateKey R) (h : Sees minimum scan effective) :
    Sees minimum (noted scan gate .expiredOpen) (strongerDisposition effective .wouldProbe) := by
  obtain ⟨expired,openRemaining,probeInFlight⟩ := scan
  cases probeInFlight with
  | true =>
    obtain rfl : effective = _ := h
    rfl
  | false =>
    cases openRemaining with
    | some remaining =>
      obtain rfl : effective = _ := h
      rfl
    | none =>
      cases expired with
      | nil =>
        rw [stronger_calm_left _ h rfl]
        rfl
      | cons first rest =>
        obtain rfl : effective = _ := h
        rfl

theorem sees_open {scan : GateScan R} (gate : ProbeGateKey R) (remaining : ℕ)
    (h : Sees minimum scan effective) : Sees minimum (noted scan gate (.stillOpen remaining))
      (strongerDisposition effective (.wouldOpen remaining)) := by
  obtain ⟨expired,openRemaining,probeInFlight⟩ := scan
  cases probeInFlight with
  | true =>
    obtain rfl : effective = _ := h
    cases openRemaining with
    | none => simp [noted, Sees, strongerDisposition, Nat.max_comm]
    | some current =>
      simp only [noted, Sees, strongerDisposition, Option.elim, Option.getD_some]
      rw [Nat.max_assoc, Nat.max_assoc, Nat.max_comm minimum]
  | false =>
    cases openRemaining with
    | some current =>
      obtain rfl : effective = _ := h
      rfl
    | none =>
      cases expired with
      | nil =>
        rw [stronger_calm_left _ h rfl]
        rfl
      | cons first rest =>
        obtain rfl : effective = _ := h
        rfl

theorem sees_in_flight {scan : GateScan R} (gate : ProbeGateKey R)
    (h : Sees minimum scan effective) :
    Sees minimum (noted scan gate .probeInFlight)
      (strongerDisposition effective (.probeInFlight minimum)) := by
  obtain ⟨expired,openRemaining,probeInFlight⟩ := scan
  cases probeInFlight with
  | true =>
    obtain rfl : effective = _ := h
    simp [noted, Sees, strongerDisposition]
  | false =>
    cases openRemaining with
    | some current =>
      obtain rfl : effective = _ := h
      simp [noted, Sees, strongerDisposition, Nat.max_comm]
    | none =>
      cases expired with
      | nil =>
        rw [stronger_calm_left _ h rfl]
        simp [noted, Sees]
      | cons first rest =>
        obtain rfl : effective = _ := h
        simp [noted, Sees, strongerDisposition]

/-- The scan and the order of dispositions take one more gate alike. -/
theorem sees_noted {scan : GateScan R} (gate : ProbeGateKey R) {status : ProbeGateStatus}
    {disposition : ShadowDisposition} (h : Sees minimum scan effective)
    (hshows : Shows minimum status disposition) :
    Sees minimum (noted scan gate status) (strongerDisposition effective disposition) := by
  cases status with
  | healthy => exact sees_healthy h hshows
  | expiredOpen =>
    obtain rfl : disposition = .wouldProbe := hshows
    exact sees_expired gate h
  | stillOpen remaining =>
    obtain rfl : disposition = .wouldOpen remaining := hshows
    exact sees_open gate remaining h
  | probeInFlight =>
    obtain rfl : disposition = .probeInFlight minimum := hshows
    exact sees_in_flight gate h

variable [DecidableEq R] (setting : Setting R)

theorem scan_sees (inner : Inner R) (now : ℕ) {gates : List (ProbeGateKey R)}
    (hknown : ∀ gate ∈ gates, gate.route ∈ setting.routes) (scan : GateScan R)
    (effective : ShadowDisposition) (h : Sees setting.policy.minimumCapacityCooldown scan
      effective) :
    ∃ last, scanGates setting inner now gates scan = some last ∧
      Sees setting.policy.minimumCapacityCooldown last
        ((gates.map (gateDisposition setting inner now)).foldl strongerDisposition effective) := by
  induction gates generalizing scan effective with
  | nil => exact ⟨scan,rfl,h⟩
  | cons gate gates ih =>
    obtain ⟨status,hstatus,hshows⟩ := gate_shows inner now (hknown gate mem_cons_self)
    rw [scanGates_noted gates scan hstatus]
    exact ih (fun other hother => hknown other (mem_cons_of_mem _ hother)) _ _
      (sees_noted gate h hshows)

end Scans

section Agreement
variable {R : Type} (setting : Setting R)

def probedGates (inner : Inner R) (route : R) (now : ℕ) : List (ProbeGateKey R) :=
  (gatesOf route).filter (fun gate => isWouldProbe (gateDisposition setting inner now gate))

/-- What a new lease leaves behind: each gate it claims goes one generation on and carries the
lease at it, and all else is as it was. -/
structure Carries (inner after : Inner R) (route : R) (now : ℕ) (lease : ProbeLease R) : Prop where
  named : lease.route = route
  fresh : leaseIdInUse setting inner lease.leaseId = false
  claims : lease.claims.map ProbeGateClaim.gate = probedGates setting inner route now
  generations : ∀ claim ∈ lease.claims,
    claim.generationAtClaim = advanceGeneration (inner.gate claim.gate).generation
  carried : ∀ claim ∈ lease.claims, after.gate claim.gate =
    ⟨(inner.gate claim.gate).openUntil, claim.generationAtClaim,
      some ⟨lease.leaseId, claim.generationAtClaim⟩⟩
  others : ∀ gate, gate ∉ probedGates setting inner route now → after.gate gate = inner.gate gate
  times : ∀ other, (after.routeHealth other).failureTimes = (inner.routeHealth other).failureTimes

def Announces (inner after : Inner R) (route : R) (now : ℕ) (result : ProbeClaimResult R) :
    ShadowDisposition → Prop
  | .healthy => result = .ready none ∧ after = inner
  | .watch _ => result = .ready none ∧ after = inner
  | .wouldProbe => ∃ lease, result = .ready (some lease) ∧
      Carries setting inner after route now lease
  | .wouldOpen remaining => result = .rejected .circuitOpen remaining ∧ after = inner
  | .probeInFlight retryAfter => result = .rejected .probeInFlight retryAfter ∧ after = inner

theorem gates_known (route : R) (hroute : route ∈ setting.routes) :
    ∀ gate ∈ gatesOf route, gate.route ∈ setting.routes := by
  intro gate hgate
  rcases mem_pair.mp hgate with rfl | rfl
  · exact hroute
  · exact hroute

variable [DecidableEq R] {route : R}

theorem due_probed (inner : Inner R) (now : ℕ) (hroute : route ∈ setting.routes) :
    (gatesOf route).filter (isDue inner now) = probedGates setting inner route now := by
  apply filter_congr
  intro gate hgate
  exact due_would_probe inner now (gates_known setting route hroute gate hgate)

def effectiveDisposition (inner : Inner R) (route : R) (now : ℕ) : ShadowDisposition :=
  strongestDisposition ((gatesOf route).map (gateDisposition setting inner now))

theorem granted_carries {inner after : Inner R} {now : ℕ} {lease : ProbeLease R}
    (hroute : route ∈ setting.routes) (h : Granted setting inner route now lease after) :
    Carries setting inner after route now lease := by
  have hclaimed := h.claimed
  rw [due_probed setting inner now hroute] at hclaimed
  refine ⟨h.named,h.fresh,hclaimed.named,hclaimed.generations,fun claim hclaim => ?_,
    fun gate hgate => ?_,hclaimed.times⟩
  · rw [hclaimed.view, if_pos (hclaimed.named ▸ mem_map_of_mem hclaim),
      hclaimed.generations claim hclaim]
    rfl
  · rw [hclaimed.view, if_neg hgate]

theorem snapshot_effective (inner : Inner R) (now : ℕ) (hroute : route ∈ setting.routes) :
    ∃ snap, snapshot setting inner route now = some snap ∧
      snap.effective = effectiveDisposition setting inner route now := ⟨_,if_pos hroute,rfl⟩

theorem claim_announced (inner : Inner R) (now : ℕ) (hroute : route ∈ setting.routes) :
    ∃ result after, tryClaimProbe setting inner route now = some (result, after) ∧
      Announces setting inner after route now result
        (effectiveDisposition setting inner route now) := by
  have hknown := gates_known setting route hroute
  obtain ⟨scan,hscan,hsees⟩ := scan_sees setting inner now hknown
    ⟨[],none,false⟩ .healthy (sees_start _)
  obtain ⟨hexpired,_⟩ := scan_spec inner now (gatesOf route) _ scan hscan
  rw [nil_append, due_probed setting inner now hroute] at hexpired
  unfold tryClaimProbe
  rw [show scanGates setting inner now [.routeHealth route, .capacity route] ⟨[],none,false⟩ =
    some scan from hscan]
  change Sees _ scan (effectiveDisposition setting inner route now) at hsees
  generalize effectiveDisposition setting inner route now = effective at hsees ⊢
  obtain ⟨expired,openRemaining,probeInFlight⟩ := scan
  cases probeInFlight with
  | true =>
    obtain rfl : effective = _ := hsees
    exact ⟨_,inner,rfl,rfl,rfl⟩
  | false =>
    cases openRemaining with
    | some remaining =>
      obtain rfl : effective = _ := hsees
      exact ⟨_,inner,rfl,rfl,rfl⟩
    | none =>
      cases expired with
      | nil =>
        rcases calm_cases hsees with rfl | ⟨count,rfl⟩
        · exact ⟨_,inner,rfl,rfl,rfl⟩
        · exact ⟨_,inner,rfl,rfl,rfl⟩
      | cons first rest =>
        obtain rfl : effective = _ := hsees
        have hdue : (gatesOf route).filter (isDue inner now) ≠ [] := by
          rw [due_probed setting inner now hroute, ← hexpired]
          exact cons_ne_nil _ _
        obtain ⟨leaseId,next,claims,after,hid,hclaims,hgranted⟩ :=
          grant_spec setting inner route now hknown hdue
        rw [due_probed setting inner now hroute] at hclaims
        refine ⟨.ready (some ⟨route,leaseId,claims,false⟩),after,?_,_,rfl,
          granted_carries setting hroute hgranted⟩
        simp only at hexpired
        simp [hid, hexpired ▸ hclaims]

/-- A claim on a known route answers what the snapshot at the same time announces. -/
theorem claim_agrees_with_snapshot (inner : Inner R) (route : R) (now : ℕ)
    (hroute : route ∈ setting.routes) :
    ∃ snap result after, snapshot setting inner route now = some snap ∧
      tryClaimProbe setting inner route now = some (result, after) ∧
      (result = .ready none ↔ snap.effective = .healthy ∨ ∃ count, snap.effective = .watch count) ∧
      ((∃ lease, result = .ready (some lease)) ↔ snap.effective = .wouldProbe) ∧
      (∀ lease, result = .ready (some lease) → Carries setting inner after route now lease) ∧
      (∀ remaining, result = .rejected .circuitOpen remaining ↔
        snap.effective = .wouldOpen remaining) ∧
      (∀ retryAfter, result = .rejected .probeInFlight retryAfter ↔
        snap.effective = .probeInFlight retryAfter) ∧
      (result = .ready none → after = inner) ∧
      ∀ reason retryAfter, result = .rejected reason retryAfter → after = inner := by
  obtain ⟨snap,hsnap,heffective⟩ := snapshot_effective setting inner now hroute
  obtain ⟨result,after,hclaim,hannounces⟩ := claim_announced setting inner now hroute
  refine ⟨snap, result, after, hsnap, hclaim, ?_⟩
  rw [heffective]
  generalize effectiveDisposition setting inner route now = effective at hannounces ⊢
  cases effective with
  | healthy | watch =>
    obtain ⟨rfl,rfl⟩ := hannounces
    simp
  | wouldProbe =>
    obtain ⟨lease,rfl,hcarries⟩ := hannounces
    refine ⟨by simp, by simp, ?_, by simp, by simp, by simp, by simp⟩
    intro other hother
    obtain rfl := Option.some.inj (ProbeClaimResult.ready.inj hother)
    exact hcarries
  | wouldOpen | probeInFlight =>
    obtain ⟨rfl,rfl⟩ := hannounces
    simp

end Agreement

def agreementSetting : Setting ℕ :=
  ⟨.default, [0, 1], seconds 1000000, (by decide : 6 ≤ wordSize)⟩

/-- A capacity gate that was open for thirty seconds is probed at their end. -/
def agreementInner : Inner ℕ :=
  ⟨fun _ => ⟨.default, [seconds 1]⟩, fun _ => ⟨some (seconds 30), 1, none⟩, 0⟩

theorem claim_agrees_with_snapshot_sample : ∃ lease after,
    tryClaimProbe agreementSetting agreementInner 1 (seconds 30) =
        some (.ready (some lease), after) ∧
      lease.claims = [⟨.capacity 1, 2⟩] ∧
      after.gate (.capacity 1) = ⟨some (seconds 30), 2, some ⟨lease.leaseId, 2⟩⟩ ∧
      after.gate (.capacity 0) = ⟨some (seconds 30), 1, none⟩ := by
  obtain ⟨snap,result,after,hsnap,hclaim,_,hprobes,hcarries,_⟩ :=
    claim_agrees_with_snapshot agreementSetting agreementInner 1 (seconds 30) (by decide)
  have heffective : snap.effective = .wouldProbe := by
    obtain rfl := Option.some.inj hsnap
    rfl
  obtain ⟨lease,rfl⟩ := hprobes.mpr heffective
  have hlease := hcarries lease rfl
  have hgates : lease.claims.map ProbeGateClaim.gate = [.capacity 1] :=
    hlease.claims.trans (by decide +kernel)
  obtain ⟨⟨gate,generation⟩,hone,rfl⟩ := map_eq_singleton_iff.mp hgates
  obtain rfl : generation = 2 := hlease.generations _ (hone ▸ mem_singleton_self _)
  exact ⟨lease, after, hclaim, hone, hlease.carried _ (hone ▸ mem_singleton_self _),
    hlease.others (.capacity 0) (by decide +kernel)⟩

end Maple.Health

import Mathlib.Algebra.Order.Ring.Nat
import Mathlib.Data.List.Basic

/-!
# Route health and half-open probes

Every known route has a route-health gate and a capacity gate; a capacity pool is named
by its route. An open gate whose time is over is probed by one lease at a time. The maps
are filled from the registry once, so a state is a pair of functions that are read and
written at known routes only. Instants are numbers up to a latest one.
-/

set_option autoImplicit false

namespace Maple.Health

def wordSize : ℕ := 2^64

def wrappingAdd (value : ℕ) : ℕ := (value+1) % wordSize

structure ShadowHealthPolicy where
  routeFailureWindow : ℕ
  routeFailuresToOpen : ℕ
  routeOpenCooldown : ℕ
  minimumCapacityCooldown : ℕ
  maxCapacityCooldown : ℕ
  cooldowns : minimumCapacityCooldown ≤ maxCapacityCooldown

def seconds (count : ℕ) : ℕ := count*1000000000

def ShadowHealthPolicy.default : ShadowHealthPolicy where
  routeFailureWindow := seconds 60
  routeFailuresToOpen := 3
  routeOpenCooldown := seconds 30
  minimumCapacityCooldown := seconds 30
  maxCapacityCooldown := seconds (60*60)
  cooldowns := by decide

inductive AttemptFailureKind where
  | providerUnavailable
  | requestBuild
  | connect
  | transport
  | responseStartTimeout
  | httpStatus
  | capacityRejected
  | responseBody
  | invalidResponse
  | upstreamResponseError
  | upstreamStreamError
  | streamTimeout
  | unexpectedEof
  | consumerDropped
  deriving DecidableEq

structure AttemptFailure where
  kind : AttemptFailureKind
  status : Option ℕ
  retryAfter : Option ℕ
  isProxyContextOverflow : Bool

inductive AttemptTerminal (R : Type) where
  | completed (route : R)
  | failed (route : R) (failure : AttemptFailure)

def AttemptTerminal.route {R : Type} : AttemptTerminal R → R
  | .completed route => route
  | .failed route _ => route

inductive ShadowObservationMode where
  | update
  | telemetryOnly
  deriving DecidableEq

inductive ShadowDisposition where
  | healthy
  | watch (consecutiveFailures : ℕ)
  | wouldOpen (remaining : ℕ)
  | wouldProbe
  | probeInFlight (retryAfter : ℕ)

inductive ShadowSignal where
  | completed
  | capacityRejected (status : ℕ)
  | routeFailure (kind : AttemptFailureKind) (status : Option ℕ)
  | neutral (kind : AttemptFailureKind) (status : Option ℕ)
  | unknownRoute

structure ShadowRouteSnapshot where
  routeHealth : ShadowDisposition
  deploymentCapacity : ShadowDisposition
  rateLimitCapacity : ShadowDisposition
  effective : ShadowDisposition

structure ShadowObservationReport (R : Type) where
  mode : ShadowObservationMode
  route : R
  signal : ShadowSignal
  capacityPool : Option R
  snapshot : Option ShadowRouteSnapshot
  mutated : Bool

structure ActiveProbe where
  leaseId : ℕ
  generationAtClaim : ℕ
  deriving DecidableEq

/-- What the two kinds of gates have in common, and all a capacity gate has. -/
structure GateState where
  openUntil : Option ℕ
  generation : ℕ
  activeProbe : Option ActiveProbe
  deriving DecidableEq

structure RouteHealthState extends GateState where
  failureTimes : List ℕ
  deriving DecidableEq

inductive ProbeGateKey (R : Type) where
  | routeHealth (route : R)
  | capacity (pool : R)
  deriving DecidableEq

def ProbeGateKey.route {R : Type} : ProbeGateKey R → R
  | .routeHealth route => route
  | .capacity pool => pool

structure ProbeGateClaim (R : Type) where
  gate : ProbeGateKey R
  generationAtClaim : ℕ
  deriving DecidableEq

/-- An unresolved lease. It is returning when the call it was moved into did not take
its claims and has yet to drop it. -/
structure ProbeLease (R : Type) where
  route : R
  leaseId : ℕ
  claims : List (ProbeGateClaim R)
  returning : Bool
  deriving DecidableEq

inductive ProbeRejectionReason where
  | circuitOpen
  | probeInFlight
  | unknownRoute
  deriving DecidableEq

inductive ProbeClaimResult (R : Type) where
  | ready (lease : Option (ProbeLease R))
  | rejected (reason : ProbeRejectionReason) (retryAfter : ℕ)

inductive ProbeGateStatus where
  | healthy
  | stillOpen (remaining : ℕ)
  | expiredOpen
  | probeInFlight

inductive Mutation (R : Type) where
  | completed
  | capacity (pool : R) (retryAfter : Option ℕ)
  | routeFailure
  | none
  deriving DecidableEq

/-- The fixed part: the registry's routes, few enough for the lease ids. -/
structure Setting (R : Type) where
  policy : ShadowHealthPolicy
  routes : List R
  latest : ℕ
  few : 2*routes.length+2 ≤ wordSize

structure Inner (R : Type) where
  routeHealth : R → RouteHealthState
  capacity : R → GateState
  nextProbeLeaseId : ℕ

def GateState.default : GateState := ⟨none, 0, none⟩

def Inner.new (R : Type) : Inner R := ⟨fun _ => ⟨.default, []⟩, fun _ => .default, 0⟩

def Inner.gate {R : Type} (inner : Inner R) : ProbeGateKey R → GateState
  | .routeHealth route => (inner.routeHealth route).toGateState
  | .capacity pool => inner.capacity pool

def advanceGeneration (generation : ℕ) : ℕ :=
  if wrappingAdd generation = 0 then 1 else wrappingAdd generation

def activeProbeMatches (activeProbe : Option ActiveProbe) (leaseId generationAtClaim : ℕ) : Bool :=
  activeProbe.any (fun active =>
    active.leaseId = leaseId && active.generationAtClaim = generationAtClaim)

def isRouteHealthFailure : AttemptFailureKind → Bool
  | .connect | .transport | .responseStartTimeout | .responseBody | .invalidResponse
  | .upstreamResponseError | .upstreamStreamError | .streamTimeout | .unexpectedEof => true
  | .providerUnavailable | .requestBuild | .httpStatus | .capacityRejected
  | .consumerDropped => false

def recentFailure (window now failureAt : ℕ) : Bool :=
  decide (now < failureAt) || decide (now-failureAt ≤ window)

def routeHealthDisposition (state : RouteHealthState) (failureWindow probeRetryAfter now : ℕ) :
    ShadowDisposition :=
  if state.activeProbe.isSome then .probeInFlight probeRetryAfter
  else
    match state.openUntil with
    | some deadline => if now < deadline then .wouldOpen (deadline-now) else .wouldProbe
    | none =>
      let current := (state.failureTimes.filter (recentFailure failureWindow now)).length
      if 0 < current then .watch (min current 255) else .healthy

def capacityDisposition (state : GateState) (probeRetryAfter now : ℕ) : ShadowDisposition :=
  if state.activeProbe.isSome then .probeInFlight probeRetryAfter
  else
    match state.openUntil with
    | some deadline => if now < deadline then .wouldOpen (deadline-now) else .wouldProbe
    | none => .healthy

def strongerDisposition : ShadowDisposition → ShadowDisposition → ShadowDisposition
  | .probeInFlight left, .probeInFlight right => .probeInFlight (max left right)
  | .probeInFlight retryAfter, .wouldOpen remaining => .probeInFlight (max retryAfter remaining)
  | .wouldOpen remaining, .probeInFlight retryAfter => .probeInFlight (max retryAfter remaining)
  | .probeInFlight left, _ => .probeInFlight left
  | _, .probeInFlight right => .probeInFlight right
  | .wouldOpen left, .wouldOpen right => .wouldOpen (max left right)
  | .wouldOpen left, _ => .wouldOpen left
  | _, .wouldOpen right => .wouldOpen right
  | .wouldProbe, _ => .wouldProbe
  | _, .wouldProbe => .wouldProbe
  | .watch left, .watch right => .watch (max left right)
  | .watch left, _ => .watch left
  | _, .watch right => .watch right
  | .healthy, .healthy => .healthy

def strongestDisposition (dispositions : List ShadowDisposition) : ShadowDisposition :=
  dispositions.foldl strongerDisposition .healthy

section Gates
variable {R : Type} [DecidableEq R] (setting : Setting R)

def Inner.modifyRoute (inner : Inner R) (route : R) (update : RouteHealthState → RouteHealthState) :
    Inner R :=
  if route ∈ setting.routes then
    { inner with
      routeHealth := fun other =>
        if other = route then update (inner.routeHealth other) else inner.routeHealth other }
  else inner

def Inner.modifyCapacity (inner : Inner R) (pool : R) (update : GateState → GateState) : Inner R :=
  if pool ∈ setting.routes then
    { inner with
      capacity := fun other =>
        if other = pool then update (inner.capacity other) else inner.capacity other }
  else inner

def probeGateStatus (inner : Inner R) (gate : ProbeGateKey R) (now : ℕ) : Option ProbeGateStatus :=
  if gate.route ∈ setting.routes then
    let state := inner.gate gate
    if state.activeProbe.isSome then some .probeInFlight
    else
      match state.openUntil with
      | some deadline => if now < deadline then some (.stillOpen (deadline-now)) else some .expiredOpen
      | none => some .healthy
  else none

def leaseIdInUse (inner : Inner R) (candidate : ℕ) : Bool :=
  setting.routes.any (fun route =>
      (inner.routeHealth route).activeProbe.any (fun probe => probe.leaseId = candidate)) ||
    setting.routes.any (fun route =>
      (inner.capacity route).activeProbe.any (fun probe => probe.leaseId = candidate))

/-- The loop of the source, at most `fuel` times. -/
def searchLeaseId (inner : Inner R) : ℕ → Option (ℕ × Inner R)
  | 0 => none
  | fuel+1 =>
    let candidate := wrappingAdd inner.nextProbeLeaseId
    let next := { inner with nextProbeLeaseId := candidate }
    if candidate = 0 then searchLeaseId next fuel
    else if leaseIdInUse setting next candidate then searchLeaseId next fuel
    else some (candidate, next)

def nextProbeLeaseId (inner : Inner R) : Option (ℕ × Inner R) :=
  searchLeaseId setting inner (2*setting.routes.length+2)

def GateState.claim (state : GateState) (leaseId : ℕ) : GateState :=
  { state with
    generation := advanceGeneration state.generation
    activeProbe := some ⟨leaseId, advanceGeneration state.generation⟩ }

def claimProbeGate (inner : Inner R) (gate : ProbeGateKey R) (leaseId : ℕ) :
    Option (ℕ × Inner R) :=
  if gate.route ∈ setting.routes then
    match gate with
    | .routeHealth route =>
      some (advanceGeneration (inner.routeHealth route).generation,
        inner.modifyRoute setting route
          (fun state => { state with toGateState := state.toGateState.claim leaseId }))
    | .capacity pool =>
      some (advanceGeneration (inner.capacity pool).generation,
        inner.modifyCapacity setting pool (fun state => state.claim leaseId))
  else none

def GateState.release (leaseId generationAtClaim : ℕ) (state : GateState) : GateState :=
  if activeProbeMatches state.activeProbe leaseId generationAtClaim then
    { state with activeProbe := none }
  else state

def releaseProbeClaim (leaseId : ℕ) (inner : Inner R) (claim : ProbeGateClaim R) : Inner R :=
  match claim.gate with
  | .routeHealth route => inner.modifyRoute setting route (fun state =>
      { state with toGateState := state.toGateState.release leaseId claim.generationAtClaim })
  | .capacity pool =>
    inner.modifyCapacity setting pool (GateState.release leaseId claim.generationAtClaim)

def releaseProbeClaims (inner : Inner R) (leaseId : ℕ) (claims : List (ProbeGateClaim R)) :
    Inner R :=
  claims.foldl (releaseProbeClaim setting leaseId) inner

def GateState.heals (leaseId generationAtClaim : ℕ) (state : GateState) : Bool :=
  activeProbeMatches state.activeProbe leaseId generationAtClaim &&
    decide (state.generation = generationAtClaim)

def GateState.resolve (leaseId generationAtClaim : ℕ) (state : GateState) : GateState :=
  if state.heals leaseId generationAtClaim then
    ⟨none, advanceGeneration state.generation, none⟩
  else state.release leaseId generationAtClaim

def RouteHealthState.resolve (leaseId generationAtClaim : ℕ) (state : RouteHealthState) :
    RouteHealthState where
  toGateState := state.toGateState.resolve leaseId generationAtClaim
  failureTimes := if state.toGateState.heals leaseId generationAtClaim then [] else state.failureTimes

def resolveProbeClaim (leaseId : ℕ) (inner : Inner R) (claim : ProbeGateClaim R) : Inner R :=
  match claim.gate with
  | .routeHealth route =>
    inner.modifyRoute setting route (RouteHealthState.resolve leaseId claim.generationAtClaim)
  | .capacity pool =>
    inner.modifyCapacity setting pool (GateState.resolve leaseId claim.generationAtClaim)

def resolveProbeSuccess (inner : Inner R) (leaseId : ℕ) (claims : List (ProbeGateClaim R)) :
    Inner R :=
  claims.foldl (resolveProbeClaim setting leaseId) inner

end Gates

section Observation
variable {R : Type} [DecidableEq R] (setting : Setting R)

def extendOpenUntil (openUntil : Option ℕ) (now cooldown : ℕ) : Option ℕ :=
  let candidate := if now+cooldown ≤ setting.latest then now+cooldown else now
  some (openUntil.elim candidate (fun current => max current candidate))

def failureThreshold : ℕ := max setting.policy.routeFailuresToOpen 1

/-- The window's failures and this one, the oldest dropped beyond the threshold. -/
def pushFailure (failureTimes : List ℕ) (now : ℕ) : List ℕ :=
  let recent := failureTimes.filter (recentFailure setting.policy.routeFailureWindow now)++[now]
  recent.drop (recent.length-failureThreshold setting)

def applyRouteFailure (now : ℕ) (state : RouteHealthState) : RouteHealthState :=
  let generation := advanceGeneration state.generation
  if state.openUntil.isSome then
    { state with
      generation
      openUntil := extendOpenUntil setting state.openUntil now setting.policy.routeOpenCooldown }
  else
    let failureTimes := pushFailure setting state.failureTimes now
    { state with
      generation
      failureTimes
      openUntil := if failureThreshold setting ≤ failureTimes.length then
          extendOpenUntil setting state.openUntil now setting.policy.routeOpenCooldown
        else none }

def applyRouteSuccess (state : RouteHealthState) : RouteHealthState :=
  if state.openUntil.isSome then state
  else
    { state with
      generation := if state.failureTimes.isEmpty then state.generation
        else advanceGeneration state.generation
      failureTimes := [] }

def capacityCooldown (retryAfter : Option ℕ) : ℕ :=
  min (max (retryAfter.getD setting.policy.minimumCapacityCooldown)
    setting.policy.minimumCapacityCooldown) setting.policy.maxCapacityCooldown

def applyCapacityRejection (retryAfter : Option ℕ) (now : ℕ) (state : GateState) : GateState :=
  { state with
    generation := advanceGeneration state.generation
    openUntil := extendOpenUntil setting state.openUntil now (capacityCooldown setting retryAfter) }

def applyMutation (inner : Inner R) (route : R) (mutation : Mutation R) (now : ℕ) : Inner R :=
  match mutation with
  | .completed => inner.modifyRoute setting route applyRouteSuccess
  | .capacity pool retryAfter =>
    inner.modifyCapacity setting pool (applyCapacityRejection setting retryAfter now)
  | .routeFailure => inner.modifyRoute setting route (applyRouteFailure setting now)
  | .none => inner

def snapshot (inner : Inner R) (route : R) (now : ℕ) : Option ShadowRouteSnapshot :=
  if route ∈ setting.routes then
    let routeHealth := routeHealthDisposition (inner.routeHealth route)
      setting.policy.routeFailureWindow setting.policy.minimumCapacityCooldown now
    let capacity := capacityDisposition (inner.capacity route)
      setting.policy.minimumCapacityCooldown now
    some ⟨routeHealth, capacity, capacity, strongestDisposition [routeHealth, capacity]⟩
  else none

def classifyFailure (route : R) (failure : AttemptFailure) :
    ShadowSignal × Option R × Mutation R :=
  let neutral := (ShadowSignal.neutral failure.kind failure.status, none, Mutation.none)
  let routeFailure :=
    (ShadowSignal.routeFailure failure.kind failure.status, none, Mutation.routeFailure)
  if failure.kind = .capacityRejected then
    match failure.status with
    | some status =>
      if status = 429 ∨ status = 503 ∨ status = 529 then
        (.capacityRejected status, some route, .capacity route failure.retryAfter)
      else neutral
    | none => neutral
  else if failure.kind = .httpStatus then
    if !failure.isProxyContextOverflow &&
        failure.status.any (fun status => decide (500 ≤ status) && decide (status ≤ 599)) then
      routeFailure
    else neutral
  else if isRouteHealthFailure failure.kind then routeFailure
  else neutral

def classify : AttemptTerminal R → ShadowSignal × Option R × Mutation R
  | .completed _ => (.completed, none, .completed)
  | .failed route failure => classifyFailure route failure

/-- What an observation that owns the claims of a probe does to the gates. -/
def resolveObserved (inner : Inner R) (route : R) (mutation : Mutation R) (leaseId : ℕ)
    (claims : List (ProbeGateClaim R)) (now : ℕ) : Inner R :=
  match mutation with
  | .completed =>
    (resolveProbeSuccess setting inner leaseId claims).modifyRoute setting route applyRouteSuccess
  | .none => releaseProbeClaims setting inner leaseId claims
  | mutation => releaseProbeClaims setting (applyMutation setting inner route mutation now)
      leaseId claims

/-- The last component says whether the claims of the lease were taken. -/
def observeTerminal (inner : Inner R) (terminal : AttemptTerminal R) (mode : ShadowObservationMode)
    (probe : Option (ProbeLease R)) (now : ℕ) : ShadowObservationReport R × Inner R × Bool :=
  let route := terminal.route
  if route ∉ setting.routes then (⟨mode, route, .unknownRoute, none, none, false⟩, inner, false)
  else
    let (signal, capacityPool, mutation) := classify terminal
    let report (after : Inner R) (mutated : Bool) : ShadowObservationReport R :=
      ⟨mode, route, signal, capacityPool, snapshot setting after route now, mutated⟩
    if mode = .telemetryOnly then (report inner false, inner, false)
    else
      match probe.filter (fun lease => lease.route = route) with
      | some lease =>
        let after := resolveObserved setting inner route mutation lease.leaseId lease.claims now
        (report after true, after, true)
      | none =>
        let after := applyMutation setting inner route mutation now
        (report after (decide (mutation ≠ .none)), after, false)

structure GateScan (R : Type) where
  expired : List (ProbeGateKey R)
  openRemaining : Option ℕ
  probeInFlight : Bool

def scanGates (inner : Inner R) (now : ℕ) : List (ProbeGateKey R) → GateScan R → Option (GateScan R)
  | [], scan => some scan
  | gate::gates, scan =>
    match probeGateStatus setting inner gate now with
    | none => none
    | some .healthy => scanGates inner now gates scan
    | some .expiredOpen => scanGates inner now gates { scan with expired := scan.expired++[gate] }
    | some (.stillOpen remaining) => scanGates inner now gates
        { scan with openRemaining := some (scan.openRemaining.elim remaining (max · remaining)) }
    | some .probeInFlight => scanGates inner now gates { scan with probeInFlight := true }

def claimGates (leaseId : ℕ) : List (ProbeGateKey R) → Inner R →
    Option (List (ProbeGateClaim R) × Inner R)
  | [], inner => some ([], inner)
  | gate::gates, inner =>
    match claimProbeGate setting inner gate leaseId with
    | none => none
    | some (generation, after) =>
      (claimGates leaseId gates after).map (fun rest => (⟨gate, generation⟩::rest.1, rest.2))

/-- No result would be an endless search for a lease id, or the panic of a validated gate
that cannot be claimed. -/
def tryClaimProbe (inner : Inner R) (route : R) (now : ℕ) :
    Option (ProbeClaimResult R × Inner R) :=
  let minimum := setting.policy.minimumCapacityCooldown
  match scanGates setting inner now [.routeHealth route, .capacity route] ⟨[], none, false⟩ with
  | none => some (.rejected .unknownRoute minimum, inner)
  | some scan =>
    if scan.probeInFlight then
      some (.rejected .probeInFlight (max (scan.openRemaining.getD minimum) minimum), inner)
    else
      match scan.openRemaining with
      | some retryAfter => some (.rejected .circuitOpen retryAfter, inner)
      | none =>
        if scan.expired.isEmpty then some (.ready none, inner)
        else
          match nextProbeLeaseId setting inner with
          | none => none
          | some (leaseId, next) =>
            (claimGates setting leaseId scan.expired next).map
              (fun claimed => (.ready (some ⟨route, leaseId, claimed.1, false⟩), claimed.2))

end Observation

inductive Event (R : Type) where
  | claim (route : R) (now : ℕ)
  | observe (terminal : AttemptTerminal R) (mode : ShadowObservationMode) (now : ℕ)
  | observeWithProbe (terminal : AttemptTerminal R) (mode : ShadowObservationMode) (lease now : ℕ)
  | dropLease (lease : ℕ)

structure System (R : Type) where
  inner : Inner R
  leases : List (ProbeLease R)
  clock : ℕ

section Machine
variable {R : Type} [DecidableEq R] (setting : Setting R)

def System.new (R : Type) : System R := ⟨Inner.new R, [], 0⟩

def claimed (leases : List (ProbeLease R)) : ProbeClaimResult R → List (ProbeLease R)
  | .ready (some lease) => leases++[lease]
  | .ready none => leases
  | .rejected _ _ => leases

/-- The claims of a lease are taken under the lock of the observation; a lease that keeps
its claims is dropped after the lock is given back, in a step of its own. -/
def step (system : System R) : Event R → Option (System R)
  | .claim route now =>
    if system.clock ≤ now then
      (tryClaimProbe setting system.inner route now).map
        (fun result => ⟨result.2, claimed system.leases result.1, now⟩)
    else none
  | .observe terminal mode now =>
    if system.clock ≤ now then
      some ⟨(observeTerminal setting system.inner terminal mode none now).2.1, system.leases, now⟩
    else none
  | .observeWithProbe terminal mode index now =>
    match system.leases[index]? with
    | none => none
    | some lease =>
      if system.clock ≤ now ∧ lease.returning = false then
        let result := observeTerminal setting system.inner terminal mode (some lease) now
        some ⟨result.2.1,
          if result.2.2 then system.leases.eraseIdx index
          else system.leases.set index { lease with returning := true }, now⟩
      else none
  | .dropLease index =>
    match system.leases[index]? with
    | none => none
    | some lease =>
      some ⟨releaseProbeClaims setting system.inner lease.leaseId lease.claims,
        system.leases.eraseIdx index, system.clock⟩

end Machine

end Maple.Health

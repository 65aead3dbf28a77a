import Maple.Inference.Agreement
import Maple.Inference.Planning

/-!
# Health-aware route selection

An attempt filters the configured routes of a model by one health snapshot and lets the
planner choose among the providers that are left. If the chosen proxy is gone by then, the
route is excluded and the next attempt begins.
-/

set_option autoImplicit false

namespace Maple.Routing

open Health List

structure ProxyConfig where
  baseUrl : String
  apiKey : Option String
  providerName : String
  deriving DecidableEq, Repr

structure ProxyRouter where
  defaultProxy : ProxyConfig
  tinfoilProxy : ProxyConfig
  mapleProxies : MapleInstanceId → Option ProxyConfig

/-- The proxy of a provider, given which Maple instances are ready at that time. -/
def proxyForProvider (proxies : ProxyRouter) (ready : MapleInstanceId → Bool) :
    ProviderId → Option ProxyConfig
  | .tinfoil => some proxies.tinfoilProxy
  | .continuum =>
    if proxies.defaultProxy.providerName = ProviderId.continuum.asStr
      then some proxies.defaultProxy else none
  | .maple instanceId => (proxies.mapleProxies instanceId).filter (fun _ => ready instanceId)

structure SelectedProviderRoute where
  identity : RouteIdentity
  proxy : ProxyConfig
  deriving DecidableEq, Repr

inductive ProviderRoutingError where
  | unsupportedModel (model : String)
  | noEligibleRoute (model : String)
  | capacityUnavailable (model : String) (retryAfter : ℕ)
  deriving DecidableEq, Repr

structure StickyRoute where
  publicModelId : String
  provider : ProviderId
  providerModelId : String
  deriving DecidableEq, Repr

def rememberedProviderFor (sticky : Option StickyRoute) (intent : InferenceIntent) :
    Option ProviderId :=
  (sticky.filter (fun route => route.publicModelId = intent.publicModelId)).map
    StickyRoute.provider

/-- The longest time between two instants, whose seconds are signed 64-bit numbers. -/
def longest : ℕ := seconds (2^64-1)

/-- What one attempt reads from the parts that change while it runs. -/
structure Reading where
  inner : Inner RouteKey
  now : ℕ
  instants : ∀ gate deadline, (inner.gate gate).openUntil = some deadline → deadline-now ≤ longest
  readyAtFilter : MapleInstanceId → Bool
  readyAtSelection : MapleInstanceId → Bool
  sticky : Option StickyRoute

/-- The health state covers every completion route of the registry. -/
structure ProviderRouter where
  registry : ProviderRegistry
  health : Setting RouteKey
  policy : health.policy = .default
  covers : ∀ model ∈ registry.completionModels, ∀ route ∈ model.routes,
    route.key ∈ health.routes

def ceilRetryAfter (duration : ℕ) : ℕ :=
  let whole := duration/seconds 1
  let part := if duration%seconds 1 > 0 then 1 else 0
  seconds (max (min (whole+part) (wordSize-1)) 1)

def minCapacityCooldown : ℕ := seconds 30

/-- The providers found so far, and the earliest recovery of the others. -/
def noteRoute (found : ConfiguredProviders × Option ℕ) (provider : ProviderId) :
    ShadowDisposition → ConfiguredProviders × Option ℕ
  | .wouldOpen remaining =>
    (found.1, some (found.2.elim (ceilRetryAfter remaining) (min · (ceilRetryAfter remaining))))
  | .probeInFlight retryAfter =>
    (found.1, some (found.2.elim (ceilRetryAfter retryAfter) (min · (ceilRetryAfter retryAfter))))
  | _ => (found.1.withProvider provider, found.2)

def availableProvidersForModel (configuredRoutes : List (ProviderId × RouteKey))
    (snapshots : List ShadowRouteSnapshot) : Except ℕ ConfiguredProviders :=
  let found := (configuredRoutes.zip snapshots).foldl
    (fun found entry => noteRoute found entry.1.1 entry.2.effective) (.none, none)
  if found.1 = .none then .error (found.2.getD minCapacityCooldown) else .ok found.1

def providerRoutingErrorFromPlan : RoutePlanningError → ProviderRoutingError
  | .unsupportedModel model => .unsupportedModel model
  | .noEligibleRoute model => .noEligibleRoute model

section Selection
variable (router : ProviderRouter) (proxies : ProxyRouter)

def configuredRouteKeys (reading : Reading) (model : CompletionModelSpec)
    (excludedRoutes : List RouteKey) : List (ProviderId × RouteKey) :=
  model.routes.filterMap (fun route =>
    if enabledRoute router.registry route &&
        (proxyForProvider proxies reading.readyAtFilter route.provider).isSome &&
        !excludedRoutes.contains route.key
      then some (route.provider, route.key) else none)

def snapshotRoutes (reading : Reading) (routes : List RouteKey) :
    Option (List ShadowRouteSnapshot) :=
  routes.mapM (fun route => snapshot router.health reading.inner route reading.now)

/-- One attempt: a result, or the route whose proxy was gone when it was chosen. -/
inductive Attempted where
  | done (result : Except ProviderRoutingError SelectedProviderRoute)
  | lost (route : RouteKey)

def attempt (intent : InferenceIntent) (reading : Reading) (excludedRoutes : List RouteKey) :
    Attempted :=
  match router.registry.completionModel intent.publicModelId with
  | none => .done (.error (.unsupportedModel intent.publicModelId))
  | some model =>
    let configuredRoutes := configuredRouteKeys router proxies reading model excludedRoutes
    if configuredRoutes = [] then .done (.error (.noEligibleRoute intent.publicModelId))
    else
      match snapshotRoutes router reading (configuredRoutes.map Prod.snd) with
      | none => .done (.error (.capacityUnavailable intent.publicModelId minCapacityCooldown))
      | some snapshots =>
        match availableProvidersForModel configuredRoutes snapshots with
        | .error retryAfter =>
          .done (.error (.capacityUnavailable intent.publicModelId retryAfter))
        | .ok available =>
          match planCompletionRoute router.registry intent available
              (rememberedProviderFor reading.sticky intent) with
          | .error error => .done (.error (providerRoutingErrorFromPlan error))
          | .ok plan =>
            match proxyForProvider proxies reading.readyAtSelection plan.selected.provider with
            | none => .lost plan.selected.routeKey
            | some proxy => .done (.ok ⟨plan.selected, proxy⟩)

/-- The recursion, with the number of the attempt and fuel for the attempts that may follow. -/
def selectHealthAwareRoute (intent : InferenceIntent) (readings : ℕ → Reading) :
    ℕ → ℕ → List RouteKey → Option (Except ProviderRoutingError SelectedProviderRoute)
  | 0, _, _ => none
  | fuel+1, number, excludedRoutes =>
    match attempt router proxies intent (readings number) excludedRoutes with
    | .done result => some result
    | .lost route =>
      selectHealthAwareRoute intent readings fuel (number+1) (route::excludedRoutes)

end Selection

section Hints

/-- The time after which an unavailable route is to be tried again. -/
def remaining : ShadowDisposition → Option ℕ
  | .wouldOpen remaining => some remaining
  | .probeInFlight retryAfter => some retryAfter
  | _ => none

def roundedUp (duration : ℕ) : ℕ := seconds ((duration+(seconds 1-1))/seconds 1)

theorem ceil_rounds {duration : ℕ} (hpos : 0 < duration) (hshort : duration ≤ longest) :
    ceilRetryAfter duration = roundedUp duration := by
  have hone : seconds 1 = 1000000000 := rfl
  have hlong : longest = (2^64-1)*1000000000 := rfl
  unfold ceilRetryAfter roundedUp
  simp only [hone, wordSize]
  rw [hlong] at hshort
  congr 1
  split <;> omega

def Timely (disposition : ShadowDisposition) : Prop :=
  ∀ time, remaining disposition = some time → 0 < time ∧ time ≤ longest

theorem timely_max {a b : ℕ} (ha : 0 < a ∧ a ≤ longest) (hb : 0 < b ∧ b ≤ longest) :
    0 < max a b ∧ max a b ≤ longest := by omega

theorem timely_stronger (left : ShadowDisposition) {right : ShadowDisposition} (hleft : Timely left)
    (hright : Timely right) : Timely (strongerDisposition left right) := by
  intro time htime
  cases left <;> cases right <;> simp only [strongerDisposition, remaining, Option.some.injEq,
    reduceCtorEq] at htime
  all_goals subst htime
  all_goals first
    | exact hleft _ rfl
    | exact hright _ rfl
    | exact timely_max (hleft _ rfl) (hright _ rfl)
    | exact timely_max (hright _ rfl) (hleft _ rfl)

theorem timely_disposed {minimum now : ℕ} {calm : ShadowDisposition} {state : GateState}
    (hcalm : isCalm calm = true) (hminimum : 0 < minimum ∧ minimum ≤ longest)
    (hstate : ∀ deadline, state.openUntil = some deadline → deadline-now ≤ longest) :
    Timely (disposed minimum now calm state) := by
  intro time htime
  unfold disposed at htime
  split at htime
  · cases htime
    exact hminimum
  split at htime
  · rename_i deadline hopen
    split at htime
    · cases htime
      exact ⟨by omega,hstate deadline hopen⟩
    · cases htime
  · rcases calm_cases hcalm with rfl | ⟨count,rfl⟩ <;> cases htime

variable (router : ProviderRouter) (reading : Reading)

/-- Times in a snapshot are positive: a deadline that has come is not an open gate. -/
theorem timely_snapshot {route : RouteKey} {shown : ShadowRouteSnapshot}
    (h : snapshot router.health reading.inner route reading.now = some shown) :
    Timely shown.effective := by
  have hminimum : 0 < router.health.policy.minimumCapacityCooldown ∧
      router.health.policy.minimumCapacityCooldown ≤ longest := by
    rw [router.policy]
    decide
  have hgate : ∀ gate, Timely (gateDisposition router.health reading.inner reading.now gate) := by
    intro gate
    obtain ⟨calm,hcalm,hdisposed⟩ := gate_disposed router.health reading.inner reading.now gate
    rw [hdisposed]
    exact timely_disposed hcalm hminimum (reading.instants gate)
  unfold snapshot at h
  split_ifs at h
  cases h
  exact timely_stronger _ (timely_stronger _ nofun (hgate (.routeHealth route)))
    (hgate (.capacity route))

end Hints

section Scans

theorem note_cases (found : ConfiguredProviders × Option ℕ) (provider : ProviderId)
    {disposition : ShadowDisposition} (htimely : Timely disposition) :
    (remaining disposition = none ∧
      noteRoute found provider disposition = (found.1.withProvider provider, found.2)) ∨
    ∃ time, remaining disposition = some time ∧ noteRoute found provider disposition =
      (found.1, some (found.2.elim (roundedUp time) (min · (roundedUp time)))) := by
  cases disposition with
  | wouldOpen time =>
    obtain ⟨hpos,hshort⟩ := htimely time rfl
    exact .inr ⟨time,rfl,by simp only [noteRoute, ceil_rounds hpos hshort]⟩
  | probeInFlight time =>
    obtain ⟨hpos,hshort⟩ := htimely time rfl
    exact .inr ⟨time,rfl,by simp only [noteRoute, ceil_rounds hpos hshort]⟩
  | _ => exact .inl ⟨rfl,rfl⟩

def noted (entries : List (ProviderId × ShadowDisposition))
    (found : ConfiguredProviders × Option ℕ) : ConfiguredProviders × Option ℕ :=
  entries.foldl (fun found entry => noteRoute found entry.1 entry.2) found

variable {entries : List (ProviderId × ShadowDisposition)}

theorem noted_contains
    (found : ConfiguredProviders × Option ℕ) (htimely : ∀ entry ∈ entries, Timely entry.2)
    (id : ProviderId) : (noted entries found).1.contains id = true ↔ found.1.contains id = true ∨
      ∃ entry ∈ entries, entry.1 = id ∧ remaining entry.2 = none := by
  induction entries generalizing found with
  | nil => simp [noted]
  | cons entry entries ih =>
    have hrest := ih (noteRoute found entry.1 entry.2)
      (fun later hmem => htimely later (mem_cons_of_mem entry hmem))
    refine hrest.trans ?_
    rcases note_cases found entry.1 (htimely entry mem_cons_self) with
      ⟨hnone,hnote⟩ | ⟨time,htime,hnote⟩
    · rw [hnote, contains_with, Bool.or_eq_true, decide_eq_true_eq]
      simp only [mem_cons, exists_eq_or_imp, hnone, and_true]
      rw [eq_comm, or_assoc, or_left_comm]
    · rw [hnote]
      simp [htime]

theorem min_noted (earliest : Option ℕ) (time : ℕ) (later : List ℕ) :
    ((some (earliest.elim time (min · time))).toList++later).min? =
      (earliest.toList++time::later).min? := by
  cases earliest <;> rfl

theorem noted_earliest
    (found : ConfiguredProviders × Option ℕ) (htimely : ∀ entry ∈ entries, Timely entry.2) :
    (noted entries found).2 = (found.2.toList++
      entries.filterMap (fun entry => (remaining entry.2).map roundedUp)).min? := by
  induction entries generalizing found with
  | nil =>
    obtain ⟨providers,earliest⟩ := found
    cases earliest <;> rfl
  | cons entry entries ih =>
    have hrest := ih (noteRoute found entry.1 entry.2)
      (fun later hmem => htimely later (mem_cons_of_mem entry hmem))
    have hstep : noted (entry::entries) found =
        noted entries (noteRoute found entry.1 entry.2) := foldl_cons ..
    rw [hstep, hrest]
    rcases note_cases found entry.1 (htimely entry mem_cons_self) with
      ⟨hnone,hnote⟩ | ⟨time,htime,hnote⟩
    · rw [hnote]
      simp only [filterMap_cons, hnone, Option.map_none]
    · rw [hnote]
      simp only [filterMap_cons, htime, Option.map_some]
      exact min_noted found.2 (roundedUp time) _

end Scans

section Attempts
variable (router : ProviderRouter) (proxies : ProxyRouter) (reading : Reading)

def isConfigured (excluded : List RouteKey) (route : ModelRouteSpec) : Bool :=
  enabledRoute router.registry route &&
    (proxyForProvider proxies reading.readyAtFilter route.provider).isSome &&
    !excluded.contains route.key

def shown (route : ModelRouteSpec) : Option ShadowDisposition :=
  (snapshot router.health reading.inner route.key reading.now).map ShadowRouteSnapshot.effective

def routesOf (intent : InferenceIntent) : List ModelRouteSpec :=
  ((router.registry.completionModel intent.publicModelId).map CompletionModelSpec.routes).getD []

/-- A route that a new request may take: it is healthy, watched or due for a probe. -/
def Serves (excluded : List RouteKey) (route : ModelRouteSpec) : Prop :=
  isConfigured router proxies reading excluded route = true ∧
    ∃ disposition, shown router reading route = some disposition ∧ remaining disposition = none

variable {intent : InferenceIntent} {model : CompletionModelSpec}

theorem snapshot_known (hmodel : router.registry.completionModel intent.publicModelId = some model)
    {route : ModelRouteSpec} (hroute : route ∈ model.routes) :
    ∃ found, snapshot router.health reading.inner route.key reading.now = some found := by
  have hknown := router.covers model (List.mem_of_find?_eq_some hmodel) route hroute
  exact ⟨_,if_pos hknown⟩

theorem configured_keys (model : CompletionModelSpec) (excluded : List RouteKey) :
    configuredRouteKeys router proxies reading model excluded =
      (model.routes.filter (isConfigured router proxies reading excluded)).map
        (fun route => (route.provider, route.key)) := by
  rw [configuredRouteKeys, ← filterMap_eq_map, filterMap_filter]
  rfl

variable {routes : List ModelRouteSpec}

/-- Every route is known to the health state, so the snapshot answers for all of them. -/
theorem snapshots_answer
    (h : ∀ route ∈ routes, ∃ found, snapshot router.health reading.inner route.key reading.now =
      some found) :
    ∃ snapshots, snapshotRoutes router reading (routes.map ModelRouteSpec.key) = some snapshots ∧
      snapshots.map (fun found => some found.effective) = routes.map (shown router reading) := by
  induction routes with
  | nil => exact ⟨[],rfl,rfl⟩
  | cons route routes ih =>
    obtain ⟨found,hfound⟩ := h route mem_cons_self
    obtain ⟨snapshots,hsnapshots,hshown⟩ :=
      ih (fun later hmem => h later (mem_cons_of_mem route hmem))
    refine ⟨found::snapshots,?_,?_⟩
    · rw [snapshotRoutes] at hsnapshots ⊢
      rw [map_cons, mapM_cons, hfound, hsnapshots]
      rfl
    · rw [map_cons, map_cons, hshown, shown, hfound]
      rfl

/-- A stand-in is never read: every configured route has a disposition. -/
def dispositionOf (route : ModelRouteSpec) : ShadowDisposition :=
  (shown router reading route).getD .healthy

theorem zip_noted (snapshots : List ShadowRouteSnapshot)
    (h : snapshots.map (fun found => some found.effective) = routes.map (shown router reading))
    (found : ConfiguredProviders × Option ℕ) :
    ((routes.map (fun route => (route.provider, route.key))).zip snapshots).foldl
        (fun found entry => noteRoute found entry.1.1 entry.2.effective) found =
      noted (routes.map (fun route => (route.provider, dispositionOf router reading route)))
        found := by
  induction routes generalizing snapshots found with
  | nil => rfl
  | cons route routes ih =>
    cases snapshots with
    | nil => cases h
    | cons first snapshots =>
      rw [map_cons, map_cons, List.cons.injEq] at h
      have hdisposition : dispositionOf router reading route = first.effective := by
        rw [dispositionOf, ← h.1]
        rfl
      simp only [map_cons, zip_cons_cons, foldl_cons, noted, hdisposition]
      exact ih snapshots h.2 _

/-- The earliest recovery of the configured routes, in whole seconds. -/
def earliestRecovery (excluded : List RouteKey) (routes : List ModelRouteSpec) : Option ℕ :=
  ((routes.filter (isConfigured router proxies reading excluded)).filterMap (fun route =>
    ((shown router reading route).bind remaining).map roundedUp)).min?

def retryHint : ProviderRoutingError → Option ℕ
  | .capacityUnavailable _ retryAfter => some retryAfter
  | _ => none

def Sound (intent : InferenceIntent) (excluded : List RouteKey) : Attempted → Prop
  | .lost key => ∃ route ∈ routesOf router intent, key = route.key ∧
      Serves router proxies reading excluded route ∧
      proxyForProvider proxies reading.readyAtSelection route.provider = none
  | .done (.ok selected) => ∃ route ∈ routesOf router intent,
      Serves router proxies reading excluded route ∧
      Names intent.publicModelId route selected.identity ∧
      proxyForProvider proxies reading.readyAtSelection route.provider = some selected.proxy
  | .done (.error error) =>
      (∀ route ∈ routesOf router intent, ¬Serves router proxies reading excluded route) ∧
        retryHint error =
          earliestRecovery router proxies reading excluded (routesOf router intent)

variable {router}

/-- The providers found are those of the routes that serve. -/
theorem available_spec (hmodel : router.registry.completionModel intent.publicModelId = some model)
    (excluded : List RouteKey) : ∃ snapshots found, snapshotRoutes router reading
        ((configuredRouteKeys router proxies reading model excluded).map Prod.snd) =
          some snapshots ∧
      availableProvidersForModel (configuredRouteKeys router proxies reading model excluded)
        snapshots = (if found = .none then .error ((earliestRecovery router proxies reading
          excluded model.routes).getD minCapacityCooldown) else .ok found) ∧
      ∀ id, found.contains id = true ↔
        ∃ route ∈ model.routes, Serves router proxies reading excluded route ∧
          route.provider = id := by
  let configured := model.routes.filter (isConfigured router proxies reading excluded)
  have hknown : ∀ route ∈ configured, ∃ found,
      snapshot router.health reading.inner route.key reading.now = some found :=
    fun route hmem => snapshot_known router reading hmodel (mem_of_mem_filter hmem)
  have hdisposition : ∀ route ∈ configured,
      shown router reading route = some (dispositionOf router reading route) := by
    intro route hmem
    obtain ⟨found,hfound⟩ := hknown route hmem
    rw [dispositionOf, shown, hfound]
    rfl
  have htimely : ∀ entry ∈ configured.map (fun route =>
      (route.provider, dispositionOf router reading route)), Timely entry.2 := by
    intro entry hentry
    obtain ⟨route,hroute,rfl⟩ := mem_map.mp hentry
    obtain ⟨found,hfound⟩ := hknown route hroute
    have heffective : dispositionOf router reading route = found.effective := by
      rw [dispositionOf, shown, hfound]
      rfl
    rw [heffective]
    exact timely_snapshot router reading hfound
  obtain ⟨snapshots,hsnapshots,hshown⟩ := snapshots_answer router reading hknown
  have hearliest : (noted (configured.map (fun route =>
      (route.provider, dispositionOf router reading route))) (.none, none)).2 =
        earliestRecovery router proxies reading excluded model.routes := by
    rw [noted_earliest _ htimely, earliestRecovery, Option.toList_none, nil_append, filterMap_map]
    congr 1
    apply filterMap_congr
    intro route hmem
    rw [hdisposition route hmem]
    rfl
  refine ⟨snapshots,(noted (configured.map (fun route =>
    (route.provider, dispositionOf router reading route))) (.none, none)).1,?_,?_,?_⟩
  · rw [configured_keys, map_map]
    exact hsnapshots
  · rw [configured_keys, availableProvidersForModel, zip_noted router reading snapshots hshown,
      ← hearliest]
  intro id
  rw [noted_contains _ htimely, contains_none]
  constructor
  · rintro (hfalse | ⟨entry,hentry,hid,hfree⟩)
    · cases hfalse
    · obtain ⟨route,hroute,rfl⟩ := mem_map.mp hentry
      obtain ⟨hmem,hconfigured⟩ := mem_filter.mp hroute
      exact ⟨route,hmem,⟨hconfigured,_,hdisposition route hroute,hfree⟩,hid⟩
  · rintro ⟨route,hmem,⟨hconfigured,disposition,hshow,hfree⟩,hid⟩
    have hroute : route ∈ configured := mem_filter.mpr ⟨hmem,hconfigured⟩
    rw [hdisposition route hroute] at hshow
    cases hshow
    exact .inr ⟨_,mem_map_of_mem hroute,hid,hfree⟩

variable {excluded : List RouteKey}

/-- Where no configured route serves, each has a time to wait for. -/
theorem recovery_known (hmodel : router.registry.completionModel intent.publicModelId = some model)
    (hsome : configuredRouteKeys router proxies reading model excluded ≠ [])
    (hidle : ∀ route ∈ model.routes, ¬Serves router proxies reading excluded route) :
    ∃ time, earliestRecovery router proxies reading excluded model.routes = some time := by
  rw [configured_keys, ne_eq, map_eq_nil_iff] at hsome
  obtain ⟨route,hroute⟩ := exists_mem_of_ne_nil _ hsome
  obtain ⟨hmem,hconfigured⟩ := mem_filter.mp hroute
  obtain ⟨found,hfound⟩ := snapshot_known router reading hmodel hmem
  have hshow : shown router reading route = some found.effective := by
    rw [shown, hfound]
    rfl
  rw [earliestRecovery]
  cases hleast : ((model.routes.filter (isConfigured router proxies reading excluded)).filterMap
      (fun route => ((shown router reading route).bind remaining).map roundedUp)).min? with
  | some time => exact ⟨time,rfl⟩
  | none =>
    rw [List.min?_eq_none_iff, filterMap_eq_nil_iff] at hleast
    have hwait := hleast route hroute
    rw [hshow, Option.bind_some, Option.map_eq_none_iff] at hwait
    exact absurd ⟨hconfigured,_,hshow,hwait⟩ (hidle route hmem)

/-- With one route a provider, the planner's choice of a provider is one of a route. -/
theorem eligible_serves
    (hdistinct : (model.routes.map ModelRouteSpec.provider).Nodup) {found : ConfiguredProviders}
    (hcontains : ∀ id, found.contains id = true ↔ ∃ route ∈ model.routes,
      Serves router proxies reading excluded route ∧ route.provider = id)
    (route : ModelRouteSpec) (hmem : route ∈ model.routes) :
    Eligible router.registry found route ↔ Serves router proxies reading excluded route := by
  constructor
  · rintro ⟨_,hin⟩
    obtain ⟨other,hother,hserves,hprovider⟩ := (hcontains route.provider).mp hin
    obtain rfl : other = route := inj_on_of_nodup_map hdistinct hother hmem hprovider
    exact hserves
  intro hserves
  have henabled : enabledRoute router.registry route = true := by
    have hconfigured := hserves.1
    simp only [isConfigured, Bool.and_eq_true] at hconfigured
    exact hconfigured.1.1
  exact ⟨henabled,(hcontains route.provider).mpr ⟨route,hmem,hserves,rfl⟩⟩

theorem attempt_sound (excluded : List RouteKey)
    (hdistinct : ((routesOf router intent).map ModelRouteSpec.provider).Nodup)
    (hweigh : Weighable router.registry (routesOf router intent)) :
    Sound router proxies reading intent excluded
      (attempt router proxies intent reading excluded) := by
  cases hmodel : router.registry.completionModel intent.publicModelId with
  | none =>
    have hroutes : routesOf router intent = [] := by
      rw [routesOf, hmodel]
      rfl
    simp only [attempt, hmodel, Sound, hroutes]
    exact ⟨nofun,rfl⟩
  | some model =>
    have hroutes : routesOf router intent = model.routes := by
      rw [routesOf, hmodel]
      rfl
    have hname : model.publicModelId = intent.publicModelId := by
      simpa using List.find?_some hmodel
    rw [hroutes] at hdistinct hweigh
    obtain ⟨snapshots,found,hsnapshots,havailable,hcontains⟩ :=
      available_spec proxies reading hmodel excluded
    have hserves := eligible_serves proxies reading hdistinct hcontains
    simp only [attempt, hmodel]
    split
    · rename_i hempty
      rw [configured_keys, map_eq_nil_iff] at hempty
      simp only [Sound, hroutes, earliestRecovery, hempty]
      refine ⟨fun route hmem hroute => ?_,rfl⟩
      exact filter_eq_nil_iff.mp hempty route hmem hroute.1
    · rename_i hsome
      rw [hsnapshots]
      dsimp only
      rw [havailable]
      by_cases hnone : found = .none
      · have hidle : ∀ route ∈ model.routes, ¬Serves router proxies reading excluded route := by
          intro route hmem hroute
          have hin := (hcontains route.provider).mpr ⟨route,hmem,hroute,rfl⟩
          rw [hnone, contains_none] at hin
          cases hin
        obtain ⟨time,htime⟩ :=
          recovery_known proxies reading hmodel hsome hidle
        rw [if_pos hnone, htime]
        simp only [Sound, hroutes]
        exact ⟨hidle,htime.symm⟩
      · rw [if_neg hnone]
        dsimp only
        rcases plan_cases router.registry found
          (rememberedProviderFor reading.sticky intent) hmodel hweigh with
          ⟨plan,hplan,route,hmem,heligible,hnames⟩ | ⟨hnobody,_⟩
        · have hroute := (hserves route hmem).mp heligible
          rw [hplan]
          dsimp only
          rw [hnames.1]
          cases hproxy : proxyForProvider proxies reading.readyAtSelection route.provider with
          | none =>
            simp only [Sound, hroutes]
            refine ⟨route,hmem,?_,hroute,hproxy⟩
            rw [RouteIdentity.routeKey, ModelRouteSpec.key, hnames.1, hnames.2.2.1]
          | some proxy =>
            simp only [Sound, hroutes]
            exact ⟨route,hmem,hroute,hname ▸ hnames,hproxy⟩
        · -- some provider was found, and its route is one the planner takes
          exfalso
          apply hnone
          rw [eq_none_iff]
          intro id
          rw [Bool.eq_false_iff]
          intro hin
          obtain ⟨route,hmem,hroute,_⟩ := (hcontains id).mp hin
          exact hnobody route hmem ((hserves route hmem).mpr hroute)

end Attempts

section Runs
variable (router : ProviderRouter) (proxies : ProxyRouter) (intent : InferenceIntent)
  (readings : ℕ → Reading)

/-- A whole selection from attempt `number` on: the routes lost on the way, in order, and the
result of the last attempt. -/
structure Course (number : ℕ) (excluded : List RouteKey) (lost : List RouteKey)
    (result : Except ProviderRoutingError SelectedProviderRoute) : Prop where
  runs : ∀ fuel, lost.length < fuel →
    selectHealthAwareRoute router proxies intent readings fuel number excluded = some result
  gone : ∀ step key, lost[step]? = some key →
    Sound router proxies (readings (number+step)) intent ((lost.take step).reverse++excluded)
      (.lost key)
  ends : Sound router proxies (readings (number+lost.length)) intent (lost.reverse++excluded)
    (.done result)

def openRoutes (excluded : List RouteKey) : ℕ :=
  (routesOf router intent).countP (fun route => !excluded.contains route.key)

variable {excluded : List RouteKey}

theorem open_routes_lost {reading : Reading} {key : RouteKey}
    (h : Sound router proxies reading intent excluded (.lost key)) :
    openRoutes router intent (key::excluded) < openRoutes router intent excluded := by
  obtain ⟨route,hmem,rfl,hserves,_⟩ := h
  have hconfigured := hserves.1
  simp only [isConfigured, Bool.and_eq_true] at hconfigured
  obtain ⟨before,after,hsplit⟩ := append_of_mem hmem
  have hmono : ∀ routes : List ModelRouteSpec,
      routes.countP (fun other => !(route.key::excluded).contains other.key) ≤
        routes.countP (fun other => !excluded.contains other.key) := by
    intro routes
    apply countP_mono_left
    intro other _ hopen
    simp only [contains_cons, Bool.not_or, Bool.and_eq_true] at hopen
    exact hopen.2
  have hbefore := hmono before
  have hafter := hmono after
  have hnow : (!excluded.contains route.key) = true := hconfigured.2
  have hthen : (!(route.key::excluded).contains route.key) = false := by simp
  simp only [openRoutes, hsplit, countP_append, countP_cons, hnow, hthen, if_true]
  rw [if_neg Bool.false_ne_true]
  omega

variable {result : Except ProviderRoutingError SelectedProviderRoute}

theorem course_last (number : ℕ)
    (hattempt : attempt router proxies intent (readings number) excluded = .done result)
    (hsound : Sound router proxies (readings number) intent excluded (.done result)) :
    Course router proxies intent readings number excluded [] result where
  runs fuel hfuel := by
    obtain ⟨more,rfl⟩ := Nat.exists_eq_succ_of_ne_zero (Nat.ne_of_gt hfuel)
    rw [selectHealthAwareRoute, hattempt]
  gone := nofun
  ends := hsound

theorem course_cons {number : ℕ} {lost : List RouteKey} {key : RouteKey}
    (hattempt : attempt router proxies intent (readings number) excluded = .lost key)
    (hsound : Sound router proxies (readings number) intent excluded (.lost key))
    (h : Course router proxies intent readings (number+1) (key::excluded) lost result) :
    Course router proxies intent readings number excluded (key::lost) result where
  runs fuel hfuel := by
    obtain ⟨more,rfl⟩ := Nat.exists_eq_succ_of_ne_zero (Nat.ne_of_gt (Nat.zero_lt_of_lt hfuel))
    rw [selectHealthAwareRoute, hattempt]
    exact h.runs more (Nat.lt_of_succ_lt_succ hfuel)
  gone step other hstep := by
    cases step with
    | zero =>
      cases hstep
      exact hsound
    | succ step =>
      have hlater := h.gone step other hstep
      rw [take_succ_cons, reverse_cons, append_assoc,
        show number+(step+1) = number+1+step by omega]
      exact hlater
  ends := by
    have hlast := h.ends
    rw [length_cons, reverse_cons, append_assoc,
      show number+(lost.length+1) = number+1+lost.length by omega]
    exact hlast

variable (hdistinct : ((routesOf router intent).map ModelRouteSpec.provider).Nodup)
  (hweigh : Weighable router.registry (routesOf router intent))
include hdistinct hweigh

/-- Each further attempt has one open route less. -/
theorem course_exists {bound : ℕ} (number : ℕ) (excluded : List RouteKey)
    (hbound : openRoutes router intent excluded ≤ bound) : ∃ lost result, lost.length ≤ bound ∧
      Course router proxies intent readings number excluded lost result := by
  induction bound generalizing number excluded with
  | zero =>
    have hsound := attempt_sound proxies (readings number) excluded hdistinct hweigh
    cases hattempt : attempt router proxies intent (readings number) excluded with
    | lost key =>
      rw [hattempt] at hsound
      have hless := open_routes_lost router proxies intent hsound
      omega
    | done result =>
      rw [hattempt] at hsound
      exact ⟨[],result,Nat.le_refl _,course_last router proxies intent readings number hattempt
        hsound⟩
  | succ bound ih =>
    have hsound := attempt_sound proxies (readings number) excluded hdistinct hweigh
    cases hattempt : attempt router proxies intent (readings number) excluded with
    | lost key =>
      rw [hattempt] at hsound
      have hless := open_routes_lost router proxies intent hsound
      obtain ⟨lost,result,hshort,hcourse⟩ := ih (number+1) (key::excluded) (by omega)
      exact ⟨key::lost,result,Nat.succ_le_succ hshort,
        course_cons router proxies intent readings hattempt hsound hcourse⟩
    | done result =>
      rw [hattempt] at hsound
      exact ⟨[],result,Nat.zero_le _,course_last router proxies intent readings number hattempt
        hsound⟩

end Runs

section Samples

def sampleProxy (name : String) : ProxyConfig := ⟨"http://"++name, none, name⟩

def sampleProxies : ProxyRouter :=
  ⟨sampleProxy "continuum", sampleProxy "tinfoil", fun _ => some (sampleProxy "maple")⟩

def sampleRoute (provider : ProviderId) (weight : UInt16) : ModelRouteSpec :=
  ⟨provider, "model", "model", weight, true⟩

def sampleRegistry (weight : UInt16) (providers : List ProviderId) : ProviderRegistry :=
  ⟨providers.map (fun id => ⟨id, weight, true⟩),
    [⟨"model", providers.map (fun id => sampleRoute id weight)⟩]⟩

def sampleKeys : List RouteKey :=
  [⟨.tinfoil, "model"⟩, ⟨.continuum, "model"⟩, ⟨.maple .i01, "model"⟩, ⟨.maple .i02, "model"⟩]

def sampleRouter (weight : UInt16) (providers : List ProviderId) : ProviderRouter where
  registry := sampleRegistry weight providers
  health := ⟨.default, sampleKeys, 0, by decide⟩
  policy := rfl
  covers model hmodel route hroute := by
    rw [List.mem_singleton.mp hmodel] at hroute
    obtain ⟨id,_,rfl⟩ := List.mem_map.mp hroute
    change (⟨id, "model"⟩ : RouteKey) ∈ sampleKeys
    rcases id with _ | _ | (_ | _) <;> simp [sampleKeys]

/-- Every gate is closed; the Maple instances may be gone when their proxy is fetched. -/
def sampleReading (readyAtSelection : Bool) : Reading where
  inner := .new RouteKey
  now := 0
  instants gate deadline hopen := by cases gate <;> cases hopen
  readyAtFilter _ := true
  readyAtSelection _ := readyAtSelection
  sticky := none

end Samples

end Maple.Routing

import Mathlib.Algebra.Order.BigOperators.Group.List
import Mathlib.Algebra.Order.Ring.Nat
import Mathlib.Data.List.Basic

/-!
# Completion route planning

The planner knows providers only by name. Among the enabled routes of a model whose
provider it was given it follows the account's bucket, or the remembered provider. Weights
are added in 32 bits, so it can also fail on routes whose weights wrap around to nothing.
-/

set_option autoImplicit false

namespace Maple.Routing

open List

inductive MapleInstanceId where
  | i01
  | i02
  deriving DecidableEq, Repr

inductive ProviderId where
  | tinfoil
  | continuum
  | maple (instanceId : MapleInstanceId)
  deriving DecidableEq, Repr

def ProviderId.asStr : ProviderId → String
  | .tinfoil => "tinfoil"
  | .continuum => "continuum"
  | .maple .i01 => "maple-i01"
  | .maple .i02 => "maple-i02"

def ProviderId.isMaple : ProviderId → Bool
  | .maple _ => true
  | _ => false

inductive RouteSelectionSource where
  | staticSplit
  | fallback
  | sticky
  deriving DecidableEq, Repr

structure ProviderSpec where
  id : ProviderId
  weight : UInt16
  enabled : Bool
  deriving DecidableEq, Repr

structure ModelRouteSpec where
  provider : ProviderId
  providerModelId : String
  responseModelId : String
  weight : UInt16
  enabled : Bool
  deriving DecidableEq, Repr

structure CompletionModelSpec where
  publicModelId : String
  routes : List ModelRouteSpec
  deriving DecidableEq, Repr

structure ProviderRegistry where
  providers : List ProviderSpec
  completionModels : List CompletionModelSpec
  deriving DecidableEq, Repr

def ProviderRegistry.provider (registry : ProviderRegistry) (id : ProviderId) :
    Option ProviderSpec :=
  registry.providers.find? (fun provider => provider.id = id)

def ProviderRegistry.completionModel (registry : ProviderRegistry) (publicModelId : String) :
    Option CompletionModelSpec :=
  registry.completionModels.find? (fun model => model.publicModelId = publicModelId)

structure RouteKey where
  provider : ProviderId
  providerModelId : String
  deriving DecidableEq, Repr

def ModelRouteSpec.key (route : ModelRouteSpec) : RouteKey :=
  ⟨route.provider, route.providerModelId⟩

structure RouteIdentity where
  provider : ProviderId
  publicModelId : String
  providerModelId : String
  responseModelId : String
  selectionSource : RouteSelectionSource
  bucket : Option ℕ
  deriving DecidableEq, Repr

def RouteIdentity.routeKey (identity : RouteIdentity) : RouteKey :=
  ⟨identity.provider, identity.providerModelId⟩

structure ConfiguredProviders where
  tinfoil : Bool
  continuum : Bool
  mapleI01 : Bool
  mapleI02 : Bool
  deriving DecidableEq, Repr

def ConfiguredProviders.none : ConfiguredProviders := ⟨false, false, false, false⟩

def ConfiguredProviders.withProvider (configured : ConfiguredProviders) :
    ProviderId → ConfiguredProviders
  | .tinfoil => { configured with tinfoil := true }
  | .continuum => { configured with continuum := true }
  | .maple .i01 => { configured with mapleI01 := true }
  | .maple .i02 => { configured with mapleI02 := true }

def ConfiguredProviders.contains (configured : ConfiguredProviders) : ProviderId → Bool
  | .tinfoil => configured.tinfoil
  | .continuum => configured.continuum
  | .maple .i01 => configured.mapleI01
  | .maple .i02 => configured.mapleI02

structure InferenceIntent where
  accountUuid : ℕ
  publicModelId : String
  deriving DecidableEq, Repr

structure RouteCandidate where
  provider : ProviderId
  publicModelId : String
  providerModelId : String
  responseModelId : String
  effectiveWeight : ℕ
  deriving DecidableEq, Repr

inductive PlanDecision where
  | fixedRoute
  | staticBucket
  | rememberedRoute
  deriving DecidableEq, Repr

structure RoutePlan where
  selected : RouteIdentity
  eligibleRoutes : List RouteCandidate
  decision : PlanDecision
  policyVersion : String
  deriving DecidableEq, Repr

inductive RoutePlanningError where
  | unsupportedModel (model : String)
  | noEligibleRoute (model : String)
  deriving DecidableEq, Repr

def u32Size : ℕ := 2^32

def walkBuckets (bucket totalWeight : ℕ) : ℕ → List RouteCandidate → Option RouteCandidate
  | _, [] => none
  | _, [route] => some route
  | cumulative, route::rest =>
    let span := (route.effectiveWeight*100%u32Size)/totalWeight
    let cumulative := min (cumulative+span) (u32Size-1)
    if bucket < cumulative then some route else walkBuckets bucket totalWeight cumulative rest

/-- Sums of 32-bit weights wrap. -/
def totalWeight (routes : List RouteCandidate) : ℕ :=
  (routes.map RouteCandidate.effectiveWeight).sum%u32Size

def selectWeightedRoute (bucket : ℕ) (routes : List RouteCandidate) : Option RouteCandidate :=
  if totalWeight routes = 0 then none else walkBuckets bucket (totalWeight routes) 0 routes

def stableAccountBucket (accountUuid : ℕ) : ℕ := accountUuid%100

def mapleRoutingPolicyVersion : String := "routing-v2-maple-instances-v9"

def shadowRoutingPolicyVersion : String := "routing-v2-weighted-v6"

def buildPlan (selected : RouteCandidate) (eligibleRoutes : List RouteCandidate)
    (selectionSource : RouteSelectionSource) (bucket : Option ℕ) (decision : PlanDecision)
    (policyVersion : String) : RoutePlan :=
  ⟨⟨selected.provider, selected.publicModelId, selected.providerModelId,
    selected.responseModelId, selectionSource, bucket⟩, eligibleRoutes, decision, policyVersion⟩

section Planner
variable (registry : ProviderRegistry)

/-- The weight of a route that is switched on, with that of its provider. -/
def weightOf (route : ModelRouteSpec) : Option ℕ :=
  if route.enabled && route.weight ≠ 0 then
    (registry.provider route.provider).bind (fun provider =>
      if provider.enabled && provider.weight ≠ 0
        then some (provider.weight.toNat*route.weight.toNat) else none)
  else none

def enabledRoute (route : ModelRouteSpec) : Bool := (weightOf registry route).isSome

def candidateOf (model : CompletionModelSpec) (configured : ConfiguredProviders)
    (route : ModelRouteSpec) : Option RouteCandidate :=
  (weightOf registry route).bind (fun effectiveWeight =>
    if configured.contains route.provider then
      some ⟨route.provider, model.publicModelId, route.providerModelId, route.responseModelId,
        effectiveWeight⟩
    else none)

def planCompletionRoute (intent : InferenceIntent) (configured : ConfiguredProviders)
    (rememberedProvider : Option ProviderId) : Except RoutePlanningError RoutePlan :=
  match registry.completionModel intent.publicModelId with
  | none => .error (.unsupportedModel intent.publicModelId)
  | some model =>
    let policyVersion :=
      if model.routes.any (fun route => route.provider.isMaple) then mapleRoutingPolicyVersion
      else shadowRoutingPolicyVersion
    let eligibleRoutes := model.routes.filterMap (candidateOf registry model configured)
    let enabledRouteCount := model.routes.countP (enabledRoute registry)
    let selectionSource :=
      if eligibleRoutes.length < enabledRouteCount then .fallback else .staticSplit
    match eligibleRoutes with
    | [] => .error (.noEligibleRoute model.publicModelId)
    | [route] => .ok (buildPlan route [route] selectionSource none .fixedRoute policyVersion)
    | first::second::rest =>
      let routes := first::second::rest
      let bucket := stableAccountBucket intent.accountUuid
      match selectWeightedRoute bucket routes with
      | none => .error (.noEligibleRoute model.publicModelId)
      | some selected =>
        let remembered := (rememberedProvider.filter (fun id => id ≠ selected.provider)).bind
          (fun id => routes.find? (fun route => route.provider = id))
        match remembered with
        | some route => .ok (buildPlan route routes .sticky none .rememberedRoute policyVersion)
        | none => .ok (buildPlan selected routes selectionSource (some bucket) .staticBucket
            policyVersion)

end Planner

section Providers

@[simp] theorem contains_none (id : ProviderId) : ConfiguredProviders.none.contains id = false := by
  rcases id with _ | _ | (_ | _) <;> rfl

theorem contains_with (configured : ConfiguredProviders) (added id : ProviderId) :
    (configured.withProvider added).contains id = (decide (id = added) || configured.contains id) := by
  rcases added with _ | _ | (_ | _) <;> rcases id with _ | _ | (_ | _) <;> rfl

theorem eq_none_iff (configured : ConfiguredProviders) :
    configured = .none ↔ ∀ id, configured.contains id = false := by
  constructor
  · rintro rfl id
    exact contains_none id
  intro h
  obtain ⟨tinfoil,continuum,mapleI01,mapleI02⟩ := configured
  have htinfoil : tinfoil = false := h .tinfoil
  have hcontinuum : continuum = false := h .continuum
  have hi01 : mapleI01 = false := h (.maple .i01)
  have hi02 : mapleI02 = false := h (.maple .i02)
  rw [htinfoil, hcontinuum, hi01, hi02]
  rfl

end Providers

section Weighted

variable {routes : List RouteCandidate}

theorem walk_mem (bucket total cumulative : ℕ) (hne : routes ≠ []) :
    ∃ route ∈ routes, walkBuckets bucket total cumulative routes = some route := by
  induction routes generalizing cumulative with
  | nil => exact absurd rfl hne
  | cons route rest ih =>
    cases rest with
    | nil => exact ⟨route,mem_cons_self,rfl⟩
    | cons second rest =>
      simp only [walkBuckets]
      split
      · exact ⟨route,mem_cons_self,rfl⟩
      · obtain ⟨found,hmem,hwalk⟩ := ih _ (cons_ne_nil second rest)
        exact ⟨found,mem_cons_of_mem route hmem,hwalk⟩

/-- The bucket finds a route exactly when the weights do not wrap around to nothing. -/
theorem weighted_cases (bucket : ℕ) (hne : routes ≠ []) :
    totalWeight routes = 0 ∧ selectWeightedRoute bucket routes = none ∨
      totalWeight routes ≠ 0 ∧ ∃ route ∈ routes, selectWeightedRoute bucket routes = some route := by
  unfold selectWeightedRoute
  by_cases hzero : totalWeight routes = 0
  · exact .inl ⟨hzero,if_pos hzero⟩
  · rw [if_neg hzero]
    exact .inr ⟨hzero,walk_mem bucket _ 0 hne⟩

end Weighted

section Plans
variable (registry : ProviderRegistry)

theorem candidate_some (model : CompletionModelSpec) (configured : ConfiguredProviders)
    (route : ModelRouteSpec) (candidate : RouteCandidate) :
    candidateOf registry model configured route = some candidate ↔
      configured.contains route.provider = true ∧
        ∃ weight, weightOf registry route = some weight ∧ candidate =
          ⟨route.provider,model.publicModelId,route.providerModelId,route.responseModelId,
            weight⟩ := by
  unfold candidateOf
  cases hweight : weightOf registry route with
  | none => simp
  | some weight =>
    cases hcontains : configured.contains route.provider with
    | false => simp
    | true => simp [eq_comm]

/-- The selected identity is that of a route, under the model's public name. -/
def Names (publicModelId : String) (route : ModelRouteSpec) (identity : RouteIdentity) : Prop :=
  identity.provider = route.provider ∧ identity.publicModelId = publicModelId ∧
    identity.providerModelId = route.providerModelId ∧
    identity.responseModelId = route.responseModelId

def Eligible (configured : ConfiguredProviders) (route : ModelRouteSpec) : Prop :=
  enabledRoute registry route = true ∧ configured.contains route.provider = true

/-- No two or more enabled routes have weights that wrap around to nothing. -/
def Weighable (routes : List ModelRouteSpec) : Prop :=
  ∀ part, List.Sublist part routes → 2 ≤ (part.filterMap (weightOf registry)).length →
    (part.filterMap (weightOf registry)).sum%u32Size ≠ 0

theorem weight_pos {route : ModelRouteSpec} {weight : ℕ}
    (h : weightOf registry route = some weight) :
    0 < weight := by
  have hpos : ∀ w : UInt16, w ≠ 0 → 0 < w.toNat := by
    intro w hne
    apply Nat.pos_of_ne_zero
    exact fun hzero => hne (UInt16.toNat_inj.mp hzero)
  unfold weightOf at h
  split_ifs at h with hroute
  obtain ⟨provider,_,hprovider⟩ := Option.bind_eq_some_iff.mp h
  split_ifs at hprovider with hon
  cases hprovider
  simp only [Bool.and_eq_true, decide_eq_true_eq] at hroute hon
  exact Nat.mul_pos (hpos _ hon.2) (hpos _ hroute.2)

/-- Weights that fit in 32 bits together do not wrap. -/
theorem weighable_small (routes : List ModelRouteSpec)
    (h : (routes.filterMap (weightOf registry)).sum < u32Size) : Weighable registry routes := by
  intro part hpart hmany hzero
  have hle : (part.filterMap (weightOf registry)).sum ≤
      (routes.filterMap (weightOf registry)).sum :=
    (hpart.filterMap _).sum_le_sum (fun _ _ => Nat.zero_le _)
  rw [Nat.mod_eq_of_lt (Nat.lt_of_le_of_lt hle h)] at hzero
  obtain ⟨weight,hmem⟩ := exists_mem_of_length_pos (Nat.lt_of_lt_of_le Nat.zero_lt_two hmany)
  obtain ⟨route,_,hweight⟩ := mem_filterMap.mp hmem
  have hpos := weight_pos registry hweight
  have hin := single_le_sum (fun _ _ => Nat.zero_le _) weight hmem
  omega

theorem eligible_weights (model : CompletionModelSpec) (configured : ConfiguredProviders) :
    (model.routes.filterMap (candidateOf registry model configured)).map
        RouteCandidate.effectiveWeight =
      (model.routes.filter (fun route => configured.contains route.provider)).filterMap
        (weightOf registry) := by
  rw [map_filterMap, filterMap_filter]
  apply filterMap_congr
  intro route _
  unfold candidateOf
  cases weightOf registry route with
  | none => simp
  | some weight => cases configured.contains route.provider <;> rfl

variable {model : CompletionModelSpec}

theorem weighable_total (configured : ConfiguredProviders) (h : Weighable registry model.routes)
    (hmany : 2 ≤ (model.routes.filterMap (candidateOf registry model configured)).length) :
    totalWeight (model.routes.filterMap (candidateOf registry model configured)) ≠ 0 := by
  have hweights := eligible_weights registry model configured
  have hlength := congrArg List.length hweights
  rw [length_map] at hlength
  rw [totalWeight, hweights]
  exact h _ filter_sublist (hlength ▸ hmany)

/-- A plan names an eligible route; without one, and only then, there is no plan. -/
theorem plan_cases {intent : InferenceIntent} (configured : ConfiguredProviders)
    (remembered : Option ProviderId)
    (hmodel : registry.completionModel intent.publicModelId = some model)
    (hweigh : Weighable registry model.routes) :
    (∃ plan, planCompletionRoute registry intent configured remembered = .ok plan ∧
      ∃ route ∈ model.routes, Eligible registry configured route ∧
        Names model.publicModelId route plan.selected) ∨
    (∀ route ∈ model.routes, ¬Eligible registry configured route) ∧
      planCompletionRoute registry intent configured remembered =
        .error (.noEligibleRoute model.publicModelId) := by
  have hnamed : ∀ candidate ∈ model.routes.filterMap (candidateOf registry model configured),
      ∃ route ∈ model.routes, Eligible registry configured route ∧
        ∀ source bucket, Names model.publicModelId route ⟨candidate.provider,
          candidate.publicModelId,candidate.providerModelId,candidate.responseModelId,source,
          bucket⟩ := by
    intro candidate hmem
    obtain ⟨route,hroute,hcandidate⟩ := mem_filterMap.mp hmem
    obtain ⟨hcontains,weight,hweight,rfl⟩ := (candidate_some registry model configured route
      candidate).mp hcandidate
    have henabled : enabledRoute registry route = true := by
      rw [enabledRoute, hweight]
      rfl
    exact ⟨route,hroute,⟨henabled,hcontains⟩,fun _ _ => ⟨rfl,rfl,rfl,rfl⟩⟩
  have htotal := weighable_total registry configured hweigh
  simp only [planCompletionRoute, hmodel]
  split
  · rename_i hempty
    refine .inr ⟨fun route hroute heligible => ?_,rfl⟩
    obtain ⟨weight,hweight⟩ := Option.isSome_iff_exists.mp heligible.1
    have hcandidate := (candidate_some registry model configured route _).mpr
      ⟨heligible.2,weight,hweight,rfl⟩
    exact absurd (mem_filterMap.mpr ⟨route,hroute,hcandidate⟩) (by rw [hempty]; exact not_mem_nil)
  · rename_i only hone
    rw [hone] at hnamed
    obtain ⟨route,hroute,heligible,hnames⟩ := hnamed only mem_cons_self
    exact .inl ⟨_,rfl,route,hroute,heligible,hnames _ _⟩
  · rename_i first second rest hmany
    rw [hmany] at hnamed htotal
    rcases weighted_cases (stableAccountBucket intent.accountUuid)
      (cons_ne_nil _ _) with ⟨hzero,_⟩ | ⟨_,selected,hmem,hselected⟩
    · exact absurd hzero (htotal (by simp))
    rw [hselected]
    dsimp only
    split
    · rename_i other hother
      obtain ⟨id,_,hfind⟩ := Option.bind_eq_some_iff.mp hother
      obtain ⟨route,hroute,heligible,hnames⟩ := hnamed other (List.mem_of_find?_eq_some hfind)
      exact .inl ⟨_,rfl,route,hroute,heligible,hnames _ _⟩
    · obtain ⟨route,hroute,heligible,hnames⟩ := hnamed selected hmem
      exact .inl ⟨_,rfl,route,hroute,heligible,hnames _ _⟩

end Plans

end Maple.Routing

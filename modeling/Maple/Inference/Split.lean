import Maple.Inference.Planning
import Mathlib.Tactic.Ring

/-!
# The split of the buckets

With weights small enough for 32 bits the hundred buckets fall to the routes in list order,
each route taking the floor of its part and the last one what is left.
-/

set_option autoImplicit false

namespace Maple.Routing

open List

def weightSum (routes : List RouteCandidate) : ℕ := (routes.map RouteCandidate.effectiveWeight).sum

def share (total : ℕ) (route : RouteCandidate) : ℕ := 100*route.effectiveWeight/total

def blockStart (routes : List RouteCandidate) (i : ℕ) : ℕ :=
  ((routes.take i).map (share (weightSum routes))).sum

def walkOverflows (bucket totalWeight : ℕ) : ℕ → List RouteCandidate → Bool
  | _, [] => false
  | _, [_] => false
  | cumulative, route::rest =>
    let span := (route.effectiveWeight*100%u32Size)/totalWeight
    let cumulative := min (cumulative+span) (u32Size-1)
    decide (u32Size ≤ route.effectiveWeight*100) ||
      (!decide (bucket < cumulative) && walkOverflows bucket totalWeight cumulative rest)

def selectOverflows (bucket : ℕ) (routes : List RouteCandidate) : Bool :=
  decide (u32Size ≤ weightSum routes) ||
    (decide (totalWeight routes ≠ 0) && walkOverflows bucket (totalWeight routes) 0 routes)

structure Proportional (routes : List RouteCandidate) : Prop where
  fits : ∀ bucket < 100, selectOverflows bucket routes = false
  assigned : ∀ bucket < 100, (selectWeightedRoute bucket routes).isSome
  blocks : ∀ bucket < 100, ∀ i route, routes[i]? = some route → blockStart routes i ≤ bucket →
    (i+1 = routes.length ∨ bucket < blockStart routes (i+1)) →
      selectWeightedRoute bucket routes = some route
  sizes : ∀ i route, routes[i]? = some route →
    blockStart routes (i+1) = blockStart routes i+100*route.effectiveWeight/weightSum routes
  last : blockStart routes routes.length ≤ 100 ∧
    100 < blockStart routes routes.length+routes.length

/-- The sum, and a hundred times each weight but the last, fit in 32 bits. -/
def Fits (routes : List RouteCandidate) : Prop :=
  weightSum routes < u32Size ∧ ∀ route ∈ routes.dropLast, 100*route.effectiveWeight < u32Size

section Shares
variable {total : ℕ}

theorem shares_le (total : ℕ) (routes : List RouteCandidate) :
    (routes.map (share total)).sum*total ≤ 100*weightSum routes := by
  induction routes with
  | nil => simp [weightSum]
  | cons route rest ih =>
    have hone := Nat.div_mul_le_self (100*route.effectiveWeight) total
    simp only [weightSum, map_cons, sum_cons, Nat.add_mul, Nat.mul_add, share] at ih ⊢
    omega

variable {routes : List RouteCandidate}

theorem lt_shares (htotal : 0 < total) (hne : routes ≠ []) :
    100*weightSum routes < ((routes.map (share total)).sum+routes.length)*total := by
  induction routes with
  | nil => exact absurd rfl hne
  | cons route rest ih =>
    have hone := Nat.lt_div_mul_add (a := 100*route.effectiveWeight) htotal
    cases rest with
    | nil => simpa [weightSum, share, Nat.add_mul] using hone
    | cons second rest =>
      have hrest := ih (cons_ne_nil second rest)
      generalize second::rest = others at hrest ⊢
      simp only [weightSum, map_cons, sum_cons, length_cons, Nat.add_mul,
        Nat.mul_add, share] at hrest ⊢
      omega

/-- Before the last route the shares leave a bucket over. -/
theorem shares_dropLast (hne : routes ≠ []) (hpos : ∀ route ∈ routes, 0 < route.effectiveWeight) :
    (routes.dropLast.map (share (weightSum routes))).sum < 100 := by
  have hsplit := dropLast_concat_getLast hne
  have hlast := hpos _ (getLast_mem hne)
  have hsum : weightSum routes =
      weightSum routes.dropLast+(routes.getLast hne).effectiveWeight := by
    conv_lhs => rw [← hsplit]
    simp [weightSum]
  have hle := shares_le (weightSum routes) routes.dropLast
  apply Nat.lt_of_mul_lt_mul_right (a := weightSum routes)
  omega

end Shares

section Walk
variable {bucket total cumulative : ℕ} {route : RouteCandidate}

theorem span_exact (h : 100*route.effectiveWeight < u32Size) :
    route.effectiveWeight*100%u32Size/total = share total route := by
  rw [Nat.mul_comm, Nat.mod_eq_of_lt h, share]

variable {routes : List RouteCandidate}

/-- A walk started at any count gives a bucket to the route whose block it is in. -/
theorem walk_block (hfits : ∀ route ∈ routes.dropLast, 100*route.effectiveWeight < u32Size)
    (hsum : cumulative+(routes.map (share total)).sum ≤ 100) {i : ℕ}
    (hroute : routes[i]? = some route)
    (hstart : cumulative+((routes.take i).map (share total)).sum ≤ bucket)
    (hend : i+1 = routes.length ∨ bucket < cumulative+((routes.take (i+1)).map (share total)).sum) :
    walkBuckets bucket total cumulative routes = some route := by
  induction routes generalizing cumulative i with
  | nil => simp at hroute
  | cons first rest ih =>
    cases rest with
    | nil =>
      cases i with
      | zero => simpa [walkBuckets] using hroute
      | succ i => simp at hroute
    | cons second rest =>
      have hfirst := hfits first (by simp)
      have hcap : min (cumulative+share total first) (u32Size-1) = cumulative+share total first := by
        have hbound : cumulative+share total first ≤ 100 := by
          simp only [map_cons, sum_cons] at hsum
          omega
        exact min_eq_left (hbound.trans (by decide))
      rw [walkBuckets, span_exact hfirst, hcap]
      · cases i with
        | zero =>
          have hlt : bucket < cumulative+share total first := by simpa using hend
          simpa [hlt] using hroute
        | succ i =>
          simp only [take_succ_cons, map_cons, sum_cons, ← Nat.add_assoc] at hstart
          rw [if_neg (by omega)]
          apply ih (fun route hmem => hfits route (by simp [hmem]))
          · simpa only [map_cons, sum_cons, Nat.add_assoc] using hsum
          · simpa using hroute
          · exact hstart
          · simpa [Nat.add_assoc] using hend
      · exact cons_ne_nil second rest

/-- A bucket behind every block but the last makes the walk pass all of them. -/
theorem walk_overflows (hpast : cumulative+(routes.dropLast.map (share total)).sum ≤ bucket) :
    walkOverflows bucket total cumulative routes = false ↔
      ∀ route ∈ routes.dropLast, 100*route.effectiveWeight < u32Size := by
  induction routes generalizing cumulative with
  | nil => simp [walkOverflows]
  | cons first rest ih =>
    cases rest with
    | nil => simp [walkOverflows]
    | cons second rest =>
      rw [walkOverflows]
      · simp only [dropLast_cons_cons, map_cons, sum_cons] at hpast
        by_cases hfirst : 100*first.effectiveWeight < u32Size
        · have hle : min (cumulative+share total first) (u32Size-1) ≤ cumulative+share total first :=
            min_le_left _ _
          have hrest := @ih (min (cumulative+share total first) (u32Size-1)) (by omega)
          rw [span_exact hfirst]
          simp only [Nat.mul_comm first.effectiveWeight, Nat.not_le.mpr hfirst, decide_false,
            Bool.false_or, dropLast_cons_cons, forall_mem_cons, hfirst, true_and, ← hrest]
          rw [decide_eq_false (by omega), Bool.not_false, Bool.true_and]
        · simp [Nat.mul_comm first.effectiveWeight, hfirst, Nat.le_of_not_lt hfirst]
      · exact cons_ne_nil second rest

theorem walk_fits (hfits : ∀ route ∈ routes.dropLast, 100*route.effectiveWeight < u32Size) :
    walkOverflows bucket total cumulative routes = false := by
  induction routes generalizing cumulative with
  | nil => rfl
  | cons first rest ih =>
    cases rest with
    | nil => rfl
    | cons second rest =>
      have hfirst := hfits first (by simp)
      rw [walkOverflows, ih (fun route hmem => hfits route (by simp [hmem]))]
      · simp [Nat.mul_comm first.effectiveWeight, hfirst]
      · exact cons_ne_nil second rest

end Walk

section Split
variable {routes : List RouteCandidate}

theorem total_exact (h : weightSum routes < u32Size) : totalWeight routes = weightSum routes :=
  Nat.mod_eq_of_lt h

theorem weightSum_pos (hne : routes ≠ []) (hpos : ∀ route ∈ routes, 0 < route.effectiveWeight) :
    0 < weightSum routes := by
  obtain ⟨route,hroute⟩ := exists_mem_of_ne_nil routes hne
  have hle := single_le_sum (fun _ _ => Nat.zero_le _) _
    (mem_map_of_mem (f := RouteCandidate.effectiveWeight) hroute)
  exact (hpos route hroute).trans_le hle

theorem fits_of_walk (hne : routes ≠ []) (hpos : ∀ route ∈ routes, 0 < route.effectiveWeight)
    (h : selectOverflows 99 routes = false) : Fits routes := by
  simp only [selectOverflows, Bool.or_eq_false_iff, decide_eq_false_iff_not, Nat.not_le] at h
  have htotal := total_exact h.1
  have hsum := weightSum_pos hne hpos
  refine ⟨h.1,?_⟩
  have hshares := shares_dropLast hne hpos
  apply (@walk_overflows 99 (weightSum routes) 0 routes (by omega)).mp
  simpa [htotal, hsum.ne'] using h.2

/-- The buckets fall to the routes in proportion to their weights exactly when the weights
are small enough for the 32 bits they are added and multiplied in. -/
theorem buckets_proportional (routes : List RouteCandidate) (hne : routes ≠ [])
    (hpos : ∀ route ∈ routes, 0 < route.effectiveWeight) :
    Proportional routes ↔ Fits routes := by
  constructor
  · intro h
    exact fits_of_walk hne hpos (h.fits 99 (by decide))
  intro hfits
  have htotal := total_exact hfits.1
  have hsum := weightSum_pos hne hpos
  have hall : (routes.map (share (weightSum routes))).sum ≤ 100 := by
    apply Nat.le_of_mul_le_mul_right (shares_le _ routes) hsum
  have hmore : 100 < (routes.map (share (weightSum routes))).sum+routes.length :=
    Nat.lt_of_mul_lt_mul_right (lt_shares hsum hne)
  have hselect : ∀ bucket, selectWeightedRoute bucket routes =
      walkBuckets bucket (weightSum routes) 0 routes := by
    intro bucket
    rw [selectWeightedRoute, htotal, if_neg hsum.ne']
  constructor
  · intro bucket _
    simp [selectOverflows, hfits.1, walk_fits hfits.2]
  · intro bucket _
    obtain ⟨route,_,hroute⟩ := walk_mem bucket (weightSum routes) 0 hne
    rw [hselect, hroute]
    rfl
  · intro bucket _ i route hroute hstart hend
    rw [hselect]
    apply walk_block hfits.2 (by omega) hroute
    · simpa [blockStart] using hstart
    · simpa [blockStart] using hend
  · intro i route hroute
    simp [blockStart, List.take_add_one, hroute, share]
  · simpa [blockStart] using ⟨hall, hmore⟩

end Split

def weighing (effectiveWeight : ℕ) : RouteCandidate :=
  ⟨.tinfoil, "m", "m", "m", effectiveWeight⟩

theorem buckets_proportional_sample :
    Proportional [weighing 1, weighing 2] :=
  (buckets_proportional [weighing 1, weighing 2] (by decide) (by decide)).mpr ⟨by decide, by decide⟩

/-- The greatest weights of provider and route, next to the smallest. The first route should
have 99 buckets and has none: a hundred times its weight wraps. -/
theorem buckets_wrap :
    blockStart [weighing (65535*65535), weighing 1] 1 = 99 ∧
      selectOverflows 99 [weighing (65535*65535), weighing 1] = true ∧
      selectWeightedRoute 50 [weighing (65535*65535), weighing 1] = some (weighing 1) := by
  decide +kernel

end Maple.Routing

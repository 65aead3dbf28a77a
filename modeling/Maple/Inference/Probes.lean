import Mathlib.Data.List.Pairwise
import Maple.Lib.Run
import Maple.Inference.Claims

/-!
# Ownership of half-open probes

A gate is being probed exactly when a live lease holds a claim on it with the lease id
and the generation the gate remembers. Leases differ in their ids and share no gate.
-/

set_option autoImplicit false

namespace Maple.Health

open Run Table List

structure Hold (R : Type) where
  leaseId : ℕ
  claims : List (ProbeGateClaim R)

def ProbeLease.hold {R : Type} (lease : ProbeLease R) : Hold R := ⟨lease.leaseId, lease.claims⟩

def Apart {R : Type} (left right : Hold R) : Prop :=
  left.leaseId ≠ right.leaseId ∧
    ∀ claim ∈ left.claims, ∀ other ∈ right.claims, claim.gate ≠ other.gate

structure Owned {R : Type} (setting : Setting R) (probe : ProbeGateKey R → Option ActiveProbe)
    (holds : List (Hold R)) : Prop where
  probes : ∀ gate active, probe gate = some active ↔
    ∃ hold ∈ holds, hold.leaseId = active.leaseId ∧
      ⟨gate, active.generationAtClaim⟩ ∈ hold.claims
  apart : holds.Pairwise Apart
  distinct : ∀ hold ∈ holds, (hold.claims.map ProbeGateClaim.gate).Nodup
  claiming : ∀ hold ∈ holds, hold.claims ≠ []
  known : ∀ hold ∈ holds, ∀ claim ∈ hold.claims, claim.gate.route ∈ setting.routes

section Ownership
variable {R : Type} (setting : Setting R) (probe : ProbeGateKey R → Option ActiveProbe)

variable {probe} {setting} {hold : Hold R} {holds : List (Hold R)}

theorem owned_active (h : Owned setting probe holds)
    (hmem : hold ∈ holds) (claim : ProbeGateClaim R) (hclaim : claim ∈ hold.claims) :
    probe claim.gate = some ⟨hold.leaseId,claim.generationAtClaim⟩ :=
  (h.probes claim.gate ⟨hold.leaseId,claim.generationAtClaim⟩).mpr ⟨hold,hmem,rfl,hclaim⟩

variable {front : List (Hold R)}

theorem apart_others {back : List (Hold R)} (h : (front++hold::back).Pairwise Apart)
    {other : Hold R} (hother : other ∈ front++back) (claim : ProbeGateClaim R)
    (hclaim : claim ∈ other.claims) : claim.gate ∉ hold.claims.map ProbeGateClaim.gate := by
  intro hmem
  obtain ⟨mine,hmine,hsame⟩ := mem_map.mp hmem
  obtain ⟨_,hback,hfront⟩ := pairwise_append.mp h
  rcases mem_append.mp hother with hleft | hright
  · exact (hfront other hleft hold mem_cons_self).2 claim hclaim mine hmine hsame.symm
  · exact ((pairwise_cons.mp hback).1 other hright).2 mine hmine claim hclaim hsame

/-- The end of one lease frees its gates and no others. -/
theorem owned_free (after : ProbeGateKey R → Option ActiveProbe) {back : List (Hold R)}
    (h : Owned setting probe (front++hold::back))
    (hfreed : ∀ gate ∈ hold.claims.map ProbeGateClaim.gate, after gate = none)
    (hkept : ∀ gate, gate ∉ hold.claims.map ProbeGateClaim.gate → after gate = probe gate) :
    Owned setting after (front++back) := by
  have hsub : (front++back).Sublist (front++hold::back) :=
    (List.Sublist.refl front).append (sublist_cons_self hold back)
  refine ⟨fun gate active => ⟨fun hactive => ?_,fun ⟨other,hother,hid,hclaim⟩ => ?_⟩,
    h.apart.sublist hsub,fun other hmem => h.distinct other (hsub.mem hmem),
    fun other hmem => h.claiming other (hsub.mem hmem),
    fun other hmem => h.known other (hsub.mem hmem)⟩
  · have hgate : gate ∉ hold.claims.map ProbeGateClaim.gate := fun hmem => by
      rw [hfreed gate hmem] at hactive
      cases hactive
    rw [hkept gate hgate] at hactive
    obtain ⟨owner,howner,hid,hclaim⟩ := (h.probes gate active).mp hactive
    refine ⟨owner,?_,hid,hclaim⟩
    rcases mem_append.mp howner with hfront | hrest
    · exact mem_append_left _ hfront
    · rcases mem_cons.mp hrest with hsame | hback
      · exact absurd (hsame ▸ mem_map_of_mem hclaim) hgate
      · exact mem_append_right _ hback
  · have hgate := apart_others h.apart hother _ hclaim
    rw [hkept gate hgate]
    exact (h.probes gate active).mpr ⟨other,hsub.mem hother,hid,hclaim⟩

/-- A new lease takes free gates, under an id no lease has. -/
theorem owned_grant (after : ProbeGateKey R → Option ActiveProbe)
    (hold : Hold R) (h : Owned setting probe holds) (hclaiming : hold.claims ≠ [])
    (hdistinct : (hold.claims.map ProbeGateClaim.gate).Nodup)
    (hknown : ∀ claim ∈ hold.claims, claim.gate.route ∈ setting.routes)
    (hid : ∀ other ∈ holds, other.leaseId ≠ hold.leaseId)
    (hfree : ∀ gate ∈ hold.claims.map ProbeGateClaim.gate, probe gate = none)
    (htaken : ∀ claim ∈ hold.claims, after claim.gate = some
      ⟨hold.leaseId,claim.generationAtClaim⟩)
    (hkept : ∀ gate, gate ∉ hold.claims.map ProbeGateClaim.gate → after gate = probe gate) :
    Owned setting after (holds++[hold]) := by
  have hothers : ∀ other ∈ holds, ∀ claim ∈ other.claims,
      claim.gate ∉ hold.claims.map ProbeGateClaim.gate := fun other hother claim hclaim hmem => by
    have hactive := owned_active h hother claim hclaim
    rw [hfree claim.gate hmem] at hactive
    cases hactive
  refine ⟨fun gate active => ⟨fun hactive => ?_,fun ⟨owner,howner,hsame,hclaim⟩ => ?_⟩,?_,
    forall_mem_append.mpr ⟨h.distinct,forall_mem_singleton.mpr hdistinct⟩,
    forall_mem_append.mpr ⟨h.claiming,forall_mem_singleton.mpr hclaiming⟩,
    forall_mem_append.mpr ⟨h.known,forall_mem_singleton.mpr hknown⟩⟩
  · by_cases hgate : gate ∈ hold.claims.map ProbeGateClaim.gate
    · obtain ⟨claim,hclaim,hsame⟩ := mem_map.mp hgate
      subst hsame
      rw [htaken claim hclaim] at hactive
      cases hactive
      exact ⟨hold,mem_append_right _ mem_cons_self,rfl,hclaim⟩
    · rw [hkept gate hgate] at hactive
      obtain ⟨owner,howner,hsame,hclaim⟩ := (h.probes gate active).mp hactive
      exact ⟨owner,mem_append_left _ howner,hsame,hclaim⟩
  · rcases mem_append.mp howner with hold' | hnew
    · rw [hkept gate (hothers owner hold' _ hclaim)]
      exact (h.probes gate active).mpr ⟨owner,hold',hsame,hclaim⟩
    · obtain rfl := mem_singleton.mp hnew
      rw [htaken _ hclaim, hsame]
  · refine pairwise_append.mpr ⟨h.apart,pairwise_singleton _ _,fun other hother new hnew => ?_⟩
    obtain rfl := mem_singleton.mp hnew
    refine ⟨hid other hother,fun claim hclaim mine hmine heq => ?_⟩
    exact hothers other hother claim hclaim (heq ▸ mem_map_of_mem hmine)

end Ownership

section Systems
variable {R : Type} (setting : Setting R)

def probesOf (inner : Inner R) (gate : ProbeGateKey R) : Option ActiveProbe :=
  (inner.gate gate).activeProbe

def holdsOf (system : System R) : List (Hold R) := system.leases.map ProbeLease.hold

def Sound (system : System R) : Prop := Owned setting (probesOf system.inner) (holdsOf system)

theorem sound_new : Sound setting (System.new R) := by
  refine ⟨fun gate active => ?_,List.Pairwise.nil,?_,?_,?_⟩
  · cases gate <;> simp [probesOf, System.new, Inner.new, Inner.gate, GateState.default, holdsOf]
  all_goals simp [holdsOf, System.new]

variable {setting}

theorem in_use_of_active {inner : Inner R} {gate : ProbeGateKey R} {active : ActiveProbe}
    (hknown : gate.route ∈ setting.routes) (h : probesOf inner gate = some active) :
    leaseIdInUse setting inner active.leaseId = true := by
  refine (in_use_iff setting inner active.leaseId).mpr ?_
  cases gate with
  | routeHealth route =>
    refine mem_append_left _ (mem_filterMap.mpr ⟨route,hknown,?_⟩)
    have hroute : (inner.routeHealth route).activeProbe = some active := h
    rw [hroute, Option.map_some]
  | capacity pool =>
    refine mem_append_right _ (mem_filterMap.mpr ⟨pool,hknown,?_⟩)
    have hpool : (inner.capacity pool).activeProbe = some active := h
    rw [hpool, Option.map_some]

variable {system : System R} {lease : ProbeLease R}

theorem sound_in_flight (h : Sound setting system) (hlease : lease ∈ system.leases) :
    InFlight setting system.inner lease.leaseId lease.claims := by
  have hmem : lease.hold ∈ holdsOf system := mem_map_of_mem hlease
  exact ⟨h.known lease.hold hmem,h.distinct lease.hold hmem,owned_active h hmem⟩

variable {index : ℕ}

section Ended
variable {after : System R} (hfound : system.leases[index]? = some lease)
  (hleases : after.leases = system.leases.eraseIdx index)
include hfound hleases

theorem ended_holds : ∃ front back, holdsOf system = front++lease.hold::back ∧
    holdsOf after = front++back := by
  obtain ⟨front,back,htable,herase,_⟩ := split_at index hfound
  refine ⟨front.map ProbeLease.hold,back.map ProbeLease.hold,?_,?_⟩
  · rw [holdsOf, htable, map_append, map_cons]
  · rw [holdsOf, hleases, herase, map_append]

/-- A lease that ends at an index, its gates freed and all other probes kept. -/
theorem ended_sound (h : Sound setting system)
    (hfreed : ∀ claim ∈ lease.claims, (after.inner.gate claim.gate).activeProbe = none)
    (hkept : ∀ gate, gate ∉ lease.claims.map ProbeGateClaim.gate →
      (after.inner.gate gate).activeProbe = (system.inner.gate gate).activeProbe) :
    Sound setting after := by
  obtain ⟨front,back,hbefore,hafter⟩ := ended_holds hfound hleases
  unfold Sound at h ⊢
  rw [hbefore] at h
  rw [hafter]
  refine owned_free (probesOf after.inner) h (fun gate hgate => ?_) hkept
  obtain ⟨claim,hclaim,hsame⟩ := mem_map.mp hgate
  exact hsame ▸ hfreed claim hclaim

/-- The leases that outlive the end of another one were there, on other gates. -/
theorem ended_others (h : Sound setting system) {hold : Hold R} (hlive : hold ∈ holdsOf after) :
    hold ∈ holdsOf system ∧
      ∀ claim ∈ hold.claims, claim.gate ∉ lease.claims.map ProbeGateClaim.gate := by
  obtain ⟨front,back,hbefore,hafter⟩ := ended_holds hfound hleases
  rw [hafter] at hlive
  refine ⟨?_,apart_others (hbefore ▸ h.apart) hlive⟩
  rw [hbefore]
  exact ((List.Sublist.refl _).append (sublist_cons_self _ _)).mem hlive

end Ended

theorem steady_sound (after : System R) (h : Sound setting system)
    (hprobes : ∀ gate, (after.inner.gate gate).activeProbe = (system.inner.gate gate).activeProbe)
    (hholds : holdsOf after = holdsOf system) : Sound setting after := by
  have hsame : probesOf after.inner = probesOf system.inner := funext hprobes
  unfold Sound at h ⊢
  rwa [hsame, hholds]

theorem sound_apart (h : Sound setting system) :
    system.leases.Pairwise (fun left right => Apart left.hold right.hold) :=
  pairwise_map.mp h.apart

variable [DecidableEq R] {now : ℕ}

theorem granted_sound {after : System R} {route : R}
    (hgrant : Granted setting system.inner route now lease after.inner)
    (hleases : after.leases = system.leases++[lease]) (h : Sound setting system) :
    Sound setting after := by
  have hnamed := hgrant.claimed.named
  have hdue (gate) (hgate : gate ∈ lease.claims.map ProbeGateClaim.gate) :
      gate ∈ gatesOf route ∧ isDue system.inner now gate = true := by
    rw [hnamed] at hgate
    exact mem_filter.mp hgate
  have hholds : holdsOf after = holdsOf system++[lease.hold] := by
    rw [holdsOf, hleases, map_append]
    rfl
  unfold Sound
  rw [hholds]
  refine owned_grant (probesOf after.inner)
    lease.hold h ?_ ?_ (fun claim hclaim => ?_) (fun other hother hsame => ?_) (fun gate hgate => ?_)
    (fun claim hclaim => ?_) (fun gate hgate => ?_)
  · intro hnone
    have hempty : lease.claims = [] := hnone
    rw [hempty, map_nil] at hnamed
    exact hgrant.some_due hnamed.symm
  · change (lease.claims.map ProbeGateClaim.gate).Nodup
    rw [hnamed]
    exact (gates_of_nodup route).filter _
  · exact hgrant.known claim.gate (hdue claim.gate (mem_map_of_mem hclaim)).1
  · obtain ⟨claim,hclaim⟩ := exists_mem_of_ne_nil _ (h.claiming other hother)
    have hactive := owned_active h hother claim hclaim
    have huse := in_use_of_active (h.known other hother claim hclaim) hactive
    rw [hsame] at huse
    exact absurd (huse.symm.trans hgrant.fresh) (by simp)
  · exact ((due_iff system.inner now gate).mp (hdue gate hgate).2).1
  · have hgate : claim.gate ∈ (gatesOf route).filter (isDue system.inner now) :=
      hnamed ▸ mem_map_of_mem hclaim
    change (after.inner.gate claim.gate).activeProbe = _
    rw [hgrant.claimed.view, if_pos hgate, hgrant.claimed.generations claim hclaim]
    rfl
  · have hgate' : gate ∉ (gatesOf route).filter (isDue system.inner now) := hnamed ▸ hgate
    change (after.inner.gate gate).activeProbe = _
    rw [hgrant.claimed.view, if_neg hgate']
    rfl

variable {terminal : AttemptTerminal R} {mode : ShadowObservationMode}

theorem takes_known (h : takes setting terminal mode lease = true) :
    mode = .update ∧ terminal.route ∈ setting.routes ∧ lease.route = terminal.route := by
  simpa [takes, and_assoc] using h

/-- An observation that takes the claims frees their gates; it heals one only if it is a
success and the gate's generation is the one of the claim. -/
theorem taken_gates {after : System R} (h : Sound setting system) (hlease : lease ∈ system.leases)
    (haccepted : takes setting terminal mode lease = true)
    (hinner : after.inner = resolveObserved setting system.inner terminal.route
      (classify terminal).2.2 lease.leaseId lease.claims now)
    (gate : ProbeGateKey R) : (gate ∉ lease.claims.map ProbeGateClaim.gate →
      Steady (failsGate setting terminal mode gate) (system.inner.gate gate)
        (after.inner.gate gate)) ∧
    ∀ claim ∈ lease.claims, claim.gate = gate → Freed ((classify terminal).2.2 = .completed ∧
        (system.inner.gate gate).generation = claim.generationAtClaim)
        (system.inner.gate gate) (after.inner.gate gate) := by
  obtain ⟨hmode,hknown,_⟩ := takes_known haccepted
  have hfails : failsGate setting terminal mode gate =
      mutationFails terminal.route (classify terminal).2.2 gate := by
    simp [failsGate, hmode, hknown]
  rw [hinner, hfails]
  exact resolve_observed setting now hknown (sound_in_flight h hlease) gate

theorem step_sound {after : System R} {event : Event R} (h : Sound setting system)
    (hstep : step setting system event = some after) : Sound setting after := by
  cases step_moved hstep with
  | refused route now inner leases =>
    exact steady_sound after h (fun gate => by rw [inner]) (by rw [holdsOf, leases]; rfl)
  | granted route now lease grant leases =>
    exact granted_sound grant leases h
  | observed terminal mode now gates leases =>
    exact steady_sound after h (fun gate => (gates gate).probe) (by rw [holdsOf, leases]; rfl)
  | untaken terminal mode index now lease found refused gates leases =>
    refine steady_sound after h (fun gate => (gates gate).probe) ?_
    rw [holdsOf, leases]
    exact map_set_same ProbeLease.hold index _ found rfl
  | taken terminal mode index now lease found accepted inner leases =>
    have hgates := taken_gates h (List.mem_of_getElem? found) accepted inner
    exact ended_sound found leases h
      (fun claim hclaim => ((hgates claim.gate).2 claim hclaim rfl).probe)
      (fun gate hgate => ((hgates gate).1 hgate).probe)
  | dropped index lease found inner leases =>
    have hflight := sound_in_flight h (List.mem_of_getElem? found)
    refine ended_sound found leases h (fun claim hclaim => ?_) (fun gate hgate => ?_)
    · rw [inner, release_at hflight hclaim]
    · rw [inner, release_other system.inner _ hflight.known hgate]

theorem run_sound {events : List (Event R)}
    (h : run (step setting) (System.new R) events = some system) : Sound setting system :=
  run_invariant (Sound setting) (fun _ _ _ hsound hstep => step_sound hsound hstep)
    _ h (sound_new setting)

def owners (system : System R) (gate : ProbeGateKey R) (active : ActiveProbe) :
    List (ProbeLease R) :=
  system.leases.filter (fun lease => decide (lease.leaseId = active.leaseId) &&
    decide (⟨gate, active.generationAtClaim⟩ ∈ lease.claims))

def probers (system : System R) (gate : ProbeGateKey R) : List (ProbeLease R) :=
  system.leases.filter (fun lease => decide (gate ∈ lease.claims.map ProbeGateClaim.gate))

theorem mem_owners (system : System R) (gate : ProbeGateKey R) (active : ActiveProbe)
    (lease : ProbeLease R) :
    lease ∈ owners system gate active ↔ lease ∈ system.leases ∧
      lease.leaseId = active.leaseId ∧ ⟨gate,active.generationAtClaim⟩ ∈ lease.claims := by
  simp [owners]

theorem probers_at_most_one (h : Sound setting system) (gate : ProbeGateKey R) :
    (probers system gate).length ≤ 1 := by
  refine filter_at_most_one _ (sound_apart h) (fun left right hleft hright happart => ?_)
  obtain ⟨claim,hclaim,hgate⟩ := mem_map.mp (of_decide_eq_true hleft)
  obtain ⟨other,hother,hsame⟩ := mem_map.mp (of_decide_eq_true hright)
  exact happart.2 claim hclaim other hother (hgate.trans hsame.symm)

theorem owner_unique (h : Sound setting system) (gate : ProbeGateKey R) (active : ActiveProbe) :
    (system.inner.gate gate).activeProbe = some active ↔
      (owners system gate active).length = 1 := by
  have hone : (owners system gate active).length ≤ 1 := by
    refine filter_at_most_one _ (sound_apart h) (fun left right hleft hright happart => ?_)
    simp only [Bool.and_eq_true, decide_eq_true_eq] at hleft hright
    exact happart.1 (hleft.1.trans hright.1.symm)
  have hprobe : (system.inner.gate gate).activeProbe = some active ↔
      ∃ lease, lease ∈ owners system gate active := by
    refine (h.probes gate active).trans ⟨fun ⟨hold,hmem,hid,hclaim⟩ => ?_,fun ⟨lease,hlease⟩ => ?_⟩
    · obtain ⟨lease,hlease,rfl⟩ := mem_map.mp hmem
      exact ⟨lease,(mem_owners system gate active lease).mpr ⟨hlease,hid,hclaim⟩⟩
    · obtain ⟨hmem,hid,hclaim⟩ := (mem_owners system gate active lease).mp hlease
      exact ⟨lease.hold,mem_map_of_mem hmem,hid,hclaim⟩
  rw [hprobe]
  constructor
  · rintro ⟨lease,hlease⟩
    have hpositive := length_pos_of_mem hlease
    omega
  · intro hlength
    obtain ⟨lease,hlease⟩ := length_eq_one_iff.mp hlength
    exact ⟨lease,hlease ▸ mem_singleton_self lease⟩

def Event.consumes : Event R → Option ℕ
  | .claim _ _ => none
  | .observe _ _ _ => none
  | .observeWithProbe _ _ index _ => some index
  | .dropLease index => some index

/-- Only the owner's own end takes a probe off its gate. -/
theorem probe_kept {after : System R} {event : Event R} (h : Sound setting system)
    (hstep : step setting system event = some after) (gate : ProbeGateKey R) (active : ActiveProbe)
    (hactive : (system.inner.gate gate).activeProbe = some active) :
    (after.inner.gate gate).activeProbe = some active ∨
      ∃ index lease, event.consumes = some index ∧ system.leases[index]? = some lease ∧
        lease ∈ owners system gate active := by
  have howner (lease : ProbeLease R) (hlease : lease ∈ system.leases)
      (hgate : gate ∈ lease.claims.map ProbeGateClaim.gate) :
      lease ∈ owners system gate active := by
    obtain ⟨claim,hclaim,rfl⟩ := mem_map.mp hgate
    have hheld := (sound_in_flight h hlease).active claim hclaim
    cases hactive.symm.trans hheld
    exact (mem_owners system _ _ lease).mpr ⟨hlease,rfl,hclaim⟩
  cases step_moved hstep with
  | refused route now inner leases => exact .inl (inner ▸ hactive)
  | granted route now lease grant leases =>
    left
    rw [grant.claimed.view gate]
    split_ifs with hgate
    · have hdue := (mem_filter.mp hgate).2
      rw [((due_iff system.inner now gate).mp hdue).1] at hactive
      cases hactive
    · exact hactive
  | observed terminal mode now gates leases => exact .inl ((gates gate).probe.trans hactive)
  | untaken terminal mode index now lease found refused gates leases =>
    exact .inl ((gates gate).probe.trans hactive)
  | taken terminal mode index now lease found accepted inner leases =>
    have hlease := List.mem_of_getElem? found
    by_cases hgate : gate ∈ lease.claims.map ProbeGateClaim.gate
    · exact .inr ⟨index,lease,rfl,found,howner lease hlease hgate⟩
    · have hsteady := (taken_gates h hlease accepted inner gate).1 hgate
      exact .inl (hsteady.probe.trans hactive)
  | dropped index lease found inner leases =>
    have hlease := List.mem_of_getElem? found
    by_cases hgate : gate ∈ lease.claims.map ProbeGateClaim.gate
    · exact .inr ⟨index,lease,rfl,found,howner lease hlease hgate⟩
    · left
      rw [inner, release_other _ _ (sound_in_flight h hlease).known hgate]
      exact hactive

/-- A live lease can be dropped at any time, and its gates are free then. -/
theorem drop_frees (h : Sound setting system) (index : ℕ) (lease : ProbeLease R)
    (hfound : system.leases[index]? = some lease) :
    ∃ after, step setting system (.dropLease index) = some after ∧
      after.leases = system.leases.eraseIdx index ∧
      ∀ claim ∈ lease.claims, (after.inner.gate claim.gate).activeProbe = none := by
  refine ⟨_,by simp only [step, hfound]; rfl,rfl,fun claim hclaim => ?_⟩
  have hflight := sound_in_flight h (List.mem_of_getElem? hfound)
  dsimp only
  rw [release_at hflight hclaim]

/-- The call with a lease ends it, at once or by the drop that follows. -/
theorem observation_frees {after : System R} (h : Sound setting system)
    (hfound : system.leases[index]? = some lease)
    (hstep : step setting system (.observeWithProbe terminal mode index now) = some after) :
    if takes setting terminal mode lease then
      after.leases = system.leases.eraseIdx index ∧
        ∀ claim ∈ lease.claims, (after.inner.gate claim.gate).activeProbe = none
    else
      after.leases[index]? = some { lease with returning := true } ∧
      ∃ final, step setting after (.dropLease index) = some final ∧
        final.leases = system.leases.eraseIdx index ∧
        ∀ claim ∈ lease.claims, (final.inner.gate claim.gate).activeProbe = none := by
  have hafter := step_sound h hstep
  cases step_moved hstep with
  | taken _ _ _ _ other found accepted inner leases =>
    obtain rfl : other = lease := Option.some.inj (found.symm.trans hfound)
    rw [if_pos accepted]
    have hgates := taken_gates h (List.mem_of_getElem? found) accepted inner
    exact ⟨leases,fun claim hclaim => ((hgates claim.gate).2 claim hclaim rfl).probe⟩
  | untaken _ _ _ _ other found refused gates leases =>
    obtain rfl : other = lease := Option.some.inj (found.symm.trans hfound)
    rw [refused, if_neg Bool.false_ne_true]
    have hlater : after.leases[index]? = some { other with returning := true } := by
      rw [leases, List.getElem?_set_self (List.getElem?_eq_some_iff.mp found).1]
    obtain ⟨final,hdrop,hleases,hfree⟩ := drop_frees hafter index _ hlater
    refine ⟨hlater,final,hdrop,?_,hfree⟩
    rw [hleases, leases, eraseIdx_set_eq]

variable (setting)

theorem claimable_again (system : System R) (route : R) (now : ℕ) (hclock : system.clock ≤ now)
    (hclaimable : ∀ gate ∈ gatesOf route, Claimable setting system.inner now gate)
    (hopen : ∃ gate ∈ gatesOf route, (system.inner.gate gate).openUntil.isSome = true) :
    ∃ after lease, step setting system (.claim route now) = some after ∧
      after.leases = system.leases++[lease] ∧
      ∀ gate ∈ gatesOf route, (system.inner.gate gate).openUntil.isSome = true →
        gate ∈ lease.claims.map ProbeGateClaim.gate := by
  have hdue : ∀ gate ∈ gatesOf route, (system.inner.gate gate).openUntil.isSome = true →
      gate ∈ (gatesOf route).filter (isDue system.inner now) := by
    intro gate hgate hsome
    obtain ⟨_,hprobe,htime⟩ := hclaimable gate hgate
    obtain ⟨opened,hopened⟩ := Option.isSome_iff_exists.mp hsome
    exact mem_filter.mpr ⟨hgate,(due_iff _ _ _).mpr ⟨hprobe,opened,hopened,htime opened hopened⟩⟩
  obtain ⟨gate,hgate,hsome⟩ := hopen
  obtain ⟨lease,inner,hclaim,hgrant⟩ := claim_granted setting hclaimable
    (ne_nil_of_mem (hdue gate hgate hsome))
  refine ⟨⟨inner,system.leases++[lease],now⟩,lease,?_,rfl,fun other hother hsome => ?_⟩
  · simp only [step, if_pos hclock, hclaim, Option.map_some]
    rfl
  · rw [hgrant.claimed.named]
    exact hdue other hother hsome

/-- In every state of every run: a gate remembers a probe exactly when one live lease
holds it; leases differ in ids and gates, so at most one probes a gate; a step takes a
probe off a gate only by consuming its owner; a lease can always be dropped, and its drop
or a call with it frees its gates; free gates whose time is over are claimed again. -/
theorem probe_ownership (events : List (Event R)) (system : System R)
    (hrun : run (step setting) (System.new R) events = some system) :
    (∀ gate active, (system.inner.gate gate).activeProbe = some active ↔
      (owners system gate active).length = 1) ∧
    (system.leases.Pairwise (fun left right => left.leaseId ≠ right.leaseId ∧
      ∀ claim ∈ left.claims, ∀ other ∈ right.claims, claim.gate ≠ other.gate)) ∧
    (∀ gate, (probers system gate).length ≤ 1) ∧
    (∀ event after, step setting system event = some after → ∀ gate active,
      (system.inner.gate gate).activeProbe = some active →
      (after.inner.gate gate).activeProbe = some active ∨
        ∃ index lease, event.consumes = some index ∧ system.leases[index]? = some lease ∧
          lease ∈ owners system gate active) ∧
    (∀ index lease, system.leases[index]? = some lease →
      ∃ after, step setting system (.dropLease index) = some after ∧
        after.leases = system.leases.eraseIdx index ∧
        ∀ claim ∈ lease.claims, (after.inner.gate claim.gate).activeProbe = none) ∧
    (∀ terminal mode index now after lease, system.leases[index]? = some lease →
      step setting system (.observeWithProbe terminal mode index now) = some after →
      if takes setting terminal mode lease then
        after.leases = system.leases.eraseIdx index ∧
          ∀ claim ∈ lease.claims, (after.inner.gate claim.gate).activeProbe = none
      else
        after.leases[index]? = some { lease with returning := true } ∧
        ∃ final, step setting after (.dropLease index) = some final ∧
          final.leases = system.leases.eraseIdx index ∧
          ∀ claim ∈ lease.claims, (final.inner.gate claim.gate).activeProbe = none) ∧
    ∀ route now, system.clock ≤ now →
      (∀ gate ∈ gatesOf route, Claimable setting system.inner now gate) →
      (∃ gate ∈ gatesOf route, (system.inner.gate gate).openUntil.isSome = true) →
      ∃ after lease, step setting system (.claim route now) = some after ∧
        after.leases = system.leases++[lease] ∧
        ∀ gate ∈ gatesOf route, (system.inner.gate gate).openUntil.isSome = true →
          gate ∈ lease.claims.map ProbeGateClaim.gate := by
  have h := run_sound hrun
  exact ⟨owner_unique h, sound_apart h,
    probers_at_most_one h,
    fun event after hstep => probe_kept h hstep,
    drop_frees h,
    fun terminal mode index now after lease hfound hstep =>
      observation_frees h hfound hstep,
    claimable_again setting system⟩

def sampleSetting : Setting ℕ := ⟨.default, [0, 1], seconds 1000000, by decide⟩

def sampleRejection : AttemptFailure := ⟨.capacityRejected, some 429, none, false⟩

def sampleEvents : List (Event ℕ) :=
  [.observe (.failed 0 sampleRejection) .update 0, .claim 0 (seconds 30),
    .observeWithProbe (.completed 1) .update 0 (seconds 31), .claim 0 (seconds 31), .dropLease 0,
    .claim 0 (seconds 32)]

def sampleReached : Bool :=
  (run (step sampleSetting) (System.new ℕ) sampleEvents).any
    (fun system => decide (system.leases = [⟨0, 2, [⟨.capacity 0, 3⟩], false⟩]))

theorem probe_ownership_sample :
    ∃ system, run (step sampleSetting) (System.new ℕ) sampleEvents = some system ∧
      system.leases = [⟨0, 2, [⟨.capacity 0, 3⟩], false⟩] ∧
      ∀ gate, (probers system gate).length ≤ 1 := by
  have hreached : sampleReached = true := by decide +kernel
  unfold sampleReached at hreached
  cases hrun : run (step sampleSetting) (System.new ℕ) sampleEvents with
  | none => simp [hrun] at hreached
  | some system =>
    have hleases : system.leases = [⟨0, 2, [⟨.capacity 0, 3⟩], false⟩] := by
      simpa [hrun] using hreached
    exact ⟨system, rfl, hleases, (probe_ownership sampleSetting sampleEvents system hrun).2.2.1⟩

end Systems

end Maple.Health

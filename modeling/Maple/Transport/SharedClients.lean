import Maple.Transport.Retirement

/-!
# Shared clients over whole runs

Lookups, establishments and clears keep the invariant where they are undisturbed, and a
disturbed step breaks it. So the runs in which no client is disposed under a request, or
registered again after it was retired, are exactly the undisturbed ones.
-/

set_option autoImplicit false

namespace Maple.Transport.Runtime

open Keyed Run TransportV2Runtime List Function

variable {S : Type} [DecidableEq S]

section Operations
variable {t : TransportV2Runtime S} {requests : List (Request S)}

theorem good_establish (h : Good t requests) (scope : S) (hempty : t.clients.get scope = none) :
    Good (t.establish scope).1 requests ∧ ∀ bound repaired,
      Admitted (t.establish scope).1 ⟨scope,bound,repaired,(t.establish scope).2⟩ := by
  simp only [establish]
  cases hshared : (t.establishing.get scope).filter
      (fun pending => t.pending[pending]?.any (fun e => e.generation = t.generations scope)) with
  | some pending =>
    have hjoined : t.establishing.get scope = some pending := by
      obtain ⟨hget,_⟩ := Option.filter_eq_some_iff.mp hshared
      exact hget
    exact ⟨h,fun _ _ => h.named scope pending hjoined⟩
  | none =>
    have hlength : ∀ (p : ℕ) e, t.pending[p]? = some e →
        (t.pending++[⟨scope,t.generations scope,none⟩])[p]? = some e := by
      intro p e hget
      rw [List.getElem?_append_left (List.getElem?_eq_some_iff.mp hget).1, hget]
    have hlast : (t.pending++[⟨scope,t.generations scope,none⟩])[t.pending.length]? =
        some ⟨scope,t.generations scope,none⟩ := by simp
    -- no establishment of the current generation runs, or it would have been joined
    have hidle : ∀ (p : ℕ) e, t.pending[p]? = some e → e.outcome = none → e.scope = scope →
        e.generation ≠ t.generations scope := by
      intro p e hget hrunning hscope hcurrent
      have hjoined := (h.running p e hget hrunning (by rw [hscope, hcurrent])).1
      rw [hscope] at hjoined
      rw [hjoined, Option.filter_eq_none_iff] at hshared
      apply hshared p rfl
      simp [hget, hcurrent]
    refine ⟨{ h with
      kept := { h.kept with }
      issued := ?_
      past := ?_
      running := ?_
      settled := ?_
      named := ?_
      waits := ?_ },fun _ _ => ⟨_,hlast,rfl⟩⟩
    · refine fun client hknown => h.issued client (hknown.imp_right (Or.imp_right (Or.imp_right ?_)))
      rintro ⟨e,hmem,hsettled⟩
      rcases mem_append.mp hmem with hbefore | hnew
      · exact ⟨e,hbefore,hsettled⟩
      · rw [mem_singleton.mp hnew] at hsettled
        cases hsettled
    · intro e hmem
      rcases mem_append.mp hmem with hbefore | hnew
      · exact h.past e hbefore
      · rw [mem_singleton.mp hnew]
    · intro p e hget hrunning hcurrent
      by_cases hp : p < t.pending.length
      · rw [List.getElem?_append_left hp] at hget
        have hother : e.scope ≠ scope := by
          intro hscope
          refine hidle p e hget hrunning hscope ?_
          rw [← hscope]
          exact hcurrent
        simp only [get_set, if_neg hother]
        exact h.running p e hget hrunning hcurrent
      · have hbound := (List.getElem?_eq_some_iff.mp hget).1
        rw [length_append, length_singleton] at hbound
        obtain rfl : p = t.pending.length := by omega
        obtain rfl := Option.some.inj (hlast.symm.trans hget)
        simp only [get_set, if_true]
        exact ⟨trivial,hempty⟩
    · intro e hmem client hsettled
      rcases mem_append.mp hmem with hbefore | hnew
      · exact h.settled e hbefore client hsettled
      · rw [mem_singleton.mp hnew] at hsettled
        cases hsettled
    · intro place p hget
      simp only [get_set] at hget
      split_ifs at hget with hsame
      · cases hget
        exact ⟨_,hlast,hsame.symm⟩
      · obtain ⟨e,he,hscope⟩ := h.named place p hget
        exact ⟨e,hlength p e he,hscope⟩
    · intro request hmem p hwaiting
      obtain ⟨e,he,hscope⟩ := h.waits request hmem p hwaiting
      exact ⟨e,hlength p e he,hscope⟩

theorem good_client_for (h : Good t requests) (scope : S) (unexpired : Bool)
    (hcalm : CalmLookup t requests scope unexpired) :
    Good (t.clientFor scope unexpired).1 requests ∧ ∀ bound repaired,
      Admitted (t.clientFor scope unexpired).1
        ⟨scope,bound,repaired,(t.clientFor scope unexpired).2⟩ := by
  unfold clientFor
  cases hlisted : t.clients.get scope with
  | none => exact good_establish h scope hlisted
  | some current =>
    dsimp only
    cases husable : t.isUsable current unexpired with
    | true =>
      rw [if_pos rfl]
      exact ⟨h,fun _ _ => hlisted⟩
    | false =>
      rw [if_neg Bool.false_ne_true]
      have hplace := h.placed scope current hlisted
      have hissued := h.issued current (.inr (.inl (by rw [hplace, hlisted])))
      have hretired := good_retire t scope current h hplace hissued
        (fun _ => hcalm current hlisted husable)
      apply good_establish hretired
      rw [retire_clients, if_pos ⟨rfl,hlisted⟩]

theorem retire_bump (scope : S) (client : Client S) (generations : S → ℕ) :
    ({ t with generations := generations } : TransportV2Runtime S).retire scope client =
      { t.retire scope client with generations := generations } := by
  simp only [retire_eq, unlist]
  split_ifs <;> rfl

variable {scope : S}

/-- A new generation of an empty scope: what was established before is retired. -/
theorem good_bump (h : Good t requests) (hempty : t.clients.get scope = none) :
    Good { t with generations := Function.update t.generations scope (t.generations scope+1) }
      requests := by
  have hlater : ∀ place, t.generations place ≤
      Function.update t.generations scope (t.generations scope+1) place := by
    intro place
    rw [update_apply]
    split_ifs with hsame
    · rw [hsame]
      omega
    · exact Nat.le_refl _
  refine { h with kept := { h.kept with }, past := ?_, running := ?_, settled := ?_ }
  · exact fun e hmem => Nat.le_trans (h.past e hmem) (hlater e.scope)
  · intro p e hget hrunning hcurrent
    have hpast := h.past e (List.mem_of_getElem? hget)
    simp only [update_apply] at hcurrent
    split_ifs at hcurrent with hsame
    · rw [hsame] at hpast
      omega
    · exact h.running p e hget hrunning hcurrent
  · intro e hmem client hsettled
    obtain ⟨hplace,hcase⟩ := h.settled e hmem client hsettled
    refine ⟨hplace,hcase.imp_right (fun ⟨hlisted,hcurrent⟩ => ⟨hlisted,?_⟩)⟩
    have hother : e.scope ≠ scope := by
      intro hsame
      rw [hsame, hempty] at hlisted
      cases hlisted
    simp only [update_apply, if_neg hother]
    exact hcurrent

variable {t' : TransportV2Runtime S}

/-- An invalidation retires the client of the scope, if there is one, and ends its generation. -/
theorem invalidate_cases (hstep : t.invalidateScope scope = some t') :
    t.generations scope < maxSafeInteger ∧ ∃ base : TransportV2Runtime S, t' = { base with
      generations := Function.update t.generations scope (t.generations scope+1) } ∧
      ((t.clients.get scope = none ∧ base = t) ∨
        ∃ client, t.clients.get scope = some client ∧ base = t.retire scope client) := by
  unfold invalidateScope at hstep
  split_ifs at hstep with hfull
  refine ⟨Nat.lt_of_not_le hfull,?_⟩
  dsimp only at hstep
  split at hstep
  · rename_i client hlisted
    cases hstep
    exact ⟨_,retire_bump ..,.inr ⟨client,hlisted,rfl⟩⟩
  · rename_i hlisted
    cases hstep
    exact ⟨t,rfl,.inl ⟨hlisted,rfl⟩⟩

theorem good_invalidate (h : Good t requests)
    (hstep : t.invalidateScope scope = some t') (hcalm : CalmEntry t requests scope) :
    Good t' requests ∧ t'.clients.get scope = none ∧
      ∀ e ∈ t'.pending, e.scope = scope → e.generation < t'.generations scope := by
  have hpast : ∀ e ∈ t.pending, e.scope = scope → e.generation < t.generations scope+1 := by
    intro e hmem hscope
    have hle := h.past e hmem
    rw [hscope] at hle
    omega
  obtain ⟨_,base,rfl,⟨hlisted,rfl⟩ | ⟨client,hlisted,rfl⟩⟩ := invalidate_cases hstep
  · refine ⟨good_bump h hlisted,hlisted,?_⟩
    simpa using hpast
  · have hplace := h.placed scope client hlisted
    have hissued := h.issued client (.inr (.inl (by rw [hplace, hlisted])))
    have hretired := good_retire t scope client h hplace hissued (fun _ => hcalm client hlisted)
    have hempty : (t.retire scope client).clients.get scope = none := by
      rw [retire_clients, if_pos ⟨rfl,hlisted⟩]
    have hbump := good_bump hretired hempty
    rw [retire_generations] at hbump
    refine ⟨hbump,hempty,?_⟩
    simpa using hpast

/-- Invalidating one scope leaves the entries and generations of the others. -/
theorem invalidate_other (other : S) (hstep : t.invalidateScope scope = some t')
    (hne : other ≠ scope) :
    t'.clients.get other = t.clients.get other ∧ t'.generations other = t.generations other ∧
      t'.active = t.active := by
  obtain ⟨_,base,rfl,⟨_,rfl⟩ | ⟨client,_,rfl⟩⟩ := invalidate_cases hstep
  · exact ⟨rfl,by simp [hne],rfl⟩
  · refine ⟨?_,by simp [hne],retire_active t scope client⟩
    simp [retire_clients, hne]

theorem invalidate_clients (hstep : t.invalidateScope scope = some t') (place : S)
    (client : Client S) : (t'.clients.get place = some client → t.clients.get place = some client) ∧
      t'.retired client = (decide (t.clients.get scope = some client) || t.retired client) := by
  obtain ⟨_,base,rfl,⟨hlisted,rfl⟩ | ⟨current,hlisted,rfl⟩⟩ := invalidate_cases hstep
  · exact ⟨id,by simp [hlisted]⟩
  · constructor
    · intro hget
      simp only [retire_clients] at hget
      split_ifs at hget
      exact hget
    · simp only [hlisted, retire_retired, Option.some.injEq, eq_comm]

theorem reached_later {rest : List S} (hstep : t.invalidateScope scope = some t')
    (hfresh : scope ∉ rest) : reached t (scope::rest) = scope::reached t' rest := by
  have hopen := (invalidate_cases hstep).1
  simp only [reached, takeWhile_cons, hopen, decide_true, if_true]
  congr 1
  clear hopen
  induction rest with
  | nil => rfl
  | cons other rest ih =>
    rw [mem_cons, not_or] at hfresh
    have hsame := (invalidate_other other hstep (fun hsym => hfresh.1 hsym.symm)).2.1
    simp only [takeWhile_cons, hsame, ih hfresh.2]

variable (requests)

theorem calm_later {other : S} (hstep : t.invalidateScope scope = some t')
    (hne : other ≠ scope) : CalmEntry t' requests other ↔ CalmEntry t requests other := by
  obtain ⟨hclients,_,hactive⟩ := invalidate_other other hstep hne
  unfold CalmEntry Calm
  rw [hclients, hactive]

variable {requests} (t)

theorem good_invalidate_all {scopes : List S} (hnodup : scopes.Nodup) (h : Good t requests)
    (hcalm : ∀ scope ∈ reached t scopes, CalmEntry t requests scope) :
    Good (t.invalidateAll scopes) requests := by
  induction scopes generalizing t with
  | nil => exact h
  | cons scope rest ih =>
    rw [nodup_cons] at hnodup
    unfold invalidateAll
    cases hstep : t.invalidateScope scope with
    | none => exact h
    | some t' =>
      rw [reached_later hstep hnodup.1] at hcalm
      have hgood := (good_invalidate h hstep (hcalm scope mem_cons_self)).1
      refine ih t' hnodup.2 hgood (fun other hmem => ?_)
      have hne : other ≠ scope := by
        rintro rfl
        exact hnodup.1 (takeWhile_subset _ hmem)
      exact (calm_later requests hstep hne).mpr (hcalm other (mem_cons_of_mem scope hmem))

variable {t}

/-- The outcome of an establishment is a client of its scope that is listed or retired. -/
theorem good_outcome (h : Good t requests) (p : ℕ) (e : PendingEstablishment S)
    (hget : t.pending[p]? = some e) (outcome : Option (Client S))
    (hnew : ∀ client, outcome = some client → client.scope = e.scope ∧ (t.retired client = true ∨
        t.clients.get e.scope = some client ∧ e.generation = t.generations e.scope)) :
    Good { t with pending := t.pending.set p { e with outcome := some outcome } } requests := by
  have hlt := (List.getElem?_eq_some_iff.mp hget).1
  have hscoped : ∀ (q : ℕ) e', t.pending[q]? = some e' →
      ∃ after, (t.pending.set p { e with outcome := some outcome })[q]? = some after ∧
        after.scope = e'.scope := by
    intro q e' hq
    by_cases hsame : p = q
    · subst hsame
      obtain rfl : e = e' := Option.some.inj (hget.symm.trans hq)
      exact ⟨_,List.getElem?_set_self hlt,rfl⟩
    · exact ⟨e',by rw [List.getElem?_set_ne hsame, hq],rfl⟩
  refine { h with
    kept := { h.kept with }
    issued := ?_
    past := ?_
    running := ?_
    settled := ?_
    named := ?_
    waits := ?_ }
  · intro client hknown
    apply h.issued
    rcases hknown with hretired | hlisted | hheld | ⟨e',hmem,hsettled⟩
    · exact .inl hretired
    · exact .inr (.inl hlisted)
    · exact .inr (.inr (.inl hheld))
    · rcases mem_or_eq_of_mem_set hmem with hbefore | rfl
      · exact .inr (.inr (.inr ⟨e',hbefore,hsettled⟩))
      · obtain ⟨hscope,hretired | ⟨hlisted,_⟩⟩ := hnew client (Option.some.inj hsettled)
        · exact .inl hretired
        · rw [← hscope] at hlisted
          exact .inr (.inl hlisted)
  · intro e' hmem
    rcases mem_or_eq_of_mem_set hmem with hbefore | rfl
    · exact h.past e' hbefore
    · exact h.past e (List.mem_of_getElem? hget)
  · intro q e' hq hrunning hcurrent
    by_cases hsame : p = q
    · subst hsame
      rw [List.getElem?_set_self hlt] at hq
      cases hq
      cases hrunning
    · rw [List.getElem?_set_ne hsame] at hq
      exact h.running q e' hq hrunning hcurrent
  · intro e' hmem client hsettled
    rcases mem_or_eq_of_mem_set hmem with hbefore | rfl
    · exact h.settled e' hbefore client hsettled
    · exact hnew client (Option.some.inj hsettled)
  · intro scope q hjoined
    obtain ⟨e',he,hscope⟩ := h.named scope q hjoined
    obtain ⟨after,hafter,hsame⟩ := hscoped q e' he
    exact ⟨after,hafter,hsame.trans hscope⟩
  · intro request hmem q hwaiting
    obtain ⟨e',he,hscope⟩ := h.waits request hmem q hwaiting
    obtain ⟨after,hafter,hsame⟩ := hscoped q e' he
    exact ⟨after,hafter,hsame.trans hscope⟩

theorem good_unjoin (h : Good t requests) (p : ℕ) (e : PendingEstablishment S)
    (hget : t.pending[p]? = some e) (hover : e.outcome ≠ none) :
    Good { t with establishing := if t.establishing.get e.scope = some p
      then t.establishing.remove e.scope else t.establishing } requests := by
  by_cases hjoined : t.establishing.get e.scope = some p
  · rw [if_pos hjoined]
    refine { h with kept := { h.kept with }, running := ?_, named := ?_ }
    · intro q e' hq hrunning hcurrent
      obtain ⟨hother,hempty⟩ := h.running q e' hq hrunning hcurrent
      refine ⟨?_,hempty⟩
      rw [get_remove, if_neg, hother]
      intro hscope
      rw [hscope, hjoined] at hother
      obtain rfl := Option.some.inj hother
      exact hover ((Option.some.inj (hget.symm.trans hq)) ▸ hrunning)
    · intro scope q hother
      rw [get_remove] at hother
      split_ifs at hother
      exact h.named scope q hother
  · rw [if_neg hjoined]
    exact h

/-- A new client goes into an empty place that no running establishment will fill. -/
theorem good_list (h : Good t requests) (hempty : t.clients.get scope = none)
    (hidle : ∀ (p : ℕ) e, t.pending[p]? = some e → e.outcome = none → e.scope = scope →
      e.generation ≠ t.generations scope) :
    Good { t with
      nextSerial := t.nextSerial+1
      clients := t.clients.set scope ⟨scope,t.nextSerial⟩ } requests := by
  have hunknown : ¬Known t requests ⟨scope,t.nextSerial⟩ :=
    fun hknown => Nat.lt_irrefl _ (h.issued _ hknown)
  refine { h with
    kept := { h.kept with listed := ?_ }
    placed := ?_
    issued := ?_
    running := ?_
    settled := ?_ }
  · intro place client hlisted
    simp only [get_set] at hlisted
    split_ifs at hlisted
    · cases hlisted
      rw [Bool.eq_false_iff]
      exact fun hretired => hunknown (.inl hretired)
    · exact h.kept.listed place client hlisted
  · intro place client hlisted
    simp only [get_set] at hlisted
    split_ifs at hlisted with hplace
    · cases hlisted
      exact hplace.symm
    · exact h.placed place client hlisted
  · intro client hknown
    show client.serial < t.nextSerial+1
    rcases hknown with hretired | hlisted | hheld | hsettled
    · exact Nat.lt_succ_of_lt (h.issued client (.inl hretired))
    · simp only [get_set] at hlisted
      split_ifs at hlisted
      · cases hlisted
        exact Nat.lt_succ_self _
      · exact Nat.lt_succ_of_lt (h.issued client (.inr (.inl hlisted)))
    · exact Nat.lt_succ_of_lt (h.issued client (.inr (.inr (.inl hheld))))
    · exact Nat.lt_succ_of_lt (h.issued client (.inr (.inr (.inr hsettled))))
  · intro p e hget hrunning hcurrent
    obtain ⟨hjoined,hnone⟩ := h.running p e hget hrunning hcurrent
    refine ⟨hjoined,?_⟩
    rw [get_set, if_neg, hnone]
    intro hscope
    refine hidle p e hget hrunning hscope ?_
    rw [← hscope]
    exact hcurrent
  · intro e hmem client hsettled
    obtain ⟨hplace,hcase⟩ := h.settled e hmem client hsettled
    refine ⟨hplace,hcase.imp_right ?_⟩
    rintro ⟨hlisted,hcurrent⟩
    refine ⟨?_,hcurrent⟩
    rw [get_set, if_neg, hlisted]
    intro hscope
    rw [hscope, hempty] at hlisted
    cases hlisted

theorem good_serial (h : Good t requests) : Good { t with nextSerial := t.nextSerial+1 } requests :=
  { h with
    kept := { h.kept with }
    issued := fun client hknown => Nat.lt_succ_of_lt (h.issued client hknown) }

theorem good_settled (h : Good t requests) {p : ℕ} {e : PendingEstablishment S}
    (hget : t.pending[p]? = some e) (hrunning : e.outcome = none) (succeeded : Bool) :
    Good (t.settled p e succeeded) requests := by
  have hlt := (List.getElem?_eq_some_iff.mp hget).1
  cases succeeded with
  | false =>
    have hfailed := good_outcome h p e hget none nofun
    exact good_unjoin hfailed p { e with outcome := some none } (List.getElem?_set_self hlt) nofun
  | true =>
    by_cases hcurrent : t.generations e.scope = e.generation
    · -- the place is empty, and this was the only establishment that could fill it
      obtain ⟨hjoined,hempty⟩ := h.running p e hget hrunning hcurrent.symm
      have hover := good_outcome h p e hget none nofun
      have hlisted := good_list hover hempty (by
        intro q e' hq hstill hscope hsame
        by_cases hpq : p = q
        · subst hpq
          rw [List.getElem?_set_self hlt] at hq
          cases hq
          cases hstill
        · rw [List.getElem?_set_ne hpq] at hq
          have hother := (h.running q e' hq hstill (by rw [hscope]; exact hsame)).1
          rw [hscope, hjoined] at hother
          exact hpq (Option.some.inj hother))
      have hnamed := good_outcome hlisted p { e with outcome := some none }
        (List.getElem?_set_self hlt) (some ⟨e.scope,t.nextSerial⟩) (by
          intro client hclient
          cases hclient
          exact ⟨rfl,.inr ⟨by simp [get_set],hcurrent.symm⟩⟩)
      rw [set_set] at hnamed
      have hdone := good_unjoin hnamed p { e with outcome := some (some ⟨e.scope,t.nextSerial⟩) }
        (List.getElem?_set_self hlt) (by simp)
      simp only [settled, newClient, if_true, hcurrent]
      exact hdone
    · have hissued := good_serial h
      have hcalm : ∀ request ∈ requests, request.handedTo ⟨e.scope,t.nextSerial⟩ = false := by
        intro request hmem
        rw [Bool.eq_false_iff]
        intro hhanded
        exact Nat.lt_irrefl _ (h.issued ⟨e.scope,t.nextSerial⟩
          (.inr (.inr (.inl ⟨request,hmem,handed_holds hhanded⟩))))
      have hretired := good_retire _ e.scope ⟨e.scope,t.nextSerial⟩ hissued rfl
        (Nat.lt_succ_self _) (fun _ _ => hcalm)
      have hnamed := good_outcome hretired p e (by rw [retire_pending]; exact hget)
        (some ⟨e.scope,t.nextSerial⟩) (by
          intro client hclient
          cases hclient
          exact ⟨rfl,.inl (by simp [retire_retired])⟩)
      have hdone := good_unjoin hnamed p { e with outcome := some (some ⟨e.scope,t.nextSerial⟩) }
        (List.getElem?_set_self (by rw [retire_pending]; exact hlt)) (by simp)
      simp only [settled, newClient, if_true, hcurrent, if_false]
      exact hdone

/-- The client of an OAuth continuation is listed and retained at once. -/
theorem good_begin (h : Good t requests) (scope : S) (client : Client S)
    (hlisted : t.clients.get scope = some client) :
    Good (t.retain client) (requests++[⟨scope,true,false,.sending client⟩]) := by
  have hpushed := good_push h ⟨scope,true,false,.handed client⟩ hlisted
  have hretained := good_retain hpushed requests.length ⟨scope,true,false,.handed client⟩
    client (by simp) rfl
  rwa [set_append_right _ _ (Nat.le_refl _), Nat.sub_self] at hretained

theorem scopes_nodup : t.scopes.Nodup := by
  unfold scopes
  rw [nodup_append]
  refine ⟨t.clients.unique,t.establishing.unique.filter _,?_⟩
  intro a ha b hb hsame
  have hnot := (mem_filter.mp hb).2
  simp only [decide_eq_true_eq] at hnot
  exact hnot (hsame ▸ ha)

end Operations

section Disposals
variable (t : TransportV2Runtime S) (client : Client S)

theorem retire_more (scope : S) (other : Client S) :
    t.disposals client ≤ (t.retire scope other).disposals client := by
  rw [retire_disposals]
  exact Nat.le_add_right _ _

theorem establish_disposals (scope : S) : (t.establish scope).1.disposals = t.disposals := by
  simp only [establish]
  split <;> rfl

theorem client_for_more (scope : S) (unexpired : Bool) :
    t.disposals client ≤ (t.clientFor scope unexpired).1.disposals client := by
  unfold clientFor
  split
  · split_ifs
    · exact Nat.le_refl _
    · rw [establish_disposals]
      exact retire_more t client scope _
  · rw [establish_disposals]

variable {t' : TransportV2Runtime S} {scope : S}

theorem invalidate_more
    (h : t.invalidateScope scope = some t') : t.disposals client ≤ t'.disposals client := by
  obtain ⟨_,base,rfl,⟨_,rfl⟩ | ⟨_,_,rfl⟩⟩ := invalidate_cases h
  · exact Nat.le_refl _
  · exact retire_more t client scope _

theorem invalidate_all_more (scopes : List S) :
    t.disposals client ≤ (t.invalidateAll scopes).disposals client := by
  induction scopes generalizing t with
  | nil => exact Nat.le_refl _
  | cons scope rest ih =>
    unfold invalidateAll
    cases hstep : t.invalidateScope scope with
    | none => exact Nat.le_refl _
    | some t' => exact Nat.le_trans (invalidate_more t client hstep) (ih t')

variable (hlive : t.retired client = false) (hactive : t.active client = 0)
include hlive hactive

variable {client}

/-- Retiring a client that nobody has retained disposes it. -/
theorem retire_disposes (scope : S) : 0 < (t.retire scope client).disposals client := by
  rw [retire_disposals, if_pos ⟨rfl,hlive,hactive⟩]
  omega

theorem client_for_disposes {unexpired : Bool}
    (hlisted : t.clients.get scope = some client) (husable : t.isUsable client unexpired = false) :
    0 < (t.clientFor scope unexpired).1.disposals client := by
  unfold clientFor
  rw [hlisted]
  dsimp only
  rw [husable, if_neg Bool.false_ne_true, establish_disposals]
  exact retire_disposes t hlive hactive scope

theorem invalidate_disposes (hstep : t.invalidateScope scope = some t')
    (hlisted : t.clients.get scope = some client) : 0 < t'.disposals client := by
  obtain ⟨_,base,rfl,⟨hnone,_⟩ | ⟨other,hother,rfl⟩⟩ := invalidate_cases hstep
  · rw [hlisted] at hnone
    cases hnone
  · obtain rfl := Option.some.inj (hother.symm.trans hlisted)
    exact retire_disposes t hlive hactive scope

end Disposals

section Steps
variable (t : TransportV2Runtime S) (requests : List (Request S)) {client : Client S}

theorem invalidate_all_disposes (h : Good t requests) {scopes : List S} (hnodup : scopes.Nodup)
    {scope : S} (hmem : scope ∈ reached t scopes) (hlisted : t.clients.get scope = some client)
    (hactive : t.active client = 0) : 0 < (t.invalidateAll scopes).disposals client := by
  have hlive : t.retired client = false := h.kept.listed scope client hlisted
  have hplaced := h.placed
  clear h
  -- the other scopes of the list hold other clients
  induction scopes generalizing t with
  | nil => cases hmem
  | cons first rest ih =>
    rw [nodup_cons] at hnodup
    have hopen : t.generations first < maxSafeInteger := by
      by_contra hfull
      simp only [reached, takeWhile_cons, hfull, decide_false, Bool.false_eq_true, if_false] at hmem
      cases hmem
    obtain ⟨t',hstep⟩ : ∃ t', t.invalidateScope first = some t' := by
      unfold invalidateScope
      rw [if_neg (by omega)]
      dsimp only
      split <;> exact ⟨_,rfl⟩
    rw [reached_later hstep hnodup.1] at hmem
    unfold invalidateAll
    rw [hstep]
    dsimp only
    by_cases hfirst : scope = first
    · subst hfirst
      exact Nat.lt_of_lt_of_le (invalidate_disposes t hlive hactive hstep hlisted)
        (invalidate_all_more t' client rest)
    obtain ⟨hclients,_,hactive'⟩ := invalidate_other scope hstep hfirst
    have hrest : scope ∈ reached t' rest := (mem_cons.mp hmem).resolve_left hfirst
    have hstays : t'.retired client = false := by
      rw [(invalidate_clients hstep first client).2, hlive, Bool.or_false,
        decide_eq_false_iff_not]
      intro hother
      exact hfirst ((hplaced scope client hlisted).symm.trans (hplaced first client hother))
    exact ih t' hnodup.2 hrest (by rw [hclients, hlisted]) (by rw [hactive', hactive]) hstays
      (fun place other hget =>
        hplaced place other ((invalidate_clients hstep place other).1 hget))

theorem retire_again (h : Good t requests) (scope : S) (hretired : t.retired client = true) :
    t.retire scope client = t := by
  have hunlisted : ¬t.clients.get scope = some client := by
    intro hlisted
    have hlive : t.retired client = false := h.kept.listed scope client hlisted
    rw [hretired] at hlive
    cases hlive
  simp only [retire, unlist, if_neg hunlisted, hretired, if_true]

/-- The runtime after a request has failed and let its client go. -/
theorem failed_lookup (scope : S) (client other : Client S) :
    ((t.retire scope client).release client).clients.get scope = some other ↔
      t.clients.get scope = some other ∧ other ≠ client := by
  rw [release_eq, retire_clients]
  constructor
  · intro hget
    split_ifs at hget with hgone
    refine ⟨hget,fun hsame => hgone ⟨rfl,?_⟩⟩
    rw [hget, hsame]
  · rintro ⟨hget,hne⟩
    rw [if_neg, hget]
    rintro ⟨_,hclient⟩
    rw [hget] at hclient
    exact hne (Option.some.inj hclient)

theorem failed_other (scope : S) {other : Client S} (hne : other ≠ client) :
    ((t.retire scope client).release client).active other = t.active other ∧
      ((t.retire scope client).release client).disposals other = t.disposals other ∧
      ((t.retire scope client).release client).retired other = t.retired other := by
  simp [release_eq, retire_eq, hne]

theorem failed_usable (scope : S) {other : Client S} (hne : other ≠ client) (unexpired : Bool) :
    ((t.retire scope client).release client).isUsable other unexpired =
      t.isUsable other unexpired := by
  rw [isUsable, isUsable, (failed_other t scope hne).2.1]

variable {request : Request S}

theorem good_failed (h : Good t requests) {r : ℕ} (next : Request S)
    (hget : requests[r]? = some request) (hstage : request.stage = .sending client)
    (hdone : next.stage = .done)
    (hlast : t.active client = 1 → ∀ other ∈ requests, other.handedTo client = false) :
    Good ((t.retire request.scope client).release client) (requests.set r next) := by
  have hmem := List.mem_of_getElem? hget
  have hsends : request.sends client = true := (sends_iff client request).mpr hstage
  have hholds := sends_holds hsends
  have hpos := (active_pos t h client).mpr ⟨request,hmem,hsends⟩
  have hretired := good_retire t request.scope client h (h.home request hmem client hholds)
    (h.issued client (.inr (.inr (.inl ⟨request,hmem,hholds⟩)))) (fun _ hzero => by omega)
  apply good_release hretired next hget hstage hdone
  intro _ hone
  rw [retire_active] at hone
  exact hlast hone

theorem idle_waiting {p : ℕ} (hstage : request.stage = .waiting p) (client : Client S) :
    request.holds client = false := by
  rw [Request.holds, Request.handedTo, Request.sends, hstage]
  rfl

theorem idle_done (request : Request S) (hstage : request.stage = .done) (client : Client S) :
    request.holds client = false := by
  rw [Request.holds, Request.handedTo, Request.sends, hstage]
  rfl

/-- A failed request looks up a client for its one repair. -/
theorem good_repair (h : Good t requests) {r : ℕ} (hget : requests[r]? = some request)
    (hstage : request.stage = .sending client) {unexpired : Bool}
    (hlast : t.active client = 1 → ∀ other ∈ requests, other.handedTo client = false)
    (hlookup : ∀ other, other ≠ client → t.clients.get request.scope = some other →
      t.isUsable other unexpired = false → Calm t requests other) :
    let found := ((t.retire request.scope client).release client).clientFor request.scope unexpired
    Good found.1 (requests.set r { request with
      repaired := true
      stage := found.2 }) := by
  intro found
  have hfailed := good_failed t requests h { request with stage := .done } hget hstage rfl hlast
  obtain ⟨hgood,hadmitted⟩ := good_client_for hfailed request.scope unexpired (by
    intro other hlisted husable hzero later hlater
    obtain ⟨hbefore,hne⟩ := (failed_lookup t request.scope client other).mp hlisted
    rw [failed_usable t request.scope hne] at husable
    rw [(failed_other t request.scope hne).1] at hzero
    rcases mem_or_eq_of_mem_set hlater with hmem | rfl
    · exact hlookup other hne hbefore husable hzero later hmem
    · rfl)
  have hlt := (List.getElem?_eq_some_iff.mp hget).1
  have hnext := good_admit hgood r { request with stage := .done } { request with
      repaired := true
      stage := found.2 }
    (List.getElem?_set_self hlt) (idle_done _ rfl) (hadmitted request.sessionBound true)
  rwa [set_set] at hnext

end Steps

section Inversion
variable (w w' : World S) (r : ℕ)

theorem resume_cases {unexpired : Bool} (h : w.step (.resume r unexpired) = some w') :
    ∃ request p e, w.requests[r]? = some request ∧ request.stage = .waiting p ∧
      w.runtime.pending[p]? = some e ∧ w.resume r request e unexpired = some w' := by
  simp only [World.step] at h
  split at h
  · rename_i request hget
    split at h
    · rename_i p hstage
      split at h
      · rename_i e hpending
        exact ⟨request,p,e,hget,hstage,hpending,h⟩
      · cases h
    · cases h
  · cases h

theorem abort_cases (h : w.step (.abort r) = some w') :
    ∃ request p, w.requests[r]? = some request ∧ request.stage = .waiting p ∧
      w' = w.put w.runtime r request .done := by
  simp only [World.step] at h
  split at h
  · rename_i request hget
    split at h
    · rename_i p hstage
      exact ⟨request,p,hget,hstage,(Option.some.inj h).symm⟩
    · cases h
  · cases h

theorem proceed_cases {canReplay : Bool} (h : w.step (.proceed r canReplay) = some w') :
    ∃ request client, w.requests[r]? = some request ∧ request.stage = .handed client ∧
      (w' = w.put w.runtime r request .done ∨
        w' = w.put (w.runtime.retain client) r request (.sending client)) := by
  simp only [World.step] at h
  split at h
  · rename_i request hget
    split at h
    · rename_i client hstage
      split_ifs at h
      · exact ⟨request,client,hget,hstage,.inl (Option.some.inj h).symm⟩
      · exact ⟨request,client,hget,hstage,.inr (Option.some.inj h).symm⟩
    · cases h
  · cases h

theorem answer_cases {outcome : Outcome} {aborted unexpired : Bool}
    (h : w.step (.answer r outcome aborted unexpired) = some w') :
    ∃ request client, w.requests[r]? = some request ∧ request.stage = .sending client ∧
      w' = w.answer r request client outcome aborted unexpired := by
  simp only [World.step] at h
  split at h
  · rename_i request hget
    split at h
    · rename_i client hstage
      exact ⟨request,client,hget,hstage,(Option.some.inj h).symm⟩
    · cases h
  · cases h

/-- The three ways a request ends its sending. -/
theorem answer_shape (request : Request S) (client : Client S) (outcome : Outcome)
    (aborted unexpired : Bool) :
    (outcome = .answered ∧ w.answer r request client outcome aborted unexpired =
      w.put (w.runtime.release client) r request .done) ∨
    (outcome ≠ .answered ∧ w.answer r request client outcome aborted unexpired =
      w.put ((w.runtime.retire request.scope client).release client) r request .done ∧
        (outcome = .recoveryHint → (request.repaired || request.sessionBound || aborted) = true)) ∨
    (outcome = .recoveryHint ∧ (request.repaired || request.sessionBound || aborted) = false ∧
      w.answer r request client outcome aborted unexpired =
        w.put (((w.runtime.retire request.scope client).release client).clientFor request.scope
          unexpired).1 r { request with repaired := true }
          (((w.runtime.retire request.scope client).release client).clientFor request.scope
            unexpired).2) := by
  cases outcome with
  | answered => exact .inl ⟨rfl,rfl⟩
  | failed =>
    refine .inr (.inl ⟨nofun,?_,nofun⟩)
    simp [World.answer]
  | recoveryHint =>
    cases hends : request.repaired || request.sessionBound || aborted with
    | true =>
      refine .inr (.inl ⟨nofun,?_,fun _ => rfl⟩)
      have hstop : (request.repaired || request.sessionBound ||
          decide (Outcome.recoveryHint ≠ Outcome.recoveryHint) || aborted) = true := by
        simpa using hends
      simp only [World.answer, if_pos hstop]
    | false =>
      refine .inr (.inr ⟨rfl,rfl,?_⟩)
      have hgoes : ¬(request.repaired || request.sessionBound ||
          decide (Outcome.recoveryHint ≠ Outcome.recoveryHint) || aborted) = true := by
        simpa using hends
      simp only [World.answer, if_neg hgoes]

end Inversion

/-- An undisturbed step keeps the invariant. -/
theorem step_good (w w' : World S) (label : Label S) (h : Good w.runtime w.requests)
    (hstep : w.step label = some w') (hcalm : Undisturbed w label) :
    Good w'.runtime w'.requests := by
  cases label with
  | request scope nonReplayable unexpired =>
    cases hstep
    obtain ⟨hgood,hadmitted⟩ := good_client_for h scope unexpired hcalm
    exact good_push hgood _ (hadmitted nonReplayable false)
  | callback scope =>
    simp only [World.step] at hstep
    cases hinvalid : w.runtime.invalidateScope scope with
    | none =>
      rw [hinvalid] at hstep
      cases hstep
      exact h
    | some t =>
      rw [hinvalid] at hstep
      cases hstep
      have hreached := reached_later hinvalid not_mem_nil
      obtain ⟨hgood,hempty,hpast⟩ := good_invalidate h hinvalid
        (hcalm scope (by rw [hreached]; exact mem_cons_self))
      have hlisted := good_list hgood hempty (by
        intro p e hget _ hscope hsame
        have hless := hpast e (List.mem_of_getElem? hget) hscope
        omega)
      exact good_begin hlisted scope ⟨scope,t.nextSerial⟩ (by simp [get_set])
  | settle p succeeded =>
    simp only [World.step] at hstep
    cases hget : w.runtime.pending[p]? with
    | none =>
      rw [hget] at hstep
      cases hstep
    | some e =>
      rw [hget] at hstep
      dsimp only at hstep
      split_ifs at hstep with hover
      cases hstep
      exact good_settled h hget (by simpa using hover) succeeded
  | resume r unexpired =>
    obtain ⟨request,p,e,hget,hstage,hpending,hresume⟩ := resume_cases w w' r hstep
    have hidle := idle_waiting hstage
    have hscope : e.scope = request.scope := by
      obtain ⟨e',he,hsame⟩ := h.waits request (List.mem_of_getElem? hget) p hstage
      rw [Option.some.inj (hpending.symm.trans he)]
      exact hsame
    unfold World.resume at hresume
    split at hresume
    · cases hresume
    · cases hresume
      exact good_admit h r request _ hget hidle trivial
    rename_i client houtcome
    obtain ⟨hplace,hcase⟩ := h.settled e (List.mem_of_getElem? hpending) client houtcome
    have hmet := hcalm request p e client hget hstage hpending houtcome
    split_ifs at hresume hmet with hchanged
    · cases hresume
      have hretired : w.runtime.retired client = true := by
        refine hcase.resolve_right (fun hlisted => hchanged ?_)
        rw [hlisted.2, hscope]
      rw [retire_again _ _ h request.scope hretired]
      obtain ⟨hgood,hadmitted⟩ := good_client_for h request.scope unexpired hmet
      exact good_admit hgood r request _ hget hidle
        (hadmitted request.sessionBound request.repaired)
    · cases hresume
      have hlisted : w.runtime.clients.get request.scope = some client := by
        rw [← hscope]
        refine (hcase.resolve_left (fun hretired => ?_)).1
        rw [hmet] at hretired
        cases hretired
      have hadmit := good_admit h r request { request with stage := .handed client } hget
        hidle hlisted
      simpa only [World.put, set_same _ _ _ hlisted] using hadmit
  | abort r =>
    obtain ⟨request,p,hget,hstage,rfl⟩ := abort_cases w w' r hstep
    exact good_admit h r request _ hget (idle_waiting hstage) trivial
  | proceed r canReplay =>
    obtain ⟨request,client,hget,hstage,rfl | rfl⟩ := proceed_cases w w' r hstep
    · exact good_drop h hget hstage
    · exact good_retain h r request client hget hstage
  | answer r outcome aborted unexpired =>
    obtain ⟨request,client,hget,hstage,rfl⟩ := answer_cases w w' r hstep
    obtain ⟨hlast,hlookup⟩ := hcalm request client hget hstage
    rcases answer_shape w r request client outcome aborted unexpired with
      ⟨_,hshape⟩ | ⟨hfailed,hshape,_⟩ | ⟨rfl,hends,hshape⟩
    · rw [hshape]
      exact good_release h _ hget hstage rfl (fun hretired => hlast (.inr hretired))
    · rw [hshape]
      exact good_failed _ _ h _ hget hstage rfl (hlast (.inl hfailed))
    · rw [hshape]
      exact good_repair _ _ h hget hstage (hlast (.inl (by simp))) (hlookup rfl hends)
  | clearScope scope =>
    cases hstep
    exact good_invalidate_all _ (nodup_singleton scope) h hcalm
  | clear covers =>
    cases hstep
    exact good_invalidate_all _ ((scopes_nodup).filter covers) h hcalm

section Disturbed
variable (t : TransportV2Runtime S) (requests : List (Request S)) (w' : World S)

/-- A client disposed by a step was not handed to a request that still has it. -/
theorem kept_unhanded (h : Kept w') (client : Client S)
    (hdisposed : 0 < w'.runtime.disposals client) (request : Request S)
    (hmem : request ∈ w'.requests) : request.handedTo client = false := by
  rw [Bool.eq_false_iff]
  intro hhanded
  have hnone := h.unheld client request hmem (handed_holds hhanded)
  omega

variable {requests}

theorem handed_stays {r : ℕ} {request : Request S} (next : Request S) {other : Request S}
    {client : Client S} (hget : requests[r]? = some request)
    (hnot : request.handedTo client = false) (hmem : other ∈ requests)
    (hhanded : other.handedTo client = true) : other ∈ requests.set r next := by
  rcases mem_set_or next hget hmem with rfl | hstays
  · rw [hnot] at hhanded
    cases hhanded
  · exact hstays

/-- The same for a step that only changes a request which was not handed the client. -/
theorem put_unhanded {r : ℕ} {request next : Request S} {client : Client S}
    (hget : requests[r]? = some request) (hnot : request.handedTo client = false)
    (h : Kept ⟨t,requests.set r next⟩) (hdisposed : 0 < t.disposals client) (other : Request S)
    (hmem : other ∈ requests) : other.handedTo client = false := by
  cases hhanded : other.handedTo client with
  | false => rfl
  | true =>
    have hstays := handed_stays next hget hnot hmem hhanded
    exact hhanded.symm.trans (kept_unhanded _ h client hdisposed other hstays)

theorem reached_calm (h : Good t requests) {scopes : List S} (hnodup : scopes.Nodup)
    (hkept : Kept ⟨t.invalidateAll scopes,requests⟩) (scope : S) (hmem : scope ∈ reached t scopes) :
    CalmEntry t requests scope := by
  intro client hlisted hactive
  exact kept_unhanded _ hkept client
    (invalidate_all_disposes t requests h hnodup hmem hlisted hactive)

end Disturbed

/-- A step after which all is kept was undisturbed. -/
theorem step_undisturbed (w w' : World S) (label : Label S) (h : Good w.runtime w.requests)
    (hstep : w.step label = some w') (hkept : Kept w') : Undisturbed w label := by
  cases label with
  | request scope nonReplayable unexpired =>
    cases hstep
    intro client hlisted husable hactive request hmem
    have hlive : w.runtime.retired client = false := h.kept.listed scope client hlisted
    exact kept_unhanded _ hkept client (client_for_disposes _ hlive hactive hlisted husable) request
      (mem_append_left _ hmem)
  | callback scope =>
    intro place hplace client hlisted hactive request hmem
    obtain rfl : place = scope := mem_singleton.mp (takeWhile_subset _ hplace)
    have hdisposed := invalidate_all_disposes _ _ h (nodup_singleton place) hplace hlisted hactive
    simp only [World.step] at hstep
    unfold invalidateAll at hdisposed
    cases hinvalid : w.runtime.invalidateScope place with
    | none =>
      rw [hinvalid] at hstep hdisposed
      cases hstep
      exact kept_unhanded _ hkept client hdisposed request hmem
    | some t =>
      rw [hinvalid] at hstep hdisposed
      cases hstep
      exact kept_unhanded _ hkept client hdisposed request (mem_append_left _ hmem)
  | settle p succeeded => trivial
  | resume r unexpired =>
    intro request p e client hget hstage hpending houtcome
    obtain ⟨request',p',e',hget',hstage',hpending',hresume⟩ := resume_cases w w' r hstep
    obtain rfl := Option.some.inj (hget.symm.trans hget')
    obtain rfl : p = p' := by
      rw [hstage] at hstage'
      cases hstage'
      rfl
    obtain rfl := Option.some.inj (hpending.symm.trans hpending')
    have hidle : ∀ held, request.handedTo held = false := by
      intro held
      rw [Request.handedTo, hstage]
    have hscope : e.scope = request.scope := by
      obtain ⟨e',he,hsame⟩ := h.waits request (List.mem_of_getElem? hget) p hstage
      rw [Option.some.inj (hpending.symm.trans he)]
      exact hsame
    obtain ⟨_,hcase⟩ := h.settled e (List.mem_of_getElem? hpending) client houtcome
    unfold World.resume at hresume
    rw [houtcome] at hresume
    dsimp only at hresume
    split_ifs at hresume ⊢ with hchanged
    · cases hresume
      have hretired : w.runtime.retired client = true := by
        refine hcase.resolve_right (fun hlisted => hchanged ?_)
        rw [hlisted.2, hscope]
      rw [retire_again _ _ h request.scope hretired] at hkept
      intro held hlisted husable hactive
      have hlive : w.runtime.retired held = false := h.kept.listed request.scope held hlisted
      exact put_unhanded _ hget (hidle held) hkept
        (client_for_disposes _ hlive hactive hlisted husable)
    · cases hresume
      exact hkept.listed request.scope client (by simp [World.put, get_set])
  | abort | proceed => trivial
  | answer r outcome aborted unexpired =>
    intro request client hget hstage
    obtain ⟨request',client',hget',hstage',rfl⟩ :=
      answer_cases w w' r hstep
    obtain rfl := Option.some.inj (hget.symm.trans hget')
    obtain rfl : client = client' := by
      rw [hstage] at hstage'
      cases hstage'
      rfl
    have hidle : ∀ held, request.handedTo held = false := by
      intro held
      rw [Request.handedTo, hstage]
    -- the last retaining request disposes the client when it fails
    have hfails : w.runtime.active client = 1 →
        0 < ((w.runtime.retire request.scope client).release client).disposals client := by
      intro hone
      rw [release_disposals, if_pos ⟨rfl,by simp [retire_retired],by rw [retire_active, hone]⟩]
      omega
    rcases answer_shape w r request client outcome aborted unexpired with
      ⟨rfl,hshape⟩ | ⟨hfailed,hshape,hends⟩ | ⟨rfl,_,hshape⟩
    · rw [hshape] at hkept
      refine ⟨fun hcase hone => ?_,by simp⟩
      have hretired := hcase.resolve_left (fun hnot => hnot rfl)
      apply put_unhanded _ hget (hidle client) hkept
      rw [release_disposals, if_pos ⟨rfl,hretired,by rw [hone]⟩]
      omega
    · rw [hshape] at hkept
      refine ⟨fun _ hone => ?_,fun hhint hgoes => ?_⟩
      · exact put_unhanded _ hget (hidle client) hkept (hfails hone)
      · rw [hends hhint] at hgoes
        cases hgoes
    · rw [hshape] at hkept
      refine ⟨fun _ hone => ?_,fun _ _ other hne hlisted husable hactive => ?_⟩
      · exact put_unhanded _ hget (hidle client) hkept
          (Nat.lt_of_lt_of_le (hfails hone) (client_for_more _ client request.scope unexpired))
      obtain ⟨hactive',_,hretired⟩ := failed_other w.runtime request.scope hne
      have hlive : w.runtime.retired other = false :=
        h.kept.listed request.scope other hlisted
      exact put_unhanded _ hget (hidle other) hkept
        (client_for_disposes _ (hretired.trans hlive) (hactive'.trans hactive)
          ((failed_lookup w.runtime request.scope client other).mpr ⟨hlisted,hne⟩)
          ((failed_usable w.runtime request.scope hne unexpired).trans husable))
  | clearScope scope =>
    cases hstep
    exact reached_calm _ h (nodup_singleton scope) hkept
  | clear covers =>
    cases hstep
    exact reached_calm _ h ((scopes_nodup).filter covers) hkept

/-- Exactly in the undisturbed runs no client is disposed under a request, none is registered
again after it was retired, and each retired one is disposed once when nobody holds it. -/
theorem clients_kept_iff (labels : List (Label S)) :
    Throughout World.step Kept (World.new : World S) labels ↔
      Along World.step Undisturbed (World.new : World S) labels :=
  throughout_iff World.step (fun w => Good w.runtime w.requests) Kept Undisturbed
    (fun _ h => h.kept) (fun w l w' => step_good w w' l) (fun w l w' => step_undisturbed w w' l)
    World.new labels good_new

/-- An establishment that may still fill its scope is the one that requests of the scope join,
and the scope has no client; requests keep to clients of their scope. -/
def Shared (w : World S) : Prop :=
  (∀ (p : ℕ) (e : PendingEstablishment S), w.runtime.pending[p]? = some e → e.outcome = none →
    e.generation = w.runtime.generations e.scope →
    w.runtime.establishing.get e.scope = some p ∧ w.runtime.clients.get e.scope = none) ∧
  ∀ request ∈ w.requests, ∀ client, request.holds client = true → client.scope = request.scope

theorem clients_shared (labels : List (Label S))
    (hcalm : Along World.step Undisturbed (World.new : World S) labels) :
    Throughout World.step Shared (World.new : World S) labels :=
  throughout_of_along World.step (fun w => Good w.runtime w.requests) Shared Undisturbed
    (fun _ h => ⟨h.running, h.home⟩) (fun w l w' => step_good w w' l) World.new labels good_new hcalm

/-- Two requests of one scope join, one of another scope does not. -/
def joinedRun : List (Label Bool) :=
  [.request false false true, .request false false true, .request true false true, .settle 0 true,
    .resume 0 true, .resume 1 true]

theorem clients_shared_sample :
    Throughout World.step Shared (World.new : World Bool) joinedRun ∧
    ∃ w, run World.step World.new joinedRun = some w ∧ w.runtime.pending.length = 2 ∧
      w.requests.map (Request.handedTo ⟨false, 0⟩) = [true, true, false] := by
  have hrun : (run World.step World.new joinedRun).map (fun w => (w.runtime.pending.length,
      w.requests.map (Request.handedTo ⟨false, 0⟩))) = some (2, [true, true, false]) := by
    decide +kernel
  obtain ⟨w,hw,hshown⟩ := Option.map_eq_some_iff.mp hrun
  rw [Prod.mk.injEq] at hshown
  refine ⟨clients_shared _ ?_, w, hw, hshown⟩
  -- no client is in the table when the requests come, and none is retired when they resume
  refine fun _ h => ⟨fun _ hclient => (by cases hclient), ?_⟩
  cases h
  refine fun _ h => ⟨fun _ hclient => (by cases hclient), ?_⟩
  cases h
  refine fun _ h => ⟨fun _ hclient => (by cases hclient), ?_⟩
  cases h
  refine fun _ h => ⟨trivial, ?_⟩
  cases h
  refine fun _ h => ⟨fun _ _ _ _ hrequest hstage he hclient => ?_, ?_⟩
  · cases hrequest
    cases hstage
    cases he
    cases hclient
    rfl
  cases h
  refine fun _ _ => ⟨fun _ _ _ _ hrequest hstage he hclient => ?_, trivial⟩
  cases hrequest
  cases hstage
  cases he
  cases hclient
  rfl

/-- A client is established and used; the next request finds it in the table, and a clear
before that request goes on disposes it. -/
def clearedRun : List (Label Unit) :=
  [.request () false true, .settle 0 true, .resume 0 true, .proceed 0 true,
    .answer 0 .answered false true, .request () false true, .clear (fun _ => true)]

/-- The client is disposed while the second request has it, and once more when that request
fails and lets it go. -/
theorem cleared_under_request :
    (∃ w, run World.step World.new clearedRun = some w ∧
      w.requests.map (Request.handedTo ⟨(), 0⟩) = [false, true] ∧
      w.runtime.disposals ⟨(), 0⟩ = 1 ∧ ¬Kept w) ∧
    ∃ w, run World.step World.new
        (clearedRun++[.proceed 1 true, .answer 1 .failed false true]) = some w ∧
      w.runtime.disposals ⟨(), 0⟩ = 2 := by
  constructor
  · have hrun : (run World.step World.new clearedRun).map (fun w =>
        (w.requests.map (Request.handedTo ⟨(), 0⟩), w.runtime.disposals ⟨(), 0⟩)) =
          some ([false, true], 1) := by
      decide +kernel
    obtain ⟨w,hw,hshown⟩ := Option.map_eq_some_iff.mp hrun
    rw [Prod.mk.injEq] at hshown
    refine ⟨w, hw, hshown.1, hshown.2, fun hkept => ?_⟩
    have hmem : true ∈ w.requests.map (Request.handedTo ⟨(), 0⟩) := by
      rw [hshown.1]
      exact List.mem_cons_of_mem _ List.mem_cons_self
    obtain ⟨request,hrequest,hhanded⟩ := List.mem_map.mp hmem
    have hnot := kept_unhanded w hkept ⟨(), 0⟩ (by omega) request hrequest
    rw [hhanded] at hnot
    cases hnot
  · have hrun : (run World.step World.new
        (clearedRun++[.proceed 1 true, .answer 1 .failed false true])).map
          (fun w => w.runtime.disposals ⟨(), 0⟩) = some 2 := by
      decide +kernel
    exact Option.map_eq_some_iff.mp hrun

end Maple.Transport.Runtime

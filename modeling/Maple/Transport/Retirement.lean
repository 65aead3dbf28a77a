import Maple.Transport.Runtime

/-!
# Retired clients and the requests that hold them

A client is held from the moment a lookup hands it over until its request lets it go, but
it is counted only once the request has retained it. Between the two a disposal is possible.
The steps at which this or a second registration of a retired client can happen are named,
and in all other runs every retired client is disposed once, as soon as nobody holds it.
-/

set_option autoImplicit false

namespace Maple.Transport.Runtime

open Keyed Run TransportV2Runtime List Function

variable {S : Type} [DecidableEq S]

section Holding

def Request.sends (client : Client S) (request : Request S) : Bool :=
  match request.stage with
  | .sending other => other = client
  | _ => false

def Request.handedTo (client : Client S) (request : Request S) : Bool :=
  match request.stage with
  | .handed other => other = client
  | _ => false

def Request.holds (client : Client S) (request : Request S) : Bool :=
  request.handedTo client || request.sends client

/-- No client is disposed while a request holds it, each retired one is disposed once and at
once when nobody does, and none is in the table. -/
structure Kept (w : World S) : Prop where
  once : ∀ client, w.runtime.retired client = true →
    (∀ request ∈ w.requests, request.holds client = false) → w.runtime.disposals client = 1
  unheld : ∀ client, ∀ request ∈ w.requests, request.holds client = true →
    w.runtime.disposals client = 0
  live : ∀ client, w.runtime.retired client = false → w.runtime.disposals client = 0
  listed : ∀ scope client, w.runtime.clients.get scope = some client →
    w.runtime.retired client = false

end Holding

section Conditions
variable (t : TransportV2Runtime S) (requests : List (Request S))

/-- If no request has retained the client, none was handed it either. -/
def Calm (client : Client S) : Prop :=
  t.active client = 0 → ∀ request ∈ requests, request.handedTo client = false

def CalmEntry (scope : S) : Prop :=
  ∀ client, t.clients.get scope = some client → Calm t requests client

def CalmLookup (scope : S) (unexpired : Bool) : Prop :=
  ∀ client, t.clients.get scope = some client → t.isUsable client unexpired = false →
    Calm t requests client

def reached (scopes : List S) : List S :=
  scopes.takeWhile (fun scope => t.generations scope < maxSafeInteger)

end Conditions

/-- No step lets a retired client go, or retires one, under a request that was handed it and
has not yet retained it, and no waiter comes back to a client retired in the meantime. -/
def Undisturbed (w : World S) : Label S → Prop
  | .request scope _ unexpired => CalmLookup w.runtime w.requests scope unexpired
  | .callback scope => ∀ s ∈ reached w.runtime [scope], CalmEntry w.runtime w.requests s
  | .settle _ _ => True
  | .resume r unexpired => ∀ request pending e client, w.requests[r]? = some request →
      request.stage = .waiting pending → w.runtime.pending[pending]? = some e →
      e.outcome = some (some client) →
        if w.runtime.generations request.scope ≠ e.generation
          then CalmLookup w.runtime w.requests request.scope unexpired
          else w.runtime.retired client = false
  | .abort _ => True
  | .proceed _ _ => True
  | .answer r outcome aborted unexpired => ∀ request client, w.requests[r]? = some request →
      request.stage = .sending client →
        ((outcome ≠ .answered ∨ w.runtime.retired client = true) → w.runtime.active client = 1 →
          ∀ other ∈ w.requests, other.handedTo client = false) ∧
        (outcome = .recoveryHint → (request.repaired || request.sessionBound || aborted) = false →
          ∀ other, other ≠ client → w.runtime.clients.get request.scope = some other →
            w.runtime.isUsable other unexpired = false → Calm w.runtime w.requests other)
  | .clearScope scope => ∀ s ∈ reached w.runtime [scope], CalmEntry w.runtime w.requests s
  | .clear covers => ∀ s ∈ reached w.runtime (w.runtime.scopes.filter covers),
      CalmEntry w.runtime w.requests s

section Fields
variable (t : TransportV2Runtime S) (scope : S) (client : Client S)

/-- Retiring changes the table, the retired clients and the disposals. -/
theorem retire_eq : t.retire scope client = { t with
    clients := (t.unlist scope client).clients
    retired := fun other => decide (other = client) || t.retired other
    disposals := fun other => t.disposals other+
      (if other = client ∧ t.retired client = false ∧ t.active client = 0 then 1 else 0) } := by
  have hunlist : t.unlist scope client = { t with clients := (t.unlist scope client).clients } := by
    unfold unlist
    split_ifs <;> rfl
  unfold retire
  rw [hunlist]
  dsimp only
  split_ifs with hretired hactive <;>
    simp only [dispose, TransportV2Runtime.mk.injEq, true_and, and_true, funext_iff, update_apply,
      ← forall_and] <;>
    intro other
  · by_cases hsame : other = client <;> simp [hsame, hretired]
  · by_cases hsame : other = client <;> simp [hsame, hretired, hactive]
  · by_cases hsame : other = client <;> simp [hsame, hactive]

@[simp] theorem retire_active : (t.retire scope client).active = t.active := by
  rw [retire_eq]

@[simp] theorem retire_generations : (t.retire scope client).generations = t.generations := by
  rw [retire_eq]

@[simp] theorem retire_pending : (t.retire scope client).pending = t.pending := by
  rw [retire_eq]

theorem unlist_clients (other : S) : (t.unlist scope client).clients.get other =
    if other = scope ∧ t.clients.get scope = some client then none else t.clients.get other := by
  unfold unlist
  by_cases hlisted : t.clients.get scope = some client
  · rw [if_pos hlisted]
    simp [get_remove, hlisted]
  · simp [hlisted]

theorem retire_clients (other : S) : (t.retire scope client).clients.get other =
    if other = scope ∧ t.clients.get scope = some client then none else t.clients.get other := by
  rw [retire_eq, ← unlist_clients]

variable (other : Client S)

theorem retire_retired : (t.retire scope client).retired other =
    (decide (other = client) || t.retired other) := by
  rw [retire_eq]

theorem retire_disposals : (t.retire scope client).disposals other = t.disposals other+
      (if other = client ∧ t.retired client = false ∧ t.active client = 0 then 1 else 0) := by
  rw [retire_eq]

/-- Releasing changes the count and the disposals of the client. -/
theorem release_eq : t.release client = { t with
    active := Function.update t.active client (t.active client-1)
    disposals := fun other => t.disposals other+
      (if other = client ∧ t.retired client = true ∧ t.active client-1 = 0 then 1 else 0) } := by
  simp only [release, dispose]
  split_ifs with hmore hretired <;>
    simp only [TransportV2Runtime.mk.injEq, true_and, and_true, funext_iff, update_apply] <;>
    intro other
  · simp [Nat.ne_of_gt hmore]
  · by_cases hsame : other = client <;> simp [hsame, hretired]
    omega
  · simp [hretired]

theorem release_disposals : (t.release client).disposals other = t.disposals other+
      (if other = client ∧ t.retired client = true ∧ t.active client-1 = 0 then 1 else 0) := by
  rw [release_eq]

end Fields

section Good

def Known (t : TransportV2Runtime S) (requests : List (Request S)) (client : Client S) : Prop :=
  t.retired client = true ∨ t.clients.get client.scope = some client ∨
    (∃ request ∈ requests, request.holds client = true) ∨
    ∃ e ∈ t.pending, e.outcome = some (some client)

/-- What holds between the steps of an undisturbed run. The table has the client of every
establishment of the current generation that is not retired. -/
structure Good (t : TransportV2Runtime S) (requests : List (Request S)) : Prop where
  kept : Kept ⟨t, requests⟩
  counted : ∀ client, t.active client = requests.countP (Request.sends client)
  guarded : ∀ client, t.retired client = true → ∀ request ∈ requests,
    request.handedTo client = true → 0 < t.active client
  placed : ∀ scope client, t.clients.get scope = some client → client.scope = scope
  home : ∀ request ∈ requests, ∀ client, request.holds client = true →
    client.scope = request.scope
  issued : ∀ client, Known t requests client → client.serial < t.nextSerial
  past : ∀ e ∈ t.pending, e.generation ≤ t.generations e.scope
  running : ∀ p e, t.pending[p]? = some e → e.outcome = none →
    e.generation = t.generations e.scope →
      t.establishing.get e.scope = some p ∧ t.clients.get e.scope = none
  settled : ∀ e ∈ t.pending, ∀ client, e.outcome = some (some client) →
    client.scope = e.scope ∧ (t.retired client = true ∨
      t.clients.get e.scope = some client ∧ e.generation = t.generations e.scope)
  named : ∀ scope p, t.establishing.get scope = some p →
    ∃ e, t.pending[p]? = some e ∧ e.scope = scope
  waits : ∀ request ∈ requests, ∀ p, request.stage = .waiting p →
    ∃ e, t.pending[p]? = some e ∧ e.scope = request.scope

theorem holds_iff (client : Client S) (request : Request S) :
    request.holds client = true ↔
      request.stage = .handed client ∨ request.stage = .sending client := by
  unfold Request.holds Request.handedTo Request.sends
  cases request.stage <;> simp

theorem handed_iff (client : Client S) (request : Request S) :
    request.handedTo client = true ↔ request.stage = .handed client := by
  unfold Request.handedTo
  cases request.stage <;> simp

theorem sends_iff (client : Client S) (request : Request S) :
    request.sends client = true ↔ request.stage = .sending client := by
  unfold Request.sends
  cases request.stage <;> simp

variable {client : Client S} {request : Request S}

theorem handed_holds (h : request.handedTo client = true) : request.holds client = true := by
  rw [Request.holds, h, Bool.true_or]

theorem sends_holds (h : request.sends client = true) : request.holds client = true := by
  rw [Request.holds, h, Bool.or_true]

variable (t : TransportV2Runtime S) {requests : List (Request S)}

theorem active_pos (h : Good t requests) (client : Client S) :
    0 < t.active client ↔ ∃ request ∈ requests, request.sends client = true := by
  rw [h.counted, countP_pos_iff]

/-- A held client without a retaining request was handed over. -/
theorem held_calm (h : Good t requests) (client : Client S) (hcalm : Calm t requests client)
    (hactive : t.active client = 0) : ∀ request ∈ requests, request.holds client = false := by
  intro request hmem
  rw [Bool.eq_false_iff]
  intro hholds
  rw [Request.holds, hcalm hactive request hmem, Bool.false_or] at hholds
  have hpos := (active_pos t h client).mpr ⟨request,hmem,hholds⟩
  omega

theorem good_new : Good (TransportV2Runtime.new : TransportV2Runtime S) [] where
  kept := ⟨nofun,nofun,fun _ _ => rfl,nofun⟩
  counted _ := rfl
  guarded := nofun
  placed := nofun
  home := nofun
  issued client hknown := by
    rcases hknown with h | h | ⟨_,h,_⟩ | ⟨_,h,_⟩ <;> cases h
  past := nofun
  running p e h := by cases p <;> cases h
  settled := nofun
  named := nofun
  waits := nofun

theorem good_retire (scope : S) (client : Client S) (h : Good t requests)
    (hscope : client.scope = scope) (hissued : client.serial < t.nextSerial)
    (hcalm : t.retired client = false → Calm t requests client) :
    Good (t.retire scope client) requests := by
  have hother : ∀ other, ¬(other = client ∧ t.retired client = false ∧ t.active client = 0) →
      (t.retire scope client).disposals other = t.disposals other := by
    intro other hnot
    rw [retire_disposals, if_neg hnot, Nat.add_zero]
  have hclients : ∀ place other, (t.retire scope client).clients.get place = some other →
      t.clients.get place = some other ∧ other ≠ client := by
    intro place other hget
    rw [retire_clients] at hget
    split_ifs at hget with hgone
    refine ⟨hget,fun hsame => hgone ?_⟩
    have hplace : place = scope := by
      rw [← h.placed place other hget, hsame, hscope]
    exact ⟨hplace,by rw [← hplace, hget, hsame]⟩
  have hkept : Kept ⟨t.retire scope client,requests⟩ := by
    constructor
    · intro other hretired hfree
      by_cases hsame : other = client
      · subst hsame
        cases hold : t.retired other with
        | true =>
          refine (hother other (fun hnew => ?_)).trans (h.kept.once other hold hfree)
          rw [hold] at hnew
          cases hnew.2.1
        | false =>
          have hactive : t.active other = 0 := by
            by_contra hne
            obtain ⟨request,hmem,hsends⟩ :=
              (active_pos t h other).mp (Nat.pos_of_ne_zero hne)
            have hholds := hfree request hmem
            rw [sends_holds hsends] at hholds
            cases hholds
          show (t.retire scope other).disposals other = 1
          rw [retire_disposals, if_pos ⟨rfl,hold,hactive⟩]
          have hlive : t.disposals other = 0 := h.kept.live other hold
          rw [hlive]
      · have hold : t.retired other = true := by
          simpa [retire_retired, hsame] using hretired
        exact (hother other (fun hnew => hsame hnew.1)).trans (h.kept.once other hold hfree)
    · intro other request hmem hholds
      refine (hother other (fun hnew => ?_)).trans (h.kept.unheld other request hmem hholds)
      have hfree := held_calm t h client (hcalm hnew.2.1) hnew.2.2 request hmem
      rw [← hnew.1, hholds] at hfree
      cases hfree
    · intro other hlive
      have hboth : other ≠ client ∧ t.retired other = false := by
        simpa [retire_retired] using hlive
      exact (hother other (fun hnew => hboth.1 hnew.1)).trans (h.kept.live other hboth.2)
    · intro place other hget
      obtain ⟨hbefore,hne⟩ := hclients place other hget
      have hlive : t.retired other = false := h.kept.listed place other hbefore
      show (t.retire scope client).retired other = false
      rw [retire_retired, hlive]
      simpa using hne
  rw [retire_eq] at hkept hclients ⊢
  refine { h with
    kept := hkept
    placed := fun place other hget => h.placed place other (hclients place other hget).1
    guarded := ?_
    issued := ?_
    running := ?_
    settled := ?_ }
  · intro other hretired request hmem hhanded
    by_contra hzero
    have hactive : t.active other = 0 := Nat.eq_zero_of_not_pos hzero
    cases hold : t.retired other with
    | true => exact hzero (h.guarded other hold request hmem hhanded)
    | false =>
      have hsame : other = client := by simpa [hold] using hretired
      subst hsame
      have hfree := hcalm hold hactive request hmem
      rw [hhanded] at hfree
      cases hfree
  · intro other hknown
    by_cases hsame : other = client
    · rw [hsame]
      exact hissued
    exact h.issued other (hknown.imp (fun hretired => by simpa [hsame] using hretired)
      (Or.imp_left (fun hlisted => (hclients _ _ hlisted).1)))
  · intro p e hget hrunning hcurrent
    obtain ⟨hjoined,hempty⟩ := h.running p e hget hrunning hcurrent
    refine ⟨hjoined,?_⟩
    rw [unlist_clients, hempty, ite_self]
  · intro e hmem other hsettled
    obtain ⟨hplace,hcase⟩ := h.settled e hmem other hsettled
    refine ⟨hplace,?_⟩
    by_cases hsame : other = client
    · exact .inl (by simp [hsame])
    refine hcase.imp (fun hretired => by simp [hretired]) (fun ⟨hlisted,hcurrent⟩ => ?_)
    refine ⟨?_,hcurrent⟩
    rw [unlist_clients, if_neg, hlisted]
    rintro ⟨hscope',hclient⟩
    rw [hscope', hclient] at hlisted
    exact hsame (Option.some.inj hlisted).symm

def Admitted (t : TransportV2Runtime S) (request : Request S) : Prop :=
  match request.stage with
  | .waiting p => ∃ e, t.pending[p]? = some e ∧ e.scope = request.scope
  | .handed client => t.clients.get request.scope = some client
  | .sending _ => False
  | .done => True

variable {t}

omit t in
/-- If every holder has a successor, a client that is free now was free before. -/
theorem free_before {requests' : List (Request S)}
    (hforth : ∀ request ∈ requests, request.holds client = true →
      ∃ other ∈ requests', other.holds client = true)
    (hfree : ∀ request ∈ requests', request.holds client = false) :
    ∀ request ∈ requests, request.holds client = false := by
  intro request hmem
  rw [Bool.eq_false_iff]
  intro hholds
  obtain ⟨other,hother,hstill⟩ := hforth request hmem hholds
  have hnot := hfree other hother
  rw [hstill] at hnot
  cases hnot

theorem admitted_quiet (hadmitted : Admitted t request) (client : Client S) :
    request.sends client = false := by
  rw [Bool.eq_false_iff]
  intro hsends
  unfold Admitted at hadmitted
  rw [(sends_iff client request).mp hsends] at hadmitted
  exact hadmitted

/-- The requests change: nobody begins or ends sending, new holders have the client from the
table, and a retired client keeps a holder. -/
theorem good_requests (h : Good t requests) (requests' : List (Request S))
    (hcount : ∀ client, requests'.countP (Request.sends client) =
      requests.countP (Request.sends client))
    (hback : ∀ request ∈ requests', request ∈ requests ∨ Admitted t request)
    (hforth : ∀ client, t.retired client = true → ∀ request ∈ requests,
      request.holds client = true → ∃ other ∈ requests', other.holds client = true) :
    Good t requests' := by
  have hnew : ∀ request, Admitted t request → ∀ client, request.holds client = true →
      t.clients.get request.scope = some client := by
    intro request hadmitted client hholds
    unfold Admitted at hadmitted
    rcases (holds_iff client request).mp hholds with hstage | hstage
    · rw [hstage] at hadmitted
      exact hadmitted
    · rw [hstage] at hadmitted
      exact absurd hadmitted not_false
  refine { h with
    kept := { h.kept with once := ?_, unheld := ?_ }
    counted := fun client => (h.counted client).trans (hcount client).symm
    guarded := ?_
    home := ?_
    issued := ?_
    waits := ?_ }
  · exact fun client hretired hfree => h.kept.once client hretired
      (free_before (hforth client hretired) hfree)
  · intro client request hmem hholds
    rcases hback request hmem with hbefore | hadmitted
    · exact h.kept.unheld client request hbefore hholds
    · exact h.kept.live client (h.kept.listed _ _ (hnew request hadmitted client hholds))
  · intro client hretired request hmem hhanded
    rcases hback request hmem with hbefore | hadmitted
    · exact h.guarded client hretired request hbefore hhanded
    · have hlive := h.kept.listed _ _ (hnew request hadmitted client (handed_holds hhanded))
      rw [hretired] at hlive
      cases hlive
  · intro request hmem client hholds
    rcases hback request hmem with hbefore | hadmitted
    · exact h.home request hbefore client hholds
    · exact h.placed _ _ (hnew request hadmitted client hholds)
  · intro client hknown
    apply h.issued
    rcases hknown with hretired | hlisted | ⟨request,hmem,hholds⟩ | hsettled
    · exact .inl hretired
    · exact .inr (.inl hlisted)
    · rcases hback request hmem with hbefore | hadmitted
      · exact .inr (.inr (.inl ⟨request,hbefore,hholds⟩))
      · have hlisted := hnew request hadmitted client hholds
        rw [← h.placed _ _ hlisted] at hlisted
        exact .inr (.inl hlisted)
    · exact .inr (.inr (.inr hsettled))
  · intro request hmem p hstage
    rcases hback request hmem with hbefore | hadmitted
    · exact h.waits request hbefore p hstage
    · unfold Admitted at hadmitted
      rw [hstage] at hadmitted
      exact hadmitted

variable {r : ℕ}

omit [DecidableEq S] in
theorem mem_set_or (next : Request S) {other : Request S} (hget : requests[r]? = some request)
    (hmem : other ∈ requests) : other = request ∨ other ∈ requests.set r next := by
  obtain ⟨q,hq⟩ := List.getElem?_of_mem hmem
  by_cases hsame : r = q
  · subst hsame
    exact .inl (Option.some.inj (hq.symm.trans hget))
  · right
    apply List.mem_of_getElem? (i := q)
    rw [List.getElem?_set_ne hsame, hq]

theorem count_set (next : Request S) (hget : requests[r]? = some request) (client : Client S) :
    (requests.set r next).countP (Request.sends client)+(request.sends client).toNat =
      requests.countP (Request.sends client)+(next.sends client).toNat := by
  obtain ⟨hlt,hrequest⟩ := List.getElem?_eq_some_iff.mp hget
  rw [countP_set hlt, hrequest]
  have hpos : request.sends client = true → 0 < requests.countP (Request.sends client) :=
    fun hsends => countP_pos_iff.mpr ⟨request,List.mem_of_getElem? hget,hsends⟩
  cases hold : request.sends client with
  | false => cases next.sends client <;> simp
  | true =>
    have := hpos hold
    cases next.sends client <;> simp <;> omega

/-- A request that begins or ends to send with a client moves the count of that client. -/
theorem counted_set (h : Good t requests) (next : Request S) (hget : requests[r]? = some request)
    (before after : Bool) (hold : ∀ other, request.sends other = (before && decide (client = other)))
    (hnew : ∀ other, next.sends other = (after && decide (client = other))) (other : Client S) :
    Function.update t.active client (t.active client+after.toNat-before.toNat) other =
      (requests.set r next).countP (Request.sends other) := by
  have hcount := count_set next hget other
  rw [hold, hnew, ← h.counted other] at hcount
  rw [update_apply]
  by_cases heq : other = client
  · subst heq
    simp only [decide_true, Bool.and_true] at hcount
    rw [if_pos rfl]
    omega
  · have hne : ¬client = other := fun hsym => heq hsym.symm
    simp only [hne, decide_false, Bool.and_false] at hcount
    rw [if_neg heq]
    omega

/-- A request without a client takes a stage the runtime admits. -/
theorem good_admit (h : Good t requests) (r : ℕ) (request next : Request S)
    (hget : requests[r]? = some request) (hidle : ∀ client, request.holds client = false)
    (hadmitted : Admitted t next) : Good t (requests.set r next) := by
  apply good_requests h
  · intro client
    have hcount := count_set next hget client
    have hold : request.sends client = false := by
      have hholds := hidle client
      rw [Request.holds, Bool.or_eq_false_iff] at hholds
      exact hholds.2
    rw [hold, admitted_quiet hadmitted client] at hcount
    exact hcount
  · intro other hmem
    rcases mem_or_eq_of_mem_set hmem with hbefore | rfl
    · exact .inl hbefore
    · exact .inr hadmitted
  · intro client _ other hmem hholds
    rcases mem_set_or next hget hmem with rfl | hstays
    · rw [hidle client] at hholds
      cases hholds
    · exact ⟨other,hstays,hholds⟩

theorem good_push (h : Good t requests) (next : Request S) (hadmitted : Admitted t next) :
    Good t (requests++[next]) := by
  apply good_requests h
  · intro client
    rw [countP_append, countP_singleton, admitted_quiet hadmitted client]
    rfl
  · intro other hmem
    rcases mem_append.mp hmem with hbefore | hnew
    · exact .inl hbefore
    · rw [mem_singleton.mp hnew]
      exact .inr hadmitted
  · exact fun client _ other hmem hholds => ⟨other,mem_append_left _ hmem,hholds⟩

/-- A request drops a client it has not retained: if the client is retired, another request
still sends with it. -/
theorem good_drop (h : Good t requests) (hget : requests[r]? = some request)
    (hstage : request.stage = .handed client) :
    Good t (requests.set r { request with stage := .done }) := by
  have hmem := List.mem_of_getElem? hget
  have hsilent : ∀ other, request.sends other = false := by
    intro other
    rw [Request.sends, hstage]
  apply good_requests h
  · intro other
    have hcount := count_set { request with stage := .done } hget other
    rw [hsilent other] at hcount
    exact hcount
  · intro other hother
    rcases mem_or_eq_of_mem_set hother with hbefore | rfl
    · exact .inl hbefore
    · exact .inr trivial
  intro held hretired other hother hholds
  rcases mem_set_or { request with stage := .done } hget hother with
    rfl | hstays
  · rw [Request.holds, hsilent held, Bool.or_false] at hholds
    have hpos := h.guarded held hretired other hother hholds
    obtain ⟨sender,hsender,hsends⟩ := (active_pos t h held).mp hpos
    rcases mem_set_or { other with stage := .done } hget hsender with
      rfl | hstays
    · rw [hsilent held] at hsends
      cases hsends
    · exact ⟨sender,hstays,sends_holds hsends⟩
  · exact ⟨other,hstays,hholds⟩

theorem good_retain (h : Good t requests) (r : ℕ) (request : Request S) (client : Client S)
    (hget : requests[r]? = some request) (hstage : request.stage = .handed client) :
    Good (t.retain client) (requests.set r { request with stage := .sending client }) := by
  have hmem := List.mem_of_getElem? hget
  have hlt := (List.getElem?_eq_some_iff.mp hget).1
  let next : Request S := { request with stage := .sending client }
  have hmore : ∀ other, t.active other ≤ (t.retain client).active other := by
    intro other
    simp only [retain, update_apply]
    split_ifs with hsame
    · rw [hsame]
      omega
    · exact Nat.le_refl _
  have hsame : ∀ other, next.holds other = request.holds other := by
    intro other
    simp only [next, Request.holds, Request.handedTo, Request.sends, hstage, Bool.or_false,
      Bool.false_or]
  have hback : ∀ other ∈ requests.set r next, ∀ held, other.holds held = true →
      ∃ before ∈ requests, before.holds held = true ∧ before.scope = other.scope := by
    intro other hother held hholds
    rcases mem_or_eq_of_mem_set hother with hbefore | rfl
    · exact ⟨other,hbefore,hholds,rfl⟩
    · exact ⟨request,hmem,(hsame held).symm.trans hholds,rfl⟩
  have hforth : ∀ other ∈ requests, ∀ held, other.holds held = true →
      ∃ after ∈ requests.set r next, after.holds held = true := by
    intro other hother held hholds
    rcases mem_set_or next hget hother with rfl | hstays
    · exact ⟨next,mem_set hlt next,(hsame held).trans hholds⟩
    · exact ⟨other,hstays,hholds⟩
  refine { h with
    kept := { h.kept with
      once := fun held hretired hfree => h.kept.once held hretired
        (free_before (fun other hother => hforth other hother held) hfree)
      unheld := ?_ }
    counted := counted_set h next hget false true
      (fun other => by rw [Request.sends, hstage, Bool.false_and]) (fun _ => rfl)
    guarded := ?_
    home := ?_
    issued := ?_
    waits := ?_ }
  · intro held other hother hholds
    obtain ⟨before,hbefore,hheld,_⟩ := hback other hother held hholds
    exact h.kept.unheld held before hbefore hheld
  · intro held hretired other hother hhanded
    rcases mem_or_eq_of_mem_set hother with hbefore | rfl
    · exact Nat.lt_of_lt_of_le (h.guarded held hretired other hbefore hhanded) (hmore held)
    · cases (handed_iff held _).mp hhanded
  · intro other hother held hholds
    obtain ⟨before,hbefore,hheld,hscope⟩ := hback other hother held hholds
    rw [← hscope]
    exact h.home before hbefore held hheld
  · refine fun held hknown => h.issued held (hknown.imp_right (Or.imp_right (Or.imp_left ?_)))
    rintro ⟨other,hother,hholds⟩
    obtain ⟨before,hbefore,hheld,_⟩ := hback other hother held hholds
    exact ⟨before,hbefore,hheld⟩
  · intro other hother p hwaiting
    rcases mem_or_eq_of_mem_set hother with hbefore | rfl
    · exact h.waits other hbefore p hwaiting
    · cases hwaiting

theorem good_release (h : Good t requests) (next : Request S) (hget : requests[r]? = some request)
    (hstage : request.stage = .sending client) (hdone : next.stage = .done)
    (hlast : t.retired client = true → t.active client = 1 → ∀ other ∈ requests,
      other.handedTo client = false) :
    Good (t.release client) (requests.set r next) := by
  have hmem := List.mem_of_getElem? hget
  have hsends : request.sends client = true := (sends_iff client request).mpr hstage
  have hpos : 0 < t.active client := (active_pos t h client).mpr ⟨request,hmem,hsends⟩
  have hidle : ∀ held, next.holds held = false := by
    intro held
    rw [Request.holds, Request.handedTo, Request.sends, hdone]
    rfl
  have hback : ∀ other ∈ requests.set r next, ∀ held, other.holds held = true →
      other ∈ requests := by
    intro other hother held hholds
    rcases mem_or_eq_of_mem_set hother with hbefore | rfl
    · exact hbefore
    · rw [hidle held] at hholds
      cases hholds
  have hcounted : ∀ other, Function.update t.active client (t.active client-1) other =
      (requests.set r next).countP (Request.sends other) := counted_set h next hget true false
    (fun other => by rw [Request.sends, hstage, Bool.true_and])
    (fun other => by rw [Request.sends, hdone, Bool.false_and])
  -- the retired client is let go exactly when nobody holds it any more
  have hfreed : t.retired client = true → t.active client = 1 →
      ∀ other ∈ requests.set r next, other.holds client = false := by
    intro hretired hone other hother
    rw [Bool.eq_false_iff]
    intro hholds
    have hbefore := hback other hother client hholds
    rw [Request.holds, hlast hretired hone other hbefore, Bool.false_or] at hholds
    have hzero := hcounted client
    rw [update_self, hone] at hzero
    exact absurd (countP_pos_iff.mpr ⟨other,hother,hholds⟩) (by omega)
  rw [release_eq]
  refine { h with
    kept := { h.kept with once := ?_, unheld := ?_, live := ?_ }
    counted := hcounted
    guarded := ?_
    home := fun other hother held hholds => h.home other (hback other hother held hholds) held hholds
    issued := ?_
    waits := ?_ }
  · intro held hretired hfree
    by_cases hsame : held = client
    · subst hsame
      have hone : t.active held = 1 := by
        have hzero := hcounted held
        rw [update_self, countP_eq_zero.mpr] at hzero
        · omega
        intro other hother hsending
        have hnot := hfree other hother
        rw [sends_holds hsending] at hnot
        cases hnot
      have hnone : t.disposals held = 0 := h.kept.unheld held request hmem (sends_holds hsends)
      simp [hnone, hone, show t.retired held = true from hretired]
    · dsimp only
      rw [if_neg (fun hnew => hsame hnew.1), Nat.add_zero]
      refine h.kept.once held hretired (fun other hother => ?_)
      rcases mem_set_or next hget hother with rfl | hstays
      · rw [Request.holds, Request.handedTo, Request.sends, hstage]
        simpa using fun hsym => hsame hsym.symm
      · exact hfree other hstays
  · intro held other hother hholds
    have hbefore := hback other hother held hholds
    have hnone : t.disposals held = 0 := h.kept.unheld held other hbefore hholds
    dsimp only
    rw [hnone, if_neg, Nat.add_zero]
    rintro ⟨rfl,hretired,hzero⟩
    have hfree := hfreed hretired (by omega) other hother
    rw [hholds] at hfree
    cases hfree
  · intro held hlive
    have hnone : t.disposals held = 0 := h.kept.live held hlive
    dsimp only at hlive ⊢
    rw [hnone, if_neg, Nat.add_zero]
    rintro ⟨rfl,hretired,_⟩
    rw [hlive] at hretired
    cases hretired
  · intro held hretired other hother hhanded
    have hbefore := hback other hother held (handed_holds hhanded)
    have hmany := h.guarded held hretired other hbefore hhanded
    dsimp only
    rw [update_apply]
    split_ifs with hsame
    · subst hsame
      by_contra hzero
      have hfree := hlast hretired (by omega) other hbefore
      rw [hhanded] at hfree
      cases hfree
    · exact hmany
  · refine fun held hknown => h.issued held (hknown.imp_right (Or.imp_right (Or.imp_left ?_)))
    exact fun ⟨other,hother,hholds⟩ => ⟨other,hback other hother held hholds,hholds⟩
  · intro other hother p hwaiting
    rcases mem_or_eq_of_mem_set hother with hbefore | rfl
    · exact h.waits other hbefore p hwaiting
    · rw [hdone] at hwaiting
      cases hwaiting

end Good

end Maple.Transport.Runtime

import Maple.Sends.SendOnce

/-!
# Recovering a send

A client writes a send to its connection, loses the connection at any point and asks over a
new one what became of the send. The host reads, queues, reserves and dispatches what was
written on its own threads, so an answer that nothing is recorded may come before the
reservation.
-/

set_option autoImplicit false

namespace Maple.Sends

open List Function

inductive Verdict where
  | finished (result : SendResult)
  | safe
  | again
  | unknown

def verdict : Except String Outcome → Verdict
  | .ok (.finished result) => .finished result
  | .ok .missing => .safe
  | .ok .pending => .again
  | .ok .interrupted => .again
  | .error _ => .unknown

def Verdict.isSafe : Verdict → Bool
  | .safe => true
  | _ => false

structure World (Digest : Type) where
  host : State Digest
  /-- What is on a connection and not yet read. -/
  wire : ℕ → Option (String × Parameters)
  written : List (ℕ × String)
  /-- The requests that a recovery called safe to send again. -/
  cleared : List ℕ
  /-- Those of them that were dispatched afterwards. -/
  late : List ℕ

inductive Event where
  | write (request : ℕ) (id : String) (parameters : Parameters)
  | lose (request : ℕ)
  | read (request : ℕ)
  | query (user id : String)
  | host (action : Action)

def Action.isSend : Action → Bool
  | .send _ _ _ => true
  | _ => false

def Phase.waits : Phase → Bool
  | .arrived => true
  | .admitted => true
  | _ => false

section Recovery
variable {Digest : Type} (host : Host Digest)

def World.start : World Digest := ⟨Sends.start, fun _ => none, [], [], []⟩

def World.isLate (w : World Digest) : Action → List ℕ
  | .dispatch request => if request ∈ w.cleared then [request] else []
  | _ => []

def World.step [DecidableEq Digest] (w : World Digest) : Event → Option (World Digest)
  | .write request id parameters =>
    if request ∈ w.written.map Prod.fst then none
    else some { w with
      wire := Function.update w.wire request (some (id, parameters))
      written := (request, id)::w.written }
  | .lose request => some { w with wire := Function.update w.wire request none }
  | .read request =>
    match w.wire request with
    | none => none
    | some (id, parameters) =>
      (Sends.step host w.host (.send request id parameters)).map (fun s =>
        { w with host := s, wire := Function.update w.wire request none })
  | .query user id =>
    if (verdict (receiptOutcome host w.host user id)).isSafe then
      some { w with
        cleared := w.cleared++(w.written.filter (fun sent => sent.2 = id)).map Prod.fst }
    else some w
  | .host action =>
    if action.isSend then none
    else (Sends.step host w.host action).map (fun s =>
      { w with host := s, late := w.late++w.isLate action })

/-- A request with this id is still coming, or waits in the host for its dispatch. -/
def Underway (w : World Digest) (id : String) : Prop :=
  (∃ request parameters, w.wire request = some (id, parameters)) ∨
    ∃ request flight, w.host.flights request = some flight ∧ flight.id = id ∧
      flight.phase.waits = true

/-- The step is no recovery, or its answer calls nothing safe that is still underway. -/
def Settled (w : World Digest) : Event → Prop
  | .query user id =>
    (verdict (receiptOutcome host w.host user id)).isSafe = true → ¬Underway w id
  | _ => True

structure Tracked (w : World Digest) : Prop where
  wired : ∀ request id parameters, w.wire request = some (id, parameters) →
    request ∈ w.written.map Prod.fst ∧ ∀ other, (request, other) ∈ w.written → other = id
  flying : ∀ request flight, w.host.flights request = some flight →
    request ∈ w.written.map Prod.fst ∧ ∀ other, (request, other) ∈ w.written → other = flight.id
  spent : ∀ request ∈ w.cleared, request ∈ w.written.map Prod.fst ∧ w.wire request = none ∧
    ∀ flight, w.host.flights request = some flight → flight.phase.waits = false
  timely : w.late = []

theorem tracked_start : Tracked (World.start : World Digest) where
  wired := by intro request id parameters h; cases h
  flying := by intro request flight h; cases h
  spent := by intro request h; cases h
  timely := rfl

/-- Requests only go, or go on: none starts to wait again. -/
def Onward (s s' : State Digest) : Prop :=
  ∀ request flight', s'.flights request = some flight' →
    ∃ flight, s.flights request = some flight ∧ flight.id = flight'.id ∧
      (flight'.phase.waits = true → flight.phase.waits = true)

variable {s s' : State Digest} {request : ℕ} {id : String} {parameters : Parameters}

theorem onward_put {flight : Flight} (next : Flight) (hf : s.flights request = some flight)
    (hid : next.id = flight.id) (hwaits : flight.phase.waits = true ∨ next.phase.waits = false)
    (h : s'.flights = (s.put request next).flights) : Onward s s' := by
  intro other found hfound
  rw [h] at hfound
  rcases put_flight hfound with ⟨rfl,rfl⟩ | ⟨-,hfound⟩
  · refine ⟨flight,hf,hid.symm,fun hwaiting => ?_⟩
    rcases hwaits with hold | hnew
    · exact hold
    · rw [hnew] at hwaiting
      cases hwaiting
  · exact ⟨found,hfound,rfl,id⟩

variable {w : World Digest}

/-- What is written under a new number is on its connection, and nowhere else. -/
theorem tracked_write (hw : Tracked w) (request : ℕ) (id : String) (parameters : Parameters)
    (hnew : request ∉ w.written.map Prod.fst) :
    Tracked { w with
      wire := Function.update w.wire request (some (id, parameters))
      written := (request, id)::w.written } := by
  have hfresh : ∀ other, (request, other) ∉ w.written :=
    fun other hmem => hnew (mem_map_of_mem hmem)
  constructor
  · intro other id' parameters' hwire
    by_cases hsame : other = request
    · subst hsame
      simp only [update_self] at hwire
      cases hwire
      refine ⟨by simp,fun id' hmem => ?_⟩
      rcases mem_cons.mp hmem with heq | hold
      · exact (Prod.mk.inj heq).2
      · exact absurd hold (hfresh id')
    · simp only [update_of_ne hsame] at hwire
      obtain ⟨hin,hid⟩ := hw.wired other id' parameters' hwire
      refine ⟨mem_cons_of_mem _ hin,fun id'' hmem => ?_⟩
      rcases mem_cons.mp hmem with heq | hold
      · exact absurd (Prod.mk.inj heq).1 hsame
      · exact hid id'' hold
  · intro other flight hflight
    obtain ⟨hin,hid⟩ := hw.flying other flight hflight
    refine ⟨mem_cons_of_mem _ hin,fun id' hmem => ?_⟩
    rcases mem_cons.mp hmem with heq | hold
    · rw [(Prod.mk.inj heq).1] at hin
      exact absurd hin hnew
    · exact hid id' hold
  · intro other hcleared
    obtain ⟨hin,hwire,hflights⟩ := hw.spent other hcleared
    have hother : other ≠ request := fun hsame => hnew (hsame ▸ hin)
    exact ⟨mem_cons_of_mem _ hin,(update_of_ne hother _ _).trans hwire,hflights⟩
  · exact hw.timely

theorem tracked_lose (hw : Tracked w) (request : ℕ) :
    Tracked { w with wire := Function.update w.wire request none } := by
  have hless : ∀ other sent, Function.update w.wire request none other = some sent →
      w.wire other = some sent := by
    intro other sent hwire
    rw [update_apply] at hwire
    split_ifs at hwire
    exact hwire
  refine ⟨fun other id parameters hwire => hw.wired other id parameters (hless other _ hwire),
    hw.flying,fun other hcleared => ?_,hw.timely⟩
  obtain ⟨hin,hwire,hflights⟩ := hw.spent other hcleared
  refine ⟨hin,?_,hflights⟩
  show Function.update w.wire request none other = none
  rw [update_apply]
  split_ifs
  · rfl
  · exact hwire

/-- A request that is read goes from its connection into the host. -/
theorem tracked_read (hw : Tracked w) (hwire : w.wire request = some (id, parameters)) :
    Tracked { w with
      host := w.host.put request ⟨id,parameters,.arrived⟩
      wire := Function.update w.wire request none } := by
  have hlost := tracked_lose hw request
  refine ⟨hlost.wired,?_,?_,hlost.timely⟩
  · intro other flight hflight
    rcases put_flight hflight with ⟨rfl,rfl⟩ | ⟨-,hbefore⟩
    · exact hw.wired other id parameters hwire
    · exact hw.flying other flight hbefore
  intro other hcleared
  obtain ⟨hin,hgone,hflights⟩ := hlost.spent other hcleared
  refine ⟨hin,hgone,fun flight hflight => ?_⟩
  rcases put_flight hflight with ⟨rfl,-⟩ | ⟨-,hbefore⟩
  · rw [(hw.spent other hcleared).2.1] at hwire
    cases hwire
  · exact hflights flight hbefore

/-- An answer that nothing is recorded clears the requests of its id, none of them underway. -/
theorem tracked_query (hw : Tracked w) (id : String) (hover : ¬Underway w id) :
    Tracked { w with
      cleared := w.cleared++(w.written.filter (fun sent => sent.2 = id)).map Prod.fst } := by
  refine ⟨hw.wired,hw.flying,fun request hcleared => ?_,hw.timely⟩
  rcases mem_append.mp hcleared with hbefore | hnow
  · exact hw.spent request hbefore
  obtain ⟨⟨request,sent⟩,hmem,rfl⟩ := mem_map.mp hnow
  obtain ⟨hwritten,hid⟩ := mem_filter.mp hmem
  obtain rfl : sent = id := of_decide_eq_true hid
  refine ⟨mem_map_of_mem hwritten,?_,fun flight hflight => ?_⟩
  · cases hwire : w.wire request with
    | none => rfl
    | some pair =>
      obtain rfl := (hw.wired request pair.1 pair.2 hwire).2 sent hwritten
      exact absurd (.inl ⟨request,pair.2,hwire⟩) hover
  · rw [Bool.eq_false_iff]
    intro hwaits
    have hsame := (hw.flying request flight hflight).2 sent hwritten
    exact hover (.inr ⟨request,flight,hflight,hsame.symm,hwaits⟩)

variable [DecidableEq Digest]

theorem step_onward {action : Action} (hsend : action.isSend = false)
    (h : Sends.step host s action = some s') : Onward s s' := by
  cases step_change host h with
  | fewer kept accounts rows flights log =>
    intro request flight hflight
    exact ⟨flight,flights request flight hflight,rfl,id⟩
  | arrived request id parameters sent =>
    subst sent
    cases hsend
  | admitted request id parameters row flight free ok first =>
    exact onward_put ⟨id,parameters,.admitted⟩ flight rfl (.inl rfl) rfl
  | dispatched request id parameters flight =>
    exact onward_put ⟨id,parameters,.dispatched⟩ flight rfl (.inl rfl) rfl
  | completed request id parameters result flight =>
    exact onward_put ⟨id,parameters,.completed result⟩ flight rfl (.inr rfl) rfl

theorem dispatch_waits (h : Sends.step host s (.dispatch request) = some s') :
    ∃ flight, s.flights request = some flight ∧ flight.phase.waits = true := by
  simp only [Sends.step] at h
  split at h
  · rename_i id parameters hf
    exact ⟨_,hf,rfl⟩
  · cases h

theorem tracked_host (hw : Tracked w) {action : Action} (hsend : action.isSend = false)
    (h : Sends.step host w.host action = some s') :
    Tracked { w with host := s', late := w.late++w.isLate action } := by
  have honward := step_onward host hsend h
  constructor
  · exact hw.wired
  · intro request flight' hflight
    obtain ⟨flight,hbefore,hid,-⟩ := honward request flight' hflight
    rw [← hid]
    exact hw.flying request flight hbefore
  · intro request hcleared
    obtain ⟨hin,hwire,hflights⟩ := hw.spent request hcleared
    refine ⟨hin,hwire,fun flight' hflight => ?_⟩
    obtain ⟨flight,hbefore,-,hwaits⟩ := honward request flight' hflight
    rw [Bool.eq_false_iff]
    intro hwaiting
    rw [hflights flight hbefore] at hwaits
    exact absurd (hwaits hwaiting) Bool.false_ne_true
  · have hnone : w.isLate action = [] := by
      cases action with
      | dispatch request =>
        refine if_neg (fun hcleared => ?_)
        obtain ⟨flight,hflight,hwaits⟩ := dispatch_waits host h
        rw [(hw.spent request hcleared).2.2 flight hflight] at hwaits
        cases hwaits
      | _ => rfl
    simp [hw.timely, hnone]

theorem step_tracked (w : World Digest) (event : Event) (w' : World Digest) (hw : Tracked w)
    (h : w.step host event = some w') (hsettled : Settled host w event) : Tracked w' := by
  cases event with
  | write request id parameters =>
    simp only [World.step] at h
    split_ifs at h with hnew
    cases h
    exact tracked_write hw request id parameters hnew
  | lose request =>
    cases h
    exact tracked_lose hw request
  | read request =>
    simp only [World.step] at h
    split at h
    · cases h
    · rename_i id parameters hwire
      obtain ⟨s,hs,rfl⟩ := Option.map_eq_some_iff.mp h
      simp only [Sends.step] at hs
      split at hs <;> cases hs
      exact tracked_read hw hwire
  | query user id =>
    simp only [World.step] at h
    split_ifs at h with hsafe
    · cases h
      exact tracked_query hw id (hsettled hsafe)
    · cases h
      exact hw
  | host action =>
    simp only [World.step] at h
    split_ifs at h with hsend
    obtain ⟨s,hs,rfl⟩ := Option.map_eq_some_iff.mp h
    exact tracked_host host hw (Bool.eq_false_iff.mpr hsend) hs

/-- If each answer that calls a send safe to send again finds no request of its id underway,
no such request is dispatched afterwards, in any state of the run. -/
theorem cleared_never_dispatched (events : List Event)
    (h : Run.Along (World.step host) (Settled host) World.start events) :
    Run.Throughout (World.step host) (fun w => w.late = []) World.start events :=
  Run.throughout_of_along (World.step host) Tracked (fun w => w.late = []) (Settled host)
    (fun _ hw => hw.timely) (step_tracked host) World.start events tracked_start h

end Recovery

def secondId : String := "0c9d8e7f-6a5b-4c3d-8e2f-1a0b9c8d7e6f"

/-- The connection is lost before the host reads the send, which is sent again. -/
def lostEvents : List Event :=
  [.host (.upsert "a"), .write 0 firstId (sampleParameters "t"), .lose 0, .query "a" firstId,
    .write 1 secondId (sampleParameters "t"), .read 1, .host (.reserve 1 .done true),
    .host (.dispatch 1)]

theorem lost_settled :
    Run.Along (World.step sampleHost) (Settled sampleHost) World.start lostEvents := by
  intro w₁ h₁
  refine ⟨trivial,fun w₂ h₂ => ⟨trivial,fun w₃ h₃ => ⟨trivial,fun w₄ h₄ => ⟨fun _ => ?_,?_⟩⟩⟩⟩
  · simp only [World.step, Action.isSend, Bool.false_eq_true, if_false] at h₁
    obtain ⟨s,hs,rfl⟩ := Option.map_eq_some_iff.mp h₁
    cases h₂
    cases h₃
    rintro (⟨request,parameters,hwire⟩ | ⟨request,flight,hflight,-⟩)
    · simp [World.start] at hwire
    · obtain ⟨before,hbefore,-⟩ := step_onward sampleHost rfl hs request flight hflight
      cases hbefore
  · exact fun _ _ => ⟨trivial,fun _ _ => ⟨trivial,fun _ _ => ⟨trivial,fun _ _ =>
      ⟨trivial,trivial⟩⟩⟩⟩

theorem cleared_never_dispatched_sample :
    (Run.run (World.step sampleHost) World.start lostEvents).map (fun w =>
        (w.cleared, w.host.log.map Dispatch.id)) = some ([0], [secondId]) ∧
      Run.Throughout (World.step sampleHost) (fun w => w.late = []) World.start lostEvents :=
  ⟨by decide +kernel, cleared_never_dispatched sampleHost lostEvents lost_settled⟩

/-- The answer comes between the arrival of the send in the host and its reservation. -/
def racedEvents : List Event :=
  [.host (.upsert "a"), .write 0 firstId (sampleParameters "t"), .read 0, .query "a" firstId,
    .host (.reserve 0 .done true), .host (.dispatch 0)]

theorem dispatched_after_missing :
    (Run.run (World.step sampleHost) World.start (racedEvents.take 3)).map (fun w =>
        (verdict (receiptOutcome sampleHost w.host "a" firstId)).isSafe) = some true ∧
      (Run.run (World.step sampleHost) World.start racedEvents).map World.late = some [0] := by
  decide +kernel

end Maple.Sends

import Maple.Agent.Report

/-!
# Every run is reported

A run that ends has written down a report: its events frame the turns, messages are
recorded one after the other, the run returns what it recorded, and what a poll returned
was delivered before the next request.
-/

set_option autoImplicit false

namespace Maple.Agent

open Session.Entries Provider Traced List

def starts : List AssistantMessageEvent → ℕ
  | [] => 0
  | .start _::rest => starts rest+1
  | .done _::_ => 0
  | .error _::_ => 0
  | _::rest => starts rest

section Laws
variable {M σ : Type} (A : AgentMessage M) (env : Env M σ)

def Faithful : Prop := ∀ message inner, A.asMessage message = some inner →
  message = A.fromMessage inner

def KeepsRole : Prop := ∀ message s, role A (env.finalizeMessage message s).1 = role A message

def StartsOnce : Prop := ∀ request s, starts (env.stream request s).1 ≤ 1

end Laws

section Streams
variable {M σ : Type} (A : AgentMessage M) (env : Env M σ)

theorem role_assistant (message : AssistantMessage) :
    role A (A.fromMessage (.assistant message)) = some .assistant := by
  simp [role, A.as_from, messageRole]

/-- A stream that has started and does not start again. -/
theorem readStream_started (events : List AssistantMessageEvent) (stream : StreamEnd)
    (hstarted : stream.started = true) (h : starts events = 0) :
    Does (readStream A events stream : AgentM M σ StreamEnd) (fun result added =>
      result.started = true ∧ ∃ updates, added = updateActions updates) := by
  have hupdate (event : AssistantMessageEvent) (rest : List AssistantMessageEvent)
      (hrest : Does (readStream A rest stream : AgentM M σ StreamEnd) (fun result added =>
        result.started = true ∧ ∃ updates, added = updateActions updates)) :
      Does (emitIf stream.started (.messageUpdate event) >>= fun _ => readStream A rest stream :
        AgentM M σ StreamEnd) (fun result added =>
        result.started = true ∧ ∃ updates, added = updateActions updates) := by
    rw [hstarted]
    apply does_log_bind
    refine does_mono hrest ?_
    rintro result added ⟨hresult,updates,rfl⟩
    exact ⟨hresult,event::updates,rfl⟩
  induction events with
  | nil => exact does_pure _ ⟨hstarted,[],rfl⟩
  | cons event rest ih =>
    cases event with
    | start message => simp [starts] at h
    | done | error => exact does_pure _ ⟨hstarted,[],rfl⟩
    | textStart | textDelta | textEnd | thinkingStart | thinkingDelta | thinkingEnd | toolCallStart
    | toolCallDelta | toolCallEnd => exact hupdate _ rest (ih h)

/-- What a stream has opened: nothing, or one message with its updates. -/
def Opened (started : Bool) (added : List (Action M)) : Prop :=
  match started with
  | false => added = []
  | true => ∃ opening updates, role A opening = some .assistant ∧
      added = .event (.messageStart opening)::updateActions updates

theorem readStream_does {events : List AssistantMessageEvent} (stream : StreamEnd)
    (hstarted : stream.started = false) (h : starts events ≤ 1) :
    Does (readStream A events stream : AgentM M σ StreamEnd)
      (fun result added => Opened A result.started added) := by
  have hclosed : Opened A stream.started ([] : List (Action M)) := by
    rw [hstarted]
    rfl
  have hskip (event : AssistantMessageEvent) (rest : List AssistantMessageEvent)
      (hrest : Does (readStream A rest stream : AgentM M σ StreamEnd)
        (fun result added => Opened A result.started added)) :
      Does (emitIf stream.started (.messageUpdate event) >>= fun _ => readStream A rest stream :
        AgentM M σ StreamEnd) (fun result added => Opened A result.started added) := by
    rw [hstarted]
    refine does_bind (P := fun _ first => first = []) (does_pure _ rfl) ?_
    rintro _ first rfl
    exact hrest
  induction events with
  | nil => exact does_pure _ hclosed
  | cons event rest ih =>
    cases event with
    | start message =>
      apply does_log_bind
      refine does_mono (readStream_started A rest ⟨true,some message,none⟩ rfl
        (by simp only [starts] at h; omega)) ?_
      rintro result added ⟨hresult,updates,rfl⟩
      rw [hresult]
      exact ⟨_,updates,role_assistant A message,rfl⟩
    | done | error => exact does_pure _ hclosed
    | textStart | textDelta | textEnd | thinkingStart | thinkingDelta | thinkingEnd | toolCallStart
    | toolCallDelta | toolCallEnd => exact hskip _ rest (ih h)

theorem assistant_kept (hfaithful : Faithful A) (hrole : KeepsRole A env)
    (message : AssistantMessage) (s : σ) :
    A.fromMessage (.assistant (assistantOf A
      (env.finalizeMessage (A.fromMessage (.assistant message)) s).1 message)) =
      (env.finalizeMessage (A.fromMessage (.assistant message)) s).1 := by
  have hkept := hrole (A.fromMessage (.assistant message)) s
  generalize (env.finalizeMessage (A.fromMessage (.assistant message)) s).1 = finalized at hkept ⊢
  simp only [role, A.as_from, Option.map_some] at hkept
  obtain ⟨inner,hinner,hassistant⟩ := Option.map_eq_some_iff.mp hkept
  cases inner with
  | system | user | toolResult => cases hassistant
  | assistant replacement =>
    rw [assistantOf, hinner]
    exact (hfaithful finalized _ hinner).symm

theorem recordReply_does (hfaithful : Faithful A) (hrole : KeepsRole A env)
    (context : AgentContext M) (message : AssistantMessage) :
    Does (recordReply A env context message : AgentM M σ _) (fun result added =>
        added = [.event (.messageEnd (A.fromMessage (.assistant result.1)))]) := by
  apply does_ask_bind
  intro s
  apply does_log_bind
  refine does_pure _ ?_
  rw [assistant_kept A env hfaithful hrole message s]

theorem streamAssistantResponse_does (hfaithful : Faithful A) (hrole : KeepsRole A env)
    (hstarts : StartsOnce env) (context : AgentContext M) (config : LoopConfig) :
    Does (streamAssistantResponse A env context config : AgentM M σ _) (fun result added =>
      ∃ request opening updates, role A opening = some .assistant ∧
        added = replyActions request opening updates (A.fromMessage (.assistant result.1))) := by
  unfold streamAssistantResponse
  apply does_ask_bind
  intro s
  apply does_ask_bind
  intro s
  apply does_ask_bind
  intro s
  apply does_log_bind
  apply does_ask_bind
  intro s
  refine does_bind (readStream_does A ⟨false,none,none⟩ rfl (hstarts _ s)) ?_
  intro stream opened hopened
  apply does_ask_bind
  intro s
  cases hstarted : stream.started with
  | true =>
    rw [hstarted] at hopened
    obtain ⟨opening,updates,hopening,rfl⟩ := hopened
    refine does_bind (P := fun _ first => first = []) (does_pure _ rfl) ?_
    rintro _ first rfl
    refine does_mono (recordReply_does A env hfaithful hrole context _) ?_
    rintro result added rfl
    exact ⟨_,opening,updates,hopening,rfl⟩
  | false =>
    rw [hstarted] at hopened
    obtain rfl : opened = [] := hopened
    apply does_log_bind
    refine does_mono (recordReply_does A env hfaithful hrole context _) ?_
    rintro result added rfl
    exact ⟨_,_,[],role_assistant A _,rfl⟩

end Streams

section Taking
variable {M σ : Type} (A : AgentMessage M) (eq : ValueEq) (env : Env M σ)

theorem steering_does : Does (steering env : AgentM M σ (List M))
    (fun messages added => added = polls [messages]) := by
  apply does_ask_bind
  intro s
  apply does_log_bind
  exact does_pure _ rfl

theorem followUps_does : Does (followUps env : AgentM M σ (List M))
    (fun messages added => added = polls [messages]) := by
  apply does_ask_bind
  intro s
  apply does_log_bind
  exact does_pure _ rfl

/-- Only a turn that has nothing to deliver polls again. -/
theorem topUp_does (pending : List M) : Does (topUp env pending : AgentM M σ (List M))
    (fun messages added => ∃ asked, added = polls asked ∧ messages = pending++asked.flatten) := by
  refine does_ite _ (fun hempty => ?_) (fun _ => ?_)
  · refine does_mono (steering_does env) ?_
    rintro messages added rfl
    exact ⟨[messages],rfl,by simp [List.isEmpty_iff.mp hempty]⟩
  · exact does_pure _ ⟨[],rfl,by simp⟩

/-- What a step leaves of a state: the new messages grow, and the last turn stays. -/
def Keeps (state after : LoopState M) (recorded : List M) : Prop :=
  after.newMessages = state.newMessages++recorded ∧ after.lastTurn = state.lastTurn

variable (state : LoopState M)

theorem prepareTurn_does (turn : CompletedTurn) :
    Does (prepareTurn env state turn : AgentM M σ _) (fun result added =>
      added = [.prepared result.2] ∧ Prepares env result.2 ∧
      result.1.newMessages = state.newMessages ∧ result.1.lastTurn = state.lastTurn ∧
      result.1.pending = state.pending) := by
  apply does_ask_bind
  intro s
  apply does_log_bind
  refine does_pure _ ?_
  have hanswer : Prepares env (((env.prepareNextTurn ⟨turn.message,turn.toolResults,
    state.context,state.newMessages⟩ s).1.map TurnUpdate.messages).getD []) := ⟨_,s,rfl⟩
  split <;> rename_i hupdate <;> rw [hupdate] at hanswer ⊢
  · exact ⟨rfl,hanswer,rfl,rfl,rfl⟩
  · exact ⟨rfl,hanswer,rfl,rfl,rfl⟩

/-- How a turn begins: the run itself has started the first one. -/
def Begins (state : LoopState M) (prepared : List M) (extra : List (List M))
    (added : List (Action M)) : Prop :=
  match state.lastTurn with
  | none => (prepared = [] ∧ extra = []) ∧ added = []
  | some _ => Prepares env prepared ∧ added = leadIn prepared extra

theorem beginTurn_does : Does (beginTurn env state : AgentM M σ _)
    (fun result added => ∃ extra, Begins env state result.2 extra added ∧
      Keeps state result.1 [] ∧ result.1.pending = state.pending++extra.flatten) := by
  unfold beginTurn Begins
  cases hlast : state.lastTurn with
  | none => exact does_pure _ ⟨[],⟨⟨rfl,rfl⟩,rfl⟩,⟨by simp,rfl⟩,by simp⟩
  | some turn =>
    refine does_bind (prepareTurn_does env state turn) ?_
    rintro ⟨after,prepared⟩ first ⟨rfl,hprepares,hmessages,hturn,hpending⟩
    refine does_bind (topUp_does env after.pending) ?_
    rintro pending added ⟨asked,rfl,rfl⟩
    apply does_log_bind
    refine does_pure _ ⟨asked,⟨hprepares,by simp [leadIn]⟩,⟨?_,hturn⟩,?_⟩
    · rw [append_nil]
      exact hmessages
    · rw [← hpending]

theorem deliver_does (prepared : List M) (nowMs : ℕ) :
    Does (deliver A eq env state prepared nowMs : AgentM M σ _) (fun after added =>
      ∃ delivered, added = emissions delivered ∧ (∀ pair ∈ delivered, Records env pair.1 pair.2) ∧
        Edited A (prepared++state.pending) (delivered.map Prod.fst) ∧
        Keeps state after (delivered.map Prod.snd)) := by
  refine does_bind (emitMessages_does env _) ?_
  rintro messages added ⟨pairs,rfl,hrecords,hstarted,rfl⟩
  refine does_pure _ ⟨pairs,by simp,hrecords,?_,rfl,rfl⟩
  rw [hstarted]
  exact declare_edited A eq nowMs state.context _

theorem prepareRequest_does : Does (prepareRequest env state : AgentM M σ _)
      (fun after added => added = [] ∧ Keeps state after []) := by
  apply does_ask_bind
  intro s
  refine does_pure _ ⟨rfl,?_⟩
  split
  · exact ⟨by simp,rfl⟩
  · exact ⟨by simp,rfl⟩

theorem answer_does (hfaithful : Faithful A) (hrole : KeepsRole A env) (hstarts : StartsOnce env)
    (state : LoopState M) : Does (answer A env state : AgentM M σ _) (fun result added =>
      ∃ request opening updates, role A opening = some .assistant ∧
        added = replyActions request opening updates (A.fromMessage (.assistant result.2)) ∧
        Keeps state result.1 [A.fromMessage (.assistant result.2)]) := by
  refine does_bind
    (streamAssistantResponse_does A env hfaithful hrole hstarts state.context state.config) ?_
  rintro ⟨message,context⟩ added ⟨request,opening,updates,hopening,rfl⟩
  exact does_pure _ ⟨request,opening,updates,hopening,by simp,rfl,rfl⟩

theorem runCalls_works (message : AssistantMessage) (fuel : ℕ) :
    Does (runCalls A env state message fuel : AgentM M σ (ToolBatch M))
      (fun batch added => Works A env batch.messages added) := by
  refine does_ite _ (fun _ => ?_) (fun _ => executeToolCalls_works A env _ _ _ _ _)
  refine does_bind (failTruncatedCalls_works A env _) ?_
  intro messages added hadded
  exact does_pure _ (by simpa using hadded)

theorem runTools_does (message : AssistantMessage) (fuel : ℕ) :
    Does (runTools A env state message fuel : AgentM M σ _) (fun result added =>
      ∃ recorded, Works A env recorded added ∧ Keeps state result.1 recorded ∧
        result.2.1 = recorded.filterMap (toolResultOf A)) := by
  refine does_ite _ (fun _ => ?_) (fun _ => ?_)
  · exact does_pure _ ⟨[],works_nil,⟨by simp,rfl⟩,rfl⟩
  · refine does_bind (runCalls_works A env state message fuel) ?_
    intro batch added hadded
    exact does_pure _ ⟨batch.messages,by simpa using hadded,⟨rfl,rfl⟩,rfl⟩

theorem finishTurn_does (turn : CompletedTurn) :
    Does (finishTurn A env state turn : AgentM M σ _) (fun _ added =>
      added = [.event (.turnEnd (A.fromMessage (.assistant turn.message)) turn.toolResults)]) := by
  apply does_ask_bind
  intro s
  apply does_log_bind
  exact does_pure _ rfl

def Leaves (state : LoopState M) (recorded : List M) (after : List (List M)) :
    TurnOutcome M → Prop
  | .stop left => after = [] ∧ left.newMessages = state.newMessages++recorded
  | .next left _ => after = [left.pending] ∧ left.newMessages = state.newMessages++recorded ∧
      left.lastTurn ≠ none

theorem keeps_trans {state between after : LoopState M} {front back : List M}
    (hfront : Keeps state between front) (hback : Keeps between after back) :
    Keeps state after (front++back) :=
  ⟨by rw [hback.1, hfront.1, append_assoc],hback.2.trans hfront.2⟩

section Lawful
variable (hfaithful : Faithful A) (hrole : KeepsRole A env) (hstarts : StartsOnce env)

include hfaithful hrole hstarts in
/-- A turn delivers what was polled for it, asks once and reports its work. -/
theorem takeTurn_does (fuel : ℕ) {state : LoopState M} {asked : List (List M)}
    (hasked : asked.flatten = state.pending) :
    Does (takeTurn A eq env fuel state : AgentM M σ _) (fun outcome added =>
      ∃ (turn : Turn M) (lead : List (Action M)) (after : List (List M)), turn.asked = asked ∧
        Begins env state turn.prepared turn.extra lead ∧ turn.Valid A env ∧
        added = lead++turn.body++polls after ∧
        Leaves state turn.recorded after outcome) := by
  unfold takeTurn
  refine does_bind (beginTurn_does env state) ?_
  rintro ⟨begun,prepared⟩ lead ⟨extra,hlead,hbegun,hpending⟩
  apply does_ask_bind
  intro s
  refine does_bind (deliver_does A eq env begun prepared _) ?_
  rintro given added ⟨delivered,rfl,hrecords,hedited,hgiven⟩
  refine does_bind (prepareRequest_does env given) ?_
  rintro asking none ⟨rfl,hasking⟩
  refine does_bind (answer_does A env hfaithful hrole hstarts asking) ?_
  rintro ⟨answered,message⟩ added ⟨request,opening,updates,hopening,rfl,hanswered⟩
  have hstate := keeps_trans hbegun hgiven
  replace hstate := keeps_trans hstate hasking
  replace hstate := keeps_trans hstate hanswered
  have hdelivers : Edited A (prepared++asked.flatten++extra.flatten)
      (delivered.map Prod.fst) := by
    rw [append_assoc, hasked, ← hpending]
    exact hedited
  let turn (work : List (Work M)) (results : List ToolResultMessage) : Turn M :=
    ⟨asked,prepared,extra,delivered,request,opening,updates,
      A.fromMessage (.assistant message),work,results⟩
  have hvalid (work : List (Work M)) (results : List ToolResultMessage)
      (hwork : ∀ item ∈ work, item.Proper A env)
      (hresults : results = (work.filterMap Work.recorded).filterMap (toolResultOf A)) :
      (turn work results).Valid A env :=
    ⟨hdelivers,hrecords,hopening,role_assistant A message,hwork,hresults⟩
  refine does_ite _ (fun _ => ?_) (fun _ => ?_)
  · refine does_bind (finishTurn_does A env answered ⟨message,[]⟩) ?_
    rintro decision added rfl
    refine does_pure _ ⟨turn [] [],lead,[],rfl,hlead,hvalid [] [] (by simp) rfl,?_,rfl,?_⟩
    · simp [turn, Turn.body, polls]
    · rw [hstate.1]
      simp [turn, Turn.recorded]
  · refine does_bind (runTools_does A env answered message fuel) ?_
    rintro ⟨worked,results,more⟩ added ⟨recorded,⟨work,hwork,rfl,rfl⟩,hworked,hresults⟩
    replace hstate := keeps_trans hstate hworked
    have hmessages : worked.newMessages = state.newMessages++(turn work results).recorded := by
      rw [hstate.1]
      simp [turn, Turn.recorded]
    refine does_bind (finishTurn_does A env worked ⟨message,results⟩) ?_
    rintro decision added rfl
    refine does_ite _ (fun _ => ?_) (fun _ => ?_)
    · refine does_pure _ ⟨turn work results,lead,[],rfl,hlead,
        hvalid work results hwork hresults,?_,rfl,hmessages⟩
      simp [turn, Turn.body, polls]
    · refine does_bind (steering_does env) ?_
      rintro pending added rfl
      refine does_pure _ ⟨turn work results,lead,[pending],rfl,hlead,
        hvalid work results hwork hresults,?_,rfl,hmessages,by simp⟩
      simp [turn, Turn.body, polls]

theorem polls_append (front back : List (List M)) :
    polls (front++back) = polls front++polls back := List.map_append

theorem endRun_does (state : LoopState M) : Does (endRun state : AgentM M σ (List M))
    (fun messages added => added = [.event (.agentEnd messages)] ∧
      messages = state.newMessages) := by
  apply does_log_bind
  exact does_pure _ ⟨rfl,rfl⟩

include hfaithful hrole hstarts in
/-- The loop after the first turn, with the polls that were made since the last one. -/
theorem runLoop_later (toolFuel fuel : ℕ) (state : LoopState M) (hasMore : Bool)
    (asked : List (List M)) (hlast : state.lastTurn ≠ none)
    (hasked : asked.flatten = state.pending) :
    Does (runLoop A eq env toolFuel fuel state hasMore : AgentM M σ _) (fun messages added =>
      ∃ (turns : List (Turn M)) (closing : List (List M)),
        (∀ turn ∈ turns, turn.Valid A env ∧ Prepares env turn.prepared) ∧
        (∀ polled ∈ closing, polled = []) ∧
        polls asked++added =
          turns.flatMap Turn.actions++polls closing++[.event (.agentEnd messages)] ∧
        messages = state.newMessages++turns.flatMap Turn.recorded) := by
  induction fuel generalizing state hasMore asked with
  | zero => exact does_stuck
  | succ fuel ih =>
    refine does_ite _ (fun _ => ?_) (fun hidle => ?_)
    · refine does_bind (takeTurn_does A eq env hfaithful hrole hstarts toolFuel hasked) ?_
      rintro outcome added ⟨turn,lead,after,rfl,hbegins,hvalid,rfl,hleaves⟩
      obtain ⟨hprepares,rfl⟩ : Prepares env turn.prepared ∧
          lead = leadIn turn.prepared turn.extra := by
        unfold Begins at hbegins
        cases hstate : state.lastTurn with
        | none => exact absurd hstate hlast
        | some last => rwa [hstate] at hbegins
      have hlead : polls turn.asked++leadIn turn.prepared turn.extra++turn.body =
          turn.actions := rfl
      cases outcome with
      | stop left =>
        obtain ⟨rfl,hleft⟩ := hleaves
        refine does_mono (endRun_does left) ?_
        rintro messages rest ⟨rfl,rfl⟩
        refine ⟨[turn],[],by simpa using ⟨hvalid,hprepares⟩,by simp,?_,by simp [hleft]⟩
        simp [← hlead, polls]
      | next left more =>
        obtain ⟨rfl,hleft,hmore⟩ := hleaves
        refine does_mono (ih left more [left.pending] hmore (by simp)) ?_
        rintro messages rest ⟨turns,closing,hturns,hclosing,htrace,rfl⟩
        refine ⟨turn::turns,closing,forall_mem_cons.mpr ⟨⟨hvalid,hprepares⟩,hturns⟩,hclosing,?_,
          by simp [hleft]⟩
        · rw [append_assoc _ (polls _) rest, htrace, flatMap_cons, ← hlead]
          simp
    · have hpending : state.pending = [] := by
        simp only [Bool.or_eq_true, Bool.not_eq_true', not_or] at hidle
        simpa using hidle.2
      refine does_bind (followUps_does env) ?_
      rintro messages added rfl
      have hquiet := flatten_eq_nil_iff.mp (hasked.trans hpending)
      refine does_ite _ (fun _ => ?_) (fun hnone => ?_)
      · refine does_mono (ih { state with pending := messages, explicitContinuation := false } true
          (asked++[messages]) hlast (by simp [hasked, hpending])) ?_
        rintro result rest ⟨turns,closing,hturns,hclosing,htrace,rfl⟩
        refine ⟨turns,closing,hturns,hclosing,?_,rfl⟩
        rw [← htrace, polls_append, append_assoc]
      · obtain rfl : messages = [] := by simpa using hnone
        refine does_ite _ (fun _ => ?_) (fun _ => ?_)
        · refine does_mono (ih { state with explicitContinuation := false } true (asked++[[]])
            hlast (by simp [hasked])) ?_
          rintro result rest ⟨turns,closing,hturns,hclosing,htrace,rfl⟩
          refine ⟨turns,closing,hturns,hclosing,?_,rfl⟩
          rw [← htrace, polls_append, append_assoc]
        · refine does_mono (endRun_does state) ?_
          rintro result rest ⟨rfl,rfl⟩
          refine ⟨[],asked++[[]],by simp,?_,?_,by simp⟩
          · intro polled hpolled
            rcases mem_append.mp hpolled with hmem | hmem
            · exact hquiet polled hmem
            · exact mem_singleton.mp hmem
          · simp [polls]

include hfaithful hrole hstarts in
/-- The loop from its first turn, which the run itself has started. -/
theorem runLoop_first (toolFuel fuel : ℕ) (state : LoopState M) (asked : List (List M))
    (hlast : state.lastTurn = none) (hasked : asked.flatten = state.pending) :
    Does (runLoop A eq env toolFuel fuel state true : AgentM M σ _) (fun messages added =>
      ∃ (first : Turn M) (later : List (Turn M)) (closing : List (List M)),
        first.asked = asked ∧ (first.prepared = [] ∧ first.extra = []) ∧ first.Valid A env ∧
        (∀ turn ∈ later, turn.Valid A env ∧ Prepares env turn.prepared) ∧
        (∀ polled ∈ closing, polled = []) ∧
        added = first.body++later.flatMap Turn.actions++polls closing++
          [.event (.agentEnd messages)] ∧
        messages = state.newMessages++(first::later).flatMap Turn.recorded) := by
  cases fuel with
  | zero => exact does_stuck
  | succ fuel =>
    refine does_ite _ (fun _ => ?_) (fun hidle => absurd rfl hidle)
    refine does_bind (takeTurn_does A eq env hfaithful hrole hstarts toolFuel hasked) ?_
    rintro outcome added ⟨turn,lead,after,hturn,hbegins,hvalid,rfl,hleaves⟩
    unfold Begins at hbegins
    rw [hlast] at hbegins
    obtain ⟨hfirst,rfl⟩ := hbegins
    cases outcome with
    | stop left =>
      obtain ⟨rfl,hleft⟩ := hleaves
      refine does_mono (endRun_does left) ?_
      rintro messages rest ⟨rfl,rfl⟩
      exact ⟨turn,[],[],hturn,hfirst,hvalid,by simp,by simp,by simp [polls],
        by simp [hleft]⟩
    | next left more =>
      obtain ⟨rfl,hleft,hmore⟩ := hleaves
      refine does_mono (runLoop_later A eq env hfaithful hrole hstarts toolFuel fuel left more
        [left.pending] hmore (by simp)) ?_
      rintro messages rest ⟨turns,closing,hturns,hclosing,htrace,rfl⟩
      refine ⟨turn,turns,closing,hturn,hfirst,hvalid,hturns,hclosing,?_,by simp [hleft]⟩
      rw [nil_append, append_assoc, htrace]
      simp

include hfaithful hrole hstarts in
theorem startLoop_does (toolFuel fuel : ℕ) (context : AgentContext M) (newMessages : List M)
    (config : LoopConfig) :
    Does (startLoop A eq env toolFuel fuel context newMessages config : AgentM M σ _)
      (fun messages added => ∃ (first : Turn M) (later : List (Turn M)) (closing : List (List M)),
        (first.prepared = [] ∧ first.extra = []) ∧ first.Valid A env ∧
        (∀ turn ∈ later, turn.Valid A env ∧ Prepares env turn.prepared) ∧
        (∀ polled ∈ closing, polled = []) ∧
        added = polls first.asked++first.body++later.flatMap Turn.actions++polls closing++
          [.event (.agentEnd messages)] ∧
        messages = newMessages++(first::later).flatMap Turn.recorded) := by
  refine does_bind (steering_does env) ?_
  rintro pending added rfl
  refine does_mono (runLoop_first A eq env hfaithful hrole hstarts toolFuel fuel
    ⟨context,newMessages,config,none,false,pending⟩ [pending] rfl (by simp)) ?_
  rintro messages rest ⟨first,later,closing,hasked,hfirst,hvalid,hlater,hclosing,rfl,rfl⟩
  exact ⟨first,later,closing,hfirst,hvalid,hlater,hclosing,by simp [hasked],rfl⟩

def Reports (prompts : List M) (messages : List M) (added : List (Action M)) : Prop :=
  ∃ report : Report M, report.Valid A env prompts ∧ added = report.actions ∧
    messages = report.recorded

include hfaithful hrole hstarts in
theorem runAgentLoop_reports (toolFuel fuel : ℕ) (prompts : List M) (context : AgentContext M)
    (config : LoopConfig) :
    Does (runAgentLoop A eq env toolFuel fuel prompts context config : AgentM M σ _)
      (Reports A env prompts) := by
  apply does_ask_bind
  intro s
  apply does_log_bind
  apply does_log_bind
  refine does_bind (emitMessages_does env _) ?_
  rintro recorded added ⟨pairs,rfl,hrecords,hstarted,rfl⟩
  refine does_mono (startLoop_does A eq env hfaithful hrole hstarts toolFuel fuel _ _ config) ?_
  rintro messages rest ⟨first,later,closing,hfirst,hvalid,hlater,hclosing,rfl,rfl⟩
  refine ⟨⟨pairs,first,later,closing⟩,⟨?_,hrecords,
    forall_mem_cons.mpr ⟨hvalid,fun turn h => (hlater turn h).1⟩,hfirst,
    fun turn h => (hlater turn h).2,hclosing⟩,?_,rfl⟩
  · rw [show (⟨pairs,first,later,closing⟩ : Report M).prompts.map Prod.fst = _ from hstarted]
    exact declare_edited A eq _ context prompts
  · simp [Report.actions, Report.recorded, Report.turns]

include hfaithful hrole hstarts in
theorem runAgentLoopContinue_reports (toolFuel fuel : ℕ) (context : AgentContext M)
    (config : LoopConfig) :
    Does (runAgentLoopContinue A eq env toolFuel fuel context config : AgentM M σ _)
      (fun result added => match result with
        | .error _ => added = []
        | .ok messages => Reports A env [] messages added) := by
  unfold runAgentLoopContinue
  split
  · exact does_pure _ rfl
  refine does_ite _ (fun _ => does_pure _ rfl) (fun _ => ?_)
  apply does_log_bind
  apply does_log_bind
  refine does_bind (startLoop_does A eq env hfaithful hrole hstarts toolFuel fuel _ _ config) ?_
  rintro messages rest ⟨first,later,closing,hfirst,hvalid,hlater,hclosing,rfl,rfl⟩
  refine does_pure _ ⟨⟨[],first,later,closing⟩,⟨.kept [],by simp,
    forall_mem_cons.mpr ⟨hvalid,fun turn h => (hlater turn h).1⟩,hfirst,
    fun turn h => (hlater turn h).2,hclosing⟩,?_,?_⟩
  · simp [Report.actions, Report.recorded, Report.turns, emissions]
  · simp [Report.recorded, Report.turns]

end Lawful

end Taking

end Maple.Agent

import Maple.Agent.Reported

/-!
# The account of a run

What can be read off the trace of a run alone: its events frame one turn after the other,
a message is recorded before the next one starts, and the run returns what it recorded.
-/

set_option autoImplicit false

namespace Maple.Agent

open Session.Entries Provider Traced List

section Reading
variable {M σ : Type} (A : AgentMessage M)

def Action.asEvent : Action M → Option (AgentEvent M)
  | .event happened => some happened
  | _ => none

def eventsOf (trace : List (Action M)) : List (AgentEvent M) := trace.filterMap Action.asEvent

def AgentEvent.inner : AgentEvent M → Bool
  | .agentStart => false
  | .agentEnd _ => false
  | .turnStart => false
  | .turnEnd _ _ => false
  | _ => true

def AgentEvent.boundary : AgentEvent M → Bool
  | .messageStart _ => true
  | .messageEnd _ => true
  | _ => false

def AgentEvent.recorded : AgentEvent M → Option M
  | .messageEnd message => some message
  | _ => none

/-- The events of one turn: what stands inside it, and how it ended. -/
structure Frame (M : Type) where
  inside : List (AgentEvent M)
  message : M
  results : List ToolResultMessage

def Frame.events (frame : Frame M) : List (AgentEvent M) :=
  .turnStart::frame.inside++[.turnEnd frame.message frame.results]

def Framed (messages : List M) (trace : List (Action M)) : Prop :=
  ∃ frames : List (Frame M), frames ≠ [] ∧
    (∀ frame ∈ frames, ∀ event ∈ frame.inside, event.inner = true) ∧
    eventsOf trace = .agentStart::frames.flatMap Frame.events++[.agentEnd messages]

/-- Every started message is recorded, under its role, before the next one starts. -/
def Paired (trace : List (Action M)) : Prop :=
  ∃ pairs : List (M × M), (∀ pair ∈ pairs, role A pair.1 = role A pair.2) ∧
    (eventsOf trace).filter AgentEvent.boundary =
      pairs.flatMap (fun pair => [.messageStart pair.1, .messageEnd pair.2])

def recordedOf (trace : List (Action M)) : List M :=
  (eventsOf trace).filterMap AgentEvent.recorded

/-- What a run that ends owes: its events frame turns, messages do not overlap, it returns
what it recorded, and what it polled was delivered. -/
structure Accounts (env : Env M σ) (prompts messages : List M) (trace : List (Action M)) :
    Prop where
  framed : Framed messages trace
  paired : Paired A trace
  recorded : recordedOf trace = messages
  reported : Reports A env prompts messages trace

end Reading

section Pieces
variable {M σ : Type} {A : AgentMessage M} {env : Env M σ}

variable (front : List (Action M)) (request : Request) (back : List (Action M))

theorem eventsOf_append :
    eventsOf (front++back) = eventsOf front++eventsOf back := List.filterMap_append

theorem recordedOf_append : recordedOf (front++back) = recordedOf front++recordedOf back := by
  rw [recordedOf, eventsOf_append, filterMap_append]
  rfl

theorem paired_append (hfront : Paired A front) (hback : Paired A back) :
    Paired A (front++back) := by
  obtain ⟨pairs,hpairs,hread⟩ := hfront
  obtain ⟨more,hmore,hrest⟩ := hback
  refine ⟨pairs++more,?_,?_⟩
  · intro pair hpair
    rcases mem_append.mp hpair with h | h
    · exact hpairs pair h
    · exact hmore pair h
  · rw [eventsOf_append, filter_append, hread, hrest, flatMap_append]

theorem paired_quiet (trace : List (Action M))
    (h : (eventsOf trace).filter AgentEvent.boundary = []) : Paired A trace :=
  ⟨[],by simp,by simpa using h⟩

theorem records_role (hrole : KeepsRole A env) {started recorded : M}
    (h : Records env started recorded) : role A started = role A recorded := by
  obtain ⟨s,rfl⟩ := h
  exact (hrole started s).symm

theorem eventsOf_emissions (pairs : List (M × M)) : eventsOf (emissions pairs) =
    pairs.flatMap (fun pair => [.messageStart pair.1, .messageEnd pair.2]) := by
  induction pairs with
  | nil => rfl
  | cons pair pairs ih =>
    rw [emissions, flatMap_cons, eventsOf_append]
    exact congrArg ([.messageStart pair.1, .messageEnd pair.2]++·) ih

theorem paired_emissions (hrole : KeepsRole A env) {pairs : List (M × M)}
    (hpairs : ∀ pair ∈ pairs, Records env pair.1 pair.2) : Paired A (emissions pairs) := by
  refine ⟨pairs,fun pair hpair => records_role hrole (hpairs pair hpair),?_⟩
  rw [eventsOf_emissions]
  apply filter_eq_self.mpr
  intro event hevent
  obtain ⟨pair,_,hmem⟩ := mem_flatMap.mp hevent
  rcases mem_pair.mp hmem with rfl | rfl
  · rfl
  · rfl

theorem recordedOf_emissions (pairs : List (M × M)) :
    recordedOf (emissions pairs) = pairs.map Prod.snd := by
  rw [recordedOf, eventsOf_emissions]
  induction pairs with
  | nil => rfl
  | cons pair pairs ih => exact congrArg (pair.2::·) ih

theorem eventsOf_polls (asked : List (List M)) : eventsOf (polls asked) = [] := by
  apply filterMap_eq_nil_iff.mpr
  intro action haction
  obtain ⟨messages,_,rfl⟩ := mem_map.mp haction
  rfl

theorem eventsOf_replyActions (opening : M) (updates : List AssistantMessageEvent) (reply : M) :
    eventsOf (replyActions request opening updates reply) =
      .messageStart opening::updates.map .messageUpdate++[.messageEnd reply] := by
  have hupdates : eventsOf (updateActions updates : List (Action M)) =
      updates.map .messageUpdate := by
    induction updates with
    | nil => rfl
    | cons update updates ih => exact congrArg (AgentEvent.messageUpdate update::·) ih
  rw [replyActions, eventsOf_append, eventsOf_append, hupdates]
  rfl

theorem paired_replyActions {opening : M} (updates : List AssistantMessageEvent) {reply : M}
    (h : role A opening = role A reply) :
    Paired A (replyActions request opening updates reply) := by
  refine ⟨[(opening, reply)],by simpa using h,?_⟩
  rw [eventsOf_replyActions, filter_append, filter_cons_of_pos rfl, filter_eq_nil_iff.mpr]
  · rfl
  · intro event hevent
    obtain ⟨update,_,rfl⟩ := mem_map.mp hevent
    exact Bool.false_ne_true

theorem recordedOf_replyActions (opening : M) (updates : List AssistantMessageEvent) (reply : M) :
    recordedOf (replyActions request opening updates reply) = [reply] := by
  rw [recordedOf, eventsOf_replyActions, filterMap_append, filterMap_cons_none rfl,
    filterMap_eq_nil_iff.mpr]
  · rfl
  · intro event hevent
    obtain ⟨update,_,rfl⟩ := mem_map.mp hevent
    rfl

/-- Tool work frames nothing, and only its emissions touch messages. -/
theorem work_account (hrole : KeepsRole A env) {work : Work M} (hwork : work.Proper A env) :
    (∀ event ∈ eventsOf work.actions, event.inner = true) ∧ Paired A work.actions ∧
      recordedOf work.actions = work.recorded.toList := by
  cases work with
  | emission started recorded =>
    refine ⟨?_,?_,rfl⟩
    · intro event hevent
      rcases mem_pair.mp hevent with rfl | rfl
      · rfl
      · rfl
    · exact ⟨[(started, recorded)],by simpa using records_role hrole hwork.2,rfl⟩
  | quiet action =>
    cases action with
    | event event =>
      cases event with
      | agentStart | agentEnd | turnStart | turnEnd | messageStart | messageUpdate | messageEnd =>
        cases hwork
      | toolExecutionStart | toolExecutionUpdate | toolExecutionEnd =>
        exact ⟨by simp [eventsOf, Work.actions, Action.asEvent, AgentEvent.inner],
          paired_quiet _ rfl,rfl⟩
    | polled | prepared | requested => cases hwork
    | gated | executed | sent | observed =>
      exact ⟨by simp [eventsOf, Work.actions, Action.asEvent],paired_quiet _ rfl,rfl⟩

theorem works_account (hrole : KeepsRole A env) {works : List (Work M)}
    (hworks : ∀ work ∈ works, work.Proper A env) :
    (∀ event ∈ eventsOf (works.flatMap Work.actions), event.inner = true) ∧
      Paired A (works.flatMap Work.actions) ∧
      recordedOf (works.flatMap Work.actions) = works.filterMap Work.recorded := by
  induction works with
  | nil => exact ⟨by simp [eventsOf],paired_quiet _ rfl,rfl⟩
  | cons work works ih =>
    obtain ⟨hinner,hpaired,hrecorded⟩ := work_account hrole (hworks work (by simp))
    obtain ⟨hrest,hpairs,hrecords⟩ := ih (fun other h => hworks other (mem_cons_of_mem _ h))
    refine ⟨?_,paired_append _ _ hpaired hpairs,?_⟩
    · intro event hevent
      rw [flatMap_cons, eventsOf_append] at hevent
      rcases mem_append.mp hevent with h | h
      · exact hinner event h
      · exact hrest event h
    · rw [flatMap_cons, recordedOf_append, hrecorded, hrecords]
      cases hwork : work.recorded <;> simp [hwork]

end Pieces

section Turns
variable {M σ : Type} {A : AgentMessage M} {env : Env M σ}

def Turn.inside (turn : Turn M) : List (Action M) :=
  emissions turn.delivered++replyActions turn.request turn.opening turn.updates turn.reply++
    turn.work.flatMap Work.actions

def Turn.frame (turn : Turn M) : Frame M := ⟨eventsOf turn.inside, turn.reply, turn.results⟩

theorem emissions_inner (pairs : List (M × M)) :
    ∀ event ∈ eventsOf (emissions pairs), event.inner = true := by
  intro event hevent
  rw [eventsOf_emissions] at hevent
  obtain ⟨pair,_,hmem⟩ := mem_flatMap.mp hevent
  rcases mem_pair.mp hmem with rfl | rfl
  · rfl
  · rfl

theorem turn_inner (hrole : KeepsRole A env) (turn : Turn M) (hvalid : turn.Valid A env) :
    ∀ event ∈ eventsOf turn.inside, event.inner = true := by
  intro event hevent
  rw [Turn.inside, eventsOf_append, eventsOf_append, eventsOf_replyActions] at hevent
  rcases mem_append.mp hevent with hfront | hwork
  · rcases mem_append.mp hfront with hdelivered | hreply
    · exact emissions_inner turn.delivered event hdelivered
    rcases mem_append.mp hreply with hopened | hclosed
    · rcases mem_cons.mp hopened with rfl | hupdate
      · rfl
      · obtain ⟨update,_,rfl⟩ := mem_map.mp hupdate
        rfl
    · obtain rfl := mem_singleton.mp hclosed
      rfl
  · exact (works_account hrole hvalid.works).1 event hwork

theorem turn_paired (hrole : KeepsRole A env) {turn : Turn M} (hvalid : turn.Valid A env) :
    Paired A turn.inside := by
  apply paired_append
  · apply paired_append
    · exact paired_emissions hrole hvalid.records
    · exact paired_replyActions _ _ (hvalid.opens.trans hvalid.replies.symm)
  · exact (works_account hrole hvalid.works).2.1

theorem turn_recorded (hrole : KeepsRole A env) {turn : Turn M} (hvalid : turn.Valid A env) :
    recordedOf turn.inside = turn.recorded := by
  rw [Turn.inside, recordedOf_append, recordedOf_append, recordedOf_emissions,
    recordedOf_replyActions, (works_account hrole hvalid.works).2.2]
  rfl

theorem eventsOf_body (turn : Turn M) :
    eventsOf turn.body = turn.frame.inside++[.turnEnd turn.reply turn.results] :=
  eventsOf_append turn.inside _

theorem eventsOf_actions (turn : Turn M) : eventsOf turn.actions = turn.frame.events := by
  have hlead : eventsOf (leadIn turn.prepared turn.extra) = [.turnStart] := by
    rw [leadIn, eventsOf_append, eventsOf, filterMap_cons_none rfl]
    exact congrArg (·++[AgentEvent.turnStart]) (eventsOf_polls turn.extra)
  rw [Turn.actions, eventsOf_append, eventsOf_append, eventsOf_polls, hlead, eventsOf_body]
  rfl

theorem eventsOf_later (turns : List (Turn M)) :
    eventsOf (turns.flatMap Turn.actions) = (turns.map Turn.frame).flatMap Frame.events := by
  induction turns with
  | nil => rfl
  | cons turn turns ih =>
    rw [flatMap_cons, eventsOf_append, eventsOf_actions, ih]
    rfl

end Turns

section Runs
variable {M σ : Type} {A : AgentMessage M} {env : Env M σ}

theorem eventsOf_report (report : Report M) : eventsOf report.actions =
    [.agentStart, .turnStart]++eventsOf (emissions report.prompts)++report.first.frame.inside++
      [.turnEnd report.first.reply report.first.results]++
      (report.later.map Turn.frame).flatMap Frame.events++[.agentEnd report.recorded] := by
  rw [Report.actions, eventsOf_append, eventsOf_append, eventsOf_append, eventsOf_append,
    eventsOf_append, eventsOf_append, eventsOf_polls, eventsOf_polls, eventsOf_body,
    eventsOf_later, append_nil, append_nil,
    ← append_assoc _ report.first.frame.inside]
  rfl

variable {prompts : List M} {report : Report M}

theorem report_framed (hrole : KeepsRole A env) (hvalid : report.Valid A env prompts) :
    Framed report.recorded report.actions := by
  have hturn (turn : Turn M) (hmem : turn ∈ report.turns) :=
    turn_inner hrole turn (hvalid.turns turn hmem)
  refine ⟨⟨eventsOf (emissions report.prompts)++report.first.frame.inside,report.first.reply,
    report.first.results⟩::report.later.map Turn.frame,by simp,?_,?_⟩
  · intro frame hframe
    rcases mem_cons.mp hframe with rfl | hlater
    · intro event hevent
      rcases mem_append.mp hevent with h | h
      · exact emissions_inner report.prompts event h
      · exact hturn report.first (by simp [Report.turns]) event h
    · obtain ⟨turn,hmem,rfl⟩ := mem_map.mp hlater
      exact hturn turn (mem_cons_of_mem _ hmem)
  · rw [eventsOf_report]
    simp [Frame.events]

/-- The turns of a report, with the polls and frames between them left out. -/
theorem report_inside (report : Report M) (keep : AgentEvent M → Bool)
    (hkeep : ∀ event, keep event = true → event.inner = true) :
    (eventsOf report.actions).filter keep =
      (eventsOf (emissions report.prompts++report.turns.flatMap Turn.inside)).filter keep := by
  have hdrop (event : AgentEvent M) (h : event.inner = false) : ¬keep event = true := by
    intro hkept
    rw [hkeep event hkept] at h
    cases h
  have hlater : ((report.later.map Turn.frame).flatMap Frame.events).filter keep =
      (eventsOf (report.later.flatMap Turn.inside)).filter keep := by
    induction report.later with
    | nil => rfl
    | cons turn turns ih =>
      rw [map_cons, flatMap_cons, flatMap_cons, filter_append, ih,
        eventsOf_append, filter_append, Frame.events, filter_append,
        filter_cons_of_neg (hdrop _ rfl), filter_cons_of_neg (hdrop _ rfl)]
      simp [Turn.frame]
  have hfront : [AgentEvent.agentStart, .turnStart].filter keep = [] := by
    rw [filter_cons_of_neg (hdrop _ rfl), filter_cons_of_neg (hdrop _ rfl), filter_nil]
  have hend : [AgentEvent.turnEnd report.first.reply report.first.results].filter keep = [] :=
    filter_cons_of_neg (hdrop _ rfl)
  have hlast : [AgentEvent.agentEnd report.recorded].filter keep = [] :=
    filter_cons_of_neg (hdrop _ rfl)
  rw [eventsOf_report]
  simp only [filter_append, hlater, hfront, hend, hlast, Report.turns, flatMap_cons,
    eventsOf_append, nil_append, append_nil, Turn.frame, append_assoc]

theorem report_paired (hrole : KeepsRole A env) (hvalid : report.Valid A env prompts) :
    Paired A report.actions := by
  have hturns (turns : List (Turn M)) (h : ∀ turn ∈ turns, turn.Valid A env) :
      Paired A (turns.flatMap Turn.inside) := by
    induction turns with
    | nil => exact paired_quiet _ rfl
    | cons turn turns ih =>
      exact paired_append _ _ (turn_paired hrole (h turn (by simp)))
        (ih (fun other hmem => h other (mem_cons_of_mem _ hmem)))
  have hinside := paired_append _ _ (paired_emissions hrole hvalid.records)
    (hturns report.turns hvalid.turns)
  obtain ⟨pairs,hpairs,hread⟩ := hinside
  refine ⟨pairs,hpairs,?_⟩
  rw [report_inside report AgentEvent.boundary (by intro event h; cases event <;> trivial)]
  exact hread

theorem recordedOf_filter (trace : List (Action M)) : recordedOf trace =
    ((eventsOf trace).filter AgentEvent.boundary).filterMap AgentEvent.recorded := by
  rw [recordedOf, filterMap_filter]
  apply filterMap_congr
  intro event _
  cases event <;> rfl

theorem report_recorded (hrole : KeepsRole A env) (hvalid : report.Valid A env prompts) :
    recordedOf report.actions = report.recorded := by
  have hturns (turns : List (Turn M)) (h : ∀ turn ∈ turns, turn.Valid A env) :
      recordedOf (turns.flatMap Turn.inside) = turns.flatMap Turn.recorded := by
    induction turns with
    | nil => rfl
    | cons turn turns ih =>
      rw [flatMap_cons, recordedOf_append, turn_recorded hrole (h turn (by simp)),
        ih (fun other hmem => h other (mem_cons_of_mem _ hmem)), flatMap_cons]
  rw [recordedOf_filter, report_inside report AgentEvent.boundary
    (by intro event h; cases event <;> trivial), ← recordedOf_filter, recordedOf_append,
    recordedOf_emissions, hturns report.turns hvalid.turns]
  rfl

theorem reports_account (hrole : KeepsRole A env) {messages : List M} {trace : List (Action M)}
    (h : Reports A env prompts messages trace) : Accounts A env prompts messages trace := by
  refine ⟨?_,?_,?_,h⟩
  all_goals obtain ⟨report,hvalid,rfl,rfl⟩ := h
  · exact report_framed hrole hvalid
  · exact report_paired hrole hvalid
  · exact report_recorded hrole hvalid

variable (A env) (eq : ValueEq)

/-- Every run that ends accounts for its turns, its messages and what it polled, whatever
hooks, queues, tools, model and cancellation do. -/
theorem run_accounts (hfaithful : Faithful A) (hrole : KeepsRole A env)
    (hstarts : StartsOnce env) (toolFuel fuel : ℕ) (prompts : List M) (context : AgentContext M)
    (config : LoopConfig) :
    Does (runAgentLoop A eq env toolFuel fuel prompts context config) (Accounts A env prompts) ∧
      Does (runAgentLoopContinue A eq env toolFuel fuel context config) (fun result added =>
        match result with
        | .error _ => added = []
        | .ok messages => Accounts A env [] messages added) := by
  constructor
  · exact does_mono (runAgentLoop_reports A eq env hfaithful hrole hstarts toolFuel fuel prompts
      context config) (fun messages added h => reports_account hrole h)
  refine does_mono (runAgentLoopContinue_reports A eq env hfaithful hrole hstarts toolFuel fuel
    context config) ?_
  intro result added h
  cases result with
  | error error => exact h
  | ok messages => exact reports_account hrole h

end Runs

def said (text : String) : Message := .user ⟨[.text text], 0⟩

/-- One queue for all polls, a note before every later turn, no other hooks, no tools, and a
model that always streams the same events. -/
def streamingEnv (events : List AssistantMessageEvent) : Env Message (List (List Message)) where
  finalizeMessage := fun message s => (message, s)
  steering := fun s => (s.headD [], s.tail)
  followUps := fun s => (s.headD [], s.tail)
  prepareNextTurn := fun _ s => (some ⟨none, [said "note"], none, none⟩, s)
  prepareRequest := fun _ s => (none, s)
  finishTurn := fun _ s => (none, s)
  transformContext := fun _ s => (none, s)
  convertToLlm := fun messages s => (messages, s)
  apiKey := fun _ s => (none, s)
  stream := fun _ s => (events, s)
  beforeToolCall := fun _ s => (.ok none, s)
  afterToolCall := fun _ s => (.ok none, s)
  isCancelled := fun s => (false, s)
  nowMs := fun s => (0, s)
  drive := fun _ s => (.finish .panicked, s)
  schedule := fun s => (.report, s)
  executionMode := fun _ => none
  prepareArguments := fun _ args => args
  validateToolArguments := fun _ _ => .ok .null

theorem streamingEnv_keepsRole (events : List AssistantMessageEvent) :
    KeepsRole plainMessage (streamingEnv events) := fun _ _ => rfl

theorem plainMessage_faithful : Faithful plainMessage := by
  intro message inner h
  exact Option.some.inj h

def sampleReply : AssistantMessage :=
  ⟨[.text "hello"], "api", "provider", "model", none, none, .empty, .stop, none, 0⟩

def sampleConfig : LoopConfig := ⟨⟨"model", "provider", "api"⟩, .off, .together, none⟩

noncomputable def sampleRun (events : List AssistantMessageEvent) (queue : List (List Message)) :
    Option (List Message × World (List (List Message)) (Action Message)) :=
  runAgentLoop plainMessage structuralEq (streamingEnv events) 1 4 [said "hi"] ⟨[], []⟩
    sampleConfig ⟨queue, []⟩

def wordsOf : Message → List Content
  | .user message => message.content
  | _ => []

/-- A message is steered into the first turn, and another one follows after it. -/
theorem run_accounts_sample : ∃ messages after,
    sampleRun [.start sampleReply, .textStart 0, .done sampleReply]
      [[said "one"], [], [said "two"]] = some (messages, after) ∧
    messages.map wordsOf =
      [[.text "hi"], [.text "one"], [], [.text "note"], [.text "two"], []] ∧
    Accounts plainMessage (streamingEnv [.start sampleReply, .textStart 0, .done sampleReply])
      [said "hi"] messages after.trace := by
  have hends : (sampleRun [.start sampleReply, .textStart 0, .done sampleReply]
      [[said "one"], [], [said "two"]]).map (fun run => run.1.map wordsOf) =
        some [[.text "hi"], [.text "one"], [], [.text "note"], [.text "two"], []] := by
    decide +kernel
  obtain ⟨⟨messages,after⟩,hrun,hwords⟩ := Option.map_eq_some_iff.mp hends
  have hstarts : StartsOnce
      (streamingEnv [.start sampleReply, .textStart 0, .done sampleReply]) :=
    fun _ _ => Nat.le_refl 1
  obtain ⟨added,htrace,haccounts⟩ := (run_accounts plainMessage _ structuralEq
    plainMessage_faithful (streamingEnv_keepsRole _) hstarts 1 4 [said "hi"] ⟨[], []⟩
    sampleConfig).1 ⟨_, []⟩ messages after hrun
  refine ⟨messages, after, hrun, hwords, ?_⟩
  rw [htrace]
  exact haccounts

/-- A stream that starts twice opens a message inside another one. -/
theorem restarted_stream_unpaired : Faithful plainMessage ∧
    KeepsRole plainMessage
      (streamingEnv [.start sampleReply, .start sampleReply, .done sampleReply]) ∧
    ∃ messages after, sampleRun [.start sampleReply, .start sampleReply, .done sampleReply] [] =
      some (messages, after) ∧ ¬Paired plainMessage after.trace := by
  have hcount : (sampleRun [.start sampleReply, .start sampleReply, .done sampleReply] []).map
      (fun run => ((eventsOf run.2.trace).filter AgentEvent.boundary).length) = some 5 := by
    decide +kernel
  obtain ⟨⟨messages,after⟩,hrun,hfive⟩ := Option.map_eq_some_iff.mp hcount
  refine ⟨plainMessage_faithful, streamingEnv_keepsRole _, messages, after, hrun, ?_⟩
  rintro ⟨pairs,_,hpairs⟩
  -- the prompt and the reply make five boundaries, and pairs make an even number
  rw [hpairs, List.length_flatMap] at hfive
  simp only [List.length_cons, List.length_nil, List.map_const', List.sum_replicate_nat] at hfive
  omega

end Maple.Agent

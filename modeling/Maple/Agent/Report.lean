import Maple.Agent.Loop

/-!
# What a run reports

A report lists the turns of a run. A turn delivers messages, asks the model once, and does
the work of its tool calls; every message in it is started and recorded. The trace of a
report is what a run writes down that behaves like it.
-/

set_option autoImplicit false

namespace Maple.Agent

open Session.Entries Provider Traced

inductive Role where
  | system
  | user
  | assistant
  | toolResult
  deriving DecidableEq, Repr

def messageRole : Message → Role
  | .system _ => .system
  | .user _ => .user
  | .assistant _ => .assistant
  | .toolResult _ => .toolResult

def role {M : Type} (A : AgentMessage M) (message : M) : Option Role :=
  (A.asMessage message).map messageRole

def Records {M σ : Type} (env : Env M σ) (started recorded : M) : Prop :=
  ∃ s, recorded = (env.finalizeMessage started s).1

def Prepares {M σ : Type} (env : Env M σ) (messages : List M) : Prop :=
  ∃ turn s, messages = ((env.prepareNextTurn turn s).1.map TurnUpdate.messages).getD []

inductive Work (M : Type) where
  | quiet (action : Action M)
  | emission (started recorded : M)

def Tooling {M : Type} : Action M → Bool
  | .event (.toolExecutionStart _ _ _) => true
  | .event (.toolExecutionUpdate _ _ _ _) => true
  | .event (.toolExecutionEnd _ _ _ _) => true
  | .gated _ => true
  | .executed _ => true
  | .sent _ => true
  | .observed _ => true
  | _ => false

/-- The only messages of tool work are the results of calls. -/
def Work.Proper {M σ : Type} (A : AgentMessage M) (env : Env M σ) : Work M → Prop
  | .quiet action => Tooling action = true
  | .emission started recorded =>
    (∃ result, started = A.fromMessage (.toolResult result)) ∧ Records env started recorded

def Work.actions {M : Type} : Work M → List (Action M)
  | .quiet action => [action]
  | .emission started recorded => [.event (.messageStart started), .event (.messageEnd recorded)]

def Work.recorded {M : Type} : Work M → Option M
  | .quiet _ => none
  | .emission _ recorded => some recorded

/-- Messages as they were started and as they were recorded. -/
def emissions {M : Type} (pairs : List (M × M)) : List (Action M) :=
  pairs.flatMap (fun pair => [.event (.messageStart pair.1), .event (.messageEnd pair.2)])

def updateActions {M : Type} (updates : List AssistantMessageEvent) : List (Action M) :=
  updates.map (fun event => .event (.messageUpdate event))

/-- A request, and one reply that is started, updated and recorded. -/
def replyActions {M : Type} (request : Request) (opening : M)
    (updates : List AssistantMessageEvent) (reply : M) : List (Action M) :=
  [.requested request, .event (.messageStart opening)]++updateActions updates++
    [.event (.messageEnd reply)]

structure Turn (M : Type) where
  /-- What the polls since the last turn returned. -/
  asked : List (List M)
  /-- The messages of the hook that prepared the turn. -/
  prepared : List M
  /-- What the polls after that returned. -/
  extra : List (List M)
  delivered : List (M × M)
  request : Request
  opening : M
  updates : List AssistantMessageEvent
  reply : M
  work : List (Work M)
  results : List ToolResultMessage

section Turns
variable {M : Type}

def polls (asked : List (List M)) : List (Action M) := asked.map .polled

def Turn.body (turn : Turn M) : List (Action M) :=
  emissions turn.delivered++replyActions turn.request turn.opening turn.updates turn.reply++
    turn.work.flatMap Work.actions++[.event (.turnEnd turn.reply turn.results)]

/-- A later turn is prepared, polls for what came in meanwhile, and says that it starts. -/
def leadIn (prepared : List M) (extra : List (List M)) : List (Action M) :=
  .prepared prepared::polls extra++[.event .turnStart]

def Turn.actions (turn : Turn M) : List (Action M) :=
  polls turn.asked++leadIn turn.prepared turn.extra++turn.body

def Turn.recorded (turn : Turn M) : List M :=
  turn.delivered.map Prod.snd++[turn.reply]++turn.work.filterMap Work.recorded

/-- The messages of the hook and of the polls are delivered, each once and in order, but
for the one system message that declares the tools. -/
structure Turn.Valid {σ : Type} (A : AgentMessage M) (env : Env M σ) (turn : Turn M) : Prop where
  delivers : Edited A (turn.prepared++turn.asked.flatten++turn.extra.flatten)
    (turn.delivered.map Prod.fst)
  records : ∀ pair ∈ turn.delivered, Records env pair.1 pair.2
  opens : role A turn.opening = some .assistant
  replies : role A turn.reply = some .assistant
  works : ∀ work ∈ turn.work, work.Proper A env
  results : turn.results = (turn.work.filterMap Work.recorded).filterMap (toolResultOf A)

structure Report (M : Type) where
  prompts : List (M × M)
  first : Turn M
  later : List (Turn M)
  /-- The polls after the last turn. -/
  closing : List (List M)

def Report.turns (report : Report M) : List (Turn M) := report.first::report.later

def Report.recorded (report : Report M) : List M :=
  report.prompts.map Prod.snd++report.turns.flatMap Turn.recorded

def Report.actions (report : Report M) : List (Action M) :=
  [.event .agentStart, .event .turnStart]++emissions report.prompts++polls report.first.asked++
    report.first.body++report.later.flatMap Turn.actions++polls report.closing++
    [.event (.agentEnd report.recorded)]

/-- Every poll result belongs to a turn that delivers it, or is empty. The first turn is
started without the hook. -/
structure Report.Valid {σ : Type} (A : AgentMessage M) (env : Env M σ) (prompts : List M)
    (report : Report M) : Prop where
  prompted : Edited A prompts (report.prompts.map Prod.fst)
  records : ∀ pair ∈ report.prompts, Records env pair.1 pair.2
  turns : ∀ turn ∈ report.turns, turn.Valid A env
  first : report.first.prepared = [] ∧ report.first.extra = []
  later : ∀ turn ∈ report.later, Prepares env turn.prepared
  closing : ∀ messages ∈ report.closing, messages = []

end Turns

section Emissions
variable {M σ : Type} (env : Env M σ)

theorem emitMessage_does (message : M) : Does (emitMessage env message : AgentM M σ M)
    (fun recorded added => added = [.event (.messageStart message), .event (.messageEnd recorded)] ∧
      Records env message recorded) := by
  unfold emitMessage
  apply does_log_bind
  apply does_ask_bind
  intro s
  apply does_log_bind
  exact does_pure _ ⟨rfl,s,rfl⟩

theorem emitMessages_does (messages : List M) : Does (emitMessages env messages : AgentM M σ _)
    (fun recorded added => ∃ pairs : List (M × M), added = emissions pairs ∧
      (∀ pair ∈ pairs, Records env pair.1 pair.2) ∧ pairs.map Prod.fst = messages ∧
      recorded = pairs.map Prod.snd) := by
  induction messages with
  | nil => exact does_pure _ ⟨[],rfl,by simp,rfl,rfl⟩
  | cons message messages ih =>
    unfold emitMessages
    refine does_bind (emitMessage_does env message) ?_
    rintro recorded first ⟨rfl,hrecorded⟩
    refine does_bind ih ?_
    rintro rest added ⟨pairs,rfl,hpairs,rfl,rfl⟩
    refine does_pure _ ⟨(message, recorded)::pairs,by simp [emissions],?_,rfl,rfl⟩
    intro pair hpair
    rcases List.mem_cons.mp hpair with rfl | hmem
    · exact hrecorded
    · exact hpairs pair hmem

end Emissions

section Works
variable {M σ : Type}

def Works (A : AgentMessage M) (env : Env M σ) (recorded : List M) (added : List (Action M)) : Prop :=
  ∃ work : List (Work M), (∀ item ∈ work, item.Proper A env) ∧ added = work.flatMap Work.actions ∧
    recorded = work.filterMap Work.recorded

variable {A : AgentMessage M} {env : Env M σ}

theorem works_nil : Works A env ([] : List M) [] := ⟨[],by simp,rfl,rfl⟩

variable {first rest : List (Action M)}

theorem works_append {front back : List M} (hfront : Works A env front first)
    (hback : Works A env back rest) : Works A env (front++back) (first++rest) := by
  obtain ⟨work,hwork,rfl,rfl⟩ := hfront
  obtain ⟨more,hmore,rfl,rfl⟩ := hback
  refine ⟨work++more,?_,by simp,by simp⟩
  intro item hitem
  rcases List.mem_append.mp hitem with h | h
  · exact hwork item h
  · exact hmore item h

theorem works_quiet {action : Action M} (h : Tooling action = true) :
    Works A env ([] : List M) [action] :=
  ⟨[.quiet action],by simpa [Work.Proper] using h,rfl,rfl⟩

def Quiet {α : Type} (A : AgentMessage M) (env : Env M σ) (_ : α) (added : List (Action M)) : Prop :=
  Works A env [] added

variable {α : Type}

theorem quiet_append {a : α} (hfirst : Works A env ([] : List M) first)
    (hrest : Quiet A env a rest) : Quiet A env a (first++rest) :=
  works_append hfirst hrest

theorem quiet_pure (a : α) : Does (pure a : AgentM M σ α) (Quiet A env) :=
  does_pure a works_nil

theorem quiet_log (action : Action M) (h : Tooling action = true) :
    Does (log action : AgentM M σ Unit) (Quiet A env) :=
  does_log action (works_quiet h)

theorem quiet_ask (answer : σ → α × σ) : Does (ask answer : AgentM M σ α) (Quiet A env) :=
  does_ask answer (fun _ => works_nil)

theorem quiet_bind {β : Type} {x : AgentM M σ α} {f : α → AgentM M σ β} (hx : Does x (Quiet A env))
    (hf : ∀ a, Does (f a) (Quiet A env)) : Does (x >>= f) (Quiet A env) := by
  refine does_bind hx ?_
  intro a first hfirst
  exact does_mono (hf a) (fun b rest hrest => quiet_append hfirst hrest)

/-- Quiet work before work that records messages. -/
theorem works_after_quiet {β : Type} {x : AgentM M σ α} {f : α → AgentM M σ β} {m : β → List M}
    (hx : Does x (Quiet A env)) (hf : ∀ a, Does (f a) (fun b added => Works A env (m b) added)) :
    Does (x >>= f) (fun b added => Works A env (m b) added) := by
  refine does_bind hx ?_
  intro a first hfirst
  exact does_mono (hf a) (fun b rest hrest => works_append hfirst hrest)

end Works

section Batches
variable {M σ : Type} (A : AgentMessage M) (env : Env M σ)

theorem isCancelled_quiet : Does (isCancelled env : AgentM M σ Bool) (Quiet A env) :=
  quiet_bind (quiet_ask _) (fun _ => quiet_bind (quiet_log _ rfl) (fun _ => quiet_pure _))

theorem drainUpdates_quiet (updates : List ToolUpdate) :
    Does (drainUpdates updates : AgentM M σ Unit) (Quiet A env) := by
  induction updates with
  | nil => exact quiet_pure ()
  | cons update updates ih => exact quiet_bind (quiet_log _ rfl) (fun _ => ih)

theorem decideCall_quiet (call : ToolCall) (tool : Tool) (args : Json)
    (gate : Except String (Option BeforeToolCallResult)) :
    Does (decideCall env call tool args gate : AgentM M σ Prepared) (Quiet A env) := by
  cases gate with
  | error error => exact quiet_pure _
  | ok decision =>
    refine quiet_bind (isCancelled_quiet A env) (fun cancelled => ?_)
    cases cancelled with
    | true => exact quiet_pure _
    | false =>
      cases decision with
      | none => exact quiet_pure _
      | some decision =>
        cases hblock : decision.block with
        | true =>
          simp only [hblock, if_true]
          exact quiet_pure _
        | false =>
          simp only [hblock, Bool.false_eq_true, if_false]
          exact quiet_pure _

variable (context : AgentContext M) (assistant : AssistantMessage) (fuel : ℕ)

theorem prepareToolCall_quiet (call : ToolCall) :
    Does (prepareToolCall env context assistant call : AgentM M σ Prepared) (Quiet A env) := by
  unfold prepareToolCall
  split
  · exact quiet_pure _
  · split
    · exact quiet_pure _
    · exact quiet_bind (quiet_ask _)
        (fun gate => quiet_bind (quiet_log _ rfl) (fun _ => decideCall_quiet A env _ _ _ gate))

theorem settle_quiet (ready : ReadyCall) (ending : ToolEnd) :
    Does (settle env context assistant ready ending : AgentM M σ ToolCallOutcome) (Quiet A env) :=
  quiet_bind (quiet_ask _) (fun _ => quiet_pure _)

theorem drive_quiet (ready : ReadyCall) (fuel : ℕ) (updates : List ToolUpdate) :
    Does (drive env context assistant ready fuel updates : AgentM M σ ToolCallOutcome)
      (Quiet A env) := by
  induction fuel generalizing updates with
  | zero => exact does_stuck
  | succ fuel ih =>
    refine quiet_bind (quiet_ask _) (fun step => ?_)
    cases step with
    | send update => exact quiet_bind (quiet_log _ rfl) (fun _ => ih _)
    | report =>
      cases updates with
      | nil => exact ih _
      | cons update rest => exact quiet_bind (quiet_log _ rfl) (fun _ => ih _)
    | finish ending =>
      exact quiet_bind (settle_quiet A env context assistant ready ending)
        (fun _ => quiet_bind (drainUpdates_quiet A env updates) (fun _ => quiet_pure _))

theorem runCall_quiet (prepared : Prepared) :
    Does (runCall env context assistant fuel prepared : AgentM M σ ToolCallOutcome)
      (Quiet A env) := by
  cases prepared with
  | immediate outcome => exact quiet_pure _
  | ready ready =>
    exact quiet_bind (quiet_log _ rfl) (fun _ => drive_quiet A env context assistant ready fuel [])

theorem emitResult_works (outcome : ToolCallOutcome) :
    Does (emitResult A env outcome : AgentM M σ M)
      (fun message added => Works A env [message] added) := by
  apply does_ask_bind
  intro s
  refine does_mono (emitMessage_does env _) ?_
  rintro message added ⟨rfl,hrecorded⟩
  exact ⟨[.emission _ message],by simpa [Work.Proper] using ⟨⟨_,rfl⟩,hrecorded⟩,rfl,rfl⟩

theorem emitResults_works (outcomes : List ToolCallOutcome) :
    Does (emitResults A env outcomes : AgentM M σ (List M)) (Works A env) := by
  induction outcomes with
  | nil => exact does_pure _ works_nil
  | cons outcome outcomes ih =>
    refine does_bind (emitResult_works A env outcome) ?_
    intro message first hfirst
    refine does_bind ih ?_
    intro rest added hrest
    exact does_pure _ (by simpa using works_append hfirst hrest)

theorem sequentialCalls_works (calls : List ToolCall) :
    Does (sequentialCalls A env context assistant fuel calls : AgentM M σ _)
      (fun answered added => Works A env (answered.map Prod.snd) added) := by
  induction calls with
  | nil => exact does_pure _ works_nil
  | cons call rest ih =>
    refine works_after_quiet (quiet_log _ rfl) (fun _ => ?_)
    refine works_after_quiet (prepareToolCall_quiet A env context assistant call) (fun prepared => ?_)
    refine works_after_quiet (runCall_quiet A env context assistant fuel prepared) (fun outcome => ?_)
    refine works_after_quiet (quiet_log _ rfl) (fun _ => ?_)
    refine does_bind (emitResult_works A env outcome) ?_
    intro message first hfirst
    refine does_bind (isCancelled_quiet A env) ?_
    intro cancelled seen hseen
    have hboth := works_append hfirst hseen
    cases cancelled with
    | true => exact does_pure _ (by simpa using hboth)
    | false =>
      refine does_bind ih ?_
      intro answered added hrest
      refine does_pure _ ?_
      simpa using works_append hboth hrest

theorem placeCall_quiet (gates : Gates) (prepared : Prepared) :
    Does (placeCall gates prepared : AgentM M σ Gates) (Quiet A env) := by
  cases prepared with
  | immediate outcome => exact quiet_bind (quiet_log _ rfl) (fun _ => quiet_pure _)
  | ready ready => exact quiet_pure _

theorem runGates_quiet (calls : List ToolCall) (gates : Gates) :
    Does (runGates env context assistant calls gates : AgentM M σ Gates) (Quiet A env) := by
  induction calls generalizing gates with
  | nil => exact quiet_pure _
  | cons call rest ih =>
    refine quiet_bind (quiet_log _ rfl) (fun _ => ?_)
    refine quiet_bind (prepareToolCall_quiet A env context assistant call) (fun prepared => ?_)
    refine quiet_bind (placeCall_quiet A env gates prepared) (fun gates => ?_)
    refine quiet_bind (isCancelled_quiet A env) (fun cancelled => ?_)
    exact does_ite _ (fun _ => quiet_pure _) (fun _ => ih gates)

theorem complete_quiet (state : Running) (index : ℕ) (outcome : ToolCallOutcome) :
    Does (complete state index outcome : AgentM M σ Running) (Quiet A env) :=
  quiet_bind (drainUpdates_quiet A env _)
    (fun _ => quiet_bind (quiet_log _ rfl) (fun _ => quiet_pure _))

theorem scheduleStep_quiet (state : Running) (step : ScheduleStep) :
    Does (scheduleStep env context assistant state step : AgentM M σ Running) (Quiet A env) := by
  cases step with
  | start index =>
    simp only [scheduleStep]
    split
    · exact quiet_pure _
    · refine quiet_bind (isCancelled_quiet A env) (fun cancelled => ?_)
      exact does_ite _ (fun _ => complete_quiet A env _ _ _)
        (fun _ => quiet_bind (quiet_log _ rfl) (fun _ => quiet_pure _))
  | send update => exact quiet_bind (quiet_log _ rfl) (fun _ => quiet_pure _)
  | report =>
    simp only [scheduleStep]
    split
    · exact quiet_pure _
    · exact quiet_bind (quiet_log _ rfl) (fun _ => quiet_pure _)
  | finish index ending =>
    simp only [scheduleStep]
    split
    · exact quiet_pure _
    · exact quiet_bind (settle_quiet A env _ _ _ _) (fun _ => complete_quiet A env _ _ _)

theorem runTogether_quiet (state : Running) :
    Does (runTogether env context assistant fuel state : AgentM M σ _) (Quiet A env) := by
  induction fuel generalizing state with
  | zero => exact does_stuck
  | succ fuel ih =>
    refine does_ite _ (fun _ => quiet_pure _) (fun _ => ?_)
    refine quiet_bind (quiet_ask _) (fun step => ?_)
    exact quiet_bind (scheduleStep_quiet A env context assistant state step) (fun state => ih state)

theorem executeToolCalls_works (mode : ToolExecutionMode) (fuel : ℕ) (calls : List ToolCall) :
    Does (executeToolCalls A env context assistant mode fuel calls : AgentM M σ (ToolBatch M))
      (fun batch added => Works A env batch.messages added) := by
  unfold executeToolCalls
  apply does_ite
  · intro _
    refine does_bind (sequentialCalls_works A env context assistant fuel calls) ?_
    intro answered added hadded
    exact does_pure _ (by simpa using hadded)
  intro _
  refine works_after_quiet (runGates_quiet A env context assistant calls _) (fun gates => ?_)
  refine works_after_quiet (runTogether_quiet A env context assistant fuel _) (fun slots => ?_)
  refine does_bind (emitResults_works A env _) ?_
  intro messages added hadded
  exact does_pure _ (by simpa using hadded)

theorem failTruncatedCalls_works (calls : List ToolCall) :
    Does (failTruncatedCalls A env calls : AgentM M σ (List M)) (Works A env) := by
  induction calls with
  | nil => exact does_pure _ works_nil
  | cons call rest ih =>
    refine works_after_quiet (m := id) (quiet_log _ rfl) (fun _ => ?_)
    refine works_after_quiet (m := id) (quiet_log _ rfl) (fun _ => ?_)
    refine does_bind (emitResult_works A env _) ?_
    intro message first hfirst
    refine does_bind ih ?_
    intro messages added hrest
    exact does_pure _ (by simpa using works_append hfirst hrest)

end Batches

end Maple.Agent

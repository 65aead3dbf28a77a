import Maple.Agent.Batch

/-!
# The agent loop

A run takes turns: pending messages are delivered, the model answers, its tool calls are
executed, and a hook decides what follows. Queues are polled before the first turn, after
every turn, while a turn is prepared, and when the agent would stop.
-/

set_option autoImplicit false

namespace Maple.Agent

open Session.Entries Provider Traced

structure LoopConfig where
  model : Model
  thinkingLevel : ThinkingLevel
  toolExecution : ToolExecutionMode
  apiKey : Option String

structure CompletedTurn where
  message : AssistantMessage
  toolResults : List ToolResultMessage

structure LoopState (M : Type) where
  context : AgentContext M
  newMessages : List M
  config : LoopConfig
  lastTurn : Option CompletedTurn
  explicitContinuation : Bool
  pending : List M

/-- What reading a stream leaves: whether it started, the message of its last start, and
the final message. -/
structure StreamEnd where
  started : Bool
  last : Option AssistantMessage
  result : Option AssistantMessage

def unterminated (last : Option AssistantMessage) (nowMs : ℕ) : AssistantMessage :=
  { last.getD ⟨[], "", "", "", none, none, .empty, .error, none, nowMs⟩ with
    stopReason := .error
    errorMessage := some "Provider stream ended without a final message" }

section Loop
variable {M σ : Type} (A : AgentMessage M) (eq : ValueEq) (env : Env M σ)

def readStream : List AssistantMessageEvent → StreamEnd → AgentM M σ StreamEnd
  | [], stream => return stream
  | .start message::rest, _ => do
    emit (.messageStart (A.fromMessage (.assistant message)))
    readStream rest ⟨true, some message, none⟩
  | .done message::_, stream => return { stream with result := some message }
  | .error message::_, stream => return { stream with result := some message }
  | event::rest, stream => do
    emitIf stream.started (.messageUpdate event)
    readStream rest stream

/-- The replacement a hook made, if it is still an assistant message. -/
def assistantOf (finalized : M) (message : AssistantMessage) : AssistantMessage :=
  match A.asMessage finalized with
  | some (.assistant replacement) => replacement
  | _ => message

/-- Record a reply as the hook leaves it, and append it to the context. -/
def recordReply (context : AgentContext M) (message : AssistantMessage) :
    AgentM M σ (AssistantMessage × AgentContext M) := do
  let finalized ← ask (env.finalizeMessage (A.fromMessage (.assistant message)))
  emit (.messageEnd finalized)
  return (assistantOf A finalized message,
    { context with messages := context.messages++[finalized] })

def streamAssistantResponse (context : AgentContext M) (config : LoopConfig) :
    AgentM M σ (AssistantMessage × AgentContext M) := do
  let transformed ← ask (env.transformContext context.messages)
  let llmMessages ← ask (env.convertToLlm (transformed.getD context.messages))
  let apiKey ← ask (env.apiKey config.model.provider)
  let request : Request := ⟨config.model, llmMessages, apiKey.or config.apiKey,
    if config.thinkingLevel = .off then none else some config.thinkingLevel⟩
  log (.requested request)
  let events ← ask (env.stream request)
  let stream ← readStream A events ⟨false, none, none⟩
  let nowMs ← ask env.nowMs
  let message := { stream.result.getD (unterminated stream.last nowMs) with
    thinkingLevel := some config.thinkingLevel }
  emitIf (!stream.started) (.messageStart (A.fromMessage (.assistant message)))
  recordReply A env context message

/-- The state after the hook prepared the next turn, with the messages it adds. -/
def prepareTurn (state : LoopState M) (turn : CompletedTurn) :
    AgentM M σ (LoopState M × List M) := do
  let update ← ask (env.prepareNextTurn
    ⟨turn.message, turn.toolResults, state.context, state.newMessages⟩)
  log (.prepared ((update.map TurnUpdate.messages).getD []))
  return match update with
    | none => (state, [])
    | some update => ({ state with
        context := update.context.getD state.context
        config := { state.config with
          model := update.model.getD state.config.model
          thinkingLevel := update.thinkingLevel.getD state.config.thinkingLevel } },
        update.messages)

def steering : AgentM M σ (List M) := do
  let messages ← ask env.steering
  log (.polled messages)
  return messages

def followUps : AgentM M σ (List M) := do
  let messages ← ask env.followUps
  log (.polled messages)
  return messages

/-- Steering that came in while the turn was prepared, unless there is some already. -/
def topUp (pending : List M) : AgentM M σ (List M) :=
  if pending.isEmpty then steering env else return pending

def beginTurn (state : LoopState M) : AgentM M σ (LoopState M × List M) :=
  match state.lastTurn with
  | none => return (state, [])
  | some turn => do
    let (state, prepared) ← prepareTurn env state turn
    let pending ← topUp env state.pending
    emit .turnStart
    return ({ state with pending := pending }, prepared)

def deliver (state : LoopState M) (prepared : List M) (nowMs : ℕ) : AgentM M σ (LoopState M) := do
  let messages ← emitMessages env
    (declareToolChanges A eq nowMs state.context (prepared++state.pending))
  return { state with
    context := { state.context with messages := state.context.messages++messages }
    newMessages := state.newMessages++messages
    pending := [] }

def prepareRequest (state : LoopState M) : AgentM M σ (LoopState M) := do
  let update ← ask (env.prepareRequest
    ⟨state.context, state.config.model, state.config.thinkingLevel⟩)
  return match update with
    | none => state
    | some update => { state with
        context := update.context.getD state.context
        config := { state.config with
          model := update.model.getD state.config.model
          thinkingLevel := update.thinkingLevel.getD state.config.thinkingLevel } }

def toolResultOf (message : M) : Option ToolResultMessage :=
  match A.asMessage message with
  | some (.toolResult result) => some result
  | _ => none

def runCalls (state : LoopState M) (message : AssistantMessage) (fuel : ℕ) :
    AgentM M σ (ToolBatch M) :=
  if message.stopReason = .length then do
    let messages ← failTruncatedCalls A env message.toolCalls
    return ⟨messages, false⟩
  else executeToolCalls A env state.context message state.config.toolExecution fuel
    message.toolCalls

/-- The tool results of a reply, and whether they ask for another request. -/
def runTools (state : LoopState M) (message : AssistantMessage) (fuel : ℕ) :
    AgentM M σ (LoopState M × List ToolResultMessage × Bool) :=
  if message.toolCalls.isEmpty then return (state, [], false)
  else do
    let batch ← runCalls A env state message fuel
    return ({ state with
      context := { state.context with messages := state.context.messages++batch.messages }
      newMessages := state.newMessages++batch.messages },
      batch.messages.filterMap (toolResultOf A), !batch.terminate)

def finishTurn (state : LoopState M) (turn : CompletedTurn) :
    AgentM M σ (Option TurnDecision) := do
  let decision ← ask (env.finishTurn
    ⟨turn.message, turn.toolResults, state.context, state.newMessages⟩)
  emit (.turnEnd (A.fromMessage (.assistant turn.message)) turn.toolResults)
  return decision

def endRun (state : LoopState M) : AgentM M σ (List M) := do
  emit (.agentEnd state.newMessages)
  return state.newMessages

def answer (state : LoopState M) : AgentM M σ (LoopState M × AssistantMessage) := do
  let (message, context) ← streamAssistantResponse A env state.context state.config
  return ({ state with
    context := context
    newMessages := state.newMessages++[A.fromMessage (.assistant message)] }, message)

/-- How a turn leaves the loop: the run goes on, perhaps with more to do, or it ends. -/
inductive TurnOutcome (M : Type) where
  | next (state : LoopState M) (hasMoreToolCalls : Bool)
  | stop (state : LoopState M)

def takeTurn (fuel : ℕ) (state : LoopState M) : AgentM M σ (TurnOutcome M) := do
  let (state, prepared) ← beginTurn env state
  let nowMs ← ask env.nowMs
  let state ← deliver A eq env state prepared nowMs
  let state ← prepareRequest env state
  let (state, message) ← answer A env state
  if message.isFailure then do
    let _ ← finishTurn A env state ⟨message, []⟩
    return .stop state
  else do
    let (state, toolResults, hasMoreToolCalls) ← runTools A env state message fuel
    let decision ← finishTurn A env state ⟨message, toolResults⟩
    let state := { state with lastTurn := some ⟨message, toolResults⟩ }
    if decision = some .finish then return .stop state
    else do
      let pending ← steering env
      return .next { state with
        pending := pending
        explicitContinuation := decision = some .proceed && !hasMoreToolCalls &&
          pending.isEmpty } hasMoreToolCalls

/-- The two loops of a run: turns while there is something to do, then the follow-ups. -/
def runLoop (toolFuel : ℕ) : ℕ → LoopState M → Bool → AgentM M σ (List M)
  | 0, _, _ => stuck
  | fuel+1, state, hasMoreToolCalls =>
    if hasMoreToolCalls || !state.pending.isEmpty then do
      let outcome ← takeTurn A eq env toolFuel state
      match outcome with
      | .stop state => endRun state
      | .next state hasMoreToolCalls => runLoop toolFuel fuel state hasMoreToolCalls
    else do
      let messages ← followUps env
      if !messages.isEmpty then
        runLoop toolFuel fuel { state with pending := messages, explicitContinuation := false } true
      else if state.explicitContinuation then
        -- nothing else asked for a request, so the continuation gets one turn
        runLoop toolFuel fuel { state with explicitContinuation := false } true
      else endRun state

def startLoop (toolFuel fuel : ℕ) (context : AgentContext M) (newMessages : List M)
    (config : LoopConfig) : AgentM M σ (List M) := do
  let pending ← steering env
  runLoop A eq env toolFuel fuel ⟨context, newMessages, config, none, false, pending⟩ true

def runAgentLoop (toolFuel fuel : ℕ) (prompts : List M) (context : AgentContext M)
    (config : LoopConfig) : AgentM M σ (List M) := do
  let nowMs ← ask env.nowMs
  emit .agentStart
  emit .turnStart
  let messages ← emitMessages env (declareToolChanges A eq nowMs context prompts)
  startLoop A eq env toolFuel fuel
    { context with messages := context.messages++messages } messages config

inductive AgentError where
  | noMessages
  | cannotContinueFromAssistant
  deriving DecidableEq, Repr

def isAssistant (message : M) : Bool :=
  match A.asMessage message with
  | some (.assistant _) => true
  | _ => false

def runAgentLoopContinue (toolFuel fuel : ℕ) (context : AgentContext M) (config : LoopConfig) :
    AgentM M σ (Except AgentError (List M)) :=
  match context.messages.getLast? with
  | none => return .error .noMessages
  | some last =>
    if isAssistant A last then return .error .cannotContinueFromAssistant
    else do
      emit .agentStart
      emit .turnStart
      let messages ← startLoop A eq env toolFuel fuel context [] config
      return .ok messages

end Loop

end Maple.Agent

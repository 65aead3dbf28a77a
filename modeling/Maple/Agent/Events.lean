import Maple.Agent.Declaring
import Maple.Lib.Traced

/-!
# What an agent run touches

A run asks its hooks, queues, tools and model, and reports events. All of these are one
environment that may answer anything. The trace of a run holds its events, and what it
asked for where that matters: polls, requests, gates, executions and updates.
-/

set_option autoImplicit false

namespace Maple.Agent

open Session.Entries Provider Traced

structure Model where
  id : String
  provider : String
  api : String
  deriving DecidableEq, Repr

inductive AssistantMessageEvent where
  | start (message : AssistantMessage)
  | textStart (index : ℕ)
  | textDelta (index : ℕ) (delta : String)
  | textEnd (index : ℕ)
  | thinkingStart (index : ℕ)
  | thinkingDelta (index : ℕ) (delta : String)
  | thinkingEnd (index : ℕ)
  | toolCallStart (index : ℕ) (id name : String)
  | toolCallDelta (index : ℕ) (delta : String)
  | toolCallEnd (index : ℕ) (toolCall : ToolCall)
  | done (message : AssistantMessage)
  | error (message : AssistantMessage)

structure AgentToolResult where
  content : List Content
  details : Option Json
  usage : Option Usage
  isError : Bool
  terminate : Bool

def AgentToolResult.error (text : String) : AgentToolResult :=
  ⟨[.text text], none, none, true, false⟩

structure ToolCallOutcome where
  toolCall : ToolCall
  result : AgentToolResult
  isError : Bool

structure ToolUpdate where
  callId : String
  toolName : String
  args : Json
  partialResult : AgentToolResult

inductive AgentEvent (M : Type) where
  | agentStart
  | agentEnd (messages : List M)
  | turnStart
  | turnEnd (message : M) (toolResults : List ToolResultMessage)
  | messageStart (message : M)
  | messageUpdate (event : AssistantMessageEvent)
  | messageEnd (message : M)
  | toolExecutionStart (toolCallId toolName : String) (args : Json)
  | toolExecutionUpdate (toolCallId toolName : String) (args : Json)
      (partialResult : AgentToolResult)
  | toolExecutionEnd (toolCallId toolName : String) (result : AgentToolResult) (isError : Bool)

structure Request where
  model : Model
  messages : List Message
  apiKey : Option String
  reasoning : Option ThinkingLevel

inductive Action (M : Type) where
  | event (event : AgentEvent M)
  /-- A poll of a queue, with what it returned. -/
  | polled (messages : List M)
  /-- The hook that prepares a turn has answered, with the messages it adds. -/
  | prepared (messages : List M)
  | requested (request : Request)
  /-- The gate of a call has answered. -/
  | gated (call : ToolCall)
  | executed (call : ToolCall)
  /-- A tool sent a partial result. -/
  | sent (update : ToolUpdate)
  | observed (cancelled : Bool)

inductive TurnDecision where
  | proceed
  | finish
  deriving DecidableEq, Repr

structure TurnContext (M : Type) where
  message : AssistantMessage
  toolResults : List ToolResultMessage
  context : AgentContext M
  newMessages : List M

structure TurnUpdate (M : Type) where
  context : Option (AgentContext M)
  messages : List M
  model : Option Model
  thinkingLevel : Option ThinkingLevel

structure RequestContext (M : Type) where
  context : AgentContext M
  model : Model
  thinkingLevel : ThinkingLevel

structure RequestUpdate (M : Type) where
  context : Option (AgentContext M)
  model : Option Model
  thinkingLevel : Option ThinkingLevel

structure BeforeToolCall (M : Type) where
  assistantMessage : AssistantMessage
  toolCall : ToolCall
  args : Json
  context : AgentContext M

structure BeforeToolCallResult where
  block : Bool
  reason : Option String
  terminate : Bool
  args : Option Json

structure AfterToolCall (M : Type) where
  assistantMessage : AssistantMessage
  toolCall : ToolCall
  args : Json
  result : AgentToolResult
  isError : Bool
  context : AgentContext M

structure AfterToolCallResult where
  content : Option (List Content)
  details : Option Json
  usage : Option Usage
  isError : Option Bool
  terminate : Option Bool

inductive ToolExecutionMode where
  | oneByOne
  | together
  deriving DecidableEq, Repr

structure ReadyCall where
  call : ToolCall
  tool : Tool
  args : Json

inductive ToolEnd where
  | finished (result : AgentToolResult)
  | failed (error : String)
  | panicked

inductive DriveStep where
  | send (update : ToolUpdate)
  | report
  | finish (ending : ToolEnd)

/-- What happens next while several tools run; tools are named by the index of their call. -/
inductive ScheduleStep where
  | start (index : ℕ)
  | send (update : ToolUpdate)
  | report
  | finish (index : ℕ) (ending : ToolEnd)

/-- Hooks, queues, tools, model and cancellation. -/
structure Env (M σ : Type) where
  finalizeMessage : M → σ → M × σ
  steering : σ → List M × σ
  followUps : σ → List M × σ
  prepareNextTurn : TurnContext M → σ → Option (TurnUpdate M) × σ
  prepareRequest : RequestContext M → σ → Option (RequestUpdate M) × σ
  finishTurn : TurnContext M → σ → Option TurnDecision × σ
  transformContext : List M → σ → Option (List M) × σ
  convertToLlm : List M → σ → List Message × σ
  apiKey : String → σ → Option String × σ
  /-- The events a stream delivers until it ends. -/
  stream : Request → σ → List AssistantMessageEvent × σ
  beforeToolCall : BeforeToolCall M → σ → Except String (Option BeforeToolCallResult) × σ
  afterToolCall : AfterToolCall M → σ → Except String (Option AfterToolCallResult) × σ
  isCancelled : σ → Bool × σ
  nowMs : σ → ℕ × σ
  drive : ReadyCall → σ → DriveStep × σ
  schedule : σ → ScheduleStep × σ
  executionMode : Tool → Option ToolExecutionMode
  prepareArguments : Tool → List (String × Json) → List (String × Json)
  validateToolArguments : Tool → ToolCall → Except String Json

abbrev AgentM (M σ : Type) := Act σ (Action M)

section Emitting
variable {M σ : Type}

def emit (event : AgentEvent M) : AgentM M σ Unit := log (.event event)

def emitIf (condition : Bool) (event : AgentEvent M) : AgentM M σ Unit :=
  if condition then emit event else return ()

variable (env : Env M σ)

def emitMessage (message : M) : AgentM M σ M := do
  emit (.messageStart message)
  let message ← ask (env.finalizeMessage message)
  emit (.messageEnd message)
  return message

def emitMessages : List M → AgentM M σ (List M)
  | [] => return []
  | message::rest => do
    let message ← emitMessage env message
    let rest ← emitMessages rest
    return message::rest

def isCancelled : AgentM M σ Bool := do
  let cancelled ← ask env.isCancelled
  log (.observed cancelled)
  return cancelled

end Emitting

end Maple.Agent

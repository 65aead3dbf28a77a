import Maple.Agent.Events

/-!
# A batch of tool calls

The calls of a reply are prepared in order: the tool is found, the arguments are checked
and a gate decides. One by one, each call then runs to its end. Together, all gates
answer first, and the running tools end in any order; their results are appended in the
order of the calls.
-/

set_option autoImplicit false

namespace Maple.Agent

open Session.Entries Provider Traced

inductive Prepared where
  | immediate (outcome : ToolCallOutcome)
  | ready (ready : ReadyCall)

structure ToolBatch (M : Type) where
  messages : List M
  terminate : Bool

def failed (call : ToolCall) (error : String) : ToolCallOutcome :=
  ⟨call, .error error, true⟩

def aborted : String := "Operation aborted"

section Calls
variable {M σ : Type} (A : AgentMessage M) (env : Env M σ)

def emitStart (call : ToolCall) : AgentM M σ Unit :=
  emit (.toolExecutionStart call.id call.name (.obj call.arguments))

def emitEnd (outcome : ToolCallOutcome) : AgentM M σ Unit :=
  emit (.toolExecutionEnd outcome.toolCall.id outcome.toolCall.name outcome.result
    outcome.isError)

def emitUpdate (update : ToolUpdate) : AgentM M σ Unit :=
  emit (.toolExecutionUpdate update.callId update.toolName update.args update.partialResult)

def drainUpdates : List ToolUpdate → AgentM M σ Unit
  | [] => return ()
  | update::rest => do
    emitUpdate update
    drainUpdates rest

/-- What the gate's answer makes of a call whose arguments are valid. -/
def decideCall (call : ToolCall) (tool : Tool) (args : Json) :
    Except String (Option BeforeToolCallResult) → AgentM M σ Prepared
  | .error error => return .immediate (failed call error)
  | .ok decision => do
    let cancelled ← isCancelled env
    if cancelled then return .immediate (failed call aborted)
    else match decision with
      | some decision =>
        if decision.block then
          let outcome := failed call (decision.reason.getD "Tool execution was blocked")
          return .immediate
            { outcome with result := { outcome.result with terminate := decision.terminate } }
        else return .ready ⟨call, tool, decision.args.getD args⟩
      | none => return .ready ⟨call, tool, args⟩

/-- Find the tool, prepare and validate the arguments, and run the gate. -/
def prepareToolCall (context : AgentContext M) (assistant : AssistantMessage) (call : ToolCall) :
    AgentM M σ Prepared :=
  match findTool context.tools call.name with
  | none => return .immediate (failed call ("Tool "++call.name++" not found"))
  | some tool =>
    match env.validateToolArguments tool
        { call with arguments := env.prepareArguments tool call.arguments } with
    | .error error => return .immediate (failed call error)
    | .ok args => do
      let gate ← ask (env.beforeToolCall ⟨assistant, call, args, context⟩)
      log (.gated call)
      decideCall env call tool args gate

def ended (call : ToolCall) : ToolEnd → AgentToolResult × Bool
  | .finished result => (result, result.isError)
  | .failed error => (.error error, true)
  | .panicked => (.error ("Tool "++call.name++" panicked"), true)

def rewriteResult (result : AgentToolResult) (isError : Bool) :
    Except String (Option AfterToolCallResult) → AgentToolResult × Bool
  | .ok none => (result, isError)
  | .ok (some rewrite) =>
    ({ result with
        content := rewrite.content.getD result.content
        details := rewrite.details.or result.details
        usage := rewrite.usage.or result.usage
        terminate := rewrite.terminate.getD result.terminate },
      rewrite.isError.getD isError)
  | .error error => (.error error, true)

/-- The outcome of an execution that ended, as the hook leaves it. -/
def settle (context : AgentContext M) (assistant : AssistantMessage) (ready : ReadyCall)
    (ending : ToolEnd) : AgentM M σ ToolCallOutcome := do
  let (result, isError) := ended ready.call ending
  let rewrite ← ask (env.afterToolCall
    ⟨assistant, ready.call, ready.args, result, isError, context⟩)
  let (result, isError) := rewriteResult result isError rewrite
  return ⟨ready.call, { result with isError := isError }, isError⟩

def drive (context : AgentContext M) (assistant : AssistantMessage) (ready : ReadyCall) :
    ℕ → List ToolUpdate → AgentM M σ ToolCallOutcome
  | 0, _ => stuck
  | fuel+1, updates => do
    let step ← ask (env.drive ready)
    match step with
    | .send update => do
      log (.sent update)
      drive context assistant ready fuel (updates++[update])
    | .report =>
      match updates with
      | [] => drive context assistant ready fuel []
      | update::rest => do
        emitUpdate update
        drive context assistant ready fuel rest
    | .finish ending => do
      let outcome ← settle env context assistant ready ending
      drainUpdates updates
      return outcome

def resultMessage (outcome : ToolCallOutcome) (timestamp : ℕ) : ToolResultMessage :=
  ⟨outcome.toolCall.id, outcome.toolCall.name, outcome.result.content, outcome.result.details,
    outcome.result.usage, outcome.isError, timestamp⟩

def emitResult (outcome : ToolCallOutcome) : AgentM M σ M := do
  let timestamp ← ask env.nowMs
  emitMessage env (A.fromMessage (.toolResult (resultMessage outcome timestamp)))

def emitResults : List ToolCallOutcome → AgentM M σ (List M)
  | [] => return []
  | outcome::rest => do
    let message ← emitResult A env outcome
    let rest ← emitResults rest
    return message::rest

def shouldTerminate (outcomes : List ToolCallOutcome) : Bool :=
  !outcomes.isEmpty && outcomes.all (fun outcome => outcome.result.terminate)

def runCall (context : AgentContext M) (assistant : AssistantMessage) (fuel : ℕ) :
    Prepared → AgentM M σ ToolCallOutcome
  | .immediate outcome => return outcome
  | .ready ready => do
    log (.executed ready.call)
    drive env context assistant ready fuel []

def sequentialCalls (context : AgentContext M) (assistant : AssistantMessage) (fuel : ℕ) :
    List ToolCall → AgentM M σ (List (ToolCallOutcome × M))
  | [] => return []
  | call::rest => do
    emitStart call
    let prepared ← prepareToolCall env context assistant call
    let outcome ← runCall env context assistant fuel prepared
    emitEnd outcome
    let message ← emitResult A env outcome
    let cancelled ← isCancelled env
    if cancelled then return [(outcome, message)]
    else do
      let rest ← sequentialCalls context assistant fuel rest
      return (outcome, message)::rest

def executeSequential (context : AgentContext M) (assistant : AssistantMessage) (fuel : ℕ)
    (calls : List ToolCall) : AgentM M σ (ToolBatch M) := do
  let answered ← sequentialCalls A env context assistant fuel calls
  return ⟨answered.map Prod.snd, shouldTerminate (answered.map Prod.fst)⟩

/-- The slots of the calls, and the calls that wait to be run with their indices. -/
structure Gates where
  slots : List (Option ToolCallOutcome)
  waiting : List (ℕ × ReadyCall)

def placeCall (gates : Gates) : Prepared → AgentM M σ Gates
  | .immediate outcome => do
    emitEnd outcome
    return { gates with slots := gates.slots++[some outcome] }
  | .ready ready =>
    return ⟨gates.slots++[none], gates.waiting++[(gates.slots.length, ready)]⟩

def runGates (context : AgentContext M) (assistant : AssistantMessage) :
    List ToolCall → Gates → AgentM M σ Gates
  | [], gates => return gates
  | call::rest, gates => do
    emitStart call
    let prepared ← prepareToolCall env context assistant call
    let gates ← placeCall gates prepared
    let cancelled ← isCancelled env
    if cancelled then return gates else runGates context assistant rest gates

structure Running where
  slots : List (Option ToolCallOutcome)
  /-- Not polled yet. -/
  waiting : List (ℕ × ReadyCall)
  active : List (ℕ × ReadyCall)
  updates : List ToolUpdate

def without (index : ℕ) (calls : List (ℕ × ReadyCall)) : List (ℕ × ReadyCall) :=
  calls.filter (fun entry => entry.1 ≠ index)

/-- A running call has an outcome: the updates so far are reported before its end. -/
def complete (state : Running) (index : ℕ) (outcome : ToolCallOutcome) :
    AgentM M σ Running := do
  drainUpdates state.updates
  emitEnd outcome
  return ⟨state.slots.set index (some outcome), without index state.waiting,
    without index state.active, []⟩

def scheduleStep (context : AgentContext M) (assistant : AssistantMessage) (state : Running) :
    ScheduleStep → AgentM M σ Running
  | .start index =>
    match state.waiting.find? (fun entry => entry.1 = index) with
    | none => return state
    | some (_, ready) => do
      let cancelled ← isCancelled env
      if cancelled then complete state index (failed ready.call aborted)
      else do
        log (.executed ready.call)
        return { state with
          waiting := without index state.waiting
          active := state.active++[(index, ready)] }
  | .send update => do
    log (.sent update)
    return { state with updates := state.updates++[update] }
  | .report =>
    match state.updates with
    | [] => return state
    | update::rest => do
      emitUpdate update
      return { state with updates := rest }
  | .finish index ending =>
    match state.active.find? (fun entry => entry.1 = index) with
    | none => return state
    | some (_, ready) => do
      let outcome ← settle env context assistant ready ending
      complete state index outcome

def runTogether (context : AgentContext M) (assistant : AssistantMessage) :
    ℕ → Running → AgentM M σ (List (Option ToolCallOutcome))
  | 0, _ => stuck
  | fuel+1, state =>
    if state.waiting.isEmpty && state.active.isEmpty then return state.slots
    else do
      let step ← ask env.schedule
      let state ← scheduleStep env context assistant state step
      runTogether context assistant fuel state

def executeParallel (context : AgentContext M) (assistant : AssistantMessage) (fuel : ℕ)
    (calls : List ToolCall) : AgentM M σ (ToolBatch M) := do
  let gates ← runGates env context assistant calls ⟨[], []⟩
  let slots ← runTogether env context assistant fuel ⟨gates.slots, gates.waiting, [], []⟩
  let outcomes := slots.filterMap id
  let messages ← emitResults A env outcomes
  return ⟨messages, shouldTerminate outcomes⟩

def isSequential (context : AgentContext M) (mode : ToolExecutionMode) (calls : List ToolCall) :
    Bool :=
  mode = .oneByOne || calls.any (fun call => context.tools.any (fun tool =>
    tool.name = call.name && env.executionMode tool = some .oneByOne))

def executeToolCalls (context : AgentContext M) (assistant : AssistantMessage)
    (mode : ToolExecutionMode) (fuel : ℕ) (calls : List ToolCall) : AgentM M σ (ToolBatch M) :=
  if isSequential env context mode calls then executeSequential A env context assistant fuel calls
  else executeParallel A env context assistant fuel calls

def truncatedError (name : String) : String :=
  "Tool call \""++name++"\" was not executed: the response hit the output token limit, so its "++
    "arguments may be truncated. Re-issue the tool call with complete arguments."

def failTruncatedCalls : List ToolCall → AgentM M σ (List M)
  | [] => return []
  | call::rest => do
    emitStart call
    let outcome := failed call (truncatedError call.name)
    emitEnd outcome
    let message ← emitResult A env outcome
    let rest ← failTruncatedCalls rest
    return message::rest

end Calls

end Maple.Agent

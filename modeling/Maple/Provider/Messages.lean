import Maple.Session.Entries

/-!
# Messages of a transcript

The messages a model can read, and the prompt and tools that the system messages of a
transcript declare: the leading one states them and later ones change them.
-/

set_option autoImplicit false

namespace Maple.Provider

open Session.Entries

inductive Content where
  | text (text : String)
  | image (data mimeType : String)
  deriving DecidableEq, Repr

structure ToolCall where
  id : String
  name : String
  arguments : List (String × Json)

inductive AssistantContent where
  | text (text : String)
  | thinking (thinking : String) (signature : Option String) (redacted : Bool)
  | toolCall (call : ToolCall)

inductive StopReason where
  | stop
  | length
  | toolUse
  | error
  | aborted
  deriving DecidableEq, Repr

inductive StrictSampling where
  | prefer
  | require
  deriving DecidableEq, Repr

inductive ConstrainedSampling where
  | jsonSchema (strict : StrictSampling)
  deriving DecidableEq, Repr

structure Tool where
  name : String
  description : String
  parameters : Json
  constrainedSampling : Option ConstrainedSampling

structure SystemMessage where
  content : String
  sections : List (String × Option String)
  toolsAdded : List Tool
  toolsRemoved : List String
  timestamp : ℕ

structure UserMessage where
  content : List Content
  timestamp : ℕ

structure Usage where
  input : ℕ
  output : ℕ
  cacheRead : ℕ
  cacheWrite : ℕ
  reasoning : Option ℕ
  totalTokens : ℕ
  deriving DecidableEq, Repr

def Usage.empty : Usage := ⟨0, 0, 0, 0, none, 0⟩

structure AssistantMessage where
  content : List AssistantContent
  api : String
  provider : String
  model : String
  responseId : Option String
  thinkingLevel : Option ThinkingLevel
  usage : Usage
  stopReason : StopReason
  errorMessage : Option String
  timestamp : ℕ

structure ToolResultMessage where
  toolCallId : String
  toolName : String
  content : List Content
  details : Option Json
  usage : Option Usage
  isError : Bool
  timestamp : ℕ

inductive Message where
  | system (message : SystemMessage)
  | user (message : UserMessage)
  | assistant (message : AssistantMessage)
  | toolResult (message : ToolResultMessage)

def AssistantContent.asToolCall : AssistantContent → Option ToolCall
  | .toolCall call => some call
  | _ => none

def AssistantMessage.toolCalls (message : AssistantMessage) : List ToolCall :=
  message.content.filterMap AssistantContent.asToolCall

def AssistantMessage.isFailure (message : AssistantMessage) : Bool :=
  message.stopReason = .error || message.stopReason = .aborted

def Content.asText : Content → Option String
  | .text words => some words
  | .image _ _ => none

def contentText (content : List Content) : String :=
  "\n".intercalate (content.filterMap Content.asText)

def Message.asSystem : Message → Option SystemMessage
  | .system message => some message
  | _ => none

section Replay

/-- An insertion into an ordered map keeps the place of a known key. -/
def insertKey {β : Type} (entries : List (String × β)) (key : String) (value : β) :
    List (String × β) :=
  if entries.any (fun entry => entry.1 = key)
  then entries.map (fun entry => if entry.1 = key then (key, value) else entry)
  else entries++[(key, value)]

def removeKey {β : Type} (entries : List (String × β)) (key : String) : List (String × β) :=
  entries.filter (fun entry => entry.1 ≠ key)

def applyTools (tools : List (String × Tool)) (system : SystemMessage) : List (String × Tool) :=
  system.toolsAdded.foldl (fun tools added => insertKey tools added.name added)
    (system.toolsRemoved.foldl removeKey tools)

def currentTools (messages : List Message) : List Tool :=
  ((messages.filterMap Message.asSystem).foldl applyTools []).map Prod.snd

def applySection (sections : List (String × Option String)) :
    String × Option String → List (String × Option String)
  | (name, some text) => insertKey sections name (some text)
  | (name, none) => removeKey sections name

def currentSystemMessage (messages : List Message) : Option SystemMessage :=
  let systems := messages.filterMap Message.asSystem
  let tools := currentTools messages
  if systems = [] ∧ tools = [] then none
  else some {
    content := "\n\n".intercalate ((systems.map SystemMessage.content).filter (· ≠ ""))
    sections := (systems.flatMap SystemMessage.sections).foldl applySection []
    toolsAdded := tools
    toolsRemoved := []
    timestamp := ((systems.head?).map SystemMessage.timestamp).getD 0 }

def systemMessageText (message : SystemMessage) : String :=
  "\n\n".intercalate ((if message.content = "" then [] else [message.content])++
    (message.sections.filterMap Prod.snd).filter (· ≠ ""))

def renderSection : String × Option String → String
  | (name, some text) => "Updated system prompt section \""++name++"\":\n\n"++text
  | (name, none) => "Removed system prompt section \""++name++"\"."

def renderSystemMessageUpdate (message : SystemMessage) : String :=
  "\n\n".intercalate ((if message.content = "" then [] else [message.content])++
    message.sections.map renderSection)

/-- The replayed system message leads and every other one is dropped. -/
def collapseSystemMessages (messages : List Message) : List Message :=
  ((currentSystemMessage messages).map Message.system).toList++
    messages.filter (fun message => message.asSystem.isNone)

end Replay

end Maple.Provider

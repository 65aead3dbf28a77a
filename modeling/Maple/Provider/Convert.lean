import Maple.Compaction.Items
import Maple.Provider.Repair

/-!
# The entries sent to a provider

A repaired transcript becomes a list of entries. Images of tool results cannot stand in
the results' own entries, so they follow them in a user entry. Every tool call of the
entries is answered directly behind the entry that makes it.
-/

set_option autoImplicit false

namespace Maple.Provider

open Exchange Session.Entries Compaction.Items List

inductive InputModality where
  | text
  | image
  deriving DecidableEq, Repr

structure Model where
  id : String
  api : String
  provider : String
  reasoning : Bool
  input : List InputModality
  supportsDeveloperRole : Bool
  supportsMidConversationSystemMessages : Bool

def Model.supportsImages (model : Model) : Bool := model.input.contains .image

inductive Part where
  | text (text : String)
  | imageUrl (url : String)
  deriving DecidableEq, Repr

structure CallEntry where
  id : String
  name : String
  arguments : String
  deriving DecidableEq, Repr

inductive Entry where
  | system (role content : String)
  | user (content : List Part)
  | assistant (content : Option String) (reasoning : Option (String × String))
      (toolCalls : List CallEntry)
  | tool (toolCallId content : String)
  deriving DecidableEq, Repr

def reasoningFields : List String := ["reasoning_content", "reasoning", "reasoning_text"]

def userImagePlaceholder : String := "(image omitted: model does not support images)"

def toolImagePlaceholder : String := "(tool image omitted: model does not support images)"

/-- Each run of images becomes one placeholder. -/
def placeholders (placeholder : String) (afterPlaceholder : Bool) : List Content → List Content
  | [] => []
  | .image _ _::rest =>
    (if afterPlaceholder then [] else [.text placeholder])++placeholders placeholder true rest
  | .text words::rest => .text words::placeholders placeholder (words = placeholder) rest

def downgradeImages (model : Model) (content : List Content) (placeholder : String) :
    List Content :=
  if model.supportsImages then content else placeholders placeholder false content

def imagePart : Content → Option Part
  | .image data mimeType => some (.imageUrl ("data:"++mimeType++";base64,"++data))
  | .text _ => none

def userPart : Content → Option Part
  | .text words => if words = "" then none else some (.text words)
  | .image data mimeType => imagePart (.image data mimeType)

def userContent (model : Model) (content : List Content) : List Part :=
  (downgradeImages model content userImagePlaceholder).filterMap userPart

def imagesMessage (images : List Part) : Entry :=
  .user (.text "Attached image(s) from tool result:"::images)

section Convert
variable (jsonText : Json → String) (model : Model)

def callEntry (call : ToolCall) : CallEntry :=
  ⟨call.id, call.name, jsonText (.obj call.arguments)⟩

def visibleText : AssistantContent → Option String
  | .text words => if isBlank words then none else some words
  | _ => none

def ownReasoning (sameModel : Bool) : AssistantContent → Option (String × Option String)
  | .thinking thinking signature redacted =>
    if sameModel && !redacted && !isBlank thinking then some (thinking, signature) else none
  | _ => none

def convertAssistant (reply : AssistantMessage) : List Entry :=
  let sameModel : Bool := reply.provider = model.provider && reply.api = model.api &&
    reply.model = model.id
  let text := String.join (reply.content.filterMap visibleText)
  let reasoning := reply.content.filterMap (ownReasoning sameModel)
  let reasoningField := (reasoning.filterMap Prod.snd).head?
  let calls := reply.toolCalls.map (callEntry jsonText)
  if text = "" ∧ calls = [] then []
  else [.assistant (if text = "" then none else some text)
    ((reasoningField.filter (· ∈ reasoningFields)).map
      (fun field => (field, "\n".intercalate (reasoning.map Prod.fst)))) calls]

def convertSystem (position : ℕ) (system : SystemMessage) : List Entry :=
  let role := if model.reasoning && model.supportsDeveloperRole then "developer" else "system"
  let text := if position = 0 then systemMessageText system else renderSystemMessageUpdate system
  if text = "" then [] else [.system role text]

def convertUser (user : UserMessage) : List Entry :=
  let content := userContent model user.content
  if content = [] then [] else [.user content]

def resultContent (result : ToolResultMessage) : List Content :=
  downgradeImages model result.content toolImagePlaceholder

def hasImages (content : List Content) : Bool := content.any (fun block => (imagePart block).isSome)

def convertResult (result : ToolResultMessage) : Entry :=
  let content := resultContent model result
  let text := contentText content
  .tool result.toolCallId
    (if !isBlank text then text
      else if hasImages content then "(see attached image)" else "(no tool output)")

def resultImages (images : List Part) (result : ToolResultMessage) : List Part :=
  let content := resultContent model result
  if hasImages content then images++content.filterMap imagePart else images

def flushImages (images : List Part) : List Entry :=
  if images = [] then [] else [imagesMessage images]

def convertLoop (position : ℕ) (images : List Part) : List Message → List Entry
  | [] => flushImages images
  | .system system::rest =>
    flushImages images++(convertSystem model position system++convertLoop (position+1) [] rest)
  | .user user::rest =>
    flushImages images++(convertUser model user++convertLoop (position+1) [] rest)
  | .assistant reply::rest =>
    flushImages images++(convertAssistant jsonText model reply++convertLoop (position+1) [] rest)
  | .toolResult result::rest =>
    convertResult model result::convertLoop (position+1) (resultImages model images result) rest

def convertMessages (messages : List Message) : List Entry :=
  let messages := if model.supportsMidConversationSystemMessages then messages
    else collapseSystemMessages messages
  convertLoop jsonText model 0 [] (repairTranscript messages)

end Convert

def Entry.calls : Entry → List String
  | .assistant _ _ toolCalls => toolCalls.map CallEntry.id
  | _ => []

def Entry.answer : Entry → Option String
  | .tool toolCallId _ => some toolCallId
  | _ => none

/-- A call or an answer. -/
def exchanges (calls : List String) (answer : Option String) : Bool :=
  !calls.isEmpty || answer.isSome

def Entry.exchanges (entry : Entry) : Bool := Provider.exchanges entry.calls entry.answer

def Message.exchanges (message : Message) : Bool := Provider.exchanges message.calls message.answer

def served (model : Model) (messages : List Message) : List Message :=
  repairTranscript (if model.supportsMidConversationSystemMessages then messages
    else collapseSystemMessages messages)

def exchangeEntries (jsonText : Json → String) (model : Model) : Message → List Entry
  | .assistant reply => convertAssistant jsonText model reply
  | .toolResult result => [convertResult model result]
  | _ => []

section Served
variable {jsonText : Json → String} {model : Model}

theorem flush_settled (images : List Part) :
    Settled Entry.calls Entry.answer (flushImages images) := by
  unfold flushImages
  split_ifs
  · exact .nil
  · exact .exchange (imagesMessage images) [] [] rfl (by rfl) .nil

theorem convert_results (results rest : List Message) (position : ℕ) (images : List Part)
    (h : ∀ message ∈ results, message.answer ≠ none) :
    ∃ tools position' images', tools.map Entry.answer = results.map Message.answer ∧
      convertLoop jsonText model position images (results++rest) =
        tools++convertLoop jsonText model position' images' rest := by
  induction results generalizing position images with
  | nil => exact ⟨[],position,images,rfl,rfl⟩
  | cons message results ih =>
    cases message with
    | system system => exact absurd rfl (h (.system system) (by simp))
    | user user => exact absurd rfl (h (.user user) (by simp))
    | assistant reply => exact absurd rfl (h (.assistant reply) (by simp))
    | toolResult result =>
      obtain ⟨tools,position',images',htools,hloop⟩ :=
        ih (position+1) (resultImages model images result) (fun other hmem => h other (by simp [hmem]))
      refine ⟨convertResult model result::tools,position',images',?_,?_⟩
      · rw [map_cons, map_cons, htools]
        rfl
      · rw [cons_append, convertLoop, hloop, cons_append]

theorem system_entries (position : ℕ) (system : SystemMessage) :
    ∀ entry ∈ convertSystem model position system, ∃ role text, entry = .system role text := by
  intro entry hmem
  simp only [convertSystem] at hmem
  generalize (if position = 0 then systemMessageText system
    else renderSystemMessageUpdate system) = text at hmem
  by_cases htext : text = ""
  · simp [htext] at hmem
  · rw [if_neg htext] at hmem
    exact ⟨_,text,mem_singleton.mp hmem⟩

theorem user_entries (user : UserMessage) :
    ∀ entry ∈ convertUser model user, ∃ content, entry = .user content := by
  intro entry hmem
  simp only [convertUser] at hmem
  by_cases hcontent : userContent model user.content = []
  · simp [hcontent] at hmem
  · rw [if_neg hcontent] at hmem
    exact ⟨_,mem_singleton.mp hmem⟩

theorem assistant_entries (reply : AssistantMessage) :
    convertAssistant jsonText model reply = [] ∧ reply.toolCalls = [] ∨
      ∃ content reasoning, convertAssistant jsonText model reply =
        [.assistant content reasoning (reply.toolCalls.map (callEntry jsonText))] := by
  simp only [convertAssistant]
  by_cases hempty : String.join (reply.content.filterMap visibleText) = "" ∧
      reply.toolCalls.map (callEntry jsonText) = []
  · rw [if_pos hempty]
    exact .inl ⟨rfl,by simpa using hempty.2⟩
  · rw [if_neg hempty]
    exact .inr ⟨_,_,rfl⟩

theorem assistant_settled (reply : AssistantMessage) (tools : List Entry) {rest : List Entry}
    (htools : (tools.map Entry.answer).Perm ((reply.toolCalls.map ToolCall.id).map some))
    (hrest : Settled Entry.calls Entry.answer rest) :
    Settled Entry.calls Entry.answer (convertAssistant jsonText model reply++(tools++rest)) := by
  rcases @assistant_entries jsonText model reply with ⟨hnone,hcalls⟩ | ⟨content,reasoning,hentry⟩
  · have htool : tools = [] := by simpa [hcalls] using htools
    rw [hnone, htool]
    exact hrest
  rw [hentry]
  refine .exchange _ tools rest rfl ?_ hrest
  have hids : (reply.toolCalls.map (callEntry jsonText)).map CallEntry.id =
      reply.toolCalls.map ToolCall.id := by
    rw [map_map]
    rfl
  rw [Entry.calls, hids]
  exact htools

theorem single_settled (entries rest : List Entry)
    (h : ∀ entry ∈ entries, entry.answer = none ∧ entry.calls = [])
    (hrest : Settled Entry.calls Entry.answer rest) :
    Settled Entry.calls Entry.answer (entries++rest) := by
  induction entries with
  | nil => exact hrest
  | cons entry entries ih =>
    obtain ⟨hanswer,hcalls⟩ := h entry (by simp)
    refine .exchange entry [] (entries++rest) hanswer ?_
      (ih (fun other hmem => h other (by simp [hmem])))
    rw [hcalls]
    rfl

theorem convert_settled (messages : List Message) (position : ℕ) (images : List Part)
    (h : Settled Message.calls Message.answer messages) :
    Settled Entry.calls Entry.answer (convertLoop jsonText model position images messages) := by
  induction h generalizing position images with
  | nil => exact flush_settled images
  | exchange message results rest hmessage hperm hrest ih =>
    obtain ⟨tools,position',images',htools,hloop⟩ := @convert_results jsonText model results rest
      (position+1) [] (fun other hmem => answer_of_perm hperm hmem)
    have hserved := ih position' images'
    have halone (h : message.calls = []) : tools = [] := by
      have hnone : results = [] := by simpa [h] using hperm
      simpa [hnone] using htools
    cases message with
    | system system =>
      rw [convertLoop, hloop, halone rfl, nil_append]
      refine settled_append (flush_settled images) (single_settled _ _ (fun entry hmem => ?_) hserved)
      obtain ⟨role,text,rfl⟩ := system_entries position system entry hmem
      exact ⟨rfl,rfl⟩
    | user user =>
      rw [convertLoop, hloop, halone rfl, nil_append]
      refine settled_append (flush_settled images) (single_settled _ _ (fun entry hmem => ?_) hserved)
      obtain ⟨content,rfl⟩ := user_entries user entry hmem
      exact ⟨rfl,rfl⟩
    | assistant reply =>
      rw [convertLoop, hloop]
      refine settled_append (flush_settled images) (assistant_settled reply tools ?_ hserved)
      rw [htools]
      exact hperm
    | toolResult result => cases hmessage

/-- The calls and answers of the output are those of the transcript. -/
theorem convert_exchanges (messages : List Message) (position : ℕ) (images : List Part) :
    (convertLoop jsonText model position images messages).filter Entry.exchanges =
      (messages.filter Message.exchanges).flatMap (exchangeEntries jsonText model) := by
  have hflush (images : List Part) : (flushImages images).filter Entry.exchanges = [] := by
    unfold flushImages
    split_ifs <;> rfl
  induction messages generalizing position images with
  | nil => exact hflush images
  | cons message messages ih =>
    cases message with
    | system system =>
      have hnone : (convertSystem model position system).filter Entry.exchanges = [] := by
        refine filter_eq_nil_iff.mpr (fun entry hmem => ?_)
        obtain ⟨role,text,rfl⟩ := system_entries position system entry hmem
        exact Bool.false_ne_true
      rw [convertLoop, filter_append, filter_append, hflush, hnone, ih,
        filter_cons_of_neg Bool.false_ne_true]
      rfl
    | user user =>
      have hnone : (convertUser model user).filter Entry.exchanges = [] := by
        refine filter_eq_nil_iff.mpr (fun entry hmem => ?_)
        obtain ⟨content,rfl⟩ := user_entries user entry hmem
        exact Bool.false_ne_true
      rw [convertLoop, filter_append, filter_append, hflush, hnone, ih,
        filter_cons_of_neg Bool.false_ne_true]
      rfl
    | assistant reply =>
      have hown : (convertAssistant jsonText model reply).filter Entry.exchanges =
          if (Message.assistant reply).exchanges then convertAssistant jsonText model reply
          else [] := by
        rcases @assistant_entries jsonText model reply with ⟨hnone,-⟩ | ⟨content,reasoning,hentry⟩
        · simp [hnone]
        · cases hcalls : reply.toolCalls <;> simp [hentry, hcalls, Entry.exchanges,
            Message.exchanges, exchanges, Entry.calls, Message.calls, Entry.answer, Message.answer]
      rw [convertLoop, filter_append, filter_append, hflush, hown, ih, filter_cons]
      split_ifs <;> rfl
    | toolResult result =>
      rw [convertLoop, filter_cons_of_pos (by rfl), filter_cons_of_pos (by rfl), flatMap_cons, ih]
      rfl

theorem messages_settled (messages : List Message) :
    Settled Entry.calls Entry.answer (convertMessages jsonText model messages) := by
  unfold convertMessages
  exact convert_settled _ 0 [] (repair_settled _)

end Served

/-- Repaired transcripts are ones a provider accepts. -/
theorem transcript_replayable (jsonText : Json → String) (model : Model)
    (messages : List Message) :
    (∀ front message back, repairTranscript messages = front++message::back →
      message.answer = none → ∃ results rest, back = results++rest ∧
        (results.map Message.answer).Perm (message.calls.map some) ∧
        ∀ next ∈ rest.head?, next.answer = none) ∧
    (∀ front message back, repairTranscript messages = front++message::back →
      message.answer ≠ none → ∃ before caller results, front = before++caller::results ∧
        caller.answer = none ∧ (∃ id ∈ caller.calls, message.answer = some id) ∧
        ∀ result ∈ results, result.answer ≠ none) ∧
    (∀ before reply front result back,
      messages = before++.assistant reply::(front++.toolResult result::back) →
      reply.isFailure = false → (∀ message ∈ front, message.opens = false) →
      (front.filterMap Message.answer).count result.toolCallId <
        (reply.toolCalls.map ToolCall.id).count result.toolCallId →
      ∃ later, repairTranscript messages = repairTranscript before++
        .assistant reply::(kept reply.callKeys front++.toolResult result::later)) ∧
    (repairTranscript messages).filter Message.stays = messages.filter Message.stays ∧
    ((∀ message ∈ messages, message.opens = false) →
      repairTranscript messages = systems messages) ∧
    (∀ before message rest after, messages = before++message::(rest++after) →
      message.opens = true → (∀ other ∈ rest, other.opens = false) → Fresh after →
      repairTranscript messages = repairTranscript before++
        (message::(answers message.callKeys rest++systems rest)++repairTranscript after)) ∧
    repairTranscript (repairTranscript messages) = repairTranscript messages ∧
    (∀ front entry back, convertMessages jsonText model messages = front++entry::back →
      entry.answer = none → ∃ tools rest, back = tools++rest ∧
        (tools.map Entry.answer).Perm (entry.calls.map some) ∧
        ∀ next ∈ rest.head?, next.answer = none) ∧
    (convertMessages jsonText model messages).filter Entry.exchanges =
      ((served model messages).filter Message.exchanges).flatMap
        (exchangeEntries jsonText model) := by
  refine ⟨fun front message back => settled_answered (repair_settled messages) front back message,
    fun front message back => settled_placed (repair_settled messages) front back message, ?_,
    repair_stays messages, repair_prelude messages, ?_, repair_idempotent messages,
    fun front entry back => settled_answered (messages_settled messages) front back entry,
    convert_exchanges _ 0 []⟩
  · rintro before reply front result back rfl hreply hfront hcount
    exact repair_keeps before back hreply hfront hcount
  · rintro before message rest after rfl hopens hrest hafter
    exact repair_part before hopens hrest hafter

def sampleReply : Message :=
  .assistant ⟨[.toolCall ⟨"a", "read", []⟩, .toolCall ⟨"b", "bash", []⟩], "", "", "", none, none,
    .empty, .toolUse, none, 1⟩

def sampleSystem : Message := .system ⟨"more", [], [], [], 2⟩

def sampleResult : Message := .toolResult ⟨"b", "bash", [.text "done"], none, none, false, 3⟩

example : repairTranscript [sampleReply, sampleSystem, sampleResult, sampleResult] =
    [sampleReply, sampleResult, noResult ("a", "read"), sampleSystem] := rfl

end Maple.Provider

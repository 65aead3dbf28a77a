import Mathlib.Data.List.Induction
import Maple.Lib.Exchange
import Maple.Provider.Messages

/-!
# Making a transcript replayable

Failed replies are dropped, every tool call is answered exactly once and results whose
call is gone are dropped. A second pass moves the system messages of an exchange behind
its results. A user message or a successful reply ends the exchange before it, so the
repair of a transcript is the repair of its parts between such messages.
-/

set_option autoImplicit false

namespace Maple.Provider

open Exchange List

abbrev Pending := List (String × String)

def noResult (call : String × String) : Message :=
  .toolResult ⟨call.1, call.2, [.text "No result provided"], none, none, true, 0⟩

structure RepairState where
  pending : Pending
  repaired : List Message

def RepairState.flush (s : RepairState) : RepairState :=
  ⟨[], s.repaired++s.pending.map noResult⟩

def AssistantMessage.callKeys (message : AssistantMessage) : Pending :=
  message.toolCalls.map (fun call => (call.id, call.name))

def repairStep (s : RepairState) (message : Message) : RepairState :=
  match message with
  | .assistant assistant =>
    if assistant.isFailure then s
    else ⟨s.flush.pending++assistant.callKeys, s.flush.repaired++[message]⟩
  | .toolResult result =>
    match s.pending.findIdx? (fun call => call.1 = result.toolCallId) with
    | some position => ⟨s.pending.eraseIdx position, s.repaired++[message]⟩
    | none => s
  | .user _ => ⟨s.flush.pending, s.flush.repaired++[message]⟩
  | .system _ => ⟨s.pending, s.repaired++[message]⟩

def repairCalls (messages : List Message) : List Message :=
  (messages.foldl repairStep ⟨[], []⟩).flush.repaired

structure OrderState where
  ordered : List Message
  held : List Message

def inExchange (ordered : List Message) : Bool :=
  match ordered.getLast? with
  | some (.assistant assistant) => assistant.toolCalls ≠ []
  | some (.toolResult _) => true
  | _ => false

def orderStep (s : OrderState) (message : Message) : OrderState :=
  match message with
  | .system _ =>
    if inExchange s.ordered && !s.ordered.isEmpty then ⟨s.ordered, s.held++[message]⟩
    else ⟨s.ordered++s.held++[message], []⟩
  | .toolResult _ => ⟨s.ordered++[message], s.held⟩
  | _ => ⟨s.ordered++s.held++[message], []⟩

def orderSystems (repaired : List Message) : List Message :=
  let s := repaired.foldl orderStep ⟨[], []⟩
  s.ordered++s.held

def repairTranscript (messages : List Message) : List Message :=
  orderSystems (repairCalls messages)

section Kinds

def Message.calls : Message → List String
  | .assistant reply => reply.toolCalls.map ToolCall.id
  | _ => []

def Message.answer : Message → Option String
  | .toolResult result => some result.toolCallId
  | _ => none

def Message.callKeys : Message → Pending
  | .assistant reply => reply.callKeys
  | _ => []

def Message.opens : Message → Bool
  | .assistant reply => !reply.isFailure
  | .user _ => true
  | _ => false

def systems (messages : List Message) : List Message :=
  messages.filter (fun message => message.asSystem.isSome)

def kept (pending : Pending) : List Message → List Message
  | [] => []
  | .toolResult result::rest =>
    match pending.findIdx? (fun call => call.1 = result.toolCallId) with
    | some position => .toolResult result::kept (pending.eraseIdx position) rest
    | none => kept pending rest
  | _::rest => kept pending rest

def unanswered (pending : Pending) : List Message → Pending
  | [] => pending
  | .toolResult result::rest =>
    match pending.findIdx? (fun call => call.1 = result.toolCallId) with
    | some position => unanswered (pending.eraseIdx position) rest
    | none => unanswered pending rest
  | _::rest => unanswered pending rest

def answers (pending : Pending) (messages : List Message) : List Message :=
  kept pending messages++(unanswered pending messages).map noResult

def Fresh (messages : List Message) : Prop :=
  ∀ message ∈ messages.head?, message.opens = true

end Kinds

section Passes

def emit (pending : Pending) : List Message → List Message
  | [] => pending.map noResult
  | .assistant assistant::rest =>
    if assistant.isFailure then emit pending rest
    else pending.map noResult++.assistant assistant::emit assistant.callKeys rest
  | .toolResult result::rest =>
    match pending.findIdx? (fun call => call.1 = result.toolCallId) with
    | some position => .toolResult result::emit (pending.eraseIdx position) rest
    | none => emit pending rest
  | .user user::rest => pending.map noResult++.user user::emit [] rest
  | .system system::rest => .system system::emit pending rest

def place (exchange : Bool) (held : List Message) : List Message → List Message
  | [] => held
  | .system system::rest =>
    if exchange then place true (held++[.system system]) rest
    else held++.system system::place false [] rest
  | .toolResult result::rest => .toolResult result::place true held rest
  | .assistant assistant::rest =>
    held++.assistant assistant::place (assistant.toolCalls ≠ []) [] rest
  | .user user::rest => held++.user user::place false [] rest

variable (messages : List Message)

theorem fold_emit (s : RepairState) :
    (messages.foldl repairStep s).flush.repaired = s.repaired++emit s.pending messages := by
  induction messages generalizing s with
  | nil => rfl
  | cons message messages ih =>
    rw [foldl_cons, ih]
    cases message with
    | system system => simp [repairStep, emit]
    | user user => simp [repairStep, emit, RepairState.flush]
    | assistant assistant =>
      by_cases hfailure : assistant.isFailure = true
      · simp [repairStep, emit, hfailure]
      · simp [repairStep, emit, hfailure, RepairState.flush]
    | toolResult result =>
      simp only [repairStep, emit]
      cases s.pending.findIdx? (fun call => call.1 = result.toolCallId) with
      | none => rfl
      | some position => simp

theorem in_exchange_last (ordered : List Message) (message : Message) :
    inExchange (ordered++[message]) = inExchange [message] := by
  simp [inExchange]

theorem in_exchange_some {ordered : List Message} (h : inExchange ordered = true) :
    ordered.isEmpty = false := by
  cases ordered with
  | nil => cases h
  | cons first rest => rfl

theorem fold_place (s : OrderState) :
    (messages.foldl orderStep s).ordered++(messages.foldl orderStep s).held =
      s.ordered++place (inExchange s.ordered) s.held messages := by
  induction messages generalizing s with
  | nil => rfl
  | cons message messages ih =>
    rw [foldl_cons, ih]
    cases message with
    | system system =>
      by_cases hexchange : inExchange s.ordered = true
      · simp [orderStep, place, hexchange, in_exchange_some hexchange]
      · simp only [Bool.not_eq_true] at hexchange
        have hlast : inExchange (s.ordered++s.held++[.system system]) = false :=
          in_exchange_last _ _
        simp only [orderStep, hexchange, Bool.false_and, Bool.false_eq_true, if_false, hlast, place]
        simp
    | user | assistant | toolResult => simp [orderStep, place, inExchange]

theorem repair_passes : repairTranscript messages = place false [] (emit [] messages) := by
  have hcalls : repairCalls messages = emit [] messages := fold_emit messages ⟨[],[]⟩
  rw [repairTranscript, hcalls]
  exact fold_place (emit [] messages) ⟨[],[]⟩

end Passes

section Parts

theorem emit_append (pending : Pending) (before : List Message) {after : List Message}
    (h : Fresh after) : emit pending (before++after) = emit pending before++emit [] after := by
  induction before generalizing pending with
  | nil =>
    cases after with
    | nil => simp [emit]
    | cons message after =>
      have hopens := h message rfl
      cases message with
      | system | toolResult => cases hopens
      | user user => simp [emit]
      | assistant assistant =>
        have hfailure : assistant.isFailure = false := by simpa [Message.opens] using hopens
        simp [emit, hfailure]
  | cons message before ih =>
    cases message with
    | system | user => simp [emit, ih]
    | assistant assistant =>
      by_cases hfailure : assistant.isFailure = true
      · simp [emit, hfailure, ih]
      · simp [emit, hfailure, ih]
    | toolResult result =>
      simp only [cons_append, emit]
      cases pending.findIdx? (fun call => call.1 = result.toolCallId) with
      | none => exact ih pending
      | some position => simp [ih]

theorem place_append (exchange : Bool) (held before : List Message) {after : List Message}
    (h : Fresh after) :
    place exchange held (before++after) = place exchange held before++place false [] after := by
  induction before generalizing exchange held with
  | nil =>
    cases after with
    | nil => simp [place]
    | cons message after =>
      have hopens := h message rfl
      cases message with
      | system | toolResult => cases hopens
      | user | assistant => simp [place]
  | cons message before ih =>
    cases message with
    | system system =>
      cases exchange with
      | true | false => simp [place, ih]
    | user | assistant | toolResult => simp [place, ih]

variable {messages : List Message}

theorem emit_fresh (h : Fresh messages) : Fresh (emit [] messages) := by
  cases messages with
  | nil => simp [Fresh, emit]
  | cons message messages =>
    have hopens := h message rfl
    cases message with
    | system | toolResult => cases hopens
    | user user => simp [Fresh, emit, Message.opens]
    | assistant assistant =>
      have hfailure : assistant.isFailure = false := by simpa [Message.opens] using hopens
      simp [Fresh, emit, Message.opens, hfailure]

theorem repair_append (before : List Message) {after : List Message} (h : Fresh after) :
    repairTranscript (before++after) = repairTranscript before++repairTranscript after := by
  rw [repair_passes, repair_passes, repair_passes, emit_append [] before h,
    place_append false [] _ (emit_fresh h)]

theorem place_no_results (exchange : Bool) (held : List Message) (pending : Pending) :
    place exchange held (pending.map noResult) = pending.map noResult++held := by
  induction pending generalizing exchange with
  | nil => rfl
  | cons call pending ih => simp [noResult, place, ih]

theorem place_emit_exchange (held : List Message) (pending : Pending)
    (h : ∀ message ∈ messages, message.opens = false) : place true held (emit pending messages) =
      answers pending messages++(held++systems messages) := by
  induction messages generalizing pending held with
  | nil => simp [emit, place_no_results, answers, kept, unanswered, systems]
  | cons message messages ih =>
    have hrest : ∀ message ∈ messages, message.opens = false :=
      fun message hmem => h message (by simp [hmem])
    have hopens := h message (by simp)
    cases message with
    | system system =>
      simp [emit, place, ih _ _ hrest, answers, kept, unanswered, systems, Message.asSystem]
    | user user => cases hopens
    | assistant assistant =>
      have hfailure : assistant.isFailure = true := by simpa [Message.opens] using hopens
      simp [emit, hfailure, ih _ _ hrest, answers, kept, unanswered, systems, Message.asSystem]
    | toolResult result =>
      simp only [emit, answers, kept, unanswered]
      cases pending.findIdx? (fun call => call.1 = result.toolCallId) with
      | none => simp [ih _ _ hrest, answers, systems, Message.asSystem]
      | some position => simp [place, ih _ _ hrest, answers, systems, Message.asSystem]

theorem place_emit_idle (h : ∀ message ∈ messages, message.opens = false) :
    place false [] (emit [] messages) = systems messages := by
  induction messages with
  | nil => rfl
  | cons message messages ih =>
    have hrest := ih (fun message hmem => h message (by simp [hmem]))
    have hopens := h message (by simp)
    cases message with
    | system system => simp [emit, place, hrest, systems, Message.asSystem]
    | user user => cases hopens
    | assistant assistant =>
      have hfailure : assistant.isFailure = true := by simpa [Message.opens] using hopens
      simp [emit, hfailure, hrest, systems, Message.asSystem]
    | toolResult result => simp [emit, hrest, systems, Message.asSystem]

theorem answers_none (messages : List Message) : answers [] messages = [] := by
  induction messages with
  | nil => rfl
  | cons message messages ih =>
    rw [answers] at ih ⊢
    cases message with
    | system | user | assistant | toolResult => simpa [kept, unanswered] using ih

theorem repair_prelude (messages : List Message) (h : ∀ message ∈ messages, message.opens = false) :
    repairTranscript messages = systems messages := by
  rw [repair_passes, place_emit_idle h]

/-- What becomes of a message that opens an exchange and of what follows it. -/
theorem repair_exchange {message : Message} {rest : List Message} (hopens : message.opens = true)
    (h : ∀ message ∈ rest, message.opens = false) : repairTranscript (message::rest) =
      message::(answers message.callKeys rest++systems rest) := by
  rw [repair_passes]
  cases message with
  | system | toolResult => cases hopens
  | user user =>
    simp [emit, place, place_emit_idle h, Message.callKeys, answers_none]
  | assistant assistant =>
    have hfailure : assistant.isFailure = false := by simpa [Message.opens] using hopens
    simp only [emit, hfailure, Bool.false_eq_true, if_false, map_nil, nil_append, place,
      Message.callKeys, List.cons.injEq, true_and]
    by_cases hcalls : assistant.toolCalls = []
    · simp [AssistantMessage.callKeys, hcalls, place_emit_idle h, answers_none]
    · simp [hcalls, place_emit_exchange [] assistant.callKeys h]

theorem fresh_cons {message : Message} (rest : List Message) (h : message.opens = true) :
    Fresh (message::rest) := by
  intro first hfirst
  cases hfirst
  exact h

theorem repair_part (before : List Message) {rest after : List Message} {message : Message}
    (hopens : message.opens = true) (h : ∀ message ∈ rest, message.opens = false)
    (hafter : Fresh after) : repairTranscript (before++message::(rest++after)) =
      repairTranscript before++
        (message::(answers message.callKeys rest++systems rest)++repairTranscript after) := by
  rw [repair_append before (fresh_cons _ hopens), ← cons_append, repair_append _ hafter,
    repair_exchange hopens h]

theorem fresh_split (messages : List Message) :
    ∃ rest after, messages = rest++after ∧ (∀ message ∈ rest, message.opens = false) ∧
      Fresh after := by
  induction messages with
  | nil => exact ⟨[],[],rfl,by simp,by simp [Fresh]⟩
  | cons message messages ih =>
    by_cases hopens : message.opens = true
    · exact ⟨[],message::messages,rfl,by simp,fresh_cons messages hopens⟩
    obtain ⟨rest,after,rfl,hrest,hafter⟩ := ih
    refine ⟨message::rest,after,rfl,?_,hafter⟩
    intro other hother
    rcases mem_cons.mp hother with rfl | hother
    · simpa using hopens
    · exact hrest other hother

/-- A transcript is built from a part without openings by appending exchanges. -/
theorem parts_induction {P : List Message → Prop}
    (idle : ∀ messages, (∀ message ∈ messages, message.opens = false) → P messages)
    (exchange : ∀ before message rest, message.opens = true →
      (∀ message ∈ rest, message.opens = false) → P before → P (before++message::rest))
    (messages : List Message) : P messages := by
  have hform : (∀ message ∈ messages, message.opens = false) ∨
      ∃ before message rest, messages = before++message::rest ∧ message.opens = true ∧
        (∀ message ∈ rest, message.opens = false) ∧ P before := by
    induction messages using List.reverseRecOn with
    | nil => exact .inl (by simp)
    | append_singleton messages last ih =>
      have hmessages : P messages := by
        rcases ih with hidle | ⟨before,message,rest,rfl,hopens,hrest,hbefore⟩
        · exact idle messages hidle
        · exact exchange before message rest hopens hrest hbefore
      by_cases hlast : last.opens = true
      · exact .inr ⟨messages,last,[],rfl,hlast,by simp,hmessages⟩
      simp only [Bool.not_eq_true] at hlast
      rcases ih with hidle | ⟨before,message,rest,rfl,hopens,hrest,hbefore⟩
      · refine .inl (fun message hmem => ?_)
        rcases mem_append.mp hmem with hmem | hmem
        · exact hidle message hmem
        · rw [mem_singleton.mp hmem]
          exact hlast
      · refine .inr ⟨before,message,rest++[last],by simp,hopens,fun other hmem => ?_,hbefore⟩
        rcases mem_append.mp hmem with hmem | hmem
        · exact hrest other hmem
        · rw [mem_singleton.mp hmem]
          exact hlast
  rcases hform with hidle | ⟨before,message,rest,rfl,hopens,hrest,hbefore⟩
  · exact idle messages hidle
  · exact exchange before message rest hopens hrest hbefore

end Parts

section Answers

theorem call_keys_ids (message : Message) : message.callKeys.map Prod.fst = message.calls := by
  cases message with
  | assistant reply => simp [Message.callKeys, Message.calls, AssistantMessage.callKeys]
  | system | user | toolResult => rfl

theorem taken_call {pending : Pending} {id : String} {position : ℕ}
    (h : pending.findIdx? (fun call => call.1 = id) = some position) :
    (pending.map Prod.fst).Perm (id::(pending.eraseIdx position).map Prod.fst) := by
  obtain ⟨hlt,hid,-⟩ := List.findIdx?_eq_some_iff_getElem.mp h
  have hperm := (getElem_cons_eraseIdx_perm hlt).map Prod.fst
  rw [map_cons, of_decide_eq_true hid] at hperm
  exact hperm.symm

theorem missing_call {pending : Pending} {id : String}
    (h : pending.findIdx? (fun call => call.1 = id) = none) : id ∉ pending.map Prod.fst := by
  intro hmem
  obtain ⟨call,hcall,rfl⟩ := mem_map.mp hmem
  simpa using List.findIdx?_eq_none_iff.mp h call hcall

variable (pending : Pending)

theorem answers_perm (messages : List Message) :
    ((answers pending messages).map Message.answer).Perm (pending.map (some ∘ Prod.fst)) := by
  induction messages generalizing pending with
  | nil =>
    have hnone : (answers pending []).map Message.answer = pending.map (some ∘ Prod.fst) := by
      simp [answers, kept, unanswered, noResult, Message.answer, Function.comp_def]
    rw [hnone]
  | cons message messages ih =>
    cases message with
    | system | user | assistant => exact ih pending
    | toolResult result =>
      cases hfind : pending.findIdx? (fun call => call.1 = result.toolCallId) with
      | none =>
        simp only [answers, kept, unanswered, hfind]
        exact ih pending
      | some position =>
        have htaken := (taken_call hfind).map some
        rw [map_map, map_cons, map_map] at htaken
        have hrest := (ih (pending.eraseIdx position)).cons (some result.toolCallId)
        simp only [answers, kept, unanswered, hfind]
        exact hrest.trans htaken.symm

theorem kept_append (front back : List Message) :
    kept pending (front++back) = kept pending front++kept (unanswered pending front) back := by
  induction front generalizing pending with
  | nil => rfl
  | cons message front ih =>
    cases message with
    | system | user | assistant => exact ih pending
    | toolResult result =>
      simp only [cons_append, kept, unanswered]
      cases pending.findIdx? (fun call => call.1 = result.toolCallId) with
      | none => exact ih pending
      | some position => simp [ih]

theorem unanswered_count (messages : List Message) (id : String) :
    ((unanswered pending messages).map Prod.fst).count id =
      (pending.map Prod.fst).count id-(messages.filterMap Message.answer).count id := by
  induction messages generalizing pending with
  | nil => simp [unanswered]
  | cons message messages ih =>
    cases message with
    | system | user | assistant => exact ih pending
    | toolResult result =>
      simp only [unanswered, filterMap_cons, Message.answer, count_cons]
      cases hfind : pending.findIdx? (fun call => call.1 = result.toolCallId) with
      | none =>
        have hmissing := missing_call hfind
        rw [ih]
        by_cases hid : result.toolCallId = id
        · rw [hid] at hmissing
          rw [count_eq_zero.mpr hmissing]
          omega
        · simp [hid]
      | some position =>
        have htaken := (taken_call hfind).count_eq id
        rw [count_cons] at htaken
        rw [ih]
        omega

theorem kept_answering (front back : List Message) (result : ToolResultMessage)
    (h : (front.filterMap Message.answer).count result.toolCallId < (pending.map Prod.fst).count
      result.toolCallId) :
    ∃ later, kept pending (front++.toolResult result::back) =
      kept pending front++.toolResult result::later := by
  have hcount := unanswered_count pending front result.toolCallId
  cases hfind : (unanswered pending front).findIdx? (fun call => call.1 = result.toolCallId) with
  | none =>
    have hmissing := count_eq_zero.mpr (missing_call hfind)
    omega
  | some position =>
    refine ⟨kept ((unanswered pending front).eraseIdx position) back,?_⟩
    rw [kept_append, kept, hfind]

/-- Results that already answer every call are all kept, and no other is added. -/
theorem answers_settled {results : List Message} (tail : List Message)
    (h : (results.map Message.answer).Perm (pending.map (some ∘ Prod.fst))) :
    answers pending (results++tail) = results := by
  induction results generalizing pending with
  | nil =>
    have hnil : pending = [] := by simpa using h.symm
    rw [hnil, nil_append, answers_none]
  | cons message results ih =>
    have hmem : message.answer ∈ pending.map (some ∘ Prod.fst) :=
      h.mem_iff.mp (by simp)
    obtain ⟨call,hcall,hid⟩ := mem_map.mp hmem
    cases message with
    | system | user | assistant => cases hid
    | toolResult result =>
      cases hfind : pending.findIdx? (fun call => call.1 = result.toolCallId) with
      | none =>
        refine absurd ?_ (missing_call hfind)
        exact mem_map.mpr ⟨call,hcall,Option.some.inj hid⟩
      | some position =>
        have htaken := (taken_call hfind).map some
        rw [map_map, map_cons, map_map] at htaken
        have hrest := ih (pending.eraseIdx position) ((h.trans htaken).cons_inv)
        simp only [answers] at hrest
        simp only [answers, cons_append, kept, unanswered, hfind, hrest]

theorem kept_results (messages : List Message) :
    ∀ message ∈ kept pending messages, message.answer ≠ none := by
  induction messages generalizing pending with
  | nil => simp [kept]
  | cons message messages ih =>
    cases message with
    | system | user | assistant => exact ih pending
    | toolResult result =>
      simp only [kept]
      cases pending.findIdx? (fun call => call.1 = result.toolCallId) with
      | none => exact ih pending
      | some position => simpa [Message.answer] using ih (pending.eraseIdx position)

theorem answers_results (messages : List Message) :
    ∀ message ∈ answers pending messages, message.answer ≠ none := by
  intro message hmem
  rcases mem_append.mp hmem with hmem | hmem
  · exact kept_results pending messages message hmem
  · obtain ⟨call,-,rfl⟩ := mem_map.mp hmem
    simp [noResult, Message.answer]

theorem systems_idle (messages : List Message) :
    ∀ message ∈ systems messages, message.opens = false ∧ message.answer = none := by
  intro message hmem
  have hsystem := (mem_filter.mp hmem).2
  cases message with
  | system system => exact ⟨rfl,rfl⟩
  | user | assistant | toolResult => cases hsystem

theorem result_idle (message : Message) (h : message.answer ≠ none) :
    message.opens = false ∧ message.asSystem = none := by
  cases message with
  | system | user | assistant => exact absurd rfl h
  | toolResult result => exact ⟨rfl,rfl⟩

theorem opens_not_answer {message : Message} (h : message.opens = true) :
    message.answer = none := by
  cases message with
  | system | user | assistant => rfl
  | toolResult result => cases h

end Answers

section Results

variable (messages : List Message)

theorem systems_settled : Settled Message.calls Message.answer (systems messages) := by
  induction messages with
  | nil => exact .nil
  | cons message messages ih =>
    cases message with
    | system system => exact .exchange (.system system) [] (systems messages) rfl (by rfl) ih
    | user | assistant | toolResult => exact ih

theorem repair_settled : Settled Message.calls Message.answer (repairTranscript messages) := by
  induction messages using parts_induction with
  | idle messages h =>
    rw [repair_prelude messages h]
    exact systems_settled messages
  | exchange before message rest hopens hrest ih =>
    rw [repair_append before (fresh_cons rest hopens), repair_exchange hopens hrest]
    refine settled_append ih (.exchange message _ _ (opens_not_answer hopens) ?_
      (systems_settled rest))
    rw [← call_keys_ids, map_map]
    exact answers_perm message.callKeys rest

def Message.stays (message : Message) : Bool := message.opens || message.asSystem.isSome

theorem stays_idle (h : ∀ message ∈ messages, message.opens = false) :
    messages.filter Message.stays = systems messages := by
  refine filter_congr (fun message hmem => ?_)
  rw [Message.stays, h message hmem, Bool.false_or]

theorem answers_stay (pending : Pending) (messages : List Message) :
    (answers pending messages).filter Message.stays = [] := by
  refine filter_eq_nil_iff.mpr (fun message hmem => ?_)
  obtain ⟨hopens,hsystem⟩ := result_idle message (answers_results pending messages message hmem)
  simp [Message.stays, hopens, hsystem]

theorem systems_systems : systems (systems messages) = systems messages := by
  rw [systems, systems, filter_filter]
  simp

theorem repair_stays :
    (repairTranscript messages).filter Message.stays = messages.filter Message.stays := by
  induction messages using parts_induction with
  | idle messages h =>
    rw [repair_prelude messages h, stays_idle messages h,
      stays_idle _ (fun message hmem => (systems_idle messages message hmem).1), systems_systems]
  | exchange before message rest hopens hrest ih =>
    have hstays : message.stays = true := by rw [Message.stays, hopens, Bool.true_or]
    rw [repair_append before (fresh_cons rest hopens),
      repair_exchange hopens hrest, filter_append, filter_append, ih,
      filter_cons_of_pos hstays, filter_cons_of_pos hstays, filter_append,
      answers_stay, nil_append, stays_idle rest hrest,
      stays_idle _ (fun message hmem => (systems_idle rest message hmem).1), systems_systems]

theorem repair_idempotent :
    repairTranscript (repairTranscript messages) = repairTranscript messages := by
  induction messages using parts_induction with
  | idle messages h =>
    rw [repair_prelude messages h,
      repair_prelude _ (fun message hmem => (systems_idle messages message hmem).1),
      systems_systems]
  | exchange before message rest hopens hrest ih =>
    have hquiet : ∀ other ∈ answers message.callKeys rest++systems rest, other.opens = false := by
      intro other hmem
      rcases mem_append.mp hmem with hmem | hmem
      · exact (result_idle other (answers_results _ _ other hmem)).1
      · exact (systems_idle rest other hmem).1
    have hsystems : systems (answers message.callKeys rest++systems rest) = systems rest := by
      have hanswers : systems (answers message.callKeys rest) = [] := by
        refine filter_eq_nil_iff.mpr (fun other hmem => ?_)
        simp [(result_idle other (answers_results _ _ other hmem)).2]
      have happend : systems (answers message.callKeys rest++systems rest) =
          systems (answers message.callKeys rest)++systems (systems rest) := filter_append ..
      rw [happend, hanswers, systems_systems, nil_append]
    rw [repair_append before (fresh_cons rest hopens), repair_exchange hopens hrest,
      repair_append _ (fresh_cons _ hopens), ih,
      repair_exchange hopens hquiet, hsystems,
      answers_settled _ _ (answers_perm message.callKeys rest)]

theorem repair_keeps (before : List Message) {front : List Message} (back : List Message)
    {reply : AssistantMessage} {result : ToolResultMessage} (hreply : reply.isFailure = false)
    (hfront : ∀ message ∈ front, message.opens = false)
    (hcount : (front.filterMap Message.answer).count result.toolCallId <
      (reply.toolCalls.map ToolCall.id).count result.toolCallId) :
    ∃ later, repairTranscript (before++.assistant reply::(front++.toolResult result::back)) =
      repairTranscript before++
        .assistant reply::(kept reply.callKeys front++.toolResult result::later) := by
  have hopens : (Message.assistant reply).opens = true := by simp [Message.opens, hreply]
  obtain ⟨rest,after,rfl,hrest,hafter⟩ := fresh_split back
  have hquiet : ∀ message ∈ front++.toolResult result::rest, message.opens = false := by
    intro message hmem
    rcases mem_append.mp hmem with hmem | hmem
    · exact hfront message hmem
    · rcases mem_cons.mp hmem with rfl | hmem
      · rfl
      · exact hrest message hmem
  have hkeys : (reply.callKeys.map Prod.fst).count result.toolCallId =
      (reply.toolCalls.map ToolCall.id).count result.toolCallId := by
    rw [AssistantMessage.callKeys, map_map]
    rfl
  obtain ⟨later,hlater⟩ := kept_answering reply.callKeys front rest result (by omega)
  have hpart := repair_part before hopens hquiet hafter
  rw [append_assoc, cons_append] at hpart
  rw [hpart, Message.callKeys, answers, hlater]
  simp only [append_assoc, cons_append]
  exact ⟨_,rfl⟩

end Results

end Maple.Provider

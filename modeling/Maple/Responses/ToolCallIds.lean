import Maple.Lib.Keyed
import Maple.Lib.Sweep
import Maple.Session.Entries
import Mathlib.Data.List.Induction

/-!
# Tool call ids for Kimi models

One pass over the prompt numbers the well-formed calls and sends each tool message after
its call. The table is keyed by the ids read before they are overwritten, so a new id that
equals an old one of another call cannot be followed by mistake.
-/

set_option autoImplicit false

namespace Maple.Responses.ToolCallIds

open Keyed Sweep Session.Entries List

/-- Assigning through a mutable reference to a member: a missing one is not added. -/
def overwriteField (key : String) (value : Json) : List (String × Json) → List (String × Json)
  | [] => []
  | field::rest =>
    if field.1 = key then (field.1, value)::rest else field::overwriteField key value rest

def overwrite (key : String) (value : Json) : Json → Json
  | .obj fields => .obj (overwriteField key value fields)
  | other => other

def text (message : Json) (key : String) : Option String := (message.get key).bind Json.asStr

def kimiToolCallId (functionName : String) (index : ℕ) : String :=
  "functions."++functionName++":"++toString index

structure Renaming where
  nextToolCallIndex : ℕ
  originalToKimiId : Map String String

def callOf (toolCall : Json) : Option (String × String) :=
  ((toolCall.get "function").bind (text · "name")).bind
    (fun functionName => (text toolCall "id").map (fun originalId => (functionName, originalId)))

def normalizeCall (s : Renaming) (toolCall : Json) : Renaming × Json :=
  match callOf toolCall with
  | some (functionName, originalId) =>
    let kimiId := kimiToolCallId functionName s.nextToolCallIndex
    (⟨s.nextToolCallIndex+1, s.originalToKimiId.set originalId kimiId⟩,
      overwrite "id" (.str kimiId) toolCall)
  | none => (s, toolCall)

def normalizeMessage (s : Renaming) (message : Json) : Renaming × Json :=
  if text message "role" = some "assistant" then
    match (message.get "tool_calls").bind Json.asArr with
    | some toolCalls =>
      let swept := sweep normalizeCall s toolCalls
      (swept.1, overwrite "tool_calls" (.arr swept.2) message)
    | none => (s, message)
  else if text message "role" = some "tool" then
    match (text message "tool_call_id").bind s.originalToKimiId.get with
    | some kimiId => (s, overwrite "tool_call_id" (.str kimiId) message)
    | none => (s, message)
  else (s, message)

def normalizeToolCallIdsForKimi (messages : List Json) : List Json :=
  (sweep normalizeMessage ⟨0, .empty⟩ messages).2

section Fields

theorem overwrite_get (key : String) (value : Json) (message : Json)
    (h : (message.get key).isSome) : (overwrite key value message).get key = some value := by
  cases message with
  | obj fields =>
    simp only [overwrite, Json.get, Option.isSome_map] at h ⊢
    induction fields with
    | nil => cases h
    | cons field rest ih =>
      by_cases hkey : field.1 = key
      · simp [overwriteField, hkey]
      · simp only [List.find?_cons, hkey, decide_false] at h
        simpa [overwriteField, hkey] using ih h
  | _ => cases h

theorem overwrite_other (key other : String) (value : Json) (message : Json)
    (hne : key ≠ other) : (overwrite key value message).get other = message.get other := by
  cases message with
  | obj fields =>
    simp only [overwrite, Json.get]
    congr 1
    induction fields with
    | nil => rfl
    | cons field rest ih =>
      by_cases hkey : field.1 = key
      · have hskip : ¬field.1 = other := fun h => hne (hkey.symm.trans h)
        simp [overwriteField, hkey, hne]
      · simp only [overwriteField, if_neg hkey, List.find?_cons, ih]
  | _ => rfl

theorem overwrite_twice (key : String) (value value' : Json) (message : Json) :
    overwrite key value' (overwrite key value message) = overwrite key value' message := by
  cases message with
  | obj fields =>
    simp only [overwrite]
    congr 1
    induction fields with
    | nil => rfl
    | cons field rest ih =>
      by_cases hkey : field.1 = key
      · simp [overwriteField, hkey]
      · simp [overwriteField, hkey, ih]
  | _ => rfl

theorem overwrite_same {key : String} {value : Json} {message : Json}
    (h : message.get key = some value) : overwrite key value message = message := by
  cases message with
  | obj fields =>
    simp only [overwrite, Json.get] at h ⊢
    congr 1
    induction fields with
    | nil => rfl
    | cons field rest ih =>
      by_cases hkey : field.1 = key
      · simp only [List.find?_cons, hkey, decide_true, Option.map_some, Option.some.injEq] at h
        simp only [overwriteField, hkey, if_true, ← h]
        rw [← hkey]
      · simp only [List.find?_cons, hkey, decide_false] at h
        simp only [overwriteField, hkey, if_false, ih h]
  | _ => rfl

theorem text_isSome {message : Json} {key value : String} (h : text message key = some value) :
    message.get key = some (.str value) := by
  unfold text at h
  obtain ⟨found,hfound,hstr⟩ := Option.bind_eq_some_iff.mp h
  cases found with
  | str inner =>
    cases hstr
    exact hfound
  | _ => cases hstr

end Fields

/-- The table after the given calls: the last of equal ids counts. -/
def renamingOf (seen : List (String × String)) : Renaming :=
  ⟨seen.length, seen.zipIdx.foldl
    (fun table entry => table.set entry.1.2 (kimiToolCallId entry.1.1 entry.2)) .empty⟩

def numbered (seen : List (String × String)) : List (String × String) :=
  seen.zipIdx.map (fun entry => (entry.1.1, kimiToolCallId entry.1.1 entry.2))

def callKeys (toolCall : Json) : List (String × String) := (callOf toolCall).toList

def callsOf (message : Json) : List (String × String) :=
  if text message "role" = some "assistant" then
    (((message.get "tool_calls").bind Json.asArr).getD []).flatMap callKeys
  else []

def calls (messages : List Json) : List (String × String) := messages.flatMap callsOf

def renamedCall (seen : List (String × String)) (toolCall : Json) : Json :=
  (normalizeCall (renamingOf seen) toolCall).2

def renamedMessage (seen : List (String × String)) (message : Json) : Json :=
  (normalizeMessage (renamingOf seen) message).2

section Tables

theorem renaming_snoc (seen : List (String × String)) (call : String × String) :
    renamingOf (seen++[call]) = ⟨seen.length+1,(renamingOf seen).originalToKimiId.set call.2
      (kimiToolCallId call.1 seen.length)⟩ := by
  simp [renamingOf, zipIdx_append]

theorem numbered_snoc (seen : List (String × String)) (call : String × String) :
    numbered (seen++[call]) = numbered seen++[(call.1, kimiToolCallId call.1 seen.length)] := by
  simp [numbered, zipIdx_append]

theorem numbered_get (seen : List (String × String)) (index : ℕ) :
    (numbered seen)[index]? =
      seen[index]?.map (fun call => (call.1, kimiToolCallId call.1 index)) := by
  cases hcall : seen[index]? <;> simp [numbered, List.getElem?_zipIdx, hcall]

@[simp] theorem numbered_length (seen : List (String × String)) :
    (numbered seen).length = seen.length := by
  simp [numbered]

variable {seen : List (String × String)} {id : String}

theorem target_call {kimiId : String} (h : (renamingOf seen).originalToKimiId.get id = some
    kimiId) :
    ∃ index call, seen[index]? = some call ∧ call.2 = id ∧
      kimiId = kimiToolCallId call.1 index := by
  induction seen using List.reverseRecOn with
  | nil => cases h
  | append_singleton seen call ih =>
    rw [renaming_snoc, get_set] at h
    split_ifs at h with hid
    · cases h
      exact ⟨seen.length,call,by simp,hid.symm,rfl⟩
    · obtain ⟨index,earlier,hget,hearlier,hkimi⟩ := ih h
      have hlt : index < seen.length := (List.getElem?_eq_some_iff.mp hget).1
      exact ⟨index,earlier,by rw [List.getElem?_append_left hlt, hget],hearlier,hkimi⟩

theorem target_exists (h : id ∈ seen.map Prod.snd) :
    ∃ kimiId, (renamingOf seen).originalToKimiId.get id = some kimiId := by
  induction seen using List.reverseRecOn with
  | nil => cases h
  | append_singleton seen call ih =>
    rw [renaming_snoc]
    simp only [get_set]
    by_cases hid : id = call.2
    · exact ⟨_,if_pos hid⟩
    · rw [if_neg hid]
      apply ih
      simpa [hid] using h

/-- A number that is found again in the numbered calls is sent to itself. -/
theorem target_numbered {kimiId : String}
    (h : (renamingOf (numbered seen)).originalToKimiId.get id = some kimiId) : kimiId = id := by
  obtain ⟨index,call,hget,hid,hkimi⟩ := target_call h
  rw [numbered_get] at hget
  obtain ⟨earlier,_,rfl⟩ := Option.map_eq_some_iff.mp hget
  exact hkimi.trans hid

theorem colon_digits (n : ℕ) : ':' ∉ (toString n).toList := by
  intro hmem
  rw [show toString n = n.repr from rfl, Nat.toList_repr] at hmem
  have hdigit := Nat.isDigit_of_mem_toDigits (by decide) (by decide) hmem
  simp at hdigit

/-- Equal ids have equal numbers: no digit is a colon. -/
theorem kimi_index {name name' : String} {index index' : ℕ}
    (h : kimiToolCallId name index = kimiToolCallId name' index') : index = index' := by
  have hlast : ∀ (functionName : String) (n : ℕ),
      (kimiToolCallId functionName n).toList.reverse.takeWhile (· ≠ ':') =
        (toString n).toList.reverse := by
    intro functionName n
    simp only [kimiToolCallId, String.toList_append, reverse_append]
    rw [takeWhile_append_of_pos]
    · simp
    · intro c hc
      have hne : c ≠ ':' := fun hcolon => colon_digits n (hcolon ▸ mem_reverse.mp hc)
      simpa using hne
  have hdigits : (toString index).toList.reverse = (toString index').toList.reverse := by
    rw [← hlast name index, ← hlast name' index', h]
  have hsame : Nat.toDigits 10 index = Nat.toDigits 10 index' := by
    rw [← Nat.toList_repr, ← Nat.toList_repr]
    exact reverse_injective hdigits
  calc index = Nat.ofDigitChars 10 (Nat.toDigits 10 index) 0 :=
        (Nat.ofDigitChars_toDigits (by decide) (by decide)).symm
    _ = index' := by rw [hsame, Nat.ofDigitChars_toDigits (by decide) (by decide)]

theorem numbered_nodup (seen : List (String × String)) : ((numbered seen).map Prod.snd).Nodup := by
  rw [List.nodup_iff_getElem?_ne_getElem?]
  intro i j hij hj hsame
  simp only [List.getElem?_map, numbered_get] at hsame
  have hj' : j < seen.length := by simpa using hj
  rw [List.getElem?_eq_getElem hj', List.getElem?_eq_getElem (Nat.lt_trans hij hj')] at hsame
  simp only [Option.map_some, Option.some.injEq] at hsame
  exact absurd (kimi_index hsame) (Nat.ne_of_lt hij)

end Tables

section Calls

variable (seen : List (String × String)) (toolCall : Json)

theorem renaming_call : normalizeCall (renamingOf seen) toolCall =
      (renamingOf (seen++callKeys toolCall), renamedCall seen toolCall) := by
  refine Prod.ext ?_ rfl
  cases hcall : callOf toolCall with
  | none => simp [normalizeCall, callKeys, hcall]
  | some call =>
    simp only [normalizeCall, callKeys, hcall, Option.toList_some, renaming_snoc]
    rfl

theorem call_fields {toolCall : Json} {functionName originalId : String}
    (h : callOf toolCall = some (functionName, originalId)) :
    (toolCall.get "function").bind (text · "name") = some functionName ∧
      toolCall.get "id" = some (.str originalId) := by
  unfold callOf at h
  obtain ⟨name,hname,hrest⟩ := Option.bind_eq_some_iff.mp h
  obtain ⟨id,hid,hpair⟩ := Option.map_eq_some_iff.mp hrest
  cases hpair
  exact ⟨hname,text_isSome hid⟩

theorem call_overwritten {toolCall : Json} {functionName originalId : String} (id : String)
    (h : callOf toolCall = some (functionName, originalId)) :
    callOf (overwrite "id" (.str id) toolCall) = some (functionName, id) := by
  obtain ⟨hname,hid⟩ := call_fields h
  have hnew : text (overwrite "id" (.str id) toolCall) "id" = some id := by
    rw [text, overwrite_get _ _ _ (by rw [hid]; rfl)]
    rfl
  rw [callOf, overwrite_other _ _ _ _ (by decide), hname, hnew]
  rfl

theorem renamed_call_numbered :
    numbered (seen++callKeys toolCall) = numbered seen++callKeys (renamedCall seen toolCall) := by
  cases hcall : callOf toolCall with
  | none => simp [callKeys, renamedCall, normalizeCall, hcall]
  | some call =>
    obtain ⟨functionName,originalId⟩ := call
    simp only [renamedCall, normalizeCall, callKeys, hcall, Option.toList_some, numbered_snoc,
      call_overwritten _ hcall]
    rfl

theorem renamed_call_again :
    renamedCall (numbered seen) (renamedCall seen toolCall) = renamedCall seen toolCall := by
  cases hcall : callOf toolCall with
  | none => simp [renamedCall, normalizeCall, hcall]
  | some call =>
    obtain ⟨functionName,originalId⟩ := call
    have hnext : (renamingOf (numbered seen)).nextToolCallIndex =
        (renamingOf seen).nextToolCallIndex := numbered_length seen
    simp only [renamedCall, normalizeCall, hcall, hnext, overwrite_twice, call_overwritten _ hcall]

end Calls

section Messages

variable (seen : List (String × String))

theorem sweep_calls (toolCalls : List Json) : sweep normalizeCall (renamingOf seen) toolCalls =
      (renamingOf (seen++toolCalls.flatMap callKeys),
        written callKeys renamedCall seen toolCalls) :=
  sweep_written callKeys normalizeCall renamingOf renamedCall renaming_call seen toolCalls

inductive Kind (message : Json) : Prop
  | assistant (toolCalls : List Json) (hrole : text message "role" = some "assistant")
      (hcalls : message.get "tool_calls" = some (.arr toolCalls))
  | tool (id : String) (hrole : text message "role" = some "tool")
      (hid : message.get "tool_call_id" = some (.str id))
  | other (hcalls : callsOf message = []) (hsame : ∀ s, normalizeMessage s message = (s, message))
      (htool : text message "role" = some "tool" → text message "tool_call_id" = none)

theorem kind (message : Json) : Kind message := by
  by_cases hassistant : text message "role" = some "assistant"
  · have hnot : text message "role" ≠ some "tool" := by rw [hassistant]; decide
    cases hcalls : (message.get "tool_calls").bind Json.asArr with
    | none =>
      apply Kind.other
      · simp [callsOf, hcalls]
      · simp [normalizeMessage, hassistant, hcalls]
      · exact fun htool => absurd htool hnot
    | some toolCalls =>
      obtain ⟨found,hfound,harr⟩ := Option.bind_eq_some_iff.mp hcalls
      cases found with
      | arr items =>
        cases harr
        exact Kind.assistant _ hassistant hfound
      | _ => cases harr
  · by_cases htool : text message "role" = some "tool"
    · cases hid : text message "tool_call_id" with
      | none =>
        apply Kind.other
        · simp [callsOf, htool]
        · simp [normalizeMessage, htool, hid]
        · exact fun _ => hid
      | some id => exact Kind.tool id htool (text_isSome hid)
    · apply Kind.other
      · simp [callsOf, hassistant]
      · simp [normalizeMessage, hassistant, htool]
      · exact fun h => absurd h htool

theorem text_str {message : Json} {key value : String} (h : message.get key = some (.str value)) :
    text message key = some value := by
  rw [text, h]
  rfl

theorem calls_assistant (message : Json) (toolCalls : List Json)
    (hrole : text message "role" = some "assistant")
    (hcalls : message.get "tool_calls" = some (.arr toolCalls)) :
    callsOf message = toolCalls.flatMap callKeys := by
  rw [callsOf, if_pos hrole, hcalls]
  rfl

theorem calls_tool (message : Json) (hrole : text message "role" = some "tool") :
    callsOf message = [] := by
  rw [callsOf, if_neg (by rw [hrole]; decide)]

theorem renamed_assistant {message : Json} {toolCalls : List Json}
    (hrole : text message "role" = some "assistant")
    (hcalls : message.get "tool_calls" = some (.arr toolCalls)) :
    normalizeMessage (renamingOf seen) message = (renamingOf (seen++callsOf message),
      overwrite "tool_calls" (.arr (written callKeys renamedCall seen toolCalls)) message) := by
  simp only [normalizeMessage, if_pos hrole, hcalls, Option.bind_some, Json.asArr, sweep_calls,
    calls_assistant message toolCalls hrole hcalls]

/-- A tool message follows the table; without an entry its id stays. -/
theorem renamed_tool {message : Json} {id : String} (hrole : text message "role" = some "tool")
    (hid : message.get "tool_call_id" = some (.str id)) :
    normalizeMessage (renamingOf seen) message = (renamingOf seen, overwrite "tool_call_id"
      (.str (((renamingOf seen).originalToKimiId.get id).getD id)) message) := by
  have hnot : ¬text message "role" = some "assistant" := by rw [hrole]; decide
  simp only [normalizeMessage, if_neg hnot, if_pos hrole, text_str hid, Option.bind_some]
  cases htarget : (renamingOf seen).originalToKimiId.get id with
  | none =>
    rw [Option.getD_none, overwrite_same hid]
  | some kimiId => rfl

theorem renaming_message (message : Json) : normalizeMessage (renamingOf seen) message =
      (renamingOf (seen++callsOf message), renamedMessage seen message) := by
  refine Prod.ext ?_ rfl
  rcases kind message with ⟨toolCalls,hrole,hcalls⟩ | ⟨id,hrole,hid⟩ | ⟨hcalls,hsame,_⟩
  · rw [renamed_assistant seen hrole hcalls]
  · rw [renamed_tool seen hrole hid, calls_tool message hrole, append_nil]
  · rw [hsame, hcalls, append_nil]

theorem role_overwritten (message value : Json) (key : String) (hne : key ≠ "role") :
    text (overwrite key value message) "role" = text message "role" := by
  rw [text, overwrite_other _ _ _ _ hne, ← text]

theorem renamed_message_numbered (message : Json) : numbered (seen++callsOf message) =
      numbered seen++callsOf (renamedMessage seen message) := by
  rcases kind message with ⟨toolCalls,hrole,hcalls⟩ | ⟨id,hrole,hid⟩ | ⟨hcalls,hsame,_⟩
  · have hnew : callsOf (renamedMessage seen message) =
        (written callKeys renamedCall seen toolCalls).flatMap callKeys := by
      rw [renamedMessage, renamed_assistant seen hrole hcalls]
      apply calls_assistant
      · rw [role_overwritten _ _ _ (by decide), hrole]
      · exact overwrite_get _ _ _ (by rw [hcalls]; rfl)
    rw [hnew, calls_assistant message toolCalls hrole hcalls]
    exact written_keys callKeys renamedCall numbered renamed_call_numbered seen toolCalls
  · have hnew : callsOf (renamedMessage seen message) = [] := by
      rw [renamedMessage, renamed_tool seen hrole hid]
      apply calls_tool
      rw [role_overwritten _ _ _ (by decide), hrole]
    rw [hnew, calls_tool message hrole, append_nil, append_nil]
  · rw [renamedMessage, hsame, hcalls, append_nil, append_nil]

theorem renamed_message_again (message : Json) :
    renamedMessage (numbered seen) (renamedMessage seen message) = renamedMessage seen message := by
  rcases kind message with ⟨toolCalls,hrole,hcalls⟩ | ⟨id,hrole,hid⟩ | ⟨_,hsame,_⟩
  · simp only [renamedMessage, renamed_assistant seen hrole hcalls]
    rw [renamed_assistant (numbered seen) (by rw [role_overwritten _ _ _ (by decide), hrole])
      (overwrite_get _ _ _ (by rw [hcalls]; rfl))]
    rw [written_again callKeys renamedCall numbered renamed_call_numbered renamed_call_again]
    exact overwrite_twice _ _ _ _
  · simp only [renamedMessage, renamed_tool seen hrole hid]
    generalize ((renamingOf seen).originalToKimiId.get id).getD id = sent
    rw [renamed_tool (numbered seen) (by rw [role_overwritten _ _ _ (by decide), hrole])
      (overwrite_get _ _ _ (by rw [hid]; rfl))]
    have hfixed : ((renamingOf (numbered seen)).originalToKimiId.get sent).getD sent = sent := by
      cases htarget : (renamingOf (numbered seen)).originalToKimiId.get sent with
      | none => rfl
      | some kimiId => exact target_numbered htarget
    rw [hfixed]
    exact overwrite_twice _ _ _ _
  · simp only [renamedMessage, hsame]

end Messages

/-- A message without the ids of its well-formed calls and of the call it refers to. -/
def blankCall (toolCall : Json) : Json :=
  if (callOf toolCall).isSome then overwrite "id" .null toolCall else toolCall

def blankMessage (message : Json) : Json :=
  if text message "role" = some "assistant" then
    match (message.get "tool_calls").bind Json.asArr with
    | some toolCalls => overwrite "tool_calls" (.arr (toolCalls.map blankCall)) message
    | none => message
  else if text message "role" = some "tool" then
    match text message "tool_call_id" with
    | some _ => overwrite "tool_call_id" .null message
    | none => message
  else message

theorem renamed_call_blank (seen : List (String × String)) (toolCall : Json) :
    blankCall (renamedCall seen toolCall) = blankCall toolCall := by
  cases hcall : callOf toolCall with
  | none => simp [renamedCall, normalizeCall, hcall]
  | some call =>
    obtain ⟨functionName,originalId⟩ := call
    simp only [renamedCall, normalizeCall, hcall, blankCall, Option.isSome_some, if_true,
      call_overwritten _ hcall, overwrite_twice]

theorem renamed_message_blank (seen : List (String × String)) (message : Json) :
    blankMessage (renamedMessage seen message) = blankMessage message := by
  rcases kind message with ⟨toolCalls,hrole,hcalls⟩ | ⟨id,hrole,hid⟩ | ⟨_,hsame,_⟩
  · have hrole' : ∀ value, text (overwrite "tool_calls" value message) "role" =
        some "assistant" := fun value => by rw [role_overwritten _ _ _ (by decide), hrole]
    have hnew : ∀ value, (overwrite "tool_calls" value message).get "tool_calls" = some value :=
      fun value => overwrite_get _ _ _ (by rw [hcalls]; rfl)
    simp only [renamedMessage, renamed_assistant seen hrole hcalls,
      blankMessage, if_pos (hrole' _), if_pos hrole, hnew, hcalls, Option.bind_some, Json.asArr,
      overwrite_twice,
      written_map callKeys renamedCall blankCall blankCall renamed_call_blank]
  · have hrole' : ∀ value, text (overwrite "tool_call_id" value message) "role" =
        some "tool" := fun value => by rw [role_overwritten _ _ _ (by decide), hrole]
    have hnew : ∀ sent, text (overwrite "tool_call_id" (.str sent) message) "tool_call_id" =
        some sent := fun sent => text_str (overwrite_get _ _ _ (by rw [hid]; rfl))
    have hnot : ¬some "tool" = some "assistant" := by decide
    simp only [renamedMessage, renamed_tool seen hrole hid, blankMessage, hrole',
      hrole, if_neg hnot, if_true, hnew, text_str hid, overwrite_twice]
  · rw [renamedMessage, hsame]

def toolRef (message : Json) : Option String :=
  if text message "role" = some "tool" then text message "tool_call_id" else none

/-- The tool message at a place refers to the call of that number. -/
def Refers (messages : List Json) (place index : ℕ) : Prop :=
  ∃ message id call, messages[place]? = some message ∧ toolRef message = some id ∧
    (calls messages)[index]? = some call ∧ call.2 = id

structure Renamed (before after : List Json) : Prop where
  numbers : calls after = numbered (calls before)
  distinct : ((calls after).map Prod.snd).Nodup
  linked : ∀ place index, Refers before place index ↔ Refers after place index
  framed : after.map blankMessage = before.map blankMessage

theorem normalize_written (messages : List Json) :
    normalizeToolCallIdsForKimi messages = written callsOf renamedMessage [] messages :=
  congrArg Prod.snd (sweep_written callsOf normalizeMessage renamingOf renamedMessage
    renaming_message [] messages)

theorem calls_normalized (messages : List Json) :
    calls (normalizeToolCallIdsForKimi messages) = numbered (calls messages) := by
  rw [normalize_written]
  exact (written_keys callsOf renamedMessage numbered renamed_message_numbered [] messages).symm

theorem normalize_twice (messages : List Json) :
    normalizeToolCallIdsForKimi (normalizeToolCallIdsForKimi messages) =
      normalizeToolCallIdsForKimi messages := by
  rw [normalize_written, normalize_written]
  exact written_again callsOf renamedMessage numbered renamed_message_numbered
    renamed_message_again [] messages

theorem normalize_longer (messages more : List Json) :
    ∃ rest, normalizeToolCallIdsForKimi (normalizeToolCallIdsForKimi messages++more) =
      normalizeToolCallIdsForKimi messages++rest := by
  rw [normalize_written (_++more), written_append, ← normalize_written, normalize_twice]
  exact ⟨_,rfl⟩

theorem ref_renamed (seen : List (String × String)) (message : Json) :
    toolRef (renamedMessage seen message) = (toolRef message).map
      (fun id => ((renamingOf seen).originalToKimiId.get id).getD id) := by
  rcases kind message with ⟨toolCalls,hrole,hcalls⟩ | ⟨id,hrole,hid⟩ | ⟨_,hsame,htool⟩
  · have hnot : ¬some "assistant" = some "tool" := by decide
    rw [renamedMessage, renamed_assistant seen hrole hcalls, toolRef, toolRef,
      role_overwritten _ _ _ (by decide), hrole, if_neg hnot, if_neg hnot]
    rfl
  · rw [renamedMessage, renamed_tool seen hrole hid, toolRef, toolRef,
      role_overwritten _ _ _ (by decide), if_pos hrole, if_pos hrole, text_str hid]
    exact text_str (overwrite_get _ _ _ (by rw [hid]; rfl))
  have hnone : toolRef message = none := by
    unfold toolRef
    split_ifs with hrole
    · exact htool hrole
    · rfl
  rw [renamedMessage, hsame, hnone]
  rfl

theorem nodup_index {seen : List (String × String)} (hdistinct : (seen.map Prod.snd).Nodup)
    (i j : ℕ) (a b : String × String) (ha : seen[i]? = some a) (hb : seen[j]? = some b)
    (hsame : a.2 = b.2) : i = j := by
  have hlt : i < (seen.map Prod.snd).length := by
    rw [length_map]
    exact (List.getElem?_eq_some_iff.mp ha).1
  apply (List.getElem?_inj hlt hdistinct).mp
  rw [List.getElem?_map, List.getElem?_map, ha, hb, Option.map_some, Option.map_some, hsame]

/-- With distinct ids a tool message after its call gets the call's number. -/
theorem ref_target {seen : List (String × String)} {id : String} {index : ℕ}
    {call : String × String} (hdistinct : (seen.map Prod.snd).Nodup)
    (hcall : seen[index]? = some call) (hid : call.2 = id) :
    (renamingOf seen).originalToKimiId.get id = some (kimiToolCallId call.1 index) := by
  have hmem : id ∈ seen.map Prod.snd := by
    rw [← hid]
    exact mem_map_of_mem (List.mem_of_getElem? hcall)
  obtain ⟨kimiId,htarget⟩ := target_exists hmem
  obtain ⟨index',call',hcall',hid',hkimi⟩ := target_call htarget
  obtain rfl : index = index' :=
    nodup_index hdistinct index index' call call' hcall hcall' (hid.trans hid'.symm)
  have heq : call' = call := Option.some.inj (hcall'.symm.trans hcall)
  rw [htarget, hkimi, heq]

theorem calls_take (messages : List Json) (place : ℕ) :
    calls (messages.take place) <+: calls messages := by
  refine ⟨calls (messages.drop place),?_⟩
  rw [calls, calls, calls, ← flatMap_append, take_append_drop]

section Linked
variable (messages : List Json)

/-- Every tool message refers to a well-formed call of an earlier message. -/
def RefersBack : Prop := ∀ place message, messages[place]? = some message →
  text message "role" = some "tool" →
    ∃ id, toolRef message = some id ∧ id ∈ (calls (messages.take place)).map Prod.snd

/-- The one call a tool message refers to, before and after. -/
theorem linked_call (hdistinct : ((calls messages).map Prod.snd).Nodup)
    (hback : RefersBack messages) {place : ℕ} {message : Json} {id : String}
    (hmessage : messages[place]? = some message) (hid : toolRef message = some id) :
    ∃ index call, (calls messages)[index]? = some call ∧ call.2 = id ∧
      ((normalizeToolCallIdsForKimi messages)[place]?).bind toolRef =
        some (kimiToolCallId call.1 index) := by
  have hrole : text message "role" = some "tool" := by
    by_contra hnot
    rw [toolRef, if_neg hnot] at hid
    cases hid
  obtain ⟨id',hid',hmem⟩ := hback place message hmessage hrole
  obtain rfl : id' = id := Option.some.inj (hid'.symm.trans hid)
  obtain ⟨call,hin,hcallId⟩ := mem_map.mp hmem
  obtain ⟨index,hindex⟩ := List.getElem?_of_mem hin
  have hearlier := calls_take messages place
  have hcall : (calls messages)[index]? = some call := by
    obtain ⟨later,hlater⟩ := hearlier
    rw [← hlater, List.getElem?_append_left (List.getElem?_eq_some_iff.mp hindex).1, hindex]
  refine ⟨index,call,hcall,hcallId,?_⟩
  have hunique : ((calls (messages.take place)).map Prod.snd).Nodup :=
    hdistinct.sublist (hearlier.sublist.map Prod.snd)
  rw [normalize_written, written_get, hmessage, nil_append, Option.map_some,
    Option.bind_some, ref_renamed, hid, Option.map_some]
  rw [← calls, ref_target hunique hindex hcallId]
  rfl

theorem refers_normalized (hdistinct : ((calls messages).map Prod.snd).Nodup)
    (hback : RefersBack messages) (place index : ℕ) :
    Refers messages place index ↔ Refers (normalizeToolCallIdsForKimi messages) place index := by
  have hnumbers := calls_normalized messages
  have hdistinct' := numbered_nodup (calls messages)
  constructor
  · rintro ⟨message,id,call,hmessage,hid,hcall,hcallId⟩
    obtain ⟨index',call',hcall',hcallId',href⟩ :=
      linked_call messages hdistinct hback hmessage hid
    obtain rfl : index = index' := nodup_index hdistinct index index' call call' hcall hcall'
      (hcallId.trans hcallId'.symm)
    obtain ⟨message',hmessage',hid'⟩ := Option.bind_eq_some_iff.mp href
    refine ⟨message',_,(call'.1, kimiToolCallId call'.1 index),hmessage',hid',?_,rfl⟩
    rw [hnumbers, numbered_get, hcall']
    rfl
  · rintro ⟨message',id',call',hmessage',hid',hcall',hcallId'⟩
    rw [normalize_written, written_get] at hmessage'
    obtain ⟨message,hmessage,rfl⟩ := Option.map_eq_some_iff.mp hmessage'
    rw [ref_renamed] at hid'
    obtain ⟨id,hid,_⟩ := Option.map_eq_some_iff.mp hid'
    obtain ⟨index',call,hcall,hcallId,href⟩ :=
      linked_call messages hdistinct hback hmessage hid
    rw [normalize_written, written_get, hmessage, Option.map_some, Option.bind_some, ref_renamed,
      hid'] at href
    have hindex : index = index' := by
      apply nodup_index hdistinct' index index' call' (call.1, kimiToolCallId call.1 index')
      · rw [← hnumbers, hcall']
      · rw [numbered_get, hcall]
        rfl
      · exact hcallId'.trans (Option.some.inj href)
    subst hindex
    exact ⟨message,id,call,hmessage,hid,hcall,hcallId⟩

end Linked

/-- Where calls have distinct ids and tool messages follow their calls, the pass is a
consistent renaming; done again, also with more messages after it, it changes nothing of
what it has renamed. -/
theorem normalize_renames (messages : List Json)
    (hdistinct : ((calls messages).map Prod.snd).Nodup) (hback : RefersBack messages) :
    Renamed messages (normalizeToolCallIdsForKimi messages) ∧
      normalizeToolCallIdsForKimi (normalizeToolCallIdsForKimi messages) =
        normalizeToolCallIdsForKimi messages ∧
      ∀ more, ∃ rest, normalizeToolCallIdsForKimi (normalizeToolCallIdsForKimi messages++more) =
        normalizeToolCallIdsForKimi messages++rest := by
  refine ⟨⟨calls_normalized messages, ?_, ?_, ?_⟩, normalize_twice messages,
    normalize_longer messages⟩
  · rw [calls_normalized]
    exact numbered_nodup (calls messages)
  · exact refers_normalized messages hdistinct hback
  · rw [normalize_written]
    exact written_map callsOf renamedMessage blankMessage blankMessage renamed_message_blank []
      messages

def sampleCall (name id : String) : Json :=
  .obj [("id", .str id), ("function", .obj [("name", .str name)])]

def sampleTurn : List Json :=
  [.obj [("role", .str "assistant"),
    ("tool_calls", .arr [sampleCall "a" "functions.b:1", sampleCall "b" "x"])],
   .obj [("role", .str "tool"), ("tool_call_id", .str "functions.b:1")],
   .obj [("role", .str "tool"), ("tool_call_id", .str "x")]]

/-- The old id of the first call is the new id of the second. -/
theorem normalize_renames_sample :
    calls sampleTurn = [("a", "functions.b:1"), ("b", "x")] ∧
      calls (normalizeToolCallIdsForKimi sampleTurn) =
        [("a", "functions.a:0"), ("b", "functions.b:1")] ∧
      (normalizeToolCallIdsForKimi sampleTurn).map toolRef =
        [none, some "functions.a:0", some "functions.b:1"] ∧
      Renamed sampleTurn (normalizeToolCallIdsForKimi sampleTurn) := by
  have hback : RefersBack sampleTurn := by
    intro place message hmessage hrole
    match place, hmessage with
    | 0, rfl => exact absurd hrole (by decide +kernel)
    | 1, rfl => exact ⟨"functions.b:1", by decide +kernel, by decide +kernel⟩
    | 2, rfl => exact ⟨"x", by decide +kernel, by decide +kernel⟩
  exact ⟨by decide +kernel, by decide +kernel, by decide +kernel,
    (normalize_renames sampleTurn (by decide +kernel) hback).1⟩

end Maple.Responses.ToolCallIds

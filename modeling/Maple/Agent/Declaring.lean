import Maple.Lib.Position
import Maple.Provider.Replay

/-!
# Declaring tool changes

What an agent can run and what its transcript declares may differ. Before a request the
difference is written into the last pending system message, or into a new one, so that
the replay of the transcript declares exactly the tools that can run.
-/

set_option autoImplicit false

namespace Maple.Agent

open Session.Entries Provider Position List

/-- The equality of JSON values, which does not look at the order of members. -/
structure ValueEq where
  same : Json → Json → Bool
  refl : ∀ a, same a a = true
  symm : ∀ a b, same a b = same b a

/-- A transcript entry; messages of a model enter through `fromMessage`. -/
structure AgentMessage (M : Type) where
  fromMessage : Message → M
  asMessage : M → Option Message
  as_from : ∀ message, asMessage (fromMessage message) = some message

structure AgentContext (M : Type) where
  messages : List M
  /-- The declarations of the tools that can run. -/
  tools : List Tool

structure ToolChanges where
  added : List Tool
  removed : List String

def ToolChanges.isEmpty (changes : ToolChanges) : Bool :=
  changes.added.isEmpty && changes.removed.isEmpty

def sameTool (eq : ValueEq) (a b : Tool) : Bool :=
  a.name = b.name && a.description = b.description && eq.same a.parameters b.parameters &&
    a.constrainedSampling = b.constrainedSampling

def findTool (tools : List Tool) (name : String) : Option Tool :=
  tools.find? (fun tool => tool.name = name)

/-- The other set has no such tool, or another one under its name. -/
def differs (eq : ValueEq) (others : List Tool) (tool : Tool) : Bool :=
  match findTool others tool.name with
  | some other => !sameTool eq other tool
  | none => true

def toolChanges (eq : ValueEq) (previous current : List Tool) : ToolChanges where
  added := current.filter (differs eq previous)
  removed := (previous.filter (differs eq current)).map Tool.name

section Pending
variable {M : Type} (A : AgentMessage M)

def llmMessages (messages : List M) : List Message := messages.filterMap A.asMessage

def isSystem (message : M) : Bool := ((A.asMessage message).bind Message.asSystem).isSome

def withoutPendingChanges (pending : List M) (systemIndex : Option ℕ) : List Message :=
  pending.zipIdx.filterMap (fun entry =>
    match A.asMessage entry.1 with
    | some (.system system) =>
      if some entry.2 = systemIndex then
        some (.system { system with toolsAdded := [], toolsRemoved := [] })
      else some (.system system)
    | other => other)

def declareToolChanges (eq : ValueEq) (nowMs : ℕ) (context : AgentContext M) (pending : List M) :
    List M :=
  let systemIndex := rposition (isSystem A) pending
  let declared := currentTools
    (llmMessages A context.messages++withoutPendingChanges A pending systemIndex)
  let changes := toolChanges eq declared context.tools
  match systemIndex with
  | some index =>
    match (pending[index]?).bind A.asMessage with
    | some (.system system) =>
      if changes.isEmpty && system.toolsAdded.isEmpty && system.toolsRemoved.isEmpty then pending
      else pending.set index (A.fromMessage (.system
        { system with toolsAdded := changes.added, toolsRemoved := changes.removed }))
    | _ => pending
  | none =>
    if changes.isEmpty then pending
    else pending.insertIdx ((pending.findIdx? (fun message => !isSystem A message)).getD
        pending.length)
      (A.fromMessage (.system ⟨"", [], changes.added, changes.removed, nowMs⟩))

end Pending

structure SameTools (eq : ValueEq) (declared executable : List Tool) : Prop where
  distinct : (declared.map Tool.name).Nodup
  runnable : ∀ tool ∈ declared, ∃ other ∈ executable, sameTool eq tool other = true
  known : ∀ tool ∈ executable, ∃ other ∈ declared, sameTool eq other tool = true

/-- At most one message differs: a system message with other tool changes, or a new one
with nothing but tool changes. -/
inductive Edited {M : Type} (A : AgentMessage M) : List M → List M → Prop
  | kept (pending : List M) : Edited A pending pending
  | changed (before after : List M) (message : M) (system : SystemMessage) (added : List Tool)
      (removed : List String) (h : A.asMessage message = some (.system system)) :
      Edited A (before++message::after) (before++A.fromMessage (.system
        { system with toolsAdded := added, toolsRemoved := removed })::after)
  | inserted (before after : List M) (added : List Tool) (removed : List String) (nowMs : ℕ) :
      Edited A (before++after)
        (before++A.fromMessage (.system ⟨"", [], added, removed, nowMs⟩)::after)

section Changes
variable (eq : ValueEq)

theorem same_refl (tool : Tool) : sameTool eq tool tool = true := by
  simp [sameTool, eq.refl]

theorem same_symm (a b : Tool) : sameTool eq a b = sameTool eq b a := by
  simp only [sameTool, eq.symm a.parameters b.parameters, eq_comm (a := a.name),
    eq_comm (a := a.description), eq_comm (a := a.constrainedSampling)]

theorem same_name {a b : Tool} (h : sameTool eq a b = true) : a.name = b.name := by
  simp only [sameTool, Bool.and_eq_true, decide_eq_true_eq] at h
  exact h.1.1.1

variable {tools : List Tool} {tool : Tool}

theorem find_name {name : String} (h : findTool tools name = some tool) :
    tool ∈ tools ∧ tool.name = name :=
  ⟨List.mem_of_find?_eq_some h,by simpa using List.find?_some h⟩

theorem unique_name (hnodup : (tools.map Tool.name).Nodup) {a b : Tool} (ha : a ∈ tools)
    (hb : b ∈ tools) (h : a.name = b.name) : a = b :=
  inj_on_of_nodup_map hnodup ha hb h

theorem find_own (hnodup : (tools.map Tool.name).Nodup) (h : tool ∈ tools) :
    findTool tools tool.name = some tool := by
  cases hfind : findTool tools tool.name with
  | none =>
    have hnone := List.find?_eq_none.mp hfind tool h
    simp at hnone
  | some other =>
    obtain ⟨hmem,hname⟩ := find_name hfind
    rw [unique_name hnodup hmem h hname]

theorem differs_false {others : List Tool} (h : differs eq others tool = false) :
    ∃ other ∈ others, other.name = tool.name ∧ sameTool eq other tool = true := by
  unfold differs at h
  split at h
  · rename_i other hother
    obtain ⟨hmem,hname⟩ := find_name hother
    exact ⟨other,hmem,hname,by simpa using h⟩
  · cases h

theorem differs_own {others : List Tool} (hnodup : (others.map Tool.name).Nodup) (tool : Tool)
    {other : Tool} (hother : other ∈ others) (h : sameTool eq other tool = true) :
    differs eq others tool = false := by
  unfold differs
  rw [← same_name eq h, find_own hnodup hother]
  simp [h]

theorem declared_names {tools : List (String × Tool)} (h : Declared tools) :
    ((tools.map Prod.snd).map Tool.name).Nodup := by
  rw [← keys_byName, byName_values h]
  exact h.1

/-- Declared tools become the ones that can run once their difference is applied. -/
theorem changes_applied {tools : List (String × Tool)} (h : Declared tools) {executable : List Tool}
    (hnodup : (executable.map Tool.name).Nodup) (system : SystemMessage)
    (hadded : system.toolsAdded = (toolChanges eq (tools.map Prod.snd) executable).added)
    (hremoved : system.toolsRemoved = (toolChanges eq (tools.map Prod.snd) executable).removed) :
    SameTools eq ((applyTools tools system).map Prod.snd) executable := by
  have hafter := declared_apply system h
  have hprevious := declared_names h
  have haddedNames : (keys (byName system.toolsAdded)).Nodup := by
    rw [keys_byName, hadded]
    exact hnodup.sublist (filter_sublist.map Tool.name)
  have hmem (entry : String × Tool) := mem_insertAll
    (tools.filter (fun entry => entry.1 ∉ system.toolsRemoved)) haddedNames entry
  rw [← applyTools_eq] at hmem
  refine ⟨declared_names hafter,?_,?_⟩
  · intro tool htool
    obtain ⟨entry,hentry,rfl⟩ := mem_map.mp htool
    rcases (hmem entry).mp hentry with hnew | ⟨hold,_⟩
    · obtain ⟨tool,hfresh,rfl⟩ := mem_map.mp hnew
      rw [hadded] at hfresh
      exact ⟨tool,mem_of_mem_filter hfresh,same_refl eq tool⟩
    obtain ⟨hentry,hkept⟩ := mem_filter.mp hold
    have hsame : differs eq executable entry.2 = false := by
      by_contra hdiffers
      have hgone : entry.1 ∈ system.toolsRemoved := by
        rw [hremoved, h.2 entry hentry]
        exact mem_map_of_mem (mem_filter.mpr ⟨mem_map_of_mem hentry,by simpa using hdiffers⟩)
      simp [hgone] at hkept
    obtain ⟨other,hother,_,hsame⟩ := differs_false eq hsame
    exact ⟨other,hother,by rw [same_symm]; exact hsame⟩
  · intro tool htool
    cases hdiffers : differs eq (tools.map Prod.snd) tool with
    | true =>
      have hnew : (tool.name, tool) ∈ byName system.toolsAdded := by
        rw [hadded]
        exact mem_map_of_mem (mem_filter.mpr ⟨htool,hdiffers⟩)
      exact ⟨tool,mem_map_of_mem ((hmem _).mpr (.inl hnew)),same_refl eq tool⟩
    | false =>
      obtain ⟨other,hother,hname,hsame⟩ := differs_false eq hdiffers
      obtain ⟨entry,hentry,rfl⟩ := mem_map.mp hother
      have hkey : entry.1 = tool.name := (h.2 entry hentry).trans hname
      refine ⟨entry.2,mem_map_of_mem ((hmem entry).mpr (.inr ⟨?_,?_⟩)),hsame⟩
      · refine mem_filter.mpr ⟨hentry,?_⟩
        rw [decide_eq_true_eq, hremoved]
        intro hgone
        obtain ⟨removed,hremoved,hsameName⟩ := mem_map.mp hgone
        obtain ⟨hmember,hdiffers⟩ := mem_filter.mp hremoved
        have hentryName : removed.name = entry.2.name := by rw [hsameName, hkey, hname]
        rw [unique_name hprevious hmember hother hentryName,
          differs_own eq hnodup entry.2 htool (by rw [same_symm]; exact hsame)]
          at hdiffers
        cases hdiffers
      · rw [keys_byName, hkey]
        intro hagain
        obtain ⟨again,hagain,hsameName⟩ := mem_map.mp hagain
        rw [hadded] at hagain
        obtain ⟨hmember,hagainDiffers⟩ := mem_filter.mp hagain
        rw [unique_name hnodup hmember htool hsameName, hdiffers] at hagainDiffers
        cases hagainDiffers

end Changes

section Declaring
variable {M : Type} (A : AgentMessage M)

theorem isSystem_iff (message : M) : isSystem A message = true ↔
    ∃ system, A.asMessage message = some (.system system) := by
  unfold isSystem
  cases hmessage : A.asMessage message with
  | none => simp
  | some inner => cases inner <;> simp [Message.asSystem]

theorem no_systems {messages : List M} (h : ∀ message ∈ messages, isSystem A message = false) :
    (llmMessages A messages).filterMap Message.asSystem = [] := by
  rw [llmMessages, filterMap_filterMap, filterMap_eq_nil_iff]
  intro message hmessage
  have hnot := h message hmessage
  rw [isSystem] at hnot
  cases hbind : (A.asMessage message).bind Message.asSystem with
  | none => rfl
  | some system => simp [hbind] at hnot

variable (before : List M)

theorem index_split (after : List M) (message : M) :
    (before++message::after)[before.length]? = some message ∧
      ∀ other, (before++message::after).set before.length other = before++other::after := by
  refine ⟨by simp,fun other => ?_⟩
  rw [set_append_right _ _ (Nat.le_refl _)]
  simp

variable {system : SystemMessage}

theorem without_split (after : List M) {message : M}
    (h : A.asMessage message = some (.system system)) :
    withoutPendingChanges A (before++message::after) (some before.length) =
      llmMessages A before++Message.system { system with toolsAdded := [], toolsRemoved := [] }::
        llmMessages A after := by
  have hother (part : List M) (start : ℕ)
      (hindex : ∀ entry ∈ part.zipIdx start, entry.2 ≠ before.length) :
      (part.zipIdx start).filterMap (fun entry =>
        match A.asMessage entry.1 with
        | some (.system system) =>
          if some entry.2 = some before.length then
            some (.system { system with toolsAdded := [], toolsRemoved := [] })
          else some (.system system)
        | other => other) = llmMessages A part := by
    have hpart : llmMessages A part = (part.zipIdx start).filterMap (A.asMessage ∘ Prod.fst) := by
      rw [← filterMap_map, zipIdx_map_fst]
      rfl
    rw [hpart]
    apply filterMap_congr
    intro entry hentry
    have hne := hindex entry hentry
    cases hmessage : A.asMessage entry.1 with
    | none => simp [hmessage]
    | some inner => cases inner <;> simp [hmessage, hne]
  unfold withoutPendingChanges
  rw [zipIdx_append, filterMap_append, zipIdx_cons, filterMap_cons]
  rw [hother before 0 (fun entry hentry => by
      have hlt := (mem_zipIdx hentry).2.1
      omega),
    hother after (0+before.length+1) (fun entry hentry => by
      have hle := (mem_zipIdx hentry).1
      omega)]
  simp [h]

theorem without_none {pending : List M} (h : ∀ message ∈ pending, isSystem A message = false) :
    (withoutPendingChanges A pending none).filterMap Message.asSystem = [] := by
  rw [withoutPendingChanges, filterMap_filterMap, filterMap_eq_nil_iff]
  intro entry hentry
  have hnot := h entry.1 (fst_mem_of_mem_zipIdx hentry)
  rw [isSystem] at hnot
  cases hmessage : A.asMessage entry.1 with
  | none => rfl
  | some inner => cases inner <;> simp_all [Message.asSystem]

/-- The tools declared before the last system message, and what that message makes of them. -/
theorem tools_around (front : List Message) {tail : List Message} (system : SystemMessage)
    (htail : tail.filterMap Message.asSystem = []) :
    currentTools (front++Message.system system::tail) =
      (applyTools ((front.filterMap Message.asSystem).foldl applyTools []) system).map Prod.snd := by
  rw [currentTools, filterMap_append, filterMap_cons, htail, foldl_append]
  rfl

theorem apply_unchanged (tools : List (String × Tool)) (system : SystemMessage)
    (hadded : system.toolsAdded = []) (hremoved : system.toolsRemoved = []) :
    applyTools tools system = tools := by
  rw [applyTools_eq, hadded, hremoved]
  simp [byName, insertAll]

theorem llm_around (after : List M) {message : M} {inner : Message}
    (h : A.asMessage message = some inner) :
    llmMessages A (before++message::after) = llmMessages A before++inner::llmMessages A after := by
  rw [llmMessages, filterMap_append, filterMap_cons, h]
  rfl

variable (eq : ValueEq) (nowMs : ℕ) (context : AgentContext M)

/-- Every pending message is kept in order, apart from the one system message that
carries the changes. -/
theorem declare_edited (pending : List M) :
    Edited A pending (declareToolChanges A eq nowMs context pending) := by
  unfold declareToolChanges
  dsimp only
  split
  · rename_i index hposition
    obtain ⟨before,message,after,rfl,rfl,_,_⟩ :=
      rposition_some index hposition
    have hindex := index_split before after message
    rw [hindex.1, Option.bind_some]
    split
    · rename_i system hmessage
      split_ifs
      · exact .kept _
      · rw [hindex.2]
        exact .changed before after message system _ _ hmessage
    · exact .kept _
  · rename_i hposition
    split_ifs
    · exact .kept pending
    have hfirst : (pending.findIdx? (fun message => !isSystem A message)).getD
        pending.length = 0 := by
      cases pending with
      | nil => rfl
      | cons first pending =>
        simp [rposition_none (isSystem A) _ hposition first (by simp), List.findIdx?_cons]
    rw [hfirst, insertIdx_zero]
    exact .inserted [] pending _ _ nowMs

/-- The pending messages hold a system message. -/
theorem declare_changed {before after : List M} {message : M}
    (hmessage : A.asMessage message = some (.system system))
    (hafter : ∀ later ∈ after, isSystem A later = false)
    (hposition : rposition (isSystem A) (before++message::after) = some before.length)
    (hnodup : (context.tools.map Tool.name).Nodup) :
    SameTools eq (currentTools (llmMessages A (context.messages++
      declareToolChanges A eq nowMs context (before++message::after)))) context.tools := by
  have htail := no_systems A hafter
  have hdeclared := declared_replay
    ((llmMessages A context.messages++llmMessages A before).filterMap Message.asSystem) []
    declared_nil
  generalize htools : ((llmMessages A context.messages++llmMessages A before).filterMap
    Message.asSystem).foldl applyTools [] = tools at hdeclared
  have hbefore : currentTools (llmMessages A context.messages++withoutPendingChanges A
      (before++message::after) (some before.length)) = tools.map Prod.snd := by
    rw [without_split A before after hmessage, ← append_assoc,
      tools_around _ _ htail, htools, apply_unchanged tools _ rfl rfl]
  have hreplay (other : M) (changed : SystemMessage)
      (hother : A.asMessage other = some (.system changed)) :
      currentTools (llmMessages A (context.messages++(before++other::after))) =
        (applyTools tools changed).map Prod.snd := by
    have hsplit : llmMessages A (context.messages++(before++other::after)) =
        (llmMessages A context.messages++llmMessages A before)++
          Message.system changed::llmMessages A after := by
      rw [llmMessages, filterMap_append]
      have haround := llm_around A before after hother
      rw [llmMessages] at haround
      rw [haround, ← append_assoc]
      rfl
    rw [hsplit, tools_around _ _ htail, htools]
  have hindex := index_split before after message
  unfold declareToolChanges
  simp only [hposition, hbefore, hindex.1, Option.bind_some, hmessage]
  split_ifs with hempty
  · simp only [ToolChanges.isEmpty, Bool.and_eq_true, List.isEmpty_iff] at hempty
    obtain ⟨⟨⟨hadded,hremoved⟩,hsystemAdded⟩,hsystemRemoved⟩ := hempty
    rw [hreplay message system hmessage]
    exact changes_applied eq hdeclared hnodup system
      (hsystemAdded.trans hadded.symm) (hsystemRemoved.trans hremoved.symm)
  · rw [hindex.2, hreplay _ _ (A.as_from _)]
    exact changes_applied eq hdeclared hnodup _ rfl rfl

/-- No pending message is a system message. -/
theorem declare_inserted {pending : List M}
    (hpending : ∀ message ∈ pending, isSystem A message = false)
    (hposition : rposition (isSystem A) pending = none)
    (hnodup : (context.tools.map Tool.name).Nodup) :
    SameTools eq (currentTools (llmMessages A (context.messages++
      declareToolChanges A eq nowMs context pending))) context.tools := by
  have htail := no_systems A hpending
  have hdeclared := declared_replay
    ((llmMessages A context.messages).filterMap Message.asSystem) [] declared_nil
  generalize htools : ((llmMessages A context.messages).filterMap
    Message.asSystem).foldl applyTools [] = tools at hdeclared
  have hbefore : currentTools (llmMessages A context.messages++
      withoutPendingChanges A pending none) = tools.map Prod.snd := by
    rw [currentTools, filterMap_append, without_none A hpending, append_nil, htools]
  have hfirst : (pending.findIdx? (fun message => !isSystem A message)).getD pending.length =
      0 := by
    cases pending with
    | nil => rfl
    | cons first pending => simp [hpending first (by simp), List.findIdx?_cons]
  unfold declareToolChanges
  simp only [hposition, hbefore, hfirst, insertIdx_zero]
  split_ifs with hempty
  · simp only [ToolChanges.isEmpty, Bool.and_eq_true, List.isEmpty_iff] at hempty
    have hsame := changes_applied eq hdeclared hnodup ⟨"",[],[],[],0⟩
      hempty.1.symm hempty.2.symm
    rw [apply_unchanged tools _ rfl rfl] at hsame
    rw [currentTools, llmMessages, filterMap_append, filterMap_append]
    rw [llmMessages] at htail htools
    rw [htail, append_nil, htools]
    exact hsame
  · have hsplit (update : SystemMessage) : llmMessages A
        (context.messages++A.fromMessage (.system update)::pending) =
        llmMessages A context.messages++Message.system update::llmMessages A pending :=
      llm_around A context.messages pending (A.as_from _)
    rw [hsplit, tools_around _ _ htail, htools]
    exact changes_applied eq hdeclared hnodup _ rfl rfl

end Declaring

/-- Replay composes over every split, and pending messages always declare the tools that
can run, with at most one system message edited or inserted. -/
theorem replay_declares_executable {M : Type} (A : AgentMessage M) (eq : ValueEq) (nowMs : ℕ) :
    (∀ (a b : List Message) (s : SystemMessage), currentSystemMessage a = some s →
      currentSystemMessage (a++b) = currentSystemMessage ([.system s]++b)) ∧
    ∀ (context : AgentContext M) (pending : List M), (context.tools.map Tool.name).Nodup →
      SameTools eq (currentTools (llmMessages A (context.messages++
          declareToolChanges A eq nowMs context pending))) context.tools ∧
        Edited A pending (declareToolChanges A eq nowMs context pending) := by
  refine ⟨replay_append, ?_⟩
  intro context pending hnodup
  refine ⟨?_, declare_edited A eq nowMs context pending⟩
  cases hposition : rposition (isSystem A) pending with
  | none =>
    exact declare_inserted A eq nowMs context
      (rposition_none (isSystem A) pending hposition) hposition hnodup
  | some index =>
    obtain ⟨before,message,after,rfl,rfl,hsystem,hafter⟩ :=
      rposition_some index hposition
    obtain ⟨system,hmessage⟩ := (isSystem_iff A message).mp hsystem
    exact declare_changed A eq nowMs context hmessage hafter hposition
      hnodup

def plainMessage : AgentMessage Message := ⟨id, some, fun _ => rfl⟩

open Classical in
noncomputable def structuralEq : ValueEq where
  same := fun a b => decide (a = b)
  refl := fun _ => decide_eq_true rfl
  symm := fun _ _ => decide_eq_decide.mpr eq_comm

def sampleTool (name : String) : Tool := ⟨name, "", .obj [], none⟩

def sampleBase : SystemMessage :=
  ⟨"base", [("rules", some "a")], [sampleTool "read", sampleTool "bash"], [], 1⟩

def sampleUpdate : SystemMessage :=
  ⟨"more", [("rules", none)], [sampleTool "grep"], ["read"], 2⟩

def sampleReplayed : SystemMessage :=
  ⟨"base\n\nmore", [], [sampleTool "bash", sampleTool "grep"], [], 1⟩

/-- The context runs `read` and `edit`, and the pending message wants other changes. -/
def sampleContext : AgentContext Message :=
  ⟨[.system sampleBase], [sampleTool "read", sampleTool "edit"]⟩

theorem replay_declares_executable_sample :
    currentSystemMessage ([.system sampleBase, .system sampleUpdate]++[.system sampleBase]) =
        currentSystemMessage ([.system sampleReplayed]++[.system sampleBase]) ∧
      SameTools structuralEq (currentTools (llmMessages plainMessage (sampleContext.messages++
        declareToolChanges plainMessage structuralEq 3 sampleContext [.system sampleUpdate])))
        sampleContext.tools ∧
      Edited plainMessage [.system sampleUpdate]
        (declareToolChanges plainMessage structuralEq 3 sampleContext [.system sampleUpdate]) :=
  have hboth := replay_declares_executable plainMessage structuralEq 3
  ⟨hboth.1 [.system sampleBase, .system sampleUpdate] [.system sampleBase] sampleReplayed rfl,
    hboth.2 sampleContext [.system sampleUpdate] (by decide)⟩

end Maple.Agent

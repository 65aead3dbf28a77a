import Maple.Lib.Keyed
import Maple.Lib.Position
import Maple.Session.Messages

/-!
# The model context of a branch

The latest compaction of a path leads its context, in place of everything it summarised;
the entries it kept and everything after it follow. Context edits replace or omit the
content of earlier entries.
-/

set_option autoImplicit false

namespace Maple.Session

open Entries Provider Position List

structure ProjectedEntry where
  entryId : String
  isCompaction : Bool
  messages : List SessionMessage

structure SessionProjection where
  entries : List ProjectedEntry
  messages : List SessionMessage
  thinkingLevel : ThinkingLevel
  model : Option (String × String)

/-- The facts before the first entry of a branch that is loaded in part. -/
structure SessionBase where
  model : Option (String × String)
  thinkingLevel : ThinkingLevel
  sessionName : Option String
  systemMessage : Option SystemMessage

def entryMessages (entry : Entry) : List SessionMessage :=
  match entry.kind with
  | .message message => [message]
  | .customMessage customType content display details =>
    [.custom ⟨customType, content, display, details, entry.timestamp⟩]
  | .branchSummary fromId summary _ =>
    if summary = "" then [] else [.branchSummary ⟨summary, fromId, entry.timestamp⟩]
  | .compaction summary _ tokensBefore _ systemMessage =>
    (systemMessage.map (fun system => SessionMessage.llm (.system system))).toList++
      [.compactionSummary ⟨summary, tokensBefore, entry.timestamp⟩]
  | _ => []

def applyEdit (replacement : List Content) : SessionMessage → SessionMessage
  | .llm (.user user) => .llm (.user { user with content := replacement })
  | .llm (.toolResult result) => .llm (.toolResult { result with content := replacement })
  | .llm (.assistant assistant) => .llm (.assistant
      { assistant with content := (replacement.filterMap Content.asText).map .text })
  | .custom custom => .custom { custom with content := replacement }
  | other => other

def asEdit (entry : Entry) : Option (String × Option (List Content)) :=
  match entry.kind with
  | .contextEdit targetId replacement => some (targetId, replacement)
  | _ => none

abbrev ContextEdits := Keyed.Map String (Option (List Content))

def contextEdits (entries : List Entry) : ContextEdits :=
  (entries.filterMap asEdit).foldl (fun edits edit => edits.set edit.1 edit.2) .empty

def editedMessages (edits : ContextEdits) (entry : Entry) : List SessionMessage :=
  match edits.get entry.id with
  | some none => []
  | some (some replacement) => (entryMessages entry).map (applyEdit replacement)
  | none => entryMessages entry

def firstKept (entry : Entry) : Option String :=
  match entry.kind with
  | .compaction _ firstKeptEntryId _ _ _ => some firstKeptEntryId
  | _ => none

/-- The entries from a kept one on, without the prompt the compaction carries. -/
def keptEntries (firstKeptEntryId : String) (before : List Entry) : List Entry :=
  (before.dropWhile (fun entry => entry.id ≠ firstKeptEntryId)).filter
    (fun entry => !isSystemEntry entry)

def contextEntries (path : List Entry) : List Entry :=
  match rposition isCompaction path with
  | none => path
  | some index =>
    match path[index]? with
    | none => path
    | some compaction =>
      match firstKept compaction with
      | none => path
      | some firstKeptEntryId =>
        compaction::keptEntries firstKeptEntryId (path.take index)++path.drop (index+1)

/-- Only the compaction that leads the context contributes its summary. -/
def projectEntry (edits : ContextEdits) (entry : Entry) (index : ℕ) : ProjectedEntry :=
  ⟨entry.id, isCompaction entry,
    if isCompaction entry && 0 < index then [] else editedMessages edits entry⟩

def nextThinking (level : ThinkingLevel) (entry : Entry) : ThinkingLevel :=
  match entry.kind with
  | .thinkingLevelChange level => level
  | _ => level

def nextModel (model : Option (String × String)) (entry : Entry) : Option (String × String) :=
  match entry.kind with
  | .modelChange provider modelId => some (provider, modelId)
  | .message (.llm (.assistant assistant)) => some (assistant.provider, assistant.model)
  | _ => model

/-- The prompt before a branch that is loaded in part, unless a compaction carries one. -/
def basePrompt (path : List Entry) (base : Option SessionBase) : List ProjectedEntry :=
  match base.bind SessionBase.systemMessage with
  | some system => if path.any isCompaction then []
      else [⟨"", false, [.llm (.system system)]⟩]
  | none => []

def projectFromBase (path : List Entry) (base : Option SessionBase) : SessionProjection :=
  let entries := contextEntries path
  let edits := contextEdits entries
  let projected := basePrompt path base++
    entries.zipIdx.map (fun entry => projectEntry edits entry.1 entry.2)
  { entries := projected
    messages := projected.flatMap ProjectedEntry.messages
    thinkingLevel := path.foldl nextThinking
      ((base.map SessionBase.thinkingLevel).getD .off)
    model := path.foldl nextModel (base.bind SessionBase.model) }

def project (path : List Entry) : SessionProjection := projectFromBase path none

section Reading

theorem firstKept_some {entry : Entry} (h : isCompaction entry = true) :
    ∃ kept, firstKept entry = some kept := by
  unfold isCompaction at h
  unfold firstKept
  generalize entry.kind = kind at h ⊢
  cases kind with
  | compaction summary first tokens details system => exact ⟨first,rfl⟩
  | _ => cases h

theorem isCompaction_of_firstKept {entry : Entry} {kept : String}
    (h : firstKept entry = some kept) :
    isCompaction entry = true := by
  unfold firstKept at h
  unfold isCompaction
  generalize entry.kind = kind at h ⊢
  cases kind with
  | compaction summary first tokens details system => rfl
  | _ => cases h

theorem contextEntries_plain {path : List Entry} (h : ∀ entry ∈ path, isCompaction entry = false) :
    contextEntries path = path := by
  rw [contextEntries, rposition_absent isCompaction h]

theorem contextEntries_compacted (before : List Entry) {after : List Entry} {compaction : Entry}
    {kept : String} (hkept : firstKept compaction = some kept)
    (hafter : ∀ entry ∈ after, isCompaction entry = false) :
    contextEntries (before++compaction::after) = compaction::keptEntries kept before++after := by
  rw [contextEntries, rposition_split isCompaction before compaction
    (isCompaction_of_firstKept hkept) hafter]
  simp [hkept, drop_append]

/-- Every path has no compaction, or one that is the last. -/
theorem path_cases (path : List Entry) : (∀ entry ∈ path, isCompaction entry = false) ∨
    ∃ before compaction after kept, path = before++compaction::after ∧
      firstKept compaction = some kept ∧ ∀ entry ∈ after, isCompaction entry = false := by
  cases hlast : rposition isCompaction path with
  | none => exact .inl (rposition_none isCompaction path hlast)
  | some index =>
    obtain ⟨before,compaction,after,rfl,_,hcompaction,hafter⟩ :=
      rposition_some index hlast
    obtain ⟨kept,hkept⟩ := firstKept_some hcompaction
    exact .inr ⟨before,compaction,after,kept,rfl,hkept,hafter⟩

def laterMessages (edits : ContextEdits) (entry : Entry) : List SessionMessage :=
  if isCompaction entry then [] else editedMessages edits entry

variable (edits : ContextEdits)

theorem projectEntry_later (entry : Entry) (index : ℕ) :
    (projectEntry edits entry (index+1)).messages = laterMessages edits entry := by
  simp [projectEntry, laterMessages]

theorem projectEntry_first (entry : Entry) :
    (projectEntry edits entry 0).messages = editedMessages edits entry := by
  simp [projectEntry]

theorem projected_later (entries : List Entry) (start : ℕ) :
    ((entries.zipIdx (start+1)).map (fun entry => projectEntry edits entry.1 entry.2)).flatMap
      ProjectedEntry.messages = entries.flatMap (laterMessages edits) := by
  induction entries generalizing start with
  | nil => rfl
  | cons entry entries ih =>
    rw [zipIdx_cons, map_cons, flatMap_cons, flatMap_cons, ih, projectEntry_later]

theorem projected_messages (first : Entry) (rest : List Entry) :
    (((first::rest).zipIdx).map (fun entry => projectEntry edits entry.1 entry.2)).flatMap
      ProjectedEntry.messages =
      editedMessages edits first++rest.flatMap (laterMessages edits) := by
  rw [zipIdx_cons, map_cons, flatMap_cons, projected_later, projectEntry_first]

theorem laterMessages_plain (entries : List Entry)
    (h : ∀ entry ∈ entries, isCompaction entry = false) :
    entries.flatMap (laterMessages edits) = entries.flatMap (editedMessages edits) := by
  apply flatMap_congr
  intro entry hentry
  simp [laterMessages, h entry hentry]

theorem project_plain {path : List Entry} (h : ∀ entry ∈ path, isCompaction entry = false) :
    (project path).messages = path.flatMap (editedMessages (contextEdits path)) := by
  unfold project projectFromBase
  simp only [contextEntries_plain h, basePrompt, Option.bind_none, nil_append]
  cases path with
  | nil => rfl
  | cons first rest =>
    rw [projected_messages, laterMessages_plain _ rest
      (fun entry hentry => h entry (mem_cons_of_mem _ hentry)), flatMap_cons]

theorem project_compacted (before : List Entry) {after : List Entry} {compaction : Entry}
    {kept : String} (hkept : firstKept compaction = some kept)
    (hafter : ∀ entry ∈ after, isCompaction entry = false) :
    (project (before++compaction::after)).messages =
      let edits := contextEdits (compaction::keptEntries kept before++after)
      editedMessages edits compaction++
        (keptEntries kept before++after).flatMap (laterMessages edits) := by
  unfold project projectFromBase
  simp only [contextEntries_compacted before hkept hafter, basePrompt,
    Option.bind_none, nil_append, cons_append]
  rw [projected_messages]

end Reading

end Maple.Session

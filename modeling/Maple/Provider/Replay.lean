import Maple.Provider.Messages
import Mathlib.Data.List.Nodup

/-!
# Replaying system messages

The system messages of a transcript replay into one message. That message stands for the
transcript it came from: whatever follows, the replay is the same.
-/

set_option autoImplicit false

namespace Maple.Provider

open Session.Entries List

section Entries
variable {β : Type}

def keys (entries : List (String × β)) : List String := entries.map Prod.fst

theorem keys_cons (entry : String × β) (entries : List (String × β)) :
    keys (entry::entries) = entry.1::keys entries := rfl

def insertAll (entries added : List (String × β)) : List (String × β) :=
  added.foldl (fun entries entry => insertKey entries entry.1 entry.2) entries

variable {entries : List (String × β)}

theorem insert_fresh {key : String} (value : β) (h : key ∉ keys entries) :
    insertKey entries key value = entries++[(key, value)] := by
  unfold insertKey
  rw [if_neg]
  intro hany
  obtain ⟨entry,hmem,hkey⟩ := any_eq_true.mp hany
  apply h
  rw [← of_decide_eq_true hkey]
  exact mem_map_of_mem hmem

theorem insert_known_keys {key : String} (value : β) (h : key ∈ keys entries) :
    keys (insertKey entries key value) = keys entries := by
  obtain ⟨entry,hmem,hkey⟩ := mem_map.mp h
  have hany : entries.any (fun entry => entry.1 = key) = true :=
    any_eq_true.mpr ⟨entry,hmem,decide_eq_true hkey⟩
  unfold insertKey keys
  rw [if_pos hany, map_map]
  apply map_congr_left
  intro entry _
  by_cases hentry : entry.1 = key
  · simp [hentry]
  · simp [hentry]

theorem insert_keys_nodup (key : String) (value : β) (h : (keys entries).Nodup) :
    (keys (insertKey entries key value)).Nodup := by
  by_cases hkey : key ∈ keys entries
  · rw [insert_known_keys value hkey]
    exact h
  · rw [insert_fresh value hkey, keys, map_append]
    exact List.Nodup.append h (nodup_singleton _) (disjoint_singleton.mpr hkey)

theorem remove_keys_nodup (key : String) (h : (keys entries).Nodup) :
    (keys (removeKey entries key)).Nodup :=
  h.sublist (filter_sublist.map Prod.fst)

theorem mem_insert (entries : List (String × β)) (key : String) (value : β)
    (entry : String × β) : entry ∈ insertKey entries key value ↔
      entry = (key, value) ∨ entry ∈ entries ∧ entry.1 ≠ key := by
  unfold insertKey
  split_ifs with hany
  · obtain ⟨known,hknown,hkey⟩ := any_eq_true.mp hany
    rw [mem_map]
    constructor
    · rintro ⟨old,hold,rfl⟩
      by_cases h : old.1 = key
      · simp [h]
      · simp [h, hold]
    · rintro (rfl | ⟨hmem,hne⟩)
      · exact ⟨known,hknown,by rw [if_pos (of_decide_eq_true hkey)]⟩
      · exact ⟨entry,hmem,by rw [if_neg hne]⟩
  · have hne : ∀ old ∈ entries, old.1 ≠ key := by
      intro old hold hkey
      exact hany (any_eq_true.mpr ⟨old,hold,decide_eq_true hkey⟩)
    rw [mem_append, mem_singleton, or_comm]
    exact or_congr_right ⟨fun hmem => ⟨hmem,hne entry hmem⟩,And.left⟩

variable {added : List (String × β)}

/-- Entries whose keys are new are appended in order. -/
theorem insertAll_fresh (entries : List (String × β)) (h : (keys (entries++added)).Nodup) :
    insertAll entries added = entries++added := by
  induction added generalizing entries with
  | nil => simp [insertAll]
  | cons entry added ih =>
    have hsplit : entries++entry::added = (entries++[entry])++added := by simp
    rw [hsplit] at h ⊢
    have hfresh : entry.1 ∉ keys entries := by
      have hfront : (keys (entries++[entry])).Nodup :=
        h.sublist ((sublist_append_left _ added).map Prod.fst)
      rw [keys, map_append, nodup_append] at hfront
      intro hmem
      exact hfront.2.2 entry.1 hmem entry.1 (by simp) rfl
    rw [← ih (entries++[entry]) h, insertAll, foldl_cons, insert_fresh entry.2 hfresh]
    rfl

theorem insertAll_nil (h : (keys added).Nodup) : insertAll [] added = added := by
  rw [insertAll_fresh [] h, nil_append]

theorem mem_insertAll (entries : List (String × β)) (hadded : (keys added).Nodup)
    (entry : String × β) : entry ∈ insertAll entries added ↔
      entry ∈ added ∨ entry ∈ entries ∧ entry.1 ∉ keys added := by
  induction added generalizing entries with
  | nil => simp [insertAll, keys]
  | cons first added ih =>
    rw [keys_cons, nodup_cons] at hadded
    have hrest := ih (insertKey entries first.1 first.2) hadded.2
    rw [mem_insert] at hrest
    have hcons : insertAll entries (first::added) =
        insertAll (insertKey entries first.1 first.2) added := rfl
    rw [hcons, hrest, mem_cons, keys_cons, mem_cons, not_or]
    constructor
    · rintro (hmem | ⟨rfl | ⟨hmem,hne⟩,hnot⟩)
      · exact .inl (.inr hmem)
      · exact .inl (.inl rfl)
      · exact .inr ⟨hmem,hne,hnot⟩
    · rintro ((rfl | hmem) | ⟨hmem,hne,hnot⟩)
      · exact .inr ⟨.inl rfl,hadded.1⟩
      · exact .inl hmem
      · exact .inr ⟨.inr ⟨hmem,hne⟩,hnot⟩

theorem removeAll_eq (names : List String) (entries : List (String × β)) :
    names.foldl removeKey entries = entries.filter (fun entry => entry.1 ∉ names) := by
  induction names generalizing entries with
  | nil => simp
  | cons name names ih =>
    rw [foldl_cons, ih, removeKey, filter_filter]
    apply filter_congr
    intro entry _
    simp [Bool.and_comm]

end Entries

section Tools

/-- Every tool stands under its own name, and no name stands twice. -/
def Declared (tools : List (String × Tool)) : Prop :=
  (keys tools).Nodup ∧ ∀ entry ∈ tools, entry.1 = entry.2.name

def byName (tools : List Tool) : List (String × Tool) :=
  tools.map (fun tool => (tool.name, tool))

theorem applyTools_eq (tools : List (String × Tool)) (system : SystemMessage) :
    applyTools tools system = insertAll (tools.filter (fun entry => entry.1 ∉ system.toolsRemoved))
      (byName system.toolsAdded) := by
  rw [applyTools, removeAll_eq, insertAll, byName, foldl_map]

theorem keys_byName (tools : List Tool) : keys (byName tools) = tools.map Tool.name := by
  simp [keys, byName]

theorem declared_insertAll (tools : List (String × Tool)) (added : List Tool)
    (h : Declared tools) : Declared (insertAll tools (byName added)) := by
  induction added generalizing tools with
  | nil => exact h
  | cons tool added ih =>
    apply ih (insertKey tools tool.name tool)
    refine ⟨insert_keys_nodup tool.name tool h.1,?_⟩
    intro entry hentry
    obtain rfl | ⟨hmem,_⟩ := (mem_insert tools tool.name tool entry).mp hentry
    · rfl
    · exact h.2 entry hmem

variable {tools : List (String × Tool)}

theorem declared_apply (system : SystemMessage) (h : Declared tools) :
    Declared (applyTools tools system) := by
  rw [applyTools_eq]
  apply declared_insertAll
  exact ⟨h.1.sublist (filter_sublist.map Prod.fst),
    fun entry hentry => h.2 entry (mem_of_mem_filter hentry)⟩

theorem declared_replay (systems : List SystemMessage) (tools : List (String × Tool))
    (h : Declared tools) : Declared (systems.foldl applyTools tools) := by
  induction systems generalizing tools with
  | nil => exact h
  | cons system systems ih => exact ih _ (declared_apply system h)

theorem declared_nil : Declared [] := ⟨List.nodup_nil,by simp⟩

theorem byName_values (h : Declared tools) : byName (tools.map Prod.snd) = tools := by
  rw [byName, map_map]
  conv_rhs => rw [← map_id tools]
  apply map_congr_left
  intro entry hentry
  exact Prod.ext (h.2 entry hentry).symm rfl

/-- A message that declares a whole tool set replays into that set. -/
theorem applyTools_whole (h : Declared tools) (system : SystemMessage)
    (hadded : system.toolsAdded = tools.map Prod.snd) (hremoved : system.toolsRemoved = []) :
    applyTools [] system = tools := by
  rw [applyTools_eq, hadded, hremoved, byName_values h]
  exact insertAll_nil h.1

end Tools

section Sections

def Present (sections : List (String × Option String)) : Prop :=
  (keys sections).Nodup ∧ ∀ entry ∈ sections, entry.2 ≠ none

variable {sections : List (String × Option String)}

theorem present_apply (change : String × Option String) (h : Present sections) :
    Present (applySection sections change) := by
  obtain ⟨name,value⟩ := change
  cases value with
  | none =>
    exact ⟨remove_keys_nodup name h.1,
      fun entry hentry => h.2 entry (mem_of_mem_filter hentry)⟩
  | some text =>
    refine ⟨insert_keys_nodup name (some text) h.1,?_⟩
    intro entry hentry
    obtain rfl | ⟨hmem,_⟩ := (mem_insert sections name (some text) entry).mp hentry
    · simp
    · exact h.2 entry hmem

theorem present_replay (changes sections : List (String × Option String))
    (h : Present sections) : Present (changes.foldl applySection sections) := by
  induction changes generalizing sections with
  | nil => exact h
  | cons change changes ih => exact ih _ (present_apply change h)

theorem replay_present (before : List (String × Option String))
    (h : ∀ entry ∈ sections, entry.2 ≠ none) :
    sections.foldl applySection before = insertAll before sections := by
  induction sections generalizing before with
  | nil => rfl
  | cons entry sections ih =>
    obtain ⟨name,value⟩ := entry
    cases value with
    | none => exact absurd rfl (h (name, none) (by simp))
    | some text =>
      rw [foldl_cons, ih _ (fun entry hentry => h entry (by simp [hentry]))]
      rfl

/-- Sections that are all present replay into themselves. -/
theorem replay_whole (h : Present sections) : sections.foldl applySection [] = sections := by
  rw [replay_present [] h.2]
  exact insertAll_nil h.1

end Sections

section Composition

theorem intercalate_ne_empty {parts : List String} (hne : parts ≠ [])
    (h : ∀ part ∈ parts, part ≠ "") : "\n\n".intercalate parts ≠ "" := by
  cases parts with
  | nil => exact absurd rfl hne
  | cons part parts =>
    have hpart := h part (by simp)
    by_cases hparts : parts = []
    · rw [hparts, String.intercalate_singleton]
      exact hpart
    · rw [String.intercalate_cons_of_ne_nil hparts]
      simp [hpart]

/-- Joined contents can be joined with more. -/
theorem joined_first (front back : List String) (h : ∀ part ∈ front, part ≠ "") :
    "\n\n".intercalate ((["\n\n".intercalate front].filter (· ≠ ""))++back) =
      "\n\n".intercalate (front++back) := by
  by_cases hfront : front = []
  · simp [hfront]
  have hne := intercalate_ne_empty hfront h
  have hkeep : ["\n\n".intercalate front].filter (· ≠ "") = ["\n\n".intercalate front] := by
    simp [hne]
  rw [hkeep]
  by_cases hback : back = []
  · simp [hback]
  · rw [String.intercalate_append_of_ne_nil hfront hback,
      String.intercalate_append_of_ne_nil (by simp) hback, String.intercalate_singleton]

theorem current_system_some {messages : List Message} {s : SystemMessage}
    (h : currentSystemMessage messages = some s) : messages.filterMap Message.asSystem ≠ [] := by
  intro hnil
  have htools : currentTools messages = [] := by
    rw [currentTools, hnil]
    rfl
  simp [currentSystemMessage, hnil, htools] at h

/-- The replay of a transcript stands for it whatever follows. -/
theorem replay_append (a b : List Message) (s : SystemMessage)
    (h : currentSystemMessage a = some s) :
    currentSystemMessage (a++b) = currentSystemMessage ([.system s]++b) := by
  have hsystems := current_system_some h
  obtain ⟨first,later,hfirst⟩ := exists_cons_of_ne_nil hsystems
  have hs : s = {
      content := "\n\n".intercalate
        (((a.filterMap Message.asSystem).map SystemMessage.content).filter (· ≠ ""))
      sections := ((a.filterMap Message.asSystem).flatMap SystemMessage.sections).foldl
        applySection []
      toolsAdded := currentTools a
      toolsRemoved := []
      timestamp := (((a.filterMap Message.asSystem).head?).map SystemMessage.timestamp).getD 0 } := by
    unfold currentSystemMessage at h
    rw [if_neg (fun hboth => hsystems hboth.1)] at h
    exact (Option.some.inj h).symm
  have htools : currentTools (a++b) = currentTools ([.system s]++b) := by
    have hdeclared := declared_replay (a.filterMap Message.asSystem) [] declared_nil
    have hwhole := applyTools_whole hdeclared s (by rw [hs]; rfl) (by rw [hs])
    rw [currentTools, currentTools, filterMap_append, filterMap_append, foldl_append, foldl_append]
    congr 2
    exact hwhole.symm
  have hleft : (a++b).filterMap Message.asSystem ≠ [] := by
    rw [filterMap_append, hfirst]
    simp
  have hright : ([Message.system s]++b).filterMap Message.asSystem =
      s::b.filterMap Message.asSystem := rfl
  unfold currentSystemMessage
  dsimp only
  rw [if_neg (fun hboth => hleft hboth.1), if_neg (fun hboth => absurd (hright ▸ hboth.1) (by simp)),
    htools, hright, filterMap_append]
  refine congrArg some ?_
  rw [SystemMessage.mk.injEq]
  refine ⟨?_,?_,rfl,rfl,?_⟩
  · have hjoined := joined_first
      (((a.filterMap Message.asSystem).map SystemMessage.content).filter (· ≠ ""))
      (((b.filterMap Message.asSystem).map SystemMessage.content).filter (· ≠ ""))
      (fun part hpart => by simpa using (mem_filter.mp hpart).2)
    have hcontent : s.content = "\n\n".intercalate
        (((a.filterMap Message.asSystem).map SystemMessage.content).filter (· ≠ "")) := by rw [hs]
    have hcons (parts : List String) : (s.content::parts).filter (· ≠ "") =
        [s.content].filter (· ≠ "")++parts.filter (· ≠ "") := filter_append [s.content] parts
    rw [map_append, filter_append, ← hjoined, map_cons, hcons, hcontent]
  · have hpresent := present_replay
      ((a.filterMap Message.asSystem).flatMap SystemMessage.sections) [] ⟨nodup_nil,by simp⟩
    rw [flatMap_append, foldl_append, flatMap_cons, foldl_append]
    congr 1
    rw [hs]
    exact (replay_whole hpresent).symm
  · rw [hs, hfirst]
    rfl

end Composition

end Maple.Provider

import Mathlib.Data.List.Count
import Maple.Compaction.Archive

/-!
# Prompt projection

`project` builds the prompt of a request from the instructions, the summaries and
the replayed items. `layout` names the pieces of that prompt in order, so that a
piece can be counted even when two items carry equal messages.
-/

set_option autoImplicit false

namespace Maple.Compaction.Projection
open Tiling Items Groups Coverage Units Window Archive List

/-- Skip other responses; stop behind the last protected input of this one. -/
def memoryLoop (response : Option Uuid) : List ItemMeta → ContextItemKey → ContextItemKey
  | [], after => after
  | item::rest, after =>
    if item.responseUuid ≠ response then memoryLoop response rest after
    else if !item.protectedInput then after
    else memoryLoop response rest item.key

def activeMemoryAfter (f : Frame) (part : CheckpointSection) : Option ContextItemKey :=
  part.anchor.bind (fun anchor => (f.position anchor).bind (fun i =>
    (f.items[i]?).map (fun item => memoryLoop item.responseUuid (f.items.drop (i+1)) anchor)))

/-- Active memory leaves the prompt with its anchor. -/
def visibleActiveSection (checkpoint : Option CheckpointPayload) (active : ActiveContext) :
    Option CheckpointSection :=
  (checkpoint.bind CheckpointPayload.active).filter (fun part =>
    !part.anchor.any (fun key => key ∈ active.archived))

def isReplayed (covered : List ContextItemKey) (active : ActiveContext) (item : ItemMeta) : Bool :=
  item.key ∉ covered && item.key ∉ active.archived

section Project
variable {V : Type} (lib : Library V) (s : ContextSnapshot V)
variable (checkpoint : Option CheckpointPayload) (active : ActiveContext)

def projectedTokenEstimate (covered : List ContextItemKey) : ℕ :=
  let raw := satSum s.instructionTokens
    ((s.items.filter (fun item => isReplayed covered active item.toItemMeta)).map
      ContextItem.estimatedTokens)
  let marker := if active.truncated then lib.countTokens truncationMarker else 0
  satSum (satAdd raw marker) (((checkpoint.bind CheckpointPayload.history).toList++
    (visibleActiveSection checkpoint active).toList).map (sectionTokens lib))

def projectItem (covered : List ContextItemKey) (item : ContextItem V) : List V :=
  (if isReplayed covered active item.toItemMeta then item.promptMessages else [])++
  (if active.truncated && active.head = some item.key then [truncationMessage lib] else [])++
  (match visibleActiveSection checkpoint active with
    | some part =>
      if activeMemoryAfter s.frame part = some item.key then [summaryMessage lib part] else []
    | none => [])

def project : Except ContextError (List V × ℕ) :=
  match validatedCoverage s.frame checkpoint with
  | .error e => .error e
  | .ok covered =>
    if s.items.any (fun item => isReplayed covered active item.toItemMeta && !item.payloadLoaded)
    then .error (.snapshot "uncovered payload is not loaded")
    else .ok (s.instructions++
      ((checkpoint.bind CheckpointPayload.history).toList.map (summaryMessage lib))++
      (if active.truncated && active.head.isNone then [truncationMessage lib] else [])++
      s.items.flatMap (projectItem lib s checkpoint active covered),
      projectedTokenEstimate lib s checkpoint active covered)

def estimateTokens : Except ContextError ℕ :=
  match validatedCoverage s.frame checkpoint with
  | .error e => .error e
  | .ok covered => .ok (projectedTokenEstimate lib s checkpoint active covered)

end Project

inductive Piece where
  | instructions
  | historySummary
  | truncation
  | item (i : ℕ)
  | activeSummary
  deriving DecidableEq, Repr

def Piece.index : Piece → Option ℕ
  | .item i => some i
  | _ => none

section Layout
variable (f : Frame) (checkpoint : Option CheckpointPayload) (active : ActiveContext)
variable (covered : List ContextItemKey)

def itemLayout (i : ℕ) (item : ItemMeta) : List Piece :=
  (if isReplayed covered active item then [.item i] else [])++
  (if active.truncated && active.head = some item.key then [.truncation] else [])++
  (match visibleActiveSection checkpoint active with
    | some part => if activeMemoryAfter f part = some item.key then [.activeSummary] else []
    | none => [])

def layoutLoop : List ItemMeta → ℕ → List Piece
  | [], _ => []
  | item::rest, i => itemLayout f checkpoint active covered i item++layoutLoop rest (i+1)

def layout : List Piece :=
  [.instructions]++
  (if (checkpoint.bind CheckpointPayload.history).isSome then [.historySummary] else [])++
  (if active.truncated && active.head.isNone then [.truncation] else [])++
  layoutLoop f checkpoint active covered f.items 0

end Layout

def pieceMessages {V : Type} (lib : Library V) (s : ContextSnapshot V)
    (checkpoint : Option CheckpointPayload) : Piece → List V
  | .instructions => s.instructions
  | .historySummary =>
    (checkpoint.bind CheckpointPayload.history).toList.map (summaryMessage lib)
  | .truncation => [truncationMessage lib]
  | .item i => ((s.items[i]?).map ContextItem.promptMessages).getD []
  | .activeSummary => (checkpoint.bind CheckpointPayload.active).toList.map (summaryMessage lib)

variable {checkpoint : Option CheckpointPayload} {active : ActiveContext} {part : CheckpointSection}

theorem visible_some (h : visibleActiveSection checkpoint active = some part) :
    checkpoint.bind CheckpointPayload.active = some part :=
  (Option.filter_eq_some_iff.mp h).1

variable {V : Type}

theorem itemLayout_messages (lib : Library V) {s : ContextSnapshot V}
    (checkpoint : Option CheckpointPayload) (active : ActiveContext) (covered : List ContextItemKey)
    {i : ℕ} {item : ContextItem V} (hi : s.items[i]? = some item) :
    (itemLayout s.frame checkpoint active covered i item.toItemMeta).flatMap
      (pieceMessages lib s checkpoint) = projectItem lib s checkpoint active covered item := by
  have hactive : ∀ part, visibleActiveSection checkpoint active = some part →
      pieceMessages lib s checkpoint .activeSummary = [summaryMessage lib part] := by
    intro part hp
    simp [pieceMessages, visible_some hp]
  rw [itemLayout, projectItem, flatMap_append, flatMap_append]
  congr 1
  · congr 1
    · split_ifs <;> simp [pieceMessages, hi]
    · split_ifs <;> simp [pieceMessages]
  cases hv : visibleActiveSection checkpoint active with
  | none => rfl
  | some part =>
    simp only
    split_ifs
    · simp [hactive part hv]
    · rfl

theorem layoutLoop_messages (lib : Library V) (s : ContextSnapshot V)
    (checkpoint : Option CheckpointPayload) (active : ActiveContext) (covered : List ContextItemKey)
    (items : List (ContextItem V)) (i : ℕ) (hi : s.items.drop i = items) :
    (layoutLoop s.frame checkpoint active covered (items.map ContextItem.toItemMeta) i).flatMap
      (pieceMessages lib s checkpoint) =
      items.flatMap (projectItem lib s checkpoint active covered) := by
  induction items generalizing i with
  | nil => rfl
  | cons item items ih =>
    have hat : s.items[i]? = some item := by
      rw [← Nat.add_zero i, ← List.getElem?_drop, hi, List.getElem?_cons_zero]
    have hrest : s.items.drop (i+1) = items := by
      rw [← tail_drop, hi, tail_cons]
    rw [map_cons, layoutLoop, flatMap_append, flatMap_cons, ih (i+1) hrest,
      itemLayout_messages lib checkpoint active covered hat]

theorem project_layout {lib : Library V} {s : ContextSnapshot V} {covered : List ContextItemKey}
    (hc : validatedCoverage s.frame checkpoint = .ok covered) {messages : List V} {tokens : ℕ}
    (h : project lib s checkpoint active = .ok (messages, tokens)) :
    messages = (layout s.frame checkpoint active covered).flatMap
      (pieceMessages lib s checkpoint) := by
  unfold project at h
  rw [hc] at h
  simp only at h
  split at h
  · cases h
  rw [← (Prod.mk.inj (Except.ok.inj h)).1, layout, flatMap_append, flatMap_append, flatMap_append]
  congr 1
  · congr 1
    · congr 1
      · simp [pieceMessages]
      · cases hh : checkpoint.bind CheckpointPayload.history <;> simp [pieceMessages, hh]
    · split_ifs <;> simp [pieceMessages]
  · exact (layoutLoop_messages lib s checkpoint active covered s.items 0 rfl).symm

section Layout
variable (f : Frame) (checkpoint : Option CheckpointPayload) (active : ActiveContext)
variable (covered : List ContextItemKey)

def replayedAt (i : ℕ) : Bool := (f.items[i]?).any (isReplayed covered active)

variable (i : ℕ)

theorem itemLayout_index (item : ItemMeta) :
    (itemLayout f checkpoint active covered i item).filterMap Piece.index =
      if isReplayed covered active item then [i] else [] := by
  unfold itemLayout
  cases visibleActiveSection checkpoint active with
  | none | some => split_ifs <;> simp [Piece.index]

theorem layoutLoop_index (items : List ItemMeta) (i : ℕ) (hi : f.items.drop i = items) :
    (layoutLoop f checkpoint active covered items i).filterMap Piece.index =
      (List.range' i items.length).filter (replayedAt f active covered) := by
  induction items generalizing i with
  | nil => rfl
  | cons item items ih =>
    have hat : f.items[i]? = some item := by
      rw [← Nat.add_zero i, ← List.getElem?_drop, hi, List.getElem?_cons_zero]
    have hrest : f.items.drop (i+1) = items := by
      rw [← tail_drop, hi, tail_cons]
    rw [layoutLoop, filterMap_append, itemLayout_index, ih (i+1) hrest, length_cons,
      List.range'_succ, filter_cons]
    simp only [replayedAt, hat, Option.any_some]
    split_ifs <;> rfl

/-- The replayed items stand in the prompt once each, in source order. -/
theorem layout_index : (layout f checkpoint active covered).filterMap Piece.index =
    (List.range f.items.length).filter (replayedAt f active covered) := by
  rw [layout, filterMap_append, layoutLoop_index f checkpoint active covered f.items 0 rfl,
    ← List.range_eq_range']
  split_ifs <;> simp [Piece.index]

theorem item_mem_layout : .item i ∈ layout f checkpoint active covered ↔
    replayedAt f active covered i = true := by
  have hmem : .item i ∈ layout f checkpoint active covered ↔
      i ∈ (layout f checkpoint active covered).filterMap Piece.index := by
    rw [mem_filterMap]
    constructor
    · intro h
      exact ⟨_,h,rfl⟩
    rintro ⟨piece,hp,hi⟩
    cases piece with
    | item j =>
      cases hi
      exact hp
    | instructions | historySummary | truncation | activeSummary => cases hi
  rw [hmem, layout_index, mem_filter, mem_range]
  constructor
  · exact fun h => h.2
  · intro h
    refine ⟨?_,h⟩
    by_contra hlt
    simp [replayedAt, List.getElem?_eq_none (Nat.le_of_not_lt hlt)] at h

theorem itemLayout_active (item : ItemMeta) {after : Option ContextItemKey}
    (ha : after = (visibleActiveSection checkpoint active).bind (activeMemoryAfter f)) :
    (itemLayout f checkpoint active covered i item).count .activeSummary =
      if after = some item.key then 1 else 0 := by
  subst ha
  unfold itemLayout
  cases visibleActiveSection checkpoint active with
  | none => split_ifs <;> simp_all
  | some part =>
    rw [Option.bind_some]
    split_ifs <;> simp_all

theorem layoutLoop_active (items : List ItemMeta) (i : ℕ) {after : Option ContextItemKey}
    (ha : after = (visibleActiveSection checkpoint active).bind (activeMemoryAfter f)) :
    (layoutLoop f checkpoint active covered items i).count .activeSummary =
      ((items.map ItemMeta.key).map some).count after := by
  induction items generalizing i with
  | nil => rfl
  | cons item items ih =>
    rw [layoutLoop, count_append, itemLayout_active f checkpoint active covered i item ha,
      ih (i+1), map_cons, map_cons, count_cons, Nat.add_comm]
    simp only [beq_iff_eq, @eq_comm _ (some item.key)]

theorem layout_active (after : Option ContextItemKey)
    (ha : after = (visibleActiveSection checkpoint active).bind (activeMemoryAfter f)) :
    (layout f checkpoint active covered).count .activeSummary = (f.keys.map some).count after := by
  rw [layout, count_append, layoutLoop_active f checkpoint active covered f.items 0 ha]
  split_ifs <;> simp [Frame.keys]

end Layout

theorem memoryLoop_mem (response : Option Uuid) (items : List ItemMeta) (after : ContextItemKey) :
    memoryLoop response items after = after ∨
      ∃ item ∈ items, memoryLoop response items after = item.key ∧ item.protectedInput = true ∧
        item.responseUuid = response := by
  induction items generalizing after with
  | nil => exact Or.inl rfl
  | cons item rest ih =>
    unfold memoryLoop
    split_ifs with hr hp
    · rcases ih after with h | ⟨other,ho,h⟩
      · exact Or.inl h
      · exact Or.inr ⟨other,mem_cons_of_mem _ ho,h⟩
    · exact Or.inl rfl
    · right
      rcases ih item.key with h | ⟨other,ho,h⟩
      · exact ⟨item,mem_cons_self,h,by simpa using hp,by simpa using hr⟩
      · exact ⟨other,mem_cons_of_mem _ ho,h⟩

variable {f : Frame}

theorem activeMemoryAfter_mem {anchor : ContextItemKey} {a : ℕ}
    (hanchor : part.anchor = some anchor) (hpos : f.position anchor = some a) :
    ∃ after, activeMemoryAfter f part = some after ∧ after ∈ f.keys := by
  obtain ⟨item,hitem,hkey⟩ := position_some f _ _ hpos
  refine ⟨memoryLoop item.responseUuid (f.items.drop (a+1)) anchor,?_,?_⟩
  · simp [activeMemoryAfter, hanchor, hpos, hitem]
  · rcases memoryLoop_mem item.responseUuid (f.items.drop (a+1)) anchor with h | ⟨other,ho,h,-⟩
    · rw [h]
      exact mem_map.mpr ⟨item,List.mem_of_getElem? hitem,hkey⟩
    · rw [h]
      exact mem_map.mpr ⟨other,mem_of_mem_drop ho,rfl⟩

variable {current : ℕ}

/-- Active memory stands in the prompt once, unless its anchor is archived. -/
theorem active_summary_count (ha : Accepted f checkpoint current) (active : ActiveContext)
    (covered : List ContextItemKey) : (layout f checkpoint active covered).count .activeSummary =
      if ∃ part, checkpoint.bind CheckpointPayload.active = some part ∧
        ∀ anchor, part.anchor = some anchor → anchor ∉ active.archived then 1 else 0 := by
  rw [layout_active f checkpoint active covered _ rfl]
  cases hv : visibleActiveSection checkpoint active with
  | none =>
    rw [if_neg, Option.bind_none, count_eq_zero]
    · simp
    rintro ⟨part,hp,hall⟩
    rw [visibleActiveSection, hp, Option.filter_some] at hv
    split_ifs at hv with hany
    apply hany
    cases hanchor : part.anchor with
    | none => rfl
    | some anchor => simpa using hall anchor hanchor
  | some part =>
    obtain ⟨hb,hvis⟩ := Option.filter_eq_some_iff.mp hv
    obtain ⟨c,rfl,hpart⟩ := Option.bind_eq_some_iff.mp hb
    obtain ⟨-,-,anchor,a,hanchor,-,hpos,-⟩ :=
      (activeSection_ok f current part).mp ((ha.payload c rfl).active part hpart)
    obtain ⟨after,hafter,hmem⟩ := activeMemoryAfter_mem hanchor hpos
    rw [if_pos, Option.bind_some, hafter, count_map_of_injective _ _ (fun _ _ => Option.some.inj),
      count_eq_one_of_mem ha.keys hmem]
    refine ⟨part,hb,fun key hkey => ?_⟩
    rw [hkey] at hvis
    simpa using hvis

theorem replayedAt_iff (f : Frame) (active : ActiveContext) (covered : List ContextItemKey)
    (i : ℕ) : replayedAt f active covered i = true ↔
      ∃ key, keyAt f i = some key ∧ key ∉ covered ∧ key ∉ active.archived := by
  unfold replayedAt keyAt
  cases f.items[i]? with
  | none => simp
  | some item => simp [isReplayed]

theorem keyAt_of_lt (f : Frame) (i : ℕ) (hi : i < f.items.length) :
    ∃ key, keyAt f i = some key := by
  simp [keyAt, List.getElem?_eq_getElem hi]

/-- Covered, archived or replayed, but always as a whole. -/
theorem group_trichotomy (ha : Accepted f checkpoint current) {archived : List ContextItemKey}
    (har : Archives f checkpoint current archived) (g : AtomicGroup) (hg : g ∈ atomicGroups f) :
    (∀ i key, g.Contains i → keyAt f i = some key → key ∈ coveredKeys checkpoint) ∨
    (∀ i key, g.Contains i → keyAt f i = some key → key ∉ coveredKeys checkpoint ∧ key ∈ archived) ∨
    (∀ i key, g.Contains i → keyAt f i = some key →
      key ∉ coveredKeys checkpoint ∧ key ∉ archived) := by
  obtain ⟨hle,hlt⟩ := group_bounds hg
  obtain ⟨first,hfirst⟩ := keyAt_of_lt f g.start (by omega)
  have hstart : g.Contains g.start := ⟨Nat.le_refl _,hle⟩
  by_cases hcov : first ∈ coveredKeys checkpoint
  · left
    intro i key hi hkey
    obtain ⟨item,hitem,rfl⟩ := (keyAt_some f g.start first).mp hfirst
    obtain ⟨other,hother,rfl⟩ := (keyAt_some f i key).mp hkey
    exact (group_whole ha hg hstart hitem hcov).2 i other hi hother
  · have hfree := group_free ha hg hstart hfirst hcov
    right
    by_cases harch : first ∈ archived
    · left
      intro i key hi hkey
      exact ⟨hfree i key hi hkey,archives_group ha har hg hstart hi hfirst hkey harch⟩
    · right
      intro i key hi hkey
      exact ⟨hfree i key hi hkey,fun h => harch (archives_group ha har hg hi hstart hkey hfirst h)⟩

/-- Two items of one span stand in the prompt together. -/
theorem replayed_together (ha : Accepted f checkpoint current)
    (har : Archives f checkpoint current active.archived) {i : ℕ} (hi : i < f.items.length) :
    .item i ∈ layout f checkpoint active (coveredKeys checkpoint) ↔
      .item (spanEnd f.items i) ∈ layout f checkpoint active (coveredKeys checkpoint) := by
  obtain ⟨g,hg,hc⟩ := group_cover f i hi
  have hs := group_closed hg hc
  obtain ⟨a,hka⟩ := keyAt_of_lt f i hi
  obtain ⟨b,hkb⟩ := keyAt_of_lt f (spanEnd f.items i) (Nat.lt_of_le_of_lt hs.2 (group_bounds hg).2)
  simp only [item_mem_layout, replayedAt_iff, hka, hkb, Option.some.injEq, exists_eq_left']
  rcases group_trichotomy ha har g hg with h | h | h
  · simp [h i a hc hka, h _ b hs hkb]
  · simp [h i a hc hka, h _ b hs hkb]
  · simp [h i a hc hka, h _ b hs hkb]

end Maple.Compaction.Projection

import Maple.Lib.Tiling
import Maple.Compaction.Items

/-!
# Atomic groups

A tool call and its output, or a reasoning item and the reply it belongs to, are
a span of positions; spans that overlap merge. The groups tile the conversation
and no span crosses a group boundary, so a group is the smallest piece that can
be covered, archived or replayed.
-/

set_option autoImplicit false

namespace Maple.Compaction.Groups
open Tiling Items List

/-- A finished historical attempt without its counterpart stands alone. -/
def pairs (item : ItemMeta) : Bool := !(item.historicalUnmatched && item.settled)

def callId (item : ItemMeta) : Option Uuid :=
  if pairs item && item.key.kind = .toolCall then some (item.toolCallId.getD item.key.uuid)
  else none

def outputId (item : ItemMeta) : Option Uuid :=
  if pairs item && item.key.kind = .toolOutput then item.toolCallId else none

def lastIndexLoop (p : ItemMeta → Bool) : List ItemMeta → ℕ → Option ℕ → Option ℕ
  | [], _, found => found
  | item::items, i, found => lastIndexLoop p items (i+1) (if p item then some i else found)

def calls (items : List ItemMeta) (id : Uuid) : Option ℕ :=
  lastIndexLoop (fun item => callId item = some id) items 0 none

def outputs (items : List ItemMeta) (id : Uuid) : Option ℕ :=
  lastIndexLoop (fun item => outputId item = some id) items 0 none

/-- The first reply of the same response, unless a user item or a tool output of
that response comes before it. -/
def attachment (response : Option Uuid) : List ItemMeta → ℕ → Option ℕ
  | [], _ => none
  | next::rest, j =>
    if next.responseUuid ≠ response then attachment response rest (j+1)
    else match next.key.kind with
      | .assistant => some j
      | .toolCall => some j
      | .user => none
      | .toolOutput => none
      | .reasoning => attachment response rest (j+1)

def matchedOutput (items : List ItemMeta) (i : ℕ) (item : ItemMeta) : Option ℕ :=
  match callId item with
  | none => none
  | some id =>
    if calls items id = some i then (outputs items id).filter (fun output => i < output) else none

def spanEnd (items : List ItemMeta) (i : ℕ) : ℕ :=
  match items[i]? with
  | none => i
  | some item =>
    match item.key.kind with
    | .toolCall => (matchedOutput items i item).getD i
    | .reasoning => (attachment item.responseUuid (items.drop (i+1)) (i+1)).getD i
    | _ => i

def incomplete (items : List ItemMeta) (i : ℕ) : Bool :=
  match items[i]? with
  | none => false
  | some item =>
    (pairs item && item.key.kind = .toolOutput && item.toolCallId.isNone) ||
    (match callId item with
      | none => false
      | some id => calls items id = some i && (matchedOutput items i item).isNone) ||
    (match outputId item with
      | none => false
      | some id => outputs items id = some i &&
          (match calls items id with
            | none => true
            | some call => i ≤ call))

structure AtomicGroup where
  start : ℕ
  stop : ℕ
  complete : Bool
  deriving DecidableEq, Repr

def AtomicGroup.span (g : AtomicGroup) : ℕ × ℕ := (g.start, g.stop)

def AtomicGroup.Contains (g : AtomicGroup) (i : ℕ) : Prop := g.start ≤ i ∧ i ≤ g.stop

def atomicGroups (f : Frame) : List AtomicGroup :=
  (mergeFrom (spanEnd f.items) f.items.length).map (fun g =>
    ⟨g.1, g.2, (List.range' g.1 (g.2+1-g.1)).all (fun i => !incomplete f.items i)⟩)

variable {items : List ItemMeta} {k : ℕ}

theorem lastIndexLoop_lt {p : ItemMeta → Bool} (i n : ℕ) (found : Option ℕ)
    (hf : ∀ k, found = some k → k < n) (hn : i+items.length = n)
    (h : lastIndexLoop p items i found = some k) : k < n := by
  induction items generalizing i found with
  | nil => exact hf k h
  | cons item items ih =>
    rw [length_cons] at hn
    refine ih (i+1) _ ?_ (by omega) h
    intro k hk
    split_ifs at hk
    · cases hk
      omega
    · exact hf k hk

theorem attachment_bounds {response : Option Uuid} (j : ℕ)
    (h : attachment response items j = some k) : j ≤ k ∧ k < j+items.length := by
  induction items generalizing j with
  | nil => simp [attachment] at h
  | cons next rest ih =>
    unfold attachment at h
    rw [length_cons]
    split_ifs at h with hr
    · have := ih _ h
      omega
    split at h
    · cases h
      omega
    · cases h
      omega
    · cases h
    · cases h
    · have := ih _ h
      omega

variable {i : ℕ}

theorem matchedOutput_bounds {item : ItemMeta} (h : matchedOutput items i item = some k) :
    i < k ∧ k < items.length := by
  unfold matchedOutput at h
  split at h
  · cases h
  rename_i id hid
  split_ifs at h with hc
  obtain ⟨ho,hlt⟩ := Option.filter_eq_some_iff.mp h
  refine ⟨by simpa using hlt,?_⟩
  exact lastIndexLoop_lt 0 items.length none (by simp) (by omega) ho

theorem spanEnd_bounds (items : List ItemMeta) (i : ℕ) (hi : i < items.length) :
    i ≤ spanEnd items i ∧ spanEnd items i < items.length := by
  unfold spanEnd
  rw [List.getElem?_eq_getElem hi]
  simp only
  split
  · cases hm : matchedOutput items i items[i] with
    | none => simpa using hi
    | some k =>
      have := matchedOutput_bounds hm
      simp only [Option.getD_some]
      omega
  · cases ha : attachment items[i].responseUuid (items.drop (i+1)) (i+1) with
    | none => simpa using hi
    | some k =>
      have := attachment_bounds _ ha
      rw [length_drop] at this
      simp only [Option.getD_some]
      omega
  · exact ⟨Nat.le_refl _,hi⟩

theorem groups_spans (f : Frame) :
    (atomicGroups f).map AtomicGroup.span = mergeFrom (spanEnd f.items) f.items.length := by
  simp [atomicGroups, AtomicGroup.span, Function.comp_def]

theorem groups_tile (f : Frame) :
    Tiles 0 ((atomicGroups f).map AtomicGroup.span) f.items.length := by
  rw [groups_spans]
  exact mergeFrom_tiles _ _ (spanEnd_bounds f.items)

variable {f : Frame} {g : AtomicGroup}

theorem group_bounds (hg : g ∈ atomicGroups f) : g.start ≤ g.stop ∧ g.stop < f.items.length :=
  (tiles_bounds _ (groups_tile f) (mem_map_of_mem hg)).2

theorem group_cover (f : Frame) (i : ℕ) (hi : i < f.items.length) :
    ∃ g ∈ atomicGroups f, g.Contains i := by
  obtain ⟨s,hs,hc⟩ := tiles_cover _ _ _ (groups_tile f) i (Nat.zero_le _) hi
  obtain ⟨g,hg,rfl⟩ := mem_map.mp hs
  exact ⟨g,hg,hc⟩

theorem group_unique {h : AtomicGroup} (hg : g ∈ atomicGroups f) (hh : h ∈ atomicGroups f)
    (hi : g.Contains i) (hj : h.Contains i) : g = h := by
  have hspan := tiles_unique (groups_tile f) (mem_map_of_mem hg) (mem_map_of_mem hh) hi hj
  obtain ⟨a,-,rfl⟩ := mem_map.mp hg
  obtain ⟨b,-,rfl⟩ := mem_map.mp hh
  obtain ⟨h1,h2⟩ := Prod.mk.inj hspan
  simp only at h1 h2
  rw [h1, h2]

theorem group_closed (hg : g ∈ atomicGroups f) (hi : g.Contains i) :
    g.Contains (spanEnd f.items i) := by
  have hmem : g.span ∈ mergeFrom (spanEnd f.items) f.items.length := by
    rw [← groups_spans]
    exact mem_map_of_mem hg
  have hb := group_bounds hg
  have hlt : i < f.items.length := Nat.lt_of_le_of_lt hi.2 hb.2
  have hclosed := mergeFrom_closed _ _ (fun j hj => (spanEnd_bounds f.items j hj).2) hmem hi
  exact ⟨Nat.le_trans hi.1 (spanEnd_bounds f.items i hlt).1,hclosed⟩

def CutPoint (f : Frame) (c : ℕ) : Prop := ∀ g ∈ atomicGroups f, g.stop < c ∨ c ≤ g.start

theorem cutPoint_iff (f : Frame) (c : ℕ) :
    CutPoint f c ↔ Cut ((atomicGroups f).map AtomicGroup.span) c := by
  constructor
  · intro h s hs
    obtain ⟨g,hg,rfl⟩ := mem_map.mp hs
    exact h g hg
  · intro h g hg
    exact h g.span (mem_map_of_mem hg)

theorem group_cuts (hg : g ∈ atomicGroups f) : CutPoint f g.start ∧ CutPoint f (g.stop+1) := by
  have h := tiles_cut _ (groups_tile f) (mem_map_of_mem hg)
  exact ⟨(cutPoint_iff f _).mpr h.1,(cutPoint_iff f _).mpr h.2⟩

end Maple.Compaction.Groups

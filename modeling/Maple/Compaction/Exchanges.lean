import Maple.Compaction.Projection

/-!
# No exchange is split

For every accepted checkpoint and every window a request can hold, a group is
covered, archived or replayed as a whole. In the prompt, a tool call therefore
stands with its output and a reasoning item with its reply.
-/

set_option autoImplicit false

namespace Maple.Compaction.Exchanges
open Items Groups Coverage Window Archive Projection

structure Whole (f : Frame) (covered archived : List ContextItemKey) : Prop where
  groups : ∀ g ∈ atomicGroups f,
    (∀ i key, g.Contains i → keyAt f i = some key → key ∈ covered) ∨
    (∀ i key, g.Contains i → keyAt f i = some key → key ∉ covered ∧ key ∈ archived) ∨
    (∀ i key, g.Contains i → keyAt f i = some key → key ∉ covered ∧ key ∉ archived)
  covered : ∀ key ∈ covered, key ∉ archived
  current : ∀ current g, f.position f.currentUser = some current → g ∈ atomicGroups f →
    g.Contains current → ∀ i key, g.start ≤ i → keyAt f i = some key → key ∉ archived

/-- What a prompt made of `pieces` shows of a conversation. -/
structure Faithful (f : Frame) (checkpoint : Option CheckpointPayload) (active : ActiveContext)
    (covered : List ContextItemKey) (pieces : List Piece) : Prop where
  calls : ∀ i item output, f.items[i]? = some item → matchedOutput f.items i item = some output →
    (.item i ∈ pieces ↔ .item output ∈ pieces)
  reasoning : ∀ i item reply, f.items[i]? = some item → item.key.kind = .reasoning →
    attachment item.responseUuid (f.items.drop (i+1)) (i+1) = some reply →
    (.item i ∈ pieces ↔ .item reply ∈ pieces)
  items : pieces.filterMap Piece.index =
    (List.range f.items.length).filter (replayedAt f active covered)
  memory : pieces.count .activeSummary =
    if ∃ part, checkpoint.bind CheckpointPayload.active = some part ∧
      ∀ anchor, part.anchor = some anchor → anchor ∉ active.archived then 1 else 0

variable {items : List ItemMeta}

theorem spanEnd_call {i output : ℕ} {item : ItemMeta} (hi : items[i]? = some item)
    (h : matchedOutput items i item = some output) : spanEnd items i = output := by
  have hkind : item.key.kind = .toolCall := by
    unfold matchedOutput callId at h
    split at h
    · cases h
    · rename_i id hid
      split_ifs at hid with hk
      rw [Bool.and_eq_true, decide_eq_true_eq] at hk
      exact hk.2
  simp [spanEnd, hi, hkind, h]

theorem spanEnd_reasoning {i reply : ℕ} {item : ItemMeta}
    (hi : items[i]? = some item) (hk : item.key.kind = .reasoning)
    (h : attachment item.responseUuid (items.drop (i+1)) (i+1) = some reply) :
    spanEnd items i = reply := by
  simp [spanEnd, hi, hk, h]

/-- No exchange is split, in any window and in any prompt. -/
theorem exchanges_never_split {V : Type} (lib : Library V) (f : Frame)
    (checkpoint : Option CheckpointPayload) (covered : List ContextItemKey)
    (hv : validatedCoverage f checkpoint = .ok covered) (active : ActiveContext)
    (h : Selected lib f checkpoint active) :
    Whole f covered active.archived ∧
    (∀ (s : ContextSnapshot V) (budget : Option ℕ) (next : ActiveContext), s.frame = f →
      refit lib s checkpoint active budget = .ok next →
      ∀ key ∈ active.archived, key ∈ next.archived) ∧
    (∀ (s : ContextSnapshot V) (messages : List V) (tokens : ℕ), s.frame = f →
      project lib s checkpoint active = .ok (messages, tokens) →
      ∃ pieces, messages = pieces.flatMap (pieceMessages lib s checkpoint) ∧
        Faithful f checkpoint active covered pieces) := by
  obtain ⟨rfl,current,ha⟩ := (validatedCoverage_ok_iff f checkpoint covered).mp hv
  have har := selected_archives ha h
  refine ⟨⟨?_,?_,?_⟩,?_,?_⟩
  · exact group_trichotomy ha har
  · intro key hk hin
    exact archives_uncovered har hin hk
  · intro c g hc hg hcont i key hi hkey hin
    rw [ha.position] at hc
    cases hc
    have := archives_before ha har hg hcont hkey hin
    omega
  · intro s budget next hs hr
    exact refit_mono hr
  · rintro s messages tokens rfl hp
    refine ⟨_,project_layout hv hp,?_,?_,?_,?_⟩
    · intro i item output hi ho
      have hlt := (List.getElem?_eq_some_iff.mp hi).1
      rw [replayed_together ha har hlt,
        spanEnd_call hi ho]
    · intro i item reply hi hk hr
      have hlt := (List.getElem?_eq_some_iff.mp hi).1
      rw [replayed_together ha har hlt,
        spanEnd_reasoning hi hk hr]
    · exact layout_index s.frame checkpoint active _
    · exact active_summary_count ha active _

def sampleLibrary : Library String := ⟨fun _ => 50, id, id, 50⟩

def sampleItem (kind : ContextItemKind) (uuid response : Uuid) (call : Option Uuid) :
    ContextItem String :=
  ⟨⟨⟨kind, uuid⟩, some response, true, call, false, false⟩, [toString uuid], [toString uuid], 100,
    true⟩

/-- An exchange with a tool, one with reasoning, and a new question. -/
def sampleSnapshot : ContextSnapshot String :=
  ⟨["instructions"], 0,
    [sampleItem .user 1 10 none, sampleItem .toolCall 2 10 none, sampleItem .toolOutput 3 10 (some 2),
      sampleItem .user 4 11 none, sampleItem .reasoning 5 11 none, sampleItem .assistant 6 11 none,
      sampleItem .user 7 12 none], ⟨.user, 7⟩, 12⟩

def sampleActive : ActiveContext :=
  ⟨[⟨.toolCall, 2⟩, ⟨.toolOutput, 3⟩], some ⟨.user, 1⟩, true⟩

theorem exchanges_never_split_sample :
    validatedCoverage sampleSnapshot.frame none = .ok [] ∧
    Selected sampleLibrary sampleSnapshot.frame none sampleActive ∧
    Whole sampleSnapshot.frame [] sampleActive.archived :=
  have hv : validatedCoverage sampleSnapshot.frame none = .ok [] := by rfl
  have hs : Selected sampleLibrary sampleSnapshot.frame none sampleActive :=
    .select sampleSnapshot (some 600) sampleActive rfl (by rfl)
  ⟨hv,hs,(exchanges_never_split sampleLibrary sampleSnapshot.frame none [] hv sampleActive hs).1⟩

end Maple.Compaction.Exchanges

import Mathlib.Algebra.Order.BigOperators.Group.List
import Mathlib.Algebra.Order.Ring.Nat
import Maple.Compaction.Projection

/-!
# What a window costs

Without saturation the token counts of a window are plain sums. The estimate of a prompt
counts its items one by one; the window counts them by units and from the current group on.
Both count the same items. What they may count differently is the memory of an older active
section: the estimate follows its anchor, the window follows the tokens of its unit.
-/

set_option autoImplicit false

namespace Maple.Compaction.Budget
open Tiling Items Groups Coverage Compaction.Units Window Archive Projection List

variable {V : Type}

def weigh (items : List (ContextItem V)) : ℕ := (items.map ContextItem.estimatedTokens).sum

theorem weigh_sublist {items others : List (ContextItem V)} (h : items.Sublist others) :
    weigh items ≤ weigh others :=
  (h.map _).sum_le_sum (fun _ _ => Nat.zero_le _)

def partTokens (lib : Library V) (part : Option CheckpointSection) : ℕ :=
  (part.map (sectionTokens lib)).getD 0

theorem parts_sum (lib : Library V) (first second : Option CheckpointSection) :
    ((first.toList++second.toList).map (sectionTokens lib)).sum =
      partTokens lib first+partTokens lib second := by
  cases first <;> cases second <;> simp [partTokens]

theorem partTokens_filter (lib : Library V) (part : Option CheckpointSection)
    (p : CheckpointSection → Bool) : partTokens lib (part.filter p) ≤ partTokens lib part := by
  cases part with
  | none => exact Nat.le_refl _
  | some part => cases hp : p part <;> simp [partTokens, Option.filter, hp]

theorem satSum_small (start : ℕ) (values : List ℕ) (h : start+values.sum ≤ usizeMax) :
    satSum start values = start+values.sum := by
  rw [satSum_eq start values (by omega)]
  omega

/-- No sum over the snapshot and its summaries leaves the machine word. -/
def Unsaturated (lib : Library V) (s : ContextSnapshot V)
    (checkpoint : Option CheckpointPayload) : Prop :=
  s.instructionTokens+weigh s.items+lib.countTokens truncationMarker+
    partTokens lib (checkpoint.bind CheckpointPayload.history)+
    partTokens lib (checkpoint.bind CheckpointPayload.active) ≤ usizeMax

/-- What a window is selected from: a conversation, a checkpoint that is accepted for it, and
token counts that do not saturate. -/
structure Setting (V : Type) where
  lib : Library V
  s : ContextSnapshot V
  checkpoint : Option CheckpointPayload
  valid : ∃ covered, validatedCoverage s.frame checkpoint = .ok covered
  unsaturated : Unsaturated lib s checkpoint

namespace Setting
variable (p : Setting V)

def covered : List ContextItemKey := coveredKeys p.checkpoint

def current : ℕ := (p.s.frame.position p.s.currentUser).getD 0

def marker : ℕ := p.lib.countTokens truncationMarker

def historyTokens : ℕ := partTokens p.lib (p.checkpoint.bind CheckpointPayload.history)

/-- The memory of an active section that is not anchored at the current user. -/
def memory : ℕ := partTokens p.lib (previousActive p.s.frame p.checkpoint)

/-- The memory of the active section of the current turn. -/
def turnMemory : ℕ :=
  if previousActive p.s.frame p.checkpoint = none
  then partTokens p.lib (p.checkpoint.bind CheckpointPayload.active) else 0

/-- The estimates of the items that are neither covered nor hidden. -/
def raw (hidden : List ContextItemKey) (items : List (ContextItem V)) : ℕ :=
  weigh (items.filter (fun item => item.key ∉ p.covered ∧ item.key ∉ hidden))

def unitRaw (hidden : List ContextItemKey) (u : WindowUnit) : ℕ :=
  p.raw hidden (slice p.s.items u.start u.stop)

def unitMemory (hidden : List ContextItemKey) (u : WindowUnit) : ℕ :=
  if u.carriesActiveMemory = true ∧ 0 < p.unitRaw hidden u then p.memory else 0

def unitTokens (hidden : List ContextItemKey) (u : WindowUnit) : ℕ :=
  p.unitRaw hidden u+p.unitMemory hidden u

/-- What must be sent of the items from `start` on, without the marker. -/
def required (start : ℕ) : ℕ :=
  p.s.instructionTokens+p.raw [] (p.s.items.drop start)+p.historyTokens+p.turnMemory

theorem accepted : Accepted p.s.frame p.checkpoint p.current := by
  obtain ⟨covered,hv⟩ := p.valid
  obtain ⟨rfl,current,ha⟩ := (validatedCoverage_ok_iff _ _ _).mp hv
  have hcurrent : p.current = current := by
    rw [Setting.current, show p.s.frame.position p.s.currentUser = some current from ha.position]
    rfl
  rwa [hcurrent]

theorem coverage : validatedCoverage p.s.frame p.checkpoint = .ok p.covered :=
  (validatedCoverage_ok_iff _ _ _).mpr ⟨rfl,p.current,p.accepted⟩

theorem memory_turn : p.memory+p.turnMemory =
    partTokens p.lib (p.checkpoint.bind CheckpointPayload.active) := by
  unfold memory turnMemory
  cases hp : previousActive p.s.frame p.checkpoint with
  | none => simp [partTokens]
  | some part => simp [(Option.filter_eq_some_iff.mp hp).1]

section Raw
variable (hidden : List ContextItemKey) (items : List (ContextItem V))

theorem raw_le : p.raw hidden items ≤ weigh items := weigh_sublist filter_sublist

theorem raw_append (others : List (ContextItem V)) :
    p.raw hidden (items++others) = p.raw hidden items+p.raw hidden others := by
  simp only [raw, weigh, filter_append, map_append, sum_append]

theorem raw_flatMap {α : Type} (f : α → List (ContextItem V)) (l : List α) :
    p.raw hidden (l.flatMap f) = (l.map (fun a => p.raw hidden (f a))).sum := by
  induction l with
  | nil => rfl
  | cons a l ih => rw [flatMap_cons, raw_append, ih, map_cons, sum_cons]

variable {hidden} {items}

theorem raw_congr {others : List ContextItemKey}
    (h : ∀ item ∈ items, item.key ∉ p.covered → (item.key ∈ hidden ↔ item.key ∈ others)) :
    p.raw hidden items = p.raw others items := by
  refine congrArg weigh (filter_congr (fun item hitem => ?_))
  by_cases hcovered : item.key ∈ p.covered
  · simp [hcovered]
  · simp [hcovered, h item hitem hcovered]

theorem raw_gone (h : ∀ item ∈ items, item.key ∉ p.covered → item.key ∈ hidden) :
    p.raw hidden items = 0 := by
  have hnil : items.filter (fun item => item.key ∉ p.covered ∧ item.key ∉ hidden) = [] := by
    refine filter_eq_nil_iff.mpr (fun item hitem => ?_)
    simpa using h item hitem
  rw [raw, hnil]
  rfl

end Raw

/-- The estimate of a prompt, item by item. -/
theorem estimate_sum (active : ActiveContext) :
    projectedTokenEstimate p.lib p.s p.checkpoint active p.covered =
      p.s.instructionTokens+p.raw active.archived p.s.items+
        (if active.truncated then p.marker else 0)+p.historyTokens+
        partTokens p.lib (visibleActiveSection p.checkpoint active) := by
  have hs := p.unsaturated
  have hraw := p.raw_le active.archived p.s.items
  have hvisible : partTokens p.lib (visibleActiveSection p.checkpoint active) ≤
    partTokens p.lib (p.checkpoint.bind CheckpointPayload.active) := partTokens_filter _ _ _
  have hmarker : (if active.truncated then p.marker else 0) ≤ p.marker := by split_ifs <;> omega
  have hitems : ((p.s.items.filter (fun item => isReplayed p.covered active item.toItemMeta)).map
      ContextItem.estimatedTokens).sum = p.raw active.archived p.s.items := by
    refine congrArg weigh (filter_congr (fun item _ => ?_))
    simp [isReplayed]
  have hparts := parts_sum p.lib (p.checkpoint.bind CheckpointPayload.history)
    (visibleActiveSection p.checkpoint active)
  unfold Unsaturated at hs
  unfold marker at hmarker
  unfold projectedTokenEstimate historyTokens marker
  dsimp only
  rw [satSum_small p.s.instructionTokens _ (by rw [hitems]; omega), hitems, satAdd,
    Nat.min_eq_left (by omega), satSum_small _ _ (by rw [hparts]; omega), hparts]
  omega

theorem required_sum (start : ℕ) :
    requiredTokens p.lib p.s p.checkpoint p.covered start = p.required start ∧
      p.required start+p.marker ≤ usizeMax := by
  have hs := p.unsaturated
  have hraw : p.raw [] (p.s.items.drop start) ≤ weigh p.s.items :=
    Nat.le_trans (p.raw_le _ _) (weigh_sublist (drop_sublist _ _))
  have hturn := p.memory_turn
  have hitems : (((p.s.items.drop start).filter (fun item => item.key ∉ p.covered)).map
      ContextItem.estimatedTokens).sum = p.raw [] (p.s.items.drop start) := by
    refine congrArg weigh (filter_congr (fun item _ => ?_))
    simp
  have hactive : partTokens p.lib (if previousActive p.s.frame p.checkpoint = none
      then p.checkpoint.bind CheckpointPayload.active else none) = p.turnMemory := by
    unfold turnMemory
    split_ifs <;> rfl
  have hparts := parts_sum p.lib (p.checkpoint.bind CheckpointPayload.history)
    (if previousActive p.s.frame p.checkpoint = none
      then p.checkpoint.bind CheckpointPayload.active else none)
  rw [hactive] at hparts
  unfold Unsaturated at hs
  unfold requiredTokens required historyTokens marker
  dsimp only
  rw [satSum_small p.s.instructionTokens _ (by rw [hitems]; omega), hitems,
    satSum_small _ _ (by rw [hparts]; omega), hparts]
  exact ⟨by omega,by omega⟩

theorem tokensOf_sum (hidden : List ContextItemKey) :
    tokensOf p.lib p.s p.checkpoint p.covered hidden = p.unitTokens hidden := by
  funext u
  have hs := p.unsaturated
  have hturn := p.memory_turn
  have hle : p.unitRaw hidden u ≤ weigh p.s.items :=
    Nat.le_trans (p.raw_le _ _) (weigh_sublist ((take_sublist _ _).trans (drop_sublist _ _)))
  unfold Unsaturated at hs
  have hraw : replayedTokens p.covered hidden (slice p.s.items u.start u.stop) =
      p.unitRaw hidden u := by
    rw [replayedTokens, satSum_small]
    · exact Nat.zero_add _
    · rw [Nat.zero_add]
      exact Nat.le_trans hle (by omega)
  unfold tokensOf unitTokens unitMemory
  simp only [hraw]
  cases hc : u.carriesActiveMemory with
  | false => simp
  | true =>
    cases hp : previousActive p.s.frame p.checkpoint with
    | none => simp [memory, hp, partTokens]
    | some part =>
      have hpart : p.memory = sectionTokens p.lib part := by simp [memory, hp, partTokens]
      by_cases hpos : 0 < p.unitRaw hidden u
      · simp only [hpos, if_true, and_self, hpart, satAdd]
        exact Nat.min_eq_left (by omega)
      · simp [hpos]

end Setting

end Maple.Compaction.Budget

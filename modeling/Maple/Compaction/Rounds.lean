import Maple.Compaction.Steps

/-!
# Rounds of compaction

A plan over an accepted checkpoint can be completed, as a whole or by its first
work only, into an accepted checkpoint that covers more. Planning by force and
completing the first work therefore comes to an empty plan.
-/

set_option autoImplicit false

namespace Maple.Compaction.Rounds
open Items Groups Coverage Units Window Archive Projection Plan Selection Growth Completion Steps

section Plan
variable {V : Type} (lib : Library V) (s : ContextSnapshot V)
variable (checkpoint : Option CheckpointPayload) (active : ActiveContext)
variable (policy : CompactionPolicy) (force : Bool) (current : ℕ)

abbrev historyOf : List (ContextItem V) :=
  planHistory lib s checkpoint active (coveredKeys checkpoint) policy (atomicGroups s.frame) current

abbrev itemsOf : List (ContextItem V) :=
  planActive lib s checkpoint active (coveredKeys checkpoint) policy (atomicGroups s.frame) current

abbrev foldsOf : Bool :=
  foldsPreviousActive s checkpoint current (historyOf lib s checkpoint active policy current)

abbrev dropsOf (start : Option ContextItemKey) : Bool :=
  dropsPreviousActive s checkpoint active (historyOf lib s checkpoint active policy current)
    (foldsOf lib s checkpoint active policy current) start

variable (ha : Accepted s.frame checkpoint current)
include ha

variable {checkpoint} {current}

theorem plan_accepted : plan lib s checkpoint active policy force =
    if !force && projectedTokenEstimate lib s checkpoint active (coveredKeys checkpoint) ≤
      policy.triggerTokens then .ok ⟨[]⟩
    else match historyActiveStart s checkpoint (coveredKeys checkpoint)
        (historyOf lib s checkpoint active policy current) with
      | .error e => .error e
      | .ok start =>
        match historyWork lib s checkpoint (historyOf lib s checkpoint active policy current)
          (foldsOf lib s checkpoint active policy current)
          (dropsOf lib s checkpoint active policy current start) start with
        | .error e => .error e
        | .ok works => .ok ⟨works++activeWork s checkpoint
            (itemsOf lib s checkpoint active policy current)
            (foldsOf lib s checkpoint active policy current ||
              dropsOf lib s checkpoint active policy current start)⟩ := by
  unfold plan
  rw [(validatedCoverage_ok_iff _ _ _).mpr ⟨rfl,current,ha⟩]
  dsimp only
  cases hi : itemPosition s.frame s.currentUser with
  | error e => cases hi.symm.trans (current_position s ha)
  | ok found =>
    cases hi.symm.trans (current_position s ha)
    rfl

variable {active}

theorem plan_cases {p : ContextPlan V} (h : plan lib s checkpoint active policy force = .ok p) :
    p.summaryWork = [] ∨ ∃ start works, historyActiveStart s checkpoint (coveredKeys checkpoint)
        (historyOf lib s checkpoint active policy current) = .ok start ∧
      historyWork lib s checkpoint (historyOf lib s checkpoint active policy current)
        (foldsOf lib s checkpoint active policy current)
        (dropsOf lib s checkpoint active policy current start) start = .ok works ∧
      p.summaryWork = works++activeWork s checkpoint
        (itemsOf lib s checkpoint active policy current)
        (foldsOf lib s checkpoint active policy current ||
          dropsOf lib s checkpoint active policy current start) := by
  rw [plan_accepted lib s active policy force ha] at h
  split at h
  · cases h
    exact Or.inl rfl
  split at h
  · cases h
  rename_i start hstart
  split at h
  · cases h
  rename_i works hworks
  cases h
  exact Or.inr ⟨start,works,hstart,hworks,rfl⟩

variable (har : Archives s.frame checkpoint current active.archived)
include har

/-- If the anchor is selected, so is the item its memory is put behind. -/
theorem insertion_selected (hr : InsertionReady s.frame checkpoint)
    (hf : foldsOf lib s checkpoint active policy current = true) :
    ∃ part after, previousActive s.frame checkpoint = some part ∧
      activeMemoryAfter s.frame part = some after ∧
      after ∈ historyKeys (historyOf lib s checkpoint active policy current) := by
  obtain ⟨part,anchor,hp,hanchor,hmem⟩ := folds_anchor hf
  have hfresh := history_fresh lib s active ha har policy
  obtain ⟨a,-,hpos,-,-,hlt⟩ := hfresh.free anchor hmem
  obtain ⟨after,i,hafter,hi,hai⟩ := insertion_after ha hanchor hpos
  refine ⟨part,after,hp,hafter,?_⟩
  have hmem' := mem_planHistory lib s checkpoint active (coveredKeys checkpoint) policy
    (atomicGroups s.frame) current
  obtain ⟨u,hu,j,hj,hkey,hcov,harch⟩ := (hmem' anchor).mp hmem
  obtain rfl : j = a := by
    rw [keyAt_position ha.keys, hpos] at hkey
    exact (Option.some.inj hkey).symm
  have hunit := (selectedUnits_mem lib s checkpoint active (coveredKeys checkpoint) policy
    (atomicGroups s.frame) current u hu).1
  obtain ⟨hfree,hiff⟩ := insertion_unit ha hr part anchor after j i hp
    hanchor hpos hlt hafter hi hai u hunit
  have hki := (keyAt_position ha.keys i after).mpr hi
  exact (hmem' after).mpr ⟨u,hu,i,hiff.mp hj,hki,hfree,archives_unit ha har hunit hj (hiff.mp hj)
    hai hkey hki hcov harch⟩

/-- If the section stays open, the item its memory is put behind stays uncovered. -/
theorem insertion_unselected (hr : InsertionReady s.frame checkpoint)
    (start : Option ContextItemKey)
    (hc : (foldsOf lib s checkpoint active policy current || dropsOf lib s checkpoint active policy
      current start) = false)
    {part : CheckpointSection} {anchor after : ContextItemKey} {a : ℕ}
    (hp : previousActive s.frame checkpoint = some part) (hanchor : part.anchor = some anchor)
    (hpos : s.frame.position anchor = some a) (hlt : a < current)
    (hafter : activeMemoryAfter s.frame part = some after) :
    after ∉ historyKeys (historyOf lib s checkpoint active policy current) := by
  intro hin
  obtain ⟨hfolds,hdrops⟩ := Bool.or_eq_false_iff.mp hc
  obtain ⟨after',i,hafter',hi,hai⟩ := insertion_after ha hanchor hpos
  rw [hafter] at hafter'
  cases hafter'
  have hfresh := history_fresh lib s active ha har policy
  have hmem := mem_planHistory lib s checkpoint active (coveredKeys checkpoint) policy
    (atomicGroups s.frame) current
  obtain ⟨u,hu,j,hj,hkey,-⟩ := (hmem after).mp hin
  obtain rfl : j = i := by
    rw [keyAt_position ha.keys, hi] at hkey
    exact (Option.some.inj hkey).symm
  have hunit := (selectedUnits_mem lib s checkpoint active (coveredKeys checkpoint) policy
    (atomicGroups s.frame) current u hu).1
  obtain ⟨-,hiff⟩ := insertion_unit ha hr part anchor after a j hp
    hanchor hpos hlt hafter hi hai u hunit
  obtain ⟨anchor',-,hanchor',-,-,hfree,-⟩ := older_section ha hp
  rw [hanchor] at hanchor'
  cases hanchor'
  have harch : anchor ∉ active.archived := by
    intro harch
    have hne : historyOf lib s checkpoint active policy current ≠ [] := by
      intro hnil
      rw [hnil] at hin
      simp [historyKeys] at hin
    simp [dropsOf, dropsPreviousActive, hfolds, hp, hanchor, harch, hne] at hdrops
  have hselected := (hmem anchor).mpr ⟨u,hu,a,hiff.mpr hj,
    (keyAt_position ha.keys a anchor).mpr hpos,hfree,harch⟩
  have := folds_of_anchor ha hfresh hp hanchor hselected
  exact Bool.false_ne_true (hfolds.symm.trans this)

/-- Planning succeeds if the memory of an older section has a place. -/
theorem plan_total (hr : InsertionReady s.frame checkpoint) :
    ∃ p, plan lib s checkpoint active policy force = .ok p := by
  rw [plan_accepted lib s active policy force ha]
  split
  · exact ⟨_,rfl⟩
  have hfresh := history_fresh lib s active ha har policy
  obtain ⟨start,hstart⟩ := historyActiveStart_total ha
    (historyOf lib s checkpoint active policy current) (fun key hk => by
      obtain ⟨i,-,hi,-⟩ := hfresh.free key hk
      exact ⟨i,hi⟩)
  rw [hstart]
  simp only
  have hfold : ∃ items, foldMemory lib s checkpoint (foldsOf lib s checkpoint active policy current)
      (historyOf lib s checkpoint active policy current) = .ok items := by
    unfold foldMemory
    split
    · rename_i part hfolds hp
      obtain ⟨part',after,hp',hafter,hmem⟩ := insertion_selected lib s policy ha har hr hfolds
      rw [hp] at hp'
      cases hp'
      obtain ⟨items,hi⟩ := insertMemory_total (summaryMessage lib part) hmem
      rw [hafter, hi]
      exact ⟨items,rfl⟩
    · exact ⟨_,rfl⟩
  obtain ⟨items,hfold⟩ := hfold
  obtain ⟨works,hworks⟩ := historyWork_total lib
    (dropsOf lib s checkpoint active policy current start) start hfold
  rw [hworks]
  exact ⟨_,rfl⟩

end Plan

/-- A history work that leaves an older section open leaves its insertion point uncovered. -/
def Keeps {V : Type} (f : Frame) (c : CheckpointPayload) (current : ℕ) (w : SummaryWork V)
    (new : List ContextItemKey) : Prop :=
  InsertionReady f (some c) → ¬Closes w → ∀ part anchor after a,
    previousActive f (some c) = some part → part.anchor = some anchor →
    f.position anchor = some a → a < current → activeMemoryAfter f part = some after → after ∉ new

/-- The forms a plan takes over the checkpoint `c`. -/
inductive PlanShape {V : Type} (f : Frame) (c : CheckpointPayload) (current : ℕ) :
    List (SummaryWork V) → Prop
  | none : PlanShape f c current []
  | history (w : SummaryWork V) (new : List ContextItemKey) (h : HistoryStep f c current w new)
      (hk : Keeps f c current w new) : PlanShape f c current [w]
  | active (w : SummaryWork V) (new : List ContextItemKey) (h : ActiveStep f c current w new) :
      PlanShape f c current [w]
  | both (w w' : SummaryWork V) (new new' : List ContextItemKey)
      (h : HistoryStep f c current w new) (hk : Keeps f c current w new)
      (h' : ∀ summary, isBlank summary = false →
        ActiveStep f (completeWork c w summary) current w' new') : PlanShape f c current [w, w']

theorem previousActive_getD (f : Frame) (checkpoint : Option CheckpointPayload) :
    previousActive f (some (checkpoint.getD CheckpointPayload.default)) =
      previousActive f checkpoint := by
  cases checkpoint <;> rfl

theorem insertionReady_getD (f : Frame) (checkpoint : Option CheckpointPayload) :
    InsertionReady f (some (checkpoint.getD CheckpointPayload.default)) ↔
      InsertionReady f checkpoint := by
  unfold InsertionReady
  rw [previousActive_getD, coveredKeys_getD]

theorem fresh_extend {f : Frame} {current : ℕ} {old new items : List ContextItemKey}
    (all : List ContextItemKey) (hi : Fresh f old (fun i => current < i) items)
    (hn : Fresh f old (fun i => i < current) new)
      (hall : ∀ key, key ∈ all ↔ key ∈ old ∨ key ∈ new) :
    Fresh f all (fun i => current < i) items := by
  refine ⟨?_,hi.free,hi.groups⟩
  intro key hk hin
  rcases (hall key).mp hin with h | h
  · exact hi.uncovered key hk h
  · obtain ⟨i,-,hpos,-,-,hgt⟩ := hi.free key hk
    obtain ⟨j,-,hpos',-,-,hlt⟩ := hn.free key h
    rw [hpos] at hpos'
    cases hpos'
    omega

section Shape
variable {V : Type} (lib : Library V) (s : ContextSnapshot V)
variable (checkpoint : Option CheckpointPayload) (active : ActiveContext)
variable (policy : CompactionPolicy) (force : Bool) (current : ℕ)
variable (ha : Accepted s.frame checkpoint current)
variable (har : Archives s.frame checkpoint current active.archived) {checkpoint}

/-- While no older section is open, the active section belongs to the current input. -/
theorem activePrevious_open (h : previousActive s.frame checkpoint = none) :
    (checkpoint.getD CheckpointPayload.default).active = activePrevious s checkpoint := by
  unfold activePrevious
  cases checkpoint with
  | none => rfl
  | some c =>
    simp only [Option.getD_some, Option.bind_some]
    cases hc : c.active with
    | none => rfl
    | some part =>
      have hcur : part.anchor = some s.currentUser := by
        by_contra hne
        have : previousActive s.frame (some c) = some part :=
          (previousActive_some s.frame (some c) part).mpr ⟨hc,hne⟩
        rw [h] at this
        cases this
      simp [Option.filter_some, hcur]

theorem activePrevious_closed {part : CheckpointSection}
    (h : previousActive s.frame checkpoint = some part) : activePrevious s checkpoint = none := by
  obtain ⟨hb,hne⟩ := Option.filter_eq_some_iff.mp h
  have hne' : part.anchor ≠ some s.currentUser := of_decide_eq_true hne
  simp [activePrevious, hb, Option.filter_some, hne']

include ha har

theorem plan_shape {p : ContextPlan V} (h : plan lib s checkpoint active policy force = .ok p) :
    PlanShape s.frame (checkpoint.getD CheckpointPayload.default) current p.summaryWork := by
  rcases plan_cases lib s policy force ha h with
    hnil | ⟨start,works,hstart,hworks,hp⟩
  · rw [hnil]
    exact .none
  have hacc := accepted_getD ha
  have hfresh := history_fresh lib s active ha har policy
  have hitems := active_fresh lib s active ha policy
  have hs : ∀ key, start = some key →
      key ∈ historyKeys (historyOf lib s checkpoint active policy current) := by
    rintro key rfl
    exact historyActiveStart_mem hstart
  rw [hp]
  cases works with
  | nil =>
    rw [List.nil_append]
    cases haw : activeWork s checkpoint (itemsOf lib s checkpoint active policy current)
      (foldsOf lib s checkpoint active policy current ||
        dropsOf lib s checkpoint active policy current start) with
    | nil => exact .none
    | cons w rest =>
      have hempty : (historyOf lib s checkpoint active policy current).isEmpty = true := by
        unfold historyWork at hworks
        by_contra hne
        rw [if_neg hne] at hworks
        split at hworks <;> cases hworks
      have hopen : previousActive s.frame checkpoint = none := by
        have hfolds : foldsOf lib s checkpoint active policy current = false := by
          rw [Bool.eq_false_iff]
          intro hf
          obtain ⟨part,anchor,-,-,hmem⟩ := folds_anchor hf
          rw [List.isEmpty_iff.mp hempty] at hmem
          simp [historyKeys] at hmem
        have hdrops : dropsOf lib s checkpoint active policy current start = false := by
          simp [dropsOf, dropsPreviousActive, hempty]
        rw [hfolds, hdrops] at haw
        unfold activeWork at haw
        split_ifs at haw with hc
        simpa using (Bool.and_eq_true_iff.mp hc).2
      obtain ⟨rfl,hstep⟩ := active_step ha (checkpoint.getD CheckpointPayload.default)
        (by rw [coveredKeys_getD]; exact hitems) (activePrevious_open s hopen) haw
      exact .active w _ hstep
  | cons w rest =>
    obtain ⟨rfl,hstep,hcl⟩ := history_step lib ha active har hfresh hs rfl hworks
    have hkeeps : Keeps s.frame (checkpoint.getD CheckpointPayload.default) current w
        (historyKeys (historyOf lib s checkpoint active policy current)) := by
      intro hr hopen part anchor after a hpart hanchor hpos hlt hafter
      rw [insertionReady_getD] at hr
      rw [previousActive_getD] at hpart
      refine insertion_unselected lib s policy ha har hr start ?_ hpart hanchor hpos hlt hafter
      rw [← hcl]
      simpa [Closes] using hopen
    rw [List.singleton_append]
    cases haw : activeWork s checkpoint (itemsOf lib s checkpoint active policy current)
      (foldsOf lib s checkpoint active policy current ||
        dropsOf lib s checkpoint active policy current start) with
    | nil => exact .history w _ hstep hkeeps
    | cons w' rest' =>
      have hboth : ∀ summary, isBlank summary = false → rest' = [] ∧ ActiveStep s.frame
          (completeWork (checkpoint.getD CheckpointPayload.default) w summary) current w'
          (historyKeys (itemsOf lib s checkpoint active policy current)) := by
        intro summary hb
        obtain ⟨-,hcov⟩ := complete_history _ hacc w _ hb hstep
        refine active_step ha _ ?_ ?_ haw
        · refine fresh_extend _ hitems hfresh ?_
          intro key
          rw [hcov, coveredKeys_getD]
        simp only [completeWork, hstep.kind, hcl]
        cases hprev : previousActive s.frame checkpoint with
        | none =>
          have hc : ¬(foldsOf lib s checkpoint active policy current ||
              dropsOf lib s checkpoint active policy current start) = true := by
            intro hc
            obtain ⟨part,-,-,hpart,-⟩ := closes_before ha active har hfresh hs rfl hc
            rw [hprev] at hpart
            cases hpart
          rw [if_neg hc]
          exact activePrevious_open s hprev
        | some part =>
          have hc : (foldsOf lib s checkpoint active policy current ||
              dropsOf lib s checkpoint active policy current start) = true := by
            unfold activeWork at haw
            split_ifs at haw with hne
            simpa [hprev] using (Bool.and_eq_true_iff.mp hne).2
          rw [if_pos hc, activePrevious_closed s hprev]
      have hrest : rest' = [] := (hboth "." rfl).1
      rw [hrest]
      exact .both w w' _ _ hstep hkeeps (fun summary hb => (hboth summary hb).2)

end Shape

end Maple.Compaction.Rounds

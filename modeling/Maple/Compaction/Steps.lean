import Maple.Compaction.Completion

/-!
# The works of a plan

Every plan over an accepted checkpoint is empty, one history step, one active
step, or a history step followed by an active step for the checkpoint that the
history step leaves.
-/

set_option autoImplicit false

namespace Maple.Compaction.Steps
open Tiling Items Groups Coverage Units Window Archive Projection Plan Selection Growth Completion List

theorem previousActive_some (f : Frame) (checkpoint : Option CheckpointPayload)
    (part : CheckpointSection) : previousActive f checkpoint = some part ↔
      (checkpoint.getD CheckpointPayload.default).active = some part ∧
        part.anchor ≠ some f.currentUser := by
  unfold previousActive
  rw [Option.filter_eq_some_iff]
  cases checkpoint with
  | none => simp [CheckpointPayload.default]
  | some c => simp

theorem insertMemory_keys {V : Type} {after : Option ContextItemKey} {message : V}
    {history : List (ContextItem V)} (items : List (ContextItem V))
    (h : insertMemory after message history = some items) :
    historyKeys items = historyKeys history := by
  induction history generalizing items with
  | nil => simp [insertMemory] at h
  | cons item rest ih =>
    unfold insertMemory at h
    split_ifs at h with hk
    · cases h
      rfl
    · obtain ⟨items',hi,rfl⟩ := Option.map_eq_some_iff.mp h
      have := ih items' hi
      simp only [historyKeys, map_cons] at this ⊢
      rw [this]

theorem insertMemory_total {V : Type} {after : ContextItemKey} (message : V)
    {history : List (ContextItem V)} (h : after ∈ historyKeys history) :
    ∃ items, insertMemory (some after) message history = some items := by
  induction history with
  | nil => simp [historyKeys] at h
  | cons item rest ih =>
    unfold insertMemory
    split_ifs with hk
    · exact ⟨_,rfl⟩
    · rcases mem_cons.mp h with rfl | h
      · exact absurd rfl hk
      · obtain ⟨items,hi⟩ := ih h
        exact ⟨_,by rw [hi]; rfl⟩

section Plan
variable {V : Type} (lib : Library V) (s : ContextSnapshot V)
variable (checkpoint : Option CheckpointPayload) (current : ℕ) {history : List (ContextItem V)}

variable {checkpoint} {s}

theorem historyActiveStart_mem {covered : List ContextItemKey} {key : ContextItemKey}
    (h : historyActiveStart s checkpoint covered history = .ok (some key)) :
    key ∈ historyKeys history := by
  unfold historyActiveStart at h
  split at h
  · cases h
  split at h
  · cases h
  split at h
  · cases h
  obtain ⟨gap,-,hmap⟩ := Option.bind_eq_some_iff.mp (Except.ok.inj h)
  obtain ⟨item,hfind,rfl⟩ := Option.map_eq_some_iff.mp hmap
  simpa using List.find?_some hfind

variable {folds : Bool} {items : List (ContextItem V)}

theorem foldMemory_keys (h : foldMemory lib s checkpoint folds history = .ok items) :
    historyKeys items = historyKeys history := by
  unfold foldMemory at h
  split at h
  · split at h
    · rename_i items' hins
      cases h
      exact insertMemory_keys _ hins
    · cases h
  · cases h
    rfl

theorem historyWork_total (drops : Bool) (start : Option ContextItemKey)
    (h : foldMemory lib s checkpoint folds history = .ok items) :
    ∃ works, historyWork lib s checkpoint history folds drops start = .ok works := by
  unfold historyWork
  by_cases hempty : history.isEmpty = true
  · exact ⟨_,if_pos hempty⟩
  · rw [if_neg hempty, h]
    exact ⟨_,rfl⟩

variable {current}

theorem folds_anchor (h : foldsPreviousActive s checkpoint current history = true) :
    ∃ part anchor, previousActive s.frame checkpoint = some part ∧ part.anchor = some anchor ∧
      anchor ∈ historyKeys history := by
  unfold foldsPreviousActive at h
  cases hp : previousActive s.frame checkpoint with
  | none => simp [hp] at h
  | some part =>
    rw [hp, Option.any_some, Bool.and_eq_true] at h
    cases hanchor : part.anchor with
    | none => simp [hanchor] at h
    | some anchor => exact ⟨part,anchor,rfl,hanchor,by simpa [hanchor] using h.1⟩

variable (ha : Accepted s.frame checkpoint current)
include ha

theorem historyActiveStart_total (history : List (ContextItem V))
    (hh : ∀ key ∈ historyKeys history, ∃ i, s.frame.position key = some i) :
    ∃ start, historyActiveStart s checkpoint (coveredKeys checkpoint) history = .ok start := by
  have hpub : ∃ i, publishedPosition s checkpoint = .ok i := by
    unfold publishedPosition
    split
    · exact ⟨_,rfl⟩
    · rename_i start hstart
      obtain ⟨c,rfl,hcs⟩ := Option.bind_eq_some_iff.mp hstart
      obtain ⟨i,-,hi,-⟩ := covered_item ha (mem_append_left _ ((ha.payload c rfl).start start hcs))
      exact ⟨i,by simp [itemPosition, hi]⟩
  obtain ⟨published,hpub⟩ := hpub
  unfold historyActiveStart
  cases hlast : history.getLast? with
  | none => exact ⟨_,rfl⟩
  | some last =>
    obtain ⟨i,hi⟩ := hh last.key (mem_map_of_mem (List.mem_of_getLast? hlast))
    simp only [hpub, itemPosition, hi]
    exact ⟨_,rfl⟩

variable {part : CheckpointSection} {anchor : ContextItemKey}

/-- If the anchor of an older section is selected, the section folds. -/
theorem folds_of_anchor
    (hf : Fresh s.frame (coveredKeys checkpoint) (fun i => i < current) (historyKeys history))
    (hp : previousActive s.frame checkpoint = some part) (hanchor : part.anchor = some anchor)
    (hmem : anchor ∈ historyKeys history) :
    foldsPreviousActive s checkpoint current history = true := by
  obtain ⟨anchor',a,hanchor',hpos,-,-,hne,hall⟩ := older_section ha hp
  rw [hanchor] at hanchor'
  cases hanchor'
  obtain ⟨i,-,hi,-,-,hlt⟩ := hf.free anchor hmem
  rw [hpos] at hi
  cases hi
  obtain ⟨stop,hmax⟩ := exists_max_section hanchor hpos
  have hle := (max_section ha hp hmax).2
  simp only [foldsPreviousActive, hp, Option.any_some, hanchor, Bool.and_eq_true, decide_eq_true_eq,
    all_eq_true, foldThrough, Option.bind_some, hmax]
  refine ⟨hmem,fun key hkey => ?_⟩
  obtain ⟨k,hk,-,hbefore,-⟩ := hall key hkey
  simp [hk, hle key k (Or.inl hkey) hk, hbefore hlt]

theorem drops_before {active : ActiveContext}
    (har : Archives s.frame checkpoint current active.archived) {start : Option ContextItemKey}
    (hf : Fresh s.frame (coveredKeys checkpoint) (fun i => i < current) (historyKeys history))
    (hs : ∀ key, start = some key → key ∈ historyKeys history)
    (h : dropsPreviousActive s checkpoint active history folds start = true) {a : ℕ}
    (hp : previousActive s.frame checkpoint = some part) (hanchor : part.anchor = some anchor)
    (hpos : s.frame.position anchor = some a) : a < current := by
  simp only [dropsPreviousActive, hp, Option.bind_some, hanchor, Option.any_some, Bool.and_eq_true,
    Bool.or_eq_true, decide_eq_true_eq] at h
  rcases h.2 with harch | hstart
  · obtain ⟨g,hg,hc⟩ := group_cover s.frame current (position_lt ha.position)
    have := archives_before ha har hg hc ((keyAt_position ha.keys _ _).mpr hpos) harch
    have := hc.1
    omega
  · cases start with
    | none => simp at hstart
    | some key =>
      obtain ⟨i,-,hi,-,-,hlt⟩ := hf.free key (hs key rfl)
      simp only [Option.any_some, hpos, hi, positionLt, decide_eq_true_eq] at hstart
      omega

variable (active : ActiveContext) (har : Archives s.frame checkpoint current active.archived)
include har

/-- A section is closed only if its anchor lies before the current input. -/
theorem closes_before {start : Option ContextItemKey} {drops : Bool}
    (hf : Fresh s.frame (coveredKeys checkpoint) (fun i => i < current) (historyKeys history))
    (hs : ∀ key, start = some key → key ∈ historyKeys history)
    (hd : drops = dropsPreviousActive s checkpoint active history
      (foldsPreviousActive s checkpoint current history) start)
    (hc : (foldsPreviousActive s checkpoint current history || drops) = true) :
    ∃ part anchor a, previousActive s.frame checkpoint = some part ∧
      part.anchor = some anchor ∧ s.frame.position anchor = some a ∧ a < current := by
  rw [Bool.or_eq_true] at hc
  rcases hc with hc | hc
  · obtain ⟨part,anchor,hp,hanchor,hmem⟩ := folds_anchor hc
    obtain ⟨a,item,hpos,-,-,hlt⟩ := hf.free anchor hmem
    exact ⟨part,anchor,a,hp,hanchor,hpos,hlt⟩
  rw [hd] at hc
  cases hp : previousActive s.frame checkpoint with
  | none => simp [dropsPreviousActive, hp] at hc
  | some part =>
    obtain ⟨anchor,a,hanchor,hpos,-⟩ := older_section ha hp
    exact ⟨part,anchor,a,rfl,hanchor,hpos,drops_before ha har hf hs hc hp hanchor hpos⟩

variable {works : List (SummaryWork V)}

theorem history_step {start : Option ContextItemKey} {drops : Bool} {w : SummaryWork V}
    (hf : Fresh s.frame (coveredKeys checkpoint) (fun i => i < current) (historyKeys history))
    (hs : ∀ key, start = some key → key ∈ historyKeys history)
    (hd : drops = dropsPreviousActive s checkpoint active history
      (foldsPreviousActive s checkpoint current history) start)
    (h : historyWork lib s checkpoint history (foldsPreviousActive s checkpoint current history)
      drops start = .ok (w::works)) :
    works = [] ∧ HistoryStep s.frame (checkpoint.getD CheckpointPayload.default) current w
      (historyKeys history) ∧
      (w.foldsPreviousActive || w.dropsPreviousActive) =
        (foldsPreviousActive s checkpoint current history || drops) := by
  have hacc := accepted_getD ha
  have hbind : checkpoint.bind CheckpointPayload.history =
      (checkpoint.getD CheckpointPayload.default).history := by cases checkpoint <;> rfl
  unfold historyWork at h
  by_cases hempty : history.isEmpty = true
  · rw [if_pos hempty] at h
    cases h
  rw [if_neg hempty] at h
  split at h
  · cases h
  rename_i items hitems
  have hkeys := foldMemory_keys lib hitems
  simp only [Except.ok.injEq, List.cons.injEq] at h
  obtain ⟨rfl,rfl⟩ := h
  have hne : historyKeys history ≠ [] := by
    simpa [historyKeys] using hempty
  have holder := closes_before ha active har hf hs hd
  refine ⟨rfl,⟨rfl,rfl,hne,?_,?_,?_,hs,?_,?_⟩,rfl⟩
  · rw [coveredKeys_getD]
    exact hf
  · apply orderCoverage_nodup
    intro key hkey
    simp only [mem_append, hkeys] at hkey
    rcases hkey with (hk | hk) | hk
    · rw [hbind] at hk
      obtain ⟨i,hi⟩ := history_key _ hacc hk
      exact ⟨i,hi.position⟩
    · split_ifs at hk with hc
      · obtain ⟨part,anchor,a,hp,-⟩ := holder hc
        rw [hp] at hk
        have hactive := ((previousActive_some s.frame checkpoint part).mp hp).1
        rw [← hactive] at hk
        obtain ⟨_,_,_,i,-,-,-,hi⟩ := active_key _ hacc hk
        exact ⟨i,hi.position⟩
      · simp at hk
    · obtain ⟨i,item,hpos,-⟩ := hf.free key hk
      exact ⟨i,hpos⟩
  · intro key
    simp only [mem_orderCoverage, mem_append, hkeys, hbind, or_assoc]
    refine or_congr_right (or_congr_left ?_)
    by_cases hc : (foldsPreviousActive s checkpoint current history || drops) = true
    · obtain ⟨part,anchor,a,hp,-⟩ := holder hc
      have hactive := ((previousActive_some s.frame checkpoint part).mp hp).1
      rw [if_pos hc, hp, ← hactive]
      simp [Closes, hc]
    · rw [if_neg hc]
      simp [Closes, hc]
  · intro hc part anchor a hactive hanchor hpos
    obtain ⟨part',anchor',a',hp,hanchor',hpos',hlt⟩ := holder hc
    have hactive' := ((previousActive_some s.frame checkpoint part').mp hp).1
    rw [hactive] at hactive'
    cases hactive'
    rw [hanchor] at hanchor'
    cases hanchor'
    rw [hpos] at hpos'
    cases hpos'
    exact hlt
  · intro hc part anchor hactive hanchor hmem
    by_cases hcur : anchor = s.frame.currentUser
    · obtain ⟨i,item,hpos,-,-,hlt⟩ := hf.free anchor hmem
      rw [hcur, ha.position] at hpos
      cases hpos
      omega
    · have hp := (previousActive_some s.frame checkpoint part).mpr
        ⟨hactive,by rw [hanchor]; simpa using hcur⟩
      have := folds_of_anchor ha hf hp hanchor hmem
      exact hc (by simp [Closes, this])

omit har

theorem active_step (c : CheckpointPayload) {closes : Bool} {w : SummaryWork V}
    (hf : Fresh s.frame (coveredKeys (some c)) (fun i => current < i) (historyKeys items))
    (hc : c.active = activePrevious s checkpoint)
    (h : activeWork s checkpoint items closes = w::works) :
    works = [] ∧ ActiveStep s.frame c current w (historyKeys items) := by
  unfold activeWork at h
  split_ifs at h with hne
  obtain ⟨rfl,rfl⟩ := List.cons.inj h
  simp only [Bool.and_eq_true, Bool.not_eq_true', isEmpty_eq_false_iff] at hne
  refine ⟨rfl,rfl,rfl,by simpa [historyKeys] using hne.1,hf,?_,?_,?_⟩
  · apply orderCoverage_nodup
    intro key hkey
    rcases mem_append.mp hkey with hk | hk
    · cases hp : activePrevious s checkpoint with
      | none => simp [hp, sectionKeys] at hk
      | some part =>
        obtain ⟨hb,-⟩ := Option.filter_eq_some_iff.mp hp
        obtain ⟨d,rfl,hactive⟩ := Option.bind_eq_some_iff.mp hb
        rw [hp, ← hactive] at hk
        obtain ⟨_,_,_,i,-,-,-,hi⟩ := active_key d ha hk
        exact ⟨i,hi.position⟩
    · obtain ⟨i,item,hpos,-⟩ := hf.free key hk
      exact ⟨i,hpos⟩
  · intro key
    rw [mem_orderCoverage, mem_append, hc]
  · intro part hp
    rw [hc] at hp
    simpa [ContextSnapshot.frame] using (Option.filter_eq_some_iff.mp hp).2

end Plan

/-- The memory of an older section has a place among the items the section stands for: the
item it is put behind is itself not covered, and not behind everything the section covers. -/
def InsertionReady (f : Frame) (checkpoint : Option CheckpointPayload) : Prop :=
  ∀ part anchor a current after i, previousActive f checkpoint = some part →
    part.anchor = some anchor → f.position anchor = some a →
    f.position f.currentUser = some current → a < current →
    activeMemoryAfter f part = some after → f.position after = some i →
    after ∉ coveredKeys checkpoint ∧ ∃ key ∈ part.covered, ∃ k, f.position key = some k ∧ i ≤ k

section Insertion
variable (f : Frame) (checkpoint : Option CheckpointPayload) (current : ℕ)
variable (ha : Accepted f checkpoint current)
include ha

variable {checkpoint} {current} {f}

theorem insertion_after {part : CheckpointSection} {anchor : ContextItemKey} {a : ℕ}
    (hanchor : part.anchor = some anchor) (hpos : f.position anchor = some a) :
    ∃ after i, activeMemoryAfter f part = some after ∧ f.position after = some i ∧ a ≤ i := by
  obtain ⟨item,hitem,hkey⟩ := position_some f _ _ hpos
  refine ⟨memoryLoop item.responseUuid (f.items.drop (a+1)) anchor,?_⟩
  have hafter : activeMemoryAfter f part =
      some (memoryLoop item.responseUuid (f.items.drop (a+1)) anchor) := by
    simp [activeMemoryAfter, hanchor, hpos, hitem]
  rcases memoryLoop_mem item.responseUuid (f.items.drop (a+1)) anchor with h | ⟨other,ho,h,-⟩
  · exact ⟨a,hafter,h.symm ▸ hpos,Nat.le_refl _⟩
  · obtain ⟨k,hk⟩ := mem_iff_getElem?.mp ho
    rw [List.getElem?_drop] at hk
    refine ⟨a+1+k,hafter,?_,by omega⟩
    rw [h]
    exact position_getElem ha.keys hk

/-- The unit of the anchor is the unit of the insertion point. -/
theorem insertion_unit (hr : InsertionReady f checkpoint) (part : CheckpointSection)
    (anchor after : ContextItemKey) (a i : ℕ) (hp : previousActive f checkpoint = some part)
    (hanchor : part.anchor = some anchor) (hpos : f.position anchor = some a) (hlt : a < current)
    (hafter : activeMemoryAfter f part = some after) (hi : f.position after = some i) (hai : a ≤ i)
    (u : WindowUnit) (hu : u ∈ windowUnits f checkpoint (atomicGroups f) current) :
    after ∉ coveredKeys checkpoint ∧ (u.Contains a ↔ u.Contains i) := by
  obtain ⟨hfree,key,hkey,k,hk,hik⟩ := hr part anchor a current after i hp hanchor hpos ha.position hlt
    hafter hi
  have hstop : ∀ v ∈ windowUnits f checkpoint (atomicGroups f) current, v.Contains a →
      v.Contains i := by
    intro v hv hc
    have := unit_carries ha hv hp hanchor hpos hc hkey hk
    exact ⟨Nat.le_trans hc.1 hai,by omega⟩
  refine ⟨hfree,hstop u hu,fun hc => ?_⟩
  have htile := units_tile ha
  have hb := tiles_bounds _ htile (mem_map_of_mem hu)
  have hci : i ≤ u.span.2 := hc.2
  obtain ⟨span,hspan,hva⟩ := tiles_cover _ _ _ htile a (Nat.zero_le _) (by omega)
  obtain ⟨v,hv,rfl⟩ := mem_map.mp hspan
  have hvi := hstop v hv hva
  obtain ⟨h1,h2⟩ := unit_unique ha hu hv hc hvi
  exact ⟨h1 ▸ hva.1,h2 ▸ hva.2⟩

end Insertion

end Maple.Compaction.Steps

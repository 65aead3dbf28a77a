import Maple.Compaction.Plan

/-!
# What a plan selects

The history of a plan is the replayed part of some eligible units, its active
work the uncovered part of some eligible groups behind the current input. Both
are unions of whole complete groups.
-/

set_option autoImplicit false

namespace Maple.Compaction.Selection
open Tiling Items Groups Coverage Units Window Archive Projection Plan List

theorem dedupRuns_sublist (keys : List ContextItemKey) : (dedupRuns keys).Sublist keys := by
  induction keys with
  | nil => exact List.Sublist.slnil
  | cons key keys ih =>
    unfold dedupRuns
    split
    · exact List.Sublist.cons_cons key (nil_sublist _)
    rename_i next rest heq
    rw [heq] at ih
    split_ifs with h
    · subst h
      exact List.Sublist.cons_cons key (List.Sublist.trans (sublist_cons_self _ _) ih)
    · exact List.Sublist.cons_cons key ih

theorem mem_dedupRuns (keys : List ContextItemKey) (key : ContextItemKey) :
    key ∈ dedupRuns keys ↔ key ∈ keys := by
  induction keys with
  | nil => rfl
  | cons first keys ih =>
    unfold dedupRuns
    split
    · rename_i heq
      rw [heq] at ih
      simp [← ih]
    rename_i next rest heq
    rw [heq] at ih
    split_ifs with h
    · subst h
      simp [← ih]
    · simp [← ih]

theorem positionLe_trans (a b c : Option ℕ) (hab : positionLe a b = true)
    (hbc : positionLe b c = true) : positionLe a c = true := by
  cases a <;> cases b <;> cases c <;> simp_all [positionLe]
  omega

theorem positionLe_total (a b : Option ℕ) : positionLe a b = true ∨ positionLe b a = true := by
  cases a <;> cases b <;> simp [positionLe]
  omega

theorem positionLe_antisymm {a b : Option ℕ} (hab : positionLe a b = true)
    (hba : positionLe b a = true) : a = b := by
  cases a <;> cases b <;> simp_all [positionLe]
  omega

/-- Equal keys are neighbours once the keys are sorted by an injective position. -/
theorem dedupRuns_nodup (position : ContextItemKey → Option ℕ) {keys : List ContextItemKey}
    (hs : keys.Pairwise (fun a b => positionLe (position a) (position b) = true))
    (hinj : ∀ a ∈ keys, ∀ b ∈ keys, position a = position b → a = b) : (dedupRuns keys).Nodup := by
  induction keys with
  | nil => exact nodup_nil
  | cons key keys ih =>
    obtain ⟨hfirst,hrest⟩ := pairwise_cons.mp hs
    have ih := ih hrest (fun a ha b hb => hinj a (mem_cons_of_mem _ ha) b (mem_cons_of_mem _ hb))
    have hsub := dedupRuns_sublist keys
    unfold dedupRuns
    split
    · exact nodup_singleton key
    rename_i next rest heq
    rw [heq] at ih hsub
    split_ifs with h
    · exact h ▸ ih
    refine nodup_cons.mpr ⟨?_,ih⟩
    intro hmem
    rcases mem_cons.mp hmem with heq' | hmem
    · exact h heq'
    · have hnext := hsub.subset mem_cons_self
      have hle := (pairwise_cons.mp (List.Pairwise.sublist hsub hrest)).1 key hmem
      exact h (hinj key mem_cons_self next (mem_cons_of_mem _ hnext)
        (positionLe_antisymm (hfirst next hnext) hle))

theorem mem_orderCoverage (f : Frame) (keys : List ContextItemKey) (key : ContextItemKey) :
    key ∈ orderCoverage f keys ↔ key ∈ keys := by
  rw [orderCoverage, mem_dedupRuns, mem_insertionSort]

theorem orderCoverage_nodup (f : Frame) (keys : List ContextItemKey)
    (hk : ∀ key ∈ keys, ∃ i, f.position key = some i) : (orderCoverage f keys).Nodup := by
  have : Std.Total (fun a b : ContextItemKey =>
      positionLe (f.position a) (f.position b) = true) := ⟨fun _ _ => positionLe_total _ _⟩
  have : IsTrans ContextItemKey (fun a b =>
      positionLe (f.position a) (f.position b) = true) := ⟨fun _ _ _ => positionLe_trans _ _ _⟩
  refine dedupRuns_nodup f.position (pairwise_insertionSort _ _) ?_
  intro a ha b hb hab
  obtain ⟨i,hi⟩ := hk a ((mem_insertionSort _).mp ha)
  obtain ⟨item,hitem,rfl⟩ := position_some f a i hi
  obtain ⟨other,hother,rfl⟩ := position_some f b i (hab ▸ hi)
  rw [hitem] at hother
  cases hother
  rfl

section Units
variable {V : Type} (lib : Library V) (s : ContextSnapshot V)
variable (checkpoint : Option CheckpointPayload) (active : ActiveContext)
variable (covered : List ContextItemKey) {u : WindowUnit}

theorem olderLoop_mem {groups : List AtomicGroup} {kept : List ℕ} {units : List WindowUnit}
    (hu : u ∈ olderLoop s checkpoint active covered groups kept units) :
    u ∈ units ∧ eligible s.frame groups u = true := by
  induction units with
  | nil => simp [olderLoop] at hu
  | cons v units ih =>
    unfold olderLoop at hu
    simp only at hu
    split at hu
    · exact ⟨mem_cons_of_mem _ (ih hu).1,(ih hu).2⟩
    split at hu
    · simp at hu
    · rename_i hne
      rcases mem_cons.mp hu with rfl | hu
      · simp only [Bool.or_eq_true, not_or, Bool.not_eq_true', Bool.not_eq_false] at hne
        exact ⟨mem_cons_self,hne.1⟩
      · exact ⟨mem_cons_of_mem _ (ih hu).1,(ih hu).2⟩

theorem selectLoop_mem {budget : ℕ} {head : Option WindowUnit} {units : List WindowUnit} (input : ℕ)
    (hu : u ∈ selectLoop lib s checkpoint active covered budget head units input) : u ∈ units := by
  induction units generalizing input with
  | nil => simp [selectLoop] at hu
  | cons v units ih =>
    unfold selectLoop at hu
    simp only at hu
    split at hu
    · exact mem_cons_of_mem _ (ih _ hu)
    · split at hu
      · simp at hu
      · rcases mem_cons.mp hu with rfl | hu
        · exact mem_cons_self
        · exact mem_cons_of_mem _ (ih _ hu)

theorem selectUnits_mem {budget : ℕ} {older : List WindowUnit}
    (hu : u ∈ selectUnits lib s checkpoint active covered budget older) : u ∈ older := by
  unfold selectUnits at hu
  rw [mem_reverse, mem_append] at hu
  rcases hu with hu | hu
  · exact mem_reverse.mp (selectLoop_mem lib s checkpoint active covered _ hu)
  · rw [Option.mem_toList] at hu
    exact List.mem_of_head? (Option.filter_eq_some_iff.mp hu).1

theorem selectedUnits_mem (policy : CompactionPolicy) (groups : List AtomicGroup) (current : ℕ)
    (u : WindowUnit)
    (hu : u ∈ selectedUnits lib s checkpoint active covered policy groups current) :
    u ∈ windowUnits s.frame checkpoint groups current ∧ eligible s.frame groups u = true :=
  olderLoop_mem s checkpoint active covered (selectUnits_mem lib s checkpoint active covered hu)

theorem keyAt_frame (i : ℕ) : keyAt s.frame i = (s.items[i]?).map (fun item => item.key) := by
  simp [keyAt, ContextSnapshot.frame, Function.comp_def]

/-- The keys of the items of a range that pass a test on the key. -/
theorem mem_historyKeys_slice (p : ContextItemKey → Bool) (start stop : ℕ) (key : ContextItemKey) :
    key ∈ historyKeys ((slice s.items start stop).filter (fun item => p item.key)) ↔
      ∃ i, start ≤ i ∧ i ≤ stop ∧ keyAt s.frame i = some key ∧ p key = true := by
  simp only [historyKeys, mem_map, mem_filter, mem_slice, keyAt_frame, Option.map_eq_some_iff]
  constructor
  · rintro ⟨item,⟨⟨i,h1,h2,hi⟩,hp⟩,rfl⟩
    exact ⟨i,h1,h2,⟨item,hi,rfl⟩,hp⟩
  · rintro ⟨i,h1,h2,⟨item,hi,rfl⟩,hp⟩
    exact ⟨item,⟨⟨i,h1,h2,hi⟩,hp⟩,rfl⟩

theorem mem_planHistory (policy : CompactionPolicy) (groups : List AtomicGroup) (current : ℕ)
    (key : ContextItemKey) :
    key ∈ historyKeys (planHistory lib s checkpoint active covered policy groups current) ↔
      ∃ u ∈ selectedUnits lib s checkpoint active covered policy groups current, ∃ i,
        u.Contains i ∧ keyAt s.frame i = some key ∧ key ∉ covered ∧ key ∉ active.archived := by
  have hunit : ∀ u : WindowUnit, key ∈ historyKeys (replayedItems s active covered u) ↔ ∃ i,
      u.Contains i ∧ keyAt s.frame i = some key ∧ key ∉ covered ∧ key ∉ active.archived := by
    intro u
    have := mem_historyKeys_slice s (fun key => key ∉ covered && key ∉ active.archived) u.start
      u.stop key
    unfold replayedItems isReplayed
    rw [this]
    simp only [WindowUnit.Contains, and_assoc, Bool.and_eq_true, decide_eq_true_eq]
  simp only [← hunit, planHistory, historyKeys, map_flatMap, mem_flatMap]

theorem activeLoop_spec (current budget : ℕ) (kept : List ℕ) (groups : List (AtomicGroup × ℕ))
    (items : List (ContextItem V)) (input : ℕ) :
    ∃ chosen : List AtomicGroup, (∀ g ∈ chosen, g ∈ groups.map Prod.fst ∧ current < g.start ∧
        activeEligible s.frame g = true ∧
        (slice s.items g.start g.stop).all (fun item => item.key ∈ covered) = false) ∧
      ∀ key, key ∈ historyKeys (activeLoop s covered current budget kept groups items input) ↔
        key ∈ historyKeys items ∨ ∃ g ∈ chosen, ∃ i, g.Contains i ∧ keyAt s.frame i = some key ∧
          key ∉ covered := by
  induction groups generalizing items input with
  | nil => exact ⟨[],by simp,by simp [activeLoop]⟩
  | cons entry groups ih =>
    obtain ⟨g,index⟩ := entry
    have hstay : ∃ chosen : List AtomicGroup,
        (∀ h ∈ chosen, h ∈ ((g, index)::groups).map Prod.fst ∧ current < h.start ∧
          activeEligible s.frame h = true ∧
          (slice s.items h.start h.stop).all (fun item => item.key ∈ covered) = false) ∧
        ∀ key, key ∈ historyKeys items ↔ key ∈ historyKeys items ∨ ∃ h ∈ chosen, ∃ i,
          h.Contains i ∧ keyAt s.frame i = some key ∧ key ∉ covered := ⟨[],by simp,by simp⟩
    have hskip : ∀ items' input', ∃ chosen : List AtomicGroup,
        (∀ h ∈ chosen, h ∈ ((g, index)::groups).map Prod.fst ∧ current < h.start ∧
          activeEligible s.frame h = true ∧
          (slice s.items h.start h.stop).all (fun item => item.key ∈ covered) = false) ∧
        ∀ key, key ∈ historyKeys (activeLoop s covered current budget kept groups items' input') ↔
          key ∈ historyKeys items' ∨ ∃ h ∈ chosen, ∃ i, h.Contains i ∧ keyAt s.frame i = some key ∧
            key ∉ covered := by
      intro items' input'
      obtain ⟨chosen,hmem,hall⟩ := ih items' input'
      refine ⟨chosen,fun h hh => ?_,hall⟩
      obtain ⟨h1,h2⟩ := hmem h hh
      exact ⟨mem_cons_of_mem _ h1,h2⟩
    unfold activeLoop
    simp only
    split
    · exact hskip items input
    rename_i hstart
    split
    · exact hskip items input
    rename_i hcov
    split
    · exact hskip items input
    split
    · exact hstay
    rename_i hel
    split
    · exact hstay
    obtain ⟨chosen,hmem,hall⟩ := hskip
      (items++(slice s.items g.start g.stop).filter (fun item => item.key ∉ covered))
      (satAdd input (satSum 0 (((slice s.items g.start g.stop).filter
        (fun item => item.key ∉ covered)).map summaryInputTokens)))
    simp only [Bool.or_eq_true, not_or, Bool.not_eq_true', Bool.not_eq_false] at hel
    refine ⟨g::chosen,?_,fun key => ?_⟩
    · intro h hh
      rcases mem_cons.mp hh with rfl | hh
      · exact ⟨mem_cons_self,by omega,hel.1,by simpa using hcov⟩
      · exact hmem h hh
    · have hfresh := mem_historyKeys_slice s (fun key => key ∉ covered) g.start g.stop key
      rw [hall, historyKeys, map_append, mem_append, ← historyKeys, ← historyKeys, hfresh, or_assoc]
      simp only [mem_cons, exists_eq_or_imp, AtomicGroup.Contains, and_assoc,
        decide_eq_true_eq]

end Units

end Maple.Compaction.Selection

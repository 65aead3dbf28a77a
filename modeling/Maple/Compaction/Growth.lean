import Maple.Compaction.Selection

/-!
# How a work item extends coverage

`Fresh` says what both kinds of work add: keys that are not covered yet, free to
be covered, on one side of the current input, and forming whole complete groups.
`HistoryStep` and `ActiveStep` are all the completion proof knows about a work.
-/

set_option autoImplicit false

namespace Maple.Compaction.Growth
open Tiling Items Groups Coverage Units Window Archive Projection Plan Selection

structure Fresh (f : Frame) (covered : List ContextItemKey) (side : ℕ → Prop)
    (new : List ContextItemKey) : Prop where
  uncovered : ∀ key ∈ new, key ∉ covered
  free : ∀ key ∈ new, ∃ i item, f.position key = some i ∧ f.items[i]? = some item ∧
    isRequired f item = false ∧ side i
  groups : ∀ g ∈ atomicGroups f, GroupWhole f new g

theorem groupWhole_keys (f : Frame) (covered : List ContextItemKey) (g : AtomicGroup) :
    GroupWhole f covered g ↔ (∀ i key, g.Contains i → keyAt f i = some key → key ∉ covered) ∨
      (g.complete = true ∧ ∀ i key, g.Contains i → keyAt f i = some key → key ∈ covered) := by
  have hkeys : ∀ p : ContextItemKey → Prop,
      (∀ i item, g.Contains i → f.items[i]? = some item → p item.key) ↔
        ∀ i key, g.Contains i → keyAt f i = some key → p key := by
    intro p
    constructor
    · intro h i key hi hkey
      obtain ⟨item,hitem,rfl⟩ := (keyAt_some f i key).mp hkey
      exact h i item hi hitem
    · intro h i item hi hitem
      exact h i item.key hi ((keyAt_some f i item.key).mpr ⟨item,hitem,rfl⟩)
  unfold GroupWhole
  rw [hkeys (fun key => key ∉ covered), hkeys (fun key => key ∈ covered)]

theorem groupWhole_union {f : Frame} {old new all : List ContextItemKey} {g : AtomicGroup}
    (hold : GroupWhole f old g) (hnew : GroupWhole f new g)
    (hall : ∀ key, key ∈ all ↔ key ∈ old ∨ key ∈ new) : GroupWhole f all g := by
  rcases hold with ho | ⟨hc,ho⟩
  · rcases hnew with hn | ⟨hc,hn⟩
    · left
      intro i item hi hitem hmem
      rcases (hall _).mp hmem with h | h
      · exact ho i item hi hitem h
      · exact hn i item hi hitem h
    · exact Or.inr ⟨hc,fun i item hi hitem => (hall _).mpr (Or.inr (hn i item hi hitem))⟩
  · exact Or.inr ⟨hc,fun i item hi hitem => (hall _).mpr (Or.inl (ho i item hi hitem))⟩

theorem all_slice {α : Type} {items : List α} {p : α → Bool} {start stop i : ℕ} {x : α}
    (h : (slice items start stop).all p = true) (h1 : start ≤ i) (h2 : i ≤ stop)
    (hx : items[i]? = some x) : p x = true :=
  List.all_eq_true.mp h x ((mem_slice _ _ _ _).mpr ⟨i,h1,h2,hx⟩)

section Accepted
variable {V : Type} (lib : Library V) (s : ContextSnapshot V)
variable (checkpoint : Option CheckpointPayload) (active : ActiveContext) (current : ℕ)
variable (ha : Accepted s.frame checkpoint current)
include ha

variable {checkpoint} {current}

theorem not_current {i : ℕ} {item : ItemMeta} (hi : s.frame.items[i]? = some item)
    (hne : i ≠ current) : item.key ≠ s.frame.currentUser := by
  intro heq
  have h1 := position_getElem ha.keys hi
  rw [heq, ha.position] at h1
  exact hne (Option.some.inj h1).symm

/-- All groups of an eligible unit are complete. -/
theorem unit_complete {u : WindowUnit}
    (hu : u ∈ windowUnits s.frame checkpoint (atomicGroups s.frame) current)
    (he : eligible s.frame (atomicGroups s.frame) u = true) {g : AtomicGroup}
    (hg : g ∈ atomicGroups s.frame) (h1 : u.start ≤ g.start) (h2 : g.stop ≤ u.stop) :
    g.complete = true := by
  obtain ⟨⟨a,hfirst,hs⟩,⟨b,hlast,ht⟩,hord,-⟩ := unit_ok ha hu
  obtain ⟨k,hk⟩ := List.mem_iff_getElem?.mp hg
  rw [eligible, Bool.and_eq_true] at he
  have hb := group_bounds hg
  refine all_slice he.1 ?_ ?_ hk
  · by_contra hlt
    have := group_order hk hfirst (by omega)
    omega
  · by_contra hlt
    have := group_order hlast hk (by omega)
    omega

theorem history_fresh (har : Archives s.frame checkpoint current active.archived)
    (policy : CompactionPolicy) :
    Fresh s.frame (coveredKeys checkpoint) (fun i => i < current)
      (historyKeys (planHistory lib s checkpoint active (coveredKeys checkpoint) policy
        (atomicGroups s.frame) current)) := by
  have hmem := mem_planHistory lib s checkpoint active (coveredKeys checkpoint) policy
    (atomicGroups s.frame) current
  have hsel := selectedUnits_mem lib s checkpoint active (coveredKeys checkpoint) policy
    (atomicGroups s.frame) current
  refine ⟨?_,?_,?_⟩
  · intro key hk
    obtain ⟨u,hu,i,hi,hkey,hcov,-⟩ := (hmem key).mp hk
    exact hcov
  · intro key hk
    obtain ⟨u,hu,i,hi,hkey,hcov,-⟩ := (hmem key).mp hk
    obtain ⟨item,hitem,rfl⟩ := (keyAt_some _ _ _).mp hkey
    obtain ⟨hunit,hel⟩ := hsel u hu
    have hlt : i < current := Nat.lt_of_le_of_lt hi.2 (unit_ok ha hunit).stop_lt
    refine ⟨i,item,position_getElem ha.keys hitem,hitem,?_,hlt⟩
    rw [eligible, Bool.and_eq_true] at hel
    have hfree := all_slice hel.2 hi.1 hi.2 hitem
    have hne := not_current s ha hitem (by omega)
    simp only [isCurrentInput, Bool.and_eq_true, Bool.not_eq_true'] at hfree
    simp [isRequired, hne, hfree.1, hfree.2]
  · intro g hg
    rw [groupWhole_keys]
    by_cases hex : ∃ i key, g.Contains i ∧ keyAt s.frame i = some key ∧
        key ∈ historyKeys (planHistory lib s checkpoint active (coveredKeys checkpoint) policy
          (atomicGroups s.frame) current)
    · right
      obtain ⟨i,key,hi,hkey,hk⟩ := hex
      obtain ⟨u,hu,j,hj,hkey',hcov,harch⟩ := (hmem key).mp hk
      obtain rfl := keyAt_unique ha.keys hkey hkey'
      obtain ⟨hunit,hel⟩ := hsel u hu
      obtain ⟨hstart,hstop⟩ := unit_cuts ha hunit
      have h1 := hstart g hg
      have h2 := hstop g hg
      have hi1 := hi.1
      have hi2 := hi.2
      have hj1 := hj.1
      have hj2 := hj.2
      refine ⟨unit_complete s ha hunit hel hg (by omega) (by omega),?_⟩
      intro k other hk' hother
      rw [hmem]
      have hk1 := hk'.1
      have hk2 := hk'.2
      refine ⟨u,hu,k,⟨by omega,by omega⟩,hother,?_⟩
      rcases group_trichotomy ha har g hg with h | h | h
      · exact absurd (h i key hi hkey) hcov
      · exact absurd (h i key hi hkey).2 harch
      · exact h k other hk' hother
    · left
      intro i key hi hkey hk
      exact hex ⟨i,key,hi,hkey,hk⟩

theorem active_fresh (policy : CompactionPolicy) :
    Fresh s.frame (coveredKeys checkpoint) (fun i => current < i)
      (historyKeys (planActive lib s checkpoint active (coveredKeys checkpoint) policy
        (atomicGroups s.frame) current)) := by
  unfold planActive
  simp only
  obtain ⟨chosen,hch,hmem⟩ := activeLoop_spec s (coveredKeys checkpoint) current
    (policy.summaryInputBudget-requestOverheadTokens lib
      ((activePrevious s checkpoint).map CheckpointSection.summary))
    (retained s active (coveredKeys checkpoint) policy.keepRecentTokens (atomicGroups s.frame))
    (atomicGroups s.frame).zipIdx [] 0
  have hgroup : ∀ g ∈ chosen, g ∈ atomicGroups s.frame := by
    intro g hg
    simpa using (hch g hg).1
  have hnil : ∀ key : ContextItemKey, key ∉ historyKeys ([] : List (ContextItem V)) := by
    simp [historyKeys]
  simp only [hnil, false_or] at hmem
  refine ⟨?_,?_,?_⟩
  · intro key hk
    obtain ⟨g,hg,i,hi,hkey,hcov⟩ := (hmem key).mp hk
    exact hcov
  · intro key hk
    obtain ⟨g,hg,i,hi,hkey,hcov⟩ := (hmem key).mp hk
    obtain ⟨item,hitem,rfl⟩ := (keyAt_some _ _ _).mp hkey
    obtain ⟨-,hlt,hel,-⟩ := hch g hg
    have hlt : current < i := Nat.lt_of_lt_of_le hlt hi.1
    refine ⟨i,item,position_getElem ha.keys hitem,hitem,?_,hlt⟩
    rw [activeEligible, Bool.and_eq_true] at hel
    have hfree := all_slice hel.2 hi.1 hi.2 hitem
    have hne := not_current s ha hitem (by omega)
    simp only [Bool.and_eq_true, Bool.not_eq_true'] at hfree
    simp [isRequired, hne, hfree.1.1.1, hfree.1.1.2]
  · intro g hg
    rw [groupWhole_keys]
    by_cases hc : g ∈ chosen
    · right
      obtain ⟨-,-,hel,hnot⟩ := hch g hc
      rw [activeEligible, Bool.and_eq_true] at hel
      refine ⟨hel.1,fun i key hi hkey => (hmem key).mpr ⟨g,hc,i,hi,hkey,?_⟩⟩
      intro hcov
      obtain ⟨item,hitem,rfl⟩ := (keyAt_some _ _ _).mp hkey
      have hwhole := (group_whole ha hg hi hitem hcov).2
      rw [List.all_eq_false] at hnot
      obtain ⟨other,hother,hn⟩ := hnot
      obtain ⟨j,h1,h2,hj⟩ := (mem_slice _ _ _ _).mp hother
      have := hwhole j other.toItemMeta ⟨h1,h2⟩ (by simp [ContextSnapshot.frame, hj])
      exact hn (by simpa using this)
    · left
      intro i key hi hkey hk
      obtain ⟨h,hh,j,hj,hkey',-⟩ := (hmem key).mp hk
      obtain rfl := keyAt_unique ha.keys hkey hkey'
      exact hc (group_unique hg (hgroup h hh) hi hj ▸ hh)

end Accepted

end Maple.Compaction.Growth

import Maple.Compaction.Window

/-!
# What stays archived

A window is selected once and refitted any number of times. Whatever the budgets
and estimates, the archived keys are the uncovered items before the published
start together with those of some whole units. So a group is archived as a whole
or not at all, and neither a covered item nor the current exchange is archived.
-/

set_option autoImplicit false

namespace Maple.Compaction.Archive
open Tiling Items Groups Coverage Units Window

/-- Windows a request can hold: one selection and then any refits. Estimates and
payloads may differ from one pass to the next, the frame does not. -/
inductive Selected {V : Type} (lib : Library V) (f : Frame)
    (checkpoint : Option CheckpointPayload) : ActiveContext → Prop
  | select (s : ContextSnapshot V) (budget : Option ℕ) (active : ActiveContext) (hs : s.frame = f)
      (h : select lib s checkpoint budget = .ok active) : Selected lib f checkpoint active
  | refit (s : ContextSnapshot V) (budget : Option ℕ) (active next : ActiveContext)
      (hs : s.frame = f) (hp : Selected lib f checkpoint active)
      (h : refit lib s checkpoint active budget = .ok next) : Selected lib f checkpoint next

def Archives (f : Frame) (checkpoint : Option CheckpointPayload) (current : ℕ)
    (archived : List ContextItemKey) : Prop :=
  ∃ chosen : List WindowUnit,
    (∀ u ∈ chosen, u ∈ windowUnits f checkpoint (atomicGroups f) current) ∧
    ∀ key, key ∈ archived ↔ key ∉ coveredKeys checkpoint ∧ ∃ i, keyAt f i = some key ∧
      Region (publishedAt f checkpoint) chosen i

theorem region_append (published : ℕ) (chosen chosen' : List WindowUnit) (i : ℕ) :
    Region published (chosen++chosen') i ↔ Region published chosen i ∨ Region published chosen' i := by
  simp only [Region, List.mem_append, or_and_right, exists_or]
  exact or_or_distrib_left

variable {V : Type} {checkpoint : Option CheckpointPayload} {active : ActiveContext}

variable {lib : Library V}

theorem selected_accepted {f : Frame} (h : Selected lib f checkpoint active) :
    ∃ current, Accepted f checkpoint current := by
  cases h with
  | select s budget active hs h =>
    obtain ⟨current,-,ha,-⟩ := fit_ok_cases lib s h
    exact ⟨current,hs ▸ ha⟩
  | refit s budget active next hs hp h =>
    obtain ⟨current,-,ha,-⟩ := fit_ok_cases lib s h
    exact ⟨current,hs ▸ ha⟩

theorem refit_mono {s : ContextSnapshot V} {budget : Option ℕ}
    {next : ActiveContext} (h : refit lib s checkpoint active budget = .ok next)
    (key : ContextItemKey) (hk : key ∈ active.archived) : key ∈ next.archived := by
  obtain ⟨current,-,ha,-⟩ := fit_ok_cases lib s h
  obtain ⟨chosen,-,hall⟩ := archived_spec lib s ha h
  exact (hall key).mpr (Or.inl hk)

theorem selected_archives {f : Frame} {current : ℕ} (ha : Accepted f checkpoint current)
    (h : Selected lib f checkpoint active) : Archives f checkpoint current active.archived := by
  induction h with
  | select s budget active hs h =>
    subst hs
    obtain ⟨chosen,hmem,hall⟩ := archived_spec lib s ha h
    refine ⟨chosen,hmem,fun key => ?_⟩
    rw [hall]
    simp [ActiveContext.default]
  | refit s budget active next hs hp h ih =>
    subst hs
    obtain ⟨old,hold,hbefore⟩ := ih
    obtain ⟨chosen,hmem,hall⟩ := archived_spec lib s ha h
    refine ⟨old++chosen,?_,fun key => ?_⟩
    · intro u hu
      rcases List.mem_append.mp hu with hu | hu
      · exact hold u hu
      · exact hmem u hu
    · rw [hall, Option.getD_some, hbefore, ← and_or_left, ← exists_or]
      simp only [region_append, and_or_left]

section Archives
variable (f : Frame) (checkpoint : Option CheckpointPayload) (current : ℕ)
variable (ha : Accepted f checkpoint current) (archived : List ContextItemKey)
variable (har : Archives f checkpoint current archived)
include ha

variable {g : AtomicGroup} {i j : ℕ} {checkpoint} {current} {f}

/-- The group of the published start is covered, so a group that is not covered lies on one
side of it. -/
theorem published_side
    (hfree : ∀ i key, g.Contains i → keyAt f i = some key → key ∉ coveredKeys checkpoint)
    (hi : g.Contains i) (hj : g.Contains j) (hlt : i < publishedAt f checkpoint) :
    j < publishedAt f checkpoint := by
  by_contra hle
  unfold publishedAt at hlt hle
  cases hb : (checkpoint.bind CheckpointPayload.activeStart).bind f.position with
  | none => simp [hb] at hlt
  | some p =>
    rw [hb, Option.getD_some] at hlt hle
    obtain ⟨start,hstart,hp⟩ := Option.bind_eq_some_iff.mp hb
    obtain ⟨c,rfl,hcs⟩ := Option.bind_eq_some_iff.mp hstart
    refine hfree p start ⟨?_,?_⟩ ((keyAt_position ha.keys p start).mpr hp)
      (List.mem_append_left _ ((ha.payload c rfl).start start hcs))
    · have := hi.1
      omega
    · have := hj.2
      omega

theorem published_lt : publishedAt f checkpoint < current ∨ publishedAt f checkpoint = 0 := by
  unfold publishedAt
  cases hb : (checkpoint.bind CheckpointPayload.activeStart).bind f.position with
  | none => exact Or.inr rfl
  | some p =>
    left
    rw [Option.getD_some]
    obtain ⟨start,hstart,hp⟩ := Option.bind_eq_some_iff.mp hb
    obtain ⟨c,rfl,hcs⟩ := Option.bind_eq_some_iff.mp hstart
    have hmem := (ha.payload c rfl).start start hcs
    cases hh : c.history with
    | none => simp [hh, sectionKeys] at hmem
    | some part =>
      rw [hh] at hmem
      obtain ⟨anchor,-,hall⟩ := ((ha.payload c rfl).history part hh).anchored
      obtain ⟨i,hi⟩ := hall start hmem
      have := hi.before rfl
      rw [hi.position] at hp
      cases hp
      exact this

variable {key : ContextItemKey}

theorem group_free (hg : g ∈ atomicGroups f) (hi : g.Contains i) (hkey : keyAt f i = some key)
    (hfree : key ∉ coveredKeys checkpoint) (j : ℕ) (other : ContextItemKey) (hj : g.Contains j)
    (hother : keyAt f j = some other) : other ∉ coveredKeys checkpoint := by
  intro hcov
  obtain ⟨item,hitem,rfl⟩ := (keyAt_some f i key).mp hkey
  obtain ⟨item',hitem',rfl⟩ := (keyAt_some f j other).mp hother
  exact hfree ((group_whole ha hg hj hitem' hcov).2 i item hi hitem)

include har

variable {archived}

omit ha in
theorem archives_uncovered (hk : key ∈ archived) : key ∉ coveredKeys checkpoint := by
  obtain ⟨chosen,-,hall⟩ := har
  exact ((hall key).mp hk).1

theorem archives_group (hg : g ∈ atomicGroups f) (hi : g.Contains i) (hj : g.Contains j)
    {a b : ContextItemKey} (hka : keyAt f i = some a) (hkb : keyAt f j = some b)
      (h : a ∈ archived) :
    b ∈ archived := by
  have hnot := archives_uncovered har h
  have hfree := group_free ha hg hi hka hnot
  obtain ⟨chosen,hmem,hall⟩ := har
  obtain ⟨-,i',hi',hregion⟩ := (hall a).mp h
  obtain rfl : i' = i := keyAt_unique ha.keys hi' hka
  refine (hall b).mpr ⟨hfree j b hj hkb,j,hkb,?_⟩
  rcases hregion with hlt | ⟨u,hu,hc⟩
  · exact Or.inl (published_side ha hfree hi hj hlt)
  right
  refine ⟨u,hu,?_⟩
  obtain ⟨hstart,hstop⟩ := unit_cuts ha (hmem u hu)
  have h1 := hstart g hg
  have h2 := hstop g hg
  have := hi.1
  have := hi.2
  have := hj.1
  have := hj.2
  have := hc.1
  have := hc.2
  constructor <;> omega

/-- Nothing from the current user's group on is archived. -/
theorem archives_before (hg : g ∈ atomicGroups f) (hc : g.Contains current)
    (hk : keyAt f i = some key) (h : key ∈ archived) : i < g.start := by
  by_contra hle
  have hfree := group_free ha hg hc
    ((keyAt_position ha.keys _ _).mpr ha.position) (current_uncovered ha)
  have hpub := published_lt ha
  obtain ⟨chosen,hmem,hall⟩ := har
  obtain ⟨-,i',hi',hregion⟩ := (hall key).mp h
  obtain rfl : i' = i := keyAt_unique ha.keys hi' hk
  rcases hregion with hlt | ⟨u,hu,hci⟩
  · have hcl := hc.2
    have := published_side ha hfree ⟨by omega,by omega⟩ hc hlt
    omega
  obtain ⟨-,hstop⟩ := unit_cuts ha (hmem u hu)
  have hlt := (unit_ok ha (hmem u hu)).stop_lt
  have h1 := hstop g hg
  have := hci.2
  have := hc.1
  have := hc.2
  omega

/-- In a unit, what follows an item that is neither covered nor archived is not archived. -/
theorem archives_unit {u : WindowUnit} (hu : u ∈ windowUnits f checkpoint (atomicGroups f) current)
    (hi : u.Contains i) (hj : u.Contains j) (hij : i ≤ j) {a b : ContextItemKey}
    (hka : keyAt f i = some a) (hkb : keyAt f j = some b) (hcov : a ∉ coveredKeys checkpoint)
    (harch : a ∉ archived) : b ∉ archived := by
  intro hb
  obtain ⟨chosen,hmem,hall⟩ := har
  obtain ⟨-,j',hj',hregion⟩ := (hall b).mp hb
  obtain rfl : j' = j := keyAt_unique ha.keys hj' hkb
  refine harch ((hall a).mpr ⟨hcov,i,hka,?_⟩)
  rcases hregion with hlt | ⟨v,hv,hc⟩
  · exact Or.inl (by omega)
  · right
    refine ⟨v,hv,?_⟩
    obtain ⟨h1,h2⟩ := unit_unique ha hu (hmem v hv) hj hc
    exact ⟨h1 ▸ hi.1,h2 ▸ hi.2⟩

end Archives

end Maple.Compaction.Archive

import Maple.Compaction.UnitSums

/-!
# The window fits the budget

What must be sent is known before anything is chosen: the instructions, the current turn, the
summaries and the marker. When this fits, the window fills what is left with whole units and
the estimate of the prompt stays within the budget, unless the prompt shows the memory of an
older active section that the window has not counted and what is left does not hold it.
-/

set_option autoImplicit false

namespace Maple.Compaction.Budget
open Tiling Sums Items Groups Coverage Compaction.Units Window Archive Projection List

namespace Setting
variable {V : Type} (p : Setting V)

/-- What must be sent in any case, as it is known before the window is chosen. -/
def floor : ℕ :=
  p.s.instructionTokens+p.raw [] (p.s.items.drop p.turnStart)+p.historyTokens+
    partTokens p.lib ((p.checkpoint.bind CheckpointPayload.active).filter (fun part =>
      (part.anchor.bind p.s.frame.position).any (fun a => p.current ≤ a)))+p.marker

theorem floor_turn : p.required p.turnStart+p.marker ≤ p.floor := by
  have hturn : p.turnMemory ≤ partTokens p.lib
      ((p.checkpoint.bind CheckpointPayload.active).filter (fun part =>
        (part.anchor.bind p.s.frame.position).any (fun a => p.current ≤ a))) := by
    unfold turnMemory previousActive
    cases hp : p.checkpoint.bind CheckpointPayload.active with
    | none => simp [partTokens]
    | some part =>
      by_cases hsame : part.anchor = some p.s.frame.currentUser
      · simp [Option.filter, hsame, p.accepted.position]
      · simp [hsame]
  unfold required floor
  omega

section Hidden
variable (previous : Option ActiveContext)

/-- What no budget brings back: what an earlier pass archived, the items before the published
start, and the units that begin before the last thousand rows. -/
def hidden : List ContextItemKey :=
  (previous.getD ActiveContext.default).archived++
    p.s.frame.keys.take (publishedAt p.s.frame p.checkpoint)++
    (p.units.filter (fun u => u.start < p.current-activeWindowRows)).flatMap (fun u =>
      slice p.s.frame.keys u.start u.stop)

theorem mem_hidden (key : ContextItemKey) : key ∈ p.hidden previous ↔
    key ∈ (previous.getD ActiveContext.default).archived ∨
    (∃ i, keyAt p.s.frame i = some key ∧ i < publishedAt p.s.frame p.checkpoint) ∨
    ∃ i, keyAt p.s.frame i = some key ∧
      ∃ u ∈ p.units, u.start < p.current-activeWindowRows ∧ u.Contains i := by
  have hkeys : ∀ i, p.s.frame.keys[i]? = keyAt p.s.frame i := by
    intro i
    simp [Frame.keys, keyAt]
  have hfront : key ∈ p.s.frame.keys.take (publishedAt p.s.frame p.checkpoint) ↔
      ∃ i, keyAt p.s.frame i = some key ∧ i < publishedAt p.s.frame p.checkpoint := by
    simp only [mem_iff_getElem?, List.getElem?_take, hkeys, Option.ite_none_right_eq_some, and_comm]
  have hrows : key ∈ (p.units.filter (fun u => u.start < p.current-activeWindowRows)).flatMap
      (fun u => slice p.s.frame.keys u.start u.stop) ↔ ∃ i, keyAt p.s.frame i = some key ∧
        ∃ u ∈ p.units, u.start < p.current-activeWindowRows ∧ u.Contains i := by
    simp only [mem_flatMap, mem_filter, mem_slice, hkeys, decide_eq_true_eq]
    constructor
    · rintro ⟨u,⟨hu,hlt⟩,i,h1,h2,hi⟩
      exact ⟨i,hi,u,hu,hlt,h1,h2⟩
    · rintro ⟨i,hi,u,hu,hlt,h1,h2⟩
      exact ⟨u,⟨hu,hlt⟩,i,h1,h2,hi⟩
  rw [hidden, mem_append, mem_append, hfront, hrows, or_assoc]

theorem windowStart_rows (i : ℕ) : i < windowStart p.units p.current ↔
    ∃ u ∈ p.units, u.start < p.current-activeWindowRows ∧ u.Contains i := by
  have hcover : i < p.turnStart → ∃ u ∈ p.units, u.Contains i := by
    intro hlt
    obtain ⟨span,hspan,hin⟩ := tiles_cover 0 _ _ p.units_tiled i (Nat.zero_le _) hlt
    obtain ⟨u,hu,rfl⟩ := mem_map.mp hspan
    exact ⟨u,hu,hin⟩
  unfold windowStart
  generalize p.current-activeWindowRows = rows
  split
  · rename_i hnone
    rw [requiredFrom_turn]
    constructor
    · intro hlt
      obtain ⟨u,hu,hin⟩ := hcover hlt
      have hstop := find?_eq_none.mp hnone u hu
      have horder := unit_order hu
      exact ⟨u,hu,by simp only [decide_eq_true_eq] at hstop; omega,hin⟩
    · rintro ⟨u,hu,-,hin⟩
      exact Nat.lt_of_le_of_lt hin.2 (unit_order hu).2
  rename_i v hfind
  obtain ⟨hv,front,back,hsplit,hfront⟩ := find?_eq_some_iff_append.mp hfind
  have hvin : v ∈ p.units := List.mem_of_find?_eq_some hfind
  have hapart := p.units_apart
  rw [hsplit, pairwise_append, pairwise_cons] at hapart
  -- a unit ends before `v` and before the rows, is `v`, or begins behind it
  have hcases : ∀ u ∈ p.units, (u.stop < rows ∧ u.stop < v.start) ∨ u = v ∨ v.stop < u.start := by
    intro u hu
    rw [hsplit, mem_append, mem_cons] at hu
    rcases hu with hu | rfl | hu
    · have hstop := hfront u hu
      exact .inl ⟨by simpa using hstop,hapart.2.2 u hu v mem_cons_self⟩
    · exact .inr (.inl rfl)
    · exact .inr (.inr (hapart.2.1.1 u hu))
  have hrows : rows ≤ v.stop := by simpa using hv
  have hvorder := unit_order hvin
  constructor
  · intro hlt
    obtain ⟨u,hu,hin⟩ := hcover (by split_ifs at hlt <;> omega)
    have horder := unit_order hu
    obtain ⟨h1,h2⟩ := hin
    refine ⟨u,hu,?_,h1,h2⟩
    rcases hcases u hu with h | rfl | h <;> split_ifs at hlt <;> omega
  · rintro ⟨u,hu,hlt,h1,h2⟩
    rcases hcases u hu with h | rfl | h <;> split_ifs <;> omega

def rowWindow : ActiveContext :=
  { previous.getD ActiveContext.default with
    archived := archive p.s.frame p.covered 0 (windowStart p.units p.current)
      (archive p.s.frame p.covered 0 (publishedAt p.s.frame p.checkpoint)
        (previous.getD ActiveContext.default).archived) }

/-- What is archived once the units before `first` but the head are left out, too. -/
def cutKeys (head : Option ℕ) (first : ℕ) : List ContextItemKey :=
  archiveUnits p.s.frame p.covered head (p.units.takeWhile (fun u => u.start < first))
    (p.rowWindow previous).archived

variable {p previous}

theorem mem_row {key : ContextItemKey} (hfree : key ∉ p.covered) :
    key ∈ (p.rowWindow previous).archived ↔ key ∈ p.hidden previous := by
  simp only [rowWindow, mem_archive, mem_hidden, hfree, not_false_eq_true, true_and, Nat.zero_le,
    windowStart_rows, or_assoc]

theorem mem_cut {head : Option ℕ} {first : ℕ} {key : ContextItemKey} (hfree : key ∉ p.covered) :
    key ∈ p.cutKeys previous head first ↔ key ∈ p.hidden previous ∨
      ∃ i, keyAt p.s.frame i = some key ∧
        ∃ u ∈ p.units, keeps first head u = false ∧ u.Contains i := by
  simp only [cutKeys, mem_archiveUnits, mem_row hfree, hfree, not_false_eq_true, true_and, keeps,
    mem_filter, mem_takeWhile_sorted p.units_sorted, decide_eq_true_eq, Bool.or_eq_false_iff,
    decide_eq_false_iff_not, Nat.not_le, and_assoc]

theorem cut_unit {head : Option ℕ} {first : ℕ} {u : WindowUnit} (hu : u ∈ p.units) :
    p.unitRaw (p.cutKeys previous head first) u =
      if keeps first head u then p.unitRaw (p.hidden previous) u else 0 := by
  have hitems : ∀ item ∈ slice p.s.items u.start u.stop,
      ∃ i, keyAt p.s.frame i = some item.key ∧ u.Contains i := by
    intro item hitem
    obtain ⟨i,h1,h2,hi⟩ := (mem_slice _ _ _ _).mp hitem
    exact ⟨i,by simp [keyAt, ContextSnapshot.frame, hi],h1,h2⟩
  split_ifs with hkeep
  · refine p.raw_congr (fun item hitem hfree => ?_)
    rw [mem_cut hfree, or_iff_left_iff_imp]
    rintro ⟨i,hi,v,hv,hdrop,hin⟩
    obtain ⟨j,hj,hown⟩ := hitems item hitem
    obtain rfl := keyAt_unique p.accepted.keys hi hj
    rw [← same_unit hu hv (unit_unique p.accepted hu hv hown hin).1, hkeep] at hdrop
    cases hdrop
  · refine p.raw_gone (fun item hitem hfree => ?_)
    obtain ⟨i,hi,hown⟩ := hitems item hitem
    exact (mem_cut hfree).mpr (.inr ⟨i,hi,u,hu,by simpa using hkeep,hown⟩)

end Hidden

section Pass
variable (previous : Option ActiveContext) (budget : ℕ)

/-- What the window counts, the marker if it is already cut. -/
def total : ℕ :=
  p.required p.turnStart+(p.units.map (p.unitTokens (p.hidden previous))).sum+
    if (previous.getD ActiveContext.default).truncated then p.marker else 0

def spare : ℕ := budget-(p.required p.turnStart+p.marker)

def head : Option WindowUnit :=
  p.headOf (p.unitTokens (p.hidden previous)) (p.spare budget) previous

def headStart : Option ℕ := (p.head previous budget).map WindowUnit.start

def cut : ℕ :=
  p.cutAt (p.unitTokens (p.hidden previous)) (p.spare budget) (p.headStart previous budget)

/-- What the window counts after the cut. -/
def cutTotal : ℕ :=
  p.required p.turnStart+p.keptTokens (p.unitTokens (p.hidden previous))
    (p.headStart previous budget) (p.cut previous budget)+p.marker

def narrowed : ActiveContext :=
  ⟨p.cutKeys previous (p.headStart previous budget) (p.cut previous budget),
    (p.head previous budget).bind (fun u => keyAt p.s.frame u.start), true⟩

theorem fitStart_published (active : ActiveContext) :
    fitStart p.s p.checkpoint p.covered active =
      .ok ⟨archive p.s.frame p.covered 0 (publishedAt p.s.frame p.checkpoint) active.archived,
        active.head,active.truncated⟩ := by
  unfold fitStart publishedAt
  cases hb : p.checkpoint.bind CheckpointPayload.activeStart with
  | none => simp [archive]
  | some start =>
    obtain ⟨c,hc,hcs⟩ := Option.bind_eq_some_iff.mp hb
    have hstart := (p.accepted.payload c hc).start start hcs
    have hcovered : start ∈ coveredKeys p.checkpoint := by
      rw [hc]
      exact mem_append_left _ hstart
    obtain ⟨i,-,hi,-⟩ := covered_item p.accepted hcovered
    simp [itemPosition, hi]

theorem total_small : p.total previous ≤ usizeMax := by
  have hsmall := p.unitTokens_small (p.hidden previous)
  unfold total
  split_ifs <;> omega

theorem head_fits (u : WindowUnit) (h : p.head previous budget = some u) :
    u ∈ p.units ∧ p.unitTokens (p.hidden previous) u ≤ p.spare budget := headOf_some h

theorem kept_cut : p.cutTotal previous budget ≤ max budget (p.required p.turnStart+p.marker) := by
  have hkept := kept_le (p.head_fits previous budget)
  unfold cutTotal cut headStart
  unfold spare at hkept ⊢
  omega

theorem row_tokens :
    p.unitTokens (p.rowWindow previous).archived = p.unitTokens (p.hidden previous) := by
  funext u
  have hraw : p.unitRaw (p.rowWindow previous).archived u = p.unitRaw (p.hidden previous) u :=
    p.raw_congr (fun _ _ => mem_row)
  rw [unitTokens, unitMemory, hraw]
  rfl

theorem fit_pass : fit p.lib p.s p.checkpoint (some budget) previous =
    .ok (if p.total previous ≤ budget then p.rowWindow previous
      else p.narrowed previous budget) := by
  have hposition : itemPosition p.s.frame p.s.currentUser = .ok p.current := by
    have hcurrent := p.accepted.position
    simp only [ContextSnapshot.frame] at hcurrent ⊢
    simp [itemPosition, hcurrent]
  have hsmall := p.unitTokens_small (p.hidden previous)
  have hrequired := p.required_sum p.turnStart
  have hvisible : visibleUnits p.lib p.s p.checkpoint p.covered (p.rowWindow previous).archived
      p.units = p.visible (p.unitTokens (p.hidden previous)) := by
    rw [visibleUnits, tokensOf_sum, row_tokens]
    rfl
  have hsum : ((p.visible (p.unitTokens (p.hidden previous))).map Prod.snd).sum =
      (p.units.map (p.unitTokens (p.hidden previous))).sum := by
    simpa using p.visible_kept (p.unitTokens (p.hidden previous)) (fun _ => true)
  have hmark : satAdd (p.required p.turnStart) (p.lib.countTokens truncationMarker) =
      p.required p.turnStart+p.marker := Nat.min_eq_left hrequired.2
  have htotal : satAdd (satSum (p.required p.turnStart)
      ((p.visible (p.unitTokens (p.hidden previous))).map Prod.snd))
      (if (previous.getD ActiveContext.default).truncated = true
        then p.lib.countTokens truncationMarker else 0) = p.total previous := by
    rw [satSum_small _ _ (by rw [hsum]; omega), hsum]
    exact Nat.min_eq_left (p.total_small previous)
  have hunits : windowUnits p.s.frame p.checkpoint (atomicGroups p.s.frame) p.current = p.units := rfl
  have hrow : archive p.s.frame p.covered 0 (windowStart p.units p.current)
      (archive p.s.frame p.covered 0 (publishedAt p.s.frame p.checkpoint)
        (previous.getD ActiveContext.default).archived) = (p.rowWindow previous).archived := rfl
  have hopening := opening_cut (p.head_fits previous budget) (by omega)
  unfold head at hopening
  unfold fit
  rw [coverage]
  simp only [hposition, fitStart_published]
  unfold fitBudget
  dsimp only
  rw [hunits]
  simp only [hrow, requiredFrom_turn, hrequired.1, hvisible, htotal, hmark, headUnit_eq,
    Option.map_map, Option.bind_map, Function.comp_def]
  rw [show budget-(p.required p.turnStart+p.marker) = p.spare budget from rfl, hopening]
  rfl

variable {previous budget}

/-- The pass before, if any, was a pass over the same conversation. -/
def Continues (previous : Option ActiveContext) : Prop :=
  ∀ active, previous = some active → Selected p.lib p.s.frame p.checkpoint active

variable {p} (hp : p.Continues previous)
include hp

theorem row_archives :
    Archives p.s.frame p.checkpoint p.current (p.rowWindow previous).archived := by
  have hfit := p.fit_pass previous usizeMax
  rw [if_pos (p.total_small previous)] at hfit
  refine selected_archives p.accepted (?_ : Selected p.lib _ _ _)
  cases previous with
  | none => exact .select p.s (some usizeMax) _ rfl hfit
  | some active => exact .refit p.s (some usizeMax) active _ rfl (hp active rfl) hfit

/-- Nothing of the current turn is left out. -/
theorem cut_turn {head : Option ℕ} {first i : ℕ} {key : ContextItemKey}
    (hkey : keyAt p.s.frame i = some key) (hi : p.turnStart ≤ i) :
    key ∉ p.cutKeys previous head first := by
  intro hin
  rcases (mem_archiveUnits _ _ _ _ _ _).mp hin with hin | ⟨-,j,hj,u,hu,hcj⟩
  · obtain ⟨g,hfound,hg,hc⟩ := p.current_group
    have hlt := archives_before p.accepted (row_archives hp) hg hc hkey hin
    rw [turnStart, hfound, Option.map_some, Option.getD_some] at hi
    omega
  · obtain rfl := keyAt_unique p.accepted.keys hj hkey
    have horder := unit_order (p.units.takeWhile_subset _ (mem_filter.mp hu).1)
    have hstop := hcj.2
    omega

omit hp

variable (p) in
/-- The memory of an older section, if its anchor is shown. -/
def shown (archived : List ContextItemKey) : ℕ :=
  partTokens p.lib ((previousActive p.s.frame p.checkpoint).filter (fun part =>
    !part.anchor.any (fun key => key ∈ archived)))

theorem shown_anchor {part : CheckpointSection} {anchor : ContextItemKey}
    (hpart : previousActive p.s.frame p.checkpoint = some part) (hanchor : part.anchor = some anchor)
    (archived : List ContextItemKey) :
    p.shown archived = if anchor ∈ archived then 0 else sectionTokens p.lib part := by
  rw [shown, hpart]
  split_ifs with hin
  · rw [Option.filter_some_neg (by simp [hanchor, hin])]
    rfl
  · rw [Option.filter_some_pos (by simp [hanchor, hin])]
    rfl

theorem visible_tokens {active : ActiveContext} (hcurrent : p.s.currentUser ∉ active.archived) :
    partTokens p.lib (visibleActiveSection p.checkpoint active) =
      p.turnMemory+p.shown active.archived := by
  unfold visibleActiveSection turnMemory shown previousActive
  cases p.checkpoint.bind CheckpointPayload.active with
  | none => simp [partTokens]
  | some part =>
    by_cases hsame : part.anchor = some p.s.currentUser
    · have hvisible : (some part).filter (fun part =>
          !part.anchor.any (fun key => key ∈ active.archived)) = some part :=
        Option.filter_some_pos (by simp [hsame, hcurrent])
      rw [hvisible]
      simp [ContextSnapshot.frame, hsame, Option.filter, partTokens]
    · simp [ContextSnapshot.frame, hsame, Option.filter]

include hp in
/-- The estimate of a window that leaves out the units before `first` but the head. -/
theorem cut_estimate {head : Option ℕ} {first : ℕ} {active : ActiveContext}
    (hactive : active.archived = p.cutKeys previous head first) :
    projectedTokenEstimate p.lib p.s p.checkpoint active p.covered+
        p.keptTokens (p.unitMemory (p.hidden previous)) head first =
      p.required p.turnStart+p.keptTokens (p.unitTokens (p.hidden previous)) head first+
        p.shown active.archived+if active.truncated then p.marker else 0 := by
  obtain ⟨g,hfound,-,hc⟩ := p.current_group
  have hcurrent : p.s.currentUser ∉ active.archived := by
    refine hactive ▸ cut_turn hp ((keyAt_position p.accepted.keys _ _).mpr p.accepted.position) ?_
    rw [turnStart, hfound]
    exact hc.1
  have hturn : ∀ item ∈ p.s.items.drop p.turnStart, item.key ∉ active.archived := by
    intro item hitem
    obtain ⟨i,hi⟩ := List.getElem?_of_mem hitem
    rw [getElem?_drop] at hi
    exact hactive ▸ cut_turn hp (by simp [keyAt, ContextSnapshot.frame, hi]) (Nat.le_add_right _ i)
  have hraw := sum_filter_eq p.units (keeps first head) (p.unitRaw active.archived)
    (p.unitRaw (p.hidden previous)) (fun u hu => hactive ▸ cut_unit hu)
  have hkept : p.keptTokens (p.unitTokens (p.hidden previous)) head first =
      ((p.units.filter (keeps first head)).map (p.unitRaw (p.hidden previous))).sum+
        p.keptTokens (p.unitMemory (p.hidden previous)) head first := sum_map_add
  rw [estimate_sum, visible_tokens hcurrent, p.raw_split _ hturn, hraw, hkept, required]
  omega

end Pass

section Fits
variable (previous : Option ActiveContext) (budget : ℕ)

/-- Where the window begins: at the first unit unless it is cut. -/
def first : ℕ := if p.total previous ≤ budget then 0 else p.cut previous budget

/-- What the window counts for the prompt it selects. -/
def counted : ℕ :=
  if p.total previous ≤ budget then p.total previous else p.cutTotal previous budget

/-- The older section `part`, whose anchor is the item at `a`, is not hidden, and its memory is
counted in no unit: the anchor comes after the current user, or what its unit replays is
estimated at nothing. -/
structure Unpriced (part : CheckpointSection) (a : ℕ) : Prop where
  active : previousActive p.s.frame p.checkpoint = some part
  anchor : ∃ anchor, part.anchor = some anchor ∧ p.s.frame.position anchor = some a ∧
    anchor ∉ p.hidden previous
  free : ∀ u ∈ p.units, u.carriesActiveMemory = true → p.unitRaw (p.hidden previous) u = 0

/-- The memory of such a section is sent with its unit, and what the window counts leaves no
room for it. -/
def Overflows : Prop :=
  ∃ part a, p.Unpriced previous part a ∧
    (∀ u ∈ p.units, u.Contains a → keeps (p.first previous budget) (p.headStart previous budget) u) ∧
    budget < p.counted previous budget+sectionTokens p.lib part

def FitsBudget (outcome : Except ContextError ActiveContext) : Prop :=
  ∃ next tokens, outcome = .ok next ∧ estimateTokens p.lib p.s p.checkpoint next = .ok tokens ∧
    tokens ≤ budget

variable {p previous budget}

theorem counted_le (hfloor : p.floor ≤ budget) : p.counted previous budget ≤ budget := by
  have hturn := p.floor_turn
  have hcut := p.kept_cut previous budget
  unfold counted
  split_ifs <;> omega

theorem kept_all (cost : WindowUnit → ℕ) (head : Option ℕ) :
    p.keptTokens cost head 0 = (p.units.map cost).sum := by
  rw [keptTokens, filter_eq_self.mpr]
  simp [keeps]

theorem pass_estimate (hp : p.Continues previous) : ∃ next,
    fit p.lib p.s p.checkpoint (some budget) previous = .ok next ∧
    next.archived = p.cutKeys previous (p.headStart previous budget) (p.first previous budget) ∧
    projectedTokenEstimate p.lib p.s p.checkpoint next p.covered+
        p.keptTokens (p.unitMemory (p.hidden previous)) (p.headStart previous budget)
          (p.first previous budget) =
      p.counted previous budget+p.shown next.archived := by
  refine ⟨_,p.fit_pass previous budget,?_⟩
  unfold first counted
  split_ifs with hfits
  · have hrow : (p.rowWindow previous).archived =
        p.cutKeys previous (p.headStart previous budget) 0 := by
      have hnone : p.units.takeWhile (fun u => u.start < 0) = [] := by cases p.units <;> simp
      rw [cutKeys, hnone]
      rfl
    refine ⟨hrow,?_⟩
    rw [cut_estimate hp hrow, kept_all, total]
    exact Nat.add_right_comm _ _ _
  · refine ⟨rfl,?_⟩
    rw [cut_estimate hp rfl, cutTotal]
    exact Nat.add_right_comm _ _ _

/-- The anchor is shown exactly when it is not hidden and its unit is kept. -/
theorem anchor_shown {part : CheckpointSection} {anchor : ContextItemKey} {a : ℕ}
    (hpart : previousActive p.s.frame p.checkpoint = some part) (hanchor : part.anchor = some anchor)
    (hpos : p.s.frame.position anchor = some a) (head : Option ℕ) (first : ℕ) :
    anchor ∉ p.cutKeys previous head first ↔
      anchor ∉ p.hidden previous ∧ ∀ u ∈ p.units, u.Contains a → keeps first head u := by
  obtain ⟨other,-,hother,-,-,hfree,-⟩ := older_section p.accepted hpart
  obtain rfl := Option.some.inj (hanchor.symm.trans hother)
  have hkey := (keyAt_position p.accepted.keys a anchor).mpr hpos
  rw [mem_cut hfree, not_or]
  refine and_congr_right (fun _ => ⟨fun hnone u hu hc => ?_,?_⟩)
  · by_contra hdrop
    exact hnone ⟨a,hkey,u,hu,by simpa using hdrop,hc⟩
  · rintro hall ⟨i,hi,u,hu,hdrop,hc⟩
    obtain rfl := keyAt_unique p.accepted.keys hi hkey
    rw [hall u hu hc] at hdrop
    cases hdrop

/-- One pass: the prompt is within a budget that holds what must be sent exactly when no
uncounted memory overflows it. -/
theorem pass_fits (hp : p.Continues previous) (hfloor : p.floor ≤ budget) :
    p.FitsBudget budget (fit p.lib p.s p.checkpoint (some budget) previous) ↔
      ¬p.Overflows previous budget := by
  obtain ⟨next,hfit,hnext,hestimate⟩ := @pass_estimate _ p previous budget hp
  have hcounted := @counted_le _ p previous budget hfloor
  have htokens : estimateTokens p.lib p.s p.checkpoint next =
      .ok (projectedTokenEstimate p.lib p.s p.checkpoint next p.covered) := by
    rw [estimateTokens, coverage]
  have houtcome : p.FitsBudget budget (fit p.lib p.s p.checkpoint (some budget) previous) ↔
      projectedTokenEstimate p.lib p.s p.checkpoint next p.covered ≤ budget := by
    simp [FitsBudget, hfit, htokens]
  rw [houtcome, ← Nat.not_lt, not_iff_not]
  constructor
  · intro hlt
    cases hpart : previousActive p.s.frame p.checkpoint with
    | none =>
      have hzero : p.shown next.archived = 0 := by
        rw [shown, hpart]
        rfl
      omega
    | some part =>
      obtain ⟨anchor,a,hanchor,hpos,-⟩ := older_section p.accepted hpart
      have hpriced := shown_anchor hpart hanchor next.archived
      split_ifs at hpriced with hin
      · omega
      obtain ⟨hopen,hkept⟩ := (anchor_shown hpart hanchor hpos _ _).mp (hnext ▸ hin)
      refine ⟨part,a,⟨hpart,⟨anchor,hanchor,hpos,hopen⟩,fun u hu hc => ?_⟩,hkept,by omega⟩
      -- a carrier that costs something is kept and pays for the memory
      by_contra hraw
      obtain ⟨b,hb,hin⟩ := carrier_anchor hu hc hpart hanchor
      obtain rfl := Option.some.inj (hpos.symm.trans hb)
      have hmemory : p.unitMemory (p.hidden previous) u = sectionTokens p.lib part := by
        rw [unitMemory, if_pos ⟨hc,by omega⟩, memory, hpart]
        rfl
      have hle : p.unitMemory (p.hidden previous) u ≤ p.keptTokens
          (p.unitMemory (p.hidden previous)) (p.headStart previous budget)
          (p.first previous budget) :=
        le_sum_of_mem (mem_map_of_mem (mem_filter.mpr ⟨hu,hkept u hu hin⟩))
      omega
  · rintro ⟨part,a,⟨hpart,⟨anchor,hanchor,hpos,hopen⟩,hfree⟩,hkept,hlt⟩
    have hin := hnext ▸ (anchor_shown hpart hanchor hpos _ _).mpr ⟨hopen,hkept⟩
    have hpriced := shown_anchor hpart hanchor next.archived
    have hzero : p.keptTokens (p.unitMemory (p.hidden previous)) (p.headStart previous budget)
        (p.first previous budget) = 0 := by
      refine sum_eq_zero (fun n hn => ?_)
      obtain ⟨u,hu,rfl⟩ := mem_map.mp hn
      refine if_neg (fun hcarries => ?_)
      have hraw := hfree u (mem_filter.mp hu).1 hcarries.1
      omega
    rw [if_neg hin] at hpriced
    omega

end Fits

end Setting

/-- At a budget that holds what must be sent, the selected window and any later one fit exactly
when no uncounted memory of an older section overflows that budget. -/
theorem window_fits_budget {V : Type} (p : Setting V) (budget : ℕ) (hfloor : p.floor ≤ budget) :
    (p.FitsBudget budget (select p.lib p.s p.checkpoint (some budget)) ↔
      ¬p.Overflows none budget) ∧
    ∀ active, Selected p.lib p.s.frame p.checkpoint active →
      (p.FitsBudget budget (refit p.lib p.s p.checkpoint active (some budget)) ↔
        ¬p.Overflows (some active) budget) := by
  refine ⟨Setting.pass_fits (fun _ h => by cases h) hfloor,fun active hactive => ?_⟩
  refine Setting.pass_fits (fun other hother => ?_) hfloor
  cases hother
  exact hactive

def textLibrary : Library String := ⟨String.length, id, id, 0⟩

def sampleItem (kind : ContextItemKind) (uuid response tokens : ℕ) : ContextItem String :=
  { key := ⟨kind, uuid⟩, responseUuid := some response, settled := true, toolCallId := none,
    protectedInput := false, historicalUnmatched := false, promptMessages := [],
    summaryMessages := [], estimatedTokens := tokens, payloadLoaded := true }

def olderSetting : Setting String :=
  { lib := textLibrary
    s := ⟨[], 5, [sampleItem .user 1 1 30, sampleItem .assistant 2 1 10, sampleItem .user 3 2 10],
      ⟨.user, 3⟩, 2⟩
    checkpoint := some { CheckpointPayload.default with
      active := some ⟨"memory", [⟨.assistant, 2⟩], some ⟨.user, 1⟩⟩ }
    valid := ⟨[⟨.assistant, 2⟩],by rfl⟩
    unsaturated := by unfold Unsaturated; decide +kernel }

def laterSection : CheckpointSection := ⟨"memory", [⟨.assistant, 4⟩], some ⟨.user, 3⟩⟩

/-- The first response still runs while a later one has summarised its own work. -/
def laterSetting : Setting String :=
  { lib := textLibrary
    s := ⟨[], 0, [sampleItem .user 1 1 300, sampleItem .user 2 2 10, sampleItem .user 3 3 10,
      sampleItem .assistant 4 3 10], ⟨.user, 2⟩, 2⟩
    checkpoint := some { CheckpointPayload.default with active := some laterSection }
    valid := ⟨[⟨.assistant, 4⟩],by rfl⟩
    unsaturated := by unfold Unsaturated; decide +kernel }

theorem later_room (previous : Option ActiveContext) (budget : ℕ)
    (h : laterSetting.counted previous budget+sectionTokens textLibrary laterSection ≤ budget) :
    ¬laterSetting.Overflows previous budget := by
  rintro ⟨part,a,⟨hpart,-,-⟩,-,hlt⟩
  obtain rfl : laterSection = part := Option.some.inj hpart
  exact Nat.not_lt.mpr h hlt

theorem window_fits_budget_sample :
    olderSetting.FitsBudget 70 (select textLibrary olderSetting.s olderSetting.checkpoint (some 70)) ∧
    laterSetting.FitsBudget 200
      (select textLibrary laterSetting.s laterSetting.checkpoint (some 200)) ∧
    laterSetting.FitsBudget 1000
      (select textLibrary laterSetting.s laterSetting.checkpoint (some 1000)) ∧
    laterSetting.FitsBudget 150 (refit textLibrary laterSetting.s laterSetting.checkpoint
      ⟨[⟨.user, 1⟩], none, true⟩ (some 150)) := by
  refine ⟨(window_fits_budget olderSetting 70 (by decide +kernel)).1.mpr ?_,
    (window_fits_budget laterSetting 200 (by decide +kernel)).1.mpr
      (later_room _ _ (by decide +kernel)),
    (window_fits_budget laterSetting 1000 (by decide +kernel)).1.mpr
      (later_room _ _ (by decide +kernel)),
    ((window_fits_budget laterSetting 150 (by decide +kernel)).2 ⟨[⟨.user, 1⟩], none, true⟩
      (.select laterSetting.s (some 200) _ rfl (by rfl))).mpr (later_room _ _ (by decide +kernel))⟩
  -- the unit with the anchor costs thirty tokens and counts the memory
  rintro ⟨part,a,⟨-,-,hfree⟩,-⟩
  have hraw := hfree ⟨0, 1, 0, 1, true, true⟩ (by decide +kernel) rfl
  revert hraw
  decide +kernel

theorem later_memory_overflows : laterSetting.floor ≤ 320 ∧
    ∃ next, select textLibrary laterSetting.s laterSetting.checkpoint (some 320) = .ok next ∧
      ∃ tokens, estimateTokens textLibrary laterSetting.s laterSetting.checkpoint next = .ok tokens ∧
        320 < tokens := by
  refine ⟨by decide +kernel,_,rfl,_,rfl,by decide +kernel⟩

end Maple.Compaction.Budget

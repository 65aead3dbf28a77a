import Maple.Compaction.Units

/-!
# The active window

`fit` archives items the sliding window would not show: uncovered items before
the published start, rows outside the row window, and units that do not fit the
token budget. `archived_spec` says once what `fit` may archive. Everything later
modules need to know about the window follows from it: archiving respects group
boundaries, never touches covered items or the current exchange, and only grows.
-/

set_option autoImplicit false

namespace Maple.Compaction.Window
open Tiling Items Groups Coverage Units List

/-- The tokenizer, the JSON values it counts, and the size of the fixed summary prompt. -/
structure Library (V : Type) where
  countTokens : String → ℕ
  message : String → V
  render : V → String
  promptTokens : ℕ

def truncationMarker : String := "[Previous messages truncated due to context limits]"

def activeWindowRows : ℕ := 1000

section Messages
variable {V : Type} (lib : Library V)

def summaryMessage (part : CheckpointSection) : V :=
  lib.message ("[Conversation memory: summarized earlier context]\n"++part.summary)

def sectionTokens (part : CheckpointSection) : ℕ :=
  lib.countTokens (lib.render (summaryMessage lib part))

def truncationMessage : V := lib.message truncationMarker

end Messages

structure ActiveContext where
  archived : List ContextItemKey
  head : Option ContextItemKey
  truncated : Bool
  deriving DecidableEq, Repr

def ActiveContext.default : ActiveContext := ⟨[], none, false⟩

def keyAt (f : Frame) (i : ℕ) : Option ContextItemKey := (f.items[i]?).map ItemMeta.key

def itemPosition (f : Frame) (key : ContextItemKey) : Except ContextError ℕ :=
  match f.position key with
  | some i => .ok i
  | none => .error (.snapshot "source item is absent")

/-- Archive the uncovered items of the range `start..stop`. -/
def archive (f : Frame) (covered : List ContextItemKey) (start stop : ℕ)
    (archived : List ContextItemKey) : List ContextItemKey :=
  archived++((f.keys.drop start).take (stop-start)).filter (fun key => key ∉ covered)

def archiveUnits (f : Frame) (covered : List ContextItemKey) (head : Option ℕ) :
    List WindowUnit → List ContextItemKey → List ContextItemKey
  | [], archived => archived
  | u::units, archived =>
    archiveUnits f covered head units
      (if some u.start ≠ head then archive f covered u.start (u.stop+1) archived else archived)

def windowStart (units : List WindowUnit) (current : ℕ) : ℕ :=
  match units.find? (fun u => current-activeWindowRows ≤ u.stop) with
  | none => requiredFrom units
  | some u => if u.start < current-activeWindowRows then u.stop+1 else u.start

/-- Walk the visible units from the newest, as long as they fit. -/
def tailLoop (head : Option ℕ) (available : ℕ) :
    List (WindowUnit × ℕ) → ℕ → List WindowUnit
  | [], _ => []
  | (u, tokens)::rest, spent =>
    if some u.start = head then tailLoop head available rest spent
    else if available < satAdd spent tokens then []
    else u::tailLoop head available rest (satAdd spent tokens)

section Fit
variable {V : Type} (lib : Library V) (s : ContextSnapshot V)
variable (checkpoint : Option CheckpointPayload)

def replayedTokens (covered archived : List ContextItemKey) (items : List (ContextItem V)) : ℕ :=
  satSum 0 ((items.filter (fun item => item.key ∉ covered ∧ item.key ∉ archived)).map
    ContextItem.estimatedTokens)

def tokensOf (covered archived : List ContextItemKey) (u : WindowUnit) : ℕ :=
  let raw := replayedTokens covered archived (slice s.items u.start u.stop)
  match u.carriesActiveMemory, previousActive s.frame checkpoint with
  | true, some part => if 0 < raw then satAdd raw (sectionTokens lib part) else raw
  | _, _ => raw

def requiredTokens (covered : List ContextItemKey) (start : ℕ) : ℕ :=
  let raw := satSum s.instructionTokens
    (((s.items.drop start).filter (fun item => item.key ∉ covered)).map
      ContextItem.estimatedTokens)
  let active := if previousActive s.frame checkpoint = none
    then checkpoint.bind CheckpointPayload.active else none
  satSum raw (((checkpoint.bind CheckpointPayload.history).toList++active.toList).map
    (sectionTokens lib))

def visibleUnits (covered archived : List ContextItemKey) (units : List WindowUnit) :
    List (WindowUnit × ℕ) :=
  (units.map (fun u => (u, tokensOf lib s checkpoint covered archived u))).filter
    (fun entry => 0 < entry.2)

/-- The opening unit that stays although older units around it are archived. -/
def headUnit (previous : Option ActiveContext) (visible : List (WindowUnit × ℕ))
    (available : ℕ) : Option (WindowUnit × ℕ) :=
  (visible.find? (fun entry => match previous with
    | some previous => previous.head = keyAt s.frame entry.1.start
    | none => entry.1.startsWithUser)).filter (fun entry =>
      (checkpoint.bind CheckpointPayload.history).isNone && entry.2 ≤ available)

def opening (units tail : List WindowUnit) : ℕ :=
  match tail.find? WindowUnit.startsWithUser with
  | none => requiredFrom units
  | some u => u.start

def fitBudget (covered : List ContextItemKey) (current budget : ℕ)
    (previous : Option ActiveContext) (result : ActiveContext) : ActiveContext :=
  let units := windowUnits s.frame checkpoint (atomicGroups s.frame) current
  let archived := archive s.frame covered 0 (windowStart units current) result.archived
  let required := requiredTokens lib s checkpoint covered (requiredFrom units)
  let visible := visibleUnits lib s checkpoint covered archived units
  let marker := lib.countTokens truncationMarker
  let total := satSum required (visible.map Prod.snd)
  if satAdd total (if result.truncated then marker else 0) ≤ budget then
    { result with archived := archived }
  else
    let available := budget-satAdd required marker
    let head := headUnit s checkpoint previous visible available
    let available := available-(head.map Prod.snd).getD 0
    let headStart := head.map (fun entry => entry.1.start)
    let tail := (tailLoop headStart available visible.reverse 0).reverse
    let older := units.takeWhile (fun u => u.start < opening units tail)
    ⟨archiveUnits s.frame covered headStart older archived,
      head.bind (fun entry => keyAt s.frame entry.1.start), true⟩

def fitStart (covered : List ContextItemKey) (result : ActiveContext) :
    Except ContextError ActiveContext :=
  match checkpoint.bind CheckpointPayload.activeStart with
  | none => .ok result
  | some start =>
    match itemPosition s.frame start with
    | .error e => .error e
    | .ok i => .ok { result with archived := archive s.frame covered 0 i result.archived }

def fit (inputBudget : Option ℕ) (previous : Option ActiveContext) :
    Except ContextError ActiveContext :=
  match validatedCoverage s.frame checkpoint with
  | .error e => .error e
  | .ok covered =>
    match itemPosition s.frame s.currentUser with
    | .error e => .error e
    | .ok current =>
      match fitStart s checkpoint covered (previous.getD ActiveContext.default) with
      | .error e => .error e
      | .ok result =>
        match inputBudget with
        | none => .ok result
        | some budget => .ok (fitBudget lib s checkpoint covered current budget previous result)

def select (inputBudget : Option ℕ) : Except ContextError ActiveContext :=
  fit lib s checkpoint inputBudget none

def refit (active : ActiveContext) (inputBudget : Option ℕ) : Except ContextError ActiveContext :=
  fit lib s checkpoint inputBudget (some active)

end Fit

variable (f : Frame)

theorem keyAt_some (i : ℕ) (key : ContextItemKey) :
    keyAt f i = some key ↔ ∃ item, f.items[i]? = some item ∧ item.key = key := by
  simp [keyAt]

theorem keyAt_position {f : Frame} (hn : f.keys.Nodup) (i : ℕ) (key : ContextItemKey) :
    keyAt f i = some key ↔ f.position key = some i := by
  rw [keyAt_some]
  constructor
  · rintro ⟨item,hi,rfl⟩
    exact position_getElem hn hi
  · exact position_some f key i

theorem keyAt_unique {f : Frame} (hn : f.keys.Nodup) {i j : ℕ} {key : ContextItemKey}
    (hi : keyAt f i = some key) (hj : keyAt f j = some key) : i = j := by
  rw [keyAt_position hn] at hi hj
  exact Option.some.inj (hi.symm.trans hj)

theorem mem_archive (covered archived : List ContextItemKey) (start stop : ℕ)
    (key : ContextItemKey) :
    key ∈ archive f covered start stop archived ↔
      key ∈ archived ∨ key ∉ covered ∧ ∃ i, keyAt f i = some key ∧ start ≤ i ∧ i < stop := by
  have hrange : key ∈ (f.keys.drop start).take (stop-start) ↔
      ∃ i, keyAt f i = some key ∧ start ≤ i ∧ i < stop := by
    have hkeys : ∀ i, f.keys[i]? = keyAt f i := by
      intro i
      simp [Frame.keys, keyAt]
    rw [mem_iff_getElem?]
    simp only [List.getElem?_take, List.getElem?_drop, hkeys]
    constructor
    · rintro ⟨i,hi⟩
      split_ifs at hi with hlt
      exact ⟨start+i,hi,by omega,by omega⟩
    · rintro ⟨i,hi,h1,h2⟩
      refine ⟨i-start,?_⟩
      rw [if_pos (by omega), Nat.add_sub_cancel' h1, hi]
  rw [archive, mem_append, mem_filter, hrange, decide_eq_true_eq, and_comm]

theorem mem_archiveUnits (covered : List ContextItemKey) (head : Option ℕ) (units : List WindowUnit)
    (archived : List ContextItemKey) (key : ContextItemKey) :
    key ∈ archiveUnits f covered head units archived ↔
      key ∈ archived ∨ key ∉ covered ∧ ∃ i, keyAt f i = some key ∧
        ∃ u ∈ units.filter (fun u => some u.start ≠ head), u.Contains i := by
  induction units generalizing archived with
  | nil => simp [archiveUnits]
  | cons u units ih =>
    rw [archiveUnits, ih]
    split_ifs with h
    · rw [filter_cons_of_pos (by simpa using h), mem_archive]
      constructor
      · rintro ((ha | ⟨hc,i,hi,h1,h2⟩) | ⟨hc,i,hi,v,hv,hvi⟩)
        · exact Or.inl ha
        · exact Or.inr ⟨hc,i,hi,u,mem_cons_self,h1,by omega⟩
        · exact Or.inr ⟨hc,i,hi,v,mem_cons_of_mem _ hv,hvi⟩
      · rintro (ha | ⟨hc,i,hi,v,hv,hvi⟩)
        · exact Or.inl (Or.inl ha)
        · rcases mem_cons.mp hv with rfl | hv
          · exact Or.inl (Or.inr ⟨hc,i,hi,hvi.1,Nat.lt_succ_of_le hvi.2⟩)
          · exact Or.inr ⟨hc,i,hi,v,hv,hvi⟩
    · rw [filter_cons_of_neg (by simpa using h)]

/-- The positions archived by a published start and a choice of units. -/
def Region (published : ℕ) (chosen : List WindowUnit) (i : ℕ) : Prop :=
  i < published ∨ ∃ u ∈ chosen, u.Contains i

def publishedAt (f : Frame) (checkpoint : Option CheckpointPayload) : ℕ :=
  ((checkpoint.bind CheckpointPayload.activeStart).bind f.position).getD 0

section Spec
variable {V : Type} (lib : Library V) (s : ContextSnapshot V)
variable (checkpoint : Option CheckpointPayload) (current : ℕ)

theorem windowStart_units {f : Frame} (ha : Accepted f checkpoint current) :
    ∃ chosen : List WindowUnit,
      (∀ u ∈ chosen, u ∈ windowUnits f checkpoint (atomicGroups f) current) ∧
      ∀ i, i < windowStart (windowUnits f checkpoint (atomicGroups f) current) current ↔
        ∃ u ∈ chosen, u.Contains i := by
  have ht := units_tile ha
  generalize hu : windowUnits f checkpoint (atomicGroups f) current = units at ht
  have hcut : Cut (units.map WindowUnit.span) (windowStart units current) ∧
      windowStart units current ≤ requiredFrom units := by
    unfold windowStart
    split
    · exact ⟨(tiles_end_cut ht).2,Nat.le_refl _⟩
    rename_i u hfind
    have hmem := mem_map_of_mem (f := WindowUnit.span) (List.mem_of_find?_eq_some hfind)
    have hc := tiles_cut _ ht hmem
    have hb := tiles_bounds _ ht hmem
    split_ifs
    · exact ⟨hc.2,hb.2.2⟩
    · exact ⟨hc.1,Nat.le_of_lt (Nat.lt_of_le_of_lt hb.2.1 hb.2.2)⟩
  refine ⟨units.filter (fun u => u.stop < windowStart units current),?_,?_⟩
  · intro u hu
    exact mem_of_mem_filter hu
  intro i
  rw [tiles_below ht hcut.1 hcut.2 (Nat.zero_le _)]
  constructor
  · rintro ⟨g,hg,hlt,hc⟩
    obtain ⟨u,hmem,rfl⟩ := mem_map.mp hg
    exact ⟨u,mem_filter.mpr ⟨hmem,by simpa [WindowUnit.span] using hlt⟩,hc⟩
  · rintro ⟨u,hmem,hc⟩
    obtain ⟨hmem,hlt⟩ := mem_filter.mp hmem
    exact ⟨u.span,mem_map_of_mem hmem,by simpa [WindowUnit.span] using hlt,hc⟩

theorem fitBudget_archived (covered : List ContextItemKey) (budget : ℕ)
    (previous : Option ActiveContext) (result : ActiveContext) (units : List WindowUnit)
    (hu : units = windowUnits s.frame checkpoint (atomicGroups s.frame) current) :
    ∃ head older, (∀ u ∈ older, u ∈ units) ∧
      (fitBudget lib s checkpoint covered current budget previous result).archived =
        archiveUnits s.frame covered head older
          (archive s.frame covered 0 (windowStart units current) result.archived) := by
  subst hu
  unfold fitBudget
  simp only
  generalize (if result.truncated = true then lib.countTokens truncationMarker else 0) = marker
  split_ifs with hfits
  · exact ⟨none,[],by simp,rfl⟩
  · exact ⟨_,_,(takeWhile_sublist _).subset,rfl⟩

variable {checkpoint} {current}

theorem fitBudget_spec (ha : Accepted s.frame checkpoint current) (covered : List ContextItemKey)
    (budget : ℕ) (previous : Option ActiveContext) (result : ActiveContext) :
    ∃ chosen : List WindowUnit,
      (∀ u ∈ chosen, u ∈ windowUnits s.frame checkpoint (atomicGroups s.frame) current) ∧
      ∀ key, key ∈ (fitBudget lib s checkpoint covered current budget previous result).archived ↔
        key ∈ result.archived ∨ key ∉ covered ∧ ∃ i, keyAt s.frame i = some key ∧
          ∃ u ∈ chosen, u.Contains i := by
  obtain ⟨rows,hrows,hstart⟩ := windowStart_units checkpoint current ha
  obtain ⟨head,older,holder,heq⟩ :=
    fitBudget_archived lib s checkpoint current covered budget previous result _ rfl
  refine ⟨rows++older.filter (fun u => some u.start ≠ head),?_,fun key => ?_⟩
  · intro u hu
    rcases mem_append.mp hu with hu | hu
    · exact hrows u hu
    · exact holder u (mem_of_mem_filter hu)
  · rw [heq, mem_archiveUnits, mem_archive]
    simp only [Nat.zero_le, true_and, hstart]
    rw [or_assoc, ← and_or_left, ← exists_or]
    simp only [← and_or_left, mem_append, or_and_right, exists_or]

theorem fitStart_spec {covered : List ContextItemKey} {previous result : ActiveContext}
    (h : fitStart s checkpoint covered previous = .ok result) (key : ContextItemKey) :
    key ∈ result.archived ↔ key ∈ previous.archived ∨ key ∉ covered ∧
      ∃ i, keyAt s.frame i = some key ∧ i < publishedAt s.frame checkpoint := by
  unfold fitStart at h
  unfold publishedAt
  split at h
  · rename_i hnone
    cases h
    simp [hnone]
  rename_i start hsome
  unfold itemPosition at h
  rw [hsome, Option.bind_some]
  cases hp : s.frame.position start with
  | none =>
    rw [hp] at h
    cases h
  | some i =>
    rw [hp] at h
    cases h
    simp [mem_archive]

/-- The current turn of an accepted snapshot is found. -/
theorem current_position (ha : Accepted s.frame checkpoint current) :
    itemPosition s.frame s.currentUser = .ok current := by
  have hp : s.frame.position s.currentUser = some current := ha.position
  simp [itemPosition, hp]

variable {previous : Option ActiveContext}

theorem fit_ok_cases {budget : Option ℕ} {next : ActiveContext}
    (h : fit lib s checkpoint budget previous = .ok next) :
    ∃ current result, Accepted s.frame checkpoint current ∧
      fitStart s checkpoint (coveredKeys checkpoint) (previous.getD ActiveContext.default) =
        .ok result ∧
      (next = result ∨ ∃ budget, next = fitBudget lib s checkpoint (coveredKeys checkpoint)
        current budget previous result) := by
  unfold fit at h
  split at h
  · cases h
  rename_i covered hc
  obtain ⟨rfl,current,ha⟩ := (validatedCoverage_ok_iff _ _ _).mp hc
  rw [current_position s ha] at h
  simp only at h
  split at h
  · cases h
  rename_i result hr
  refine ⟨current,result,ha,hr,?_⟩
  split at h
  · cases h
    exact Or.inl rfl
  · cases h
    exact Or.inr ⟨_,rfl⟩

/-- What one pass archives: what was archived before, and the uncovered items before the
published start or in some whole units. -/
theorem archived_spec (ha : Accepted s.frame checkpoint current) {budget : Option ℕ}
    {next : ActiveContext}
    (h : fit lib s checkpoint budget previous = .ok next) : ∃ chosen : List WindowUnit,
      (∀ u ∈ chosen, u ∈ windowUnits s.frame checkpoint (atomicGroups s.frame) current) ∧
      ∀ key, key ∈ next.archived ↔ key ∈ (previous.getD ActiveContext.default).archived ∨
          key ∉ coveredKeys checkpoint ∧ ∃ i, keyAt s.frame i = some key ∧
            Region (publishedAt s.frame checkpoint) chosen i := by
  obtain ⟨c,result,hc,hstart,hnext⟩ := fit_ok_cases lib s h
  obtain rfl : c = current := Option.some.inj (hc.position.symm.trans ha.position)
  have hs := fitStart_spec s hstart
  rcases hnext with rfl | ⟨budget,rfl⟩
  · refine ⟨[],by simp,fun key => ?_⟩
    rw [hs]
    simp [Region]
  · obtain ⟨chosen,hmem,hall⟩ := fitBudget_spec lib s ha (coveredKeys checkpoint)
      budget previous result
    refine ⟨chosen,hmem,fun key => ?_⟩
    rw [hall, hs, or_assoc, ← and_or_left, ← exists_or]
    simp only [← and_or_left, Region]

/-- A pass over an accepted checkpoint does not fail. -/
theorem fit_total (ha : Accepted s.frame checkpoint current) (budget : Option ℕ)
    (previous : Option ActiveContext) : ∃ next, fit lib s checkpoint budget previous = .ok next := by
  have hstart : ∃ result, fitStart s checkpoint (coveredKeys checkpoint)
      (previous.getD ActiveContext.default) = .ok result := by
    unfold fitStart
    split
    · exact ⟨_,rfl⟩
    · rename_i start hsome
      obtain ⟨c,rfl,hcs⟩ := Option.bind_eq_some_iff.mp hsome
      obtain ⟨i,-,hi,-⟩ := covered_item ha (mem_append_left _ ((ha.payload c rfl).start start hcs))
      exact ⟨_,by simp only [itemPosition, hi]; rfl⟩
  obtain ⟨result,hr⟩ := hstart
  unfold fit
  rw [(validatedCoverage_ok_iff _ _ _).mpr ⟨rfl,current,ha⟩]
  simp only [current_position s ha, hr]
  cases budget <;> exact ⟨_,rfl⟩

end Spec

end Maple.Compaction.Window

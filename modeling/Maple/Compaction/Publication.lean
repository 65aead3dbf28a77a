import Maple.Compaction.Progress

/-!
# Published summaries

A history summary may skip items. The checkpoint then carries a start behind the
last skipped item, and every later window archives what lies before it. `Behind`
is the invariant: an item is covered or lies before the published start. No
publication and no growth of the conversation takes an item out of it.
-/

set_option autoImplicit false

namespace Maple.Compaction.Publication
open Items Groups Coverage Units Window Archive Projection Plan Selection Growth Completion Steps List
open Rounds Progress

theorem find_last {p : ℕ → Bool} {start n g : ℕ}
    (h : (List.range' start n).reverse.find? p = some g) :
    start ≤ g ∧ ∀ i, g < i → i < start+n → p i = false := by
  induction n with
  | zero => simp at h
  | succ n ih =>
    rw [List.range'_concat, reverse_append, reverse_singleton, singleton_append, Nat.one_mul] at h
    by_cases hp : p (start+n) = true
    · rw [List.find?_cons_of_pos hp] at h
      cases h
      exact ⟨by omega,fun i h1 h2 => by omega⟩
    rw [List.find?_cons_of_neg hp] at h
    obtain ⟨hle,hall⟩ := ih h
    refine ⟨hle,fun i h1 h2 => ?_⟩
    by_cases hi : i = start+n
    · rw [hi]
      exact Bool.eq_false_iff.mpr hp
    · exact hall i h1 (by omega)

variable {V : Type} {checkpoint : Option CheckpointPayload}

theorem published_position {s : ContextSnapshot V} {published : ℕ}
    (h : publishedPosition s checkpoint = .ok published) :
    published = publishedAt s.frame checkpoint := by
  unfold publishedPosition at h
  unfold publishedAt
  split at h
  · rename_i hnone
    cases h
    simp [hnone]
  rename_i start hstart
  unfold itemPosition at h
  split at h
  · rename_i i hi
    cases h
    simp [hstart, hi]
  · cases h

section Boundary
variable {V : Type} (s : ContextSnapshot V) (checkpoint : Option CheckpointPayload)
variable (current : ℕ) (ha : Accepted s.frame checkpoint current)
include ha

/-- The start a history summary publishes is not before the old one, and from it on to the
last summarised item nothing is skipped. -/
theorem start_boundary {history : List (ContextItem V)} {start : Option ContextItemKey}
    (h : historyActiveStart s checkpoint (coveredKeys checkpoint) history = .ok start)
    {item : ContextItem V} (hlast : history.getLast? = some item) {next : CheckpointPayload}
    (hnext : next.activeStart = start.or (checkpoint.bind CheckpointPayload.activeStart)) :
    ∃ last, s.frame.position item.key = some last ∧
      publishedAt s.frame checkpoint ≤ publishedAt s.frame (some next) ∧
      ∀ i key, keyAt s.frame i = some key → i < last → publishedAt s.frame (some next) ≤ i →
        key ∈ coveredKeys checkpoint ∨ key ∈ historyKeys history := by
  have hitem : item.key ∈ historyKeys history :=
    mem_map.mpr ⟨item,List.mem_of_getLast? hlast,rfl⟩
  unfold historyActiveStart at h
  rw [hlast] at h
  dsimp only at h
  split at h
  · cases h
  rename_i published hpub
  split at h
  · cases h
  rename_i last hl
  obtain rfl := published_position hpub
  have hpos : s.frame.position item.key = some last := by
    unfold itemPosition at hl
    split at hl
    · cases hl
      assumption
    · cases hl
  refine ⟨last,hpos,?_⟩
  generalize hfind : (List.range' (publishedAt s.frame checkpoint)
    (last-publishedAt s.frame checkpoint)).reverse.find? (fun index =>
      (keyAt s.frame index).any (fun key => key ∉ coveredKeys checkpoint &&
        key ∉ historyKeys history)) = gap at h
  cases gap with
  | none =>
    cases h
    have hsame : publishedAt s.frame (some next) = publishedAt s.frame checkpoint := by
      simp [publishedAt, hnext]
    rw [hsame]
    refine ⟨Nat.le_refl _,fun i key hkey hi hle => ?_⟩
    have := List.find?_eq_none.mp hfind i (by simp; omega)
    simp only [hkey, Option.any_some, Bool.and_eq_true, decide_eq_true_eq, not_and_or,
      not_not] at this
    exact this
  | some g =>
    obtain ⟨hg,hafter⟩ := find_last hfind
    have hlt : g < last := by
      have := List.mem_of_find?_eq_some hfind
      simp at this
      omega
    obtain ⟨data,hdata,hkey⟩ := position_some s.frame _ _ hpos
    -- the last item is selected and behind the gap, so the search finds a start
    cases hs : (slice s.frame.items (g+1) last).find? (fun item =>
        item.key ∈ historyKeys history) with
    | none =>
      have := List.find?_eq_none.mp hs data ((mem_slice _ _ _ _).mpr ⟨last,hlt,Nat.le_refl _,hdata⟩)
      rw [hkey] at this
      simp [hitem] at this
    | some found =>
      rw [Option.bind_some, hs] at h
      cases h
      obtain ⟨q,hq,-,hfound⟩ := (mem_slice _ _ _ _).mp (List.mem_of_find?_eq_some hs)
      have hat : publishedAt s.frame (some next) = q := by
        simp [publishedAt, hnext, position_getElem ha.keys hfound]
      rw [hat]
      refine ⟨by omega,fun i key hkey hi hle => ?_⟩
      have := hafter i (by omega) (by omega)
      simp only [hkey, Option.any_some, Bool.and_eq_false_iff, decide_eq_false_iff_not,
        not_not] at this
      exact this

end Boundary

section Works
variable {V : Type} (lib : Library V) (s : ContextSnapshot V)
variable (checkpoint : Option CheckpointPayload) (active : ActiveContext)
variable (policy : CompactionPolicy) (force : Bool) (current : ℕ)

/-- A work covers its items, and otherwise only what was covered before. -/
def Covers (w : SummaryWork V) : Prop :=
  (∀ key ∈ historyKeys w.items, key ∈ w.covered) ∧
    ∀ key ∈ w.covered, key ∈ coveredKeys checkpoint ∨ key ∈ historyKeys w.items

/-- What a plan's history work says about the history it summarises. -/
structure HistoryOf (w : SummaryWork V) (history : List (ContextItem V)) : Prop where
  kind : w.kind = .history
  keys : historyKeys w.items = historyKeys history
  some_items : history ≠ []
  start : historyActiveStart s checkpoint (coveredKeys checkpoint) history = .ok w.activeStart
  covers : Covers checkpoint w

def ActiveOnly (items : List (ContextItem V)) (works : List (SummaryWork V)) : Prop :=
  ∀ w ∈ works, w.kind = .active ∧ w.items = items ∧ Covers checkpoint w

theorem section_covered (keep : CheckpointSection → Bool) (key : ContextItemKey)
    (hk : key ∈ sectionKeys ((checkpoint.bind CheckpointPayload.active).filter keep)) :
    key ∈ coveredKeys checkpoint := by
  cases hp : (checkpoint.bind CheckpointPayload.active).filter keep with
  | none => simp [hp, sectionKeys] at hk
  | some part =>
    rw [hp] at hk
    obtain ⟨c,rfl,hc⟩ := Option.bind_eq_some_iff.mp (Option.filter_eq_some_iff.mp hp).1
    exact mem_append_right _ (by rw [hc]; exact hk)

theorem history_covered {key : ContextItemKey}
    (hk : key ∈ sectionKeys (checkpoint.bind CheckpointPayload.history)) :
    key ∈ coveredKeys checkpoint := by
  cases checkpoint with
  | none => exact absurd hk not_mem_nil
  | some c => exact mem_append_left _ hk

theorem activeWork_only (items : List (ContextItem V)) (closes : Bool) :
    ActiveOnly checkpoint items (activeWork s checkpoint items closes) := by
  intro w hw
  unfold activeWork at hw
  split_ifs at hw
  · rw [mem_singleton.mp hw]
    refine ⟨rfl,rfl,fun key hk => ?_,fun key hk => ?_⟩
    · exact (mem_orderCoverage s.frame _ key).mpr (mem_append_right _ hk)
    · exact (mem_append.mp ((mem_orderCoverage s.frame _ key).mp hk)).imp
        (section_covered checkpoint _ key) id
  · simp at hw

variable {checkpoint}

theorem historyWork_of {history : List (ContextItem V)} {folds drops : Bool}
    {start : Option ContextItemKey} {works : List (SummaryWork V)}
    (hs : historyActiveStart s checkpoint (coveredKeys checkpoint) history = .ok start)
    (h : historyWork lib s checkpoint history folds drops start = .ok works) :
    works = [] ∨ ∃ w, works = [w] ∧ HistoryOf s checkpoint w history := by
  unfold historyWork at h
  by_cases hempty : history.isEmpty = true
  · rw [if_pos hempty] at h
    cases h
    exact Or.inl rfl
  rw [if_neg hempty] at h
  split at h
  · cases h
  rename_i items hfold
  cases h
  refine Or.inr ⟨_,rfl,rfl,foldMemory_keys lib hfold,?_,hs,?_,?_⟩
  · exact fun hnil => hempty (by rw [hnil]; rfl)
  · intro key hk
    exact (mem_orderCoverage s.frame _ key).mpr (mem_append_right _ hk)
  intro key hk
  have hk := (mem_orderCoverage s.frame _ key).mp hk
  rcases mem_append.mp hk with hk | hk
  · rcases mem_append.mp hk with hk | hk
    · exact Or.inl (history_covered checkpoint hk)
    · split_ifs at hk
      · exact Or.inl (section_covered checkpoint _ key hk)
      · exact absurd hk not_mem_nil
  · exact Or.inr hk

variable (ha : Accepted s.frame checkpoint current)
include ha

theorem plan_works {p : ContextPlan V} (h : plan lib s checkpoint active policy force = .ok p) :
    ActiveOnly checkpoint (itemsOf lib s checkpoint active policy current) p.summaryWork ∨
    ∃ w rest, p.summaryWork = w::rest ∧
      HistoryOf s checkpoint w (historyOf lib s checkpoint active policy current) ∧
      ActiveOnly checkpoint (itemsOf lib s checkpoint active policy current) rest := by
  rcases plan_cases lib s policy force ha h with
    hnil | ⟨start,works,hstart,hworks,hp⟩
  · left
    rw [hnil]
    exact fun w hw => absurd hw not_mem_nil
  have honly := activeWork_only s checkpoint (itemsOf lib s checkpoint active policy current)
    (foldsOf lib s checkpoint active policy current ||
      dropsOf lib s checkpoint active policy current start)
  rw [hp]
  rcases historyWork_of lib s hstart hworks with
    rfl | ⟨w,rfl,hw⟩
  · exact Or.inl honly
  · exact Or.inr ⟨w,_,rfl,hw,honly⟩

end Works

section Complete
variable {V : Type} {entries : List (SummaryWork V × String)}

theorem completeLoop_active (c : CheckpointPayload) {next : CheckpointPayload}
    (ho : ∀ entry ∈ entries, entry.1.kind = .active) (h : completeLoop entries c = .ok next) :
    next.activeStart = c.activeStart ∧ next.history = c.history := by
  induction entries generalizing c with
  | nil =>
    cases h
    exact ⟨rfl,rfl⟩
  | cons entry entries ih =>
    obtain ⟨w,summary⟩ := entry
    have hkind : w.kind = .active := ho (w, summary) mem_cons_self
    unfold completeLoop at h
    split_ifs at h
    obtain ⟨h1,h2⟩ := ih _ (fun e he => ho e (mem_cons_of_mem _ he)) h
    rw [h1, h2]
    simp [completeWork, hkind]

theorem completeLoop_written (entries : List (SummaryWork V × String)) (c next : CheckpointPayload)
    (h : completeLoop entries c = .ok next) : ∀ entry ∈ entries, isBlank entry.2 = false := by
  induction entries generalizing c with
  | nil => exact fun entry he => absurd he not_mem_nil
  | cons entry entries ih =>
    unfold completeLoop at h
    split_ifs at h with hb
    intro e he
    rcases mem_cons.mp he with rfl | he
    · exact Bool.eq_false_iff.mpr hb
    · exact ih _ h e he

theorem completePlan_ok (checkpoint : Option CheckpointPayload) (part : ContextPlan V)
    (summaries : List String) (next : CheckpointPayload)
    (h : completePlan checkpoint part summaries = .ok next) :
    summaries.length = part.summaryWork.length ∧ (∀ text ∈ summaries, isBlank text = false) ∧
    completeLoop (part.summaryWork.zip summaries)
      (checkpoint.getD CheckpointPayload.default) = .ok next := by
  unfold completePlan at h
  split_ifs at h with hl
  have hl := not_not.mp hl
  refine ⟨hl,fun text ht => ?_,h⟩
  obtain ⟨i,hi,rfl⟩ := mem_iff_getElem.mp ht
  have hlen : i < (part.summaryWork.zip summaries).length := by
    rw [length_zip, ← hl, Nat.min_self]
    exact hi
  have := completeLoop_written _ _ _ h _ (getElem_mem hlen)
  rwa [getElem_zip] at this

theorem completeLoop_start {w : SummaryWork V} {works : List (SummaryWork V)}
    {summaries : List String} {c next : CheckpointPayload}
    (hl : summaries.length = (w::works).length) (hw : w.kind = .history)
    (ho : ∀ v ∈ works, v.kind = .active) (h : completeLoop ((w::works).zip summaries) c = .ok
      next) :
    next.activeStart = w.activeStart.or c.activeStart ∧ sectionKeys next.history = w.covered := by
  cases summaries with
  | nil => simp at hl
  | cons summary summaries =>
    rw [zip_cons_cons] at h
    unfold completeLoop at h
    split_ifs at h
    obtain ⟨h1,h2⟩ := completeLoop_active _ (fun entry he => ho entry.1 (of_mem_zip he).1) h
    rw [h1, h2]
    simp [completeWork, hw, sectionKeys]

/-- A start, once published, is only replaced by another. -/
theorem completeLoop_keeps (c : CheckpointPayload)
    {next : CheckpointPayload} (hc : c.activeStart.isSome = true)
    (h : completeLoop entries c = .ok next) : next.activeStart.isSome = true := by
  induction entries generalizing c with
  | nil =>
    cases h
    exact hc
  | cons entry entries ih =>
    unfold completeLoop at h
    split_ifs at h
    refine ih _ ?_ h
    unfold completeWork
    cases entry.1.kind with
    | history => simp [Option.isSome_or, hc]
    | active => exact hc

theorem start_getD (checkpoint : Option CheckpointPayload) :
    (checkpoint.getD CheckpointPayload.default).activeStart =
      checkpoint.bind CheckpointPayload.activeStart := by
  cases checkpoint <;> rfl

end Complete

/-- The item `key` at `i` is covered or lies before the published start. -/
def Behind (f : Frame) (checkpoint : Option CheckpointPayload) (i : ℕ) (key : ContextItemKey) :
    Prop :=
  keyAt f i = some key ∧ (key ∈ coveredKeys checkpoint ∨ i < publishedAt f checkpoint)

/-- Everything before the last item of the work is behind the start of `next`. -/
def Passed {V : Type} (f : Frame) (next : CheckpointPayload) (w : SummaryWork V) : Prop :=
  ∃ item last, w.items.getLast? = some item ∧ f.position item.key = some last ∧
    ∀ i key, keyAt f i = some key → i < last → Behind f (some next) i key

variable {f : Frame} {i : ℕ}

theorem behind_window {lib : Library V} {current : ℕ} (ha : Accepted f checkpoint current)
    {window : ActiveContext} (hw : Selected lib f checkpoint window) {key : ContextItemKey}
    (hb : Behind f checkpoint i key) : key ∈ coveredKeys checkpoint ∨ key ∈ window.archived := by
  by_cases hc : key ∈ coveredKeys checkpoint
  · exact Or.inl hc
  · obtain ⟨chosen,-,hall⟩ := selected_archives ha hw
    refine Or.inr ((hall key).mpr ⟨hc,i,hb.1,Or.inl ?_⟩)
    exact hb.2.resolve_left hc

section Publish
variable {V : Type} (lib : Library V) (s : ContextSnapshot V)
variable (checkpoint : Option CheckpointPayload) (active : ActiveContext)
variable (policy : CompactionPolicy) (force : Bool) (current : ℕ)
variable (ha : Accepted s.frame checkpoint current)
variable (hs : Selected lib s.frame checkpoint active) (p part : ContextPlan V)
variable (hp : plan lib s checkpoint active policy force = .ok p)
include ha hs hp

variable {active} {checkpoint} {current} {force} {lib} {policy}

theorem behind_source {i : ℕ} {key : ContextItemKey} (hb : Behind s.frame checkpoint i key)
    {w : SummaryWork V} (hw : w ∈ p.summaryWork) : key ∉ historyKeys w.items := by
  have har := selected_archives ha hs
  have hwin := behind_window ha hs hb
  have hhistory : key ∉ historyKeys (historyOf lib s checkpoint active policy current) := by
    intro hk
    obtain ⟨u,-,j,-,-,hcov,harch⟩ := (mem_planHistory lib s checkpoint active
      (coveredKeys checkpoint) policy (atomicGroups s.frame) current key).mp hk
    exact hwin.elim hcov harch
  have hitems : key ∉ historyKeys (itemsOf lib s checkpoint active policy current) := by
    intro hk
    have hf := active_fresh lib s active ha policy
    obtain ⟨j,item,hpos,-,-,hlt⟩ := hf.free key hk
    have hij : i = j := keyAt_unique ha.keys hb.1 ((keyAt_position ha.keys j key).mpr hpos)
    have hpub := published_lt ha
    have := hb.2.resolve_left (hf.uncovered key hk)
    omega
  rcases plan_works lib s active policy force current ha hp with
    ho | ⟨v,rest,heq,hv,ho⟩
  · rw [(ho w hw).2.1]
    exact hitems
  rw [heq] at hw
  rcases mem_cons.mp hw with rfl | hw
  · rw [hv.keys]
    exact hhistory
  · rw [(ho w hw).2.1]
    exact hitems

variable (hpart : part.summaryWork <+: p.summaryWork) (summaries : List String)
variable (next : CheckpointPayload) (hn : completePlan checkpoint part summaries = .ok next)
include hpart hn

variable {next} {part} {summaries}

theorem part_extends : Accepted s.frame (some next) current ∧
    ∀ key ∈ coveredKeys checkpoint, key ∈ coveredKeys (some next) := by
  have har := selected_archives ha hs
  have hacc := accepted_getD ha
  obtain ⟨hl,hb,hloop⟩ := completePlan_ok checkpoint part summaries next hn
  have hshape := shape_part (plan_shape lib s active policy force current ha har hp) hpart
  obtain ⟨next',hloop',hor⟩ := shape_complete hacc hshape hl hb
  rw [hloop] at hloop'
  cases hloop'
  rcases hor with ⟨-,rfl⟩ | hext
  · refine ⟨hacc,?_⟩
    rw [coveredKeys_getD]
    exact fun key hk => hk
  · refine ⟨hext.accepted,?_⟩
    have := hext.kept
    rwa [coveredKeys_getD] at this

/-- Completing part of a plan: without a history work the start stays, with one the start moves
forward and everything up to the last summarised item is behind it. -/
theorem part_published : publishedAt s.frame checkpoint ≤ publishedAt s.frame (some next) ∧
    ∀ w ∈ part.summaryWork, w.kind = .history → Passed s.frame next w := by
  obtain ⟨hl,-,hloop⟩ := completePlan_ok checkpoint part summaries next hn
  obtain ⟨-,hkept⟩ := part_extends s ha hs p hp hpart hn
  have hsame : (∀ w ∈ part.summaryWork, w.kind = .active) →
      publishedAt s.frame checkpoint ≤ publishedAt s.frame (some next) ∧
      ∀ w ∈ part.summaryWork, w.kind = .history → Passed s.frame next w := by
    intro ho
    obtain ⟨h1,-⟩ := completeLoop_active _ (fun entry he => ho entry.1 (of_mem_zip he).1) hloop
    refine ⟨?_,fun w hw hk => ?_⟩
    · rw [publishedAt, publishedAt, Option.bind_some, h1, start_getD]
    · rw [ho w hw] at hk
      cases hk
  rcases plan_works lib s active policy force current ha hp with
    ho | ⟨v,rest,heq,hv,ho⟩
  · exact hsame (fun w hw => (ho w (hpart.subset hw)).1)
  rw [heq] at hpart
  cases hworks : part.summaryWork with
  | nil =>
    rw [hworks] at hsame
    exact hsame (fun w hw => absurd hw not_mem_nil)
  | cons w works =>
    rw [hworks] at hpart hl hloop
    obtain ⟨rfl,hrest⟩ := cons_prefix_cons.mp hpart
    have honly : ∀ u ∈ works, u.kind = .active := fun u hu => (ho u (hrest.subset hu)).1
    obtain ⟨h1,h2⟩ := completeLoop_start hl hv.kind honly hloop
    rw [start_getD] at h1
    obtain ⟨item,hitem⟩ : ∃ item, (historyOf lib s checkpoint active policy current).getLast? =
        some item := ⟨_,List.getLast?_eq_some_getLast hv.some_items⟩
    obtain ⟨last,hpos,hle,hall⟩ := start_boundary s checkpoint current ha hv.start hitem h1
    refine ⟨hle,fun u hu hk => ?_⟩
    rcases mem_cons.mp hu with rfl | hu
    · obtain ⟨item',hitem',hkey⟩ : ∃ item', u.items.getLast? = some item' ∧
          item'.key = item.key := by
        have := congrArg List.getLast? hv.keys
        rw [historyKeys, historyKeys, List.getLast?_map, List.getLast?_map, hitem,
          Option.map_some] at this
        simpa using this
      refine ⟨item',last,hitem',hkey ▸ hpos,fun i key hi hlt => ⟨hi,?_⟩⟩
      by_cases hpub : i < publishedAt s.frame (some next)
      · exact Or.inr hpub
      left
      rcases hall i key hi hlt (Nat.not_lt.mp hpub) with hc | hh
      · exact hkept key hc
      · refine mem_append_left _ ?_
        rw [h2]
        exact hv.covers.1 key (hv.keys ▸ hh)
    · rw [honly u hu] at hk
      cases hk

theorem behind_publish {i : ℕ} {key : ContextItemKey} (hb : Behind s.frame checkpoint i key) :
    Behind s.frame (some next) i key := by
  obtain ⟨-,hkept⟩ := part_extends s ha hs p hp hpart hn
  obtain ⟨hle,-⟩ := part_published s ha hs p hp hpart hn
  refine ⟨hb.1,?_⟩
  rcases hb.2 with hc | hlt
  · exact Or.inl (hkept key hc)
  · exact Or.inr (Nat.lt_of_lt_of_le hlt hle)

end Publish

/-- The items of `f` stay where they are; others may follow them. -/
def Grows (f f' : Frame) : Prop := f.keys <+: f'.keys

variable {f' : Frame}

theorem position_grows (h : Grows f f') {key : ContextItemKey} (hi : f.position key = some i) :
    f'.position key = some i := by
  have hkeys : ∀ g : Frame, g.position key = g.keys.findIdx? (fun k => k = key) := by
    intro g
    rw [Frame.keys, List.findIdx?_map]
    rfl
  obtain ⟨rest,hrest⟩ := h
  rw [hkeys] at hi ⊢
  rw [← hrest, List.findIdx?_append, hi, Option.some_or]

theorem keyAt_grows (h : Grows f f') {key : ContextItemKey} (hi : keyAt f i = some key) :
    keyAt f' i = some key := by
  have hkeys : ∀ g : Frame, keyAt g i = g.keys[i]? := by
    intro g
    simp [Frame.keys, keyAt]
  obtain ⟨rest,hrest⟩ := h
  rw [hkeys] at hi ⊢
  rw [← hrest, List.getElem?_append_left (List.getElem?_eq_some_iff.mp hi).1, hi]

theorem published_grows (h : Grows f f') (checkpoint : Option CheckpointPayload) :
    publishedAt f checkpoint ≤ publishedAt f' checkpoint := by
  unfold publishedAt
  cases hb : (checkpoint.bind CheckpointPayload.activeStart).bind f.position with
  | none => exact Nat.zero_le _
  | some p =>
    obtain ⟨start,hstart,hp⟩ := Option.bind_eq_some_iff.mp hb
    rw [hstart, Option.bind_some, position_grows h hp]

theorem behind_grows (h : Grows f f') {key : ContextItemKey} (hb : Behind f checkpoint i key) :
    Behind f' checkpoint i key :=
  ⟨keyAt_grows h hb.1,
    hb.2.imp id (fun hlt => Nat.lt_of_lt_of_le hlt (published_grows h checkpoint))⟩

/-- A conversation that grows at its end, and publishes parts of plans. -/
inductive Publications {V : Type} (lib : Library V) (s : ContextSnapshot V)
    (checkpoint : Option CheckpointPayload) :
    ContextSnapshot V → Option CheckpointPayload → Prop
  | refl : Publications lib s checkpoint s checkpoint
  | grow (s' s'' : ContextSnapshot V) (c : Option CheckpointPayload)
      (run : Publications lib s checkpoint s' c) (h : Grows s'.frame s''.frame) :
      Publications lib s checkpoint s'' c
  | publish (s' : ContextSnapshot V) (c : Option CheckpointPayload) (active : ActiveContext)
      (policy : CompactionPolicy) (force : Bool) (p part : ContextPlan V) (summaries : List String)
      (next : CheckpointPayload) (run : Publications lib s checkpoint s' c)
      (hs : Selected lib s'.frame c active) (hp : plan lib s' c active policy force = .ok p)
      (hpart : part.summaryWork <+: p.summaryWork)
      (hn : completePlan c part summaries = .ok next) : Publications lib s checkpoint s' (some next)

theorem behind_publications {lib : Library V} {s s' : ContextSnapshot V}
    {c : Option CheckpointPayload} (h : Publications lib s checkpoint s' c) {key : ContextItemKey}
    (hb : Behind s.frame checkpoint i key) : Behind s'.frame c i key := by
  induction h with
  | refl => exact hb
  | grow s' s'' c run hg ih => exact behind_grows hg ih
  | publish s' c active policy force p part summaries next run hs hp hpart hn ih =>
    obtain ⟨current,ha⟩ := selected_accepted hs
    exact behind_publish s' ha hs p hp hpart hn ih

/-- A published summary never lets the window walk back. -/
theorem published_window_stays {V : Type} (lib : Library V) (s : ContextSnapshot V)
    (checkpoint : Option CheckpointPayload) (covered : List ContextItemKey)
    (hv : validatedCoverage s.frame checkpoint = .ok covered) (active : ActiveContext)
    (hs : Selected lib s.frame checkpoint active) (policy : CompactionPolicy) (force : Bool)
    (p part : ContextPlan V) (hp : plan lib s checkpoint active policy force = .ok p)
    (hpart : part.summaryWork <+: p.summaryWork) (w : SummaryWork V) (hw : w ∈ part.summaryWork)
    (hk : w.kind = .history) (summaries : List String) (next : CheckpointPayload)
    (hn : completePlan checkpoint part summaries = .ok next) :
    ∃ item last, w.items.getLast? = some item ∧ s.frame.position item.key = some last ∧
      (∀ budget, ∃ window, select lib s (some next) budget = .ok window ∧
        ∀ i key, i < last → keyAt s.frame i = some key →
          key ∈ coveredKeys (some next) ∨ key ∈ window.archived) ∧
      (∀ start a, checkpoint.bind CheckpointPayload.activeStart = some start →
        s.frame.position start = some a →
        ∃ start' b, next.activeStart = some start' ∧ s.frame.position start' = some b ∧ a ≤ b) ∧
      ∀ s' c, Publications lib s (some next) s' c → ∀ i key, i < last →
        keyAt s.frame i = some key → keyAt s'.frame i = some key ∧
        ∀ window, Selected lib s'.frame c window →
          (key ∈ coveredKeys c ∨ key ∈ window.archived) ∧
          ∀ policy force p', plan lib s' c window policy force = .ok p' →
            ∀ w' ∈ p'.summaryWork, key ∉ historyKeys w'.items := by
  obtain ⟨rfl,current,ha⟩ := (validatedCoverage_ok_iff s.frame checkpoint covered).mp hv
  obtain ⟨hacc,-⟩ := part_extends s ha hs p hp hpart hn
  obtain ⟨hle,hpub⟩ := part_published s ha hs p hp
    hpart hn
  obtain ⟨item,last,hitem,hpos,hbehind⟩ := hpub w hw hk
  refine ⟨item,last,hitem,hpos,?_,?_,?_⟩
  · intro budget
    obtain ⟨window,hwin⟩ := fit_total lib s hacc budget none
    refine ⟨window,hwin,fun i key hi hkey => ?_⟩
    exact behind_window hacc
      (.select s budget window rfl hwin) (hbehind i key hkey hi)
  · intro start a hstart ha'
    obtain ⟨-,-,hloop⟩ := completePlan_ok checkpoint part summaries next hn
    obtain ⟨start',hstart'⟩ := Option.isSome_iff_exists.mp (completeLoop_keeps _
      (by rw [start_getD, hstart]; rfl) hloop)
    obtain ⟨b,-,hb,-⟩ := covered_item hacc
      (List.mem_append_left _ ((hacc.payload next rfl).start start' hstart'))
    refine ⟨start',b,hstart',hb,?_⟩
    simpa [publishedAt, hstart, ha', hstart', hb] using hle
  · intro s' c hrun i key hi hkey
    have hb := behind_publications hrun (hbehind i key hkey hi)
    refine ⟨hb.1,fun window hwin => ?_⟩
    obtain ⟨current',ha'⟩ := selected_accepted hwin
    refine ⟨behind_window ha' hwin hb,?_⟩
    intro policy' force' p' hp' w' hw'
    exact behind_source s' ha' hwin p' hp' hb hw'

/-- Two finished exchanges before the current input; the helper has room for one. -/
def narrowedSnapshot : ContextSnapshot String :=
  ⟨[], 0, [plainItem .user 1 10 false, plainItem .assistant 2 10 false, plainItem .user 3 11 false,
    plainItem .assistant 4 11 false, plainItem .user 5 12 false], ⟨.user, 5⟩, 12⟩

def narrowedPolicy : CompactionPolicy := ⟨1000, 800, 0, 300⟩

def narrowedWork : SummaryWork String :=
  ⟨.history, none, none, [plainItem .user 3 11 false, plainItem .assistant 4 11 false],
    [⟨.user, 3⟩, ⟨.assistant, 4⟩], false, false, some ⟨.user, 3⟩⟩

def narrowedNext : CheckpointPayload :=
  ⟨1, some ⟨"memory", [⟨.user, 3⟩, ⟨.assistant, 4⟩], none⟩, none, some ⟨.user, 3⟩⟩

theorem published_window_stays_narrowed :
    plan plainLibrary narrowedSnapshot none ActiveContext.default narrowedPolicy true =
      .ok ⟨[narrowedWork]⟩ ∧
    completePlan none ⟨[narrowedWork]⟩ ["memory"] = .ok narrowedNext ∧
    ∃ item last, narrowedWork.items.getLast? = some item ∧
      narrowedSnapshot.frame.position item.key = some last ∧
      ∀ budget, ∃ window,
        select plainLibrary narrowedSnapshot (some narrowedNext) budget = .ok window ∧
        ∀ i key, i < last → keyAt narrowedSnapshot.frame i = some key →
          key ∈ coveredKeys (some narrowedNext) ∨ key ∈ window.archived := by
  have hplan : plan plainLibrary narrowedSnapshot none ActiveContext.default narrowedPolicy true =
      .ok ⟨[narrowedWork]⟩ := by rfl
  have hnext : completePlan none ⟨[narrowedWork]⟩ ["memory"] = .ok narrowedNext := by rfl
  obtain ⟨item,last,hitem,hpos,hwin,-⟩ := published_window_stays plainLibrary narrowedSnapshot none
    [] (by rfl) ActiveContext.default (.select narrowedSnapshot none _ rfl (by rfl)) narrowedPolicy
    true ⟨[narrowedWork]⟩ ⟨[narrowedWork]⟩ hplan (List.prefix_refl _) narrowedWork
    List.mem_cons_self rfl ["memory"] narrowedNext hnext
  exact ⟨hplan,hnext,item,last,hitem,hpos,hwin⟩

end Maple.Compaction.Publication

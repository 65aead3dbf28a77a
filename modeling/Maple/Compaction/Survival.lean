import Mathlib.Data.Fintype.EquivFin
import Maple.Compaction.Arrivals

/-!
# Checkpoints of a growing conversation

A checkpoint is made for one snapshot and validated again on later ones. Groups
are recomputed each time, and an arriving item extends the group of the open item
it answers. So a checkpoint survives all arrivals exactly if everything it covers
lies before the groups of the open items.
-/

set_option autoImplicit false

namespace Maple.Compaction.Survival
open Tiling Items Groups Coverage Units Window Archive Plan Selection Growth Completion Rounds List
open Progress Publication Arrivals

/-- Everything covered lies before the groups of the open items. -/
def Guarded (f : Frame) (covered : List ContextItemKey) : Prop :=
  ∀ o, Open f o → ∀ g ∈ atomicGroups f, g.Contains o →
    ∀ i key, keyAt f i = some key → key ∈ covered → i < g.start

variable {f : Frame}

theorem cutPoint_spans {c : ℕ} (h : CutPoint f c) {j : ℕ} (hj : j < c) (hlt : j < f.items.length) :
    spanEnd f.items j < c := by
  obtain ⟨g,hg,hc⟩ := group_cover f j hlt
  have hend := (group_closed hg hc).2
  have hside := h g hg
  have := hc.1
  omega

theorem spans_cutPoint (f : Frame) (c : ℕ) (h : ∀ j, j < c → spanEnd f.items j < c) :
    CutPoint f c := by
  rw [cutPoint_iff, groups_spans]
  exact mergeFrom_cut _ _ h

section Arrive
variable (f : Frame) (item : ItemMeta)

theorem arrive_grows : Grows f (arrive f item) := by
  rw [Grows, Frame.keys, Frame.keys, arrive, map_append]
  exact prefix_append _ _

variable {i : ℕ} {f}

theorem keyAt_arrive (hi : i < f.items.length) : keyAt (arrive f item) i = keyAt f i := by
  rw [keyAt, arrive, List.getElem?_append_left hi]
  rfl

variable {key : ContextItemKey}

theorem position_lt (h : f.position key = some i) : i < f.items.length := by
  obtain ⟨x,hx,-⟩ := position_some f key i h
  exact (List.getElem?_eq_some_iff.mp hx).1

variable {current : ℕ}

theorem keyOk_arrive {kind : SectionKind} {anchor : Option ℕ}
    (h : KeyOk f current kind anchor key i) : KeyOk (arrive f item) current kind anchor key i := by
  refine ⟨position_grows (arrive_grows f item) h.position,?_,h.before,h.after,h.older⟩
  intro x hx
  rw [arrive, List.getElem?_append_left (position_lt h.position)] at hx
  exact h.free x hx

theorem sectionOk_arrive {kind : SectionKind} {part : CheckpointSection}
    (h : SectionOk f current kind part) : SectionOk (arrive f item) current kind part := by
  obtain ⟨anchor,hanchor,hall⟩ := h.anchored
  refine ⟨h.text,h.covers,anchor,?_,fun key hk => ?_⟩
  · cases kind with
    | history => exact (history_anchor _ _ _).mpr ((history_anchor f _ _).mp hanchor)
    | active =>
      obtain ⟨key,a,h1,h2,h3,h4⟩ := (active_anchor f _ _).mp hanchor
      exact (active_anchor _ _ _).mpr ⟨key,a,h1,h2,position_grows (arrive_grows f item) h3,h4⟩
  · obtain ⟨i,hi⟩ := hall key hk
    exact ⟨i,keyOk_arrive item hi⟩

theorem checkpointOk_arrive {c : CheckpointPayload} (h : CheckpointOk f current c) :
    CheckpointOk (arrive f item) current c :=
  ⟨h.version,fun part hp => sectionOk_arrive item (h.history part hp),
    fun part hp => sectionOk_arrive item (h.active part hp),h.distinct,
    h.anchor,h.start⟩

variable (c : CheckpointPayload) (current : ℕ) (hacc : Accepted f (some c) current)
variable (hk : item.key ∉ f.keys) (ha : Arrives f item)
variable {item}

include ha in
/-- The group of a covered item stays a group when nothing open lies at or before it. -/
theorem covered_cuts (hg : Guarded f (coveredKeys (some c))) {g : AtomicGroup}
    (hmem : g ∈ atomicGroups f) (hi : g.Contains i)
    (hkey : keyAt f i = some key) (hc : key ∈ coveredKeys (some c)) :
    CutPoint (arrive f item) g.start ∧ CutPoint (arrive f item) (g.stop+1) := by
  have hb := group_bounds hmem
  obtain ⟨hstart,hstop⟩ := group_cuts hmem
  have hfree : ∀ j, j ≤ g.stop → spanEnd (f.items++[item]) j = spanEnd f.items j := by
    intro j hj
    rcases spanEnd_arrive f ha j (by omega) with h | ⟨ho,-⟩
    · exact h
    -- the group of an open item lies behind the covered one
    obtain ⟨h,hh,hcj⟩ := group_cover f j (by omega)
    have hlt := hg j ho h hh hcj i key hkey hc
    have hside := hstop h hh
    have := hi.1
    have := hi.2
    have := hcj.1
    have := hcj.2
    have hne : h.stop < g.stop+1 := by omega
    have hside' := (group_cuts hh).1 g hmem
    omega
  constructor
  · refine spans_cutPoint _ _ (fun j hj => ?_)
    rw [arrive, hfree j (by omega)]
    exact cutPoint_spans hstart hj (by omega)
  · refine spans_cutPoint _ _ (fun j hj => ?_)
    rw [arrive, hfree j (by omega)]
    exact cutPoint_spans hstop hj (by omega)

include hacc

variable {current}

theorem covered_lt (hi : keyAt (arrive f item) i = some key) (hc : key ∈ coveredKeys (some c))
    (hnodup : (arrive f item).keys.Nodup) : i < f.items.length ∧ keyAt f i = some key := by
  obtain ⟨j,-,hpos,-⟩ := covered_item hacc hc
  have hpos' := position_grows (arrive_grows f item) hpos
  obtain rfl : i = j := keyAt_unique hnodup hi ((keyAt_position hnodup j key).mpr hpos')
  exact ⟨position_lt hpos,(keyAt_position hacc.keys i key).mpr hpos⟩

include hk

omit hacc in
theorem keys_arrive (hn : f.keys.Nodup) : (arrive f item).keys.Nodup := by
  rw [arrive, Frame.keys, map_append]
  refine nodup_append.mpr ⟨hn,nodup_singleton _,?_⟩
  intro a hka b hkb hab
  rw [map_singleton, mem_singleton] at hkb
  exact hk (hkb ▸ hab ▸ hka)

include ha

theorem guarded_arrive (hg : Guarded f (coveredKeys (some c))) :
    Guarded (arrive f item) (coveredKeys (some c)) := by
  intro o ho h hh hco i key hkey hc
  obtain ⟨hi,hkey⟩ := covered_lt c hacc hkey hc (keys_arrive hk hacc.keys)
  obtain ⟨g,hmem,hcg⟩ := group_cover f i hi
  obtain ⟨-,hcut⟩ := covered_cuts c ha hg hmem hcg hkey hc
  have hb := group_bounds hmem
  have hbehind : g.stop < o := by
    by_cases hlt : o < f.items.length
    · have hopen := open_arrive f hlt ho
      obtain ⟨h',hh',hco'⟩ := group_cover f o hlt
      have hlt' := hg o hopen h' hh' hco' i key hkey hc
      have hside := (group_cuts hh').1 g hmem
      have := hcg.1
      have := hcg.2
      have := hco'.1
      omega
    · omega
  have hside := hcut h hh
  have := hcg.2
  have := hco.2
  omega

/-- An accepted checkpoint whose coverage lies before everything open stays accepted. -/
theorem accepted_arrive (hg : Guarded f (coveredKeys (some c))) :
    Accepted (arrive f item) (some c) current := by
  have hnodup := keys_arrive hk hacc.keys
  refine ⟨hnodup,position_grows (arrive_grows f item) hacc.position,hacc.user,?_,?_⟩
  · rintro d ⟨⟩
    exact checkpointOk_arrive item (hacc.payload c rfl)
  intro h hh
  rw [groupWhole_keys]
  by_cases hex : ∃ i key, h.Contains i ∧ keyAt (arrive f item) i = some key ∧
      key ∈ coveredKeys (some c)
  swap
  · left
    intro i key hi hkey hc
    exact hex ⟨i,key,hi,hkey,hc⟩
  right
  obtain ⟨i,key,hi,hkey,hc⟩ := hex
  obtain ⟨hlt,hkey⟩ := covered_lt c hacc hkey hc hnodup
  obtain ⟨g,hmem,hcg⟩ := group_cover f i hlt
  obtain ⟨hcut,hcut'⟩ := covered_cuts c ha hg hmem hcg hkey hc
  have hb := group_bounds hmem
  -- the new group lies inside the old one, which is covered as a whole
  have hinside : ∀ j, h.Contains j → g.Contains j := by
    intro j hj
    have h1 := hcut h hh
    have h2 := hcut' h hh
    have := hi.1
    have := hi.2
    have := hcg.1
    have := hcg.2
    have := hj.1
    have := hj.2
    constructor <;> omega
  obtain ⟨hcomplete,hall⟩ : g.complete = true ∧ ∀ j other, g.Contains j → keyAt f j = some other →
      other ∈ coveredKeys (some c) := by
    rcases (groupWhole_keys f _ g).mp (hacc.groups g hmem) with hnone | hwhole
    · exact absurd hc (hnone i key hcg hkey)
    · exact hwhole
  refine ⟨?_,fun j other hj hother => ?_⟩
  · obtain ⟨span,hspan,rfl⟩ := mem_map.mp hh
    obtain ⟨old,hold,rfl⟩ := mem_map.mp hmem
    rw [all_eq_true] at hcomplete ⊢
    intro j hj
    have hj' : span.1 ≤ j ∧ j ≤ span.2 := by
      have := mem_range'_1.mp hj
      omega
    have hin := hinside j hj'
    have hjn : j < f.items.length := Nat.lt_of_le_of_lt hin.2 hb.2
    have hold' := hcomplete j (mem_range'_1.mpr (by
      have h1 := hin.1
      have h2 := hin.2
      dsimp only at h1 h2
      omega))
    have hnot : ¬Open f j := by
      intro ho
      have hcov := hall j f.items[j].key hin (by simp [keyAt, List.getElem?_eq_getElem hjn])
      have hself := hg j ho _ hmem hin j f.items[j].key
        (by simp [keyAt, List.getElem?_eq_getElem hjn]) hcov
      have := hin.1
      omega
    rw [arrive, incomplete_arrive f ha hjn hnot]
    exact hold'
  · have hin := hinside j hj
    have hjn : j < f.items.length := Nat.lt_of_le_of_lt hin.2 hb.2
    exact hall j other hin ((keyAt_arrive item hjn).symm.trans hother)

end Arrive

variable {c : CheckpointPayload} {current : ℕ}

theorem guarded_appended {f' : Frame} (hacc : Accepted f (some c) current)
    (hg : Guarded f (coveredKeys (some c))) (h : Appended f f') :
    Accepted f' (some c) current ∧ Guarded f' (coveredKeys (some c)) := by
  induction h with
  | refl => exact ⟨hacc,hg⟩
  | step f' item run hk ha ih =>
    exact ⟨accepted_arrive c ih.1 hk ha ih.2,guarded_arrive c ih.1 hk ha ih.2⟩

theorem fresh_uuid (keys : List ContextItemKey) (kind : ContextItemKind) :
    ∃ uuid, (⟨kind,uuid⟩ : ContextItemKey) ∉ keys := by
  obtain ⟨uuid,huuid⟩ := Infinite.exists_notMem_finset (keys.map ContextItemKey.uuid).toFinset
  refine ⟨uuid,fun h => huuid ?_⟩
  rw [mem_toFinset]
  exact mem_map_of_mem h

/-- Every open item can still be answered. -/
theorem open_reached {o : ℕ} (h : Open f o) : ∃ item : ItemMeta, item.key ∉ f.keys ∧
    Arrives f item ∧ o < f.items.length ∧ spanEnd (f.items++[item]) o = f.items.length := by
  rcases h with ⟨first,hfirst,hkind,hr,hall⟩ | ⟨call,id,hcall,hid,hlast,hall⟩
  · have ho := (List.getElem?_eq_some_iff.mp hfirst).1
    obtain ⟨uuid,hfresh⟩ := fresh_uuid f.keys .assistant
    refine ⟨⟨⟨.assistant,uuid⟩,some f.currentResponse,true,none,false,false⟩,hfresh,
      .reply rfl (Or.inr rfl),ho,?_⟩
    unfold spanEnd
    rw [List.getElem?_append_left ho, hfirst]
    dsimp only
    rw [hkind, drop_append_of_le_length ho]
    dsimp only
    rw [attachment_unanswered _ _ hall, hr, attachment, if_neg (not_not.mpr rfl),
      Option.getD_some, length_drop]
    omega
  · have ho := (List.getElem?_eq_some_iff.mp hcall).1
    obtain ⟨hpairs,hc⟩ := callId_some hid
    obtain ⟨uuid,hfresh⟩ := fresh_uuid f.keys .toolOutput
    refine ⟨⟨⟨.toolOutput,uuid⟩,some f.currentResponse,true,some id,false,false⟩,hfresh,
      .output rfl id ⟨rfl,rfl⟩ ⟨call,List.mem_of_getElem? hcall,hc⟩ hall,ho,?_⟩
    unfold spanEnd
    rw [List.getElem?_append_left ho, hcall]
    dsimp only
    rw [hc.1]
    dsimp only
    rw [matchedOutput, hid]
    dsimp only
    have hcalls : calls (f.items++[⟨⟨.toolOutput,uuid⟩,some f.currentResponse,true,some id,false,
        false⟩]) id = some o := by
      rw [calls_concat, if_neg (by simp [callId]), hlast]
    have hfilter : (some f.items.length).filter (fun output => decide (o < output)) =
        some f.items.length := Option.filter_some_pos (decide_eq_true ho)
    rw [if_pos hcalls, outputs_concat, if_pos (by simp [outputId, pairs]), hfilter]
    rfl

/-- An answer to an open item joins its group, whatever of it is covered. -/
theorem reached_partial {item : ItemMeta} {o : ℕ} (hacc : Accepted f (some c) current)
    (hk : item.key ∉ f.keys) (ha : Arrives f item) (ho : o < f.items.length)
    (hspan : spanEnd (f.items++[item]) o = f.items.length) {g : AtomicGroup}
    (hg : g ∈ atomicGroups f) (hco : g.Contains o) {i : ℕ} {key : ContextItemKey}
    (hkey : keyAt f i = some key) (hc : key ∈ coveredKeys (some c)) (hle : g.start ≤ i) :
    ¬∃ next, Accepted (arrive f item) (some c) next := by
  rintro ⟨next,hnext⟩
  have hi : i < f.items.length := by
    obtain ⟨x,hx,-⟩ := (keyAt_some f i key).mp hkey
    exact (List.getElem?_eq_some_iff.mp hx).1
  have hlen : (arrive f item).items.length = f.items.length+1 := by simp [arrive]
  obtain ⟨h,hh,hch⟩ := group_cover (arrive f item) o (by omega)
  have hend : h.Contains f.items.length := by
    have := group_closed hh hch
    rwa [arrive, hspan] at this
  have hstart : h.start ≤ i := by
    by_contra hlt
    -- a cut of the grown conversation between `i` and `o` would already cut the group
    have hcut : CutPoint f h.start := by
      refine spans_cutPoint f h.start (fun j hj => ?_)
      have := hch.1
      have hspans := cutPoint_spans (group_cuts hh).1 hj (by omega)
      rw [arrive] at hspans
      rcases spanEnd_arrive f ha j (by omega) with heq | ⟨-,-,heq⟩
      · exact heq ▸ hspans
      · omega
    have hside := hcut g hg
    have := hch.1
    have := hco.2
    omega
  have hnew : keyAt (arrive f item) f.items.length = some item.key := by
    simp [keyAt, arrive]
  have hci : h.Contains i := ⟨hstart,Nat.le_trans (Nat.le_of_lt hi) hend.2⟩
  rcases (groupWhole_keys _ _ h).mp (hnext.groups h hh) with hnone | ⟨-,hall⟩
  · exact hnone i key hci ((keyAt_arrive item hi).trans hkey) hc
  · have := hall _ _ hend hnew
    obtain ⟨j,hj,hpos,-⟩ := covered_item hacc this
    obtain ⟨x,hx,hxk⟩ := position_some f _ _ hpos
    exact hk (mem_map.mpr ⟨x,List.mem_of_getElem? hx,hxk⟩)

/-- A checkpoint survives every arrival exactly if its coverage lies before everything open. -/
theorem survives_iff (hacc : Accepted f (some c) current) :
    (∀ f', Appended f f' → ∃ out, validatedCoverage f' (some c) = .ok out) ↔
      Guarded f (coveredKeys (some c)) := by
  constructor
  · intro h o ho g hg hco i key hkey hc
    by_contra hlt
    obtain ⟨item,hk,ha,hon,hspan⟩ := open_reached ho
    obtain ⟨out,hout⟩ := h _ (.step f item .refl hk ha)
    obtain ⟨-,hnext⟩ := (validatedCoverage_ok_iff _ _ _).mp hout
    exact reached_partial hacc hk ha hon hspan hg hco hkey hc (Nat.not_lt.mp hlt) hnext
  · intro hg f' hf'
    obtain ⟨hacc',-⟩ := guarded_appended hacc hg hf'
    exact ⟨_,(validatedCoverage_ok_iff _ _ _).mpr ⟨rfl,current,hacc'⟩⟩

section Completed
variable {V : Type} {entries : List (SummaryWork V × String)}

theorem completeLoop_covered (P : ContextItemKey → Prop)
    (c next : CheckpointPayload) (hw : ∀ entry ∈ entries, ∀ key ∈ entry.1.covered, P key)
    (hc : ∀ key ∈ coveredKeys (some c), P key) (h : completeLoop entries c = .ok next) :
    ∀ key ∈ coveredKeys (some next), P key := by
  induction entries generalizing c with
  | nil =>
    cases h
    exact hc
  | cons entry entries ih =>
    obtain ⟨w,summary⟩ := entry
    have hcovered := hw (w, summary) mem_cons_self
    unfold completeLoop at h
    split_ifs at h
    refine ih _ (fun e he => hw e (mem_cons_of_mem _ he)) (fun key hk => ?_) h
    unfold completeWork at hk
    cases hkind : w.kind with
    | history =>
      rw [hkind] at hk
      rcases mem_append.mp hk with hk | hk
      · exact hcovered key hk
      · dsimp only at hk
        split_ifs at hk
        · exact absurd hk not_mem_nil
        · exact hc key (mem_append_right _ hk)
    | active =>
      rw [hkind] at hk
      rcases mem_append.mp hk with hk | hk
      · exact hc key (mem_append_left _ hk)
      · exact hcovered key hk

theorem completeLoop_active_covers (c : CheckpointPayload)
    {next : CheckpointPayload} (ho : ∀ entry ∈ entries, entry.1.kind = .active)
    (key : ContextItemKey) (hk : ∀ entry ∈ entries, key ∈ entry.1.covered) (hne : entries ≠ [])
    (h : completeLoop entries c = .ok next) : key ∈ sectionKeys next.active := by
  induction entries generalizing c with
  | nil => exact absurd rfl hne
  | cons entry entries ih =>
    obtain ⟨w,summary⟩ := entry
    have hkind : w.kind = .active := ho (w, summary) mem_cons_self
    unfold completeLoop at h
    split_ifs at h
    cases entries with
    | nil =>
      cases h
      simpa [completeWork, hkind, sectionKeys] using hk (w, summary) mem_cons_self
    | cons e entries =>
      exact ih _ (fun x hx => ho x (mem_cons_of_mem _ hx))
        (fun x hx => hk x (mem_cons_of_mem _ hx)) (cons_ne_nil _ _) h

theorem part_covered {lib : Library V} {s : ContextSnapshot V}
    {checkpoint : Option CheckpointPayload} {active : ActiveContext} {policy : CompactionPolicy}
    {force : Bool} {current : ℕ} (ha : Accepted s.frame checkpoint current)
    (hs : Selected lib s.frame checkpoint active) {p part : ContextPlan V}
    (hp : plan lib s checkpoint active policy force = .ok p)
    (hpart : part.summaryWork <+: p.summaryWork) {summaries : List String}
    {next : CheckpointPayload} (hn : completePlan checkpoint part summaries = .ok next)
    (key : ContextItemKey) : key ∈ coveredKeys (some next) ↔
      key ∈ coveredKeys checkpoint ∨ ∃ w ∈ part.summaryWork, key ∈ historyKeys w.items := by
  obtain ⟨hl,-,hloop⟩ := completePlan_ok checkpoint part summaries next hn
  obtain ⟨-,hkept⟩ := part_extends s ha hs p hp hpart hn
  have hworks := plan_works lib s active policy force current ha hp
  have hcovers : ∀ w ∈ p.summaryWork, Covers checkpoint w := by
    intro w hw
    rcases hworks with ho | ⟨v,rest,heq,hv,ho⟩
    · exact (ho w hw).2.2
    · rw [heq] at hw
      rcases mem_cons.mp hw with rfl | hw
      · exact hv.covers
      · exact (ho w hw).2.2
  constructor
  · refine completeLoop_covered (fun key => key ∈ coveredKeys checkpoint ∨
      ∃ w ∈ part.summaryWork, key ∈ historyKeys w.items) _ _ ?_ ?_ hloop key
    · intro entry he k hk
      have hw := (of_mem_zip he).1
      exact ((hcovers entry.1 (hpart.subset hw)).2 k hk).imp id (fun h => ⟨entry.1,hw,h⟩)
    · intro k hk
      rw [coveredKeys_getD] at hk
      exact Or.inl hk
  · rintro (hk | ⟨w,hw,hk⟩)
    · exact hkept key hk
    have hactive : ∀ (works : List (SummaryWork V)) (texts : List String) (c : CheckpointPayload),
        ActiveOnly checkpoint (itemsOf lib s checkpoint active policy current) works → w ∈ works →
        texts.length = works.length → completeLoop (works.zip texts) c = .ok next →
        key ∈ coveredKeys (some next) := by
      intro works texts c ho hw hlen h
      refine mem_append_right _ (completeLoop_active_covers c
        (fun entry he => (ho entry.1 (of_mem_zip he).1).1) key (fun entry he => ?_) ?_ h)
      · obtain ⟨-,hitems,hcov⟩ := ho entry.1 (of_mem_zip he).1
        refine hcov.1 key ?_
        rw [hitems, ← (ho w hw).2.1]
        exact hk
      · rw [Ne, ← length_eq_zero_iff, length_zip, hlen, Nat.min_self, length_eq_zero_iff]
        exact ne_nil_of_mem hw
    rcases hworks with ho | ⟨v,rest,heq,hv,ho⟩
    · exact hactive part.summaryWork summaries _ (fun u hu => ho u (hpart.subset hu)) hw hl hloop
    rw [heq] at hpart
    obtain ⟨works,hworks⟩ : ∃ works, part.summaryWork = v::works := by
      cases h : part.summaryWork with
      | nil => exact absurd (h ▸ hw) not_mem_nil
      | cons u works =>
        rw [h] at hpart
        exact ⟨works,by rw [(cons_prefix_cons.mp hpart).1]⟩
    rw [hworks] at hpart hl hloop hw
    have hrest := (cons_prefix_cons.mp hpart).2
    have hsub : ActiveOnly checkpoint (itemsOf lib s checkpoint active policy current) works :=
      fun u hu => ho u (hrest.subset hu)
    rcases mem_cons.mp hw with rfl | hw
    · obtain ⟨-,h2⟩ := completeLoop_start hl hv.kind (fun u hu => (hsub u hu).1) hloop
      refine mem_append_left _ ?_
      rw [h2]
      exact hv.covers.1 key hk
    · cases summaries with
      | nil => simp at hl
      | cons summary summaries =>
        rw [zip_cons_cons, completeLoop] at hloop
        split_ifs at hloop
        exact hactive works summaries _ hsub hw (by simpa using hl) hloop

end Completed

/-- A completed plan survives every arrival exactly if neither what was covered before nor what
the completed works summarise lies in or behind the group of an open item. -/
theorem checkpoint_survives_arrivals {V : Type} (lib : Library V) (s : ContextSnapshot V)
    (checkpoint : Option CheckpointPayload) (covered : List ContextItemKey)
    (hv : validatedCoverage s.frame checkpoint = .ok covered) (active : ActiveContext)
    (hs : Selected lib s.frame checkpoint active) (policy : CompactionPolicy) (force : Bool)
    (p part : ContextPlan V) (hp : plan lib s checkpoint active policy force = .ok p)
    (hpart : part.summaryWork <+: p.summaryWork) (summaries : List String) (next : CheckpointPayload)
    (hn : completePlan checkpoint part summaries = .ok next) :
    (∀ f, Appended s.frame f → ∃ out, validatedCoverage f (some next) = .ok out) ↔
      ∀ o, Open s.frame o → ∀ g ∈ atomicGroups s.frame, g.Contains o →
        ∀ i key, keyAt s.frame i = some key →
          (key ∈ covered ∨ ∃ w ∈ part.summaryWork, key ∈ historyKeys w.items) → i < g.start := by
  obtain ⟨rfl,current,ha⟩ := (validatedCoverage_ok_iff s.frame checkpoint covered).mp hv
  obtain ⟨hacc,-⟩ := part_extends s ha hs p hp hpart hn
  have hcov := part_covered ha hs hp hpart hn
  rw [survives_iff hacc]
  simp only [Guarded, hcov]

/-- Two finished exchanges, of which the newer is summarised, and a call without output in the
current response. -/
def callingSnapshot : ContextSnapshot String :=
  { narrowedSnapshot with items := narrowedSnapshot.items++[plainItem .toolCall 6 12 false] }

theorem calling_open {o : ℕ} (h : Open callingSnapshot.frame o) : o = 5 := by
  have hplain : ∀ i < 6, i ≠ 5 → ∀ item ∈ callingSnapshot.frame.items[i]?,
      item.key.kind ≠ .reasoning ∧ callId item = none := by decide
  by_contra hne
  rcases h with ⟨item,hitem,hk,-⟩ | ⟨item,id,hitem,hid,-⟩
  · exact (hplain o (List.getElem?_eq_some_iff.mp hitem).1 hne item hitem).1 hk
  · rw [(hplain o (List.getElem?_eq_some_iff.mp hitem).1 hne item hitem).2] at hid
    cases hid

theorem checkpoint_survives_arrivals_narrowed :
    completePlan none ⟨[narrowedWork]⟩ ["memory"] = .ok narrowedNext ∧
    Open callingSnapshot.frame 5 ∧ ∀ f, Appended callingSnapshot.frame f →
      ∃ out, validatedCoverage f (some narrowedNext) = .ok out := by
  refine ⟨by rfl, .inr ⟨_, 6, rfl, rfl, rfl, by unfold IsOutput; decide⟩,
    (checkpoint_survives_arrivals plainLibrary callingSnapshot none [] (by rfl)
    ActiveContext.default (.select callingSnapshot none _ rfl (by rfl)) narrowedPolicy true
    ⟨[narrowedWork]⟩ ⟨[narrowedWork]⟩ (by rfl) (List.prefix_refl _) ["memory"] narrowedNext
    (by rfl)).mpr ?_⟩
  intro o ho g hg hcontains i key hi hkey
  obtain rfl := calling_open ho
  have hstart : ∀ g ∈ atomicGroups callingSnapshot.frame, g.start ≤ 5 → 5 ≤ g.stop →
      g.start = 5 := by decide
  have hbefore : ∀ i < 6, ∀ key ∈ keyAt callingSnapshot.frame i,
      key ∈ historyKeys narrowedWork.items → i < 5 := by decide
  rw [hstart g hg hcontains.1 hcontains.2]
  rcases hkey with hnone | ⟨w,hw,hkey⟩
  · cases hnone
  · rw [List.mem_singleton.mp hw] at hkey
    obtain ⟨item,hitem,-⟩ := Option.map_eq_some_iff.mp hi
    exact hbefore i (List.getElem?_eq_some_iff.mp hitem).1 key hi hkey

/-- The current input, and reasoning that nothing has followed yet. -/
def thinkingSnapshot : ContextSnapshot String :=
  ⟨[], 0, [plainItem .user 1 10 false,
    ⟨⟨⟨.reasoning, 2⟩, some 10, true, none, false, false⟩, [], [], 0, true⟩], ⟨.user, 1⟩, 10⟩

def keepingPolicy : CompactionPolicy := ⟨1000, 800, 500, 10000⟩

def thinkingWork : SummaryWork String :=
  ⟨.active, some ⟨.user, 1⟩, none,
    [⟨⟨⟨.reasoning, 2⟩, some 10, true, none, false, false⟩, [], [], 0, true⟩], [⟨.reasoning, 2⟩],
    false, false, none⟩

def thinkingNext : CheckpointPayload :=
  ⟨1, none, some ⟨"memory", [⟨.reasoning, 2⟩], some ⟨.user, 1⟩⟩, none⟩

/-- The reasoning is summarised alone; its reply arrives and the checkpoint is refused. -/
theorem reply_breaks_checkpoint :
    select plainLibrary thinkingSnapshot none none = .ok ActiveContext.default ∧
    plan plainLibrary thinkingSnapshot none ActiveContext.default keepingPolicy true =
      .ok ⟨[thinkingWork]⟩ ∧
    completePlan none ⟨[thinkingWork]⟩ ["memory"] = .ok thinkingNext ∧
    Appended thinkingSnapshot.frame (arrive thinkingSnapshot.frame
      ⟨⟨.assistant, 3⟩, some 10, true, none, false, false⟩) ∧
    validatedCoverage (arrive thinkingSnapshot.frame
      ⟨⟨.assistant, 3⟩, some 10, true, none, false, false⟩) (some thinkingNext) =
      .error (.checkpoint "partial tool or reasoning group covered") :=
  ⟨by rfl,by rfl,by rfl,
    .step _ _ .refl (by decide) (.reply rfl (Or.inr rfl)),by rfl⟩

end Maple.Compaction.Survival

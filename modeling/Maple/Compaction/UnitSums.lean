import Maple.Lib.Sums
import Maple.Compaction.Accounting

/-!
# Sums over the units of a window

The units end where the group of the current user begins, and at most one of them carries
the memory of an older active section. A window that is too large keeps the units from the
first user message on behind which all units fit, and perhaps the opening one.
-/

set_option autoImplicit false

namespace Maple.Compaction.Budget
open Tiling Sums Items Groups Coverage Compaction.Units Window Archive Projection List

/-- The units end where the first group begins that reaches the current input. -/
theorem unitLoop_end {f : Frame} {fold : Option (ℕ × ℕ)} {current : ℕ}
    (hf : FoldOk (atomicGroups f) current fold) {k : ℕ} {g : AtomicGroup}
    (hg : (atomicGroups f)[k]? = some g) (hc : g.Contains current) {fuel : ℕ} (index s : ℕ) {t : ℕ}
    (hindex : index ≤ k) (hfuel : k < index+fuel)
    (hs : ∀ h, (atomicGroups f)[index]? = some h → h.start = s)
    (ht : Tiles s ((unitLoop f (atomicGroups f) fold current fuel index).map WindowUnit.span) t) :
    t = g.start := by
  induction fuel generalizing index s with
  | zero => omega
  | succ fuel ih =>
    have hlt : index < (atomicGroups f).length :=
      Nat.lt_of_le_of_lt hindex (List.getElem?_eq_some_iff.mp hg).1
    obtain ⟨a,ha⟩ : ∃ a, (atomicGroups f)[index]? = some a := ⟨_,List.getElem?_eq_getElem hlt⟩
    unfold unitLoop at ht
    by_cases hstop : current ≤ a.stop
    · have hnil : s = t := by
        rw [ha] at ht
        cases hl : (atomicGroups f)[lastOf fold index]? with
        | none => simpa [hl, Tiles] using ht
        | some b => simpa [hl, hstop, Tiles] using ht
      rw [← hnil, ← hs a ha]
      obtain hsame | hless := Nat.eq_or_lt_of_le hindex
      · rw [hsame, hg] at ha
        cases ha
        rfl
      · have horder := group_order ha hg hless
        have hcs := hc.1
        omega
    · obtain ⟨hle,b,hb,hblt⟩ := lastOf_ok hf ha (by omega)
      have hnext : lastOf fold index < k := by
        by_contra hge
        have hspan := group_span_le hg hb (by omega)
        obtain hsame | hless := Nat.eq_or_lt_of_le (Nat.le_of_not_lt hge)
        · rw [← hsame, hg] at hb
          cases hb
          have hcs := hc.2
          omega
        · have horder := group_order hg hb hless
          have hbb := group_bounds (List.mem_of_getElem? hb)
          have hcs := hc.2
          omega
      rw [ha, hb] at ht
      simp only [hstop, if_false, map_cons, Tiles] at ht
      exact ih (lastOf fold index+1) (b.stop+1) (by omega) (by omega)
        (fun h hh => group_next hb hh) ht.2.2

theorem mem_takeWhile_sorted {l : List WindowUnit} {bound : ℕ} {u : WindowUnit}
    (hsorted : l.Pairwise (fun a b => a.start < b.start)) :
    u ∈ l.takeWhile (fun v => v.start < bound) ↔ u ∈ l ∧ u.start < bound := by
  induction l with
  | nil => simp
  | cons v l ih =>
    obtain ⟨hfirst,hsorted⟩ := pairwise_cons.mp hsorted
    by_cases hv : v.start < bound
    · rw [takeWhile_cons_of_pos (by simpa using hv), mem_cons, ih hsorted, mem_cons, or_and_right]
      exact or_congr_left ⟨fun hsame => ⟨hsame,hsame ▸ hv⟩,And.left⟩
    · rw [takeWhile_cons_of_neg (by simpa using hv)]
      refine iff_of_false not_mem_nil (fun hu => ?_)
      rcases mem_cons.mp hu.1 with rfl | hmem
      · exact hv hu.2
      · have hlt := hfirst u hmem
        omega

/-- What the entries from `first` on cost, the head left out. -/
def behind (head : Option ℕ) (entries : List (WindowUnit × ℕ)) (first : ℕ) : ℕ :=
  ((entries.filter (fun entry => first ≤ entry.1.start && some entry.1.start ≠ head)).map
    Prod.snd).sum

/-- From the newest on, the loop takes the entries behind which everything fits. -/
theorem tailLoop_filter {head : Option ℕ} {room : ℕ} {entries : List (WindowUnit × ℕ)} (spent : ℕ)
    (hsorted : entries.Pairwise (fun a b => b.1.start < a.1.start))
    (hsmall : spent+(entries.map Prod.snd).sum ≤ usizeMax) :
    tailLoop head room entries spent = (entries.filter (fun entry =>
      some entry.1.start ≠ head && spent+behind head entries entry.1.start ≤ room)).map Prod.fst := by
  induction entries generalizing spent with
  | nil => rfl
  | cons entry entries ih =>
    obtain ⟨hfirst,hsorted⟩ := pairwise_cons.mp hsorted
    rw [map_cons, sum_cons] at hsmall
    -- an older entry has this one behind it
    have hbehind : ∀ older ∈ entries, behind head (entry::entries) older.1.start =
        (if some entry.1.start = head then 0 else entry.2)+behind head entries older.1.start := by
      intro older holder
      have hlt := hfirst older holder
      by_cases hhead : some entry.1.start = head
      · simp [behind, hhead]
      · simp [behind, hhead, Nat.le_of_lt hlt]
    have hself : behind head entries entry.1.start = 0 := by
      rw [behind, filter_eq_nil_iff.mpr]
      · rfl
      · intro older holder
        have hlt := hfirst older holder
        simp [hlt]
    by_cases hhead : some entry.1.start = head
    · rw [tailLoop, if_pos hhead, ih spent hsorted (by omega), filter_cons_of_neg (by simp [hhead])]
      refine congrArg _ (filter_congr (fun older holder => ?_))
      rw [hbehind older holder, if_pos hhead, Nat.zero_add]
    have hadd : satAdd spent entry.2 = spent+entry.2 := Nat.min_eq_left (by omega)
    have hown : behind head (entry::entries) entry.1.start = entry.2 := by
      simpa [behind, hhead] using hself
    rw [tailLoop, if_neg hhead, hadd]
    by_cases hfull : room < spent+entry.2
    · rw [if_pos hfull, filter_eq_nil_iff.mpr, map_nil]
      intro older holder
      rcases mem_cons.mp holder with rfl | holder
      · simp [hown, hfull]
      · rw [hbehind older holder, if_neg hhead]
        simp only [Bool.and_eq_true, decide_eq_true_eq, not_and]
        omega
    · rw [if_neg hfull, ih (spent+entry.2) hsorted (by omega),
        filter_cons_of_pos (by simpa [hown, hhead] using hfull), map_cons]
      refine congrArg (entry.1::·) (congrArg _ (filter_congr (fun older holder => ?_)))
      rw [hbehind older holder, if_neg hhead, Nat.add_assoc]

namespace Setting
variable {V : Type} (p : Setting V)

def units : List WindowUnit :=
  windowUnits p.s.frame p.checkpoint (atomicGroups p.s.frame) p.current

def currentGroup : Option AtomicGroup :=
  (atomicGroups p.s.frame).find? (fun g => g.start ≤ p.current && p.current ≤ g.stop)

def turnStart : ℕ := (p.currentGroup.map AtomicGroup.start).getD 0

theorem current_group : ∃ g, p.currentGroup = some g ∧ g ∈ atomicGroups p.s.frame ∧
    g.Contains p.current := by
  obtain ⟨g,hg,hc⟩ := group_cover p.s.frame p.current (position_lt p.accepted.position)
  have hsome : p.currentGroup.isSome := by
    rw [currentGroup, List.find?_isSome]
    exact ⟨g,hg,by simpa [AtomicGroup.Contains] using hc⟩
  obtain ⟨found,hfound⟩ := Option.isSome_iff_exists.mp hsome
  have hcontains := List.find?_some hfound
  exact ⟨found,hfound,List.mem_of_find?_eq_some hfound,
    by simpa [AtomicGroup.Contains] using hcontains⟩

theorem requiredFrom_turn : requiredFrom p.units = p.turnStart := by
  obtain ⟨g,hfound,hg,hc⟩ := p.current_group
  obtain ⟨k,hk⟩ := List.getElem?_of_mem hg
  have hlt := (List.getElem?_eq_some_iff.mp hk).1
  rw [turnStart, hfound]
  refine unitLoop_end (foldSpan_ok p.accepted) hk hc 0 0 (Nat.zero_le _) (by omega) ?_
    (units_tile p.accepted)
  intro h hh
  exact tiles_head (groups_tile p.s.frame) h.span (by simpa using ⟨h,hh,rfl⟩)

theorem units_tiled : Tiles 0 (p.units.map WindowUnit.span) p.turnStart :=
  p.requiredFrom_turn ▸ units_tile p.accepted

theorem units_apart : p.units.Pairwise (fun u v => u.stop < v.start) :=
  pairwise_map.mp (tiles_pairwise _ p.units_tiled)

variable {p} {u v : WindowUnit}

theorem unit_order (hu : u ∈ p.units) : u.start ≤ u.stop ∧ u.stop < p.turnStart :=
  (tiles_bounds _ p.units_tiled (mem_map_of_mem hu)).2

variable (p) in
theorem units_sorted : p.units.Pairwise (fun u v => u.start < v.start) := by
  refine p.units_apart.imp_of_mem (fun {u v} hu _ hlt => ?_)
  have horder := unit_order hu
  omega

variable (p) in
theorem units_nodup : p.units.Nodup :=
  p.units_sorted.imp (fun hlt hsame => by rw [hsame] at hlt; omega)

theorem same_unit (hu : u ∈ p.units) (hv : v ∈ p.units) (h : u.start = v.start) : u = v :=
  sorted_same _ p.units_sorted hu hv h

theorem carrier_first (hu : u ∈ p.units) (hc : u.carriesActiveMemory = true) :
    ∃ last, foldSpan p.s.frame p.checkpoint (atomicGroups p.s.frame) p.current =
      some (u.firstGroup, last) := by
  obtain ⟨-,-,hfold⟩ := unitLoop_ok (foldSpan_ok p.accepted) _ hu
  rw [hc] at hfold
  cases hspan : foldSpan p.s.frame p.checkpoint (atomicGroups p.s.frame) p.current with
  | none =>
    rw [hspan] at hfold
    cases hfold
  | some span =>
    rw [hspan, Option.any_some] at hfold
    have hfirst : span.1 = u.firstGroup := by simpa using hfold.symm
    exact ⟨span.2,by rw [← hfirst]⟩

/-- The unit that carries the memory of an older section holds its anchor. -/
theorem carrier_anchor (hu : u ∈ p.units) (hc : u.carriesActiveMemory = true)
    {part : CheckpointSection} {anchor : ContextItemKey}
    (hp : previousActive p.s.frame p.checkpoint = some part) (hanchor : part.anchor = some anchor) :
    ∃ a, p.s.frame.position anchor = some a ∧ u.Contains a := by
  obtain ⟨last,hfold⟩ := carrier_first hu hc
  obtain ⟨found,start,stop,hfound,hstart,-,-,hfirst,-⟩ := foldSpan_some hfold
  rw [hp] at hfound
  cases hfound
  rw [hanchor, Option.bind_some] at hstart
  obtain ⟨g,hg,hcg⟩ := groupAt_some hfirst
  obtain ⟨⟨first,hgu,hsu⟩,⟨h,hh,hsh⟩,horder,-⟩ := unit_ok p.accepted hu
  rw [hg] at hgu
  cases hgu
  refine ⟨start,hstart,hsu ▸ hcg.1,?_⟩
  obtain hsame | hless := Nat.eq_or_lt_of_le horder
  · rw [← hsame, hg] at hh
    cases hh
    rw [hsh]
    exact hcg.2
  · have hlt := group_order hg hh hless
    have hbounds := group_bounds (List.mem_of_getElem? hh)
    have hstop := hcg.2
    omega

theorem same_carrier (hu : u ∈ p.units) (hv : v ∈ p.units) (hcu : u.carriesActiveMemory = true)
    (hcv : v.carriesActiveMemory = true) : u = v := by
  obtain ⟨last,hfold⟩ := carrier_first hu hcu
  obtain ⟨last',hfold'⟩ := carrier_first hv hcv
  have hfirst : u.firstGroup = v.firstGroup :=
    (Prod.mk.inj (Option.some.inj (hfold.symm.trans hfold'))).1
  obtain ⟨⟨g,hg,hgu⟩,-⟩ := unit_ok p.accepted hu
  obtain ⟨⟨h,hh,hhv⟩,-⟩ := unit_ok p.accepted hv
  rw [hfirst, hh] at hg
  cases hg
  exact same_unit hu hv (hgu.trans hhv.symm)

variable (p) (hidden : List ContextItemKey)

theorem units_raw :
    (p.units.map (p.unitRaw hidden)).sum = p.raw hidden (p.s.items.take p.turnStart) := by
  have hfront := tiles_concat p.s.items _ p.units_tiled
  rw [flatMap_map, drop_zero, Nat.sub_zero] at hfront
  rw [← hfront, raw_flatMap]
  rfl

/-- The uncovered items by units, and those of the current turn. -/
theorem raw_split (hturn : ∀ item ∈ p.s.items.drop p.turnStart, item.key ∉ hidden) :
    p.raw hidden p.s.items = (p.units.map (p.unitRaw hidden)).sum+
      p.raw [] (p.s.items.drop p.turnStart) := by
  have hrest := p.raw_congr (fun item hitem _ => iff_of_false (hturn item hitem) not_mem_nil)
  rw [← hrest, units_raw, ← raw_append, take_append_drop]

theorem unitMemory_le : (p.units.map (p.unitMemory hidden)).sum ≤ p.memory := by
  refine sum_one _ _ _ p.units_nodup (fun u hu => ?_) ?_
  · unfold unitMemory
    split_ifs <;> omega
  intro u hu v hv hpu hpv
  unfold unitMemory at hpu hpv
  split_ifs at hpu with hcu
  · split_ifs at hpv with hcv
    · exact same_carrier hu hv hcu.1 hcv.1
    · omega
  · omega

theorem unitTokens_sum : (p.units.map (p.unitTokens hidden)).sum =
    (p.units.map (p.unitRaw hidden)).sum+(p.units.map (p.unitMemory hidden)).sum := sum_map_add

theorem unitTokens_small : p.required p.turnStart+
    (p.units.map (p.unitTokens hidden)).sum+p.marker ≤ usizeMax := by
  have hs := p.unsaturated
  have hturn := p.memory_turn
  have hmemory := p.unitMemory_le hidden
  have hfront := p.raw_le hidden (p.s.items.take p.turnStart)
  have hback := p.raw_le [] (p.s.items.drop p.turnStart)
  have hall : weigh (p.s.items.take p.turnStart)+weigh (p.s.items.drop p.turnStart) =
      weigh p.s.items := by
    rw [weigh, weigh, ← sum_append, ← map_append, take_append_drop]
    rfl
  rw [unitTokens_sum, units_raw]
  unfold Unsaturated at hs
  unfold required historyTokens marker
  omega

section Cut
variable (cost : WindowUnit → ℕ) (spare : ℕ) (head : Option ℕ)

/-- A unit that is kept: from the opening on, or the head. -/
def keeps (first : ℕ) (head : Option ℕ) (u : WindowUnit) : Bool :=
  first ≤ u.start || some u.start = head

def keptTokens (first : ℕ) : ℕ := ((p.units.filter (keeps first head)).map cost).sum

/-- The first user message from which on, with the head, everything fits. -/
def cutAt : ℕ :=
  ((p.units.filter (fun u => 0 < cost u && some u.start ≠ head &&
    p.keptTokens cost head u.start ≤ spare)).find? WindowUnit.startsWithUser).elim
      p.turnStart WindowUnit.start

def opens (previous : Option ActiveContext) (u : WindowUnit) : Bool :=
  match previous with
  | some previous => previous.head = keyAt p.s.frame u.start
  | none => u.startsWithUser

/-- The opening unit, if no summary stands in for it and it fits. -/
def headOf (previous : Option ActiveContext) : Option WindowUnit :=
  (p.units.find? (fun u => 0 < cost u && p.opens previous u)).filter (fun u =>
    (p.checkpoint.bind CheckpointPayload.history).isNone && cost u ≤ spare)

def visible : List (WindowUnit × ℕ) :=
  (p.units.map (fun u => (u, cost u))).filter (fun entry => 0 < entry.2)

theorem visible_kept (keep : WindowUnit → Bool) :
    (((p.visible cost).filter (fun entry => keep entry.1)).map Prod.snd).sum =
      ((p.units.filter keep).map cost).sum := by
  unfold visible
  induction p.units with
  | nil => rfl
  | cons u list ih =>
    by_cases hpos : 0 < cost u
    · cases hk : keep u <;> simpa [hk, hpos] using ih
    · have hzero : cost u = 0 := by omega
      cases hk : keep u <;> simpa [hk, hzero] using ih

theorem visible_filter (keep : WindowUnit × ℕ → Bool) : ((p.visible cost).filter keep).map Prod.fst =
    p.units.filter (fun u => keep (u, cost u) && 0 < cost u) := by
  rw [visible, filter_filter, filter_map, map_map]
  exact map_id _

theorem headUnit_eq (previous : Option ActiveContext) :
    headUnit p.s p.checkpoint previous (p.visible cost) spare =
      (p.headOf cost spare previous).map (fun u => (u, cost u)) := by
  have hfind : (p.visible cost).find? (fun entry => p.opens previous entry.1) =
      (p.units.find? (fun u => 0 < cost u && p.opens previous u)).map (fun u => (u, cost u)) := by
    rw [visible, find?_filter, find?_map]
    simp [Function.comp_def]
  unfold headUnit headOf
  change ((p.visible cost).find? (fun entry => p.opens previous entry.1)).filter _ = _
  rw [hfind]
  cases p.units.find? (fun u => 0 < cost u && p.opens previous u) with
  | none => rfl
  | some u => simp [Option.filter, apply_ite]

variable {p cost spare} {h : Option WindowUnit} {previous : Option ActiveContext}

theorem headOf_some (hh : p.headOf cost spare previous = some u) :
    u ∈ p.units ∧ cost u ≤ spare := by
  obtain ⟨hfind,hfits⟩ := Option.filter_eq_some_iff.mp hh
  simp only [Bool.and_eq_true, decide_eq_true_eq] at hfits
  exact ⟨List.mem_of_find?_eq_some hfind,hfits.2⟩

variable (hmem : ∀ u, h = some u → u ∈ p.units ∧ cost u ≤ spare)
include hmem

theorem head_sum : ((p.units.filter (fun u => some u.start = h.map WindowUnit.start)).map
    cost).sum = (h.map cost).getD 0 ∧ (h.map cost).getD 0 ≤ spare := by
  cases h with
  | none => simp
  | some head =>
    obtain ⟨hhead,hfits⟩ := hmem head rfl
    refine ⟨?_,hfits⟩
    have hone : p.units.filter (fun u => some u.start = (some head).map WindowUnit.start) =
        [head] := by
      rw [filter_congr (q := (· == head))]
      · rw [filter_beq, count_eq_one_of_mem p.units_nodup hhead]
        rfl
      · intro u hu
        have hsame : u.start = head.start ↔ u = head :=
          ⟨same_unit hu hhead,fun h => h ▸ rfl⟩
        rw [Bool.eq_iff_iff]
        simpa using hsame
    rw [hone]
    simp

theorem kept_split (first : ℕ) : p.keptTokens cost (h.map WindowUnit.start) first =
    behind (h.map WindowUnit.start) (p.visible cost) first+(h.map cost).getD 0 := by
  rw [keptTokens, ← (head_sum hmem).1]
  have hbehind := p.visible_kept cost
    (fun u => first ≤ u.start && some u.start ≠ h.map WindowUnit.start)
  rw [behind, hbehind]
  simp only [ne_eq, decide_not]
  exact sum_either _ _ _ _

theorem opening_cut (hsmall : (p.units.map cost).sum ≤ usizeMax) :
    opening p.units (tailLoop (h.map WindowUnit.start) (spare-(h.map cost).getD 0)
      (p.visible cost).reverse 0).reverse = p.cutAt cost spare (h.map WindowUnit.start) := by
  have hfits := (head_sum hmem).2
  have hsum : ((p.visible cost).map Prod.snd).sum = (p.units.map cost).sum := by
    simpa using p.visible_kept cost (fun _ => true)
  have hsorted : (p.visible cost).Pairwise (fun a b => a.1.start < b.1.start) :=
    List.Pairwise.filter _ (pairwise_map.mpr p.units_sorted)
  have hbehind (first : ℕ) : behind (h.map WindowUnit.start) (p.visible cost).reverse first =
      behind (h.map WindowUnit.start) (p.visible cost) first := by
    rw [behind, filter_reverse, map_reverse, sum_reverse, behind]
  have htail : (tailLoop (h.map WindowUnit.start) (spare-(h.map cost).getD 0)
      (p.visible cost).reverse 0).reverse = p.units.filter (fun u => 0 < cost u &&
        some u.start ≠ h.map WindowUnit.start &&
        p.keptTokens cost (h.map WindowUnit.start) u.start ≤ spare) := by
    rw [tailLoop_filter 0 (pairwise_reverse.mpr hsorted)
      (by rw [map_reverse, sum_reverse, hsum]; omega), filter_reverse, map_reverse,
      reverse_reverse, visible_filter]
    refine filter_congr (fun u _ => ?_)
    have hkept := kept_split hmem u.start
    have hroom : behind (h.map WindowUnit.start) (p.visible cost) u.start ≤
        spare-(h.map cost).getD 0 ↔ p.keptTokens cost (h.map WindowUnit.start) u.start ≤ spare := by
      omega
    rw [hbehind, Nat.zero_add, decide_eq_decide.mpr hroom, Bool.and_comm, ← Bool.and_assoc]
  rw [opening, htail, cutAt, p.requiredFrom_turn]
  split <;> rename_i hfind <;> rw [hfind] <;> rfl

theorem kept_le : p.keptTokens cost (h.map WindowUnit.start)
    (p.cutAt cost spare (h.map WindowUnit.start)) ≤ spare := by
  unfold cutAt
  cases hfind : (p.units.filter (fun u => 0 < cost u && some u.start ≠ h.map WindowUnit.start &&
      p.keptTokens cost (h.map WindowUnit.start) u.start ≤ spare)).find?
        WindowUnit.startsWithUser with
  | some u =>
    have hu := (mem_filter.mp (List.mem_of_find?_eq_some hfind)).2
    simp only [Bool.and_eq_true, decide_eq_true_eq] at hu
    exact hu.2
  | none =>
    have hnone : behind (h.map WindowUnit.start) (p.visible cost) p.turnStart = 0 := by
      rw [behind, filter_eq_nil_iff.mpr]
      · rfl
      intro entry hentry
      obtain ⟨u,hu,rfl⟩ := mem_map.mp (mem_filter.mp hentry).1
      have horder := unit_order hu
      simp only [Bool.and_eq_true, decide_eq_true_eq, not_and]
      omega
    rw [Option.elim_none, kept_split hmem, hnone, Nat.zero_add]
    exact (head_sum hmem).2

end Cut

end Setting

end Maple.Compaction.Budget

import Maple.Compaction.Coverage

/-!
# Window units

History before the current user is cut into units. A unit is one group, except
that an older active section together with its anchor is one unit. The units
tile a part of the conversation that ends at a group boundary no later than the
current input.
-/

set_option autoImplicit false

namespace Maple.Compaction.Units
open Tiling Items Groups Coverage List

def previousActive (f : Frame) (checkpoint : Option CheckpointPayload) :
    Option CheckpointSection :=
  (checkpoint.bind CheckpointPayload.active).filter (fun part => part.anchor ≠ some f.currentUser)

def sectionPositions (f : Frame) (part : CheckpointSection) : List ℕ :=
  (part.covered++part.anchor.toList).filterMap f.position

def groupAt (groups : List AtomicGroup) (i : ℕ) : Option ℕ :=
  groups.findIdx? (fun g => g.start ≤ i && i ≤ g.stop)

def previousActiveSpan (f : Frame) (part : CheckpointSection) (groups : List AtomicGroup)
    (current : ℕ) : Option (ℕ × ℕ) :=
  match (sectionPositions f part).max?, part.anchor.bind f.position with
  | some stop, some start =>
    if current ≤ stop then none
    else match groupAt groups start, groupAt groups stop with
      | some first, some last => some (first, last)
      | _, _ => none
  | _, _ => none

structure WindowUnit where
  start : ℕ
  stop : ℕ
  firstGroup : ℕ
  lastGroup : ℕ
  startsWithUser : Bool
  carriesActiveMemory : Bool
  deriving DecidableEq, Repr

def WindowUnit.span (u : WindowUnit) : ℕ × ℕ := (u.start, u.stop)

def WindowUnit.Contains (u : WindowUnit) (i : ℕ) : Prop := u.start ≤ i ∧ i ≤ u.stop

def startsWithUser (f : Frame) (i : ℕ) : Bool :=
  (f.items[i]?).any (fun item => item.key.kind = .user)

def lastOf (fold : Option (ℕ × ℕ)) (index : ℕ) : ℕ :=
  match fold with
  | some (first, last) => if first = index then last else index
  | none => index

def unitLoop (f : Frame) (groups : List AtomicGroup) (fold : Option (ℕ × ℕ)) (current : ℕ) :
    ℕ → ℕ → List WindowUnit
  | 0, _ => []
  | fuel+1, index =>
    match groups[index]?, groups[lastOf fold index]? with
    | some g, some h =>
      if current ≤ g.stop then []
      else ⟨g.start, h.stop, index, lastOf fold index, startsWithUser f g.start,
          fold.any (fun span => span.1 = index)⟩::
        unitLoop f groups fold current fuel (lastOf fold index+1)
    | _, _ => []

def foldSpan (f : Frame) (checkpoint : Option CheckpointPayload) (groups : List AtomicGroup)
    (current : ℕ) : Option (ℕ × ℕ) :=
  (previousActive f checkpoint).bind (fun part => previousActiveSpan f part groups current)

def windowUnits (f : Frame) (checkpoint : Option CheckpointPayload) (groups : List AtomicGroup)
    (current : ℕ) : List WindowUnit :=
  unitLoop f groups (foldSpan f checkpoint groups current) current groups.length 0

def requiredFrom (units : List WindowUnit) : ℕ := units.getLast?.elim 0 (fun u => u.stop+1)

structure UnitOk (groups : List AtomicGroup) (current : ℕ) (u : WindowUnit) : Prop where
  first : ∃ g, groups[u.firstGroup]? = some g ∧ u.start = g.start
  last : ∃ g, groups[u.lastGroup]? = some g ∧ u.stop = g.stop
  order : u.firstGroup ≤ u.lastGroup
  stop_lt : u.stop < current

/-- A fold span is usable when it names two groups in order before the current input. -/
def FoldOk (groups : List AtomicGroup) (current : ℕ) (fold : Option (ℕ × ℕ)) : Prop :=
  ∀ first last, fold = some (first, last) →
    first ≤ last ∧ ∃ h, groups[last]? = some h ∧ h.stop < current

variable {current : ℕ} {fold : Option (ℕ × ℕ)} {g : AtomicGroup} {groups : List AtomicGroup}

theorem lastOf_ok (hf : FoldOk groups current fold) {index : ℕ}
    (hg : groups[index]? = some g) (hlt : g.stop < current) :
    index ≤ lastOf fold index ∧ ∃ h, groups[lastOf fold index]? = some h ∧ h.stop < current := by
  unfold lastOf
  cases fold with
  | none => exact ⟨Nat.le_refl _,g,hg,hlt⟩
  | some span =>
    obtain ⟨first,last⟩ := span
    simp only
    split_ifs with h
    · exact h ▸ hf first last rfl
    · exact ⟨Nat.le_refl _,g,hg,hlt⟩

variable {f : Frame} {i : ℕ} {a b : AtomicGroup}

theorem group_order {j : ℕ} (ha : (atomicGroups f)[i]? = some a)
    (hb : (atomicGroups f)[j]? = some b) (hij : i < j) : a.stop < b.start :=
  tiles_order _ i j (groups_tile f) a.span b.span (by simp [ha]) (by simp [hb]) hij

theorem group_next (ha : (atomicGroups f)[i]? = some a) (hb : (atomicGroups f)[i+1]? = some b) :
    b.start = a.stop+1 :=
  tiles_next _ i (groups_tile f) a.span b.span (by simp [ha]) (by simp [hb])

theorem group_span_le {j : ℕ} (ha : (atomicGroups f)[i]? = some a)
    (hb : (atomicGroups f)[j]? = some b) (hij : i ≤ j) : a.start ≤ b.stop := by
  have hba := group_bounds (List.mem_of_getElem? ha)
  have hbb := group_bounds (List.mem_of_getElem? hb)
  rcases Nat.lt_or_eq_of_le hij with h | rfl
  · have := group_order ha hb h
    omega
  · rw [ha] at hb
    cases hb
    exact hba.1

theorem unitLoop_ok (hf : FoldOk (atomicGroups f) current fold) {fuel : ℕ} (index : ℕ)
    {u : WindowUnit} (hu : u ∈ unitLoop f (atomicGroups f) fold current fuel index) :
    UnitOk (atomicGroups f) current u ∧ u.lastGroup = lastOf fold u.firstGroup ∧
      u.carriesActiveMemory = fold.any (fun span => span.1 = u.firstGroup) := by
  induction fuel generalizing index with
  | zero => simp [unitLoop] at hu
  | succ fuel ih =>
    unfold unitLoop at hu
    split at hu
    · rename_i g h hg hh
      split_ifs at hu with hc
      · simp at hu
      rcases mem_cons.mp hu with rfl | hu
      · obtain ⟨hle,h',hh',hlt⟩ := lastOf_ok hf hg (by omega)
        rw [hh] at hh'
        cases hh'
        exact ⟨⟨⟨g,hg,rfl⟩,⟨h,hh,rfl⟩,hle,hlt⟩,rfl,rfl⟩
      · exact ih _ hu
    · simp at hu

theorem unitLoop_tiles (hf : FoldOk (atomicGroups f) current fold) (fuel index s : ℕ)
    (hs : ∀ g, (atomicGroups f)[index]? = some g → g.start = s) :
    ∃ t, Tiles s ((unitLoop f (atomicGroups f) fold current fuel index).map WindowUnit.span) t := by
  induction fuel generalizing index s with
  | zero => exact ⟨s,rfl⟩
  | succ fuel ih =>
    unfold unitLoop
    split
    · rename_i g h hg hh
      split_ifs with hc
      · exact ⟨s,rfl⟩
      · obtain ⟨hle,-⟩ := lastOf_ok hf hg (by omega)
        obtain ⟨t,ht⟩ := ih (lastOf fold index+1) (h.stop+1) (fun g' hg' => group_next hh hg')
        exact ⟨t,hs g hg,group_span_le hg hh hle,ht⟩
    · exact ⟨s,rfl⟩

variable {anchor : ContextItemKey}

theorem exists_max_section {part : CheckpointSection} {a : ℕ} (hanchor : part.anchor = some anchor)
    (hpos : f.position anchor = some a) : ∃ stop, (sectionPositions f part).max? = some stop := by
  rw [← Option.isSome_iff_exists, List.isSome_max?_iff]
  exact ne_nil_of_mem (mem_filterMap.mpr ⟨anchor,by simp [hanchor],hpos⟩)

theorem groupAt_some {k : ℕ} (h : groupAt groups i = some k) :
    ∃ g, groups[k]? = some g ∧ g.Contains i := by
  obtain ⟨hlt,hc,-⟩ := List.findIdx?_eq_some_iff_getElem.mp h
  exact ⟨groups[k],List.getElem?_eq_getElem hlt,by simpa [AtomicGroup.Contains] using hc⟩

theorem groupAt_exists (hi : i < f.items.length) : ∃ k, groupAt (atomicGroups f) i = some k := by
  obtain ⟨g,hg,hc⟩ := group_cover f i hi
  rw [← Option.isSome_iff_exists, groupAt, List.findIdx?_isSome, any_eq_true]
  exact ⟨g,hg,by simpa [AtomicGroup.Contains] using hc⟩

theorem foldSpan_some {checkpoint : Option CheckpointPayload} {first last : ℕ}
    (h : foldSpan f checkpoint (atomicGroups f) current = some (first, last)) :
    ∃ part start stop, previousActive f checkpoint = some part ∧
      part.anchor.bind f.position = some start ∧ (sectionPositions f part).max? = some stop ∧
      stop < current ∧ groupAt (atomicGroups f) start = some first ∧
      groupAt (atomicGroups f) stop = some last := by
  obtain ⟨part,hp,hs⟩ := Option.bind_eq_some_iff.mp h
  unfold previousActiveSpan at hs
  split at hs
  · rename_i stop start hmax hstart
    split_ifs at hs with hc
    split at hs
    · rename_i i j hi hj
      cases hs
      exact ⟨part,start,stop,hp,hstart,hmax,by omega,hi,hj⟩
    · cases hs
  · cases hs

section Accepted
variable (f : Frame) (checkpoint : Option CheckpointPayload) (current : ℕ)
variable (ha : Accepted f checkpoint current)
include ha

variable {checkpoint} {current} {f}

theorem covered_item {key : ContextItemKey} (hk : key ∈ coveredKeys checkpoint) :
    ∃ i item, f.position key = some i ∧ f.items[i]? = some item ∧ item.key = key ∧
      isRequired f item = false := by
  cases checkpoint with
  | none => simp [coveredKeys] at hk
  | some c =>
    have hc := ha.payload c rfl
    have hex : ∃ kind anchor i, KeyOk f current kind anchor key i := by
      rcases mem_append.mp hk with hk | hk
      · cases hh : c.history with
        | none => simp [hh, sectionKeys] at hk
        | some part =>
          rw [hh] at hk
          obtain ⟨anchor,-,hall⟩ := (hc.history part hh).anchored
          exact ⟨_,anchor,hall key hk⟩
      · cases hh : c.active with
        | none => simp [hh, sectionKeys] at hk
        | some part =>
          rw [hh] at hk
          obtain ⟨anchor,-,hall⟩ := (hc.active part hh).anchored
          exact ⟨_,anchor,hall key hk⟩
    obtain ⟨kind,anchor,i,hi⟩ := hex
    obtain ⟨item,hitem,hkey⟩ := position_some f key i hi.position
    exact ⟨i,item,hi.position,hitem,hkey,hi.free item hitem⟩

theorem current_uncovered : f.currentUser ∉ coveredKeys checkpoint := by
  intro hk
  obtain ⟨i,item,-,-,hkey,hr⟩ := covered_item ha hk
  simp [isRequired, hkey] at hr

variable {i : ℕ}

theorem group_whole (hg : g ∈ atomicGroups f) (hi : g.Contains i)
    {item : ItemMeta} (hitem : f.items[i]? = some item) (hk : item.key ∈ coveredKeys checkpoint) :
    g.complete = true ∧ ∀ j other, g.Contains j → f.items[j]? = some other →
      other.key ∈ coveredKeys checkpoint := by
  rcases ha.groups g hg with h | h
  · exact absurd hk (h i item hi hitem)
  · exact h

theorem covered_stop_lt (hg : g ∈ atomicGroups f) (hi : g.Contains i)
    {item : ItemMeta} (hitem : f.items[i]? = some item) (hk : item.key ∈ coveredKeys checkpoint)
    (hlt : i < current) : g.stop < current := by
  by_contra hc
  obtain ⟨user,huser,hkey⟩ := position_some f _ _ ha.position
  have := (group_whole ha hg hi hitem hk).2 current user ⟨by have := hi.1; omega,by omega⟩ huser
  exact current_uncovered ha (hkey ▸ this)

variable {part : CheckpointSection}

/-- An older active section has a user anchor elsewhere than the current input. What it
covers lies behind the anchor, and before the current input if the anchor does. -/
theorem older_section (hp : previousActive f checkpoint = some part) :
    ∃ anchor a, part.anchor = some anchor ∧ f.position anchor = some a ∧ a ≠ current ∧
      anchor ∉ coveredKeys checkpoint ∧ part.covered ≠ [] ∧
      ∀ key ∈ part.covered, ∃ i, f.position key = some i ∧ a < i ∧ (a < current → i < current) ∧
        key ∈ coveredKeys checkpoint := by
  obtain ⟨hb,hne⟩ := Option.filter_eq_some_iff.mp hp
  obtain ⟨c,rfl,hactive⟩ := Option.bind_eq_some_iff.mp hb
  obtain ⟨-,hne',anchor,a,hanchor,-,hpos,hall⟩ :=
    (activeSection_ok f current part).mp ((ha.payload c rfl).active part hactive)
  refine ⟨anchor,a,hanchor,hpos,?_,(ha.payload c rfl).anchor part anchor hactive hanchor,hne',?_⟩
  · rintro rfl
    obtain ⟨item,hitem,hkey⟩ := position_some f _ _ hpos
    obtain ⟨user,huser,hukey⟩ := position_some f _ _ ha.position
    rw [hitem] at huser
    cases huser
    simp [hanchor, ← hkey, hukey] at hne
  · intro key hkey
    obtain ⟨i,hi⟩ := hall key hkey
    refine ⟨i,hi.position,hi.after a rfl,hi.older a rfl,?_⟩
    simp [coveredKeys, hactive, sectionKeys, hkey]

theorem max_section {stop : ℕ} (hp : previousActive f checkpoint = some part)
    (hm : (sectionPositions f part).max? = some stop) :
    (∃ key ∈ part.covered, f.position key = some stop) ∧
      ∀ key i, key ∈ part.covered ∨ part.anchor = some key → f.position key = some i →
        i ≤ stop := by
  obtain ⟨anchor,a,hanchor,hpos,-,-,hne,hall⟩ := older_section ha hp
  obtain ⟨hmem,hmax⟩ := List.max?_eq_some_iff.mp hm
  have hle : ∀ key i, key ∈ part.covered ∨ part.anchor = some key → f.position key = some i →
      i ≤ stop := by
    intro key i hk hi
    refine hmax i (mem_filterMap.mpr ⟨key,?_,hi⟩)
    rw [mem_append, Option.mem_toList]
    exact hk
  refine ⟨?_,hle⟩
  obtain ⟨key,hk,hstop⟩ := mem_filterMap.mp hmem
  rw [mem_append, Option.mem_toList] at hk
  rcases hk with hk | hk
  · exact ⟨key,hk,hstop⟩
  obtain ⟨other,hother⟩ := exists_mem_of_ne_nil _ hne
  obtain ⟨i,hi,hlt,-⟩ := hall other hother
  rw [hanchor] at hk
  cases hk
  rw [hpos] at hstop
  cases hstop
  have := hle other i (Or.inl hother) hi
  omega

theorem foldSpan_ok : FoldOk (atomicGroups f) current
    (foldSpan f checkpoint (atomicGroups f) current) := by
  intro first last h
  obtain ⟨part,start,stop,hp,hstart,hmax,hlt,hi,hj⟩ := foldSpan_some h
  obtain ⟨⟨key,hkey,hstop⟩,hle⟩ := max_section ha hp hmax
  obtain ⟨anchor,a,hanchor,hpos,-,-,-,hall⟩ := older_section ha hp
  rw [hanchor, Option.bind_some, hpos] at hstart
  cases hstart
  obtain ⟨g,hg,hcg⟩ := groupAt_some hi
  obtain ⟨g',hg',hcg'⟩ := groupAt_some hj
  have has := hle anchor start (Or.inr hanchor) hpos
  constructor
  · by_contra hc
    have := group_order hg' hg (by omega)
    have := hcg.1
    have := hcg'.2
    omega
  · obtain ⟨item,hitem,hik⟩ := position_some f _ _ hstop
    obtain ⟨i,-,-,-,hcov⟩ := hall key hkey
    exact ⟨g',hg',covered_stop_lt ha (List.mem_of_getElem? hg') hcg' hitem (hik ▸ hcov) hlt⟩

variable {u : WindowUnit}

theorem unit_ok (hu : u ∈ windowUnits f checkpoint (atomicGroups f) current) :
    UnitOk (atomicGroups f) current u :=
  (unitLoop_ok (foldSpan_ok ha) _ hu).1

theorem units_tile : Tiles 0
    ((windowUnits f checkpoint (atomicGroups f) current).map WindowUnit.span)
    (requiredFrom (windowUnits f checkpoint (atomicGroups f) current)) := by
  obtain ⟨t,ht⟩ := unitLoop_tiles (foldSpan_ok ha) (atomicGroups f).length 0 0 (by
      intro g hg
      exact tiles_head (groups_tile f) g.span (by simpa using ⟨g,hg,rfl⟩))
  have hlast := tiles_last _ ht
  rw [List.getLast?_map] at hlast
  unfold windowUnits
  convert ht
  rw [hlast, requiredFrom]
  cases (unitLoop f (atomicGroups f) (foldSpan f checkpoint (atomicGroups f) current) current
    (atomicGroups f).length 0).getLast? <;> rfl

theorem unit_cuts (hu : u ∈ windowUnits f checkpoint (atomicGroups f) current) :
    CutPoint f u.start ∧ CutPoint f (u.stop+1) := by
  obtain ⟨⟨g,hg,hs⟩,⟨h,hh,ht⟩,-,-⟩ := unit_ok ha hu
  rw [hs, ht]
  exact ⟨(group_cuts (List.mem_of_getElem? hg)).1,(group_cuts (List.mem_of_getElem? hh)).2⟩

theorem unit_unique {v : WindowUnit} (hu : u ∈ windowUnits f checkpoint (atomicGroups f) current)
    (hv : v ∈ windowUnits f checkpoint (atomicGroups f) current) (hi : u.Contains i)
    (hj : v.Contains i) : u.start = v.start ∧ u.stop = v.stop := by
  have := tiles_unique (units_tile ha) (mem_map_of_mem hu) (mem_map_of_mem hv) hi hj
  simpa [WindowUnit.span] using this

/-- The unit that holds an older section's anchor holds all the section covers. -/
theorem unit_carries (hu : u ∈ windowUnits f checkpoint (atomicGroups f) current)
    (hp : previousActive f checkpoint = some part) {a : ℕ} (hanchor : part.anchor = some anchor)
    (hpos : f.position anchor = some a) (hc : u.Contains a) {key : ContextItemKey}
    (hkey : key ∈ part.covered) (hi : f.position key = some i) : i ≤ u.stop := by
  obtain ⟨⟨⟨g,hg,hs⟩,⟨h,hh,ht⟩,hord,hlt⟩,hlast,-⟩ :=
    unitLoop_ok (foldSpan_ok ha) _ hu
  obtain ⟨anchor',a',hanchor',hpos',-,-,hne,hall⟩ := older_section ha hp
  rw [hanchor] at hanchor'
  cases hanchor'
  rw [hpos] at hpos'
  cases hpos'
  obtain ⟨stop,hmax⟩ := exists_max_section hanchor hpos
  obtain ⟨⟨top,htop,hstop⟩,hle⟩ := max_section ha hp hmax
  obtain ⟨k,hk,-,hbefore,-⟩ := hall top htop
  rw [hstop] at hk
  cases hk
  have hstopLt : stop < current := hbefore (Nat.lt_of_le_of_lt hc.2 hlt)
  obtain ⟨first,hfirst⟩ := groupAt_exists (position_lt hpos)
  obtain ⟨last,hlastGroup⟩ := groupAt_exists (position_lt hstop)
  have hfold : foldSpan f checkpoint (atomicGroups f) current = some (first, last) := by
    have hnot : ¬current ≤ stop := by omega
    simp [foldSpan, hp, previousActiveSpan, hmax, hanchor, hpos, hnot, hfirst, hlastGroup]
  obtain ⟨gf,hgf,hcf⟩ := groupAt_some hfirst
  obtain ⟨gl,hgl,hcl⟩ := groupAt_some hlastGroup
  have hca := hc.1
  have hcb := hc.2
  have h1 : u.firstGroup ≤ first := by
    by_contra hlt'
    have := group_order hgf hg (by omega)
    have := hcf.2
    omega
  have h2 : first ≤ u.lastGroup := by
    by_contra hlt'
    have := group_order hh hgf (by omega)
    have := hcf.1
    omega
  rw [hfold] at hlast
  simp only [lastOf] at hlast
  split_ifs at hlast with heq
  · rw [hlast, hgl] at hh
    cases hh
    have := hle key i (Or.inl hkey) hi
    have := hcl.2
    omega
  · omega

end Accepted

end Maple.Compaction.Units

import Maple.Compaction.Groups

/-!
# Validated coverage

`validatedCoverage` accepts a checkpoint for a snapshot, or names the first rule
it breaks. The rules together are `Accepted`: every covered key is a settled,
unprotected item on the right side of the current input, no key is covered
twice, and coverage is a union of whole complete groups.
-/

set_option autoImplicit false

namespace Maple.Compaction.Coverage
open Tiling Items Groups List

def anchorPosition (f : Frame) (kind : SectionKind) (anchor : Option ContextItemKey) :
    Except ContextError (Option ℕ) :=
  match kind, anchor with
  | .history, none => .ok none
  | .active, some key =>
    if key.kind = .user then
      match f.position key with
      | some i => .ok (some i)
      | none => .error (.checkpoint "active anchor is absent")
    else .error (.checkpoint "invalid section anchor")
  | _, _ => .error (.checkpoint "invalid section anchor")

def isRequired (f : Frame) (item : ItemMeta) : Bool :=
  item.key = f.currentUser || !item.settled ||
    (item.protectedInput && item.responseUuid = some f.currentResponse)

def coverKey (f : Frame) (current : ℕ) (kind : SectionKind) (anchor : Option ℕ)
    (covered : List ContextItemKey) (key : ContextItemKey) :
    Except ContextError (List ContextItemKey) :=
  match f.position key with
  | none => .error (.checkpoint "covered source is absent")
  | some position =>
    match f.items[position]? with
    | none => .error (.checkpoint "covered source is absent")
    | some item =>
      if isRequired f item then .error (.checkpoint "required or unsettled source covered")
      else if key ∈ covered then .error (.checkpoint "duplicate coverage")
      else if kind = .history ∧ current ≤ position then
        .error (.checkpoint "history crosses current input")
      else if anchor.any (fun anchor => position ≤ anchor) then
        .error (.checkpoint "active coverage precedes anchor")
      else if anchor.any (fun anchor => anchor < current) ∧ current ≤ position then
        .error (.checkpoint "older active section crosses current input")
      else .ok (covered++[key])

def coverKeys (f : Frame) (current : ℕ) (kind : SectionKind) (anchor : Option ℕ) :
    List ContextItemKey → List ContextItemKey → Except ContextError (List ContextItemKey)
  | covered, [] => .ok covered
  | covered, key::keys =>
    match coverKey f current kind anchor covered key with
    | .error e => .error e
    | .ok covered => coverKeys f current kind anchor covered keys

def coverSection (f : Frame) (current : ℕ) (kind : SectionKind) (covered : List ContextItemKey) :
    Option CheckpointSection → Except ContextError (List ContextItemKey)
  | none => .ok covered
  | some part =>
    if isBlank part.summary ∨ part.covered = [] then .error (.checkpoint "empty section")
    else match anchorPosition f kind part.anchor with
      | .error e => .error e
      | .ok anchor => coverKeys f current kind anchor covered part.covered

def coverCheckpoint (f : Frame) (current : ℕ) (c : CheckpointPayload) :
    Except ContextError (List ContextItemKey) :=
  if c.version ≠ checkpointVersion then .error (.checkpoint "unsupported format version")
  else match coverSection f current .history [] c.history with
    | .error e => .error e
    | .ok covered =>
      match coverSection f current .active covered c.active with
      | .error e => .error e
      | .ok covered =>
        if (c.active.bind CheckpointSection.anchor).any (fun anchor => anchor ∈ covered) then
          .error (.checkpoint "active anchor is covered")
        else if c.activeStart.any (fun start =>
            !c.history.any (fun part => start ∈ part.covered)) then
          .error (.checkpoint "active start is not covered")
        else .ok covered

def slice {α : Type} (items : List α) (start stop : ℕ) : List α :=
  (items.drop start).take (stop+1-start)

def groupOk (f : Frame) (covered : List ContextItemKey) (g : AtomicGroup) : Bool :=
  let count := ((slice f.items g.start g.stop).filter (fun item => item.key ∈ covered)).length
  !(count ≠ 0 && (count ≠ g.stop+1-g.start || !g.complete))

def checkGroups (f : Frame) (covered : List ContextItemKey) :
    Except ContextError (List ContextItemKey) :=
  if (atomicGroups f).all (groupOk f covered) then .ok covered
  else .error (.checkpoint "partial tool or reasoning group covered")

def validatedCoverage (f : Frame) (checkpoint : Option CheckpointPayload) :
    Except ContextError (List ContextItemKey) :=
  if ¬f.keys.Nodup then .error (.snapshot "duplicate item identity")
  else match f.position f.currentUser with
    | none => .error (.snapshot "current user is absent")
    | some current =>
      if f.currentUser.kind ≠ .user then .error (.snapshot "current input is not a user item")
      else match checkpoint with
        | none => checkGroups f []
        | some c =>
          match coverCheckpoint f current c with
          | .error e => .error e
          | .ok covered => checkGroups f covered

def sectionKeys : Option CheckpointSection → List ContextItemKey
  | none => []
  | some part => part.covered

def coveredKeys : Option CheckpointPayload → List ContextItemKey
  | none => []
  | some c => sectionKeys c.history++sectionKeys c.active

structure KeyOk (f : Frame) (current : ℕ) (kind : SectionKind) (anchor : Option ℕ)
    (key : ContextItemKey) (i : ℕ) : Prop where
  position : f.position key = some i
  free : ∀ item, f.items[i]? = some item → isRequired f item = false
  before : kind = .history → i < current
  after : ∀ a, anchor = some a → a < i
  older : ∀ a, anchor = some a → a < current → i < current

structure SectionOk (f : Frame) (current : ℕ) (kind : SectionKind) (part : CheckpointSection) :
    Prop where
  text : isBlank part.summary = false
  covers : part.covered ≠ []
  anchored : ∃ anchor, anchorPosition f kind part.anchor = .ok anchor ∧
    ∀ key ∈ part.covered, ∃ i, KeyOk f current kind anchor key i

variable (f : Frame) (current : ℕ)

theorem history_anchor (anchor : Option ContextItemKey) (pos : Option ℕ) :
    anchorPosition f .history anchor = .ok pos ↔ anchor = none ∧ pos = none := by
  cases anchor with
  | none => simp [anchorPosition, eq_comm]
  | some key => simp [anchorPosition]

theorem active_anchor (anchor : Option ContextItemKey) (pos : Option ℕ) :
    anchorPosition f .active anchor = .ok pos ↔
      ∃ key a, anchor = some key ∧ key.kind = .user ∧ f.position key = some a ∧ pos = some a := by
  cases anchor with
  | none => simp [anchorPosition]
  | some key =>
    unfold anchorPosition
    by_cases hu : key.kind = .user
    · cases hp : f.position key with
      | none => simp [hu, hp]
      | some a => simp [hu, hp, eq_comm]
    · simp [hu]

theorem historySection_ok (part : CheckpointSection) :
    SectionOk f current .history part ↔ isBlank part.summary = false ∧ part.covered ≠ [] ∧
      part.anchor = none ∧ ∀ key ∈ part.covered, ∃ i, KeyOk f current .history none key i := by
  constructor
  · rintro ⟨ht,hc,pos,hpos,hall⟩
    obtain ⟨hn,rfl⟩ := (history_anchor f _ _).mp hpos
    exact ⟨ht,hc,hn,hall⟩
  · rintro ⟨ht,hc,hn,hall⟩
    exact ⟨ht,hc,none,(history_anchor f _ _).mpr ⟨hn,rfl⟩,hall⟩

theorem activeSection_ok (part : CheckpointSection) :
    SectionOk f current .active part ↔ isBlank part.summary = false ∧ part.covered ≠ [] ∧
      ∃ anchor a, part.anchor = some anchor ∧ anchor.kind = .user ∧ f.position anchor = some a ∧
        ∀ key ∈ part.covered, ∃ i, KeyOk f current .active (some a) key i := by
  constructor
  · rintro ⟨ht,hc,pos,hpos,hall⟩
    obtain ⟨anchor,a,h1,h2,h3,rfl⟩ := (active_anchor f _ _).mp hpos
    exact ⟨ht,hc,anchor,a,h1,h2,h3,hall⟩
  · rintro ⟨ht,hc,anchor,a,h1,h2,h3,hall⟩
    exact ⟨ht,hc,some a,(active_anchor f _ _).mpr ⟨anchor,a,h1,h2,h3,rfl⟩,hall⟩

theorem coverKey_ok_iff (kind : SectionKind) (anchor : Option ℕ) (covered out : List ContextItemKey)
    (key : ContextItemKey) : coverKey f current kind anchor covered key = .ok out ↔
      (∃ i, KeyOk f current kind anchor key i) ∧ key ∉ covered ∧ out = covered++[key] := by
  unfold coverKey
  cases hp : f.position key with
  | none =>
    simp only [reduceCtorEq, false_iff]
    rintro ⟨⟨i,hi⟩,-⟩
    rw [hi.position] at hp
    cases hp
  | some i =>
    obtain ⟨item,hitem,-⟩ := position_some f key i hp
    simp only [hitem]
    constructor
    · intro h
      split_ifs at h with h1 h2 h3 h4 h5
      cases h
      refine ⟨⟨i,hp,?_,?_,?_,?_⟩,h2,rfl⟩
      · intro x hx
        rw [hitem] at hx
        cases hx
        simpa using h1
      · intro hk
        by_contra hle
        exact h3 ⟨hk,by omega⟩
      · rintro a rfl
        simpa using h4
      · rintro a rfl ha
        by_contra hle
        exact h5 ⟨by simpa using ha,by omega⟩
    · rintro ⟨⟨j,hj⟩,hnew,rfl⟩
      have hij : j = i := by
        have := hj.position
        rw [hp] at this
        exact (Option.some.inj this).symm
      subst hij
      have hfree := hj.free item hitem
      rw [if_neg (by simpa using hfree), if_neg hnew,
        if_neg (by rintro ⟨hk,hle⟩; have := hj.before hk; omega), if_neg, if_neg]
      · rintro ⟨ha,hle⟩
        cases anchor with
        | none => simp at ha
        | some a =>
          have := hj.older a rfl (by simpa using ha)
          omega
      · intro ha
        cases anchor with
        | none => simp at ha
        | some a =>
          have := hj.after a rfl
          simp only [Option.any_some, decide_eq_true_eq] at ha
          omega

theorem coverKeys_ok_iff (kind : SectionKind) (anchor : Option ℕ)
    (covered keys out : List ContextItemKey) (hn : covered.Nodup) :
    coverKeys f current kind anchor covered keys = .ok out ↔
      (∀ key ∈ keys, ∃ i, KeyOk f current kind anchor key i) ∧ (covered++keys).Nodup ∧
        out = covered++keys := by
  induction keys generalizing covered with
  | nil => simp [coverKeys, hn, eq_comm]
  | cons key keys ih =>
    rw [coverKeys]
    cases hk : coverKey f current kind anchor covered key with
    | error e =>
      simp only [reduceCtorEq, false_iff]
      rintro ⟨hall,hnd,-⟩
      have hnew : key ∉ covered := by
        intro hmem
        exact (nodup_append.mp hnd).2.2 key hmem key (by simp) rfl
      have := (coverKey_ok_iff f current kind anchor covered (covered++[key]) key).mpr
        ⟨hall key (by simp),hnew,rfl⟩
      rw [hk] at this
      cases this
    | ok next =>
      obtain ⟨hok,hnew,rfl⟩ := (coverKey_ok_iff f current kind anchor covered next key).mp hk
      have hn' : (covered++[key]).Nodup := by
        rw [nodup_append]
        refine ⟨hn,by simp,?_⟩
        intro a ha b hb
        rw [mem_singleton.mp hb]
        rintro rfl
        exact hnew ha
      simp only
      rw [ih (covered++[key]) hn', append_assoc, singleton_append]
      constructor
      · rintro ⟨hall,hnd,rfl⟩
        exact ⟨by simpa using ⟨hok,hall⟩,hnd,rfl⟩
      · rintro ⟨hall,hnd,rfl⟩
        exact ⟨fun k hk => hall k (by simp [hk]),hnd,rfl⟩

theorem coverSection_ok_iff (kind : SectionKind) {covered : List ContextItemKey}
    (out : List ContextItemKey) (part : Option CheckpointSection) (hn : covered.Nodup) :
    coverSection f current kind covered part = .ok out ↔
      (∀ s, part = some s → SectionOk f current kind s) ∧ (covered++sectionKeys part).Nodup ∧
        out = covered++sectionKeys part := by
  cases part with
  | none => simp [coverSection, sectionKeys, hn, eq_comm]
  | some s =>
    simp only [coverSection, sectionKeys, Option.some.injEq, forall_eq']
    by_cases hblank : isBlank s.summary = true ∨ s.covered = []
    · rw [if_pos hblank]
      simp only [reduceCtorEq, false_iff]
      rintro ⟨hs,-⟩
      rcases hblank with hb | hb
      · rw [hs.text] at hb
        cases hb
      · exact hs.covers hb
    · rw [if_neg hblank]
      simp only [not_or, Bool.not_eq_true] at hblank
      cases ha : anchorPosition f kind s.anchor with
      | error e =>
        simp only [reduceCtorEq, false_iff]
        rintro ⟨hs,-⟩
        obtain ⟨anchor,hanchor,-⟩ := hs.anchored
        rw [ha] at hanchor
        cases hanchor
      | ok anchor =>
        simp only
        rw [coverKeys_ok_iff f current kind anchor covered s.covered out hn]
        constructor
        · rintro ⟨hall,hrest⟩
          exact ⟨⟨hblank.1,hblank.2,anchor,ha,hall⟩,hrest⟩
        · rintro ⟨hs,hrest⟩
          obtain ⟨anchor',hanchor,hall⟩ := hs.anchored
          rw [ha] at hanchor
          cases hanchor
          exact ⟨hall,hrest⟩

/-- Everything `validatedCoverage` demands of a checkpoint. -/
structure CheckpointOk (f : Frame) (current : ℕ) (c : CheckpointPayload) : Prop where
  version : c.version = checkpointVersion
  history : ∀ s, c.history = some s → SectionOk f current .history s
  active : ∀ s, c.active = some s → SectionOk f current .active s
  distinct : (sectionKeys c.history++sectionKeys c.active).Nodup
  anchor : ∀ s key, c.active = some s → s.anchor = some key →
    key ∉ sectionKeys c.history++sectionKeys c.active
  start : ∀ key, c.activeStart = some key → key ∈ sectionKeys c.history

theorem coverCheckpoint_ok_iff (c : CheckpointPayload) (out : List ContextItemKey) :
    coverCheckpoint f current c = .ok out ↔
      CheckpointOk f current c ∧ out = sectionKeys c.history++sectionKeys c.active := by
  unfold coverCheckpoint
  constructor
  · intro h
    by_cases hv : c.version ≠ checkpointVersion
    · rw [if_pos hv] at h
      cases h
    rw [if_neg hv] at h
    split at h
    · cases h
    rename_i covered hh
    split at h
    · cases h
    rename_i covered' ha
    obtain ⟨hhist,hn,rfl⟩ := (coverSection_ok_iff f current .history covered c.history
      nodup_nil).mp hh
    rw [nil_append] at hn ha
    obtain ⟨hact,hn',rfl⟩ := (coverSection_ok_iff f current .active covered' c.active hn).mp ha
    split_ifs at h with hanchor hstart
    cases h
    refine ⟨⟨by simpa using hv,hhist,hact,hn',?_,?_⟩,rfl⟩
    · intro s key hs hkey hmem
      exact hanchor (by simpa [hs, hkey] using hmem)
    · intro key hkey
      cases hc : c.history with
      | none => simp [hkey, hc] at hstart
      | some s => simpa [hkey, hc, sectionKeys] using hstart
  · rintro ⟨hok,rfl⟩
    have hn := (nodup_append.mp hok.distinct).1
    have hh := (coverSection_ok_iff f current .history _ c.history nodup_nil).mpr
      ⟨hok.history,by simpa using hn,rfl⟩
    rw [nil_append] at hh
    have ha := (coverSection_ok_iff f current .active _ c.active hn).mpr
      ⟨hok.active,hok.distinct,rfl⟩
    rw [if_neg (by simpa using hok.version), hh]
    simp only [ha]
    rw [if_neg, if_neg]
    · intro hstart
      cases hk : c.activeStart with
      | none => simp [hk] at hstart
      | some key =>
        have hmem := hok.start key hk
        cases hc : c.history with
        | none => simp [hc, sectionKeys] at hmem
        | some s =>
          simp only [hk, hc, Option.any_some, Bool.not_eq_true', decide_eq_false_iff_not] at hstart
          rw [hc] at hmem
          exact hstart hmem
    · intro hanchor
      cases hs : c.active with
      | none => simp [hs] at hanchor
      | some s =>
        cases hkey : s.anchor with
        | none => simp [hs, hkey] at hanchor
        | some key =>
          simp only [hs, Option.bind_some, hkey, Option.any_some, decide_eq_true_eq] at hanchor
          have := hok.anchor s key hs hkey
          rw [hs] at this
          exact this hanchor

variable {α : Type}

theorem slice_getElem? (items : List α) (start stop i : ℕ) (x : α) :
    (slice items start stop)[i]? = some x ↔ i < stop+1-start ∧ items[start+i]? = some x := by
  unfold slice
  rw [List.getElem?_take]
  split_ifs with h
  · rw [List.getElem?_drop]
    simp [h]
  · simp [h]

theorem mem_slice (items : List α) (start stop : ℕ) (x : α) :
    x ∈ slice items start stop ↔ ∃ i, start ≤ i ∧ i ≤ stop ∧ items[i]? = some x := by
  rw [mem_iff_getElem?]
  constructor
  · rintro ⟨i,hi⟩
    obtain ⟨hlt,hx⟩ := (slice_getElem? items start stop i x).mp hi
    exact ⟨start+i,by omega,by omega,hx⟩
  · rintro ⟨i,h1,h2,hx⟩
    refine ⟨i-start,(slice_getElem? items start stop (i-start) x).mpr ⟨by omega,?_⟩⟩
    rwa [Nat.add_sub_cancel' h1]

theorem slice_length {items : List α} {start stop : ℕ} (h : start ≤ stop)
    (hs : stop < items.length) :
    (slice items start stop).length = stop+1-start := by
  rw [slice, length_take, length_drop]
  omega

/-- A group is covered as a whole, and then complete, or not at all. -/
def GroupWhole (f : Frame) (covered : List ContextItemKey) (g : AtomicGroup) : Prop :=
  (∀ i item, g.Contains i → f.items[i]? = some item → item.key ∉ covered) ∨
    (g.complete = true ∧ ∀ i item, g.Contains i → f.items[i]? = some item → item.key ∈ covered)

theorem groupOk_iff {f : Frame} (covered : List ContextItemKey) {g : AtomicGroup}
    (hg : g ∈ atomicGroups f) : groupOk f covered g = true ↔ GroupWhole f covered g := by
  have hb := group_bounds hg
  have hlen := slice_length hb.1 hb.2
  have hmem : ∀ (p : ItemMeta → Prop), (∀ x ∈ slice f.items g.start g.stop, p x) ↔
      ∀ i item, g.Contains i → f.items[i]? = some item → p item := by
    intro p
    constructor
    · intro h i item hc hi
      exact h item ((mem_slice _ _ _ _).mpr ⟨i,hc.1,hc.2,hi⟩)
    · intro h x hx
      obtain ⟨i,h1,h2,hi⟩ := (mem_slice _ _ _ _).mp hx
      exact h i x ⟨h1,h2⟩ hi
  unfold groupOk GroupWhole
  generalize hs : slice f.items g.start g.stop = part at hlen hmem
  have hzero : (part.filter (fun item => item.key ∈ covered)).length = 0 ↔
      ∀ x ∈ part, x.key ∉ covered := by
    rw [length_eq_zero_iff, filter_eq_nil_iff]
    simp
  have hfull : (part.filter (fun item => item.key ∈ covered)).length = g.stop+1-g.start ↔
      ∀ x ∈ part, x.key ∈ covered := by
    rw [← hlen, length_filter_eq_length_iff]
    simp
  rw [← hmem (fun item => item.key ∉ covered), ← hmem (fun item => item.key ∈ covered), ← hzero,
    ← hfull]
  simp only [Bool.not_and, Bool.not_or, Bool.not_not, Bool.or_eq_true, Bool.not_eq_true',
    decide_eq_false_iff_not, not_not, Bool.and_eq_true, ne_eq]
  constructor
  · rintro (h | ⟨h,hc⟩)
    · exact Or.inl h
    · exact Or.inr ⟨hc,h⟩
  · rintro (h | ⟨hc,h⟩)
    · exact Or.inl h
    · exact Or.inr ⟨h,hc⟩

structure Accepted (f : Frame) (checkpoint : Option CheckpointPayload) (current : ℕ) : Prop where
  keys : f.keys.Nodup
  position : f.position f.currentUser = some current
  user : f.currentUser.kind = .user
  payload : ∀ c, checkpoint = some c → CheckpointOk f current c
  groups : ∀ g ∈ atomicGroups f, GroupWhole f (coveredKeys checkpoint) g

theorem checkGroups_ok_iff (covered out : List ContextItemKey) : checkGroups f covered = .ok out ↔
      (∀ g ∈ atomicGroups f, GroupWhole f covered g) ∧ out = covered := by
  have hall : (atomicGroups f).all (groupOk f covered) = true ↔
      ∀ g ∈ atomicGroups f, GroupWhole f covered g := by
    rw [all_eq_true]
    exact forall₂_congr (fun g hg => groupOk_iff covered hg)
  unfold checkGroups
  split_ifs with h
  · simp [← hall, h, eq_comm]
  · simp [← hall, h]

theorem validatedCoverage_ok_iff (checkpoint : Option CheckpointPayload)
    (covered : List ContextItemKey) : validatedCoverage f checkpoint = .ok covered ↔
      covered = coveredKeys checkpoint ∧ ∃ current, Accepted f checkpoint current := by
  unfold validatedCoverage
  by_cases hn : f.keys.Nodup
  swap
  · rw [if_pos hn]
    simp only [reduceCtorEq, false_iff]
    rintro ⟨-,current,h⟩
    exact hn h.keys
  rw [if_neg (not_not.mpr hn)]
  cases hp : f.position f.currentUser with
  | none =>
    simp only [reduceCtorEq, false_iff]
    rintro ⟨-,current,h⟩
    rw [h.position] at hp
    cases hp
  | some current =>
    simp only
    by_cases hu : f.currentUser.kind = .user
    swap
    · rw [if_pos hu]
      simp only [reduceCtorEq, false_iff]
      rintro ⟨-,c,h⟩
      exact hu h.user
    rw [if_neg (not_not.mpr hu)]
    have hcur : ∀ cp c, Accepted f cp c → c = current := by
      intro cp c h
      have := h.position
      rw [hp] at this
      exact (Option.some.inj this).symm
    cases checkpoint with
    | none =>
      simp only
      rw [checkGroups_ok_iff]
      constructor
      · rintro ⟨hg,rfl⟩
        exact ⟨rfl,current,hn,hp,hu,by simp,hg⟩
      · rintro ⟨rfl,c,h⟩
        exact ⟨h.groups,rfl⟩
    | some c =>
      simp only
      cases hc : coverCheckpoint f current c with
      | error e =>
        simp only [reduceCtorEq, false_iff]
        rintro ⟨-,d,h⟩
        obtain rfl := hcur _ _ h
        have := (coverCheckpoint_ok_iff f d c _).mpr ⟨h.payload c rfl,rfl⟩
        rw [hc] at this
        cases this
      | ok out =>
        obtain ⟨hok,rfl⟩ := (coverCheckpoint_ok_iff f current c out).mp hc
        simp only
        rw [checkGroups_ok_iff]
        constructor
        · rintro ⟨hg,rfl⟩
          exact ⟨rfl,current,hn,hp,hu,by simpa using hok,hg⟩
        · rintro ⟨rfl,d,h⟩
          exact ⟨h.groups,rfl⟩

end Maple.Compaction.Coverage

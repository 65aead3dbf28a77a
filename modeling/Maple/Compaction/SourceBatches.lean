import Maple.Compaction.Source

/-!
# Batches of rows

A batch is checked row by row and then stored. It is accepted as a whole, with a row for
each of its keys, or it is refused and nothing of it is kept.
-/

set_option autoImplicit false

namespace Maple.Compaction.Source

open Items Keyed List

theorem fromDbType_kindStr (kind : ContextItemKind) : fromDbType (kindStr kind) = some kind := by
  cases kind <;> decide

section Digest
variable (sha256Hex : List UInt8 → String) {row : RawThreadMessage} {data : SourceMetadata}

theorem matchesSource_key
    (h : matchesSource sha256Hex row data = true) : rowKey row = some data.key := by
  simp only [matchesSource, Bool.and_eq_true, decide_eq_true_eq] at h
  obtain ⟨⟨⟨⟨⟨⟨⟨⟨⟨⟨⟨⟨-,huuid⟩,htype⟩,-⟩,-⟩,-⟩,-⟩,-⟩,-⟩,-⟩,-⟩,-⟩,-⟩ := h
  rw [rowKey, htype, fromDbType_kindStr, huuid]
  rfl

theorem matchesSource_bytes
    (h : matchesSource sha256Hex row data = true) : 0 ≤ data.encryptedBytes := by
  simp only [matchesSource, Bool.and_eq_true, decide_eq_true_eq] at h
  have hbytes := h.1.2
  unfold toI64 at hbytes
  split_ifs at hbytes
  have hvalue := Option.some.inj hbytes
  omega

theorem metadata_key (source : CompactionSnapshot) (key : ContextItemKey) (data : SourceMetadata)
    (h : source.metadata key = some data) : data.key = key := by
  have hfound := List.find?_some h
  simpa using hfound

/-- What every cached row keeps, whatever the snapshot: it was accepted. The predicate is
anything that holds of all rows that were fetched. -/
structure Kept (P : RawThreadMessage → Prop) (loader : SourceLoader) : Prop where
  sound : Fifo.Sound itemBytes maxCacheBytes maxCacheRows loader.cache
  accepted : ∀ key item, loader.cache.items.get key = some item →
    item.metadata.key = key ∧ matchesSource sha256Hex item.raw item.metadata = true ∧ P item.raw

def Current (metadata : ContextItemKey → Option SourceMetadata) (loader : SourceLoader) : Prop :=
  ∀ key item, loader.cache.items.get key = some item → metadata key = some item.metadata

theorem kept_empty (P : RawThreadMessage → Prop) (scope : Option Scope) :
    Kept sha256Hex P ⟨scope,.empty⟩ :=
  ⟨Fifo.sound_empty _ _ _,fun _ _ h => nomatch h⟩

variable {loader : SourceLoader}

theorem retained_get {source : CompactionSnapshot} {uncovered : List ContextItemKey}
    {key : ContextItemKey} {item : CachedItem}
    (h : (retain source uncovered loader).cache.items.get key = some item) :
    loader.cache.items.get key = some item ∧ source.metadata key = some item.metadata := by
  unfold retain at h
  split_ifs at h with hscope
  · cases h
  · simp only [Fifo.retain, get_restrict, Option.filter_eq_some_iff, Bool.and_eq_true,
      decide_eq_true_eq] at h
    exact ⟨h.1,h.2.2⟩

theorem retain_kept (P : RawThreadMessage → Prop) (source : CompactionSnapshot)
    (uncovered : List ContextItemKey) (loader : SourceLoader) (h : Kept sha256Hex P loader) :
    Kept sha256Hex P (retain source uncovered loader) := by
  refine ⟨?_,fun key item hget => h.accepted key item (retained_get hget).1⟩
  unfold retain
  split_ifs
  · exact Fifo.sound_empty _ _ _
  · exact Fifo.retain_sound _ _ _ h.sound

theorem refreshed_current (source : CompactionSnapshot) (loader : SourceLoader) :
    Current source.metadata (loader.refreshed source) :=
  fun _ _ hget => (retained_get hget).2

section Metadata
variable (metadata : ContextItemKey → Option SourceMetadata)
  (hkeys : ∀ key data, metadata key = some data → data.key = key)

def Accepted (row : RawThreadMessage) (key : ContextItemKey) : Prop :=
  ∃ data, metadata key = some data ∧ matchesSource sha256Hex row data = true

include hkeys in
theorem accepted_key (row : RawThreadMessage) (key : ContextItemKey)
    (h : Accepted sha256Hex metadata row key) : rowKey row = some key := by
  obtain ⟨data,hdata,hmatch⟩ := h
  rw [matchesSource_key sha256Hex hmatch, hkeys key data hdata]

theorem checkRows_cons (batch : List ContextItemKey) (row : RawThreadMessage)
    (rows : List RawThreadMessage) (received : List ContextItemKey) :
    checkRows sha256Hex metadata batch (row::rows) received = .ok () ↔
      ∃ key, rowKey row = some key ∧ key ∈ batch ∧ key ∉ received ∧
        Accepted sha256Hex metadata row key ∧
        checkRows sha256Hex metadata batch rows (key::received) = .ok () := by
  cases hk : rowKey row with
  | none => simp [checkRows, hk]
  | some key =>
    by_cases hin : key ∉ batch ∨ key ∈ received
    · simp only [checkRows, hk, if_pos hin, Option.some.injEq, exists_eq_left']
      refine ⟨fun h => (nomatch h),fun h => ?_⟩
      obtain hout | hin := hin
      · exact absurd h.1 hout
      · exact absurd hin h.2.1
    · have hboth := not_or.mp hin
      rw [not_not] at hboth
      cases hd : metadata key with
      | none => simp [checkRows, hk, hin, hd, Accepted]
      | some data =>
        cases hm : matchesSource sha256Hex row data <;>
          simp [checkRows, hk, hd, Accepted, hm, hboth]

variable {batch : List ContextItemKey} {rows : List RawThreadMessage}

theorem checkRows_ok (received : List ContextItemKey)
    (h : checkRows sha256Hex metadata batch rows received = .ok ()) :
    ∃ keys, List.Forall₂ (fun row key => rowKey row = some key ∧
        Accepted sha256Hex metadata row key) rows keys ∧
      keys.Nodup ∧ ∀ key ∈ keys, key ∈ batch ∧ key ∉ received := by
  induction rows generalizing received with
  | nil => exact ⟨[],.nil,nodup_nil,fun _ hin => nomatch hin⟩
  | cons row rows ih =>
    obtain ⟨key,hkey,hbatch,hnew,haccepted,hrest⟩ :=
      (checkRows_cons sha256Hex metadata batch row rows received).mp h
    obtain ⟨keys,hrows,hnodup,hin⟩ := ih (key::received) hrest
    refine ⟨key::keys,.cons ⟨hkey,haccepted⟩ hrows,nodup_cons.mpr ⟨fun hmem => ?_,hnodup⟩,?_⟩
    · exact (hin key hmem).2 mem_cons_self
    · intro other hother
      obtain rfl | hother := mem_cons.mp hother
      · exact ⟨hbatch,hnew⟩
      · exact ⟨(hin other hother).1,fun hmem =>
          (hin other hother).2 (mem_cons_of_mem _ hmem)⟩

theorem checkRows_of_accepted (batch : List ContextItemKey) {keys : List ContextItemKey}
    (received : List ContextItemKey)
    (h : List.Forall₂ (fun row key => rowKey row = some key ∧ Accepted sha256Hex metadata row key)
      rows keys)
    (hnodup : keys.Nodup) (hin : ∀ key ∈ keys, key ∈ batch ∧ key ∉ received) :
    checkRows sha256Hex metadata batch rows received = .ok () := by
  induction h generalizing received with
  | nil => rfl
  | @cons row key rows keys hrow hrest ih =>
    obtain ⟨hfirst,hnodup⟩ := nodup_cons.mp hnodup
    obtain ⟨hbatch,hnew⟩ := hin key mem_cons_self
    refine (checkRows_cons sha256Hex metadata batch row rows received).mpr
      ⟨key,hrow.1,hbatch,hnew,hrow.2,ih (key::received) hnodup (fun other hother => ?_)⟩
    obtain ⟨hobatch,honew⟩ := hin other (mem_cons_of_mem _ hother)
    refine ⟨hobatch,fun hmem => ?_⟩
    obtain rfl | hmem := mem_cons.mp hmem
    · exact hfirst hother
    · exact honew hmem

theorem checkRows_error (hbatch : ∀ key ∈ batch, (metadata key).isSome)
    (received : List ContextItemKey) {e : LoadError}
    (h : checkRows sha256Hex metadata batch rows received = .error e) : e ≠ .panic := by
  induction rows generalizing received with
  | nil => cases h
  | cons row rows ih =>
    cases hk : rowKey row with
    | none =>
      simp only [checkRows, hk] at h
      cases h
      exact fun h => nomatch h
    | some key =>
      simp only [checkRows, hk] at h
      split_ifs at h with hin
      · cases h
        exact fun h => nomatch h
      rw [not_or, not_not] at hin
      obtain ⟨data,hdata⟩ := Option.isSome_iff_exists.mp (hbatch key hin.1)
      rw [hdata] at h
      simp only at h
      split_ifs at h
      · exact ih _ h
      · cases h
        exact fun h => nomatch h

def Served (P : RawThreadMessage → Prop) (result : Map ContextItemKey RawThreadMessage)
    (keys : List ContextItemKey) : Prop :=
  ∀ key ∈ keys, ∃ row, result.get key = some row ∧ Accepted sha256Hex metadata row key ∧ P row

/-- Ready to go on: the cache is kept and has the metadata of the snapshot. -/
def Ready (P : RawThreadMessage → Prop) (loader : SourceLoader) : Prop :=
  Kept sha256Hex P loader ∧ Current metadata loader

variable {P : RawThreadMessage → Prop}

include hkeys in
theorem put_ready {key : ContextItemKey} (h : Ready sha256Hex metadata P loader)
    (hnew : loader.cache.items.get key = none) (hdata : metadata key = some data)
    (hmatch : matchesSource sha256Hex row data = true) (hrow : P row) :
    ∃ cache, Fifo.put itemBytes maxCacheBytes maxCacheRows data.key ⟨data,row⟩ loader.cache =
        some cache ∧ Ready sha256Hex metadata P { loader with cache := cache } ∧
      ∀ other item, cache.items.get other = some item → other = key ∨
        loader.cache.items.get other = some item := by
  obtain rfl := hkeys key data hdata
  obtain ⟨cache,hput,hsound,hitems⟩ := Fifo.put_sound maxCacheBytes maxCacheRows
    ⟨data,row⟩ (by decide) hnew h.1.sound
  refine ⟨cache,hput,⟨⟨hsound,fun other item hget => ?_⟩,fun other item hget => ?_⟩,
    fun other item hget => (hitems other item hget).imp And.left id⟩
  · obtain ⟨rfl,rfl⟩ | hold := hitems other item hget
    · exact ⟨rfl,hmatch,hrow⟩
    · exact h.1.accepted other item hold
  · obtain ⟨rfl,rfl⟩ | hold := hitems other item hget
    · exact hdata
    · exact h.2 other item hold

structure Stored (P : RawThreadMessage → Prop) (keys : List ContextItemKey) (s t : Loading) :
    Prop where
  ready : Ready sha256Hex metadata P t.loader
  log : t.log = s.log
  served : Served sha256Hex metadata P t.result keys
  result : ∀ key ∉ keys, t.result.get key = s.result.get key
  cached : ∀ key item, t.loader.cache.items.get key = some item →
    key ∈ keys ∨ s.loader.cache.items.get key = some item

include hkeys in
theorem storeRows_stored {keys : List ContextItemKey} (s : Loading)
    (h : Ready sha256Hex metadata P s.loader)
    (hrows : List.Forall₂ (fun row key => Accepted sha256Hex metadata row key ∧ P row) rows keys)
    (hnodup : keys.Nodup) (hnew : ∀ key ∈ keys, s.loader.cache.items.get key = none) :
    ∃ t, storeRows metadata rows s = (t, .ok ()) ∧ Stored sha256Hex metadata P keys s t := by
  induction hrows generalizing s with
  | nil => exact ⟨s,rfl,h,rfl,fun _ hin => (nomatch hin),fun _ _ => rfl,fun _ _ hget => .inr hget⟩
  | @cons row key rows keys hrow hrest ih =>
    obtain ⟨haccepted,hP⟩ := hrow
    have hkey := accepted_key sha256Hex metadata hkeys row key haccepted
    obtain ⟨data,hdata,hmatch⟩ := haccepted
    obtain ⟨hfirst,hnodup⟩ := nodup_cons.mp hnodup
    obtain ⟨cache,hput,hready,hitems⟩ := put_ready sha256Hex metadata hkeys h
      (hnew key mem_cons_self) hdata hmatch hP
    have hlater : ∀ other ∈ keys, cache.items.get other = none := by
      intro other hother
      cases hget : cache.items.get other with
      | none => rfl
      | some item =>
        obtain rfl | hold := hitems other item hget
        · exact absurd hother hfirst
        · exact absurd (hold.symm.trans (hnew other (mem_cons_of_mem _ hother))) (by simp)
    obtain ⟨t,hstore,hstored⟩ := ih
      { s with loader := { s.loader with cache := cache }, result := s.result.set key row }
      hready hnodup hlater
    refine ⟨t,?_,hstored.ready,hstored.log,?_,?_,?_⟩
    · rw [storeRows]
      simp only [hkey, hdata, hput]
      exact hstore
    · intro found hfound
      obtain rfl | hfound := mem_cons.mp hfound
      · refine ⟨row,?_,⟨data,hdata,hmatch⟩,hP⟩
        rw [hstored.result found hfirst, get_set, if_pos rfl]
      · exact hstored.served found hfound
    · intro found hfound
      rw [mem_cons, not_or] at hfound
      rw [hstored.result found hfound.2, get_set, if_neg hfound.1]
    · intro found item hget
      obtain hin | hin := hstored.cached found item hget
      · exact .inl (mem_cons_of_mem _ hin)
      · obtain rfl | hold := hitems found item hin
        · exact .inl mem_cons_self
        · exact .inr hold

structure Answered (P : RawThreadMessage → Prop) (batch : List ContextItemKey) (s t : Loading) :
    Prop where
  ready : Ready sha256Hex metadata P t.loader
  log : t.log = s.log++[⟨batch, true⟩]
  served : Served sha256Hex metadata P t.result batch
  result : ∀ key ∉ batch, t.result.get key = s.result.get key
  cached : ∀ key item, t.loader.cache.items.get key = some item →
    key ∈ batch ∨ s.loader.cache.items.get key = some item

/-- A batch is accepted as a whole, or it is refused and no row of it is kept. -/
inductive BatchOutcome (P : RawThreadMessage → Prop) (batch : List ContextItemKey) (s : Loading) :
    Loading × Except LoadError Unit → Prop where
  | accepted (t : Loading) (h : Answered sha256Hex metadata P batch s t) :
      BatchOutcome P batch s (t, .ok ())
  | refused (e : LoadError) (h : e ≠ .panic) :
      BatchOutcome P batch s ({ s with log := s.log++[⟨batch, false⟩] }, .error e)

include hkeys in
theorem storeRows_answered {s : Loading} (h : Ready sha256Hex metadata P s.loader)
    (hnew : ∀ key ∈ batch, s.loader.cache.items.get key = none)
    (hlength : rows.length = batch.length)
    (hcheck : checkRows sha256Hex metadata batch rows [] = .ok ()) (hP : ∀ row ∈ rows, P row) :
    ∃ t, storeRows metadata rows { s with log := s.log++[⟨batch,true⟩] } = (t, .ok ()) ∧
      Answered sha256Hex metadata P batch s t := by
  obtain ⟨keys,hrows,hnodup,hin⟩ := checkRows_ok sha256Hex metadata [] hcheck
  have hsame : keys.Perm batch := by
    refine (subperm_of_subset hnodup (fun key hkey => (hin key hkey).1)).perm_of_length_le ?_
    rw [← hlength, hrows.length_eq]
  have hboth : List.Forall₂ (fun row key => Accepted sha256Hex metadata row key ∧ P row)
      rows keys := by
    refine forall₂_iff_get.mpr ⟨hrows.length_eq,fun i hi hj => ?_⟩
    exact ⟨(hrows.get hi hj).2,hP _ (get_mem rows ⟨i,hi⟩)⟩
  obtain ⟨t,ht,hstored⟩ := storeRows_stored sha256Hex metadata hkeys
    { s with log := s.log++[⟨batch,true⟩] } h hboth hnodup
    (fun key hkey => hnew key (hsame.subset hkey))
  refine ⟨t,ht,hstored.ready,hstored.log,fun key hkey => hstored.served key (hsame.symm.subset hkey),
    fun key hkey => hstored.result key (fun hmem => hkey (hsame.subset hmem)),
    fun key item hget => ?_⟩
  obtain hmem | hold := hstored.cached key item hget
  · exact .inl (hsame.subset hmem)
  · exact .inr hold

include hkeys in
theorem fetchBatch_outcome (fetch : Fetch)
    (hfetch : ∀ log batch rows, fetch log batch = .ok rows → ∀ row ∈ rows, P row) {s : Loading}
    (h : Ready sha256Hex metadata P s.loader) (hdata : ∀ key ∈ batch, (metadata key).isSome)
    (hnew : ∀ key ∈ batch, s.loader.cache.items.get key = none) :
    BatchOutcome sha256Hex metadata P batch s (fetchBatch sha256Hex metadata fetch batch s) := by
  cases hf : fetch (s.log.map Fetched.batch) batch with
  | error e =>
    simp only [fetchBatch, hf]
    exact .refused _ (fun h => nomatch h)
  | ok rows =>
    by_cases hlength : rows.length = batch.length
    · cases hc : checkRows sha256Hex metadata batch rows [] with
      | error e =>
        simp only [fetchBatch, hf, hlength, ne_eq, not_true_eq_false, if_false, hc]
        exact .refused e (checkRows_error sha256Hex metadata hdata [] hc)
      | ok u =>
        obtain ⟨t,ht,hanswered⟩ := storeRows_answered sha256Hex metadata hkeys h
          hnew hlength hc (hfetch _ _ rows hf)
        simp only [fetchBatch, hf, hlength, ne_eq, not_true_eq_false, if_false, hc, ht]
        exact .accepted t hanswered
    · simp only [fetchBatch, hf, ne_eq, hlength, not_false_eq_true, if_true]
      exact .refused _ (fun h => nomatch h)

end Metadata

end Digest

end Maple.Compaction.Source

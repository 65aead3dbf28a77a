import Maple.Compaction.SourceBatches

/-!
# The cache of rows is bounded and transparent

What the cache holds was accepted against its metadata, and a load uses it only while the
snapshot still has this metadata. A load therefore gives the rows of the snapshot, whatever
is in the cache.
-/

set_option autoImplicit false

namespace Maple.Compaction.Source

open Items Keyed List

section Digest
variable (sha256Hex : List UInt8 → String)

section Metadata
variable (metadata : ContextItemKey → Option SourceMetadata)
  (hkeys : ∀ key data, metadata key = some data → data.key = key)

def declaredBytes (key : ContextItemKey) : ℕ :=
  ((metadata key).map (fun data => data.encryptedBytes.toNat)).getD 0

def Sized (batch : List ContextItemKey) : Prop :=
  batch ≠ [] ∧ batch.length ≤ maxBatchRows ∧
    (batch.length = 1 ∨ (batch.map (declaredBytes metadata)).sum ≤ maxSourceBatchBytes)

structure Waiting (keys batch : List ContextItemKey) (batchBytes : ℕ) (loader : SourceLoader) :
    Prop where
  distinct : (batch++keys).Nodup
  known : ∀ key ∈ batch++keys, (metadata key).isSome
  uncached : ∀ key ∈ batch, loader.cache.items.get key = none
  bytes : batchBytes = satSum 0 (batch.map (declaredBytes metadata))
  sized : batch = [] ∨ Sized metadata batch

/-- What walking through the keys gives, whether it ends well or not. -/
structure Walked (P : RawThreadMessage → Prop) (keys : List ContextItemKey) (s : Loading)
    (out : Loading × Except LoadError Unit) (fetched : List Fetched) : Prop where
  ready : Ready sha256Hex metadata P out.1.loader
  calm : out.2 ≠ .error .panic
  log : out.1.log = s.log++fetched
  sized : ∀ entry ∈ fetched, Sized metadata entry.batch
  once : (fetched.flatMap Fetched.batch).Nodup
  asked : ∀ key ∈ fetched.flatMap Fetched.batch, key ∈ keys
  refused : ∀ entry ∈ fetched, entry.accepted = false → ∀ key ∈ entry.batch,
    out.1.loader.cache.items.get key = none
  complete : out.2 = .ok () → ∀ key ∈ keys, s.loader.cache.items.get key = none →
    key ∈ fetched.flatMap Fetched.batch
  served : out.2 = .ok () → Served sha256Hex metadata P out.1.result keys
  others : out.2 = .ok () → ∀ key ∉ keys, out.1.result.get key = s.result.get key

variable {P : RawThreadMessage → Prop} {s : Loading} {metadata} {sha256Hex}

theorem stopped_walked (keys : List ContextItemKey) (e : LoadError)
    (h : Ready sha256Hex metadata P s.loader) (he : e ≠ .panic) :
    Walked sha256Hex metadata P keys s (s, .error e) [] where
  ready := h
  calm := fun hsame => he (Except.error.inj hsame)
  log := (List.append_nil _).symm
  sized := fun _ hin => nomatch hin
  once := List.nodup_nil
  asked := fun _ hin => nomatch hin
  refused := fun _ hin => nomatch hin
  complete := fun hsame => nomatch hsame
  served := fun hsame => nomatch hsame
  others := fun hsame => nomatch hsame

variable {batch : List ContextItemKey} {rest : List ContextItemKey}

theorem refused_walked {e : LoadError}
    (h : Ready sha256Hex metadata P s.loader) (he : e ≠ .panic) (hdistinct : (batch++rest).Nodup)
    (hnew : ∀ key ∈ batch, s.loader.cache.items.get key = none) (hsized : Sized metadata batch) :
    Walked sha256Hex metadata P (batch++rest) s
      ({ s with log := s.log++[⟨batch,false⟩] }, .error e) [⟨batch,false⟩] where
  ready := h
  calm := fun hsame => he (Except.error.inj hsame)
  log := rfl
  sized := by
    intro entry hentry
    rw [mem_singleton.mp hentry]
    exact hsized
  once := by
    simp only [flatMap_cons, flatMap_nil, append_nil]
    exact (nodup_append.mp hdistinct).1
  asked := by
    intro key hkey
    simp only [flatMap_cons, flatMap_nil, append_nil] at hkey
    exact mem_append_left _ hkey
  refused := by
    intro entry hentry _ key hkey
    rw [mem_singleton.mp hentry] at hkey
    exact hnew key hkey
  complete := fun hsame => nomatch hsame
  served := fun hsame => nomatch hsame
  others := fun hsame => nomatch hsame

variable {out : Loading × Except LoadError Unit} {fetched : List Fetched}

/-- An accepted batch, and then the rest. -/
theorem answered_walked {t : Loading} (hdistinct : (batch++rest).Nodup)
    (hsized : Sized metadata batch) (ht : Answered sha256Hex metadata P batch s t)
    (h : Walked sha256Hex metadata P rest t out fetched) :
    Walked sha256Hex metadata P (batch++rest) s out (⟨batch,true⟩::fetched) where
  ready := h.ready
  calm := h.calm
  log := by rw [h.log, ht.log, List.append_assoc, List.singleton_append]
  sized := List.forall_mem_cons.mpr ⟨hsized,h.sized⟩
  once := by
    obtain ⟨hbatch,-,hapart⟩ := nodup_append.mp hdistinct
    rw [flatMap_cons]
    exact nodup_append.mpr ⟨hbatch,h.once,fun a ha b hb => hapart a ha b (h.asked b hb)⟩
  asked := by
    intro key hkey
    rw [flatMap_cons] at hkey
    exact (mem_append.mp hkey).elim (mem_append_left _)
      (fun hin => mem_append_right _ (h.asked key hin))
  refused := by
    intro entry hentry hrefused
    obtain rfl | hentry := mem_cons.mp hentry
    · cases hrefused
    · exact h.refused entry hentry hrefused
  complete := by
    intro hok key hkey hnew
    rw [flatMap_cons]
    obtain hin | hin := mem_append.mp hkey
    · exact mem_append_left _ hin
    refine mem_append_right _ (h.complete hok key hin ?_)
    cases hget : t.loader.cache.items.get key with
    | none => rfl
    | some item =>
      obtain hbatch | hold := ht.cached key item hget
      · exact absurd rfl ((nodup_append.mp hdistinct).2.2 key hbatch key hin)
      · exact absurd (hold.symm.trans hnew) (by simp)
  served := by
    intro hok key hkey
    obtain hin | hin := mem_append.mp hkey
    · obtain ⟨row,hrow,haccepted⟩ := ht.served key hin
      have hother : key ∉ rest := fun hrest =>
        (nodup_append.mp hdistinct).2.2 key hin key hrest rfl
      exact ⟨row,(h.others hok key hother).trans hrow,haccepted⟩
    · exact h.served hok key hin
  others := by
    intro hok key hkey
    rw [mem_append, not_or] at hkey
    rw [h.others hok key hkey.2, ht.result key hkey.1]

variable {key : ContextItemKey}

/-- A row of the cache answers for its key. -/
theorem hit_walked {front back : List ContextItemKey} {item : CachedItem}
    (hready : Ready sha256Hex metadata P s.loader) (hget : s.loader.cache.items.get key = some item)
    (hnew : key ∉ front++back)
    (h : Walked sha256Hex metadata P (front++back) { s with result := s.result.set key item.raw }
      out fetched) :
    Walked sha256Hex metadata P (front++key::back) s out fetched where
  ready := h.ready
  calm := h.calm
  log := h.log
  sized := h.sized
  once := h.once
  asked := by
    intro other hother
    have hin := h.asked other hother
    simp only [mem_append, mem_cons] at hin ⊢
    exact hin.imp id .inr
  refused := h.refused
  complete := by
    intro hok other hother hmiss
    have hne : other ≠ key := by
      rintro rfl
      exact absurd (hget.symm.trans hmiss) (by simp)
    refine h.complete hok other ?_ hmiss
    simp only [mem_append, mem_cons, hne, false_or] at hother ⊢
    exact hother
  served := by
    intro hok other hother
    by_cases hne : other = key
    · subst hne
      obtain ⟨-,hmatch,hP⟩ := hready.1.accepted other item hget
      refine ⟨item.raw,?_,⟨item.metadata,hready.2 other item hget,hmatch⟩,hP⟩
      rw [h.others hok other hnew, get_set, if_pos rfl]
    · refine h.served hok other ?_
      simp only [mem_append, mem_cons, hne, false_or] at hother ⊢
      exact hother
  others := by
    intro hok other hother
    simp only [mem_append, mem_cons, not_or] at hother
    rw [h.others hok other (by simp [hother]), get_set, if_neg hother.2.1]

variable {batchBytes : ℕ}

/-- The next key joins the waiting batch. -/
theorem waiting_push {keys : List ContextItemKey} {loader : SourceLoader}
    (h : Waiting metadata (key::keys) batch batchBytes loader)
    (hnew : loader.cache.items.get key = none)
    (hroom : ¬(¬batch.isEmpty ∧ (batch.length = maxBatchRows ∨
      maxSourceBatchBytes < satAdd batchBytes (declaredBytes metadata key)))) :
    Waiting metadata keys (batch++[key]) (satAdd batchBytes (declaredBytes metadata key))
      loader where
  distinct := by simpa using h.distinct
  known := by simpa using h.known
  uncached := by
    intro other hother
    obtain hin | hin := mem_append.mp hother
    · exact h.uncached other hin
    · rw [mem_singleton.mp hin]
      exact hnew
  bytes := by
    rw [h.bytes, map_append, satSum, satSum, foldl_append]
    rfl
  sized := by
    refine .inr ⟨by simp,?_⟩
    cases hb : batch with
    | nil => exact ⟨Nat.le_of_ble_eq_true rfl,.inl rfl⟩
    | cons first others =>
      rw [← hb]
      have hne : batch.isEmpty = false := by rw [hb]; rfl
      simp only [hne, Bool.false_eq_true, not_false_eq_true, true_and, not_or] at hroom
      obtain hempty | ⟨-,hcount,-⟩ := h.sized
      · exact absurd (hb.symm.trans hempty) (by simp)
      refine ⟨?_,.inr ?_⟩
      · rw [length_append, length_singleton]
        omega
      have hsum := satSum_eq 0 (batch.map (declaredBytes metadata)) (Nat.zero_le _)
      rw [← h.bytes] at hsum
      have hle := hroom.2
      rw [satAdd, hsum] at hle
      have hlimit : maxSourceBatchBytes < usizeMax := by decide
      simp only [map_append, map_cons, map_nil, sum_append, sum_cons, sum_nil]
      omega

theorem done_walked (h : Ready sha256Hex metadata P s.loader) :
    Walked sha256Hex metadata P [] s (s, .ok ()) [] where
  ready := h
  calm := fun hsame => nomatch hsame
  log := (List.append_nil _).symm
  sized := fun _ hin => nomatch hin
  once := List.nodup_nil
  asked := fun _ hin => nomatch hin
  refused := fun _ hin => nomatch hin
  complete := fun _ _ hin => nomatch hin
  served := fun _ _ hin => nomatch hin
  others := fun _ _ _ => rfl

include hkeys in
theorem waiting_outcome (fetch : Fetch)
    (hfetch : ∀ log batch rows, fetch log batch = .ok rows → ∀ row ∈ rows, P row)
    {keys : List ContextItemKey} (h : Ready sha256Hex metadata P s.loader)
    (hw : Waiting metadata keys batch batchBytes s.loader) :
    BatchOutcome sha256Hex metadata P batch s (fetchBatch sha256Hex metadata fetch batch s) :=
  fetchBatch_outcome sha256Hex metadata hkeys fetch hfetch h
    (fun key hkey => hw.known key (mem_append_left _ hkey)) hw.uncached

theorem waiting_start {keys : List ContextItemKey} {before : SourceLoader} (loader : SourceLoader)
    (hw : Waiting metadata keys batch batchBytes before) : Waiting metadata keys [] 0 loader where
  distinct := (List.nodup_append.mp hw.distinct).2.1
  known := fun key hkey => hw.known key (List.mem_append_right _ hkey)
  uncached := fun _ hin => nomatch hin
  bytes := rfl
  sized := .inl rfl

/-- After an accepted batch the next key waits alone. -/
theorem waiting_next {keys : List ContextItemKey} {t : Loading}
    (hw : Waiting metadata (key::keys) batch batchBytes s.loader)
    (ht : Answered sha256Hex metadata P batch s t) (hget : s.loader.cache.items.get key = none) :
    Waiting metadata keys [key] (satAdd 0 (declaredBytes metadata key)) t.loader := by
  have hnew : key ∉ batch++keys := (nodup_cons.mp (nodup_middle.mp hw.distinct)).1
  have habsent : t.loader.cache.items.get key = none := by
    cases hfound : t.loader.cache.items.get key with
    | none => rfl
    | some item =>
      obtain hin | hold := ht.cached key item hfound
      · exact absurd (mem_append_left _ hin) hnew
      · exact absurd (hold.symm.trans hget) (by simp)
  exact waiting_push (waiting_start t.loader hw) habsent (by simp)

/-- A key that is in the cache leaves the batch as it is. -/
theorem waiting_skip {keys : List ContextItemKey} {loader : SourceLoader}
    (hw : Waiting metadata (key::keys) batch batchBytes loader) :
    Waiting metadata keys batch batchBytes loader where
  distinct := (List.nodup_cons.mp (List.nodup_middle.mp hw.distinct)).2
  known := by
    intro other hother
    refine hw.known other ?_
    simp only [mem_append, mem_cons] at hother ⊢
    exact hother.imp id .inr
  uncached := hw.uncached
  bytes := hw.bytes
  sized := hw.sized

variable (sha256Hex)

include hkeys in
theorem loadKeys_walked (P : RawThreadMessage → Prop) (fetch : Fetch)
    (hfetch : ∀ log batch rows, fetch log batch = .ok rows → ∀ row ∈ rows, P row)
    (keys batch : List ContextItemKey) (batchBytes : ℕ) (s : Loading)
    (h : Ready sha256Hex metadata P s.loader)
    (hw : Waiting metadata keys batch batchBytes s.loader) :
    ∃ fetched, Walked sha256Hex metadata P (batch++keys) s
      (loadKeys sha256Hex metadata fetch keys batch batchBytes s) fetched := by
  induction keys generalizing batch batchBytes s with
  | nil =>
    cases hb : batch with
    | nil => exact ⟨[],done_walked h⟩
    | cons first others =>
      rw [← hb]
      have hout := waiting_outcome hkeys fetch hfetch h hw
      have hne : batch.isEmpty = false := by rw [hb]; rfl
      have hsized : Sized metadata batch := hw.sized.resolve_left (by simp [hb])
      simp only [loadKeys, hne, Bool.false_eq_true, if_false]
      generalize fetchBatch sha256Hex metadata fetch batch s = out at hout
      cases hout with
      | accepted t ht =>
        exact ⟨_,answered_walked hw.distinct hsized ht (done_walked ht.ready)⟩
      | refused e he =>
        exact ⟨_,refused_walked h he hw.distinct hw.uncached hsized⟩
  | cons key keys ih =>
    have hnew : key ∉ batch++keys :=
      (nodup_cons.mp (nodup_middle.mp hw.distinct)).1
    cases hget : s.loader.cache.items.get key with
    | some item =>
      simp only [loadKeys, hget]
      obtain ⟨fetched,hwalked⟩ := ih batch batchBytes
        { s with result := s.result.set key item.raw } h
        (waiting_skip hw)
      exact ⟨fetched,hit_walked h hget hnew hwalked⟩
    | none =>
      obtain ⟨data,hdata⟩ := Option.isSome_iff_exists.mp (hw.known key (by simp))
      have hbytes : declaredBytes metadata key = data.encryptedBytes.toNat := by
        rw [declaredBytes, hdata]
        rfl
      by_cases hneg : data.encryptedBytes < 0
      · simp only [loadKeys, hget, hdata, if_pos hneg]
        exact ⟨[],stopped_walked _ _ h (fun hsame => nomatch hsame)⟩
      by_cases hfull : ¬batch.isEmpty ∧ (batch.length = maxBatchRows ∨
          maxSourceBatchBytes < satAdd batchBytes data.encryptedBytes.toNat)
      · simp only [loadKeys, hget, hdata, if_neg hneg, if_pos hfull]
        have hsized : Sized metadata batch := hw.sized.resolve_left (by
          rintro rfl
          exact hfull.1 rfl)
        have hout := waiting_outcome hkeys fetch hfetch h hw
        generalize fetchBatch sha256Hex metadata fetch batch s = out at hout
        cases hout with
        | accepted t ht =>
          have hpush := waiting_next hw ht hget
          rw [hbytes] at hpush
          obtain ⟨fetched,hwalked⟩ := ih [key] _ t ht.ready hpush
          exact ⟨_,answered_walked hw.distinct hsized ht hwalked⟩
        | refused e he =>
          exact ⟨_,refused_walked h he hw.distinct hw.uncached hsized⟩
      · simp only [loadKeys, hget, hdata, if_neg hneg, if_neg hfull]
        rw [← hbytes] at hfull ⊢
        have hpush := waiting_push hw hget hfull
        obtain ⟨fetched,hwalked⟩ := ih (batch++[key]) _ s h hpush
        rw [append_assoc, singleton_append] at hwalked
        exact ⟨fetched,hwalked⟩

variable (metadata)

def Servable (rows : ContextItemKey → Option RawThreadMessage) (key : ContextItemKey) : Prop :=
  ∃ row, rows key = some row ∧ Accepted sha256Hex metadata row key

/-- Fetching gives the rows of the batch, in some order. -/
def Selects (fetch : Fetch) (rows : ContextItemKey → Option RawThreadMessage) : Prop :=
  ∀ log batch, ∃ found, fetch log batch = .ok found ∧ found.Perm (batch.filterMap rows)

variable {metadata}

include hkeys in
theorem fetchBatch_selects {fetch : Fetch} {rows : ContextItemKey → Option RawThreadMessage}
    (hselects : Selects fetch rows)
    (hfetch : ∀ log batch rows, fetch log batch = .ok rows → ∀ row ∈ rows, P row)
    {keys : List ContextItemKey} (h : Ready sha256Hex metadata P s.loader)
    (hw : Waiting metadata keys batch batchBytes s.loader)
    (hservable : ∀ key ∈ batch, Servable sha256Hex metadata rows key) :
    ∃ t, fetchBatch sha256Hex metadata fetch batch s = (t, .ok ()) ∧
      Answered sha256Hex metadata P batch s t := by
  have hbatch := (nodup_append.mp hw.distinct).1
  obtain ⟨found,hfound,hperm⟩ := hselects (s.log.map Fetched.batch) batch
  have hpick : List.Forall₂ (fun row key => rowKey row = some key ∧
      Accepted sha256Hex metadata row key) (batch.filterMap rows) batch := by
    clear hw hfound hperm hbatch
    induction batch with
    | nil => exact .nil
    | cons key batch ih =>
      obtain ⟨row,hrow,haccepted⟩ := hservable key mem_cons_self
      rw [filterMap_cons_some hrow]
      exact .cons ⟨accepted_key sha256Hex metadata hkeys row key haccepted,haccepted⟩
        (ih (fun other hother => hservable other (mem_cons_of_mem _ hother)))
  obtain ⟨picked,hrows,hpicked⟩ := perm_comp_forall₂ hperm hpick
  have hcheck := checkRows_of_accepted sha256Hex metadata batch [] hrows
    (hpicked.nodup_iff.mpr hbatch) (fun key hkey => ⟨hpicked.subset hkey,fun h => nomatch h⟩)
  have hlength : found.length = batch.length := by rw [hrows.length_eq, hpicked.length_eq]
  obtain ⟨t,ht,hanswered⟩ := storeRows_answered sha256Hex metadata hkeys h
    hw.uncached hlength hcheck (hfetch _ _ found hfound)
  refine ⟨t,?_,hanswered⟩
  simp only [fetchBatch, hfound, hlength, ne_eq, not_true_eq_false, if_false, hcheck, ht]

include hkeys in
theorem loadKeys_selects {fetch : Fetch} {rows : ContextItemKey → Option RawThreadMessage}
    (hselects : Selects fetch rows)
    (hfetch : ∀ log batch rows, fetch log batch = .ok rows → ∀ row ∈ rows, P row)
    {keys : List ContextItemKey} (batch : List ContextItemKey) (batchBytes : ℕ) (s : Loading)
    (h : Ready sha256Hex metadata P s.loader) (hw : Waiting metadata keys batch batchBytes s.loader)
    (hservable : ∀ key ∈ batch++keys, Servable sha256Hex metadata rows key) :
    ∃ t, loadKeys sha256Hex metadata fetch keys batch batchBytes s = (t, .ok ()) := by
  induction keys generalizing batch batchBytes s with
  | nil =>
    by_cases hempty : batch.isEmpty = true
    · exact ⟨s,if_pos hempty⟩
    · obtain ⟨t,ht,-⟩ := fetchBatch_selects sha256Hex hkeys hselects hfetch h hw
        (fun key hkey => hservable key (mem_append_left _ hkey))
      exact ⟨t,(if_neg hempty).trans ht⟩
  | cons key keys ih =>
    cases hget : s.loader.cache.items.get key with
    | some item =>
      simp only [loadKeys, hget]
      refine ih batch batchBytes { s with result := s.result.set key item.raw } h
        (waiting_skip hw) (fun other hother => ?_)
      refine hservable other ?_
      simp only [mem_append, mem_cons] at hother ⊢
      exact hother.imp id .inr
    | none =>
      obtain ⟨row,hrow,data,hdata,hmatch⟩ := hservable key (by simp)
      have hbytes : declaredBytes metadata key = data.encryptedBytes.toNat := by
        rw [declaredBytes, hdata]
        rfl
      have hneg : ¬data.encryptedBytes < 0 := by
        have hle := matchesSource_bytes sha256Hex hmatch
        omega
      by_cases hfull : ¬batch.isEmpty ∧ (batch.length = maxBatchRows ∨
          maxSourceBatchBytes < satAdd batchBytes data.encryptedBytes.toNat)
      · obtain ⟨t,ht,hanswered⟩ := fetchBatch_selects sha256Hex hkeys hselects hfetch h hw
          (fun other hother => hservable other (mem_append_left _ hother))
        simp only [loadKeys, hget, hdata, if_neg hneg, if_pos hfull, ht]
        have hnext := waiting_next hw hanswered hget
        rw [hbytes] at hnext
        exact ih [key] _ t hanswered.ready hnext
          (fun other hother => hservable other (mem_append_right _ hother))
      · simp only [loadKeys, hget, hdata, if_neg hneg, if_neg hfull]
        rw [← hbytes] at hfull ⊢
        refine ih (batch++[key]) _ s h (waiting_push hw hget hfull) ?_
        rw [append_assoc, singleton_append]
        exact hservable

end Metadata

theorem collectRows_served (keys : List ContextItemKey)
    (result : Map ContextItemKey RawThreadMessage) (hnodup : keys.Nodup)
    (h : ∀ key ∈ keys, (result.get key).isSome) :
    ∃ rows, collectRows keys result = .ok rows ∧
      List.Forall₂ (fun row key => result.get key = some row) rows keys := by
  induction keys generalizing result with
  | nil => exact ⟨[],rfl,.nil⟩
  | cons key keys ih =>
    obtain ⟨hfirst,hnodup⟩ := nodup_cons.mp hnodup
    obtain ⟨row,hrow⟩ := Option.isSome_iff_exists.mp (h key mem_cons_self)
    have hother : ∀ other ∈ keys, (result.remove key).get other = result.get other := by
      intro other hother
      have hne : other ≠ key := fun hsame => hfirst (hsame ▸ hother)
      rw [get_remove, if_neg hne]
    obtain ⟨rows,hrows,hall⟩ := ih (result.remove key) hnodup (fun other hin => by
      rw [hother other hin]
      exact h other (mem_cons_of_mem _ hin))
    refine ⟨row::rows,by simp only [collectRows, hrow, hrows],.cons hrow ?_⟩
    refine forall₂_iff_get.mpr ⟨hall.length_eq,fun i hi hj => ?_⟩
    exact (hother _ (get_mem keys ⟨i,hj⟩)).symm.trans (hall.get hi hj)

structure LoadSound (P : RawThreadMessage → Prop) (source : CompactionSnapshot)
    (keys : List ContextItemKey) (before : SourceLoader) (out : Loaded) : Prop where
  kept : Kept sha256Hex P out.loader
  calm : out.result ≠ .error .panic
  rows : ∀ rows, out.result = .ok rows → List.Forall₂ (fun row key =>
    rowKey row = some key ∧ Accepted sha256Hex source.metadata row key ∧ P row) rows keys
  refused : ∀ entry ∈ out.log, entry.accepted = false → ∀ key ∈ entry.batch,
    out.loader.cache.items.get key = none
  sized : ∀ entry ∈ out.log, Sized source.metadata entry.batch
  once : (out.log.flatMap Fetched.batch).Nodup
  asked : ∀ key ∈ out.log.flatMap Fetched.batch, key ∈ keys
  complete : ∀ rows, out.result = .ok rows → ∀ key ∈ keys,
    (before.refreshed source).cache.items.get key = none → key ∈ out.log.flatMap Fetched.batch

theorem load_waiting (source : CompactionSnapshot) (keys : List ContextItemKey)
    (loader : SourceLoader) (h : ¬(¬keys.Nodup ∨ ∃ key ∈ keys, source.metadata key = none)) :
    Waiting source.metadata keys [] 0 loader := by
  rw [not_or, not_not] at h
  refine ⟨h.1,fun key hkey => ?_,fun _ hin => (nomatch hin),rfl,.inl rfl⟩
  exact Option.isSome_iff_ne_none.mpr (fun hnone => h.2 ⟨key,hkey,hnone⟩)

theorem load_sound (P : RawThreadMessage → Prop) (fetch : Fetch)
    (hfetch : ∀ log batch rows, fetch log batch = .ok rows → ∀ row ∈ rows, P row)
    (source : CompactionSnapshot) (keys : List ContextItemKey) (loader : SourceLoader)
    (h : Kept sha256Hex P loader) :
    LoadSound sha256Hex P source keys loader (load sha256Hex fetch source keys loader) := by
  have hkept := retain_kept sha256Hex P source (source.items.map SourceMetadata.key) loader h
  by_cases hbad : ¬keys.Nodup ∨ ∃ key ∈ keys, source.metadata key = none
  · have hload : load sha256Hex fetch source keys loader =
        ⟨loader.refreshed source,[],.error (.database .invalidSelection)⟩ := if_pos hbad
    rw [hload]
    exact ⟨hkept,fun hsame => (nomatch hsame),fun _ hsame => (nomatch hsame),
      fun _ hin => (nomatch hin),fun _ hin => (nomatch hin),nodup_nil,
      fun _ hin => (nomatch hin),fun _ hsame => (nomatch hsame)⟩
  · have hw := load_waiting source keys (loader.refreshed source) hbad
    obtain ⟨fetched,hwalked⟩ := loadKeys_walked sha256Hex (metadata_key source) P
      fetch hfetch keys [] 0 ⟨loader.refreshed source,[],.empty⟩
      ⟨hkept,refreshed_current source loader⟩ hw
    unfold load
    rw [if_neg hbad]
    generalize loadKeys sha256Hex source.metadata fetch keys [] 0
      ⟨loader.refreshed source,[],.empty⟩ = out at hwalked ⊢
    obtain ⟨s,result⟩ := out
    obtain rfl : s.log = fetched := hwalked.log
    cases result with
    | error e =>
      exact ⟨hwalked.ready.1,fun hsame => hwalked.calm (congrArg Except.error (Except.error.inj hsame)),
        by simp,hwalked.refused,hwalked.sized,hwalked.once,hwalked.asked,by simp⟩
    | ok u =>
      have hserved := hwalked.served rfl
      obtain ⟨rows,hrows,hall⟩ := collectRows_served keys s.result hw.distinct (fun key hkey => by
        obtain ⟨row,hrow,-⟩ := hserved key hkey
        rw [hrow]
        rfl)
      refine ⟨hwalked.ready.1,?_,?_,hwalked.refused,hwalked.sized,
        hwalked.once,hwalked.asked,fun _ _ => hwalked.complete rfl⟩
      · simp [hrows]
      intro found hfound
      simp only [hrows] at hfound
      cases hfound
      refine forall₂_iff_get.mpr ⟨hall.length_eq,fun i hi hj => ?_⟩
      obtain ⟨row,hrow,haccepted,hP⟩ := hserved _ (get_mem keys ⟨i,hj⟩)
      have hsame : rows.get ⟨i,hi⟩ = row := Option.some.inj ((hall.get hi hj).symm.trans hrow)
      rw [hsame]
      exact ⟨accepted_key sha256Hex source.metadata (metadata_key source) row _ haccepted,
        haccepted,hP⟩

def Call.FetchesFrom (P : RawThreadMessage → Prop) : Call → Prop
  | .load _ _ fetch => ∀ log batch rows, fetch log batch = .ok rows → ∀ row ∈ rows, P row
  | _ => True

variable {P : RawThreadMessage → Prop} {loader : SourceLoader}

theorem apply_kept {call : Call} (hcall : call.FetchesFrom P) (h : Kept sha256Hex P loader) :
    Kept sha256Hex P (call.apply sha256Hex loader) := by
  cases call with
  | retain source uncovered => exact retain_kept sha256Hex P source uncovered loader h
  | cached source => exact h
  | load source keys fetch => exact (load_sound sha256Hex P fetch hcall source keys loader h).kept

theorem after_kept {calls : List Call} (hcalls : ∀ call ∈ calls, call.FetchesFrom P) :
    Kept sha256Hex P (after sha256Hex calls) := by
  have hrun : ∀ loader, Kept sha256Hex P loader →
      Kept sha256Hex P (calls.foldl (Call.apply sha256Hex) loader) := by
    induction calls with
    | nil => exact fun _ h => h
    | cons call calls ih =>
      intro loader h
      exact ih (fun other hother => hcalls other (mem_cons_of_mem _ hother)) _
        (apply_kept sha256Hex (hcalls call mem_cons_self) h)
  exact hrun _ (kept_empty sha256Hex P none)

theorem selects_from (fetch : Fetch) (rows : ContextItemKey → Option RawThreadMessage)
    (hfetch : Selects fetch rows) (log : List (List ContextItemKey))
    (batch : List ContextItemKey) (got : List RawThreadMessage) (hgot : fetch log batch = .ok got) :
    ∀ row ∈ got, ∃ key, rows key = some row := by
  intro row hrow
  obtain ⟨selected,hselected,hperm⟩ := hfetch log batch
  cases hgot.symm.trans hselected
  obtain ⟨key,-,hkey⟩ := mem_filterMap.mp (hperm.subset hrow)
  exact ⟨key,hkey⟩

variable {rows : ContextItemKey → Option RawThreadMessage} {fetch : Fetch}

variable {sha256Hex} {source : CompactionSnapshot}

theorem load_ok (hfetch : Selects fetch rows)
    {keys : List ContextItemKey} (h : Kept sha256Hex (fun row => ∃ key, rows key = some row) loader)
    (hnodup : keys.Nodup) (hservable : ∀ key ∈ keys, Servable sha256Hex source.metadata rows key) :
    ∃ found, (load sha256Hex fetch source keys loader).result = .ok found := by
  have hgood : ¬(¬keys.Nodup ∨ ∃ key ∈ keys, source.metadata key = none) := by
    rintro (hdup | ⟨key,hkey,hnone⟩)
    · exact hdup hnodup
    · obtain ⟨row,-,data,hdata,-⟩ := hservable key hkey
      exact absurd (hnone.symm.trans hdata) (by simp)
  have hready : Ready sha256Hex source.metadata _ (loader.refreshed source) :=
    ⟨retain_kept sha256Hex _ source _ loader h,refreshed_current source loader⟩
  have hw := load_waiting source keys (loader.refreshed source) hgood
  have hfrom := selects_from fetch rows hfetch
  obtain ⟨t,ht⟩ := loadKeys_selects sha256Hex (metadata_key source)
    hfetch hfrom [] 0 ⟨loader.refreshed source,[],.empty⟩ hready hw hservable
  obtain ⟨fetched,hwalked⟩ := loadKeys_walked sha256Hex (metadata_key source) _
    fetch hfrom keys [] 0 ⟨loader.refreshed source,[],.empty⟩ hready hw
  rw [ht] at hwalked
  obtain ⟨found,hfound,-⟩ := collectRows_served keys t.result hnodup (fun key hkey => by
    obtain ⟨row,hrow,-⟩ := hwalked.served rfl key hkey
    rw [show t.result.get key = some row from hrow]
    rfl)
  refine ⟨found,?_⟩
  unfold load
  rw [if_neg hgood]
  simp only [ht, hfound]

/-- The rows a load gives are those the database has, so they do not depend on the cache. -/
theorem load_rows (hrows : ∀ key row, rows key = some row → rowKey row = some key)
    (hfetch : Selects fetch rows) {keys : List ContextItemKey}
    (h : Kept sha256Hex (fun row => ∃ key, rows key = some row) loader)
    {found : List RawThreadMessage}
    (hok : (load sha256Hex fetch source keys loader).result = .ok found) :
    keys.Nodup ∧ List.Forall₂ (fun row key => rows key = some row ∧
      Accepted sha256Hex source.metadata row key) found keys := by
  have hsound := load_sound sha256Hex _ fetch (selects_from fetch rows hfetch) source keys loader h
  constructor
  · by_contra hdup
    have hload : load sha256Hex fetch source keys loader =
        ⟨loader.refreshed source,[],.error (.database .invalidSelection)⟩ := if_pos (.inl hdup)
    rw [hload] at hok
    cases hok
  · refine (hsound.rows found hok).imp (fun row key hrow => ?_)
    obtain ⟨hkey,haccepted,other,hother⟩ := hrow
    have hsame : other = key := Option.some.inj ((hrows other row hother).symm.trans hkey)
    exact ⟨hsame ▸ hother,haccepted⟩

theorem same_rows (rows : ContextItemKey → Option RawThreadMessage) {keys : List ContextItemKey}
    {found : List RawThreadMessage} (other : List RawThreadMessage)
    (hfound : List.Forall₂ (fun row key => rows key = some row) found keys)
    (hother : List.Forall₂ (fun row key => rows key = some row) other keys) : found = other := by
  induction hfound generalizing other with
  | nil =>
    cases hother
    rfl
  | cons hrow hrest ih =>
    cases hother with
    | cons hrow' hrest' =>
      rw [Option.some.inj (hrow.symm.trans hrow'), ih _ hrest']

theorem load_transparent (hrows : ∀ key row, rows key = some row → rowKey row = some key)
    (hfetch : Selects fetch rows) (source : CompactionSnapshot) (keys : List ContextItemKey)
    {other : SourceLoader} (h : Kept sha256Hex (fun row => ∃ key, rows key = some row) loader)
    (ho : Kept sha256Hex (fun row => ∃ key, rows key = some row) other)
    (found : List RawThreadMessage)
    (hok : (load sha256Hex fetch source keys loader).result = .ok found) :
    (load sha256Hex fetch source keys other).result = .ok found := by
  obtain ⟨hnodup,hfound⟩ := load_rows hrows hfetch h hok
  have hservable : ∀ key ∈ keys, Servable sha256Hex source.metadata rows key := by
    intro key hkey
    obtain ⟨i,hi,rfl⟩ := getElem_of_mem hkey
    exact ⟨_,hfound.get (hfound.length_eq ▸ hi) hi⟩
  obtain ⟨got,hgot⟩ := load_ok hfetch ho hnodup hservable
  obtain ⟨-,hall⟩ := load_rows hrows hfetch ho hgot
  rw [hgot, same_rows rows found (hall.imp (fun _ _ h => h.1)) (hfound.imp (fun _ _ h => h.1))]

structure Bounded (loader : SourceLoader) : Prop where
  bytes : loader.cache.held =
    (loader.cache.items.entries.map (fun entry => payloadBytes entry.2.raw)).sum
  light : loader.cache.held ≤ 16*1024*1024
  few : loader.cache.items.size ≤ 1024
  distinct : loader.cache.order.Nodup
  listed : ∀ key, key ∈ loader.cache.order ↔ (loader.cache.items.get key).isSome

theorem kept_bounded (h : Kept sha256Hex P loader) : Bounded loader where
  bytes := h.sound.weighed
  light := h.sound.light
  few := h.sound.few
  distinct := h.sound.listed.nodup_iff.mpr loader.cache.items.unique
  listed := fun key => by rw [get_isSome, h.sound.listed.mem_iff]

variable (sha256Hex)

/-- The cache stays within its bounds, and no load can tell what is in it. -/
theorem source_cache_transparent (calls : List Call) :
    Bounded (after sha256Hex calls) ∧
    (∀ fetch source keys, LoadSound sha256Hex (fun _ => True) source keys (after sha256Hex calls)
      (load sha256Hex fetch source keys (after sha256Hex calls))) ∧
    (∀ rows : ContextItemKey → Option RawThreadMessage,
      (∀ key row, rows key = some row → rowKey row = some key) →
      (∀ call ∈ calls, call.FetchesFrom (fun row => ∃ key, rows key = some row)) →
      ∀ fetch source keys found, Selects fetch rows →
        ((load sha256Hex fetch source keys (after sha256Hex calls)).result = .ok found ↔
          (load sha256Hex fetch source keys SourceLoader.default).result = .ok found)) := by
  have hplain : ∀ call ∈ calls, call.FetchesFrom (fun _ => True) := by
    intro call _
    cases call with
    | load source keys fetch => exact fun _ _ _ _ _ _ => trivial
    | _ => trivial
  have hkept := after_kept sha256Hex hplain
  refine ⟨kept_bounded hkept,fun fetch source keys => ?_,?_⟩
  · exact load_sound sha256Hex _ fetch (fun _ _ _ _ _ _ => trivial) source keys _ hkept
  · intro rows hrows hcalls fetch source keys found hfetch
    have hafter := after_kept sha256Hex hcalls
    have hempty := kept_empty sha256Hex (fun row => ∃ key, rows key = some row) none
    exact ⟨load_transparent hrows hfetch source keys hafter hempty found,
      load_transparent hrows hfetch source keys hempty hafter found⟩

end Digest

def sampleKey (n : ℕ) : ContextItemKey := ⟨.assistant, n⟩

def sampleMetadata (n : ℕ) (bytes : ℤ) : SourceMetadata :=
  ⟨sampleKey n, n, 0, 0, some 3, some "completed", none, none, none, none, none, none, bytes,
    "digest"⟩

def sampleRow (n : ℕ) : RawThreadMessage :=
  ⟨"assistant", n, n, none, some [1, 2], some "completed", 0, none, some 3, none, none, none⟩

def sampleRows (key : ContextItemKey) : Option RawThreadMessage :=
  if key = sampleKey 1 then some (sampleRow 1) else none

def sampleDigest (_ : List UInt8) : String := "digest"

def sampleFetch : Fetch := fun _ batch => .ok (batch.filterMap sampleRows)

theorem sampleRows_key (key : ContextItemKey) (row : RawThreadMessage)
    (h : sampleRows key = some row) : rowKey row = some key := by
  unfold sampleRows at h
  split_ifs at h with hkey
  cases h
  rw [hkey]
  decide

theorem sampleFetch_from (log : List (List ContextItemKey)) (batch : List ContextItemKey)
    (rows : List RawThreadMessage) (h : sampleFetch log batch = .ok rows) :
    ∀ row ∈ rows, ∃ key, sampleRows key = some row :=
  selects_from sampleFetch sampleRows (fun _ _ => ⟨_,rfl,.refl _⟩) log batch rows h

/-- The row is fetched once; the second load takes it from the cache. -/
theorem source_cache_transparent_sample :
    (load sampleDigest sampleFetch ⟨1, 2, 3, [sampleMetadata 1 2]⟩ [sampleKey 1]
      (after sampleDigest [.load ⟨1, 2, 3, [sampleMetadata 1 2]⟩ [sampleKey 1] sampleFetch])).log
        = [] ∧
    (load sampleDigest sampleFetch ⟨1, 2, 3, [sampleMetadata 1 2]⟩ [sampleKey 1]
      (after sampleDigest
        [.load ⟨1, 2, 3, [sampleMetadata 1 2]⟩ [sampleKey 1] sampleFetch])).result =
          .ok [sampleRow 1] := by
  refine ⟨by decide +kernel,?_⟩
  refine ((source_cache_transparent sampleDigest _).2.2 sampleRows sampleRows_key ?_ sampleFetch
    _ _ _ (fun _ _ => ⟨_,rfl,.refl _⟩)).mpr (by rfl)
  intro call hcall
  rw [List.mem_singleton.mp hcall]
  exact sampleFetch_from

/-- A load ends at the first batch that is refused, so later keys are not fetched. -/
theorem refused_batch_ends_load :
    ∃ key ∈ [sampleKey 1, sampleKey 2],
      (SourceLoader.default.refreshed ⟨1, 2, 3,
        [sampleMetadata 1 8388608, sampleMetadata 2 8388608]⟩).cache.items.get key = none ∧
      key ∉ (load sampleDigest (fun _ _ => .error (.other "unavailable"))
        ⟨1, 2, 3, [sampleMetadata 1 8388608, sampleMetadata 2 8388608]⟩
        [sampleKey 1, sampleKey 2] SourceLoader.default).log.flatMap Fetched.batch :=
  ⟨sampleKey 2,by simp,rfl,by decide +kernel⟩

end Maple.Compaction.Source

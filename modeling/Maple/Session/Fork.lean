import Maple.Session.Copying

/-!
# A fork keeps the conversation

The copies of a path and the labels written after them form one chain. Its climbs end, and
it reads like the path, as long as no two of the new ids are the same: each of them is
checked against the copies only.
-/

set_option autoImplicit false

namespace Maple.Session

open Entries Provider Climb List

section Labels

theorem newEntryId_eq (taken : String → Bool) (draws : List String) :
    (newEntryId taken draws = none ∧ draws.filter (fun id => !taken id) = []) ∨
      ∃ id rest, newEntryId taken draws = some (id, rest) ∧
        draws.filter (fun id => !taken id) = id::rest.filter (fun id => !taken id) := by
  induction draws with
  | nil => exact .inl ⟨rfl,rfl⟩
  | cons candidate draws ih =>
    cases htaken : taken candidate with
    | true => simpa [newEntryId, htaken] using ih
    | false => exact .inr ⟨candidate,draws,by simp [newEntryId, htaken],by simp [htaken]⟩

def asLabel (entry : Entry) : Option (String × String) :=
  match entry.kind with
  | .label target (some label) => some (target, label)
  | _ => none

/-- The labels written at the end take the first ids that are free, and form a chain. -/
structure Written (parent : Option String) (labels : List (String × String)) (ids : List String)
    (entries : List Entry) : Prop where
  ids : entries.map SessionEntry.id = ids
  linked : Linked SessionEntry.id SessionEntry.parentId parent entries
  labels : entries.map asLabel = labels.map some

variable {labels : List (String × String)}

theorem labelEntries_written (times : LabelTimes) (nowMs : ℤ) (taken : String → Bool)
    (parent : Option String) (draws : List String)
    (h : labels.length ≤ (draws.filter (fun id => !taken id)).length) :
    ∃ entries, labelEntries times nowMs taken parent labels draws = some entries ∧
      Written parent labels ((draws.filter (fun id => !taken id)).take labels.length) entries := by
  induction labels generalizing parent draws with
  | nil => exact ⟨[],rfl,by simp,trivial,rfl⟩
  | cons label labels ih =>
    rcases newEntryId_eq taken draws with ⟨_,hnone⟩ | ⟨id,rest,hdrawn,hfilter⟩
    · rw [hnone] at h
      simp at h
    rw [hfilter, length_cons, length_cons] at h
    obtain ⟨entries,hentries,hwritten⟩ := ih (some id) rest (by omega)
    refine ⟨⟨id,parent,(times.get label.1).getD nowMs,.label label.1 (some label.2)⟩::entries,
      by simp [labelEntries, hdrawn, hentries],?_,⟨rfl,hwritten.linked⟩,?_⟩
    · rw [hfilter, map_cons, hwritten.ids, length_cons, take_succ_cons]
    · rw [map_cons, hwritten.labels, map_cons]
      rfl

theorem written_isLabel {parent : Option String} (ids : List String) (entries : List Entry)
    (h : Written parent labels ids entries) : ∀ entry ∈ entries, isLabel entry = true := by
  intro entry hentry
  have hmem : asLabel entry ∈ labels.map some := by
    rw [← h.labels]
    exact mem_map.mpr ⟨entry,hentry,rfl⟩
  obtain ⟨label,_,hlabel⟩ := mem_map.mp hmem
  unfold asLabel at hlabel
  unfold isLabel
  split at hlabel
  · rename_i hkind
    rw [hkind]
  · cases hlabel

theorem labelled_some (labels : Labels) {entry : Entry} {label : String × String}
    (h : asLabel entry = some label) : labelled labels entry = labels.set label.1 label.2 := by
  obtain ⟨id,parent,timestamp,kind⟩ := entry
  cases kind with
  | label target value =>
    cases value with
    | none => cases h
    | some value =>
      obtain rfl := Option.some.inj h
      rfl
  | _ => cases h

/-- Writing labels of distinct targets finds each of them, and nothing else new. -/
theorem written_get {entries : List Entry} (labels : List (String × String)) (start : Labels)
    (h : entries.map asLabel = labels.map some) (hnodup : (labels.map Prod.fst).Nodup)
      (id : String) :
    (entries.foldl labelled start).get id = (Keyed.find id labels).or (start.get id) := by
  induction entries generalizing labels start with
  | nil =>
    obtain rfl : labels = [] := map_eq_nil_iff.mp h.symm
    rfl
  | cons entry entries ih =>
    cases labels with
    | nil => cases h
    | cons label labels =>
      obtain ⟨hlabel,hrest⟩ := List.cons.inj h
      obtain ⟨hnew,hdistinct⟩ := nodup_cons.mp hnodup
      rw [foldl_cons, labelled_some start hlabel,
        ih labels _ hrest hdistinct, Keyed.get_set, Keyed.find]
      by_cases hid : label.1 = id
      · have hnone : Keyed.find id labels = none := by
          rw [Keyed.find_none_iff, ← hid]
          exact hnew
        simp [hid, hnone]
      · simp [hid, Ne.symm hid]

theorem find_perm (id : String) {front back : List (String × String)}
    (hnodup : (front.map Prod.fst).Nodup) (h : front.Perm back) :
    Keyed.find id back = Keyed.find id front := by
  have hback : (back.map Prod.fst).Nodup := (h.map Prod.fst).nodup_iff.mp hnodup
  cases hfind : Keyed.find id front with
  | none =>
    rw [Keyed.find_none_iff] at hfind ⊢
    intro hmem
    exact hfind ((h.map Prod.fst).mem_iff.mpr hmem)
  | some label =>
    exact Keyed.mem_find hback (h.mem_iff.mp (Keyed.find_mem hfind))

theorem carried_find (labels : Labels) (entries : List Entry) (id : String) :
    Keyed.find id (carriedLabels labels entries) =
      if id ∈ entries.map SessionEntry.id then labels.get id else none := by
  have hsublist := filter_sublist (p := fun label : String × String =>
    entries.any (fun entry => entry.id = label.1)) (l := labels.entries)
  have hnodup := labels.unique.sublist (hsublist.map Prod.fst)
  rw [carriedLabels, find_perm id hnodup (perm_insertionSort labelOrder _).symm]
  have hrestrict := Keyed.get_restrict labels
    (fun target _ => entries.any (fun entry => entry.id = target)) id
  have hany : entries.any (fun entry => entry.id = id) = true ↔
      id ∈ entries.map SessionEntry.id := by simp
  refine Eq.trans hrestrict ?_
  by_cases hmem : id ∈ entries.map SessionEntry.id
  · rw [if_pos hmem, hany.mpr hmem]
    cases labels.get id <;> rfl
  · rw [if_neg hmem, Bool.eq_false_iff.mpr (fun h => hmem (hany.mp h))]
    exact Option.filter_eq_none_iff.mpr (fun _ _ => Bool.false_ne_true)

theorem carried_nodup (labels : Labels) (entries : List Entry) :
    ((carriedLabels labels entries).map Prod.fst).Nodup := by
  have hsublist := filter_sublist (p := fun label : String × String =>
    entries.any (fun entry => entry.id = label.1)) (l := labels.entries)
  rw [carriedLabels, ((perm_insertionSort labelOrder _).map Prod.fst).nodup_iff]
  exact labels.unique.sublist (hsublist.map Prod.fst)

end Labels

section Chains

def chainSession (entries : List Entry) : SessionManager :=
  ⟨entries, lastId entries, .default, none⟩

theorem chain_climbs {front back : List Entry} {entry : Entry}
    (hnodup : ((front++entry::back).map SessionEntry.id).Nodup)
    (hlinked : Linked SessionEntry.id SessionEntry.parentId none (front++entry::back)) :
    ∃ fuel, (chainSession (front++entry::back)).branchTo fuel entry.id = some (front++[entry]) := by
  have hascends := linked_ascends SessionEntry.id SessionEntry.parentId front back entry hnodup
    hlinked rfl
  refine ⟨(entry::front.reverse).length+1,?_⟩
  have hlookup : (chainSession (front++entry::back)).entry =
      latest SessionEntry.id (front++entry::back) := rfl
  rw [SessionManager.branchTo, hlookup, ascends_climb _ _ _ hascends]
  simp

theorem chain_projection {entries : List Entry} (hnodup : (entries.map SessionEntry.id).Nodup)
    (hlinked : Linked SessionEntry.id SessionEntry.parentId none entries) :
    ∃ fuel, (chainSession entries).projection fuel = some (project entries) := by
  induction entries using List.reverseRecOn with
  | nil => exact ⟨0,rfl⟩
  | append_singleton front last _ =>
    obtain ⟨fuel,hbranch⟩ := chain_climbs hnodup hlinked
    have hleaf : (chainSession (front++[last])).leaf = some last.id := by
      simp [chainSession, lastId]
    refine ⟨fuel,?_⟩
    rw [SessionManager.projection, SessionManager.branch, hleaf]
    simp only [hbranch, Option.map_some]
    rfl

end Chains

section Forking
variable (session : SessionManager)

/-- The ids a fork takes for its labels: the first that no copy has. -/
def labelIds (path : List Entry) (draws : List String) : List String :=
  (draws.filter (fun id => !(copyPath path).any (fun entry => entry.id = id))).take
    (carriedLabels session.labels (copyPath path)).length

/-- Enough ids are drawn for the labels of a path. -/
def Drawn (path : List Entry) (draws : List String) : Prop :=
  (carriedLabels session.labels (copyPath path)).length ≤
    (draws.filter (fun id => !(copyPath path).any (fun entry => entry.id = id))).length

structure ForkKeeps (path : List Entry) (forked : SessionManager) : Prop where
  projects : ∃ fuel projection, forked.projection fuel = some projection ∧
    projection.messages = (projectFromBase path (session.baseForBranch path)).messages ∧
    projection.model = (projectFromBase path (session.baseForBranch path)).model ∧
    projection.thinkingLevel = (projectFromBase path (session.baseForBranch path)).thinkingLevel
  distinct : (forked.entries.map SessionEntry.id).Nodup
  labels : ∀ id, forked.labels.get id =
    if id ∈ path.map SessionEntry.id then session.labels.get id else none
  climbs : ∀ entry ∈ forked.entries, ∃ fuel branch, forked.branchTo fuel entry.id = some branch

variable {path : List Entry}

theorem branchTo_nodup {fuel : ℕ} {id : String} (h : session.branchTo fuel id = some path) :
    (path.map SessionEntry.id).Nodup := by
  obtain ⟨climbed,hclimb,rfl⟩ := Option.map_eq_some_iff.mp h
  rw [map_reverse, nodup_reverse]
  exact ascends_nodup _ _ SessionEntry.id (latest_name SessionEntry.id session.entries) id
    (climb_ascends _ _ id climbed hclimb)

theorem forkPath_nodup {fuel : ℕ} {leafId : Option String}
    (h : session.forkPath fuel leafId = some path) : (path.map SessionEntry.id).Nodup := by
  cases leafId with
  | none =>
    obtain rfl := Option.some.inj h
    exact nodup_nil
  | some leaf => exact branchTo_nodup session h

theorem copyPath_ids (path : List Entry) :
    (copyPath path).map SessionEntry.id = (unlabelled path).map SessionEntry.id :=
  copied_map ignores_id (copyPath_copied path)

theorem copyPath_nodup (h : (path.map SessionEntry.id).Nodup) :
    ((copyPath path).map SessionEntry.id).Nodup := by
  rw [copyPath_ids]
  exact h.sublist (filter_sublist.map SessionEntry.id)

variable {labels : List Entry}

/-- The labels of the copies, and no other, are written. -/
theorem fork_labels {ids : List String}
    (h : Written (lastId (copyPath path)) (carriedLabels session.labels (copyPath path)) ids labels)
    (id : String) : (chainSession (copyPath path++labels)).labels.get id =
      if id ∈ (copyPath path).map SessionEntry.id then session.labels.get id else none := by
  have hcopies : (copyPath path).foldl labelled .empty = .empty := by
    have hplain : ∀ copy ∈ copyPath path, isLabel copy = false := by
      intro copy hcopy
      rw [← copies_unlabelled (copyPath_copied path)] at hcopy
      simpa using (mem_filter.mp hcopy).2
    generalize copyPath path = copies at hplain
    induction copies with
    | nil => rfl
    | cons copy copies ih =>
      have hcopy : labelled .empty copy = .empty := by
        have hlabel := hplain copy (by simp)
        obtain ⟨id,parent,timestamp,kind⟩ := copy
        cases kind with
        | label target label => cases hlabel
        | _ => rfl
      rw [foldl_cons, hcopy]
      exact ih (fun other hother => hplain other (mem_cons_of_mem _ hother))
  have hget := written_get _ .empty h.labels (carried_nodup session.labels (copyPath path)) id
  rw [SessionManager.labels, chainSession, foldl_append, hcopies, hget, carried_find]
  split
  · cases session.labels.get id <;> rfl
  · rfl

/-- The labels of a fork are those of the branch unless a label entry is itself labelled. -/
theorem fork_labels_iff {ids : List String} (hnodup : (path.map SessionEntry.id).Nodup)
    (h : Written (lastId (copyPath path)) (carriedLabels session.labels (copyPath path)) ids
      labels) :
    (∀ id, (chainSession (copyPath path++labels)).labels.get id =
      if id ∈ path.map SessionEntry.id then session.labels.get id else none) ↔
      ∀ entry ∈ path, isLabel entry = true → session.labels.get entry.id = none := by
  have hunlabelled (entry : Entry) (hentry : entry ∈ path) (hlabel : isLabel entry = true) :
      entry.id ∉ (unlabelled path).map SessionEntry.id := by
    intro hmem
    obtain ⟨other,hother,hsame⟩ := mem_map.mp hmem
    obtain ⟨hpath,hplain⟩ := mem_filter.mp hother
    rw [inj_on_of_nodup_map hnodup hpath hentry hsame, hlabel] at hplain
    cases hplain
  constructor
  · intro hlabels entry hentry hlabel
    have hget := hlabels entry.id
    rw [fork_labels session h, copyPath_ids, if_neg (hunlabelled entry hentry hlabel),
      if_pos (mem_map.mpr ⟨entry,hentry,rfl⟩)] at hget
    exact hget.symm
  · intro hnone id
    rw [fork_labels session h, copyPath_ids]
    by_cases hmem : id ∈ path.map SessionEntry.id
    · rw [if_pos hmem]
      split
      · rfl
      rename_i hcopied
      obtain ⟨entry,hentry,rfl⟩ := mem_map.mp hmem
      have hlabel : isLabel entry = true := by
        by_contra hplain
        exact hcopied (mem_map.mpr ⟨entry,mem_filter.mpr ⟨hentry,by simpa using hplain⟩,rfl⟩)
      exact (hnone entry hentry hlabel).symm
    · rw [if_neg hmem, if_neg]
      intro hcopied
      obtain ⟨entry,hentry,rfl⟩ := mem_map.mp hcopied
      exact hmem (mem_map.mpr ⟨entry,(mem_filter.mp hentry).1,rfl⟩)

theorem fork_nodup_iff {draws : List String} (hnodup : (path.map SessionEntry.id).Nodup)
    (hids : labels.map SessionEntry.id = labelIds session path draws) :
    ((copyPath path++labels).map SessionEntry.id).Nodup ↔ (labelIds session path draws).Nodup := by
  rw [map_append, hids]
  constructor
  · exact List.Nodup.of_append_right
  intro hlabels
  refine nodup_append.mpr ⟨copyPath_nodup hnodup,hlabels,?_⟩
  rintro id hcopy other hother rfl
  have hfree := (mem_filter.mp (mem_of_mem_take hother)).2
  obtain ⟨copy,hmem,rfl⟩ := mem_map.mp hcopy
  simp only [Bool.not_eq_true', any_eq_false, decide_eq_true_eq] at hfree
  exact hfree copy hmem rfl

theorem forkWith_written (hcomplete : session.baseRoot = none) (leafId : Option String)
    (hleaf : ∀ leaf ∈ leafId, (session.entry leaf).isSome = true) (fuel : ℕ) (path : List Entry)
    (hpath : session.forkPath fuel leafId = some path) (draws : List String)
    (hdrawn : Drawn session path draws) (nowMs : ℤ) :
    ∃ labels, session.forkWith fuel draws nowMs leafId =
        some (.ok (chainSession (copyPath path++labels))) ∧
      Written (lastId (copyPath path)) (carriedLabels session.labels (copyPath path))
        (labelIds session path draws) labels := by
  obtain ⟨labels,hlabels,hwritten⟩ := labelEntries_written session.labelTimes nowMs
    (fun candidate => (copyPath path).any (fun entry => entry.id = candidate))
    (lastId (copyPath path)) draws hdrawn
  refine ⟨labels,?_,hwritten⟩
  have hknown : (leafId.any fun leaf => (session.entry leaf).isNone) = false := by
    cases leafId with
    | none => rfl
    | some leaf =>
      obtain ⟨entry,hentry⟩ := Option.isSome_iff_exists.mp (hleaf leaf rfl)
      simp [hentry]
  simp [SessionManager.forkWith, hcomplete, hknown, hpath, hlabels, chainSession]

/-- A fork keeps the conversation of its branch exactly if the ids drawn for its labels
differ, and no label entry of the branch is labelled itself. -/
theorem fork_keeps_iff (hcomplete : session.baseRoot = none) (leafId : Option String)
    (hleaf : ∀ leaf ∈ leafId, (session.entry leaf).isSome = true) (fuel : ℕ) (path : List Entry)
    (hpath : session.forkPath fuel leafId = some path) (draws : List String)
    (hdrawn : Drawn session path draws) (nowMs : ℤ) :
    ∃ forked, session.forkWith fuel draws nowMs leafId = some (.ok forked) ∧
      (ForkKeeps session path forked ↔ (labelIds session path draws).Nodup ∧
        ∀ entry ∈ path, isLabel entry = true → session.labels.get entry.id = none) := by
  obtain ⟨labels,hfork,hwritten⟩ :=
    forkWith_written session hcomplete leafId hleaf fuel path hpath draws hdrawn nowMs
  have hnodup := forkPath_nodup session hpath
  have hlabels := fork_labels_iff session hnodup hwritten
  have hdistinct := fork_nodup_iff session hnodup hwritten.ids
  refine ⟨_, hfork, ?_, ?_⟩
  · intro hkeeps
    exact ⟨hdistinct.mp hkeeps.distinct, hlabels.mp hkeeps.labels⟩
  rintro ⟨hids,hnone⟩
  have hunique := hdistinct.mpr hids
  have hlinked : Linked SessionEntry.id SessionEntry.parentId none (copyPath path++labels) := by
    refine (linked_append _ _ _ _ _).mpr ⟨copyPath_linked path, ?_⟩
    rw [Option.or_none]
    exact hwritten.linked
  have hbase : session.baseForBranch path = none := by
    simp [SessionManager.baseForBranch, hcomplete]
  have hislabel := written_isLabel _ _ hwritten
  have hcopied := alike_of_copied path _ (copyPath_copied path)
  have halike : Alike path (copyPath path++labels) := by
    simpa using alike_append hcopied (alike_labels hislabel)
  obtain ⟨hthinking,hmodel⟩ := alike_state halike
  refine ⟨?_, hunique, hlabels.mpr hnone, ?_⟩
  · obtain ⟨climbs,hprojection⟩ := chain_projection hunique hlinked
    rw [hbase]
    exact ⟨climbs, _, hprojection, copyPath_messages hnodup hislabel, hmodel,
      hthinking⟩
  intro entry hentry
  obtain ⟨front,back,hsplit⟩ := List.append_of_mem hentry
  have hentries : copyPath path++labels = front++entry::back := hsplit
  rw [hentries] at hunique hlinked ⊢
  obtain ⟨climbs,hbranch⟩ := chain_climbs hunique hlinked
  exact ⟨climbs, _, hbranch⟩

end Forking

def sampleMessage (text : String) : EntryKind conversation :=
  .message (.llm (.user ⟨[.text text], 0⟩))

def sampleSession : SessionManager :=
  ⟨[⟨"0000000a", none, 0, sampleMessage "hi"⟩,
    ⟨"0000000b", some "0000000a", 0, sampleMessage "there"⟩,
    ⟨"0000000c", some "0000000b", 0, .label "0000000a" (some "first")⟩,
    ⟨"0000000d", some "0000000c", 0, .label "0000000b" (some "second")⟩], some "0000000d",
    .default, none⟩

/-- The first id drawn is taken. -/
def sampleDraws : List String := ["0000000a", "00000001", "00000002"]

theorem fork_keeps_sample : ∃ forked,
    sampleSession.forkWith 5 sampleDraws 9 (some "0000000d") = some (.ok forked) ∧
      (ForkKeeps sampleSession sampleSession.entries forked ↔
        (labelIds sampleSession sampleSession.entries sampleDraws).Nodup ∧
        ∀ entry ∈ sampleSession.entries, isLabel entry = true →
          sampleSession.labels.get entry.id = none) ∧
      (labelIds sampleSession sampleSession.entries sampleDraws).Nodup ∧
      ∀ entry ∈ sampleSession.entries, isLabel entry = true →
        sampleSession.labels.get entry.id = none := by
  obtain ⟨forked,hfork,hiff⟩ := fork_keeps_iff sampleSession rfl (some "0000000d")
    (by decide +kernel) 5 sampleSession.entries rfl sampleDraws
    (by unfold Drawn; decide +kernel) 9
  exact ⟨forked, hfork, hiff, by decide +kernel, by decide +kernel⟩

/-- A random source that repeats an id makes a label its own parent. -/
theorem repeated_label_id_loops : ∃ forked,
    sampleSession.forkWith 5 ["00000001", "00000001"] 9 (some "0000000d") = some (.ok forked) ∧
      ¬ForkKeeps sampleSession sampleSession.entries forked ∧
      ∀ fuel, forked.projection fuel = none := by
  obtain ⟨labels,hfork,hwritten⟩ := forkWith_written sampleSession rfl (some "0000000d")
    (by decide +kernel) 5 sampleSession.entries rfl ["00000001", "00000001"]
    (by unfold Drawn; decide +kernel) 9
  have hids : labels.map SessionEntry.id = ["00000001", "00000001"] :=
    hwritten.ids.trans (by decide +kernel)
  obtain ⟨first,rest,rfl,hfirst,hrest⟩ := List.map_eq_cons_iff.mp hids
  obtain ⟨second,rest,rfl,hsecond,hnil⟩ := List.map_eq_cons_iff.mp hrest
  obtain rfl := List.map_eq_nil_iff.mp hnil
  refine ⟨_, hfork, ?_, ?_⟩
  · intro hkeeps
    have hdistinct := hkeeps.distinct
    rw [chainSession, List.map_append, hids] at hdistinct
    exact absurd hdistinct.of_append_right (by decide)
  have hparent : second.parentId = some "00000001" := by
    rw [← hfirst]
    exact hwritten.linked.2.1
  have hfound : latest SessionEntry.id
      (copyPath sampleSession.entries++[first, second]) "00000001" = some second := by
    simp [latest, hsecond]
  have hloops := closed_never_ends _ SessionEntry.parentId (· = "00000001")
    (fun key hkey => ⟨second, "00000001", hkey ▸ hfound, hparent, rfl⟩) "00000001" rfl
  intro fuel
  have hleaf : (chainSession (copyPath sampleSession.entries++[first, second])).leaf =
      some "00000001" := by simp [chainSession, lastId, hsecond]
  have hlookup : (chainSession (copyPath sampleSession.entries++[first, second])).entry =
      latest SessionEntry.id (copyPath sampleSession.entries++[first, second]) := rfl
  rw [SessionManager.projection, SessionManager.branch, hleaf]
  simp only [SessionManager.branchTo, hlookup, hloops fuel, Option.map_none]

end Maple.Session

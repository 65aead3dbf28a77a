import Mathlib.Data.List.TakeWhile
import Maple.Session.Manager

/-!
# Copies of a path

A fork copies a path without its label entries. The copies read like the path, and a
compaction keeps the same entries even where it kept them from a label on.
-/

set_option autoImplicit false

namespace Maple.Session

open Entries Provider Climb Position List

section Copies

/-- An entry under another parent; a compaction may keep from another entry on. -/
def Copied (entry copy : Entry) : Prop :=
  ∃ kept parent, copy = { entry with parentId := parent, kind := mapKept kept entry.kind }

/-- A reading of entries that sees neither the parent nor what a compaction keeps. -/
def Ignores {β : Type} (f : Entry → β) : Prop := ∀ entry copy, Copied entry copy → f copy = f entry

theorem ignores_of_kinds {β : Type} (f : Entry → β)
    (h : ∀ id parent other timestamp kind kept, f ⟨id,other,timestamp,mapKept kept kind⟩ =
      f ⟨id,parent,timestamp,kind⟩) : Ignores f := by
  rintro ⟨id,parent,timestamp,kind⟩ copy ⟨kept,other,rfl⟩
  exact h id parent other timestamp kind kept

theorem ignores_id : Ignores SessionEntry.id := ignores_of_kinds _ (fun _ _ _ _ _ _ => rfl)

theorem ignores_isCompaction : Ignores isCompaction := by
  apply ignores_of_kinds
  intro id parent other timestamp kind kept
  cases kind <;> rfl

theorem ignores_isLabel : Ignores isLabel := by
  apply ignores_of_kinds
  intro id parent other timestamp kind kept
  cases kind <;> rfl

theorem ignores_isSystemEntry : Ignores isSystemEntry := by
  apply ignores_of_kinds
  intro id parent other timestamp kind kept
  cases kind <;> rfl

theorem ignores_entryMessages : Ignores entryMessages := by
  apply ignores_of_kinds
  intro id parent other timestamp kind kept
  cases kind <;> rfl

theorem ignores_asEdit : Ignores asEdit := by
  apply ignores_of_kinds
  intro id parent other timestamp kind kept
  cases kind <;> rfl

theorem ignores_nextThinking : Ignores (fun entry level => nextThinking level entry) := by
  apply ignores_of_kinds
  intro id parent other timestamp kind kept
  cases kind <;> rfl

theorem ignores_nextModel : Ignores (fun entry model => nextModel model entry) := by
  apply ignores_of_kinds
  intro id parent other timestamp kind kept
  cases kind <;> rfl

theorem ignores_editedMessages (edits : ContextEdits) : Ignores (editedMessages edits) := by
  intro entry copy h
  unfold editedMessages
  rw [ignores_id entry copy h, ignores_entryMessages entry copy h]

theorem ignores_laterMessages (edits : ContextEdits) : Ignores (laterMessages edits) := by
  intro entry copy h
  unfold laterMessages
  rw [ignores_isCompaction entry copy h, ignores_editedMessages edits entry copy h]

theorem copied_map {β : Type} {f : Entry → β} (hf : Ignores f) {entries copies : List Entry}
    (h : List.Forall₂ Copied entries copies) : copies.map f = entries.map f := by
  induction h with
  | nil => rfl
  | cons hcopy _ ih => rw [map_cons, map_cons, hf _ _ hcopy, ih]

theorem copied_kept (kept : String) {entries copies : List Entry}
    (h : List.Forall₂ Copied entries copies) :
    List.Forall₂ Copied (keptEntries kept entries) (keptEntries kept copies) := by
  have hfilter (entries copies : List Entry) (h : List.Forall₂ Copied entries copies) :
      List.Forall₂ Copied (entries.filter (fun entry => !isSystemEntry entry))
        (copies.filter (fun entry => !isSystemEntry entry)) := by
    induction h with
    | nil => exact .nil
    | cons hcopy _ ih =>
      rw [filter_cons, filter_cons, ignores_isSystemEntry _ _ hcopy]
      split
      · exact .cons hcopy ih
      · exact ih
  apply hfilter
  induction h with
  | nil => exact .nil
  | cons hcopy hrest ih =>
    rw [dropWhile_cons, dropWhile_cons, ignores_id _ _ hcopy]
    split
    · exact ih
    · exact .cons hcopy hrest

end Copies

section Copying

def unlabelled (entries : List Entry) : List Entry := entries.filter (fun entry => !isLabel entry)

theorem unlabelled_append (front back : List Entry) :
    unlabelled (front++back) = unlabelled front++unlabelled back := List.filter_append _ _

theorem unlabelled_nil : unlabelled [] = [] := rfl

variable {entry : Entry}

theorem unlabelled_label (rest : List Entry) (h : isLabel entry = true) :
    unlabelled (entry::rest) = unlabelled rest := by
  simp [unlabelled, h]

theorem unlabelled_cons (rest : List Entry) (h : isLabel entry = false) :
    unlabelled (entry::rest) = entry::unlabelled rest := by
  simp [unlabelled, h]

/-- A step copies an entry to the end of the chain, or leaves a label out. -/
theorem copyEntry_entries (state : Copying) (entry : Entry) :
    ∃ copies, (copyEntry state entry).entries = state.entries++copies ∧
      List.Forall₂ Copied (unlabelled [entry]) copies := by
  cases hlabel : isLabel entry with
  | true =>
    refine ⟨[],by simp [copyEntry, hlabel],?_⟩
    rw [unlabelled_label [] hlabel]
    exact .nil
  | false =>
    refine ⟨_,by simp only [copyEntry, hlabel, Bool.false_eq_true, if_false]; rfl,?_⟩
    rw [unlabelled_cons [] hlabel]
    exact .cons ⟨_,_,rfl⟩ .nil

theorem copyPath_from (path : List Entry) (state : Copying) :
    ∃ copies, (path.foldl copyEntry state).entries = state.entries++copies ∧
      List.Forall₂ Copied (unlabelled path) copies := by
  induction path generalizing state with
  | nil => exact ⟨[],by simp,.nil⟩
  | cons entry path ih =>
    obtain ⟨copies,hcopies,hcopied⟩ := copyEntry_entries state entry
    obtain ⟨more,hmore,hrest⟩ := ih (copyEntry state entry)
    refine ⟨copies++more,by rw [foldl_cons, hmore, hcopies, append_assoc],?_⟩
    rw [show entry::path = [entry]++path from rfl, unlabelled_append]
    exact rel_append hcopied hrest

theorem copyPath_copied (path : List Entry) :
    List.Forall₂ Copied (unlabelled path) (copyPath path) := by
  obtain ⟨copies,hcopies,hcopied⟩ := copyPath_from path .start
  rw [copyPath, hcopies]
  exact hcopied

theorem copyPath_linked (path : List Entry) :
    Linked SessionEntry.id SessionEntry.parentId none (copyPath path) := by
  have hstep (state : Copying) (entry : Entry)
      (h : Linked SessionEntry.id SessionEntry.parentId none state.entries) :
      Linked SessionEntry.id SessionEntry.parentId none (copyEntry state entry).entries := by
    cases hlabel : isLabel entry with
    | true => simpa [copyEntry, hlabel] using h
    | false =>
      simp only [copyEntry, hlabel, Bool.false_eq_true, if_false]
      refine (linked_append _ _ _ _ _).mpr ⟨h,?_,trivial⟩
      simp [lastId]
  have hrun (path : List Entry) (state : Copying)
      (h : Linked SessionEntry.id SessionEntry.parentId none state.entries) :
      Linked SessionEntry.id SessionEntry.parentId none (path.foldl copyEntry state).entries := by
    induction path generalizing state with
    | nil => exact h
    | cons entry path ih => exact ih (copyEntry state entry) (hstep state entry h)
  exact hrun path .start trivial

def fromId (path : List Entry) (id : String) : List Entry :=
  path.dropWhile (fun entry => entry.id ≠ id)

def standsFor (path : List Entry) (id : String) : Option String :=
  match fromId path id with
  | [] => none
  | entry::rest => if isLabel entry then (unlabelled rest).head?.map SessionEntry.id else none

def Waits (path : List Entry) (id : String) : Prop :=
  fromId path id ≠ [] ∧ unlabelled (fromId path id) = []

theorem fromId_append (path : List Entry) (entry : Entry) (id : String) :
    fromId (path++[entry]) id =
      if fromId path id = [] then (if entry.id = id then [entry] else [])
      else fromId path id++[entry] := by
  rw [fromId, dropWhile_append]
  by_cases hempty : fromId path id = []
  · rw [if_pos hempty, if_pos (by simpa [fromId] using hempty)]
    by_cases hid : entry.id = id
    · simp [hid]
    · simp [hid]
  · rw [if_neg hempty, if_neg (by simpa [fromId] using hempty)]
    rfl

theorem fromId_nil (path : List Entry) (id : String) :
    fromId path id = [] ↔ id ∉ path.map SessionEntry.id := by
  rw [fromId, dropWhile_eq_nil_iff]
  simp only [mem_map, not_exists, not_and, decide_eq_true_eq]

theorem fromId_split (front back : List Entry) (entry : Entry)
    (h : entry.id ∉ front.map SessionEntry.id) :
    fromId (front++entry::back) entry.id = entry::back := by
  rw [fromId, dropWhile_append_of_pos]
  · simp
  · intro other hother
    simp only [decide_eq_true_eq]
    intro hsame
    exact h (mem_map.mpr ⟨other,hother,hsame⟩)

theorem setAll_get (labels : List String) (value : String) (kept : Keyed.Map String String)
    (id : String) : (labels.foldl (fun kept label => kept.set label value) kept).get id =
      if id ∈ labels then some value else kept.get id := by
  induction labels generalizing kept with
  | nil => simp
  | cons label labels ih =>
    rw [foldl_cons, ih, Keyed.get_set]
    by_cases hmem : id ∈ labels
    · simp [hmem]
    · by_cases hsame : id = label
      · simp [hsame]
      · simp [hmem, hsame]

structure Knows (path : List Entry) (state : Copying) : Prop where
  stands : ∀ id, state.keptFrom.get id = standsFor path id
  waits : ∀ id, id ∈ state.droppedLabels ↔ Waits path id

theorem knows_start : Knows [] .start := by
  constructor
  · intro id
    rfl
  · intro id
    simp [Copying.start, Waits, fromId]

variable {path : List Entry}

theorem knows_label {state : Copying} (hknows : Knows path state)
    (hlabel : isLabel entry = true) (hnew : entry.id ∉ path.map SessionEntry.id) :
    Knows (path++[entry]) (copyEntry state entry) := by
  have hstep : copyEntry state entry =
      { state with droppedLabels := state.droppedLabels++[entry.id] } := by
    simp [copyEntry, hlabel]
  rw [hstep]
  constructor
  · intro id
    rw [show state.keptFrom.get id = _ from hknows.stands id, standsFor, standsFor, fromId_append]
    cases hfrom : fromId path id with
    | nil =>
      by_cases hid : entry.id = id
      · simp [hid, hlabel, unlabelled_nil]
      · simp [hid]
    | cons first rest =>
      simp [unlabelled_append, unlabelled_label [] hlabel, unlabelled_nil]
  · intro id
    rw [Waits, fromId_append]
    by_cases hempty : fromId path id = []
    · have hwaits : id ∉ state.droppedLabels := fun h => ((hknows.waits id).mp h).1 hempty
      by_cases hid : entry.id = id
      · simp [hempty, hid, unlabelled_label [] hlabel, unlabelled_nil]
      · simp [hempty, hid, hwaits, Ne.symm hid]
    · have hid : id ≠ entry.id := by
        rintro rfl
        exact hempty ((fromId_nil path entry.id).mpr hnew)
      rw [if_neg hempty, unlabelled_append, unlabelled_label [] hlabel]
      simp [hid, hknows.waits id, Waits, hempty, unlabelled_nil]

theorem knows_copy {state : Copying} (hknows : Knows path state)
    (hlabel : isLabel entry = false) : Knows (path++[entry]) (copyEntry state entry) := by
  constructor
  · intro id
    simp only [copyEntry, hlabel, Bool.false_eq_true, if_false]
    have hwaits := hknows.waits id
    rw [Waits] at hwaits
    rw [setAll_get, hknows.stands id, standsFor, standsFor, fromId_append]
    cases hfrom : fromId path id with
    | nil =>
      rw [hfrom] at hwaits
      by_cases hid : entry.id = id
      · simp [hwaits, hid, hlabel]
      · simp [hwaits, hid]
    | cons first rest =>
      rw [hfrom] at hwaits
      cases hfirst : isLabel first with
      | false => simp [hwaits, hfirst, unlabelled_cons rest hfirst]
      | true =>
        rw [unlabelled_label rest hfirst] at hwaits
        cases hrest : unlabelled rest with
        | nil =>
          simp [hwaits, hfirst, unlabelled_append, hrest, unlabelled_cons [] hlabel]
        | cons next more => simp [hwaits, hfirst, unlabelled_append, hrest]
  · intro id
    simp only [copyEntry, hlabel, Bool.false_eq_true, if_false, not_mem_nil, false_iff]
    rintro ⟨hne,hwaits⟩
    rw [fromId_append] at hne hwaits
    split at hne
    · rename_i hempty
      rw [if_pos hempty] at hwaits
      split at hwaits
      · rw [unlabelled_cons [] hlabel] at hwaits
        cases hwaits
      · rename_i hid
        simp [hid] at hne
    · rename_i hfull
      rw [if_neg hfull, unlabelled_append, unlabelled_cons [] hlabel] at hwaits
      simp at hwaits

theorem knows_run (hnodup : (path.map SessionEntry.id).Nodup) :
    Knows path (path.foldl copyEntry .start) := by
  induction path using List.reverseRecOn with
  | nil => exact knows_start
  | append_singleton path entry ih =>
    rw [map_append, nodup_append] at hnodup
    obtain ⟨hpath,_,hdisjoint⟩ := hnodup
    rw [foldl_append]
    cases hlabel : isLabel entry with
    | true =>
      refine knows_label (ih hpath) hlabel ?_
      intro hmem
      exact hdisjoint _ hmem _ (by simp) rfl
    | false => exact knows_copy (ih hpath) hlabel

end Copying

section Keeping

/-- Without its labels, a path keeps the same entries from the one that stands for a label. -/
theorem kept_without_labels {front : List Entry} {compaction : Entry} (kept : String)
    (hnodup : ((front++[compaction]).map SessionEntry.id).Nodup)
    (hlabel : isLabel compaction = false) :
    fromId (unlabelled front) ((standsFor (front++[compaction]) kept).getD kept) =
      unlabelled (fromId front kept) := by
  have hids (entries : List Entry) (id : String)
      (h : id ∈ (unlabelled entries).map SessionEntry.id) : id ∈ entries.map SessionEntry.id := by
    obtain ⟨entry,hentry,rfl⟩ := mem_map.mp h
    exact mem_map.mpr ⟨entry,(mem_filter.mp hentry).1,rfl⟩
  rw [map_append, nodup_append] at hnodup
  obtain ⟨hfront,_,hlast⟩ := hnodup
  by_cases hmem : kept ∈ front.map SessionEntry.id
  · obtain ⟨entry,hentry,rfl⟩ := mem_map.mp hmem
    obtain ⟨before,after,rfl⟩ := append_of_mem hentry
    rw [map_append, nodup_append] at hfront
    obtain ⟨_,hafter,hbefore⟩ := hfront
    have hnew : entry.id ∉ before.map SessionEntry.id := fun h => hbefore _ h _ (by simp) rfl
    rw [fromId_split before after entry hnew, standsFor, append_assoc, cons_append,
      fromId_split before (after++[compaction]) entry hnew]
    cases hentrylabel : isLabel entry with
    | false =>
      rw [unlabelled_append, unlabelled_cons after hentrylabel]
      simp only [hentrylabel, Bool.false_eq_true, if_false, Option.getD_none]
      exact fromId_split _ _ entry (fun h => hnew (hids before _ h))
    | true =>
      rw [unlabelled_append, unlabelled_label after hentrylabel]
      simp only [hentrylabel, if_true, unlabelled_append]
      cases hrest : unlabelled after with
      | nil =>
        simp only [unlabelled_cons [] hlabel, nil_append,
          List.head?_cons, Option.map_some, Option.getD_some, append_nil]
        apply (fromId_nil _ _).mpr
        intro h
        exact hlast _ (by simpa using .inl (mem_map.mp (hids before _ h))) _ (by simp) rfl
      | cons next more =>
        simp only [cons_append, List.head?_cons, Option.map_some, Option.getD_some]
        refine fromId_split _ _ next (fun h => ?_)
        have hnext : next.id ∈ after.map SessionEntry.id := by
          apply hids
          rw [hrest]
          simp
        exact hbefore _ (hids before _ h) _ (mem_cons_of_mem _ hnext) rfl
  · have hstands : standsFor (front++[compaction]) kept = none := by
      rw [standsFor, fromId_append, if_pos ((fromId_nil front kept).mpr hmem)]
      by_cases hid : compaction.id = kept
      · simp [hid, hlabel]
      · simp [hid]
    rw [hstands, Option.getD_none, (fromId_nil front kept).mpr hmem, unlabelled_nil]
    exact (fromId_nil _ _).mpr (fun h => hmem (hids front _ h))

theorem keptEntries_fromId (kept : String) (entries : List Entry) : keptEntries kept entries =
    (fromId entries kept).filter (fun entry => !isSystemEntry entry) := rfl

theorem unlabelled_kept (kept : String) (entries : List Entry) :
    unlabelled (keptEntries kept entries) =
      (unlabelled (fromId entries kept)).filter (fun entry => !isSystemEntry entry) := by
  rw [keptEntries_fromId, unlabelled, unlabelled, filter_filter, filter_filter]
  apply filter_congr
  intro entry _
  rw [Bool.and_comm]

theorem label_silent (edits : ContextEdits) {entry : Entry} (h : isLabel entry = true) :
    laterMessages edits entry = [] ∧ editedMessages edits entry = [] ∧ asEdit entry = none := by
  obtain ⟨id,parent,timestamp,kind⟩ := entry
  cases kind with
  | label target label =>
    have hmessages : editedMessages edits ⟨id,parent,timestamp,.label target label⟩ = [] := by
      unfold editedMessages
      split <;> rfl
    exact ⟨by simp [laterMessages, hmessages],hmessages,rfl⟩
  | _ => cases h

theorem unlabelled_messages (f : Entry → List SessionMessage)
    (hf : ∀ entry, isLabel entry = true → f entry = []) (entries : List Entry) :
    (unlabelled entries).flatMap f = entries.flatMap f := by
  induction entries with
  | nil => rfl
  | cons entry entries ih =>
    cases hlabel : isLabel entry with
    | true => rw [unlabelled_label entries hlabel, flatMap_cons, hf entry hlabel, ih,
        nil_append]
    | false => rw [unlabelled_cons entries hlabel, flatMap_cons, ih, flatMap_cons]

theorem unlabelled_edits (entries : List Entry) :
    (unlabelled entries).filterMap asEdit = entries.filterMap asEdit := by
  induction entries with
  | nil => rfl
  | cons entry entries ih =>
    cases hlabel : isLabel entry with
    | true =>
      rw [unlabelled_label entries hlabel, ih, filterMap_cons_none (label_silent .empty hlabel).2.2]
    | false => rw [unlabelled_cons entries hlabel, filterMap_cons, filterMap_cons, ih]

/-- Entries that read like others once the labels of both are left out. -/
def Alike (entries copies : List Entry) : Prop :=
  List.Forall₂ Copied (unlabelled entries) (unlabelled copies)

variable {entries copies : List Entry}

theorem alike_edits (h : Alike entries copies) : contextEdits copies = contextEdits entries := by
  have hmap := copied_map ignores_asEdit h
  have hread (entries : List Entry) :
      entries.filterMap asEdit = ((unlabelled entries).map asEdit).filterMap id := by
    rw [filterMap_map, ← unlabelled_edits entries]
    rfl
  unfold contextEdits
  rw [hread copies, hmap, ← hread entries]

theorem alike_messages {f : Entry → List SessionMessage} (hignores : Ignores f)
    (hf : ∀ entry, isLabel entry = true → f entry = []) (h : Alike entries copies) :
    copies.flatMap f = entries.flatMap f := by
  have hmap := copied_map hignores h
  rw [← unlabelled_messages f hf copies, ← unlabelled_messages f hf entries,
    flatMap_def, flatMap_def, hmap]

theorem alike_append {front back : List Entry} {more : List Entry} (hfront : Alike front copies)
    (hback : Alike back more) : Alike (front++back) (copies++more) := by
  rw [Alike, unlabelled_append, unlabelled_append]
  exact rel_append hfront hback

theorem alike_labels {labels : List Entry} (h : ∀ entry ∈ labels, isLabel entry = true) :
    Alike [] labels := by
  have hnone : unlabelled labels = [] := by
    apply filter_eq_nil_iff.mpr
    intro entry hentry
    simp [h entry hentry]
  rw [Alike, hnone]
  exact .nil

theorem copies_unlabelled (h : List.Forall₂ Copied (unlabelled entries) copies) :
    unlabelled copies = copies := by
  apply filter_eq_self.mpr
  intro copy hcopy
  have hmap := copied_map ignores_isLabel h
  have hmem : isLabel copy ∈ (unlabelled entries).map isLabel := by
    rw [← hmap]
    exact mem_map.mpr ⟨copy,hcopy,rfl⟩
  obtain ⟨entry,hentry,hsame⟩ := mem_map.mp hmem
  rw [← hsame]
  exact (mem_filter.mp hentry).2

theorem alike_of_copied (entries copies : List Entry)
    (h : List.Forall₂ Copied (unlabelled entries) copies) : Alike entries copies := by
  rw [Alike, copies_unlabelled h]
  exact h

theorem alike_compactions (entries copies : List Entry) (h : Alike entries copies)
    (hplain : ∀ entry ∈ entries, isCompaction entry = false) :
    ∀ copy ∈ copies, isCompaction copy = false := by
  intro copy hcopy
  cases hlabel : isLabel copy with
  | true =>
    obtain ⟨id,parent,timestamp,kind⟩ := copy
    cases kind with
    | label target label => rfl
    | _ => cases hlabel
  | false =>
    have hmap := copied_map ignores_isCompaction h
    have hmem : isCompaction copy ∈ (unlabelled entries).map isCompaction := by
      rw [← hmap]
      exact mem_map.mpr ⟨copy,mem_filter.mpr ⟨hcopy,by simp [hlabel]⟩,rfl⟩
    obtain ⟨entry,hentry,hsame⟩ := mem_map.mp hmem
    rw [← hsame]
    exact hplain entry (mem_filter.mp hentry).1

end Keeping

section Reading

theorem alike_fold {β : Type} (f : β → Entry → β) (hignores : Ignores (fun entry b => f b entry))
    (hf : ∀ b entry, isLabel entry = true → f b entry = b) {entries copies : List Entry}
    (h : Alike entries copies) (b : β) : copies.foldl f b = entries.foldl f b := by
  have hread (entries : List Entry) (b : β) :
      entries.foldl f b = ((unlabelled entries).map (fun entry b => f b entry)).foldl
        (fun b step => step b) b := by
    induction entries generalizing b with
    | nil => rfl
    | cons entry entries ih =>
      cases hlabel : isLabel entry with
      | true => rw [unlabelled_label entries hlabel, foldl_cons, hf b entry hlabel, ih]
      | false => rw [unlabelled_cons entries hlabel, foldl_cons, ih]; rfl
  rw [hread copies, copied_map hignores h, ← hread entries]

variable {entry : Entry}

theorem label_state (h : isLabel entry = true) :
    (∀ level, nextThinking level entry = level) ∧ ∀ model, nextModel model entry = model := by
  obtain ⟨id,parent,timestamp,kind⟩ := entry
  cases kind with
  | label target label => exact ⟨fun _ => rfl,fun _ => rfl⟩
  | _ => cases h

theorem alike_state {path copies : List Entry} (h : Alike path copies) :
    (project copies).thinkingLevel = (project path).thinkingLevel ∧
      (project copies).model = (project path).model := by
  constructor
  · exact alike_fold nextThinking ignores_nextThinking
      (fun level entry hlabel => (label_state hlabel).1 level) h _
  · exact alike_fold nextModel ignores_nextModel
      (fun model entry hlabel => (label_state hlabel).2 model) h _

theorem copyEntry_copy (state : Copying) (hlabel : isLabel entry = false) :
    (copyEntry state entry).entries = state.entries++[{ entry with
      kind := mapKept (fun id => ((copyEntry state entry).keptFrom.get id).getD id) entry.kind
      parentId := lastId state.entries }] := by
  simp [copyEntry, hlabel]

theorem compaction_not_label {kept : String} (h : firstKept entry = some kept) :
    isLabel entry = false := by
  unfold firstKept at h
  unfold isLabel
  split at h
  · rename_i hkind
    rw [hkind]
  · cases h

/-- The copy of a compaction keeps its entries from the one that stands for its label. -/
theorem copyPath_compacted {before : List Entry} (after : List Entry) {compaction : Entry}
    {kept : String} (hkept : firstKept compaction = some kept)
    (hnodup : ((before++[compaction]).map SessionEntry.id).Nodup) :
    ∃ copy copies, copyPath (before++compaction::after) = copyPath before++copy::copies ∧
      Copied compaction copy ∧ List.Forall₂ Copied (unlabelled after) copies ∧
      firstKept copy = some ((standsFor (before++[compaction]) kept).getD kept) := by
  have hknows := knows_run hnodup
  rw [foldl_append, foldl_cons, foldl_nil] at hknows
  obtain ⟨copies,hcopies,hcopied⟩ :=
    copyPath_from after (copyEntry (before.foldl copyEntry .start) compaction)
  have hentries := copyEntry_copy (before.foldl copyEntry .start) (compaction_not_label hkept)
  have hstands := hknows.stands kept
  have hpath : copyPath (before++compaction::after) =
      (after.foldl copyEntry (copyEntry (before.foldl copyEntry .start) compaction)).entries := by
    rw [copyPath, foldl_append, foldl_cons]
  rw [hcopies, hentries, append_assoc] at hpath
  generalize copyEntry (before.foldl copyEntry .start) compaction = state at *
  refine ⟨_,copies,hpath,⟨_,_,rfl⟩,hcopied,?_⟩
  obtain ⟨id,parent,timestamp,kind⟩ := compaction
  cases kind with
  | compaction summary found tokensBefore details system =>
    obtain rfl : found = kept := Option.some.inj hkept
    exact congrArg (fun next => some (next.getD found)) hstands
  | _ => cases hkept

theorem kept_alike {before : List Entry} {compaction : Entry} (kept : String)
    (hnodup : ((before++[compaction]).map SessionEntry.id).Nodup)
    (hlabel : isLabel compaction = false) : Alike (keptEntries kept before) (keptEntries
      ((standsFor (before++[compaction]) kept).getD kept) (copyPath before)) := by
  apply alike_of_copied
  rw [unlabelled_kept, ← kept_without_labels kept hnodup hlabel, ← keptEntries_fromId]
  exact copied_kept _ (copyPath_copied before)

/-- A path and its copy, with labels written at the end, have the same messages. -/
theorem copyPath_messages {path labels : List Entry} (hnodup : (path.map SessionEntry.id).Nodup)
    (hlabels : ∀ entry ∈ labels, isLabel entry = true) :
    (project (copyPath path++labels)).messages = (project path).messages := by
  have hend (entries copies : List Entry) (h : Alike entries copies) :
      Alike entries (copies++labels) := by
    simpa using alike_append h (alike_labels hlabels)
  rcases path_cases path with hplain | ⟨before,compaction,after,kept,rfl,hkept,hafter⟩
  · have halike := hend path _ (alike_of_copied path _ (copyPath_copied path))
    rw [project_plain hplain,
      project_plain (alike_compactions path _ halike hplain), alike_edits halike]
    exact alike_messages (ignores_editedMessages _)
      (fun entry hlabel => (label_silent _ hlabel).2.1) halike
  · have hfront : ((before++[compaction]).map SessionEntry.id).Nodup := by
      rw [append_cons, map_append] at hnodup
      exact hnodup.of_append_left
    obtain ⟨copy,copies,hcopy,hcopied,hrest,hfirst⟩ :=
      copyPath_compacted after hkept hfront
    have hlabel := compaction_not_label hkept
    have hlater := hend after copies (alike_of_copied after copies hrest)
    have hkeeps := alike_append (kept_alike kept hfront hlabel) hlater
    have hfirstCopy : Alike [compaction] [copy] := by
      apply alike_of_copied
      rw [unlabelled_cons [] hlabel]
      exact .cons hcopied .nil
    have hedits := alike_edits (alike_append hfirstCopy hkeeps)
    rw [hcopy, append_assoc, cons_append, project_compacted before hkept hafter,
      project_compacted (copyPath before) hfirst (alike_compactions after _ hlater hafter)]
    simp only [cons_append, nil_append] at hedits ⊢
    rw [hedits, ignores_editedMessages _ compaction copy hcopied,
      alike_messages (ignores_laterMessages _)
        (fun entry hlabel => (label_silent _ hlabel).1) hkeeps]

end Reading

end Maple.Session

import Maple.Tools.EditApply

/-!
# When edits are one simultaneous splice

The edits of a call replace pairwise disjoint regions at once, in any order of the list.
Edits whose loose forms occur once and apart are applied, but for two cases: the matches
found overlap after all, or the content ends in an unfinished line of spaces.
-/

set_option autoImplicit false

namespace Maple.Tools

open Splice List

section Inversion
variable {nfkc : Text → Text} (h : LawfulNfkc nfkc)

/-- Nothing can be replaced in an empty loose form. -/
theorem preserving_empty (original : Text) (regions : List (Region Char)) (result : Text)
    (hne : regions ≠ []) :
    applyReplacementsPreservingUnchangedLines original [] regions ≠ .ok result := by
  have hsorted : regions.insertionSort byIndex ≠ [] := fun hnil =>
    hne (perm_nil.mp (hnil ▸ (perm_insertionSort byIndex regions).symm))
  obtain ⟨r,rest,hcons⟩ := exists_cons_of_ne_nil hsorted
  have hlocate : locate [] r = .error .outside := rfl
  simp only [applyReplacementsPreservingUnchangedLines, splitInclusive, lineBounds, hcons,
    groupReplacements, hlocate]
  split <;> simp

include h in
/-- A match is empty only in an empty loose form. -/
theorem empty_match {content : Text} {edits : List Edit} {edit : Edit} (hmem : edit ∈ edits)
    (hold : edit.oldText ≠ []) (hfound : FoundOnce nfkc (baseContent nfkc content edits) edit)
    (hzero : (regionOf nfkc (baseContent nfkc content edits) edit).length = 0) :
    usesFuzzyMatch nfkc content edits = true ∧ baseContent nfkc content edits = [] := by
  obtain ⟨⟨found,hsome⟩,honce⟩ := hfound
  simp only [regionOf, hsome] at hzero
  rcases match_in_base h hmem hsome with ⟨hlength,_⟩ |
    ⟨hfuzzy,hlength,_⟩
  · rw [hzero] at hlength
    exact absurd (length_eq_zero_iff.mp hlength.symm) hold
  · rw [hzero] at hlength
    have hloose := length_eq_zero_iff.mp hlength.symm
    have hbase := base_fuzzy hfuzzy
    rw [countOccurrences, hloose, count_empty, hbase, normalize_idempotent h] at honce
    exact ⟨hfuzzy,by rw [hbase]; exact length_eq_zero_iff.mp (by omega)⟩

include h in
theorem applies_of_ok {content : Text} {edits : List Edit} {result : Text × Text}
    (hok : applyEditsToNormalizedContent nfkc content edits = .ok result) :
    Applies nfkc content (edits.map normalizeEdit) := by
  generalize hedits : edits.map normalizeEdit = plainEdits
  simp only [applyEditsToNormalizedContent, hedits] at hok
  split at hok
  · cases hok
  rename_i hempty
  have hold : ∀ edit ∈ plainEdits, edit.oldText ≠ [] := by
    intro edit hedit
    simpa using List.findIdx?_eq_none_iff.mp hempty edit hedit
  split at hok
  · cases hok
  rename_i matched hmatched
  obtain ⟨hfound,hregions⟩ := match_edits_ok _ _ hmatched
  split at hok
  · cases hok
  rename_i hoverlap
  have hbefore := (first_overlap_none _).mp hoverlap
  have hperm : ((matched.insertionSort byPosition).map Replacement.region).Perm
      (plainEdits.map (regionOf nfkc (baseContent nfkc content plainEdits))) := by
    rw [← hregions]
    exact (perm_insertionSort _ _).map _
  have hapart : (plainEdits.map
      (regionOf nfkc (baseContent nfkc content plainEdits))).Pairwise Apart :=
    (hperm.pairwise_iff (fun hab => apart_symm hab)).mp (hbefore.imp (fun hab => before_apart hab))
  have hnew : ∃ new, (if usesFuzzyMatch nfkc content plainEdits then
        applyReplacementsPreservingUnchangedLines content (baseContent nfkc content plainEdits)
          ((matched.insertionSort byPosition).map Replacement.region)
      else .ok (applyReplacements (baseContent nfkc content plainEdits)
        ((matched.insertionSort byPosition).map Replacement.region) 0)) =
      Except.ok new := by
    split at hok
    · cases hok
    · rename_i new hnew
      exact ⟨new,hnew⟩
  obtain ⟨new,hnew⟩ := hnew
  refine ⟨hold,hfound,fun edit hedit => Nat.pos_of_ne_zero (fun hzero => ?_),hapart,
    fun hfuzzy => ?_⟩
  · obtain ⟨hfuzzy,hbase⟩ := empty_match h hedit (hold edit hedit) (hfound edit hedit) hzero
    rw [if_pos hfuzzy, hbase] at hnew
    refine preserving_empty content _ new (fun hnil => ?_) hnew
    rw [hnil] at hperm
    have hmem := hperm.symm.mem_iff.mp (mem_map_of_mem hedit)
    simp at hmem
  · rw [if_pos hfuzzy, base_fuzzy hfuzzy] at hnew
    by_contra hlines
    have hlines' : (splitInclusive content).length ≠
        (lineBounds 0 (splitInclusive (normalizeForFuzzyMatch nfkc content))).length := by
      rwa [line_bounds_length]
    simp only [applyReplacementsPreservingUnchangedLines, if_pos hlines'] at hnew
    cases hnew

end Inversion

def Replaces (nfkc : Text → Text) (content : Text) (edits : List Edit) (r : Region Char)
    (edit : Edit) : Prop :=
  r.text = edit.newText ∧ 0 < r.length ∧ r.stop ≤ (baseContent nfkc content edits).length ∧
    (((baseContent nfkc content edits).drop r.index).take r.length = edit.oldText ∨
      usesFuzzyMatch nfkc content edits = true ∧
        ((baseContent nfkc content edits).drop r.index).take r.length =
          normalizeForFuzzyMatch nfkc edit.oldText)

/-- The text that results from replacing disjoint regions, one for every edit, at once. -/
def Spliced (nfkc : Text → Text) (content : Text) (edits : List Edit) (after : Text) : Prop :=
  ∃ regions : List (Region Char), List.Forall₂ (Replaces nfkc content edits) regions edits ∧
    regions.Pairwise Apart ∧ after = outcome nfkc content edits regions

def looseRegion (nfkc : Text → Text) (content : Text) (edit : Edit) : Region Char :=
  ⟨(find (normalizeForFuzzyMatch nfkc edit.oldText) (normalizeForFuzzyMatch nfkc content)).getD 0,
    (normalizeForFuzzyMatch nfkc edit.oldText).length, edit.newText⟩

/-- The loose forms of the old texts are not empty, occur once and lie apart. -/
structure Unambiguous (nfkc : Text → Text) (content : Text) (edits : List Edit) : Prop where
  once : ∀ edit ∈ edits, normalizeForFuzzyMatch nfkc edit.oldText ≠ [] ∧
    ∃! index, normalizeForFuzzyMatch nfkc edit.oldText <+:
      (normalizeForFuzzyMatch nfkc content).drop index
  apart : (edits.map (looseRegion nfkc content)).Pairwise Apart

/-- Success means one splice, whatever the order of the edits; and unambiguous edits fail
only if their splice changes nothing. -/
def Simultaneous (nfkc : Text → Text) (content : Text) (edits : List Edit) : Prop :=
  (∀ before after, applyEditsToNormalizedContent nfkc content edits = .ok (before, after) →
    before = content ∧ Spliced nfkc content (edits.map normalizeEdit) after ∧
      ∀ others : List Edit, others.Perm edits →
        applyEditsToNormalizedContent nfkc content others = .ok (before, after)) ∧
  (Unambiguous nfkc content (edits.map normalizeEdit) →
    ∃ after, Spliced nfkc content (edits.map normalizeEdit) after ∧
      applyEditsToNormalizedContent nfkc content edits =
        if after = content then .error (.unchanged edits.length) else .ok (content, after))

section Proofs
variable {nfkc : Text → Text} (h : LawfulNfkc nfkc) {content : Text} {edits : List Edit}

include h in
theorem region_replaces {edit : Edit} (hmem : edit ∈ edits) (ha : Applies nfkc content edits) :
    Replaces nfkc content edits (regionOf nfkc (baseContent nfkc content edits) edit) edit := by
  have hfound := ha.found edit hmem
  have hstop := region_in_base h hmem hfound
  have hpositive := ha.positive edit hmem
  obtain ⟨⟨found,hsome⟩,_⟩ := hfound
  have hregion : regionOf nfkc (baseContent nfkc content edits) edit =
      ⟨found.index,found.length,edit.newText⟩ := by simp only [regionOf, hsome]
  rw [hregion] at hstop hpositive ⊢
  refine ⟨rfl,hpositive,hstop,?_⟩
  rcases match_in_base h hmem hsome with ⟨hlength,hfind⟩ |
    ⟨hfuzzy,hlength,hfind⟩
  · left
    rw [hlength]
    exact (prefix_iff_eq_take.mp (find_occurs _ hfind).1).symm
  · right
    refine ⟨hfuzzy,?_⟩
    rw [hlength]
    exact (prefix_iff_eq_take.mp (find_occurs _ hfind).1).symm

include h in
theorem applies_spliced (ha : Applies nfkc content edits) :
    Spliced nfkc content edits (outcome nfkc content edits
      (edits.map (regionOf nfkc (baseContent nfkc content edits)))) := by
  refine ⟨_,?_,ha.apart,rfl⟩
  rw [forall₂_map_left_iff]
  exact forall₂_same.mpr (fun edit hmem => region_replaces h hmem ha)

variable {others : List Edit}

theorem fuzzy_perm (content : Text) (hperm : others.Perm edits) :
    usesFuzzyMatch nfkc content others = usesFuzzyMatch nfkc content edits := by
  rw [usesFuzzyMatch, usesFuzzyMatch, hperm.any_eq]

theorem base_perm (content : Text) (edits others : List Edit) (hperm : others.Perm edits) :
    baseContent nfkc content others = baseContent nfkc content edits := by
  rw [baseContent, baseContent, fuzzy_perm content hperm]

theorem applies_perm (hperm : others.Perm edits) (ha : Applies nfkc content edits) :
    Applies nfkc content others := by
  have hbase := @base_perm nfkc content edits others hperm
  obtain ⟨hnonempty,hfound,hpositive,hapart,hlines⟩ := ha
  rw [← hbase] at hfound hpositive hapart
  refine ⟨fun edit hmem => hnonempty edit (hperm.mem_iff.mp hmem),
    fun edit hmem => hfound edit (hperm.mem_iff.mp hmem),
    fun edit hmem => hpositive edit (hperm.mem_iff.mp hmem),?_,?_⟩
  · exact ((hperm.map _).pairwise_iff (fun hab => apart_symm hab)).mpr hapart
  · rw [fuzzy_perm content hperm]
    exact hlines

theorem outcome_perm (hperm : others.Perm edits) (ha : Applies nfkc content others) :
    outcome nfkc content others (others.map (regionOf nfkc (baseContent nfkc content others))) =
      outcome nfkc content edits (edits.map (regionOf nfkc (baseContent nfkc content edits))) := by
  have hregions := hperm.map (regionOf nfkc (baseContent nfkc content others))
  have hpositive : ∀ r ∈ others.map (regionOf nfkc (baseContent nfkc content others)),
      0 < r.length := by
    intro r hr
    obtain ⟨edit,hedit,rfl⟩ := mem_map.mp hr
    exact ha.positive edit hedit
  rw [← base_perm content edits others hperm, outcome, outcome,
    fuzzy_perm content hperm, splice_lines_perm _ _ hregions hpositive ha.apart,
    splice, splice, splice_perm _ hregions hpositive ha.apart]

include h in
theorem unambiguous_found (hu : Unambiguous nfkc content edits) (edit : Edit)
    (hmem : edit ∈ edits) :
    edit.oldText ≠ [] ∧ FoundOnce nfkc (baseContent nfkc content edits) edit := by
  obtain ⟨hne,index,hindex,hunique⟩ := hu.once edit hmem
  obtain ⟨place,hplace⟩ := find_some_of_occurs index hne hindex
  have hold : edit.oldText ≠ [] := by
    intro hnil
    rw [hnil, normalize_nil h] at hne
    exact hne rfl
  have hcount : countMatches (normalizeForFuzzyMatch nfkc edit.oldText) 0
      (normalizeForFuzzyMatch nfkc content) ≤ 1 := by
    by_contra htwice
    obtain ⟨left,right,hdistinct,hleft,hright⟩ := count_twice 0 hne (Nat.not_le.mp htwice)
    exact hdistinct ((hunique left hleft).trans (hunique right hright).symm)
  have hloose := loose_base h content edits
  refine ⟨hold,?_,by rwa [countOccurrences, hloose]⟩
  simp only [fuzzyFindText, hloose, hplace]
  split
  · exact ⟨_,rfl⟩
  · exact ⟨_,rfl⟩

include h in
theorem unambiguous_applies (hu : Unambiguous nfkc content edits)
    (hapart : (edits.map (regionOf nfkc (baseContent nfkc content edits))).Pairwise Apart)
    (hend : usesFuzzyMatch nfkc content edits = true → ¬BlankEnd nfkc content) :
    Applies nfkc content edits := by
  have hfound := unambiguous_found h hu
  refine ⟨fun edit hmem => (hfound edit hmem).1,fun edit hmem => (hfound edit hmem).2,
    fun edit hmem => Nat.pos_of_ne_zero (fun hzero => ?_),hapart,
    fun hfuzzy => (line_count_iff h content).mpr (hend hfuzzy)⟩
  obtain ⟨hfuzzy,hbase⟩ := empty_match h hmem (hfound edit hmem).1 (hfound edit hmem).2 hzero
  obtain ⟨hne,index,hindex,_⟩ := hu.once edit hmem
  rw [← base_fuzzy hfuzzy, hbase, drop_nil, prefix_nil] at hindex
  exact hne hindex

include h in
/-- Unambiguous edits whose matches overlap, or that need a loose form with a line less,
are refused. -/
theorem unambiguous_refused (hu : Unambiguous nfkc content (edits.map normalizeEdit))
    (hnot : ¬(((edits.map normalizeEdit).map
      (regionOf nfkc (baseContent nfkc content (edits.map normalizeEdit)))).Pairwise Apart ∧
      (usesFuzzyMatch nfkc content (edits.map normalizeEdit) = true → ¬BlankEnd nfkc content))) :
    (∃ left right, applyEditsToNormalizedContent nfkc content edits =
        .error (.overlap left right)) ∨
      applyEditsToNormalizedContent nfkc content edits = .error .lineCount := by
  generalize hedits : edits.map normalizeEdit = plainEdits at hu hnot
  have hfound := unambiguous_found h hu
  have hempty : plainEdits.findIdx? (fun edit => decide (edit.oldText = [])) = none := by
    refine List.findIdx?_eq_none_iff.mpr (fun edit hedit => ?_)
    simpa using (hfound edit hedit).1
  obtain ⟨matched,hmatched⟩ := match_edits_found (baseContent nfkc content plainEdits) edits.length
    0 plainEdits (fun edit hedit => (hfound edit hedit).2)
  obtain ⟨_,hregions⟩ := match_edits_ok _ _ hmatched
  simp only [applyEditsToNormalizedContent, hedits, hempty, hmatched]
  cases hoverlap : firstOverlap (matched.insertionSort byPosition) with
  | some pair => exact .inl ⟨pair.1,pair.2,rfl⟩
  | none =>
    right
    have hperm : ((matched.insertionSort byPosition).map Replacement.region).Perm
        (plainEdits.map (regionOf nfkc (baseContent nfkc content plainEdits))) := by
      rw [← hregions]
      exact (perm_insertionSort _ _).map _
    have hapart := (hperm.pairwise_iff (fun hab => apart_symm hab)).mp
      (((first_overlap_none _).mp hoverlap).imp (fun hab => before_apart hab))
    obtain ⟨hfuzzy,hblank⟩ : usesFuzzyMatch nfkc content plainEdits = true ∧
        BlankEnd nfkc content := by
      by_contra hneither
      exact hnot ⟨hapart,fun hfuzzy hblank => hneither ⟨hfuzzy,hblank⟩⟩
    have hlines : (splitInclusive content).length ≠
        (lineBounds 0 (splitInclusive (normalizeForFuzzyMatch nfkc content))).length := by
      rw [line_bounds_length]
      exact fun hsame => (line_count_iff h content).mp hsame hblank
    simp only [hfuzzy, if_true, base_fuzzy hfuzzy,
      applyReplacementsPreservingUnchangedLines, if_pos hlines]

end Proofs

/-- The edits of a call are one simultaneous splice, and unambiguous ones are applied,
exactly if such edits also match apart and the loose form keeps every line. -/
theorem edits_simultaneous_iff (nfkc : Text → Text) (h : LawfulNfkc nfkc) (content : Text)
    (edits : List Edit) :
    Simultaneous nfkc content edits ↔
      (Unambiguous nfkc content (edits.map normalizeEdit) →
        ((edits.map normalizeEdit).map (regionOf nfkc
          (baseContent nfkc content (edits.map normalizeEdit)))).Pairwise Apart ∧
        (usesFuzzyMatch nfkc content (edits.map normalizeEdit) = true →
          ¬BlankEnd nfkc content)) := by
  have hgood : ∀ before after,
      applyEditsToNormalizedContent nfkc content edits = .ok (before, after) →
      before = content ∧ Spliced nfkc content (edits.map normalizeEdit) after ∧
        ∀ others : List Edit, others.Perm edits →
          applyEditsToNormalizedContent nfkc content others = .ok (before, after) := by
    intro before after hok
    have ha := applies_of_ok h hok
    rw [apply_of_applies h ha] at hok
    split at hok
    · cases hok
    rename_i hchanged
    cases hok
    refine ⟨rfl, applies_spliced h ha, fun others hperm => ?_⟩
    have hmapped := hperm.map normalizeEdit
    have hothers := applies_perm hmapped ha
    rw [apply_of_applies h hothers, outcome_perm hmapped hothers,
      if_neg hchanged]
  constructor
  · rintro ⟨_,hall⟩ hu
    obtain ⟨after,_,hresult⟩ := hall hu
    by_contra hnot
    rcases unambiguous_refused h hu hnot with ⟨left,right,hrefused⟩ | hrefused
    · rw [hrefused] at hresult
      split at hresult <;> cases hresult
    · rw [hrefused] at hresult
      split at hresult <;> cases hresult
  · intro hcondition
    refine ⟨hgood, fun hu => ?_⟩
    obtain ⟨hapart,hend⟩ := hcondition hu
    have ha := unambiguous_applies h hu hapart hend
    exact ⟨_, applies_spliced h ha, apply_of_applies h ha⟩

theorem identity_lawful : LawfulNfkc id where
  newline := fun _ _ => rfl
  line := fun _ hline => hline
  empty := fun _ => Iff.rfl
  idempotent := fun _ => rfl
  front := fun _ _ _ => rfl
  ascii := fun _ _ => rfl

/-- A quoted word and a trailing space, with an edit for each line. -/
def quotedContent : Text := ['\u2018', 'a', '\u2019', ' ', '\n', 'b', ' ', '\n', 'c', ' ', '\n']

def quotedEdits : List Edit := [⟨['c'], ['d', 'd']⟩, ⟨['\x27', 'a', '\x27'], ['e']⟩]

theorem edits_simultaneous_sample :
    Simultaneous id quotedContent quotedEdits ∧
      applyEditsToNormalizedContent id quotedContent quotedEdits =
        .ok (quotedContent, ['e', '\n', 'b', ' ', '\n', 'd', 'd', '\n']) :=
  ⟨(edits_simultaneous_iff id identity_lawful quotedContent quotedEdits).mpr (fun _ =>
    ⟨by decide +kernel, fun _ => by unfold BlankEnd; decide +kernel⟩), by decide +kernel⟩

def blankContent : Text := ['\u2018', 'a', '\u2019', '\n', ' ']

def blankEdits : List Edit := [⟨['\x27', 'a', '\x27'], ['b']⟩]

theorem blank_unambiguous : Unambiguous id blankContent (blankEdits.map normalizeEdit) := by
  have hloose : normalizeForFuzzyMatch id blankContent = ['\x27', 'a', '\x27', '\n'] := by
    decide +kernel
  have hold : normalizeForFuzzyMatch id (normalizeToLf ['\x27', 'a', '\x27']) =
      ['\x27', 'a', '\x27'] := by
    decide +kernel
  refine ⟨fun edit hedit => ?_,by simp [blankEdits]⟩
  obtain rfl : edit = normalizeEdit ⟨['\x27', 'a', '\x27'],['b']⟩ := by
    simpa [blankEdits] using hedit
  rw [normalizeEdit, hold, hloose]
  refine ⟨by simp,0,by decide,fun index hindex => ?_⟩
  match index with
  | 0 => rfl
  | 1 => exact absurd hindex (by decide)
  | 2 => exact absurd hindex (by decide)
  | 3 => exact absurd hindex (by decide)
  | n+4 => simp at hindex

/-- The one match is refused, because the loose form has lost the last line. -/
theorem blank_end_refused :
    applyEditsToNormalizedContent id blankContent blankEdits = .error .lineCount ∧
      Unambiguous id blankContent (blankEdits.map normalizeEdit) ∧
      ¬Simultaneous id blankContent blankEdits := by
  have hrefused : applyEditsToNormalizedContent id blankContent blankEdits = .error .lineCount := by
    decide +kernel
  refine ⟨hrefused, blank_unambiguous, fun hsimultaneous => ?_⟩
  obtain ⟨after,_,hresult⟩ := hsimultaneous.2 blank_unambiguous
  rw [hrefused] at hresult
  split at hresult <;> cases hresult

end Maple.Tools

import Maple.Tools.EditLines
import Maple.Tools.LooseForm

/-!
# Edits as one simultaneous splice

Edits that apply replace pairwise disjoint regions of the content, or of its loose form,
and the order of the edits does not matter. Unambiguous edits apply, unless the matches
found overlap or the loose form has lost the last line.
-/

set_option autoImplicit false

namespace Maple.Tools

open Splice List

section Searching

variable {pattern : Text}

theorem find_occurs {text : Text} (index : ℕ) (h : find pattern text = some index) :
    pattern <+: text.drop index ∧ index+pattern.length ≤ text.length := by
  induction text generalizing index with
  | nil =>
    simp only [find] at h
    split at h
    · rename_i hnil
      obtain rfl : 0 = index := by simpa using h
      simp [hnil]
    · cases h
  | cons c rest ih =>
    simp only [find] at h
    split at h
    · rename_i hlead
      obtain rfl : 0 = index := by simpa using h
      have hlead := isPrefixOf_iff_prefix.mp hlead
      exact ⟨hlead,by simpa using hlead.length_le⟩
    · obtain ⟨found,hfound,rfl⟩ := Option.map_eq_some_iff.mp h
      obtain ⟨hlead,hlength⟩ := ih found hfound
      refine ⟨by simpa using hlead,?_⟩
      rw [length_cons]
      omega

theorem find_some_of_occurs {text : Text} (index : ℕ) (hne : pattern ≠ [])
    (h : pattern <+: text.drop index) : ∃ found, find pattern text = some found := by
  induction text generalizing index with
  | nil =>
    rw [drop_nil, prefix_nil] at h
    exact absurd h hne
  | cons c rest ih =>
    simp only [find]
    split
    · exact ⟨0,rfl⟩
    rename_i hlead
    cases index with
    | zero => exact hlead.elim <| isPrefixOf_iff_prefix.mpr h
    | succ index =>
      obtain ⟨found,hfound⟩ := ih index (by simpa using h)
      exact ⟨found+1,by rw [hfound]; rfl⟩

theorem count_occurs (text : Text) (skip : ℕ) (hne : pattern ≠ [])
    (h : 0 < countMatches pattern skip text) : ∃ index, pattern <+: text.drop index := by
  induction text generalizing skip with
  | nil => simp [countMatches, hne] at h
  | cons c rest ih =>
    cases skip with
    | zero =>
      simp only [countMatches] at h
      split at h
      · rename_i hlead
        exact ⟨0, isPrefixOf_iff_prefix.mp hlead⟩
      · obtain ⟨index,hindex⟩ := ih 0 h
        exact ⟨index+1,by simpa using hindex⟩
    | succ skip =>
      obtain ⟨index,hindex⟩ := ih skip h
      exact ⟨index+1,by simpa using hindex⟩

/-- Two matches that do not overlap start at different places. -/
theorem count_twice {text : Text} (skip : ℕ) (hne : pattern ≠ [])
    (h : 1 < countMatches pattern skip text) :
    ∃ left right, left ≠ right ∧ pattern <+: text.drop left ∧ pattern <+: text.drop right := by
  induction text generalizing skip with
  | nil => simp [countMatches, hne] at h
  | cons c rest ih =>
    have hshift (skip : ℕ) (h : 1 < countMatches pattern skip rest) : ∃ left right, left ≠ right ∧
        pattern <+: (c::rest).drop left ∧ pattern <+: (c::rest).drop right := by
      obtain ⟨left,right,hdistinct,hleft,hright⟩ := ih skip h
      exact ⟨left+1,right+1,by omega,by simpa using hleft,by simpa using hright⟩
    cases skip with
    | zero =>
      simp only [countMatches] at h
      split at h
      · rename_i hlead
        obtain ⟨index,hindex⟩ := count_occurs rest (pattern.length-1) hne (by omega)
        exact ⟨0,index+1,by omega, isPrefixOf_iff_prefix.mp hlead,by simpa using hindex⟩
      · exact hshift 0 h
    | succ skip => exact hshift skip h

theorem count_empty (text : Text) : countMatches [] 0 text = text.length+1 := by
  induction text with
  | nil => rfl
  | cons c rest ih =>
    simp only [countMatches, List.isPrefixOf, if_true, length_nil, length_cons, ih]
    omega

end Searching

def regionOf (nfkc : Text → Text) (base : Text) (edit : Edit) : Region Char :=
  match fuzzyFindText nfkc base edit.oldText with
  | some found => ⟨found.index, found.length, edit.newText⟩
  | none => ⟨0, 0, edit.newText⟩

def FoundOnce (nfkc : Text → Text) (base : Text) (edit : Edit) : Prop :=
  (∃ found, fuzzyFindText nfkc base edit.oldText = some found) ∧
    countOccurrences nfkc base edit.oldText ≤ 1

/-- The text after the regions are replaced: line by line against the loose form if some
edit needed it. -/
def outcome (nfkc : Text → Text) (content : Text) (edits : List Edit)
    (regions : List (Region Char)) : Text :=
  if usesFuzzyMatch nfkc content edits then
    spliceLines (splitInclusive content) (splitInclusive (normalizeForFuzzyMatch nfkc content))
      regions
  else splice content regions

section Matching
variable {nfkc : Text → Text}

theorem match_edits_ok {base : Text} {total : ℕ} (index : ℕ) {edits : List Edit}
    (matched : List Replacement) (h : matchEdits nfkc base total index edits = .ok matched) :
    (∀ edit ∈ edits, FoundOnce nfkc base edit) ∧
      matched.map Replacement.region = edits.map (regionOf nfkc base) := by
  induction edits generalizing index matched with
  | nil =>
    cases h
    exact ⟨by simp,rfl⟩
  | cons edit edits ih =>
    simp only [matchEdits] at h
    split at h
    · cases h
    rename_i found hfound
    split at h
    · cases h
    rename_i honce
    split at h
    · cases h
    rename_i rest hrest
    cases h
    obtain ⟨hall,hregions⟩ := ih (index+1) rest hrest
    refine ⟨?_,?_⟩
    · intro other hother
      rcases mem_cons.mp hother with rfl | hmem
      · exact ⟨⟨found,hfound⟩,Nat.not_lt.mp honce⟩
      · exact hall other hmem
    · simp only [map_cons, hregions, regionOf, hfound]

theorem match_edits_found (base : Text) (total index : ℕ) (edits : List Edit)
    (h : ∀ edit ∈ edits, FoundOnce nfkc base edit) :
    ∃ matched, matchEdits nfkc base total index edits = .ok matched := by
  induction edits generalizing index with
  | nil => exact ⟨[],rfl⟩
  | cons edit edits ih =>
    obtain ⟨⟨found,hfound⟩,honce⟩ := h edit (by simp)
    obtain ⟨rest,hrest⟩ := ih (index+1) (fun other hother => h other (by simp [hother]))
    refine ⟨⟨index,⟨found.index,found.length,edit.newText⟩⟩::rest,?_⟩
    simp only [matchEdits, hfound, if_neg (Nat.not_lt.mpr honce), hrest]

theorem first_overlap_none (matched : List Replacement) :
    firstOverlap matched = none ↔ (matched.map Replacement.region).Pairwise Before := by
  match matched with
  | [] => simp [firstOverlap]
  | [a] => simp [firstOverlap]
  | a::b::rest =>
    have ih := first_overlap_none (b::rest)
    rw [map_cons, pairwise_cons, ← ih]
    simp only [firstOverlap]
    split
    · rename_i hover
      refine iff_of_false (by simp) (fun hall => ?_)
      have hfirst : Before a.region b.region := hall.1 b.region (by simp)
      simp only [Before, Region.stop] at hfirst
      omega
    · rename_i hclear
      have hfirst : Before a.region b.region := Nat.not_lt.mp hclear
      refine ⟨fun hnone => ⟨fun other hother => ?_,hnone⟩,And.right⟩
      rw [map_cons] at hother
      rcases mem_cons.mp hother with rfl | hmem
      · exact hfirst
      · have hrest := ih.mp hnone
        rw [map_cons, pairwise_cons] at hrest
        exact before_trans hfirst (hrest.1 other hmem)

instance : Std.Total byPosition := ⟨fun a b => Nat.le_total a.region.index b.region.index⟩

instance : IsTrans Replacement byPosition := ⟨fun _ _ _ hab hbc => Nat.le_trans hab hbc⟩

/-- Sorted disjoint regions stand one before the other. -/
theorem sorted_before {matched : List Replacement}
    (hpositive : ∀ r ∈ matched.map Replacement.region, 0 < r.length)
    (hdisjoint : (matched.map Replacement.region).Pairwise Apart) :
    ((matched.insertionSort byPosition).map Replacement.region).Pairwise Before := by
  have hperm : (matched.insertionSort byPosition).Perm matched := perm_insertionSort _ _
  have hsorted : (matched.insertionSort byPosition).Pairwise byPosition :=
    pairwise_insertionSort _ _
  have hapart : (matched.insertionSort byPosition).Pairwise
      (fun a b : Replacement => Apart a.region b.region) :=
    (hperm.pairwise_iff (fun hab => apart_symm hab)).mpr (pairwise_map.mp hdisjoint)
  refine pairwise_map.mpr ((hsorted.and hapart).imp_of_mem (fun {a b} ha hb hab => ?_))
  obtain ⟨hle,hleft | hright⟩ := hab
  · exact hleft
  · have hlength := hpositive b.region (mem_map_of_mem (hperm.mem_iff.mp hb))
    simp only [byPosition, Region.stop] at hle hright
    omega

end Matching

structure Applies (nfkc : Text → Text) (content : Text) (edits : List Edit) : Prop where
  nonempty : ∀ edit ∈ edits, edit.oldText ≠ []
  found : ∀ edit ∈ edits, FoundOnce nfkc (baseContent nfkc content edits) edit
  positive : ∀ edit ∈ edits, 0 < (regionOf nfkc (baseContent nfkc content edits) edit).length
  apart : (edits.map (regionOf nfkc (baseContent nfkc content edits))).Pairwise Apart
  lines : usesFuzzyMatch nfkc content edits = true → (splitInclusive content).length =
    (splitInclusive (normalizeForFuzzyMatch nfkc content)).length

section Applying
variable {nfkc : Text → Text} (h : LawfulNfkc nfkc) {content : Text} {edits : List Edit}

theorem base_fuzzy (hfuzzy : usesFuzzyMatch nfkc content edits = true) :
    baseContent nfkc content edits = normalizeForFuzzyMatch nfkc content := if_pos hfuzzy

theorem base_exact (hexact : ¬usesFuzzyMatch nfkc content edits = true) :
    baseContent nfkc content edits = content := if_neg hexact

include h in
theorem loose_base (content : Text) (edits : List Edit) :
    normalizeForFuzzyMatch nfkc (baseContent nfkc content edits) =
      normalizeForFuzzyMatch nfkc content := by
  unfold baseContent
  split
  · exact normalize_idempotent h content
  · rfl

include h in
/-- A match is exact, or loose in a base that is its own loose form. -/
theorem match_in_base {edit : Edit} (hmem : edit ∈ edits) {found : FuzzyMatch}
    (hfound : fuzzyFindText nfkc (baseContent nfkc content edits) edit.oldText = some found) :
    (found.length = edit.oldText.length ∧
        find edit.oldText (baseContent nfkc content edits) = some found.index) ∨
      usesFuzzyMatch nfkc content edits = true ∧
        found.length = (normalizeForFuzzyMatch nfkc edit.oldText).length ∧
        find (normalizeForFuzzyMatch nfkc edit.oldText) (baseContent nfkc content edits) =
          some found.index := by
  have hcopy := hfound
  unfold fuzzyFindText at hfound
  split at hfound
  · rename_i index hindex
    cases hfound
    exact .inl ⟨rfl,hindex⟩
  obtain ⟨index,hindex,hmatch⟩ := Option.map_eq_some_iff.mp hfound
  cases hmatch
  have hfuzzy : usesFuzzyMatch nfkc content edits = true := by
    by_contra hexact
    rw [base_exact hexact] at hcopy
    refine hexact (any_eq_true.mpr ⟨edit,hmem,?_⟩)
    rw [hcopy]
    rfl
  rw [base_fuzzy hfuzzy, normalize_idempotent h] at hindex
  exact .inr ⟨hfuzzy,rfl,by rw [base_fuzzy hfuzzy]; exact hindex⟩

include h in
theorem region_in_base {edit : Edit} (hmem : edit ∈ edits)
    (hfound : FoundOnce nfkc (baseContent nfkc content edits) edit) :
    (regionOf nfkc (baseContent nfkc content edits) edit).stop ≤
      (baseContent nfkc content edits).length := by
  obtain ⟨⟨found,hsome⟩,_⟩ := hfound
  simp only [regionOf, hsome, Region.stop]
  rcases match_in_base h hmem hsome with ⟨hlength,hfind⟩ |
    ⟨_,hlength,hfind⟩
  · rw [hlength]
    exact (find_occurs _ hfind).2
  · rw [hlength]
    exact (find_occurs _ hfind).2

include h in
theorem apply_of_applies (ha : Applies nfkc content (edits.map normalizeEdit)) :
    applyEditsToNormalizedContent nfkc content edits =
      if outcome nfkc content (edits.map normalizeEdit) ((edits.map normalizeEdit).map
          (regionOf nfkc (baseContent nfkc content (edits.map normalizeEdit)))) = content then
        .error (.unchanged edits.length)
      else .ok (content, outcome nfkc content (edits.map normalizeEdit)
        ((edits.map normalizeEdit).map
          (regionOf nfkc (baseContent nfkc content (edits.map normalizeEdit))))) := by
  generalize hedits : edits.map normalizeEdit = plainEdits at ha ⊢
  have hempty : plainEdits.findIdx? (fun edit => decide (edit.oldText = [])) = none := by
    refine List.findIdx?_eq_none_iff.mpr (fun edit hedit => ?_)
    simpa using ha.nonempty edit hedit
  obtain ⟨matched,hmatched⟩ := match_edits_found (baseContent nfkc content plainEdits) edits.length
    0 plainEdits ha.found
  obtain ⟨_,hregions⟩ := match_edits_ok _ _ hmatched
  have hpositive : ∀ r ∈ matched.map Replacement.region, 0 < r.length := by
    rw [hregions]
    intro r hr
    obtain ⟨edit,hedit,rfl⟩ := mem_map.mp hr
    exact ha.positive edit hedit
  have hapart : (matched.map Replacement.region).Pairwise Apart := by
    rw [hregions]
    exact ha.apart
  have hbefore := sorted_before hpositive hapart
  have hperm : ((matched.insertionSort byPosition).map Replacement.region).Perm
      (matched.map Replacement.region) := (perm_insertionSort _ _).map _
  have hbounds : ∀ r ∈ (matched.insertionSort byPosition).map Replacement.region,
      0 < r.length ∧ r.stop ≤ (baseContent nfkc content plainEdits).length := by
    intro r hr
    have hr' := hperm.mem_iff.mp hr
    refine ⟨hpositive r hr',?_⟩
    rw [hregions] at hr'
    obtain ⟨edit,hedit,rfl⟩ := mem_map.mp hr'
    exact region_in_base h hedit (ha.found edit hedit)
  have hnew : (if usesFuzzyMatch nfkc content plainEdits then
        applyReplacementsPreservingUnchangedLines content (baseContent nfkc content plainEdits)
          ((matched.insertionSort byPosition).map Replacement.region)
      else .ok (applyReplacements (baseContent nfkc content plainEdits)
        ((matched.insertionSort byPosition).map Replacement.region) 0)) =
      Except.ok (outcome nfkc content plainEdits (matched.map Replacement.region)) := by
    by_cases hfuzzy : usesFuzzyMatch nfkc content plainEdits = true
    · have hbase := base_fuzzy hfuzzy
      rw [hbase] at hbounds
      rw [if_pos hfuzzy, outcome, if_pos hfuzzy, hbase, preserving_splice
        (ha.lines hfuzzy) hbefore hbounds, splice_lines_perm _ _ hperm
        (fun r hr => (hbounds r hr).1) (hbefore.imp (fun hab => before_apart hab))]
    · have hbase := base_exact hfuzzy
      have hwhole := replace_all_splice content 0 content.length (by omega) hbefore (fun r hr => by
          obtain ⟨hlength,hstop⟩ := hbounds r hr
          rw [hbase] at hstop
          exact ⟨hlength,Nat.zero_le _,by omega⟩)
      rw [drop_zero, take_length] at hwhole
      rw [if_neg hfuzzy, outcome, if_neg hfuzzy, hbase, applyReplacements, hwhole, splice,
        splice_perm content hperm (fun r hr => (hbounds r hr).1)
          (hbefore.imp (fun hab => before_apart hab))]
  rw [← hregions]
  simp only [applyEditsToNormalizedContent, hedits, hempty, hmatched,
    (first_overlap_none _).mpr hbefore, hnew]

end Applying

end Maple.Tools

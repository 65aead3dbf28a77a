import Maple.Tools.Simultaneous

/-!
# The places an old text may mean

A call counts the matches that do not overlap in the loose forms. A second place is
missed if it overlaps the first one, or if the loose form does not keep the two apart.
-/

set_option autoImplicit false

namespace Maple.Tools

open List

def Occurs (pattern text : Text) (index : ℕ) : Prop :=
  index ≤ text.length ∧ pattern <+: text.drop index

instance (pattern text : Text) (index : ℕ) : Decidable (Occurs pattern text index) :=
  inferInstanceAs (Decidable (_ ∧ _))

/-- Any two places of the pattern lie apart. -/
def KeptApart (pattern text : Text) : Prop :=
  ∀ left right, Occurs pattern text left → Occurs pattern text right → left < right →
    left+pattern.length ≤ right

instance (pattern text : Text) : Decidable (KeptApart pattern text) :=
  decidable_of_iff (∀ left < text.length+1, ∀ right < text.length+1, Occurs pattern text left →
      Occurs pattern text right → left < right → left+pattern.length ≤ right)
    ⟨fun h left right hleft hright => h left (Nat.lt_succ_of_le hleft.1) right
        (Nat.lt_succ_of_le hright.1) hleft hright,
      fun h left _ right _ => h left right⟩

def Twice (pattern text : Text) : Prop :=
  ∃ left right, Occurs pattern text left ∧ Occurs pattern text right ∧ left < right ∧
    left+pattern.length ≤ right

section Counting

theorem occurs_cons (pattern : Text) (c : Char) (rest : Text) (index : ℕ) :
    Occurs pattern (c::rest) (index+1) ↔ Occurs pattern rest index := by
  simp [Occurs]

variable {pattern : Text}

theorem find_place {text : Text} {index : ℕ} (h : find pattern text = some index) :
    Occurs pattern text index := by
  obtain ⟨hlead,hlength⟩ := find_occurs index h
  exact ⟨by omega,hlead⟩

theorem count_place {text : Text} (skip index : ℕ) (hne : pattern ≠ [])
    (h : Occurs pattern text index) (hskip : skip ≤ index) :
    0 < countMatches pattern skip text := by
  induction text generalizing skip index with
  | nil =>
    have hnil : pattern <+: [] := by simpa using h.2
    exact absurd (prefix_nil.mp hnil) hne
  | cons c rest ih =>
    cases skip with
    | zero =>
      simp only [countMatches]
      split
      · omega
      · rename_i hlead
        cases index with
        | zero => exact hlead.elim <| isPrefixOf_iff_prefix.mpr h.2
        | succ index => exact ih 0 index ((occurs_cons _ _ _ _).mp h) (Nat.zero_le _)
    | succ skip =>
      obtain ⟨index,rfl⟩ : ∃ before, index = before+1 := ⟨index-1,by omega⟩
      exact ih skip index ((occurs_cons _ _ _ _).mp h) (by omega)

theorem count_places {text : Text} (skip left right : ℕ) (hne : pattern ≠ [])
    (hleft : Occurs pattern text left) (hright : Occurs pattern text right)
    (hapart : left+pattern.length ≤ right) (hskip : skip ≤ left) :
    1 < countMatches pattern skip text := by
  have hlength := length_pos_iff.mpr hne
  induction text generalizing skip left right with
  | nil =>
    have hnil : pattern <+: [] := by simpa using hleft.2
    exact absurd (prefix_nil.mp hnil) hne
  | cons c rest ih =>
    obtain ⟨right,rfl⟩ : ∃ before, right = before+1 := ⟨right-1,by omega⟩
    have hright := (occurs_cons _ _ _ _).mp hright
    cases skip with
    | zero =>
      simp only [countMatches]
      split
      · have hrest := count_place (pattern.length-1) right hne hright (by omega)
        omega
      · rename_i hlead
        cases left with
        | zero => exact hlead.elim <| isPrefixOf_iff_prefix.mpr hleft.2
        | succ left =>
          exact ih 0 left right ((occurs_cons _ _ _ _).mp hleft) hright (by omega) (Nat.zero_le _)
    | succ skip =>
      obtain ⟨left,rfl⟩ : ∃ before, left = before+1 := ⟨left-1,by omega⟩
      exact ih skip left right ((occurs_cons _ _ _ _).mp hleft) hright (by omega) (by omega)

/-- Two places apart are counted. -/
theorem twice_counted {text : Text} (h : Twice pattern text) : 1 < countMatches pattern 0 text := by
  obtain ⟨left,right,hleft,hright,hlt,hapart⟩ := h
  by_cases hne : pattern = []
  · rw [hne, count_empty]
    have hend := hright.1
    omega
  · exact count_places 0 left right hne hleft hright hapart (Nat.zero_le _)

theorem one_place {text : Text} {index : ℕ} (hindex : Occurs pattern text index)
    (hdisjoint : KeptApart pattern text) (htwice : ¬Twice pattern text) :
    ∃! index, Occurs pattern text index := by
  refine ⟨index,hindex,fun other hother => ?_⟩
  rcases Nat.lt_trichotomy other index with hlt | heq | hgt
  · exact absurd ⟨other,index,hother,hindex,hlt,hdisjoint _ _ hother hindex hlt⟩ htwice
  · exact heq
  · exact absurd ⟨index,other,hindex,hother,hgt,hdisjoint _ _ hindex hother hgt⟩ htwice

theorem disjoint_of_one {text : Text} (h : ∃! index, Occurs pattern text index) :
    KeptApart pattern text ∧ ¬Twice pattern text := by
  refine ⟨fun left right hleft hright hlt => ?_,?_⟩
  · have hsame := h.unique hleft hright
    omega
  · rintro ⟨left,right,hleft,hright,hlt,_⟩
    have hsame := h.unique hleft hright
    omega

end Counting

section Matches
variable (nfkc : Text → Text) (content : Text) (edits : List Edit) (edit : Edit)

def MatchedExactly : Prop :=
  ∃ found, fuzzyFindText nfkc content edit.oldText = some found ∧ found.usedFuzzyMatch = false

/-- The match in the content, or the one in the base that all edits share, is loose. -/
def MatchedLoosely : Prop :=
  ∃ found, (fuzzyFindText nfkc content edit.oldText = some found ∨
    fuzzyFindText nfkc (baseContent nfkc content edits) edit.oldText = some found) ∧
    found.usedFuzzyMatch = true

structure OnePlace : Prop where
  exact : MatchedExactly nfkc content edit → ∃! index, Occurs edit.oldText content index
  loose : MatchedLoosely nfkc content edits edit →
    ∃! index, Occurs (normalizeForFuzzyMatch nfkc edit.oldText)
      (normalizeForFuzzyMatch nfkc content) index

/-- The text looked for does not overlap itself in the content, and the loose forms keep
two places apart. -/
structure Separated : Prop where
  exact : MatchedExactly nfkc content edit → KeptApart edit.oldText content ∧
    (Twice edit.oldText content →
      Twice (normalizeForFuzzyMatch nfkc edit.oldText) (normalizeForFuzzyMatch nfkc content))
  loose : MatchedLoosely nfkc content edits edit →
    KeptApart (normalizeForFuzzyMatch nfkc edit.oldText) (normalizeForFuzzyMatch nfkc content)

end Matches

section Placing
variable {nfkc : Text → Text} (h : LawfulNfkc nfkc) {content : Text} {edit : Edit}

theorem exact_found (hexact : MatchedExactly nfkc content edit) :
    ∃ index, Occurs edit.oldText content index := by
  obtain ⟨found,hfound,hused⟩ := hexact
  unfold fuzzyFindText at hfound
  split at hfound
  · rename_i index hindex
    exact ⟨index,find_place hindex⟩
  · obtain ⟨index,_,hmatch⟩ := Option.map_eq_some_iff.mp hfound
    rw [← hmatch] at hused
    cases hused

theorem loose_found {oldText : Text} {found : FuzzyMatch}
    (hfound : fuzzyFindText nfkc content oldText = some found)
      (hused : found.usedFuzzyMatch = true) :
    ∃ index, Occurs (normalizeForFuzzyMatch nfkc oldText) (normalizeForFuzzyMatch nfkc content)
      index := by
  unfold fuzzyFindText at hfound
  split at hfound
  · cases hfound
    cases hused
  · obtain ⟨index,hindex,_⟩ := Option.map_eq_some_iff.mp hfound
    exact ⟨index,find_place hindex⟩

variable {edits : List Edit}

include h in
theorem loosely_found (hloose : MatchedLoosely nfkc content edits edit) :
    ∃ index, Occurs (normalizeForFuzzyMatch nfkc edit.oldText)
      (normalizeForFuzzyMatch nfkc content) index := by
  obtain ⟨found,hfound | hfound,hused⟩ := hloose
  · exact loose_found hfound hused
  · rw [← loose_base h content edits]
    exact loose_found hfound hused

include h in
theorem found_once_not_twice (hfound : FoundOnce nfkc (baseContent nfkc content edits) edit) :
    ¬Twice (normalizeForFuzzyMatch nfkc edit.oldText) (normalizeForFuzzyMatch nfkc content) := by
  intro htwice
  have honce := hfound.2
  rw [countOccurrences, loose_base h content edits] at honce
  have hmore := twice_counted htwice
  omega

include h in
theorem one_place_iff (hfound : FoundOnce nfkc (baseContent nfkc content edits) edit) :
    OnePlace nfkc content edits edit ↔ Separated nfkc content edits edit := by
  have hnot := found_once_not_twice h hfound
  constructor
  · intro hone
    refine ⟨fun hexact => ?_,fun hloose => (disjoint_of_one (hone.loose hloose)).1⟩
    obtain ⟨hdisjoint,honce⟩ := disjoint_of_one (hone.exact hexact)
    exact ⟨hdisjoint,fun htwice => absurd htwice honce⟩
  intro hseparated
  constructor
  · intro hexact
    obtain ⟨index,hindex⟩ := exact_found hexact
    obtain ⟨hdisjoint,hkept⟩ := hseparated.exact hexact
    exact one_place hindex hdisjoint (fun htwice => hnot (hkept htwice))
  · intro hloose
    obtain ⟨index,hindex⟩ := loosely_found h hloose
    exact one_place hindex (hseparated.loose hloose) hnot

end Placing

/-- A call that succeeds meant one place with every old text exactly if the places of each
are kept apart. -/
theorem edits_unique_iff (nfkc : Text → Text) (h : LawfulNfkc nfkc) (content : Text)
    (edits : List Edit) (result : Text × Text)
    (hok : applyEditsToNormalizedContent nfkc content edits = .ok result) :
    (∀ edit ∈ edits.map normalizeEdit, OnePlace nfkc content (edits.map normalizeEdit) edit) ↔
      ∀ edit ∈ edits.map normalizeEdit, Separated nfkc content (edits.map normalizeEdit) edit := by
  have hfound := (applies_of_ok h hok).found
  constructor
  · intro hall edit hmem
    exact (one_place_iff h (hfound edit hmem)).mp (hall edit hmem)
  · intro hall edit hmem
    exact (one_place_iff h (hfound edit hmem)).mpr (hall edit hmem)

theorem edits_unique_sample :
    applyEditsToNormalizedContent id quotedContent quotedEdits =
        .ok (quotedContent, ['e', '\n', 'b', ' ', '\n', 'd', 'd', '\n']) ∧
      ∀ edit ∈ quotedEdits.map normalizeEdit,
        OnePlace id quotedContent (quotedEdits.map normalizeEdit) edit := by
  have hok : applyEditsToNormalizedContent id quotedContent quotedEdits =
      .ok (quotedContent, ['e', '\n', 'b', ' ', '\n', 'd', 'd', '\n']) := by decide +kernel
  refine ⟨hok, (edits_unique_iff id identity_lawful quotedContent quotedEdits _ hok).mpr ?_⟩
  have hapart : ∀ edit ∈ quotedEdits.map normalizeEdit, KeptApart edit.oldText quotedContent ∧
      countMatches edit.oldText 0 quotedContent ≤ 1 ∧
      KeptApart (normalizeForFuzzyMatch id edit.oldText)
        (normalizeForFuzzyMatch id quotedContent) := by
    decide +kernel
  intro edit hmem
  obtain ⟨hexact,hcount,hloose⟩ := hapart edit hmem
  exact ⟨fun _ => ⟨hexact, fun htwice => absurd (twice_counted htwice) (Nat.not_lt.mpr hcount)⟩,
    fun _ => hloose⟩

def runContent : Text := ['a', 'a', 'a']

def runEdits : List Edit := [⟨['a', 'a'], ['b']⟩]

/-- The first of two overlapping places is replaced. -/
theorem overlapping_place_guessed :
    applyEditsToNormalizedContent id runContent runEdits = .ok (runContent, ['b', 'a']) ∧
      MatchedExactly id runContent ⟨['a', 'a'], ['b']⟩ ∧
      Occurs ['a', 'a'] runContent 0 ∧ Occurs ['a', 'a'] runContent 1 ∧
      ¬∀ edit ∈ runEdits.map normalizeEdit,
        OnePlace id runContent (runEdits.map normalizeEdit) edit := by
  have hexact : MatchedExactly id runContent ⟨['a', 'a'], ['b']⟩ :=
    ⟨⟨0, 2, false⟩, by decide +kernel, rfl⟩
  have hfirst : Occurs ['a', 'a'] runContent 0 := by decide
  have hsecond : Occurs ['a', 'a'] runContent 1 := by decide
  refine ⟨by decide +kernel, hexact, hfirst, hsecond, fun hall => ?_⟩
  have hone := (hall ⟨['a', 'a'], ['b']⟩ (by decide +kernel)).exact hexact
  exact absurd (hone.unique hfirst hsecond) (by decide)

end Maple.Tools

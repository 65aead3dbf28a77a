import Maple.Lib.LineSplice
import Maple.Tools.Truncate
import Mathlib.Data.List.DropRight
import Mathlib.Data.List.Sort

/-!
# Matching edits against a file

An old text is looked for exactly first, and otherwise in the loose forms of the file and
the text. The lines a loose match touches are rewritten from the loose form; every other
line keeps its bytes. Offsets count characters: a match in UTF-8 starts and ends between
characters. Unicode compatibility normalisation is a parameter.
-/

set_option autoImplicit false

namespace Maple.Tools

open Splice

structure Edit where
  oldText : Text
  newText : Text
deriving DecidableEq, Repr

def replaceCrLf : Text → Text
  | '\r':: '\n'::rest => '\n'::replaceCrLf rest
  | c::rest => c::replaceCrLf rest
  | [] => []

def normalizeToLf (text : Text) : Text :=
  (replaceCrLf text).map (fun c => if c = '\r' then '\n' else c)

def trimmedByJs (c : Char) : Bool :=
  c ∈ ['\t', '\n', '\x0b', '\x0c', '\r', ' ', '\u00a0', '\u1680', '\u2028', '\u2029', '\u202f',
    '\u205f', '\u3000', '\ufeff'] || ('\u2000' ≤ c && c ≤ '\u200a')

def trimEndJs (line : Text) : Text := line.rdropWhile trimmedByJs

def plain (c : Char) : Char :=
  if c ∈ ['\u2018', '\u2019', '\u201a', '\u201b'] then '\x27'
  else if '\u201c' ≤ c ∧ c ≤ '\u201f' then '\x22'
  else if '\u2010' ≤ c ∧ c ≤ '\u2015' ∨ c = '\u2212' then '-'
  else if c = '\u00a0' ∨ '\u2002' ≤ c ∧ c ≤ '\u200a' ∨ c = '\u202f' ∨ c = '\u205f' ∨
    c = '\u3000' then ' '
  else c

structure FuzzyMatch where
  index : ℕ
  length : ℕ
  usedFuzzyMatch : Bool
deriving DecidableEq, Repr

def find (pattern : Text) : Text → Option ℕ
  | [] => if pattern = [] then some 0 else none
  | c::rest => if pattern.isPrefixOf (c::rest) then some 0 else (find pattern rest).map (·+1)

/-- The matches that do not overlap, from the left, after some characters are skipped. -/
def countMatches (pattern : Text) : ℕ → Text → ℕ
  | _, [] => if pattern = [] then 1 else 0
  | 0, c::rest =>
    if pattern.isPrefixOf (c::rest) then 1+countMatches pattern (pattern.length-1) rest
    else countMatches pattern 0 rest
  | skip+1, _::rest => countMatches pattern skip rest

structure Replacement where
  editIndex : ℕ
  region : Region Char
deriving DecidableEq, Repr

def applyReplacements (content : Text) (replacements : List (Region Char)) (offset : ℕ) : Text :=
  replaceAll content replacements offset

def splitInclusive : Text → List Text
  | [] => []
  | c::rest =>
    if c = '\n' then [c]::splitInclusive rest
    else
      match splitInclusive rest with
      | [] => [[c]]
      | line::lines => (c::line)::lines

def lineBounds : ℕ → List Text → List (ℕ × ℕ)
  | _, [] => []
  | offset, line::lines => (offset, offset+line.length)::lineBounds (offset+line.length) lines

inductive EditError
  | emptyOldText (total index : ℕ)
  | notFound (total index : ℕ)
  | repeated (total index occurrences : ℕ)
  | overlap (left right : ℕ)
  | lineCount
  | outside
  | unchanged (total : ℕ)
deriving DecidableEq, Repr

/-- The text of an error; one edit alone is not named by its index. -/
def EditError.message (path : String) : EditError → String
  | .emptyOldText 1 _ => s!"oldText must not be empty in {path}."
  | .emptyOldText _ index => s!"edits[{index}].oldText must not be empty in {path}."
  | .notFound 1 _ => s!"Could not find the exact text in {path}. "++
      "The old text must match exactly including all whitespace and newlines."
  | .notFound _ index => s!"Could not find edits[{index}] in {path}. "++
      "The oldText must match exactly including all whitespace and newlines."
  | .repeated 1 _ occurrences => s!"Found {occurrences} occurrences of the text in {path}. "++
      "The text must be unique. Please provide more context to make it unique."
  | .repeated _ index occurrences =>
      s!"Found {occurrences} occurrences of edits[{index}] in {path}. "++
      "Each oldText must be unique. Please provide more context to make it unique."
  | .overlap left right => s!"edits[{left}] and edits[{right}] overlap in {path}. "++
      "Merge them into one edit or target disjoint regions."
  | .lineCount =>
      "Cannot preserve unchanged lines because the base content has a different line count."
  | .outside => "Replacement range is outside the base content."
  | .unchanged 1 => s!"No changes made to {path}. "++
      "The replacement produced identical content. This might indicate an issue with special "++
      "characters or the text not existing as expected."
  | .unchanged _ => s!"No changes made to {path}. The replacements produced identical content."

structure Group where
  startLine : ℕ
  endLine : ℕ
  replacements : List (Region Char)
deriving DecidableEq, Repr

/-- The lines a replacement touches, from the first to the one after the last. -/
def locate (baseLines : List (ℕ × ℕ)) (r : Region Char) : Except EditError (ℕ × ℕ) :=
  match baseLines.findIdx? (fun line => r.index ≥ line.1 && r.index < line.2) with
  | none => .error .outside
  | some startLine =>
    let endLine := startLine+
      ((baseLines.drop startLine).takeWhile (fun line => line.2 < r.index+r.length)).length
    if endLine ≥ baseLines.length then .error .outside else .ok (startLine, endLine+1)

-- The groups stand with the last one first.
def addToGroups (groups : List Group) (r : Region Char) (startLine endLine : ℕ) : List Group :=
  match groups with
  | group::older =>
    if startLine < group.endLine then
      { group with
        endLine := max group.endLine endLine
        replacements := group.replacements++[r] }::older
    else ⟨startLine, endLine, [r]⟩::group::older
  | [] => [⟨startLine, endLine, [r]⟩]

def groupReplacements (baseLines : List (ℕ × ℕ)) :
    List (Region Char) → List Group → Except EditError (List Group)
  | [], groups => .ok groups
  | r::rest, groups =>
    match locate baseLines r with
    | .error error => .error error
    | .ok (startLine, endLine) =>
      groupReplacements baseLines rest (addToGroups groups r startLine endLine)

def rewriteGroups (originalLines : List Text) (base : Text) (baseLines : List (ℕ × ℕ)) :
    List Group → ℕ → Text
  | [], originalIndex => (originalLines.drop originalIndex).flatten
  | group::groups, originalIndex =>
    let groupStart := (baseLines[group.startLine]?.getD (0,0)).1
    let groupEnd := (baseLines[group.endLine-1]?.getD (0,0)).2
    ((originalLines.drop originalIndex).take (group.startLine-originalIndex)).flatten++
      (applyReplacements ((base.drop groupStart).take (groupEnd-groupStart)) group.replacements
        groupStart++
      rewriteGroups originalLines base baseLines groups group.endLine)

def byIndex (a b : Region Char) : Prop := a.index ≤ b.index

instance : DecidableRel byIndex := fun a b => inferInstanceAs (Decidable (a.index ≤ b.index))

def applyReplacementsPreservingUnchangedLines (original base : Text)
    (replacements : List (Region Char)) : Except EditError Text :=
  let originalLines := splitInclusive original
  let baseLines := lineBounds 0 (splitInclusive base)
  if originalLines.length ≠ baseLines.length then .error .lineCount
  else
    match groupReplacements baseLines (replacements.insertionSort byIndex) [] with
    | .error error => .error error
    | .ok groups => .ok (rewriteGroups originalLines base baseLines groups.reverse 0)

section Matching
variable (nfkc : Text → Text)

def normalizeForFuzzyMatch (text : Text) : Text :=
  (['\n'].intercalate (((nfkc text).splitOn '\n').map trimEndJs)).map plain

def fuzzyFindText (content oldText : Text) : Option FuzzyMatch :=
  match find oldText content with
  | some index => some ⟨index, oldText.length, false⟩
  | none =>
    let fuzzyOld := normalizeForFuzzyMatch nfkc oldText
    (find fuzzyOld (normalizeForFuzzyMatch nfkc content)).map
      (fun index => ⟨index, fuzzyOld.length, true⟩)

def countOccurrences (content oldText : Text) : ℕ :=
  countMatches (normalizeForFuzzyMatch nfkc oldText) 0 (normalizeForFuzzyMatch nfkc content)

def normalizeEdit (edit : Edit) : Edit :=
  ⟨normalizeToLf edit.oldText, normalizeToLf edit.newText⟩

def usesFuzzyMatch (content : Text) (edits : List Edit) : Bool :=
  edits.any (fun edit => (fuzzyFindText nfkc content edit.oldText).any (·.usedFuzzyMatch))

def baseContent (content : Text) (edits : List Edit) : Text :=
  if usesFuzzyMatch nfkc content edits then normalizeForFuzzyMatch nfkc content else content

def matchEdits (base : Text) (total : ℕ) :
    ℕ → List Edit → Except EditError (List Replacement)
  | _, [] => .ok []
  | index, edit::edits =>
    match fuzzyFindText nfkc base edit.oldText with
    | none => .error (.notFound total index)
    | some found =>
      let occurrences := countOccurrences nfkc base edit.oldText
      if occurrences > 1 then .error (.repeated total index occurrences)
      else
        match matchEdits base total (index+1) edits with
        | .error error => .error error
        | .ok matched => .ok (⟨index, ⟨found.index, found.length, edit.newText⟩⟩::matched)

def firstOverlap : List Replacement → Option (ℕ × ℕ)
  | a::b::rest =>
    if a.region.index+a.region.length > b.region.index then some (a.editIndex, b.editIndex)
    else firstOverlap (b::rest)
  | _ => none

def byPosition (a b : Replacement) : Prop := a.region.index ≤ b.region.index

instance : DecidableRel byPosition :=
  fun a b => inferInstanceAs (Decidable (a.region.index ≤ b.region.index))

def applyEditsToNormalizedContent (normalizedContent : Text) (edits : List Edit) :
    Except EditError (Text × Text) :=
  let total := edits.length
  let edits := edits.map normalizeEdit
  match edits.findIdx? (fun edit => edit.oldText = []) with
  | some index => .error (.emptyOldText total index)
  | none =>
    let base := baseContent nfkc normalizedContent edits
    match matchEdits nfkc base total 0 edits with
    | .error error => .error error
    | .ok matched =>
      let matched := matched.insertionSort byPosition
      match firstOverlap matched with
      | some (left, right) => .error (.overlap left right)
      | none =>
        let regions := matched.map Replacement.region
        let newContent :=
          if usesFuzzyMatch nfkc normalizedContent edits then
            applyReplacementsPreservingUnchangedLines normalizedContent base regions
          else .ok (applyReplacements base regions 0)
        match newContent with
        | .error error => .error error
        | .ok newContent =>
          if newContent = normalizedContent then .error (.unchanged total)
          else .ok (normalizedContent, newContent)

end Matching

end Maple.Tools

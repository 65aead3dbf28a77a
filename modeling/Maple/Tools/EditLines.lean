import Maple.Tools.EditDiff

/-!
# Rewriting only the touched lines

Sorted replacements are gathered into runs of touched lines. The runs are disjoint and
ordered, so rewriting them one by one splices every touched line and copies every other.
-/

set_option autoImplicit false

namespace Maple.Tools

open Splice List

section Bounds

theorem line_bounds_length (offset : ℕ) (lines : List Text) :
    (lineBounds offset lines).length = lines.length := by
  induction lines generalizing offset with
  | nil => rfl
  | cons line lines ih => simp [lineBounds, ih]

theorem line_bounds_get (offset : ℕ) (lines : List Text) (k : ℕ) (h : k < lines.length) :
    (lineBounds offset lines)[k]? = some (offset+starts lines k, offset+starts lines (k+1)) := by
  induction lines generalizing offset k with
  | nil => simp at h
  | cons line lines ih =>
    cases k with
    | zero => simp [lineBounds, starts]
    | succ k =>
      have hrest := ih (offset+line.length) k (by simpa using h)
      simp only [lineBounds, List.getElem?_cons_succ, hrest, starts, take_succ_cons,
        flatten_cons, length_append, Nat.add_assoc]

theorem split_inclusive_flatten (text : Text) : (splitInclusive text).flatten = text := by
  induction text with
  | nil => rfl
  | cons c rest ih =>
    simp only [splitInclusive]
    split
    · rw [flatten_cons, ih]
      rfl
    split
    · rename_i hnil
      rw [hnil] at ih
      simp [← ih]
    · rename_i line lines hlines
      rw [hlines] at ih
      simp [← ih]

theorem take_while_spec {α : Type} (p : α → Bool) (items : List α) :
    (∀ k a, k < (items.takeWhile p).length → items[k]? = some a → p a = true) ∧
      ∀ a, items[(items.takeWhile p).length]? = some a → p a = false := by
  induction items with
  | nil => simp
  | cons item items ih =>
    by_cases hitem : p item = true
    · rw [takeWhile_cons_of_pos hitem]
      refine ⟨fun k a hk ha => ?_,fun a ha => ih.2 a (by simpa using ha)⟩
      cases k with
      | zero =>
        obtain rfl : item = a := by simpa using ha
        exact hitem
      | succ k => exact ih.1 k a (by simpa using hk) (by simpa using ha)
    · rw [takeWhile_cons_of_neg hitem]
      refine ⟨fun k a hk => by simp at hk,fun a ha => ?_⟩
      obtain rfl : item = a := by simpa using ha
      simpa using hitem

theorem line_below (lines : List Text) (position count : ℕ) (h : position < starts lines count) :
    ∃ k < count, starts lines k ≤ position ∧ position < starts lines (k+1) := by
  induction count with
  | zero => exact absurd h (Nat.not_lt_zero _)
  | succ count ih =>
    by_cases hlow : position < starts lines count
    · obtain ⟨k,hk,hposition⟩ := ih hlow
      exact ⟨k,by omega,hposition⟩
    · exact ⟨count,by omega,by omega,h⟩

/-- Every position of a text lies in a line. -/
theorem line_of_position {lines : List Text} {position : ℕ} (h : position < lines.flatten.length) :
    ∃ k < lines.length, starts lines k ≤ position ∧ position < starts lines (k+1) :=
  line_below lines position lines.length (by rwa [starts_length])

end Bounds

/-- The lines a region touches, from the first to the one after the last. -/
structure Spans (lines : List Text) (r : Region Char) (first last : ℕ) : Prop where
  bounded : first < last ∧ last ≤ lines.length
  start : starts lines first ≤ r.index ∧ r.index < starts lines (first+1)
  stop : starts lines (last-1) < r.stop ∧ r.stop ≤ starts lines last

variable {lines : List Text} {r : Region Char} {first last : ℕ}

theorem spans_touches (h : Spans lines r first last) (k : ℕ) :
    Touches lines r k ↔ first ≤ k ∧ k < last := by
  obtain ⟨⟨hlt,_⟩,⟨hstart,hstart'⟩,hstop,hstop'⟩ := h
  constructor
  · rintro ⟨hindex,hend⟩
    constructor
    · by_contra hk
      have := starts_mono lines (k+1) first (by omega)
      omega
    · by_contra hk
      have := starts_mono lines last k (by omega)
      omega
  · rintro ⟨hlow,hhigh⟩
    have hleft := starts_mono lines (first+1) (k+1) (by omega)
    have hright := starts_mono lines k (last-1) (by omega)
    exact ⟨by omega,by omega⟩

theorem first_line (lines : List Text) (r : Region Char) (h : r.index < lines.flatten.length) :
    ∃ first < lines.length, (lineBounds 0 lines).findIdx?
        (fun line => r.index ≥ line.1 && r.index < line.2) = some first ∧
      starts lines first ≤ r.index ∧ r.index < starts lines (first+1) := by
  cases hfound : (lineBounds 0 lines).findIdx?
      (fun line => r.index ≥ line.1 && r.index < line.2) with
  | none =>
    obtain ⟨k,hk,hlow,hhigh⟩ := line_of_position h
    have hget := line_bounds_get 0 lines k hk
    have hnone := List.findIdx?_eq_none_iff.mp hfound _ (List.mem_of_getElem? hget)
    simp at hnone
    omega
  | some first =>
    obtain ⟨hfirst,hline,_⟩ := List.findIdx?_eq_some_iff_getElem.mp hfound
    have hlt : first < lines.length := by rwa [line_bounds_length] at hfirst
    have hget := line_bounds_get 0 lines first hlt
    rw [List.getElem?_eq_getElem hfirst, Option.some.injEq] at hget
    rw [hget] at hline
    simp only [Nat.zero_add, Bool.and_eq_true, decide_eq_true_eq] at hline
    exact ⟨first,hlt,rfl,hline⟩

theorem locate_spans (hlength : 0 < r.length) (hstop : r.stop ≤ lines.flatten.length) :
    ∃ first last, locate (lineBounds 0 lines) r = .ok (first, last) ∧ Spans lines r first last := by
  have hindex : r.index < r.stop := by rw [Region.stop]; omega
  obtain ⟨first,hfirst,hfound,hstart⟩ := first_line lines r (by omega)
  obtain ⟨hpassed,hfailed⟩ := take_while_spec
    (fun line : ℕ × ℕ => decide (line.2 < r.index+r.length)) ((lineBounds 0 lines).drop first)
  generalize hcount : (((lineBounds 0 lines).drop first).takeWhile
    (fun line : ℕ × ℕ => decide (line.2 < r.index+r.length))).length = count at hpassed hfailed
  have hget (k : ℕ) (hk : first+k < lines.length) : ((lineBounds 0 lines).drop first)[k]? =
      some (starts lines (first+k), starts lines (first+k+1)) := by
    rw [List.getElem?_drop, line_bounds_get 0 lines _ hk, Nat.zero_add, Nat.zero_add]
  have hpass (k : ℕ) (hk : k < count) (hline : first+k < lines.length) :
      starts lines (first+k+1) < r.stop := by
    simpa [Region.stop] using hpassed k _ hk (hget k hline)
  -- The last line ends at the end of the text, so the loop stops inside it.
  have hinside : first+count < lines.length := by
    by_contra hover
    have hlast := hpass (lines.length-1-first) (by omega) (by omega)
    rw [(by omega : first+(lines.length-1-first)+1 = lines.length), starts_length] at hlast
    omega
  have hfail : r.stop ≤ starts lines (first+count+1) := by
    simpa [Region.stop] using hfailed _ (hget count hinside)
  refine ⟨first,first+count+1,?_,⟨by omega,by omega⟩,hstart,?_,hfail⟩
  · have hbound : ¬first+count ≥ (lineBounds 0 lines).length := by
      rw [line_bounds_length]
      omega
    simp only [locate, hfound, hcount, if_neg hbound]
  · rw [Nat.add_sub_cancel]
    cases count with
    | zero => simpa using Nat.lt_of_le_of_lt hstart.1 hindex
    | succ count => exact hpass count (by omega) (by omega)

/-- A run of lines holds its replacements, and each of its lines is touched by one. -/
structure Grouped (lines : List Text) (group : Group) : Prop where
  bounded : group.startLine < group.endLine ∧ group.endLine ≤ lines.length
  inside : ∀ r ∈ group.replacements,
    starts lines group.startLine ≤ r.index ∧ r.stop ≤ starts lines group.endLine
  touched : ∀ k, (∃ r ∈ group.replacements, Touches lines r k) ↔
    group.startLine ≤ k ∧ k < group.endLine

structure Gathered (lines : List Text) (groups : List Group) (done : List (Region Char)) :
    Prop where
  all : groups.reverse.flatMap Group.replacements = done
  each : ∀ group ∈ groups, Grouped lines group
  ordered : groups.Pairwise (fun newer older => older.endLine ≤ newer.startLine)

theorem grouped_single (h : Spans lines r first last) : Grouped lines ⟨first,last,[r]⟩ := by
  refine ⟨h.bounded,?_,fun k => ?_⟩
  · intro other hother
    obtain rfl : other = r := by simpa using hother
    exact ⟨h.start.1,h.stop.2⟩
  · simpa using spans_touches h k

theorem grouped_extend {group : Group} (hgroup : Grouped lines group) (h : Spans lines r first last)
    (hlow : group.startLine ≤ first) (hjoin : first < group.endLine) : Grouped lines { group with
      endLine := max group.endLine last
      replacements := group.replacements++[r] } := by
  have hleft := starts_mono lines group.endLine (max group.endLine last) (Nat.le_max_left _ _)
  have hright := starts_mono lines last (max group.endLine last) (Nat.le_max_right _ _)
  refine ⟨⟨?_,Nat.max_le.mpr ⟨hgroup.bounded.2,h.bounded.2⟩⟩,?_,fun k => ?_⟩
  · have := hgroup.bounded.1
    simp only
    omega
  · intro other hother
    rcases mem_append.mp hother with hmem | hmem
    · obtain ⟨hstart,hstop⟩ := hgroup.inside other hmem
      exact ⟨hstart,Nat.le_trans hstop hleft⟩
    · obtain rfl : other = r := by simpa using hmem
      exact ⟨Nat.le_trans (starts_mono lines _ _ hlow) h.start.1,Nat.le_trans h.stop.2 hright⟩
  · have hold := hgroup.touched k
    have hnew := spans_touches h k
    simp only [mem_append, mem_singleton, or_and_right, exists_or, exists_eq_left, hold, hnew]
    omega

theorem gathered_add (lines : List Text) (groups : List Group) (done : List (Region Char))
    (r : Region Char) (first last : ℕ) (hgathered : Gathered lines groups done)
    (h : Spans lines r first last) (hlow : ∀ group ∈ groups, group.startLine ≤ first) :
    Gathered lines (addToGroups groups r first last) (done++[r]) := by
  obtain ⟨hall,heach,hordered⟩ := hgathered
  cases groups with
  | nil =>
    refine ⟨by simpa [addToGroups] using hall,?_,by simp [addToGroups]⟩
    intro group hgroup
    obtain rfl : group = ⟨first,last,[r]⟩ := by simpa [addToGroups] using hgroup
    exact grouped_single h
  | cons group older =>
    obtain ⟨hnewer,holder⟩ := pairwise_cons.mp hordered
    have hgroup := heach group (by simp)
    simp only [addToGroups]
    split
    · rename_i hjoin
      refine ⟨?_,?_,pairwise_cons.mpr ⟨hnewer,holder⟩⟩
      · simp [← hall]
      · intro other hother
        rcases mem_cons.mp hother with rfl | hmem
        · exact grouped_extend hgroup h (hlow group (by simp)) hjoin
        · exact heach other (by simp [hmem])
    · rename_i hapart
      refine ⟨?_,?_,pairwise_cons.mpr ⟨fun other hother => ?_,hordered⟩⟩
      · simp [← hall]
      · intro other hother
        rcases mem_cons.mp hother with rfl | hmem
        · exact grouped_single h
        · exact heach other hmem
      rcases mem_cons.mp hother with rfl | hmem
      · exact Nat.not_lt.mp hapart
      · have hbefore := hnewer other hmem
        have hwidth := hgroup.bounded.1
        simp only
        omega

/-- A later region starts in no earlier run's past. -/
theorem gathered_low (lines : List Text) (groups : List Group) (done : List (Region Char))
    (r : Region Char) (first last : ℕ) (hgathered : Gathered lines groups done)
    (h : Spans lines r first last) (hsorted : ∀ other ∈ done, other.index ≤ r.index) :
    ∀ group ∈ groups, group.startLine ≤ first := by
  intro group hgroup
  obtain ⟨hbounded,hinside,htouched⟩ := hgathered.each group hgroup
  obtain ⟨other,hother,_⟩ := (htouched group.startLine).mpr ⟨Nat.le_refl _,hbounded.1⟩
  have hmem : other ∈ done := by
    rw [← hgathered.all]
    exact mem_flatMap.mpr ⟨group,by simpa using hgroup,hother⟩
  have hindex := hsorted other hmem
  have hstart := (hinside other hother).1
  by_contra hover
  have hmono := starts_mono lines (first+1) group.startLine (by omega)
  have := h.start.2
  omega

theorem group_replacements_gathered (lines : List Text) (regions : List (Region Char))
    (groups : List Group) (done : List (Region Char)) (hgathered : Gathered lines groups done)
    (hsorted : (done++regions).Pairwise byIndex)
    (hbounds : ∀ r ∈ regions, 0 < r.length ∧ r.stop ≤ lines.flatten.length) :
    ∃ result, groupReplacements (lineBounds 0 lines) regions groups = .ok result ∧
      Gathered lines result (done++regions) := by
  induction regions generalizing groups done with
  | nil => exact ⟨groups,rfl,by simpa using hgathered⟩
  | cons r regions ih =>
    obtain ⟨hlength,hstop⟩ := hbounds r (by simp)
    obtain ⟨first,last,hlocate,hspans⟩ := locate_spans hlength hstop
    have hbefore : ∀ other ∈ done, other.index ≤ r.index := fun other hother =>
      (pairwise_append.mp hsorted).2.2 other hother r (by simp)
    have hadd := gathered_add lines groups done r first last hgathered hspans
      (gathered_low lines groups done r first last hgathered hspans hbefore)
    obtain ⟨result,hresult,hdone⟩ := ih _ _ hadd (by simpa using hsorted)
      (fun other hother => hbounds other (by simp [hother]))
    refine ⟨result,?_,by simpa using hdone⟩
    simp only [groupReplacements, hlocate, hresult]

theorem region_far (r : Region Char) (position : ℕ) (hlength : 0 < r.length)
    (h : r.stop ≤ position ∨ position < r.index) : near position r = false := by
  rw [Bool.eq_false_iff]
  intro hnear
  have hcover := (near_iff position hlength).mp hnear
  omega

theorem range_split {middle : ℕ} {count : ℕ} (hfirst : first ≤ middle) (hmiddle : middle ≤ last)
    (hlast : last ≤ count) : List.range' first (count-first) = List.range' first (middle-first)++
      (List.range' middle (last-middle)++List.range' last (count-last)) := by
  obtain ⟨a,rfl⟩ : ∃ a, middle = first+a := ⟨middle-first,by omega⟩
  obtain ⟨b,rfl⟩ : ∃ b, last = first+a+b := ⟨last-(first+a),by omega⟩
  obtain ⟨c,rfl⟩ : ∃ c, count = first+a+b+c := ⟨count-(first+a+b),by omega⟩
  simp only [Nat.add_sub_cancel_left, List.range'_append_1]
  congr 1
  omega

section Rewriting
variable {original base : List Text} {done rest : List (Region Char)} {group : Group} {line : ℕ}

/-- Lines between the last run and the next are touched by nothing. -/
theorem line_out_between (hgroup : Grouped base group)
    (hdone : ∀ r ∈ done, r.stop ≤ starts base line)
    (hrest : ∀ r ∈ rest, starts base group.endLine ≤ r.index) {k : ℕ} (hlow : line ≤ k)
    (hhigh : k < group.startLine) :
    lineOut original base (done++(group.replacements++rest)) k = original[k]?.getD [] := by
  refine if_neg ?_
  rintro ⟨r,hr,htouch⟩
  rcases mem_append.mp hr with hmem | hmem
  · have hend := hdone r hmem
    have hmono := starts_mono base line k hlow
    have := htouch.2
    omega
  rcases mem_append.mp hmem with hmem | hmem
  · have hrange := (hgroup.touched k).mp ⟨r,hmem,htouch⟩
    omega
  · have hindex := hrest r hmem
    have hwidth := hgroup.bounded.1
    have hmono := starts_mono base (k+1) group.endLine (by omega)
    have := htouch.1
    omega

/-- The lines of a run splice as its own replacements do. -/
theorem line_out_run (hgroup : Grouped base group)
    (hline : line ≤ group.startLine) (hdone : ∀ r ∈ done, r.stop ≤ starts base line)
    (hrest : ∀ r ∈ rest, starts base group.endLine ≤ r.index)
    (hpositive : ∀ r ∈ done++(group.replacements++rest), 0 < r.length)
    (hbefore : group.replacements.Pairwise Before) :
    (List.range' group.startLine (group.endLine-group.startLine)).flatMap
        (lineOut original base (done++(group.replacements++rest))) =
      applyReplacements ((base.flatten.drop (starts base group.startLine)).take
          (starts base group.endLine-starts base group.startLine)) group.replacements
        (starts base group.startLine) := by
  obtain ⟨⟨hwidth,hend⟩,hinside,htouched⟩ := hgroup
  have hmono := starts_mono base group.startLine group.endLine (by omega)
  have hlines : ∀ k ∈ List.range' group.startLine (group.endLine-group.startLine),
      lineOut original base (done++(group.replacements++rest)) k =
        spliceRange base.flatten (done++(group.replacements++rest)) (starts base k)
          (starts base (k+1)-starts base k) := by
    intro k hk
    obtain ⟨hlow,hhigh⟩ := mem_range'_1.mp hk
    obtain ⟨r,hr,htouch⟩ := (htouched k).mpr ⟨hlow,by omega⟩
    exact if_pos ⟨r,by simp [hr],htouch⟩
  have hnear : ∀ position, starts base group.startLine ≤ position →
      position < starts base group.startLine+
        (starts base group.endLine-starts base group.startLine) →
      (done++(group.replacements++rest)).filter (near position) =
        group.replacements.filter (near position) := by
    intro position hlow hhigh
    have hstart := starts_mono base line group.startLine hline
    have hfirst : done.filter (near position) = [] := by
      refine filter_eq_nil_iff.mpr (fun r hr => ?_)
      have hstop := hdone r hr
      simp [region_far r position (hpositive r (by simp [hr])) (.inl (by omega))]
    have hlast : rest.filter (near position) = [] := by
      refine filter_eq_nil_iff.mpr (fun r hr => ?_)
      have hindex := hrest r hr
      simp [region_far r position (hpositive r (by simp [hr])) (.inr (by omega))]
    rw [filter_append, filter_append, hfirst, hlast, nil_append, append_nil]
  have hcount : group.startLine+(group.endLine-group.startLine) = group.endLine := by omega
  rw [flatMap_congr hlines, splice_range_lines, hcount,
    splice_range_congr base.flatten _ group.replacements _ _ hnear]
  refine (replace_all_splice base.flatten _ _ ?_ hbefore ?_).symm
  · have hall := starts_le base group.endLine
    omega
  · intro r hr
    obtain ⟨hindex,hstop⟩ := hinside r hr
    exact ⟨hpositive r (by simp [hr]),hindex,by omega⟩

end Rewriting

/-- Runs rewritten one by one, from a line that all earlier replacements end before. -/
theorem rewrite_groups_splice {original base : List Text} {groups : List Group}
    (done : List (Region Char)) (line : ℕ) (hcount : original.length = base.length)
    (heach : ∀ group ∈ groups, Grouped base group)
    (hordered : groups.Pairwise (fun older newer => older.endLine ≤ newer.startLine))
    (hlow : ∀ group ∈ groups, line ≤ group.startLine)
    (hdone : ∀ r ∈ done, r.stop ≤ starts base line)
    (hpositive : ∀ r ∈ done++groups.flatMap Group.replacements, 0 < r.length)
    (hbefore : (groups.flatMap Group.replacements).Pairwise Before) :
    rewriteGroups original base.flatten (lineBounds 0 base) groups line =
      (List.range' line (base.length-line)).flatMap
        (lineOut original base (done++groups.flatMap Group.replacements)) := by
  induction groups generalizing done line with
  | nil =>
    have huntouched (k : ℕ) (hk : line ≤ k) : lineOut original base (done++[]) k =
        original[k]?.getD [] := by
      refine if_neg ?_
      rintro ⟨r,hr,_,hstop⟩
      have hend := hdone r (by simpa using hr)
      have hmono := starts_mono base line k hk
      omega
    rw [rewriteGroups, flatMap_nil, flatMap_congr (fun k hk =>
      huntouched k (mem_range'_1.mp hk).1), lines_flat_map,
      take_of_length_le (by rw [length_drop]; omega)]
  | cons group groups ih =>
    obtain ⟨hnewer,hordered⟩ := pairwise_cons.mp hordered
    have hgroup := heach group (by simp)
    obtain ⟨hwidth,hend⟩ := hgroup.bounded
    have hfirst := hlow group (by simp)
    rw [flatMap_cons] at hpositive hbefore ⊢
    obtain ⟨hown,hlater,_⟩ := pairwise_append.mp hbefore
    have hrest : ∀ r ∈ groups.flatMap Group.replacements, starts base group.endLine ≤ r.index := by
      intro r hr
      obtain ⟨other,hother,hmem⟩ := mem_flatMap.mp hr
      have hinside := ((heach other (by simp [hother])).inside r hmem).1
      exact Nat.le_trans (starts_mono base _ _ (hnewer other hother)) hinside
    have hih := ih (done++group.replacements) group.endLine
      (fun other hother => heach other (by simp [hother])) hordered hnewer (by
        intro r hr
        rcases mem_append.mp hr with hmem | hmem
        · exact Nat.le_trans (hdone r hmem) (starts_mono base _ _ (by omega))
        · exact (hgroup.inside r hmem).2)
      (by simpa [or_assoc] using hpositive) hlater
    have hstart := line_bounds_get 0 base group.startLine (by omega)
    have hstop := line_bounds_get 0 base (group.endLine-1) (by omega)
    rw [Nat.sub_add_cancel (by omega)] at hstop
    have hbetween : (List.range' line (group.startLine-line)).flatMap (lineOut original base
        (done++(group.replacements++groups.flatMap Group.replacements))) =
        ((original.drop line).take (group.startLine-line)).flatten := by
      rw [← lines_flat_map]
      refine flatMap_congr (fun k hk => ?_)
      obtain ⟨hlow,hhigh⟩ := mem_range'_1.mp hk
      exact line_out_between hgroup hdone hrest hlow (by omega)
    rw [rewriteGroups, hstart, hstop, hih, range_split hfirst (by omega) hend, flatMap_append,
      flatMap_append, hbetween,
      line_out_run hgroup hfirst hdone hrest hpositive hown]
    simp

/-- Replacements that are ordered and lie inside the loose form rewrite it line by line. -/
theorem preserving_splice {original base : Text} {regions : List (Region Char)}
    (hcount : (splitInclusive original).length = (splitInclusive base).length)
    (hbefore : regions.Pairwise Before)
    (hbounds : ∀ r ∈ regions, 0 < r.length ∧ r.stop ≤ base.length) :
    applyReplacementsPreservingUnchangedLines original base regions =
      .ok (spliceLines (splitInclusive original) (splitInclusive base) regions) := by
  have hsorted : regions.Pairwise byIndex := hbefore.imp (fun {a b} h => by
    simp only [Before, Region.stop, byIndex] at *
    omega)
  have hflat := split_inclusive_flatten base
  obtain ⟨groups,hgroups,hall,heach,hordered⟩ := group_replacements_gathered (splitInclusive base)
    regions [] [] ⟨rfl,by simp,List.Pairwise.nil⟩ (by simpa using hsorted)
    (by rwa [hflat])
  rw [nil_append] at hall
  have hrewrite := rewrite_groups_splice [] 0 hcount (by simpa using heach)
    (pairwise_reverse.mpr hordered)
    (fun _ _ => Nat.zero_le _) (by simp)
    (by simpa [hall] using fun r hr => (hbounds r hr).1) (by rwa [hall])
  have hlength : ¬(splitInclusive original).length ≠
      (lineBounds 0 (splitInclusive base)).length := by
    rw [line_bounds_length]
    exact not_not_intro hcount
  rw [hflat, hall, Nat.sub_zero, ← List.range_eq_range', ← hcount] at hrewrite
  simp only [applyReplacementsPreservingUnchangedLines, if_neg hlength,
    List.Pairwise.insertionSort_eq hsorted, hgroups, hrewrite, spliceLines, nil_append]

end Maple.Tools

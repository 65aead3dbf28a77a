import Maple.Lib.Frames
import Maple.Lib.JsonText

/-!
# Server-sent event frames

A frame ends at the first of two delimiters. Its data is joined from the data lines; frames
without data are passed over.
-/

set_option autoImplicit false

namespace Maple.Streaming

open JsonText Frames List

def windowPosition (pattern : Bytes) : Bytes → Option ℕ
  | [] => none
  | byte::rest =>
    if pattern.isPrefixOf (byte::rest) then some 0 else (windowPosition pattern rest).map (·+1)

def findSseFrameBoundary (buffer : Bytes) : Option (ℕ × ℕ) :=
  match windowPosition [10, 10] buffer, windowPosition [13, 10, 13, 10] buffer with
  | some lf, some crlf => if lf < crlf then some (lf, 2) else some (crlf, 4)
  | none, some crlf => some (crlf, 4)
  | some lf, none => some (lf, 2)
  | none, none => none

def isAsciiWhitespace (byte : UInt8) : Bool := byte ∈ [9, 10, 12, 13, 32]

def stripPrefix (lead line : Bytes) : Option Bytes :=
  if lead.isPrefixOf line then some (line.drop lead.length) else none

def stripCarriageReturn (line : Bytes) : Bytes :=
  if line.getLast? = some 13 then line.dropLast else line

def splitLines : Bytes → List Bytes
  | [] => [[]]
  | byte::rest =>
    if byte = 10 then []::splitLines rest
    else
      match splitLines rest with
      | line::lines => (byte::line)::lines
      | [] => [[byte]]

def appendLine (data line : Bytes) : Bytes :=
  match stripPrefix [100, 97, 116, 97, 58] (stripCarriageReturn line) with
  | none => data
  | some value =>
    let value := (stripPrefix [32] value).getD value
    if data.isEmpty then data++value else data++[10]++value

/-- The data of one frame; a frame of white space is not looked at. -/
def frameData (frame : Bytes) : Bytes :=
  if frame.all isAsciiWhitespace then [] else (splitLines frame).foldl appendLine []

/-- The data of the next frame that has any, and what is left of the buffer. -/
def extractLoop : ℕ → Bytes → Option Bytes × Bytes
  | 0, buffer => (none, buffer)
  | n+1, buffer =>
    match findSseFrameBoundary buffer with
    | none => (none, buffer)
    | some (frameEnd, delimiterLen) =>
      let data := frameData (buffer.take frameEnd)
      let rest := buffer.drop (frameEnd+delimiterLen)
      if data.isEmpty then extractLoop n rest else (some data, rest)

def extractSseFrame (buffer : Bytes) : Option Bytes × Bytes := extractLoop buffer.length buffer

section Search

variable {pattern buffer : Bytes}

theorem windowPosition_some (i : ℕ) (h : windowPosition pattern buffer = some i) :
    pattern <+: buffer.drop i ∧ ∀ j < i, ¬pattern <+: buffer.drop j := by
  induction buffer generalizing i with
  | nil => cases h
  | cons byte rest ih =>
    by_cases hp : pattern.isPrefixOf (byte::rest) = true
    · simp only [windowPosition, hp, if_true, Option.some.injEq] at h
      subst h
      refine ⟨?_,fun j hj => absurd hj (by omega)⟩
      exact isPrefixOf_iff_prefix.mp hp
    simp only [windowPosition, hp, Bool.false_eq_true, if_false] at h
    obtain ⟨k,hk,rfl⟩ := Option.map_eq_some_iff.mp h
    obtain ⟨hat,hbefore⟩ := ih k hk
    refine ⟨by simpa using hat,fun j hj => ?_⟩
    cases j with
    | zero => exact fun hlead => hp <| isPrefixOf_iff_prefix.mpr hlead
    | succ j => simpa using hbefore j (by omega)

theorem windowPosition_none (hpattern : pattern ≠ []) (h : windowPosition pattern buffer = none)
    (j : ℕ) : ¬pattern <+: buffer.drop j := by
  induction buffer generalizing j with
  | nil => simpa using hpattern
  | cons byte rest ih =>
    by_cases hp : pattern.isPrefixOf (byte::rest) = true
    · simp [windowPosition, hp] at h
    · simp only [windowPosition, hp, Bool.false_eq_true, if_false, Option.map_eq_none_iff] at h
      cases j with
      | zero => exact fun hlead => hp <| isPrefixOf_iff_prefix.mpr hlead
      | succ j => simpa using ih h j

/-- A window that lies in the buffer is there whatever follows. -/
theorem window_append (pattern xs ys : Bytes) (i : ℕ) (h : i+pattern.length ≤ xs.length) :
    pattern <+: (xs++ys).drop i ↔ pattern <+: xs.drop i := by
  rw [drop_append_of_le_length (by omega)]
  constructor
  · intro hlead
    exact prefix_of_prefix_length_le hlead (prefix_append _ _) (by simp; omega)
  · intro hlead
    exact hlead.trans (prefix_append _ _)

variable {i : ℕ}

theorem window_fits (hpattern : pattern ≠ []) (h : pattern <+: buffer.drop i) :
    i+pattern.length ≤ buffer.length := by
  have hle := h.length_le
  have hpos := length_pos_iff.mpr hpattern
  rw [length_drop] at hle
  omega

/-- A first occurrence is settled by what it takes to see it. -/
theorem windowPosition_of (hpattern : pattern ≠ []) (hat : pattern <+: buffer.drop i)
    (hbefore : ∀ j < i, ¬pattern <+: buffer.drop j) : windowPosition pattern buffer = some i := by
  cases h : windowPosition pattern buffer with
  | none => exact absurd hat (windowPosition_none hpattern h i)
  | some k =>
    obtain ⟨hk,hbeforek⟩ := windowPosition_some k h
    rcases Nat.lt_trichotomy k i with hlt | rfl | hgt
    · exact absurd hk (hbefore k hlt)
    · rfl
    · exact absurd hat (hbeforek i hgt)

variable {xs : Bytes}

theorem windowPosition_extend (ys : Bytes) (hpattern : pattern ≠ [])
    (h : windowPosition pattern xs = some i) : windowPosition pattern (xs++ys) = some i := by
  obtain ⟨hat,hbefore⟩ := windowPosition_some i h
  have hfits := window_fits hpattern hat
  refine windowPosition_of hpattern ((window_append pattern xs ys i hfits).mpr hat) ?_
  intro j hj hlead
  exact hbefore j hj ((window_append pattern xs ys j (by omega)).mp hlead)

theorem windowPosition_restrict {ys : Bytes} (hpattern : pattern ≠ [])
    (h : windowPosition pattern (xs++ys) = some i) (hfits : i+pattern.length ≤ xs.length) :
    windowPosition pattern xs = some i := by
  obtain ⟨hat,hbefore⟩ := windowPosition_some i h
  refine windowPosition_of hpattern ((window_append pattern xs ys i hfits).mp hat) ?_
  intro j hj hlead
  exact hbefore j hj ((window_append pattern xs ys j (by omega)).mpr hlead)

theorem lf_window (h : [10, 10] <+: buffer.drop i) :
    buffer[i]? = some 10 ∧ buffer[i+1]? = some 10 := by
  obtain ⟨rest,hrest⟩ := h
  have hget (k : ℕ) : buffer[i+k]? = ([10, 10]++rest)[k]? := by rw [hrest, List.getElem?_drop]
  exact ⟨hget 0,hget 1⟩

theorem crlf_window (h : [13, 10, 13, 10] <+: buffer.drop i) :
    buffer[i]? = some 13 ∧ buffer[i+2]? = some 13 := by
  obtain ⟨rest,hrest⟩ := h
  have hget (k : ℕ) : buffer[i+k]? = ([13, 10, 13, 10]++rest)[k]? := by
    rw [hrest, List.getElem?_drop]
  exact ⟨hget 0,hget 2⟩

/-- Of two occurrences, the long delimiter is not at the short one and not just before it:
the third of its bytes would be the second of the short one. -/
theorem delimiters_apart {lf crlf : ℕ} (hlf : [10, 10] <+: buffer.drop lf)
    (hcrlf : [13, 10, 13, 10] <+: buffer.drop crlf) : crlf ≠ lf ∧ crlf+1 ≠ lf := by
  obtain ⟨hfirst,hsecond⟩ := lf_window hlf
  obtain ⟨hopen,hthird⟩ := crlf_window hcrlf
  constructor
  · rintro rfl
    rw [hfirst] at hopen
    exact absurd hopen (by decide)
  · rintro rfl
    rw [hsecond] at hthird
    exact absurd hthird (by decide)

variable {a : ℕ}

/-- A boundary is the first short or the first long delimiter, whichever comes earlier. -/
theorem boundary_cases {d : ℕ} (h : findSseFrameBoundary buffer = some (a, d)) :
    (d = 2 ∧ windowPosition [10, 10] buffer = some a ∧
      ∀ crlf, windowPosition [13, 10, 13, 10] buffer = some crlf → a < crlf) ∨
    (d = 4 ∧ windowPosition [13, 10, 13, 10] buffer = some a ∧
      ∀ lf, windowPosition [10, 10] buffer = some lf → a ≤ lf) := by
  cases hlf : windowPosition [10, 10] buffer with
  | none =>
    cases hcrlf : windowPosition [13, 10, 13, 10] buffer with
    | none => simp [findSseFrameBoundary, hlf, hcrlf] at h
    | some crlf =>
      simp only [findSseFrameBoundary, hlf, hcrlf, Option.some.injEq, Prod.mk.injEq] at h
      obtain ⟨rfl,rfl⟩ := h
      exact .inr ⟨rfl,rfl,fun _ hl => nomatch hl⟩
  | some lf =>
    cases hcrlf : windowPosition [13, 10, 13, 10] buffer with
    | none =>
      simp only [findSseFrameBoundary, hlf, hcrlf, Option.some.injEq, Prod.mk.injEq] at h
      obtain ⟨rfl,rfl⟩ := h
      exact .inl ⟨rfl,rfl,fun _ hc => nomatch hc⟩
    | some crlf =>
      by_cases hlt : lf < crlf
      · simp only [findSseFrameBoundary, hlf, hcrlf, hlt, if_true, Option.some.injEq,
          Prod.mk.injEq] at h
        obtain ⟨rfl,rfl⟩ := h
        exact .inl ⟨rfl,rfl,fun _ hc => Option.some.inj hc ▸ hlt⟩
      · simp only [findSseFrameBoundary, hlf, hcrlf, hlt, if_false, Option.some.injEq,
          Prod.mk.injEq] at h
        obtain ⟨rfl,rfl⟩ := h
        exact .inr ⟨rfl,rfl,fun _ hl => Option.some.inj hl ▸ Nat.le_of_not_lt hlt⟩

theorem boundary_lf (h : windowPosition [10, 10] buffer = some a)
    (hcrlf : ∀ crlf, windowPosition [13, 10, 13, 10] buffer = some crlf → a < crlf) :
    findSseFrameBoundary buffer = some (a, 2) := by
  cases hc : windowPosition [13, 10, 13, 10] buffer with
  | none => simp only [findSseFrameBoundary, h, hc]
  | some crlf => simp only [findSseFrameBoundary, h, hc, hcrlf crlf hc, if_true]

theorem boundary_crlf (h : windowPosition [13, 10, 13, 10] buffer = some a)
    (hlf : ∀ lf, windowPosition [10, 10] buffer = some lf → a ≤ lf) :
    findSseFrameBoundary buffer = some (a, 4) := by
  cases hl : windowPosition [10, 10] buffer with
  | none => simp only [findSseFrameBoundary, h, hl]
  | some lf =>
    have hge := hlf lf hl
    simp only [findSseFrameBoundary, h, hl, show ¬lf < a by omega, if_false]

theorem boundary_fits (buffer : Bytes) (a d : ℕ) (h : findSseFrameBoundary buffer = some (a, d)) :
    a+d ≤ buffer.length := by
  obtain ⟨rfl,hw,-⟩ | ⟨rfl,hw,-⟩ := boundary_cases h
  · exact window_fits (by simp) (windowPosition_some _ hw).1
  · exact window_fits (by simp) (windowPosition_some _ hw).1

theorem boundary_extend (ys : Bytes) {d : ℕ} (h : findSseFrameBoundary xs = some (a, d)) :
    findSseFrameBoundary (xs++ys) = some (a, d) := by
  obtain ⟨rfl,hw,hother⟩ | ⟨rfl,hw,hother⟩ := boundary_cases h
  · have hat := (windowPosition_some _ hw).1
    have hfits := window_fits (by simp) hat
    have hext := windowPosition_extend ys (by simp) hw
    refine boundary_lf hext (fun crlf hc => ?_)
    by_cases hin : crlf+4 ≤ xs.length
    · exact hother crlf (windowPosition_restrict (by simp) hc hin)
    · -- a long delimiter that needs the new bytes starts at most one byte before the short one
      have hapart := delimiters_apart (windowPosition_some _ hext).1 (windowPosition_some _ hc).1
      simp only [length_cons, length_nil] at hfits
      omega
  · have hfits := window_fits (by simp) (windowPosition_some _ hw).1
    refine boundary_crlf (windowPosition_extend ys (by simp) hw) (fun lf hl => ?_)
    by_cases hin : lf+2 ≤ xs.length
    · exact hother lf (windowPosition_restrict (by simp) hl hin)
    · simp only [length_cons, length_nil] at hfits
      omega

theorem boundary_restrict (xs ys : Bytes) (a d : ℕ)
    (h : findSseFrameBoundary (xs++ys) = some (a, d)) (hfits : a+d ≤ xs.length) :
    findSseFrameBoundary xs = some (a, d) := by
  obtain ⟨rfl,hw,hother⟩ | ⟨rfl,hw,hother⟩ := boundary_cases h
  · exact boundary_lf (windowPosition_restrict (by simp) hw hfits)
      (fun crlf hc => hother crlf (windowPosition_extend ys (by simp) hc))
  · exact boundary_crlf (windowPosition_restrict (by simp) hw hfits)
      (fun lf hl => hother lf (windowPosition_extend ys (by simp) hl))

def sseBoundary : Boundary UInt8 where
  find := findSseFrameBoundary
  pos := by
    intro xs a d h
    obtain ⟨rfl,-⟩ | ⟨rfl,-⟩ := boundary_cases h <;> omega
  fits := boundary_fits
  extend := fun xs ys found h => boundary_extend ys h
  restrict := boundary_restrict

end Search

end Maple.Streaming

import Mathlib.Data.Nat.Digits.Defs
import Maple.Lib.Delimited
import Maple.Lib.Text

/-!
# Compact JSON text

Strings, numbers and arrays as a compact serializer writes them. In a string the quote,
the backslash and the control bytes are escaped, and every other byte stands for itself.
-/

set_option autoImplicit false

namespace Maple.JsonText

open Delimited Text List

abbrev Bytes := List UInt8

def hexDigit (nibble : ℕ) : UInt8 :=
  if nibble < 10 then UInt8.ofNat (48+nibble) else UInt8.ofNat (87+nibble)

def shortEscape (byte : UInt8) : Option UInt8 :=
  if byte = 34 then some 34
  else if byte = 92 then some 92
  else if byte = 8 then some 98
  else if byte = 9 then some 116
  else if byte = 10 then some 110
  else if byte = 12 then some 102
  else if byte = 13 then some 114
  else none

def escapeByte (byte : UInt8) : Bytes :=
  match shortEscape byte with
  | some letter => [92, letter]
  | none =>
    if byte.toNat < 32 then [92, 117, 48, 48, hexDigit (byte.toNat/16), hexDigit (byte.toNat%16)]
    else [byte]

def quoted (bytes : Bytes) : Bytes := [34]++(bytes.flatMap escapeByte++[34])

def stringText (text : String) : Bytes := quoted (utf8 text)

def decimal (number : ℕ) : List ℕ :=
  if number = 0 then [0] else (Nat.digits 10 number).reverse

def numberText (number : ℕ) : Bytes := (decimal number).map (fun digit => UInt8.ofNat (48+digit))

def arrayText {α : Type} (item : α → Bytes) : List α → Bytes
  | [] => [91, 93]
  | first::rest => [91]++item first++(rest.flatMap (fun next => [44]++item next)++[93])

def unhex (digit : UInt8) : ℕ := if digit.toNat < 58 then digit.toNat-48 else digit.toNat-87

def unescape (letter : UInt8) : UInt8 :=
  if letter = 98 then 8
  else if letter = 116 then 9
  else if letter = 110 then 10
  else if letter = 102 then 12
  else if letter = 114 then 13
  else letter

def firstByte (text : Bytes) : Option UInt8 :=
  match text with
  | [] => none
  | byte::rest =>
    if byte ≠ 92 then some byte
    else
      match rest with
      | [] => none
      | letter::rest =>
        if letter ≠ 117 then some (unescape letter)
        else some (UInt8.ofNat (unhex (rest.getD 2 0)*16+unhex (rest.getD 3 0)))

theorem unhex_digits : ∀ number < 32,
    unhex (hexDigit (number/16))*16+unhex (hexDigit (number%16)) = number := by decide

theorem short_escape_some {byte letter : UInt8} (h : shortEscape byte = some letter) :
    letter ≠ 117 ∧ unescape letter = byte := by
  unfold shortEscape at h
  split_ifs at h with h34 h92 h8 h9 h10 h12 h13 <;> (cases h; subst byte; decide)

theorem short_escape_none {byte : UInt8} (h : shortEscape byte = none) : byte ≠ 92 := by
  intro hbyte
  subst hbyte
  cases h

variable (byte : UInt8)

theorem first_escaped (rest : Bytes) : firstByte (escapeByte byte++rest) = some byte := by
  unfold escapeByte
  cases hshort : shortEscape byte with
  | some letter =>
    obtain ⟨hplain,hletter⟩ := short_escape_some hshort
    change (if letter ≠ 117 then some (unescape letter) else _) = some byte
    rw [if_pos hplain, hletter]
  | none =>
    dsimp only
    split_ifs with hcontrol
    · change some (UInt8.ofNat (unhex (hexDigit (byte.toNat/16))*16+
        unhex (hexDigit (byte.toNat%16)))) = some byte
      rw [unhex_digits byte.toNat hcontrol, UInt8.ofNat_toNat]
    · change (if byte ≠ 92 then some byte else _) = some byte
      rw [if_pos (short_escape_none hshort)]

theorem escape_delimited : SelfDelimiting escapeByte := by
  intro a b rest rest' heq
  have hsame : a = b := by
    have hfirst := congrArg firstByte heq
    rw [first_escaped, first_escaped] at hfirst
    exact Option.some.inj hfirst
  subst hsame
  exact ⟨rfl,append_cancel_left heq⟩

theorem escape_not_quote (rest rest' : Bytes) : escapeByte byte++rest ≠ 34::rest' := by
  intro heq
  have hfirst := congrArg firstByte heq
  rw [first_escaped] at hfirst
  obtain rfl : byte = 34 := Option.some.inj hfirst
  cases heq

theorem escape_length : 1 ≤ (escapeByte byte).length := by
  unfold escapeByte
  split
  · simp
  · split_ifs <;> simp

theorem string_delimited : SelfDelimiting stringText :=
  delimited_comap (delimited_literal _ (delimited_until escape_delimited 34 escape_not_quote))
    utf8 utf8_injective

theorem string_length (text : String) : (utf8 text).length ≤ (stringText text).length := by
  have hescaped (bytes : Bytes) : bytes.length ≤ (bytes.flatMap escapeByte).length := by
    induction bytes with
    | nil => rfl
    | cons byte bytes ih =>
      have hbyte := escape_length byte
      rw [flatMap_cons, length_append, length_cons]
      omega
  have h := hescaped (utf8 text)
  simp only [stringText, quoted, length_append, length_singleton]
  omega

theorem decimal_injective (left right : ℕ) (h : decimal left = decimal right) : left = right := by
  have hvalue (number : ℕ) : Nat.ofDigits 10 (decimal number).reverse = number := by
    unfold decimal
    split_ifs with hzero
    · rw [hzero]
      rfl
    · rw [reverse_reverse, Nat.ofDigits_digits]
  rw [← hvalue left, h, hvalue right]

theorem decimal_digits (number : ℕ) : ∀ digit ∈ decimal number, digit < 10 := by
  intro digit hdigit
  unfold decimal at hdigit
  split_ifs at hdigit with hzero
  · rw [mem_singleton.mp hdigit]
    decide
  · exact Nat.digits_lt_base (by decide) (mem_reverse.mp hdigit)

/-- A number is read up to the comma that follows it. -/
theorem number_delimited : SelfDelimiting (fun number => numberText number++[44]) := by
  have hdigit : SelfDelimiting (fun digit : Fin 10 => [UInt8.ofNat (48+digit.val)]) :=
    delimited_fixed 1 _ (fun _ => rfl) (by decide)
  have hlist := delimited_until hdigit 44 (by
    intro digit rest rest' heq
    have hother : ∀ digit : Fin 10, UInt8.ofNat (48+digit.val) ≠ 44 := by decide
    exact hother digit (head_eq_of_cons_eq heq))
  let digits (number : ℕ) : List (Fin 10) :=
    (decimal number).attach.map (fun digit => ⟨digit.1,decimal_digits number digit.1 digit.2⟩)
  have hvalues (number : ℕ) : (digits number).map Fin.val = decimal number := by
    simp [digits]
  have htext (number : ℕ) : numberText number =
      (digits number).flatMap (fun digit => [UInt8.ofNat (48+digit.val)]) := by
    rw [numberText, ← hvalues, map_map, map_eq_flatMap]
    rfl
  intro a b rest rest' heq
  dsimp only at heq
  rw [htext, htext] at heq
  obtain ⟨hsame,hrest⟩ := hlist (digits a) (digits b) rest rest' heq
  refine ⟨decimal_injective a b ?_,hrest⟩
  rw [← hvalues, hsame, hvalues]

theorem array_delimited {α : Type} {item : α → Bytes} (h : SelfDelimiting item)
    (hbracket : ∀ a rest rest', item a++rest ≠ 93::rest') : SelfDelimiting (arrayText item) := by
  have hrest : SelfDelimiting
      (fun items : List α => items.flatMap (fun next => [44]++item next)++[93]) :=
    delimited_until (delimited_literal [44] h) 93 (fun _ _ _ heq => by simp at heq)
  intro items others rest rest' heq
  cases items with
  | nil =>
    cases others with
    | nil => exact ⟨rfl,by simpa [arrayText] using heq⟩
    | cons b others =>
      simp only [arrayText, cons_append, nil_append, append_assoc, List.cons.injEq, true_and] at heq
      exact absurd heq.symm (hbracket b _ _)
  | cons a items =>
    cases others with
    | nil =>
      simp only [arrayText, cons_append, nil_append, append_assoc, List.cons.injEq, true_and] at heq
      exact absurd heq (hbracket a _ _)
    | cons b others =>
      have hopened : item a++(items.flatMap (fun next => [44]++item next)++[93]++rest) =
          item b++(others.flatMap (fun next => [44]++item next)++[93]++rest') := by
        simpa [arrayText] using heq
      obtain ⟨hfirst,htail⟩ := h a b _ _ hopened
      obtain ⟨hitems,hlast⟩ := hrest items others rest rest' htail
      exact ⟨congrArg₂ List.cons hfirst hitems,hlast⟩

end Maple.JsonText

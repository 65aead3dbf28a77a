import Mathlib.Data.List.Basic
import Maple.Lib.BigEndian

/-!
# Self-delimiting encodings

An encoding is self-delimiting if what follows an encoded value cannot change how it is
read: two texts that agree and start with encoded values start with the same value and
go on the same way. Sequences of such values, without any separator, are then readable.
-/

set_option autoImplicit false

namespace Maple.Delimited

open BigEndian List

variable {α β γ σ : Type}

def SelfDelimiting (encode : α → List σ) : Prop :=
  ∀ a b rest rest', encode a++rest = encode b++rest' → a = b ∧ rest = rest'

theorem injective_of_delimited {encode : α → List σ} (h : SelfDelimiting encode) (a b : α)
    (heq : encode a = encode b) : a = b :=
  (h a b [] [] (by rw [heq])).1

theorem delimited_comap {encode : α → List σ} (h : SelfDelimiting encode) (f : β → α)
    (hf : ∀ a b, f a = f b → a = b) : SelfDelimiting (fun b => encode (f b)) := by
  intro a b rest rest' heq
  obtain ⟨hsame,hrest⟩ := h (f a) (f b) rest rest' heq
  exact ⟨hf a b hsame,hrest⟩

theorem delimited_append {left : α → List σ} {right : β → List σ} (hleft : SelfDelimiting left)
    (hright : SelfDelimiting right) :
    SelfDelimiting (fun pair : α × β => left pair.1++right pair.2) := by
  intro a b rest rest' heq
  rw [append_assoc, append_assoc] at heq
  obtain ⟨hfirst,htail⟩ := hleft a.1 b.1 _ _ heq
  obtain ⟨hsecond,hrest⟩ := hright a.2 b.2 rest rest' htail
  exact ⟨Prod.ext hfirst hsecond,hrest⟩

theorem delimited_literal (text : List σ) {encode : α → List σ} (h : SelfDelimiting encode) :
    SelfDelimiting (fun a => text++encode a) := by
  intro a b rest rest' heq
  rw [append_assoc, append_assoc] at heq
  exact h a b rest rest' (append_cancel_left heq)

theorem delimited_closed (text : List σ) {encode : α → List σ} (h : SelfDelimiting encode) :
    SelfDelimiting (fun a => encode a++text) := by
  intro a b rest rest' heq
  rw [append_assoc, append_assoc] at heq
  obtain ⟨hsame,htail⟩ := h a b _ _ heq
  exact ⟨hsame,append_cancel_left htail⟩

theorem delimited_fixed (width : ℕ) (encode : α → List σ) (hwidth : ∀ a, (encode a).length = width)
    (h : ∀ a b, encode a = encode b → a = b) : SelfDelimiting encode := by
  intro a b rest rest' heq
  obtain ⟨hsame,hrest⟩ := append_inj heq ((hwidth a).trans (hwidth b).symm)
  exact ⟨h a b hsame,hrest⟩

/-- A sequence ended by a symbol that starts no item. -/
theorem delimited_until {encode : α → List σ} (h : SelfDelimiting encode) (stop : σ)
    (hstop : ∀ a rest rest', encode a++rest ≠ stop::rest') :
    SelfDelimiting (fun items : List α => items.flatMap encode++[stop]) := by
  intro items
  induction items with
  | nil =>
    intro others rest rest' heq
    cases others with
    | nil => exact ⟨rfl,tail_eq_of_cons_eq heq⟩
    | cons b others =>
      simp only [flatMap_nil, flatMap_cons, append_assoc, nil_append, singleton_append] at heq
      exact absurd heq.symm (hstop b _ _)
  | cons a items ih =>
    intro others rest rest' heq
    cases others with
    | nil =>
      simp only [flatMap_nil, flatMap_cons, append_assoc, nil_append, singleton_append] at heq
      exact absurd heq (hstop a _ _)
    | cons b others =>
      simp only [flatMap_cons, append_assoc] at heq
      obtain ⟨hsame,htail⟩ := h a b _ _ heq
      simp only [← append_assoc] at htail
      obtain ⟨hitems,hrest⟩ := ih others rest rest' htail
      exact ⟨congrArg₂ List.cons hsame hitems,hrest⟩

/-- A sequence that fills a text needs no mark at its end. -/
theorem sequence_injective {encode : α → List σ} (h : SelfDelimiting encode)
    (hsome : ∀ a, encode a ≠ []) (items others : List α)
    (heq : items.flatMap encode = others.flatMap encode) : items = others := by
  induction items generalizing others with
  | nil =>
    cases others with
    | nil => rfl
    | cons b others => exact absurd (append_eq_nil_iff.mp heq.symm).1 (hsome b)
  | cons a items ih =>
    cases others with
    | nil => exact absurd (append_eq_nil_iff.mp heq).1 (hsome a)
    | cons b others =>
      obtain ⟨hsame,htail⟩ := h a b _ _ heq
      exact congrArg₂ List.cons hsame (ih others htail)

/-- Bytes behind their own length, written in a fixed width that can hold it. -/
structure Block (width : ℕ) where
  bytes : List UInt8
  fits : bytes.length < 256^width

def Block.encode {width : ℕ} (block : Block width) : List UInt8 :=
  toBytes width block.bytes.length++block.bytes

theorem delimited_block (width : ℕ) : SelfDelimiting (@Block.encode width) := by
  intro a b rest rest' heq
  unfold Block.encode at heq
  rw [append_assoc, append_assoc] at heq
  obtain ⟨hlengths,htail⟩ := append_inj heq ((toBytes_length _ _).trans (toBytes_length _ _).symm)
  have hlength := toBytes_injective a.fits b.fits hlengths
  obtain ⟨hbytes,hrest⟩ := append_inj htail hlength
  obtain ⟨left,_⟩ := a
  obtain ⟨right,_⟩ := b
  cases hbytes
  exact ⟨rfl,hrest⟩

end Maple.Delimited

import Maple.Lib.Delimited
import Maple.Lib.Text

/-!
# Canonical bytes

Facts that are authenticated or bound to a ciphertext are written as a sequence of typed
fields, each behind its tag and its length. A field longer than its length can say is a
panic. Two sequences of fields have the same bytes only if they are the same.
-/

set_option autoImplicit false

namespace Maple.Secrets

open BigEndian Delimited Text

abbrev Bytes := List UInt8

abbrev Uuid := Vector UInt8 16

inductive Field where
  | str (value : String)
  | bytes (value : Bytes)
  | i16 (value : Int16)
  | i32 (value : Int32)
  | uuid (value : Uuid)
  deriving DecidableEq

def Field.tag : Field → UInt8
  | .str _ => 115
  | .bytes _ => 98
  | .i16 _ => 105
  | .i32 _ => 73
  | .uuid _ => 117

def Field.value : Field → Bytes
  | .str value => utf8 value
  | .bytes value => value
  | .i16 value => toBytes 2 value.toBitVec.toNat
  | .i32 value => toBytes 4 value.toBitVec.toNat
  | .uuid value => value.toList

structure CanonicalBytes where
  bytes : Bytes

def CanonicalBytes.appendField (canonical : CanonicalBytes) (tag : UInt8) (value : Bytes) :
    Option CanonicalBytes :=
  if value.length < 2^32 then some ⟨canonical.bytes++tag::toBytes 4 value.length++value⟩ else none

/-- The appending methods differ in the tag and the bytes of the value only. -/
def CanonicalBytes.append (canonical : CanonicalBytes) (field : Field) : Option CanonicalBytes :=
  canonical.appendField field.tag field.value

def CanonicalBytes.new (domain : String) : Option CanonicalBytes :=
  CanonicalBytes.append ⟨[]⟩ (.str domain)

def CanonicalBytes.appendAll : CanonicalBytes → List Field → Option CanonicalBytes
  | canonical, [] => some canonical
  | canonical, field::fields => (canonical.append field).bind (fun next => next.appendAll fields)

def canonical (domain : String) (fields : List Field) : Option Bytes :=
  ((CanonicalBytes.new domain).bind (fun facts => facts.appendAll fields)).map CanonicalBytes.bytes

theorem field_eq {left right : Field} (htag : left.tag = right.tag)
    (hvalue : left.value = right.value) : left = right := by
  cases left with
  | str a =>
    cases right with
    | str b => rw [utf8_injective a b hvalue]
    | _ => simp [Field.tag] at htag
  | bytes a =>
    cases right with
    | bytes b => rw [show a = b from hvalue]
    | _ => simp [Field.tag] at htag
  | i16 a =>
    cases right with
    | i16 b =>
      have hnat := toBytes_injective a.toBitVec.isLt b.toBitVec.isLt hvalue
      rw [Int16.toBitVec_inj.mp (BitVec.eq_of_toNat_eq hnat)]
    | _ => simp [Field.tag] at htag
  | i32 a =>
    cases right with
    | i32 b =>
      have hnat := toBytes_injective a.toBitVec.isLt b.toBitVec.isLt hvalue
      rw [Int32.toBitVec_inj.mp (BitVec.eq_of_toNat_eq hnat)]
    | _ => simp [Field.tag] at htag
  | uuid a =>
    cases right with
    | uuid b => rw [Vector.toList_inj.mp hvalue]
    | _ => simp [Field.tag] at htag

structure Fitting where
  field : Field
  fits : field.value.length < 256^4

def Fitting.encode (fitting : Fitting) : Bytes :=
  [fitting.field.tag]++(⟨fitting.field.value, fitting.fits⟩ : Block 4).encode

theorem fitting_delimited : SelfDelimiting Fitting.encode := by
  have hparts : SelfDelimiting (fun pair : UInt8 × Block 4 => [pair.1]++pair.2.encode) :=
    delimited_append (delimited_fixed 1 _ (fun _ => rfl) (fun _ _ h => List.head_eq_of_cons_eq h))
      (delimited_block 4)
  refine delimited_comap hparts
    (fun fitting : Fitting => (fitting.field.tag, ⟨fitting.field.value,fitting.fits⟩))
    (fun left right h => ?_)
  obtain ⟨htag,hblock⟩ := Prod.ext_iff.mp h
  have hfield := field_eq htag (congrArg Block.bytes hblock)
  obtain ⟨a,_⟩ := left
  obtain ⟨b,_⟩ := right
  cases hfield
  rfl

/-- A finished sequence has fitting fields only, and its bytes are theirs in turn. -/
theorem append_all_bytes (canonical : CanonicalBytes) {last : CanonicalBytes} {fields : List Field}
    (h : canonical.appendAll fields = some last) :
    ∃ fitting : List Fitting, fitting.map Fitting.field = fields ∧
      last.bytes = canonical.bytes++fitting.flatMap Fitting.encode := by
  induction fields generalizing canonical with
  | nil =>
    cases h
    exact ⟨[],rfl,by simp⟩
  | cons field fields ih =>
    obtain ⟨next,hnext,hrest⟩ := Option.bind_eq_some_iff.mp h
    unfold CanonicalBytes.append CanonicalBytes.appendField at hnext
    split_ifs at hnext with hfits
    cases hnext
    obtain ⟨fitting,hfields,hbytes⟩ := ih _ hrest
    refine ⟨⟨field,hfits⟩::fitting,by rw [List.map_cons, hfields],?_⟩
    rw [hbytes, List.flatMap_cons]
    simp [Fitting.encode, Block.encode]

theorem fields_injective (left right : List Field) (a b : CanonicalBytes)
    (hleft : CanonicalBytes.appendAll ⟨[]⟩ left = some a)
    (hright : CanonicalBytes.appendAll ⟨[]⟩ right = some b) (h : a.bytes = b.bytes) :
    left = right := by
  obtain ⟨first,hfirst,ha⟩ := append_all_bytes _ hleft
  obtain ⟨second,hsecond,hb⟩ := append_all_bytes _ hright
  have hsame : first = second := by
    refine sequence_injective fitting_delimited (fun _ hnil => ?_) first second ?_
    · cases hnil
    · simpa [ha, hb] using h
  rw [← hfirst, ← hsecond, hsame]

theorem canonical_injective {domain other : String} {fields others : List Field} {bytes : Bytes}
    (h : canonical domain fields = some bytes) (h' : canonical other others = some bytes) :
    domain = other ∧ fields = others := by
  obtain ⟨a,ha,hbytes⟩ := Option.map_eq_some_iff.mp h
  obtain ⟨b,hb,hbytes'⟩ := Option.map_eq_some_iff.mp h'
  have hsame := fields_injective (.str domain::fields) (.str other::others) a b ha hb
    (hbytes.trans hbytes'.symm)
  simpa using hsame

end Maple.Secrets

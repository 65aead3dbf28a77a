import Mathlib
import Maple.Lib.JsonText
import Maple.Session.Entries

/-!
# JSON values: text, equality and places

The compact text of a value, equality up to the order of members, and replacement of
strings at pointers. Replacements at different places of a value are independent: they
distribute over its items and members.
-/

set_option autoImplicit false

namespace Maple.Timeline.Value

open Session.Entries Text JsonText

theorem json_induction {motive : Json → Prop} (null : motive .null)
    (bool : ∀ value, motive (.bool value)) (number : ∀ text, motive (.number text))
    (str : ∀ text, motive (.str text))
    (arr : ∀ items, (∀ item ∈ items, motive item) → motive (.arr items))
    (obj : ∀ members, (∀ member ∈ members, motive member.2) → motive (.obj members))
    (value : Json) : motive value :=
  @Json.rec motive (fun items => ∀ item ∈ items, motive item)
    (fun members => ∀ member ∈ members, motive member.2) (fun member => motive member.2)
    null bool number str arr obj (by simp) (by simp_all) (by simp) (by simp_all)
    (fun _ _ h => h) value

mutual

def text : Json → Bytes
  | .null => utf8 "null"
  | .bool true => utf8 "true"
  | .bool false => utf8 "false"
  | .number digits => utf8 digits
  | .str content => stringText content
  | .arr items => [91]++([44].intercalate (itemTexts items)++[93])
  | .obj members => [123]++([44].intercalate (memberTexts members)++[125])

def itemTexts : List Json → List Bytes
  | [] => []
  | item::rest => text item::itemTexts rest

def memberTexts : List (String × Json) → List Bytes
  | [] => []
  | member::rest => memberText member::memberTexts rest

def memberText : String × Json → Bytes
  | (key, value) => stringText key++([58]++text value)

end

inductive Keyed : Json → Prop
  | null : Keyed .null
  | bool (value : Bool) : Keyed (.bool value)
  | number (digits : String) : Keyed (.number digits)
  | str (content : String) : Keyed (.str content)
  | arr (items : List Json) : (∀ item ∈ items, Keyed item) → Keyed (.arr items)
  | obj (members : List (String × Json)) : (members.map Prod.fst).Nodup →
      (∀ member ∈ members, Keyed member.2) → Keyed (.obj members)

/-- Equality of values, where objects are compared as maps. -/
inductive Same : Json → Json → Prop
  | null : Same .null .null
  | bool (value : Bool) : Same (.bool value) (.bool value)
  | number (digits : String) : Same (.number digits) (.number digits)
  | str (content : String) : Same (.str content) (.str content)
  | arr (left right : List Json) : left.length = right.length →
      (∀ (index : ℕ) (a b : Json), left[index]? = some a → right[index]? = some b → Same a b) →
      Same (.arr left) (.arr right)
  | obj (left right : List (String × Json)) (other : String → Json) :
      left.length = right.length →
      (∀ member ∈ left, (Json.obj right).get member.1 = some (other member.1)) →
      (∀ member ∈ left, Same member.2 (other member.1)) → Same (.obj left) (.obj right)

section Places

variable {members : List (String × Json)}

theorem get_member {member : String × Json} (hunique : (members.map Prod.fst).Nodup)
    (hmem : member ∈ members) : (Json.obj members).get member.1 = some member.2 := by
  induction members with
  | nil => simp at hmem
  | cons first rest ih =>
    rw [List.map_cons] at hunique
    obtain ⟨hfirst,hrest⟩ := List.nodup_cons.mp hunique
    rcases List.mem_cons.mp hmem with rfl | hmem
    · simp [Json.get]
    have hne : ¬first.1 = member.1 := by
      intro heq
      exact hfirst (heq ▸ List.mem_map_of_mem hmem)
    have hget := ih hrest hmem
    simp only [Json.get] at hget ⊢
    rw [List.find?_cons_of_neg (by simpa using hne)]
    exact hget

theorem keyed_items {items : List Json} (h : Keyed (.arr items)) : ∀ item ∈ items, Keyed item := by
  cases h with
  | arr _ hitems => exact hitems

theorem keyed_members (h : Keyed (.obj members)) :
    (members.map Prod.fst).Nodup ∧ ∀ member ∈ members, Keyed member.2 := by
  cases h with
  | obj _ hunique hmembers => exact ⟨hunique,hmembers⟩

end Places

end Maple.Timeline.Value

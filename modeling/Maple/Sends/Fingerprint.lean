import Maple.Timeline.Value
import Maple.Timeline.Item

/-!
# The fingerprint of a send's parameters

The hashed text is compact JSON with the members of every object in the order of their
keys. The text determines the value up to the order of members, whatever follows it.
-/

set_option autoImplicit false

namespace Maple.Sends

open Session.Entries Text JsonText Delimited Timeline.Value Timeline.Item List

def listTail (close : UInt8) : List Bytes → Bytes
  | [] => [close]
  | part::rest => [44]++(part++listTail close rest)

def listText (close : UInt8) : List Bytes → Bytes
  | [] => [close]
  | part::rest => part++listTail close rest

def sortKeys {β : Type} (members : List (String × β)) : List (String × β) :=
  members.insertionSort (fun a b => a.1 ≤ b.1)

def memberPart (member : String × Bytes) : Bytes := stringText member.1++([58]++member.2)

mutual

def canonical : Json → Bytes
  | .null => utf8 "null"
  | .bool true => utf8 "true"
  | .bool false => utf8 "false"
  | .number digits => utf8 digits
  | .str content => stringText content
  | .arr items => [91]++listText 93 (canonicalItems items)
  | .obj members => [123]++listText 125 ((sortKeys (canonicalMembers members)).map memberPart)

def canonicalItems : List Json → List Bytes
  | [] => []
  | item::rest => canonical item::canonicalItems rest

def canonicalMembers : List (String × Json) → List (String × Bytes)
  | [] => []
  | member::rest => canonicalMember member::canonicalMembers rest

def canonicalMember : String × Json → String × Bytes
  | (key, value) => (key, canonical value)

end

mutual

def depth : Json → ℕ
  | .arr items => itemsDepth items
  | .obj members => membersDepth members
  | _ => 0

def itemsDepth : List Json → ℕ
  | [] => 0
  | item::rest => max (depth item+1) (itemsDepth rest)

def membersDepth : List (String × Json) → ℕ
  | [] => 0
  | member::rest => max (memberDepth member) (membersDepth rest)

def memberDepth : String × Json → ℕ
  | (_, value) => depth value+1

end

mutual

/-- The bytes of the keys and of the values that are neither arrays nor objects. -/
def leafBytes : Json → ℕ
  | .arr items => itemsBytes items
  | .obj members => membersBytes members
  | value => (text value).length

def itemsBytes : List Json → ℕ
  | [] => 0
  | item::rest => leafBytes item+itemsBytes rest

def membersBytes : List (String × Json) → ℕ
  | [] => 0
  | member::rest => memberBytes member+membersBytes rest

def memberBytes : String × Json → ℕ
  | (key, value) => (stringText key).length+leafBytes value

end

def maxSendParametersBytes : ℕ := 160*1024*1024

def sendFingerprint {Digest : Type} (sha256 : Bytes → Digest) (parameters : Json) :
    Except StoreError Digest :=
  if 128 < depth parameters ∨ maxSendParametersBytes < leafBytes parameters then
    .error .invalidInput
  else .ok (sha256 (canonical parameters))

def numberByte (byte : UInt8) : Bool :=
  (48 ≤ byte && byte ≤ 57) || byte = 43 || byte = 45 || byte = 46 || byte = 69 || byte = 101

inductive Printed : Json → Prop
  | null : Printed .null
  | bool (value : Bool) : Printed (.bool value)
  | number (digits : String) : utf8 digits ≠ [] → (∀ byte ∈ utf8 digits, numberByte byte = true) →
      Printed (.number digits)
  | str (content : String) : Printed (.str content)
  | arr (items : List Json) : (∀ item ∈ items, Printed item) → Printed (.arr items)
  | obj (members : List (String × Json)) : (∀ member ∈ members, Printed member.2) →
      Printed (.obj members)

theorem printed_items {items : List Json} (h : Printed (.arr items)) :
    ∀ item ∈ items, Printed item := by
  cases h with
  | arr _ hitems => exact hitems

variable {members : List (String × Json)}

theorem printed_members (h : Printed (.obj members)) : ∀ member ∈ members, Printed member.2 := by
  cases h with
  | obj _ hmembers => exact hmembers

/-- No number goes on into the text. -/
def Ends (rest : Bytes) : Prop := ∀ byte ∈ rest.head?, numberByte byte = false

theorem canonical_items (items : List Json) : canonicalItems items = items.map canonical := by
  induction items with
  | nil => rfl
  | cons item items ih => rw [canonicalItems, ih, map_cons]

theorem canonical_members (members : List (String × Json)) :
    canonicalMembers members = members.map (fun member => (member.1, canonical member.2)) := by
  induction members with
  | nil => rfl
  | cons member members ih =>
    obtain ⟨key,value⟩ := member
    rw [canonicalMembers, ih, map_cons, canonicalMember]

def memberCanonical (member : String × Json) : Bytes :=
  stringText member.1++([58]++canonical member.2)

theorem canonical_obj (members : List (String × Json)) :
    canonical (.obj members) = [123]++listText 125 ((sortKeys members).map memberCanonical) := by
  have hsorted : sortKeys (members.map (fun member => (member.1, canonical member.2))) =
      (sortKeys members).map (fun member => (member.1, canonical member.2)) :=
    (map_insertionSort (fun a b : String × Json => a.1 ≤ b.1)
      (fun a b : String × Bytes => a.1 ≤ b.1) (fun member => (member.1, canonical member.2))
      members (fun a _ b _ => Iff.rfl)).symm
  rw [canonical, canonical_members, hsorted, map_map]
  rfl

section Shape

def kind (byte : UInt8) : ℕ :=
  if byte = 110 then 0 else if byte = 116 then 1 else if byte = 102 then 2
  else if byte = 34 then 3 else if byte = 91 then 4 else if byte = 123 then 5
  else if numberByte byte then 6 else 7

def shape : Json → ℕ
  | .null => 0
  | .bool true => 1
  | .bool false => 2
  | .str _ => 3
  | .arr _ => 4
  | .obj _ => 5
  | .number _ => 6

theorem kind_number : ∀ byte : UInt8, numberByte byte = true → kind byte = 6 := by decide +kernel

theorem canonical_head {value : Json} (h : Printed value) :
    ∃ byte rest, canonical value = byte::rest ∧ kind byte = shape value := by
  cases h with
  | null => exact ⟨110,_,rfl,by decide⟩
  | bool value =>
    cases value with
    | true => exact ⟨116,_,rfl,by decide⟩
    | false => exact ⟨102,_,rfl,by decide⟩
  | number digits hsome hbytes =>
    obtain ⟨byte,rest,hdigits⟩ := exists_cons_of_ne_nil hsome
    exact ⟨byte,rest,hdigits,kind_number byte (hbytes byte (by simp [hdigits]))⟩
  | str content => exact ⟨34,_,rfl,rfl⟩
  | arr items _ => exact ⟨91,_,rfl,rfl⟩
  | obj members _ => exact ⟨123,_,rfl,rfl⟩

theorem same_shape {v w : Json} {r r' : Bytes} (hv : Printed v) (hw : Printed w)
    (h : canonical v++r = canonical w++r') : shape v = shape w := by
  obtain ⟨a,rest,ha,hshape⟩ := canonical_head hv
  obtain ⟨b,rest',hb,hshape'⟩ := canonical_head hw
  rw [ha, hb, cons_append, cons_append] at h
  rw [← hshape, ← hshape', (List.cons.inj h).1]

end Shape

section Lists
variable {α : Type} (encode : α → Bytes) (R : α → α → Prop)

/-- Parts that a comma or the closing byte ends are read back one by one. -/
theorem tail_parts {close : UInt8} (hclose : close ≠ 44) (hnumber : numberByte close = false)
    {xs : List α} (ys : List α) {r r' : Bytes}
    (h : ∀ x ∈ xs, ∀ y ∈ ys, ∀ r r', Ends r → Ends r' → encode x++r = encode y++r' → R x y ∧ r = r')
    (heq : listTail close (xs.map encode)++r = listTail close (ys.map encode)++r') :
    List.Forall₂ R xs ys ∧ r = r' := by
  have hends : ∀ (zs : List α) (r : Bytes), Ends (listTail close (zs.map encode)++r) := by
    intro zs r byte hbyte
    cases zs with
    | nil =>
      obtain rfl : close = byte := by simpa [listTail] using hbyte
      exact hnumber
    | cons z zs =>
      obtain rfl : (44 : UInt8) = byte := by simpa [listTail] using hbyte
      decide
  induction xs generalizing ys with
  | nil =>
    cases ys with
    | nil =>
      refine ⟨.nil,?_⟩
      simpa [listTail] using heq
    | cons y ys => exact absurd (by simpa [listTail] using heq : close = 44 ∧ _).1 hclose
  | cons x xs ih =>
    cases ys with
    | nil => exact absurd (by simpa [listTail] using heq.symm : close = 44 ∧ _).1 hclose
    | cons y ys =>
      simp only [map_cons, listTail, cons_append, nil_append, append_assoc,
        List.cons.injEq, true_and] at heq
      obtain ⟨hxy,hrest⟩ := h x (by simp) y (by simp) _ _ (hends xs r) (hends ys r') heq
      obtain ⟨hall,hr⟩ := ih ys (fun x hx y hy => h x (by simp [hx]) y (by simp [hy])) hrest
      exact ⟨.cons hxy hall,hr⟩

theorem list_parts {close : UInt8} (hclose : close ≠ 44) (hnumber : numberByte close = false)
    {xs ys : List α} {r r' : Bytes}
    (hopen : ∀ x ∈ xs++ys, ∃ byte rest, encode x = byte::rest ∧ byte ≠ close)
    (h : ∀ x ∈ xs, ∀ y ∈ ys, ∀ r r', Ends r → Ends r' → encode x++r = encode y++r' → R x y ∧ r = r')
    (heq : listText close (xs.map encode)++r = listText close (ys.map encode)++r') :
    List.Forall₂ R xs ys ∧ r = r' := by
  cases xs with
  | nil =>
    cases ys with
    | nil => exact ⟨.nil,by simpa [listText] using heq⟩
    | cons y ys =>
      obtain ⟨byte,rest,hy,hbyte⟩ := hopen y (by simp)
      rw [map_nil, listText, map_cons, listText, hy] at heq
      exact absurd (List.cons.inj heq).1.symm hbyte
  | cons x xs =>
    cases ys with
    | nil =>
      obtain ⟨byte,rest,hx,hbyte⟩ := hopen x (by simp)
      rw [map_nil, listText, map_cons, listText, hx] at heq
      exact absurd (List.cons.inj heq).1 hbyte
    | cons y ys =>
      have htail : listTail close ((x::xs).map encode)++r =
          listTail close ((y::ys).map encode)++r' := congrArg (fun rest => 44::rest) heq
      exact tail_parts encode R hclose hnumber (y::ys) h htail

end Lists

section Determined

theorem number_ends {a : Bytes} (b : Bytes) {r r' : Bytes} (ha : ∀ byte ∈ a, numberByte byte = true)
    (hb : ∀ byte ∈ b, numberByte byte = true) (hr : Ends r) (hr' : Ends r') (h : a++r = b++r') :
    a = b ∧ r = r' := by
  induction a generalizing b with
  | nil =>
    cases b with
    | nil => exact ⟨rfl,h⟩
    | cons byte b =>
      rw [nil_append, cons_append] at h
      have hends := hr byte (by simp [h])
      rw [hb byte (by simp)] at hends
      cases hends
  | cons byte a ih =>
    cases b with
    | nil =>
      rw [nil_append, cons_append] at h
      have hends := hr' byte (by simp [← h])
      rw [ha byte (by simp)] at hends
      cases hends
    | cons byte' b =>
      rw [cons_append, cons_append] at h
      obtain ⟨rfl,hrest⟩ := List.cons.inj h
      obtain ⟨rfl,hr⟩ := ih b (fun c hc => ha c (by simp [hc])) (fun c hc => hb c (by simp [hc])) hrest
      exact ⟨rfl,hr⟩

theorem items_same {items items' : List Json} (h : List.Forall₂ Same items items') :
    Same (.arr items) (.arr items') := by
  refine .arr items items' h.length_eq (fun index a b ha hb => ?_)
  obtain ⟨hlt,rfl⟩ := List.getElem?_eq_some_iff.mp ha
  obtain ⟨hlt',rfl⟩ := List.getElem?_eq_some_iff.mp hb
  exact (forall₂_iff_get.mp h).2 index hlt hlt'

theorem members_same {members' : List (String × Json)} (hunique : (members'.map Prod.fst).Nodup)
    (h : List.Forall₂ (fun a b => a.1 = b.1 ∧ Same a.2 b.2) (sortKeys members)
      (sortKeys members')) :
    Same (.obj members) (.obj members') := by
  have hleft : (sortKeys members).Perm members := perm_insertionSort _ members
  have hright : (sortKeys members').Perm members' := perm_insertionSort _ members'
  have hpartner : ∀ member ∈ members, ∃ value, (Json.obj members').get member.1 = some value ∧
      Same member.2 value := by
    intro member hmem
    obtain ⟨index,hlt,rfl⟩ := getElem_of_mem (hleft.mem_iff.mpr hmem)
    have hlt' : index < (sortKeys members').length := h.length_eq ▸ hlt
    obtain ⟨hkey,hsame⟩ := (forall₂_iff_get.mp h).2 index hlt hlt'
    refine ⟨((sortKeys members')[index]).2,?_,hsame⟩
    have hget := get_member hunique (hright.mem_iff.mp (getElem_mem hlt'))
    rw [← hget]
    exact congrArg (Json.obj members').get hkey
  refine .obj members members' (fun key => ((Json.obj members').get key).getD .null) ?_
    (fun member hmem => ?_) (fun member hmem => ?_)
  · rw [← hleft.length_eq, ← hright.length_eq, h.length_eq]
  · obtain ⟨value,hvalue,-⟩ := hpartner member hmem
    rw [hvalue]
    rfl
  · obtain ⟨value,hvalue,hsame⟩ := hpartner member hmem
    rw [hvalue]
    exact hsame

theorem item_opens (item : Json) (h : Printed item) :
    ∃ byte rest, canonical item = byte::rest ∧ byte ≠ 93 := by
  obtain ⟨byte,rest,hcanonical,hkind⟩ := canonical_head h
  refine ⟨byte,rest,hcanonical,?_⟩
  rintro rfl
  cases item with
  | bool b => cases b <;> cases hkind
  | _ => cases hkind

/-- A canonical text determines its value, whatever follows it. -/
theorem canonical_determined {v : Json} (w : Json) (r r' : Bytes) (hv : Keyed v) (hpv : Printed v)
    (hw : Keyed w) (hpw : Printed w) (hr : Ends r) (hr' : Ends r')
    (h : canonical v++r = canonical w++r') : Same v w ∧ r = r' := by
  induction v using json_induction generalizing w r r' with
  | null =>
    have hshape := same_shape hpv hpw h
    cases w with
    | null => exact ⟨.null,append_cancel_left h⟩
    | bool b => cases b <;> cases hshape
    | _ => cases hshape
  | bool b =>
    have hshape := same_shape hpv hpw h
    cases b with
    | true =>
      cases w with
      | bool b =>
        cases b with
        | true => exact ⟨.bool true,append_cancel_left h⟩
        | false => cases hshape
      | _ => cases hshape
    | false =>
      cases w with
      | bool b =>
        cases b with
        | true => cases hshape
        | false => exact ⟨.bool false,append_cancel_left h⟩
      | _ => cases hshape
  | number digits =>
    have hshape := same_shape hpv hpw h
    cases w with
    | number digits' =>
      cases hpv with
      | number _ _ hbytes =>
        cases hpw with
        | number _ _ hbytes' =>
          obtain ⟨hdigits,hrest⟩ := number_ends _ hbytes hbytes' hr hr' h
          obtain rfl := utf8_injective digits digits' hdigits
          exact ⟨.number digits,hrest⟩
    | bool b => cases b <;> cases hshape
    | _ => cases hshape
  | str content =>
    have hshape := same_shape hpv hpw h
    cases w with
    | str content' =>
      obtain ⟨rfl,hrest⟩ := string_delimited content content' r r' h
      exact ⟨.str content,hrest⟩
    | bool b => cases b <;> cases hshape
    | _ => cases hshape
  | arr items ih =>
    have hshape := same_shape hpv hpw h
    cases w with
    | arr items' =>
      have hkeyed := keyed_items hv
      have hkeyed' := keyed_items hw
      have hprinted := printed_items hpv
      have hprinted' := printed_items hpw
      rw [canonical, canonical, canonical_items, canonical_items] at h
      obtain ⟨hitems,hrest⟩ := list_parts canonical Same (by decide) (by decide)
        (fun item hmem => item_opens item (by
          rcases mem_append.mp hmem with hmem | hmem
          · exact hprinted item hmem
          · exact hprinted' item hmem))
        (fun a ha b hb q q' hq hq' heq => ih a ha b q q' (hkeyed a ha) (hprinted a ha)
          (hkeyed' b hb) (hprinted' b hb) hq hq' heq) (List.cons.inj h).2
      exact ⟨items_same hitems,hrest⟩
    | bool b => cases b <;> cases hshape
    | _ => cases hshape
  | obj members ih =>
    have hshape := same_shape hpv hpw h
    cases w with
    | obj members' =>
      obtain ⟨-,hkeyed⟩ := keyed_members hv
      obtain ⟨hunique,hkeyed'⟩ := keyed_members hw
      have hprinted := printed_members hpv
      have hprinted' := printed_members hpw
      rw [canonical_obj, canonical_obj] at h
      have hmem : ∀ member, member ∈ sortKeys members ↔ member ∈ members :=
        fun member => (perm_insertionSort _ members).mem_iff
      have hmem' : ∀ member, member ∈ sortKeys members' ↔ member ∈ members' :=
        fun member => (perm_insertionSort _ members').mem_iff
      obtain ⟨hall,hrest⟩ := list_parts memberCanonical (fun a b => a.1 = b.1 ∧ Same a.2 b.2)
        (by decide) (by decide)
        (fun member _ => ⟨34,_,rfl,by decide⟩)
        (fun a ha b hb q q' hq hq' heq => by
          rw [hmem] at ha
          rw [hmem'] at hb
          simp only [memberCanonical, append_assoc] at heq
          obtain ⟨hkey,hvalue⟩ := string_delimited a.1 b.1 _ _ heq
          obtain ⟨hsame,hqq⟩ := ih a ha b.2 q q' (hkeyed a ha) (hprinted a ha) (hkeyed' b hb)
            (hprinted' b hb) hq hq' (List.cons.inj hvalue).2
          exact ⟨⟨hkey,hsame⟩,hqq⟩) (List.cons.inj h).2
      exact ⟨members_same hunique hall,hrest⟩
    | bool b => cases b <;> cases hshape
    | _ => cases hshape

theorem fingerprint_determined {Digest : Type} {sha256 : Bytes → Digest}
    (hsha : Function.Injective sha256) {v w : Json} {fingerprint : Digest} (hv : Keyed v)
    (hpv : Printed v) (hw : Keyed w) (hpw : Printed w)
    (h : sendFingerprint sha256 v = .ok fingerprint)
    (h' : sendFingerprint sha256 w = .ok fingerprint) : Same v w := by
  unfold sendFingerprint at h h'
  split_ifs at h
  split_ifs at h'
  have htext : canonical v = canonical w := hsha ((Except.ok.inj h).trans (Except.ok.inj h').symm)
  refine (canonical_determined w [] [] hv hpv hw hpw ?_ ?_ (by rw [htext])).1
  · simp [Ends]
  · simp [Ends]

end Determined

theorem sortKeys_perm {left right : List (String × Bytes)} (hunique : (left.map Prod.fst).Nodup)
    (h : left.Perm right) : sortKeys left = sortKeys right := by
  have hperm : (sortKeys left).Perm left := perm_insertionSort _ left
  refine (hperm.trans (h.trans (perm_insertionSort _ right).symm)).eq_of_pairwise ?_
    (pairwise_insertionSort _ left) (pairwise_insertionSort _ right)
  intro a b ha hb hab hba
  have hb' : b ∈ left := h.mem_iff.mpr ((perm_insertionSort _ right).mem_iff.mp hb)
  exact inj_on_of_nodup_map hunique (hperm.mem_iff.mp ha) hb' (le_antisymm hab hba)

theorem canonical_same {v w : Json} (hv : Keyed v) (h : Same v w) : canonical v = canonical w := by
  induction h with
  | null | bool | number | str => rfl
  | arr left right hlength _ ih =>
    have hitems : left.map canonical = right.map canonical := by
      refine ext_getElem (by simpa using hlength) fun index hl hr => ?_
      simp only [length_map] at hl hr
      rw [getElem_map, getElem_map]
      exact ih index _ _ (getElem?_eq_getElem hl) (getElem?_eq_getElem hr)
        (keyed_items hv _ (getElem_mem hl))
    rw [canonical, canonical, canonical_items, canonical_items, hitems]
  | obj left right other hlength hget _ ih =>
    obtain ⟨hunique,hkeyed⟩ := keyed_members hv
    rw [canonical, canonical, canonical_members, canonical_members]
    have hkeys : ((left.map fun member => (member.1, canonical member.2)).map Prod.fst).Nodup := by
      rw [map_map]
      exact hunique
    rw [sortKeys_perm hkeys]
    refine (subperm_of_subset (Nodup.of_map _ hkeys) fun part hpart => ?_).perm_of_length_le
      (by simp [hlength])
    obtain ⟨member,hmem,rfl⟩ := mem_map.mp hpart
    obtain ⟨found,hfind,hvalue⟩ := Option.map_eq_some_iff.mp (hget member hmem)
    have hkey : found.1 = member.1 := by simpa using find?_some hfind
    rw [ih member hmem (hkeyed member hmem), ← hvalue, ← hkey]
    exact mem_map_of_mem (mem_of_find?_eq_some hfind)

/-- The hashed texts of two parameters agree exactly if the parameters do, whatever the
order of their members. -/
theorem canonical_normal_form {v w : Json} (hv : Keyed v) (hpv : Printed v) (hw : Keyed w)
    (hpw : Printed w) : canonical v = canonical w ↔ Same v w :=
  ⟨fun h => (canonical_determined w [] [] hv hpv hw hpw nofun nofun (by rw [h])).1,
    canonical_same hv⟩

theorem canonical_normal_form_swapped : canonical (.obj [("a", .null), ("b", .null)]) =
    canonical (.obj [("b", .null), ("a", .null)]) :=
  (canonical_normal_form (.obj _ (by simp) (by simp [Keyed.null])) (.obj _ (by simp [Printed.null]))
    (.obj _ (by simp) (by simp [Keyed.null])) (.obj _ (by simp [Printed.null]))).mpr
    (.obj _ _ (fun _ => .null) rfl (by simp [Json.get]) (by simp [Same.null]))

end Maple.Sends

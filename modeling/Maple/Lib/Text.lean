import Mathlib.Data.String.Basic

/-!
# Text as bytes

The UTF-8 bytes of a string determine it.
-/

set_option autoImplicit false

namespace Maple.Text

def utf8 (text : String) : List UInt8 := text.toUTF8.data.toList

theorem utf8_injective (left right : String) (h : utf8 left = utf8 right) : left = right := by
  have hdata := congrArg List.toArray h
  simp only [utf8, Array.toArray_toList] at hdata
  exact String.toByteArray_inj.mp (ByteArray.ext hdata)

theorem utf8_length (text : String) : (utf8 text).length = text.utf8ByteSize := rfl

theorem utf8_replicate (count : ℕ) :
    (utf8 (String.ofList (List.replicate count 'a'))).length = count := by
  rw [utf8_length, String.utf8ByteSize_ofList]
  induction count with
  | zero => rfl
  | succ count ih =>
    rw [List.replicate_succ, String.utf8Len_cons, ih]
    rfl

end Maple.Text

import Mathlib.Data.List.Induction
import Mathlib.Tactic.Ring
import Mathlib.Tactic.Linarith

/-!
# Fixed-width big-endian numerals

A number below `256 ^ w` is written as exactly `w` bytes, most significant
first. Reading the bytes back returns the number, so two numbers of one width
share an encoding only when they are equal.
-/

set_option autoImplicit false

namespace Maple.BigEndian

def toBytes : ℕ → ℕ → List UInt8
  | 0, _ => []
  | w+1, n => toBytes w (n/256) ++ [UInt8.ofNat (n%256)]

def ofBytes (bytes : List UInt8) : ℕ :=
  bytes.foldl (fun n b => n*256+b.toNat) 0

theorem toBytes_length (w n : ℕ) : (toBytes w n).length = w := by
  induction w generalizing n with
  | zero => rfl
  | succ w ih => simp [toBytes, ih]

theorem ofBytes_append_singleton (bytes : List UInt8) (b : UInt8) :
    ofBytes (bytes ++ [b]) = ofBytes bytes*256+b.toNat := by
  simp [ofBytes]

theorem ofBytes_toBytes {w : ℕ} (n : ℕ) (h : n < 256^w) : ofBytes (toBytes w n) = n := by
  induction w generalizing n with
  | zero =>
    have hn : n = 0 := by simpa using h
    subst hn
    rfl
  | succ w ih =>
    have hq : n/256 < 256^w := by
      apply Nat.div_lt_of_lt_mul
      rw [pow_succ] at h
      linarith
    rw [toBytes, ofBytes_append_singleton, ih _ hq]
    have hb : (UInt8.ofNat (n%256)).toNat = n%256 := by
      have : n%256 < 256 := Nat.mod_lt _ (by decide)
      simp
    rw [hb]
    omega

theorem toBytes_ofBytes (bytes : List UInt8) : toBytes bytes.length (ofBytes bytes) = bytes := by
  induction bytes using List.reverseRecOn with
  | nil => rfl
  | append_singleton bytes b ih =>
    have hb : b.toNat < 256 := b.toNat_lt
    rw [ofBytes_append_singleton, List.length_append, List.length_singleton, toBytes]
    have hq : (ofBytes bytes*256+b.toNat)/256 = ofBytes bytes := by omega
    have hr : (ofBytes bytes*256+b.toNat)%256 = b.toNat := by omega
    rw [hq, hr, ih]
    simp

theorem toBytes_injective {w m n : ℕ} (hm : m < 256^w) (hn : n < 256^w)
    (h : toBytes w m = toBytes w n) : m = n := by
  rw [← ofBytes_toBytes m hm, h, ofBytes_toBytes n hn]

end Maple.BigEndian

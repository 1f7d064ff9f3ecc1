import Mathlib.Tactic

/-!
# UTF-8, octet by octet

What `String.utf8EncodeChar` writes, as conditions on the octets, so that a decoder that computes
with octets can be compared with it.
-/

namespace PhpInternals.Found

open Nat

/-- The octets of a scalar value, one constructor for each length. -/
inductive Utf8Char : ℕ → List UInt8 → Prop where
  | one {v : ℕ} {b₀ : UInt8} (hv : v < 0x80) (h₀ : b₀.toNat = v) : Utf8Char v [b₀]
  | two {v : ℕ} {b₀ b₁ : UInt8} (hv : 0x80 ≤ v) (hv' : v < 0x800)
      (h₀ : b₀.toNat = 0xc0 + v / 0x40) (h₁ : b₁.toNat = 0x80 + v % 0x40) : Utf8Char v [b₀, b₁]
  | three {v : ℕ} {b₀ b₁ b₂ : UInt8} (hv : 0x800 ≤ v) (hv' : v < 0x10000)
      (hsur : v < 0xd800 ∨ 0xdfff < v) (h₀ : b₀.toNat = 0xe0 + v / 0x1000)
      (h₁ : b₁.toNat = 0x80 + v / 0x40 % 0x40) (h₂ : b₂.toNat = 0x80 + v % 0x40) :
      Utf8Char v [b₀, b₁, b₂]
  | four {v : ℕ} {b₀ b₁ b₂ b₃ : UInt8} (hv : 0x10000 ≤ v) (hv' : v < 0x110000)
      (h₀ : b₀.toNat = 0xf0 + v / 0x40000) (h₁ : b₁.toNat = 0x80 + v / 0x1000 % 0x40)
      (h₂ : b₂.toNat = 0x80 + v / 0x40 % 0x40) (h₃ : b₃.toNat = 0x80 + v % 0x40) :
      Utf8Char v [b₀, b₁, b₂, b₃]

namespace Utf8Char

variable {v : ℕ} {bs : List UInt8}

lemma ne_nil (h : Utf8Char v bs) : bs ≠ [] := by
  cases h <;> simp

end Utf8Char

/-! ## Six bits at a time -/

lemma or_shiftLeft_six (a b : ℕ) : (a <<< 6) ||| (b &&& 0x3f) = a * 0x40 + b % 0x40 := by
  have han : b &&& 0x3f = b % 0x40 := and_two_pow_sub_one_eq_mod b 6
  have hor := two_pow_add_eq_or_of_lt (i := 6) (mod_lt b (by norm_num)) a
  rw [han, shiftLeft_eq, mul_comm]
  exact hor.symm

lemma or_shiftLeft_twelve (a b c : ℕ) : (a <<< 12) ||| ((b &&& 0x3f) <<< 6) ||| (c &&& 0x3f) =
      (a * 0x40 + b % 0x40) * 0x40 + c % 0x40 := by
  have hab : (a <<< 12) ||| ((b &&& 0x3f) <<< 6) = (a * 0x40 + b % 0x40) <<< 6 := by
    rw [← or_shiftLeft_six, shiftLeft_or_distrib, ← shiftLeft_add]
  rw [hab, or_shiftLeft_six]

lemma or_shiftLeft_eighteen (a b c d : ℕ) :
    (a <<< 18) ||| ((b &&& 0x3f) <<< 12) ||| ((c &&& 0x3f) <<< 6) ||| (d &&& 0x3f) =
      ((a * 0x40 + b % 0x40) * 0x40 + c % 0x40) * 0x40 + d % 0x40 := by
  have hab : (a <<< 18) ||| ((b &&& 0x3f) <<< 12) ||| ((c &&& 0x3f) <<< 6) =
      ((a * 0x40 + b % 0x40) * 0x40 + c % 0x40) <<< 6 := by
    rw [← or_shiftLeft_twelve, shiftLeft_or_distrib, shiftLeft_or_distrib,
      ← shiftLeft_add, ← shiftLeft_add]
  rw [hab, or_shiftLeft_six]

end PhpInternals.Found

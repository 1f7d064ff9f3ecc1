import Mathlib.Data.BitVec
import PhpInternals.Found.Decimal

/-!
# Printing an integer

Embedding of `zend_long_to_str` (`Zend/zend_operators.c`) and of the functions it prints with. A
`zend_long` is a word of 64 bits. The buffer is filled from its end; it is the list of what was
written.
-/

namespace PhpInternals.Zend.ZendOperators

open List PhpInternals.Found

/-- `MAX_LENGTH_OF_LONG` of a 64-bit build. -/
def maxLengthOfLong : ℕ := 20

lemma toNat_div_ten (num : BitVec 64) : (num / 10#64).toNat = num.toNat / 10 := by
  rfl

/-- `zend_print_ulong_to_buf`, before what is in the buffer already. -/
def zendPrintUlongToBuf (buf : List UInt8) (num : BitVec 64) : List UInt8 :=
  let buf := (UInt8.ofNat (num % 10#64).toNat + 0x30) :: buf
  let num' := num / 10#64
  if _h : 0 < num'.toNat then zendPrintUlongToBuf buf num' else buf
termination_by num.toNat
decreasing_by
  rw [toNat_div_ten] at _h ⊢
  omega

/-- Source: `zend_print_long_to_buf`. -/
def zendPrintLongToBuf (buf : List UInt8) (num : BitVec 64) : List UInt8 :=
  if num.toInt < 0 then 0x2d :: zendPrintUlongToBuf buf (~~~num + 1#64)
  else zendPrintUlongToBuf buf num

/-- Source: `zend_long_to_str`. -/
def zendLongToStr (num : BitVec 64) : List UInt8 :=
  if num.toNat ≤ 9 then [0x30 + UInt8.ofNat num.toNat] else zendPrintLongToBuf [] num

/-! ## The text -/

lemma ofNat_add_zero_char (d : ℕ) : UInt8.ofNat d + 0x30 = UInt8.ofNat (0x30 + d) := by
  rw [add_comm, UInt8.ofNat_add]
  rfl

lemma zendPrintUlongToBuf_eq (buf : List UInt8) (num : BitVec 64) :
    zendPrintUlongToBuf buf num = natDecimal num.toNat ++ buf := by
  fun_induction zendPrintUlongToBuf buf num with
  | case1 buf num buf' num' h ih =>
    have hdv : num'.toNat = num.toNat / 10 := toNat_div_ten num
    have hge : 10 ≤ num.toNat := by omega
    rw [ih, hdv, natDecimal_eq hge]
    simp [buf', ofNat_add_zero_char]
  | case2 buf num buf' num' h =>
    have hdv : num'.toNat = num.toNat / 10 := toNat_div_ten num
    have hlt : num.toNat < 10 := by omega
    rw [natDecimal_of_lt hlt]
    simp [buf', ofNat_add_zero_char, Nat.mod_eq_of_lt hlt]

lemma toNat_not_add_one {num : BitVec 64} (h : num.toInt < 0) :
    (~~~num + 1#64).toNat = num.toInt.natAbs := by
  rw [BitVec.toInt_eq_toNat_cond] at h ⊢
  split_ifs at h ⊢ with hs
  · omega
  · rw [BitVec.toNat_add, BitVec.toNat_not, BitVec.toNat_ofNat]
    omega

lemma zendLongToStr_eq (num : BitVec 64) : zendLongToStr num = intDecimal num.toInt := by
  have hc := BitVec.toInt_eq_toNat_cond num
  unfold zendLongToStr intDecimal
  split_ifs with hs hn hn
  · split_ifs at hc <;> omega
  · have hv : num.toInt.natAbs = num.toNat := by split_ifs at hc <;> omega
    rw [hv, nil_append, natDecimal_of_lt (by omega), ← ofNat_add_zero_char, UInt8.add_comm]
  · rw [zendPrintLongToBuf, if_pos hn, zendPrintUlongToBuf_eq, toNat_not_add_one hn,
      append_nil, singleton_append]
  · have hv : num.toInt.natAbs = num.toNat := by split_ifs at hc <;> omega
    rw [zendPrintLongToBuf, if_neg hn, zendPrintUlongToBuf_eq, append_nil, hv, nil_append]

lemma length_natDecimal_natAbs_le (num : BitVec 64) :
    (natDecimal num.toInt.natAbs).length ≤ 19 := by
  have hl := BitVec.le_toInt num
  have hh := BitVec.toInt_lt (x := num)
  exact length_natDecimal_le (by omega) (by omega)

end PhpInternals.Zend.ZendOperators

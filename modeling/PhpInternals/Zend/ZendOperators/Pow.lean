import Mathlib.Algebra.Order.Ring.Int
import Mathlib.Data.Int.Order.Units
import Mathlib.Tactic

/-!
# Powers of integers

Embedding of the `IS_LONG`, `IS_LONG` case of `pow_function` (`Zend/zend_operators.c`). A
`zend_long` carries its bounds. `ZEND_SIGNED_MULTIPLY_LONG` reports an overflow exactly when the
product leaves the range of `zend_long`; what the C library does with doubles is the parameter
`DoubleOps`.
-/

namespace PhpInternals.Zend.ZendOperators

/-! ## `zend_long` -/

/-- Source: `ZEND_LONG_MIN`. -/
def zendLongMin : ℤ := -2 ^ 63

/-- Source: `ZEND_LONG_MAX`. -/
def zendLongMax : ℤ := 2 ^ 63 - 1

/-- `n` is a value of `zend_long`. -/
def FitsLong (n : ℤ) : Prop := zendLongMin ≤ n ∧ n ≤ zendLongMax

instance : DecidablePred FitsLong := fun _ => inferInstanceAs (Decidable (_ ∧ _))

abbrev ZendLong := { n : ℤ // FitsLong n }

/-! ## The function -/

/-- The operations on doubles that `pow_function` uses. -/
structure DoubleOps (D : Type) where
  /-- `(double) n`. -/
  ofLong : ℤ → D
  mul : D → D → D
  pow : D → D → D

/-- The `zval` that `pow_function` returns: `ZVAL_LONG` or `ZVAL_DOUBLE`. Source: `pow_function`. -/
inductive PowResult (D : Type) where
  | long (lval : ZendLong)
  | double (dval : D)

variable {D : Type} (ops : DoubleOps D)

/-- `ZEND_SIGNED_MULTIPLY_LONG`: the product, or on overflow the product of the doubles. -/
def signedMultiplyLong (a b : ZendLong) : ZendLong ⊕ D :=
  if h : FitsLong (a * b : ℤ) then .inl ⟨a * b, h⟩
  else .inr (ops.mul (ops.ofLong a) (ops.ofLong b))

/-- The loop of `pow_function`. -/
def powLoop (l1 l2 : ZendLong) (i : ℕ) : PowResult D :=
  if _hi : i = 0 then .long l1
  else if i % 2 = 1 then
    match signedMultiplyLong ops l1 l2 with
    | .inl l1' => powLoop l1' l2 (i - 1)
    | .inr dval => .double (ops.mul dval (ops.pow (ops.ofLong l2) (ops.ofLong (i - 1 : ℕ))))
  else
    match signedMultiplyLong ops l2 l2 with
    | .inl l2' => powLoop l1 l2' (i / 2)
    | .inr dval => .double (ops.mul (ops.ofLong l1) (ops.pow dval (ops.ofLong (i / 2 : ℕ))))
termination_by i
decreasing_by all_goals omega

/-- `pow_function` of two longs. -/
def powFunction (op1 op2 : ZendLong) : PowResult D :=
  if 0 ≤ (op2 : ℤ) then
    if (op2 : ℤ) = 0 then .long ⟨1, by decide⟩
    else if (op1 : ℤ) = 0 then .long ⟨0, by decide⟩
    else powLoop ops ⟨1, by decide⟩ op1 (op2 : ℤ).toNat
  else .double (ops.pow (ops.ofLong op1) (ops.ofLong op2))

/-! ## What a result stands for -/

/-- The result stands for the integer `n`: it is that integer when `n` is a `zend_long`, and a
double otherwise. -/
def PowResult.Meets (r : PowResult D) (n : ℤ) : Prop :=
  match r with
  | .long lval => (lval : ℤ) = n
  | .double _ => ¬ FitsLong n

/-! ## Overflow is final -/

/-- A value out of range stays out of range when it is multiplied by a positive number. -/
lemma not_fitsLong_mul {a b : ℤ} (ha : ¬ FitsLong a) (hb : 1 ≤ b) : ¬ FitsLong (a * b) := by
  intro hf
  apply ha
  simp only [FitsLong, zendLongMin, zendLongMax] at *
  constructor
  · by_contra hlt
    have hle : a * b ≤ a * 1 := by nlinarith
    omega
  · by_contra hlt
    have hle : a * 1 ≤ a * b := by nlinarith
    omega

/-- `2 ^ 63` is not a square: a square out of range is out of range with either sign. -/
lemma lt_sq_of_not_fitsLong {l : ℤ} (h : ¬ FitsLong (l * l)) : 2 ^ 63 < l * l := by
  have hn : 0 ≤ l * l := mul_self_nonneg l
  have hge : 2 ^ 63 ≤ l * l := by
    simp only [FitsLong, zendLongMin, zendLongMax] at h
    omega
  refine lt_of_le_of_ne hge fun heq => ?_
  have ha : |l| * |l| = 2 ^ 63 := by rw [abs_mul_abs_self, ← heq]
  have hlw : 3037000499 < |l| := by nlinarith [abs_nonneg l]
  have hhg : |l| < 3037000500 := by nlinarith [abs_nonneg l]
  omega

/-- Nothing brings a product back into range once a square in it is out of range. -/
lemma not_fitsLong_of_sq {l1 l : ℤ} {j : ℕ} (hl1 : l1 ≠ 0) (h : ¬ FitsLong (l * l)) (hj : j ≠ 0) :
    ¬ FitsLong (l1 * (l * l) ^ j) := by
  have hsq := lt_sq_of_not_fitsLong h
  have hp : l * l ≤ (l * l) ^ j := le_self_pow₀ (by omega) hj
  have hab : (l * l) ^ j ≤ |l1 * (l * l) ^ j| := by
    rw [abs_mul, abs_of_nonneg (a := (l * l) ^ j) (by omega)]
    have ho : 1 ≤ |l1| := Int.one_le_abs hl1
    nlinarith
  rintro ⟨hm, hmx⟩
  simp only [zendLongMin, zendLongMax] at hm hmx
  have hle : |l1 * (l * l) ^ j| ≤ 2 ^ 63 := abs_le.mpr ⟨by omega, by omega⟩
  omega

/-! ## The run -/

/-- **The loop computes the power.** The exponent falls in every round, and `l1 * l2 ^ i` stays what
it is. -/
theorem powLoop_meets (l1 l2 : ZendLong) (i : ℕ) (h1 : (l1 : ℤ) ≠ 0) (h2 : (l2 : ℤ) ≠ 0) :
    (powLoop ops l1 l2 i).Meets (l1 * (l2 : ℤ) ^ i) := by
  induction i using Nat.strong_induction_on generalizing l1 l2 with
  | _ i ih =>
    rw [powLoop]
    split_ifs with hi ho
    · simp [PowResult.Meets, hi]
    · -- the accumulator takes one factor; what is left of the exponent is even
      have hs : (l1 : ℤ) * (l2 : ℤ) ^ i = l1 * l2 * (l2 : ℤ) ^ (i - 1) := by
        rw [mul_assoc, ← pow_succ', Nat.sub_add_cancel (by omega)]
      rw [hs]
      unfold signedMultiplyLong
      by_cases hf : FitsLong (l1 * l2 : ℤ)
      · simp only [dif_pos hf]
        exact ih (i - 1) (by omega) ⟨_, hf⟩ l2 (mul_ne_zero h1 h2) h2
      · simp only [dif_neg hf]
        have hev : Even (i - 1) := Nat.even_iff.mpr (by omega)
        exact not_fitsLong_mul hf (Int.add_one_le_iff.mpr (hev.pow_pos h2))
    · -- the base is squared
      have hs : (l1 : ℤ) * (l2 : ℤ) ^ i = l1 * (l2 * l2 : ℤ) ^ (i / 2) := by
        rw [← pow_two, ← pow_mul, Nat.mul_div_cancel' (Nat.dvd_of_mod_eq_zero (by omega))]
      rw [hs]
      unfold signedMultiplyLong
      by_cases hf : FitsLong (l2 * l2 : ℤ)
      · simp only [dif_pos hf]
        exact ih (i / 2) (by omega) l1 ⟨_, hf⟩ h1 (mul_ne_zero h2 h2)
      · simp only [dif_neg hf]
        exact not_fitsLong_of_sq h1 hf (by omega)

lemma powFunction_meets (op1 : ZendLong) {op2 : ZendLong} (h : 0 ≤ (op2 : ℤ)) :
    (powFunction ops op1 op2).Meets ((op1 : ℤ) ^ (op2 : ℤ).toNat) := by
  rw [powFunction]
  split_ifs with hep hb
  · simp [PowResult.Meets, hep]
  · have hne : (op2 : ℤ).toNat ≠ 0 := by omega
    simp [PowResult.Meets, hb, zero_pow hne]
  · simpa using powLoop_meets ops ⟨1, by decide⟩ op1 (op2 : ℤ).toNat one_ne_zero hb

/-- **An integer power is a long if and only if it fits, and is then exact; otherwise it is a
double.** -/
theorem powFunction_long_iff (op1 op2 : ZendLong) (h : 0 ≤ (op2 : ℤ)) :
    ((∃ lval, powFunction ops op1 op2 = .long lval) ↔ FitsLong ((op1 : ℤ) ^ (op2 : ℤ).toNat)) ∧
      (∀ lval, powFunction ops op1 op2 = .long lval → (lval : ℤ) = (op1 : ℤ) ^ (op2 : ℤ).toNat) ∧
      (¬ FitsLong ((op1 : ℤ) ^ (op2 : ℤ).toNat) →
        ∃ dval, powFunction ops op1 op2 = .double dval) := by
  have hm := powFunction_meets ops op1 h
  cases hr : powFunction ops op1 op2 with
  | long lval =>
    rw [hr] at hm
    have hv := hm
    have hf : FitsLong ((op1 : ℤ) ^ (op2 : ℤ).toNat) := hv ▸ lval.2
    refine ⟨⟨fun _ => hf, fun _ => ⟨lval, rfl⟩⟩, ?_, fun hn => absurd hf hn⟩
    intro l hl
    rw [← PowResult.long.inj hl]
    exact hv
  | double dval =>
    rw [hr] at hm
    have hn : ¬ FitsLong ((op1 : ℤ) ^ (op2 : ℤ).toNat) := hm
    simp [hn]

/-- `(-2) ** 63` is `ZEND_LONG_MIN`. -/
theorem powFunction_long_iff_longMin :
    (0 : ℤ) ≤ 63 ∧ ∃ lval, powFunction (⟨id, (· * ·), fun x _ => x⟩ : DoubleOps ℤ)
      ⟨-2, by decide⟩ ⟨63, by decide⟩ = .long lval :=
  ⟨by decide, (powFunction_long_iff _ _ _ (by decide)).1.mpr (by decide)⟩

end PhpInternals.Zend.ZendOperators

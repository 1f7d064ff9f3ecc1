import Mathlib.Data.Nat.Log
import Mathlib.Tactic

/-!
# Doubles with integer values

The finite doubles with integer values, the infinities and NaN: what integers round to, and their
differences. The significand has 53 bits; ties go to the even one.
-/

namespace PhpInternals.Found

open Int Nat

/-! ## Rounding of natural numbers -/

/-- `m` rounded to a multiple of `2 ^ e`, half to even. -/
def roundAt (e m : ℕ) : ℕ :=
  let q := m / 2 ^ e
  let r := m % 2 ^ e
  if 2 * r < 2 ^ e ∨ (2 * r = 2 ^ e ∧ q % 2 = 0) then q * 2 ^ e else (q + 1) * 2 ^ e

/-- The exponent of the last of 53 bits. -/
def lastBit (m : ℕ) : ℕ := log 2 m - 52

/-- `m` rounded to 53 bits. -/
def roundNat (m : ℕ) : ℕ := roundAt (lastBit m) m

lemma le_roundAt (e m : ℕ) : m / 2 ^ e * 2 ^ e ≤ roundAt e m := by
  unfold roundAt
  simp only
  split_ifs
  · exact le_refl _
  · exact mul_le_mul_right _ (le_succ _)

lemma roundAt_le (e m : ℕ) : roundAt e m ≤ (m / 2 ^ e + 1) * 2 ^ e := by
  unfold roundAt
  simp only
  split_ifs
  · exact mul_le_mul_right _ (le_succ _)
  · exact le_refl _

lemma roundAt_mono (e : ℕ) : Monotone (roundAt e) := by
  intro m m' h
  have hq : m / 2 ^ e ≤ m' / 2 ^ e := Nat.div_le_div_right h
  rcases Nat.lt_or_eq_of_le hq with hlt | heq
  · calc roundAt e m ≤ (m / 2 ^ e + 1) * 2 ^ e := roundAt_le e m
      _ ≤ m' / 2 ^ e * 2 ^ e := mul_le_mul_right _ hlt
      _ ≤ roundAt e m' := le_roundAt e m'
  have hr : m % 2 ^ e ≤ m' % 2 ^ e := by
    have hm := div_add_mod m (2 ^ e)
    have hm' := div_add_mod m' (2 ^ e)
    rw [heq] at hm
    omega
  unfold roundAt
  simp only [heq]
  split_ifs with h1 h2
  · exact le_refl _
  · exact mul_le_mul_right _ (le_succ _)
  · omega
  · exact le_refl _

lemma roundNat_binade {m : ℕ} (hm : m ≠ 0) :
    2 ^ log 2 m ≤ roundNat m ∧ roundNat m ≤ 2 ^ (log 2 m + 1) := by
  have hl := pow_log_le_self 2 hm
  have hh := lt_pow_succ_log_self (b := 2) (by norm_num) m
  have hs : log 2 m = (log 2 m - lastBit m) + lastBit m := by
    unfold lastBit
    omega
  generalize log 2 m - lastBit m = k at hs
  have hp : 0 < 2 ^ lastBit m := Nat.two_pow_pos _
  constructor
  · refine le_trans ?_ (le_roundAt (lastBit m) m)
    rw [hs, pow_add]
    refine mul_le_mul_right _ ((le_div_iff_mul_le hp).mpr ?_)
    rw [← pow_add, ← hs]
    exact hl
  · refine le_trans (roundAt_le (lastBit m) m) ?_
    rw [show log 2 m + 1 = k + 1 + lastBit m by omega, pow_add]
    refine mul_le_mul_right _ (succ_le_of_lt ((div_lt_iff_lt_mul hp).mpr ?_))
    rw [← pow_add, show k + 1 + lastBit m = log 2 m + 1 by omega]
    exact hh

@[simp] lemma roundNat_zero : roundNat 0 = 0 := by decide

lemma roundNat_pos {m : ℕ} (hm : m ≠ 0) : 0 < roundNat m :=
  lt_of_lt_of_le (Nat.two_pow_pos _) (roundNat_binade hm).1

lemma roundNat_mono : Monotone roundNat := by
  intro m m' h
  rcases eq_or_ne m 0 with rfl | hm
  · exact zero_le _
  have hm' : m' ≠ 0 := by omega
  rcases lt_or_eq_of_le (log_mono_right h) with hlt | heq
  · calc roundNat m ≤ 2 ^ (log 2 m + 1) := (roundNat_binade hm).2
      _ ≤ 2 ^ Nat.log 2 m' := Nat.pow_le_pow_right (by norm_num) hlt
      _ ≤ roundNat m' := (roundNat_binade hm').1
  · have hbt : lastBit m = lastBit m' := by rw [lastBit, lastBit, heq]
    rw [roundNat, hbt]
    exact roundAt_mono _ h

/-! ## Rounding of integers -/

/-- `n` rounded to 53 bits. -/
def roundedValue (n : ℤ) : ℤ := n.sign * roundNat n.natAbs

lemma roundedValue_of_neg {n : ℤ} (hn : n < 0) : roundedValue n = -(roundNat n.natAbs : ℤ) := by
  rw [roundedValue, sign_eq_neg_one_of_neg hn, neg_one_mul]

lemma roundedValue_of_nonneg {n : ℤ} (hn : 0 ≤ n) : roundedValue n = roundNat n.natAbs := by
  rcases eq_or_lt_of_le hn with rfl | hn
  · rfl
  · rw [roundedValue, sign_eq_one_of_pos hn, one_mul]

lemma sign_roundedValue (n : ℤ) : (roundedValue n).sign = n.sign := by
  rcases lt_trichotomy n 0 with hn | rfl | hn
  · have hp := roundNat_pos (m := n.natAbs) (by omega)
    rw [roundedValue_of_neg hn, sign_eq_neg_one_of_neg hn, sign_eq_neg_one_of_neg (by omega)]
  · rfl
  · have hp := roundNat_pos (m := n.natAbs) (by omega)
    rw [roundedValue_of_nonneg hn.le, sign_eq_one_of_pos hn, sign_eq_one_of_pos (by omega)]

lemma roundedValue_mono : Monotone roundedValue := by
  intro m n h
  rcases lt_or_ge m 0 with hm | hm
  · rcases lt_or_ge n 0 with hn | hn
    · have := roundNat_mono (show n.natAbs ≤ m.natAbs by omega)
      rw [roundedValue_of_neg hm, roundedValue_of_neg hn]
      omega
    · rw [roundedValue_of_neg hm, roundedValue_of_nonneg hn]
      omega
  · have := roundNat_mono (show m.natAbs ≤ n.natAbs by omega)
    rw [roundedValue_of_nonneg hm, roundedValue_of_nonneg (by omega)]
    omega

/-! ## Doubles -/

/-- The doubles with integer values, the infinities and NaN. -/
inductive Binary64 where
  | finite (n : ℤ)
  | infinity (negative : Bool)
  | nan
  deriving DecidableEq, Repr

namespace Binary64

/-- Finite doubles are below this. -/
def bound : ℤ := 2 ^ 1024

lemma bound_pos : 0 < bound := by
  rw [bound]
  positivity

/-- A value of 53 bits, in the range of doubles. -/
def clip (z : ℤ) : Binary64 :=
  if z ≤ -bound then infinity true else if bound ≤ z then infinity false else finite z

/-- An integer rounded to a double. -/
def roundInt (n : ℤ) : Binary64 := clip (roundedValue n)

/-- The difference. -/
def sub : Binary64 → Binary64 → Binary64
  | nan, _ => nan
  | _, nan => nan
  | finite m, finite n => roundInt (m - n)
  | finite _, infinity b => infinity !b
  | infinity a, finite _ => infinity a
  | infinity a, infinity b => if a = b then nan else infinity a

/-- `== 0.`. -/
def isZero : Binary64 → Bool
  | finite n => n = 0
  | _ => false

/-- `< 0.`. -/
def isNeg : Binary64 → Bool
  | finite n => n < 0
  | infinity b => b
  | nan => false

/-- `==`. -/
def eq : Binary64 → Binary64 → Bool
  | nan, _ => false
  | _, nan => false
  | x, y => x = y

/-- Neither infinite nor NaN. -/
def isFinite : Binary64 → Bool
  | finite _ => true
  | _ => false

/-- The sign, as C tests for it: NaN is not zero and not negative. -/
def sign (x : Binary64) : ℤ := if x.isZero then 0 else if x.isNeg then -1 else 1

lemma sign_clip (z : ℤ) : (clip z).sign = z.sign := by
  have hb := bound_pos
  unfold clip
  split_ifs with hl hh
  · rw [sign_eq_neg_one_of_neg (by omega)]
    rfl
  · rw [sign_eq_one_of_pos (by omega)]
    rfl
  · rcases lt_trichotomy z 0 with hz | rfl | hz
    · simp [sign, isZero, isNeg, hz, hz.ne, sign_eq_neg_one_of_neg hz]
    · rfl
    · simp [sign, isZero, isNeg, hz.le, hz.ne', sign_eq_one_of_pos hz]

lemma sign_roundInt (n : ℤ) : (roundInt n).sign = n.sign := by
  rw [roundInt, sign_clip, sign_roundedValue]

lemma roundInt_zero : roundInt 0 = finite 0 := by
  have hb := bound_pos
  rw [roundInt, show roundedValue 0 = 0 from rfl, clip, if_neg (by omega), if_neg (by omega)]

lemma sign_sub_clip {z w : ℤ} (hne : clip z ≠ clip w) :
    ((clip z).sub (clip w)).sign = (z - w).sign := by
  unfold clip at hne ⊢
  split_ifs at hne ⊢
  any_goals exact absurd rfl hne
  rotate_right
  · exact sign_roundInt (z - w)
  all_goals first
    | rw [sign_eq_neg_one_of_neg (by omega)]; rfl
    | rw [sign_eq_one_of_pos (by omega)]; rfl

/-- **The difference of two rounded integers has the sign of their difference**, unless they round
to the same double. -/
theorem sign_sub_roundInt {m n : ℤ} (hne : roundInt m ≠ roundInt n) :
    ((roundInt m).sub (roundInt n)).sign = (m - n).sign := by
  have hv : roundedValue m ≠ roundedValue n := fun heq => hne (by rw [roundInt, roundInt, heq])
  rw [roundInt, roundInt, sign_sub_clip hne]
  rcases lt_trichotomy m n with hlt | rfl | hgt
  · have hle := roundedValue_mono hlt.le
    rw [sign_eq_neg_one_of_neg (by omega), sign_eq_neg_one_of_neg (by omega)]
  · exact absurd rfl hv
  · have hle := roundedValue_mono hgt.le
    rw [sign_eq_one_of_pos (by omega), sign_eq_one_of_pos (by omega)]

lemma eq_roundInt_iff {m n : ℤ} :
    eq (roundInt m) (roundInt n) = true ↔ roundInt m = roundInt n := by
  have hnn : ∀ z, clip z ≠ nan := by
    intro z
    unfold clip
    split_ifs <;> simp
  have hm := hnn (roundedValue m)
  unfold roundInt
  generalize clip (roundedValue m) = x at *
  generalize clip (roundedValue n) = y at *
  cases x <;> cases y <;> simp_all [eq]

lemma isZero_sub_roundInt {m n : ℤ} (h : ((roundInt m).sub (roundInt n)).isZero = true) :
    roundInt m = roundInt n := by
  by_contra hne
  have hs := sign_sub_roundInt hne
  rw [sign, if_pos h] at hs
  have hmn : m - n = 0 := sign_eq_zero_iff_zero.mp hs.symm
  exact hne (by rw [show m = n by omega])

end Binary64

end PhpInternals.Found

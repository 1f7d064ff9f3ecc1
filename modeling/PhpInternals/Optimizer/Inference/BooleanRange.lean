import PhpInternals.Optimizer.Inference.BinaryOpRange

/-!
# Ranges of boolean operators and comparisons

* `calcBooleanRange`: the cases of `zend_inference_calc_range` whose result is a boolean, with
  `OP1_HAS_RANGE` and `OP2_HAS_RANGE` as `Operand.range` gives them. The flags of the operands are
  not read.
* `BooleanOp.MayBe`: the answers an operator can give on two intervals; `BooleanOp.Keeps`: the
  answers the code leaves open. The two differ where a flag opens a side that the code takes for
  closed, and for `xor`, where the code tests the lower bound it has just replaced.
* `calcBooleanRange_sound_iff`: sound exactly where every possible answer is left open.
-/

namespace PhpInternals.Optimizer.Inference

open Option

/-! ## The model -/

/-- `bool` stands for `BOOL`, `JMPZ_EX` and `JMPNZ_EX`. -/
inductive BooleanOp where
  | bool | boolNot | boolXor | isIdentical | isEqual | isNotIdentical | isNotEqual
  | isSmaller | isSmallerOrEqual

/-- A C truth value. -/
def truth (p : Bool) : BitVec 64 := if p then 1 else 0

/-- The range of a result with the truth values `min` and `max` for its ends. -/
def truthRange (min max : Bool) : ZendSsaRange := ⟨truth min, truth max, false, false⟩

/-- `IS_IDENTICAL` and `IS_EQUAL`. -/
def equalRange (r1 r2 : ZendSsaRange) : ZendSsaRange :=
  truthRange (r1.min = r1.max ∧ r2.min = r2.max ∧ r1.min = r2.max)
    (r1.min.toInt ≤ r2.max.toInt ∧ r2.min.toInt ≤ r1.max.toInt)

/-- `IS_NOT_IDENTICAL` and `IS_NOT_EQUAL`. -/
def notEqualRange (r1 r2 : ZendSsaRange) : ZendSsaRange :=
  truthRange (r2.max.toInt < r1.min.toInt ∨ r1.max.toInt < r2.min.toInt)
    (r1.min ≠ r1.max ∨ r2.min ≠ r2.max ∨ r1.min ≠ r2.max)

/-- The bounds of an operand of `xor` read as a boolean: the lower one is overwritten before the
upper one is computed from it. -/
def truthBounds (r : ZendSsaRange) : Bool × Bool :=
  let opMin : Bool := 0 < r.min.toInt ∨ r.max.toInt < 0
  (opMin, opMin ≠ false ∨ r.max ≠ 0)

/-- `BOOL_XOR`. -/
def xorRange (r1 r2 : ZendSsaRange) : ZendSsaRange :=
  let op1 := truthBounds r1
  let op2 := truthBounds r2
  if op1.1 = op1.2 ∧ op2.1 = op2.2 then
    if op1.1 = op2.1 then truthRange false false else truthRange true true
  else truthRange false true

/-- The range given to the result. Source: `zend_inference.c` `zend_inference_calc_range`. -/
def calcBooleanRange (op : BooleanOp) (op1 op2 : Operand) : ZendSsaRange :=
  match op, op1.range, op2.range with
  | .bool, some r1, _ =>
    truthRange (0 < r1.min.toInt ∨ r1.max.toInt < 0) (r1.min ≠ 0 ∨ r1.max ≠ 0)
  | .boolNot, some r1, _ =>
    truthRange (r1.min = 0 ∧ r1.max = 0) (r1.min.toInt ≤ 0 ∧ 0 ≤ r1.max.toInt)
  | .boolXor, some r1, some r2 => xorRange r1 r2
  | .isIdentical, some r1, some r2 => equalRange r1 r2
  | .isEqual, some r1, some r2 => equalRange r1 r2
  | .isNotIdentical, some r1, some r2 => notEqualRange r1 r2
  | .isNotEqual, some r1, some r2 => notEqualRange r1 r2
  | .isSmaller, some r1, some r2 =>
    truthRange (r1.max.toInt < r2.min.toInt) (r1.min.toInt < r2.max.toInt)
  | .isSmallerOrEqual, some r1, some r2 =>
    truthRange (r1.max.toInt ≤ r2.min.toInt) (r1.min.toInt ≤ r2.max.toInt)
  | _, _, _ => truthRange false true

/-- The operators on integers. -/
def BooleanOp.eval (x y : ℤ) : BooleanOp → Bool
  | .bool => x ≠ 0
  | .boolNot => x = 0
  | .boolXor => decide (x ≠ 0) ^^ decide (y ≠ 0)
  | .isIdentical | .isEqual => x = y
  | .isNotIdentical | .isNotEqual => x ≠ y
  | .isSmaller => x < y
  | .isSmallerOrEqual => x ≤ y

/-! ## Possible answers -/

/-- Some number of `[a, b]` has the truth value `u`. -/
def MayTruth (a b : ℤ) : Bool → Prop
  | true => a ≠ 0 ∨ b ≠ 0
  | false => a ≤ 0 ∧ 0 ≤ b

/-- Some number of `[a, b]` and some number of `[c, d]` are equal, or are not. -/
def MayEqual (a b c d : ℤ) : Bool → Prop
  | true => a ≤ d ∧ c ≤ b
  | false => a ≠ b ∨ c ≠ d ∨ a ≠ d

/-- The answers on numbers of `[a, b]` and `[c, d]`. -/
def BooleanOp.MayBe (a b c d : ℤ) : BooleanOp → Bool → Prop
  | .bool, v => MayTruth a b v
  | .boolNot, v => MayTruth a b (!v)
  | .boolXor, v => ∃ u, MayTruth a b u ∧ MayTruth c d (u ^^ v)
  | .isIdentical, v | .isEqual, v => MayEqual a b c d v
  | .isNotIdentical, v | .isNotEqual, v => MayEqual a b c d (!v)
  | .isSmaller, true => a < d
  | .isSmaller, false => c ≤ b
  | .isSmallerOrEqual, true => a ≤ d
  | .isSmallerOrEqual, false => c < b

/-- The truth values that `xor` leaves to an operand. A range from below zero to zero loses `true`.
-/
def XorKeeps (r : ZendSsaRange) : Bool → Prop
  | true => 0 < r.min.toInt ∨ r.max.toInt ≠ 0
  | false => r.min.toInt ≤ 0 ∧ 0 ≤ r.max.toInt

/-- The answers that the code leaves open: those of the bounds without their flags. -/
def BooleanOp.Keeps : BooleanOp → Option ZendSsaRange → Option ZendSsaRange → Bool → Prop
  | .bool, some r1, _, v => MayTruth r1.min.toInt r1.max.toInt v
  | .boolNot, some r1, _, v => MayTruth r1.min.toInt r1.max.toInt (!v)
  | .boolXor, some r1, some r2, v => ∃ u, XorKeeps r1 u ∧ XorKeeps r2 (u ^^ v)
  | op, some r1, some r2, v =>
    op.MayBe r1.min.toInt r1.max.toInt r2.min.toInt r2.max.toInt v
  | _, _, _, _ => True

variable {op1 op2 : Operand} {r r1 r2 : ZendSsaRange} {x y a b c d : ℤ} {u v : Bool}

lemma mayTruth_iff (hab : a ≤ b) : MayTruth a b u ↔ ∃ x, a ≤ x ∧ x ≤ b ∧ decide (x ≠ 0) = u := by
  cases u with
  | true =>
    simp only [MayTruth, decide_eq_true_iff]
    constructor
    · rintro (h | h)
      · exact ⟨a, le_rfl, hab, h⟩
      · exact ⟨b, hab, le_rfl, h⟩
    · rintro ⟨x, hax, hxb, hx⟩
      omega
  | false =>
    simp only [MayTruth, decide_eq_false_iff_not, not_not]
    constructor
    · exact fun h => ⟨0, h.1, h.2, rfl⟩
    · rintro ⟨x, hax, hxb, rfl⟩
      exact ⟨hax, hxb⟩

lemma mayEqual_iff (hab : a ≤ b) (hcd : c ≤ d) : MayEqual a b c d u ↔
    ∃ x y, (a ≤ x ∧ x ≤ b) ∧ (c ≤ y ∧ y ≤ d) ∧ decide (x = y) = u := by
  cases u with
  | true =>
    simp only [MayEqual, decide_eq_true_iff]
    constructor
    · exact fun h => ⟨max a c, max a c, by omega, by omega, rfl⟩
    · rintro ⟨x, y, hx, hy, rfl⟩
      omega
  | false =>
    simp only [MayEqual, decide_eq_false_iff_not]
    constructor
    · intro h
      -- two ends that differ
      rcases eq_or_ne a c with rfl | hac
      · rcases eq_or_ne a d with rfl | had
        · exact ⟨b, a, by omega, by omega, by omega⟩
        · exact ⟨a, d, by omega, by omega, had⟩
      · exact ⟨a, c, by omega, by omega, hac⟩
    · rintro ⟨x, y, hx, hy, hne⟩
      omega

/-- The closed form is right on intervals that are not empty. -/
lemma BooleanOp.mayBe_iff (op : BooleanOp) (hab : a ≤ b) (hcd : c ≤ d) : op.MayBe a b c d v ↔
    ∃ x y, (a ≤ x ∧ x ≤ b) ∧ (c ≤ y ∧ y ≤ d) ∧ op.eval x y = v := by
  have hnot : ∀ {p : Prop} [Decidable p], decide p = !v ↔ decide (¬ p) = v := fun {p} _ => by
    by_cases hp : p <;> cases v <;> simp [hp]
  cases op with
  | bool =>
    rw [MayBe, mayTruth_iff hab]
    exact ⟨fun ⟨x, h1, h2, h3⟩ => ⟨x, c, ⟨h1, h2⟩, ⟨le_rfl, hcd⟩, h3⟩,
      fun ⟨x, _, hx, _, h3⟩ => ⟨x, hx.1, hx.2, h3⟩⟩
  | boolNot =>
    rw [MayBe, mayTruth_iff hab]
    simp only [hnot, not_not, ne_eq]
    exact ⟨fun ⟨x, h1, h2, h3⟩ => ⟨x, c, ⟨h1, h2⟩, ⟨le_rfl, hcd⟩, h3⟩,
      fun ⟨x, _, hx, _, h3⟩ => ⟨x, hx.1, hx.2, h3⟩⟩
  | boolXor =>
    simp only [MayBe, mayTruth_iff hab, mayTruth_iff hcd, eval]
    constructor
    · rintro ⟨u, ⟨x, hax, hxb, rfl⟩, y, hcy, hyd, hy⟩
      refine ⟨x, y, ⟨hax, hxb⟩, ⟨hcy, hyd⟩, ?_⟩
      rw [hy, ← Bool.xor_assoc, Bool.xor_self, Bool.false_xor]
    · rintro ⟨x, y, hx, hy, rfl⟩
      refine ⟨_, ⟨x, hx.1, hx.2, rfl⟩, y, hy.1, hy.2, ?_⟩
      rw [← Bool.xor_assoc, Bool.xor_self, Bool.false_xor]
  | isIdentical | isEqual => exact mayEqual_iff hab hcd
  | isNotIdentical | isNotEqual =>
    rw [MayBe, mayEqual_iff hab hcd]
    simp only [hnot, eval, ne_eq]
  | isSmaller =>
    cases v <;> simp only [MayBe, eval, decide_eq_true_iff, decide_eq_false_iff_not]
    · exact ⟨fun h => ⟨b, c, by omega, by omega, by omega⟩, by rintro ⟨x, y, hx, hy, h⟩; omega⟩
    · exact ⟨fun h => ⟨a, d, by omega, by omega, h⟩, by rintro ⟨x, y, hx, hy, h⟩; omega⟩
  | isSmallerOrEqual =>
    cases v <;> simp only [MayBe, eval, decide_eq_true_iff, decide_eq_false_iff_not]
    · exact ⟨fun h => ⟨b, c, by omega, by omega, by omega⟩, by rintro ⟨x, y, hx, hy, h⟩; omega⟩
    · exact ⟨fun h => ⟨a, d, by omega, by omega, h⟩, by rintro ⟨x, y, hx, hy, h⟩; omega⟩

/-! ## The answers left open -/

lemma has_truthRange_iff {min max : Bool} : (truthRange min max).Has (truth v).toInt ↔
    (v = true → max = true) ∧ (v = false → min = false) := by
  cases min <;> cases max <;> cases v <;> simp [truthRange, truth, ZendSsaRange.Has]

lemma eq_zero_iff_toInt (x : BitVec 64) : x = 0 ↔ x.toInt = 0 := BitVec.toInt_inj.symm

lemma xorRange_has_iff : (xorRange r1 r2).Has (truth v).toInt ↔
    ∃ u, XorKeeps r1 u ∧ XorKeeps r2 (u ^^ v) := by
  have hkeep : ∀ r : ZendSsaRange, (XorKeeps r true ↔ (truthBounds r).2 = true) ∧
      (XorKeeps r false ↔ (truthBounds r).1 = false) := fun r => by
    simp only [XorKeeps, truthBounds, ne_eq, eq_zero_iff_toInt, decide_eq_true_iff,
      decide_eq_false_iff_not]
    omega
  have hmono : ∀ r : ZendSsaRange, (truthBounds r).1 = true → (truthBounds r).2 = true :=
    fun r h => by simp_all [truthBounds]
  have h1 := hmono r1
  have h2 := hmono r2
  unfold xorRange
  simp only [Bool.exists_bool, Bool.false_xor, Bool.true_xor]
  revert h1 h2
  rcases hb1 : truthBounds r1 with ⟨m1, n1⟩
  rcases hb2 : truthBounds r2 with ⟨m2, n2⟩
  have hk1 := hkeep r1
  have hk2 := hkeep r2
  rw [hb1] at hk1
  rw [hb2] at hk2
  cases v <;> simp only [Bool.not_false, Bool.not_true, hk1.1, hk1.2, hk2.1, hk2.2] <;>
    cases m1 <;> cases n1 <;> cases m2 <;> cases n2 <;> simp [has_truthRange_iff]

lemma calcBooleanRange_has_iff (op : BooleanOp) :
    (calcBooleanRange op op1 op2).Has (truth v).toInt ↔ op.Keeps op1.range op2.range v := by
  have hopen : (truthRange false true).Has (truth v).toInt :=
    has_truthRange_iff.mpr ⟨by simp, by simp⟩
  unfold calcBooleanRange
  cases h1 : op1.range with
  | none => cases op <;> exact iff_of_true hopen trivial
  | some r1 =>
    cases h2 : op2.range with
    | none =>
      cases op with
      | bool | boolNot =>
        cases v <;> simp [has_truthRange_iff, BooleanOp.Keeps, MayTruth,
          ← BitVec.toInt_inj] <;> omega
      | _ => exact iff_of_true hopen trivial
    | some r2 =>
      cases op with
      | boolXor => exact xorRange_has_iff
      | _ =>
        cases v <;> simp [has_truthRange_iff, BooleanOp.Keeps, BooleanOp.MayBe, MayTruth, MayEqual,
          equalRange, notEqualRange, ← BitVec.toInt_inj] <;> omega

/-! ## Soundness -/

/-- The ends of a range of words: a set flag opens its side. -/
def ZendSsaRange.lo (r : ZendSsaRange) : ℤ := if r.underflow then -2 ^ 63 else r.min.toInt

/-- The upper end. -/
def ZendSsaRange.hi (r : ZendSsaRange) : ℤ := if r.overflow then 2 ^ 63 - 1 else r.max.toInt

/-- What is known of an operand: its range, or every word. -/
def Operand.span (o : Operand) : ZendSsaRange := o.range.getD (unboundedRange true)

/-- An operand that has a range holds a number of it. -/
def Operand.Holds (o : Operand) (x : BitVec 64) : Prop := ∀ r, o.range = some r → r.Has x.toInt

lemma ZendSsaRange.has_word_iff (x : BitVec 64) :
    r.Has x.toInt ↔ r.lo ≤ x.toInt ∧ x.toInt ≤ r.hi := by
  have hx := word_bounds x
  unfold Has lo hi
  cases r.underflow <;> cases r.overflow <;> simp <;> omega

lemma Operand.holds_iff (o : Operand) (x : BitVec 64) :
    o.Holds x ↔ o.span.lo ≤ x.toInt ∧ x.toInt ≤ o.span.hi := by
  rw [← ZendSsaRange.has_word_iff, Holds, span]
  cases o.range with
  | none => simp [unboundedRange, ZendSsaRange.Has]
  | some r => simp

lemma ZendSsaRange.exists_word_of_mem (h1 : r.lo ≤ x) (h2 : x ≤ r.hi) :
    ∃ u : BitVec 64, u.toInt = x := by
  have hlo : (BitVec.intMin 64).toInt ≤ r.lo := by
    unfold lo
    split_ifs
    · exact le_rfl
    · exact (word_bounds _).1
  have hhi : r.hi ≤ (BitVec.intMax 64).toInt := by
    unfold hi
    split_ifs
    · exact le_rfl
    · exact Int.le_of_lt_add_one (word_bounds _).2
  exact exists_word (hlo.trans h1) (h2.trans hhi)

/-- **The range of a boolean result is sound if and only if the code leaves every answer open that
the operands allow**, with a set flag read as an open side. -/
theorem calcBooleanRange_sound_iff (op : BooleanOp) (op1 op2 : Operand) :
    (∀ x y : BitVec 64, op1.Holds x → op2.Holds y →
        (calcBooleanRange op op1 op2).Has (truth (op.eval x.toInt y.toInt)).toInt) ↔
      ∀ v, op1.span.lo ≤ op1.span.hi → op2.span.lo ≤ op2.span.hi →
        op.MayBe op1.span.lo op1.span.hi op2.span.lo op2.span.hi v →
          op.Keeps op1.range op2.range v := by
  simp only [Operand.holds_iff, calcBooleanRange_has_iff]
  constructor
  · intro h v h1 h2 hv
    obtain ⟨x, y, hx, hy, rfl⟩ := (op.mayBe_iff h1 h2).mp hv
    obtain ⟨u, rfl⟩ := ZendSsaRange.exists_word_of_mem hx.1 hx.2
    obtain ⟨w, rfl⟩ := ZendSsaRange.exists_word_of_mem hy.1 hy.2
    exact h u w hx hy
  · intro h x y hx hy
    have h1 := hx.1.trans hx.2
    have h2 := hy.1.trans hy.2
    exact h _ h1 h2 ((op.mayBe_iff h1 h2).mpr ⟨_, _, hx, hy, rfl⟩)

/-- `[-5, 0] xor [-1, 1]`: the first operand loses `true`, but the second keeps both values and the
result both answers. -/
theorem calcBooleanRange_sound_iff_mixed :
    (calcBooleanRange .boolXor (.variable (some ⟨-5, 0, false, false⟩))
      (.variable (some ⟨-1, 1, false, false⟩))).Has
      (truth (BooleanOp.boolXor.eval (-3) 1)).toInt := by
  refine (calcBooleanRange_sound_iff .boolXor (.variable (some ⟨-5, 0, false, false⟩))
    (.variable (some ⟨-1, 1, false, false⟩))).mpr (fun v _ _ _ => ⟨false, ?_, ?_⟩) (-3) 1 ?_ ?_
  · exact ⟨by decide, by decide⟩
  · cases v
    · exact ⟨by decide, by decide⟩
    · exact .inr (by decide)
  all_goals
    intro r hr
    obtain rfl := some.inj hr
    decide

/-- `[-5, 0] xor 0` is given the range `[0, 0]`, but `-3 xor 0` is true. -/
theorem xorRange_misses : ¬ ∀ (op1 op2 : Operand) (x y : BitVec 64), op1.Holds x → op2.Holds y →
    (calcBooleanRange .boolXor op1 op2).Has
      (truth (BooleanOp.boolXor.eval x.toInt y.toInt)).toInt := by
  intro h
  have hhs := h (.variable (some ⟨-5, 0, false, false⟩)) (.long 0) (-3) 0
    (fun r hr => some.inj hr ▸ by decide) (fun r hr => some.inj hr ▸ by decide)
  have hv : calcBooleanRange .boolXor (.variable (some ⟨-5, 0, false, false⟩)) (.long 0) =
      truthRange false false := by decide +kernel
  exact absurd hhs.2 (by decide +kernel)

end PhpInternals.Optimizer.Inference

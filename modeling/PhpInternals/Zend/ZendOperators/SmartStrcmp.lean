import PhpInternals.Found.Binary64
import PhpInternals.Zend.ZendOperators.NumericPrefix

/-!
# Comparing numeric strings

Embedding of `zendi_smart_strcmp` (`Zend/zend_operators.c`), with `zend_binary_strcmp`. The function
is over any type of doubles with the operations it uses; the results are about doubles with integer
values, to which `zend_strtod` rounds the texts of integers.
-/

namespace PhpInternals.Zend.ZendOperators

open Int Option List PhpInternals.Found

/-! ## The functions -/

/-- The operations on doubles that `zendi_smart_strcmp` uses. -/
structure DoubleCmp (D : Type) where
  zero : D
  /-- `(double) n`. -/
  ofLong : ℤ → D
  sub : D → D → D
  /-- `d == 0.`. -/
  isZero : D → Bool
  /-- `d < 0`. -/
  isNeg : D → Bool
  eq : D → D → Bool
  /-- `zend_finite(d)`. -/
  isFinite : D → Bool

/-- Source: `zend_binary_strcmp`. -/
def zendBinaryStrcmp (s1 s2 : List UInt8) : ℤ :=
  let retval := memcmp s1 s2
  if retval = 0 then bmod (s1.length - s2.length) (2 ^ 32) else retval

/-- `ZEND_NORMALIZE_BOOL` of an integer. -/
def normalizeBool (n : ℤ) : ℤ := if n ≠ 0 then if n < 0 then -1 else 1 else 0

variable {D : Type} (ops : DoubleCmp D) (strtod : Strtod D)

/-- `ZEND_NORMALIZE_BOOL` of a double. -/
def normalizeDouble (d : D) : ℤ := if ops.isZero d then 0 else if ops.isNeg d then -1 else 1

/-- The label `string_cmp`. Source: `zendi_smart_strcmp`. -/
def stringCmp (s1 s2 : List UInt8) : ℤ := normalizeBool (zendBinaryStrcmp s1 s2)

/-- `zendi_smart_strcmp` of two strings that are numeric, of the types `ret1`, `ret2`. -/
def compareNumeric (s1 s2 : List UInt8) (ret1 ret2 : NumType) (out1 out2 : NumericOut D) : ℤ :=
  let lval1 := (out1.lval.getD 0).toInt
  let lval2 := (out2.lval.getD 0).toInt
  let dval1 := out1.dval.getD ops.zero
  let dval2 := out2.dval.getD ops.zero
  let oflow1 := out1.oflowInfo.getD 0
  let oflow2 := out2.oflowInfo.getD 0
  -- both values are integers overflown to the same side
  if oflow1 ≠ 0 ∧ oflow1 = oflow2 ∧ ops.isZero (ops.sub dval1 dval2) = true then stringCmp s1 s2
  else
    match ret1, ret2 with
    | .long, .long => if lval2 < lval1 then 1 else if lval1 < lval2 then -1 else 0
    | .long, .double =>
      if oflow2 ≠ 0 then -1 * oflow2
      else normalizeDouble ops (ops.sub (ops.ofLong lval1) dval2)
    | .double, .long =>
      if oflow1 ≠ 0 then oflow1
      else normalizeDouble ops (ops.sub dval1 (ops.ofLong lval2))
    | .double, .double =>
      if ops.eq dval1 dval2 = true ∧ ops.isFinite dval1 = false then stringCmp s1 s2
      else normalizeDouble ops (ops.sub dval1 dval2)

/-- Source: `zendi_smart_strcmp`. -/
def zendiSmartStrcmp (s1 s2 : List UInt8) : ℤ :=
  let out1 := isNumericStringEx strtod s1 true true true 0
  let out2 := isNumericStringEx strtod s2 true true true 0
  match out1.ret, out2.ret with
  | some ret1, some ret2 => compareNumeric ops s1 s2 ret1 ret2 out1 out2
  | _, _ => stringCmp s1 s2

/-! ## Integers as strings -/

/-- A text of an integer without superfluous zeros. -/
def CanonicalInt (s : List UInt8) (n : ℤ) : Prop :=
  ∃ sg ds, (sg = [] ∨ sg = [0x2d]) ∧ IsCanonical ds ∧ s = sg ++ ds ∧ n = signedValue sg ds

/-- The sign that is stored on overflow. -/
def overflowSide (n : ℤ) : ℤ := if n < 0 then -1 else 1

lemma overflowSide_ne_zero (n : ℤ) : overflowSide n ≠ 0 := by
  unfold overflowSide
  split_ifs <;> decide

/-- Canonical digits, taken apart: zero is all zeros, other numbers have none in front. -/
lemma exists_reading_canonical {sg ds : List UInt8} (hsg : sg = [] ∨ sg = [0x2d])
    (hds : IsCanonical ds) :
    ∃ zs ks, zs ++ ks = ds ∧ Reading (sg ++ ds) [] sg zs ks [] := by
  have hsn : IsSign sg := hsg.imp_right .inl
  have hs : ∀ c, (sg ++ ds).head? = some c → ¬ IsSpace c := by
    simpa using head_not_space_of_isFloat (isFloat_integer hsn hds.1) []
  have hn : sg = [] → ∀ c, (sg ++ ds).head? = some c → c ≠ 0x2d ∧ c ≠ 0x2b := by
    rintro rfl c hc
    exact ne_sign_of_digit (.inl (hds.1.2 c (mem_of_mem_head? hc)))
  obtain ⟨zs, ks, rfl, hzs, hks⟩ := exists_span (· = 0x30) ds
  refine ⟨zs, ks, rfl, by simp, nofun, by simpa using hs, ?_, hzs, hks⟩
  exact ⟨rfl, hsn, by simpa using hn, hds.1.2, nofun⟩

variable {n : ℤ} {s : List UInt8}

/-- A canonical integer is read as itself, or as a double if it is too large. -/
lemma isNumeric_canonical (h : CanonicalInt s n) :
    let out := isNumericStringEx strtod s true true true 0
    (FitsLong n → out.ret = some .long ∧ (∃ l, out.lval = some l ∧ l.toInt = n) ∧
        out.oflowInfo = some 0) ∧
      (¬ FitsLong n → out.ret = some .double ∧ out.dval = some (strtod.value s) ∧
        out.oflowInfo = some (overflowSide n)) := by
  obtain ⟨sg, ds, hsg, hds, rfl, rfl⟩ := h
  obtain ⟨zs, ks, rfl, hr⟩ := exists_reading_canonical hsg hds
  have hb : body sg zs ks [] = sg ++ (zs ++ ks) := by rw [body, append_nil]
  have hg := not_goesOn_nil
  -- the wrapper lets digits and signs pass
  have hw : isNumericStringEx strtod (sg ++ (zs ++ ks)) true true true 0 =
      isNumericStringExI strtod (sg ++ (zs ++ ks)) true true true 0 := by
    rw [isNumericStringEx, if_neg]
    rintro ⟨hhg, -⟩
    rw [UInt8.lt_iff_toNat_lt] at hhg
    rcases hsg with rfl | rfl
    · obtain ⟨d, ds', hcn⟩ := exists_cons_of_ne_nil hds.1.1
      have hd := (hds.1.2 d (by rw [hcn]; exact mem_cons_self)).2
      rw [nil_append, hcn] at hhg
      exact absurd hhg (by simpa using hd)
    · rw [singleton_append, headD_cons] at hhg
      exact absurd hhg (by decide)
  have hev : strtod.eval (body sg zs ks []) = strtod.value (sg ++ (zs ++ ks)) := by
    have hc : strtod.consumed (body sg zs ks []) = (sg ++ (zs ++ ks)).length :=
      strtod.consumed_eq (longest_integer hr.parts hds.1.1 hg)
    rw [Strtod.eval, hc, hb, take_length]
  have hsd : ¬ FitsLong (signedValue sg (zs ++ ks)) →
      oflowSign (body sg zs ks []) = overflowSide (signedValue sg (zs ++ ks)) := by
    intro hf
    rw [FitsLong, zendLongMin, zendLongMax, signedValue] at hf
    simp only [oflowSign, overflowSide, signedValue, hr.headD_iff.1]
    split_ifs at hf ⊢ <;> omega
  simp only [hw]
  rcases lt_or_ge ks.length maxLengthOfLong with hlt | hge
  · have hm : ¬ Miscompared sg ks [] := by
      rintro ⟨-, ⟨⟨_, _, _, h, _⟩, -⟩ | ⟨-, -, -, h⟩⟩
      · simp at h
      · exact h rfl
    obtain ⟨hft, hnt⟩ := isNumeric_integer strtod true 0 hr hds.1.1 hg hlt (fun _ => rfl) hm
    refine ⟨hft, fun hf => ?_⟩
    obtain ⟨hrt, hdv, ho⟩ := hnt hf
    rw [hev] at hdv
    exact ⟨hrt, hdv, by rw [ho, if_pos rfl, hsd hf]⟩
  · have hnt := not_fitsLong_of_tooLong hr hge
    obtain ⟨hrt, hdv, ho⟩ := isNumeric_tooLong strtod true 0 hr hge
    rw [hev] at hdv
    exact ⟨fun hf => absurd hf hnt, fun _ => ⟨hrt, hdv, by rw [ho, if_pos rfl, hsd hnt]⟩⟩

/-! ## Comparing bytes -/

lemma stringCmp_self (s : List UInt8) : stringCmp s s = 0 := by
  rw [stringCmp, zendBinaryStrcmp, memcmp_self, sub_self]
  rfl

lemma normalizeBool_eq_sign (n : ℤ) : normalizeBool n = n.sign := by
  rw [normalizeBool]
  rcases lt_trichotomy n 0 with hn | rfl | hn
  · rw [if_pos hn.ne, if_pos hn, sign_eq_neg_one_of_neg hn]
  · rfl
  · rw [if_pos hn.ne', if_neg hn.not_gt, sign_eq_one_of_pos hn]

/-- How two texts of digits compare: by the digits in front that both have, as numbers, and then by
their lengths, whose difference is an `int`. -/
def digitOrder (ds es : List UInt8) : ℤ :=
  let k := min ds.length es.length
  let leading := (decimalValue (ds.take k) : ℤ) - decimalValue (es.take k)
  if leading = 0 then bmod (ds.length - es.length) (2 ^ 32) else leading

lemma stringCmp_digits {ds es : List UInt8} (hds : ∀ b ∈ ds, IsDigit b)
    (hes : ∀ b ∈ es, IsDigit b) :
    stringCmp ds es = (digitOrder ds es).sign := by
  have hm := memcmp_digits (fun b hb => hds b (mem_of_mem_take hb))
    (fun b hb => hes b (mem_of_mem_take hb))
    (show (ds.take (min ds.length es.length)).length = (es.take (min ds.length es.length)).length by
      rw [length_take, length_take]; omega)
  rw [memcmp_take] at hm
  rw [stringCmp, normalizeBool_eq_sign, zendBinaryStrcmp, hm, digitOrder]
  simp only [sign_eq_zero_iff_zero]
  split_ifs
  · rfl
  · exact sign_sign

lemma stringCmp_cons (b : UInt8) (s t : List UInt8) :
    stringCmp (b :: s) (b :: t) = stringCmp s t := by
  simp only [stringCmp, zendBinaryStrcmp, memcmp, UInt8.lt_irrefl, if_false, length_cons,
    Nat.cast_succ,
    add_sub_add_right_eq_sub]

/-! ## Comparing integers -/

/-- The operations of doubles with integer values. -/
def binaryOps : DoubleCmp Binary64 :=
  ⟨.finite 0, Binary64.roundInt, Binary64.sub, Binary64.isZero, Binary64.isNeg, Binary64.eq,
    Binary64.isFinite⟩

@[simp] lemma binaryOps_sub (d e : Binary64) : binaryOps.sub d e = d.sub e := rfl

@[simp] lemma binaryOps_isZero (d : Binary64) : binaryOps.isZero d = d.isZero := rfl

@[simp] lemma binaryOps_eq (d e : Binary64) : binaryOps.eq d e = d.eq e := rfl

@[simp] lemma binaryOps_isFinite (d : Binary64) : binaryOps.isFinite d = d.isFinite := rfl

@[simp] lemma normalizeDouble_binaryOps (d : Binary64) : normalizeDouble binaryOps d = d.sign := rfl

/-- `zend_strtod` rounds the texts of integers correctly. -/
def RoundsIntegers (strtod : Strtod Binary64) : Prop :=
  ∀ s n, CanonicalInt s n → strtod.value s = Binary64.roundInt n

/-- Two integers beyond the range of `zend_long` that round to the same double. -/
def Tied (x y : ℤ) : Prop :=
  ¬ FitsLong x ∧ ¬ FitsLong y ∧ Binary64.roundInt x = Binary64.roundInt y

/-- The texts of two integers of the same sign compare as the integers do: positive ones of one
length, and those for which the digits in front agree with the number of digits, for negative ones
the other way around. -/
def TextsOrdered (x y : ℤ) : Prop :=
  let ds := natDecimal x.natAbs
  let es := natDecimal y.natAbs
  let longer := (ds.length : ℤ) - es.length
  if 0 < x then longer = 0 ∨ 0 < longer * digitOrder ds es else longer * digitOrder ds es < 0

lemma canonicalInt_intDecimal (n : ℤ) : CanonicalInt (intDecimal n) n := by
  rcases lt_or_ge n 0 with hn | hn
  · refine ⟨[0x2d], natDecimal n.natAbs, .inr rfl, isCanonical_natDecimal _, ?_, ?_⟩
    · rw [intDecimal, if_pos hn]
    · rw [signedValue, if_pos rfl, decimalValue_natDecimal]
      omega
  · refine ⟨[], natDecimal n.natAbs, .inl rfl, isCanonical_natDecimal _, ?_, ?_⟩
    · rw [intDecimal, if_neg (by omega)]
    · rw [signedValue, if_neg (by simp), decimalValue_natDecimal]
      omega

lemma CanonicalInt.unique {s1 s2 : List UInt8} (h1 : CanonicalInt s1 n) (h2 : CanonicalInt s2 n)
    (hn : n ≠ 0) : s1 = s2 := by
  obtain ⟨sg, ds, hsg, hds, rfl, h1⟩ := h1
  obtain ⟨sg', es, hsg', hes, rfl, h2⟩ := h2
  unfold signedValue at h1 h2
  have hv : decimalValue ds = decimalValue es := by split_ifs at h1 h2 <;> omega
  have htx : ds = es := by rw [← natDecimal_decimalValue hds, hv, natDecimal_decimalValue hes]
  have hsn : sg = sg' := by
    rcases hsg with rfl | rfl <;> rcases hsg' with rfl | rfl
    · rfl
    · rw [if_neg (by simp)] at h1
      rw [if_pos rfl] at h2
      omega
    · rw [if_pos rfl] at h1
      rw [if_neg (by simp)] at h2
      omega
    · rfl
  rw [htx, hsn]

/-- More digits make a greater number. -/
lemma sign_natDecimal_length {m n : ℕ} (hl : (natDecimal m).length ≠ (natDecimal n).length) :
    ((m : ℤ) - n).sign = (((natDecimal m).length : ℤ) - (natDecimal n).length).sign := by
  rcases lt_or_ge m n with hlt | hge
  · have hle := length_natDecimal_mono hlt.le
    rw [sign_eq_neg_one_of_neg (by omega), sign_eq_neg_one_of_neg (by omega)]
  · have hle := length_natDecimal_mono hge
    have hne : m ≠ n := fun heq => hl (by rw [heq])
    rw [sign_eq_one_of_pos (by omega), sign_eq_one_of_pos (by omega)]

/-- The digits of one length are in the order of the numbers. -/
lemma sign_digitOrder {m n : ℕ} (hl : (natDecimal m).length = (natDecimal n).length) :
    (digitOrder (natDecimal m) (natDecimal n)).sign = ((m : ℤ) - n).sign := by
  have hm : (natDecimal m).take (natDecimal n).length = natDecimal m := by rw [← hl, take_length]
  simp only [digitOrder, hl, min_self, hm, take_length, decimalValue_natDecimal, sub_self]
  split_ifs with hz
  · rw [hz]
    rfl
  · rfl

lemma mul_pos_iff_sign {a b : ℤ} (ha : a ≠ 0) : 0 < a * b ↔ b.sign = a.sign := by
  rcases lt_or_gt_of_ne ha with h | h
  · rw [sign_eq_neg_one_of_neg h, sign_eq_neg_one_iff_neg, ← neg_mul_neg,
      mul_pos_iff_of_pos_left (by omega), Int.neg_pos]
  · rw [sign_eq_one_of_pos h, sign_eq_one_iff_pos, mul_pos_iff_of_pos_left h]

/-- When the bytes of two texts decide, and the integers are of one sign. -/
lemma stringCmp_intDecimal_iff {x y : ℤ} (hxy : x ≠ y) (hx : x ≠ 0) (hs : x.sign = y.sign) :
    stringCmp (intDecimal x) (intDecimal y) = (x - y).sign ↔ TextsOrdered x y := by
  have hd := stringCmp_digits (isDigits_natDecimal x.natAbs).2 (isDigits_natDecimal y.natAbs).2
  have heq := sign_digitOrder (m := x.natAbs) (n := y.natAbs)
  have hne := sign_natDecimal_length (m := x.natAbs) (n := y.natAbs)
  rw [TextsOrdered]
  generalize hds : natDecimal x.natAbs = ds at *
  generalize hes : natDecimal y.natAbs = es at *
  rcases lt_or_gt_of_ne hx with hn | hp
  · have hy : y < 0 := by
      rw [sign_eq_neg_one_of_neg hn] at hs
      exact sign_eq_neg_one_iff_neg.mp hs.symm
    have hv : (x - y).sign = -((x.natAbs : ℤ) - y.natAbs).sign := by
      rw [← sign_neg]
      exact congrArg _ (by omega)
    rw [intDecimal, if_pos hn, hds, intDecimal, if_pos hy, hes, singleton_append,
      singleton_append, stringCmp_cons, hd, if_neg hn.not_gt, hv]
    by_cases hl : ds.length = es.length
    · have hnz : ((x.natAbs : ℤ) - y.natAbs).sign ≠ 0 := mt sign_eq_zero_iff_zero.mp (by omega)
      rw [heq hl, hl, sub_self, zero_mul]
      exact iff_of_false (by omega) (lt_irrefl 0)
    · rw [hne hl, ← neg_pos, ← mul_neg, mul_pos_iff_sign (by omega), sign_neg]
      omega
  · have hy : 0 < y := by
      rw [sign_eq_one_of_pos hp] at hs
      exact sign_eq_one_iff_pos.mp hs.symm
    have hv : (x - y).sign = ((x.natAbs : ℤ) - y.natAbs).sign := congrArg _ (by omega)
    rw [intDecimal, if_neg hp.not_gt, hds, intDecimal, if_neg hy.not_gt, hes, nil_append,
      nil_append, hd,
      if_pos hp, hv]
    by_cases hl : ds.length = es.length
    · exact iff_of_true (heq hl) (.inl (by omega))
    · rw [hne hl, or_iff_right (by omega), mul_pos_iff_sign (by omega)]

section compare

variable {strtod : Strtod Binary64} (hround : RoundsIntegers strtod) {s1 s2 : List UInt8} {x y : ℤ}
  (h1 : CanonicalInt s1 x) (h2 : CanonicalInt s2 y)

include h1 h2 in
/-- An integer that fits is on the right side of one that does not, and of one that does. -/
lemma zendiSmartStrcmp_of_fits (hf : FitsLong x ∨ FitsLong y) :
    zendiSmartStrcmp binaryOps strtod s1 s2 = (x - y).sign := by
  obtain ⟨hln, hdb⟩ := isNumeric_canonical strtod h1
  obtain ⟨hl, hdl⟩ := isNumeric_canonical strtod h2
  have hr : ∀ n, FitsLong n ↔ zendLongMin ≤ n ∧ n ≤ zendLongMax := fun n => Iff.rfl
  have hen : zendLongMin < 0 ∧ 0 < zendLongMax := by decide
  by_cases hx : FitsLong x
  · obtain ⟨hret1, ⟨l1, hl1, hval1⟩, ho⟩ := hln hx
    by_cases hy : FitsLong y
    · obtain ⟨hret2, ⟨l2, hl2, hval2⟩, -⟩ := hl hy
      simp only [zendiSmartStrcmp, hret1, hret2, compareNumeric, ho, hl1, hl2, getD_some,
        hval1, hval2, ne_eq, not_true, false_and, if_false]
      rcases lt_trichotomy x y with hlt | rfl | hgt
      · rw [if_neg (by omega), if_pos hlt, sign_eq_neg_one_of_neg (by omega)]
      · rw [if_neg (by omega), if_neg (by omega), sub_self]
        rfl
      · rw [if_pos hgt, sign_eq_one_of_pos (by omega)]
    obtain ⟨hret2, -, hof⟩ := hdl hy
    have hsd := overflowSide_ne_zero y
    simp only [zendiSmartStrcmp, hret1, hret2, compareNumeric, ho, hof, getD_some,
      ne_eq, not_true, false_and, if_false, hsd, not_false_eq_true, if_true]
    rw [hr] at hx hy
    rw [overflowSide]
    split_ifs with hng
    · rw [sign_eq_one_of_pos (by omega)]
      rfl
    · rw [sign_eq_neg_one_of_neg (by omega)]
      rfl
  · have hy := hf.resolve_left hx
    obtain ⟨hret1, -, ho⟩ := hdb hx
    obtain ⟨hret2, -, hof⟩ := hl hy
    have hsd := overflowSide_ne_zero x
    simp only [zendiSmartStrcmp, hret1, hret2, compareNumeric, ho, hof, getD_some,
      ne_eq, hsd, not_false_eq_true, true_and, false_and, if_false, if_true]
    rw [hr] at hx hy
    rw [overflowSide]
    split_ifs with hng
    · rw [sign_eq_neg_one_of_neg (by omega)]
    · rw [sign_eq_one_of_pos (by omega)]

include hround h1 h2 in
/-- Two integers that do not fit: their doubles decide, and when these are equal the texts. -/
lemma zendiSmartStrcmp_of_overflow (hx : ¬ FitsLong x) (hy : ¬ FitsLong y) :
    (Binary64.roundInt x = Binary64.roundInt y →
        zendiSmartStrcmp binaryOps strtod s1 s2 = stringCmp s1 s2) ∧
      (Binary64.roundInt x ≠ Binary64.roundInt y →
        zendiSmartStrcmp binaryOps strtod s1 s2 = (x - y).sign) := by
  obtain ⟨hret1, hdv, ho⟩ := (isNumeric_canonical strtod h1).2 hx
  obtain ⟨hret2, hdl, hof⟩ := (isNumeric_canonical strtod h2).2 hy
  rw [hround s1 x h1] at hdv
  rw [hround s2 y h2] at hdl
  simp only [zendiSmartStrcmp, hret1, hret2, compareNumeric, ho, hof, hdv, hdl,
    getD_some, binaryOps_sub, binaryOps_isZero, binaryOps_eq, normalizeDouble_binaryOps]
  constructor
  · intro heq
    split_ifs with hti hi
    · rfl
    · rfl
    exfalso
    have hsm : overflowSide x = overflowSide y := by
      have hsg := congrArg Binary64.sign heq
      rw [Binary64.sign_roundInt, Binary64.sign_roundInt] at hsg
      rw [overflowSide, overflowSide]
      have hxy : x < 0 ↔ y < 0 := by
        rw [← sign_eq_neg_one_iff_neg, hsg, sign_eq_neg_one_iff_neg]
      simp only [hxy]
    have hf : (Binary64.roundInt x).isFinite = true := by
      by_contra hf
      exact hi ⟨Binary64.eq_roundInt_iff.mpr heq, by simpa using hf⟩
    refine hti ⟨overflowSide_ne_zero x, hsm, ?_⟩
    rw [← heq]
    cases hd : Binary64.roundInt x with
    | finite n =>
      rw [Binary64.sub, sub_self, Binary64.roundInt_zero]
      rfl
    | infinity b | nan => rw [hd] at hf; exact absurd hf (by simp [Binary64.isFinite])
  · intro hne
    split_ifs with hti hi
    · exact absurd (Binary64.isZero_sub_roundInt hti.2.2) hne
    · exact absurd (Binary64.eq_roundInt_iff.mp hi.1) hne
    · exact Binary64.sign_sub_roundInt hne

include hround h1 h2 in
/-- **The comparison of integers as strings** gives the sign of the difference if and only if
integers that are tied are equal or have ordered texts. -/
theorem zendiSmartStrcmp_sign_iff : zendiSmartStrcmp binaryOps strtod s1 s2 = (x - y).sign ↔
    (Tied x y → x = y ∨ TextsOrdered x y) := by
  by_cases ht : Tied x y
  · obtain ⟨hx, hy, heq⟩ := ht
    have hx0 : x ≠ 0 := by
      rintro rfl
      exact hx (by decide)
    have hs : x.sign = y.sign := by
      rw [← Binary64.sign_roundInt, heq, Binary64.sign_roundInt]
    have hy0 : y ≠ 0 := fun hz => hx0 (sign_eq_zero_iff_zero.mp (by rw [hs, hz]; rfl))
    rw [(zendiSmartStrcmp_of_overflow hround h1 h2 hx hy).1 heq,
      h1.unique (canonicalInt_intDecimal x) hx0,
      h2.unique (canonicalInt_intDecimal y) hy0]
    by_cases hxy : x = y
    · rw [hxy, stringCmp_self, sub_self]
      exact iff_of_true rfl fun _ => .inl rfl
    · rw [stringCmp_intDecimal_iff hxy hx0 hs]
      exact ⟨fun h _ => .inr h, fun h => (h ⟨hx, hy, heq⟩).resolve_left hxy⟩
  · refine iff_of_true ?_ fun h => absurd h ht
    by_cases hf : FitsLong x ∨ FitsLong y
    · exact zendiSmartStrcmp_of_fits h1 h2 hf
    push Not at hf
    exact (zendiSmartStrcmp_of_overflow hround h1 h2 hf.1 hf.2).2 fun heq => ht ⟨hf.1, hf.2, heq⟩

end compare

/-! ## Witness and counterexample -/

/-- The integer of a text. -/
def textValue (t : List UInt8) : ℤ :=
  if t.headD 0 = 0x2d then -(decimalValue t.tail : ℤ) else decimalValue t

lemma textValue_of_canonical (h : CanonicalInt s n) : textValue s = n := by
  obtain ⟨sg, ds, rfl | rfl, hds, rfl, rfl⟩ := h
  · obtain ⟨d, ds', rfl⟩ := exists_cons_of_ne_nil hds.1.1
    have hd := (ne_sign_of_digit (.inl (hds.1.2 d mem_cons_self))).1
    simp [textValue, signedValue, hd]
  · simp [textValue, signedValue]

/-- A `zend_strtod` that rounds integers correctly. -/
noncomputable def roundingStrtod : Strtod Binary64 :=
  Strtod.ofValue fun t => Binary64.roundInt (textValue t)

lemma roundingStrtod_rounds : RoundsIntegers roundingStrtod := by
  intro s n h
  rw [roundingStrtod, Strtod.value_ofValue, textValue_of_canonical h]

/-- `"9223372036854775808"` is greater than `"7"`. -/
theorem zendiSmartStrcmp_sign_iff_seven :
    zendiSmartStrcmp binaryOps roundingStrtod (intDecimal (2 ^ 63)) (intDecimal 7) = 1 :=
  (zendiSmartStrcmp_sign_iff roundingStrtod_rounds (canonicalInt_intDecimal (2 ^ 63))
    (canonicalInt_intDecimal 7)).mpr fun htd => absurd (by decide) htd.2.1

/-- **Negative integers beyond the range are compared the wrong way around**: `-9223372036854775809`
comes out as less than `-9223372036854775810`. -/
theorem zendiSmartStrcmp_negative :
    zendiSmartStrcmp binaryOps roundingStrtod (intDecimal (-9223372036854775809))
        (intDecimal (-9223372036854775810)) = -1 ∧
      ((-9223372036854775809 : ℤ) - -9223372036854775810).sign = 1 := by
  refine ⟨?_, by decide⟩
  have hround : Binary64.roundInt (-9223372036854775809) =
      Binary64.roundInt (-9223372036854775810) := by
    have hv : roundedValue (-9223372036854775809) = roundedValue (-9223372036854775810) := by decide
    rw [Binary64.roundInt, hv, Binary64.roundInt]
  rw [(zendiSmartStrcmp_of_overflow roundingStrtod_rounds (canonicalInt_intDecimal _)
    (canonicalInt_intDecimal _) (by decide) (by decide)).1 hround]
  decide

end PhpInternals.Zend.ZendOperators

import PhpInternals.Zend.ZendOperators.LongToStr

/-!
# Integer-like string keys

Embedding of `ZEND_HANDLE_NUMERIC_STR` (`Zend/zend_hash.h`) and of `_zend_handle_numeric_str_ex`
(`Zend/zend_hash.c`), which decide whether a string key stands for an integer key. A string is the
list of its bytes; the byte behind the last one is the terminator. The index is accumulated in a
`zend_ulong`.
-/

namespace PhpInternals.Zend.ZendHash

open Option List PhpInternals.Found PhpInternals.Zend.ZendOperators
open BitVec (intMin ofInt toNat_ofNat toNat_sub)

/-! ## The functions -/

/-- The value of a byte as a `char`, which is signed. -/
def charVal (b : UInt8) : ℤ := if b.toNat < 128 then b.toNat else b.toNat - 256

/-- What happens at `end`: the range check and the sign. Source: `_zend_handle_numeric_str_ex`. -/
def numericEnd (neg : Bool) (idx : BitVec 64) : Option (BitVec 64) :=
  if neg then if 2 ^ 63 - 1 < (idx - 1#64).toNat then none else some (0#64 - idx)
  else if 2 ^ 63 - 1 < idx.toNat then none else some idx

/-- The loop, over the bytes between `tmp` and `end`. Source: `_zend_handle_numeric_str_ex`. -/
def numericLoop (neg : Bool) (idx : BitVec 64) : List UInt8 → Option (BitVec 64)
  | [] => numericEnd neg idx
  | b :: tmp =>
    if charVal b ≤ 0x39 ∧ 0x30 ≤ charVal b then
      numericLoop neg (idx * 10#64 + ofInt 64 (charVal b - 0x30)) tmp
    else none

/-- `_zend_handle_numeric_str_ex`. The callers have seen a digit at `tmp`, so that `tmp < end`. -/
def zendHandleNumericStrEx (key : List UInt8) : Option (BitVec 64) :=
  let neg : Bool := key.getD 0 0 = 0x2d
  let tmp := if neg then 1 else 0
  let first := key.getD tmp 0
  if (first = 0x30 ∧ 1 < key.length) ∨ maxLengthOfLong - 1 < key.length - tmp then none
  else numericLoop neg (ofInt 64 (charVal first - 0x30)) (key.drop (tmp + 1))

/-- Source: `ZEND_HANDLE_NUMERIC_STR`. -/
def zendHandleNumericStr (key : List UInt8) : Option (BitVec 64) :=
  let first := key.getD 0 0
  if 0x39 < charVal first then none
  else if charVal first < 0x30 then
    if first ≠ 0x2d then none
    else
      let second := key.getD 1 0
      if 0x39 < charVal second ∨ charVal second < 0x30 then none
      else zendHandleNumericStrEx key
  else zendHandleNumericStrEx key

variable {b : UInt8}

/-! ## Digits -/

lemma charVal_digit_iff : charVal b ≤ 0x39 ∧ 0x30 ≤ charVal b ↔ IsDigit b := by
  have hlt := b.toNat_lt
  unfold charVal IsDigit
  split_ifs <;> omega

lemma ofInt_charVal_sub (hb : IsDigit b) :
    (ofInt 64 (charVal b - 0x30)).toNat = b.toNat - 0x30 := by
  obtain ⟨hl, hh⟩ := hb
  have hv : charVal b - 0x30 = ((b.toNat - 0x30 : ℕ) : ℤ) := by
    unfold charVal
    split_ifs <;> omega
  rw [hv, BitVec.ofInt_natCast, toNat_ofNat]
  omega

lemma toNat_mul_ten_add (idx : BitVec 64) (hb : IsDigit b)
    (hlt : idx.toNat * 10 + (b.toNat - 0x30) < 2 ^ 64) :
    (idx * 10#64 + ofInt 64 (charVal b - 0x30)).toNat = idx.toNat * 10 + (b.toNat - 0x30) := by
  have htn : (10#64).toNat = 10 := rfl
  rw [BitVec.toNat_add, BitVec.toNat_mul, ofInt_charVal_sub hb, htn,
    Nat.mod_eq_of_lt (show idx.toNat * 10 < 2 ^ 64 by omega), Nat.mod_eq_of_lt hlt]

variable {i : BitVec 64} {neg : Bool}

/-! ## The loop -/

/-- **The run of the accumulation.** The bound on the length keeps the index below `2 ^ 64`. -/
theorem numericLoop_eq_some_iff {idx : BitVec 64} {tmp : List UInt8}
    (hbn : (idx.toNat + 1) * 10 ^ tmp.length < 2 ^ 64) :
    numericLoop neg idx tmp = some i ↔ (∀ b ∈ tmp, IsDigit b) ∧
      numericEnd neg (BitVec.ofNat 64 (decimalFrom idx.toNat tmp)) = some i := by
  induction tmp generalizing idx with
  | nil => simp [numericLoop]
  | cons b tmp ih =>
    rw [length_cons, pow_succ] at hbn
    simp only [numericLoop, charVal_digit_iff]
    by_cases hb : IsDigit b
    · have hdg : b.toNat - 0x30 ≤ 9 := by
        have := hb.2
        omega
      have hp : 1 ≤ 10 ^ tmp.length := Nat.one_le_pow _ _ (by norm_num)
      have hn : (idx.toNat * 10 + (b.toNat - 0x30) + 1) * 10 ^ tmp.length < 2 ^ 64 := by
        nlinarith
      have hv := toNat_mul_ten_add idx hb (by nlinarith)
      rw [if_pos hb, ih (by rw [hv]; exact hn), hv]
      simp [hb]
    · simp [hb]

lemma numericEnd_eq_some_iff {v : ℕ} (hv : v < 2 ^ 64) (hz : neg = true → v ≠ 0) :
    numericEnd neg (BitVec.ofNat 64 v) = some i ↔ i.toInt = if neg then -(v : ℤ) else v := by
  have hn : (BitVec.ofNat 64 v).toNat = v := by
    rw [toNat_ofNat, Nat.mod_eq_of_lt hv]
  have hc := BitVec.toInt_eq_toNat_cond i
  cases neg with
  | false =>
    simp only [numericEnd, Bool.false_eq_true, if_false]
    split_ifs with hbg
    · simp only [false_iff]
      split_ifs at hc <;> omega
    rw [some.injEq]
    constructor
    · rintro rfl
      split_ifs at hc <;> omega
    · intro hit
      apply BitVec.eq_of_toNat_eq
      split_ifs at hc <;> omega
  | true =>
    have hps := hz rfl
    have ho : (1#64).toNat = 1 := rfl
    have hp : (BitVec.ofNat 64 v - 1#64).toNat = v - 1 := by
      rw [toNat_sub, ho]
      omega
    have hng : (0#64 - BitVec.ofNat 64 v).toNat = 2 ^ 64 - v := by
      rw [toNat_sub, BitVec.toNat_zero]
      omega
    simp only [numericEnd, if_true]
    split_ifs with hbg
    · simp only [false_iff]
      split_ifs at hc <;> omega
    rw [some.injEq]
    constructor
    · rintro rfl
      split_ifs at hc <;> omega
    · intro hit
      apply BitVec.eq_of_toNat_eq
      split_ifs at hc <;> omega

variable {d : UInt8} {ds : List UInt8}

/-! ## The strings that pass -/

lemma numericLoop_digits (hd : IsDigit d) (hl : ds.length ≤ 18) (hz : neg = true → d ≠ 0x30) :
    numericLoop neg (ofInt 64 (charVal d - 0x30)) ds = some i ↔ (∀ b ∈ d :: ds, IsDigit b) ∧
        i.toInt = if neg then -(decimalValue (d :: ds) : ℤ) else decimalValue (d :: ds) := by
  have hf := ofInt_charVal_sub hd
  have hdg : d.toNat - 0x30 ≤ 9 := by
    have := hd.2
    omega
  have hpw : 10 ^ ds.length ≤ 10 ^ 18 := Nat.pow_le_pow_right (by norm_num) hl
  have hvl : decimalFrom (d.toNat - 0x30) ds = decimalValue (d :: ds) := by
    rw [decimalValue, decimalFrom_cons, zero_mul, zero_add]
  rw [numericLoop_eq_some_iff (by rw [hf]; nlinarith), hf, hvl, forall_mem_cons]
  simp only [hd, true_and]
  refine and_congr_right fun hds => numericEnd_eq_some_iff ?_ ?_
  · have hlt := decimalValue_lt (forall_mem_cons.mpr ⟨hd, hds⟩)
    rw [length_cons] at hlt
    omega
  intro hn hv
  have hne : d.toNat ≠ 0x30 := fun heq => hz hn (UInt8.toNat_inj.mp heq)
  have hlw := hd.1
  rw [decimalValue_cons] at hv
  have hp : (d.toNat - 0x30) * 10 ^ ds.length = 0 := by omega
  rcases Nat.mul_eq_zero.mp hp with hs | hpow0
  · omega
  · exact absurd hpow0 (pow_ne_zero _ (by norm_num))

lemma digits_eq_zendLongToStr_iff (hd : IsDigit d) :
    d :: ds = zendLongToStr i ↔ IsCanonical (d :: ds) ∧ ds.length ≤ 18 ∧
      i.toInt = decimalValue (d :: ds) := by
  rw [zendLongToStr_eq, intDecimal]
  constructor
  · intro h
    have hn : ¬ i.toInt < 0 := by
      intro hlt
      rw [if_pos hlt] at h
      have hm : d = 0x2d := (cons.inj h).1
      rw [hm] at hd
      exact absurd hd (by decide)
    rw [if_neg hn, nil_append] at h
    have hl := length_natDecimal_natAbs_le i
    rw [← h, length_cons] at hl
    refine ⟨h ▸ isCanonical_natDecimal _, by omega, ?_⟩
    rw [h, decimalValue_natDecimal]
    omega
  · rintro ⟨hc, -, hv⟩
    rw [if_neg (by omega), nil_append, hv, Int.natAbs_natCast, natDecimal_decimalValue hc]

lemma minus_eq_zendLongToStr_iff :
    0x2d :: ds = zendLongToStr i ↔ IsCanonical ds ∧ ds ≠ [0x30] ∧ ds.length ≤ 19 ∧
      i.toInt = -(decimalValue ds : ℤ) := by
  rw [zendLongToStr_eq, intDecimal]
  constructor
  · intro h
    have hn : i.toInt < 0 := by
      by_contra hge
      rw [if_neg hge, nil_append] at h
      have hdg : IsDigit 0x2d := (isDigits_natDecimal i.toInt.natAbs).2 _ (h ▸ mem_cons_self)
      exact absurd hdg (by decide)
    rw [if_pos hn, singleton_append, cons.injEq] at h
    have hv : decimalValue ds = i.toInt.natAbs := by rw [h.2, decimalValue_natDecimal]
    refine ⟨h.2 ▸ isCanonical_natDecimal _, ?_, h.2 ▸ length_natDecimal_natAbs_le i, by omega⟩
    rintro rfl
    have hz : decimalValue [0x30] = 0 := rfl
    omega
  · rintro ⟨hc, hne, -, hv⟩
    have hp : 1 ≤ decimalValue ds := le_trans (Nat.one_le_pow _ _ (by norm_num)) (hc.pow_le hne)
    rw [if_pos (by omega), singleton_append, hv, Int.natAbs_neg, Int.natAbs_natCast,
      natDecimal_decimalValue hc]

lemma zendHandleNumericStr_digit (hd : IsDigit d) (ds : List UInt8) :
    zendHandleNumericStr (d :: ds) =
      if (d = 0x30 ∧ ds ≠ []) ∨ 18 < ds.length then none
      else numericLoop false (ofInt 64 (charVal d - 0x30)) ds := by
  obtain ⟨hh, hl⟩ := charVal_digit_iff.mpr hd
  have hm : d ≠ 0x2d := by
    rintro rfl
    exact absurd hd (by decide)
  have hln : (d = 0x30 ∧ 1 < (d :: ds).length) ∨ maxLengthOfLong - 1 < (d :: ds).length - 0 ↔
      (d = 0x30 ∧ ds ≠ []) ∨ 18 < ds.length := by
    rw [length_cons, maxLengthOfLong, ← length_pos_iff_ne_nil]
    exact or_congr (and_congr_right fun _ => by omega) (by omega)
  simp only [zendHandleNumericStr, zendHandleNumericStrEx, getD_cons_zero, hm, decide_false,
    Bool.false_eq_true, if_false, if_neg (not_lt.mpr hh), if_neg (not_lt.mpr hl), hln,
    zero_add, drop_one, tail_cons]

lemma zendHandleNumericStr_minus (hd : IsDigit d) (ds : List UInt8) :
    zendHandleNumericStr (0x2d :: d :: ds) =
      if d = 0x30 ∨ 18 < ds.length then none
      else numericLoop true (ofInt 64 (charVal d - 0x30)) ds := by
  obtain ⟨hh, hlw⟩ := charVal_digit_iff.mpr hd
  have hf : charVal 0x2d = 0x2d := rfl
  have hl : maxLengthOfLong ≤ ds.length + 1 ↔ 18 < ds.length := by
    rw [maxLengthOfLong]
    omega
  have hs : ¬ (0x39 < charVal d ∨ charVal d < 0x30) := by omega
  simp [zendHandleNumericStr, zendHandleNumericStrEx, hf, hs, hl]

lemma zendHandleNumericStr_none {key : List UInt8} (hdg : ¬ IsDigit (key.getD 0 0))
    (hm : key.getD 0 0 = 0x2d → ¬ IsDigit (key.getD 1 0)) : zendHandleNumericStr key = none := by
  rw [← charVal_digit_iff] at hdg
  simp only [← charVal_digit_iff] at hm
  unfold zendHandleNumericStr
  simp only
  split_ifs with hbg hsm hne hs
  · rfl
  · rfl
  · rfl
  · exact absurd (hm (not_not.mp hne)) (by omega)
  · omega

/-- A key without sign is numeric iff it is the text of an integer. -/
lemma zendHandleNumericStr_digit_iff (hd : IsDigit d) :
    zendHandleNumericStr (d :: ds) = some i ↔ d :: ds = zendLongToStr i := by
  rw [digits_eq_zendLongToStr_iff hd, zendHandleNumericStr_digit hd]
  split_ifs with hbd
  · -- a superfluous zero, or more digits than any number has
    simp only [false_iff]
    rintro ⟨⟨-, hc⟩, hln, -⟩
    rcases hbd with ⟨rfl, hne⟩ | hl
    · exact hne (cons.inj (hc rfl)).2
    · omega
  push Not at hbd
  have hc : (d :: ds).head? = some 0x30 → d :: ds = [0x30] := by
    intro hh
    obtain rfl : d = 0x30 := some.inj hh
    rw [hbd.1 rfl]
  rw [numericLoop_digits hd hbd.2 (by simp)]
  exact ⟨fun ⟨hds, hv⟩ => ⟨⟨⟨by simp, hds⟩, hc⟩, hbd.2, by simpa using hv⟩,
    fun ⟨hds, _, hv⟩ => ⟨hds.1.2, by simpa using hv⟩⟩

lemma zendHandleNumericStr_minus_iff (hd : IsDigit d) :
    zendHandleNumericStr (0x2d :: d :: ds) = some i ↔ 0x2d :: d :: ds = zendLongToStr i := by
  rw [minus_eq_zendLongToStr_iff, zendHandleNumericStr_minus hd, length_cons]
  split_ifs with hbd
  · simp only [false_iff]
    rintro ⟨⟨-, hc⟩, hne, hln, -⟩
    rcases hbd with rfl | hl
    · exact hne (hc rfl)
    · omega
  push Not at hbd
  have hc : (d :: ds).head? ≠ some 0x30 := fun hhe => hbd.1 (some.inj hhe)
  have hne : d :: ds ≠ [0x30] := fun heq => hbd.1 (cons.inj heq).1
  rw [numericLoop_digits hd hbd.2 fun _ => hbd.1]
  exact ⟨fun ⟨hds, hv⟩ => ⟨⟨⟨by simp, hds⟩, fun h => absurd h hc⟩, hne, by omega,
    by simpa using hv⟩, fun ⟨hds, _, _, hv⟩ => ⟨hds.1.2, by simpa using hv⟩⟩

lemma zendLongToStr_shape (i : BitVec 64) :
    ∃ d ds, IsDigit d ∧ (zendLongToStr i = d :: ds ∨ zendLongToStr i = 0x2d :: d :: ds) := by
  obtain ⟨hne, hdg⟩ := isDigits_natDecimal i.toInt.natAbs
  obtain ⟨d, ds, hc⟩ := exists_cons_of_ne_nil hne
  refine ⟨d, ds, hdg d (hc ▸ mem_cons_self), ?_⟩
  rw [zendLongToStr_eq, intDecimal, hc]
  split_ifs
  · exact .inr rfl
  · exact .inl rfl

lemma zendHandleNumericStr_shape {s : List UInt8} (h : zendHandleNumericStr s = some i) :
    ∃ d ds, IsDigit d ∧ (s = d :: ds ∨ s = 0x2d :: d :: ds) := by
  by_contra hs
  push Not at hs
  suffices hnone : zendHandleNumericStr s = none by simp [hnone] at h
  apply zendHandleNumericStr_none
  · intro hdg
    cases s with
    | nil => exact absurd hdg (by decide)
    | cons d ds => exact (hs d ds hdg).1 rfl
  intro hm hdg
  match s with
  | [] => exact absurd hm (by decide)
  | [_] => exact absurd (show IsDigit 0 from hdg) (by decide)
  | b :: d :: ds =>
    obtain rfl : b = 0x2d := hm
    exact (hs d ds hdg).2 rfl

/-- **A string key is integer-like exactly when it is the text of an integer.** So the test and
`zend_long_to_str` are inverse to each other, and no two strings denote one key. -/
theorem zendHandleNumericStr_eq_some_iff {s : List UInt8} :
    zendHandleNumericStr s = some i ↔ s = zendLongToStr i := by
  constructor
  · intro h
    obtain ⟨d, ds, hd, rfl | rfl⟩ := zendHandleNumericStr_shape h
    · exact (zendHandleNumericStr_digit_iff hd).mp h
    · exact (zendHandleNumericStr_minus_iff hd).mp h
  rintro rfl
  obtain ⟨d, ds, hd, h | h⟩ := zendLongToStr_shape i
  · rw [h]
    exact (zendHandleNumericStr_digit_iff hd).mpr h.symm
  · rw [h]
    exact (zendHandleNumericStr_minus_iff hd).mpr h.symm

/-- **Integer-like string keys.** The test succeeds with an index exactly on its text; so the two
functions are inverse to each other, and no two strings denote one integer key. -/
theorem numericKeys_inverse :
    (∀ (s : List UInt8) (i : BitVec 64), zendHandleNumericStr s = some i ↔ s = zendLongToStr i) ∧
      (∀ i, zendLongToStr i = intDecimal i.toInt) ∧
      (∀ i, zendHandleNumericStr (zendLongToStr i) = some i) ∧
      ∀ (s t : List UInt8) (i : BitVec 64), zendHandleNumericStr s = some i →
        zendHandleNumericStr t = some i → s = t := by
  refine ⟨fun s i => zendHandleNumericStr_eq_some_iff, zendLongToStr_eq,
    fun i => zendHandleNumericStr_eq_some_iff.mpr rfl, fun s t i hs ht => ?_⟩
  rw [zendHandleNumericStr_eq_some_iff.mp hs, zendHandleNumericStr_eq_some_iff.mp ht]

/-- The text of `ZEND_LONG_MIN`. -/
def longMinText : List UInt8 :=
  [0x2d, 0x39, 0x32, 0x32, 0x33, 0x33, 0x37, 0x32, 0x30, 0x33, 0x36, 0x38, 0x35, 0x34,
    0x37, 0x37, 0x35,
    0x38, 0x30, 0x38]

/-- `ZEND_LONG_MIN` is a key, and has one text. -/
theorem numericKeys_inverse_longMin :
    zendHandleNumericStr longMinText = some (intMin 64) ∧
      longMinText = zendLongToStr (intMin 64) :=
  ⟨by decide, numericKeys_inverse.2.2.2 _ _ (intMin 64) (by decide) (numericKeys_inverse.2.2.1 _)⟩

end PhpInternals.Zend.ZendHash

import Mathlib.Data.Nat.Digits.Lemmas
import Mathlib.Tactic

/-!
# Base conversion

Embedding of `_php_math_basetolong`, `_php_math_basetozval` and `_php_math_longtobase`
(`ext/standard/math.c`). The double arithmetic is that of an arbitrary type. The last two undo each
other; the first takes a digit that does not make the wrapped number larger for an overflow.
-/

namespace PhpInternals.Ext.Standard

open List

/-- The value of a digit or letter. -/
def digitOf (c : UInt8) : Option ℕ :=
  if 0x30 ≤ c ∧ c ≤ 0x39 then some (c.toNat - 0x30)
  else if 0x41 ≤ c ∧ c ≤ 0x5a then some (c.toNat - 0x41 + 10)
  else if 0x61 ≤ c ∧ c ≤ 0x7a then some (c.toNat - 0x61 + 10)
  else none

/-- The greatest `zend_long`. -/
def zendLongMax : ℕ := 2 ^ 63 - 1

/-- `mode` with the number that belongs to it. -/
inductive BaseNum (D : Type) where
  | long (num : ℕ)
  | double (fnum : D)

section

variable {D : Type} [NatCast D] [Mul D] [Add D]

/-- A byte of the loop of `_php_math_basetozval`. -/
def basetozvalStep (base : ℕ) (r : BaseNum D) (s : UInt8) : BaseNum D :=
  match (digitOf s).filter (· < base), r with
  | none, r => r
  | some c, .long num =>
    let cutoff := zendLongMax / base
    let cutlim := zendLongMax % base
    if num < cutoff ∨ num = cutoff ∧ c ≤ cutlim then .long (num * base + c)
    else .double (num * base + c)
  | some c, .double fnum => .double (fnum * base + c)

/-- `none` is `FAILURE`. Source: `_php_math_basetozval`. -/
def phpMathBasetozval (base : ℕ) (s : List UInt8) : Option (BaseNum D) :=
  if base < 2 ∨ 36 < base then none else some (s.foldl (basetozvalStep base) (.long 0))

end

/-- A byte of the loop; the error is the value that is returned there. The wrapped number is
compared with the one before. Source: `_php_math_basetolong`. -/
def basetolongStep (base : ℕ) (onum : BitVec 64) (c : UInt8) : Except (BitVec 64) (BitVec 64) :=
  match (digitOf c).filter (· < base) with
  | none => .ok onum
  | some digit =>
    let num := onum * .ofNat 64 base + .ofNat 64 digit
    if onum.toInt < num.toInt then .ok num else .error (.ofNat 64 zendLongMax)

/-- Source: `_php_math_basetolong`; the warnings are left out. -/
def phpMathBasetolong (base : ℕ) (s : List UInt8) : BitVec 64 :=
  if base < 2 ∨ 36 < base then 0
  else match s.foldlM (basetolongStep base) 0 with
    | .ok num | .error num => num

/-- `digits[d]`. -/
def digitChar (d : ℕ) : UInt8 :=
  if d < 10 then 0x30 + UInt8.ofNat d else 0x61 + UInt8.ofNat (d - 10)

/-- The loop with `room` bytes of `buf` before `ptr`, where `out` stands. -/
def longtobaseLoop (base : ℕ) : ℕ → ℕ → List UInt8 → List UInt8
  | 0, _, out => out
  | room + 1, value, out =>
    let out := digitChar (value % base) :: out
    if value / base = 0 then out else longtobaseLoop base room (value / base) out

/-- Source: `_php_math_longtobase`. -/
def phpMathLongtobase (base : ℕ) (n : BitVec 64) : List UInt8 :=
  if base < 2 ∨ 36 < base then [] else longtobaseLoop base 64 n.toNat []

/-! ## The number that a text denotes -/

/-- The valid digits of a text, the last one first. -/
def validDigits (base : ℕ) (s : List UInt8) : List ℕ :=
  (s.filterMap fun c => (digitOf c).filter (· < base)).reverse

/-- The number of the valid digits; all other bytes are ignored. -/
def denoted (base : ℕ) (s : List UInt8) : ℕ := Nat.ofDigits base (validDigits base s)

/-- The digits of `n`, the first one first. -/
def numeral (base n : ℕ) : List ℕ := if n = 0 then [0] else (Nat.digits base n).reverse

/-- Digits without leading zeros. -/
structure IsNumeral (base : ℕ) (ds : List ℕ) : Prop where
  lt : ∀ d ∈ ds, d < base
  ne_nil : ds ≠ []
  head : ds.head? = some 0 → ds = [0]

section

variable {D : Type} [NatCast D] [Mul D] [Add D] {base : ℕ} (hb : 2 ≤ base)

lemma denoted_append (s : List UInt8) (c : UInt8) : denoted base (s ++ [c]) =
    match (digitOf c).filter (· < base) with
    | none => denoted base s
    | some d => denoted base s * base + d := by
  cases h : (digitOf c).filter (· < base) with
  | none => simp [denoted, validDigits, h]
  | some d => simp [denoted, validDigits, h, Nat.ofDigits_cons, mul_comm, add_comm]

include hb

/-- The cut-off test decides whether one more digit fits. -/
lemma fits_iff (num c : ℕ) (hc : c < base) :
    num < zendLongMax / base ∨ num = zendLongMax / base ∧ c ≤ zendLongMax % base ↔
      num * base + c ≤ zendLongMax := by
  have hdiv := Nat.div_add_mod' zendLongMax base
  constructor
  · rintro (h | ⟨rfl, h⟩)
    · have := Nat.mul_le_mul_right base h
      rw [Nat.succ_mul] at this
      omega
    · omega
  · intro h
    have hle := (Nat.le_div_iff_mul_le (by omega)).mpr (Nat.le_of_add_right_le h)
    rcases hle.lt_or_eq with hlt | rfl
    · exact .inl hlt
    · exact .inr ⟨rfl, by omega⟩

/-- After every byte: the number so far, or a double once it is too large. -/
lemma foldl_basetozvalStep (s : List UInt8) : ∃ f : D, s.foldl (basetozvalStep base) (.long 0) =
      if denoted base s ≤ zendLongMax then .long (denoted base s) else .double f := by
  induction s using reverseRecOn with
  | nil => exact ⟨(0 : ℕ), rfl⟩
  | append_singleton s c ih =>
    obtain ⟨f, hf⟩ := ih
    rw [foldl_append, hf, foldl_cons, denoted_append]
    unfold basetozvalStep
    cases hc : (digitOf c).filter (· < base) with
    | none => exact ⟨f, rfl⟩
    | some d =>
      have hd : d < base := by simpa using (Option.filter_eq_some_iff.mp hc).2
      have hle : denoted base s ≤ denoted base s * base + d :=
        (Nat.le_mul_of_pos_right _ (by omega)).trans (Nat.le_add_right _ _)
      by_cases hfit : denoted base s ≤ zendLongMax
      · simp only [if_pos hfit, fits_iff hb _ _ hd]
        exact ⟨_, rfl⟩
      · simp only [if_neg hfit, if_neg fun h => hfit (hle.trans h)]
        exact ⟨_, rfl⟩

variable (hb' : base ≤ 36)
include hb'

lemma phpMathBasetozval_eq (s : List UInt8) : ∃ f : D, phpMathBasetozval base s =
    some (if denoted base s ≤ zendLongMax then .long (denoted base s) else .double f) := by
  obtain ⟨f, hf⟩ := foldl_basetozvalStep (D := D) hb s
  exact ⟨f, by rw [phpMathBasetozval, if_neg (by omega), hf]⟩

omit hb in
lemma validDigits_map {ds : List ℕ} (hds : ∀ d ∈ ds, d < base) :
    validDigits base (ds.map digitChar) = ds.reverse := by
  have hd : ∀ d < 36, digitOf (digitChar d) = some d := by decide
  rw [validDigits, filterMap_map]
  congr 1
  induction ds with
  | nil => rfl
  | cons d ds ih =>
    have hlt := hds d mem_cons_self
    rw [filterMap_cons_some (b := d) (by simp [hd d (by omega), hlt]),
      ih fun d hd => hds d (mem_cons_of_mem _ hd)]

omit hb' in
lemma longtobaseLoop_eq {room value : ℕ} (hroom : value < base ^ (room + 1)) (out : List UInt8) :
    longtobaseLoop base (room + 1) value out = (numeral base value).map digitChar ++ out := by
  induction room generalizing value out with
  | zero =>
    have hlt : value < base := by simpa using hroom
    rw [longtobaseLoop, Nat.mod_eq_of_lt hlt, if_pos (Nat.div_eq_of_lt hlt), numeral]
    split_ifs with h0
    · rw [h0]
      rfl
    · rw [Nat.digits_of_lt _ _ h0 hlt]
      rfl
  | succ room ih =>
    have hdiv : value / base < base ^ (room + 1) := Nat.div_lt_of_lt_mul (by rwa [← pow_succ'])
    rw [longtobaseLoop, ih hdiv, numeral, numeral]
    by_cases h0 : value = 0
    · simp [h0]
    · rw [Nat.digits_eq_cons_digits_div (by omega) h0]
      split_ifs with hd <;> simp [hd]

/-- The text of a number are its digits. -/
lemma phpMathLongtobase_eq (n : BitVec 64) :
    phpMathLongtobase base n = (numeral base n.toNat).map digitChar := by
  have hlt : n.toNat < base ^ 64 := n.isLt.trans_le (Nat.pow_le_pow_left hb 64)
  rw [phpMathLongtobase, if_neg (by omega), longtobaseLoop_eq hb hlt, append_nil]

omit hb'

lemma isNumeral_numeral (n : ℕ) : IsNumeral base (numeral base n) := by
  unfold numeral
  split_ifs with h0
  · exact ⟨by simp; omega, by simp, fun _ => rfl⟩
  · refine ⟨fun d hd => Nat.digits_lt_base (by omega) (mem_reverse.mp hd), ?_, fun h => ?_⟩
    · simpa [Nat.digits_eq_nil_iff_eq_zero] using h0
    · rw [head?_reverse, getLast?_eq_some_getLast (Nat.digits_ne_nil_iff_ne_zero.mpr h0)] at h
      exact absurd (Option.some.inj h) (Nat.getLast_digit_ne_zero base h0)

omit hb in
lemma ofDigits_numeral (n : ℕ) : Nat.ofDigits base (numeral base n).reverse = n := by
  unfold numeral
  split_ifs with h0
  · simp [h0]
  · rw [reverse_reverse, Nat.ofDigits_digits]

lemma IsNumeral.unique {ds : List ℕ} (h : IsNumeral base ds) :
    numeral base (Nat.ofDigits base ds.reverse) = ds := by
  by_cases hz : ds = [0]
  · simp [hz, numeral]
  · have hdig := Nat.digits_ofDigits base (by omega)
      ds.reverse (fun d hd => h.lt d (mem_reverse.mp hd))
      fun hne h0 => hz (h.head (by rw [← h0, getLast_reverse, head?_eq_some_head]))
    rw [numeral, if_neg fun h0 => h.ne_nil (by simpa [h0] using hdig.symm), hdig, reverse_reverse]

lemma length_numeral_le {n : ℕ} (hn : n < 2 ^ 64) : (numeral base n).length ≤ 64 := by
  unfold numeral
  split_ifs
  · decide
  · rw [length_reverse, Nat.digits_length_le_iff (by omega)]
    exact hn.trans_le (Nat.pow_le_pow_left hb 64)

include hb'

/-- **Texts and numbers of a base.** -/
theorem phpMathBase_correct :
    (∀ s, ∃ r : BaseNum D, phpMathBasetozval base s = some r ∧
      ((∃ n, r = .long n) ↔ denoted base s ≤ zendLongMax) ∧
      ∀ n, r = .long n → n = denoted base s) ∧
    (∀ n, denoted base (phpMathLongtobase base n) = n.toNat ∧
      (phpMathLongtobase base n).length ≤ 64 ∧
      ∃ ds, IsNumeral base ds ∧ phpMathLongtobase base n = ds.map digitChar) ∧
    (∀ n : BitVec 64, 0 ≤ n.toInt →
      phpMathBasetozval base (phpMathLongtobase base n) = some (.long (D := D) n.toNat)) ∧
    ∀ ds n, IsNumeral base ds →
      phpMathBasetozval base (ds.map digitChar) = some (.long (D := D) n) →
      phpMathLongtobase base (BitVec.ofNat 64 n) = ds.map digitChar := by
  have hden : ∀ n, denoted base (phpMathLongtobase base n) = n.toNat := fun n => by
    rw [denoted, phpMathLongtobase_eq hb hb', validDigits_map hb' (isNumeral_numeral hb _).lt,
      ofDigits_numeral]
  refine ⟨fun s => ?_, fun n => ⟨hden n, ?_, _, isNumeral_numeral hb n.toNat,
    phpMathLongtobase_eq hb hb' n⟩, fun n hn => ?_, fun ds n hds hn => ?_⟩
  · obtain ⟨f, hf⟩ := phpMathBasetozval_eq (D := D) hb hb' s
    refine ⟨_, hf, ?_⟩
    split_ifs with hle <;> simp [hle]
  · rw [phpMathLongtobase_eq hb hb', length_map]
    exact length_numeral_le hb n.isLt
  · obtain ⟨f, hf⟩ := phpMathBasetozval_eq (D := D) hb hb' (phpMathLongtobase base n)
    rw [hf, hden, if_pos]
    rw [BitVec.toInt_eq_toNat_cond] at hn
    unfold zendLongMax
    split_ifs at hn <;> omega
  · obtain ⟨f, hf⟩ := phpMathBasetozval_eq (D := D) hb hb' (ds.map digitChar)
    rw [hf] at hn
    split_ifs at hn with hle
    · obtain rfl : denoted base (ds.map digitChar) = n := by simpa using hn
      unfold zendLongMax at hle
      rw [phpMathLongtobase_eq hb hb', BitVec.toNat_ofNat, Nat.mod_eq_of_lt (by omega), denoted,
        validDigits_map hb' hds.lt, hds.unique hb]
    · simp at hn

end

/-! ## `_php_math_basetolong` -/

/-- The number so far, as the loop keeps it. -/
def wrapped (base : ℕ) (s : List UInt8) : BitVec 64 := .ofNat 64 (denoted base s)

/-- Every valid digit makes the wrapped number larger. As long as the number fits this only fails
for a zero at its beginning. -/
def Grows (base : ℕ) (s : List UInt8) : Prop :=
  ∀ k ∈ range s.length, validDigits base (s.take (k + 1)) = validDigits base (s.take k) ∨
    (wrapped base (s.take k)).toInt < (wrapped base (s.take (k + 1))).toInt
  deriving Decidable

lemma grows_append {base : ℕ} (s : List UInt8) (c : UInt8) : Grows base (s ++ [c]) ↔
    Grows base s ∧ (validDigits base (s ++ [c]) = validDigits base s ∨
      (wrapped base s).toInt < (wrapped base (s ++ [c])).toInt) := by
  unfold Grows
  simp only [mem_range]
  rw [length_append, length_singleton, Nat.forall_lt_succ_right]
  refine and_congr ⟨fun h k hk => ?_, fun h k hk => ?_⟩ ?_
  · simpa only [take_append_of_le_length hk.le, take_append_of_le_length hk] using h k hk
  · simpa only [take_append_of_le_length hk.le, take_append_of_le_length hk] using h k hk
  · rw [take_append_of_le_length le_rfl, take_of_length_le le_rfl, take_of_length_le (by simp)]

/-- The loop returns the wrapped number, or stops at the first digit that does not make it larger.
-/
lemma foldlM_basetolongStep {base : ℕ} (s : List UInt8) : s.foldlM (basetolongStep base) 0 =
    if Grows base s then .ok (wrapped base s) else .error (.ofNat 64 zendLongMax) := by
  induction s using reverseRecOn with
  | nil => rfl
  | append_singleton s c ih =>
    rw [foldlM_append, ih]
    simp only [grows_append]
    by_cases hg : Grows base s
    · simp only [hg, true_and, if_true]
      change (basetolongStep base (wrapped base s) c >>= pure) = _
      rw [bind_pure]
      unfold basetolongStep wrapped
      rw [denoted_append]
      cases h : (digitOf c).filter (· < base) with
      | none => simp [validDigits, h]
      | some d =>
        have hv : validDigits base (s ++ [c]) ≠ validDigits base s := by simp [validDigits, h]
        simp only [hv, false_or, ← BitVec.ofNat_mul, ← BitVec.ofNat_add]
    · simp only [hg, false_and, if_false]
      rfl

/-- 255 in base 16. -/
theorem phpMathBase_correct_hex :
    phpMathBasetozval 16 (phpMathLongtobase 16 255#64) = some (.long (D := ℚ) 255) :=
  (phpMathBase_correct (by decide) (by decide)).2.2.1 255#64 (by decide)

end PhpInternals.Ext.Standard

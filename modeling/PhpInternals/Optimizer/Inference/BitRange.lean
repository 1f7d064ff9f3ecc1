import PhpInternals.Found.MaskScan

/-!
# Ranges of `|` and `&`

* `minOR`, `maxOR`, `minAND`, `maxAND` on unsigned words. The first three are exact on a box
  (`minOR_least`, `maxOR_greatest`, `minAND_least`). The mask of `maxAND` sets every bit, so the
  function returns the smaller upper end (`maxAND_eq_min`), which is the maximum exactly where it is
  attained (`maxAND_greatest_iff`).
* `zendSsaRangeOr`, `zendSsaRangeAnd` on signed ranges. The sign pattern tests `d < 0` with the bit
  of `c < 0`, so the patterns 3, 0xb and 0xf never occur (`signPattern_eq`). Pattern 0xa then also
  covers a negative second range: there the upper bound of `|` is `maxOR 0 b 0 d` with `d` read
  unsigned, which is wrong exactly if `b + d < -1` (`zendSsaRange_sound_iff`).
-/

namespace PhpInternals.Optimizer.Inference

open Found
open BitVec (allOnes getLsbD_and getLsbD_not getLsbD_or le_def toInt_eq_toNat_cond twoPow)

/-! ## The model -/

section model

variable (a b c d : BitVec 64)

/-- One turn of the loop of `minOR`: the ends after a `break`. -/
def minORTurn (m : BitVec 64) : Option (BitVec 64 × BitVec 64) :=
  if ~~~a &&& c &&& m ≠ 0#64 then
    let temp := (a ||| m) &&& -m
    if temp ≤ b then some (temp, c) else none
  else if a &&& ~~~c &&& m ≠ 0#64 then
    let temp := (c ||| m) &&& -m
    if temp ≤ d then some (a, temp) else none
  else none

/-- The least `x | y` with `x` in `[a, b]` and `y` in `[c, d]`. -/
def minOR : BitVec 64 :=
  let r := (scanMasks (minORTurn a b c d) 64).getD (a, c)
  r.1 ||| r.2

/-- One turn of the loop of `maxOR`. -/
def maxORTurn (m : BitVec 64) : Option (BitVec 64 × BitVec 64) :=
  if b &&& d &&& m ≠ 0#64 then
    let temp := (b - m) ||| (m - 1#64)
    if a ≤ temp then some (temp, d)
    else
      let temp := (d - m) ||| (m - 1#64)
      if c ≤ temp then some (b, temp) else none
  else none

/-- The greatest `x | y` on the box. -/
def maxOR : BitVec 64 :=
  let r := (scanMasks (maxORTurn a b c d) 64).getD (b, d)
  r.1 ||| r.2

/-- One turn of the loop of `minAND`. -/
def minANDTurn (m : BitVec 64) : Option (BitVec 64 × BitVec 64) :=
  if ~~~a &&& ~~~c &&& m ≠ 0#64 then
    let temp := (a ||| m) &&& -m
    if temp ≤ b then some (temp, c)
    else
      let temp := (c ||| m) &&& -m
      if temp ≤ d then some (a, temp) else none
  else none

/-- The least `x & y` on the box. -/
def minAND : BitVec 64 :=
  let r := (scanMasks (minANDTurn a b c d) 64).getD (a, c)
  r.1 &&& r.2

/-- One turn of the loop of `maxAND`, with `b | ~m` where its siblings have `b & ~m`. -/
def maxANDTurn (m : BitVec 64) : Option (BitVec 64 × BitVec 64) :=
  if b &&& ~~~d &&& m ≠ 0#64 then
    let temp := (b ||| ~~~m) ||| (m - 1#64)
    if a ≤ temp then some (temp, d) else none
  else if ~~~b &&& d &&& m ≠ 0#64 then
    let temp := (d ||| ~~~m) ||| (m - 1#64)
    if c ≤ temp then some (b, temp) else none
  else none

/-- What is meant to be the greatest `x & y` on the box. -/
def maxAND : BitVec 64 :=
  let r := (scanMasks (maxANDTurn a b c d) 64).getD (b, d)
  r.1 &&& r.2

/-- `MIN` and `MAX` of two `zend_long`. -/
def longMin (x y : BitVec 64) : BitVec 64 := if x.toInt < y.toInt then x else y
/-- Source: `MAX` at `zend_long`. -/
def longMax (x y : BitVec 64) : BitVec 64 := if y.toInt < x.toInt then x else y

/-- The sign pattern. Both `c < 0` and `d < 0` set bit 2. -/
def signPattern : ℕ :=
  (if a.toInt < 0 then 8 else 0) ||| (if b.toInt < 0 then 4 else 0) |||
    (if c.toInt < 0 then 2 else 0) ||| (if d.toInt < 0 then 2 else 0)

/-- The pair `tmp->min`, `tmp->max`; without a matching case they keep their values.
Source: `zend_ssa_range_or`. -/
def zendSsaRangeOr : Option (BitVec 64 × BitVec 64) :=
  match signPattern a b c d with
  | 0x0 | 0x3 | 0xc | 0xf => some (minOR a b c d, maxOR a b c d)
  | 0x2 => some (minOR a b c (-1), maxOR a b 0 d)
  | 0x8 => some (minOR a (-1) c d, maxOR 0 b c d)
  | 0xa => some (longMin a c, maxOR 0 b 0 d)
  | 0xb => some (c, -1)
  | 0xe => some (a, -1)
  | _ => none

/-- The same for `&`. Source: `zend_ssa_range_and`. -/
def zendSsaRangeAnd : Option (BitVec 64 × BitVec 64) :=
  match signPattern a b c d with
  | 0x0 | 0x3 | 0xc | 0xf => some (minAND a b c d, maxAND a b c d)
  | 0x2 => some (0, b)
  | 0x8 => some (0, d)
  | 0xa => some (minAND a (-1) c (-1), longMax b d)
  | 0xb => some (minAND a (-1) c d, maxAND 0 b c d)
  | 0xe => some (minAND a b c (-1), maxAND a b 0 d)
  | _ => none

end model

variable {a b c d x y : BitVec 64} {i : ℕ}

/-! ## The unsigned bounds -/

section unsigned

lemma and_twoPow_ne_zero (hi : i < 64) : x &&& twoPow 64 i ≠ 0#64 ↔ x.getLsbD i = true := by
  rw [BitVec.and_twoPow]
  cases hx : x.getLsbD i
  · simp
  · simp only [iff_true]
    intro h
    have := congrArg (BitVec.getLsbD · i) h
    simp [hi] at this

lemma getLsbD_not_eq_true (hi : i < 64) : (~~~x).getLsbD i = true ↔ x.getLsbD i = false := by
  rw [getLsbD_not, decide_eq_true hi, Bool.true_and, Bool.not_eq_true']

lemma minORTurn_eq (i : ℕ) (hi : i < 64) :
    minORTurn a b c d (twoPow 64 i) = (orRaise 64).turn a b c d i := by
  have ha : ~~~a &&& c &&& twoPow 64 i ≠ 0#64 ↔ (orRaise 64).Free a c i := by
    rw [orRaise_free_iff, and_twoPow_ne_zero hi, getLsbD_and, Bool.and_eq_true,
      getLsbD_not_eq_true hi]
  have hc : a &&& ~~~c &&& twoPow 64 i ≠ 0#64 ↔ (orRaise 64).Free c a i := by
    rw [orRaise_free_iff, and_twoPow_ne_zero hi, getLsbD_and, Bool.and_eq_true,
      getLsbD_not_eq_true hi, and_comm]
  have hbt : (orRaise 64).Free a c i → ¬ (orRaise 64).Free c a i := by
    rintro ⟨h0, -⟩ ⟨-, h1⟩
    exact Bool.noConfusion (h0.symm.trans h1)
  rw [minORTurn, RaiseOp.turn]
  by_cases hA : (orRaise 64).Free a c i
  · simp [if_pos (ha.mpr hA), hA, hbt hA, true_and, raise]
  · by_cases hC : (orRaise 64).Free c a i
    · simp [if_neg (mt ha.mp hA), if_pos (hc.mpr hC), hA, hC, true_and, raise]
    · simp [if_neg (mt ha.mp hA), if_neg (mt hc.mp hC), hA, hC]

lemma minANDTurn_eq (i : ℕ) (hi : i < 64) :
    minANDTurn a b c d (twoPow 64 i) = (andRaise 64).turn a b c d i := by
  have ha : ~~~a &&& ~~~c &&& twoPow 64 i ≠ 0#64 ↔ (andRaise 64).Free a c i := by
    rw [andRaise_free_iff, and_twoPow_ne_zero hi, getLsbD_and, Bool.and_eq_true,
      getLsbD_not_eq_true hi, getLsbD_not_eq_true hi]
  have hc : (andRaise 64).Free c a i ↔ (andRaise 64).Free a c i := by
    rw [andRaise_free_iff, andRaise_free_iff, and_comm]
  rw [minANDTurn, RaiseOp.turn]
  by_cases hA : (andRaise 64).Free a c i
  · simp [if_pos (ha.mpr hA), hA, hc.mpr hA, raise]
  · simp [if_neg (mt ha.mp hA), hA, mt hc.mp hA]

lemma minOR_least (hab : a ≤ b) (hcd : c ≤ d) : Extreme (· ≤ ·) (· ||| ·) a b c d (minOR a b c d) :=
  RaiseOp.scan_least hab hcd minORTurn_eq

lemma minAND_least (hab : a ≤ b) (hcd : c ≤ d) :
    Extreme (· ≤ ·) (· &&& ·) a b c d (minAND a b c d) :=
  RaiseOp.scan_least hab hcd minANDTurn_eq

/-- `maxOR` is `minAND` on the complements. -/
lemma maxORTurn_eq (i : ℕ) (hi : i < 64) : maxORTurn a b c d (twoPow 64 i) =
      (minANDTurn (~~~b) (~~~a) (~~~d) (~~~c) (twoPow 64 i)).map fun r => (~~~r.1, ~~~r.2) := by
  rw [maxORTurn, minANDTurn, BitVec.not_not, BitVec.not_not]
  have hraise : ∀ u : BitVec 64, (u ||| twoPow 64 i) &&& -twoPow 64 i = raise u i := fun _ => rfl
  simp only [hraise]
  by_cases hm : b &&& d &&& twoPow 64 i ≠ 0#64
  · rw [if_pos hm, if_pos hm]
    rw [and_twoPow_ne_zero hi, getLsbD_and, Bool.and_eq_true] at hm
    rw [sub_or_eq_not_raise hi hm.1, sub_or_eq_not_raise hi hm.2]
    have hle : ∀ u v : BitVec 64, u ≤ ~~~v ↔ v ≤ ~~~u := fun u v => by
      rw [← not_le_not_iff, BitVec.not_not]
    simp only [hle a, hle c]
    by_cases h1 : raise (~~~b) i ≤ ~~~a
    · simp [h1]
    · by_cases h2 : raise (~~~d) i ≤ ~~~c <;> simp [h1, h2]
  · rw [if_neg hm, if_neg hm]
    rfl

/-- The maximum of OR is the minimum of AND on the complements. -/
lemma maxOR_eq : maxOR a b c d = ~~~ minAND (~~~b) (~~~a) (~~~d) (~~~c) := by
  rw [maxOR, minAND, scanMasks_map _ maxORTurn_eq 64 le_rfl]
  cases scanMasks (minANDTurn (~~~b) (~~~a) (~~~d) (~~~c)) 64 with
  | none | some r => simp [BitVec.not_and]

lemma box_not_iff : Box (~~~b) (~~~a) (~~~d) (~~~c) (~~~x) (~~~y) ↔ Box a b c d x y := by
  constructor <;> intro h
  · exact ⟨not_le_not_iff.mp h.xb, not_le_not_iff.mp h.ax, not_le_not_iff.mp h.yd,
      not_le_not_iff.mp h.cy⟩
  · exact ⟨not_le_not_iff.mpr h.xb, not_le_not_iff.mpr h.ax, not_le_not_iff.mpr h.yd,
      not_le_not_iff.mpr h.cy⟩

lemma maxOR_greatest (hab : a ≤ b) (hcd : c ≤ d) :
    Extreme (· ≥ ·) (· ||| ·) a b c d (maxOR a b c d) := by
  obtain ⟨⟨p, q, hbx, heq⟩, hle⟩ := minAND_least (not_le_not_iff.mpr hab) (not_le_not_iff.mpr hcd)
  rw [maxOR_eq]
  refine ⟨⟨~~~p, ~~~q, ?_, ?_⟩, fun x y h => ?_⟩
  · rwa [← box_not_iff, BitVec.not_not, BitVec.not_not]
  · rw [heq, BitVec.not_and]
  · show x ||| y ≤ _
    rw [← not_le_not_iff, BitVec.not_not, BitVec.not_or]
    exact hle _ _ (box_not_iff.mpr h)

/-- The value tried by `maxAND` has every bit set. -/
lemma or_not_twoPow (hb : b.getLsbD i = true) :
    (b ||| ~~~twoPow 64 i) ||| (twoPow 64 i - 1#64) = allOnes 64 := by
  refine BitVec.eq_of_getLsbD_eq fun j hj => ?_
  by_cases hij : i = j
  · subst hij
    simp only [getLsbD_or, hb, Bool.true_or, BitVec.getLsbD_allOnes, hj, decide_true]
  · simp only [getLsbD_or, getLsbD_not, BitVec.getLsbD_twoPow, hij, hj, decide_true,
      decide_false, Bool.and_false, Bool.not_false, Bool.and_true, Bool.or_true, Bool.true_or,
      BitVec.getLsbD_allOnes]

/-- `maxAND` returns the smaller of the two upper ends. -/
lemma maxAND_eq_min : maxAND a b c d = if b ≤ d then b else d := by
  have hal : ∀ u : BitVec 64, u ≤ allOnes 64 := fun u => by
    rw [le_def, BitVec.toNat_allOnes]
    omega
  refine scanMasks_rule (P := fun k => upper b k = upper d k)
    (Q := fun o => (o.getD (b, d)).1 &&& (o.getD (b, d)).2 = if b ≤ d then b else d)
    ?_ ?_ 64 le_rfl ?_
  · intro h
    obtain rfl := BitVec.toNat_inj.mp h
    simp
  · intro i hi hup
    rw [maxANDTurn]
    simp only [and_twoPow_ne_zero hi, getLsbD_and, getLsbD_not, hi, Bool.and_eq_true]
    cases hb : b.getLsbD i <;> cases hd : d.getLsbD i
    · left
      refine ⟨by simp, ?_⟩
      rw [upper_eq_succ b, upper_eq_succ d, hup, hb, hd]
    · have hbd : b ≤ d := le_of_upper_lt (by
        rw [upper_eq_succ b, upper_eq_succ d, hup, hb, hd]
        simp)
      right
      refine ⟨(b, allOnes 64), ?_, ?_⟩
      · rw [or_not_twoPow hd]
        exact if_pos (hal c)
      · rw [if_pos hbd]
        exact BitVec.and_allOnes
    · have hbd : ¬ b ≤ d := fun hle => by
        have hd' := Bool.le_iff_imp.mp (bit_le_of_upper_eq hup hle) hb
        exact Bool.noConfusion (hd.symm.trans hd')
      right
      refine ⟨(allOnes 64, d), ?_, ?_⟩
      · rw [or_not_twoPow hb]
        exact if_pos (hal a)
      · rw [if_neg hbd]
        exact BitVec.allOnes_and
    · left
      refine ⟨by simp, ?_⟩
      rw [upper_eq_succ b, upper_eq_succ d, hup, hb, hd]
  · rw [upper_width, upper_width]

/-- **`minOR`, `maxOR` and `minAND` are exact.** -/
theorem orAndBounds_exact (hab : a ≤ b) (hcd : c ≤ d) :
    Extreme (· ≤ ·) (· ||| ·) a b c d (minOR a b c d) ∧
      Extreme (· ≥ ·) (· ||| ·) a b c d (maxOR a b c d) ∧
      Extreme (· ≤ ·) (· &&& ·) a b c d (minAND a b c d) :=
  ⟨minOR_least hab hcd, maxOR_greatest hab hcd, minAND_least hab hcd⟩

/-- The bound of a small box is taken inside it. -/
theorem orAndBounds_exact_box : ∃ p q : BitVec 64, Box 1 2 4 5 p q ∧ minOR 1 2 4 5 = p ||| q :=
  (orAndBounds_exact (by decide) (by decide)).1.1

/-- Some word between `c` and `d` has every bit of `b`. -/
def Covered (b c d : BitVec 64) : Prop := ∃ y, c ≤ y ∧ y ≤ d ∧ b &&& y = b

/-- **`maxAND` is exact if and only if the smaller upper end is attained**, that is if a word of the
other range has all its bits. -/
theorem maxAND_greatest_iff (hab : a ≤ b) (hcd : c ≤ d) :
    Extreme (· ≥ ·) (· &&& ·) a b c d (maxAND a b c d) ↔
      (b ≤ d → Covered b c d) ∧ (¬ b ≤ d → Covered d a b) := by
  rw [maxAND_eq_min]
  split_ifs with hbd
  · constructor
    · rintro ⟨⟨p, q, h, heq⟩, -⟩
      refine ⟨fun _ => ⟨q, h.cy, h.yd, ?_⟩, absurd hbd⟩
      rw [heq, BitVec.and_assoc, BitVec.and_self]
    · intro hcv
      obtain ⟨y, hcy, hyd, hby⟩ := hcv.1 hbd
      refine ⟨⟨b, y, ⟨hab, Nat.le_refl _, hcy, hyd⟩, hby.symm⟩, fun x y h => ?_⟩
      exact Nat.and_le_left.trans h.xb
  · constructor
    · rintro ⟨⟨p, q, h, heq⟩, -⟩
      refine ⟨fun hle => absurd hle hbd, fun _ => ⟨p, h.ax, h.xb, ?_⟩⟩
      show d &&& p = d
      rw [heq]
      show p &&& q &&& p = p &&& q
      rw [BitVec.and_comm p, BitVec.and_assoc, BitVec.and_self]
    · intro hcv
      obtain ⟨x, hax, hxb, hdx⟩ := hcv.2 hbd
      refine ⟨⟨x, d, ⟨hax, hxb, hcd, Nat.le_refl _⟩, ?_⟩, fun x y h => ?_⟩
      · show d = x &&& d
        rw [BitVec.and_comm, hdx]
      · exact Nat.and_le_right.trans h.yd

/-- On `[4, 5]` and `[6, 7]`, which do not overlap, the maximum 5 is found: 7 has the bits of 5. -/
theorem maxAND_greatest_iff_apart : Extreme (· ≥ ·) (· &&& ·) 4#64 5 6 7 (maxAND 4 5 6 7) :=
  (maxAND_greatest_iff (by decide) (by decide)).mpr
    ⟨fun _ => ⟨7, by decide, by decide, by decide⟩, absurd (by decide)⟩

/-- On `[2, 2]` and `[1, 1]` the only value is 0, and `maxAND` gives 1. -/
theorem maxAND_misses : ¬ Extreme (· ≥ ·) (· &&& ·) 2#64 2 1 1 (maxAND 2 2 1 1) := by
  rw [maxAND_eq_min]
  rintro ⟨⟨p, q, h, heq⟩, -⟩
  rw [BitVec.le_antisymm h.xb h.ax, BitVec.le_antisymm h.yd h.cy] at heq
  exact absurd heq (by decide)

end unsigned

/-! ## Signed and unsigned order -/

section signed

lemma neg_iff (x : BitVec 64) : x.toInt < 0 ↔ 2 ^ 63 ≤ x.toNat := by
  have hcn := toInt_eq_toNat_cond x
  split_ifs at hcn <;> omega

lemma toInt_le_of_toNat_le (hle : x.toNat ≤ y.toNat) (hs : y.toInt < 0 → x.toInt < 0) :
    x.toInt ≤ y.toInt := by
  rw [neg_iff, neg_iff] at hs
  rw [toInt_eq_toNat_cond x, toInt_eq_toNat_cond y]
  split_ifs <;> omega

lemma toNat_le_of_toInt_le (hle : x.toInt ≤ y.toInt) (hs : x.toInt < 0 → y.toInt < 0) :
    x.toNat ≤ y.toNat := by
  by_contra hlt
  have hge := toInt_le_of_toNat_le (Nat.le_of_not_le hlt) hs
  exact hlt (BitVec.toInt_inj.mp (le_antisymm hle hge) ▸ Nat.le_refl _)

lemma neg_iff_msb (x : BitVec 64) : x.toInt < 0 ↔ x.msb = true := by
  rw [neg_iff, BitVec.msb_eq_decide, decide_eq_true_iff]

lemma or_neg_iff : (x ||| y).toInt < 0 ↔ x.toInt < 0 ∨ y.toInt < 0 := by
  simp only [neg_iff_msb, BitVec.msb_or, Bool.or_eq_true]

lemma and_neg_iff : (x &&& y).toInt < 0 ↔ x.toInt < 0 ∧ y.toInt < 0 := by
  simp only [neg_iff_msb, BitVec.msb_and, Bool.and_eq_true]

/-- A range of numbers of one sign, where both orders agree. -/
structure OneSign (a b : BitVec 64) : Prop where
  le : a.toInt ≤ b.toInt
  sign : b.toInt < 0 ∨ 0 ≤ a.toInt

/-- On one side of 0 the signed order is the unsigned one. -/
lemma OneSign.toNat_le (h : OneSign a b) : a.toNat ≤ b.toNat :=
  toNat_le_of_toInt_le h.le fun ha => h.sign.resolve_right (by omega)

lemma OneSign.neg_iff_of_mem (h : OneSign a b) (hax : a ≤ x) (hxb : x ≤ b) :
    x.toInt < 0 ↔ a.toInt < 0 := by
  rw [le_def] at hax hxb
  have hle := h.le
  have ha := neg_iff a
  have hb := neg_iff b
  have hx := neg_iff x
  omega

lemma OneSign.mem (h : OneSign a b) (hax : a.toInt ≤ x.toInt) (hxb : x.toInt ≤ b.toInt) :
    a ≤ x ∧ x ≤ b := by
  have hs := h.sign
  exact ⟨toNat_le_of_toInt_le hax (by omega), toNat_le_of_toInt_le hxb (by omega)⟩

/-- An extreme value on ranges of one sign has the sign of the corners, and bounds the operation in
the signed order. -/
lemma Extreme.signed {v : BitVec 64}
    {r : BitVec 64 → BitVec 64 → Prop} {R : ℤ → ℤ → Prop} {s : Prop → Prop → Prop}
    {op : BitVec 64 → BitVec 64 → BitVec 64} (hv : Extreme r op a b c d v)
    (hr : ∀ u v : BitVec 64, (u.toInt < 0 ↔ v.toInt < 0) → r u v → R u.toInt v.toInt)
    (hop : ∀ x y, (op x y).toInt < 0 ↔ s (x.toInt < 0) (y.toInt < 0)) (hab : OneSign a b)
    (hcd : OneSign c d) : (v.toInt < 0 ↔ s (a.toInt < 0) (c.toInt < 0)) ∧
      ∀ x y : BitVec 64, a.toInt ≤ x.toInt → x.toInt ≤ b.toInt → c.toInt ≤ y.toInt →
        y.toInt ≤ d.toInt → R v.toInt (op x y).toInt := by
  have hsg : ∀ x y, Box a b c d x y →
      ((op x y).toInt < 0 ↔ s (a.toInt < 0) (c.toInt < 0)) := fun x y h => by
    rw [hop, hab.neg_iff_of_mem h.ax h.xb, hcd.neg_iff_of_mem h.cy h.yd]
  obtain ⟨⟨p, q, hpq, rfl⟩, hb⟩ := hv
  refine ⟨hsg p q hpq, fun x y hax hxb hcy hyd => ?_⟩
  obtain ⟨hax', hxb'⟩ := hab.mem hax hxb
  obtain ⟨hcy', hyd'⟩ := hcd.mem hcy hyd
  have hbx : Box a b c d x y := ⟨hax', hxb', hcy', hyd'⟩
  exact hr _ _ ((hsg p q hpq).trans (hsg x y hbx).symm) (hb x y hbx)

section oneSign

variable (hab : OneSign a b) (hcd : OneSign c d)

include hab hcd

/-- The bound for operands of one sign each, in the signed order. -/
lemma minOR_signed : ((minOR a b c d).toInt < 0 ↔ a.toInt < 0 ∨ c.toInt < 0) ∧
    ∀ x y : BitVec 64, a.toInt ≤ x.toInt → x.toInt ≤ b.toInt → c.toInt ≤ y.toInt →
      y.toInt ≤ d.toInt → (minOR a b c d).toInt ≤ (x ||| y).toInt :=
  Extreme.signed (minOR_least hab.toNat_le hcd.toNat_le)
    (fun _ _ hs h => toInt_le_of_toNat_le h hs.mpr)
    (fun _ _ => or_neg_iff) hab hcd

lemma maxOR_signed : ((maxOR a b c d).toInt < 0 ↔ a.toInt < 0 ∨ c.toInt < 0) ∧
    ∀ x y : BitVec 64, a.toInt ≤ x.toInt → x.toInt ≤ b.toInt → c.toInt ≤ y.toInt →
      y.toInt ≤ d.toInt → (maxOR a b c d).toInt ≥ (x ||| y).toInt :=
  Extreme.signed (maxOR_greatest hab.toNat_le hcd.toNat_le)
    (fun _ _ hs h => toInt_le_of_toNat_le h hs.mp)
    (fun _ _ => or_neg_iff) hab hcd

lemma minAND_signed : ((minAND a b c d).toInt < 0 ↔ a.toInt < 0 ∧ c.toInt < 0) ∧
    ∀ x y : BitVec 64, a.toInt ≤ x.toInt → x.toInt ≤ b.toInt → c.toInt ≤ y.toInt →
      y.toInt ≤ d.toInt → (minAND a b c d).toInt ≤ (x &&& y).toInt :=
  Extreme.signed (minAND_least hab.toNat_le hcd.toNat_le)
    (fun _ _ hs h => toInt_le_of_toNat_le h hs.mpr)
    (fun _ _ => and_neg_iff) hab hcd

end oneSign

/-- An operand of `|` is at most the result if it is negative or the other is not. -/
lemma le_or (h : y.toInt < 0 → x.toInt < 0) : x.toInt ≤ (x ||| y).toInt := by
  refine toInt_le_of_toNat_le ?_ fun hn => (or_neg_iff.mp hn).elim id h
  exact Nat.left_le_or

/-- An operand of `&` is at least the result if it is not negative or the other is. -/
lemma and_le (h : x.toInt < 0 → y.toInt < 0) : (x &&& y).toInt ≤ x.toInt := by
  refine toInt_le_of_toNat_le ?_ fun hn => and_neg_iff.mpr ⟨hn, h hn⟩
  exact Nat.and_le_left

/-- The smaller upper end of `maxAND`, in the signed order. -/
lemma le_maxAND {v : BitVec 64} (hb : 0 ≤ b.toInt → v.toInt ≤ b.toInt)
    (hd : 0 ≤ d.toInt → v.toInt ≤ d.toInt)
    (hbd : b.toInt < 0 → d.toInt < 0 → v.toInt ≤ b.toInt ∧ v.toInt ≤ d.toInt) :
    v.toInt ≤ (maxAND a b c d).toInt := by
  rw [maxAND_eq_min]
  have hb' := neg_iff b
  have hd' := neg_iff d
  split_ifs with h
  · rw [le_def] at h
    omega
  · rw [le_def] at h
    omega

/-! ## The range functions -/

/-- Bit 2 stands for two tests: on proper ranges the pattern tells the signs of `a`, `b` and `c`
only, and the listed patterns 3, 0xb and 0xf never occur. -/
lemma signPattern_eq (hcd : c.toInt ≤ d.toInt) : signPattern a b c d =
    (if a.toInt < 0 then 8 else 0) + (if b.toInt < 0 then 4 else 0) +
      (if c.toInt < 0 then 2 else 0) := by
  unfold signPattern
  by_cases hd : d.toInt < 0
  · rw [if_pos (show c.toInt < 0 by omega)]
    split_ifs <;> rfl
  · split_ifs <;> rfl

/-- The result of a range function contains `v`. -/
def Encloses (r : Option (BitVec 64 × BitVec 64)) (v : BitVec 64) : Prop :=
  ∃ p ∈ r, p.1.toInt ≤ v.toInt ∧ v.toInt ≤ p.2.toInt

/-- A mixed first range and a negative second one, which the pattern takes for 0xa, with `b` below
the complement of `d`. -/
def OrGap (a b c d : BitVec 64) : Prop :=
  a.toInt < 0 ∧ 0 ≤ b.toInt ∧ c.toInt ≤ d.toInt ∧ d.toInt < 0 ∧ b.toInt + d.toInt < -1

instance : Decidable (OrGap a b c d) := inferInstanceAs (Decidable (_ ∧ _))

lemma toNat_eq_of_neg (h : x.toInt < 0) : (x.toNat : ℤ) = x.toInt + 2 ^ 64 := by
  have hn := neg_iff x
  have hcn := toInt_eq_toNat_cond x
  split_ifs at hcn <;> omega

lemma toNat_eq_of_nonneg (h : 0 ≤ x.toInt) : (x.toNat : ℤ) = x.toInt := by
  have hn := neg_iff x
  have hcn := toInt_eq_toNat_cond x
  split_ifs at hcn <;> omega

/-- The unsigned box `[0, b] × [0, d]` contains two words that cover each other's gaps exactly if
`b` is not below the complement of `d`. -/
lemma maxOR_eq_allOnes_iff (hb : 0 ≤ b.toInt) (hd : d.toInt < 0) :
    maxOR 0 b 0 d = allOnes 64 ↔ -1 ≤ b.toInt + d.toInt := by
  have hg := maxOR_greatest (a := 0) (b := b) (c := 0) (d := d) (Nat.zero_le _) (Nat.zero_le _)
  have hbn := toNat_eq_of_nonneg hb
  have hdn := toNat_eq_of_neg hd
  constructor
  · obtain ⟨⟨p, q, hpq, heq⟩, -⟩ := hg
    intro ho
    have hle : ~~~q ≤ p := by
      have hpo : p ||| q = allOnes 64 := heq.symm.trans ho
      have hand : ~~~q &&& (p ||| q) = ~~~q := by rw [hpo, BitVec.and_allOnes]
      have hqz : ~~~q &&& q = 0#64 := BitVec.and_comm .. ▸ BitVec.and_not_self q
      rw [BitVec.and_or_distrib_left, hqz, BitVec.or_zero] at hand
      rw [← hand]
      exact Nat.and_le_right
    have hpb := hpq.xb
    have hqd := hpq.yd
    rw [le_def] at hle hpb hqd
    rw [BitVec.toNat_not] at hle
    omega
  · intro hle
    have hcm : ~~~d ≤ b := by
      rw [le_def, BitVec.toNat_not]
      omega
    have hfull : ~~~d ||| d ≤ maxOR 0 b 0 d :=
      hg.2 (~~~d) d ⟨Nat.zero_le _, hcm, Nat.zero_le _, Nat.le_refl _⟩
    rw [BitVec.or_comm, BitVec.or_not_self, le_def, BitVec.toNat_allOnes] at hfull
    refine BitVec.eq_of_toNat_eq ?_
    rw [BitVec.toNat_allOnes]
    omega

section enclose

variable (hax : a.toInt ≤ x.toInt) (hxb : x.toInt ≤ b.toInt) (hcy : c.toInt ≤ y.toInt)
  (hyd : y.toInt ≤ d.toInt)

include hax hxb hcy hyd

/-- The case split over the signs encloses every OR, outside the gap. -/
lemma zendSsaRangeOr_encloses (hmx : ¬ OrGap a b c d) :
    Encloses (zendSsaRangeOr a b c d) (x ||| y) := by
  have hn : (-1 : BitVec 64).toInt = -1 := rfl
  have hz : (0 : BitVec 64).toInt = 0 := rfl
  have hs := @or_neg_iff x y
  unfold OrGap at hmx
  rw [zendSsaRangeOr, signPattern_eq (hcy.trans hyd)]
  by_cases ha : a.toInt < 0 <;> by_cases hc : c.toInt < 0
  · by_cases hb : b.toInt < 0
    · rw [if_pos ha, if_pos hb, if_pos hc]
      refine ⟨_, rfl, ?_, ?_⟩
      · exact hax.trans (le_or fun _ => by omega)
      · show _ ≤ (-1 : ℤ)
        omega
    rw [if_pos ha, if_neg hb, if_pos hc]
    refine ⟨_, rfl, ?_, ?_⟩
    · show (longMin a c).toInt ≤ _
      have hx := @le_or x y
      have hy := @le_or y x
      rw [BitVec.or_comm y] at hy
      unfold longMin
      split_ifs <;> omega
    · show _ ≤ (maxOR 0 b 0 d).toInt
      by_cases hd : d.toInt < 0
      · rw [(maxOR_eq_allOnes_iff (by omega) hd).mpr (by omega)]
        show _ ≤ (-1 : ℤ)
        omega
      have hm := maxOR_signed (a := 0) (b := b) (c := 0) (d := d) ⟨by omega, by omega⟩
        ⟨by omega, by omega⟩
      by_cases hxy : (x ||| y).toInt < 0
      · omega
      · exact hm.2 x y (by omega) hxb (by omega) hyd
  · by_cases hb : b.toInt < 0
    · have hab : OneSign a b := ⟨by omega, by omega⟩
      have hcd : OneSign c d := ⟨by omega, by omega⟩
      rw [if_pos ha, if_pos hb, if_neg hc]
      exact ⟨_, rfl, (minOR_signed hab hcd).2 x y hax hxb hcy hyd,
        (maxOR_signed hab hcd).2 x y hax hxb hcy hyd⟩
    have hcd : OneSign c d := ⟨by omega, by omega⟩
    have hmn := minOR_signed (a := a) (b := -1) ⟨by omega, by omega⟩ hcd
    have hm := maxOR_signed (a := 0) (b := b) ⟨by omega, by omega⟩ hcd
    rw [if_pos ha, if_neg hb, if_neg hc]
    refine ⟨_, rfl, ?_, ?_⟩
    · show (minOR a (-1) c d).toInt ≤ _
      by_cases hx : x.toInt < 0
      · exact hmn.2 x y hax (by omega) hcy hyd
      · omega
    · show _ ≤ (maxOR 0 b c d).toInt
      by_cases hx : x.toInt < 0
      · omega
      · exact hm.2 x y (by omega) hxb hcy hyd
  · have hab : OneSign a b := ⟨by omega, by omega⟩
    have hmn := minOR_signed (c := c) (d := -1) hab ⟨by omega, by omega⟩
    rw [if_neg ha, if_neg (by omega), if_pos hc]
    refine ⟨_, rfl, ?_, ?_⟩
    · show (minOR a b c (-1)).toInt ≤ _
      by_cases hy : y.toInt < 0
      · exact hmn.2 x y hax hxb hcy (by omega)
      · omega
    show _ ≤ (maxOR a b 0 d).toInt
    by_cases hd : d.toInt < 0
    · -- here `[0, d]` is read unsigned; it contains `[c, d]`
      obtain ⟨hax', hxb'⟩ := hab.mem hax hxb
      have hyd' : y ≤ d := toNat_le_of_toInt_le hyd (by omega)
      exact toInt_le_of_toNat_le ((maxOR_greatest hab.toNat_le (Nat.zero_le _)).2 x y
        ⟨hax', hxb', Nat.zero_le _, hyd'⟩) fun _ => by omega
    · have hm := maxOR_signed (c := 0) (d := d) hab ⟨by omega, by omega⟩
      by_cases hy : y.toInt < 0
      · omega
      · exact hm.2 x y hax hxb (by omega) hyd
  · have hab : OneSign a b := ⟨by omega, by omega⟩
    have hcd : OneSign c d := ⟨by omega, by omega⟩
    rw [if_neg ha, if_neg (by omega), if_neg hc]
    exact ⟨_, rfl, (minOR_signed hab hcd).2 x y hax hxb hcy hyd,
      (maxOR_signed hab hcd).2 x y hax hxb hcy hyd⟩

lemma zendSsaRangeAnd_encloses : Encloses (zendSsaRangeAnd a b c d) (x &&& y) := by
  have hn : (-1 : BitVec 64).toInt = -1 := rfl
  have hs := @and_neg_iff x y
  have hx := @and_le x y
  have hy := @and_le y x
  rw [BitVec.and_comm y] at hy
  rw [zendSsaRangeAnd, signPattern_eq (hcy.trans hyd)]
  by_cases ha : a.toInt < 0 <;> by_cases hc : c.toInt < 0
  · by_cases hb : b.toInt < 0
    · have hm := minAND_signed (a := a) (b := b) (c := c) (d := -1) ⟨by omega, by omega⟩
        ⟨by omega, by omega⟩
      rw [if_pos ha, if_pos hb, if_pos hc]
      refine ⟨_, rfl, ?_, le_maxAND (by omega) (by omega) (by omega)⟩
      show (minAND a b c (-1)).toInt ≤ _
      by_cases hyn : y.toInt < 0
      · exact hm.2 x y hax hxb hcy (by omega)
      · omega
    have hm := minAND_signed (a := a) (b := -1) (c := c) (d := -1) ⟨by omega, by omega⟩
      ⟨by omega, by omega⟩
    rw [if_pos ha, if_neg hb, if_pos hc]
    refine ⟨_, rfl, ?_, ?_⟩
    · show (minAND a (-1) c (-1)).toInt ≤ _
      by_cases hxy : (x &&& y).toInt < 0
      · exact hm.2 x y hax (by omega) hcy (by omega)
      · omega
    · show _ ≤ (longMax b d).toInt
      unfold longMax
      split_ifs <;> omega
  · by_cases hb : b.toInt < 0
    · rw [if_pos ha, if_pos hb, if_neg hc]
      exact ⟨_, rfl, (minAND_signed ⟨by omega, by omega⟩ ⟨by omega, by omega⟩).2 x y
        hax hxb hcy hyd,
        le_maxAND (by omega) (by omega) (by omega)⟩
    rw [if_pos ha, if_neg hb, if_neg hc]
    refine ⟨_, rfl, ?_, ?_⟩
    · show (0 : ℤ) ≤ _
      omega
    · show _ ≤ d.toInt
      omega
  · rw [if_neg ha, if_neg (by omega), if_pos hc]
    refine ⟨_, rfl, ?_, ?_⟩
    · show (0 : ℤ) ≤ _
      omega
    · show _ ≤ b.toInt
      omega
  · rw [if_neg ha, if_neg (by omega), if_neg hc]
    exact ⟨_, rfl, (minAND_signed ⟨by omega, by omega⟩ ⟨by omega, by omega⟩).2 x y hax hxb hcy hyd,
      le_maxAND (by omega) (by omega) (by omega)⟩

end enclose

/-- In the gap `-1 | d`, which is `-1`, is above the upper bound. -/
lemma zendSsaRangeOr_gap (h : OrGap a b c d) : ¬ Encloses (zendSsaRangeOr a b c d) (-1 ||| d) := by
  obtain ⟨ha, hb, hcd, hd, hbd⟩ := h
  rw [zendSsaRangeOr, signPattern_eq hcd, if_pos ha, if_neg (by omega), if_pos (by omega)]
  rintro ⟨p, hp, -, hm⟩
  obtain rfl := Option.some.inj hp
  have hv : (-1#64 ||| d) = allOnes 64 := BitVec.allOnes_or
  have hle : (allOnes 64).toInt ≤ (maxOR 0 b 0 d).toInt := hv ▸ hm
  have hneg : (maxOR 0 b 0 d).toInt < 0 := by
    have hge : 0#64 ||| d ≤ maxOR 0 b 0 d :=
      (maxOR_greatest (Nat.zero_le _) (Nat.zero_le _)).2 0 d
        ⟨Nat.zero_le _, Nat.zero_le _, Nat.zero_le _, Nat.le_refl _⟩
    rw [neg_iff] at hd ⊢
    rw [BitVec.zero_or] at hge
    exact hd.trans hge
  have heq : maxOR 0 b 0 d = allOnes 64 := by
    refine BitVec.eq_of_toInt_eq (le_antisymm ?_ hle)
    show _ ≤ (-1 : ℤ)
    omega
  have := (maxOR_eq_allOnes_iff hb hd).mp heq
  omega

/-- **The ranges of `|` and `&` are sound if and only if the four ends are outside the gap**, which
only concerns `|`. -/
theorem zendSsaRange_sound_iff (a b c d : BitVec 64) :
    (∀ x y : BitVec 64, a.toInt ≤ x.toInt → x.toInt ≤ b.toInt → c.toInt ≤ y.toInt →
        y.toInt ≤ d.toInt → Encloses (zendSsaRangeOr a b c d) (x ||| y) ∧
          Encloses (zendSsaRangeAnd a b c d) (x &&& y)) ↔ ¬ OrGap a b c d := by
  constructor
  · intro h hg
    have hn : (-1 : BitVec 64).toInt = -1 := rfl
    have ha := hg.1
    have hb := hg.2.1
    exact zendSsaRangeOr_gap hg (h (-1) d (by omega) (by omega) hg.2.2.1 le_rfl).1
  · exact fun hg x y hax hxb hcy hyd => ⟨zendSsaRangeOr_encloses hax hxb hcy hyd hg,
      zendSsaRangeAnd_encloses hax hxb hcy hyd⟩

/-- `[-4, 0] | [-1, -1]`, a mixed and a negative range outside the gap. -/
theorem zendSsaRange_sound_iff_mixed : Encloses (zendSsaRangeOr (-4) 0 (-1) (-1)) (-3 ||| -1) :=
  ((zendSsaRange_sound_iff (-4) 0 (-1) (-1)).mpr (by decide) (-3) (-1) (by decide) (by decide)
    (by decide) (by decide)).1

/-- `[-1, 0] | [-4, -4]` is given the upper bound `-4`, but `-1 | -4` is `-1`. -/
theorem zendSsaRangeOr_misses :
    ¬ ∀ a b c d x y : BitVec 64, a.toInt ≤ x.toInt → x.toInt ≤ b.toInt → c.toInt ≤ y.toInt →
      y.toInt ≤ d.toInt → Encloses (zendSsaRangeOr a b c d) (x ||| y) := by
  intro h
  obtain ⟨p, hp, -, hm⟩ := h (-1) 0 (-4) (-4) (-1) (-4) (by decide) (by decide) (by decide)
    (by decide)
  have hv : zendSsaRangeOr (-1) 0 (-4) (-4) = some (-4, -4) := by decide +kernel
  obtain rfl := Option.some.inj hp
  exact absurd hm (by decide)

end signed

end PhpInternals.Optimizer.Inference

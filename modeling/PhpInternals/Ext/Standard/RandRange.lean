import Mathlib.Data.Int.CardIntervalMod
import Mathlib.Data.Nat.Prime.Basic
import PhpInternals.Ext.Standard.MtRand

/-!
# Random numbers of a range

Embedding of `rand_range32`, `rand_range64` and `php_mt_rand_range` (`ext/standard/mt_rand.c`). A
loop that discards words is given the number of words it may draw.
-/

namespace PhpInternals.Ext.Standard

open Nat
open BitVec (allOnes ofNat toNat_allOnes)

variable {w : ℕ} {σ : Type}

/-- Discard words over the limit. -/
def discardOver (draw : σ → BitVec w × σ) (limit : BitVec w) :
    ℕ → BitVec w × σ → Option (BitVec w × σ)
  | 0, p => if limit < p.1 then none else some p
  | rounds + 1, p => if limit < p.1 then discardOver draw limit rounds (draw p.2) else some p

/-- `rand_range32` and `rand_range64`, which differ in the words they draw. -/
def randRange (draw : σ → BitVec w × σ) (rounds : ℕ) (umax : BitVec w) (g : σ) :
    Option (BitVec w × σ) :=
  let p := draw g
  if umax = allOnes w then some p
  else
    let umax := umax + 1#w
    if umax &&& (umax - 1#w) = 0#w then some (p.1 &&& (umax - 1#w), p.2)
    else
      let limit := allOnes w - allOnes w % umax - 1#w
      (discardOver draw limit rounds p).map fun p => (p.1 % umax, p.2)

/-- Source: `rand_range32`. -/
def randRange32 (generateSeed : BitVec 32) := randRange (phpMtRand generateSeed)

/-- The 64-bit word of two calls. -/
def phpMtRand64 (generateSeed : BitVec 32) (g : MtState) : BitVec 64 × MtState :=
  let p := phpMtRand generateSeed g
  let q := phpMtRand generateSeed p.2
  (p.1.setWidth 64 <<< 32 ||| q.1.setWidth 64, q.2)

/-- Source: `rand_range64`. -/
def randRange64 (generateSeed : BitVec 32) := randRange (phpMtRand64 generateSeed)

/-- Source: `php_mt_rand_range`. -/
def phpMtRandRange (generateSeed : BitVec 32) (rounds : ℕ) (min max : BitVec 64) (g : MtState) :
    Option (BitVec 64 × MtState) :=
  let umax := max - min
  if 0xFFFFFFFF#64 < umax then
    (randRange64 generateSeed rounds umax g).map fun p => (p.1 + min, p.2)
  else
    (randRange32 generateSeed rounds (umax.setWidth 32) g).map fun p => (p.1.setWidth 64 + min, p.2)

/-! ## The words drawn -/

/-- The `n`th word drawn, from 0, and the state after it. -/
def drawn (draw : σ → BitVec w × σ) (g : σ) (n : ℕ) : BitVec w × σ :=
  (fun p => draw p.2)^[n] (draw g)

lemma discardOver_eq {draw : σ → BitVec w × σ} {limit : BitVec w} {n rounds : ℕ} {p : BitVec w × σ}
    (hn : n ≤ rounds) (hs : ∀ k < n, limit < ((fun p => draw p.2)^[k] p).1)
    (hl : ¬ limit < ((fun p => draw p.2)^[n] p).1) :
    discardOver draw limit rounds p = some ((fun p => draw p.2)^[n] p) := by
  induction n generalizing p rounds with
  | zero => cases rounds <;> exact if_neg hl
  | succ n ih =>
    obtain ⟨m, rfl⟩ := Nat.exists_eq_add_of_le' hn
    refine (if_pos (hs 0 n.succ_pos)).trans (ih (Nat.le_add_left n m) (fun k hk => ?_) hl)
    exact hs (k + 1) (by omega)

/-! ## The limit -/

/-- The function discards the words over a limit and maps the others. -/
def Discards (umax limit : BitVec w) (f : BitVec w → BitVec w) : Prop :=
  ∀ {σ : Type} (draw : σ → BitVec w × σ) rounds g, randRange draw rounds umax g =
    (discardOver draw limit rounds (draw g)).map fun p => (f p.1, p.2)

lemma discardOver_allOnes (draw : σ → BitVec w × σ) (rounds : ℕ) (p : BitVec w × σ) :
    discardOver draw (allOnes w) rounds p = some p := by
  have hp : ¬ allOnes w < p.1 := by
    rw [BitVec.lt_def, toNat_allOnes]
    omega
  cases rounds <;> exact if_neg hp

section

variable {umax : BitVec w} (h : umax ≠ allOnes w)
include h

lemma succ_lt : umax.toNat + 1 < 2 ^ w := by
  have hne : umax.toNat ≠ (allOnes w).toNat := fun heq => h (BitVec.eq_of_toNat_eq heq)
  rw [toNat_allOnes] at hne
  omega

lemma toNat_succ : (umax + 1#w).toNat = umax.toNat + 1 := by
  rw [BitVec.toNat_add, BitVec.toNat_ofNat, add_mod_mod, mod_eq_of_lt (succ_lt h)]

lemma and_eq_zero_iff : umax + 1#w &&& umax = 0#w ↔ (umax.toNat + 1).isPowerOfTwo := by
  rw [← Nat.and_sub_one_eq_zero_iff_isPowerOfTwo (by omega), Nat.add_sub_cancel, ← toNat_succ h,
    ← BitVec.toNat_and, ← BitVec.toNat_inj, BitVec.toNat_ofNat, Nat.zero_mod]

lemma limit_eq (htw : umax + 1#w &&& umax ≠ 0#w) :
    (allOnes w - allOnes w % (umax + 1#w) - 1#w).toNat + 1 =
      (umax.toNat + 1) * (2 ^ w / (umax.toNat + 1)) := by
  have hlt := succ_lt h
  obtain ⟨m, hm⟩ : ∃ m, 2 ^ w = m + 1 := ⟨2 ^ w - 1, by omega⟩
  have hdv : ¬ umax.toNat + 1 ∣ m + 1 := by
    intro hdv
    rw [← hm, dvd_prime_pow prime_two] at hdv
    obtain ⟨k, -, hk⟩ := hdv
    exact htw ((and_eq_zero_iff h).mpr ⟨k, hk⟩)
  have hs : (allOnes w - allOnes w % (umax + 1#w)).toNat =
      (umax.toNat + 1) * (m / (umax.toNat + 1)) := by
    rw [BitVec.allOnes_sub_eq_not, BitVec.toNat_not, BitVec.toNat_umod, toNat_succ h, toNat_allOnes,
      hm, Nat.add_sub_cancel, ← Nat.mul_div_self_eq_mod_sub_self]
  have hp := Nat.mul_pos umax.toNat.succ_pos (Nat.div_pos (a := m) (by omega) umax.toNat.succ_pos)
  have ho : (1#w).toNat = 1 := Nat.mod_eq_of_lt (by omega)
  rw [hm, Nat.succ_div_of_not_dvd hdv, ← hs, BitVec.toNat_sub_of_le, ho, Nat.sub_add_cancel]
  · rw [hs]
    exact hp
  · rw [BitVec.le_def, ho, hs]
    exact hp

end

/-- Every way through the function has the same limit, and the same remainder. -/
lemma exists_discards (umax : BitVec w) : ∃ limit f, Discards umax limit f ∧
    limit.toNat + 1 = (umax.toNat + 1) * (2 ^ w / (umax.toNat + 1)) ∧
    ∀ r, (f r).toNat = r.toNat % (umax.toNat + 1) := by
  have hp := Nat.two_pow_pos w
  by_cases hfl : umax = allOnes w
  · refine ⟨allOnes w, id, fun draw rounds g => ?_, ?_, fun r => ?_⟩
    · rw [discardOver_allOnes, randRange, if_pos hfl]
      rfl
    · rw [hfl, toNat_allOnes, Nat.sub_add_cancel hp, Nat.div_self hp, mul_one]
    · rw [hfl, toNat_allOnes, Nat.sub_add_cancel hp, Nat.mod_eq_of_lt r.isLt, id]
  have hs : umax + 1#w - 1#w = umax := BitVec.add_sub_cancel _ _
  by_cases htw : umax + 1#w &&& umax = 0#w
  · obtain ⟨k, hk⟩ := (and_eq_zero_iff hfl).mp htw
    refine ⟨allOnes w, (· &&& umax), fun draw rounds g => ?_, ?_, fun r => ?_⟩
    · rw [discardOver_allOnes, randRange, if_neg hfl]
      simp only [hs, htw]
      rfl
    · rw [toNat_allOnes, Nat.sub_add_cancel hp, Nat.mul_div_cancel']
      have hlt := succ_lt hfl
      rw [hk] at hlt ⊢
      exact Nat.pow_dvd_pow 2 ((Nat.pow_lt_pow_iff_right (by omega)).mp hlt).le
    · rw [BitVec.toNat_and, hk, ← Nat.and_two_pow_sub_one_eq_mod, ← hk, Nat.add_sub_cancel]
  · refine ⟨_, (· % (umax + 1#w)), fun draw rounds g => ?_, limit_eq hfl htw, fun r => ?_⟩
    · rw [randRange, if_neg hfl]
      simp [hs, htw]
    · rw [BitVec.toNat_umod, toNat_succ hfl]

/-! ## The range -/

/-- What becomes of a word: `none` if it is discarded. -/
def wordValue (min max : BitVec 64) (r : BitVec w) : Option (BitVec 64) :=
  (randRange (fun _ => (r, ())) 0 ((max - min).setWidth w) ()).map fun p => p.1.setWidth 64 + min

/-- As many words are mapped to each value from `min` to `max`, together at least half of all, and
`range` returns what the first of them is mapped to. -/
structure UnbiasedRange (draw : σ → BitVec w × σ) (min max : BitVec 64) (g : σ)
    (range : ℕ → Option (BitVec 64 × σ)) : Prop where
  mem : ∀ (r : BitVec w) v, wordValue min max r = some v → min.toInt ≤ v.toInt ∧ v.toInt ≤ max.toInt
  same : ∃ n, ∀ v : BitVec 64, min.toInt ≤ v.toInt → v.toInt ≤ max.toInt →
    (2 ^ w).count (fun r => wordValue min max (ofNat w r) = some v) = n
  half : 2 ^ w ≤ 2 * (2 ^ w).count fun r => (wordValue min max (ofNat w r)).isSome
  first : ∀ n v, (∀ k < n, wordValue min max (drawn draw g k).1 = none) →
    wordValue min max (drawn draw g n).1 = some v →
    ∀ rounds ≥ n, range rounds = some (v, (drawn draw g n).2)

lemma count_eq {p q : ℕ → Prop} [DecidablePred p] [DecidablePred q] {n m : ℕ} (hnm : n ≤ m)
    (h : ∀ r < m, p r ↔ r < n ∧ q r) : m.count p = n.count q := by
  rw [count_eq_card_filter_range, count_eq_card_filter_range]
  congr 1
  ext r
  simp only [Finset.mem_filter, Finset.mem_range]
  constructor
  · rintro ⟨hr, hp⟩
    exact (h r hr).mp hp
  · rintro ⟨hr, hq⟩
    exact ⟨hr.trans_le hnm, (h r (hr.trans_le hnm)).mpr ⟨hr, hq⟩⟩

/-- The number of values from `min` to `max`. -/
def span (min max : BitVec 64) : ℕ := (max - min).toNat + 1

section

variable {min max v : BitVec 64} {limit : BitVec w} {f : BitVec w → BitVec w}

lemma wordValue_of_discards (hd : Discards ((max - min).setWidth w) limit f) (r : BitVec w) :
    wordValue min max r = if limit < r then none else some ((f r).setWidth 64 + min) := by
  rw [wordValue, hd, discardOver]
  split_ifs <;> rfl

/-- The words below the limit, by the value they are mapped to. -/
lemma wordValue_eq_some_iff (hw : span min max ≤ 2 ^ w) (r : BitVec w) :
    wordValue min max r = some v ↔ r.toNat < span min max * (2 ^ w / span min max) ∧
      ofNat 64 (r.toNat % span min max) + min = v := by
  obtain ⟨limit, f, hd, hl, hf⟩ := exists_discards ((max - min).setWidth w)
  rw [BitVec.toNat_setWidth, mod_eq_of_lt hw] at hl hf
  have hvl : (f r).setWidth 64 = ofNat 64 (r.toNat % span min max) := by
    apply BitVec.eq_of_toNat_eq
    rw [BitVec.toNat_setWidth, hf, BitVec.toNat_ofNat, span]
  have hle : r.toNat < limit.toNat + 1 ↔ ¬ limit < r := Nat.lt_succ_iff.trans not_lt.symm
  rw [wordValue_of_discards hd, hvl, span, ← hl, hle]
  split_ifs with hlt <;> simp only [hlt, not_true, not_false_iff, false_and, true_and,
    Option.some.injEq]

variable (h : min.toInt ≤ max.toInt)
include h

lemma span_eq : (span min max : ℤ) = max.toInt - min.toInt + 1 := by
  simp only [span, BitVec.toInt_eq_toNat_cond, BitVec.toNat_sub] at *
  split_ifs at * <;> omega

lemma toInt_ofNat_add {k : ℕ} (hk : k < span min max) :
    (ofNat 64 k + min).toInt = min.toInt + k := by
  simp only [span, BitVec.toInt_eq_toNat_cond, BitVec.toNat_sub, BitVec.toNat_add,
    BitVec.toNat_ofNat] at *
  split_ifs at * <;> omega

lemma count_wordValue (hw : span min max ≤ 2 ^ w) (hv : min.toInt ≤ v.toInt)
    (hv' : v.toInt ≤ max.toInt) :
    (2 ^ w).count (fun r => wordValue min max (ofNat w r) = some v) = 2 ^ w / span min max := by
  have hs := span_eq h
  have hk := span_eq hv
  have hft : span min max ≤ 2 ^ 64 := (max - min).isLt
  have hp : 0 < span min max := succ_pos _
  unfold span at hk
  rw [count_eq
    (q := (· ≡ (v - min).toNat [MOD span min max])) (mul_div_le _ _),
    Nat.count_modEq_card _ hp, Nat.mul_div_cancel_left _ hp, Nat.mul_mod_right,
    if_neg (Nat.not_lt_zero _), Nat.add_zero]
  intro r hr
  rw [wordValue_eq_some_iff hw, BitVec.toNat_ofNat, mod_eq_of_lt hr]
  refine and_congr_right fun _ => ?_
  rw [Nat.ModEq, mod_eq_of_lt (a := (v - min).toNat) (by omega), ← BitVec.eq_sub_iff_add_eq,
    ← BitVec.toNat_inj, BitVec.toNat_ofNat, mod_eq_of_lt ((mod_lt r hp).trans_le hft)]

lemma unbiasedRange {draw : σ → BitVec w × σ} {g : σ} (hw : span min max ≤ 2 ^ w) :
    UnbiasedRange draw min max g fun rounds =>
      (randRange draw rounds ((max - min).setWidth w) g).map fun p =>
      (p.1.setWidth 64 + min, p.2) where
  mem r v hv := by
    obtain ⟨-, rfl⟩ := (wordValue_eq_some_iff hw r).mp hv
    have hs := span_eq h
    have hm := mod_lt r.toNat (y := span min max) (by omega)
    rw [toInt_ofNat_add h hm]
    omega
  same := ⟨_, fun v hv hv' => count_wordValue h hw hv hv'⟩
  half := by
    have hps : 0 < span min max := succ_pos _
    have hlt := lt_mul_div_succ (2 ^ w) hps
    have hle := mul_le_mul_left (span min max) (div_pos hw hps)
    rw [mul_succ] at hlt
    rw [count_eq (n := span min max * (2 ^ w / span min max)) (q := fun _ => True)
      (mul_div_le _ _), count_true]
    · omega
    · intro r hr
      simp [Option.isSome_iff_exists, wordValue_eq_some_iff hw, mod_eq_of_lt hr]
  first n v hnn hv rounds hn := by
    obtain ⟨limit, f, hd, -⟩ := exists_discards ((max - min).setWidth w)
    simp only [wordValue_of_discards hd] at hnn hv
    split_ifs at hv with hl
    cases hv
    rw [hd, discardOver_eq hn (fun k hk => ?_) hl]
    · rfl
    · by_contra hnt
      exact Option.some_ne_none _ ((if_neg hnt).symm.trans (hnn k hk))

end

/-- **The range.** Words of 32 bits are drawn if the difference of the bounds fits, of 64 bits
otherwise; nothing wraps in the sum with `min`. -/
theorem phpMtRandRange_unbiased (generateSeed : BitVec 32) (g : MtState) (min max : BitVec 64)
    (h : min.toInt ≤ max.toInt) :
    if 0xFFFFFFFF#64 < max - min then
      UnbiasedRange (phpMtRand64 generateSeed) min max g (phpMtRandRange generateSeed · min max g)
    else
      UnbiasedRange (phpMtRand generateSeed) min max g
        (phpMtRandRange generateSeed · min max g) := by
  split_ifs with hb
  · have hr := @unbiasedRange 64 _ _ _ h (phpMtRand64 generateSeed) g (max - min).isLt
    simp only [BitVec.setWidth_eq] at hr
    simp only [phpMtRandRange, if_pos hb]
    exact hr
  · simp only [phpMtRandRange, if_neg hb]
    have hle : (max - min).toNat + 1 ≤ 4294967295 + 1 := succ_le_succ (not_lt.mp hb)
    exact unbiasedRange h hle

/-- A die. -/
theorem phpMtRandRange_unbiased_die :
    UnbiasedRange (phpMtRand 0) 1 6 ⟨fun _ => 0, 0, 0, .mt19937, true⟩
      (phpMtRandRange 0 · 1 6 ⟨fun _ => 0, 0, 0, .mt19937, true⟩) :=
  phpMtRandRange_unbiased 0 ⟨fun _ => 0, 0, 0, .mt19937, true⟩ 1 6 (by decide)

end PhpInternals.Ext.Standard

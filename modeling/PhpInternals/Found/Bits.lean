import Mathlib.Tactic

/-!
# Words of bits

Bits of a word under the arithmetic that searches for its lowest zero or one, and bit sets made of
words.
-/

namespace PhpInternals.Found

open Finset
open BitVec (allOnes carry carry_succ getLsbD_add getLsbD_allOnes getLsbD_one)

/-! ## One word -/

section word

variable {w i : ℕ} (x : BitVec w)

lemma carry_one (hi : i ≤ w) :
    carry i x 1#w false = decide (0 < i ∧ ∀ j < i, x.getLsbD j = true) := by
  induction i with
  | zero => simp
  | succ i ih =>
    rw [carry_succ, ih (by omega)]
    have hlt : (∀ j < i + 1, x.getLsbD j = true) ↔
        (∀ j < i, x.getLsbD j = true) ∧ x.getLsbD i = true := Nat.forall_lt_succ_right
    simp only [hlt]
    rcases Nat.eq_zero_or_pos i with rfl | hps
    · cases x.getLsbD 0 <;> simp [show 0 < w by omega]
    · cases x.getLsbD i <;> simp [hps, hps.ne']

lemma getLsbD_add_one (hi : i < w) :
    (x + 1#w).getLsbD i = (x.getLsbD i ^^ decide (∀ j < i, x.getLsbD j = true)) := by
  rw [getLsbD_add hi, carry_one x hi.le]
  rcases Nat.eq_zero_or_pos i with rfl | hps
  · simp [hi]
  · simp [hps, hps.ne']

lemma carry_allOnes (hi : i ≤ w) :
    carry i x (allOnes w) false = decide (∃ j < i, x.getLsbD j = true) := by
  induction i with
  | zero => simp
  | succ i ih =>
    rw [carry_succ, ih (by omega)]
    have hlt : (∃ j < i + 1, x.getLsbD j = true) ↔
        (∃ j < i, x.getLsbD j = true) ∨ x.getLsbD i = true := Nat.exists_lt_succ_right
    simp only [hlt]
    cases x.getLsbD i <;> simp [show i < w by omega]

lemma getLsbD_sub_one (hi : i < w) :
    (x - 1#w).getLsbD i = (x.getLsbD i ^^ decide (∀ j < i, x.getLsbD j = false)) := by
  rw [BitVec.sub_eq_add_neg, BitVec.neg_one_eq_allOnes, getLsbD_add hi,
    carry_allOnes x hi.le, getLsbD_allOnes]
  have hn : (∃ j < i, x.getLsbD j = true) ↔ ¬ ∀ j < i, x.getLsbD j = false := by
    push Not
    simp
  simp only [hn, decide_not, hi, decide_true]
  cases x.getLsbD i <;> simp

/-- **The trailing ones are cleared.** -/
theorem getLsbD_and_add_one (hi : i < w) :
    (x &&& (x + 1#w)).getLsbD i = (x.getLsbD i && decide (∃ j < i, x.getLsbD j = false)) := by
  rw [BitVec.getLsbD_and, getLsbD_add_one x hi]
  have hn : (∃ j < i, x.getLsbD j = false) ↔ ¬ ∀ j < i, x.getLsbD j = true := by
    push Not
    simp
  simp only [hn, decide_not]
  cases x.getLsbD i <;> simp

/-- **The trailing zeros are filled.** -/
theorem getLsbD_or_sub_one (hi : i < w) :
    (x ||| (x - 1#w)).getLsbD i = (x.getLsbD i || decide (∀ j < i, x.getLsbD j = false)) := by
  rw [BitVec.getLsbD_or, getLsbD_sub_one x hi]
  cases x.getLsbD i <;> simp

lemma getLsbD_allOnes_shiftLeft (b : ℕ) : (allOnes w <<< b).getLsbD i = decide (b ≤ i ∧ i < w) := by
  by_cases hi : i < w <;> by_cases hb : b ≤ i <;> simp [hi, hb]
  omega

lemma getLsbD_allOnes_ushiftRight {e : ℕ} (he : e < w) :
    (allOnes w >>> (w - 1 - e)).getLsbD i = decide (i ≤ e) := by
  by_cases hi : i ≤ e <;> simp <;> omega

lemma getLsbD_one_shiftLeft_sub_one {b : ℕ} (hb : b < w) (hi : i < w) :
    ((1#w <<< b) - 1#w).getLsbD i = decide (i < b) := by
  have hbt : ∀ j < w, (1#w <<< b).getLsbD j = decide (j = b) := by
    intro j hj
    rw [BitVec.getLsbD_shiftLeft, getLsbD_one]
    by_cases hjb : j < b
    · simp [hjb, hjb.ne]
    · simp only [hj, hjb, decide_true, decide_false, Bool.not_false, Bool.true_and,
        show 0 < w by omega, decide_eq_decide]
      omega
  rw [getLsbD_sub_one _ hi, hbt i hi]
  have hl : (∀ j < i, (1#w <<< b).getLsbD j = false) ↔ i ≤ b := by
    constructor
    · intro h
      by_contra hlt
      have := h b (by omega)
      rw [hbt b hb] at this
      simp at this
    · intro hle j hj
      rw [hbt j (by omega)]
      simp only [decide_eq_false_iff_not]
      omega
  simp only [hl]
  rcases lt_trichotomy i b with h | h | h
  · simp [h, h.ne, h.le]
  · simp [h]
  · simp [h.ne', not_lt_of_gt h, not_le_of_gt h]

end word

/-! ## Sets of bits -/

section set

variable {m m' : ℕ → BitVec 64} {p : ℕ}

/-- A bit of a set that is made of words. -/
def bitAt (m : ℕ → BitVec 64) (p : ℕ) : Bool :=
  (m (p / 64)).getLsbD (p % 64)

lemma bitAt_word {k i : ℕ} (hi : i < 64) : bitAt m (64 * k + i) = (m k).getLsbD i := by
  rw [bitAt, show (64 * k + i) / 64 = k by omega, show (64 * k + i) % 64 = i by omega]

lemma bitAt_update (m : ℕ → BitVec 64) (k : ℕ) (x : BitVec 64) (p : ℕ) :
    bitAt (Function.update m k x) p = if p / 64 = k then x.getLsbD (p % 64) else bitAt m p := by
  unfold bitAt
  by_cases h : p / 64 = k
  · rw [h, Function.update_self, if_pos rfl]
  · rw [Function.update_of_ne h, if_neg h]

/-- The bits below `n` that are not set. -/
def clearBits (m : ℕ → BitVec 64) (n : ℕ) : Finset ℕ :=
  (range n).filter fun p => bitAt m p = false

lemma mem_clearBits {n : ℕ} : p ∈ clearBits m n ↔ p < n ∧ bitAt m p = false := by
  rw [clearBits, mem_filter, mem_range]

/-- **A clear range gets set.** -/
theorem card_clearBits_add {a b n : ℕ} (hb : b ≤ n)
    (hse : ∀ p, bitAt m' p = if a ≤ p ∧ p < b then true else bitAt m p)
    (hc : ∀ p, a ≤ p → p < b → bitAt m p = false) :
    (clearBits m' n).card + (b - a) = (clearBits m n).card := by
  have hs : Finset.Ico a b ⊆ clearBits m n := by
    intro p hp
    obtain ⟨ha, hpb⟩ := mem_Ico.mp hp
    exact mem_clearBits.mpr ⟨by omega, hc p ha hpb⟩
  have heq : clearBits m' n = clearBits m n \ Finset.Ico a b := by
    ext p
    rw [mem_sdiff, mem_clearBits, mem_clearBits, hse]
    by_cases hp : a ≤ p ∧ p < b <;> simp [hp]
  rw [heq, card_sdiff_of_subset hs, Nat.card_Ico]
  have := card_le_card hs
  rw [Nat.card_Ico] at this
  omega

end set

end PhpInternals.Found

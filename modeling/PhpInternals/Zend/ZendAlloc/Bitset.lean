import PhpInternals.Found.Bits

/-!
# The bit sets of the allocator

The `zend_mm_bitset_*` functions of `Zend/zend_alloc.c`, on words of 64 bits.
-/

namespace PhpInternals.Zend.ZendAlloc

open Function Bool Nat Found
open BitVec (allOnes eq_of_getLsbD_eq getLsbD_and getLsbD_not getLsbD_zero)

/-- A `zend_mm_page_map`; a chunk has eight words. -/
abbrev Bitset : Type := ℕ → BitVec 64

/-- Number of trailing set bits. Source: `zend_mm_bitset_nts`. -/
def bitsetNts (bitset : BitVec 64) : ℕ :=
  (~~~bitset).ctz.toNat

/-- Number of trailing zeros. Source: `zend_long.h` `zend_ulong_ntz`. -/
def ulongNtz (num : BitVec 64) : ℕ :=
  num.ctz.toNat

/-- `zend_mm_bitset_is_set`. -/
def bitsetIsSet (bitset : Bitset) (bit : ℕ) : Bool :=
  bitset (bit / 64) &&& (1#64 <<< (bit % 64)) ≠ 0#64

/-- `zend_mm_bitset_set_bit`. -/
def bitsetSetBit (bitset : Bitset) (bit : ℕ) : Bitset :=
  update bitset (bit / 64) (bitset (bit / 64) ||| (1#64 <<< (bit % 64)))

/-- `zend_mm_bitset_reset_bit`. -/
def bitsetResetBit (bitset : Bitset) (bit : ℕ) : Bitset :=
  update bitset (bit / 64) (bitset (bit / 64) &&& ~~~(1#64 <<< (bit % 64)))

/-- `while (pos != end) bitset[pos++] = word`, with the number of rounds. Source:
`zend_mm_bitset_set_range`. -/
def fillWords (word : BitVec 64) : ℕ → ℕ → Bitset → Bitset
  | 0, _, bitset => bitset
  | rounds + 1, pos, bitset => fillWords word rounds (pos + 1) (update bitset pos word)

/-- A range of more than one bit. `change` applies a mask to a word, `first` is the mask of the bits
from `bit` on, `word` is what whole words become. Source: `zend_mm_bitset_set_range`,
`zend_mm_bitset_reset_range`. -/
def forRange (change : BitVec 64 → BitVec 64 → BitVec 64) (first : ℕ → BitVec 64) (word : BitVec 64)
    (bitset : Bitset) (start len : ℕ) : Bitset :=
  let pos := start / 64
  let last := (start + len - 1) / 64
  let bit := start % 64
  let stop := (start + len - 1) % 64
  if pos ≠ last then
    let bitset := update bitset pos (change (bitset pos) (first bit))
    let bitset := fillWords word (last - (pos + 1)) (pos + 1) bitset
    update bitset last (change (bitset last) (allOnes 64 >>> (63 - stop)))
  else
    update bitset pos (change (bitset pos)
      ((allOnes 64 <<< bit) &&& (allOnes 64 >>> (63 - stop))))

/-- `zend_mm_bitset_set_range`. -/
def bitsetSetRange (bitset : Bitset) (start len : ℕ) : Bitset :=
  if len = 1 then bitsetSetBit bitset start
  else forRange (fun word tmp => word ||| tmp) (fun bit => allOnes 64 <<< bit)
    (allOnes 64) bitset start len

/-- `zend_mm_bitset_reset_range`. -/
def bitsetResetRange (bitset : Bitset) (start len : ℕ) : Bitset :=
  if len = 1 then bitsetResetBit bitset start
  else forRange (fun word tmp => word &&& ~~~tmp) (fun bit => ~~~((1#64 <<< bit) - 1#64))
    0#64 bitset start len

/-- `while (pos != end) if (bitset[pos++] != 0) return 0`, with the number of rounds. Source:
`zend_mm_bitset_is_free_range`. -/
def wordsFree (bitset : Bitset) : ℕ → ℕ → Bool
  | 0, _ => true
  | rounds + 1, pos => bitset pos = 0#64 && wordsFree bitset rounds (pos + 1)

/-- `zend_mm_bitset_is_free_range`. -/
def bitsetIsFreeRange (bitset : Bitset) (start len : ℕ) : Bool :=
  if len = 1 then !bitsetIsSet bitset start
  else
    let pos := start / 64
    let last := (start + len - 1) / 64
    let bit := start % 64
    let stop := (start + len - 1) % 64
    if pos ≠ last then
      bitset pos &&& (allOnes 64 <<< bit) = 0#64 &&
        wordsFree bitset (last - (pos + 1)) (pos + 1) &&
        bitset last &&& (allOnes 64 >>> (63 - stop)) = 0#64
    else
      bitset pos &&& ((allOnes 64 <<< bit) &&& (allOnes 64 >>> (63 - stop))) = 0#64

/-! ## Trailing bits -/

section trailing

variable {x : BitVec 64}

lemma ulongNtz_lt (h : x ≠ 0#64) : ulongNtz x < 64 := by
  have hlt := BitVec.ctz_lt_iff_ne_zero.mpr h
  exact hlt

lemma getLsbD_ulongNtz (h : x ≠ 0#64) : x.getLsbD (ulongNtz x) = true :=
  BitVec.getLsbD_true_ctz_of_ne_zero h

lemma getLsbD_of_lt_ulongNtz {j : ℕ} (hj : j < ulongNtz x) : x.getLsbD j = false :=
  BitVec.getLsbD_false_of_lt_ctz hj

section

variable (h : x ≠ allOnes 64)
include h

lemma not_ne_zero : ~~~x ≠ 0#64 := by
  intro hz
  apply h
  rw [← BitVec.not_zero, ← hz, BitVec.not_not]

lemma bitsetNts_lt : bitsetNts x < 64 := ulongNtz_lt (not_ne_zero h)

lemma getLsbD_bitsetNts : x.getLsbD (bitsetNts x) = false := by
  have hb := getLsbD_ulongNtz (not_ne_zero h)
  rw [getLsbD_not] at hb
  simp only [and_eq_true, not_eq_true'] at hb
  exact hb.2

lemma getLsbD_of_lt_bitsetNts {j : ℕ} (hj : j < bitsetNts x) : x.getLsbD j = true := by
  have hb := getLsbD_of_lt_ulongNtz hj
  have := bitsetNts_lt h
  simpa [show j < 64 by omega] using hb

end

end trailing

/-! ## Ranges -/

section ranges

variable {bitset : Bitset} {start len p : ℕ}

lemma fillWords_apply (word : BitVec 64) : ∀ (rounds pos : ℕ) (bitset : Bitset) (k : ℕ),
    fillWords word rounds pos bitset k = if pos ≤ k ∧ k < pos + rounds then word else bitset k
  | 0, pos, bitset, k => by
    rw [fillWords, if_neg (by omega)]
  | rounds + 1, pos, bitset, k => by
    rw [fillWords, fillWords_apply word rounds]
    by_cases hk : k = pos
    · subst hk
      rw [if_neg (by omega), update_self, if_pos (by omega)]
    · rw [update_of_ne hk]
      exact if_congr (by omega) rfl rfl

/-- **A range of bits becomes `v`.** -/
theorem bitAt_forRange {change : BitVec 64 → BitVec 64 → BitVec 64} {first : ℕ → BitVec 64}
    {word : BitVec 64} {v : Bool}
    (hc : ∀ x y i, i < 64 → (change x y).getLsbD i = if y.getLsbD i = true then v else x.getLsbD i)
    (hf : ∀ b i, b < 64 → i < 64 → (first b).getLsbD i = decide (b ≤ i))
    (hw : ∀ i < 64, word.getLsbD i = v) (hln : 0 < len) :
    bitAt (forRange change first word bitset start len) p =
      if start ≤ p ∧ p < start + len then v else bitAt bitset p := by
  have hp : p % 64 < 64 := mod_lt _ (by norm_num)
  have hs : (start + len - 1) % 64 < 64 := mod_lt _ (by norm_num)
  have hbt : start % 64 < 64 := mod_lt _ (by norm_num)
  have hl : (allOnes 64 >>> (63 - (start + len - 1) % 64)).getLsbD (p % 64) =
      decide (p % 64 ≤ (start + len - 1) % 64) := getLsbD_allOnes_ushiftRight hs
  unfold forRange
  by_cases hps : start / 64 = (start + len - 1) / 64
  · -- one word
    simp only [hps, ne_eq, not_true_eq_false, if_false]
    rw [bitAt_update]
    by_cases hk : p / 64 = (start + len - 1) / 64
    · rw [if_pos hk, hc _ _ _ hp, getLsbD_and, hl, getLsbD_allOnes_shiftLeft, ← hk]
      simp only [and_eq_true, decide_eq_true_eq]
      exact if_congr (by omega) rfl rfl
    · rw [if_neg hk, if_neg (by omega)]
  -- the first word, whole words, the last one
  simp only [ne_eq, hps, not_false_eq_true, if_true]
  rw [bitAt_update]
  by_cases hk : p / 64 = (start + len - 1) / 64
  · have hkp : fillWords word ((start + len - 1) / 64 - (start / 64 + 1)) (start / 64 + 1)
        (update bitset (start / 64) (change (bitset (start / 64)) (first (start % 64))))
        ((start + len - 1) / 64) = bitset (p / 64) := by
      rw [fillWords_apply, if_neg (by omega), update_of_ne (Ne.symm hps), hk]
    rw [if_pos hk, hc _ _ _ hp, hl, hkp]
    simp only [decide_eq_true_eq]
    exact if_congr (by omega) rfl rfl
  rw [if_neg hk, bitAt, fillWords_apply]
  by_cases hm : start / 64 + 1 ≤ p / 64 ∧
      p / 64 < start / 64 + 1 + ((start + len - 1) / 64 - (start / 64 + 1))
  · rw [if_pos hm, hw _ hp, if_pos (by omega)]
  rw [if_neg hm]
  by_cases hk' : p / 64 = start / 64
  · rw [hk', update_self, hc _ _ _ hp, hf _ _ hbt hp, ← hk']
    simp only [decide_eq_true_eq]
    exact if_congr (by omega) rfl rfl
  · rw [update_of_ne hk', if_neg (by omega), bitAt]

lemma getLsbD_one_shiftLeft {b i : ℕ} (hi : i < 64) : (1#64 <<< b).getLsbD i = decide (i = b) := by
  rw [BitVec.getLsbD_shiftLeft, BitVec.getLsbD_one]
  by_cases hib : i < b
  · simp [hib, hib.ne]
  · simp only [hi, hib, decide_true, decide_false, Bool.not_false, Bool.true_and, zero_lt_succ,
      decide_eq_decide]
    omega

lemma mask_one {b : ℕ} (hb : b < 64) :
    (allOnes 64 <<< b) &&& (allOnes 64 >>> (63 - b)) = 1#64 <<< b := by
  apply eq_of_getLsbD_eq
  intro i hi
  rw [getLsbD_and, getLsbD_allOnes_shiftLeft, getLsbD_one_shiftLeft hi,
    show (allOnes 64 >>> (63 - b)).getLsbD i = decide (i ≤ b) from
      getLsbD_allOnes_ushiftRight hb]
  rw [← decide_and, decide_eq_decide]
  omega

lemma forRange_one (change : BitVec 64 → BitVec 64 → BitVec 64) (first : ℕ → BitVec 64)
    (word : BitVec 64) (bitset : Bitset) (bit : ℕ) :
    forRange change first word bitset bit 1 =
      update bitset (bit / 64) (change (bitset (bit / 64)) (1#64 <<< (bit % 64))) := by
  unfold forRange
  simp only [Nat.add_sub_cancel, ne_eq, not_true_eq_false, if_false]
  rw [mask_one (Nat.mod_lt _ (by norm_num))]

lemma bitAt_bitsetSetRange (hl : 0 < len) : bitAt (bitsetSetRange bitset start len) p =
    if start ≤ p ∧ p < start + len then true else bitAt bitset p := by
  have heq : bitsetSetRange bitset start len = forRange (fun word tmp => word ||| tmp)
      (fun bit => allOnes 64 <<< bit) (allOnes 64) bitset start len := by
    unfold bitsetSetRange
    split_ifs with ho
    · rw [ho, forRange_one, bitsetSetBit]
    · rfl
  rw [heq]
  refine bitAt_forRange (fun x y i _ => ?_) (fun b i _ hi => ?_) (fun i hi => ?_) hl
  · rw [BitVec.getLsbD_or]
    cases y.getLsbD i <;> simp
  · rw [getLsbD_allOnes_shiftLeft]
    simp [hi]
  · rw [BitVec.getLsbD_allOnes]
    simp [hi]

lemma bitAt_bitsetResetRange (hl : 0 < len) : bitAt (bitsetResetRange bitset start len) p =
    if start ≤ p ∧ p < start + len then false else bitAt bitset p := by
  have heq : bitsetResetRange bitset start len = forRange (fun word tmp => word &&& ~~~tmp)
      (fun bit => ~~~((1#64 <<< bit) - 1#64)) 0#64 bitset start len := by
    unfold bitsetResetRange
    split_ifs with ho
    · rw [ho, forRange_one, bitsetResetBit]
    · rfl
  rw [heq]
  refine bitAt_forRange (fun x y i hi => ?_) (fun b i hb hi => ?_) (fun i _ => getLsbD_zero) hl
  · rw [getLsbD_and, getLsbD_not]
    cases y.getLsbD i <;> simp [hi]
  · rw [getLsbD_not, getLsbD_one_shiftLeft_sub_one hb hi]
    simp only [hi, decide_true, Bool.true_and, ← decide_not, decide_eq_decide]
    omega

/-! ## Free ranges -/

lemma word_and_eq_zero_iff {x y : BitVec 64} :
    x &&& y = 0#64 ↔ ∀ i < 64, y.getLsbD i = true → x.getLsbD i = false := by
  constructor
  · intro h i _ hy
    have hb : (x &&& y).getLsbD i = false := by rw [h, getLsbD_zero]
    rw [getLsbD_and, hy, Bool.and_true] at hb
    exact hb
  intro h
  apply eq_of_getLsbD_eq
  intro i hi
  rw [getLsbD_and, getLsbD_zero]
  cases hy : y.getLsbD i with
  | false => rw [Bool.and_false]
  | true => rw [h i hi hy, Bool.false_and]

lemma wordsFree_iff (bitset : Bitset) : ∀ rounds pos : ℕ, wordsFree bitset rounds pos = true ↔
    ∀ k, pos ≤ k → k < pos + rounds → bitset k = 0#64
  | 0, pos => by
    simp only [wordsFree, true_iff]
    omega
  | rounds + 1, pos => by
    rw [wordsFree, and_eq_true, decide_eq_true_eq, wordsFree_iff bitset rounds]
    constructor
    · rintro ⟨hps, hr⟩ k hk hlt
      by_cases hkp : k = pos
      · rw [hkp, hps]
      · exact hr k (by omega) (by omega)
    · intro h
      exact ⟨h pos le_rfl (by omega), fun k hk hlt => h k (by omega) (by omega)⟩

lemma forall_range_iff {P : ℕ → Prop} (hln : 0 < len) : (∀ p, start ≤ p → p < start + len → P p) ↔
      ∀ k i, i < 64 → (start / 64 < k ∨ start / 64 = k ∧ start % 64 ≤ i) →
        (k < (start + len - 1) / 64 ∨ k = (start + len - 1) / 64 ∧ i ≤ (start + len - 1) % 64) →
        P (64 * k + i) := by
  constructor
  · intro h k i hi hl hhg
    exact h _ (by omega) (by omega)
  · intro h p hl hhg
    have := h (p / 64) (p % 64) (mod_lt _ (by norm_num)) (by omega) (by omega)
    rwa [div_add_mod] at this

lemma bitsetIsFreeRange_iff (hln : 0 < len) : bitsetIsFreeRange bitset start len = true ↔
    ∀ p, start ≤ p → p < start + len → bitAt bitset p = false := by
  have hs : (start + len - 1) % 64 < 64 := mod_lt _ (by norm_num)
  have hl : ∀ i, (allOnes 64 >>> (63 - (start + len - 1) % 64)).getLsbD i =
      decide (i ≤ (start + len - 1) % 64) := fun i => getLsbD_allOnes_ushiftRight hs
  rw [forall_range_iff hln]
  by_cases hps : start / 64 = (start + len - 1) / 64
  · -- one word
    have heq : bitsetIsFreeRange bitset start len = decide (bitset (start / 64) &&&
        ((allOnes 64 <<< (start % 64)) &&&
          (allOnes 64 >>> (63 - (start + len - 1) % 64))) = 0#64) := by
      unfold bitsetIsFreeRange
      split_ifs with ho
      · subst ho
        rw [Nat.add_sub_cancel, mask_one (Nat.mod_lt _ (by norm_num)), bitsetIsSet]
        simp
      · rw [if_neg (not_not.mpr hps)]
    rw [heq, decide_eq_true_eq, word_and_eq_zero_iff]
    constructor
    · intro h k i hi hlw hhg
      obtain rfl : k = start / 64 := by omega
      rw [bitAt_word hi]
      apply h i hi
      rw [getLsbD_and, hl, getLsbD_allOnes_shiftLeft]
      simp only [and_eq_true, decide_eq_true_eq]
      omega
    · intro h i hi hm
      rw [getLsbD_and, hl, getLsbD_allOnes_shiftLeft] at hm
      simp only [and_eq_true, decide_eq_true_eq] at hm
      rw [← bitAt_word hi]
      exact h _ i hi (by omega) (by omega)
  have hne : len ≠ 1 := by
    rintro rfl
    exact hps rfl
  unfold bitsetIsFreeRange
  rw [if_neg hne]
  simp only [ne_eq, hps, not_false_eq_true, if_true, and_eq_true, decide_eq_true_eq,
    wordsFree_iff, word_and_eq_zero_iff, hl, getLsbD_allOnes_shiftLeft]
  constructor
  · rintro ⟨⟨hf, hmd⟩, hen⟩ k i hi hlw hhg
    rw [bitAt_word hi]
    rcases lt_trichotomy k ((start + len - 1) / 64) with hk | rfl | hk
    · by_cases hk' : k = start / 64
      · subst hk'
        exact hf i hi (by omega)
      · rw [hmd k (by omega) (by omega), getLsbD_zero]
    · exact hen i hi (by omega)
    · omega
  intro h
  refine ⟨⟨fun i hi hm => ?_, fun k hk hlt => ?_⟩, fun i hi hm => ?_⟩
  · rw [← bitAt_word hi]
    exact h _ i hi (by omega) (by omega)
  · apply eq_of_getLsbD_eq
    intro i hi
    rw [getLsbD_zero, ← bitAt_word hi]
    exact h k i hi (by omega) (by omega)
  · rw [← bitAt_word hi]
    exact h _ i hi (by omega) (by omega)

end ranges

end PhpInternals.Zend.ZendAlloc

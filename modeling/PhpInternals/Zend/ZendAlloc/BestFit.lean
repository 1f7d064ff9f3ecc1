import PhpInternals.Zend.ZendAlloc.Chunk

/-!
# The best-fit search

What the search knows of the pages it has passed, round by round, and where it ends.
-/

namespace PhpInternals.Zend.ZendAlloc

open Scan BitVec Found

/-- `free_tail` is not accurate, but a free page that has an allocated one behind it lies before it,
and is not the last one before it. -/
def TailOk (freeMap : Bitset) (freeTail : ℕ) : Prop :=
  ∀ q e, q < e → e < zendMmPages → bitAt freeMap q = false → bitAt freeMap e = true →
    q + 1 < freeTail

/-- Free pages inside the chunk. -/
def FreeRun (freeMap : Bitset) (pageNum pagesCount : ℕ) : Prop :=
  pageNum + pagesCount ≤ zendMmPages ∧
    ∀ q, pageNum ≤ q → q < pageNum + pagesCount → bitAt freeMap q = false

/-- All pages from `pageNum` on are free. -/
def FreeFrom (freeMap : Bitset) (pageNum : ℕ) : Prop :=
  ∀ q, pageNum ≤ q → q < zendMmPages → bitAt freeMap q = false

/-- A run that suits, with an allocated page behind it. -/
structure Candidate (freeMap : Bitset) (pagesCount b : ℕ) : Prop where
  pos : 0 < b
  free : bitAt freeMap b = false
  run : FreeRun freeMap b pagesCount
  behind : ∃ e, b < e ∧ e < zendMmPages ∧ bitAt freeMap e = true

/-- The search has found `pageNum` and leaves `tail` in `chunk->free_tail`. -/
structure FoundOk (freeMap : Bitset) (pagesCount freeTail pageNum tail : ℕ) : Prop where
  pos : 0 < pageNum
  run : FreeRun freeMap pageNum pagesCount
  tail : tail = freeTail ∧ pageNum < freeTail ∨
    tail = pageNum + pagesCount ∧ FreeFrom freeMap pageNum ∨
    pageNum < tail ∧ FreeFrom freeMap tail

/-- The invariant of the search. In the first loop, the bits of `tmp` below some `d` stand for pages
that have been passed; in the second one they are cleared. -/
def ScanInv (freeMap : Bitset) (pagesCount freeTail : ℕ) (s : Scan) : Prop :=
  (0 < s.best → Candidate freeMap pagesCount s.best.toNat) ∧
  match s.phase with
  | .skipAllocated => s.freeTail = freeTail ∧ s.i % 64 = 0 ∧ s.i < zendMmPages ∧
      ∃ d, ∀ k < 64, s.tmp.getLsbD k = (bitAt freeMap (s.i + k) || decide (k < d))
  | .skipFree pageNum => s.freeTail = freeTail ∧ s.i % 64 = 0 ∧ s.i < zendMmPages ∧ 0 < pageNum ∧
      ∃ d ≤ 64, pageNum < s.i + d ∧
        (∀ k < 64, s.tmp.getLsbD k = (bitAt freeMap (s.i + k) && decide (d ≤ k))) ∧
        ∀ q, pageNum ≤ q → q < s.i + d → bitAt freeMap q = false
  | .found pageNum => FoundOk freeMap pagesCount freeTail pageNum s.freeTail
  | .notFound => s.freeTail = freeTail ∨ FreeFrom freeMap s.freeTail

/-- What the rounds descend in: the pages that are left, and the bits of the word. Source:
`zend_alloc.c` `zend_mm_alloc_pages`. -/
def Scan.left (s : Scan) : ℕ :=
  match s.phase with
  | .skipAllocated => 2 * (zendMmPages - s.i) + (64 - bitsetNts s.tmp)
  | .skipFree _ => 2 * (zendMmPages - s.i) + (64 - ulongNtz s.tmp)
  | .found _ => 0
  | .notFound => 0

variable {freeMap : Bitset} {pagesCount freeTail : ℕ} {s s' : Scan}

variable {k : ℕ}

/-! ## Words -/

lemma bitAt_of_aligned {i : ℕ} (hi : i % 64 = 0) (hk : k < 64) :
    (freeMap (i / zendMmBitsetLen)).getLsbD k = bitAt freeMap (i + k) := by
  have hw := bitAt_word (m := freeMap) (k := i / 64) hk
  rw [show 64 * (i / 64) + k = i + k by omega] at hw
  exact hw.symm

lemma ulongNtz_zero : ulongNtz 0#64 = 64 := by
  have hc : (0#64).ctz = 64#64 := by decide +kernel
  rw [ulongNtz, hc]
  rfl

variable {x : BitVec 64}

lemma lt_ulongNtz {z : ℕ} (hz : z < 64) (h : ∀ j ≤ z, x.getLsbD j = false) : z < ulongNtz x := by
  by_cases hx : x = 0#64
  · rwa [hx, ulongNtz_zero]
  · by_contra hle
    have hb := getLsbD_ulongNtz hx
    rw [h _ (by omega)] at hb
    cases hb

lemma lt_bitsetNts {z : ℕ} (hz : z < 64) (h : ∀ j ≤ z, x.getLsbD j = true) : z < bitsetNts x := by
  apply lt_ulongNtz hz
  intro j hj
  rw [getLsbD_not, h j hj]
  simp

lemma getLsbD_and_add_one_nts (hx : x ≠ allOnes 64) (hk : k < 64) :
    (x &&& (x + 1#64)).getLsbD k = (x.getLsbD k && decide (bitsetNts x < k)) := by
  rw [getLsbD_and_add_one x hk]
  have hi : (∃ j < k, x.getLsbD j = false) ↔ bitsetNts x < k := by
    constructor
    · rintro ⟨j, hj, hb⟩
      by_contra hle
      rw [getLsbD_of_lt_bitsetNts hx (by omega)] at hb
      cases hb
    · intro hlt
      exact ⟨_, hlt, getLsbD_bitsetNts hx⟩
  simp [hi]

lemma getLsbD_or_sub_one_ntz (hx : x ≠ 0#64) (hk : k < 64) :
    (x ||| (x - 1#64)).getLsbD k = (x.getLsbD k || decide (k ≤ ulongNtz x)) := by
  rw [getLsbD_or_sub_one x hk]
  have hi : (∀ j < k, x.getLsbD j = false) ↔ k ≤ ulongNtz x := by
    constructor
    · intro h
      by_contra hlt
      have hb := getLsbD_ulongNtz hx
      rw [h _ (by omega)] at hb
      cases hb
    · intro hle j hj
      exact getLsbD_of_lt_ulongNtz (by omega)
  simp [hi]

/-! ## Progress -/

lemma Scan.left_takeBest (s : Scan) : s.takeBest.left = 0 := by
  unfold takeBest left
  split_ifs <;> rfl

lemma Scan.left_pos (h : s.phase = .skipAllocated ∨ ∃ p, s.phase = .skipFree p)
    (hi : s.i < zendMmPages) : 0 < s.left := by
  rcases h with h | ⟨p, h⟩
  · simp only [left, h]
    omega
  · simp only [left, h]
    omega

lemma takeBest_inv (hbs : 0 < s.best → Candidate freeMap pagesCount s.best.toNat)
    (hta : TailOk freeMap freeTail) (h : s.freeTail = freeTail ∨ FreeFrom freeMap s.freeTail) :
    ScanInv freeMap pagesCount freeTail s.takeBest := by
  refine ⟨hbs, ?_⟩
  unfold takeBest
  by_cases hp : 0 < s.best
  · obtain ⟨hb, hf, hr, e, hbe, he, hse⟩ := hbs hp
    simp only [if_pos hp]
    refine ⟨hb, hr, ?_⟩
    rcases h with h | h
    · have := hta _ e hbe he hf hse
      exact .inl ⟨h, by omega⟩
    · refine .inr (.inr ⟨?_, h⟩)
      by_contra hle
      rw [h e (by omega) he] at hse
      cases hse
  · simp only [if_neg hp]
    exact h

/-! ## Rounds -/

/-- The next round keeps the invariant and comes closer to the end. -/
def Advances (freeMap : Bitset) (pagesCount freeTail : ℕ) (s : Scan) : Prop :=
  ∃ s', scanStep freeMap pagesCount freeTail s = some s' ∧
    ScanInv freeMap pagesCount freeTail s' ∧ s'.left < s.left

section rounds

variable (h : ScanInv freeMap pagesCount freeTail s)

include h

lemma skipAllocated_word (hta : TailOk freeMap freeTail) (hp : s.phase = .skipAllocated)
    (htm : s.tmp = allOnes 64) :
    Advances freeMap pagesCount freeTail s := by
  obtain ⟨hb, hiv⟩ := h
  rw [hp] at hiv
  obtain ⟨htE, ha, hi, d, hbt⟩ := hiv
  have hl := left_pos (.inl hp) hi
  simp only [Advances, scanStep, hp]
  split_ifs with hen
  · refine ⟨_, rfl, takeBest_inv hb hta (.inl htE), ?_⟩
    rw [left_takeBest]
    exact hl
  refine ⟨_, rfl, ⟨hb, ?_⟩, ?_⟩
  · simp only
    refine ⟨htE, by unfold zendMmBitsetLen; omega, ?_, 0, fun k hk => ?_⟩
    · unfold zendMmBitsetLen zendMmPages at *
      omega
    · rw [bitAt_of_aligned (by unfold zendMmBitsetLen; omega) hk]
      simp
  · simp only [left, hp]
    unfold zendMmBitsetLen zendMmPages at *
    omega

lemma skipAllocated_free (hzr : bitAt freeMap 0 = true) (hph : s.phase = .skipAllocated)
    (htm : s.tmp ≠ allOnes 64) :
    Advances freeMap pagesCount freeTail s := by
  obtain ⟨hbs, hiv⟩ := h
  rw [hph] at hiv
  obtain ⟨htE, ha, hi, d, hb⟩ := hiv
  have hn := bitsetNts_lt htm
  have hz := getLsbD_bitsetNts htm
  rw [hb _ hn] at hz
  obtain ⟨hf, hd⟩ := Bool.or_eq_false_iff.mp hz
  simp only [decide_eq_false_iff_not] at hd
  simp only [Advances, scanStep, hph, if_neg htm]
  refine ⟨_, rfl, ⟨hbs, ?_⟩, ?_⟩
  · simp only
    refine ⟨htE, ha, hi, ?_, bitsetNts s.tmp + 1, by omega, by omega, ?_, ?_⟩
    · apply Nat.pos_of_ne_zero
      intro hp
      rw [hp, hzr] at hf
      cases hf
    · intro k hk
      rw [getLsbD_and_add_one_nts htm hk, hb k hk]
      by_cases hlt : bitsetNts s.tmp < k
      · simp [hlt, show ¬ k < d by omega]
      · simp [hlt]
    · intro q hq hlt
      rw [show q = s.i + bitsetNts s.tmp by omega]
      exact hf
  · have hl : bitsetNts s.tmp < ulongNtz (s.tmp &&& (s.tmp + 1#64)) := by
      apply lt_ulongNtz hn
      intro j hj
      rw [getLsbD_and_add_one_nts htm (by omega)]
      simp [show ¬ bitsetNts s.tmp < j by omega]
    simp only [left, hph]
    omega

lemma skipFree_word (hta : TailOk freeMap freeTail) {pageNum : ℕ}
    (hp : s.phase = .skipFree pageNum) (htm : s.tmp = 0#64) :
    Advances freeMap pagesCount freeTail s := by
  obtain ⟨hb, hiv⟩ := h
  rw [hp] at hiv
  obtain ⟨htE, ha, hi, hps, d, hd, hlt, hbt, hf⟩ := hiv
  have hl := left_pos (.inr ⟨pageNum, hp⟩) hi
  have hw : ∀ q, pageNum ≤ q → q < s.i + 64 → bitAt freeMap q = false := by
    intro q hq hqi
    by_cases hqd : q < s.i + d
    · exact hf q hq hqd
    · have hbi := hbt (q - s.i) (by omega)
      rw [htm, getLsbD_zero, show s.i + (q - s.i) = q by omega] at hbi
      simpa [show d ≤ q - s.i by omega] using hbi.symm
  simp only [Advances, scanStep, hp, if_pos htm]
  by_cases hen : freeTail ≤ s.i + zendMmBitsetLen ∨ s.i + zendMmBitsetLen = zendMmPages
  · -- and, behind `free_tail`, to the end of the chunk
    have hal : FreeFrom freeMap pageNum := by
      intro q hq hqp
      by_cases hqi : q < s.i + 64
      · exact hw q hq hqi
      · by_contra hse
        have := hta (s.i + 63) q (by omega) hqp (hw _ (by omega) (by omega)) (by simpa using hse)
        unfold zendMmBitsetLen zendMmPages at *
        omega
    split_ifs with hln
    · refine ⟨_, rfl, ⟨hb, hps, ⟨?_, ?_⟩, .inr (.inl ⟨rfl, hal⟩)⟩, hl⟩
      · unfold zendMmPages at *
        omega
      · intro q hq hl'
        exact hal q hq (by omega)
    · refine ⟨_, rfl, takeBest_inv hb hta (.inr hal), ?_⟩
      rw [left_takeBest]
      exact hl
  · rw [if_neg hen]
    push Not at hen
    refine ⟨_, rfl, ⟨hb, ?_⟩, ?_⟩
    · simp only
      refine ⟨htE, by unfold zendMmBitsetLen; omega, ?_, hps, 0, by omega, ?_,
        fun k hk => ?_, fun q hq hqi => hw q hq ?_⟩
      · unfold zendMmBitsetLen zendMmPages at *
        omega
      · unfold zendMmBitsetLen
        omega
      · rw [bitAt_of_aligned (by unfold zendMmBitsetLen; omega) hk]
        simp
      · unfold zendMmBitsetLen at hqi
        omega
    · simp only [left, hp]
      unfold zendMmBitsetLen zendMmPages at *
      omega

lemma skipFree_run (hta : TailOk freeMap freeTail) {pageNum : ℕ}
    (hp : s.phase = .skipFree pageNum) (htm : s.tmp ≠ 0#64) :
    Advances freeMap pagesCount freeTail s := by
  obtain ⟨hbs, hiv⟩ := h
  rw [hp] at hiv
  obtain ⟨htE, ha, hi, hps, d, hd, hlt, hbi, hf⟩ := hiv
  have hl := left_pos (.inr ⟨pageNum, hp⟩) hi
  have hz := ulongNtz_lt htm
  have ho := getLsbD_ulongNtz htm
  rw [hbi _ hz] at ho
  obtain ⟨hse, hdz⟩ := Bool.and_eq_true_iff.mp ho
  simp only [decide_eq_true_eq] at hdz
  have hen : s.i + ulongNtz s.tmp < zendMmPages := by
    unfold zendMmPages at *
    omega
  have hrn : ∀ q, pageNum ≤ q → q < s.i + ulongNtz s.tmp → bitAt freeMap q = false := by
    intro q hq hqz
    by_cases hqd : q < s.i + d
    · exact hf q hq hqd
    · have hbit := hbi (q - s.i) (by omega)
      rw [getLsbD_of_lt_ulongNtz (by omega), show s.i + (q - s.i) = q by omega] at hbit
      simpa [show d ≤ q - s.i by omega] using hbit.symm
  have hcn : pagesCount ≤ s.i + ulongNtz s.tmp - pageNum → Candidate freeMap pagesCount pageNum :=
    fun hln => ⟨hps, hrn _ le_rfl (by omega), ⟨by omega, fun q hq hqp => hrn q hq (by omega)⟩,
      _, by omega, hen, hse⟩
  have hr : ∀ best : ℤ, ∀ bestLen, (0 < best → Candidate freeMap pagesCount best.toNat) →
      ScanInv freeMap pagesCount freeTail { s with
        phase := .skipAllocated, tmp := s.tmp ||| (s.tmp - 1#64), best := best,
        bestLen := bestLen } := by
    refine fun best bestLen hb => ⟨hb, htE, ha, hi, ulongNtz s.tmp + 1, fun k hk => ?_⟩
    rw [getLsbD_or_sub_one_ntz htm hk, hbi k hk]
    by_cases hkz : k ≤ ulongNtz s.tmp
    · simp [hkz]
    · simp [hkz, show d ≤ k by omega]
  have hdw : ∀ best : ℤ, ∀ bestLen, left { s with
      phase := .skipAllocated, tmp := s.tmp ||| (s.tmp - 1#64), best := best, bestLen := bestLen } <
      s.left := by
    intro best bestLen
    have hlw : ulongNtz s.tmp < bitsetNts (s.tmp ||| (s.tmp - 1#64)) := by
      apply lt_bitsetNts hz
      intro j hj
      rw [getLsbD_or_sub_one_ntz htm (by omega)]
      simp [hj]
    simp only [left, hp]
    omega
  simp only [Advances, scanStep, hp, if_neg htm]
  by_cases hln : pagesCount ≤ s.i + ulongNtz s.tmp - pageNum
  · rw [if_pos hln]
    have hc := hcn hln
    by_cases hec : s.i + ulongNtz s.tmp - pageNum = pagesCount
    · rw [if_pos hec]
      have := hta _ _ (by omega) hen hc.free hse
      exact ⟨_, rfl, ⟨hbs, hps, hc.run, .inl ⟨htE, by omega⟩⟩, hl⟩
    · rw [if_neg hec]
      split_ifs with hbt
      · exact ⟨_, rfl, hr _ _ fun _ => by simpa using hc, hdw _ _⟩
      · exact ⟨_, rfl, hr _ _ hbs, hdw _ _⟩
  · rw [if_neg hln]
    exact ⟨_, rfl, hr _ _ hbs, hdw _ _⟩

end rounds

/-- **Every round keeps the best run so far.** -/
lemma scanStep_spec (hz : bitAt freeMap 0 = true) (hta : TailOk freeMap freeTail)
    (h : ScanInv freeMap pagesCount freeTail s)
    (hsp : scanStep freeMap pagesCount freeTail s = some s') :
    ScanInv freeMap pagesCount freeTail s' ∧ s'.left < s.left := by
  obtain ⟨s'', hs'', hi⟩ : Advances freeMap pagesCount freeTail s := by
    cases hp : s.phase with
    | skipAllocated =>
      by_cases htm : s.tmp = allOnes 64
      · exact skipAllocated_word h hta hp htm
      · exact skipAllocated_free h hz hp htm
    | skipFree pageNum =>
      by_cases htm : s.tmp = 0#64
      · exact skipFree_word h hta hp htm
      · exact skipFree_run h hta hp htm
    | found pageNum | notFound => simp [scanStep, hp] at hsp
  rw [Option.some.inj (hsp.symm.trans hs'')]
  exact hi

/-- **The search ends**, at free pages of the chunk or at none. -/
theorem bestFit_spec {chunk : Chunk} (hz : bitAt chunk.freeMap 0 = true)
    (hta : TailOk chunk.freeMap chunk.freeTail) (pagesCount : ℕ) :
    ∃ n s, (∀ rounds ≥ n, bestFit rounds chunk pagesCount = some s) ∧
      ((∃ pageNum, s.phase = .found pageNum ∧
        FoundOk chunk.freeMap pagesCount chunk.freeTail pageNum s.freeTail) ∨
      s.phase = .notFound ∧ (s.freeTail = chunk.freeTail ∨ FreeFrom chunk.freeMap s.freeTail)) := by
  have hsr : ScanInv chunk.freeMap pagesCount chunk.freeTail (start chunk) := by
    refine ⟨fun hb => absurd hb (by simp [start]), rfl, rfl, Nat.zero_lt_succ _, 0, fun k hk => ?_⟩
    have hw : (chunk.freeMap (0 / zendMmBitsetLen)).getLsbD k = bitAt chunk.freeMap (0 + k) :=
      bitAt_of_aligned rfl hk
    simpa [start] using hw
  obtain ⟨n, s, hl, ⟨-, hi⟩, hen⟩ := loop_total (measure left).wf
    (fun _ _ hs hsp => scanStep_spec hz hta hs hsp) hsr
  refine ⟨n, s, hl, ?_⟩
  cases hp : s.phase with
  | skipAllocated | skipFree pageNum =>
    simp only [scanStep, hp] at hen
    split_ifs at hen
  | found pageNum =>
    rw [hp] at hi
    exact .inl ⟨pageNum, rfl, hi⟩
  | notFound =>
    rw [hp] at hi
    exact .inr ⟨rfl, hi⟩

end PhpInternals.Zend.ZendAlloc

import PhpInternals.Zend.ZendAlloc.BestFit

/-!
# Pages are handed out once
-/

namespace PhpInternals.Zend.ZendAlloc

open Function Finset Found

/-- A run that was handed out and not freed. -/
structure PageRun where
  pageNum : ℕ
  pagesCount : ℕ
  deriving DecidableEq

/-- The pages of a run. -/
def PageRun.Has (r : PageRun) (q : ℕ) : Prop :=
  r.pageNum ≤ q ∧ q < r.pageNum + r.pagesCount

/-- **The pages of a chunk with its live runs.** `free_tail` need not be behind the runs, only
behind their first pages. -/
structure PagesInv (chunk : Chunk) (runs : Set PageRun) : Prop where
  inside : ∀ r ∈ runs,
    0 < r.pageNum ∧ 0 < r.pagesCount ∧ r.pageNum + r.pagesCount ≤ zendMmPages
  disjoint : ∀ r ∈ runs, ∀ r' ∈ runs, ∀ q, r.Has q → r'.Has q → r = r'
  bits : ∀ q < zendMmPages, bitAt chunk.freeMap q = true ↔ q = 0 ∨ ∃ r ∈ runs, r.Has q
  tail_pos : 0 < chunk.freeTail
  tail : ∀ r ∈ runs, r.pageNum < chunk.freeTail
  freePages : chunk.freePages = (clearBits chunk.freeMap zendMmPages).card
  map : ∀ r ∈ runs, chunk.map r.pageNum = .lrun r.pagesCount

variable {chunk chunk' : Chunk} {runs : Set PageRun} {r : PageRun} {p n q : ℕ}

namespace PagesInv

section

variable (h : PagesInv chunk runs)
include h

lemma zero_set : bitAt chunk.freeMap 0 = true := (h.bits 0 (by decide)).mpr (.inl rfl)

lemma has_start (hr : r ∈ runs) : r.Has r.pageNum := ⟨le_rfl, by have := (h.inside r hr).2.1; omega⟩

lemma set_of_has (hr : r ∈ runs) (hq : r.Has q) :
    q < zendMmPages ∧ bitAt chunk.freeMap q = true := by
  have hlt : q < zendMmPages := hq.2.trans_le (h.inside r hr).2.2
  exact ⟨hlt, (h.bits q hlt).mpr (.inr ⟨r, hr, hq⟩)⟩

lemma not_has (hq : bitAt chunk.freeMap q = false) (hr : r ∈ runs) : ¬ r.Has q := by
  intro hhs
  rw [(h.set_of_has hr hhs).2] at hq
  cases hq

lemma tailOk : TailOk chunk.freeMap chunk.freeTail := by
  intro q e hqe he hf hse
  obtain hz | ⟨r, hr, hha⟩ := (h.bits e he).mp hse
  · omega
  have hs : q < r.pageNum := by
    by_contra hle
    exact h.not_has hf hr ⟨by omega, hqe.trans hha.2⟩
  have := h.tail r hr
  omega

lemma of_freeFrom {t t' : ℕ} (hf : FreeFrom chunk.freeMap t)
    (ht : t ≤ t') : PagesInv { chunk with freeTail := t' } runs := by
  refine { h with tail_pos := ?_, tail := fun r hr => ?_ }
  · apply Nat.pos_of_ne_zero
    rintro (rfl : t' = 0)
    have hz := h.zero_set
    rw [hf 0 (by omega) (by decide)] at hz
    cases hz
  · obtain ⟨hlt, hs⟩ := h.set_of_has hr (h.has_start hr)
    by_contra hle
    rw [hf _ (by simp only at hle; omega) hlt] at hs
    cases hs

end

end PagesInv

/-! ## Allocation -/

lemma markRun_inv (h : PagesInv chunk runs) (hp : 0 < p) (hn : 0 < n)
    (hrn : FreeRun chunk.freeMap p n) (hta : p ≤ chunk.freeTail) :
    PagesInv (markRun chunk p n) (insert ⟨p, n⟩ runs) := by
  have hnw : ∀ r ∈ runs, ∀ q, r.Has q → ¬ PageRun.Has ⟨p, n⟩ q := fun r hr q hq hq' =>
    h.not_has (hrn.2 q hq'.1 hq'.2) hr hq
  have hs : ∀ q, bitAt (markRun chunk p n).freeMap q =
      if p ≤ q ∧ q < p + n then true else bitAt chunk.freeMap q := fun q => bitAt_bitsetSetRange hn
  constructor
  case inside =>
    rintro r (rfl | hr)
    · exact ⟨hp, hn, hrn.1⟩
    · exact h.inside r hr
  case disjoint =>
    rintro r (rfl | hr) r' (rfl | hr') q hq hq'
    · rfl
    · exact absurd hq (hnw r' hr' q hq')
    · exact absurd hq' (hnw r hr q hq)
    · exact h.disjoint r hr r' hr' q hq hq'
  case bits =>
    intro q hq
    rw [hs]
    split_ifs with hin
    · exact ⟨fun _ => .inr ⟨⟨p, n⟩, .inl rfl, hin⟩, fun _ => rfl⟩
    · rw [h.bits q hq]
      refine or_congr_right ⟨fun ⟨r, hr, hhs⟩ => ⟨r, .inr hr, hhs⟩, ?_⟩
      rintro ⟨r, rfl | hr, hhs⟩
      · exact absurd hhs hin
      · exact ⟨r, hr, hhs⟩
  case tail_pos =>
    simp only [markRun]
    split_ifs <;> omega
  case tail =>
    rintro r (rfl | hr)
    · simp only [markRun]
      split_ifs <;> omega
    · have := h.tail r hr
      simp only [markRun]
      split_ifs <;> omega
  case freePages =>
    have hc := card_clearBits_add hrn.1 hs hrn.2
    have := h.freePages
    simp only [markRun] at hc ⊢
    omega
  case map =>
    rintro r (rfl | hr)
    · simp [markRun]
    · have hne : r.pageNum ≠ p := by
        intro heq
        exact hnw r hr _ (h.has_start hr) ⟨heq.ge, by simp only; omega⟩
      simp only [markRun, update_of_ne hne]
      exact h.map r hr

/-- **`zend_mm_alloc_pages` in a chunk** hands out free pages, or there are too few in a row. -/
lemma allocPages_inv (h : PagesInv chunk runs) (hn : 0 < n) :
    ∃ m chunk' page, (∀ rounds ≥ m, allocPages rounds chunk n = some (chunk', page)) ∧
      ((page = none ∧ PagesInv chunk' runs) ∨
        ∃ p, page = some p ∧ 0 < p ∧ FreeRun chunk.freeMap p n ∧
          PagesInv chunk' (insert ⟨p, n⟩ runs)) := by
  unfold allocPages
  split_ifs with hfw
  · exact ⟨0, chunk, none, fun _ _ => rfl, .inl ⟨rfl, h⟩⟩
  obtain ⟨m, s, hft, ⟨p, hp, hf⟩ | ⟨hp, hta⟩⟩ := bestFit_spec h.zero_set h.tailOk n
  · have hta : PagesInv { chunk with freeTail := s.freeTail } runs ∧ p ≤ s.freeTail := by
      rcases hf.tail with ⟨heq, hlt⟩ | ⟨heq, hfr⟩ | ⟨hlt, hfr⟩
      · rw [heq]
        exact ⟨h, hlt.le⟩
      · exact ⟨h.of_freeFrom hfr (by omega), by omega⟩
      · exact ⟨h.of_freeFrom hfr le_rfl, hlt.le⟩
    refine ⟨m, markRun { chunk with freeTail := s.freeTail } p n, some p, fun rounds hr => ?_,
      .inr ⟨p, rfl, hf.pos, hf.run, markRun_inv hta.1 hf.pos hn hf.run hta.2⟩⟩
    rw [hft rounds hr, Option.map_some, hp]
  · refine ⟨m, { chunk with freeTail := s.freeTail }, none, fun rounds hr => ?_, .inl ⟨rfl, ?_⟩⟩
    · rw [hft rounds hr, Option.map_some, hp]
    · rcases hta with heq | hfr
      · rw [heq]
        exact h
      · exact h.of_freeFrom hfr le_rfl

/-! ## Freeing -/

/-- The last pages of a run are taken from it; all of them, if it has no others. -/
lemma bits_reset (h : PagesInv chunk runs) (hr : r ∈ runs) {a : ℕ} (ha : r.pageNum ≤ a)
    (hlt : a < r.pageNum + r.pagesCount) {runs' : Set PageRun}
    (hrn : ∀ q, (∃ r' ∈ runs', r'.Has q) ↔
      (∃ r' ∈ runs, r'.Has q) ∧ ¬ (a ≤ q ∧ q < r.pageNum + r.pagesCount)) :
    (∀ q < zendMmPages,
      bitAt (bitsetResetRange chunk.freeMap a (r.pageNum + r.pagesCount - a)) q = true ↔
        q = 0 ∨ ∃ r' ∈ runs', r'.Has q) ∧
    chunk.freePages + (r.pageNum + r.pagesCount - a) =
      (clearBits (bitsetResetRange chunk.freeMap a (r.pageNum + r.pagesCount - a))
        zendMmPages).card := by
  obtain ⟨hps, -, hen⟩ := h.inside r hr
  have hrs : ∀ q, bitAt (bitsetResetRange chunk.freeMap a (r.pageNum + r.pagesCount - a)) q =
      if a ≤ q ∧ q < r.pageNum + r.pagesCount then false else bitAt chunk.freeMap q := by
    intro q
    rw [bitAt_bitsetResetRange (by omega), Nat.add_sub_cancel' hlt.le]
  refine ⟨fun q hq => ?_, ?_⟩
  · rw [hrs, hrn]
    split_ifs with hin
    · exact ⟨nofun, by rintro (rfl | ⟨-, hnt⟩) <;> omega⟩
    · rw [h.bits q hq]
      simp [hin, and_true]
  rw [h.freePages]
  refine card_clearBits_add hen (fun q => ?_) fun q hq hqb => ?_
  · rw [hrs]
    by_cases hin : a ≤ q ∧ q < r.pageNum + r.pagesCount
    · rw [if_pos hin]
      exact (h.set_of_has hr ⟨by omega, hin.2⟩).2
    · rw [if_neg hin, if_neg hin]
  · rw [hrs, if_pos ⟨hq, hqb⟩]

/-- **`zend_mm_free_pages`** gives a run back. -/
lemma freePagesEx_inv (h : PagesInv chunk runs) (hr : r ∈ runs) :
    PagesInv (freePagesEx chunk r.pageNum r.pagesCount) (runs \ {r}) := by
  obtain ⟨hps, hc, -⟩ := h.inside r hr
  have ho : ∀ r' ∈ runs \ {r}, ∀ q, r'.Has q → ¬ r.Has q := fun r' hr' q hq hq' =>
    hr'.2 (h.disjoint r' hr'.1 r hr q hq hq')
  have hrn : ∀ q, (∃ r' ∈ runs \ {r}, r'.Has q) ↔
      (∃ r' ∈ runs, r'.Has q) ∧ ¬ (r.pageNum ≤ q ∧ q < r.pageNum + r.pagesCount) := by
    intro q
    constructor
    · rintro ⟨r', hr', hq⟩
      exact ⟨⟨r', hr'.1, hq⟩, ho r' hr' q hq⟩
    · rintro ⟨⟨r', hr', hq⟩, hnt⟩
      refine ⟨r', ⟨hr', ?_⟩, hq⟩
      rintro rfl
      exact hnt hq
  obtain ⟨hb, hcr⟩ := bits_reset h hr le_rfl (by omega) hrn
  rw [Nat.add_sub_cancel_left] at hb hcr
  constructor
  case inside => exact fun r' hr' => h.inside r' hr'.1
  case disjoint => exact fun r1 h1 r2 h2 => h.disjoint r1 h1.1 r2 h2.1
  case bits => exact hb
  case tail_pos =>
    have := h.tail_pos
    simp only [freePagesEx]
    split_ifs <;> omega
  case tail =>
    intro r' hr'
    have hs := ho r' hr' _ (h.has_start hr'.1)
    have := h.tail r' hr'.1
    unfold PageRun.Has at hs
    simp only [freePagesEx]
    split_ifs <;> omega
  case freePages => exact hcr
  case map =>
    intro r' hr'
    have hne : r'.pageNum ≠ r.pageNum := by
      intro heq
      exact ho r' hr' _ (h.has_start hr'.1) (heq ▸ h.has_start hr)
    simp only [freePagesEx, update_of_ne hne]
    exact h.map r' hr'.1

/-! ## Growing and shrinking in place -/

section

variable (h : PagesInv chunk runs)
include h

lemma resize_inv (hr : r ∈ runs) (hn : 0 < n) (hen : r.pageNum + n ≤ zendMmPages)
    (hnw : ∀ q, PageRun.Has ⟨r.pageNum, n⟩ q → r.Has q ∨ bitAt chunk.freeMap q = false)
    (hm : chunk'.map = update chunk.map r.pageNum (.lrun n))
    (hta : chunk'.freeTail = chunk.freeTail)
    (hb : ∀ q < zendMmPages, bitAt chunk'.freeMap q = true ↔
      q = 0 ∨ ∃ r' ∈ insert ⟨r.pageNum, n⟩ (runs \ {r}), r'.Has q)
    (hf : chunk'.freePages = (clearBits chunk'.freeMap zendMmPages).card) :
    PagesInv chunk' (insert ⟨r.pageNum, n⟩ (runs \ {r})) := by
  have ho : ∀ r' ∈ runs \ {r}, ∀ q, r'.Has q → ¬ PageRun.Has ⟨r.pageNum, n⟩ q := by
    intro r' hr' q hq hq'
    rcases hnw q hq' with hol | hc
    · exact hr'.2 (h.disjoint r' hr'.1 r hr q hq hol)
    · exact h.not_has hc hr'.1 hq
  constructor
  case inside =>
    rintro r' (rfl | hr')
    · exact ⟨(h.inside r hr).1, hn, hen⟩
    · exact h.inside r' hr'.1
  case disjoint =>
    rintro r1 (rfl | h1) r2 (rfl | h2) q hq1 hq2
    · rfl
    · exact absurd hq1 (ho r2 h2 q hq2)
    · exact absurd hq2 (ho r1 h1 q hq1)
    · exact h.disjoint r1 h1.1 r2 h2.1 q hq1 hq2
  case bits => exact hb
  case tail_pos => exact hta ▸ h.tail_pos
  case tail =>
    rw [hta]
    rintro r' (rfl | hr')
    · exact h.tail r hr
    · exact h.tail r' hr'.1
  case freePages => exact hf
  case map =>
    rw [hm]
    rintro r' (rfl | hr')
    · rw [update_self]
    · have hne : r'.pageNum ≠ r.pageNum := by
        intro heq
        exact ho r' hr' _ (h.has_start hr'.1) ⟨heq.ge, by simp only; omega⟩
      rw [update_of_ne hne]
      exact h.map r' hr'.1

lemma shrink_inv (hr : r ∈ runs) (hn : 0 < n) (hlt : n < r.pagesCount) : PagesInv { chunk with
      map := update chunk.map r.pageNum (.lrun n)
      freePages := chunk.freePages + (r.pagesCount - n)
      freeMap := bitsetResetRange chunk.freeMap (r.pageNum + n) (r.pagesCount - n) }
      (insert ⟨r.pageNum, n⟩ (runs \ {r})) := by
  have hen := (h.inside r hr).2.2
  have hrn : ∀ q, (∃ r' ∈ insert ⟨r.pageNum, n⟩ (runs \ {r}), r'.Has q) ↔
      (∃ r' ∈ runs, r'.Has q) ∧ ¬ (r.pageNum + n ≤ q ∧ q < r.pageNum + r.pagesCount) := by
    intro q
    constructor
    · rintro ⟨r', rfl | hr', hq⟩
      · unfold PageRun.Has at hq
        simp only at hq
        exact ⟨⟨r, hr, hq.1, by omega⟩, by omega⟩
      · refine ⟨⟨r', hr'.1, hq⟩, fun hin => hr'.2 ?_⟩
        exact h.disjoint r' hr'.1 r hr q hq ⟨by omega, hin.2⟩
    · rintro ⟨⟨r', hr', hq⟩, hnt⟩
      by_cases heq : r' = r
      · subst heq
        exact ⟨_, .inl rfl, hq.1, by have := hq.2; simp only; omega⟩
      · exact ⟨r', .inr ⟨hr', heq⟩, hq⟩
  obtain ⟨hb, hc⟩ := bits_reset h hr (Nat.le_add_right _ n) (by omega) hrn
  rw [show r.pageNum + r.pagesCount - (r.pageNum + n) = r.pagesCount - n by omega] at hb hc
  refine resize_inv h hr hn (by omega) (fun q hq => .inl ⟨hq.1, ?_⟩) rfl rfl hb hc
  have := hq.2
  simp only at this
  omega

lemma grow_inv (hr : r ∈ runs) (hlt : r.pagesCount < n) (hen : r.pageNum + n ≤ zendMmPages)
    (hf : ∀ q, r.pageNum + r.pagesCount ≤ q → q < r.pageNum + n → bitAt chunk.freeMap q = false) :
    PagesInv { chunk with
      freePages := chunk.freePages - (n - r.pagesCount)
      freeMap := bitsetSetRange chunk.freeMap (r.pageNum + r.pagesCount) (n - r.pagesCount)
      map := update chunk.map r.pageNum (.lrun n) }
      (insert ⟨r.pageNum, n⟩ (runs \ {r})) := by
  have hs : ∀ q, bitAt (bitsetSetRange chunk.freeMap (r.pageNum + r.pagesCount)
      (n - r.pagesCount)) q = if r.pageNum + r.pagesCount ≤ q ∧ q < r.pageNum + n then true
        else bitAt chunk.freeMap q := by
    intro q
    rw [bitAt_bitsetSetRange (by omega),
      show r.pageNum + r.pagesCount + (n - r.pagesCount) = r.pageNum + n by omega]
  refine resize_inv h hr (by omega) hen (fun q hq => ?_) rfl rfl (fun q hq => ?_) ?_
  · by_cases ho : q < r.pageNum + r.pagesCount
    · exact .inl ⟨hq.1, ho⟩
    · exact .inr (hf q (by omega) hq.2)
  · rw [hs]
    split_ifs with hin
    · exact ⟨fun _ => .inr ⟨_, .inl rfl, by simp only; omega, hin.2⟩, fun _ => rfl⟩
    rw [h.bits q hq]
    refine or_congr_right ⟨?_, ?_⟩
    · rintro ⟨r', hr', hq'⟩
      by_cases heq : r' = r
      · subst heq
        exact ⟨_, .inl rfl, hq'.1, by have := hq'.2; simp only; omega⟩
      · exact ⟨r', .inr ⟨hr', heq⟩, hq'⟩
    · rintro ⟨r', rfl | hr', hq'⟩
      · unfold PageRun.Has at hq'
        simp only at hq'
        exact ⟨r, hr, hq'.1, by omega⟩
      · exact ⟨r', hr'.1, hq'⟩
  · have hc := card_clearBits_add hen hs hf
    have := h.freePages
    simp only
    omega

/-- **`zend_mm_realloc_heap`** of a large block, where it stays in place. -/
lemma reallocLarge_inv (hr : r ∈ runs) (hn : 0 < n)
    (hrl : reallocLarge chunk r.pageNum n = some chunk') :
    PagesInv chunk' (insert ⟨r.pageNum, n⟩ (runs \ {r})) := by
  unfold reallocLarge at hrl
  simp only [h.map r hr] at hrl
  by_cases heq : n = r.pagesCount
  · rw [if_pos heq] at hrl
    cases hrl
    rw [heq, Set.insert_sdiff_singleton, Set.insert_eq_of_mem hr]
    exact h
  rw [if_neg heq] at hrl
  by_cases hlt : n < r.pagesCount
  · rw [if_pos hlt] at hrl
    cases hrl
    exact shrink_inv h hr hn hlt
  rw [if_neg hlt] at hrl
  split_ifs at hrl with hft
  cases hrl
  obtain ⟨hen, hf⟩ := hft
  rw [bitsetIsFreeRange_iff (by omega)] at hf
  refine grow_inv h hr (by omega) hen fun q hq hqn => hf q hq ?_
  omega

end

/-! ## New chunks -/

lemma card_pages : ((range zendMmPages).erase 0).card = zendMmPages - zendMmFirstPage := by
  have hm : 0 ∈ range zendMmPages := mem_range.mpr (Nat.zero_lt_succ _)
  rw [card_erase_of_mem hm, card_range]
  rfl

lemma chunkInit_inv (hc : ∀ q, 0 < q → q < zendMmPages → bitAt chunk.freeMap q = false) :
    PagesInv (chunkInit chunk) ∅ := by
  have hb : ∀ q < zendMmPages, bitAt (chunkInit chunk).freeMap q = decide (q = 0) := by
    intro q hq
    simp only [chunkInit, bitAt_update]
    split_ifs with hw
    · rw [getLsbD_one_shiftLeft_sub_one (by decide) (Nat.mod_lt _ (by norm_num))]
      unfold zendMmFirstPage
      rw [decide_eq_decide]
      omega
    · have hps : 0 < q := by omega
      rw [hc q hps hq]
      simp [hps.ne']
  refine ⟨nofun, nofun, fun q hq => ?_, Nat.one_pos, nofun, ?_, nofun⟩
  · rw [hb q hq]
    simp
  have hs : clearBits (chunkInit chunk).freeMap zendMmPages = (range zendMmPages).erase 0 := by
    ext q
    rw [mem_clearBits, mem_erase, mem_range]
    constructor
    · rintro ⟨hq, hf⟩
      rw [hb q hq] at hf
      exact ⟨by simpa using hf, hq⟩
    · rintro ⟨hne, hq⟩
      exact ⟨hq, by rw [hb q hq]; simpa using hne⟩
  rw [hs, card_pages]
  rfl

lemma allocNewChunk_inv (hc : ∀ q, 0 < q → q < zendMmPages → bitAt chunk.freeMap q = false)
    (hn : 0 < n) (hm : n < zendMmPages) :
    PagesInv (allocNewChunk chunk n).1 {⟨zendMmFirstPage, n⟩} := by
  have h := chunkInit_inv hc
  have hf : FreeRun (chunkInit chunk).freeMap zendMmFirstPage n := by
    unfold zendMmFirstPage zendMmPages at *
    refine ⟨by unfold zendMmPages; omega, fun q hq hlt => ?_⟩
    by_contra hs
    have hs : bitAt (chunkInit chunk).freeMap q = true := by simpa using hs
    obtain hz | ⟨r, hr, -⟩ := (h.bits q (by unfold zendMmPages; omega)).mp hs
    · omega
    · cases hr
  have hi := markRun_inv h (by decide) hn hf le_rfl
  rwa [insert_empty_eq] at hi

/-- A chunk whose pages are all free has none set, so it can be used again. -/
lemma clear_of_freePages (h : PagesInv chunk runs)
    (hf : chunk.freePages = zendMmPages - zendMmFirstPage) :
    ∀ q, 0 < q → q < zendMmPages → bitAt chunk.freeMap q = false := by
  have hs : clearBits chunk.freeMap zendMmPages ⊆ (range zendMmPages).erase 0 := by
    intro q hq
    obtain ⟨hlt, hc⟩ := mem_clearBits.mp hq
    refine mem_erase.mpr ⟨?_, mem_range.mpr hlt⟩
    rintro rfl
    rw [h.zero_set] at hc
    cases hc
  have hcr : ((range zendMmPages).erase 0).card ≤
      (clearBits chunk.freeMap zendMmPages).card := by
    rw [← h.freePages, hf, card_pages]
  intro q hps hlt
  have hm : q ∈ clearBits chunk.freeMap zendMmPages := by
    rw [eq_of_subset_of_card_le hs hcr]
    exact mem_erase.mpr ⟨hps.ne', mem_range.mpr hlt⟩
  exact (mem_clearBits.mp hm).2

/-! ## Sequences of calls -/

/-- A chunk and its live runs after a sequence of calls. A chunk whose pages are all free may be
deleted and got again from the cache. Source: `zend_alloc.c` `zend_mm_alloc_pages`,
`zend_mm_free_pages_ex`, `zend_mm_realloc_heap`. -/
inductive Reaches : Chunk → Set PageRun → Prop where
  | init : Reaches (chunkInit zeroChunk) ∅
  | newChunk {n : ℕ} : 0 < n → n < zendMmPages →
      Reaches (allocNewChunk zeroChunk n).1 {⟨zendMmFirstPage, n⟩}
  | cachedChunk {chunk : Chunk} {runs : Set PageRun} {n : ℕ} : Reaches chunk runs →
      chunk.freePages = zendMmPages - zendMmFirstPage → 0 < n → n < zendMmPages →
      Reaches (allocNewChunk chunk n).1 {⟨zendMmFirstPage, n⟩}
  | alloc {chunk chunk' : Chunk} {runs : Set PageRun} {n p m : ℕ} : Reaches chunk runs →
      0 < n → n < zendMmPages →
      (∀ rounds ≥ m, allocPages rounds chunk n = some (chunk', some p)) →
      Reaches chunk' (insert ⟨p, n⟩ runs)
  | allocElsewhere {chunk chunk' : Chunk} {runs : Set PageRun} {n m : ℕ} : Reaches chunk runs →
      0 < n → n < zendMmPages →
      (∀ rounds ≥ m, allocPages rounds chunk n = some (chunk', none)) → Reaches chunk' runs
  | free {chunk : Chunk} {runs : Set PageRun} {r : PageRun} : Reaches chunk runs → r ∈ runs →
      Reaches (freePagesEx chunk r.pageNum r.pagesCount) (runs \ {r})
  | realloc {chunk chunk' : Chunk} {runs : Set PageRun} {r : PageRun} {n : ℕ} :
      Reaches chunk runs → r ∈ runs → 0 < n → n < zendMmPages →
      reallocLarge chunk r.pageNum n = some chunk' →
      Reaches chunk' (insert ⟨r.pageNum, n⟩ (runs \ {r}))

lemma allocPages_of_eq (h : PagesInv chunk runs) (hn : 0 < n) {m : ℕ} {page : Option ℕ}
    (ha : ∀ rounds ≥ m, allocPages rounds chunk n = some (chunk', page)) :
    (page = none ∧ PagesInv chunk' runs) ∨ ∃ p, page = some p ∧
    PagesInv chunk' (insert ⟨p, n⟩ runs) := by
  obtain ⟨m', chunk'', page', ha', hpg⟩ := allocPages_inv h hn
  have heq := (ha (max m m') (le_max_left m m')).symm.trans (ha' (max m m') (le_max_right m m'))
  obtain ⟨rfl, rfl⟩ := heq
  exact hpg.imp id fun ⟨p, hp, _, _, hi⟩ => ⟨p, hp, hi⟩

/-- **Every run keeps the invariant.** -/
lemma Reaches.inv (h : Reaches chunk runs) : PagesInv chunk runs := by
  have hz : ∀ q, 0 < q → q < zendMmPages → bitAt zeroChunk.freeMap q = false :=
    fun q _ _ => BitVec.getLsbD_zero
  induction h with
  | init => exact chunkInit_inv hz
  | newChunk hn hm => exact allocNewChunk_inv hz hn hm
  | cachedChunk _ hf hn hm ih => exact allocNewChunk_inv (clear_of_freePages ih hf) hn hm
  | alloc _ hn _ ha ih =>
    rcases allocPages_of_eq ih hn ha with ⟨hnn, -⟩ | ⟨p, hp, hi⟩
    · cases hnn
    · cases hp
      exact hi
  | allocElsewhere _ hn _ ha ih =>
    rcases allocPages_of_eq ih hn ha with ⟨-, hi⟩ | ⟨p, hp, -⟩
    · exact hi
    · cases hp
  | free _ hr ih => exact freePagesEx_inv ih hr
  | realloc _ hr hn _ hrl ih => exact reallocLarge_inv ih hr hn hrl

/-- **No page is handed out twice.** After every sequence of calls on a chunk, the next search ends;
a run it takes consists of pages behind the first one whose bits are clear and that belong to no
live run. The bits that are set are those of page 0 and of the live runs, and `free_pages` counts
the others. -/
theorem pages_handed_out_once (h : Reaches chunk runs) :
    (∀ n, 0 < n → n < zendMmPages → ∃ m chunk' page,
      (∀ rounds ≥ m, allocPages rounds chunk n = some (chunk', page)) ∧
      ∀ p, page = some p → ∀ q, p ≤ q → q < p + n →
        zendMmFirstPage ≤ q ∧ q < zendMmPages ∧ bitAt chunk.freeMap q = false ∧
        ∀ r ∈ runs, ¬ r.Has q) ∧
    (∀ q < zendMmPages, bitAt chunk.freeMap q = true ↔ q = 0 ∨ ∃ r ∈ runs, r.Has q) ∧
    chunk.freePages = (clearBits chunk.freeMap zendMmPages).card := by
  have hi := h.inv
  refine ⟨fun n hn _ => ?_, hi.bits, hi.freePages⟩
  obtain ⟨m, chunk', page, ha, hpg⟩ := allocPages_inv hi hn
  refine ⟨m, chunk', page, ha, fun p hp q hq hlt => ?_⟩
  rcases hpg with ⟨hnn, -⟩ | ⟨p', hp', hps, hrn, -⟩
  · rw [hnn] at hp
    cases hp
  · obtain rfl : p = p' := Option.some.inj (hp.symm.trans hp')
    have hf := hrn.2 q hq hlt
    exact ⟨by unfold zendMmFirstPage; omega, by have := hrn.1; omega, hf,
      fun r hr => hi.not_has hf hr⟩

/-- Three pages of a new chunk. -/
theorem pages_handed_out_once_three :
    Reaches (allocNewChunk zeroChunk 3).1 {⟨1, 3⟩} ∧
      (clearBits (allocNewChunk zeroChunk 3).1.freeMap zendMmPages).card = 508 := by
  have hr : Reaches (allocNewChunk zeroChunk 3).1 {⟨1, 3⟩} := .newChunk (by decide) (by decide)
  exact ⟨hr, (pages_handed_out_once hr).2.2.symm⟩

end PhpInternals.Zend.ZendAlloc

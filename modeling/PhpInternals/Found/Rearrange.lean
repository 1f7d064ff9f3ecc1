import Mathlib.Data.List.FinRange
import Mathlib.Logic.Equiv.Basic
import Mathlib.Order.Interval.Set.Basic
import Mathlib.Tactic

/-!
# Arrays whose cells are exchanged

An array is a function of the position. What a program does that only exchanges cells, and when a
range of cells is in order.
-/

namespace PhpInternals.Found

open Equiv List

variable {α : Type}

/-! ## Exchanges -/

/-- Two cells exchanged. -/
def swapAt (a : ℤ → α) (i j : ℤ) : ℤ → α := fun k => a (swap i j k)

section swapAt

variable {a : ℤ → α} {i j k : ℤ}

@[simp] lemma swapAt_left : swapAt a i j i = a j := by
  rw [swapAt, swap_apply_left]

@[simp] lemma swapAt_right : swapAt a i j j = a i := by
  rw [swapAt, swap_apply_right]

lemma swapAt_of_ne (hi : k ≠ i) (hj : k ≠ j) : swapAt a i j k = a k := by
  rw [swapAt, swap_apply_of_ne_of_ne hi hj]

end swapAt

/-- `b` is `a` with the cells in `S` rearranged. -/
def PermOn (S : Set ℤ) (a b : ℤ → α) : Prop :=
  ∃ π : Equiv.Perm ℤ, (∀ k, k ∉ S → π k = k) ∧ ∀ k, b k = a (π k)

namespace PermOn

variable {S S' : Set ℤ} {a b c : ℤ → α}

lemma refl (S : Set ℤ) (a : ℤ → α) : PermOn S a a := ⟨Equiv.refl ℤ, fun _ _ => rfl, fun _ => rfl⟩

lemma trans (h : PermOn S a b) (h' : PermOn S b c) : PermOn S a c := by
  obtain ⟨π, hπ, hb⟩ := h
  obtain ⟨ρ, hρ, hc⟩ := h'
  refine ⟨ρ.trans π, fun k hk => ?_, fun k => ?_⟩
  · rw [trans_apply, hρ k hk, hπ k hk]
  · rw [hc, hb, trans_apply]

lemma mono (h : PermOn S a b) (hS : S ⊆ S') : PermOn S' a b := by
  obtain ⟨π, hπ, hb⟩ := h
  exact ⟨π, fun k hk => hπ k fun hk' => hk (hS hk'), hb⟩

lemma swapAt (a : ℤ → α) {i j : ℤ} (hi : i ∈ S) (hj : j ∈ S) : PermOn S a (swapAt a i j) := by
  refine ⟨swap i j, fun k hk => ?_, fun _ => rfl⟩
  exact swap_apply_of_ne_of_ne (fun h => hk (h ▸ hi)) fun h => hk (h ▸ hj)

lemma apply_of_notMem (h : PermOn S a b) {k : ℤ} (hk : k ∉ S) : b k = a k := by
  obtain ⟨π, hπ, hb⟩ := h
  rw [hb, hπ k hk]

lemma exists_mem (h : PermOn S a b) {k : ℤ} (hk : k ∈ S) : ∃ k' ∈ S, b k = a k' := by
  obtain ⟨π, hπ, hb⟩ := h
  refine ⟨π k, ?_, hb k⟩
  by_contra hnt
  have hf : π (π k) = π k := hπ _ hnt
  exact hnt ((π.injective hf).symm ▸ hk)

/-- What holds of all cells of a range holds of them after a rearrangement in the range. -/
lemma forall_of_forall {P : α → Prop} (h : PermOn S a b) (hP : ∀ k ∈ S, P (a k)) :
    ∀ k ∈ S, P (b k) := by
  intro k hk
  obtain ⟨k', hk', heq⟩ := h.exists_mem hk
  rw [heq]
  exact hP k' hk'

lemma perm_map_range {n : ℕ} (h : PermOn (Set.Ico 0 (n : ℤ)) a b) :
    ((range n).map fun k : ℕ => b k).Perm ((range n).map fun k : ℕ => a k) := by
  obtain ⟨π, hπ, hb⟩ := h
  have hmm : ∀ k, π k ∈ Set.Ico 0 (n : ℤ) ↔ k ∈ Set.Ico 0 (n : ℤ) := by
    intro k
    constructor
    · intro hk
      by_contra hnt
      exact hnt ((hπ k hnt) ▸ hk)
    · intro hk
      by_contra hnt
      have hf : π (π k) = π k := hπ _ hnt
      exact hnt ((π.injective hf).symm ▸ hk)
  have hpr : ((range n).map fun k : ℕ => (π k).toNat).Perm (range n) := by
    refine (perm_ext_iff_of_nodup ?_ nodup_range).mpr fun m => ?_
    · refine List.Nodup.map_on (fun x hx y hy heq => ?_) nodup_range
      have hx' := (hmm (x : ℤ)).mpr ⟨by omega, by have := mem_range.mp hx; omega⟩
      have hy' := (hmm (y : ℤ)).mpr ⟨by omega, by have := mem_range.mp hy; omega⟩
      have hπeq : π (x : ℤ) = π (y : ℤ) := by
        have h1 := hx'.1
        have h2 := hy'.1
        omega
      exact Int.ofNat_inj.mp (π.injective hπeq)
    rw [mem_map, mem_range]
    constructor
    · rintro ⟨k, hk, rfl⟩
      have := (hmm (k : ℤ)).mpr ⟨by omega, by have := mem_range.mp hk; omega⟩
      have h1 := this.1
      have h2 := this.2
      omega
    intro hm
    have hpre := (hmm (π.symm (m : ℤ))).mp (by rw [apply_symm_apply]; exact ⟨by omega, by omega⟩)
    refine ⟨(π.symm (m : ℤ)).toNat, mem_range.mpr ?_, ?_⟩
    · have h1 := hpre.1
      have h2 := hpre.2
      omega
    · rw [Int.toNat_of_nonneg hpre.1, apply_symm_apply, Int.toNat_natCast]
  have hmp := hpr.map fun k : ℕ => a k
  rw [map_map] at hmp
  refine (List.Perm.of_eq (map_congr_left fun k hk => ?_)).trans hmp
  have hk' := (hmm (k : ℤ)).mpr ⟨by omega, by have := mem_range.mp hk; omega⟩
  rw [Function.comp_apply, Int.toNat_of_nonneg hk'.1, hb]

/-- A rearrangement of the first `n` cells is a sequence of exchanges among them: one exchange puts
the last cell in place. -/
lemma exists_swaps {n : ℕ} {a b : ℤ → α} (h : PermOn (Set.Ico 0 (n : ℤ)) a b) :
    ∃ l : List (ℕ × ℕ), (∀ pq ∈ l, pq.1 < n ∧ pq.2 < n) ∧
      b = l.foldl (fun a pq => Found.swapAt a pq.1 pq.2) a := by
  induction n generalizing a with
  | zero => exact ⟨[], by simp, funext fun k => h.apply_of_notMem (by simp)⟩
  | succ n ih =>
    obtain ⟨π, hπ, hb⟩ := h
    have hm : π n ∈ Set.Ico 0 ((n + 1 : ℕ) : ℤ) := by
      by_contra hnt
      have hfx : π (π n) = π n := hπ _ hnt
      exact hnt ((π.injective hfx).symm ▸ ⟨by omega, by omega⟩)
    obtain ⟨j, hj⟩ := Int.eq_ofNat_of_zero_le hm.1
    have hjn : j < n + 1 := by
      have := hm.2
      omega
    have hr : PermOn (Set.Ico 0 (n : ℤ)) (Found.swapAt a j n) b := by
      refine ⟨π.trans (swap (j : ℤ) n), fun k hk => ?_, fun k => ?_⟩
      · rw [trans_apply]
        rcases eq_or_ne k n with rfl | hne
        · rw [hj, swap_apply_left]
        · have hk' : k ∉ Set.Ico 0 ((n + 1 : ℕ) : ℤ) := fun hk' =>
            hk ⟨hk'.1, by have := hk'.2; omega⟩
          rw [hπ k hk']
          refine swap_apply_of_ne_of_ne (fun hkj => hk' ⟨?_, ?_⟩) hne <;> omega
      · rw [hb, Found.swapAt, trans_apply, swap_apply_self]
    obtain ⟨l, hl, hf⟩ := ih hr
    refine ⟨(j, n) :: l, fun pq hpq => ?_, hf⟩
    rcases mem_cons.mp hpq with rfl | hpq
    · exact ⟨hjn, Nat.lt_succ_self n⟩
    · have := hl pq hpq
      exact ⟨by omega, by omega⟩

end PermOn

/-! ## Order -/

/-- A comparison that is total and transitive. -/
structure TotalPreorder (le : α → α → Prop) : Prop where
  total : ∀ x y, le x y ∨ le y x
  trans : ∀ x y z, le x y → le y z → le x z

namespace TotalPreorder

variable {le : α → α → Prop} (h : TotalPreorder le)
include h

lemma refl (x : α) : le x x := by
  rcases h.total x x with hx | hx <;> exact hx

lemma of_not {x y : α} (hxy : ¬ le x y) : le y x := (h.total x y).resolve_left hxy

end TotalPreorder

/-- The cells from `lo` on and below `hi` are in order. -/
def SortedOn (le : α → α → Prop) (lo hi : ℤ) (a : ℤ → α) : Prop :=
  ∀ i j, lo ≤ i → i < j → j < hi → le (a i) (a j)

namespace SortedOn

variable {le : α → α → Prop} {lo hi : ℤ} {a b : ℤ → α}

lemma of_le (hle : hi ≤ lo + 1) : SortedOn le lo hi a := by
  intro i j hi' hij hj
  omega

lemma congr (h : SortedOn le lo hi a) (heq : ∀ k, lo ≤ k → k < hi → b k = a k) :
    SortedOn le lo hi b := by
  intro i j hi' hij hj
  rw [heq i hi' (by omega), heq j (by omega) hj]
  exact h i j hi' hij hj

end SortedOn

/-- The cells below `p` and those above it lie on their side of the cell at `p`. -/
structure SplitAt (le : α → α → Prop) (lo p hi : ℤ) (a : ℤ → α) : Prop where
  below : ∀ k, lo ≤ k → k < p → le (a k) (a p)
  above : ∀ k, p < k → k < hi → le (a p) (a k)

namespace SplitAt

variable {le : α → α → Prop} {lo p hi : ℤ} {a b : ℤ → α}

lemma permOn_below (h : SplitAt le lo p hi a) (hpr : PermOn (Set.Ico lo p) a b) :
    SplitAt le lo p hi b := by
  have hkp : ∀ k, p ≤ k → b k = a k := fun k hk =>
    hpr.apply_of_notMem fun hm => by have := hm.2; omega
  refine ⟨fun k h1 h2 => ?_, fun k h1 h2 => ?_⟩
  · rw [hkp p le_rfl]
    exact hpr.forall_of_forall (P := fun v => le v (a p))
      (fun l hl => h.below l hl.1 hl.2) k ⟨h1, h2⟩
  · rw [hkp p le_rfl, hkp k h1.le]
    exact h.above k h1 h2

lemma permOn_above (h : SplitAt le lo p hi a) (hpr : PermOn (Set.Ico (p + 1) hi) a b) :
    SplitAt le lo p hi b := by
  have hkp : ∀ k, k ≤ p → b k = a k := fun k hk =>
    hpr.apply_of_notMem fun hm => by have := hm.1; omega
  refine ⟨fun k h1 h2 => ?_, fun k h1 h2 => ?_⟩
  · rw [hkp p le_rfl, hkp k h2.le]
    exact h.below k h1 h2
  · rw [hkp p le_rfl]
    exact hpr.forall_of_forall
      (fun l hl => h.above l (by have := hl.1; omega) hl.2) k ⟨by omega, h2⟩

lemma extend {lo' : ℤ} (h : SplitAt le lo' p hi a) (hlo : ∀ k, lo ≤ k → k < lo' → le (a k) (a p)) :
    SplitAt le lo p hi a := by
  refine ⟨fun k h1 h2 => ?_, h.above⟩
  rcases lt_or_ge k lo' with hk | hk
  · exact hlo k h1 hk
  · exact h.below k hk h2

/-- **Two ranges in order, and a cell between them.** -/
theorem sortedOn (h : SplitAt le lo p hi a) (hpr : TotalPreorder le) (hl : SortedOn le lo p a)
    (hr : SortedOn le (p + 1) hi a) : SortedOn le lo hi a := by
  intro i j hi' hij hj
  rcases lt_trichotomy j p with hjp | rfl | hjp
  · exact hl i j hi' hij hjp
  · exact h.below i hi' hij
  · rcases lt_trichotomy i p with hip | rfl | hip
    · exact hpr.trans _ _ _ (h.below i hi' hip) (h.above j hjp hj)
    · exact h.above j hjp hj
    · exact hr i j (by omega) hij hj

end SplitAt

/-! ## Segments still to be sorted -/

/-- The position lies in the segment, both ends of which belong to it. -/
def InSegment (s : ℤ × ℤ) (k : ℤ) : Prop := s.1 ≤ k ∧ k ≤ s.2

/-- The cells from `0` on and below `n` are in order, but for pairs that lie in one of the segments.
-/
structure SortedOutside (le : α → α → Prop) (n : ℤ) (segs : List (ℤ × ℤ)) (a : ℤ → α) : Prop where
  disjoint : segs.Pairwise fun s t => ∀ k, InSegment s k → ¬ InSegment t k
  order : ∀ k l, 0 ≤ k → k < l → l < n →
    le (a k) (a l) ∨ ∃ s ∈ segs, InSegment s k ∧ InSegment s l

namespace SortedOutside

variable {le : α → α → Prop} {n : ℤ} {s : ℤ × ℤ} {segs segs' : List (ℤ × ℤ)} {a b : ℤ → α}

lemma perm (h : SortedOutside le n segs a) (hpr : segs.Perm segs') :
    SortedOutside le n segs' a := by
  refine ⟨(hpr.pairwise_iff fun hst k ht hs => hst k hs ht).mp h.disjoint, fun k l h0 h1 h2 => ?_⟩
  exact (h.order k l h0 h1 h2).imp_right fun ⟨s, hs, hkl⟩ => ⟨s, hpr.mem_iff.mp hs, hkl⟩

section

variable (h : SortedOutside le n (s :: segs) a)
include h

lemma drop (hs : s.2 ≤ s.1) : SortedOutside le n segs a := by
  refine ⟨h.disjoint.of_cons, fun k l h0 h1 h2 => (h.order k l h0 h1 h2).imp_right ?_⟩
  rintro ⟨t, ht, hk, hl⟩
  rcases mem_cons.mp ht with rfl | ht
  · have := hk.1
    have := hl.2
    omega
  · exact ⟨t, ht, hk, hl⟩

/-- A rearrangement of the first segment. The other cells stay on their side of it, since they are
in order with every cell of the segment. -/
lemma permOn (hs : 0 ≤ s.1 ∧ s.2 < n)
    (hpr : PermOn (Set.Ico s.1 (s.2 + 1)) a b) : SortedOutside le n (s :: segs) b := by
  have hm : ∀ k, k ∈ Set.Ico s.1 (s.2 + 1) ↔ InSegment s k := fun k =>
    and_congr_right fun _ => Int.lt_add_one_iff
  have hsp : ∀ {k l}, 0 ≤ k → k < l → l < n → ¬ (InSegment s k ↔ InSegment s l) →
    le (a k) (a l) := by
    intro k l h0 h1 h2 hne
    refine (h.order k l h0 h1 h2).resolve_right ?_
    rintro ⟨t, ht, hk, hl⟩
    rcases mem_cons.mp ht with rfl | ht
    · exact hne ⟨fun _ => hl, fun _ => hk⟩
    · have hds := rel_of_pairwise_cons h.disjoint ht
      exact hne ⟨fun hks => absurd hk (hds k hks), fun hls => absurd hl (hds l hls)⟩
  refine ⟨h.disjoint, fun k l h0 h1 h2 => ?_⟩
  by_cases hk : InSegment s k <;> by_cases hl : InSegment s l
  · exact .inr ⟨s, mem_cons_self, hk, hl⟩
  · obtain ⟨k', hk', heq⟩ := hpr.exists_mem ((hm k).mpr hk)
    rw [hm] at hk'
    rw [heq, hpr.apply_of_notMem fun hnt => hl ((hm l).mp hnt)]
    simp only [InSegment] at hk hl hk'
    exact .inl (hsp (by omega) (by omega) h2 fun hif => by simp only [InSegment] at hif; omega)
  · obtain ⟨l', hl', heq⟩ := hpr.exists_mem ((hm l).mpr hl)
    rw [hm] at hl'
    rw [heq, hpr.apply_of_notMem fun hnt => hk ((hm k).mp hnt)]
    simp only [InSegment] at hk hl hl'
    exact .inl (hsp h0 (by omega) (by omega) fun hif => by simp only [InSegment] at hif; omega)
  · rw [hpr.apply_of_notMem fun hnt => hk ((hm k).mp hnt),
      hpr.apply_of_notMem fun hnt => hl ((hm l).mp hnt)]
    exact h.order k l h0 h1 h2

/-- **The first segment is split.** -/
theorem split {p : ℤ} (hpr : TotalPreorder le)
    (hs : SplitAt le s.1 p (s.2 + 1) a) (hp : InSegment s p) :
    SortedOutside le n ((s.1, p - 1) :: (p + 1, s.2) :: segs) a := by
  obtain ⟨hp1, hp2⟩ := hp
  have hds := pairwise_cons.mp h.disjoint
  refine ⟨pairwise_cons.mpr ⟨fun t ht k hk => ?_, pairwise_cons.mpr ⟨fun t ht k hk => ?_, hds.2⟩⟩,
    fun k l h0 h1 h2 => ?_⟩
  · simp only [InSegment] at hk
    rcases mem_cons.mp ht with rfl | ht
    · simp only [InSegment]
      omega
    · exact hds.1 t ht k ⟨hk.1, by omega⟩
  · simp only [InSegment] at hk
    exact hds.1 t ht k ⟨by omega, hk.2⟩
  rcases h.order k l h0 h1 h2 with hle | ⟨t, ht, hk, hl⟩
  · exact .inl hle
  rcases mem_cons.mp ht with rfl | ht
  · have hks := hk.1
    have hlt := hl.2
    rcases lt_or_ge l p with hlp | hlp
    · exact .inr ⟨_, mem_cons_self, ⟨hks, by simp only; omega⟩,
        ⟨by simp only; omega, by simp only; omega⟩⟩
    rcases lt_or_ge p k with hpk | hpk
    · exact .inr ⟨_, mem_cons_of_mem _ mem_cons_self, ⟨by simp only; omega, by simp only; omega⟩,
        ⟨by simp only; omega, hlt⟩⟩
    have hkp : le (a k) (a p) := by
      rcases eq_or_lt_of_le hpk with rfl | hlt'
      · exact hpr.refl _
      · exact hs.below k hks hlt'
    have hpl : le (a p) (a l) := by
      rcases eq_or_lt_of_le hlp with rfl | hlt'
      · exact hpr.refl _
      · exact hs.above l hlt' (by omega)
    exact .inl (hpr.trans _ _ _ hkp hpl)
  · exact .inr ⟨t, mem_cons_of_mem _ (mem_cons_of_mem _ ht), hk, hl⟩

end

end SortedOutside

/-! ## Moving a cell -/

/-- The cell at `i` moved down to `j`; the cells in between move up by one. -/
def moveTo (a : ℤ → α) (i j : ℤ) : ℤ → α := fun k =>
  if k = j then a i else if j < k ∧ k ≤ i then a (k - 1) else a k

lemma moveTo_self (a : ℤ → α) (i : ℤ) : moveTo a i i = a := by
  funext k
  unfold moveTo
  split_ifs with h1 h2
  · rw [h1]
  · omega
  · rfl

lemma swapAt_moveTo (a : ℤ → α) {i j : ℤ} (hj : j ≤ i) :
    swapAt (moveTo a i j) j (j - 1) = moveTo a i (j - 1) := by
  funext k
  by_cases hk : k = j
  · subst hk
    rw [swapAt_left]
    unfold moveTo
    rw [if_neg (by omega), if_neg (by omega), if_neg (by omega), if_pos (by omega)]
  by_cases hk' : k = j - 1
  · subst hk'
    rw [swapAt_right]
    unfold moveTo
    rw [if_pos rfl, if_pos rfl]
  rw [swapAt_of_ne hk hk']
  unfold moveTo
  rw [if_neg hk, if_neg hk']
  exact if_congr (by omega) rfl rfl

/-- **Insertion.** The cell at `i` goes to a place `j` of the cells in order before it. -/
theorem SortedOn.moveTo {le : α → α → Prop} {lo i j : ℤ} {a : ℤ → α} (h : SortedOn le lo i a)
    (hlo : lo ≤ j) (hj : j ≤ i) (hb : ∀ k, lo ≤ k → k < j → le (a k) (a i))
    (ha : ∀ k, j ≤ k → k < i → le (a i) (a k)) : SortedOn le lo (i + 1) (Found.moveTo a i j) := by
  intro k l hk hkl hl
  unfold Found.moveTo
  by_cases hlj : l = j
  · rw [if_neg (by omega), if_neg (by omega), if_pos hlj]
    exact hb k hk (by omega)
  rw [if_neg hlj]
  by_cases hkj : k = j
  · rw [if_pos hkj, if_pos (by omega)]
    exact ha _ (by omega) (by omega)
  rw [if_neg hkj]
  by_cases hl' : j < l ∧ l ≤ i
  · split_ifs with hk'
    · exact h _ _ (by omega) (by omega) (by omega)
    · exact h _ _ hk (by omega) (by omega)
  · rw [if_neg hl', if_neg (by omega)]
    exact h _ _ hk hkl (by omega)

end PhpInternals.Found

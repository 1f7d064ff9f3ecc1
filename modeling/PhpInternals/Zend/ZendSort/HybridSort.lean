import PhpInternals.Zend.ZendSort.Partition

/-!
# `zend_sort`
-/

namespace PhpInternals.Zend.ZendSort

open Nat PhpInternals.Found
open List (range)

variable {α : Type} {c : SortCall α} {le : α → α → Prop} {m : Mem α} {steps : ℕ}

/-! ## The pivot -/

variable {nmemb : ℕ} {start : ℤ}

lemma choosePivot_spec (hsr : 0 ≤ start) (hsp : start + nmemb ≤ c.nmemb) (hn : 16 < nmemb) :
    Ends (choosePivot c start nmemb) m fun _ m' =>
      PermOn (Set.Ico start (start + nmemb)) m.arr m'.arr ∧ (Ordered c le →
        le (m'.arr start) (m'.arr (start + (nmemb >>> 1 : ℕ))) ∧
          le (m'.arr (start + (nmemb >>> 1 : ℕ))) (m'.arr (start + nmemb - 1))) := by
  have hhl : nmemb >>> 1 = nmemb / 2 := shiftRight_eq_div_pow nmemb 1
  have hq : (nmemb / 2) >>> 1 = nmemb / 2 / 2 := shiftRight_eq_div_pow (nmemb / 2) 1
  have hin : ∀ ps : List ℤ, (∀ p ∈ ps, start ≤ p ∧ p < start + nmemb) →
      (∀ p ∈ ps, c.InRange p) ∧ {p | p ∈ ps} ⊆ Set.Ico start (start + nmemb) := fun _ h =>
    ⟨fun p hp => ⟨by have := h p hp; omega, by have := h p hp; omega⟩, h⟩
  unfold choosePivot
  simp only [hhl]
  refine .ite (fun hb => ?_) fun _ => ?_
  · have hb' : 1024 ≤ nmemb := by
      by_contra hlt
      exact hb (by rw [shiftRight_eq_div_pow]; omega)
    obtain ⟨hr, hsb⟩ := hin [start + nmemb - 1, start + (nmemb / 2 : ℕ) + (nmemb / 2 / 2 : ℕ),
      start + (nmemb / 2 : ℕ), start + (nmemb / 2 / 2 : ℕ), start] (by simp; omega)
    have h5 : Ends _ m fun _ m' => SortsAt c le m _ m' := zendSort5_spec (by simp; omega) hr
    refine h5.mono fun _ m' hs => ⟨hs.1.mono hsb, fun ho => ?_⟩
    have h := hs.2 ho
    simp only [Descending, List.pairwise_cons] at h
    exact ⟨h.2.2.1 _ (by simp), h.1 _ (by simp)⟩
  · obtain ⟨hr, hsb⟩ := hin [start + nmemb - 1, start + (nmemb / 2 : ℕ), start] (by simp; omega)
    have h3 : Ends _ m fun _ m' => SortsAt c le m _ m' := zendSort3_spec (by simp; omega) hr
    refine h3.mono fun _ m' hs => ⟨hs.1.mono hsb, fun ho => ?_⟩
    have h := hs.2 ho
    simp only [Descending, List.pairwise_cons] at h
    exact ⟨h.2.1 _ (by simp), h.1 _ (by simp)⟩

/-! ## The partition -/

section partition

variable {lo hi i j : ℤ} (hlo : 0 ≤ lo) (hhi : hi ≤ c.nmemb)

include hlo hhi

/-- `i` goes up to an element that is not smaller than the pivot, or meets `j`. -/
lemma scanUp_spec (le : α → α → Prop) (hi2 : lo + 2 ≤ i) (hij : i < j) (hj : j < hi)
    (hs : hi - lo < steps) :
    Ends (scanUp c steps (lo + 1) i j) m fun r m' => m'.arr = m.arr ∧ i ≤ r.1 ∧
      (Ordered c le → ∀ k, i ≤ k → k < r.1 → le (m.arr k) (m.arr (lo + 1))) ∧
      (r.2 = true → r.1 = j) ∧
      (r.2 = false → r.1 < j ∧ (Ordered c le → le (m.arr (lo + 1)) (m.arr r.1))) := by
  refine Ends.iterate (I := fun k m' => m'.arr = m.arr ∧ i ≤ k ∧ k < j ∧
    (Ordered c le → ∀ l, i ≤ l → l < k → le (m.arr l) (m.arr (lo + 1))))
    (μ := fun k _ => (j - k).toNat) ?_ ⟨rfl, le_rfl, hij, fun _ l h1 h2 => by omega⟩ (by omega)
  rintro k m₁ ⟨h1, hik, hkj, hps⟩
  refine ends_cmp le ⟨by omega, by omega⟩ ⟨by omega, by omega⟩
    (fun m₂ h2 hgt => ?_) fun m₂ h2 hle => ?_
  · rw [h1] at h2 hgt
    have hps' : Ordered c le → ∀ l, i ≤ l → l < k + 1 → le (m.arr l) (m.arr (lo + 1)) := by
      intro ho l hil hlk
      rcases eq_or_lt_of_le (show l ≤ k by omega) with rfl | hlt
      · exact ho.pre.of_not (hgt ho)
      · exact hps ho l hil hlt
    refine .ite (fun heq => ?_) fun hne => ?_
    · exact .pure ⟨h2, by omega, hps', fun _ => heq, nofun⟩
    · exact .pure ⟨⟨h2, by omega, by omega, hps'⟩, by omega⟩
  · rw [h1] at h2 hle
    exact .pure ⟨h2, hik, hps, nofun, fun _ => ⟨hkj, hle⟩⟩

/-- `j` goes down to an element that is not greater than the pivot, or meets `i`. -/
lemma scanDown_spec (le : α → α → Prop) (hi2 : lo + 2 ≤ i) (hij : i < j) (hj : j < hi)
    (hs : hi - lo < steps) :
    Ends (scanDown c steps (lo + 1) i j) m fun r m' => m'.arr = m.arr ∧ r.1 ≤ j ∧
      (Ordered c le → ∀ k, r.1 < k → k ≤ j → le (m.arr (lo + 1)) (m.arr k)) ∧
      (r.2 = true → r.1 = i) ∧
      (r.2 = false → i < r.1 ∧ (Ordered c le → le (m.arr r.1) (m.arr (lo + 1)))) := by
  refine Ends.iterate (I := fun k m' => m'.arr = m.arr ∧ k ≤ j ∧ i < k ∧
    (Ordered c le → ∀ l, k < l → l ≤ j → le (m.arr (lo + 1)) (m.arr l)))
    (μ := fun k _ => (k - i).toNat) ?_ ⟨rfl, le_rfl, hij, fun _ l h1 h2 => by omega⟩ (by omega)
  rintro k m₁ ⟨h1, hkj, hik, hps⟩
  refine ends_cmp le ⟨by omega, by omega⟩ ⟨by omega, by omega⟩
    (fun m₂ h2 hgt => ?_) fun m₂ h2 hle => ?_
  · rw [h1] at h2 hgt
    have hps' : Ordered c le → ∀ l, k - 1 < l → l ≤ j → le (m.arr (lo + 1)) (m.arr l) := by
      intro ho l hkl hlj
      rcases eq_or_lt_of_le (show k ≤ l by omega) with rfl | hlt
      · exact ho.pre.of_not (hgt ho)
      · exact hps ho l hlt hlj
    refine .ite (fun heq => ?_) fun hne => ?_
    · exact .pure ⟨h2, by omega, hps', fun _ => heq, nofun⟩
    · exact .pure ⟨⟨h2, by omega, by omega, hps'⟩, by omega⟩
  · rw [h1] at h2 hle
    exact .pure ⟨h2, hkj, hps, nofun, fun _ => ⟨hik, hle⟩⟩

lemma partitionLoop_spec (hlt : lo + 3 < hi) (hs : hi - lo < steps)
    (hl : Ordered c le → le (m.arr (lo + 1)) (m.arr (hi - 1))) :
    Ends (partitionLoop c steps (lo + 1) (lo + 2) (hi - 1)) m fun i m' =>
      lo + 2 ≤ i ∧ i < hi ∧ Partitioned c le (lo + 1) hi m i i m' := by
  refine Ends.iterate (I := fun ij m' => lo + 2 ≤ ij.1 ∧ ij.1 < ij.2 ∧ ij.2 < hi ∧
    Partitioned c le (lo + 1) hi m ij.1 ij.2 m') (μ := fun ij _ => (ij.2 - ij.1).toNat) ?_
    ⟨le_rfl, by omega, by omega, .refl _ _, fun _ k h1 h2 => by omega, fun ho k h1 h2 => ?_⟩
      (by omega)
  rotate_left
  · have hk : k = hi - 1 := by omega
    exact hk ▸ hl ho
  rintro ⟨i, j⟩ m₁ ⟨hi2, hij, hj, hpr⟩
  simp only at hi2 hij hj hpr
  have hsc := scanUp_spec (m := m₁) hlo hhi le hi2 hij hj hs
  refine hsc.bind fun ⟨i', done⟩ m₂ ⟨h2, hir, hup, hdn, hsp⟩ => ?_
  simp only at hir hup hdn hsp
  refine .ite (fun hd => ?_) fun hd => ?_
  · have hi' := hdn hd
    exact .pure ⟨by omega, by omega, hpr.extend h2 hup fun _ k h1 h3 => by omega⟩
  obtain ⟨hij', hge⟩ := hsp (by simpa using hd)
  refine .ite (fun heq => ?_) fun hne => ?_
  · refine .pure ⟨by omega, by omega, hpr.extend h2 hup fun ho k h1 h3 => ?_⟩
    have hk : k = i' := by omega
    exact hk ▸ hge ho
  have hsc' := scanDown_spec (m := m₂) hlo hhi le (by omega)
    (show i' < j - 1 by omega) (by omega) hs
  refine hsc'.bind fun ⟨j', done'⟩ m3 ⟨h3, hjr, hdw, hdn', hs'⟩ => ?_
  simp only [h2] at hjr hdw hdn' hs'
  rw [h2] at h3
  refine .ite (fun hd' => ?_) fun hd' => ?_
  · have hj' := hdn' hd'
    refine .pure ⟨by omega, by omega, hpr.extend h3 hup fun ho k h1 h4 => ?_⟩
    rcases eq_or_lt_of_le h1 with rfl | hk
    · exact hge ho
    · exact hdw ho k (by omega) (by omega)
  obtain ⟨hij'', hl'⟩ := hs' (by simpa using hd')
  have hpr' : Partitioned c le (lo + 1) hi m i' (j' + 1) m3 :=
    hpr.extend h3 hup fun ho k h1 h4 => hdw ho k (by omega) (by omega)
  rw [← h3] at hge hl'
  refine ends_swp ⟨by omega, by omega⟩ ⟨by omega, by omega⟩ fun m4 h4 => ?_
  have hp'' := hpr'.exchange h4 (by omega) hij'' (by omega) hge hl'
  refine .ite (fun heq => ?_) fun hn' => ?_
  · exact .pure ⟨by omega, by omega, heq ▸ hp''⟩
  · exact .pure ⟨⟨by omega, by omega, by omega, hp''⟩, by simp; omega⟩

end partition

/-! ## The recursion -/

section parts

variable {lo p hi : ℤ} {m₁ m₂ m3 : Mem α} (hp : lo ≤ p) (hp' : p < hi)
  (hsplit : Ordered c le → SplitAt le lo p hi m₁.arr)
include hp hp' hsplit

lemma sortsRange_of_lower (hl : SortsRange c le m₁ lo p m₂)
    (hu : SortsRange c le m₂ (p + 1) hi m3) :
    SortsRange c le m₁ lo hi m3 := by
  refine ⟨?_, fun ho => ?_⟩
  · exact (hl.1.mono (Set.Ico_subset_Ico_right hp'.le)).trans
      (hu.1.mono (Set.Ico_subset_Ico_left (by omega)))
  · refine (((hsplit ho).permOn_below hl.1).permOn_above hu.1).sortedOn ho.pre ?_ (hu.2 ho)
    exact (hl.2 ho).congr fun k _ h2 => hu.1.apply_of_notMem fun hmm => by have := hmm.1; omega

lemma sortsRange_of_upper (hu : SortsRange c le m₁ (p + 1) hi m₂)
    (hl : SortsRange c le m₂ lo p m3) :
    SortsRange c le m₁ lo hi m3 := by
  refine ⟨?_, fun ho => ?_⟩
  · exact (hu.1.mono (Set.Ico_subset_Ico_left (by omega))).trans
      (hl.1.mono (Set.Ico_subset_Ico_right hp'.le))
  · refine (((hsplit ho).permOn_above hu.1).permOn_below hl.1).sortedOn ho.pre (hl.2 ho) ?_
    exact (hu.2 ho).congr fun k h1 _ => hl.1.apply_of_notMem fun hmm => by have := hmm.2; omega

end parts

lemma SortsRange.of_permOn {lo hi : ℤ} {m0 m₁ m₂ : Mem α} (h : SortsRange c le m₁ lo hi m₂)
    (hpr : PermOn (Set.Ico lo hi) m0.arr m₁.arr) : SortsRange c le m0 lo hi m₂ :=
  ⟨hpr.trans h.1, h.2⟩

/-- **`zend_sort`**, by induction on the bound. -/
theorem zendSort_spec (hs : 0 ≤ start) (hsto : start + nmemb ≤ c.nmemb) (hsp : nmemb < steps) :
    Ends (zendSort c steps start nmemb) m fun _ m' =>
    SortsRange c le m start (start + nmemb) m' := by
  induction steps generalizing start nmemb m with
  | zero => exact absurd hsp (not_lt_zero _)
  | succ steps ih =>
    refine .ite (fun _ => zendInsertSort_spec hs hsto hsp) fun hn => ?_
    have hc : Ends (choosePivot c start nmemb) m fun _ m' => _ ∧ (Ordered c le → _) :=
      choosePivot_spec hs hsto (by omega)
    refine hc.bind fun _ m₁ ⟨hpm, hpv⟩ => ?_
    refine ends_swp ⟨by omega, by omega⟩ ⟨by omega, by omega⟩ fun m₂ h2 => ?_
    -- the ends of the range are on their side of the pivot, which is at `start + 1` now
    have hen : Ordered c le → le (m₂.arr start) (m₂.arr (start + 1)) ∧
        le (m₂.arr (start + 1)) (m₂.arr (start + nmemb - 1)) := by
      intro ho
      obtain ⟨hf, hls⟩ := hpv ho
      rw [h2, swapAt_left, swapAt_of_ne (by omega) (by omega), swapAt_of_ne (by omega) (by omega)]
      exact ⟨hf, hls⟩
    have hpt : Ends (partitionLoop c (steps + 1) (start + 1) (start + 1 + 1) (start + nmemb - 1)) m₂
        fun i m' => start + 2 ≤ i ∧ i < start + nmemb ∧
          Partitioned c le (start + 1) (start + nmemb) m₂ i i m' := by
      rw [show start + 1 + 1 = start + 2 by ring]
      exact partitionLoop_spec hs hsto (by omega) (by omega) fun ho => (hen ho).2
    refine hpt.bind fun i m3 ⟨hi2, hi, hpt⟩ => ?_
    refine ends_swp ⟨by omega, by omega⟩ ⟨by omega, by omega⟩ fun m4 h4 => ?_
    have hsplit : Ordered c le → SplitAt le start (i - 1) (start + nmemb) m4.arr := fun ho => by
      refine (hpt.splitAt (by omega) h4 ho).extend fun k h1 h2 => ?_
      have hk : k = start := by omega
      have hkp : ∀ k, k < start + 1 + 1 → m3.arr k = m₂.arr k := fun k hk =>
        hpt.perm.apply_of_notMem fun hmm => by have := hmm.1; omega
      rw [h4, swapAt_right, swapAt_of_ne (by omega) (by omega), hkp k (by omega),
        hkp (start + 1) (by omega), hk]
      exact (hen ho).1
    have hpr : PermOn (Set.Ico start (start + nmemb)) m.arr m4.arr := by
      refine (hpm.trans ?_).trans ((hpt.perm.mono (Set.Ico_subset_Ico_left (by omega))).trans ?_)
      · rw [h2]
        exact .swapAt _ ⟨by omega, by omega⟩ ⟨by omega, by omega⟩
      · rw [h4]
        exact .swapAt _ ⟨by omega, by omega⟩ ⟨by omega, by omega⟩
    have hl : ∀ m5 : Mem α, Ends (zendSort c steps start (i - start - 1).toNat) m5
        fun _ m' => SortsRange c le m5 start (i - 1) m' := fun m5 => by
      have h : Ends (zendSort c steps start (i - start - 1).toNat) m5 fun _ m' =>
          SortsRange c le m5 start (start + ((i - start - 1).toNat : ℤ)) m' :=
        ih hs (by omega) (by omega)
      rwa [show start + ((i - start - 1).toNat : ℤ) = i - 1 by omega] at h
    have hu : ∀ m5 : Mem α, Ends (zendSort c steps i (start + nmemb - i).toNat) m5
        fun _ m' => SortsRange c le m5 (i - 1 + 1) (start + nmemb) m' := fun m5 => by
      have h : Ends (zendSort c steps i (start + nmemb - i).toNat) m5 fun _ m' =>
          SortsRange c le m5 i (i + ((start + nmemb - i).toNat : ℤ)) m' :=
        ih (by omega) (by omega) (by omega)
      rw [sub_add_cancel]
      rwa [show i + ((start + nmemb - i).toNat : ℤ) = start + nmemb by omega] at h
    refine .ite (fun _ => ?_) fun _ => ?_
    · refine (hl m4).bind fun _ m5 h5 => (hu m5).mono fun _ m6 h6 => ?_
      exact (sortsRange_of_lower (by omega) (by omega) hsplit h5 h6).of_permOn hpr
    · refine (hu m4).bind fun _ m5 h5 => (hl m5).mono fun _ m6 h6 => ?_
      exact (sortsRange_of_upper (by omega) (by omega) hsplit h5 h6).of_permOn hpr

/-! ## The results -/

lemma ordered_of_totalPreorder {compare : α → α → ℤ}
    (hcm : TotalPreorder fun x y => compare x y ≤ 0) :
    Ordered ⟨nmemb, fun _ => compare⟩ fun x y => compare x y ≤ 0 :=
  ⟨hcm, fun _ _ _ => not_le.symm⟩

/-- **`zend_sort` sorts.** With a comparison function that is a total preorder the call ends, the
array is a permutation of its input, and no element is greater than the next one. -/
theorem zendSort_sorts (nmemb : ℕ) (compare : α → α → ℤ)
    (hcmp : TotalPreorder fun x y => compare x y ≤ 0) (m : Mem α) :
    ∃ m', zendSort ⟨nmemb, fun _ => compare⟩ (nmemb + 1) 0 nmemb m = .ok ((), m') ∧
      ((range nmemb).map fun k : ℕ => m'.arr k).Perm ((range nmemb).map fun k : ℕ => m.arr k) ∧
      ∀ i : ℕ, i + 1 < nmemb → compare (m'.arr i) (m'.arr (i + 1)) ≤ 0 := by
  obtain ⟨_, m', hr, hpr, hs⟩ : Ends (zendSort ⟨nmemb, fun _ => compare⟩ (nmemb + 1) 0 nmemb) m
      fun _ m' => SortsRange ⟨nmemb, fun _ => compare⟩
        (fun x y => compare x y ≤ 0) m 0 (0 + nmemb) m' :=
    zendSort_spec le_rfl (by simp) (lt_succ_self nmemb)
  rw [zero_add] at hpr hs
  exact ⟨m', hr, hpr.perm_map_range, fun i hi =>
    hs (ordered_of_totalPreorder hcmp) i (i + 1) (by omega) (by omega) (by omega)⟩

/-- Twenty integers in descending order. -/
theorem zendSort_sorts_descending : TotalPreorder (fun x y : ℤ => x - y ≤ 0) ∧
    ∃ m', zendSort ⟨20, fun _ (x y : ℤ) => x - y⟩ 21 0 20 ⟨fun k => -k, 0⟩ = .ok ((), m') ∧
      ((range 20).map fun k : ℕ => m'.arr k).Perm ((range 20).map fun k : ℕ => -(k : ℤ)) ∧
      ∀ i : ℕ, i + 1 < 20 → m'.arr i - m'.arr (i + 1) ≤ 0 := by
  have hcm : TotalPreorder (fun x y : ℤ => x - y ≤ 0) :=
    ⟨fun x y => by omega, fun x y z h₁ h₂ => by omega⟩
  exact ⟨hcm, zendSort_sorts 20 (fun x y => x - y) hcm ⟨fun k => -k, 0⟩⟩

/-- **`zend_sort` is safe.** Whatever the comparison answers, and also when it answers differently
for the same pair, the call ends, has compared and exchanged positions of the array only, and has
rearranged its elements. -/
theorem zendSort_safe (c : SortCall α) (m : Mem α) :
    (∃ m', zendSort c (c.nmemb + 1) 0 c.nmemb m = .ok ((), m') ∧
      ((range c.nmemb).map fun k : ℕ => m'.arr k).Perm ((range c.nmemb).map fun k : ℕ => m.arr k)) ∧
    ∃ m', zendInsertSort c (c.nmemb + 1) 0 c.nmemb m = .ok ((), m') ∧
      ((range c.nmemb).map fun k : ℕ => m'.arr k).Perm
        ((range c.nmemb).map fun k : ℕ => m.arr k) := by
  have hs : Ends (zendSort c (c.nmemb + 1) 0 c.nmemb) m fun _ m' =>
      SortsRange c (fun _ _ => True) m 0 (0 + c.nmemb) m' :=
    zendSort_spec le_rfl (by simp) (lt_succ_self _)
  have his : Ends (zendInsertSort c (c.nmemb + 1) 0 c.nmemb) m fun _ m' =>
      SortsRange c (fun _ _ => True) m 0 (0 + c.nmemb) m' :=
    zendInsertSort_spec le_rfl (by simp) (lt_succ_self _)
  rw [zero_add] at hs his
  obtain ⟨_, m₁, hrun₁, hpr, -⟩ := hs
  obtain ⟨_, m₂, hrun₂, hpm, -⟩ := his
  exact ⟨⟨m₁, hrun₁, hpr.perm_map_range⟩, ⟨m₂, hrun₂, hpm.perm_map_range⟩⟩

end PhpInternals.Zend.ZendSort

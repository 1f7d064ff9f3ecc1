import PhpInternals.Zend.ZendSort.HybridSort

/-!
# `zend_qsort`

All segments at hand and on the stack lie in the array, all elements are in order but for pairs in
one segment, and a segment with `k` others below it has at most `nmemb / 2 ^ k` elements, since the
larger part of a segment is the one that waits.
-/

namespace PhpInternals.Zend.ZendSort

open Nat PhpInternals.Found List

variable {α : Type} {c : SortCall α} {le : α → α → Prop} {m : Mem α} {steps : ℕ}

/-! ## The partition -/

section partition

variable {first last seg1 seg2 : ℤ} (hfirst : 0 ≤ first) (hlast : last < c.nmemb)

include hfirst hlast

/-- `seg1` goes up to an element that is not smaller than the pivot, or meets `seg2`. -/
lemma seg1Loop_spec (le : α → α → Prop) (h1 : first < seg1) (h2 : seg1 ≤ seg2 + 1)
    (h3 : seg2 ≤ last)
    (hs : last - first < steps) :
    Ends (seg1Loop c steps first seg1 seg2) m fun i m' => m'.arr = m.arr ∧ seg1 ≤ i ∧ i ≤ seg2 + 1 ∧
      (Ordered c le → ∀ k, seg1 ≤ k → k < i → le (m.arr k) (m.arr first)) ∧
      (i < seg2 → Ordered c le → le (m.arr first) (m.arr i)) := by
  refine Ends.iterate (I := fun i m' => m'.arr = m.arr ∧ seg1 ≤ i ∧ i ≤ seg2 + 1 ∧
    (Ordered c le → ∀ k, seg1 ≤ k → k < i → le (m.arr k) (m.arr first)))
    (μ := fun i _ => (seg2 - i).toNat) ?_ ⟨rfl, le_rfl, h2, fun _ k _ _ => by omega⟩ (by omega)
  rintro i m1 ⟨ha, hi, hi', hp⟩
  refine .ite (fun hlt => ?_) fun hge => .pure ⟨ha, hi, hi', hp, fun hlt => absurd hlt hge⟩
  refine ends_cmp le ⟨by omega, by omega⟩ ⟨by omega, by omega⟩
    (fun m2 h2 hgt => ?_) fun m2 h2 hle => ?_
  · rw [ha] at h2 hgt
    refine .pure ⟨⟨h2, by omega, by omega, fun ho k h1 h2 => ?_⟩, by omega⟩
    rcases eq_or_lt_of_le (show k ≤ i by omega) with rfl | hl'
    · exact ho.pre.of_not (hgt ho)
    · exact hp ho k h1 hl'
  · rw [ha] at h2 hle
    exact .pure ⟨h2, hi, hi', hp, fun _ => hle⟩

/-- `seg2` goes down to an element that is not greater than the pivot, or passes `seg1`. -/
lemma seg2Loop_spec (le : α → α → Prop) (h1 : first < seg1) (h2 : seg1 ≤ seg2 + 1)
    (h3 : seg2 ≤ last)
    (hs : last - first + 1 < steps) :
    Ends (seg2Loop c steps first seg1 seg2) m fun j m' => m'.arr = m.arr ∧ j ≤ seg2 ∧ seg1 ≤ j + 1 ∧
      (Ordered c le → ∀ k, j < k → k ≤ seg2 → le (m.arr first) (m.arr k)) ∧
      (seg1 ≤ j → Ordered c le → le (m.arr j) (m.arr first)) := by
  refine Ends.iterate (I := fun j m' => m'.arr = m.arr ∧ j ≤ seg2 ∧ seg1 ≤ j + 1 ∧
    (Ordered c le → ∀ k, j < k → k ≤ seg2 → le (m.arr first) (m.arr k)))
    (μ := fun j _ => (j + 1 - seg1).toNat) ?_ ⟨rfl, le_rfl, h2, fun _ k _ _ => by omega⟩ (by omega)
  rintro j m1 ⟨ha, hj, hj', hp⟩
  refine .ite (fun hl' => ?_) fun hgt => .pure ⟨ha, hj, hj', hp, fun hl' => absurd hl' hgt⟩
  refine ends_cmp le ⟨by omega, by omega⟩ ⟨by omega, by omega⟩
    (fun m2 h2 hgt => ?_) fun m2 h2 hle => ?_
  · rw [ha] at h2 hgt
    refine .pure ⟨⟨h2, by omega, by omega, fun ho k h1 h2 => ?_⟩, by omega⟩
    rcases eq_or_lt_of_le (show j ≤ k by omega) with rfl | hlt'
    · exact ho.pre.of_not (hgt ho)
    · exact hp ho k hlt' h2
  · rw [ha] at h2 hle
    exact .pure ⟨h2, hj, hj', hp, fun _ => hle⟩

lemma segLoop_spec (hlt : first < last) (hs : last - first + 1 < steps) :
    Ends (segLoop c steps first (first + 1) last) m fun j m' => first ≤ j ∧ j ≤ last ∧
      Partitioned c le first (last + 1) m (j + 1) (j + 1) m' := by
  refine Ends.iterate (I := fun ij m' => first < ij.1 ∧ ij.1 ≤ ij.2 + 1 ∧ ij.2 ≤ last ∧
    Partitioned c le first (last + 1) m ij.1 (ij.2 + 1) m')
      (μ := fun ij _ => (ij.2 + 1 - ij.1).toNat) ?_
    ⟨by simp, by simp only; omega, le_rfl, .refl _ _, fun _ k h1 h2 => by simp only at h2; omega,
      fun _ k h1 h2 => by simp only at h1; omega⟩ (by simp only; omega)
  rintro ⟨i, j⟩ m1 ⟨hi, hij, hj, hpr⟩
  simp only at hi hij hj hpr
  have hup := seg1Loop_spec (m := m1) hfirst hlast le hi hij hj (show last - first < steps by omega)
  refine hup.bind fun i' m2 ⟨harr2, hi', hij', hp, hge⟩ => ?_
  have hdw := seg2Loop_spec (m := m2) hfirst hlast le (by omega) hij' hj hs
  refine hdw.bind fun j' m3 ⟨harr3, hj', hij'', hp', hle⟩ => ?_
  rw [harr2] at harr3 hp' hle
  have hpr' : Partitioned c le first (last + 1) m i' (j' + 1) m3 :=
    hpr.extend harr3 hp fun ho k h1 h2 => hp' ho k (by omega) (by omega)
  refine .ite (fun hmt => ?_) fun hne => ?_
  · -- `seg2` is just below `seg1`, or at `seg1` with an element that is not greater than the pivot
    refine .pure ⟨by omega, by omega,
      hpr'.extend rfl (fun ho k h1 h2 => ?_) fun _ k h1 h2 => by omega⟩
    have hk : k = j' := by omega
    rw [hk, harr3]
    exact hle (by omega) ho
  have hg' : Ordered c le → le (m3.arr first) (m3.arr i') := harr3 ▸ hge (by omega)
  have hl' : Ordered c le → le (m3.arr j') (m3.arr first) := harr3 ▸ hle (by omega)
  refine ends_swp ⟨by omega, by omega⟩ ⟨by omega, by omega⟩ fun m4 harr4 => ?_
  have hp'' := hpr'.exchange harr4 (by omega) (by omega) (by omega) hg' hl'
  refine .pure ⟨⟨by simp only; omega, by simp only; omega, by simp only; omega, ?_⟩, by
    simp only; omega⟩
  simpa only [sub_add_cancel] using hp''

end partition

/-! ## The segments -/

/-- The number of elements of a segment. -/
def segmentSize (s : ℤ × ℤ) : ℤ := s.2 - s.1 + 1

/-- A segment with `k` segments below it has at most `n / 2 ^ k` elements. -/
def Halving (n : ℕ) : List (ℤ × ℤ) → Prop
  | [] => True
  | s :: rest => segmentSize s * 2 ^ rest.length ≤ n ∧ Halving n rest

/-- The rounds that the segments can still take. -/
def rounds (segs : List (ℤ × ℤ)) : ℕ := (segs.map fun s => (segmentSize s).toNat + 1).sum

/-- What holds of the segments that are still to be sorted. -/
structure Segments (c : SortCall α) (le : α → α → Prop) (m₀ : Mem α)
    (segs : List (ℤ × ℤ)) (m : Mem α) :
    Prop where
  perm : PermOn (Set.Ico 0 c.nmemb) m₀.arr m.arr
  range : ∀ s ∈ segs, 0 ≤ s.1 ∧ s.2 < c.nmemb
  sorted : Ordered c le → SortedOutside le c.nmemb segs m.arr
  halving : Halving c.nmemb segs

section segments

variable {m₀ m' : Mem α} {s small large : ℤ × ℤ} {segs : List (ℤ × ℤ)} {p : ℤ}

lemma segmentSize_parts (hp : InSegment s p)
    (hpr : [small, large].Perm [(s.1, p - 1), (p + 1, s.2)]) :
    segmentSize small + segmentSize large + 1 = segmentSize s ∧ 0 ≤ segmentSize small := by
  have hp1 := hp.1
  have hp2 := hp.2
  have hsm := (hpr.map segmentSize).sum_eq
  have hmm : small ∈ [(s.1, p - 1), (p + 1, s.2)] := hpr.mem_iff.mp mem_cons_self
  simp only [segmentSize, map_cons, sum_cons] at hsm ⊢
  refine ⟨by omega, ?_⟩
  rcases mem_pair.mp hmm with rfl | rfl <;> simp only <;> omega

lemma Halving.split {n : ℕ} (h : Halving n (s :: segs))
    (hsz : segmentSize small + segmentSize large + 1 = segmentSize s)
    (hs : 0 ≤ segmentSize small) (hle : segmentSize small ≤ segmentSize large) :
    Halving n (small :: large :: segs) := by
  refine ⟨?_, ?_, h.2⟩
  · calc segmentSize small * 2 ^ (large :: segs).length
        = (2 * segmentSize small) * 2 ^ segs.length := by rw [length_cons]; ring
      _ ≤ segmentSize s * 2 ^ segs.length := by gcongr; omega
      _ ≤ n := h.1
  · calc segmentSize large * 2 ^ segs.length ≤ segmentSize s * 2 ^ segs.length := by gcongr; omega
      _ ≤ n := h.1

lemma Halving.skip {n : ℕ} (h : Halving n (small :: large :: segs)) (hs : 0 ≤ segmentSize small) :
    Halving n (small :: segs) := by
  refine ⟨le_trans ?_ h.1, h.2.2⟩
  have hpw : (2 : ℤ) ^ segs.length ≤ 2 ^ (large :: segs).length :=
    pow_le_pow_right₀ (by norm_num) (by simp)
  gcongr

/-- There is room on the stack for a part of a segment with three elements. -/
lemma Halving.length_lt {n : ℕ} (h : Halving n (s :: segs)) (hs : 3 ≤ segmentSize s) :
    segs.length < log 2 n := by
  refine le_log_of_pow_le (by norm_num) ?_
  have hle : ((2 ^ (segs.length + 1) : ℕ) : ℤ) ≤ n := by
    calc (2 : ℤ) ^ (segs.length + 1) = 2 * 2 ^ segs.length := by ring
      _ ≤ segmentSize s * 2 ^ segs.length := by gcongr; omega
      _ ≤ n := h.1
  exact_mod_cast hle

namespace Segments

lemma drop (h : Segments c le m₀ (s :: segs) m) (hs : s.2 ≤ s.1) : Segments c le m₀ segs m :=
  ⟨h.perm, fun t ht => h.range t (mem_cons_of_mem _ ht), fun ho => (h.sorted ho).drop hs,
    h.halving.2⟩

lemma skip (h : Segments c le m₀ (small :: large :: segs) m) (hs : 0 ≤ segmentSize small)
    (hl : large.2 ≤ large.1) : Segments c le m₀ (small :: segs) m := by
  refine ⟨h.perm, fun t ht => h.range t ?_, fun ho => ?_, h.halving.skip hs⟩
  · rcases mem_cons.mp ht with rfl | ht
    · exact mem_cons_self
    · exact mem_cons_of_mem _ (mem_cons_of_mem _ ht)
  · exact ((h.sorted ho).perm (List.Perm.swap large small segs)).drop hl

/-- **A segment is partitioned.** -/
theorem split (h : Segments c le m₀ (s :: segs) m)
    (hpm : PermOn (Set.Ico s.1 (s.2 + 1)) m.arr m'.arr)
    (hs : Ordered c le → SplitAt le s.1 p (s.2 + 1) m'.arr) (hp : InSegment s p)
    (hpr : [small, large].Perm [(s.1, p - 1), (p + 1, s.2)])
    (hle : segmentSize small ≤ segmentSize large) :
    Segments c le m₀ (small :: large :: segs) m' := by
  obtain ⟨hlo, hhi⟩ := h.range s mem_cons_self
  have hp1 := hp.1
  have hp2 := hp.2
  have hsg := (hpr.append_right segs).symm
  have hsz := segmentSize_parts hp hpr
  refine ⟨h.perm.trans (hpm.mono (Set.Ico_subset_Ico hlo (by omega))), fun t ht => ?_, fun ho => ?_,
    h.halving.split hsz.1 hsz.2 hle⟩
  · rcases mem_cons.mp (hsg.mem_iff.mpr ht) with rfl | ht
    · exact ⟨hlo, by simp only; omega⟩
    rcases mem_cons.mp ht with rfl | ht
    · exact ⟨by simp only; omega, hhi⟩
    · exact h.range t (mem_cons_of_mem _ ht)
  · exact (((h.sorted ho).permOn ⟨hlo, hhi⟩ hpm).split ho.pre (hs ho) hp).perm hsg

end Segments

end segments

/-! ## The loops over the segments -/

section loops

variable {m₀ : Mem α} {stackSize : ℕ} {s small large : ℤ × ℤ} {stack : List (ℤ × ℤ)}

lemma deferSegment_spec (hsg : Segments c le m₀ (small :: large :: stack) m)
    (hs : 0 ≤ segmentSize small) (hr : large.1 < large.2 → stack.length < stackSize) :
    Ends (deferSegment stackSize large stack) m fun stack' m' =>
    Segments c le m₀ (small :: stack') m' ∧
      rounds (small :: stack') ≤ rounds (small :: large :: stack) := by
  refine .ite (fun hlt => ?_) fun hge => .pure ⟨hsg.skip hs (not_lt.mp hge), ?_⟩
  · rw [pushSegment, if_pos (hr hlt)]
    exact .pure ⟨hsg, le_rfl⟩
  · simp only [rounds, map_cons, sum_cons]
    omega

/-- **A partitioned segment goes on with its smaller part.** -/
theorem deferSegment_split {m' : Mem α} {p : ℤ} (hsc : log 2 c.nmemb ≤ stackSize)
    (h : Segments c le m₀ (s :: stack) m) (hpm : PermOn (Set.Ico s.1 (s.2 + 1)) m.arr m'.arr)
    (hsp : Ordered c le → SplitAt le s.1 p (s.2 + 1) m'.arr) (hp : InSegment s p)
    (hpr : [small, large].Perm [(s.1, p - 1), (p + 1, s.2)])
    (hle : segmentSize small ≤ segmentSize large) :
    Ends (deferSegment stackSize large stack) m' fun stack' m'' =>
    Segments c le m₀ (small :: stack') m'' ∧
      rounds (small :: stack') ≤ rounds (s :: stack) ∧
      (segmentSize small).toNat < (segmentSize s).toNat := by
  obtain ⟨hsz, hs⟩ := segmentSize_parts hp hpr
  have hrm : large.1 < large.2 → stack.length < stackSize := fun hlt =>
    lt_of_lt_of_le (h.halving.length_lt (by simp only [segmentSize] at hsz hs ⊢; omega)) hsc
  refine (deferSegment_spec (h.split hpm hsp hp hpr hle) hs hrm).mono
    fun stack' m'' ⟨hsg, hr⟩ => ⟨hsg, hr.trans ?_, by omega⟩
  simp only [rounds, map_cons, sum_cons]
  omega

/-- **A segment is sorted, but for the parts that it leaves on the stack.** -/
theorem segmentLoop_spec (hs : log 2 c.nmemb ≤ stackSize) (hste : c.nmemb + 1 < steps)
    (hsg : Segments c le m₀ (s :: stack) m) :
    Ends (segmentLoop c stackSize steps s.1 s.2 stack) m fun stack' m' =>
      Segments c le m₀ stack' m' ∧ rounds stack' < rounds (s :: stack) := by
  have hrn := hsg.range s mem_cons_self
  refine Ends.iterate (I := fun st m' => Segments c le m₀ (st.1 :: st.2) m' ∧
    rounds (st.1 :: st.2) ≤ rounds (s :: stack)) (μ := fun st _ => (segmentSize st.1).toNat) ?_
    ⟨hsg, le_rfl⟩ (by simp only [segmentSize]; omega)
  rintro ⟨⟨first, last⟩, pending⟩ m1 ⟨h1, hr⟩
  obtain ⟨hfirst, hlast⟩ := h1.range _ mem_cons_self
  simp only at h1 hr hfirst hlast ⊢
  refine .ite (fun hlt => ?_) fun hge => ?_
  swap
  · refine .pure ⟨h1.drop (not_lt.mp hge), lt_of_lt_of_le ?_ hr⟩
    simp only [rounds, map_cons, sum_cons]
    omega
  refine ends_swp ⟨by omega, by omega⟩ ⟨by omega, by omega⟩ fun m2 h2 => ?_
  have hse : Ends (segLoop c steps first (first + 1) last) m2 fun j m' => first ≤ j ∧ j ≤ last ∧
      Partitioned c le first (last + 1) m2 (j + 1) (j + 1) m' :=
    segLoop_spec hfirst hlast hlt (by omega)
  refine hse.bind fun j m3 ⟨hj1, hj2, hpr⟩ => ?_
  refine ends_swp ⟨by omega, by omega⟩ ⟨by omega, by omega⟩ fun m4 h4 => ?_
  have hsp : Ordered c le → SplitAt le first j (last + 1) m4.arr := fun ho => by
    simpa only [add_sub_cancel_right] using
      hpr.splitAt (by omega) (by rw [add_sub_cancel_right]; exact h4) ho
  have hpm : PermOn (Set.Ico first (last + 1)) m1.arr m4.arr := by
    have hf' : first ∈ Set.Ico first (last + 1) := ⟨le_rfl, by omega⟩
    have hp : PermOn (Set.Ico first (last + 1)) m1.arr m2.arr := by
      rw [h2]
      exact .swapAt _ hf' ⟨by omega, by omega⟩
    rw [h4]
    exact (hp.trans (hpr.perm.mono (Set.Ico_subset_Ico_left (by omega)))).trans
      (.swapAt _ hf' ⟨hj1, by omega⟩)
  -- either part may be the one that waits
  refine .ite (fun hle => ?_) fun hgt => ?_
  · have hdf : Ends (deferSegment stackSize (j + 1, last) pending) m4 fun stack' m'' => _ :=
      deferSegment_split hs h1 hpm hsp ⟨hj1, hj2⟩ (List.Perm.refl [(first, j - 1), (j + 1, last)])
        (by simp only [segmentSize]; omega)
    exact hdf.bind fun stack' m5 ⟨h5, hr', hsz⟩ => .pure ⟨⟨h5, hr'.trans hr⟩, hsz⟩
  · have hdf : Ends (deferSegment stackSize (first, j - 1) pending) m4 fun stack' m'' => _ :=
      deferSegment_split hs h1 hpm hsp ⟨hj1, hj2⟩ (List.Perm.swap (first, j - 1) (j + 1, last) [])
        (by simp only [segmentSize]; omega)
    exact hdf.bind fun stack' m5 ⟨h5, hr', hsz⟩ => .pure ⟨⟨h5, hr'.trans hr⟩, hsz⟩

lemma zendQsort_spec (ho : 1 ≤ stackSize) (hsta : log 2 c.nmemb ≤ stackSize)
    (hsp : c.nmemb + 1 < steps) :
    Ends (zendQsort c stackSize steps) m fun _ m' => SortsRange c le m 0 c.nmemb m' := by
  have hit : Segments c le m [(0, c.nmemb - 1)] m := by
    refine ⟨.refl _ _, fun s hs => ?_, fun _ =>
      ⟨pairwise_singleton _ _, fun k l h0 h1 h2 => ?_⟩, ?_, trivial⟩
    · rw [mem_singleton.mp hs]
      exact ⟨le_rfl, by simp only; omega⟩
    · exact .inr ⟨_, mem_singleton_self _, ⟨h0, by simp only; omega⟩,
        ⟨by simp only; omega, by simp only; omega⟩⟩
    · simp [segmentSize]
  have hps : Ends (pushSegment stackSize (0, (c.nmemb : ℤ) - 1) []) m
      fun stack m' => m' = m ∧ stack = [(0, (c.nmemb : ℤ) - 1)] := by
    rw [pushSegment, if_pos (show ([] : List (ℤ × ℤ)).length < stackSize from ho)]
    exact .pure ⟨rfl, rfl⟩
  refine hps.bind fun stack m1 ⟨hm1, hsc⟩ => ?_
  subst hm1 hsc
  refine Ends.iterate (μ := fun stack _ => rounds stack) ?_
    hit (by simp [rounds, segmentSize]; omega)
  rintro stack m2 hsg
  cases stack with
  | nil =>
    refine .pure ⟨hsg.perm, fun hor i j h0 h1 h2 =>
      ((hsg.sorted hor).order i j h0 h1 h2).resolve_right ?_⟩
    rintro ⟨s, hs, -⟩
    exact absurd hs not_mem_nil
  | cons s stack =>
    exact (segmentLoop_spec hsta hsp hsg).bind fun stack' m3 h => .pure h

end loops

/-! ## The results -/

/-- **`zend_qsort` sorts, on a stack of `log2 nmemb` segments and one at least.** Whatever the
comparison answers, no more segments are pending than that, no position outside of the array is
compared or exchanged, and the elements are rearranged; they are in order if the comparison function
is a total preorder. For a `size_t` the stacks of the source are large enough. -/
theorem zendQsort_sorts (c : SortCall α) (m : Mem α) (stackSize : ℕ)
    (hstack : max 1 (log 2 c.nmemb) ≤ stackSize) :
    (∃ m', zendQsort c stackSize (c.nmemb + 2) m = .ok ((), m') ∧
      ((range c.nmemb).map fun k : ℕ => m'.arr k).Perm ((range c.nmemb).map fun k : ℕ => m.arr k) ∧
      ∀ compare : α → α → ℤ, (c.compare = fun _ => compare) →
      TotalPreorder (fun x y => compare x y ≤ 0) →
        ∀ i : ℕ, i + 1 < c.nmemb → compare (m'.arr i) (m'.arr (i + 1)) ≤ 0) ∧
    (c.nmemb < 2 ^ 64 → max 1 (log 2 c.nmemb) ≤ qsortStackSize) := by
  refine ⟨?_, fun hn => max_le (by decide) (log_lt_of_lt_pow' (by norm_num) hn).le⟩
  obtain ⟨ho, hl⟩ := max_le_iff.mp hstack
  -- the order is named after the run, so that the run is the same for every comparison
  have hsp : ∀ le, Ends (zendQsort c stackSize (c.nmemb + 2)) m fun _ m' =>
      SortsRange c le m 0 c.nmemb m' :=
    fun le => zendQsort_spec ho hl (lt_succ_self _)
  obtain ⟨_, m', hr, hpr, -⟩ := hsp fun _ _ => True
  refine ⟨m', hr, hpr.perm_map_range, fun compare hc hpre i hi => ?_⟩
  obtain ⟨_, m'', hr', -, hs⟩ := hsp fun x y => compare x y ≤ 0
  obtain rfl : m' = m'' := by simpa [hr] using hr'
  refine hs ⟨hpre, fun n x y => ?_⟩ i (i + 1) (by omega) (by omega) (by omega)
  rw [hc]
  exact not_le.symm

/-- Twenty integers in descending order, on stacks of four segments. -/
theorem zendQsort_sorts_descending :
    ∃ m', zendQsort ⟨20, fun _ (x y : ℤ) => x - y⟩ 4 22 ⟨fun k => -k, 0⟩ = .ok ((), m') ∧
      ∀ i : ℕ, i + 1 < 20 → m'.arr i - m'.arr (i + 1) ≤ 0 := by
  obtain ⟨⟨m', hr, -, hs⟩, -⟩ :=
    zendQsort_sorts ⟨20, fun _ (x y : ℤ) => x - y⟩ ⟨fun k => -k, 0⟩ 4 (by decide +kernel)
  exact ⟨m', hr, hs (fun x y => x - y) rfl ⟨fun x y => by omega, fun x y z h₁ h₂ => by omega⟩⟩

/-- One element is one segment, and `log2 1` is none. -/
theorem zendQsort_one_overflows :
    log 2 1 = 0 ∧ zendQsort (⟨1, fun _ x y => x - y⟩ : SortCall ℤ) (log 2 1) 3 ⟨fun k => k, 0⟩ =
      .error .stackOverflow :=
  ⟨log_one_right 2, by rw [log_one_right]; rfl⟩

end PhpInternals.Zend.ZendSort

import PhpInternals.Zend.ZendSort.Basic

/-!
# `zend_insert_sort`

Every function is specified once, for any comparison: it ends without leaving the array and
rearranges its range; and the range comes out in order if the comparison is a total preorder
(`Ordered`). What a comparison tells is therefore kept as a fact that depends on `Ordered`.
-/

namespace PhpInternals.Zend.ZendSort

open PhpInternals.Found List

variable {α : Type} {c : SortCall α} {le : α → α → Prop} {m : Mem α}

/-- The comparison is the total preorder `le`: it answers `> 0` for the pairs that are not in order.
-/
structure Ordered (c : SortCall α) (le : α → α → Prop) : Prop where
  pre : TotalPreorder le
  answers : ∀ n x y, 0 < c.compare n x y ↔ ¬ le x y

/-! ## Comparisons and exchanges -/

section rules

variable {β : Type} {x y : SortM α β} {Q : β → Mem α → Prop} {i j : ℤ}

/-- A comparison inside the range tells what the order says, if there is one. -/
lemma ends_cmp (le : α → α → Prop) (hi : c.InRange i) (hj : c.InRange j)
    (hgt : ∀ m' : Mem α, m'.arr = m.arr → (Ordered c le → ¬ le (m.arr i) (m.arr j)) → Ends x m' Q)
    (hle : ∀ m' : Mem α, m'.arr = m.arr → (Ordered c le → le (m.arr i) (m.arr j)) → Ends y m' Q) :
    Ends (do if 0 < (← cmp c i j) then x else y) m Q := by
  have hcm : Ends (cmp c i j) m fun r m' =>
      m'.arr = m.arr ∧ (Ordered c le → (0 < r ↔ ¬ le (m.arr i) (m.arr j))) :=
    ⟨_, _, if_pos ⟨hi, hj⟩, rfl, fun h => h.answers _ _ _⟩
  refine hcm.bind fun r m' ⟨ha, hr⟩ => .ite (fun hp => ?_) fun hn => ?_
  · exact hgt m' ha fun h => (hr h).mp hp
  · exact hle m' ha fun h => not_not.mp fun hnt => hn ((hr h).mpr hnt)

lemma ends_swp {f : Unit → SortM α β} (hi : c.InRange i) (hj : c.InRange j)
    (h : ∀ m' : Mem α, m'.arr = swapAt m.arr i j → Ends (f ()) m' Q) :
    Ends (swp c i j >>= f) m Q := by
  have hs : Ends (swp c i j) m fun _ m' => m'.arr = swapAt m.arr i j := ⟨_, _, if_pos ⟨hi, hj⟩, rfl⟩
  exact hs.bind fun _ m' ha => h m' ha

lemma ends_swp_last {Q : Unit → Mem α → Prop} (hi : c.InRange i) (hj : c.InRange j)
    (h : ∀ m' : Mem α, m'.arr = swapAt m.arr i j → Q () m') : Ends (swp c i j) m Q :=
  ⟨_, _, if_pos ⟨hi, hj⟩, h _ rfl⟩

end rules

/-! ## Up to five elements -/

/-- The last element of a list of positions, given from the last to the first, sinks into those
before it. Source: `zend_sort.c` `zend_sort_4`. -/
def sink (c : SortCall α) : List ℤ → SortM α Unit
  | y :: x :: rest => do
    if 0 < (← cmp c x y) then
      swp c x y
      sink c (x :: rest)
    else pure ()
  | _ => pure ()

/-- The elements at these positions, given from the last to the first, are in order. -/
def Descending (le : α → α → Prop) (a : ℤ → α) (ps : List ℤ) : Prop :=
  ps.Pairwise fun p q => le (a q) (a p)

/-- What a function does with the elements at some positions. -/
def SortsAt (c : SortCall α) (le : α → α → Prop) (m : Mem α) (ps : List ℤ) (m' : Mem α) : Prop :=
  PermOn {p | p ∈ ps} m.arr m'.arr ∧ (Ordered c le → Descending le m'.arr ps)

lemma zendSort2_eq (x y : ℤ) : zendSort2 c x y = sink c [y, x] := by
  simp [zendSort2, sink]

lemma zendSort4_eq (x y z u : ℤ) :
    zendSort4 c x y z u = (do zendSort3 c x y z; sink c [u, z, y, x]) := by
  simp [zendSort4, sink]

lemma zendSort5_eq (x y z u v : ℤ) :
    zendSort5 c x y z u v = (do zendSort4 c x y z u; sink c [v, u, z, y, x]) := by
  simp [zendSort5, sink]

lemma zendSort3_eq (x y z : ℤ) : zendSort3 c x y z = (do
    if 0 < (← cmp c x y) then
      if 0 < (← cmp c z y) then
        swp c x y
        sink c [z, y]
      else swp c x z
    else sink c [z, y, x]) := by
  simp [zendSort3, sink]

/-- **An element sinks into the elements in order before it**, by induction on these. -/
theorem sink_spec {ps : List ℤ} (hn : ps.Nodup) (hr : ∀ p ∈ ps, c.InRange p)
    (hs : Ordered c le → Descending le m.arr ps.tail) :
    Ends (sink c ps) m fun _ m' => SortsAt c le m ps m' := by
  induction ps generalizing m with
  | nil => exact .pure ⟨.refl _ _, fun _ => .nil⟩
  | cons y ps ih =>
    cases ps with
    | nil => exact .pure ⟨.refl _ _, fun _ => pairwise_singleton _ _⟩
    | cons x rest =>
      obtain ⟨hy, hn'⟩ := nodup_cons.mp hn
      have hr' : ∀ p ∈ x :: rest, c.InRange p := fun p hp => hr p (mem_cons_of_mem y hp)
      have hsb : {p | p ∈ x :: rest} ⊆ {p | p ∈ y :: x :: rest} := fun p hp =>
        mem_cons_of_mem y hp
      refine ends_cmp le (hr x (by simp)) (hr y (by simp)) (fun m1 h1 hgt => ?_) fun m1 h1 hle => ?_
      · refine ends_swp (hr x (by simp)) (hr y (by simp)) fun m2 h2 => ?_
        rw [h1] at h2
        have hrs : ∀ q ∈ rest, m2.arr q = m.arr q := by
          intro q hq
          rw [h2, swapAt_of_ne]
          · exact fun h => (nodup_cons.mp hn').1 (h ▸ hq)
          · exact fun h => hy (h ▸ mem_cons_of_mem x hq)
        have hta : Ordered c le → Descending le m2.arr rest := fun ho =>
          (pairwise_cons.mp (hs ho)).2.imp_of_mem fun hp hq hle => by
            rwa [hrs _ hp, hrs _ hq]
        refine (ih hn' hr' hta).mono fun _ m3 ⟨hpr, hds⟩ => ⟨?_, fun ho => ?_⟩
        · refine PermOn.trans ?_ (hpr.mono hsb)
          rw [h2]
          exact .swapAt _ (by simp) (by simp)
        refine pairwise_cons.mpr ⟨?_, hds ho⟩
        have hl : m3.arr y = m.arr x := by
          rw [hpr.apply_of_notMem hy, h2, swapAt_right]
        rw [hl]
        refine hpr.forall_of_forall (P := fun v => le v (m.arr x)) fun q hq => ?_
        rcases mem_cons.mp hq with rfl | hq
        · rw [h2, swapAt_left]
          exact ho.pre.of_not (hgt ho)
        · rw [hrs q hq]
          exact (pairwise_cons.mp (hs ho)).1 q hq
      · refine .pure ⟨h1 ▸ .refl _ _, fun ho => ?_⟩
        rw [h1]
        refine pairwise_cons.mpr ⟨fun q hq => ?_, hs ho⟩
        rcases mem_cons.mp hq with rfl | hq
        · exact hle ho
        · exact ho.pre.trans _ _ _ ((pairwise_cons.mp (hs ho)).1 q hq) (hle ho)

/-- Three elements are sorted whatever the comparisons say. -/
lemma zendSort3_spec {x y z : ℤ} (hn : [z, y, x].Nodup) (hr : ∀ p ∈ [z, y, x], c.InRange p) :
    Ends (zendSort3 c x y z) m fun _ m' => SortsAt c le m [z, y, x] m' := by
  have hx := hr x (by simp)
  have hy := hr y (by simp)
  have hz := hr z (by simp)
  obtain ⟨⟨hzy, hzx⟩, hyx⟩ : (z ≠ y ∧ z ≠ x) ∧ y ≠ x := by simpa using hn
  rw [zendSort3_eq]
  refine ends_cmp le hx hy (fun m1 h1 hxy => ?_) fun m1 h1 hxy => ?_
  · refine ends_cmp le hz hy (fun m2 h2 hzy' => ?_) fun m2 h2 hzy' => ?_
    · -- the smallest element comes to the front
      refine ends_swp hx hy fun m3 h3 => ?_
      rw [h2, h1] at h3
      have hs : Ends (sink c [z, y]) m3 fun _ m' => SortsAt c le m3 [z, y] m' :=
        sink_spec (by simpa using hzy) (by simp [hy, hz]) fun _ => pairwise_singleton _ _
      refine hs.mono fun _ m4 ⟨hpr, hds⟩ => ⟨?_, fun ho => ?_⟩
      · refine PermOn.trans ?_ (hpr.mono ?_)
        · rw [h3]
          exact .swapAt _ (by simp) (by simp)
        · intro p hp
          rcases mem_cons.mp hp with rfl | hp
          · simp
          · simp [mem_singleton.mp hp]
      have hf : m4.arr x = m.arr y := by
        rw [hpr.apply_of_notMem (by simp [hzx.symm, hyx.symm]), h3, swapAt_left]
      have ha : ∀ p ∈ {p | p ∈ [z, y]}, le (m.arr y) (m4.arr p) := by
        refine hpr.forall_of_forall fun p hp => ?_
        rcases mem_cons.mp hp with rfl | hp
        · rw [h3, swapAt_of_ne hzx hzy, ← h1]
          exact ho.pre.of_not (hzy' ho)
        · rw [mem_singleton.mp hp, h3, swapAt_right]
          exact ho.pre.of_not (hxy ho)
      have hzy4 : le (m4.arr y) (m4.arr z) := by simpa [Descending] using hds ho
      simp [Descending, hzy4, hf, ha z (by simp), ha y (by simp)]
    · refine ends_swp_last hx hz fun m3 h3 => ⟨?_, fun ho => ?_⟩
      · rw [h3, h2, h1]
        exact .swapAt _ (by simp) (by simp)
      · have hyx' := ho.pre.of_not (hxy ho)
        have hzy'' := hzy' ho
        rw [h1] at hzy''
        rw [h3, h2, h1]
        simp [Descending, swapAt_of_ne hyx hzy.symm, hzy'', hyx', ho.pre.trans _ _ _ hzy'' hyx']
  · have hs : Ends (sink c [z, y, x]) m1 fun _ m' => SortsAt c le m1 [z, y, x] m' :=
      sink_spec hn hr fun ho => by
        rw [h1]
        simpa [Descending] using hxy ho
    refine hs.mono fun _ m2 h => ?_
    rwa [SortsAt, h1] at h

lemma sortsAt_bind_sink {x : SortM α Unit} {p : ℤ} {ps : List ℤ} (hn : (p :: ps).Nodup)
    (hr : ∀ q ∈ p :: ps, c.InRange q) (hx : Ends x m fun _ m' => SortsAt c le m ps m') :
    Ends (do x; sink c (p :: ps)) m fun _ m' => SortsAt c le m (p :: ps) m' := by
  refine hx.bind fun _ m1 ⟨hpr, hds⟩ => ?_
  refine (sink_spec hn hr hds).mono fun _ m2 ⟨hp', hds'⟩ => ⟨?_, hds'⟩
  exact (hpr.mono fun q hq => mem_cons_of_mem p hq).trans hp'

lemma zendSort4_spec {x y z u : ℤ} (hn : [u, z, y, x].Nodup)
    (hr : ∀ p ∈ [u, z, y, x], c.InRange p) :
    Ends (zendSort4 c x y z u) m fun _ m' => SortsAt c le m [u, z, y, x] m' := by
  rw [zendSort4_eq]
  exact sortsAt_bind_sink hn hr
    (zendSort3_spec (nodup_cons.mp hn).2 fun p hp => hr p (mem_cons_of_mem u hp))

lemma zendSort5_spec {x y z u v : ℤ} (hn : [v, u, z, y, x].Nodup)
    (hr : ∀ p ∈ [v, u, z, y, x], c.InRange p) :
    Ends (zendSort5 c x y z u v) m fun _ m' => SortsAt c le m [v, u, z, y, x] m' := by
  rw [zendSort5_eq]
  exact sortsAt_bind_sink hn hr
    (zendSort4_spec (nodup_cons.mp hn).2 fun p hp => hr p (mem_cons_of_mem v hp))

/-! ## Sorting a range -/

/-- What a sort function does with a range. -/
def SortsRange (c : SortCall α) (le : α → α → Prop) (m : Mem α) (lo hi : ℤ) (m' : Mem α) : Prop :=
  PermOn (Set.Ico lo hi) m.arr m'.arr ∧ (Ordered c le → SortedOn le lo hi m'.arr)

/-- The positions of a range, from the last to the first. -/
def downFrom (start : ℤ) (n : ℕ) : List ℤ := ((range n).map fun k : ℕ => start + k).reverse

lemma mem_downFrom {start p : ℤ} {n : ℕ} :
    p ∈ downFrom start n ↔ p ∈ Set.Ico start (start + n) := by
  simp only [downFrom, mem_reverse, mem_map, mem_range, Set.mem_Ico]
  constructor
  · rintro ⟨k, hk, rfl⟩
    omega
  · rintro ⟨h1, h2⟩
    exact ⟨(p - start).toNat, by omega, by omega⟩

lemma nodup_downFrom (start : ℤ) (n : ℕ) : (downFrom start n).Nodup := by
  rw [downFrom, nodup_reverse]
  refine List.Nodup.map (fun k l h => ?_) nodup_range
  simpa using h

lemma SortsAt.sortsRange {m' : Mem α} {start : ℤ} {n : ℕ}
    (h : SortsAt c le m (downFrom start n) m') : SortsRange c le m start (start + n) m' := by
  refine ⟨h.1.mono fun p hp => mem_downFrom.mp hp, fun ho i j hi hij hj => ?_⟩
  have hds := h.2 ho
  rw [Descending, downFrom, pairwise_reverse, pairwise_map] at hds
  have hg := pairwise_iff_getElem.mp hds (i - start).toNat (j - start).toNat
    (by rw [length_range]; omega) (by rw [length_range]; omega) (by omega)
  rw [getElem_range, getElem_range, Int.toNat_of_nonneg (by omega),
    Int.toNat_of_nonneg (by omega)] at hg
  simpa using hg

/-! ## The place of an element -/

section place

variable {start i : ℤ} {steps : ℕ}

/-- `j` is a place for element `i` among the elements from `start` on. -/
structure IsPlace (c : SortCall α) (le : α → α → Prop) (a : ℤ → α) (start i j : ℤ) : Prop where
  start_le : start ≤ j
  le_self : j ≤ i
  below : Ordered c le → SortedOn le start i a → ∀ k, start ≤ k → k < j → le (a k) (a i)
  above : Ordered c le → SortedOn le start i a → ∀ k, j ≤ k → k < i → le (a i) (a k)

lemma IsPlace.of_neighbours {a : ℤ → α} {j : ℤ} (hstart : start ≤ j) (hj : j ≤ i)
    (hb : start < j → Ordered c le → le (a (j - 1)) (a i))
    (ha : j < i → Ordered c le → le (a i) (a j)) : IsPlace c le a start i j := by
  refine ⟨hstart, hj, fun ho hs k hk hkj => ?_, fun ho hs k hjk hki => ?_⟩
  · have hl := hb (by omega) ho
    rcases eq_or_lt_of_le (show k ≤ j - 1 by omega) with rfl | hlt
    · exact hl
    · exact ho.pre.trans _ _ _ (hs k (j - 1) hk hlt (by omega)) hl
  · have hf := ha (by omega) ho
    rcases eq_or_lt_of_le hjk with rfl | hlt
    · exact hf
    · exact ho.pre.trans _ _ _ hf (hs j k hstart hlt hki)

/-- Looking for a place changes nothing. -/
def FindsPlace (c : SortCall α) (le : α → α → Prop) (start : ℤ) (place : ℤ → SortM α ℤ) (i : ℤ) :
    Prop :=
  ∀ m : Mem α, (Ordered c le → ¬ le (m.arr (i - 1)) (m.arr i)) →
    Ends (place i) m fun j m' => m'.arr = m.arr ∧ IsPlace c le m.arr start i j

variable (hstart : 0 ≤ start) (hi : i < c.nmemb)
include hstart hi

lemma insertPlace_spec (hlt : start < i) (hs : i - start < steps) :
    FindsPlace c le start (insertPlace c steps start) i := by
  have hin : ∀ k, start ≤ k → k ≤ i → c.InRange k := fun k h1 h2 => ⟨by omega, by omega⟩
  intro m hl
  refine Ends.iterate (I := fun j m' => m'.arr = m.arr ∧ start ≤ j ∧ j < i ∧
    (Ordered c le → le (m.arr i) (m.arr j))) (μ := fun j _ => (j - start).toNat) ?_
    ⟨rfl, by omega, by omega, fun ho => ho.pre.of_not (hl ho)⟩ (by omega)
  rintro j m1 ⟨h1, hj, hji, hgt⟩
  refine .ite (fun heq => ?_) fun hne => ?_
  · refine .pure ⟨h1, .of_neighbours hj hji.le (fun h => absurd h (by omega)) fun _ => hgt⟩
  refine ends_cmp le (hin _ (by omega) (by omega)) (hin _ (by omega) le_rfl) (fun m2 h2 hcm => ?_)
    fun m2 h2 hcm => ?_
  · rw [h1] at hcm
    exact .pure ⟨⟨h2.trans h1, by omega, by omega, fun ho => ho.pre.of_not (hcm ho)⟩, by omega⟩
  · rw [h1] at hcm
    refine .pure ⟨h2.trans h1, .of_neighbours (by omega) (by omega) (fun _ ho => ?_) fun _ ho => ?_⟩
    · simpa using hcm ho
    · simpa using hgt ho

lemma probePlace_spec (hlt : start + 6 ≤ i) (hs : i - start < steps) :
    FindsPlace c le start (probePlace c steps start) i := by
  have hin : ∀ k, start ≤ k → k ≤ i → c.InRange k := fun k h1 h2 => ⟨by omega, by omega⟩
  intro m hl
  refine Ends.iterate (I := fun j m' => m'.arr = m.arr ∧ start + 2 ≤ j ∧ j < i ∧
    (Ordered c le → le (m.arr i) (m.arr j))) (μ := fun j _ => (j - start).toNat) ?_
    ⟨rfl, by omega, by omega, fun ho => ho.pre.of_not (hl ho)⟩ (by omega)
  rintro j m1 ⟨h1, hj, hji, hgt⟩
  refine ends_cmp le (hin _ (by omega) (by omega)) (hin _ (by omega) le_rfl) (fun m2 h2 hcm => ?_)
    fun m2 h2 hcm => ?_
  · rw [h1] at hcm h2
    have hgt2 : Ordered c le → le (m.arr i) (m.arr (j - 2)) := fun ho => ho.pre.of_not (hcm ho)
    refine .ite (fun heq => ?_) fun hne => .ite (fun heq => ?_) fun hn' => ?_
    · exact .pure ⟨h2, .of_neighbours (by omega) (by omega)
        (fun h => absurd h (by omega)) fun _ => hgt2⟩
    · -- only the first element is left
      refine ends_cmp le (hin _ (by omega) le_rfl) (hin _ (by omega) (by omega))
        (fun m3 h3 hcmp3 => ?_)
        fun m3 h3 hcmp3 => ?_
      · rw [h2] at hcmp3 h3
        refine .pure ⟨h3, .of_neighbours (by omega) (by omega) (fun _ ho => ?_) fun _ ho => ?_⟩
        · simpa using ho.pre.of_not (hcmp3 ho)
        · simpa using hgt2 ho
      · rw [h2] at hcmp3 h3
        exact .pure ⟨h3, .of_neighbours (by omega) (by omega)
          (fun h => absurd h (by omega)) fun _ => hcmp3⟩
    · exact .pure ⟨⟨h2, by omega, by omega, hgt2⟩, by omega⟩
  · rw [h1] at hcm h2
    refine ends_cmp le (hin _ (by omega) (by omega)) (hin _ (by omega) le_rfl)
      (fun m3 h3 hcmp3 => ?_)
      fun m3 h3 hcmp3 => ?_
    · rw [h2] at hcmp3 h3
      refine .pure ⟨h3, .of_neighbours (by omega) (by omega) (fun _ ho => ?_) fun _ ho => ?_⟩
      · simpa using hcm ho
      · exact ho.pre.of_not (hcmp3 ho)
    rw [h2] at hcmp3 h3
    refine .pure ⟨h3, .of_neighbours (by omega) (by omega) (fun _ ho => ?_) fun _ ho => ?_⟩
    · simpa using hcmp3 ho
    · have hj' : j - 2 + 1 + 1 = j := by omega
      rw [hj']
      exact hgt ho

end place

/-! ## Insertion -/

section insertion

variable {start i stop : ℤ} {steps : ℕ} {place : ℤ → SortM α ℤ}

lemma shiftDown_spec {j : ℤ} (hj : 0 ≤ j) (hji : j ≤ i) (hi : i < c.nmemb) (hs : i - j < steps) :
    Ends (shiftDown c steps i j) m fun _ m' => m'.arr = moveTo m.arr i j := by
  refine Ends.iterate (I := fun k m' => j ≤ k ∧ k ≤ i ∧ m'.arr = moveTo m.arr i k)
    (μ := fun k _ => (k - j).toNat) ?_ ⟨hji, le_rfl, (moveTo_self _ _).symm⟩ (by omega)
  rintro k m1 ⟨hjk, hki, h1⟩
  refine .ite (fun hlt => ?_) fun hge => ?_
  · refine ends_swp ⟨by omega, by omega⟩ ⟨by omega, by omega⟩ fun m2 h2 =>
      .pure ⟨⟨by omega, by omega, ?_⟩, by omega⟩
    rw [h2, h1, swapAt_moveTo _ hki]
  · have hkj : k = j := by omega
    exact .pure (hkj ▸ h1)

lemma permOn_moveTo (a : ℤ → α) {j : ℤ} (hj : start ≤ j) (hji : j ≤ i) :
    PermOn (Set.Ico start (i + 1)) a (moveTo a i j) := by
  -- from the place upwards: one exchange more for each position further down
  obtain ⟨n, hn⟩ : ∃ n : ℕ, i - j = n := ⟨(i - j).toNat, by omega⟩
  induction n generalizing j with
  | zero =>
    have hij : j = i := by omega
    rw [hij, moveTo_self]
    exact .refl _ _
  | succ n ih =>
    have hs := ih (by omega : start ≤ j + 1) (by omega) (by omega)
    have heq := swapAt_moveTo a (show j + 1 ≤ i by omega)
    rw [add_sub_cancel_right] at heq
    rw [← heq]
    exact hs.trans (.swapAt _ ⟨by omega, by omega⟩ ⟨by omega, by omega⟩)

lemma insertAt_spec (hstart : 0 ≤ start) (hlt : start < i) (hi : i < c.nmemb)
    (hsp : i - start < steps) (hp : FindsPlace c le start place i) :
    Ends (insertAt c steps place i) m fun _ m' => PermOn (Set.Ico start (i + 1)) m.arr m'.arr ∧
      (Ordered c le → SortedOn le start i m.arr → SortedOn le start (i + 1) m'.arr) := by
  refine ends_cmp le ⟨by omega, by omega⟩ ⟨by omega, hi⟩ (fun m1 h1 hgt => ?_) fun m1 h1 hle => ?_
  · rw [← h1] at hgt
    refine (hp m1 hgt).bind fun j m2 ⟨h2, hj⟩ => ?_
    have hsr := hj.start_le
    have hl := hj.le_self
    refine (shiftDown_spec (by omega) hl hi (by omega)).mono fun _ m3 h3 => ?_
    rw [h2] at h3
    rw [h3, ← h1]
    refine ⟨permOn_moveTo _ hsr hl, fun ho hs => ?_⟩
    exact hs.moveTo hsr hl (hj.below ho hs) (hj.above ho hs)
  · rw [← h1] at hle ⊢
    refine .pure ⟨.refl _ _, fun ho hs => ?_⟩
    have hsl : IsPlace c le m1.arr start i i :=
      .of_neighbours hlt.le le_rfl (fun _ => hle) fun h => absurd h (lt_irrefl i)
    have h := hs.moveTo hlt.le le_rfl (hsl.below ho hs) (hsl.above ho hs)
    rwa [moveTo_self] at h

/-- **The loop of the insertion sort.** -/
lemma insertLoop_spec {first : ℤ} (hstart : 0 ≤ start) (hf : start < first) (hsto : stop ≤ c.nmemb)
    (hle : first ≤ stop) (hsp : stop - start < steps)
    (hp : ∀ i, first ≤ i → i < stop → FindsPlace c le start place i) :
    Ends (insertLoop c steps place first stop) m fun _ m' =>
      PermOn (Set.Ico start stop) m.arr m'.arr ∧
        (Ordered c le → SortedOn le start first m.arr → SortedOn le start stop m'.arr) := by
  refine Ends.iterate (I := fun i m' => first ≤ i ∧ i ≤ stop ∧
    PermOn (Set.Ico start i) m.arr m'.arr ∧
      (Ordered c le → SortedOn le start first m.arr → SortedOn le start i m'.arr))
    (μ := fun i _ => (stop - i).toNat) ?_ ⟨le_rfl, hle, .refl _ _, fun _ h => h⟩ (by omega)
  rintro i m1 ⟨hi, his, hpm, hs⟩
  refine .ite (fun hlt => ?_) fun hge => ?_
  · refine (insertAt_spec hstart (by omega) (by omega) (by omega) (hp i hi hlt)).bind
      fun _ m2 ⟨hpr, hsr⟩ => .pure ⟨⟨by omega, by omega, ?_, fun ho h => ?_⟩, by omega⟩
    · exact (hpm.mono (Set.Ico_subset_Ico_right (by omega))).trans hpr
    · exact hsr ho (hs ho h)
  · have heq : i = stop := by omega
    exact .pure ⟨heq ▸ hpm, fun ho h => heq ▸ hs ho h⟩

end insertion

lemma ends_sortsRange {x : SortM α Unit} {start : ℤ} {n : ℕ} {ps : List ℤ}
    (hps : ps = downFrom start n)
    (hstart : 0 ≤ start) (hs : start + n ≤ c.nmemb)
    (hx : ps.Nodup → (∀ p ∈ ps, c.InRange p) → Ends x m fun _ m' => SortsAt c le m ps m') :
    Ends x m fun _ m' => SortsRange c le m start (start + n) m' := by
  subst hps
  refine (hx (nodup_downFrom start n) fun p hp => ?_).mono fun _ m' h => h.sortsRange
  obtain ⟨h1, h2⟩ := mem_downFrom.mp hp
  exact ⟨by omega, by omega⟩

/-- **`zend_insert_sort` sorts every range.** -/
lemma zendInsertSort_spec {steps : ℕ} {start : ℤ} {nmemb : ℕ} (hstart : 0 ≤ start)
    (hsto : start + nmemb ≤ c.nmemb) (hsp : nmemb < steps) :
    Ends (zendInsertSort c steps start nmemb) m fun _ m' =>
    SortsRange c le m start (start + nmemb) m' := by
  match nmemb with
  | 0 | 1 => exact .pure ⟨.refl _ _, fun _ => .of_le (by simp)⟩
  | 2 =>
    have hps : [start + 1, start] = downFrom start 2 := by simp [downFrom, range_succ]
    refine ends_sortsRange hps hstart hsto fun hn hr => ?_
    rw [zendInsertSort, zendSort2_eq]
    exact sink_spec hn hr fun _ => pairwise_singleton _ _
  | 3 => exact ends_sortsRange (by simp [downFrom, range_succ]) hstart hsto zendSort3_spec
  | 4 => exact ends_sortsRange (by simp [downFrom, range_succ]) hstart hsto zendSort4_spec
  | 5 => exact ends_sortsRange (by simp [downFrom, range_succ]) hstart hsto zendSort5_spec
  | n + 6 =>
    have hl : Ends (insertLoop c steps (insertPlace c steps start) (start + 1) (start + 6)) m
        fun _ m' => PermOn (Set.Ico start (start + 6)) m.arr m'.arr ∧
          (Ordered c le → SortedOn le start (start + 1) m.arr →
            SortedOn le start (start + 6) m'.arr) :=
      insertLoop_spec hstart (by omega) (by omega) (by omega) (by omega) fun i h1 h2 =>
        insertPlace_spec hstart (by omega) (by omega) (by omega)
    refine hl.bind fun _ m1 ⟨hpr, hsr⟩ => ?_
    have hpb : Ends (insertLoop c steps (probePlace c steps start) (start + 6)
        (start + (n + 6 : ℕ))) m1
        fun _ m' => PermOn (Set.Ico start (start + (n + 6 : ℕ))) m1.arr m'.arr ∧
          (Ordered c le → SortedOn le start (start + 6) m1.arr →
            SortedOn le start (start + (n + 6 : ℕ)) m'.arr) :=
      insertLoop_spec hstart (by omega) (by omega) (by omega) (by omega) fun i h1 h2 =>
        probePlace_spec hstart (by omega) (by omega) (by omega)
    refine hpb.mono fun _ m2 ⟨hp, hs⟩ => ⟨?_, fun ho => ?_⟩
    · exact (hpr.mono (Set.Ico_subset_Ico_right (by omega))).trans hp
    · exact hs ho (hsr ho (.of_le le_rfl))

end PhpInternals.Zend.ZendSort

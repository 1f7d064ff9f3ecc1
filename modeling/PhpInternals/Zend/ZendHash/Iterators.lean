import PhpInternals.Zend.ZendHash.Chain

/-!
# The iterator registry and what `zend_hash_rehash` does to it

The compaction asks for the least position from `0` on, not from the hole on, so an iterator before
the first hole makes it wait for a position it has already passed.
-/

namespace PhpInternals.Zend.ZendHash

open HashTableIterator HashTable Nat List Found
open Option (map_some)

variable {K V : Type}

/-! ## Positions -/

/-- The position of iterator `n`, if it is in use and registered on the table at `addr`. Source:
`zend_hash.c` `_zend_hash_iterators_update`. -/
def ExecutorGlobals.posOf (eg : ExecutorGlobals) (addr n : ℕ) : Option ℕ :=
  (eg.htIterators.take eg.htIteratorsUsed)[n]?.bind fun iter =>
    if iter.ht = addr then some iter.pos else none

lemma ExecutorGlobals.exists_posOf_iff {eg : ExecutorGlobals} {addr p : ℕ} :
    (∃ n, eg.posOf addr n = some p) ↔
      ∃ iter ∈ eg.htIterators.take eg.htIteratorsUsed, iter.ht = addr ∧ iter.pos = p := by
  simp only [posOf, Option.bind_eq_some_iff, mem_iff_getElem?]
  constructor
  · rintro ⟨n, iter, hn, hps⟩
    split_ifs at hps with hht
    exact ⟨iter, ⟨n, hn⟩, hht, Option.some.inj hps⟩
  · rintro ⟨iter, ⟨n, hn⟩, hht, hps⟩
    exact ⟨n, iter, hn, by rw [if_pos hht, hps]⟩

/-- Redirecting a position. -/
def redirect (a b p : ℕ) : ℕ := if p = a then b else p

/-- **`zend_hash_iterators_update`** redirects one position of the table's iterators. It does
nothing on a table that has none. -/
theorem zendHashIteratorsUpdate_posOf (s : HashState K V)
    (hreg : s.ht.nIteratorsCount = 0 → ∀ n, s.eg.posOf s.ht.addr n = none) (a b n : ℕ) :
    (zendHashIteratorsUpdate s a b).eg.posOf s.ht.addr n
      = (s.eg.posOf s.ht.addr n).map (redirect a b) := by
  unfold zendHashIteratorsUpdate
  split_ifs with h0
  · rw [hreg h0]
    rfl
  simp only [ExecutorGlobals.posOf]
  have htk : ∀ (l : List HashTableIterator) (f : HashTableIterator → HashTableIterator) (u : ℕ),
      ((l.take u).map f ++ l.drop u).take u = (l.take u).map f := by
    intro l f u
    by_cases hu : u ≤ l.length
    · rw [take_left' (by simp [hu])]
    · rw [take_of_length_le (by simp; omega), drop_eq_nil_of_le (by omega), append_nil]
  rw [htk, getElem?_map]
  cases (s.eg.htIterators.take s.eg.htIteratorsUsed)[n]? with
  | none => rfl
  | some iter =>
    by_cases hht : iter.ht = s.ht.addr
    · by_cases hp : iter.pos = a
      · simp [hht, hp, redirect]
      · simp [hp, redirect]
    · simp [hht]

/-! ## Slots -/

/-- The iterators belong to the same tables, whatever their positions. -/
structure SameSlots (eg eg' : ExecutorGlobals) : Prop where
  used : eg'.htIteratorsUsed = eg.htIteratorsUsed
  tables : eg'.htIterators.map ht = eg.htIterators.map ht

lemma SameSlots.refl (eg : ExecutorGlobals) : SameSlots eg eg := ⟨rfl, rfl⟩

lemma SameSlots.trans {eg eg1 eg' : ExecutorGlobals} (h : SameSlots eg eg1)
    (h' : SameSlots eg1 eg') : SameSlots eg eg' :=
  ⟨h'.used.trans h.used, h'.tables.trans h.tables⟩

lemma ExecutorGlobals.posOf_eq_none_iff (eg : ExecutorGlobals) (addr n : ℕ) :
    eg.posOf addr n = none ↔ ((eg.htIterators.map ht).take eg.htIteratorsUsed)[n]? ≠ some addr := by
  rw [posOf, ← map_take, getElem?_map]
  cases (eg.htIterators.take eg.htIteratorsUsed)[n]? with
  | none => simp
  | some iter => by_cases h : iter.ht = addr <;> simp

lemma zendHashIteratorsUpdate_sameSlots (s : HashState K V) (a b : ℕ) :
    SameSlots s.eg (zendHashIteratorsUpdate s a b).eg := by
  unfold zendHashIteratorsUpdate
  split_ifs
  · exact SameSlots.refl _
  refine ⟨rfl, ?_⟩
  simp only [map_append, map_map]
  rw [← map_congr_left, ← map_append, take_append_drop]
  intro iter _
  simp only [Function.comp_apply]
  split_ifs <;> rfl

lemma rehashCompact_sameSlots : ∀ (n i j : ℕ) (iterPos : Option ℕ) (s : HashState K V),
    SameSlots s.eg (rehashCompact n i j iterPos s).eg
  | 0, _, _, _, _ => SameSlots.refl _
  | n + 1, i, j, iterPos, s => by
    rw [rehashCompact]
    have hit : SameSlots s.eg
        (rehashIterators { s with ht := compactBucket s.ht i j } i j iterPos).1.eg := by
      unfold rehashIterators
      cases iterPos with
      | none => exact SameSlots.refl _
      | some pos =>
        simp only
        split_ifs
        · exact zendHashIteratorsUpdate_sameSlots { s with ht := compactBucket s.ht i j } i j
        · exact SameSlots.refl _
    split_ifs
    · exact hit.trans (rehashCompact_sameSlots n _ _ _ _)
    · exact rehashCompact_sameSlots n _ _ _ _

lemma rehashWithHoles_sameSlots : ∀ (n i : ℕ) (s : HashState K V),
    SameSlots s.eg (rehashWithHoles n i s).eg
  | 0, _, _ => SameSlots.refl _
  | n + 1, i, s => by
    rw [rehashWithHoles]
    split_ifs
    · exact rehashCompact_sameSlots n _ _ _ s
    · exact rehashCompact_sameSlots n _ _ _ s
    · exact rehashWithHoles_sameSlots n _ { s with ht := s.ht.linkBucket i }

/-- **`zend_hash_rehash` registers and removes no iterator.** -/
theorem zendHashRehash_sameSlots (s : HashState K V) : SameSlots s.eg (zendHashRehash s).eg := by
  simp only [zendHashRehash]
  split_ifs
  · exact SameSlots.refl _
  · exact SameSlots.refl _
  · exact SameSlots.refl _
  · exact rehashWithHoles_sameSlots _ _ { s with ht := s.ht.hashReset }

/-! ## The least position -/

/-- `m` is the least registered position from `start` on, `HT_INVALID_IDX` when there is none. -/
structure IsLower (pos : ℕ → Option ℕ) (start m : ℕ) : Prop where
  le_invalid : m ≤ htInvalidIdx
  le : ∀ n p, pos n = some p → start ≤ p → m ≤ p
  attained : m = htInvalidIdx ∨ start ≤ m ∧ ∃ n, pos n = some m

lemma lowerPos_foldl (addr start : ℕ) : ∀ (l : List HashTableIterator) (res : ℕ),
    let m := l.foldl (fun res iter =>
      if iter.ht = addr then if start ≤ iter.pos ∧ iter.pos < res then iter.pos else res
      else res) res
    m ≤ res ∧ (∀ iter ∈ l, iter.ht = addr → start ≤ iter.pos → m ≤ iter.pos) ∧
      (m = res ∨ start ≤ m ∧ ∃ iter ∈ l, iter.ht = addr ∧ iter.pos = m)
  | [], _ => ⟨le_rfl, by simp, .inl rfl⟩
  | iter :: l, res => by
    simp only [foldl_cons]
    set res' := if iter.ht = addr then
      if start ≤ iter.pos ∧ iter.pos < res then iter.pos else res else res with hr'
    obtain ⟨h1, h2, h3⟩ := lowerPos_foldl addr start l res'
    have hle : res' ≤ res := by
      rw [hr']
      split_ifs <;> omega
    refine ⟨h1.trans hle, ?_, ?_⟩
    · intro it hit hht hst
      rcases mem_cons.mp hit with rfl | hit
      · refine h1.trans ?_
        rw [hr', if_pos hht]
        split_ifs <;> omega
      · exact h2 it hit hht hst
    rcases h3 with h3 | ⟨hst, it, hit, hht, hp⟩
    · by_cases hnw : iter.ht = addr ∧ start ≤ iter.pos ∧ iter.pos < res
      · have : res' = iter.pos := by rw [hr', if_pos hnw.1, if_pos hnw.2]
        exact .inr ⟨by omega, iter, mem_cons_self .., hnw.1, by omega⟩
      have : res' = res := by
        rw [hr']
        split_ifs with ha hb
        · exact absurd ⟨ha, hb⟩ hnw
        · rfl
        · rfl
      exact .inl (h3.trans this)
    · exact .inr ⟨hst, it, mem_cons_of_mem _ hit, hht, hp⟩

/-- **`zend_hash_iterators_lower_pos`** is the least registered position from `start` on. -/
theorem zendHashIteratorsLowerPos_isLower (eg : ExecutorGlobals) (ht : HashTable K V) (start : ℕ) :
    IsLower (eg.posOf ht.addr) start (zendHashIteratorsLowerPos eg ht start) := by
  obtain ⟨h1, h2, h3⟩ := lowerPos_foldl ht.addr start (eg.htIterators.take eg.htIteratorsUsed)
    htInvalidIdx
  refine ⟨h1, fun n p hp hst => ?_, ?_⟩
  · obtain ⟨iter, hm, hht, rfl⟩ := ExecutorGlobals.exists_posOf_iff.mp ⟨n, hp⟩
    exact h2 iter hm hht hst
  · rcases h3 with h3 | ⟨hst, iter, hm, hht, hps⟩
    · exact .inl h3
    · exact .inr ⟨hst, ExecutorGlobals.exists_posOf_iff.mpr ⟨iter, hm, hht, hps⟩⟩

lemma IsLower.congr {pos pos' : ℕ → Option ℕ} {start m : ℕ} (h : IsLower pos start m)
    (hsm : ∀ p, start ≤ p → ((∃ n, pos n = some p) ↔ ∃ n, pos' n = some p)) :
    IsLower pos' start m := by
  refine ⟨h.le_invalid, fun n p hp hst => ?_, ?_⟩
  · obtain ⟨n', hn'⟩ := (hsm p hst).mpr ⟨n, hp⟩
    exact h.le n' p hn' hst
  · rcases h.attained with hm | ⟨hst, hn⟩
    · exact .inl hm
    · exact .inr ⟨hst, (hsm m hst).mp hn⟩

/-- When nobody is at `start`, the least position is one from `start + 1` on. -/
lemma IsLower.succ {pos : ℕ → Option ℕ} {start m : ℕ} (h : IsLower pos start m)
    (hne : ∀ n, pos n ≠ some start) : IsLower pos (start + 1) m := by
  refine ⟨h.le_invalid, fun n p hp hst => h.le n p hp (by omega), ?_⟩
  rcases h.attained with hm | ⟨hst, n, hn⟩
  · exact .inl hm
  · refine .inr ⟨?_, n, hn⟩
    by_contra hc
    exact hne n (by rw [hn]; congr; omega)

/-! ## The compaction loop -/

/-- Positions are those of live buckets, or `HT_INVALID_IDX`. -/
def Placed (ht : HashTable K V) (pos : ℕ → Option ℕ) : Prop :=
  ∀ n p, pos n = some p → p = htInvalidIdx ∨ p < ht.nNumUsed ∧ ht.live p

lemma compactBucket_live (ht : HashTable K V) {i j k : ℕ} (hk : k ≠ j) :
    (compactBucket ht i j).live k ↔ ht.live k := by
  have hdt : (compactBucket ht i j).arData k = ht.arData k := by
    simp only [compactBucket]
    split_ifs <;> simp [linkBucket, Function.update_of_ne hk]
  simp [live, hdt]

lemma compactBucket_header (ht : HashTable K V) (i j : ℕ) : (compactBucket ht i j).addr = ht.addr ∧
      (compactBucket ht i j).nIteratorsCount = ht.nIteratorsCount := by
  simp only [compactBucket]
  split_ifs <;> exact ⟨rfl, rfl⟩

/-- The compaction leaves the iterators alone while it waits for a position that it has passed, or
that lies beyond the used part. -/
lemma rehashCompact_eg_of_waiting {iterPos : Option ℕ} : ∀ (n i j : ℕ) (s : HashState K V),
    (∀ pos ∈ iterPos, pos < i ∨ i + n ≤ pos) → (rehashCompact n i j iterPos s).eg = s.eg
  | 0, _, _, _, _ => rfl
  | n + 1, i, j, s, h => by
    have h' : ∀ pos ∈ iterPos, pos < i + 1 ∨ i + 1 + n ≤ pos := by
      intro pos hp
      have := h pos hp
      omega
    rw [rehashCompact]
    split_ifs with hl
    · have hsm : ∀ s' : HashState K V, rehashIterators s' i j iterPos = (s', iterPos) := by
        intro s'
        cases iterPos with
        | none => rfl
        | some pos =>
          have := h pos rfl
          simp [rehashIterators, if_neg (by omega : i ≠ pos)]
      rw [hsm]
      exact rehashCompact_eg_of_waiting n (i + 1) (j + 1) _ h'
    · exact rehashCompact_eg_of_waiting n (i + 1) j s h'

section Compact

variable {ht₀ : HashTable K V} {pos0 : ℕ → Option ℕ}

lemma map_movedPointer_succ {i : ℕ} (hne : ∀ n, pos0 n ≠ some i) (n : ℕ) :
    (pos0 n).map (movedPointer ht₀ (i + 1)) = (pos0 n).map (movedPointer ht₀ i) := by
  cases hp : pos0 n with
  | none => rfl
  | some p =>
    have hpi : p ≠ i := fun h => hne n (by rw [hp, h])
    have hif : (p < i + 1 ∧ ht₀.live p) ↔ (p < i ∧ ht₀.live p) :=
      ⟨fun h => ⟨by omega, h.2⟩, fun h => ⟨by omega, h.2⟩⟩
    simp only [map_some, movedPointer, hif]

lemma exists_movedPointer_iff {i p : ℕ} (hip : i ≤ p) :
    (∃ n, (pos0 n).map (movedPointer ht₀ i) = some p) ↔ ∃ n, pos0 n = some p := by
  have hif : ∀ n, (pos0 n).map (movedPointer ht₀ i) = some p ↔ pos0 n = some p := by
    intro n
    cases hq : pos0 n with
    | none => simp
    | some q =>
      simp only [map_some, Option.some.injEq, movedPointer]
      by_cases hlt : q < i ∧ ht₀.live q
      · have hr : count ht₀.live q ≤ q := count_le _
        rw [if_pos hlt]
        omega
      · rw [if_neg hlt]
  simp [hif]

variable (hplaced : Placed ht₀ pos0) (hused : ht₀.nNumUsed ≤ htInvalidIdx)

include hplaced hused

/-- Passing a bucket whose iterators have just been redirected to its rank. -/
lemma map_redirect_movedPointer {i : ℕ} (hi : i < ht₀.nNumUsed) (hl : ht₀.live i) (n : ℕ) :
    ((pos0 n).map (movedPointer ht₀ i)).map (redirect i (count ht₀.live i))
      = (pos0 n).map (movedPointer ht₀ (i + 1)) := by
  cases hp : pos0 n with
  | none => rfl
  | some p =>
    simp only [map_some]
    rcases lt_trichotomy p i with hlt | rfl | hgt
    · have hlp : ht₀.live p := by
        rcases hplaced n p hp with rfl | h
        · omega
        · exact h.2
      have hr : count ht₀.live p ≤ p := count_le _
      have h1 : movedPointer ht₀ i p = count ht₀.live p := if_pos ⟨hlt, hlp⟩
      have h2 : movedPointer ht₀ (i + 1) p = count ht₀.live p := if_pos ⟨by omega, hlp⟩
      rw [h1, h2, redirect, if_neg (by omega)]
    · have h1 : movedPointer ht₀ p p = p := if_neg fun h => by omega
      have h2 : movedPointer ht₀ (p + 1) p = count ht₀.live p := if_pos ⟨by omega, hl⟩
      rw [h1, h2, redirect, if_pos rfl]
    · have h1 : movedPointer ht₀ i p = p := if_neg fun h => by omega
      have h2 : movedPointer ht₀ (i + 1) p = p := if_neg fun h => by omega
      rw [h1, h2, redirect, if_neg (by omega)]

/-- **The compaction loop** relocates every iterator when it waits for the right position: the least
one that is still to come. -/
theorem rehashCompact_posOf (addr : ℕ) : ∀ (n i j pos : ℕ) (s : HashState K V),
    s.ht.addr = addr → s.ht.nIteratorsCount ≠ 0 →
    i + n = ht₀.nNumUsed → count ht₀.live i = j → j < i →
    (∀ k, i ≤ k → (s.ht.live k ↔ ht₀.live k)) →
    (∀ m, s.eg.posOf addr m = (pos0 m).map (movedPointer ht₀ i)) → IsLower pos0 i pos →
    ∀ m, (rehashCompact n i j (some pos) s).eg.posOf addr m
      = (pos0 m).map (movedPointer ht₀ ht₀.nNumUsed)
  | 0, i, j, pos, s, _, _, hn, _, _, _, hps, _ => by
    rw [← hn]
    exact hps
  | n + 1, i, j, pos, s, ha, hreg, hn, hj, hji, hlv, hps, hlw => by
    rw [rehashCompact]
    by_cases hl : ht₀.live i
    · have hl' : (s.ht.arData i).val.isSome = true := (hlv i le_rfl).mpr hl
      obtain ⟨ha', hcount⟩ := compactBucket_header s.ht i j
      rw [ha] at ha'
      have hlv' : ∀ k, i + 1 ≤ k → ((compactBucket s.ht i j).live k ↔ ht₀.live k) :=
        fun k hk => (compactBucket_live s.ht (by omega)).trans (hlv k (by omega))
      have hj' : count ht₀.live (i + 1) = j + 1 := by rw [count_succ, if_pos hl, hj]
      rw [if_pos hl', rehashIterators]
      by_cases hip : i = pos
      · -- the iterators at `i` are redirected, and the next position is looked up
        subst hip
        simp only [if_true]
        have hps' : ∀ m, (zendHashIteratorsUpdate { s with ht := compactBucket s.ht i j } i
            j).eg.posOf addr m = (pos0 m).map (movedPointer ht₀ (i + 1)) := by
          intro m
          have hup := zendHashIteratorsUpdate_posOf { s with ht := compactBucket s.ht i j }
            (fun h0 => absurd (hcount.symm.trans h0) hreg) i j m
          simp only [ha'] at hup
          rw [hup, hps m, ← hj]
          exact map_redirect_movedPointer hplaced hused (by omega) hl m
        refine rehashCompact_posOf addr n (i + 1) (j + 1) _ _ ?_ ?_ (by omega) hj' (by omega) ?_
          hps' ?_
        · rw [zendHashIteratorsUpdate_ht]
          exact ha'
        · rw [zendHashIteratorsUpdate_ht, hcount]
          exact hreg
        · rw [zendHashIteratorsUpdate_ht]
          exact hlv'
        · refine (zendHashIteratorsLowerPos_isLower _ _ (i + 1)).congr fun p hp => ?_
          simp only [zendHashIteratorsUpdate_ht, ha', hps']
          exact exists_movedPointer_iff hp
      · -- nobody is at `i`
        have hnb : ∀ m, pos0 m ≠ some i := by
          intro m hm
          have hle := hlw.le m i hm le_rfl
          rcases hlw.attained with hiv | ⟨hge, -⟩
          · omega
          · omega
        simp only [if_neg hip]
        refine rehashCompact_posOf addr n (i + 1) (j + 1) pos _ ha' (by rw [hcount]; exact hreg)
          (by omega) hj' (by omega) hlv' ?_ (hlw.succ hnb)
        intro m
        rw [map_movedPointer_succ hnb]
        exact hps m
    · have hl' : ¬ (s.ht.arData i).val.isSome = true := fun h => hl ((hlv i le_rfl).mp h)
      have hnb : ∀ m, pos0 m ≠ some i := by
        intro m hm
        rcases hplaced m i hm with hiv | h
        · omega
        · exact hl h.2
      rw [if_neg hl']
      refine rehashCompact_posOf addr n (i + 1) j pos s ha hreg (by omega) ?_ (by omega)
        (fun k hk => hlv k (by omega)) ?_ (hlw.succ hnb)
      · rw [count_succ, if_neg hl, hj]
        rfl
      · intro m
        rw [map_movedPointer_succ hnb]
        exact hps m

end Compact

/-! ## The whole rehash -/

/-- `fh` is the first hole of the table. -/
structure HashTable.IsFirstHole (ht : HashTable K V) (fh : ℕ) : Prop where
  used : fh < ht.nNumUsed
  dead : ¬ ht.live fh
  before : ∀ k < fh, ht.live k

/-- **No split**: when an iterator of the table sits before the first hole, all of them do, or are
at the end. -/
def HashState.NoSplit (s : HashState K V) : Prop :=
  ∀ fh, s.ht.IsFirstHole fh → ∀ n p m q, s.eg.posOf s.ht.addr n = some p →
    s.eg.posOf s.ht.addr m = some q → p < fh → q < fh ∨ q = htInvalidIdx

lemma rehashWithHoles_eg {fh : ℕ} : ∀ (n i : ℕ) (s : HashState K V), i ≤ fh → fh < i + n →
    ¬ s.ht.live fh → (∀ k, i ≤ k → k < fh → s.ht.live k) →
    ∃ s' : HashState K V, s'.eg = s.eg ∧ s'.ht.addr = s.ht.addr ∧
      s'.ht.nIteratorsCount = s.ht.nIteratorsCount ∧ (∀ k, s'.ht.live k ↔ s.ht.live k) ∧
      (rehashWithHoles n i s).eg = (rehashCompact (i + n - (fh + 1)) (fh + 1) fh
        (if s.ht.nIteratorsCount = 0 then none
          else some (zendHashIteratorsLowerPos s.eg s.ht 0)) s').eg
  | 0, i, s, h1, h2, _, _ => by omega
  | n + 1, i, s, h1, h2, hdd, hb => by
    rw [rehashWithHoles]
    by_cases hi : i = fh
    · subst hi
      have hnn : (s.ht.arData i).val.isNone = true := by simpa [live] using hdd
      rw [if_pos hnn]
      refine ⟨s, rfl, rfl, rfl, fun _ => Iff.rfl, ?_⟩
      rw [show i + (n + 1) - (i + 1) = n by omega]
    have hlv := hb i le_rfl (by omega)
    have hsm : ¬ (s.ht.arData i).val.isNone = true := by
      simp [Option.isSome_iff_ne_none.mp hlv]
    rw [if_neg hsm]
    have hln : ∀ k, (s.ht.linkBucket i).live k ↔ s.ht.live k :=
      fun k => live_congr (s.ht.linkBucket_content i k)
    obtain ⟨s', heg, ha, hcount, hl, hr⟩ := rehashWithHoles_eg n (i + 1)
      { s with ht := s.ht.linkBucket i } (by omega) (by omega) ((hln fh).not.mpr hdd)
      fun k hk hk' => (hln k).mpr (hb k (by omega) hk')
    refine ⟨s', heg, ha, hcount, fun k => (hl k).trans (hln k), ?_⟩
    rw [hr, show i + 1 + n - (fh + 1) = i + (n + 1) - (fh + 1) by omega]
    rfl

section Rehash

variable {s : HashState K V}
  (hcount : s.ht.nNumOfElements = count s.ht.live s.ht.nNumUsed)
  (hused : s.ht.nNumUsed ≤ htInvalidIdx)

include hcount

lemma live_of_without_holes (hh : s.ht.isWithoutHoles = true) : ∀ k < s.ht.nNumUsed, s.ht.live k :=
  count_iff_forall.mp (hcount.symm.trans (beq_iff_eq.mp hh).symm)

lemma exists_firstHole (hh : ¬ s.ht.isWithoutHoles = true) : ∃ fh, s.ht.IsFirstHole fh := by
  have hex : ∃ k, k < s.ht.nNumUsed ∧ ¬ s.ht.live k := by
    by_contra hc
    push Not at hc
    refine hh (beq_iff_eq.mpr ?_)
    rw [hcount, count_iff_forall.mpr hc]
  obtain ⟨hu, hd⟩ := Nat.find_spec hex
  refine ⟨Nat.find hex, hu, hd, fun k hk => ?_⟩
  by_contra hl
  exact Nat.find_min hex hk ⟨by omega, hl⟩

lemma zendHashRehash_eg {fh : ℕ} (hfh : s.ht.IsFirstHole fh) (hp : 0 < s.ht.nNumOfElements) :
    ∃ s' : HashState K V, s'.eg = s.eg ∧ s'.ht.addr = s.ht.addr ∧
      s'.ht.nIteratorsCount = s.ht.nIteratorsCount ∧ (∀ k, s'.ht.live k ↔ s.ht.live k) ∧
      (zendHashRehash s).eg = (rehashCompact (s.ht.nNumUsed - (fh + 1)) (fh + 1) fh
        (if s.ht.nIteratorsCount = 0 then none
          else some (zendHashIteratorsLowerPos s.eg s.ht 0)) s').eg := by
  have hh : ¬ s.ht.hashReset.isWithoutHoles = true := by
    intro hh
    exact hfh.dead (live_of_without_holes hcount hh fh hfh.used)
  obtain ⟨s', heg, ha, hc', hl, hr⟩ := rehashWithHoles_eg s.ht.nNumUsed 0
    { s with ht := s.ht.hashReset } (zero_le _)
    (by have := hfh.used; omega) hfh.dead fun k _ hk => hfh.before k hk
  refine ⟨s', heg, ha, hc', hl, ?_⟩
  rw [zendHashRehash, if_neg (by omega)]
  simp only [if_neg hh]
  rw [zero_add] at hr
  exact hr

/-- **An iterator before the first hole keeps every iterator where it is**, whatever happens to the
buckets. -/
theorem zendHashRehash_stuck (hps : 0 < s.ht.nNumOfElements) {fh n p : ℕ}
    (hfh : s.ht.IsFirstHole fh) (hp : s.eg.posOf s.ht.addr n = some p) (hlt : p < fh) :
    (zendHashRehash s).eg = s.eg := by
  obtain ⟨s', heg, -, -, -, hr⟩ := zendHashRehash_eg hcount hfh hps
  refine hr.trans ((rehashCompact_eg_of_waiting _ _ _ _ fun pos hps => .inl ?_).trans heg)
  split_ifs at hps
  · cases hps
  · cases hps
    have := (zendHashIteratorsLowerPos_isLower s.eg s.ht 0).le n p hp (zero_le _)
    omega

variable (hplaced : Placed s.ht (s.eg.posOf s.ht.addr))
  (hreg : s.ht.nIteratorsCount = 0 → ∀ n, s.eg.posOf s.ht.addr n = none)

include hused hplaced hreg

/-- **`zend_hash_rehash` relocates every iterator** to the rank of its bucket, if the iterators are
not split by the first hole. -/
theorem zendHashRehash_posOf (hs : s.NoSplit) (n : ℕ) : (zendHashRehash s).eg.posOf s.ht.addr n
      = (s.eg.posOf s.ht.addr n).map (movedPointer s.ht s.ht.nNumUsed) := by
  have hsy : (zendHashRehash s).eg = s.eg →
      (∀ m p, s.eg.posOf s.ht.addr m = some p → movedPointer s.ht s.ht.nNumUsed p = p) →
      (zendHashRehash s).eg.posOf s.ht.addr n
        = (s.eg.posOf s.ht.addr n).map (movedPointer s.ht s.ht.nNumUsed) := by
    intro heg hsm
    rw [heg]
    cases hp : s.eg.posOf s.ht.addr n with
    | none => rfl
    | some p => rw [map_some, hsm n p hp]
  have hr : ∀ fh, (∀ k < fh, s.ht.live k) → ∀ p ≤ fh, count s.ht.live p = p :=
    fun fh hb p hp => count_iff_forall.mpr fun k hk => hb k (by omega)
  by_cases hh : s.ht.isWithoutHoles = true
  · refine hsy ?_ fun m p _ => ?_
    · have hh' : s.ht.hashReset.isWithoutHoles = true := hh
      simp only [zendHashRehash, hh']
      split_ifs <;> rfl
    · have hlv := live_of_without_holes hcount hh
      unfold movedPointer
      split_ifs with h
      · exact hr _ hlv p h.1.le
      · rfl
  obtain ⟨fh, hfh⟩ := exists_firstHole hcount hh
  by_cases h0 : s.ht.nNumOfElements = 0
  · have hnn : ∀ k < s.ht.nNumUsed, ¬ s.ht.live k := count_iff_forall_not.mp (hcount.symm.trans h0)
    refine hsy ?_ fun m p _ => if_neg fun h => hnn p h.1 h.2
    rw [zendHashRehash]
    split_ifs <;> rfl
  by_cases hbf : ∃ m p, s.eg.posOf s.ht.addr m = some p ∧ p < fh
  · -- the loop waits for a position that it has passed, but nobody is after the hole
    obtain ⟨m, p, hp, hlt⟩ := hbf
    refine hsy (zendHashRehash_stuck hcount (by omega) hfh hp hlt) fun m' q hq => ?_
    unfold movedPointer
    split_ifs with h
    · rcases hs fh hfh m p m' q hp hq hlt with hq' | rfl
      · exact hr fh hfh.before q hq'.le
      · omega
    · rfl
  obtain ⟨s', heg, had, hc', hl, hrs⟩ := zendHashRehash_eg hcount hfh (by omega)
  push Not at hbf
  have ha : ∀ m p, s.eg.posOf s.ht.addr m = some p → fh + 1 ≤ p := by
    intro m p hp
    have hge := hbf m p hp
    rcases eq_or_lt_of_le hge with rfl | hgt
    · rcases hplaced m fh hp with hi | h
      · have := hfh.used
        omega
      · exact absurd h.2 hfh.dead
    · exact hgt
  by_cases hc : s.ht.nIteratorsCount = 0
  · rw [hrs, if_pos hc, rehashCompact_eg_of_waiting _ _ _ _ (by simp), heg, hreg hc]
    rfl
  rw [hrs, if_neg hc]
  have hlw : IsLower (s.eg.posOf s.ht.addr) (fh + 1) (zendHashIteratorsLowerPos s.eg s.ht 0) := by
    have h := zendHashIteratorsLowerPos_isLower s.eg s.ht 0
    refine ⟨h.le_invalid, fun m p hp _ => h.le m p hp (zero_le _), ?_⟩
    rcases h.attained with hi | ⟨-, m, hm⟩
    · exact .inl hi
    · exact .inr ⟨ha m _ hm, m, hm⟩
  have hfu := hfh.used
  refine rehashCompact_posOf hplaced hused s.ht.addr _ (fh + 1) fh _ s' had
    (by rw [hc']; exact hc) (by omega) ?_ (by omega) (fun k _ => hl k) ?_ hlw n
  · rw [count_succ, if_neg hfh.dead, hr fh hfh.before fh le_rfl]
    rfl
  intro m
  rw [heg]
  cases hp : s.eg.posOf s.ht.addr m with
  | none => rfl
  | some p =>
    have := ha m p hp
    rw [map_some, movedPointer, if_neg fun h => by omega]

end Rehash

end PhpInternals.Zend.ZendHash

import PhpInternals.Zend.ZendHash.Update

/-!
# `zend_hash_sort_ex`

The table is compacted in place, its buckets are sorted, and the layout is rebuilt: a packed table
stays packed only if it is renumbered, a hashed one becomes packed then, and is rehashed otherwise.
-/

namespace PhpInternals.Zend.ZendHash

open Function HashTable Nat Found

variable {K V : Type}

/-! ## The function -/

/-- Exchanging two buckets; `take p q` is bucket `p` with the fields of `q` that are exchanged. -/
def swapBuckets (take : Bucket K V → Bucket K V → Bucket K V) (arData : ℕ → Bucket K V)
    (p q : ℕ) : ℕ → Bucket K V :=
  update (update arData p (take (arData p) (arData q))) q
    (take (arData q) (arData p))

/-- What `zend_hash_bucket_swap` exchanges; `Z_NEXT` stays. -/
def zendHashBucketSwap (p q : Bucket K V) : Bucket K V :=
  { p with h := q.h, key := q.key, val := q.val }

/-- What `zend_hash_bucket_renum_swap` exchanges. -/
def zendHashBucketRenumSwap (p q : Bucket K V) : Bucket K V := { p with val := q.val }

/-- What `zend_hash_bucket_packed_swap` exchanges. -/
def zendHashBucketPackedSwap (p q : Bucket K V) : Bucket K V := { p with h := q.h, val := q.val }

/-- A `sort_func_t` with its comparison: the exchanges it makes on the first `n` buckets. -/
structure SortFunc (K V : Type) where
  /-- The exchanges, in order. -/
  swaps : (ℕ → Bucket K V) → ℕ → List (ℕ × ℕ)
  /-- Only the first `n` buckets are exchanged. -/
  in_range : ∀ arData n, ∀ pq ∈ swaps arData n, pq.1 < n ∧ pq.2 < n

/-- A call of a sort function. -/
def SortFunc.sort (f : SortFunc K V) (take : Bucket K V → Bucket K V → Bucket K V)
    (arData : ℕ → Bucket K V) (n : ℕ) : ℕ → Bucket K V :=
  (f.swaps arData n).foldl (fun arData pq => swapBuckets take arData pq.1 pq.2) arData

/-- The compaction loop of `zend_hash_sort_ex`: `n` buckets are left, from `j` on, and `i` are in
place. The whole `Bucket` is copied. -/
def sortCompact : (n j i : ℕ) → (ℕ → Bucket K V) → (ℕ → Bucket K V) × ℕ
  | 0, _, i, arData => (arData, i)
  | n + 1, j, i, arData =>
    if (arData j).val.isNone then sortCompact n (j + 1) i arData
    else sortCompact n (j + 1) (i + 1)
      (if i ≠ j then update arData i (arData j) else arData)

/-- The renumbering loop of `zend_hash_sort_ex`. -/
def renumberBuckets (arData : ℕ → Bucket K V) (n : ℕ) : ℕ → Bucket K V := fun j =>
  if j < n then { arData j with h := BitVec.ofNat 64 j, key := none } else arData j

/-- The table when its buckets are compacted, sorted and, on demand, renumbered. Source:
`zend_hash.c` `zend_hash_sort_ex`. -/
def sortedTable (f : SortFunc K V) (renumber : Bool) (ht : HashTable K V) : HashTable K V :=
  let (arData, i) :=
    if ht.isWithoutHoles then (ht.arData, ht.nNumUsed)
    else sortCompact ht.nNumUsed 0 0 ht.arData
  let arData := f.sort
    (if renumber then zendHashBucketRenumSwap
      else if ht.packed then zendHashBucketPackedSwap else zendHashBucketSwap) arData i
  let ht := { ht with arData, nNumUsed := i, nInternalPointer := 0 }
  if renumber then
    { ht with arData := renumberBuckets ht.arData i, nNextFreeElement := BitVec.ofNat 64 i }
  else ht

/-- Source: `zend_hash_sort_ex`. -/
def zendHashSortEx (f : SortFunc K V) (renumber : Bool) (s : HashState K V) : HashState K V :=
  if ¬ s.ht.nNumOfElements > 1 ∧ ¬ (renumber = true ∧ s.ht.nNumOfElements > 0) then s
  else
    let s := { s with ht := sortedTable f renumber s.ht }
    if s.ht.packed then
      if renumber then s else zendHashPackedToHash s
    else if renumber then
      { s with ht := (s.ht.moveData s.ht.nTableSize htMinMask true).hashReset }
    else zendHashRehash s

/-! ## Compaction and sorting -/

/-- **The invariant of the compaction loop.** -/
structure SortCompacted (ht : HashTable K V) (arData : ℕ → Bucket K V) (j i : ℕ) : Prop where
  rank : count ht.live j = i
  moved : ∀ k < j, ht.live k → arData (count ht.live k) = ht.arData k
  rest : ∀ k, i ≤ k → arData k = ht.arData k

lemma sortCompact_compacted (ht : HashTable K V) : ∀ (n j i : ℕ) (arData : ℕ → Bucket K V),
    SortCompacted ht arData j i →
    SortCompacted ht (sortCompact n j i arData).1 (j + n) (sortCompact n j i arData).2
  | 0, _, _, _, h => h
  | n + 1, j, i, arData, h => by
    have hle : i ≤ j := h.rank ▸ count_le _
    have hj := h.rest j hle
    rw [sortCompact, show j + (n + 1) = j + 1 + n by omega]
    by_cases hdd : (arData j).val.isNone
    · rw [if_pos hdd]
      have hnt : ¬ ht.live j := by
        rw [hj] at hdd
        simpa [live] using hdd
      refine sortCompact_compacted ht n (j + 1) i arData ⟨?_, ?_, h.rest⟩
      · rw [count_succ, if_neg hnt, add_zero, h.rank]
      · intro k hk hl
        rcases Nat.lt_succ_iff_lt_or_eq.mp hk with hk | rfl
        · exact h.moved k hk hl
        · exact absurd hl hnt
    rw [if_neg hdd]
    have hl : ht.live j := by
      rw [hj] at hdd
      simpa [live, Option.isSome_iff_ne_none] using hdd
    have hs : (if i ≠ j then update arData i (arData j) else arData)
        = update arData i (ht.arData j) := by
      split_ifs with hij
      · rw [hj]
      · rw [not_ne_iff.mp hij, ← hj, update_eq_self]
    rw [hs]
    refine sortCompact_compacted ht n (j + 1) (i + 1) _ ⟨?_, ?_, ?_⟩
    · rw [count_succ, if_pos hl, h.rank]
    · intro k hk hlk
      rcases Nat.lt_succ_iff_lt_or_eq.mp hk with hk | rfl
      · have hlt : Nat.count ht.live k < i := h.rank ▸ Nat.count_strict_mono hlk hk
        rw [update_of_ne (by omega)]
        exact h.moved k hk hlk
      · rw [h.rank, update_self]
    · intro k hk
      rw [update_of_ne (by omega)]
      exact h.rest k (by omega)

/-- One of the exchanges of a sort keeps a property that the exchanged fields carry along. -/
lemma swapBuckets_forall {take : Bucket K V → Bucket K V → Bucket K V} {P : Bucket K V → Prop}
    {arData : ℕ → Bucket K V} {n p q : ℕ} (htk : ∀ b c, P b → P c → P (take b c)) (hp : p < n)
    (hq : q < n) (h : ∀ i < n, P (arData i)) : ∀ i < n, P (swapBuckets take arData p q i) := by
  intro i hi
  unfold swapBuckets
  by_cases hiq : i = q
  · subst hiq
    rw [update_self]
    exact htk _ _ (h i hi) (h p hp)
  rw [update_of_ne hiq]
  by_cases hip : i = p
  · subst hip
    rw [update_self]
    exact htk _ _ (h i hi) (h q hq)
  · rw [update_of_ne hip]
    exact h i hi

lemma swapBuckets_of_le {take : Bucket K V → Bucket K V → Bucket K V}
    {arData : ℕ → Bucket K V} {n p q : ℕ} (hp : p < n) (hq : q < n) {i : ℕ} (hi : n ≤ i) :
    swapBuckets take arData p q i = arData i := by
  rw [swapBuckets, update_of_ne (by omega), update_of_ne (by omega)]

section Exchange

variable (f : SortFunc K V) {take : Bucket K V → Bucket K V → Bucket K V} {arData : ℕ → Bucket K V}
  {n : ℕ}

/-- What every exchange below `n` keeps, the sort keeps. -/
lemma SortFunc.sort_induction {Q : (ℕ → Bucket K V) → Prop} (hQ : Q arData)
    (hsw : ∀ a p q, p < n → q < n → Q a → Q (swapBuckets take a p q)) :
    Q (f.sort take arData n) := by
  unfold SortFunc.sort
  have hr := f.in_range arData n
  generalize f.swaps arData n = l at hr
  induction l generalizing arData with
  | nil => exact hQ
  | cons pq l ih =>
    obtain ⟨hp, hq⟩ := hr pq (List.mem_cons_self ..)
    exact ih (hsw _ _ _ hp hq hQ) fun pq' h' => hr pq' (List.mem_cons_of_mem _ h')

lemma SortFunc.sort_forall {P : Bucket K V → Prop} (htk : ∀ b c, P b → P c → P (take b c))
    (h : ∀ i < n, P (arData i)) : ∀ i < n, P (f.sort take arData n i) :=
  f.sort_induction (Q := fun a => ∀ i < n, P (a i)) h fun _ _ _ hp hq =>
    swapBuckets_forall htk hp hq

lemma SortFunc.sort_of_le {i : ℕ} (hi : n ≤ i) : f.sort take arData n i = arData i :=
  f.sort_induction (Q := fun a => a i = arData i) rfl fun _ _ _ hp hq h =>
    (swapBuckets_of_le hp hq hi).trans h

end Exchange

/-! ## The sorted table -/

/-- What the rebuilding of the layout needs to know about the sorted table. -/
structure Sorted (ht ht' : HashTable K V) (renumber : Bool) : Prop where
  used : ht'.nNumUsed = ht.nNumOfElements
  live : ∀ i < ht'.nNumUsed, ht'.live i
  header : SameHeader { ht with nNextFreeElement := ht'.nNextFreeElement } ht'
  packed_key : ht.packed = true → ∀ i, (ht'.arData i).key = none
  renumbered : renumber = true → ∀ i < ht'.nNumUsed,
    (ht'.arData i).h = BitVec.ofNat 64 i ∧ (ht'.arData i).key = none

lemma sortCompact_table {ht : HashTable K V} (hwf : ht.Wf) : SortCompacted ht
      (if ht.isWithoutHoles then (ht.arData, ht.nNumUsed)
        else sortCompact ht.nNumUsed 0 0 ht.arData).1 ht.nNumUsed
      (if ht.isWithoutHoles then (ht.arData, ht.nNumUsed)
        else sortCompact ht.nNumUsed 0 0 ht.arData).2 := by
  split_ifs with hh
  · have hlv := hwf.live_of_isWithoutHoles hh
    have hr : ∀ k ≤ ht.nNumUsed, count ht.live k = k := fun k hk =>
      count_iff_forall.mpr fun i hi => hlv i (by omega)
    exact ⟨hr _ le_rfl, fun k hk _ => by rw [hr k hk.le], fun _ _ => rfl⟩
  · have hl := sortCompact_compacted ht ht.nNumUsed 0 0 ht.arData
      ⟨rfl, fun k hk => by omega, fun _ _ => rfl⟩
    rw [zero_add] at hl
    exact hl

lemma SortCompacted.forall {ht : HashTable K V} {arData : ℕ → Bucket K V} {i : ℕ}
    (h : SortCompacted ht arData ht.nNumUsed i) :
    (∀ j < i, (arData j).val.isSome = true) ∧
      ∀ P : Bucket K V → Prop, (∀ j, P (ht.arData j)) → ∀ j, P (arData j) := by
  have hs : ∀ j < i, ∃ k, ht.live k ∧ arData j = ht.arData k := by
    intro j hj
    rw [← h.rank] at hj
    obtain ⟨k, hk, hl, hc⟩ := exists_count_eq hj
    exact ⟨k, hl, hc ▸ h.moved k hk hl⟩
  refine ⟨fun j hj => ?_, fun P hP j => ?_⟩
  · obtain ⟨k, hl, heq⟩ := hs j hj
    rw [heq]
    exact hl
  by_cases hj : j < i
  · obtain ⟨k, -, heq⟩ := hs j hj
    rw [heq]
    exact hP k
  · rw [h.rest j (by omega)]
    exact hP j

lemma sortedTable_sorted (f : SortFunc K V) (renumber : Bool) {ht : HashTable K V} (hwf : ht.Wf) :
    Sorted ht (sortedTable f renumber ht) renumber := by
  have hcm := sortCompact_table hwf
  unfold sortedTable
  revert hcm
  generalize (if ht.isWithoutHoles then (ht.arData, ht.nNumUsed)
    else sortCompact ht.nNumUsed 0 0 ht.arData) = c
  obtain ⟨arData, i⟩ := c
  intro hcm
  simp only at hcm
  obtain ⟨hl, ha⟩ := hcm.forall
  have hi : i = ht.nNumOfElements := by rw [hwf.count, ← hcm.rank]
  generalize htk : (if renumber then zendHashBucketRenumSwap
    else if ht.packed then zendHashBucketPackedSwap else zendHashBucketSwap
    : Bucket K V → Bucket K V → Bucket K V) = take
  -- every swap function exchanges the values, and never leaves `key` with a key from nowhere
  have hv : ∀ b c : Bucket K V, (take b c).val = c.val := by
    intro b c
    rw [← htk]
    split_ifs <;> rfl
  have hky : ∀ b c : Bucket K V, b.key = none → c.key = none → (take b c).key = none := by
    intro b c hb hc
    rw [← htk]
    split_ifs
    · exact hb
    · exact hb
    · exact hc
  have hl' : ∀ j < i, (f.sort take arData i j).val.isSome = true :=
    f.sort_forall (P := fun b => b.val.isSome = true) (fun b c _ hc => by rw [hv]; exact hc) hl
  have hky' : ht.packed = true → ∀ j, (f.sort take arData i j).key = none := by
    intro hp j
    have hnn := ha (fun b => b.key = none) (hwf.packed_key hp)
    by_cases hj : j < i
    · exact f.sort_forall hky (fun k _ => hnn k) j hj
    · rw [f.sort_of_le (by omega)]
      exact hnn j
  cases renumber with
  | false =>
    exact ⟨hi, hl', ⟨rfl, rfl, rfl, rfl, rfl, rfl, rfl, rfl⟩, hky', fun h => by cases h⟩
  | true =>
    refine ⟨hi, fun j hj => ?_, ⟨rfl, rfl, rfl, rfl, rfl, rfl, rfl, rfl⟩, fun hp j => ?_,
      fun _ j hj => ?_⟩
    · simp only [if_true] at hj
      simp only [live, renumberBuckets, if_pos hj, if_true]
      exact hl' j hj
    · simp only [renumberBuckets, if_true]
      split_ifs
      · rfl
      · exact hky' hp j
    · simp only [if_true] at hj
      simp [renumberBuckets, if_pos hj]

namespace Sorted

variable {ht ht' : HashTable K V} {renumber : Bool}

section

variable (h : Sorted ht ht' renumber)
include h

lemma count : ht'.nNumOfElements = count ht'.live ht'.nNumUsed := by
  rw [count_iff_forall.mpr h.live, h.used]
  exact h.header.nNumOfElements

lemma used_le (hwf : ht.Wf) : ht'.nNumUsed ≤ ht'.nTableSize := by
  have hle : ht.nNumOfElements ≤ ht.nNumUsed := hwf.count ▸ count_le _
  have hs : ht'.nTableSize = ht.nTableSize := h.header.nTableSize
  rw [h.used, hs]
  exact hle.trans hwf.used_le

lemma initialized (hwf : ht.Wf) (hp : 0 < ht.nNumOfElements) : ht'.initialized = true := by
  have hle : ht.nNumOfElements ≤ ht.nNumUsed := hwf.count ▸ count_le _
  have hi := hwf.initialized_of_used (by omega)
  exact h.header.initialized.trans hi

lemma wf_of_packed (hwf : ht.Wf) (hps : 0 < ht.nNumOfElements)
    (hp : ht'.packed = true) : ht'.Wf := by
  have hs : ht'.nTableSize = ht.nTableSize := h.header.nTableSize
  have hpc : ht'.packed = ht.packed := h.header.packed
  refine ⟨h.used_le hwf, ?_, ?_, h.count, ?_, ?_, fun _ => h.packed_key (hpc ▸ hp)⟩
  · rw [hs]
    exact hwf.size_le
  · rw [hs]
    exact hwf.size_pos
  · intro hi
    rw [h.initialized hwf hps] at hi
    cases hi
  · intro hp'
    rw [hp] at hp'
    cases hp'

end

lemma wf_toPacked (h : Sorted ht ht' true) (hwf : ht.Wf) (hps : 0 < ht.nNumOfElements) :
    (ht'.moveData ht'.nTableSize htMinMask true).hashReset.Wf := by
  have hs : ht'.nTableSize = ht.nTableSize := h.header.nTableSize
  refine ⟨h.used_le hwf, ?_, ?_, ?_, ?_, (fun hp => by cases hp), fun _ i => ?_⟩
  · exact hs.le.trans hwf.size_le
  · exact hwf.size_pos.trans_le hs.ge
  · refine h.count.trans (count_congr fun i hi => ?_)
    simp [HashTable.live, HashTable.hashReset, HashTable.moveData, hi]
  · intro hi
    exact absurd ((h.initialized hwf hps).symm.trans hi) (by decide)
  · simp only [hashReset, moveData]
    split_ifs with hi
    · exact (h.renumbered rfl i hi).2
    · rfl

lemma wf_rehash {s : HashState K V} (h : Sorted ht s.ht renumber) (hwf : ht.Wf)
    (hps : 0 < ht.nNumOfElements) (hp : s.ht.packed = false) : (zendHashRehash s).ht.Wf := by
  have hsz : s.ht.nTableSize = ht.nTableSize := h.header.nTableSize
  have hit := h.initialized hwf hps
  have hre := zendHashRehash_spec s h.count fun hi => absurd (hit.symm.trans hi) (by decide)
  refine hre.wf h.count (h.used_le hwf) ?_ ?_ ?_ ?_
  · exact hsz.le.trans hwf.size_le
  · exact hwf.size_pos.trans_le hsz.ge
  · exact fun hi => absurd (hit.symm.trans hi) (by decide)
  · exact fun hp' => absurd (hp.symm.trans hp') (by decide)

end Sorted

lemma zendHashSortEx_wf (f : SortFunc K V) (renumber : Bool) {s : HashState K V}
    (hwf : s.ht.Wf) : (zendHashSortEx f renumber s).ht.Wf := by
  have hsr := sortedTable_sorted f renumber hwf
  unfold zendHashSortEx
  by_cases hfw : ¬ s.ht.nNumOfElements > 1 ∧ ¬ (renumber = true ∧ s.ht.nNumOfElements > 0)
  · rw [if_pos hfw]
    exact hwf
  rw [if_neg hfw]
  have hps : 0 < s.ht.nNumOfElements := by
    by_contra hc
    exact hfw ⟨by omega, fun hh => hc hh.2⟩
  by_cases hp : (sortedTable f renumber s.ht).packed
  · dsimp only
    have hw' := hsr.wf_of_packed hwf hps hp
    split_ifs
    · exact hw'
    · exact (zendHashPackedToHash_silent hw'
        (hsr.initialized hwf hps)).1.wf
  · simp only [hp]
    cases renumber with
    | true => exact hsr.wf_toPacked hwf hps
    | false => exact hsr.wf_rehash hwf hps (by simpa using hp)

end PhpInternals.Zend.ZendHash

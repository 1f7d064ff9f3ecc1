import PhpInternals.Found.LinkedChain
import PhpInternals.Found.OrderedMap
import PhpInternals.Zend.ZendHash.Basic

/-!
# The representation invariant of a hash table, and what the rebuilding loops do

`HashTable.Wf` needs no assumption on keys: sizes, the element count, and the chains of a table that
is not packed. All three loops of `zend_hash_rehash` keep one invariant: the live buckets below `i`
have moved to their ranks and are chained there.
-/

namespace PhpInternals.Zend.ZendHash

open Function Nat PhpInternals.Found

variable {K V : Type}

variable {i j n : ℕ} {ht ht' : HashTable K V}

/-! ## Chains -/

namespace HashTable

/-- Bucket `i` is live and belongs to slot `s`. -/
def member (ht : HashTable K V) (s i : ℕ) : Prop := ht.live i ∧ ht.slot i = s

instance (ht : HashTable K V) (s : ℕ) : DecidablePred (ht.member s) :=
  fun i => inferInstanceAs (Decidable (ht.live i ∧ ht.slot i = s))

/-- The chains over the buckets below `n` are in order. -/
def Chained (ht : HashTable K V) (n : ℕ) : Prop :=
  Linked htInvalidIdx ht.hash (fun i => (ht.arData i).next) ht.member n

/-- What a bucket holds apart from its link. -/
def content (ht : HashTable K V) (i : ℕ) : BitVec 64 × Option K × Option V :=
  ((ht.arData i).h, (ht.arData i).key, (ht.arData i).val)

section

variable (h : ht'.content i = ht.content j)
include h

/-- Equal buckets are both live or both deleted. -/
lemma live_congr : ht'.live i ↔ ht.live j := by
  have hv : (ht'.arData i).val = (ht.arData j).val := congrArg (fun c => c.2.2) h
  simp [live, hv]

lemma slot_congr (hm : ht'.nTableMask = ht.nTableMask) : ht'.slot i = ht.slot j := by
  have hh : (ht'.arData i).h = (ht.arData j).h := congrArg (fun c => c.1) h
  simp [slot, hh, hm]

lemma member_congr {s : ℕ}
    (hm : ht'.nTableMask = ht.nTableMask) : ht'.member s i ↔ ht.member s j := by
  rw [member, member, live_congr h, slot_congr h hm]

end

lemma content_congr (h : ht'.arData i = ht.arData j) : ht'.content i = ht.content j := by
  simp [content, h]

@[simp] lemma setBucket_arData (ht : HashTable K V) (i : ℕ) (b : Bucket K V) :
    (ht.setBucket i b).arData = update ht.arData i b := rfl

@[simp] lemma setBucket_nTableMask (ht : HashTable K V) (i : ℕ) (b : Bucket K V) :
    (ht.setBucket i b).nTableMask = ht.nTableMask := rfl

@[simp] lemma setBucket_hash (ht : HashTable K V) (i : ℕ) (b : Bucket K V) :
    (ht.setBucket i b).hash = ht.hash := rfl

@[simp] lemma linkBucket_nTableMask (ht : HashTable K V) (i : ℕ) :
    (ht.linkBucket i).nTableMask = ht.nTableMask := rfl

lemma linkBucket_content (ht : HashTable K V) (i k : ℕ) :
    (ht.linkBucket i).content k = ht.content k := by
  by_cases hk : k = i
  · subst hk
    simp [content, linkBucket]
  · simp [content, linkBucket, update_of_ne hk]

lemma linkBucket_arData_of_ne (ht : HashTable K V) {k : ℕ} (hk : k ≠ i) :
    (ht.linkBucket i).arData k = ht.arData k := by
  simp [linkBucket, update_of_ne hk]

/-- The chains depend on the hash part, the mask and the used buckets only. -/
lemma Chained.congr (h : ht.Chained n)
    (hhs : ht'.hash = ht.hash) (hm : ht'.nTableMask = ht.nTableMask)
    (hdt : ∀ i < n, ht'.arData i = ht.arData i) : ht'.Chained n :=
  Linked.congr h (fun s => congrFun hhs s)
    (fun _ i hi => member_congr (content_congr (hdt i hi)) hm)
    fun _ i hi _ => by simp [hdt i hi]

/-- **Linking the next bucket** extends the chains by it. -/
theorem Chained.linkBucket (h : ht.Chained n) (hl : ht.live n) :
    (ht.linkBucket n).Chained (n + 1) := by
  have hmm : ∀ s i, (ht.linkBucket n).member s i ↔ ht.member s i :=
    fun s i => member_congr (ht.linkBucket_content n i) rfl
  refine Linked.snoc (ht.slot n) h (fun s i _ => hmm s i) (fun s => ?_) rfl ?_ ?_
  · rw [hmm]
    exact ⟨fun hm => hm.2.symm, fun hs => ⟨hl, hs.symm⟩⟩
  · simp [HashTable.linkBucket]
  · intro s i hi _
    simp [ht.linkBucket_arData_of_ne (by omega : i ≠ n)]

lemma chained_zero (h : ∀ s, ht.hash s = htInvalidIdx) : ht.Chained 0 := Linked.zero h

end HashTable

/-! ## The representation invariant -/

/-- **The representation invariant** that does not speak about keys. -/
structure HashTable.Wf (ht : HashTable K V) : Prop where
  used_le : ht.nNumUsed ≤ ht.nTableSize
  /-- Indices stay below `HT_INVALID_IDX`. -/
  size_le : ht.nTableSize ≤ 2 ^ 32 - 2
  size_pos : 0 < ht.nTableSize
  /-- `nNumOfElements` is the number of live buckets. -/
  count : ht.nNumOfElements = count ht.live ht.nNumUsed
  uninit : ht.initialized = false → ht.nNumUsed = 0 ∧ ht.packed = false
  chain : ht.packed = false → ht.Chained ht.nNumUsed
  /-- A packed table has integer keys only. -/
  packed_key : ht.packed = true → ∀ i, (ht.arData i).key = none

namespace HashTable.Wf

/-- No used bucket has the index `HT_INVALID_IDX`. -/
lemma used_le_invalid (h : ht.Wf) : ht.nNumUsed ≤ htInvalidIdx := by
  have h1 := h.used_le
  have h2 := h.size_le
  simp only [htInvalidIdx]
  omega

lemma ne_invalid (h : ht.Wf) (hi : i < ht.nNumUsed) : i ≠ htInvalidIdx := by
  have := h.used_le_invalid
  omega

/-- Without holes every used bucket is live. -/
lemma live_of_isWithoutHoles (h : ht.Wf) (hw : ht.isWithoutHoles = true) :
    ∀ i < ht.nNumUsed, ht.live i := by
  refine count_iff_forall.mp ?_
  rw [← h.count]
  simpa using (beq_iff_eq.mp hw).symm

lemma initialized_of_used (h : ht.Wf) (hu : 0 < ht.nNumUsed) : ht.initialized = true := by
  by_contra hi
  have := (h.uninit (by simpa using hi)).1
  omega

end HashTable.Wf

/-! ## The rebuilding loops -/

/-- The fields that no rebuilding loop touches. -/
structure SameHeader (ht ht' : HashTable K V) : Prop where
  addr : ht'.addr = ht.addr
  packed : ht'.packed = ht.packed
  initialized : ht'.initialized = ht.initialized
  nIteratorsCount : ht'.nIteratorsCount = ht.nIteratorsCount
  nTableMask : ht'.nTableMask = ht.nTableMask
  nNumOfElements : ht'.nNumOfElements = ht.nNumOfElements
  nTableSize : ht'.nTableSize = ht.nTableSize
  nNextFreeElement : ht'.nNextFreeElement = ht.nNextFreeElement

lemma SameHeader.refl (ht : HashTable K V) : SameHeader ht ht :=
  ⟨rfl, rfl, rfl, rfl, rfl, rfl, rfl, rfl⟩

lemma SameHeader.trans {ht1 ht2 ht3 : HashTable K V} (h : SameHeader ht1 ht2)
    (h' : SameHeader ht2 ht3) : SameHeader ht1 ht3 :=
  ⟨h'.1.trans h.1, h'.2.trans h.2, h'.3.trans h.3, h'.4.trans h.4, h'.5.trans h.5,
    h'.6.trans h.6, h'.7.trans h.7, h'.8.trans h.8⟩

/-- Where the internal pointer is after the buckets below `i` have moved to their ranks. -/
def movedPointer (ht : HashTable K V) (i pos : ℕ) : ℕ :=
  if pos < i ∧ ht.live pos then count ht.live pos else pos

/-- **The loop invariant of `zend_hash_rehash`**: `i` buckets of `ht₀` have been visited, the live
ones are at their ranks and chained, the others are untouched. -/
structure Compacted (ht₀ ht : HashTable K V) (i j : ℕ) : Prop where
  rank : count ht₀.live i = j
  rest : ∀ k, i ≤ k → ht.arData k = ht₀.arData k
  moved : ∀ k < i, ht₀.live k → ht.content (count ht₀.live k) = ht₀.content k
  chained : ht.Chained j
  header : SameHeader ht₀ ht
  pointer : ht.nInternalPointer = movedPointer ht₀ i ht₀.nInternalPointer
  /-- No key comes from outside. -/
  keys : ∀ k, ∃ k', (ht.arData k).key = (ht₀.arData k').key

variable {ht₀ : HashTable K V}

lemma Compacted.rank_le (h : Compacted ht₀ ht i j) : j ≤ i := h.rank ▸ count_le _

/-- Before the first bucket nothing is moved. -/
lemma compacted_hashReset (ht : HashTable K V) : Compacted ht.hashReset ht.hashReset 0 0 where
  rank := count_zero _
  rest := fun _ _ => rfl
  moved := fun k hk => absurd hk (by omega)
  chained := HashTable.chained_zero fun _ => rfl
  header := SameHeader.refl _
  pointer := by simp [movedPointer]
  keys := fun k => ⟨k, rfl⟩

lemma Compacted.skip (h : Compacted ht₀ ht i j) (hi : ¬ ht₀.live i) :
    Compacted ht₀ ht (i + 1) j where
  rank := by rw [count_succ, if_neg hi, add_zero, h.rank]
  rest := fun k hk => h.rest k (by omega)
  moved := by
    intro k hk hl
    rcases Nat.lt_succ_iff_lt_or_eq.mp hk with hlt | rfl
    · exact h.moved k hlt hl
    · exact absurd hl hi
  chained := h.chained
  header := h.header
  pointer := by
    rw [h.pointer, movedPointer]
    refine if_congr ⟨fun hh => ⟨by omega, hh.2⟩, fun hh => ⟨?_, hh.2⟩⟩ rfl rfl
    rcases Nat.lt_succ_iff_lt_or_eq.mp hh.1 with hlt | heq
    · exact hlt
    · exact absurd (heq ▸ hh.2) hi
  keys := h.keys

/-- **A live bucket is filed at the next rank**: the shape of every linking step of the loops. The
table `ht'` agrees with `ht` below `j`, holds the bucket's contents at `j` and is linked there. -/
theorem Compacted.file {ht : HashTable K V} (h : Compacted ht₀ ht i j) (ht' : HashTable K V)
    (hi : ht₀.live i) (hhs : ht'.hash = ht.hash) (hhd : SameHeader ht ht')
    (hlw : ∀ k < j, ht'.arData k = ht.arData k) (hhg : ∀ k, j < k → ht'.arData k = ht.arData k)
    (hj : ht'.content j = ht₀.content i)
    (hpt : ht'.nInternalPointer = if ht.nInternalPointer = i then j else ht.nInternalPointer) :
    Compacted ht₀ (ht'.linkBucket j) (i + 1) (j + 1) where
  rank := by rw [count_succ, if_pos hi, h.rank]
  rest := by
    intro k hk
    have hji := h.rank_le
    rw [ht'.linkBucket_arData_of_ne (by omega), hhg k (by omega), h.rest k (by omega)]
  moved := by
    intro k hk hl
    rw [HashTable.linkBucket_content]
    rcases Nat.lt_succ_iff_lt_or_eq.mp hk with hlt | rfl
    · have hl' : Nat.count ht₀.live k < j := h.rank ▸ Nat.count_strict_mono hl hlt
      rw [HashTable.content_congr (hlw _ hl'), h.moved k hlt hl]
    · rw [h.rank, hj]
  chained := by
    have hc : ht'.Chained j := h.chained.congr hhs hhd.nTableMask hlw
    exact hc.linkBucket ((HashTable.live_congr hj).mpr hi)
  header := h.header.trans (hhd.trans ⟨rfl, rfl, rfl, rfl, rfl, rfl, rfl, rfl⟩)
  pointer := by
    have hcs : (ht'.linkBucket j).nInternalPointer = ht'.nInternalPointer := rfl
    rw [hcs, hpt, h.pointer, movedPointer, movedPointer]
    by_cases hlt : ht₀.nInternalPointer < i ∧ ht₀.live ht₀.nInternalPointer
    · -- already moved: its rank is below `i`, so this bucket is not the current one
      have hle := count_le (p := ht₀.live) (n := ht₀.nInternalPointer)
      rw [if_pos hlt, if_neg (by omega), if_pos ⟨by omega, hlt.2⟩]
    · rw [if_neg hlt]
      by_cases heq : ht₀.nInternalPointer = i
      · rw [if_pos heq, if_pos ⟨by omega, heq ▸ hi⟩, heq, h.rank]
      · rw [if_neg heq, if_neg fun hh => hlt ⟨by omega, hh.2⟩]
  keys := by
    intro k
    have hk : ((ht'.linkBucket j).arData k).key = (ht'.arData k).key :=
      congrArg (fun c => c.2.1) (ht'.linkBucket_content j k)
    rw [hk]
    rcases lt_trichotomy k j with hlt | rfl | hgt
    · rw [hlw k hlt]
      exact h.keys k
    · exact ⟨i, congrArg (fun c => c.2.1) hj⟩
    · rw [hhg k hgt]
      exact h.keys k

lemma Compacted.linkBucket (h : Compacted ht₀ ht i i) (hi : ht₀.live i) :
    Compacted ht₀ (ht.linkBucket i) (i + 1) (i + 1) :=
  h.file ht hi rfl (SameHeader.refl ht) (fun _ _ => rfl) (fun _ _ => rfl)
    (HashTable.content_congr (h.rest i le_rfl)) (by split_ifs with hp <;> [exact hp; rfl])

lemma Compacted.compactBucket (h : Compacted ht₀ ht i j) (hi : ht₀.live i) :
    Compacted ht₀ (compactBucket ht i j) (i + 1) (j + 1) := by
  have hf := h.file { ht.setBucket j
        { h := (ht.arData i).h, key := (ht.arData i).key, val := (ht.arData i).val,
          next := (ht.arData j).next } with
      nInternalPointer := if ht.nInternalPointer = i then j else ht.nInternalPointer }
    hi rfl ⟨rfl, rfl, rfl, rfl, rfl, rfl, rfl, rfl⟩
    (fun k hk => update_of_ne (by omega) _ _)
    (fun k hk => update_of_ne (by omega) _ _)
    (by simp [HashTable.content, h.rest i le_rfl]) rfl
  convert hf using 1
  by_cases hp : ht.nInternalPointer = i <;>
    simp [ZendHash.compactBucket, hp, HashTable.linkBucket, HashTable.setBucket, HashTable.slot]

/-- The loop of a table without holes. -/
lemma rehashWithoutHoles_compacted :
    ∀ (n i : ℕ) (ht : HashTable K V), Compacted ht₀ ht i i → (∀ k < i + n, ht₀.live k) →
      Compacted ht₀ (rehashWithoutHoles n i ht) (i + n) (i + n)
  | 0, _, _, h, _ => h
  | n + 1, i, ht, h, hl => by
    have := rehashWithoutHoles_compacted n (i + 1) (ht.linkBucket i)
      (h.linkBucket (hl i (by omega))) fun k hk => hl k (by omega)
    rw [add_right_comm, add_assoc] at this
    exact this

/-! ### The table part of the loops with iterators -/

/-- The compaction loop without the iterators. -/
def compactTable : (n i j : ℕ) → HashTable K V → HashTable K V
  | 0, _, j, ht => { ht with nNumUsed := j }
  | n + 1, i, j, ht =>
    if (ht.arData i).val.isSome then compactTable n (i + 1) (j + 1) (compactBucket ht i j)
    else compactTable n (i + 1) j ht

/-- The loop over a table with holes without the iterators. -/
def rehashTable : (n i : ℕ) → HashTable K V → HashTable K V
  | 0, _, ht => ht
  | n + 1, i, ht =>
    if (ht.arData i).val.isNone then compactTable n (i + 1) i ht
    else rehashTable n (i + 1) (ht.linkBucket i)

@[simp] lemma zendHashIteratorsUpdate_ht (s : HashState K V) (a b : ℕ) :
    (zendHashIteratorsUpdate s a b).ht = s.ht := by
  unfold zendHashIteratorsUpdate
  split_ifs <;> rfl

@[simp] lemma rehashIterators_ht (s : HashState K V) (i j : ℕ) (iterPos : Option ℕ) :
    (rehashIterators s i j iterPos).1.ht = s.ht := by
  unfold rehashIterators
  cases iterPos with
  | none => rfl
  | some pos => by_cases h : i = pos <;> simp [h]

/-- The iterators do not matter to the table. -/
lemma rehashCompact_ht : ∀ (n i j : ℕ) (iterPos : Option ℕ) (s : HashState K V),
    (rehashCompact n i j iterPos s).ht = compactTable n i j s.ht
  | 0, _, _, _, _ => rfl
  | n + 1, i, j, iterPos, s => by
    by_cases h : (s.ht.arData i).val.isSome
    · simp only [rehashCompact, compactTable, h, if_true]
      rw [rehashCompact_ht n, rehashIterators_ht]
    · simp only [rehashCompact, compactTable, h]
      exact rehashCompact_ht n (i + 1) j iterPos s

lemma rehashWithHoles_ht : ∀ (n i : ℕ) (s : HashState K V),
    (rehashWithHoles n i s).ht = rehashTable n i s.ht
  | 0, _, _ => rfl
  | n + 1, i, s => by
    by_cases h : (s.ht.arData i).val.isNone
    · simp only [rehashWithHoles, rehashTable, h, if_true]
      exact rehashCompact_ht n (i + 1) i _ s
    · simp only [rehashWithHoles, rehashTable, h]
      exact rehashWithHoles_ht n (i + 1) _

/-- The loop behind the first hole. -/
lemma compactTable_compacted : ∀ (n i j : ℕ) (ht : HashTable K V), Compacted ht₀ ht i j →
      Compacted ht₀ (compactTable n i j ht) (i + n) (compactTable n i j ht).nNumUsed
  | 0, _, _, _, h =>
    { h with header := h.header.trans ⟨rfl, rfl, rfl, rfl, rfl, rfl, rfl, rfl⟩ }
  | n + 1, i, j, ht, h => by
    have hif : (ht.arData i).val.isSome = true ↔ ht₀.live i := by
      rw [h.rest i le_rfl, HashTable.live]
    rw [compactTable, ← add_assoc, add_right_comm]
    split_ifs with hl
    · exact compactTable_compacted n (i + 1) (j + 1) _ (h.compactBucket (hif.mp hl))
    · exact compactTable_compacted n (i + 1) j ht (h.skip fun hh => hl (hif.mpr hh))

/-- The outer loop keeps the invariant to the end, and stops the used part at the last rank: a table
whose buckets are all live keeps `nNumUsed`. -/
lemma rehashTable_compacted :
    ∀ (n i : ℕ) (ht : HashTable K V), Compacted ht₀ ht i i → ht.nNumUsed = i + n →
      Compacted ht₀ (rehashTable n i ht) (i + n) (rehashTable n i ht).nNumUsed
  | 0, i, ht, h, hu => by
    rw [rehashTable, hu]
    exact h
  | n + 1, i, ht, h, hu => by
    have hif : (ht.arData i).val.isSome = true ↔ ht₀.live i := by
      rw [h.rest i le_rfl, HashTable.live]
    rw [rehashTable, ← add_assoc, add_right_comm]
    split_ifs with hn
    · have hdd : ¬ ht₀.live i := by
        rw [← hif]
        simpa using hn
      exact compactTable_compacted n (i + 1) i ht (h.skip hdd)
    · have hl : ht₀.live i := hif.mp (by simpa [Option.isSome_iff_ne_none] using hn)
      exact rehashTable_compacted n (i + 1) _ (h.linkBucket hl)
        (by simp only [HashTable.linkBucket]; omega)

/-! ## The result of a rehash -/

/-- **What `zend_hash_rehash` does to a table**: every live bucket moves to its rank, the holes are
gone, the chains are in order. -/
structure Rehashed (ht ht' : HashTable K V) : Prop where
  used : ht'.nNumUsed = count ht.live ht.nNumUsed
  moved : ∀ k < ht.nNumUsed, ht.live k → ht'.content (count ht.live k) = ht.content k
  chained : ht'.Chained ht'.nNumUsed
  header : SameHeader ht ht'
  pointer : ht'.nInternalPointer = movedPointer ht ht.nNumUsed ht.nInternalPointer
  keys : ∀ k, ∃ k', (ht'.arData k).key = (ht.arData k').key

/-- At the end of the loops the table is rehashed. -/
lemma Compacted.rehashed {ht ht' : HashTable K V}
    (h : Compacted ht.hashReset ht' ht.nNumUsed ht'.nNumUsed) : Rehashed ht ht' where
  used := h.rank.symm
  moved := h.moved
  chained := h.chained
  header := (⟨rfl, rfl, rfl, rfl, rfl, rfl, rfl, rfl⟩ : SameHeader ht ht.hashReset).trans h.header
  pointer := h.pointer
  keys := h.keys

lemma rehashWithoutHoles_nNumUsed : ∀ (n i : ℕ) (ht : HashTable K V),
    (rehashWithoutHoles n i ht).nNumUsed = ht.nNumUsed
  | 0, _, _ => rfl
  | n + 1, i, ht => by
    rw [rehashWithoutHoles, rehashWithoutHoles_nNumUsed n]
    rfl

/-- **`zend_hash_rehash`** on any table whose element count is right: all three of its paths end in
the same way. -/
theorem zendHashRehash_spec (s : HashState K V)
    (hcn : s.ht.nNumOfElements = count s.ht.live s.ht.nNumUsed)
    (hun : s.ht.initialized = false → s.ht.nNumUsed = 0 ∧ s.ht.Chained 0) :
    Rehashed s.ht (zendHashRehash s).ht := by
  unfold zendHashRehash
  by_cases h0 : s.ht.nNumOfElements = 0
  · -- no element: the used part is dropped
    have hnn : ∀ k < s.ht.nNumUsed, ¬ s.ht.live k := count_iff_forall_not.mp (hcn.symm.trans h0)
    have hp : movedPointer s.ht s.ht.nNumUsed s.ht.nInternalPointer = s.ht.nInternalPointer :=
      if_neg fun hh => hnn _ hh.1 hh.2
    split_ifs with hi
    · exact ⟨h0.symm.trans hcn, fun k hk hl => absurd hl (hnn k hk),
        HashTable.chained_zero fun _ => rfl, ⟨rfl, rfl, rfl, rfl, rfl, rfl, rfl, rfl⟩, hp.symm,
        fun k => ⟨k, rfl⟩⟩
    obtain ⟨hu, hc⟩ := hun (by simpa using hi)
    refine ⟨?_, fun k hk hl => absurd hl (hnn k hk), ?_, SameHeader.refl _, hp.symm,
      fun k => ⟨k, rfl⟩⟩
    · rw [← hcn, h0, hu]
    · rw [hu]
      exact hc
  rw [if_neg h0]
  simp only
  have hs := compacted_hashReset s.ht
  have hc' := hcn
  split_ifs with hw
  · have hlv : ∀ k < 0 + s.ht.nNumUsed, s.ht.hashReset.live k := by
      rw [zero_add]
      exact count_iff_forall.mp (hc'.symm.trans (beq_iff_eq.mp hw).symm)
    have hen := rehashWithoutHoles_compacted s.ht.nNumUsed 0 _ hs hlv
    rw [zero_add] at hen
    refine Compacted.rehashed ?_
    rw [rehashWithoutHoles_nNumUsed]
    exact hen
  · refine Compacted.rehashed ?_
    rw [rehashWithHoles_ht]
    have hen := rehashTable_compacted s.ht.nNumUsed 0 _ hs (zero_add _).symm
    rw [zero_add] at hen
    exact hen

namespace Rehashed

section

variable (h : Rehashed ht ht')
include h

/-- Every bucket after the rehash comes from a live one before. -/
lemma exists_source (hj : j < ht'.nNumUsed) :
    ∃ k < ht.nNumUsed, ht.live k ∧ count ht.live k = j ∧ ht'.content j = ht.content k := by
  rw [h.used] at hj
  obtain ⟨k, hk, hl, hc⟩ := exists_count_eq hj
  exact ⟨k, hk, hl, hc, hc ▸ h.moved k hk hl⟩

lemma live (hj : j < ht'.nNumUsed) : ht'.live j := by
  obtain ⟨k, -, hl, -, hc⟩ := h.exists_source hj
  exact (HashTable.live_congr hc).mpr hl

lemma count : count ht'.live ht'.nNumUsed = ht'.nNumUsed :=
  count_iff_forall.mpr fun _ hj => h.live hj

/-- **Rehashing keeps the table well formed.** -/
lemma wf (hcn : ht.nNumOfElements = Nat.count ht.live ht.nNumUsed)
    (hle : ht.nNumUsed ≤ ht.nTableSize) (hs : ht.nTableSize ≤ 2 ^ 32 - 2)
    (hps : 0 < ht.nTableSize)
    (hun : ht.initialized = false → ht.nNumUsed = 0 ∧ ht.packed = false)
    (hky : ht.packed = true → ∀ i, (ht.arData i).key = none) : ht'.Wf where
  used_le := by
    have hc : ht'.nNumUsed ≤ ht.nNumUsed := h.used ▸ count_le _
    rw [h.header.nTableSize]
    omega
  size_le := by rw [h.header.nTableSize]; exact hs
  size_pos := by rw [h.header.nTableSize]; exact hps
  count := by rw [h.count, h.used, h.header.nNumOfElements, hcn]
  uninit := by
    rw [h.header.initialized, h.header.packed, h.used]
    intro hi
    obtain ⟨hu, hp⟩ := hun hi
    exact ⟨by rw [hu, count_zero], hp⟩
  chain := fun _ => h.chained
  packed_key := by
    rw [h.header.packed]
    intro hp i
    obtain ⟨k, hk⟩ := h.keys i
    rw [hk]
    exact hky hp k

end

end Rehashed

end PhpInternals.Zend.ZendHash

import PhpInternals.Zend.ZendHash.Sort
import PhpInternals.Zend.ZendHash.Refinement
import PhpInternals.Zend.ZendSort.QuickSort

/-!
# The order that `zend_hash_sort_ex` leaves
-/

namespace PhpInternals.Zend.ZendHash

open Function OrderedTable HashState HashTable Nat Found ZendSort List

variable {K V α : Type}

/-! ## Sort functions -/

/-- The functions that are passed as `sort_func_t`. -/
inductive EngineSort where
  | zendSort
  | zendInsertSort
  | zendQsort
  deriving DecidableEq, Repr

/-- A call on the whole array, with enough rounds for its loops. -/
def EngineSort.run (sort : EngineSort) (c : SortCall α) : SortM α Unit :=
  match sort with
  | .zendSort => ZendSort.zendSort c (c.nmemb + 1) 0 c.nmemb
  | .zendInsertSort => ZendSort.zendInsertSort c (c.nmemb + 1) 0 c.nmemb
  | .zendQsort => ZendSort.zendQsort c qsortStackSize (c.nmemb + 2)

lemma EngineSort.run_sorts (sort : EngineSort) {c : SortCall α} (le : α → α → Prop) (m : Mem α)
    (hn : c.nmemb < 2 ^ 64) :
    Ends (sort.run c) m fun _ m' => SortsRange c le m 0 c.nmemb m' := by
  cases sort with
  | zendSort =>
    have h : Ends (ZendSort.zendSort c (c.nmemb + 1) 0 c.nmemb) m fun _ m' =>
        SortsRange c le m 0 (0 + c.nmemb) m' :=
      zendSort_spec le_rfl (by simp) (lt_succ_self _)
    rwa [zero_add] at h
  | zendInsertSort =>
    have h : Ends (ZendSort.zendInsertSort c (c.nmemb + 1) 0 c.nmemb) m fun _ m' =>
        SortsRange c le m 0 (0 + c.nmemb) m' :=
      zendInsertSort_spec le_rfl (by simp) (lt_succ_self _)
    rwa [zero_add] at h
  | zendQsort =>
    exact zendQsort_spec (by decide) (log_lt_of_lt_pow' (by norm_num) hn).le (lt_succ_self _)

/-! ## What is exchanged -/

/-- Among buckets that satisfy `P`, the swap function exchanges what `part` reads. -/
structure Exchanges (take : Bucket K V → Bucket K V → Bucket K V) (part : Bucket K V → α)
    (P : Bucket K V → Prop) : Prop where
  part_eq : ∀ b c, P b → P c → part (take b c) = part c
  keeps : ∀ b c, P b → P c → P (take b c)

/-- Contents of a bucket: all but the link. -/
def Bucket.content (b : Bucket K V) : BitVec 64 × Option K × Option V := (b.h, b.key, b.val)

lemma exchanges_packedSwap :
    Exchanges (zendHashBucketPackedSwap (K := K) (V := V)) Bucket.content fun b =>
    b.key = none := by
  refine ⟨fun b c hb hc => ?_, fun b _ hb _ => hb⟩
  simp [Bucket.content, zendHashBucketPackedSwap, hb, hc]

lemma exchanges_renumSwap :
    Exchanges (zendHashBucketRenumSwap (K := K) (V := V)) Bucket.val fun _ => True :=
  ⟨fun _ _ _ _ => rfl, fun _ _ _ _ => trivial⟩

section exchange

variable {take : Bucket K V → Bucket K V → Bucket K V} {part : Bucket K V → α}
  {P : Bucket K V → Prop} (hex : Exchanges take part P) {arData : ℕ → Bucket K V}

include hex

lemma Exchanges.swapBuckets (hP : ∀ i, P (arData i)) {a : ℤ → α}
    (ha : ∀ k : ℕ, part (arData k) = a k) (p q : ℕ) :
    (∀ i, P (swapBuckets take arData p q i)) ∧
      ∀ k : ℕ, part (swapBuckets take arData p q k) = swapAt a p q k := by
  refine ⟨fun i => ?_, fun k => ?_⟩
  · exact swapBuckets_forall (n := p + q + i + 1) hex.keeps (by omega) (by omega)
      (fun j _ => hP j) i
      (by omega)
  · rw [ZendHash.swapBuckets]
    by_cases hq : k = q
    · subst hq
      rw [update_self, swapAt_right, hex.part_eq _ _ (hP k) (hP p), ha]
    · rw [update_of_ne hq]
      by_cases hp : k = p
      · subst hp
        rw [update_self, swapAt_left, hex.part_eq _ _ (hP k) (hP q), ha]
      · rw [update_of_ne hp, swapAt_of_ne (by omega) (by omega), ha]

lemma Exchanges.foldl (hP : ∀ i, P (arData i)) {a : ℤ → α}
    (ha : ∀ k : ℕ, part (arData k) = a k) (l : List (ℕ × ℕ)) :
    ∀ k : ℕ, part (l.foldl (fun arData pq => ZendHash.swapBuckets take arData pq.1 pq.2) arData k) =
      l.foldl (fun a pq => swapAt a pq.1 pq.2) a k := by
  induction l generalizing arData a with
  | nil => exact ha
  | cons pq l ih =>
    obtain ⟨hP', ha'⟩ := hex.swapBuckets hP ha pq.1 pq.2
    exact ih hP' ha'

/-- **What a sort function exchanges is rearranged.** -/
theorem SortFunc.sort_permOn (f : SortFunc K V) (hP : ∀ i, P (arData i)) (n : ℕ) :
    ((range n).map fun k => part (f.sort take arData n k)).Perm
      ((range n).map fun k => part (arData k)) := by
  refine (f.sort_induction (Q := fun a => (∀ i, P (a i)) ∧ ((range n).map fun k => part (a k)).Perm
    ((range n).map fun k => part (arData k))) ⟨hP, .refl _⟩ fun a p q hp hq ha => ?_).2
  obtain ⟨hP', ha'⟩ := hex.swapBuckets ha.1 (a := fun k => part (a k.toNat)) (fun k => by simp) p q
  have hpr := (PermOn.swapAt (S := Set.Ico 0 (n : ℤ)) (i := p) (j := q) (fun k => part (a k.toNat))
    ⟨by omega, by omega⟩ ⟨by omega, by omega⟩).perm_map_range
  simp only [← ha'] at hpr
  exact ⟨hP', hpr.trans ha.2⟩

end exchange

/-- The exchanges of `f` leave the array as the sort function leaves it that compares and exchanges
what `part` reads. -/
def SortFunc.Performs (f : SortFunc K V) (sort : EngineSort)
    (take : Bucket K V → Bucket K V → Bucket K V) (part : Bucket K V → α) (compar : α → α → ℤ)
    (arData : ℕ → Bucket K V) (n : ℕ) : Prop :=
  ∃ m', sort.run ⟨n, fun _ => compar⟩ ⟨fun k => part (arData k.toNat), 0⟩ = .ok ((), m') ∧
    ∀ k : ℕ, k < n → part (f.sort take arData n k) = m'.arr k

section performs

variable {take : Bucket K V → Bucket K V → Bucket K V} {part : Bucket K V → α}
  {compar : α → α → ℤ} {arData : ℕ → Bucket K V} {n : ℕ}

lemma exists_performs (sort : EngineSort) {P : Bucket K V → Prop} (hex : Exchanges take part P)
    (hP : ∀ i, P (arData i)) (compar : α → α → ℤ) (hn : n < 2 ^ 64) :
    ∃ f : SortFunc K V, f.Performs sort take part compar arData n := by
  obtain ⟨_, m', hr, hp, -⟩ := sort.run_sorts (c := ⟨n, fun _ => compar⟩) (fun _ _ => True)
    ⟨fun k => part (arData k.toNat), 0⟩ hn
  obtain ⟨l, hl, hfl⟩ := hp.exists_swaps
  refine ⟨⟨fun _ n' => if n' = n then l else [], fun _ n' pq hpq => ?_⟩, m', hr, fun k _ => ?_⟩
  · split_ifs at hpq with heq
    · exact heq ▸ hl pq hpq
    · exact absurd hpq not_mem_nil
  · simp only [hfl, SortFunc.sort]
    exact hex.foldl hP (fun k => by simp) l k

lemma SortFunc.Performs.ordered {f : SortFunc K V} {sort : EngineSort}
    (h : f.Performs sort take part compar arData n) (hn : n < 2 ^ 64)
    (hcm : TotalPreorder fun x y => compar x y ≤ 0) {i j : ℕ} (hij : i < j) (hj : j < n) :
    compar (part (f.sort take arData n i)) (part (f.sort take arData n j)) ≤ 0 := by
  obtain ⟨m', hr, hl⟩ := h
  obtain ⟨_, m'', hr', -, hs⟩ := sort.run_sorts (c := ⟨n, fun _ => compar⟩)
    (fun x y => compar x y ≤ 0) ⟨fun k => part (arData k.toNat), 0⟩ hn
  obtain rfl : m' = m'' := by simpa [hr] using hr'
  rw [hl i (by omega), hl j hj]
  exact hs (ordered_of_totalPreorder hcm) i j (by omega) (by omega) (Int.ofNat_lt.mpr hj)

end performs

/-! ## The buckets that are sorted -/

/-- The buckets that are handed to the sort function, and their number. Source: `zend_hash.c`
`zend_hash_sort_ex`. -/
def sortBuckets (ht : HashTable K V) : (ℕ → Bucket K V) × ℕ :=
  if ht.isWithoutHoles then (ht.arData, ht.nNumUsed) else sortCompact ht.nNumUsed 0 0 ht.arData

/-- The swap function that is handed to it. Source: `zend_hash.c` `zend_hash_sort_ex`. -/
def sortSwap (renumber packed : Bool) : Bucket K V → Bucket K V → Bucket K V :=
  if renumber then zendHashBucketRenumSwap
  else if packed then zendHashBucketPackedSwap else zendHashBucketSwap

/-- The entry that contents stand for. -/
def entryOf (c : BitVec 64 × Option K × Option V) : Option (HashKey K × V) :=
  c.2.2.map fun v => (hashKeyOf c.1 c.2.1, v)

lemma exchanges_sortSwap (packed : Bool) :
    Exchanges (sortSwap (K := K) (V := V) false packed) Bucket.content
      fun b => packed = true → b.key = none := by
  cases packed with
  | true =>
    refine ⟨fun b c hb hc => ?_, fun b c hb hc _ => ?_⟩
    · exact exchanges_packedSwap.part_eq b c (hb rfl) (hc rfl)
    · exact exchanges_packedSwap.keeps b c (hb rfl) (hc rfl)
  | false => exact ⟨fun _ _ _ _ => rfl, fun _ _ _ _ h => by cases h⟩

section buckets

variable {ht : HashTable K V} (hwf : ht.Wf)
include hwf

lemma sortBuckets_snd : (sortBuckets ht).2 = ht.nNumOfElements := by
  rw [hwf.count]
  exact (sortCompact_table hwf).rank.symm

lemma exists_sortBuckets {j : ℕ} (hj : j < ht.nNumOfElements) :
    ∃ k < ht.nNumUsed, ht.live k ∧ (sortBuckets ht).1 j = ht.arData k := by
  rw [hwf.count] at hj
  obtain ⟨k, hk, hl, hc⟩ := exists_count_eq hj
  exact ⟨k, hk, hl, hc ▸ (sortCompact_table hwf).moved k hk hl⟩

lemma gather_sortBuckets (r : Bucket K V → Option α)
    (hr : ∀ i, (r (ht.arData i)).isSome = true ↔ ht.live i) :
    gather (fun i => r ((sortBuckets ht).1 i)) ht.nNumOfElements =
      gather (fun i => r (ht.arData i)) ht.nNumUsed := by
  rw [hwf.count]
  refine gather_compact ht.live (fun i _ => hr i) fun i hi hl => ?_
  exact congrArg r ((sortCompact_table hwf).moved i hi hl)

lemma sortBuckets_key (hp : ht.packed = true) (i : ℕ) : ((sortBuckets ht).1 i).key = none :=
  (sortCompact_table hwf).forall.2 (fun b => b.key = none) (hwf.packed_key hp) i

end buckets

lemma gather_perm {β : Type} {n : ℕ} {a b : ℕ → α} (r : α → Option β)
    (h : ((range n).map b).Perm ((range n).map a)) :
    (gather (fun i => r (b i)) n).Perm (gather (fun i => r (a i)) n) := by
  have hm := h.filterMap r
  rwa [filterMap_map, filterMap_map] at hm

/-! ## Without renumbering -/

section keep

variable (f : SortFunc K V) {hashVal : K → BitVec 64} {s : HashState K V} {t : OrderedTable K V}

lemma sortedTable_arData (ht : HashTable K V) : (sortedTable f false ht).arData =
      f.sort (sortSwap false ht.packed) (sortBuckets ht).1 (sortBuckets ht).2 := rfl

lemma content_sortedTable {ht : HashTable K V} (hwf : ht.Wf) :
    ((range ht.nNumOfElements).map fun k => ((sortedTable f false ht).arData k).content).Perm
      ((range ht.nNumOfElements).map fun k => ((sortBuckets ht).1 k).content) := by
  rw [sortedTable_arData, sortBuckets_snd hwf]
  exact f.sort_permOn (exchanges_sortSwap ht.packed) (fun i hp => sortBuckets_key hwf hp i) _

/-- **Compaction and sorting rearrange the entries.** -/
theorem walk_sortedTable {ht : HashTable K V} (hwf : ht.Wf) :
    (sortedTable f false ht).walk.Perm ht.walk := by
  have hp := gather_perm entryOf (content_sortedTable f hwf)
  have hw : gather (fun i => entryOf ((sortBuckets ht).1 i).content) ht.nNumOfElements = ht.walk :=
    gather_sortBuckets hwf (fun b => entryOf b.content) fun i => ht.entryAt_isSome i
  rw [hw] at hp
  rw [walk, (sortedTable_sorted f false hwf).used]
  exact hp

lemma str_hash_sortedTable (hr : Represents hashVal s.ht t) {i : ℕ}
    (hi : i < s.ht.nNumOfElements) {k : K}
    (hk : ((sortedTable f false s.ht).arData i).key = some k) :
    ((sortedTable f false s.ht).arData i).h = hashVal k := by
  have hm := (content_sortedTable f hr.wf).subset (mem_map_of_mem (mem_range.mpr hi))
  obtain ⟨j, hj, heq⟩ := mem_map.mp hm
  obtain ⟨k', hk', hl, hsr⟩ := exists_sortBuckets hr.wf (mem_range.mp hj)
  simp only [hsr, Bucket.content, Prod.mk.injEq] at heq
  rw [← heq.1]
  exact hr.keyed.str_hash k' hk' hl k (heq.2.1.trans hk)

lemma zendHashSortEx_rehash (hwf : s.ht.Wf) (hn : 1 < s.ht.nNumOfElements) :
    ∃ ht1, Copied (sortedTable f false s.ht) ht1 ∧ ht1.packed = false ∧
      zendHashSortEx f false s = zendHashRehash { s with ht := ht1 } := by
  have hsr := sortedTable_sorted f false hwf
  have hi := hsr.initialized hwf (by omega)
  rw [zendHashSortEx, if_neg (by omega)]
  cases hp : (sortedTable f false s.ht).packed with
  | true =>
    have hc := moveData_copied (sortedTable f false s.ht) (sortedTable f false s.ht).nTableSize
      (negU32 (sortedTable f false s.ht).nTableSize) false hi
    refine ⟨_, hc, rfl, ?_⟩
    simp only [hp, if_true]
    rfl
  | false =>
    refine ⟨_, ⟨fun _ _ => rfl, rfl, rfl, rfl, rfl, rfl, rfl, hi⟩, hp, ?_⟩
    simp [hp]

/-- **Without renumbering the map is kept**, in the order of the sorted buckets. -/
theorem zendHashSortEx_keeps (hrp : Represents hashVal s.ht t) (hn : 1 < s.ht.nNumOfElements) :
    ∃ hpr : (sortedTable f false s.ht).walk.Perm t.map.entries,
      Represents hashVal (zendHashSortEx f false s).ht (t.rearrange _ hpr) ∧
      (zendHashSortEx f false s).ht.nNumUsed = s.ht.nNumOfElements ∧
      (zendHashSortEx f false s).ht.nNumOfElements = s.ht.nNumOfElements ∧
      ∀ i < s.ht.nNumOfElements, (zendHashSortEx f false s).ht.content i =
        ((sortedTable f false s.ht).arData i).content := by
  have hsr := sortedTable_sorted f false hrp.wf
  obtain ⟨ht1, hcp, hp, heq⟩ := zendHashSortEx_rehash f hrp.wf hn
  have hu : ht1.nNumUsed = s.ht.nNumOfElements := hcp.nNumUsed.trans hsr.used
  have hl : ∀ i < s.ht.nNumOfElements, ht1.live i := fun i hi => by
    rw [← hsr.used] at hi
    exact (hcp.live hi).mpr (hsr.live i hi)
  have hre : Rehashed ht1 (zendHashSortEx f false s).ht := by
    rw [heq]
    refine zendHashRehash_spec { s with ht := ht1 } ?_ fun hi =>
      absurd (hcp.initialized.symm.trans hi) (by decide)
    rw [hcp.nNumOfElements, hcp.nNumUsed, hcp.rank le_rfl]
    exact hsr.count
  have hr : ∀ i ≤ s.ht.nNumOfElements, count ht1.live i = i := fun i hi =>
    count_iff_forall.mpr fun j hj => hl j (by omega)
  have hc : ∀ i < s.ht.nNumOfElements, ht1.content i =
      ((sortedTable f false s.ht).arData i).content := fun i hi =>
    hcp.content (hsr.used ▸ hi)
  refine ⟨hrp.walk ▸ walk_sortedTable f hrp.wf, ?_, ?_, ?_, fun i hi => ?_⟩
  · refine Represents.rehashed ?_ ?_ ?_ hre (zendHashSortEx_wf f false hrp.wf) fun hp' => ?_
    · rw [walk, hcp.nNumUsed]
      exact gather_congr fun i hi => entryAt_congr (hcp.content hi)
    · intro i hi _ k hk
      rw [hu] at hi
      rw [hcp.data i (hsr.used ▸ hi)] at hk ⊢
      exact str_hash_sortedTable f hrp hi hk
    · rw [hcp.nNextFreeElement]
      exact hrp.next
    · rw [hre.header.packed, hp] at hp'
      cases hp'
  · rw [hre.used, hu, hr _ le_rfl]
  · rw [hre.header.nNumOfElements, hcp.nNumOfElements]
    exact hsr.header.nNumOfElements
  · rw [← hc i hi, ← hre.moved i (hu ▸ hi) (hl i hi), hr i hi.le]

end keep

/-! ## With renumbering -/

section renumber

variable (f : SortFunc K V) {hashVal : K → BitVec 64} {s : HashState K V} {t : OrderedTable K V}

/-- The value of bucket `i` after sorting. -/
def sortedVal (ht : HashTable K V) (i : ℕ) : Option V :=
  (f.sort (sortSwap true ht.packed) (sortBuckets ht).1 (sortBuckets ht).2 i).val

/-- The values after sorting. -/
def sortedValues (ht : HashTable K V) : List V := gather (sortedVal f ht) ht.nNumOfElements

lemma isSome_sortedVal {ht : HashTable K V} (hwf : ht.Wf) :
    ∀ i < ht.nNumOfElements, (sortedVal f ht i).isSome = true := by
  rw [← sortBuckets_snd hwf]
  exact f.sort_forall (P := fun b => b.val.isSome = true) (fun _ _ _ hc => hc)
    (sortCompact_table hwf).forall.1

lemma length_sortedValues {ht : HashTable K V} (hwf : ht.Wf) :
    (sortedValues f ht).length = ht.nNumOfElements := by
  rw [sortedValues, length_gather]
  exact count_iff_forall.mpr (isSome_sortedVal f hwf)

lemma sortedValues_perm {ht : HashTable K V} (hwf : ht.Wf) :
    (sortedValues f ht).Perm (ht.walk.map Prod.snd) := by
  have hsr : ((range ht.nNumOfElements).map fun k =>
        (f.sort zendHashBucketRenumSwap (sortBuckets ht).1 ht.nNumOfElements k).val).Perm
      ((range ht.nNumOfElements).map fun k => ((sortBuckets ht).1 k).val) :=
    f.sort_permOn exchanges_renumSwap (fun _ => trivial) _
  have hp := gather_perm id hsr
  have hs : gather (fun i => ((sortBuckets ht).1 i).val) ht.nNumOfElements =
      gather (fun i => (ht.arData i).val) ht.nNumUsed :=
    gather_sortBuckets hwf Bucket.val fun _ => Iff.rfl
  have hw : gather (fun i => (ht.arData i).val) ht.nNumUsed = ht.walk.map Prod.snd := by
    refine gather_map Prod.snd fun i _ => ?_
    simp [entryAt]
  rw [← hw, ← hs, sortedValues]
  unfold sortedVal
  rw [sortBuckets_snd hwf]
  exact hp

/-- **The renumbered table**, whichever layout it had. -/
theorem zendHashSortEx_layout (hr : Represents hashVal s.ht t) (hn : 0 < s.ht.nNumOfElements) :
    (zendHashSortEx f true s).ht.packed = true ∧
      (zendHashSortEx f true s).ht.nNumUsed = s.ht.nNumOfElements ∧
      (zendHashSortEx f true s).ht.nNumOfElements = s.ht.nNumOfElements ∧
      (zendHashSortEx f true s).ht.nNextFreeElement = BitVec.ofNat 64 s.ht.nNumOfElements ∧
      (∀ i, (zendHashSortEx f true s).ht.hash i = htInvalidIdx) ∧
      ∀ i < s.ht.nNumOfElements, (zendHashSortEx f true s).ht.content i =
        (BitVec.ofNat 64 i, none, sortedVal f s.ht i) := by
  have hu := sortBuckets_snd hr.wf
  have hc : ∀ i < s.ht.nNumOfElements, (sortedTable f true s.ht).content i =
      (BitVec.ofNat 64 i, none, sortedVal f s.ht i) := by
    intro i hi
    have hlt : i < (sortBuckets s.ht).2 := hu ▸ hi
    change ((renumberBuckets _ (sortBuckets s.ht).2 i).content : BitVec 64 × Option K × Option V) =
        _
    rw [renumberBuckets, if_pos hlt]
    rfl
  have hnx : (sortedTable f true s.ht).nNextFreeElement = BitVec.ofNat 64 s.ht.nNumOfElements :=
    congrArg (BitVec.ofNat 64) hu
  rw [zendHashSortEx, if_neg (by simp [hn])]
  cases hp : s.ht.packed with
  | true =>
    have hp' : (sortedTable f true s.ht).packed = true := hp
    simp only [hp', if_true]
    exact ⟨trivial, hu, rfl, hnx, hr.keyed.packed_hash hp, hc⟩
  | false =>
    have hp' : (sortedTable f true s.ht).packed = false := hp
    simp only [hp']
    refine ⟨rfl, hu, rfl, hnx, fun _ => rfl, fun i hi => ?_⟩
    rw [← hc i hi]
    exact content_congr (if_pos (show i < (sortBuckets s.ht).2 from hu ▸ hi))

/-- **With renumbering the table becomes the list of its values.** -/
theorem zendHashSortEx_renumbers (hr : Represents hashVal s.ht t) (hn : 0 < s.ht.nNumOfElements)
    (hln : (sortedValues f s.ht).length < 2 ^ 63) :
    Represents hashVal (zendHashSortEx f true s).ht (.ofList (sortedValues f s.ht) hln) := by
  obtain ⟨hp, hu, -, hnx, hh, hcn⟩ := zendHashSortEx_layout f hr hn
  have hl := length_sortedValues f hr.wf
  have hpr : ∀ i < (zendHashSortEx f true s).ht.nNumUsed,
      ((zendHashSortEx f true s).ht.arData i).h = BitVec.ofNat 64 i ∧
        ((zendHashSortEx f true s).ht.arData i).key = none := by
    intro i hi
    have hc := hcn i (hu ▸ hi)
    simp only [content, Prod.mk.injEq] at hc
    exact ⟨hc.1, hc.2.1⟩
  refine ⟨zendHashSortEx_wf f true hr.wf, ⟨?_, ?_, fun _ => hh⟩, ?_, ?_⟩
  · intro i hi _ k hk
    rw [(hpr i hi).2] at hk
    cases hk
  · intro _ i hi _
    rw [(hpr i (hu ▸ hi)).1, BitVec.toNat_ofNat, mod_eq_of_lt (by omega)]
  · -- both sides hold the same entry at every position
    change _ = listEntries _
    rw [walk, hu]
    have hen : ∀ i < s.ht.nNumOfElements, (zendHashSortEx f true s).ht.entryAt i =
        (sortedVal f s.ht i).map fun v => (.index (BitVec.ofNat 64 i), v) := fun i hi =>
      congrArg entryOf (hcn i hi)
    have hsm : ∀ i < s.ht.nNumOfElements,
      ((zendHashSortEx f true s).ht.entryAt i).isSome = true := by
      intro i hi
      rw [hen i hi, Option.isSome_map]
      exact isSome_sortedVal f hr.wf i hi
    refine ext_getElem? fun i => ?_
    rcases lt_or_ge i s.ht.nNumOfElements with hi | hi
    · rw [getElem?_gather_of_forall hsm hi, hen i hi, listEntries, getElem?_map,
        getElem?_zipIdx, sortedValues, getElem?_gather_of_forall (isSome_sortedVal f hr.wf) hi]
      cases sortedVal f s.ht i <;> simp
    · rw [getElem?_eq_none, getElem?_eq_none]
      · rw [listEntries, length_map, length_zipIdx, hl]
        exact hi
      · rw [length_gather]
        exact (count_le _).trans hi
  · rw [hnx]
    change _ = ((sortedValues f s.ht).length : ℤ)
    rw [BitVec.toInt_eq_toNat_bmod, BitVec.toNat_ofNat, mod_eq_of_lt (by omega), hl]
    exact Int.bmod_eq_of_le (by omega) (by omega)

end renumber

/-! ## The result -/

section result

variable [DecidableEq K] {hashVal : K → BitVec 64} {s : HashState K V} {t : OrderedTable K V}

/-- **`zend_hash_sort_ex` sorts.** With renumbering off, a table of two elements or more has the
same entries in the order of the comparison, and every key is found as before. With renumbering on,
and a comparison of values, a table with elements is packed and holds the values in the order of the
comparison under `0`, `1`, …, and nothing else. In both cases there are no holes. A table with fewer
elements stays as it is. -/
theorem zendHashSortEx_sorts (hrep : Represents hashVal s.ht t) (sort : EngineSort)
    (f : SortFunc K V) :
    (s.ht.nNumOfElements ≤ 1 → zendHashSortEx f false s = s) ∧
    (s.ht.nNumOfElements = 0 → zendHashSortEx f true s = s) ∧
    (1 < s.ht.nNumOfElements → ∀ compar, TotalPreorder (fun x y => compar x y ≤ 0) →
      f.Performs sort (sortSwap false s.ht.packed) Bucket.content compar (sortBuckets s.ht).1
        (sortBuckets s.ht).2 →
      ∃ t', Represents hashVal (zendHashSortEx f false s).ht t' ∧
        t'.map.entries.Perm t.map.entries ∧ t'.nextFree = t.nextFree ∧
        (∀ i j, i < j → j < s.ht.nNumOfElements →
          compar ((zendHashSortEx f false s).ht.content i)
            ((zendHashSortEx f false s).ht.content j) ≤ 0) ∧
        (zendHashSortEx f false s).ht.nNumUsed = s.ht.nNumOfElements ∧
        (zendHashSortEx f false s).ht.nNumOfElements = s.ht.nNumOfElements ∧
        (∀ key, zendHashFind hashVal (zendHashSortEx f false s).ht key =
          .ok (t.map.lookup (.str key))) ∧
        ∀ h, zendHashIndexFind (zendHashSortEx f false s).ht h = .ok (t.map.lookup (.index h))) ∧
    (0 < s.ht.nNumOfElements → ∀ compar, TotalPreorder (fun x y => compar x y ≤ 0) →
      f.Performs sort (sortSwap true s.ht.packed) Bucket.val compar (sortBuckets s.ht).1
        (sortBuckets s.ht).2 →
      ∃ vs hlen, Represents hashVal (zendHashSortEx f true s).ht (.ofList vs hlen) ∧
        vs.Perm (t.map.entries.map Prod.snd) ∧
        vs.Pairwise (fun v w => compar (some v) (some w) ≤ 0) ∧
        (zendHashSortEx f true s).ht.packed = true ∧
        (zendHashSortEx f true s).ht.nNumUsed = s.ht.nNumOfElements ∧
        (zendHashSortEx f true s).ht.nNumOfElements = s.ht.nNumOfElements ∧
        (zendHashSortEx f true s).ht.nNextFreeElement = BitVec.ofNat 64 s.ht.nNumOfElements ∧
        (∀ key, zendHashFind hashVal (zendHashSortEx f true s).ht key = .ok none) ∧
        ∀ h, zendHashIndexFind (zendHashSortEx f true s).ht h = .ok vs[h.toNat]?) := by
  have hn : s.ht.nNumOfElements < 2 ^ 32 := by
    have hle : s.ht.nNumOfElements ≤ s.ht.nNumUsed := hrep.wf.count ▸ count_le _
    have := hrep.wf.used_le
    have := hrep.wf.size_le
    omega
  have hu := sortBuckets_snd hrep.wf
  refine ⟨fun hle => ?_, fun hz => ?_, fun hlt compar hcm hpr => ?_, fun hps compar hcm hpr => ?_⟩
  · rw [zendHashSortEx, if_pos ⟨by omega, by simp⟩]
  · rw [zendHashSortEx, if_pos ⟨by omega, by omega⟩]
  · obtain ⟨hpm, hr', hu', hel, hc⟩ := zendHashSortEx_keeps f hrep hlt
    refine ⟨_, hr', hpm, rfl, fun i j hij hj => ?_, hu', hel, fun key => ?_, fun h => ?_⟩
    · rw [hc i (by omega), hc j hj]
      exact hpr.ordered (by omega) hcm hij (by omega)
    · rw [hr'.find, lookup_rearrange]
    · rw [hr'.indexFind, lookup_rearrange]
  have hl := length_sortedValues f hrep.wf
  have hlen : (sortedValues f s.ht).length < 2 ^ 63 := by omega
  have hr' := zendHashSortEx_renumbers f hrep hps hlen
  obtain ⟨hp, hu', hel, hnx, -, -⟩ := zendHashSortEx_layout f hrep hps
  refine ⟨_, hlen, hr', hrep.walk ▸ sortedValues_perm f hrep.wf, ?_, hp, hu', hel, hnx,
    fun key => ?_, fun h => ?_⟩
  · -- the values at two positions are those of two sorted buckets
    rw [pairwise_iff_getElem]
    intro i j hi hj hij
    have hg : ∀ k (hk : k < (sortedValues f s.ht).length),
        some (sortedValues f s.ht)[k] = sortedVal f s.ht k := fun k hk => by
      rw [← getElem?_eq_getElem hk]
      exact getElem?_gather_of_forall (isSome_sortedVal f hrep.wf) (by omega)
    rw [hg i hi, hg j hj]
    exact hpr.ordered (by omega) hcm hij (by omega)
  · rw [hr'.find, lookup_ofList_str]
  · rw [hr'.indexFind, lookup_ofList_index]

end result

lemma totalPreorder_of_key {β : Type} (g : β → ℤ) : TotalPreorder fun x y => g x - g y ≤ 0 :=
  ⟨fun x y => by omega, fun x y z h1 h2 => by omega⟩

/-- A packed table with a hole, sorted by value. -/
theorem zendHashSortEx_sorts_hole :
    ∃ (s : HashState ℕ ℕ) (t t' : OrderedTable ℕ ℕ) (f : SortFunc ℕ ℕ),
      s.ht.nNumUsed = 3 ∧ s.ht.nNumOfElements = 2 ∧ Represents (fun _ => 3) s.ht t ∧
      Represents (fun _ => 3) (zendHashSortEx f false s).ht t' ∧
      t'.map.entries.Perm t.map.entries ∧
      ((zendHashSortEx f false s).ht.content 0).2.2.getD 0 ≤
        ((zendHashSortEx f false s).ht.content 1).2.2.getD 0 := by
  let ops : List (HashOp ℕ ℕ) := [.indexAdd 0 30, .indexAdd 1 10, .indexAdd 2 20, .indexDel 1]
  rcases run_represents (fun _ => 3) (s := ⟨⟨[], 0⟩, _⟩) ops
    (zendHashInit_represents (rfl : zendHashInit 4096 8 = .ok _)) (by decide) with
    ⟨her, -⟩ | ⟨s, hok, hrp⟩
  · cases her
  have hu : 3 = s.ht.nNumUsed :=
    Except.ok.inj (congrArg (Except.map fun r : HashState ℕ ℕ × List (Outcome ℕ) =>
      r.1.ht.nNumUsed) hok)
  have hel : 2 = s.ht.nNumOfElements :=
    Except.ok.inj (congrArg (Except.map fun r : HashState ℕ ℕ × List (Outcome ℕ) =>
      r.1.ht.nNumOfElements) hok)
  let value : BitVec 64 × Option ℕ × Option ℕ → ℤ := fun c => (c.2.2.getD 0 : ℕ)
  obtain ⟨f, hpr⟩ := exists_performs .zendSort (exchanges_sortSwap s.ht.packed)
    (fun i hp => sortBuckets_key hrp.wf hp i) (fun x y => value x - value y)
    (n := (sortBuckets s.ht).2) (by rw [sortBuckets_snd hrp.wf]; omega)
  obtain ⟨-, -, hk, -⟩ := zendHashSortEx_sorts hrp .zendSort f
  obtain ⟨t', hrp', hpm, -, hs, -⟩ := hk (by omega) _ (totalPreorder_of_key value) hpr
  refine ⟨s, _, t', f, hu.symm, hel.symm, hrp, hrp', hpm, ?_⟩
  have h01 := hs 0 1 (by omega) (by omega)
  simp only [value] at h01
  omega

/-! ## What does not hold -/

/-- The exchanges of `zend_insert_sort` on two and on three buckets (`zend_sort_2` and
`zend_sort_3`), for any comparison of buckets and any swap function. -/
def insertSortSwaps (compar : Bucket K V → Bucket K V → ℤ)
    (take : Bucket K V → Bucket K V → Bucket K V) (arData : ℕ → Bucket K V) : ℕ → List (ℕ × ℕ)
  | 2 => if 0 < compar (arData 0) (arData 1) then [(0, 1)] else []
  | 3 =>
    if 0 < compar (arData 0) (arData 1) then
      if 0 < compar (arData 2) (arData 1) then
        let arData := swapBuckets take arData 0 1
        if 0 < compar (arData 1) (arData 2) then [(0, 1), (1, 2)] else [(0, 1)]
      else [(0, 2)]
    else if 0 < compar (arData 1) (arData 2) then
      let arData := swapBuckets take arData 1 2
      if 0 < compar (arData 0) (arData 1) then [(1, 2), (0, 1)] else [(1, 2)]
    else []
  | _ => []

/-- `zend_insert_sort` on two and on three buckets. -/
def smallSort (compar : Bucket K V → Bucket K V → ℤ)
    (take : Bucket K V → Bucket K V → Bucket K V) : SortFunc K V where
  swaps := insertSortSwaps compar take
  in_range := by
    intro arData n pq hpq
    match n with
    | 2 =>
      simp only [insertSortSwaps] at hpq
      split_ifs at hpq <;> simp at hpq
      simp [hpq]
    | 3 =>
      simp only [insertSortSwaps] at hpq
      split_ifs at hpq <;> simp at hpq
      all_goals rcases hpq with rfl | rfl <;> simp
    | 0 | 1 | n + 4 => simp [insertSortSwaps] at hpq

/-- **Where a sort does less than one may think.** A key of the old table can be a key of the
renumbered one. A table with one element keeps its holes when it is not renumbered. And a comparison
of keys goes wrong with renumbering, since only values are exchanged: the values under `2`, `3`, `1`
end up in the order `20`, `10`, `30`. -/
theorem zendHashSortEx_limits :
    (∃ (ht : HashTable ℕ ℕ) (s : HashState ℕ ℕ) (os : List (Outcome ℕ)),
      zendHashInit 4096 8 = .ok ht ∧
      run (fun _ => 3) ⟨⟨[], 0⟩, ht⟩ [.indexAdd 0 20, .indexAdd 1 10] = .ok (s, os) ∧
      zendHashIndexFind (zendHashSortEx
      (smallSort (fun p q : Bucket ℕ ℕ => (p.val.getD 0 : ℤ) - q.val.getD 0)
        zendHashBucketRenumSwap) true s).ht 0 = .ok (some 10)) ∧
    (∃ (ht : HashTable ℕ ℕ) (s : HashState ℕ ℕ) (os : List (Outcome ℕ)),
      zendHashInit 4096 8 = .ok ht ∧
      run (fun _ => 3) ⟨⟨[], 0⟩, ht⟩ [.indexAdd 0 10, .indexAdd 1 20, .indexDel 0] =
        .ok (s, os) ∧
      ∀ f : SortFunc ℕ ℕ, (zendHashSortEx f false s).ht.nNumUsed = 2 ∧
        (zendHashSortEx f false s).ht.nNumOfElements = 1) ∧
    ∃ (ht : HashTable ℕ ℕ) (s : HashState ℕ ℕ) (os : List (Outcome ℕ)),
      zendHashInit 4096 8 = .ok ht ∧
      run (fun _ => 3) ⟨⟨[], 0⟩, ht⟩ [.indexAdd 2 20, .indexAdd 3 30, .indexAdd 1 10] =
        .ok (s, os) ∧
      (zendHashSortEx (smallSort (fun p q => p.h.toInt - q.h.toInt) zendHashBucketRenumSwap)
        true s).ht.walk = [(.index 0, 20), (.index 1, 10), (.index 2, 30)] :=
  ⟨⟨_, _, _, rfl, rfl, rfl⟩, ⟨_, _, _, rfl, rfl, fun _ => ⟨rfl, rfl⟩⟩,
    ⟨_, _, _, rfl, rfl, by decide⟩⟩

end PhpInternals.Zend.ZendHash

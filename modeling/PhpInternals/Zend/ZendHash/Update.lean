import PhpInternals.Zend.ZendHash.Access

/-!
# What the operations do to a table

Four relations say once what the operations can do; the later files derive every invariant from
them and never unfold an operation again.

Each relation comes with the theorem that the operation realises it (`addToHash_appended`,
`addToPacked_appended`, `setVal_overwritten`, `zendHashDelElEx_removed`) and keeps
`HashTable.Wf`.
-/

namespace PhpInternals.Zend.ZendHash

open Function HashTable Nat PhpInternals.Found

variable {K V : Type}

/-! ## Rebuilding -/

/-- `ht₁` holds the used buckets of `ht` and the same elements, in another memory block. -/
structure Copied (ht ht₁ : HashTable K V) : Prop where
  data : ∀ i < ht.nNumUsed, ht₁.arData i = ht.arData i
  addr : ht₁.addr = ht.addr
  nIteratorsCount : ht₁.nIteratorsCount = ht.nIteratorsCount
  nNumUsed : ht₁.nNumUsed = ht.nNumUsed
  nNumOfElements : ht₁.nNumOfElements = ht.nNumOfElements
  nInternalPointer : ht₁.nInternalPointer = ht.nInternalPointer
  nNextFreeElement : ht₁.nNextFreeElement = ht.nNextFreeElement
  initialized : ht₁.initialized = true

namespace Copied

variable {ht ht₁ : HashTable K V}

section

variable (h : Copied ht ht₁)
include h

lemma content {i : ℕ} (hi : i < ht.nNumUsed) : ht₁.content i = ht.content i :=
  content_congr (h.data i hi)

lemma live {i : ℕ} (hi : i < ht.nNumUsed) : ht₁.live i ↔ ht.live i := live_congr (h.content hi)

lemma rank {i : ℕ} (hi : i ≤ ht.nNumUsed) : count ht₁.live i = count ht.live i :=
  count_congr fun j hj => h.live (by omega)

lemma count (hwf : ht.Wf) : ht₁.nNumOfElements = count ht₁.live ht₁.nNumUsed := by
  rw [h.nNumOfElements, h.nNumUsed, h.rank le_rfl, hwf.count]

end

end Copied

/-- **A silent step**: the memory of the table is copied and, unless it stays as it was, rehashed.
-/
inductive Silent (s : HashState K V) : HashState K V → Prop
  /-- A copy that keeps the layout (packed growth) or lays out a table without elements. -/
  | copy (ht₁ : HashTable K V) (hcopy : Copied s.ht ht₁) (hwf : ht₁.Wf)
      (hpacked : ht₁.packed = true → ht₁.hash = s.ht.hash ∧ s.ht.packed = true ∨
        (∀ i, ht₁.hash i = htInvalidIdx) ∧ s.ht.nNumUsed = 0) : Silent s { s with ht := ht₁ }
  /-- A copy that is rehashed. -/
  | rehash (ht₁ : HashTable K V) (hcopy : Copied s.ht ht₁) (hpacked : ht₁.packed = false)
      (hwf : (zendHashRehash { s with ht := ht₁ }).ht.Wf) :
      Silent s (zendHashRehash { s with ht := ht₁ })

lemma Silent.wf {s s' : HashState K V} (h : Silent s s') : s'.ht.Wf := by
  cases h with
  | copy _ _ hwf _ | rehash _ _ _ hwf => exact hwf

lemma Copied.rehashed {s : HashState K V} {ht₁ : HashTable K V} (hwf : s.ht.Wf)
    (h : Copied s.ht ht₁) : Rehashed ht₁ (zendHashRehash { s with ht := ht₁ }).ht := by
  refine zendHashRehash_spec { s with ht := ht₁ } (h.count hwf) fun hi => ?_
  have := h.initialized
  rw [hi] at this
  cases this

lemma Copied.rehash_header {s : HashState K V} {ht₁ : HashTable K V} (hwf : s.ht.Wf)
    (h : Copied s.ht ht₁) :
    (zendHashRehash { s with ht := ht₁ }).ht.nNumUsed = s.ht.nNumOfElements ∧
      SameHeader ht₁ (zendHashRehash { s with ht := ht₁ }).ht := by
  have hre := h.rehashed hwf
  refine ⟨?_, hre.header⟩
  rw [hre.used, h.nNumUsed, h.rank le_rfl, hwf.count]

lemma Copied.rehash_wf {s : HashState K V} {ht₁ : HashTable K V} (hwf : s.ht.Wf)
    (h : Copied s.ht ht₁) (hp : ht₁.packed = false) (hle : s.ht.nTableSize ≤ ht₁.nTableSize)
    (hsz : ht₁.nTableSize ≤ 2 ^ 32 - 2) : (zendHashRehash { s with ht := ht₁ }).ht.Wf := by
  refine (h.rehashed hwf).wf (h.count hwf) (by rw [h.nNumUsed]; exact hwf.used_le.trans hle) hsz
    (hwf.size_pos.trans_le hle) ?_ ?_
  · intro hi
    exact absurd (h.initialized.symm.trans hi) (by decide)
  · intro hp'
    exact absurd (hp.symm.trans hp') (by decide)

lemma le_smear (n k : ℕ) : n ≤ smear n k := left_le_or

lemma smear_lt {n w : ℕ} (k : ℕ) (h : n < 2 ^ w) : smear n k < 2 ^ w :=
  or_lt_two_pow h (lt_of_le_of_lt (shiftRight_le n k) h)

lemma zendHashCheckSize_spec {nSize n : ℕ} (h : zendHashCheckSize nSize = .ok n) :
    nSize ≤ n ∧ n ≤ 2 ^ 31 ∧ 0 < n := by
  have key : ∀ m, 0 < m → m < 2 ^ 31 →
      m ≤ zendHashCheckSize.roundUp m ∧ zendHashCheckSize.roundUp m ≤ 2 ^ 31 := by
    intro m hm hlt
    unfold zendHashCheckSize.roundUp
    constructor
    · have hle := (le_smear (m - 1) 1).trans ((le_smear _ 2).trans ((le_smear _ 4).trans
        ((le_smear _ 8).trans (le_smear _ 16))))
      omega
    · exact smear_lt 16 (smear_lt 8 (smear_lt 4 (smear_lt 2 (smear_lt 1 (by omega)))))
  unfold zendHashCheckSize at h
  split_ifs at h with h1 h2
  · cases h
    refine ⟨?_, by decide, by decide⟩
    exact h1.le.trans (by decide)
  · cases h
    simp only [htMinSize, htMaxSize, not_lt, not_le] at h1 h2
    obtain ⟨hl, hu⟩ := key nSize (by omega) (by omega)
    exact ⟨hl, hu, by omega⟩

lemma moveData_copied (ht : HashTable K V) (nSize nTableMask : ℕ) (packed : Bool)
    (hi : ht.initialized = true) :
    Copied ht (ht.moveData nSize nTableMask packed) where
  data := fun i hi => by simp [moveData, hi]
  addr := rfl
  nIteratorsCount := rfl
  nNumUsed := rfl
  nNumOfElements := rfl
  nInternalPointer := rfl
  nNextFreeElement := rfl
  initialized := hi

section Growth

variable {s s' : HashState K V}

section

variable (hwf : s.ht.Wf)
include hwf

lemma zendHashCheckInit_silent (hi : s.ht.initialized = false) (packed : Bool)
    (n : ℕ) (hn : n ≤ 2 ^ 32 - 2) (hps : 0 < n) :
    Silent s { s with ht := zendHashCheckInit { s.ht with nTableSize := n } packed } := by
  obtain ⟨hu, hp⟩ := hwf.uninit hi
  have hdd : ∀ ht : HashTable K V, ht.nNumUsed = s.ht.nNumUsed →
      s.ht.nNumOfElements = count ht.live ht.nNumUsed := by
    intro ht h
    rw [h, hu, count_zero, hwf.count, hu, count_zero]
  unfold zendHashCheckInit zendHashRealInitEx
  simp only [hi]
  cases packed with
  | true =>
    refine Silent.copy _ ⟨fun i h => absurd h (by omega), rfl, rfl, rfl, rfl, rfl, rfl, rfl⟩
      ⟨by simp [hu], hn, hps, hdd _ rfl, fun h => ?_, fun h => ?_, fun _ _ => rfl⟩
      fun _ => .inr ⟨fun _ => rfl, hu⟩
    · cases h
    · cases h
  | false =>
    refine Silent.copy _ ⟨fun i h => absurd h (by omega), rfl, rfl, rfl, rfl, rfl, rfl, rfl⟩
      ⟨by simp [hu], hn, hps, hdd _ rfl, fun h => ?_, fun _ => ?_, fun _ _ => rfl⟩
      fun _ => .inr ⟨fun _ => rfl, hu⟩
    · cases h
    · have : s.ht.nNumUsed = 0 := hu
      simp only [this]
      exact chained_zero fun _ => rfl

section

variable (hi : s.ht.initialized = true)
include hi

lemma moveData_silent
    (hp : s.ht.packed = true) {n : ℕ} (hn : n ≤ 2 ^ 32 - 2) (hle : s.ht.nTableSize ≤ n) :
    Silent s { s with ht := s.ht.moveData n s.ht.nTableMask s.ht.packed } := by
  have hc := moveData_copied s.ht n s.ht.nTableMask s.ht.packed hi
  refine Silent.copy _ hc ⟨hwf.used_le.trans hle, hn, hwf.size_pos.trans_le hle,
    hc.count hwf, fun h => ?_, fun h => ?_, fun _ i => ?_⟩ fun _ => .inl ⟨rfl, hp⟩
  · rw [hc.initialized] at h
    cases h
  · exact absurd (hp.symm.trans h) (by decide)
  · by_cases hlt : i < s.ht.nNumUsed
    · simp only [moveData, if_pos hlt]
      exact hwf.packed_key hp i
    · simp only [moveData, if_neg hlt]
      rfl

lemma zendHashPackedToHash_silent :
    Silent s (zendHashPackedToHash s) ∧ (zendHashPackedToHash s).ht.packed = false ∧
      (zendHashPackedToHash s).ht.initialized = true := by
  have hc := moveData_copied s.ht s.ht.nTableSize (negU32 s.ht.nTableSize) false hi
  have hhd := (hc.rehash_header hwf).2
  exact ⟨Silent.rehash _ hc rfl (hc.rehash_wf hwf rfl le_rfl hwf.size_le), hhd.packed,
    hhd.initialized.trans hi⟩

/-- `zend_hash_do_resize` makes room, or reports the overflow of a table of `HT_MAX_SIZE`. -/
lemma zendHashDoResize_spec (hp : s.ht.packed = false) :
    zendHashDoResize s = .error .overflow ∧ htMaxSize ≤ s.ht.nTableSize ∨
      ∃ s', zendHashDoResize s = .ok s' ∧ Silent s s' ∧ s'.ht.nNumUsed < s'.ht.nTableSize ∧
        s'.ht.packed = false ∧ s'.ht.initialized = true := by
  have hc : s.ht.nNumOfElements ≤ s.ht.nNumUsed := hwf.count ▸ count_le _
  have hle := hwf.used_le
  have hps := hwf.size_pos
  have room : ∀ ht₁ : HashTable K V, Copied s.ht ht₁ → ht₁.packed = false →
      s.ht.nTableSize ≤ ht₁.nTableSize → ht₁.nTableSize ≤ 2 ^ 32 - 2 →
      s.ht.nNumOfElements < ht₁.nTableSize →
      ∃ s', Except.ok (zendHashRehash { s with ht := ht₁ }) = (.ok s' : Except HashError _) ∧
        Silent s s' ∧ s'.ht.nNumUsed < s'.ht.nTableSize ∧ s'.ht.packed = false ∧
        s'.ht.initialized = true := by
    intro ht₁ hcp hp1 hle1 hsz hlt
    obtain ⟨hu, hhd⟩ := hcp.rehash_header hwf
    refine ⟨_, rfl, Silent.rehash ht₁ hcp hp1 (hcp.rehash_wf hwf hp1 hle1 hsz), ?_,
      hhd.packed.trans hp1, hhd.initialized.trans hcp.initialized⟩
    rw [hu, hhd.nTableSize]
    exact hlt
  unfold zendHashDoResize
  split_ifs with hdd hm
  · -- compaction: the live part is smaller than the used part
    exact .inr (room s.ht ⟨fun _ _ => rfl, rfl, rfl, rfl, rfl, rfl, rfl, hi⟩ hp le_rfl
      hwf.size_le (by omega))
  · -- doubling
    simp only [htMaxSize] at hm
    exact .inr (room _ (moveData_copied s.ht _ _ s.ht.packed hi) hp
      (by simp only [moveData]; omega) (by simp only [moveData]; omega)
      (by simp only [moveData]; omega))
  · exact .inl ⟨rfl, not_lt.mp hm⟩

lemma zendHashDoResize_silent
    (hp : s.ht.packed = false) {s' : HashState K V} (hok : zendHashDoResize s = .ok s') :
    Silent s s' := by
  rcases zendHashDoResize_spec hwf hi hp with ⟨her, -⟩ | ⟨s1, hok1, hsl, -⟩
  · cases her.symm.trans hok
  · cases hok1.symm.trans hok
    exact hsl

/-- **The resize check** of the insertion functions leaves a free bucket, or reports the overflow of
a table of `HT_MAX_SIZE`. -/
theorem zendHashIfFullDoResize_spec (hp : s.ht.packed = false) :
    zendHashIfFullDoResize s = .error .overflow ∧ htMaxSize ≤ s.ht.nTableSize ∨
      ∃ s', zendHashIfFullDoResize s = .ok s' ∧ (s' = s ∨ Silent s s') ∧
        s'.ht.nNumUsed < s'.ht.nTableSize ∧ s'.ht.packed = false ∧ s'.ht.initialized = true := by
  unfold zendHashIfFullDoResize
  split_ifs with hf
  · rcases zendHashDoResize_spec hwf hi hp with her | ⟨s', hok, hsl, hr⟩
    · exact .inl her
    · exact .inr ⟨s', hok, .inr hsl, hr⟩
  · exact .inr ⟨s, rfl, .inl rfl, by omega, hp, hi⟩

end

end

end Growth

/-! ## A new last bucket -/

/-- **A new last bucket** `idx`; the buckets between the used ones and it are holes. The internal
pointer and the iterators that were at the end now point to it. -/
structure Appended (s s' : HashState K V) (idx : ℕ) (h : BitVec 64) (key : Option K) (v : V) :
    Prop where
  used_le : s.ht.nNumUsed ≤ idx
  used : s'.ht.nNumUsed = idx + 1
  old : ∀ i < s.ht.nNumUsed, s'.ht.content i = s.ht.content i
  gap : ∀ i, s.ht.nNumUsed ≤ i → i < idx → ¬ s'.ht.live i
  new : s'.ht.content idx = (h, key, some v)
  pointer : s'.ht.nInternalPointer =
    if s.ht.nInternalPointer = htInvalidIdx then idx else s.ht.nInternalPointer
  addr : s'.ht.addr = s.ht.addr
  nIteratorsCount : s'.ht.nIteratorsCount = s.ht.nIteratorsCount
  packed : s'.ht.packed = s.ht.packed
  packed_hash : s.ht.packed = true → s'.ht.hash = s.ht.hash
  eg : s'.eg = (zendHashIteratorsUpdate s htInvalidIdx idx).eg

/-- Moving iterators reads the address and the iterator count of the table only. -/
lemma zendHashIteratorsUpdate_eg_congr (s s' : HashState K V) (heg : s'.eg = s.eg)
    (had : s'.ht.addr = s.ht.addr) (hc : s'.ht.nIteratorsCount = s.ht.nIteratorsCount)
    (a b : ℕ) : (zendHashIteratorsUpdate s' a b).eg = (zendHashIteratorsUpdate s a b).eg := by
  unfold zendHashIteratorsUpdate
  rw [hc]
  split_ifs
  · exact heg
  · simp [heg, had]

lemma countElement_ht (s : HashState K V) (idx nNumUsed : ℕ) : (countElement s idx nNumUsed).ht =
      { s.ht with
        nNumUsed
        nNumOfElements := s.ht.nNumOfElements + 1
        nInternalPointer :=
          if s.ht.nInternalPointer = htInvalidIdx then idx else s.ht.nInternalPointer } := by
  simp only [countElement, zendHashIteratorsUpdate_ht]
  split_ifs <;> rfl

lemma countElement_eg (s : HashState K V) (idx nNumUsed : ℕ) :
    (countElement s idx nNumUsed).eg = (zendHashIteratorsUpdate s htInvalidIdx idx).eg := by
  unfold countElement
  refine zendHashIteratorsUpdate_eg_congr _ _ ?_ ?_ ?_ htInvalidIdx idx
  · rfl
  · split_ifs <;> rfl
  · split_ifs <;> rfl

lemma Appended.count {s s' : HashState K V} {idx : ℕ} {h : BitVec 64} {key : Option K} {v : V}
    (ha : Appended s s' idx h key v) :
    count s'.ht.live s'.ht.nNumUsed = count s.ht.live s.ht.nNumUsed + 1 := by
  have hn : s'.ht.live idx := by
    have hv : (s'.ht.arData idx).val = some v := congrArg (fun c => c.2.2) ha.new
    simp [live, hv, Option.isSome_some]
  rw [ha.used, count_succ, if_pos hn, count_eq_of_gap ha.used_le ha.gap,
    count_congr fun i hi => live_congr (ha.old i hi)]

/-- **`add_to_hash`** appends at the end of the used part and keeps the chains in order. -/
theorem addToHash_appended {s : HashState K V} (hwf : s.ht.Wf) (hi : s.ht.initialized = true)
    (hp : s.ht.packed = false) (hr : s.ht.nNumUsed < s.ht.nTableSize) (h : BitVec 64)
    (key : Option K) (v : V) :
    Appended s (addToHash s h key v).1 s.ht.nNumUsed h key v ∧ (addToHash s h key v).1.ht.Wf ∧
      (addToHash s h key v).1.ht.nNextFreeElement = nextFreeOf h key s.ht.nNextFreeElement := by
  generalize hb : ({ (s.ht.arData s.ht.nNumUsed) with h, key, val := some v } : Bucket K V) = b
  obtain ⟨hh, hk, hv⟩ : b.h = h ∧ b.key = key ∧ b.val = some v := by subst hb; exact ⟨rfl, rfl, rfl⟩
  let ht₁ : HashTable K V := { s.ht with
      nNumUsed := s.ht.nNumUsed + 1
      nNumOfElements := s.ht.nNumOfElements + 1
      nInternalPointer :=
        if s.ht.nInternalPointer = htInvalidIdx then s.ht.nNumUsed else s.ht.nInternalPointer
      nNextFreeElement := nextFreeOf h key s.ht.nNextFreeElement
      arData := update s.ht.arData s.ht.nNumUsed b }
  have hht : (addToHash s h key v).1.ht = ht₁.linkBucket s.ht.nNumUsed := by
    simp [addToHash, countElement_ht, setBucket, hb, ht₁]
  have ho : ∀ i < s.ht.nNumUsed, ht₁.arData i = s.ht.arData i :=
    fun i hi => update_of_ne (by omega) _ _
  have hn : ht₁.content s.ht.nNumUsed = (h, key, some v) := by
    simp [content, ht₁, hh, hk, hv]
  have hl : ht₁.live s.ht.nNumUsed := by
    simp [live, ht₁, hv]
  have ha : Appended s (addToHash s h key v).1 s.ht.nNumUsed h key v := by
    refine ⟨le_rfl, by rw [hht]; rfl, fun i hi => ?_, fun i h1 h2 => absurd h1 (by omega), ?_,
      by rw [hht]; rfl, by rw [hht]; rfl, by rw [hht]; rfl, by rw [hht]; rfl, fun hp' => ?_, ?_⟩
    · rw [hht, linkBucket_content]
      exact content_congr (ho i hi)
    · rw [hht, linkBucket_content, hn]
    · exact absurd (hp.symm.trans hp') (by decide)
    · exact countElement_eg s _ _
  refine ⟨ha, ?_, by rw [hht]; rfl⟩
  have hc := ha.count
  rw [hht] at hc ⊢
  refine ⟨hr, hwf.size_le, hwf.size_pos, ?_, fun hi' => ?_, fun _ => ?_, fun hp' => ?_⟩
  · rw [hc, ← hwf.count]
    rfl
  · exact absurd (hi.symm.trans hi') (by decide)
  · have hch : ht₁.Chained s.ht.nNumUsed := (hwf.chain hp).congr rfl rfl ho
    exact hch.linkBucket hl
  · exact absurd (hp.symm.trans hp') (by decide)

/-- **`add_to_packed`** appends at the index of the key. -/
theorem addToPacked_appended {s : HashState K V} (hwf : s.ht.Wf) (hi : s.ht.initialized = true)
    (hp : s.ht.packed = true) {h : BitVec 64} (hr : h.toNat < s.ht.nTableSize)
    (hge : s.ht.nNumUsed ≤ h.toNat) (v : V) {flag : HashFlag} (hf : flag.addNew = false) :
    Appended s (addToPacked s h v flag).1 h.toNat h none v ∧ (addToPacked s h v flag).1.ht.Wf ∧
      (addToPacked s h v flag).1.ht.nNextFreeElement = nextFreeAfter h s.ht.nNextFreeElement := by
  let ht₁ : HashTable K V :=
    { s.ht with arData := fun i =>
        if s.ht.nNumUsed ≤ i ∧ i < h.toNat then { s.ht.arData i with val := none }
        else s.ht.arData i }
  have hht : (addToPacked s h v flag).1.ht =
      ({ ht₁ with
        nNumUsed := h.toNat + 1
        nNumOfElements := s.ht.nNumOfElements + 1
        nInternalPointer :=
          if s.ht.nInternalPointer = htInvalidIdx then h.toNat else s.ht.nInternalPointer
        nNextFreeElement := nextFreeAfter h s.ht.nNextFreeElement } :
          HashTable K V).setBucket h.toNat
          { ht₁.arData h.toNat with h, key := none, val := some v } := by
    simp [addToPacked, hf, Bool.false_and, countElement_ht, if_pos hge, ht₁]
  have ha : Appended s (addToPacked s h v flag).1 h.toNat h none v := by
    refine ⟨hge, by rw [hht]; rfl, fun i hi => ?_, fun i h1 h2 => ?_, ?_, by rw [hht]; rfl,
      by rw [hht]; rfl, by rw [hht]; rfl, by rw [hht]; rfl, fun _ => by rw [hht]; rfl, ?_⟩
    · rw [hht]
      refine content_congr ?_
      simp only [setBucket_arData, ht₁]
      rw [update_of_ne (by omega), if_neg (by omega)]
    · rw [hht]
      simp only [live, setBucket_arData, ht₁]
      rw [update_of_ne (by omega), if_pos ⟨h1, h2⟩]
      simp
    · rw [hht]
      simp [content]
    · simp only [addToPacked, hf, Bool.false_and]
      rw [countElement_eg]
      refine zendHashIteratorsUpdate_eg_congr _ _ ?_ ?_ ?_ _ _ <;> rfl
  refine ⟨ha, ?_, by rw [hht]; rfl⟩
  have hc := ha.count
  rw [hht] at hc ⊢
  refine ⟨hr, hwf.size_le, hwf.size_pos, ?_, fun hi' => ?_, fun hp' => ?_, fun _ i => ?_⟩
  · rw [hc, ← hwf.count]
    rfl
  · exact absurd (hi.symm.trans hi') (by decide)
  · exact absurd (hp.symm.trans hp') (by decide)
  have hk := hwf.packed_key hp i
  by_cases hih : i = h.toNat
  · subst hih
    simp
  · simp only [setBucket_arData, update_of_ne hih, ht₁]
    split_ifs
    · exact hk
    · exact hk

/-! ## A new value -/

/-- **The value of bucket `p` is replaced.** -/
structure Overwritten (s s' : HashState K V) (p : ℕ) (v : V) : Prop where
  other : ∀ i, i ≠ p → s'.ht.content i = s.ht.content i
  this : s'.ht.content p = ((s.ht.arData p).h, (s.ht.arData p).key, some v)
  used : s'.ht.nNumUsed = s.ht.nNumUsed
  pointer : s'.ht.nInternalPointer = s.ht.nInternalPointer
  addr : s'.ht.addr = s.ht.addr
  nIteratorsCount : s'.ht.nIteratorsCount = s.ht.nIteratorsCount
  packed : s'.ht.packed = s.ht.packed
  hash : s'.ht.hash = s.ht.hash
  eg : s'.eg = s.eg

lemma setVal_overwritten {s : HashState K V} (hwf : s.ht.Wf) {p : ℕ} (hl : s.ht.live p) (v : V) :
    Overwritten s (setVal s p v) p v ∧ (setVal s p v).ht.Wf := by
  have ho : ∀ i, i ≠ p → (setVal s p v).ht.content i = s.ht.content i := fun i hi =>
    content_congr (update_of_ne hi _ _)
  have hlv : ∀ i, (setVal s p v).ht.live i ↔ s.ht.live i := by
    intro i
    by_cases hi : i = p
    · subst hi
      simp only [hl]
      simp [setVal, live]
    · exact live_congr (ho i hi)
  refine ⟨⟨ho, by simp [setVal, content], rfl, rfl, rfl, rfl, rfl, rfl, rfl⟩,
    hwf.used_le, hwf.size_le, hwf.size_pos, ?_, hwf.uninit, fun hp => ?_, fun hp i => ?_⟩
  · exact hwf.count.trans (count_congr fun i _ => (hlv i).symm)
  · have hsl : ∀ i, (setVal s p v).ht.slot i = s.ht.slot i := by
      intro i
      by_cases hi : i = p
      · subst hi
        simp [setVal, slot]
      · exact slot_congr (ho i hi) rfl
    refine Linked.congr (hwf.chain hp) (fun _ => rfl) (fun t i _ => ?_) fun _ i _ _ => ?_
    · rw [member, member, hlv, hsl]
    · by_cases hi : i = p
      · subst hi
        simp [setVal]
      · simp [setVal, update_of_ne hi]
  · have := hwf.packed_key hp i
    by_cases hi : i = p
    · subst hi
      simpa [setVal] using this
    · simpa [setVal, update_of_ne hi] using this

end PhpInternals.Zend.ZendHash

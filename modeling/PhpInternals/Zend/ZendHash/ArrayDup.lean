import PhpInternals.Zend.ZendHash.Chain

/-!
# `zend_array_dup`

The four branches of `zend_array_dup`: a table without used buckets, an immutable one (copied by
`memcpy`), a packed one (copied bucket by bucket, holes included) and a hashed one (copied
compactly, each bucket linked as it is copied).
-/

namespace PhpInternals.Zend.ZendHash

open HashTable Option Nat Found

variable {K V : Type}

/-! ## The function -/

/-- What `zend_array_dup_element` asks about a value. -/
structure ZvalOps (V : Type) where
  /-- `Z_INDIRECT_P` of an `IS_INDIRECT` value, itself `none` when it is `IS_UNDEF`; `none` for any
  other value. -/
  indirect : V → Option (Option V)
  /-- The value that is copied: what a reference with one owner refers to, or the value itself. -/
  copied : V → V

/-- The value behind an `IS_INDIRECT` one. Source: `zend_hash.c` `zend_array_dup_element`. -/
def ZvalOps.follow (ops : ZvalOps V) (v : V) : Option V := (ops.indirect v).getD (some v)

/-- `zend_array_dup_element`, as far as the value goes: `none` when it returns 0, and otherwise the
value it stores. -/
def dupData (ops : ZvalOps V) (packed withHoles : Bool) (data : Option V) : Option (Option V) :=
  if withHoles then
    (if packed then data else data.bind ops.follow).map fun v => some (ops.copied v)
  else if packed then some (data.map ops.copied)
  else match data with
    | none => some none
    | some v => (ops.follow v).map fun v => some (ops.copied v)

/-- `zend_array_dup_element` of a hashed table: bucket `j` of the target, linked. -/
def dupBucket (target : HashTable K V) (j : ℕ) (p : Bucket K V) (data : Option V) : HashTable K V :=
  (target.setBucket j { target.arData j with h := p.h, key := p.key, val := data }).linkBucket j

/-- The inner loop of `zend_array_dup_elements`, after the first element that is not copied. -/
def dupCompact (data : ℕ → Option (Option V)) (source : HashTable K V) :
    (n idx targetIdx : ℕ) → HashTable K V → HashTable K V × ℕ
  | 0, _, targetIdx, target => (target, targetIdx)
  | n + 1, idx, targetIdx, target =>
    match data idx with
    | some v =>
      let target := dupBucket target targetIdx (source.arData idx) v
      let target :=
        if source.nInternalPointer = idx then { target with nInternalPointer := targetIdx }
        else target
      dupCompact data source n (idx + 1) (targetIdx + 1) target
    | none => dupCompact data source n (idx + 1) targetIdx target

/-- `zend_array_dup_elements`: `n` buckets are left, from `idx` on. -/
def dupElements (data : ℕ → Option (Option V)) (source : HashTable K V) :
    (n idx : ℕ) → HashTable K V → HashTable K V × ℕ
  | 0, idx, target => (target, idx)
  | n + 1, idx, target =>
    match data idx with
    | some v =>
      dupElements data source n (idx + 1) (dupBucket target idx (source.arData idx) v)
    | none => dupCompact data source n (idx + 1) idx target

/-- `zend_array_dup_packed_elements`: the new buckets. -/
def dupPackedElements (ops : ZvalOps V) (withHoles : Bool) (source : HashTable K V) (i : ℕ) :
    Bucket K V :=
  if i < source.nNumUsed then
    match dupData ops true withHoles (source.arData i).val with
    | some v => ⟨(source.arData i).h, none, v, none⟩
    | none => Bucket.fresh
  else Bucket.fresh

/-- `if (target->nNumOfElements > 0 && target->nInternalPointer == HT_INVALID_IDX)`: the pointer
goes to the first live bucket. Source: `zend_hash.c` `zend_array_dup`. -/
def rewindPointer (ht : HashTable K V) : HashTable K V :=
  if ht.nNumOfElements > 0 ∧ ht.nInternalPointer = htInvalidIdx then
    { ht with nInternalPointer := nextLive ht.arData ht.nNumUsed 0 }
  else ht

/-- `zend_array_dup`. The iterator count is a part of the flag word that is copied. -/
def zendArrayDup (ops : ZvalOps V) (immutable : Bool) (addr : ℕ) (source : HashTable K V) :
    HashTable K V :=
  if source.nNumUsed = 0 then
    { source with
      addr
      packed := false
      initialized := false
      nTableMask := htMinMask
      nNumUsed := 0
      nNumOfElements := 0
      nNextFreeElement := 0
      nInternalPointer := htInvalidIdx
      arData := fun _ => Bucket.fresh
      hash := fun _ => htInvalidIdx }
  else if immutable then
    rewindPointer { source.moveData source.nTableSize source.nTableMask source.packed with addr }
  else if source.packed then
    rewindPointer
      { source.hashReset with
        addr
        arData := dupPackedElements ops (!source.isWithoutHoles) source }
  else
    let target := { source.hashReset with addr, arData := fun _ => Bucket.fresh }
    let (target, idx) := dupElements
      (fun i => dupData ops false (!source.isWithoutHoles) (source.arData i).val) source
      source.nNumUsed 0 target
    let target := { target with nNumUsed := idx, nNumOfElements := idx }
    if idx > 0 ∧ target.nInternalPointer = htInvalidIdx then { target with nInternalPointer := 0 }
    else target

/-! ## The loops of the hashed branch -/

section Loop

variable {data : ℕ → Option (Option V)} {source : HashTable K V}

/-- Bucket `i` of the source is copied. -/
def IsDuped (data : ℕ → Option (Option V)) (i : ℕ) : Prop := (data i).isSome = true

instance (data : ℕ → Option (Option V)) : DecidablePred (IsDuped data) :=
  fun i => inferInstanceAs (Decidable ((data i).isSome = true))

/-- **The loop invariant of `zend_array_dup_elements`**: `i` buckets of the source have been
visited; those that are copied are at their ranks, chained. -/
structure Duped (data : ℕ → Option (Option V)) (source target₀ target : HashTable K V) (i j : ℕ) :
    Prop where
  rank : count (IsDuped data) i = j
  moved : ∀ k < i, ∀ v, data k = some v → target.content (count (IsDuped data) k)
    = ((source.arData k).h, (source.arData k).key, v)
  chained : target.Chained j
  header : SameHeader target₀ target
  pointer : target.nInternalPointer =
    if source.nInternalPointer < i ∧ IsDuped data source.nInternalPointer then
      count (IsDuped data) source.nInternalPointer
    else source.nInternalPointer

variable {target₀ target : HashTable K V} {i j : ℕ}

lemma Duped.skip (h : Duped data source target₀ target i j) (hi : data i = none) :
    Duped data source target₀ target (i + 1) j := by
  have hn : ¬ IsDuped data i := by simp [IsDuped, hi]
  refine ⟨?_, ?_, h.chained, h.header, ?_⟩
  · rw [count_succ, if_neg hn, add_zero, h.rank]
  · intro k hk v hv
    rcases Nat.lt_succ_iff_lt_or_eq.mp hk with hk | rfl
    · exact h.moved k hk v hv
    · rw [hi] at hv
      cases hv
  rw [h.pointer]
  congr 1
  rw [eq_iff_iff]
  constructor
  · rintro ⟨h1, h2⟩
    exact ⟨by omega, h2⟩
  · rintro ⟨h1, h2⟩
    rcases Nat.lt_succ_iff_lt_or_eq.mp h1 with h1 | h1
    · exact ⟨h1, h2⟩
    · exact absurd (h1 ▸ h2) hn

lemma dupBucket_content (target : HashTable K V) (j : ℕ) (p : Bucket K V) (v : Option V) (k : ℕ) :
    (dupBucket target j p v).content k =
      if k = j then (p.h, p.key, v) else target.content k := by
  rw [dupBucket, linkBucket_content]
  by_cases hk : k = j
  · subst hk
    simp [content]
  · simp [content, hk]

lemma Duped.copy (h : Duped data source target₀ target i j) {v : V} (hi : data i = some (some v))
    {target' : HashTable K V}
    (hs : { dupBucket target j (source.arData i) (some v) with
      nInternalPointer := target'.nInternalPointer } = target')
    (hpt : target'.nInternalPointer =
      if source.nInternalPointer = i then j else target.nInternalPointer) :
    Duped data source target₀ target' (i + 1) (j + 1) := by
  have hy : IsDuped data i := by simp [IsDuped, hi]
  have hc : ∀ k, target'.content k = (dupBucket target j (source.arData i) (some v)).content k := by
    intro k
    rw [← hs]
    rfl
  refine ⟨?_, ?_, ?_, ?_, ?_⟩
  · rw [count_succ, if_pos hy, h.rank]
  · intro k hk w hw
    rw [hc, dupBucket_content]
    rcases Nat.lt_succ_iff_lt_or_eq.mp hk with hk | rfl
    · have hlt : Nat.count (IsDuped data) k < j := by
        rw [← h.rank]
        exact count_strict_mono (by simp [IsDuped, hw]) hk
      rw [if_neg (by omega)]
      exact h.moved k hk w hw
    · rw [hi] at hw
      cases hw
      rw [if_pos h.rank]
  · -- the new bucket is put at the front of its chain
    have hse : (target.setBucket j { target.arData j with
        h := (source.arData i).h, key := (source.arData i).key, val := some v }).Chained j :=
      HashTable.Chained.congr h.chained rfl rfl fun k hk => by
        simp [Function.update_of_ne (by omega : k ≠ j)]
    have hl := hse.linkBucket (by simp [live])
    rw [← hs]
    exact hl
  · rw [← hs]
    exact h.header.trans ⟨rfl, rfl, rfl, rfl, rfl, rfl, rfl, rfl⟩
  rw [hpt]
  by_cases hp : source.nInternalPointer = i
  · rw [if_pos hp, if_pos ⟨by omega, hp ▸ hy⟩, hp, h.rank]
  · rw [if_neg hp, h.pointer]
    congr 1
    rw [eq_iff_iff]
    exact and_congr_left fun _ => by omega

variable (hlive : ∀ i < source.nNumUsed, ∀ v, data i = some v → v.isSome = true)

include hlive

lemma dupCompact_duped : ∀ (n i j : ℕ) (target : HashTable K V), i + n = source.nNumUsed →
    Duped data source target₀ target i j →
    Duped data source target₀ (dupCompact data source n i j target).1 source.nNumUsed
      (dupCompact data source n i j target).2
  | 0, i, j, target, hn, h => by
    rw [dupCompact, ← hn]
    exact h
  | n + 1, i, j, target, hn, h => by
    rw [dupCompact]
    cases hi : data i with
    | none => exact dupCompact_duped n (i + 1) j target (by omega) (h.skip hi)
    | some v =>
      obtain ⟨w, rfl⟩ := isSome_iff_exists.mp (hlive i (by omega) v hi)
      refine dupCompact_duped n (i + 1) (j + 1) _ (by omega) (h.copy hi ?_ ?_)
      · split_ifs <;> rfl
      · split_ifs <;> rfl

lemma dupElements_duped : ∀ (n i : ℕ) (target : HashTable K V), i + n = source.nNumUsed →
    Duped data source target₀ target i i →
    Duped data source target₀ (dupElements data source n i target).1 source.nNumUsed
      (dupElements data source n i target).2
  | 0, i, target, hn, h => by
    rw [dupElements, ← hn]
    exact h
  | n + 1, i, target, hn, h => by
    rw [dupElements]
    cases hi : data i with
    | none => exact dupCompact_duped hlive n (i + 1) i target (by omega) (h.skip hi)
    | some v =>
      obtain ⟨w, rfl⟩ := isSome_iff_exists.mp (hlive i (by omega) v hi)
      refine dupElements_duped n (i + 1) _ (by omega) (h.copy hi rfl ?_)
      by_cases hp : source.nInternalPointer = i
      · have hpt : target.nInternalPointer = i := by
          rw [h.pointer, if_neg fun hh => by omega, hp]
        rw [if_pos hp, ← hpt]
        rfl
      · rw [if_neg hp]
        rfl

end Loop

/-! ## Well-formedness -/

lemma dupData_isSome {ops : ZvalOps V} {packed withHoles : Bool} {data v : Option V}
    (hdt : withHoles = false → data.isSome = true)
    (h : dupData ops packed withHoles data = some v) : v.isSome = true := by
  unfold dupData at h
  cases withHoles with
  | true =>
    simp only [if_true, map_eq_some_iff] at h
    obtain ⟨w, -, rfl⟩ := h
    rfl
  | false =>
    obtain ⟨w, rfl⟩ := isSome_iff_exists.mp (hdt rfl)
    cases packed with
    | true =>
      simp only [Bool.false_eq_true, if_false, if_true, some.injEq] at h
      rw [← h]
      rfl
    | false =>
      simp only [Bool.false_eq_true, if_false, map_eq_some_iff] at h
      obtain ⟨u, -, rfl⟩ := h
      rfl

lemma dupPackedElements_live (ops : ZvalOps V) {source : HashTable K V} (hwf : source.Wf) {i : ℕ}
    (hi : i < source.nNumUsed) :
    (dupPackedElements ops (!source.isWithoutHoles) source i).val.isSome = true ↔
    source.live i := by
  rw [dupPackedElements, if_pos hi, live]
  cases hh : source.isWithoutHoles with
  | true =>
    have hl := hwf.live_of_isWithoutHoles hh i hi
    simp only [live] at hl
    simp [dupData]
  | false =>
    cases hv : (source.arData i).val with
    | none => simp [dupData, Bucket.fresh]
    | some v => simp [dupData]

lemma HashTable.Wf.setPointer {ht : HashTable K V} (h : ht.Wf) (pos : ℕ) :
    { ht with nInternalPointer := pos }.Wf :=
  { h with }

lemma rewindPointer_wf {ht : HashTable K V} (h : ht.Wf) : (rewindPointer ht).Wf := by
  unfold rewindPointer
  split_ifs
  · exact h.setPointer _
  · exact h

lemma dupElements_wf {data : ℕ → Option (Option V)} {source target₀ : HashTable K V}
    (hwf : source.Wf) (hit : source.initialized = true) (hp : source.packed = false)
    {target : HashTable K V} {idx : ℕ}
    (hlive : ∀ i < source.nNumUsed, ∀ v, data i = some v → v.isSome = true)
    (h : Duped data source target₀ target source.nNumUsed idx)
    (hhe : SameHeader source { target₀ with addr := source.addr }) :
    { target with nNumUsed := idx, nNumOfElements := idx }.Wf := by
  have ha : ∀ j < idx, target.live j := by
    intro j hj
    rw [← h.rank] at hj
    obtain ⟨k, hk, hd, hc⟩ := exists_count_eq hj
    obtain ⟨v, hv⟩ := isSome_iff_exists.mp hd
    have hm := congrArg (fun c => c.2.2) (h.moved k hk v hv)
    rw [hc] at hm
    simp only [content] at hm
    rw [live, hm]
    exact hlive k hk v hv
  have hle : idx ≤ source.nNumUsed := h.rank ▸ count_le _
  have hs : target.nTableSize = source.nTableSize := h.header.nTableSize.trans hhe.nTableSize
  have hpk : target.packed = false := (h.header.packed.trans hhe.packed).trans hp
  refine ⟨?_, ?_, ?_, ?_, ?_, fun _ => h.chained, fun hp' => ?_⟩
  · simp only [hs]
    exact hle.trans hwf.used_le
  · simp only [hs]
    exact hwf.size_le
  · simp only [hs]
    exact hwf.size_pos
  · exact (count_iff_forall.mpr ha).symm
  · intro hi
    exact absurd ((h.header.initialized.trans hhe.initialized).trans hit)
      (by simp only at hi; rw [hi]; decide)
  · exact absurd (hpk.symm.trans hp') (by decide)

section hashed

variable {source : HashTable K V} (hwf : source.Wf) (ops : ZvalOps V)

include hwf

lemma dupElements_defined {i : ℕ} (hi : i < source.nNumUsed) (v : Option V)
    (hv : dupData ops false (!source.isWithoutHoles) (source.arData i).val = some v) :
    v.isSome = true :=
  dupData_isSome (fun hh => hwf.live_of_isWithoutHoles (by simpa using hh) i hi) hv

lemma dupElements_loop (addr : ℕ) :
    let data := fun i => dupData ops false (!source.isWithoutHoles) (source.arData i).val
    let target : HashTable K V := { source.hashReset with addr, arData := fun _ => Bucket.fresh }
    Duped data source target (dupElements data source source.nNumUsed 0 target).1 source.nNumUsed
      (dupElements data source source.nNumUsed 0 target).2 :=
  dupElements_duped (fun _ => dupElements_defined hwf ops) source.nNumUsed 0 _ (zero_add _)
    ⟨rfl, fun k hk => by omega, chained_zero fun _ => rfl, SameHeader.refl _,
      by rw [if_neg fun hh => by omega]; rfl⟩

end hashed

lemma zendArrayDup_wf (ops : ZvalOps V) (immutable : Bool) (addr : ℕ) {source : HashTable K V}
    (hwf : source.Wf) : (zendArrayDup ops immutable addr source).Wf := by
  unfold zendArrayDup
  by_cases h0 : source.nNumUsed = 0
  · rw [if_pos h0]
    exact ⟨zero_le _, hwf.size_le, hwf.size_pos, rfl, fun _ => ⟨rfl, rfl⟩,
      fun _ => chained_zero fun _ => rfl, fun hp => by cases hp⟩
  rw [if_neg h0]
  have hit := hwf.initialized_of_used (by omega)
  by_cases him : immutable
  · rw [if_pos him]
    have hdt : ∀ i < source.nNumUsed,
        (source.moveData source.nTableSize source.nTableMask source.packed).arData i
          = source.arData i := fun i hi => by simp [moveData, hi]
    refine rewindPointer_wf { hwf with count := ?_, chain := ?_, packed_key := ?_ }
    · exact hwf.count.trans (count_congr fun i hi =>
        (live_congr (content_congr (hdt i hi))).symm)
    · exact fun hp => HashTable.Chained.congr (hwf.chain hp) rfl rfl hdt
    · intro hp i
      simp only [moveData]
      split_ifs
      · exact hwf.packed_key hp i
      · rfl
  rw [if_neg him]
  split_ifs with hp
  · refine rewindPointer_wf { hwf with count := ?_, chain := ?_, packed_key := ?_ }
    · exact hwf.count.trans (count_congr fun i hi => (dupPackedElements_live ops hwf hi).symm)
    · intro hp'
      exact absurd (hp.symm.trans hp') (by decide)
    · intro _ i
      simp only [dupPackedElements]
      split_ifs
      · split <;> rfl
      · rfl
  · have hp' : source.packed = false := by simpa using hp
    have hen := dupElements_wf hwf hit hp' (fun i => dupElements_defined hwf ops)
      (dupElements_loop hwf ops addr) ⟨rfl, rfl, rfl, rfl, rfl, rfl, rfl, rfl⟩
    simp only
    split_ifs
    · exact hen.setPointer 0
    · exact hen

end PhpInternals.Zend.ZendHash

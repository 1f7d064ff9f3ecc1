import PhpInternals.Zend.ZendHash.OrderedTable
import PhpInternals.Zend.ZendHash.Effects

/-!
# The hash table represents an ordered map

Every insertion and deletion path does to the map what `OrderedTable` says, whatever compaction,
growth or conversion it goes through.
-/

namespace PhpInternals.Zend.ZendHash

open Except OrderedTable HashTable Option BitVec Found

variable {K V : Type}

/-! ## The walk over a table -/

/-- The key of a bucket. -/
def hashKeyOf (h : BitVec 64) : Option K → HashKey K
  | none => .index h
  | some key => .str key

/-- The entry of bucket `i`, `none` when it is `IS_UNDEF`. -/
def HashTable.entryAt (ht : HashTable K V) (i : ℕ) : Option (HashKey K × V) :=
  (ht.arData i).val.map fun v => (hashKeyOf (ht.arData i).h (ht.arData i).key, v)

/-- The walk over `arData[0..nNumUsed)` that skips `IS_UNDEF` (`ZEND_HASH_FOREACH_KEY_VAL`). -/
def HashTable.walk (ht : HashTable K V) : List (HashKey K × V) := gather ht.entryAt ht.nNumUsed

variable {ht' : HashTable K V} {i j : ℕ}

lemma HashTable.entryAt_congr {ht : HashTable K V}
    (h : ht'.content i = ht.content j) : ht'.entryAt i = ht.entryAt j := by
  simp only [content, Prod.mk.injEq] at h
  simp [entryAt, h]

lemma HashTable.entryAt_isSome (ht : HashTable K V) (i : ℕ) :
    (ht.entryAt i).isSome = true ↔ ht.live i := by
  simp [entryAt, live]

lemma HashTable.entryAt_of_not_live {ht : HashTable K V} (h : ¬ ht.live i) :
    ht.entryAt i = none := by
  simpa using mt (ht.entryAt_isSome i).mp h

lemma HashTable.entryAt_of_content {ht : HashTable K V} {h : BitVec 64} {key : Option K}
    {v : V} (hc : ht.content i = (h, key, some v)) : ht.entryAt i = some (hashKeyOf h key, v) := by
  simp only [content, Prod.mk.injEq] at hc
  simp [entryAt, hc]

lemma HashTable.entryAt_of_val_none {ht : HashTable K V} (h : (ht.arData i).val = none) :
    ht.entryAt i = none := by
  rw [entryAt, h]
  rfl

lemma HashTable.entryAt_of_val_some {ht : HashTable K V} {v : V} (h : (ht.arData i).val = some v) :
    ht.entryAt i = some (hashKeyOf (ht.arData i).h (ht.arData i).key, v) := by
  rw [entryAt, h]
  rfl

/-- How the keys of a table sit in it. -/
structure HashTable.Keyed (hashVal : K → BitVec 64) (ht : HashTable K V) : Prop where
  str_hash : ∀ i < ht.nNumUsed, ht.live i → ∀ k, (ht.arData i).key = some k →
    (ht.arData i).h = hashVal k
  packed_index : ht.packed = true → ∀ i < ht.nNumUsed, ht.live i → (ht.arData i).h.toNat = i
  packed_hash : ht.packed = true → ∀ i, ht.hash i = htInvalidIdx

/-- **The table `ht` stands for the map `t`.** -/
structure Represents (hashVal : K → BitVec 64) (ht : HashTable K V) (t : OrderedTable K V) :
    Prop where
  wf : ht.Wf
  keyed : ht.Keyed hashVal
  walk : ht.walk = t.map.entries
  next : ht.nNextFreeElement.toInt = t.nextFree

namespace Represents

variable {hashVal : K → BitVec 64} {ht : HashTable K V} {t : OrderedTable K V}

/-! ## Lookups -/

section

variable (hrep : Represents hashVal ht t)
include hrep

lemma holds_iff {h : BitVec 64} {key : Option K}
    (hkey : ∀ k, key = some k → h = hashVal k) (i : ℕ) :
    ht.Holds h key i ↔ i < ht.nNumUsed ∧ ∃ v, ht.entryAt i = some (hashKeyOf h key, v) := by
  have hen : (∃ v, ht.entryAt i = some (hashKeyOf h key, v)) ↔
      ht.live i ∧ hashKeyOf (ht.arData i).h (ht.arData i).key = hashKeyOf h key := by
    cases hv : (ht.arData i).val with
    | none | some v => simp [entryAt, live, hv]
  rw [hen, HashTable.Holds]
  by_cases hp : ht.packed
  · -- the integer keys of a packed table are its indices
    rw [if_pos hp, hrep.wf.packed_key hp i]
    constructor
    · rintro ⟨rfl, rfl, hlt, hl⟩
      refine ⟨hlt, hl, ?_⟩
      rw [eq_of_toNat_eq (hrep.keyed.packed_index hp _ hlt hl)]
    rintro ⟨hlt, hl, heq⟩
    cases key with
    | some k => cases heq
    | none =>
      cases heq
      exact ⟨rfl, (hrep.keyed.packed_index hp i hlt hl).symm, hlt, hl⟩
  rw [if_neg hp]
  constructor
  · rintro ⟨hlt, hl, rfl, rfl⟩
    exact ⟨hlt, hl, rfl⟩
  rintro ⟨hlt, hl, heq⟩
  refine ⟨hlt, hl, ?_⟩
  cases hk : (ht.arData i).key with
  | none =>
    rw [hk] at heq
    cases key with
    | none => exact ⟨HashKey.index.inj heq, rfl⟩
    | some k => cases heq
  | some k' =>
    rw [hk] at heq
    cases key with
    | none => cases heq
    | some k =>
      cases heq
      exact ⟨(hrep.keyed.str_hash i hlt hl k' hk).trans (hkey k' rfl).symm, rfl⟩

lemma mem_keys_iff [DecidableEq K] {h : BitVec 64}
    {key : Option K} (hkey : ∀ k, key = some k → h = hashVal k) :
    hashKeyOf h key ∈ t.map.keys ↔ ∃ p, ht.Holds h key p := by
  rw [OrderedMap.keys, ← hrep.walk, List.mem_map]
  constructor
  · rintro ⟨⟨k, v⟩, hm, rfl⟩
    obtain ⟨i, hi, he⟩ := mem_gather.mp hm
    exact ⟨i, (hrep.holds_iff hkey i).mpr ⟨hi, v, he⟩⟩
  · rintro ⟨p, hp⟩
    obtain ⟨hlt, v, he⟩ := (hrep.holds_iff hkey p).mp hp
    exact ⟨_, mem_gather.mpr ⟨p, hlt, he⟩, rfl⟩

lemma lookup_of_holds [DecidableEq K] {h : BitVec 64}
    {key : Option K} (hkey : ∀ k, key = some k → h = hashVal k) {p : ℕ} (hp : ht.Holds h key p) :
    t.map.lookup (hashKeyOf h key) = (ht.arData p).val := by
  obtain ⟨hlt, v, he⟩ := (hrep.holds_iff hkey p).mp hp
  have hv : (ht.arData p).val = some v := by
    cases hv : (ht.arData p).val with
    | none => simp [entryAt, hv] at he
    | some w =>
      simp only [entryAt, hv, map_some, some.injEq, Prod.mk.injEq] at he
      rw [he.2]
  rw [hv, OrderedMap.lookup_eq_some_iff, ← hrep.walk]
  exact mem_gather.mpr ⟨p, hlt, he⟩

lemma lookup_of_absent [DecidableEq K] {h : BitVec 64}
    {key : Option K} (hkey : ∀ k, key = some k → h = hashVal k) (ha : ∀ p, ¬ ht.Holds h key p) :
    t.map.lookup (hashKeyOf h key) = none := by
  rw [OrderedMap.lookup_eq_none_iff, hrep.mem_keys_iff hkey]
  exact fun ⟨p, hp⟩ => ha p hp

lemma find [DecidableEq K] (key : K) :
    zendHashFind hashVal ht key = .ok (t.map.lookup (.str key)) := by
  have hkey : ∀ k, some key = some k → hashVal key = hashVal k := by
    rintro k ⟨⟩
    rfl
  unfold zendHashFind
  by_cases hp : ht.packed
  · have hn : zendHashFindBucket hashVal ht key = .ok none := by
      rw [zendHashFindBucket, hrep.keyed.packed_hash hp]
      exact findBucketLoop_invalid _ _
    rw [hn]
    have := hrep.lookup_of_absent hkey (not_holds_str hp _ key)
    exact congrArg ok this.symm
  have hp' : ht.packed = false := by simpa using hp
  rcases zendHashFindBucket_spec hrep.wf hp' hashVal key with ⟨p, hfn, hf⟩ | ⟨hfn, ha⟩
  · rw [hfn]
    exact congrArg ok (hrep.lookup_of_holds hkey hf).symm
  · rw [hfn]
    exact congrArg ok (hrep.lookup_of_absent hkey ha).symm

lemma indexFind [DecidableEq K] (h : BitVec 64) :
    zendHashIndexFind ht h = .ok (t.map.lookup (.index h)) := by
  have hkey : ∀ k : K, none = some k → h = hashVal k := by
    rintro k ⟨⟩
  unfold zendHashIndexFind
  by_cases hp : ht.packed
  · rw [if_pos hp]
    by_cases hhd : ht.Holds h none h.toNat
    · rw [if_pos ((holds_packed hp).mp hhd).2.2.1]
      exact congrArg ok (hrep.lookup_of_holds hkey hhd).symm
    have ha : t.map.lookup (.index h) = none := hrep.lookup_of_absent hkey fun p hh => by
        obtain ⟨-, rfl, -⟩ := (holds_packed hp).mp hh
        exact hhd hh
    rw [ha]
    by_cases hlt : h.toNat < ht.nNumUsed
    · rw [if_pos hlt]
      have hdd : ¬ ht.live h.toNat := fun hl => 
        hhd ((holds_packed hp).mpr ⟨rfl, rfl, hlt, hl⟩)
      simpa [live] using hdd
    · rw [if_neg hlt]
  · rw [if_neg hp]
    have hp' : ht.packed = false := by simpa using hp
    rcases zendHashIndexFindBucket_spec hrep.wf hp' h with ⟨p, hfn, hf⟩ | ⟨hfn, ha⟩
    · rw [hfn]
      exact congrArg ok (hrep.lookup_of_holds hkey hf).symm
    · rw [hfn]
      exact congrArg ok (hrep.lookup_of_absent hkey ha).symm

lemma numOfElements : ht.nNumOfElements = t.map.entries.length := by
  rw [← hrep.walk, HashTable.walk, length_gather, hrep.wf.count]
  exact count_congr fun i _ => (ht.entryAt_isSome i).symm

end

/-! ## Silent steps -/

lemma copy (hrep : Represents hashVal ht t) {ht1 : HashTable K V} (hc : Copied ht ht1)
    (hwf : ht1.Wf)
    (hpc : ht1.packed = true → ht1.hash = ht.hash ∧ ht.packed = true ∨
      (∀ i, ht1.hash i = htInvalidIdx) ∧ ht.nNumUsed = 0) : Represents hashVal ht1 t where
  wf := hwf
  keyed := by
    refine ⟨?_, ?_, ?_⟩
    · rw [hc.nNumUsed]
      intro i hi hl k hk
      rw [hc.data i hi] at hk ⊢
      exact hrep.keyed.str_hash i hi ((hc.live hi).mp hl) k hk
    · rw [hc.nNumUsed]
      intro hp i hi hl
      rw [hc.data i hi]
      rcases hpc hp with ⟨-, hp0⟩ | ⟨-, hu⟩
      · exact hrep.keyed.packed_index hp0 i hi ((hc.live hi).mp hl)
      · omega
    · intro hp
      rcases hpc hp with ⟨hhs, hp0⟩ | ⟨hhs, -⟩
      · rw [hhs]
        exact hrep.keyed.packed_hash hp0
      · exact hhs
  walk := by
    rw [← hrep.walk, HashTable.walk, hc.nNumUsed]
    exact gather_congr fun i hi => HashTable.entryAt_congr (hc.content hi)
  next := by rw [hc.nNextFreeElement, hrep.next]

/-- A rehashed table that has no chains in a packed layout represents the same map. -/
lemma rehashed (hw : ht.walk = t.map.entries)
    (hsr : ∀ i < ht.nNumUsed, ht.live i → ∀ k, (ht.arData i).key = some k →
      (ht.arData i).h = hashVal k)
    (hn : ht.nNextFreeElement.toInt = t.nextFree) (hre : Rehashed ht ht') (hwf : ht'.Wf)
    (hpc : ht'.packed = true → ht'.nNumUsed = 0 ∧ ∀ i, ht'.hash i = htInvalidIdx) :
    Represents hashVal ht' t where
  wf := hwf
  keyed := by
    refine ⟨?_, ?_, fun hp => (hpc hp).2⟩
    · intro j hj _ k hk
      obtain ⟨i, hi, hl, -, hc⟩ := hre.exists_source hj
      simp only [content, Prod.mk.injEq] at hc
      rw [hc.2.1] at hk
      rw [hc.1]
      exact hsr i hi hl k hk
    · intro hp j hj
      have := (hpc hp).1
      omega
  walk := by
    rw [← hw, HashTable.walk, hre.used]
    exact gather_compact ht.live (fun i _ => ht.entryAt_isSome i)
      fun i hi hl => HashTable.entryAt_congr (hre.moved i hi hl)
  next := by rw [hre.header.nNextFreeElement, hn]

/-- **A silent step** changes nothing in the map. -/
theorem silent {s s' : HashState K V} (hrep : Represents hashVal s.ht t) (hsl : Silent s s') :
    Represents hashVal s'.ht t := by
  cases hsl with
  | copy ht1 hc hwf hpc => exact hrep.copy hc hwf hpc
  | rehash ht1 hc hpc hwf =>
    have hre := hc.rehashed hrep.wf
    refine rehashed ?_ ?_ ?_ hre hwf fun hp => ?_
    · rw [← hrep.walk, HashTable.walk, hc.nNumUsed]
      exact gather_congr fun i hi => HashTable.entryAt_congr (hc.content hi)
    · rw [hc.nNumUsed]
      intro i hi hl k hk
      rw [hc.data i hi] at hk ⊢
      exact hrep.keyed.str_hash i hi ((hc.live hi).mp hl) k hk
    · rw [hc.nNextFreeElement, hrep.next]
    · rw [hre.header.packed, hpc] at hp
      cases hp

lemma settles {s s' : HashState K V} (hrep : Represents hashVal s.ht t) (h : Settles s s') :
    Represents hashVal s'.ht t := by
  induction h with
  | refl => exact hrep
  | tail _ hsl ih => exact ih.silent hsl

/-! ## Insertion and deletion -/

/-- The next free index is raised as in the ordered table. -/
lemma nextFreeOf_toInt {n : BitVec 64} (hn : 0 ≤ n.toInt) (h : BitVec 64) (key : Option K) :
    (nextFreeOf h key n).toInt = OrderedTable.raise n.toInt (hashKeyOf h key) := by
  cases key with
  | some k => rfl
  | none =>
    have hlt := toInt_lt (x := h)
    have hm : zendLongMax.toInt = longMax := by decide
    have hm' : zendLongMax.toNat = 2 ^ 63 - 1 := by decide
    simp only [nextFreeOf, nextFreeAfter, hashKeyOf, OrderedTable.raise, afterIndex]
    by_cases hle : n.toInt ≤ h.toInt
    · have hnt : (h.toNat : ℤ) = h.toInt := by
        rw [toInt_eq_toNat_of_msb]
        by_contra hms
        have := toInt_neg_of_msb_true (by simpa using hms : h.msb = true)
        omega
      split_ifs with hb
      · have hsc : (h + 1).toInt = h.toInt + 1 := by
          have h1 : BitVec.toInt (1 : BitVec 64) = 1 := by decide
          rw [BitVec.toInt_add]
          exact Int.bmod_eq_of_le (by omega) (by omega)
        simp only [longMax] at *
        omega
      · simp only [longMax] at *
        omega
    · rw [if_neg hle]
      omega

section Effects

variable [DecidableEq K] {s s' : HashState K V} {h : BitVec 64} {key : Option K} {v : V}

lemma appended (hrep : Represents hashVal s.ht t) (hkey : ∀ k, key = some k → h = hashVal k)
    {idx : ℕ} (ha : Appended s s' idx h key v) (hwf : s'.ht.Wf)
    (hpc : s.ht.packed = true → key = none ∧ idx = h.toNat)
    (hn : s'.ht.nNextFreeElement = nextFreeOf h key s.ht.nNextFreeElement)
    (hab : hashKeyOf h key ∉ t.map.keys) :
    Represents hashVal s'.ht (t.store (hashKeyOf h key) v) where
  wf := hwf
  keyed := by
    have hcs : ∀ i < s'.ht.nNumUsed, s'.ht.live i →
        i < s.ht.nNumUsed ∧ s.ht.live i ∧ (s'.ht.arData i).h = (s.ht.arData i).h ∧
          (s'.ht.arData i).key = (s.ht.arData i).key ∨
        i = idx ∧ (s'.ht.arData i).h = h ∧ (s'.ht.arData i).key = key := by
      intro i hi hl
      rw [ha.used] at hi
      by_cases hlt : i < s.ht.nNumUsed
      · have hc := ha.old i hlt
        have hl' := (live_congr hc).mp hl
        simp only [content, Prod.mk.injEq] at hc
        exact .inl ⟨hlt, hl', hc.1, hc.2.1⟩
      by_cases hid : i = idx
      · subst hid
        have hc := ha.new
        simp only [content, Prod.mk.injEq] at hc
        exact .inr ⟨rfl, hc.1, hc.2.1⟩
      · exact absurd hl (ha.gap i (by omega) (by omega))
    refine ⟨?_, ?_, ?_⟩
    · intro i hi hl k hk
      rcases hcs i hi hl with ⟨hlt, hl', hh, hk'⟩ | ⟨-, hh, hk'⟩
      · rw [hh]
        exact hrep.keyed.str_hash i hlt hl' k (hk' ▸ hk)
      · rw [hh]
        exact hkey k (hk' ▸ hk)
    · intro hp i hi hl
      rw [ha.packed] at hp
      rcases hcs i hi hl with ⟨hlt, hl', hh, -⟩ | ⟨rfl, hh, -⟩
      · rw [hh]
        exact hrep.keyed.packed_index hp i hlt hl'
      · rw [hh]
        exact (hpc hp).2.symm
    · intro hp
      rw [ha.packed] at hp
      rw [ha.packed_hash hp]
      exact hrep.keyed.packed_hash hp
  walk := by
    rw [store_map, OrderedMap.entries_store_of_not_mem hab, ← hrep.walk, HashTable.walk, ha.used,
      gather_succ, HashTable.entryAt_of_content ha.new,
      gather_eq_of_holes ha.used_le fun i h1 h2 => HashTable.entryAt_of_not_live (ha.gap i h1 h2)]
    rw [gather_congr fun i hi => HashTable.entryAt_congr (ha.old i hi)]
    rfl
  next := by
    rw [hn, nextFreeOf_toInt (hrep.next ▸ t.nextFree_nonneg), hrep.next]
    rfl

omit [DecidableEq K] in
lemma entry_unique (hrep : Represents hashVal ht t) {e e' : HashKey K × V}
    (hi : i < ht.nNumUsed) (hj : j < ht.nNumUsed) (he : ht.entryAt i = some e)
    (he' : ht.entryAt j = some e') (hkey : e.1 = e'.1) : i = j := by
  have hnd := t.map.keys_nodup
  rw [← hrep.walk] at hnd
  exact gather_key_inj hnd hi hj he he' hkey

section

variable (hrep : Represents hashVal s.ht t)
include hrep

section

variable (hkey : ∀ k, key = some k → h = hashVal k)
include hkey

lemma overwritten {p : ℕ} (hp : s.ht.Holds h key p) (ho : Overwritten s s' p v) (hwf : s'.ht.Wf)
    (hnx : s'.ht.nNextFreeElement = nextFreeOf h key s.ht.nNextFreeElement ∨
      s'.ht.nNextFreeElement = s.ht.nNextFreeElement ∧ s.ht.packed = true) :
    Represents hashVal s'.ht (t.store (hashKeyOf h key) v) := by
  have hm : hashKeyOf h key ∈ t.map.keys := (hrep.mem_keys_iff hkey).mpr ⟨p, hp⟩
  obtain ⟨hlt, w, hen⟩ := (hrep.holds_iff hkey p).mp hp
  have hsm : ∀ i, (s'.ht.arData i).h = (s.ht.arData i).h ∧
      (s'.ht.arData i).key = (s.ht.arData i).key ∧ (s'.ht.live i ↔ s.ht.live i) := by
    intro i
    by_cases hi : i = p
    · subst hi
      have hc := ho.this
      simp only [content, Prod.mk.injEq] at hc
      have hl : s'.ht.live i := by simp [live, hc.2.2]
      exact ⟨hc.1, hc.2.1, fun _ => hp.live.2, fun _ => hl⟩
    · have hc := ho.other i hi
      have hl := live_congr hc
      simp only [content, Prod.mk.injEq] at hc
      exact ⟨hc.1, hc.2.1, hl⟩
  refine ⟨hwf, ⟨?_, ?_, ?_⟩, ?_, ?_⟩
  · rw [ho.used]
    intro i hi hl k hk
    rw [(hsm i).1]
    exact hrep.keyed.str_hash i hi ((hsm i).2.2.mp hl) k ((hsm i).2.1 ▸ hk)
  · rw [ho.used, ho.packed]
    intro hpk i hi hl
    rw [(hsm i).1]
    exact hrep.keyed.packed_index hpk i hi ((hsm i).2.2.mp hl)
  · rw [ho.packed, ho.hash]
    exact hrep.keyed.packed_hash
  · rw [store_map, OrderedMap.entries_store_of_mem hm, ← hrep.walk, HashTable.walk, ho.used]
    refine gather_map _ fun i hi => ?_
    by_cases hip : i = p
    · subst hip
      have hnw : s'.ht.entryAt i = some (hashKeyOf h key, v) := by
        rw [HashTable.entryAt_of_content ho.this]
        rw [entryAt] at hen
        cases hv : (s.ht.arData i).val with
        | none => simp [hv] at hen
        | some u =>
          simp only [hv, map_some, some.injEq, Prod.mk.injEq] at hen
          rw [hen.1]
      simp [hnw, hen, OrderedMap.overwrite]
    · rw [entryAt_congr (ho.other i hip)]
      cases he : s.ht.entryAt i with
      | none => rfl
      | some e =>
        have hne : e.1 ≠ hashKeyOf h key := fun hek =>
          hip (hrep.entry_unique hi hlt he hen hek)
        simp [OrderedMap.overwrite, hne]
  · have hsy := raise_of_mem hm
    rw [store_nextFree]
    rcases hnx with hn | ⟨hn, -⟩
    · rw [hn, nextFreeOf_toInt (hrep.next ▸ t.nextFree_nonneg), hrep.next]
    · rw [hn, hrep.next, hsy]

/-- **Insertion**: whatever path it takes, the table after it represents the map after it, and the
result is the one the map dictates. -/
theorem insert {flag : HashFlag} {r : Option ℕ} (hef : InsertEffect s h key v flag s' r)
    (hnw : flag.addNew = true → hashKeyOf h key ∉ t.map.keys) :
    Represents hashVal s'.ht (t.insert flag.add (hashKeyOf h key) v).1 ∧
      r.bind (fun p => (s'.ht.arData p).val) = (t.insert flag.add (hashKeyOf h key) v).2 := by
  unfold OrderedTable.insert
  cases hef with
  | kept p hp ha =>
    rw [if_pos ⟨ha, (hrep.mem_keys_iff hkey).mpr ⟨p, hp⟩⟩]
    exact ⟨hrep, rfl⟩
  | overwritten s' p hp ha ho hwf hn =>
    rw [if_neg fun hh => by rw [ha] at hh; cases hh.1]
    exact ⟨hrep.overwritten hkey hp ho hwf hn, congrArg (fun c => c.2.2) ho.this⟩
  | appended s1 s' idx hab hse hap hpc hwf hn =>
    have ha' : hashKeyOf h key ∉ t.map.keys := by
      rcases hab with hab | hf
      · rw [hrep.mem_keys_iff hkey]
        exact fun ⟨p, hp⟩ => hab p hp
      · exact hnw hf
    rw [if_neg fun hh => ha' hh.2]
    exact ⟨(hrep.settles hse).appended hkey hap hwf hpc hn ha', congrArg (fun c => c.2.2) hap.new⟩

lemma remove {r : Bool} (hef : DeleteEffect s h key s' r) :
    Represents hashVal s'.ht (t.remove (hashKeyOf h key)).1 ∧
      r = (t.remove (hashKeyOf h key)).2 := by
  unfold OrderedTable.remove
  cases hef with
  | missing ha =>
    have hm : hashKeyOf h key ∉ t.map.keys := by
      rw [hrep.mem_keys_iff hkey]
      exact fun ⟨p, hp⟩ => ha p hp
    refine ⟨{ hrep with walk := ?_ }, by simp [hm]⟩
    rw [hrep.walk, erase_entries]
    symm
    rw [List.filter_eq_self]
    intro e he
    simp only [decide_eq_true_eq]
    exact fun hek => hm (hek ▸ List.mem_map_of_mem he)
  | removed s' idx hp hrm hwf =>
    obtain ⟨hlt, w, hen⟩ := (hrep.holds_iff hkey idx).mp hp
    refine ⟨⟨hwf, ⟨?_, ?_, ?_⟩, ?_, ?_⟩, ?_⟩
    · intro i hi hl k hk
      have hne := ((hrm.live_iff i).mp hl).2
      have hc := hrm.other i hne
      simp only [content, Prod.mk.injEq] at hc
      rw [hc.1]
      exact hrep.keyed.str_hash i (hi.trans_le hrm.used_le) ((hrm.live_iff i).mp hl).1 k
        (hc.2.1 ▸ hk)
    · intro hpk i hi hl
      rw [hrm.packed] at hpk
      have hne := ((hrm.live_iff i).mp hl).2
      have hc := hrm.other i hne
      simp only [content, Prod.mk.injEq] at hc
      rw [hc.1]
      exact hrep.keyed.packed_index hpk i (hi.trans_le hrm.used_le) ((hrm.live_iff i).mp hl).1
    · intro hpk
      rw [hrm.packed] at hpk
      rw [hrm.packed_hash hpk]
      exact hrep.keyed.packed_hash hpk
    · rw [erase_entries, ← hrep.walk, HashTable.walk, HashTable.walk,
        ← gather_eq_of_holes hrm.used_le fun i h1 h2 =>
          HashTable.entryAt_of_not_live (hrm.trimmed i h1 h2)]
      refine gather_filter _ fun i hi => ?_
      by_cases hid : i = idx
      · subst hid
        rw [HashTable.entryAt_of_not_live hrm.not_live, hen]
        simp [Option.filter]
      rw [entryAt_congr (hrm.other i hid)]
      cases he : s.ht.entryAt i with
      | none => rfl
      | some e =>
        have hne : e.1 ≠ hashKeyOf h key := fun hek =>
          hid (hrep.entry_unique hi hlt he hen hek)
        simp [Option.filter, hne]
    · rw [hrm.nNextFreeElement, hrep.next]
      rfl
    · have hm := (hrep.mem_keys_iff hkey).mpr ⟨idx, hp⟩
      simp [hm]

end

end

end Effects

end Represents

end PhpInternals.Zend.ZendHash

import PhpInternals.Found.CString
import PhpInternals.Zend.ZendHash.Refinement

/-!
# `zend_hash_compare`

A key is its bytes. `deref` follows `IS_INDIRECT`: it gives `none` when `IS_UNDEF` is behind it.
-/

namespace PhpInternals.Zend.ZendHash

open HashKey HashTable Option Found List

variable {V : Type}

/-! ## The function -/

/-- How a comparison can fail to return. -/
inductive CompareError where
  /-- `ZEND_ASSERT(idx2 != ht2->nNumUsed)`. -/
  | assertion
  /-- A lookup in the second table does not end. -/
  | lookup (e : HashError)
  /-- `zend_error_noreturn(E_ERROR, "Nesting level too deep - recursive dependency?")`. -/
  | nestingTooDeep
  deriving DecidableEq, Repr

/-- `while (1)`: the next bucket of the second table that is not `IS_UNDEF`, with its value; `n`
buckets are left, from `idx2` on. Source: `zend_hash.c` `zend_hash_compare_impl`. -/
def nextDefined {K : Type} (arData : ℕ → Bucket K V) : (n idx2 : ℕ) → Option (ℕ × V)
  | 0, _ => none
  | n + 1, idx2 =>
    match (arData idx2).val with
    | some v => some (idx2, v)
    | none => nextDefined arData n (idx2 + 1)

/-- The keys of two buckets: integers by value (unsigned), strings by length and bytes, and a string
is larger than an integer. Source: `zend_hash.c` `zend_hash_compare_impl`. -/
def compareKeys (p1 p2 : Bucket (List UInt8) V) : ℤ :=
  match p1.key, p2.key with
  | none, none => if p1.h ≠ p2.h then if p1.h.toNat > p2.h.toNat then 1 else -1 else 0
  | some k1, some k2 =>
    if k1.length ≠ k2.length then if k1.length > k2.length then 1 else -1 else memcmp k1 k2
  | some _, none => 1
  | none, some _ => -1

/-- The values of two buckets. Source: `zend_hash.c` `zend_hash_compare_impl`. -/
def compareData (compar : V → V → ℤ) (deref : V → Option V) (pData1 pData2 : V) : ℤ :=
  match deref pData1, deref pData2 with
  | none, none => 0
  | none, some _ => -1
  | some _, none => 1
  | some v1, some v2 => compar v1 v2

/-- A result other than `0` is returned. -/
def unlessZero (result : ℤ) (rest : Except CompareError ℤ) : Except CompareError ℤ :=
  if result ≠ 0 then .ok result else rest

section function

variable (hashVal : List UInt8 → BitVec 64) (compar : V → V → ℤ) (deref : V → Option V)
  (ht1 ht2 : HashTable (List UInt8) V)

/-- The loop over the first table: `n` buckets are left, from `idx1` on. Source: `zend_hash.c`
`zend_hash_compare_impl`. -/
def zendHashCompareLoop (ordered : Bool) : (n idx1 idx2 : ℕ) → Except CompareError ℤ
  | 0, _, _ => .ok 0
  | n + 1, idx1, idx2 =>
    let p1 := ht1.arData idx1
    match p1.val with
    | none => zendHashCompareLoop ordered n (idx1 + 1) idx2
    | some pData1 =>
      if ordered then
        match nextDefined ht2.arData (ht2.nNumUsed - idx2) idx2 with
        | none => .error .assertion
        | some (idx2, pData2) =>
          unlessZero (compareKeys p1 (ht2.arData idx2))
            (unlessZero (compareData compar deref pData1 pData2)
              (zendHashCompareLoop ordered n (idx1 + 1) (idx2 + 1)))
      else
        let found := match p1.key with
          | none => zendHashIndexFind ht2 p1.h
          | some key => zendHashFind hashVal ht2 key
        match found with
        | .error e => .error (.lookup e)
        | .ok none => .ok 1
        | .ok (some pData2) =>
          unlessZero (compareData compar deref pData1 pData2)
            (zendHashCompareLoop ordered n (idx1 + 1) idx2)

/-- Source: `zend_hash_compare_impl`. -/
def zendHashCompareImpl (ordered : Bool) : Except CompareError ℤ :=
  if ht1.nNumOfElements ≠ ht2.nNumOfElements then
    .ok (if ht1.nNumOfElements > ht2.nNumOfElements then 1 else -1)
  else zendHashCompareLoop hashVal compar deref ht1 ht2 ordered ht1.nNumUsed 0 0

end function

/-- The apply counts of the tables, by address; `none` for a table without
`HASH_FLAG_APPLY_PROTECTION`. Source: `zend_hash.h` `ZEND_HASH_GET_APPLY_COUNT`. -/
abbrev ApplyCounts := ℕ → Option ℕ

/-- Source: `HASH_PROTECT_RECURSION`. -/
def hashProtectRecursion (counts : ApplyCounts) (addr : ℕ) : Except CompareError ApplyCounts :=
  match counts addr with
  | none => .ok counts
  | some n =>
    if n ≥ 3 then .error .nestingTooDeep else .ok (Function.update counts addr (some (n + 1)))

/-- Source: `HASH_UNPROTECT_RECURSION`. -/
def hashUnprotectRecursion (counts : ApplyCounts) (addr : ℕ) : ApplyCounts :=
  match counts addr with
  | none => counts
  | some n => Function.update counts addr (some (n - 1))

/-- Source: `zend_hash_compare`. -/
def zendHashCompare (hashVal : List UInt8 → BitVec 64) (compar : V → V → ℤ) (deref : V → Option V)
    (counts : ApplyCounts) (ht1 ht2 : HashTable (List UInt8) V) (ordered : Bool) :
    Except CompareError (ℤ × ApplyCounts) := do
  let counts ← hashProtectRecursion counts ht1.addr
  let counts ← hashProtectRecursion counts ht2.addr
  let result ← zendHashCompareImpl hashVal compar deref ht1 ht2 ordered
  return (result, hashUnprotectRecursion (hashUnprotectRecursion counts ht1.addr) ht2.addr)

/-! ## What is compared -/

/-- The order of keys. -/
def HashKey.compare : HashKey (List UInt8) → HashKey (List UInt8) → ℤ
  | .index h1, .index h2 => if h1 ≠ h2 then if h1.toNat > h2.toNat then 1 else -1 else 0
  | .str k1, .str k2 =>
    if k1.length ≠ k2.length then if k1.length > k2.length then 1 else -1 else memcmp k1 k2
  | .str _, .index _ => 1
  | .index _, .str _ => -1

lemma compareKeys_eq (p1 p2 : Bucket (List UInt8) V) :
    compareKeys p1 p2 = (hashKeyOf p1.h p1.key).compare (hashKeyOf p2.h p2.key) := by
  rw [compareKeys]
  cases p1.key <;> cases p2.key <;> rfl

lemma HashKey.compare_swap (a b : HashKey (List UInt8)) : b.compare a = -a.compare b := by
  cases a with
  | index h1 =>
    cases b with
    | index h2 =>
      have hn : h1 = h2 ↔ h1.toNat = h2.toNat := ⟨congrArg _, BitVec.eq_of_toNat_eq⟩
      simp only [compare, ne_eq, eq_comm, hn]
      split_ifs <;> omega
    | str k2 => rfl
  | str k1 =>
    cases b with
    | index h2 => rfl
    | str k2 =>
      simp only [compare, memcmp_swap k1 k2]
      split_ifs <;> omega

lemma HashKey.compare_eq_zero {a b : HashKey (List UInt8)} : a.compare b = 0 ↔ a = b := by
  constructor
  · intro h
    cases a with
    | index h1 =>
      cases b with
      | index h2 =>
        by_contra hne
        have hn' : h1 ≠ h2 := fun heq => hne (by rw [heq])
        rw [compare] at h
        split_ifs at h
        omega
      | str k2 => exact absurd h (by decide : (-1 : ℤ) ≠ 0)
    | str k1 =>
      cases b with
      | index h2 => exact absurd h (by decide : (1 : ℤ) ≠ 0)
      | str k2 =>
        by_cases hl : k1.length = k2.length
        · rw [compare, if_neg (not_not.mpr hl)] at h
          rw [eq_of_memcmp hl h]
        · rw [compare, if_pos hl] at h
          omega
  · rintro rfl
    cases a with
    | index h1 => simp [compare]
    | str k1 => simp [compare, memcmp_self]

section abstractly

variable (compar : V → V → ℤ) (deref : V → Option V)

/-- Two sequences, entry by entry: the first difference decides. -/
def compareSequences : List (HashKey (List UInt8) × V) → List (HashKey (List UInt8) × V) → ℤ
  | e1 :: l1, e2 :: l2 =>
    if e1.1.compare e2.1 ≠ 0 then e1.1.compare e2.1
    else if compareData compar deref e1.2 e2.2 ≠ 0 then compareData compar deref e1.2 e2.2
    else compareSequences l1 l2
  | _, _ => 0

/-- A sequence against a map: the first entry that the map does not have decides. -/
def compareLookups (m : OrderedMap (HashKey (List UInt8)) V) :
    List (HashKey (List UInt8) × V) → ℤ
  | [] => 0
  | e :: l =>
    match m.lookup e.1 with
    | none => 1
    | some w =>
      if compareData compar deref e.2 w ≠ 0 then compareData compar deref e.2 w
      else compareLookups m l

/-- The result for two maps. -/
def compareMaps (ordered : Bool) (m1 m2 : OrderedMap (HashKey (List UInt8)) V) : ℤ :=
  if m1.entries.length ≠ m2.entries.length then
    if m1.entries.length > m2.entries.length then 1 else -1
  else if ordered then compareSequences compar deref m1.entries m2.entries
  else compareLookups compar deref m2 m1.entries

end abstractly

/-! ## The loops -/

section loops

variable {hashVal : List UInt8 → BitVec 64} {compar : V → V → ℤ} {deref : V → Option V}
  {ht1 ht2 : HashTable (List UInt8) V} {t2 : OrderedTable (List UInt8) V}

lemma nextDefined_spec {K : Type} {ht : HashTable K V} {e : HashKey K × V}
    {l : List (HashKey K × V)} : ∀ {n idx : ℕ}, (range' idx n).filterMap ht.entryAt = e :: l →
      ∃ j m, nextDefined ht.arData n idx = some (j, e.2) ∧
        hashKeyOf (ht.arData j).h (ht.arData j).key = e.1 ∧ n = (j - idx) + 1 + m ∧ idx ≤ j ∧
        (range' (j + 1) m).filterMap ht.entryAt = l
  | 0, _, h => by simp at h
  | n + 1, idx, h => by
    rw [range'_succ] at h
    cases hv : (ht.arData idx).val with
    | none =>
      rw [filterMap_cons_none (entryAt_of_val_none hv)] at h
      obtain ⟨j, m, hnx, hk, hn, hle, hl⟩ := nextDefined_spec h
      refine ⟨j, m, ?_, hk, by omega, by omega, hl⟩
      rw [nextDefined, hv]
      exact hnx
    | some v =>
      rw [filterMap_cons_some (entryAt_of_val_some hv)] at h
      obtain ⟨rfl, hl⟩ := cons.inj h
      refine ⟨idx, n, ?_, rfl, by omega, le_rfl, hl⟩
      rw [nextDefined, hv]

/-- **The ordered loop** compares the sequences of the entries that are left. -/
theorem zendHashCompareLoop_ordered : ∀ (n idx1 idx2 : ℕ) (l1 l2 : List (HashKey (List UInt8) × V)),
    (range' idx1 n).filterMap ht1.entryAt = l1 →
    (range' idx2 (ht2.nNumUsed - idx2)).filterMap ht2.entryAt = l2 → l1.length = l2.length →
    zendHashCompareLoop hashVal compar deref ht1 ht2 true n idx1 idx2 =
      .ok (compareSequences compar deref l1 l2)
  | 0, _, _, l1, l2, h1, _, hln => by
    obtain rfl : [] = l1 := h1
    rw [zendHashCompareLoop, compareSequences]
    simp
  | n + 1, idx1, idx2, l1, l2, h1, h2, hln => by
    rw [range'_succ] at h1
    rw [zendHashCompareLoop]
    cases hv : (ht1.arData idx1).val with
    | none =>
      rw [filterMap_cons_none (entryAt_of_val_none hv)] at h1
      exact zendHashCompareLoop_ordered n _ _ l1 l2 h1 h2 hln
    | some v =>
      rw [filterMap_cons_some (entryAt_of_val_some hv)] at h1
      subst h1
      obtain ⟨e2, l2', rfl⟩ : ∃ e2 l2', l2 = e2 :: l2' :=
        exists_cons_of_length_pos (by rw [← hln]; simp)
      obtain ⟨j, m, hnx, hk, hn, hle, hl⟩ := nextDefined_spec h2
      have hr : (range' (j + 1) (ht2.nNumUsed - (j + 1))).filterMap ht2.entryAt = l2' := by
        rw [← hl]
        congr 2
        omega
      have ih := zendHashCompareLoop_ordered n (idx1 + 1) (j + 1) _ l2' rfl hr (by simpa using hln)
      simp only [if_true, hnx, compareKeys_eq, hk, ih, unlessZero, compareSequences]
      split_ifs <;> rfl

/-- **The unordered loop** looks up the entries that are left. -/
theorem zendHashCompareLoop_unordered (hr : Represents hashVal ht2 t2) : ∀ (n idx1 : ℕ),
    zendHashCompareLoop hashVal compar deref ht1 ht2 false n idx1 0 =
      .ok (compareLookups compar deref t2.map ((range' idx1 n).filterMap ht1.entryAt))
  | 0, _ => rfl
  | n + 1, idx1 => by
    rw [range'_succ, zendHashCompareLoop]
    cases hv : (ht1.arData idx1).val with
    | none =>
      rw [filterMap_cons_none (entryAt_of_val_none hv)]
      exact zendHashCompareLoop_unordered hr n _
    | some v =>
      have hf : (match (ht1.arData idx1).key with
          | none => zendHashIndexFind ht2 (ht1.arData idx1).h
          | some key => zendHashFind hashVal ht2 key) =
          .ok (t2.map.lookup (hashKeyOf (ht1.arData idx1).h (ht1.arData idx1).key)) := by
        cases (ht1.arData idx1).key with
        | none => exact hr.indexFind _
        | some key => exact hr.find key
      rw [filterMap_cons_some (entryAt_of_val_some hv)]
      simp only [Bool.false_eq_true, if_false, hf, compareLookups,
        zendHashCompareLoop_unordered hr n]
      cases t2.map.lookup (hashKeyOf (ht1.arData idx1).h (ht1.arData idx1).key) with
      | none => rfl
      | some w =>
        simp only [unlessZero]
        split_ifs <;> rfl

/-- **The result is that of the two maps**, whatever the layout of the tables. -/
theorem zendHashCompareImpl_eq {t1 : OrderedTable (List UInt8) V}
    (hrep1 : Represents hashVal ht1 t1)
    (hrep2 : Represents hashVal ht2 t2) (ordered : Bool) :
    zendHashCompareImpl hashVal compar deref ht1 ht2 ordered =
      .ok (compareMaps compar deref ordered t1.map t2.map) := by
  have hw : (range' 0 ht1.nNumUsed).filterMap ht1.entryAt = t1.map.entries := by
    rw [← hrep1.walk, walk, gather_eq_filterMap_range']
  have hwl : (range' 0 (ht2.nNumUsed - 0)).filterMap ht2.entryAt = t2.map.entries := by
    rw [← hrep2.walk, walk, gather_eq_filterMap_range', Nat.sub_zero]
  rw [zendHashCompareImpl, compareMaps, hrep1.numOfElements, hrep2.numOfElements]
  split_ifs with hne hgt ho
  · rfl
  · rfl
  · rw [ho]
    exact zendHashCompareLoop_ordered _ _ _ _ _ hw hwl (not_not.mp hne)
  · rw [Bool.not_eq_true] at ho
    rw [ho, zendHashCompareLoop_unordered hrep2, hw]

end loops

/-! ## What the results tell -/

section results

variable {compar : V → V → ℤ} {deref : V → Option V}

lemma compareData_eq_zero (hz : ∀ a b, compar a b = 0 ↔ a = b) {v w : V}
    (hv : (deref v).isSome = true) (hw : (deref w).isSome = true) :
    compareData compar deref v w = 0 ↔ deref v = deref w := by
  obtain ⟨a, ha⟩ := isSome_iff_exists.mp hv
  obtain ⟨b, hb⟩ := isSome_iff_exists.mp hw
  rw [compareData, ha, hb]
  simp [hz]

/-- The entry with the value that is compared. -/
def derefEntry (deref : V → Option V) (e : HashKey (List UInt8) × V) :
    HashKey (List UInt8) × Option V := (e.1, deref e.2)

/-- **The ordered comparison**: `0` for equal sequences only. -/
theorem compareSequences_eq_zero (hz : ∀ a b, compar a b = 0 ↔ a = b) :
    ∀ {l1 l2 : List (HashKey (List UInt8) × V)}, l1.length = l2.length →
      (∀ e ∈ l1, (deref e.2).isSome = true) → (∀ e ∈ l2, (deref e.2).isSome = true) →
      (compareSequences compar deref l1 l2 = 0 ↔
      l1.map (derefEntry deref) = l2.map (derefEntry deref))
  | [], [], _, _, _ => by simp [compareSequences]
  | [], _ :: _, hl, _, _ => by simp at hl
  | _ :: _, [], hl, _, _ => by simp at hl
  | e1 :: l1, e2 :: l2, hl, h1, h2 => by
    rw [forall_mem_cons] at h1 h2
    have ih := compareSequences_eq_zero hz (by simpa using hl : l1.length = l2.length) h1.2 h2.2
    have hdt := compareData_eq_zero hz h1.1 h2.1
    simp only [compareSequences, map_cons, cons.injEq, derefEntry, Prod.mk.injEq]
    split_ifs with hk hv
    · exact iff_of_false hk fun h => hk (compare_eq_zero.mpr h.1.1)
    · exact iff_of_false hv fun h => hv (hdt.mpr h.1.2)
    · rw [not_not] at hk hv
      rw [ih]
      exact ⟨fun h => ⟨⟨compare_eq_zero.mp hk, hdt.mp hv⟩, h⟩, fun h => h.2⟩

variable {m : OrderedMap (HashKey (List UInt8)) V}

lemma compareLookups_eq_zero_iff (hz : ∀ a b, compar a b = 0 ↔ a = b)
    (hm : ∀ e ∈ m.entries, (deref e.2).isSome = true) :
    ∀ {l : List (HashKey (List UInt8) × V)}, (∀ e ∈ l, (deref e.2).isSome = true) →
      (compareLookups compar deref m l = 0 ↔ ∀ e ∈ l, (m.lookup e.1).bind deref = deref e.2)
  | [], _ => by simp [compareLookups]
  | e :: l, hl => by
    rw [forall_mem_cons] at hl
    have ih := compareLookups_eq_zero_iff hz hm hl.2
    rw [compareLookups, forall_mem_cons]
    cases hlk : m.lookup e.1 with
    | none =>
      refine iff_of_false (by simp) fun h => ?_
      have hn : deref e.2 = none := h.1.symm
      rw [hn] at hl
      exact absurd hl.1 (by simp)
    | some w =>
      have hw := hm _ (m.lookup_eq_some_iff.mp hlk)
      have hdt := compareData_eq_zero hz hl.1 hw
      simp only [bind_some]
      split_ifs with hv
      · exact iff_of_false hv fun h => hv (hdt.mpr h.1.symm)
      · rw [not_not] at hv
        rw [ih]
        exact ⟨fun h => ⟨(hdt.mp hv).symm, h⟩, fun h => h.2⟩

/-- **The unordered comparison**: `0` for equal maps only. Lookups of the entries of one map are
enough, since the other has no more of them. -/
theorem compareLookups_eq_zero (hz : ∀ a b, compar a b = 0 ↔ a = b)
    {m1 m2 : OrderedMap (HashKey (List UInt8)) V} (hln : m1.entries.length = m2.entries.length)
    (h1 : ∀ e ∈ m1.entries, (deref e.2).isSome = true)
    (h2 : ∀ e ∈ m2.entries, (deref e.2).isSome = true) :
    compareLookups compar deref m2 m1.entries = 0 ↔
      ∀ k, (m1.lookup k).bind deref = (m2.lookup k).bind deref := by
  rw [compareLookups_eq_zero_iff hz h2 h1]
  constructor
  · intro h k
    have hsb : ∀ k ∈ m1.keys, k ∈ m2.keys := by
      intro k hk
      obtain ⟨e, he, rfl⟩ := mem_map.mp hk
      by_contra hn
      have hvl := h e he
      rw [m2.lookup_eq_none_iff.mpr hn] at hvl
      have hs := h1 e he
      rw [← hvl] at hs
      exact absurd hs (by simp)
    cases hl : m1.lookup k with
    | none =>
      rw [OrderedMap.lookup_eq_none_iff, OrderedMap.mem_keys_iff_of_subset hsb hln.ge] at hl
      rw [m2.lookup_eq_none_iff.mpr hl]
    | some v => exact (h (k, v) (m1.lookup_eq_some_iff.mp hl)).symm
  · intro h e he
    rw [← h e.1, m1.lookup_eq_some_iff.mpr he]
    rfl

lemma isSome_lookup_deref
    (hdf : ∀ e ∈ m.entries, (deref e.2).isSome = true) (k : HashKey (List UInt8)) :
    ((m.lookup k).bind deref).isSome = true ↔ k ∈ m.keys := by
  cases hl : m.lookup k with
  | none =>
    rw [m.lookup_eq_none_iff] at hl
    simp [hl]
  | some v =>
    have hmm := m.lookup_eq_some_iff.mp hl
    exact iff_of_true (hdf _ hmm) (mem_map_of_mem hmm)

/-- **The ordered comparison the other way around.** -/
theorem compareSequences_sign (han : ∀ a b, (compar b a).sign = -(compar a b).sign) :
    ∀ l1 l2 : List (HashKey (List UInt8) × V),
      (compareSequences compar deref l2 l1).sign = -(compareSequences compar deref l1 l2).sign
  | [], [] => rfl
  | [], _ :: _ => rfl
  | _ :: _, [] => rfl
  | e1 :: l1, e2 :: l2 => by
    have hda : (compareData compar deref e2.2 e1.2).sign =
        -(compareData compar deref e1.2 e2.2).sign := by
      rw [compareData, compareData]
      cases deref e1.2 <;> cases deref e2.2
      · rfl
      · rfl
      · rfl
      · exact han _ _
    have hdt : compareData compar deref e2.2 e1.2 = 0 ↔ compareData compar deref e1.2 e2.2 = 0 := by
      rw [← Int.sign_eq_zero_iff_zero, hda, neg_eq_zero, Int.sign_eq_zero_iff_zero]
    have ih := compareSequences_sign han l1 l2
    simp only [compareSequences, compare_swap e1.1 e2.1, ne_eq, neg_eq_zero, hdt]
    split_ifs
    · exact ih
    · exact hda
    · exact Int.sign_neg _

/-! ## Apply counts -/

/-- One of the two counts is at its limit; a table compared with itself is counted twice. -/
def TooDeep (counts : ApplyCounts) (addr1 addr2 : ℕ) : Prop :=
  (∃ n, counts addr1 = some n ∧ 3 ≤ n) ∨
    ∃ n, counts addr2 = some n ∧ 3 ≤ if addr2 = addr1 then n + 1 else n

variable {counts : ApplyCounts}

variable {addr : ℕ}

lemma hashProtectRecursion_error {n : ℕ} (h : counts addr = some n) (hn : 3 ≤ n) :
    hashProtectRecursion counts addr = .error .nestingTooDeep := by
  rw [hashProtectRecursion, h]
  exact if_pos hn

lemma hashProtectRecursion_ok (h : ∀ n, counts addr = some n → n < 3) :
    hashProtectRecursion counts addr =
      .ok fun x => (counts x).map fun n => if x = addr then n + 1 else n := by
  rw [hashProtectRecursion]
  cases hc : counts addr with
  | none =>
    refine congrArg Except.ok (funext fun x => ?_)
    by_cases hx : x = addr
    · rw [hx, hc]
      rfl
    · simp [hx]
  | some n =>
    have hlt := h n hc
    simp only [if_neg (not_le.mpr hlt)]
    refine congrArg Except.ok (funext fun x => ?_)
    by_cases hx : x = addr
    · simp [hx, hc]
    · simp [hx]

lemma hashUnprotectRecursion_eq (counts : ApplyCounts) (addr : ℕ) :
    hashUnprotectRecursion counts addr =
      fun x => (counts x).map fun n => if x = addr then n - 1 else n := by
  funext x
  rw [hashUnprotectRecursion]
  by_cases hx : x = addr
  · subst hx
    cases hc : counts x <;> simp [hc]
  · cases hc : counts addr <;> simp [hx]

/-- **The apply counts** stop a comparison that is nested too deep, and are as before after any
other. -/
theorem zendHashCompare_eq {hashVal : List UInt8 → BitVec 64} {ht1 ht2 : HashTable (List UInt8) V}
    {ordered : Bool} {r : ℤ}
    (hi : zendHashCompareImpl hashVal compar deref ht1 ht2 ordered = .ok r) :
    (TooDeep counts ht1.addr ht2.addr →
        zendHashCompare hashVal compar deref counts ht1 ht2 ordered = .error .nestingTooDeep) ∧
      (¬ TooDeep counts ht1.addr ht2.addr →
        zendHashCompare hashVal compar deref counts ht1 ht2 ordered = .ok (r, counts)) := by
  rw [zendHashCompare]
  by_cases hf : ∀ n, counts ht1.addr = some n → n < 3
  · rw [hashProtectRecursion_ok hf]
    simp only [bind, Except.bind]
    constructor
    · rintro (⟨n, hn, hge⟩ | ⟨n, hn, hge⟩)
      · exact absurd (hf n hn) (by omega)
      · rw [hashProtectRecursion_error (by rw [hn]; rfl) hge]
    intro hnt
    rw [hashProtectRecursion_ok, hi]
    · simp only [hashUnprotectRecursion_eq]
      refine congrArg (fun c => Except.ok (r, c)) (funext fun x => ?_)
      cases counts x with
      | none => rfl
      | some n =>
        simp only [map_some, some.injEq]
        split_ifs <;> omega
    · intro n hn
      obtain ⟨m, hm, rfl⟩ := map_eq_some_iff.mp hn
      by_contra hge
      exact hnt (.inr ⟨m, hm, not_lt.mp hge⟩)
  · push Not at hf
    obtain ⟨n, hn, hge⟩ := hf
    rw [hashProtectRecursion_error hn hge]
    exact ⟨fun _ => rfl, fun hnt => absurd (.inl ⟨n, hn, hge⟩) hnt⟩

variable (compar deref) in
/-- **`zend_hash_compare`.** Unless it is nested too deep it returns a result that depends on the
two maps only. In the ordered mode the result is `0` for equal sequences of keys and values only, in
the unordered mode for equal maps only; and the ordered result changes its sign with the order of
the tables if the comparison of values does. -/
theorem zendHashCompare_compares {hashVal : List UInt8 → BitVec 64}
    {ht1 ht2 : HashTable (List UInt8) V} {t1 t2 : OrderedTable (List UInt8) V}
    (hrep1 : Represents hashVal ht1 t1) (hrep2 : Represents hashVal ht2 t2)
    (hdef1 : ∀ e ∈ t1.map.entries, (deref e.2).isSome = true)
    (hdef2 : ∀ e ∈ t2.map.entries, (deref e.2).isSome = true)
    (hzero : ∀ a b, compar a b = 0 ↔ a = b) (counts : ApplyCounts) :
    (∀ ordered,
      (TooDeep counts ht1.addr ht2.addr →
        zendHashCompare hashVal compar deref counts ht1 ht2 ordered = .error .nestingTooDeep) ∧
      (¬ TooDeep counts ht1.addr ht2.addr →
        zendHashCompare hashVal compar deref counts ht1 ht2 ordered =
          .ok (compareMaps compar deref ordered t1.map t2.map, counts))) ∧
    (compareMaps compar deref true t1.map t2.map = 0 ↔
      t1.map.entries.map (derefEntry deref) = t2.map.entries.map (derefEntry deref)) ∧
    (compareMaps compar deref false t1.map t2.map = 0 ↔
      ∀ k, (t1.map.lookup k).bind deref = (t2.map.lookup k).bind deref) ∧
    ((∀ a b, (compar b a).sign = -(compar a b).sign) →
      (compareMaps compar deref true t2.map t1.map).sign =
        -(compareMaps compar deref true t1.map t2.map).sign) := by
  refine ⟨fun ordered =>
    zendHashCompare_eq (zendHashCompareImpl_eq hrep1 hrep2 ordered), ?_, ?_, ?_⟩
  · rw [compareMaps]
    by_cases hl : t1.map.entries.length = t2.map.entries.length
    · rw [if_neg (not_not.mpr hl)]
      exact compareSequences_eq_zero hzero hl hdef1 hdef2
    · refine iff_of_false (by split_ifs <;> decide) fun h => hl ?_
      simpa using congrArg length h
  · rw [compareMaps]
    by_cases hl : t1.map.entries.length = t2.map.entries.length
    · rw [if_neg (not_not.mpr hl)]
      exact compareLookups_eq_zero hzero hl hdef1 hdef2
    refine iff_of_false (by split_ifs <;> decide) fun h => hl ?_
    have hky : ∀ k, k ∈ t1.map.keys ↔ k ∈ t2.map.keys := fun k => by
      rw [← isSome_lookup_deref hdef1, h k, isSome_lookup_deref hdef2]
    have hp : t1.map.keys.Perm t2.map.keys :=
      (perm_ext_iff_of_nodup t1.map.keys_nodup t2.map.keys_nodup).mpr hky
    simpa [OrderedMap.keys] using hp.length_eq
  · intro han
    rw [compareMaps, compareMaps]
    by_cases hl : t1.map.entries.length = t2.map.entries.length
    · rw [if_neg (not_not.mpr hl.symm), if_neg (not_not.mpr hl)]
      exact compareSequences_sign han _ _
    rw [if_pos (Ne.symm hl)]
    split_ifs
    · omega
    · rfl
    · rfl
    · omega

end results

/-- A packed table with a hole and a hashed one. -/
theorem zendHashCompare_compares_layouts :
    ∃ (s1 s2 : HashState (List UInt8) ℤ), s1.ht.packed = true ∧ s2.ht.packed = false ∧
      zendHashCompare (fun _ => 3) (fun a b => a - b) some (fun _ => some 0) s1.ht s2.ht true =
        .ok (0, fun _ => some 0) := by
  let ops1 : List (HashOp (List UInt8) ℤ) := [.indexAdd 0 10, .indexAdd 1 20, .indexDel 0]
  let ops2 : List (HashOp (List UInt8) ℤ) := [.indexAdd 1 20, .add [0x61] 30, .del [0x61]]
  rcases HashState.run_represents (fun _ => 3) (s := ⟨⟨[], 0⟩, _⟩) ops1
    (zendHashInit_represents (rfl : zendHashInit 4096 8 = .ok _)) (by decide) with
    ⟨her, -⟩ | ⟨s1, hok1, hrep1⟩
  · cases her
  rcases HashState.run_represents (fun _ => 3) (s := ⟨⟨[], 0⟩, _⟩) ops2
    (zendHashInit_represents (rfl : zendHashInit 8192 8 = .ok _)) (by decide) with
    ⟨her, -⟩ | ⟨s2, hok2, hrep2⟩
  · cases her
  let packed : HashState (List UInt8) ℤ × List (Outcome ℤ) → Bool := fun r => r.1.ht.packed
  have hp : true = s1.ht.packed := Except.ok.inj (congrArg (Except.map packed) hok1)
  have hpc : false = s2.ht.packed := Except.ok.inj (congrArg (Except.map packed) hok2)
  obtain ⟨hc, ho, -⟩ := zendHashCompare_compares (fun a b : ℤ => a - b) some hrep1
    hrep2 (fun _ _ => rfl) (fun _ _ => rfl) (fun a b => sub_eq_zero) fun _ => some 0
  refine ⟨s1, s2, hp.symm, hpc.symm, ?_⟩
  rw [(hc true).2, ho.mpr (by decide)]
  rintro (⟨n, hn, hge⟩ | ⟨n, hn, hge⟩)
  · obtain rfl := some.inj hn
    omega
  · obtain rfl := some.inj hn
    split_ifs at hge <;> omega

end PhpInternals.Zend.ZendHash

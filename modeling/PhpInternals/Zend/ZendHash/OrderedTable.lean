import PhpInternals.Found.OrderedMap
import PhpInternals.Zend.ZendHash.Basic

/-!
# What the hash table is for: an insertion-ordered map with a next free index

The abstract model of a PHP array, with no word about buckets, chains or layouts.
-/

namespace PhpInternals.Zend.ZendHash

open List Found

/-- A key of the map. -/
inductive HashKey (K : Type) where
  | index (h : BitVec 64)
  | str (key : K)
  deriving DecidableEq, Repr

instance {K : Type} [DecidableEq K] (k : HashKey K) (l : List (HashKey K)) : Decidable (k ∈ l) :=
  inferInstance

/-- A call of the interface. -/
inductive HashOp (K V : Type) where
  | add (key : K) (pData : V)
  | update (key : K) (pData : V)
  | addNew (key : K) (pData : V)
  | indexAdd (h : BitVec 64) (pData : V)
  | indexUpdate (h : BitVec 64) (pData : V)
  | nextIndexInsert (pData : V)
  | del (key : K)
  | indexDel (h : BitVec 64)
  | clean
  | extend (nSize : ℕ) (packed : Bool)
  | rehash
  deriving DecidableEq, Repr

/-- What a call returns. -/
inductive Outcome (V : Type) where
  /-- The value behind a `zval *`, `none` for `NULL`. -/
  | zval (r : Option V)
  /-- `SUCCESS` or `FAILURE`. -/
  | status (success : Bool)
  | void
  deriving DecidableEq, Repr

/-- `ZEND_LONG_MAX` as an integer. -/
def longMax : ℤ := 2 ^ 63 - 1

/-- The least next free index that an integer key allows. -/
def afterIndex (h : BitVec 64) : ℤ := min (h.toInt + 1) longMax

/-- An insertion-ordered map and its next free index. -/
structure OrderedTable (K V : Type) where
  map : OrderedMap (HashKey K) V
  nextFree : ℤ
  nextFree_nonneg : 0 ≤ nextFree
  nextFree_le : nextFree ≤ longMax
  /-- The next free index is past every integer key. -/
  bounded : ∀ h, HashKey.index h ∈ map.keys → afterIndex h ≤ nextFree

namespace OrderedTable

variable {K V : Type} [DecidableEq K]

/-- The table without entries. -/
def empty : OrderedTable K V where
  map := OrderedMap.empty
  nextFree := 0
  nextFree_nonneg := le_rfl
  nextFree_le := by decide
  bounded := by simp [OrderedMap.empty, OrderedMap.keys]

omit [DecidableEq K] in
/-- The next free index after storing under a key. -/
def raise (nextFree : ℤ) : HashKey K → ℤ
  | .index h => max nextFree (afterIndex h)
  | .str _ => nextFree

omit [DecidableEq K] in
lemma le_raise (n : ℤ) (k : HashKey K) : n ≤ raise n k := by
  cases k with
  | index h => exact le_max_left _ _
  | str _ => exact le_rfl

omit [DecidableEq K] in
lemma raise_le {n : ℤ} (hn : n ≤ longMax) (k : HashKey K) : raise n k ≤ longMax := by
  cases k with
  | index h => exact max_le hn (min_le_right _ _)
  | str _ => exact hn

/-- Storing a value. -/
def store (t : OrderedTable K V) (k : HashKey K) (v : V) : OrderedTable K V where
  map := t.map.store k v
  nextFree := raise t.nextFree k
  nextFree_nonneg := t.nextFree_nonneg.trans (le_raise _ _)
  nextFree_le := raise_le t.nextFree_le k
  bounded := by
    intro h hh
    rcases OrderedMap.mem_keys_store.mp hh with rfl | hmem
    · exact le_max_right _ _
    · exact (t.bounded h hmem).trans (le_raise _ _)

/-- Removing a key; the next free index stays. -/
def erase (t : OrderedTable K V) (k : HashKey K) : OrderedTable K V :=
  { t with
    map := t.map.erase k
    bounded := fun h hh => t.bounded h (OrderedMap.mem_keys_of_mem_keys_erase hh) }

@[simp] lemma store_map (t : OrderedTable K V) (k : HashKey K) (v : V) :
    (t.store k v).map = t.map.store k v := rfl

@[simp] lemma store_nextFree (t : OrderedTable K V) (k : HashKey K) (v : V) :
    (t.store k v).nextFree = raise t.nextFree k := rfl

@[simp] lemma erase_entries (t : OrderedTable K V) (k : HashKey K) :
    (t.erase k).map.entries = t.map.entries.filter fun e => decide (e.1 ≠ k) := rfl

/-- Storing a value, unless the key is there and must be kept. -/
def insert (t : OrderedTable K V) (keep : Bool) (k : HashKey K) (v : V) :
    OrderedTable K V × Option V :=
  if keep = true ∧ k ∈ t.map.keys then (t, none) else (t.store k v, some v)

/-- Removing a key, and whether it was there. -/
def remove (t : OrderedTable K V) (k : HashKey K) : OrderedTable K V × Bool :=
  (t.erase k, decide (k ∈ t.map.keys))

/-- What the map dictates for a call. -/
def apply (t : OrderedTable K V) : HashOp K V → OrderedTable K V × Outcome V
  | .add key v => (t.insert true (.str key) v).map id .zval
  | .update key v => (t.insert false (.str key) v).map id .zval
  | .addNew key v => (t.insert false (.str key) v).map id .zval
  | .indexAdd h v => (t.insert true (.index h) v).map id .zval
  | .indexUpdate h v => (t.insert false (.index h) v).map id .zval
  | .nextIndexInsert v => (t.insert true (.index (BitVec.ofInt 64 t.nextFree)) v).map id .zval
  | .del key => (t.remove (.str key)).map id .status
  | .indexDel h => (t.remove (.index h)).map id .status
  | .clean => (empty, .void)
  | .extend _ _ => (t, .void)
  | .rehash => (t, .void)

/-- What the map dictates for a sequence of calls. -/
def run (t : OrderedTable K V) : List (HashOp K V) → OrderedTable K V × List (Outcome V)
  | [] => (t, [])
  | op :: ops => ((t.apply op).1.run ops).map id ((t.apply op).2 :: ·)

omit [DecidableEq K] in
lemma raise_of_mem {t : OrderedTable K V} {k : HashKey K} (hk : k ∈ t.map.keys) :
    raise t.nextFree k = t.nextFree := by
  cases k with
  | index h => exact max_eq_left (t.bounded h hk)
  | str _ => rfl

omit [DecidableEq K] in
/-- The same entries in another order. -/
def rearrange (t : OrderedTable K V) (entries : List (HashKey K × V))
    (h : entries.Perm t.map.entries) : OrderedTable K V where
  map := ⟨entries, (h.map Prod.fst).nodup_iff.mpr t.map.keys_nodup⟩
  nextFree := t.nextFree
  nextFree_nonneg := t.nextFree_nonneg
  nextFree_le := t.nextFree_le
  bounded := fun k hk => t.bounded k ((h.map Prod.fst).mem_iff.mp hk)

lemma lookup_rearrange (t : OrderedTable K V) {entries : List (HashKey K × V)}
    (h : entries.Perm t.map.entries) (k : HashKey K) :
    (t.rearrange entries h).map.lookup k = t.map.lookup k := by
  refine Option.ext fun v => ?_
  rw [OrderedMap.lookup_eq_some_iff, OrderedMap.lookup_eq_some_iff]
  exact h.mem_iff

omit [DecidableEq K] in
/-- The entries of a list: the values under the keys `0`, `1`, … -/
def listEntries (vs : List V) : List (HashKey K × V) :=
  vs.zipIdx.map fun e => (.index (BitVec.ofNat 64 e.2), e.1)

omit [DecidableEq K] in
lemma keys_listEntries (vs : List V) : (listEntries vs : List (HashKey K × V)).map Prod.fst =
      (range vs.length).map fun i => .index (BitVec.ofNat 64 i) := by
  rw [listEntries, map_map, range_eq_range', ← zipIdx_map_snd 0 vs, map_map]
  rfl

omit [DecidableEq K] in
/-- The table of a list. -/
def ofList (vs : List V) (hlen : vs.length < 2 ^ 63) : OrderedTable K V where
  map :=
    { entries := listEntries vs
      keys_nodup := by
        rw [keys_listEntries]
        refine List.Nodup.map_on (fun i hi j hj heq => ?_) nodup_range
        rw [mem_range] at hi hj
        have hnat := congrArg BitVec.toNat (HashKey.index.inj heq)
        rwa [BitVec.toNat_ofNat, BitVec.toNat_ofNat, Nat.mod_eq_of_lt (by omega),
          Nat.mod_eq_of_lt (by omega)] at hnat }
  nextFree := vs.length
  nextFree_nonneg := Int.natCast_nonneg _
  nextFree_le := by
    rw [longMax]
    omega
  bounded := by
    intro h hh
    rw [OrderedMap.keys, keys_listEntries, mem_map] at hh
    obtain ⟨i, hi, heq⟩ := hh
    rw [mem_range] at hi
    obtain rfl := HashKey.index.inj heq
    have hint : (BitVec.ofNat 64 i).toInt = i := by
      rw [BitVec.toInt_eq_toNat_bmod, BitVec.toNat_ofNat, Nat.mod_eq_of_lt (by omega)]
      exact Int.bmod_eq_of_le (by omega) (by omega)
    rw [afterIndex, hint]
    exact (min_le_left _ _).trans (by omega)

lemma lookup_ofList_index {vs : List V} (hl : vs.length < 2 ^ 63) (h : BitVec 64) :
    (ofList vs hl : OrderedTable K V).map.lookup (.index h) = vs[h.toNat]? := by
  refine Option.ext fun v => ?_
  rw [OrderedMap.lookup_eq_some_iff]
  change _ ∈ listEntries vs ↔ _
  rw [listEntries, mem_map]
  constructor
  · rintro ⟨⟨w, i⟩, hm, heq⟩
    rw [mem_zipIdx_iff_getElem?] at hm
    obtain ⟨rfl, rfl⟩ : BitVec.ofNat 64 i = h ∧ w = v := by simpa using heq
    obtain ⟨hi, -⟩ := List.getElem?_eq_some_iff.mp hm
    rwa [BitVec.toNat_ofNat, Nat.mod_eq_of_lt (by omega)]
  · intro hv
    exact ⟨(v, h.toNat), mem_zipIdx_iff_getElem?.mpr hv, by simp⟩

lemma lookup_ofList_str {vs : List V} (hl : vs.length < 2 ^ 63) (key : K) :
    (ofList vs hl : OrderedTable K V).map.lookup (.str key) = none := by
  rw [OrderedMap.lookup_eq_none_iff]
  change _ ∉ (listEntries vs).map Prod.fst
  rw [keys_listEntries, mem_map]
  rintro ⟨i, -, heq⟩
  cases heq

/-! ## Storing a list of entries -/

/-- Storing entries one after another. -/
def storeAll (t : OrderedTable K V) (l : List (HashKey K × V)) : OrderedTable K V :=
  l.foldl (fun t e => t.store e.1 e.2) t

lemma mem_keys_storeAll {k : HashKey K} (l : List (HashKey K × V)) (t : OrderedTable K V) :
    k ∈ (t.storeAll l).map.keys ↔ k ∈ t.map.keys ∨ k ∈ l.map Prod.fst := by
  induction l generalizing t with
  | nil => simp [storeAll]
  | cons e l ih =>
    rw [storeAll, foldl_cons, ← storeAll, ih, store_map, OrderedMap.mem_keys_store,
      map_cons, mem_cons, or_assoc, or_left_comm]

/-- **Entries under new keys that are all different are appended.** -/
theorem entries_storeAll (l : List (HashKey K × V)) (t : OrderedTable K V)
    (hnd : (t.map.keys ++ l.map Prod.fst).Nodup) :
    (t.storeAll l).map.entries = t.map.entries ++ l := by
  induction l generalizing t with
  | nil => simp [storeAll]
  | cons e l ih =>
    have hn : e.1 ∉ t.map.keys := fun hm =>
      (nodup_append.mp hnd).2.2 e.1 hm e.1 (by simp) rfl
    have hen := OrderedMap.entries_store_of_not_mem hn e.2
    have hk : (t.store e.1 e.2).map.keys = t.map.keys ++ [e.1] := by
      rw [store_map, OrderedMap.keys, hen, map_append]
      rfl
    rw [storeAll, foldl_cons, ← storeAll, ih, store_map, hen, append_assoc]
    · rfl
    · rw [hk, append_assoc]
      exact hnd

end OrderedTable

end PhpInternals.Zend.ZendHash

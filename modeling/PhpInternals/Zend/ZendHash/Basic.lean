import Mathlib.Data.Nat.Nth
import Mathlib.Tactic

/-!
# The hash table of the engine: data layout and operations

Embedding of `Zend/zend_hash.c` (64-bit build: `HT_IDX_TO_HASH` and `HT_HASH_TO_IDX` are the
identity). One block of memory holds the hash slots `HT_HASH(ht, nIndex)` and the buckets
`arData`; both are functions of the index here, and the parts of the block that the code has
allocated but not written are `Bucket.fresh`.

Left out: destructors and the reference counts of keys and values (they never touch the table),
the persistence and static-key flags, and the `IS_INDIRECT` forms (`HASH_UPDATE_INDIRECT`).
-/

namespace PhpInternals.Zend.ZendHash

open Function (update)

/-! ## Constants -/

/-- `HT_INVALID_IDX`, `((uint32_t) -1)`. -/
def htInvalidIdx : ℕ := 2 ^ 32 - 1

/-- `HT_MIN_MASK`, `((uint32_t) -2)`. -/
def htMinMask : ℕ := 2 ^ 32 - 2

/-- Source: `HT_MIN_SIZE`. -/
def htMinSize : ℕ := 8

/-- `HT_MAX_SIZE` of a 64-bit build. -/
def htMaxSize : ℕ := 0x80000000

/-- Source: `ZEND_LONG_MAX`. -/
def zendLongMax : BitVec 64 := 0x7fffffffffffffff#64

/-- Unary minus on `uint32_t`. -/
def negU32 (n : ℕ) : ℕ := (2 ^ 32 - n) % 2 ^ 32

/-! ## Data -/

/-- `Bucket`: the hash (or the integer key), the string key, the value and its `Z_NEXT`. Source:
`zend_types.h` `struct _Bucket`. -/
structure Bucket (K V : Type) where
  /-- `h`: hash value or numeric index. -/
  h : BitVec 64
  /-- `key`: string key or `NULL` for numerics. -/
  key : Option K
  /-- `val`: `none` when its type is `IS_UNDEF`. -/
  val : Option V
  /-- `Z_NEXT(val)`: `none` when it was never written. -/
  next : Option ℕ

/-- A bucket of allocated memory that was not written yet. -/
def Bucket.fresh {K V : Type} : Bucket K V := ⟨0, none, none, none⟩

/-- `HashTable`: the fields the operations below read and write. Source: `zend_types.h` `struct
_zend_array`. -/
structure HashTable (K V : Type) where
  /-- The address of the table: what `iter->ht` is compared with. -/
  addr : ℕ
  /-- `u.flags & HASH_FLAG_PACKED`. -/
  packed : Bool
  /-- `u.flags & HASH_FLAG_INITIALIZED`. -/
  initialized : Bool
  /-- `u.v.nIteratorsCount`, an `unsigned char` that sticks at 255. -/
  nIteratorsCount : ℕ
  nTableMask : ℕ
  /-- `HT_HASH(ht, nIndex)`, indexed by `nIndex` as a `uint32_t`. -/
  hash : ℕ → ℕ
  arData : ℕ → Bucket K V
  nNumUsed : ℕ
  nNumOfElements : ℕ
  nTableSize : ℕ
  nInternalPointer : ℕ
  nNextFreeElement : BitVec 64

/-- Source: `HashTableIterator`. -/
structure HashTableIterator where
  /-- `iter->ht`: an address, `0` for `NULL`. -/
  ht : ℕ
  pos : ℕ
  deriving DecidableEq, Repr

/-- `EG(ht_iterators)` (its length is `EG(ht_iterators_count)`) and `EG(ht_iterators_used)`. Source:
`zend_globals.h` `struct _zend_executor_globals`. -/
structure ExecutorGlobals where
  htIterators : List HashTableIterator
  htIteratorsUsed : ℕ
  deriving DecidableEq, Repr

/-- What an operation reads and writes: the table and the executor's iterators. -/
structure HashState (K V : Type) where
  eg : ExecutorGlobals
  ht : HashTable K V

/-- How an operation can fail to return. -/
inductive HashError where
  /-- `zend_error_noreturn(E_ERROR, "Possible integer overflow in memory allocation")`. -/
  | overflow
  /-- A chain walk does not end. -/
  | stuck
  /-- A chain walk reads memory that was never written. -/
  | indeterminate
  deriving DecidableEq, Repr

/-- The `flag` bits of the insertion functions. -/
structure HashFlag where
  update : Bool := false
  add : Bool := false
  addNew : Bool := false
  addNext : Bool := false
  deriving DecidableEq, Repr

def hashUpdate : HashFlag := { update := true }

def hashAdd : HashFlag := { add := true }

def hashAddNew : HashFlag := { addNew := true }

variable {K V : Type}

/-- `h | ht->nTableMask`, truncated to the `uint32_t nIndex`. -/
def nIndex (h : BitVec 64) (nTableMask : ℕ) : ℕ := (h.toNat ||| nTableMask) % 2 ^ 32

namespace HashTable

/-- Bucket `i` is live: `Z_TYPE(arData[i].val) != IS_UNDEF`. -/
def live (ht : HashTable K V) (i : ℕ) : Prop := (ht.arData i).val.isSome = true

instance (ht : HashTable K V) : DecidablePred ht.live :=
  fun i => inferInstanceAs (Decidable ((ht.arData i).val.isSome = true))

/-- The hash slot of bucket `i`. -/
def slot (ht : HashTable K V) (i : ℕ) : ℕ := nIndex (ht.arData i).h ht.nTableMask

/-- Overwriting bucket `i`. -/
def setBucket (ht : HashTable K V) (i : ℕ) (b : Bucket K V) : HashTable K V :=
  { ht with arData := update ht.arData i b }

/-- `HT_IS_WITHOUT_HOLES`. -/
def isWithoutHoles (ht : HashTable K V) : Bool := ht.nNumUsed == ht.nNumOfElements

/-- `HT_HASH_RESET` (and `HT_HASH_RESET_PACKED`, the same on two slots). -/
def hashReset (ht : HashTable K V) : HashTable K V := { ht with hash := fun _ => htInvalidIdx }

/-- A new memory block of `nSize` buckets and the slots of `nTableMask` that receives the first
`nNumUsed` buckets: the `pemalloc` / `memcpy` / `pefree` sequence, or `perealloc2`. -/
def moveData (ht : HashTable K V) (nSize nTableMask : ℕ) (packed : Bool) : HashTable K V :=
  { ht with
    nTableMask, packed
    nTableSize := nSize
    arData := fun i => if i < ht.nNumUsed then ht.arData i else Bucket.fresh }

/-- `Z_NEXT(p->val) = HT_HASH(ht, nIndex); HT_HASH(ht, nIndex) = HT_IDX_TO_HASH(i);` -/
def linkBucket (ht : HashTable K V) (i : ℕ) : HashTable K V :=
  { ht with
    arData := update ht.arData i { ht.arData i with next := some (ht.hash (ht.slot i)) }
    hash := update ht.hash (ht.slot i) i }

end HashTable

/-! ## Iterators -/

/-- Source: `zend_hash_iterators_lower_pos`. -/
def zendHashIteratorsLowerPos (eg : ExecutorGlobals) (ht : HashTable K V) (start : ℕ) : ℕ :=
  (eg.htIterators.take eg.htIteratorsUsed).foldl
    (fun res iter =>
      if iter.ht = ht.addr then
        if start ≤ iter.pos ∧ iter.pos < res then iter.pos else res
      else res)
    htInvalidIdx

/-- `_zend_hash_iterators_update` and its wrapper `zend_hash_iterators_update`, which does nothing
on a table without iterators. Source: `zend_hash.c`, `zend_hash.h`. -/
def zendHashIteratorsUpdate (s : HashState K V) (fromPos toPos : ℕ) : HashState K V :=
  if s.ht.nIteratorsCount = 0 then s
  else
    { s with
      eg := { s.eg with
        htIterators :=
          (s.eg.htIterators.take s.eg.htIteratorsUsed).map (fun iter =>
              if iter.ht = s.ht.addr ∧ iter.pos = fromPos then { iter with pos := toPos }
              else iter) ++
            s.eg.htIterators.drop s.eg.htIteratorsUsed } }

/-- The first free slot of `EG(ht_iterators)`: the `while` of `zend_hash_iterator_add`. -/
def findFreeIterator : List HashTableIterator → ℕ → Option ℕ
  | [], _ => none
  | iter :: iters, idx => if iter.ht = 0 then some idx else findFreeIterator iters (idx + 1)

/-- `zend_hash_iterator_add`: a free slot, or eight more slots when there is none. -/
def zendHashIteratorAdd (s : HashState K V) (pos : ℕ) : HashState K V × ℕ :=
  let ht :=
    if s.ht.nIteratorsCount ≠ 255 then
      { s.ht with nIteratorsCount := s.ht.nIteratorsCount + 1 }
    else s.ht
  match findFreeIterator s.eg.htIterators 0 with
  | some idx =>
    ({ ht
       eg :=
        { htIterators := s.eg.htIterators.set idx ⟨ht.addr, pos⟩
          htIteratorsUsed :=
            if idx + 1 > s.eg.htIteratorsUsed then idx + 1 else s.eg.htIteratorsUsed } },
      idx)
  | none =>
    let idx := s.eg.htIterators.length
    ({ ht
       eg :=
        { htIterators := s.eg.htIterators ++ ⟨ht.addr, pos⟩ :: List.replicate 7 ⟨0, 0⟩
          htIteratorsUsed := idx + 1 } },
      idx)

/-! ## Initialisation -/

/-- `nSize |= (nSize >> k)`. Source: `zend_hash_check_size`. -/
def smear (nSize k : ℕ) : ℕ := nSize ||| (nSize >>> k)

/-- `zend_hash_check_size`: the next power of two, by bit smearing. -/
def zendHashCheckSize (nSize : ℕ) : Except HashError ℕ :=
  if nSize < htMinSize then .ok (roundUp htMinSize)
  else if nSize ≥ htMaxSize then .error .overflow
  else .ok (roundUp nSize)
where
  /-- The smearing steps on `nSize - 1`. -/
  roundUp (nSize : ℕ) : ℕ :=
    smear (smear (smear (smear (smear (nSize - 1) 1) 2) 4) 8) 16 + 1

/-- `_zend_hash_init`. The hash slots are those of `uninitialized_bucket`. -/
def zendHashInit (addr nSize : ℕ) : Except HashError (HashTable K V) := do
  let nTableSize ← zendHashCheckSize nSize
  return {
    addr, nTableSize
    packed := false
    initialized := false
    nIteratorsCount := 0
    nTableMask := htMinMask
    hash := fun _ => htInvalidIdx
    arData := fun _ => Bucket.fresh
    nNumUsed := 0
    nNumOfElements := 0
    nInternalPointer := htInvalidIdx
    nNextFreeElement := 0 }

/-- Source: `zend_hash_real_init_ex`. -/
def zendHashRealInitEx (ht : HashTable K V) (packed : Bool) : HashTable K V :=
  if packed then
    { ht with
      arData := fun _ => Bucket.fresh
      initialized := true
      packed := true
      hash := fun _ => htInvalidIdx }
  else
    { ht with
      nTableMask := negU32 ht.nTableSize
      arData := fun _ => Bucket.fresh
      initialized := true
      hash := fun _ => htInvalidIdx }

/-- `zend_hash_check_init` (`CHECK_INIT`). -/
def zendHashCheckInit (ht : HashTable K V) (packed : Bool) : HashTable K V :=
  if ht.initialized then ht else zendHashRealInitEx ht packed

/-! ## Rehashing and growth -/

/-- The loop of `zend_hash_rehash` on a table without holes: `n` buckets are left, from `i` on. -/
def rehashWithoutHoles : (n i : ℕ) → HashTable K V → HashTable K V
  | 0, _, ht => ht
  | n + 1, i, ht => rehashWithoutHoles n (i + 1) (ht.linkBucket i)

/-- `iter_pos` of the compaction: the loop for a table with iterators looks for the iterators at `i`
and asks for the next position, the other loop keeps no position. Source: `zend_hash_rehash`. -/
def rehashIterators (s : HashState K V) (i j : ℕ) (iterPos : Option ℕ) :
    HashState K V × Option ℕ :=
  match iterPos with
  | none => (s, none)
  | some pos =>
    if i = pos then
      let s := zendHashIteratorsUpdate s i j
      (s, some (zendHashIteratorsLowerPos s.eg s.ht (pos + 1)))
    else (s, some pos)

/-- The table after bucket `i` has been moved down to `j` and linked there. Source:
`zend_hash_rehash`. -/
def compactBucket (ht : HashTable K V) (i j : ℕ) : HashTable K V :=
  let ht := (ht.setBucket j
    { h := (ht.arData i).h, key := (ht.arData i).key, val := (ht.arData i).val,
      next := (ht.arData j).next }).linkBucket j
  if ht.nInternalPointer = i then { ht with nInternalPointer := j } else ht

/-- The inner loops of `zend_hash_rehash` (with and without iterators): live buckets from `i` on
move down to `j`. -/
def rehashCompact : (n i j : ℕ) → Option ℕ → HashState K V → HashState K V
  | 0, _, j, _, s => { s with ht := { s.ht with nNumUsed := j } }
  | n + 1, i, j, iterPos, s =>
    if (s.ht.arData i).val.isSome then
      let (s, iterPos) := rehashIterators { s with ht := compactBucket s.ht i j } i j iterPos
      rehashCompact n (i + 1) (j + 1) iterPos s
    else rehashCompact n (i + 1) j iterPos s

/-- The outer loop of `zend_hash_rehash` on a table with holes: links up to the first hole, then
compacts. -/
def rehashWithHoles : (n i : ℕ) → HashState K V → HashState K V
  | 0, _, s => s
  | n + 1, i, s =>
    if (s.ht.arData i).val.isNone then
      rehashCompact n (i + 1) i
        (if s.ht.nIteratorsCount = 0 then none else some (zendHashIteratorsLowerPos s.eg s.ht 0)) s
    else rehashWithHoles n (i + 1) { s with ht := s.ht.linkBucket i }

/-- Source: `zend_hash_rehash`. -/
def zendHashRehash (s : HashState K V) : HashState K V :=
  if s.ht.nNumOfElements = 0 then
    if s.ht.initialized then
      { s with ht := { s.ht with nNumUsed := 0 }.hashReset }
    else s
  else
    let s := { s with ht := s.ht.hashReset }
    if s.ht.isWithoutHoles then { s with ht := rehashWithoutHoles s.ht.nNumUsed 0 s.ht }
    else rehashWithHoles s.ht.nNumUsed 0 s

/-- Source: `zend_hash_packed_grow`. -/
def zendHashPackedGrow (ht : HashTable K V) : Except HashError (HashTable K V) :=
  if ht.nTableSize ≥ htMaxSize then .error .overflow
  else .ok (ht.moveData (ht.nTableSize + ht.nTableSize) ht.nTableMask ht.packed)

/-- Source: `zend_hash_packed_to_hash`. -/
def zendHashPackedToHash (s : HashState K V) : HashState K V :=
  zendHashRehash { s with ht := s.ht.moveData s.ht.nTableSize (negU32 s.ht.nTableSize) false }

/-- `zend_hash_do_resize`: compaction when enough buckets are dead, doubling otherwise. -/
def zendHashDoResize (s : HashState K V) : Except HashError (HashState K V) :=
  if s.ht.nNumUsed > s.ht.nNumOfElements + (s.ht.nNumOfElements >>> 5) then
    .ok (zendHashRehash s)
  else if s.ht.nTableSize < htMaxSize then
    let nSize := s.ht.nTableSize + s.ht.nTableSize
    .ok (zendHashRehash { s with ht := s.ht.moveData nSize (negU32 nSize) s.ht.packed })
  else .error .overflow

/-- Source: `ZEND_HASH_IF_FULL_DO_RESIZE`. -/
def zendHashIfFullDoResize (s : HashState K V) : Except HashError (HashState K V) :=
  if s.ht.nNumUsed ≥ s.ht.nTableSize then zendHashDoResize s else .ok s

/-- `zend_hash_extend`. The two `ZEND_ASSERT`s on the packed flag are the caller's duty. -/
def zendHashExtend (s : HashState K V) (nSize : ℕ) (packed : Bool) :
    Except HashError (HashState K V) :=
  if nSize = 0 then .ok s
  else if !s.ht.initialized then do
    let nTableSize ←
      if nSize > s.ht.nTableSize then zendHashCheckSize nSize else .ok s.ht.nTableSize
    return { s with ht := zendHashCheckInit { s.ht with nTableSize } packed }
  else if packed then
    if nSize > s.ht.nTableSize then do
      let nTableSize ← zendHashCheckSize nSize
      return { s with ht := s.ht.moveData nTableSize s.ht.nTableMask s.ht.packed }
    else .ok s
  else if nSize > s.ht.nTableSize then do
    let nSize ← zendHashCheckSize nSize
    return zendHashRehash { s with ht := s.ht.moveData nSize (negU32 nSize) s.ht.packed }
  else .ok s

/-! ## Lookup -/

/-- The chain walk shared by the lookup functions, from bucket `idx` on. A bucket whose `Z_NEXT` was
never written was not linked: the walk counts as reading indeterminate memory there. Source:
`zend_hash_find_bucket`, `zend_hash_index_find_bucket`. -/
def findBucketLoop (ht : HashTable K V) (found : Bucket K V → Bool) :
    (fuel idx : ℕ) → Except HashError (Option ℕ)
  | 0, _ => .error .stuck
  | fuel + 1, idx =>
    if idx = htInvalidIdx then .ok none
    else match (ht.arData idx).next with
      | none => .error .indeterminate
      | some next =>
        if found (ht.arData idx) then .ok (some idx) else findBucketLoop ht found fuel next

/-- The chain walk of the delete functions, which also remembers the bucket before. Source:
`zend_hash_del`, `zend_hash_index_del`. -/
def delBucketLoop (ht : HashTable K V) (found : Bucket K V → Bool) :
    (fuel : ℕ) → (prev : Option ℕ) → (idx : ℕ) → Except HashError (Option (ℕ × Option ℕ))
  | 0, _, _ => .error .stuck
  | fuel + 1, prev, idx =>
    if idx = htInvalidIdx then .ok none
    else match (ht.arData idx).next with
      | none => .error .indeterminate
      | some next =>
        if found (ht.arData idx) then .ok (some (idx, prev))
        else delBucketLoop ht found fuel (some idx) next

section Keys

variable [DecidableEq K] (hashVal : K → BitVec 64)

/-- The string test of a chain walk. The pointer comparison `p->key == key` is a shortcut for equal
strings, whose hashes are equal too. Source: `zend_hash_find_bucket`. -/
def isStrKey (key : K) (p : Bucket K V) : Bool :=
  decide (p.h = hashVal key ∧ p.key = some key)

/-- The integer test of a chain walk. Source: `zend_hash_index_find_bucket`. -/
def isIndexKey (h : BitVec 64) (p : Bucket K V) : Bool := decide (p.h = h) && p.key.isNone

/-- Source: `zend_hash_find_bucket`. -/
def zendHashFindBucket (ht : HashTable K V) (key : K) : Except HashError (Option ℕ) :=
  findBucketLoop ht (isStrKey hashVal key) (ht.nTableSize + 1)
    (ht.hash (nIndex (hashVal key) ht.nTableMask))

omit [DecidableEq K] in
/-- Source: `zend_hash_index_find_bucket`. -/
def zendHashIndexFindBucket (ht : HashTable K V) (h : BitVec 64) : Except HashError (Option ℕ) :=
  findBucketLoop ht (isIndexKey h) (ht.nTableSize + 1) (ht.hash (nIndex h ht.nTableMask))

/-- `zend_hash_find`: the value behind the returned `zval *`, `none` for `NULL`. -/
def zendHashFind (ht : HashTable K V) (key : K) : Except HashError (Option V) := do
  match ← zendHashFindBucket hashVal ht key with
  | some p => return (ht.arData p).val
  | none => return none

omit [DecidableEq K] in
/-- Source: `zend_hash_index_find`. -/
def zendHashIndexFind (ht : HashTable K V) (h : BitVec 64) : Except HashError (Option V) :=
  if ht.packed then
    if h.toNat < ht.nNumUsed then .ok (ht.arData h.toNat).val else .ok none
  else do
    match ← zendHashIndexFindBucket ht h with
    | some p => return (ht.arData p).val
    | none => return none

/-! ## Insertion -/

omit [DecidableEq K] in
/-- `ZVAL_COPY_VALUE(&p->val, pData)`: the value changes, `Z_NEXT` stays. -/
def setVal (s : HashState K V) (p : ℕ) (pData : V) : HashState K V :=
  { s with ht := s.ht.setBucket p { s.ht.arData p with val := some pData } }

omit [DecidableEq K] in
/-- What `add_to_hash` and `add_to_packed` share: the counters, the internal pointer and the
iterators at the end all learn about the new element at `idx`. -/
def countElement (s : HashState K V) (idx nNumUsed : ℕ) : HashState K V :=
  let ht := { s.ht with nNumUsed, nNumOfElements := s.ht.nNumOfElements + 1 }
  let ht := if ht.nInternalPointer = htInvalidIdx then { ht with nInternalPointer := idx } else ht
  zendHashIteratorsUpdate { s with ht } htInvalidIdx idx

/-- `if ((zend_long)h >= (zend_long)ht->nNextFreeElement)` and its assignment. Source:
`_zend_hash_index_add_or_update_i`. -/
def nextFreeAfter (h nNextFreeElement : BitVec 64) : BitVec 64 :=
  if nNextFreeElement.toInt ≤ h.toInt then
    if h.toNat < zendLongMax.toNat then h + 1 else zendLongMax
  else nNextFreeElement

omit [DecidableEq K] in
/-- `nNextFreeElement` after storing under a key: only an integer key raises it. -/
def nextFreeOf (h : BitVec 64) (key : Option K) (nNextFreeElement : BitVec 64) : BitVec 64 :=
  match key with
  | none => nextFreeAfter h nNextFreeElement
  | some _ => nNextFreeElement

omit [DecidableEq K] in
/-- The label `add_to_hash` of both insertion functions: a new last bucket, linked at the front of
its chain. Returns the index behind the `&p->val` of the source. Source:
`_zend_hash_add_or_update_i`, `_zend_hash_index_add_or_update_i`. -/
def addToHash (s : HashState K V) (h : BitVec 64) (key : Option K) (pData : V) :
    HashState K V × ℕ :=
  let idx := s.ht.nNumUsed
  let s := countElement s idx (idx + 1)
  let ht := { s.ht with nNextFreeElement := nextFreeOf h key s.ht.nNextFreeElement }
  let ht := ht.setBucket idx { ht.arData idx with h, key, val := some pData }
  ({ s with ht := ht.linkBucket idx }, idx)

omit [DecidableEq K] in
/-- `ZEND_HASH_IF_FULL_DO_RESIZE(ht);` and `add_to_hash`, the end of both insertion functions.
Source: `_zend_hash_add_or_update_i`, `_zend_hash_index_add_or_update_i`. -/
def resizeAndAdd (s : HashState K V) (h : BitVec 64) (key : Option K) (pData : V) :
    Except HashError (HashState K V × Option ℕ) := do
  let s ← zendHashIfFullDoResize s
  let (s, idx) := addToHash s h key pData
  return (s, some idx)

/-- `_zend_hash_add_or_update_i`; the result is the bucket behind the returned `zval *`, `none` for
`NULL`. -/
def zendHashAddOrUpdateI (s : HashState K V) (key : K) (pData : V) (flag : HashFlag) :
    Except HashError (HashState K V × Option ℕ) := do
  if !s.ht.initialized then
    let (s, idx) := addToHash { s with ht := zendHashCheckInit s.ht false } (hashVal key) key pData
    return (s, some idx)
  else if s.ht.packed then resizeAndAdd (zendHashPackedToHash s) (hashVal key) key pData
  else if !flag.addNew then
    match ← zendHashFindBucket hashVal s.ht key with
    | some p =>
      if flag.add then return (s, none)
      else return (setVal s p pData, some p)
    | none => resizeAndAdd s (hashVal key) key pData
  else resizeAndAdd s (hashVal key) key pData

/-- Source: `zend_hash_add`. -/
def zendHashAdd (s : HashState K V) (key : K) (pData : V) :=
  zendHashAddOrUpdateI hashVal s key pData hashAdd

/-- Source: `zend_hash_update`. -/
def zendHashUpdate (s : HashState K V) (key : K) (pData : V) :=
  zendHashAddOrUpdateI hashVal s key pData hashUpdate

/-- Source: `zend_hash_add_new`. -/
def zendHashAddNew (s : HashState K V) (key : K) (pData : V) :=
  zendHashAddOrUpdateI hashVal s key pData hashAddNew

end Keys

/-- The label `add_to_packed`: the buckets between the last used one and `h` become `IS_UNDEF`.
Source: `_zend_hash_index_add_or_update_i`. -/
def addToPacked (s : HashState K V) (h : BitVec 64) (pData : V) (flag : HashFlag) :
    HashState K V × ℕ :=
  let p := h.toNat
  let ht := s.ht
  let ht :=
    if flag.addNew && flag.addNext then ht
    else
      { ht with arData := fun i =>
          if ht.nNumUsed ≤ i ∧ i < p then { ht.arData i with val := none } else ht.arData i }
  let nNumUsed :=
    if flag.addNew && flag.addNext then p + 1
    else if p ≥ ht.nNumUsed then p + 1 else ht.nNumUsed
  let s := countElement { s with ht } p nNumUsed
  let ht := { s.ht with nNextFreeElement := nextFreeAfter h s.ht.nNextFreeElement }
  ({ s with ht := ht.setBucket p { ht.arData p with h, key := none, val := some pData } }, p)

/-- `_zend_hash_index_add_or_update_i`; the two jumps to `convert_to_hash` are the calls on the
converted table. -/
def zendHashIndexAddOrUpdateI (s : HashState K V) (h : BitVec 64) (pData : V) (flag : HashFlag) :
    Except HashError (HashState K V × Option ℕ) := do
  if !s.ht.initialized then
    let ht := zendHashCheckInit s.ht (h.toNat < s.ht.nTableSize)
    if h.toNat < s.ht.nTableSize then
      let (s, p) := addToPacked { s with ht } h pData flag
      return (s, some p)
    else
      let (s, idx) := addToHash { s with ht } h none pData
      return (s, some idx)
  else if s.ht.packed then
    if h.toNat < s.ht.nNumUsed then
      if (s.ht.arData h.toNat).val.isSome then
        if flag.add then return (s, none)
        else return (setVal s h.toNat pData, some h.toNat)
      else resizeAndAdd (zendHashPackedToHash s) h none pData
    else if h.toNat < s.ht.nTableSize then
      let (s, p) := addToPacked s h pData flag
      return (s, some p)
    else if h.toNat >>> 1 < s.ht.nTableSize ∧ s.ht.nTableSize >>> 1 < s.ht.nNumOfElements then
      let ht ← zendHashPackedGrow s.ht
      let (s, p) := addToPacked { s with ht } h pData flag
      return (s, some p)
    else resizeAndAdd (zendHashPackedToHash s) h none pData
  else if !flag.addNew then
    match ← zendHashIndexFindBucket s.ht h with
    | some p =>
      if flag.add then return (s, none)
      else
        let s := setVal s p pData
        return ({ s with ht :=
          { s.ht with nNextFreeElement := nextFreeAfter h s.ht.nNextFreeElement } }, some p)
    | none => resizeAndAdd s h none pData
  else resizeAndAdd s h none pData

/-- Source: `zend_hash_index_add`. -/
def zendHashIndexAdd (s : HashState K V) (h : BitVec 64) (pData : V) :=
  zendHashIndexAddOrUpdateI s h pData hashAdd

/-- Source: `zend_hash_index_update`. -/
def zendHashIndexUpdate (s : HashState K V) (h : BitVec 64) (pData : V) :=
  zendHashIndexAddOrUpdateI s h pData hashUpdate

/-- Source: `zend_hash_next_index_insert`. -/
def zendHashNextIndexInsert (s : HashState K V) (pData : V) :=
  zendHashIndexAddOrUpdateI s s.ht.nNextFreeElement pData { add := true, addNext := true }

/-! ## Deletion -/

/-- `do { ht->nNumUsed--; } while (ht->nNumUsed > 0 && Z_TYPE(arData[nNumUsed-1].val) == IS_UNDEF)`
after the first decrement. Source: `_zend_hash_del_el_ex`. -/
def trimUsed (arData : ℕ → Bucket K V) : ℕ → ℕ
  | 0 => 0
  | n + 1 => if (arData n).val.isNone then trimUsed arData n else n + 1

/-- The search for the next live bucket: `n` buckets are left, from `i` on. Source:
`_zend_hash_del_el_ex`. -/
def nextLive (arData : ℕ → Bucket K V) : (n i : ℕ) → ℕ
  | 0, _ => htInvalidIdx
  | n + 1, i => if (arData i).val.isSome then i else nextLive arData n (i + 1)

/-- Taking bucket `idx` out of its chain: the first block of `_zend_hash_del_el_ex`. -/
def unlinkBucket (ht : HashTable K V) (idx : ℕ) (prev : Option ℕ) : HashTable K V :=
  if ht.packed then ht
  else match prev with
    | some q => ht.setBucket q { ht.arData q with next := (ht.arData idx).next }
    | none =>
      { ht with hash :=
          update ht.hash (ht.slot idx) ((ht.arData idx).next.getD htInvalidIdx) }

/-- The internal pointer and the iterators leave bucket `idx` for the next live one. Nothing is
searched when neither can be there. Source: `_zend_hash_del_el_ex`. -/
def leaveBucket (s : HashState K V) (idx : ℕ) : HashState K V :=
  if s.ht.nInternalPointer = idx ∨ s.ht.nIteratorsCount ≠ 0 then
    let newIdx := nextLive s.ht.arData (s.ht.nNumUsed - (idx + 1)) (idx + 1)
    let ht :=
      if s.ht.nInternalPointer = idx then { s.ht with nInternalPointer := newIdx } else s.ht
    zendHashIteratorsUpdate { s with ht } idx newIdx
  else s

/-- The table without bucket `idx` in its chain and its counters; dead buckets at the end are
dropped with the last bucket. Source: `_zend_hash_del_el_ex`. -/
def dropBucket (ht : HashTable K V) (idx : ℕ) (prev : Option ℕ) : HashTable K V :=
  let ht := unlinkBucket ht idx prev
  { ht with
    nNumUsed := if ht.nNumUsed - 1 = idx then trimUsed ht.arData (ht.nNumUsed - 1) else ht.nNumUsed
    nNumOfElements := ht.nNumOfElements - 1 }

/-- Source: `_zend_hash_del_el_ex`. -/
def zendHashDelElEx (s : HashState K V) (idx : ℕ) (prev : Option ℕ) : HashState K V :=
  let s := leaveBucket { s with ht := dropBucket s.ht idx prev } idx
  { s with ht := s.ht.setBucket idx { s.ht.arData idx with val := none } }

/-- The search for the bucket before `idx` in its chain. Source: `_zend_hash_del_el`. -/
def findPrevLoop (ht : HashTable K V) (idx : ℕ) : (fuel prev : ℕ) → Except HashError ℕ
  | 0, _ => .error .stuck
  | fuel + 1, prev =>
    match (ht.arData prev).next with
    | none => .error .indeterminate
    | some next => if next = idx then .ok prev else findPrevLoop ht idx fuel next

/-- `_zend_hash_del_el`, and `zend_hash_del_bucket`, which calls it on the index of its bucket. -/
def zendHashDelBucket (s : HashState K V) (idx : ℕ) : Except HashError (HashState K V) :=
  if s.ht.packed then .ok (zendHashDelElEx s idx none)
  else
    let i := s.ht.hash (s.ht.slot idx)
    if i ≠ idx then do
      let prev ← findPrevLoop s.ht idx (s.ht.nTableSize + 1) i
      return zendHashDelElEx s idx (some prev)
    else .ok (zendHashDelElEx s idx none)

/-- The delete functions after their chain walk; the result is `SUCCESS`. Source: `zend_hash_del`,
`zend_hash_index_del`. -/
def delFound (s : HashState K V) : Option (ℕ × Option ℕ) → HashState K V × Bool
  | some (idx, prev) => (zendHashDelElEx s idx prev, true)
  | none => (s, false)

/-- Source: `zend_hash_del`. -/
def zendHashDel [DecidableEq K] (hashVal : K → BitVec 64) (s : HashState K V) (key : K) :
    Except HashError (HashState K V × Bool) := do
  let found ← delBucketLoop s.ht (isStrKey hashVal key) (s.ht.nTableSize + 1) none
    (s.ht.hash (nIndex (hashVal key) s.ht.nTableMask))
  return delFound s found

/-- Source: `zend_hash_index_del`. -/
def zendHashIndexDel (s : HashState K V) (h : BitVec 64) :
    Except HashError (HashState K V × Bool) :=
  if s.ht.packed then
    if h.toNat < s.ht.nNumUsed then
      if (s.ht.arData h.toNat).val.isSome then .ok (zendHashDelElEx s h.toNat none, true)
      else .ok (s, false)
    else .ok (s, false)
  else do
    let found ← delBucketLoop s.ht (isIndexKey h) (s.ht.nTableSize + 1) none
      (s.ht.hash (nIndex h s.ht.nTableMask))
    return delFound s found

/-- Source: `zend_hash_clean`. -/
def zendHashClean (ht : HashTable K V) : HashTable K V :=
  let ht := if ht.nNumUsed ≠ 0 ∧ !ht.packed then ht.hashReset else ht
  { ht with
    nNumUsed := 0
    nNumOfElements := 0
    nNextFreeElement := 0
    nInternalPointer := htInvalidIdx }

end PhpInternals.Zend.ZendHash

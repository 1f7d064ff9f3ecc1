import PhpInternals.Zend.ZendHash.SortOrder

/-!
# The next free index

`nNextFreeElement` is one more than the largest integer key inserted so far, however the table was
changed in between (`nextFreeElement_history`).
-/

namespace PhpInternals.Zend.ZendHash

open Prod OrderedTable Found
open BitVec (ofInt ofInt_toInt)

variable {K V : Type}

/-! ## Keys inserted so far -/

/-- One more than the largest key, at least `0`, at most `ZEND_LONG_MAX`. -/
def nextFreeOfKeys (keys : List (BitVec 64)) : ℤ :=
  min longMax (keys.foldr (fun h m => max (h.toInt + 1) m) 0)

@[simp] lemma nextFreeOfKeys_nil : nextFreeOfKeys [] = 0 := by decide

lemma nextFreeOfKeys_cons (h : BitVec 64) (keys : List (BitVec 64)) :
    nextFreeOfKeys (h :: keys) = OrderedTable.raise (K := K) (nextFreeOfKeys keys) (.index h) := by
  rw [nextFreeOfKeys, List.foldr_cons, OrderedTable.raise, afterIndex, nextFreeOfKeys,
    min_max_distrib_left, max_comm, min_comm (h.toInt + 1)]

/-- The integer key that a call has inserted, by what it returned. -/
def HashState.insertedIndex (s : HashState K V) : HashOp K V → Outcome V → Option (BitVec 64)
  | .indexAdd h _, .zval (some _) => some h
  | .indexUpdate h _, .zval (some _) => some h
  | .nextIndexInsert _, .zval (some _) => some s.ht.nNextFreeElement
  | _, _ => none

section history

variable [DecidableEq K] (hashVal : K → BitVec 64)

/-- The states that calls produce from a fresh table, and the integer keys inserted on the way. -/
inductive IndexHistory : HashState K V → List (BitVec 64) → Prop
  | init {eg : ExecutorGlobals} {addr nSize : ℕ} {ht : HashTable K V}
      (hinit : zendHashInit addr nSize = .ok ht) : IndexHistory ⟨eg, ht⟩ []
  | call {s s' : HashState K V} {keys : List (BitVec 64)} {op : HashOp K V} {o : Outcome V}
      (hs : IndexHistory s keys) (hop : op ≠ .clean) (hlegal : s.Legal op)
      (hok : s.apply hashVal op = .ok (s', o)) :
      IndexHistory s' ((s.insertedIndex op o).toList ++ keys)
  | delBucket {s s' : HashState K V} {keys : List (BitVec 64)} {idx : ℕ} (hs : IndexHistory s keys)
      (hidx : idx < s.ht.nNumUsed) (hlive : s.ht.live idx)
      (hok : zendHashDelBucket s idx = .ok s') :
      IndexHistory s' keys
  | doResize {s s' : HashState K V} {keys : List (BitVec 64)} (hs : IndexHistory s keys)
      (hinit : s.ht.initialized = true) (hpacked : s.ht.packed = false)
      (hok : zendHashDoResize s = .ok s') : IndexHistory s' keys
  | packedToHash {s : HashState K V} {keys : List (BitVec 64)} (hs : IndexHistory s keys)
      (hinit : s.ht.initialized = true) : IndexHistory (zendHashPackedToHash s) keys
  | sortEx {s : HashState K V} {keys : List (BitVec 64)} (hs : IndexHistory s keys)
      (f : SortFunc K V) : IndexHistory (zendHashSortEx f false s) keys

end history

/-! ## The steps -/

section steps

variable {hashVal : K → BitVec 64} {s s' : HashState K V} {t : OrderedTable K V}

section

variable (hrep : Represents hashVal s.ht t)
include hrep

lemma OrderedTable.nextFree_apply [DecidableEq K]
    {op : HashOp K V} (hop : op ≠ .clean) {keys : List (BitVec 64)}
    (hk : t.nextFree = nextFreeOfKeys keys) :
    (t.apply op).1.nextFree =
      nextFreeOfKeys ((s.insertedIndex op (t.apply op).2).toList ++ keys) := by
  have hi : ∀ (keep : Bool) (h : BitVec 64) (v : V),
      (t.insert keep (.index h) v).1.nextFree = nextFreeOfKeys
        ((if (t.insert keep (.index h) v).2.isSome then some h else none).toList ++ keys) := by
    intro keep h v
    rw [insert]
    split_ifs with hkp hsm hsm
    · cases hsm
    · exact hk
    · rw [store_nextFree, hk]
      exact (nextFreeOfKeys_cons h keys).symm
    · exact absurd rfl hsm
  have hsr : ∀ (keep : Bool) (key : K) (v : V), (t.insert keep (.str key) v).1.nextFree =
      nextFreeOfKeys keys := by
    intro keep key v
    rw [insert]
    split_ifs
    · exact hk
    · exact hk
  cases op with
  | add key v => exact hsr true key v
  | update key v | addNew key v => exact hsr false key v
  | indexAdd h v =>
    rw [apply, map_fst, map_snd, id, hi]
    cases (t.insert true (.index h) v).2 <;> rfl
  | indexUpdate h v =>
    rw [apply, map_fst, map_snd, id, hi]
    cases (t.insert false (.index h) v).2 <;> rfl
  | nextIndexInsert v =>
    have hn : ofInt 64 t.nextFree = s.ht.nNextFreeElement := by
      rw [← hrep.next, ofInt_toInt]
    rw [apply, map_fst, map_snd, id, hn, hi]
    cases (t.insert true (.index s.ht.nNextFreeElement) v).2 <;> rfl
  | del key | indexDel h => exact hk
  | clean => exact absurd rfl hop
  | extend nSize packed | rehash => exact hk

lemma Represents.delBucket [DecidableEq K] {idx : ℕ}
    (hi : idx < s.ht.nNumUsed) (hl : s.ht.live idx) (hok : zendHashDelBucket s idx = .ok s') :
    ∃ k, Represents hashVal s'.ht (t.erase k) := by
  obtain ⟨s1, hok1, hr, hwf⟩ := zendHashDelBucket_effect hrep.wf hi hl
  obtain rfl : s1 = s' := Except.ok.inj (hok1.symm.trans hok)
  have hky : ∀ k, (s.ht.arData idx).key = some k → (s.ht.arData idx).h = hashVal k :=
    fun k hk => hrep.keyed.str_hash idx hi hl k hk
  obtain ⟨v, hv⟩ := Option.isSome_iff_exists.mp hl
  have hh : s.ht.Holds (s.ht.arData idx).h (s.ht.arData idx).key idx :=
    (hrep.holds_iff hky idx).mpr ⟨hi, v, by rw [HashTable.entryAt, hv]; rfl⟩
  exact ⟨_, (hrep.remove hky (.removed _ idx hh hr hwf)).1⟩

lemma Represents.sortEx (f : SortFunc K V) :
    ∃ t', Represents hashVal (zendHashSortEx f false s).ht t' ∧ t'.nextFree = t.nextFree := by
  rcases Nat.lt_or_ge 1 s.ht.nNumOfElements with hn | hn
  · obtain ⟨hp, hr', -⟩ := zendHashSortEx_keeps f hrep hn
    exact ⟨_, hr', rfl⟩
  · rw [zendHashSortEx, if_pos ⟨by omega, by simp⟩]
    exact ⟨t, hrep, rfl⟩

end

lemma IndexHistory.represents [DecidableEq K] {keys : List (BitVec 64)}
    (h : IndexHistory hashVal s keys) :
    ∃ t, Represents hashVal s.ht t ∧ t.nextFree = nextFreeOfKeys keys := by
  induction h with
  | init hi => exact ⟨.empty, zendHashInit_represents hi, nextFreeOfKeys_nil.symm⟩
  | call _ hop hl hok ih =>
    obtain ⟨t, hrep, hky⟩ := ih
    rcases HashState.apply_represents hrep _ hl with ⟨her, -⟩ | ⟨s1, hok1, hrep1⟩
    · rw [her] at hok
      cases hok
    · obtain ⟨rfl, rfl⟩ := mk.inj (Except.ok.inj (hok1.symm.trans hok))
      exact ⟨_, hrep1, nextFree_apply hrep hop hky⟩
  | delBucket _ hid hlv hok ih =>
    obtain ⟨t, hrep, hky⟩ := ih
    obtain ⟨k, hr'⟩ := hrep.delBucket hid hlv hok
    exact ⟨_, hr', hky⟩
  | doResize _ hi hp hok ih =>
    obtain ⟨t, hrep, hky⟩ := ih
    exact ⟨t, hrep.silent (zendHashDoResize_silent hrep.wf hi hp hok), hky⟩
  | packedToHash _ hi ih =>
    obtain ⟨t, hrep, hky⟩ := ih
    exact ⟨t, hrep.silent (zendHashPackedToHash_silent hrep.wf hi).1, hky⟩
  | sortEx _ f ih =>
    obtain ⟨t, hrep, hky⟩ := ih
    obtain ⟨t', hr', hn⟩ := hrep.sortEx f
    exact ⟨t', hr', hn.trans hky⟩

/-! ## `zend_hash_next_index_insert` -/

/-- The next free index is a key only if it is `ZEND_LONG_MAX`, and then `ZEND_LONG_MAX` is. -/
lemma OrderedTable.mem_keys_nextFree_iff (t : OrderedTable K V) :
    HashKey.index (ofInt 64 t.nextFree) ∈ t.map.keys ↔ HashKey.index zendLongMax ∈ t.map.keys := by
  have hn := t.nextFree_nonneg
  have hle := t.nextFree_le
  have hmx : zendLongMax.toInt = longMax := by decide
  have heq : t.nextFree = longMax → ofInt 64 t.nextFree = zendLongMax := by
    intro h
    rw [h, ← hmx, ofInt_toInt]
  have hi : (ofInt 64 t.nextFree).toInt = t.nextFree := by
    rw [longMax] at hle
    rw [BitVec.toInt_ofInt]
    exact Int.bmod_eq_of_le (by omega) (by omega)
  constructor
  · intro hm
    have hb := t.bounded _ hm
    rw [afterIndex] at hb
    rwa [← heq (by omega)]
  · intro hm
    have hb := t.bounded _ hm
    rw [afterIndex] at hb
    rwa [heq (by omega)]

/-- **One `zend_hash_next_index_insert`**: it fails if `ZEND_LONG_MAX` is a key, and otherwise adds
a new last element. -/
theorem Represents.nextIndexInsert [DecidableEq K] (hrep : Represents hashVal s.ht t) (v : V) :
    zendHashNextIndexInsert s v = .error .overflow ∧ htMaxSize ≤ s.ht.nTableSize ∨
      ∃ s' r, zendHashNextIndexInsert s v = .ok (s', r) ∧
        (r = none ↔ HashKey.index zendLongMax ∈ t.map.keys) ∧
        (r = none → s'.ht.walk = s.ht.walk) ∧
        (r ≠ none → s'.ht.walk = s.ht.walk ++ [(.index s.ht.nNextFreeElement, v)]) := by
  have hn : ofInt 64 t.nextFree = s.ht.nNextFreeElement := by
    rw [← hrep.next, ofInt_toInt]
  have hi := t.mem_keys_nextFree_iff
  rw [hn] at hi
  rcases zendHashIndexAddOrUpdateI_effect hrep.wf s.ht.nNextFreeElement v
      { add := true, addNext := true } rfl with her | ⟨s', r, hok, hef⟩
  · exact .inl her
  obtain ⟨hrp', hrs⟩ := hrep.insert (fun k hk => by cases hk) hef (fun hf => by cases hf)
  refine .inr ⟨s', r, hok, ?_⟩
  rw [hrp'.walk, hrep.walk, ← hi]
  simp only [OrderedTable.insert, hashKeyOf, true_and] at hrs ⊢
  split_ifs at hrs ⊢ with hm
  · cases hef with
    | kept p hp ha => exact ⟨by simp [hm], fun _ => rfl, fun h => absurd rfl h⟩
    | overwritten s' p hp ha => cases ha
    | appended s1 s' idx hab hse hap =>
      exact absurd (hrs.symm.trans (congrArg (fun c => c.2.2) hap.new)) (by simp)
  · have hr : r ≠ none := by
      rintro rfl
      cases hrs
    refine ⟨by simp [hm, hr], fun h => absurd h hr, fun _ => ?_⟩
    rw [store_map, OrderedMap.entries_store_of_not_mem hm]

/-- **The next free index.** After any history of calls, `nNextFreeElement` is one more than the
largest integer key ever inserted, at least `0`, at most `ZEND_LONG_MAX`;
`zend_hash_next_index_insert` returns `NULL` exactly if the key `ZEND_LONG_MAX` is live, and
otherwise adds an element behind all the others, which stay as they are. Only on a table of
`HT_MAX_SIZE` it may not return, with the fatal error of the allocation. -/
theorem nextFreeElement_history [DecidableEq K] {keys : List (BitVec 64)}
    (h : IndexHistory hashVal s keys) (v : V) :
    s.ht.nNextFreeElement.toInt = nextFreeOfKeys keys ∧
      (zendHashNextIndexInsert s v = .error .overflow ∧ htMaxSize ≤ s.ht.nTableSize ∨
        ∃ s' r, zendHashNextIndexInsert s v = .ok (s', r) ∧
          (r = none ↔ ∃ w, zendHashIndexFind s.ht zendLongMax = .ok (some w)) ∧
          (r = none → s'.ht.walk = s.ht.walk) ∧
          (r ≠ none → s'.ht.walk = s.ht.walk ++ [(.index s.ht.nNextFreeElement, v)])) := by
  obtain ⟨t, hrep, hk⟩ := h.represents
  refine ⟨hrep.next.trans hk, ?_⟩
  have hl : HashKey.index zendLongMax ∈ t.map.keys ↔
      ∃ w, zendHashIndexFind s.ht zendLongMax = .ok (some w) := by
    rw [hrep.indexFind]
    simp only [Except.ok.injEq]
    rw [← Option.isSome_iff_exists, Option.isSome_iff_ne_none, ne_eq, OrderedMap.lookup_eq_none_iff,
      not_not]
  rw [← hl]
  exact hrep.nextIndexInsert v

/-- A negative key, the next free index after it, and the largest key: nothing can be added. -/
theorem nextFreeElement_history_full :
    ∃ s : HashState ℕ ℕ, IndexHistory (fun _ => 3) s [zendLongMax, 0, -5] ∧
      s.ht.nNextFreeElement.toInt = nextFreeOfKeys [zendLongMax, 0, -5] ∧
      nextFreeOfKeys [zendLongMax, 0, -5] = longMax := by
  have hi : IndexHistory (K := ℕ) (V := ℕ) (fun _ => 3) ⟨⟨[], 0⟩, _⟩ [] :=
    .init (rfl : zendHashInit 4096 8 = .ok _)
  have hf : IndexHistory (fun _ => 3) _ [-5] :=
    hi.call (show HashOp.indexAdd (-5) 10 ≠ .clean by simp) trivial rfl
  have hs : IndexHistory (fun _ => 3) _ [0, -5] :=
    hf.call (show HashOp.nextIndexInsert 11 ≠ .clean by simp) trivial rfl
  have hth : IndexHistory (fun _ => 3) _ [zendLongMax, 0, -5] :=
    hs.call (show HashOp.indexUpdate zendLongMax 12 ≠ .clean by simp) trivial rfl
  exact ⟨_, hth, (nextFreeElement_history hth 13).1, by decide⟩

end steps

end PhpInternals.Zend.ZendHash

import PhpInternals.Zend.ZendHash.Refinement
import PhpInternals.Zend.ZendHash.ArrayDup
import PhpInternals.Zend.ZendHash.Sort

/-!
# The collision chains in every reachable table
-/

namespace PhpInternals.Zend.ZendHash

open HashState Found

variable {K V : Type} [DecidableEq K] (hashVal : K → BitVec 64)

/-! ## Reachable tables -/

/-- A call on a table. `arrayDup` goes on with the copy, at its own address. -/
inductive TableOp (K V : Type) where
  | call (op : HashOp K V)
  | delBucket (idx : ℕ)
  | doResize
  | packedToHash
  | arrayDup (ops : ZvalOps V) (immutable : Bool) (addr : ℕ)
  | sortEx (f : SortFunc K V) (renumber : Bool)

/-- The table after a call. -/
def HashState.step (s : HashState K V) : TableOp K V → Except HashError (HashState K V)
  | .call op => (s.apply hashVal op).map Prod.fst
  | .delBucket idx => zendHashDelBucket s idx
  | .doResize => zendHashDoResize s
  | .packedToHash => .ok (zendHashPackedToHash s)
  | .arrayDup ops immutable addr => .ok { s with ht := zendArrayDup ops immutable addr s.ht }
  | .sortEx f renumber => .ok (zendHashSortEx f renumber s)

/-- What the callers promise: a bucket to delete is live, the assertions of `zend_hash_extend` hold,
and the layout is changed only where there is one. Nothing is asked for `zend_hash_add_new` and
`zend_hash_rehash`. -/
def HashState.Allowed (s : HashState K V) : TableOp K V → Prop
  | .call (.extend nSize packed) =>
    nSize = 0 ∨ s.ht.initialized = false ∨ s.ht.packed = packed
  | .delBucket idx => idx < s.ht.nNumUsed ∧ s.ht.live idx
  | .doResize => s.ht.initialized = true ∧ s.ht.packed = false
  | .packedToHash => s.ht.initialized = true
  | _ => True

/-- The states that calls produce from a table fresh from `zend_hash_init`. -/
inductive Reachable : HashState K V → Prop
  | init {eg : ExecutorGlobals} {addr nSize : ℕ} {ht : HashTable K V}
      (hinit : zendHashInit addr nSize = .ok ht) : Reachable ⟨eg, ht⟩
  | step {s s' : HashState K V} {op : TableOp K V} (hs : Reachable s) (hop : s.Allowed op)
      (hstep : s.step hashVal op = .ok s') : Reachable s'

/-! ## The step lemma -/

section Step

variable {hashVal} {s s' : HashState K V}

/-- **The step lemma**, calls of the interface. -/
theorem HashState.apply_wf (hwf : s.ht.Wf) (op : HashOp K V) (hop : s.Allowed (.call op))
    (hok : (s.apply hashVal op).map Prod.fst = .ok s') : s'.ht.Wf := by
  obtain ⟨⟨s1, o⟩, hc, rfl⟩ := map_eq_ok_iff.mp hok
  cases apply_effect hwf (fun n p het => by subst het; exact hop) hc with
  | insert _ _ _ hef | delete _ _ hef => exact hef.wf hwf
  | clean => exact zendHashClean_wf hwf
  | extend hse => exact hse.wf hwf
  | rehash => exact hwf.rehashed.2

lemma HashState.step_wf (hwf : s.ht.Wf) (op : TableOp K V) (hop : s.Allowed op)
    (hok : s.step hashVal op = .ok s') : s'.ht.Wf := by
  cases op with
  | call op => exact apply_wf hwf op hop hok
  | delBucket idx =>
    obtain ⟨s1, ho', -, hw'⟩ := zendHashDelBucket_effect hwf hop.1 hop.2
    rw [step, ho'] at hok
    cases hok
    exact hw'
  | doResize => exact (zendHashDoResize_silent hwf hop.1 hop.2 hok).wf
  | packedToHash =>
    cases hok
    exact (zendHashPackedToHash_silent hwf hop).1.wf
  | arrayDup ops immutable addr =>
    cases hok
    exact zendArrayDup_wf ops immutable addr hwf
  | sortEx f renumber =>
    cases hok
    exact zendHashSortEx_wf f renumber hwf

end Step

/-- **The run lemma**: the representation invariant holds in every reachable table. -/
theorem Reachable.wf {s : HashState K V} (h : Reachable hashVal s) : s.ht.Wf := by
  induction h with
  | init hit => exact zendHashInit_wf hit
  | step _ hop hsp ih => exact step_wf ih _ hop hsp

/-! ## The chains -/

omit [DecidableEq K] in
/-- The buckets met from a hash slot along `Z_NEXT`; `none` when the walk does not end or reads a
`Z_NEXT` that was never written. Source: `zend_hash.c` `zend_hash_find_bucket`. -/
def HashTable.chain (ht : HashTable K V) (nIndex : ℕ) : Option (List ℕ) :=
  chainWalk htInvalidIdx (fun i => (ht.arData i).next) (ht.nTableSize + 1) (ht.hash nIndex)

section Chains

omit [DecidableEq K]

variable {ht : HashTable K V} (hwf : ht.Wf) (hp : ht.packed = false)

include hwf hp

lemma HashTable.Wf.chain_eq (slot : ℕ) :
    ht.chain slot = some (below (ht.member slot) ht.nNumUsed) :=
  (hwf.chain hp).chainWalk_head hwf.used_le_invalid slot (by have := hwf.used_le; omega)

variable {arData : ℕ → Bucket K V} (hdata : ∀ i < ht.nNumUsed, arData i = ht.arData i)

include hdata

lemma delBucketLoop_reads (found : Bucket K V → Bool) (slot : ℕ) : ∀ fuel prev, ∀ m ≤ ht.nNumUsed,
    delBucketLoop { ht with arData } found fuel prev (lastBelow (ht.member slot) htInvalidIdx m)
      = delBucketLoop ht found fuel prev (lastBelow (ht.member slot) htInvalidIdx m)
  | 0, _, _, _ => rfl
  | fuel + 1, prev, m, hm => by
    rw [delBucketLoop, delBucketLoop]
    rcases lastBelow_cases (ht.member slot) htInvalidIdx m with ⟨hb, -⟩ | ⟨hlt, hmm, -⟩
    · simp [hb]
    · have hn := (hwf.chain hp).link slot _ (by omega) hmm
      have hu : lastBelow (ht.member slot) htInvalidIdx m < ht.nNumUsed := by omega
      simp [hdata _ hu, hn, delBucketLoop_reads found slot fuel _ _ hu.le]

lemma findBucketLoop_reads (found : Bucket K V → Bool) (slot fuel m : ℕ) (hm : m ≤ ht.nNumUsed) :
    findBucketLoop { ht with arData } found fuel (lastBelow (ht.member slot) htInvalidIdx m)
      = findBucketLoop ht found fuel (lastBelow (ht.member slot) htInvalidIdx m) := by
  rw [findBucketLoop_eq_map _ _ none, findBucketLoop_eq_map _ _ none,
    delBucketLoop_reads hwf hp hdata found slot fuel none m hm]

lemma findPrevLoop_reads {idx : ℕ} (hl : ht.live idx) : ∀ fuel q, idx < q → q < ht.nNumUsed →
    ht.member (ht.slot idx) q →
    findPrevLoop { ht with arData } idx fuel q = findPrevLoop ht idx fuel q
  | 0, _, _, _, _ => rfl
  | fuel + 1, q, hq, hu, hm => by
    have hn := (hwf.chain hp).link _ q hu hm
    rw [findPrevLoop, findPrevLoop]
    simp only [hdata q hu, hn]
    rcases lastBelow_cases (ht.member (ht.slot idx)) htInvalidIdx q with ⟨-, hnn⟩ | ⟨hlt, hmm, hg⟩
    · exact absurd ⟨hl, rfl⟩ (hnn idx hq)
    by_cases heq : lastBelow (ht.member (ht.slot idx)) htInvalidIdx q = idx
    · rw [if_pos heq, if_pos heq]
    · rw [if_neg heq, if_neg heq]
      refine findPrevLoop_reads hl fuel _ ?_ (by omega) hmm
      by_contra hle
      exact hg idx (by omega) hq ⟨hl, rfl⟩

end Chains

/-- **The collision chains of every reachable hashed table.** From any hash slot `Z_NEXT` leads
through strictly decreasing indices of used, live buckets; a live bucket is on the chain of its own
slot and of no other. So the lookup and the delete loops end, and never read a bucket from
`nNumUsed` on: what is there does not matter to them. -/
theorem zendHash_chains {s : HashState K V} (hs : Reachable hashVal s)
    (hp : s.ht.packed = false) :
    (∀ h : BitVec 64, ∃ l, s.ht.chain (nIndex h s.ht.nTableMask) = some l ∧ l.Pairwise (· > ·) ∧
      ∀ i ∈ l, i < s.ht.nNumUsed ∧ s.ht.live i) ∧
    (∀ i < s.ht.nNumUsed, s.ht.live i → ∀ (h : BitVec 64) (l : List ℕ),
      s.ht.chain (nIndex h s.ht.nTableMask) = some l →
        (i ∈ l ↔ nIndex h s.ht.nTableMask = s.ht.slot i)) ∧
    (∀ (found : Bucket K V → Bool) (h : BitVec 64) (fuel : ℕ), s.ht.nNumUsed < fuel →
      ∃ r d, ∀ arData : ℕ → Bucket K V, (∀ i < s.ht.nNumUsed, arData i = s.ht.arData i) →
        findBucketLoop { s.ht with arData } found fuel
          (s.ht.hash (nIndex h s.ht.nTableMask)) = .ok r ∧
        delBucketLoop { s.ht with arData } found fuel none
          (s.ht.hash (nIndex h s.ht.nTableMask)) = .ok d) ∧
    (∀ i < s.ht.nNumUsed, s.ht.live i → s.ht.hash (s.ht.slot i) ≠ i → ∀ fuel, s.ht.nNumUsed < fuel →
      ∃ prev, ∀ arData : ℕ → Bucket K V, (∀ i < s.ht.nNumUsed, arData i = s.ht.arData i) →
        findPrevLoop { s.ht with arData } i fuel (s.ht.hash (s.ht.slot i)) = .ok prev) := by
  have hwf := hs.wf
  refine ⟨fun h => ?_, fun i hi hl h l hl' => ?_, fun found h fuel hf => ?_,
    fun i hi hl hne fuel hf => ?_⟩
  · refine ⟨_, hwf.chain_eq hp _, below_pairwise _ _, fun i hi => ?_⟩
    obtain ⟨hlt, hm⟩ := mem_below.mp hi
    exact ⟨hlt, hm.1⟩
  · rw [hwf.chain_eq hp, Option.some.injEq] at hl'
    rw [← hl', mem_below]
    constructor
    · exact fun hm => hm.2.2.symm
    · exact fun hsl => ⟨hi, hl, hsl.symm⟩
  · have hfn := findBucketLoop_eq hwf hp found (nIndex h s.ht.nTableMask) hf
    obtain ⟨prev, -, hdl⟩ := delBucketLoop_spec hwf hp found (nIndex h s.ht.nTableMask) hf
    refine ⟨_, _, fun arData hdata => ⟨Eq.trans ?_ hfn, Eq.trans ?_ hdl⟩⟩
    · rw [(hwf.chain hp).head]
      exact findBucketLoop_reads hwf hp hdata found _ fuel _ le_rfl
    · rw [(hwf.chain hp).head]
      exact delBucketLoop_reads hwf hp hdata found _ fuel none _ le_rfl
  · obtain ⟨hlt, hmm, hmx⟩ := hwf.head_of_live hp hi hl
    obtain ⟨prev, hok, -⟩ := findPrevLoop_spec hwf hp hl fuel (s.ht.hash (s.ht.slot i))
      (by omega) hlt hmm (by omega)
    refine ⟨prev, fun arData hdata => ?_⟩
    rw [findPrevLoop_reads hwf hp hdata hl fuel _ (by omega) hlt hmm]
    exact hok

/-- The chains of a table with two colliding keys. -/
theorem zendHash_chains_collision : ∃ s : HashState ℕ ℕ,
    Reachable (fun _ => 3) s ∧ s.ht.packed = false ∧ s.ht.nNumUsed = 2 ∧
      ∀ h : BitVec 64, ∃ l, s.ht.chain (nIndex h s.ht.nTableMask) = some l ∧ l.Pairwise (· > ·) ∧
        ∀ i ∈ l, i < s.ht.nNumUsed ∧ s.ht.live i := by
  have h₀ := @Reachable.init ℕ ℕ _ (fun _ => 3) ⟨[], 0⟩ 4096 8 _ rfl
  have h₁ := @Reachable.step ℕ ℕ _ _ _ _ (.call (.add 5 1)) h₀ trivial rfl
  have h₂ := @Reachable.step ℕ ℕ _ _ _ _ (.call (.add 6 2)) h₁ trivial rfl
  exact ⟨_, h₂, rfl, rfl, (zendHash_chains _ h₂ rfl).1⟩

end PhpInternals.Zend.ZendHash

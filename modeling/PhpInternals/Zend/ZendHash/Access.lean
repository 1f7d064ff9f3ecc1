import PhpInternals.Zend.ZendHash.Chain

/-!
# Chain walks end, and find what the chains hold

On a table that is not packed and satisfies `HashTable.Wf`, every lookup and delete loop ends
before it runs out of buckets, and its answer is read off the list of the slot's members:
-/

namespace PhpInternals.Zend.ZendHash

open List PhpInternals.Found

variable {K V : Type} {ht : HashTable K V}

variable {i : ℕ}

lemma HashTable.Wf.link (h : ht.Wf) (hp : ht.packed = false) (hi : i < ht.nNumUsed)
    (hl : ht.live i) :
    (ht.arData i).next = some (lastBelow (ht.member (ht.slot i)) htInvalidIdx i) :=
  (h.chain hp).link (ht.slot i) i hi ⟨hl, rfl⟩

lemma HashTable.Wf.head_of_live (h : ht.Wf) (hp : ht.packed = false)
    (hi : i < ht.nNumUsed) (hl : ht.live i) :
    ht.hash (ht.slot i) < ht.nNumUsed ∧ ht.member (ht.slot i) (ht.hash (ht.slot i)) ∧
      i ≤ ht.hash (ht.slot i) := by
  rw [(h.chain hp).head]
  rcases lastBelow_cases (ht.member (ht.slot i)) htInvalidIdx ht.nNumUsed with
    ⟨-, hn⟩ | ⟨hlt, hm, hg⟩
  · exact absurd ⟨hl, rfl⟩ (hn i hi)
  · refine ⟨hlt, hm, ?_⟩
    by_contra hc
    exact hg i (by omega) hi ⟨hl, rfl⟩

/-! ## Lookup -/

/-- The test of a chain walk at bucket `i`. -/
def HashTable.testAt (ht : HashTable K V) (found : Bucket K V → Bool) (i : ℕ) : Bool :=
  found (ht.arData i)

variable {fuel : ℕ}

lemma findBucketLoop_invalid (found : Bucket K V → Bool) (fuel : ℕ) :
    findBucketLoop ht found (fuel + 1) htInvalidIdx = .ok none := by
  simp [findBucketLoop]

/-! ## The link into a bucket -/

/-- `prev` is the bucket that links to `idx`, or `none` when the slot does. -/
def HashTable.UnlinksTo (ht : HashTable K V) (idx : ℕ) : Option ℕ → Prop
  | none => ht.hash (ht.slot idx) = idx
  | some q => q < ht.nNumUsed ∧ ht.member (ht.slot idx) q ∧ (ht.arData q).next = some idx

/-- The delete loop from the last member below `m`, `prev` being the bucket the loop came from. -/
lemma delBucketLoop_lastBelow (h : ht.Wf) (hp : ht.packed = false) (found : Bucket K V → Bool)
    (s : ℕ) : ∀ fuel m prev, m ≤ ht.nNumUsed → m < fuel →
      (∀ idx, lastBelow (ht.member s) htInvalidIdx m = idx → ht.member s idx →
        ht.UnlinksTo idx prev) →
      ∃ prev', (∀ idx ∈ (below (ht.member s) m).find? (ht.testAt found), ht.UnlinksTo idx prev') ∧
        delBucketLoop ht found fuel prev (lastBelow (ht.member s) htInvalidIdx m)
          = .ok (((below (ht.member s) m).find? (ht.testAt found)).map (·, prev')) := by
  intro fuel
  induction fuel with
  | zero => intro m _ _ hf; omega
  | succ fuel ih =>
    intro m prev hm hf hpr
    rcases lastBelow_cases (ht.member s) htInvalidIdx m with ⟨hb, hn⟩ | ⟨hlt, hmm, -⟩
    · rw [hb, below_eq_nil hn]
      exact ⟨none, by simp, by simp [delBucketLoop]⟩
    have hl := (h.chain hp).link s _ (by omega) hmm
    rw [delBucketLoop, if_neg (h.ne_invalid (by omega)), hl,
      below_eq_cons_of_mem htInvalidIdx hlt hmm]
    simp only
    by_cases hfn : ht.testAt found (lastBelow (ht.member s) htInvalidIdx m)
    · rw [if_pos (by exact hfn), find?_cons_of_pos hfn]
      refine ⟨prev, ?_, rfl⟩
      intro idx hi
      have heq : lastBelow (ht.member s) htInvalidIdx m = idx := by simpa using hi
      exact hpr idx heq (heq ▸ hmm)
    rw [if_neg (by exact hfn), find?_cons_of_neg hfn]
    refine ih _ _ (by omega) (by omega) ?_
    intro idx heq hmd
    refine ⟨by omega, ?_, ?_⟩
    · rw [hmd.2]
      exact hmm
    · rw [hl, heq]

/-- **A delete loop** ends with the bucket that a lookup would find, and with the link into it. -/
theorem delBucketLoop_spec (h : ht.Wf) (hp : ht.packed = false) (found : Bucket K V → Bool)
    (s : ℕ) (hf : ht.nNumUsed < fuel) :
    ∃ prev, (∀ idx ∈ (below (ht.member s) ht.nNumUsed).find? (ht.testAt found),
        ht.UnlinksTo idx prev) ∧
      delBucketLoop ht found fuel none (ht.hash s)
        = .ok (((below (ht.member s) ht.nNumUsed).find? (ht.testAt found)).map (·, prev)) := by
  have hhd := (h.chain hp).head s
  rw [hhd]
  refine delBucketLoop_lastBelow h hp found s fuel _ none le_rfl hf ?_
  intro idx heq hm
  rw [HashTable.UnlinksTo, hm.2, hhd, heq]

lemma findBucketLoop_eq_map (found : Bucket K V → Bool) : ∀ fuel prev idx,
    findBucketLoop ht found fuel idx =
    (delBucketLoop ht found fuel prev idx).map (Option.map Prod.fst)
  | 0, _, _ => rfl
  | fuel + 1, prev, idx => by
    rw [findBucketLoop, delBucketLoop]
    cases (ht.arData idx).next with
    | none => split_ifs <;> rfl
    | some next =>
      split_ifs
      · rfl
      · rfl
      · exact findBucketLoop_eq_map found fuel _ next

/-- **A lookup loop** ends with the first member of the slot that passes the test; any fuel above
`nNumUsed` is enough. -/
theorem findBucketLoop_eq (h : ht.Wf) (hp : ht.packed = false) (found : Bucket K V → Bool)
    (s : ℕ) (hf : ht.nNumUsed < fuel) :
    findBucketLoop ht found fuel (ht.hash s)
      = .ok ((below (ht.member s) ht.nNumUsed).find? (ht.testAt found)) := by
  obtain ⟨prev, -, heq⟩ := delBucketLoop_spec h hp found s hf
  rw [findBucketLoop_eq_map _ _ none, heq]
  cases (below (ht.member s) ht.nNumUsed).find? (ht.testAt found) <;> rfl

variable {idx : ℕ}

/-- **The search of `_zend_hash_del_el`** from a later member of the chain finds the link into the
live bucket `idx`. -/
theorem findPrevLoop_spec (h : ht.Wf) (hp : ht.packed = false) (hl : ht.live idx) :
    ∀ fuel q, idx < q → q < ht.nNumUsed → ht.member (ht.slot idx) q → q < fuel →
      ∃ prev, findPrevLoop ht idx fuel q = .ok prev ∧ ht.UnlinksTo idx (some prev) := by
  intro fuel
  induction fuel with
  | zero => intro q _ _ _ hf; omega
  | succ fuel ih =>
    intro q hq hu hm hf
    have hln := (h.chain hp).link _ q hu hm
    rw [findPrevLoop, hln]
    simp only
    split_ifs with heq
    · exact ⟨q, rfl, hu, hm, by rw [hln, heq]⟩
    -- `idx` itself is a member below `q`, so the link does not skip past it
    rcases lastBelow_cases (ht.member (ht.slot idx)) htInvalidIdx q with
      ⟨-, hn⟩ | ⟨hlt, hmm, hg⟩
    · exact absurd ⟨hl, rfl⟩ (hn idx hq)
    · refine ih _ ?_ (by omega) hmm (by omega)
      by_contra hge
      exact hg idx (by omega) hq ⟨hl, rfl⟩

/-! ## Membership of the slot list -/

variable {found : Bucket K V → Bool} {s n : ℕ}

lemma find_below_some (h : (below (ht.member s) n).find? (ht.testAt found) = some idx) :
    idx < n ∧ ht.member s idx ∧ found (ht.arData idx) = true := by
  have hm := mem_below.mp (mem_of_find?_eq_some h)
  exact ⟨hm.1, hm.2, find?_some (p := ht.testAt found) h⟩

lemma find_below_none (h : (below (ht.member s) n).find? (ht.testAt found) = none) :
    ∀ i < n, ht.member s i → found (ht.arData i) = false := by
  intro i hi hm
  simpa [HashTable.testAt] using find?_eq_none.mp h i (mem_below.mpr ⟨hi, hm⟩)

end PhpInternals.Zend.ZendHash

import PhpInternals.Found.Except
import PhpInternals.Zend.ZendHash.Remove

/-!
# Inversion of the table functions

Every insertion is a sequence of silent steps followed by at most one new or overwritten bucket,
every deletion removes at most one bucket (`InsertEffect`, `DeleteEffect`). The two insertion
functions and the two deletion functions are inverted here once, for every path through them:

On a table that satisfies `HashTable.Wf` an operation either has its effect and keeps the invariant,
or it fails. An insertion can only fail with the size overflow of a table of `HT_MAX_SIZE`; a delete
or a lookup in a table that is not packed never fails. In a packed table only the chain walks of the
string functions can fail.
-/

namespace PhpInternals.Zend.ZendHash

open HashTable PhpInternals.Found

variable {K V : Type}

/-- Silent steps in a row. -/
def Settles (s s' : HashState K V) : Prop := Relation.ReflTransGen Silent s s'

/-- Bucket `i` is filed under the given hash and string key. -/
def HashTable.FiledAt (ht : HashTable K V) (h : BitVec 64) (key : Option K) (i : ℕ) : Prop :=
  i < ht.nNumUsed ∧ ht.live i ∧ (ht.arData i).h = h ∧ (ht.arData i).key = key

/-- Where a function looks for a key: in the chains, or for an integer key of a packed table at the
index itself. -/
def HashTable.Holds (ht : HashTable K V) (h : BitVec 64) (key : Option K) (i : ℕ) : Prop :=
  if ht.packed then key = none ∧ i = h.toNat ∧ i < ht.nNumUsed ∧ ht.live i
  else ht.FiledAt h key i

variable {ht : HashTable K V} {s s' : HashState K V} {h : BitVec 64} {key : Option K} {i : ℕ}

lemma HashTable.Holds.live (hh : ht.Holds h key i) : i < ht.nNumUsed ∧ ht.live i := by
  unfold HashTable.Holds at hh
  split_ifs at hh
  · exact ⟨hh.2.2.1, hh.2.2.2⟩
  · exact ⟨hh.1, hh.2.1⟩

/-- In a packed table the index is the key. -/
lemma HashTable.holds_packed (hp : ht.packed = true) :
    ht.Holds h key i ↔ key = none ∧ i = h.toNat ∧ i < ht.nNumUsed ∧ ht.live i := by
  rw [HashTable.Holds, if_pos hp]

lemma HashTable.not_holds_str (hp : ht.packed = true) (h : BitVec 64) (k : K) (i : ℕ) :
    ¬ ht.Holds h (some k) i := fun hh => by cases (holds_packed hp).mp hh |>.1

/-- In a hashed one the key is filed under it. -/
lemma HashTable.holds_filed (hp : ht.packed = false) : ht.Holds h key i ↔ ht.FiledAt h key i := by
  rw [HashTable.Holds, hp, if_neg Bool.false_ne_true]

/-- **The effect of an insertion.** -/
inductive InsertEffect (s : HashState K V) (h : BitVec 64) (key : Option K) (v : V)
    (flag : HashFlag) : HashState K V → Option ℕ → Prop
  /-- The key is there and must not be overwritten: `NULL`. -/
  | kept (p : ℕ) (hp : s.ht.Holds h key p) (hadd : flag.add = true) :
      InsertEffect s h key v flag s none
  /-- The key is there and gets the new value. -/
  | overwritten (s' : HashState K V) (p : ℕ) (hp : s.ht.Holds h key p) (hadd : flag.add = false)
      (hover : Overwritten s s' p v) (hwf : s'.ht.Wf)
      (hnext : s'.ht.nNextFreeElement = nextFreeOf h key s.ht.nNextFreeElement ∨
        s'.ht.nNextFreeElement = s.ht.nNextFreeElement ∧ s.ht.packed = true) :
      InsertEffect s h key v flag s' (some p)
  /-- The key is new (or claimed to be new by the caller). -/
  | appended (s₁ s' : HashState K V) (idx : ℕ) (habs : (∀ p, ¬ s.ht.Holds h key p) ∨
        flag.addNew = true) (hset : Settles s s₁) (happ : Appended s₁ s' idx h key v)
      (hpacked : s₁.ht.packed = true → key = none ∧ idx = h.toNat) (hwf : s'.ht.Wf)
      (hnext : s'.ht.nNextFreeElement = nextFreeOf h key s₁.ht.nNextFreeElement) :
      InsertEffect s h key v flag s' (some idx)

/-- **The effect of a deletion.** -/
inductive DeleteEffect (s : HashState K V) (h : BitVec 64) (key : Option K) :
    HashState K V → Bool → Prop
  | removed (s' : HashState K V) (idx : ℕ) (hp : s.ht.Holds h key idx) (hrem : Removed s s' idx)
      (hwf : s'.ht.Wf) : DeleteEffect s h key s' true
  | missing (habs : ∀ p, ¬ s.ht.Holds h key p) : DeleteEffect s h key s false

/-! ## What a lookup tells -/

section Lookup

lemma HashTable.FiledAt.member (hf : ht.FiledAt h key i) : ht.member (nIndex h ht.nTableMask) i :=
  ⟨hf.2.1, by rw [slot, hf.2.2.1]⟩

/-- The search along a chain finds the bucket that holds the key. -/
lemma findBucket_holds (hp : ht.packed = false) (found : Bucket K V → Bool)
    (hfn : ∀ b, found b = true ↔ b.h = h ∧ b.key = key) :
    (∀ p, (below (ht.member (nIndex h ht.nTableMask)) ht.nNumUsed).find?
    (ht.testAt found) = some p →
        ht.Holds h key p) ∧
      ((below (ht.member (nIndex h ht.nTableMask)) ht.nNumUsed).find? (ht.testAt found) = none →
        ∀ p, ¬ ht.Holds h key p) := by
  refine ⟨fun p hf => ?_, fun hn p hh => ?_⟩
  · obtain ⟨hlt, hm, hf⟩ := find_below_some hf
    obtain ⟨h1, h2⟩ := (hfn _).mp hf
    exact (holds_filed hp).mpr ⟨hlt, hm.1, h1, h2⟩
  · have hfl := (holds_filed hp).mp hh
    have := find_below_none hn p hfl.1 hfl.member
    rw [(hfn _).mpr ⟨hfl.2.2.1, hfl.2.2.2⟩] at this
    cases this

lemma isStrKey_iff [DecidableEq K] (hashVal : K → BitVec 64) (key : K) (b : Bucket K V) :
    isStrKey hashVal key b = true ↔ b.h = hashVal key ∧ b.key = some key := by
  simp [isStrKey]

lemma isIndexKey_iff (h : BitVec 64) (b : Bucket K V) :
    isIndexKey h b = true ↔ b.h = h ∧ b.key = none := by
  simp [isIndexKey]

variable (hwf : ht.Wf) (hp : ht.packed = false)

include hwf hp

/-- A walk of a chain of a table that is not packed always answers. -/
lemma findBucketLoop_holds (found : Bucket K V → Bool)
    (hf : ∀ b, found b = true ↔ b.h = h ∧ b.key = key) :
    (∃ p, findBucketLoop ht found (ht.nTableSize + 1) (ht.hash (nIndex h ht.nTableMask)) =
        .ok (some p) ∧ ht.Holds h key p) ∨
      (findBucketLoop ht found (ht.nTableSize + 1) (ht.hash (nIndex h ht.nTableMask)) = .ok none ∧
        ∀ p, ¬ ht.Holds h key p) := by
  have hle := hwf.used_le
  rw [findBucketLoop_eq hwf hp found (nIndex h ht.nTableMask)
    (by omega : ht.nNumUsed < ht.nTableSize + 1)]
  obtain ⟨hsm, hn⟩ := findBucket_holds hp found hf
  cases hfn : (below (ht.member (nIndex h ht.nTableMask)) ht.nNumUsed).find? (ht.testAt found) with
  | some p => exact .inl ⟨p, rfl, hsm p hfn⟩
  | none => exact .inr ⟨rfl, hn hfn⟩

/-- `zend_hash_find_bucket` is exact. -/
lemma zendHashFindBucket_spec [DecidableEq K] (hashVal : K → BitVec 64) (key : K) :
    (∃ p, zendHashFindBucket hashVal ht key = .ok (some p) ∧ ht.Holds (hashVal key) (some key) p) ∨
      (zendHashFindBucket hashVal ht key = .ok none ∧ ∀ p, ¬ ht.Holds (hashVal key) (some key) p) :=
  findBucketLoop_holds hwf hp (isStrKey hashVal key) (isStrKey_iff hashVal key)

lemma zendHashIndexFindBucket_spec (h : BitVec 64) :
    (∃ p, zendHashIndexFindBucket ht h = .ok (some p) ∧ ht.Holds h none p) ∨
      (zendHashIndexFindBucket ht h = .ok none ∧ ∀ p, ¬ ht.Holds h none p) :=
  findBucketLoop_holds hwf hp (isIndexKey h) (isIndexKey_iff h)

end Lookup

/-! ## Insertion -/

section Insert

lemma Settles.refl (s : HashState K V) : Settles s s := Relation.ReflTransGen.refl

lemma Silent.settles (h : Silent s s') : Settles s s' := Relation.ReflTransGen.single h

lemma zendHashCheckInit_header (ht : HashTable K V) (hi : ht.initialized = false)
    (hp : ht.packed = false) (packed : Bool) :
    (zendHashCheckInit ht packed).initialized = true ∧
      (zendHashCheckInit ht packed).packed = packed ∧
      (zendHashCheckInit ht packed).nNumUsed = ht.nNumUsed ∧
      (zendHashCheckInit ht packed).nTableSize = ht.nTableSize := by
  cases packed <;> simp [zendHashCheckInit, zendHashRealInitEx, hi, hp]

variable {v : V} {flag : HashFlag}

/-- **The common end of the insertion functions**, after silent steps from `s0`. -/
theorem resizeAndAdd_insertEffect {s0 : HashState K V} (hset0 : Settles s0 s) (hwf : s.ht.Wf)
    (hi : s.ht.initialized = true) (hp : s.ht.packed = false)
    (ha : (∀ p, ¬ s0.ht.Holds h key p) ∨ flag.addNew = true) :
    resizeAndAdd s h key v = .error .overflow ∧ htMaxSize ≤ s.ht.nTableSize ∨
      ∃ s' r, resizeAndAdd s h key v = .ok (s', r) ∧ InsertEffect s0 h key v flag s' r := by
  unfold resizeAndAdd
  rcases zendHashIfFullDoResize_spec hwf hi hp with ⟨her, hfull⟩ | ⟨s1, hok, hsl, hrm, hp1, hi1⟩
  · rw [her]
    exact .inl ⟨rfl, hfull⟩
  rw [hok]
  have hse : Settles s s1 ∧ s1.ht.Wf := by
    rcases hsl with rfl | hsl
    · exact ⟨.refl s1, hwf⟩
    · exact ⟨hsl.settles, hsl.wf⟩
  obtain ⟨hap, hw', hn⟩ := addToHash_appended hse.2 hi1 hp1 hrm h key v
  refine .inr ⟨_, _, rfl, .appended s1 _ _ ha (hset0.trans hse.1) hap (fun hp' => ?_) hw' hn⟩
  exact absurd (hp1.symm.trans hp') (by decide)

/-- The paths that leave the packed layout first. -/
lemma convertAndAdd_insertEffect (hwf : s.ht.Wf) (hi : s.ht.initialized = true)
    (ha : ∀ p, ¬ s.ht.Holds h key p) :
    resizeAndAdd (zendHashPackedToHash s) h key v = .error .overflow ∧
        htMaxSize ≤ s.ht.nTableSize ∨
      ∃ s' r, resizeAndAdd (zendHashPackedToHash s) h key v = .ok (s', r) ∧
        InsertEffect s h key v flag s' r := by
  obtain ⟨hsl, hp1, hi1⟩ := zendHashPackedToHash_silent hwf hi
  have hsz : (zendHashPackedToHash s).ht.nTableSize = s.ht.nTableSize :=
    ((moveData_copied s.ht _ _ false hi).rehash_header hwf).2.nTableSize
  rw [← hsz]
  exact resizeAndAdd_insertEffect hsl.settles hsl.wf hi1 hp1 (.inl ha)

/-- The first element of a table that is not packed. -/
lemma initAndAdd_insertEffect (hwf : s.ht.Wf) (hi : s.ht.initialized = false) :
    InsertEffect s h key v flag (addToHash { s with ht := zendHashCheckInit s.ht false } h key v).1
      (some (zendHashCheckInit s.ht false).nNumUsed) := by
  obtain ⟨hu, hp⟩ := hwf.uninit hi
  have hsl := zendHashCheckInit_silent hwf hi false s.ht.nTableSize hwf.size_le hwf.size_pos
  obtain ⟨hi1, hp1, hu1, hs1⟩ := zendHashCheckInit_header s.ht hi hp false
  have hps := hwf.size_pos
  obtain ⟨ha, hw', hn⟩ := addToHash_appended hsl.wf hi1 hp1 (by simp only [hu1, hs1]; omega) h key v
  refine .appended _ _ _ (.inl fun p hh => ?_) hsl.settles ha (fun hp' => ?_) hw' hn
  · have := hh.live.1
    omega
  · exact absurd (hp1.symm.trans hp') (by decide)

/-- `add_to_packed` after silent steps. -/
lemma addToPacked_insertEffect {s1 : HashState K V} (hse : Settles s s1) (hwf : s1.ht.Wf)
    (hi : s1.ht.initialized = true) (hp : s1.ht.packed = true) (hr : h.toNat < s1.ht.nTableSize)
    (hge : s1.ht.nNumUsed ≤ h.toNat) (ha : ∀ p, ¬ s.ht.Holds h none p)
    (hf : flag.addNew = false) :
    InsertEffect s h none v flag (addToPacked s1 h v flag).1 (some h.toNat) := by
  obtain ⟨hap, hw', hn⟩ := addToPacked_appended hwf hi hp hr hge v hf
  exact .appended s1 _ _ (.inl ha) hse hap (fun _ => ⟨rfl, rfl⟩) hw' hn

/-- **`_zend_hash_add_or_update_i`**: every path of it. -/
theorem zendHashAddOrUpdateI_effect [DecidableEq K] (hashVal : K → BitVec 64) (hwf : s.ht.Wf)
    (key : K) (v : V) (flag : HashFlag) :
    zendHashAddOrUpdateI hashVal s key v flag = .error .overflow ∧
        htMaxSize ≤ s.ht.nTableSize ∨
      ∃ s' r, zendHashAddOrUpdateI hashVal s key v flag = .ok (s', r) ∧
        InsertEffect s (hashVal key) (some key) v flag s' r := by
  unfold zendHashAddOrUpdateI
  cases hi : s.ht.initialized with
  | false => exact .inr ⟨_, _, rfl, initAndAdd_insertEffect hwf hi⟩
  | true =>
    cases hp : s.ht.packed with
    | true =>
      -- a packed table has no string key: convert, then add
      exact convertAndAdd_insertEffect hwf hi (not_holds_str hp _ key)
    | false =>
      cases hn : flag.addNew with
      | true => exact resizeAndAdd_insertEffect (.refl s) hwf hi hp (.inr hn)
      | false =>
        rcases zendHashFindBucket_spec hwf hp hashVal key with ⟨p, hf, hhl⟩ | ⟨hf, hab⟩
        · rw [hf]
          cases ha : flag.add with
          | true => exact .inr ⟨s, none, rfl, .kept p hhl ha⟩
          | false =>
            obtain ⟨ho, hw'⟩ := setVal_overwritten hwf hhl.live.2 v
            exact .inr ⟨_, some p, rfl, .overwritten _ p hhl ha ho hw' (.inl rfl)⟩
        · rw [hf]
          exact resizeAndAdd_insertEffect (.refl s) hwf hi hp (.inl hab)

/-- The paths of an integer key in a packed table. -/
lemma indexAddPacked_effect (hwf : s.ht.Wf) (hi : s.ht.initialized = true)
    (hp : s.ht.packed = true) (h : BitVec 64) (v : V) (hf : flag.addNew = false) :
    zendHashIndexAddOrUpdateI s h v flag = .error .overflow ∧ htMaxSize ≤ s.ht.nTableSize ∨
      ∃ s' r, zendHashIndexAddOrUpdateI s h v flag = .ok (s', r) ∧
        InsertEffect s h none v flag s' r := by
  unfold zendHashIndexAddOrUpdateI
  simp only [hi, hp, Bool.not_true, Bool.false_eq_true, if_false, if_true]
  by_cases hlt : h.toNat < s.ht.nNumUsed
  · rw [if_pos hlt]
    by_cases hl : (s.ht.arData h.toNat).val.isSome
    · rw [if_pos hl]
      have hhd := (holds_packed hp).mpr ⟨rfl, rfl, hlt, hl⟩
      cases had : flag.add with
      | true => exact .inr ⟨s, none, rfl, .kept _ hhd had⟩
      | false =>
        obtain ⟨ho, hw'⟩ := setVal_overwritten hwf hl v
        exact .inr ⟨_, some h.toNat, rfl, .overwritten _ _ hhd had ho hw' (.inr ⟨rfl, hp⟩)⟩
    · rw [if_neg hl]
      refine convertAndAdd_insertEffect hwf hi fun p hh => ?_
      obtain ⟨-, rfl, -, hlv⟩ := (holds_packed hp).mp hh
      exact hl hlv
  have ha : ∀ p, ¬ s.ht.Holds h none p := by
    intro p hh
    obtain ⟨-, rfl, hl', -⟩ := (holds_packed hp).mp hh
    exact hlt hl'
  rw [if_neg hlt]
  by_cases hsz : h.toNat < s.ht.nTableSize
  · rw [if_pos hsz]
    exact .inr ⟨_, _, rfl, addToPacked_insertEffect (.refl s) hwf hi hp hsz (by omega) ha hf⟩
  rw [if_neg hsz]
  by_cases hg : h.toNat >>> 1 < s.ht.nTableSize ∧ s.ht.nTableSize >>> 1 < s.ht.nNumOfElements
  · unfold zendHashPackedGrow
    split_ifs with hm
    · exact .inl ⟨rfl, hm⟩
    simp only [htMaxSize] at hm
    have hsl := moveData_silent hwf hi hp
      (by omega : s.ht.nTableSize + s.ht.nTableSize ≤ 2 ^ 32 - 2) (by omega)
    have hhf := hg.1
    exact .inr ⟨_, _, rfl, addToPacked_insertEffect hsl.settles hsl.wf hi hp
      (by simp only [moveData]; omega) (by simp only [moveData]; omega)
      ha hf⟩
  · rw [if_neg hg]
    exact convertAndAdd_insertEffect hwf hi ha

/-- **`_zend_hash_index_add_or_update_i`**: every path of it, the flags of the callers without
`HASH_ADD_NEW`. -/
theorem zendHashIndexAddOrUpdateI_effect (hwf : s.ht.Wf) (h : BitVec 64) (v : V) (flag : HashFlag)
    (hf : flag.addNew = false) :
    zendHashIndexAddOrUpdateI s h v flag = .error .overflow ∧ htMaxSize ≤ s.ht.nTableSize ∨
      ∃ s' r, zendHashIndexAddOrUpdateI s h v flag = .ok (s', r) ∧
        InsertEffect s h none v flag s' r := by
  cases hi : s.ht.initialized with
  | true =>
    cases hp : s.ht.packed with
    | true => exact indexAddPacked_effect hwf hi hp h v hf
    | false =>
      unfold zendHashIndexAddOrUpdateI
      simp only [hi, hp, hf, Bool.not_false]
      rcases zendHashIndexFindBucket_spec hwf hp h with ⟨p, hfn, hhl⟩ | ⟨hfn, hab⟩
      · rw [hfn]
        cases ha : flag.add with
        | true => exact .inr ⟨s, none, rfl, .kept p hhl ha⟩
        | false =>
          obtain ⟨ho, hw'⟩ := setVal_overwritten hwf hhl.live.2 v
          exact .inr ⟨_, some p, rfl, .overwritten _ p hhl ha { ho with } { hw' with } (.inl rfl)⟩
      · rw [hfn]
        exact resizeAndAdd_insertEffect (.refl s) hwf hi hp (.inl hab)
  | false =>
    obtain ⟨hu, hp⟩ := hwf.uninit hi
    unfold zendHashIndexAddOrUpdateI
    simp only [hi]
    by_cases hsz : h.toNat < s.ht.nTableSize
    · have hsl := zendHashCheckInit_silent hwf hi true s.ht.nTableSize hwf.size_le hwf.size_pos
      obtain ⟨hi1, hp1, hu1, hs1⟩ := zendHashCheckInit_header s.ht hi hp true
      simp only [hsz, decide_true]
      refine .inr ⟨_, _, rfl, addToPacked_insertEffect hsl.settles hsl.wf hi1 hp1
        (by simp only [hs1]; exact hsz) (by simp only [hu1]; omega) (fun p hh => ?_) hf⟩
      have := hh.live.1
      omega
    · simp only [hsz, if_false]
      exact .inr ⟨_, _, rfl, initAndAdd_insertEffect hwf hi⟩

end Insert

/-! ## Deletion -/

/-- Deleting a bucket found with its predecessor. -/
lemma zendHashDelElEx_effect (hwf : s.ht.Wf) {idx : ℕ} (hh : s.ht.Holds h key idx) {prev : Option ℕ}
    (hpr : s.ht.packed = false → s.ht.UnlinksTo idx prev) :
    DeleteEffect s h key (zendHashDelElEx s idx prev) true :=
  .removed _ idx hh (zendHashDelElEx_removed hh.live.1)
    (zendHashDelElEx_wf hwf hh.live.1 hh.live.2 hpr)

/-- The loop of a deletion keeps the predecessor. -/
lemma delBucketLoop_effect (hwf : s.ht.Wf) (hp : s.ht.packed = false) (found : Bucket K V → Bool)
    (hf : ∀ b, found b = true ↔ b.h = h ∧ b.key = key) :
    ∃ r, delBucketLoop s.ht found (s.ht.nTableSize + 1) none
        (s.ht.hash (nIndex h s.ht.nTableMask)) = .ok r ∧
      DeleteEffect s h key (delFound s r).1 (delFound s r).2 := by
  have hle := hwf.used_le
  obtain ⟨prev, hpr, heq⟩ := delBucketLoop_spec hwf hp found (nIndex h s.ht.nTableMask)
    (by omega : s.ht.nNumUsed < s.ht.nTableSize + 1)
  obtain ⟨hsm, hn⟩ := findBucket_holds hp found hf
  refine ⟨_, heq, ?_⟩
  cases hfn : (below (s.ht.member (nIndex h s.ht.nTableMask)) s.ht.nNumUsed).find?
      (s.ht.testAt found) with
  | some p =>
    exact zendHashDelElEx_effect hwf (hsm p hfn) fun _ => hpr p (by rw [hfn]; rfl)
  | none => exact .missing (hn hfn)

/-- **`zend_hash_del`** of a table that is not packed. -/
theorem zendHashDel_effect [DecidableEq K] (hashVal : K → BitVec 64) (hwf : s.ht.Wf)
    (hp : s.ht.packed = false) (key : K) :
    ∃ s' r, zendHashDel hashVal s key = .ok (s', r) ∧
      DeleteEffect s (hashVal key) (some key) s' r := by
  obtain ⟨r, hok, hef⟩ := delBucketLoop_effect hwf hp (isStrKey hashVal key)
    (isStrKey_iff hashVal key)
  refine ⟨_, _, ?_, hef⟩
  rw [zendHashDel, hok]
  rfl

lemma delBucketLoop_of_not_found {found : Bucket K V → Bool}
    (hf : ∀ i, found (ht.arData i) = false) {r : Option (ℕ × Option ℕ)} :
    ∀ fuel prev idx, delBucketLoop ht found fuel prev idx = .ok r → r = none
  | 0, _, _, h => by cases h
  | fuel + 1, prev, idx, h => by
    rw [delBucketLoop] at h
    by_cases hiv : idx = htInvalidIdx
    · rw [if_pos hiv] at h
      cases h
      rfl
    rw [if_neg hiv] at h
    cases hn : (ht.arData idx).next with
    | none =>
      rw [hn] at h
      cases h
    | some next =>
      simp only [hn, hf, Bool.false_eq_true, if_false] at h
      exact delBucketLoop_of_not_found hf fuel _ _ h

/-- **What `zend_hash_del` does.** -/
lemma zendHashDel_deleteEffect [DecidableEq K] {hashVal : K → BitVec 64}
    (hwf : s.ht.Wf) {key : K} {r : Bool} (hok : zendHashDel hashVal s key = .ok (s', r)) :
    DeleteEffect s (hashVal key) (some key) s' r := by
  by_cases hp : s.ht.packed
  · -- the buckets of a packed table have no string keys
    obtain ⟨found, hl, hok⟩ := bind_eq_ok_iff.mp hok
    have hn : found = none := delBucketLoop_of_not_found (fun i => by
      simp [isStrKey, hwf.packed_key hp i]) _ _ _ hl
    rw [hn] at hok
    cases hok
    exact .missing (not_holds_str hp _ key)
  · obtain ⟨s1, r1, hok1, hef⟩ := zendHashDel_effect hashVal hwf (by simpa using hp) key
    cases hok1.symm.trans hok
    exact hef

/-- **What `zend_hash_index_del` does.** -/
lemma zendHashIndexDel_effect (hwf : s.ht.Wf) (h : BitVec 64) :
    ∃ s' r, zendHashIndexDel s h = .ok (s', r) ∧ DeleteEffect s h none s' r := by
  unfold zendHashIndexDel
  by_cases hp : s.ht.packed
  · rw [if_pos hp]
    by_cases hlt : h.toNat < s.ht.nNumUsed
    · split_ifs with hl
      · refine ⟨_, _, rfl, zendHashDelElEx_effect
          hwf ((holds_packed hp).mpr ⟨rfl, rfl, hlt, hl⟩) ?_⟩
        intro hp'
        rw [hp] at hp'
        cases hp'
      · refine ⟨s, false, rfl, .missing fun p hh => ?_⟩
        obtain ⟨-, rfl, -, hlv⟩ := (holds_packed hp).mp hh
        exact hl hlv
    · rw [if_neg hlt]
      refine ⟨s, false, rfl, .missing fun p hh => ?_⟩
      obtain ⟨-, rfl, hl', -⟩ := (holds_packed hp).mp hh
      exact hlt hl'
  · rw [if_neg hp]
    obtain ⟨r, hok, hef⟩ := delBucketLoop_effect hwf (by simpa using hp) (isIndexKey h)
      (isIndexKey_iff h)
    refine ⟨_, _, ?_, hef⟩
    rw [hok]
    rfl

/-- **`zend_hash_del_bucket`** on a live bucket. -/
theorem zendHashDelBucket_effect (hwf : s.ht.Wf) {idx : ℕ} (hid : idx < s.ht.nNumUsed)
    (hl : s.ht.live idx) :
    ∃ s', zendHashDelBucket s idx = .ok s' ∧ Removed s s' idx ∧ s'.ht.Wf := by
  have hdn : ∀ prev, (s.ht.packed = false → s.ht.UnlinksTo idx prev) →
      Removed s (zendHashDelElEx s idx prev) idx ∧ (zendHashDelElEx s idx prev).ht.Wf :=
    fun prev hpr => ⟨zendHashDelElEx_removed hid, zendHashDelElEx_wf hwf hid hl hpr⟩
  unfold zendHashDelBucket
  split_ifs with hp
  · exact ⟨_, rfl, hdn none fun hp' => absurd (hp.symm.trans hp') (by decide)⟩
  have hp' : s.ht.packed = false := by simpa using hp
  by_cases hhd : s.ht.hash (s.ht.slot idx) = idx
  · simp only [hhd, ne_eq]
    exact ⟨_, rfl, hdn none fun _ => hhd⟩
  simp only [ne_eq, hhd]
  obtain ⟨hlt, hm, hmx⟩ := hwf.head_of_live hp' hid hl
  have hle := hwf.used_le
  obtain ⟨prev, hok, hpr⟩ := findPrevLoop_spec hwf hp' hl (s.ht.nTableSize + 1)
    (s.ht.hash (s.ht.slot idx)) (by omega) hlt hm (by omega)
  rw [hok]
  exact ⟨_, rfl, hdn (some prev) fun _ => hpr⟩

/-! ## Growing on request -/

/-- **`zend_hash_extend`**, its assertions granted, is silent. -/
theorem zendHashExtend_effect (hwf : s.ht.Wf) (nSize : ℕ) (packed : Bool)
    (hl : nSize = 0 ∨ s.ht.initialized = false ∨ s.ht.packed = packed) :
    zendHashExtend s nSize packed = .error .overflow ∧ htMaxSize ≤ nSize ∨
      ∃ s', zendHashExtend s nSize packed = .ok s' ∧ Settles s s' := by
  have hch : zendHashCheckSize nSize = .error .overflow ∧ htMaxSize ≤ nSize ∨
      ∃ n, zendHashCheckSize nSize = .ok n ∧ nSize ≤ n ∧ n ≤ 2 ^ 32 - 2 ∧ 0 < n := by
    cases hc : zendHashCheckSize nSize with
    | ok n =>
      obtain ⟨h1, h2, h3⟩ := zendHashCheckSize_spec hc
      exact .inr ⟨n, rfl, h1, by omega, h3⟩
    | error e =>
      refine .inl ?_
      unfold zendHashCheckSize at hc
      split_ifs at hc with h1 h2
      cases hc
      exact ⟨rfl, h2⟩
  unfold zendHashExtend
  by_cases h0 : nSize = 0
  · rw [if_pos h0]
    exact .inr ⟨s, rfl, .refl s⟩
  rw [if_neg h0]
  by_cases hi : s.ht.initialized
  · have hp : s.ht.packed = packed := by simpa [h0, hi] using hl
    simp only [hi, Bool.not_true]
    by_cases hgt : nSize > s.ht.nTableSize
    · rcases hch with ⟨her, hfull⟩ | ⟨n, hok, hle, hn, hps⟩
      · refine .inl ⟨?_, hfull⟩
        simp only [her]
        split_ifs <;> rfl
      cases packed with
      | true =>
        simp only [if_pos hgt, hok]
        exact .inr ⟨_, rfl, Silent.settles (moveData_silent hwf hi hp hn (by omega))⟩
      | false =>
        simp only [if_pos hgt, hok]
        have hcp := moveData_copied s.ht n (negU32 n) s.ht.packed hi
        exact .inr ⟨_, rfl, Silent.settles
          (.rehash _ hcp hp (hcp.rehash_wf hwf hp (by simp only [moveData]; omega) hn))⟩
    · simp only [if_neg hgt, ite_self]
      exact .inr ⟨s, rfl, .refl s⟩
  · have hi' : s.ht.initialized = false := by simpa using hi
    rw [if_pos (by simp [hi'])]
    by_cases hgt : nSize > s.ht.nTableSize
    · rcases hch with ⟨her, hfull⟩ | ⟨n, hok, -, hn, hps⟩
      · rw [if_pos hgt, her]
        exact .inl ⟨rfl, hfull⟩
      · rw [if_pos hgt, hok]
        exact .inr ⟨_, rfl, Silent.settles (zendHashCheckInit_silent hwf hi' packed n hn hps)⟩
    · rw [if_neg hgt]
      exact .inr ⟨_, rfl, Silent.settles
        (zendHashCheckInit_silent hwf hi' packed s.ht.nTableSize hwf.size_le hwf.size_pos)⟩

/-! ## The remaining calls keep the invariant -/

lemma zendHashInit_wf {addr nSize : ℕ} (hit : zendHashInit addr nSize = .ok ht) : ht.Wf := by
  obtain ⟨n, hc, hit⟩ := bind_eq_ok_iff.mp hit
  obtain ⟨-, h2, h3⟩ := zendHashCheckSize_spec hc
  cases hit
  exact ⟨Nat.zero_le _, by simp only; omega, h3, rfl, fun _ => ⟨rfl, rfl⟩,
    fun _ => chained_zero fun _ => rfl, fun hp => by cases hp⟩

lemma HashTable.Wf.rehashed (hwf : s.ht.Wf) :
    Rehashed s.ht (zendHashRehash s).ht ∧ (zendHashRehash s).ht.Wf := by
  have hre := zendHashRehash_spec s hwf.count fun hi => by
    obtain ⟨hu, hp⟩ := hwf.uninit hi
    exact ⟨hu, hu ▸ hwf.chain hp⟩
  exact ⟨hre, hre.wf hwf.count hwf.used_le hwf.size_le hwf.size_pos hwf.uninit hwf.packed_key⟩

lemma zendHashClean_header (ht : HashTable K V) :
    (zendHashClean ht).arData = ht.arData ∧ (zendHashClean ht).packed = ht.packed ∧
      (zendHashClean ht).initialized = ht.initialized ∧
      (zendHashClean ht).nTableSize = ht.nTableSize ∧
      (ht.packed = true → (zendHashClean ht).hash = ht.hash) := by
  unfold zendHashClean
  split_ifs with h
  · refine ⟨rfl, rfl, rfl, rfl, fun hp => ?_⟩
    rw [hp] at h
    cases h.2
  · simp

lemma zendHashClean_wf (hwf : ht.Wf) : (zendHashClean ht).Wf := by
  obtain ⟨hdt, hpc, hit, hsz, -⟩ := zendHashClean_header ht
  refine ⟨Nat.zero_le _, by rw [hsz]; exact hwf.size_le, by rw [hsz]; exact hwf.size_pos, rfl,
    ?_, ?_, ?_⟩
  · rw [hit, hpc]
    exact fun hi => ⟨rfl, (hwf.uninit hi).2⟩
  · rw [hpc]
    intro hp
    refine chained_zero fun i => ?_
    by_cases hu : ht.nNumUsed = 0
    · have := (hwf.chain hp).head i
      simpa [zendHashClean, hu, lastBelow] using this
    · simp [zendHashClean, hu, hp, hashReset]
  · rw [hpc, hdt]
    exact hwf.packed_key

lemma Settles.wf (h : Settles s s') (hwf : s.ht.Wf) : s'.ht.Wf := by
  cases h with
  | refl => exact hwf
  | tail _ hsl => exact hsl.wf

lemma InsertEffect.wf {v : V}
    {flag : HashFlag} {r : Option ℕ} (hef : InsertEffect s h key v flag s' r) (hwf : s.ht.Wf) :
    s'.ht.Wf := by
  cases hef with
  | kept => exact hwf
  | overwritten _ _ _ _ _ hw' | appended _ _ _ _ _ _ _ hw' => exact hw'

lemma DeleteEffect.wf {r : Bool} (hef : DeleteEffect s h key s' r) (hwf : s.ht.Wf) : s'.ht.Wf := by
  cases hef with
  | removed _ _ _ _ hw' => exact hw'
  | missing => exact hwf

end PhpInternals.Zend.ZendHash

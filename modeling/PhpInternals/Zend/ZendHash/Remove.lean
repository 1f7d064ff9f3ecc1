import PhpInternals.Zend.ZendHash.Update

/-!
# Deletion

`_zend_hash_del_el_ex` unlinks a bucket, drops the dead buckets at the end, moves the internal
pointer and the iterators to the next live bucket, and marks the bucket dead. `Removed` states
the outcome; `zendHashDelElEx_removed` proves it, given the link into the bucket that the callers
have looked up (`UnlinksTo`).
-/

namespace PhpInternals.Zend.ZendHash

open Function HashTable PhpInternals.Found

variable {K V : Type}

/-- `j` is the live bucket after `idx`, or `HT_INVALID_IDX`. -/
def HashTable.IsSucc (ht : HashTable K V) (idx j : ℕ) : Prop :=
  (j = htInvalidIdx ∧ ∀ i, idx < i → i < ht.nNumUsed → ¬ ht.live i) ∨
    (idx < j ∧ j < ht.nNumUsed ∧ ht.live j ∧ ∀ i, idx < i → i < j → ¬ ht.live i)

/-- **Bucket `idx` dies.** -/
structure Removed (s s' : HashState K V) (idx : ℕ) : Prop where
  other : ∀ i, i ≠ idx → s'.ht.content i = s.ht.content i
  this : s'.ht.content idx = ((s.ht.arData idx).h, (s.ht.arData idx).key, none)
  used_le : s'.ht.nNumUsed ≤ s.ht.nNumUsed
  trimmed : ∀ i, s'.ht.nNumUsed ≤ i → i < s.ht.nNumUsed → ¬ s'.ht.live i
  addr : s'.ht.addr = s.ht.addr
  nIteratorsCount : s'.ht.nIteratorsCount = s.ht.nIteratorsCount
  packed : s'.ht.packed = s.ht.packed
  packed_hash : s.ht.packed = true → s'.ht.hash = s.ht.hash
  nNextFreeElement : s'.ht.nNextFreeElement = s.ht.nNextFreeElement
  /-- The internal pointer and the iterators leave the bucket for the next live one. -/
  succ : ∃ j, s.ht.IsSucc idx j ∧
    s'.ht.nInternalPointer = (if s.ht.nInternalPointer = idx then j else s.ht.nInternalPointer) ∧
    s'.eg = (zendHashIteratorsUpdate s idx j).eg

lemma Removed.not_live {s s' : HashState K V} {idx : ℕ} (h : Removed s s' idx) :
    ¬ s'.ht.live idx := by
  have hv : (s'.ht.arData idx).val = none := congrArg (fun c => c.2.2) h.this
  simp [live, hv]

lemma Removed.live_iff {s s' : HashState K V} {idx : ℕ} (h : Removed s s' idx) (i : ℕ) :
    s'.ht.live i ↔ s.ht.live i ∧ i ≠ idx := by
  by_cases hi : i = idx
  · subst hi
    simp [h.not_live]
  · rw [live_congr (h.other i hi)]
    simp [hi]

/-! ## The loops -/

lemma trimUsed_spec (ht : HashTable K V) : ∀ n, trimUsed ht.arData n ≤ n ∧
    ∀ i, trimUsed ht.arData n ≤ i → i < n → ¬ ht.live i
  | 0 => ⟨le_rfl, fun i _ hi => absurd hi (by omega)⟩
  | n + 1 => by
    obtain ⟨hle, hdd⟩ := trimUsed_spec ht n
    rw [trimUsed]
    split_ifs with hn
    · refine ⟨by omega, fun i h1 h2 => ?_⟩
      rcases Nat.lt_succ_iff_lt_or_eq.mp h2 with hlt | rfl
      · exact hdd i h1 hlt
      · simpa [live] using hn
    · exact ⟨le_rfl, fun i h1 h2 => absurd h1 (by omega)⟩

lemma nextLive_spec (ht : HashTable K V) : ∀ n i,
    (nextLive ht.arData n i = htInvalidIdx ∧ ∀ k, i ≤ k → k < i + n → ¬ ht.live k) ∨
      (i ≤ nextLive ht.arData n i ∧ nextLive ht.arData n i < i + n ∧
      ht.live (nextLive ht.arData n i) ∧
        ∀ k, i ≤ k → k < nextLive ht.arData n i → ¬ ht.live k)
  | 0, i => .inl ⟨rfl, fun k h1 h2 => absurd h1 (by omega)⟩
  | n + 1, i => by
    rw [nextLive]
    split_ifs with hl
    · exact .inr ⟨le_rfl, by omega, hl, fun k h1 h2 => absurd h1 (by omega)⟩
    have hsk : ∀ k, i ≤ k → ¬ i + 1 ≤ k → ¬ ht.live k := by
      intro k h1 h2
      have : k = i := by omega
      rw [this]
      exact hl
    rcases nextLive_spec ht n (i + 1) with ⟨hb, hdd⟩ | ⟨h1, h2, h3, h4⟩
    · refine .inl ⟨hb, fun k hk hk' => ?_⟩
      by_cases hle : i + 1 ≤ k
      · exact hdd k hle (by omega)
      · exact hsk k hk hle
    · refine .inr ⟨by omega, by omega, h3, fun k hk hk' => ?_⟩
      by_cases hle : i + 1 ≤ k
      · exact h4 k hle hk'
      · exact hsk k hk hle

lemma dropBucket_content (ht : HashTable K V) (idx : ℕ) (prev : Option ℕ) (i : ℕ) :
    (dropBucket ht idx prev).content i = ht.content i := by
  unfold dropBucket unlinkBucket
  split_ifs
  · rfl
  cases prev with
  | none => rfl
  | some q =>
    by_cases hi : i = q
    · subst hi
      simp [content]
    · simp [content, update_of_ne hi]

lemma dropBucket_header (ht : HashTable K V) (idx : ℕ) (prev : Option ℕ) :
    SameHeader { ht with nNumOfElements := ht.nNumOfElements - 1 } (dropBucket ht idx prev) ∧
      (dropBucket ht idx prev).nInternalPointer = ht.nInternalPointer := by
  unfold dropBucket unlinkBucket
  cases prev <;> split_ifs <;> exact ⟨⟨rfl, rfl, rfl, rfl, rfl, rfl, rfl, rfl⟩, rfl⟩

/-! ## The deletion -/

/-- Leaving a bucket: without iterators only the internal pointer matters, so the guard of the
source changes nothing. -/
lemma leaveBucket_eq (s : HashState K V) (idx : ℕ) : leaveBucket s idx =
      { eg := (zendHashIteratorsUpdate s idx
          (nextLive s.ht.arData (s.ht.nNumUsed - (idx + 1)) (idx + 1))).eg
        ht := { s.ht with
          nInternalPointer :=
            if s.ht.nInternalPointer = idx then
              nextLive s.ht.arData (s.ht.nNumUsed - (idx + 1)) (idx + 1)
            else s.ht.nInternalPointer } } := by
  obtain ⟨eg, ⟨addr, packed, initialized, nIter, mask, hash, arData, used, elems, size, ptr,
    next⟩⟩ := s
  by_cases hp : ptr = idx <;> by_cases hc : nIter = 0 <;>
    simp [leaveBucket, zendHashIteratorsUpdate, hp, hc]

section Delete

variable {s : HashState K V} {idx : ℕ} {prev : Option ℕ}

/-- The bucket after a deleted one. -/
def succOfDel (ht : HashTable K V) (idx : ℕ) (prev : Option ℕ) : ℕ :=
  nextLive (dropBucket ht idx prev).arData ((dropBucket ht idx prev).nNumUsed - (idx + 1)) (idx + 1)

lemma zendHashDelElEx_eq (s : HashState K V) (idx : ℕ) (prev : Option ℕ) :
    zendHashDelElEx s idx prev =
      { eg := (zendHashIteratorsUpdate s idx (succOfDel s.ht idx prev)).eg
        ht := { dropBucket s.ht idx prev with
          nInternalPointer :=
            if s.ht.nInternalPointer = idx then succOfDel s.ht idx prev
            else s.ht.nInternalPointer
          arData := update (dropBucket s.ht idx prev).arData idx
            { (dropBucket s.ht idx prev).arData idx with val := none } } } := by
  obtain ⟨hh, hp⟩ := dropBucket_header s.ht idx prev
  unfold zendHashDelElEx
  simp only [leaveBucket_eq, setBucket]
  rw [zendHashIteratorsUpdate_eg_congr s { s with ht := dropBucket s.ht idx prev } rfl hh.addr
    hh.nIteratorsCount]
  simp [hp, succOfDel]

lemma dropBucket_used (prev : Option ℕ) (hid : idx < s.ht.nNumUsed) :
    ((dropBucket s.ht idx prev).nNumUsed = s.ht.nNumUsed ∨
      idx + 1 = s.ht.nNumUsed ∧ (dropBucket s.ht idx prev).nNumUsed ≤ idx) ∧
      ∀ i, (dropBucket s.ht idx prev).nNumUsed ≤ i → i < s.ht.nNumUsed → i ≠ idx →
        ¬ s.ht.live i := by
  have hu : (unlinkBucket s.ht idx prev).nNumUsed = s.ht.nNumUsed := by
    unfold unlinkBucket
    cases prev <;> split_ifs <;> rfl
  have hus : (dropBucket s.ht idx prev).nNumUsed =
      if s.ht.nNumUsed - 1 = idx then trimUsed (dropBucket s.ht idx prev).arData (s.ht.nNumUsed - 1)
      else s.ht.nNumUsed := by
    simp [dropBucket, hu]
  rw [hus]
  split_ifs with hl
  · obtain ⟨hle, hdd⟩ := trimUsed_spec (dropBucket s.ht idx prev) (s.ht.nNumUsed - 1)
    refine ⟨.inr ⟨by omega, by omega⟩, fun i h1 h2 hne => ?_⟩
    rw [← live_congr (dropBucket_content s.ht idx prev i)]
    exact hdd i h1 (by omega)
  · exact ⟨.inl rfl, fun i h1 h2 => absurd h1 (by omega)⟩

lemma succOfDel_isSucc (hid : idx < s.ht.nNumUsed) : s.ht.IsSucc idx (succOfDel s.ht idx prev) := by
  have hl : ∀ i, (dropBucket s.ht idx prev).live i ↔ s.ht.live i :=
    fun i => live_congr (dropBucket_content s.ht idx prev i)
  have hsp := nextLive_spec (dropBucket s.ht idx prev)
    ((dropBucket s.ht idx prev).nNumUsed - (idx + 1)) (idx + 1)
  simp only [hl] at hsp
  unfold succOfDel
  rcases (dropBucket_used prev hid).1 with hu | ⟨hls, hu⟩
  · rcases hsp with ⟨hb, hdd⟩ | ⟨h1, h2, h3, h4⟩
    · exact .inl ⟨hb, fun i hi hi' => hdd i hi (by omega)⟩
    · exact .inr ⟨h1, by omega, h3, fun i hi hi' => h4 i hi hi'⟩
  · rcases hsp with ⟨hb, -⟩ | ⟨h1, h2, -, -⟩
    · exact .inl ⟨hb, fun i hi hi' => absurd hi (by omega)⟩
    · omega

/-- **`_zend_hash_del_el_ex`** removes one bucket. -/
theorem zendHashDelElEx_removed (hid : idx < s.ht.nNumUsed) :
    Removed s (zendHashDelElEx s idx prev) idx := by
  obtain ⟨hh, -⟩ := dropBucket_header s.ht idx prev
  have hc := dropBucket_content s.ht idx prev
  obtain ⟨hu, hdd⟩ := dropBucket_used prev hid
  have ho : ∀ i, i ≠ idx → (zendHashDelElEx s idx prev).ht.content i = s.ht.content i := by
    intro i hi
    rw [zendHashDelElEx_eq, ← hc i]
    exact content_congr (update_of_ne hi _ _)
  have hth : (zendHashDelElEx s idx prev).ht.content idx
      = ((s.ht.arData idx).h, (s.ht.arData idx).key, none) := by
    have h1 : ((dropBucket s.ht idx prev).arData idx).h = (s.ht.arData idx).h :=
      congrArg (fun c => c.1) (hc idx)
    have h2 : ((dropBucket s.ht idx prev).arData idx).key = (s.ht.arData idx).key :=
      congrArg (fun c => c.2.1) (hc idx)
    rw [zendHashDelElEx_eq]
    simp [content, h1, h2]
  refine ⟨ho, hth, ?_, ?_, ?_, ?_, ?_, ?_, ?_, succOfDel s.ht idx prev,
    succOfDel_isSucc hid, ?_, ?_⟩
  · rw [zendHashDelElEx_eq]
    simp only
    omega
  · intro i h1 h2
    by_cases hi : i = idx
    · subst hi
      have hv : ((zendHashDelElEx s i prev).ht.arData i).val = none := congrArg (fun c => c.2.2) hth
      simp [live, hv]
    · rw [live_congr (ho i hi)]
      rw [zendHashDelElEx_eq] at h1
      exact hdd i h1 h2 hi
  · rw [zendHashDelElEx_eq]
    exact hh.addr
  · rw [zendHashDelElEx_eq]
    exact hh.nIteratorsCount
  · rw [zendHashDelElEx_eq]
    exact hh.packed
  · intro hp
    rw [zendHashDelElEx_eq]
    simp [dropBucket, unlinkBucket, hp]
  · rw [zendHashDelElEx_eq]
    exact hh.nNextFreeElement
  · rw [zendHashDelElEx_eq]
  · rw [zendHashDelElEx_eq]

lemma zendHashDelElEx_chained (hwf : s.ht.Wf) (hp : s.ht.packed = false)
    (hid : idx < s.ht.nNumUsed) (hl : s.ht.live idx) (hpr : s.ht.UnlinksTo idx prev) :
    (zendHashDelElEx s idx prev).ht.Chained s.ht.nNumUsed := by
  have hr : Removed s (zendHashDelElEx s idx prev) idx := zendHashDelElEx_removed hid
  have hms : (zendHashDelElEx s idx prev).ht.nTableMask = s.ht.nTableMask := by
    rw [zendHashDelElEx_eq]
    exact (dropBucket_header s.ht idx prev).1.nTableMask
  have hu : ∀ a b i, s.ht.member a i → s.ht.member b i → a = b :=
    fun a b i ha hb => ha.2.symm.trans hb.2
  have hmm : ∀ t i, i < s.ht.nNumUsed →
      ((zendHashDelElEx s idx prev).ht.member t i ↔ s.ht.member t i ∧ i ≠ idx) := by
    intro t i _
    by_cases hi : i = idx
    · subst hi
      simp [member, hr.not_live]
    · rw [member_congr (hr.other i hi) hms]
      simp [hi]
  have hln := hwf.link hp hid hl
  cases prev with
  | none =>
    refine (hwf.chain hp).remove_head hwf.used_le_invalid hid ⟨hl, rfl⟩ hu hmm hpr ?_ ?_
    · rw [zendHashDelElEx_eq]
      simp [dropBucket, unlinkBucket, hp, hln]
    · intro t i hi hm
      have hne := ((hmm t i hi).mp hm).2
      rw [zendHashDelElEx_eq]
      simp [dropBucket, unlinkBucket, hp, update_of_ne hne]
  | some q =>
    obtain ⟨hq, hmq, hnq⟩ := hpr
    have hqi : q ≠ idx := by
      have := ((hwf.chain hp).mem_of_link hwf.used_le_invalid hq hmq hid hnq).2
      omega
    refine (hwf.chain hp).remove_after hwf.used_le_invalid hid ⟨hl, rfl⟩ hu hmm hq hmq hnq ?_ ?_ ?_
    · intro t
      rw [zendHashDelElEx_eq]
      simp [dropBucket, unlinkBucket, hp]
    · rw [zendHashDelElEx_eq]
      simp [dropBucket, unlinkBucket, hp, update_of_ne hqi, hln]
    · intro t i hi hiq hm
      have hne := ((hmm t i hi).mp hm).2
      rw [zendHashDelElEx_eq]
      simp [dropBucket, unlinkBucket, hp, update_of_ne hne, update_of_ne hiq]

lemma zendHashDelElEx_wf (hwf : s.ht.Wf) (hid : idx < s.ht.nNumUsed) (hl : s.ht.live idx)
    (hpr : s.ht.packed = false → s.ht.UnlinksTo idx prev) :
    (zendHashDelElEx s idx prev).ht.Wf := by
  have hr : Removed s (zendHashDelElEx s idx prev) idx := zendHashDelElEx_removed hid
  have hh := (dropBucket_header s.ht idx prev).1
  have hsz : (zendHashDelElEx s idx prev).ht.nTableSize = s.ht.nTableSize := by
    rw [zendHashDelElEx_eq]
    exact hh.nTableSize
  have hel : (zendHashDelElEx s idx prev).ht.nNumOfElements = s.ht.nNumOfElements - 1 := by
    rw [zendHashDelElEx_eq]
    exact hh.nNumOfElements
  have hit : (zendHashDelElEx s idx prev).ht.initialized = s.ht.initialized := by
    rw [zendHashDelElEx_eq]
    exact hh.initialized
  refine ⟨?_, by rw [hsz]; exact hwf.size_le, by rw [hsz]; exact hwf.size_pos, ?_, ?_, ?_, ?_⟩
  · rw [hsz]
    exact hr.used_le.trans hwf.used_le
  · have her := count_erase hid hl fun i _ => hr.live_iff i
    rw [count_eq_of_gap hr.used_le hr.trimmed, ← hwf.count] at her
    omega
  · intro hi
    rw [hit] at hi
    have := (hwf.uninit hi).1
    omega
  · intro hp
    rw [hr.packed] at hp
    refine (zendHashDelElEx_chained hwf hp hid hl (hpr hp)).shrink hr.used_le ?_
    intro t i h1 h2 hm
    exact hr.trimmed i h1 h2 hm.1
  intro hp i
  rw [hr.packed] at hp
  have hk := hwf.packed_key hp i
  by_cases hi : i = idx
  · subst hi
    exact (congrArg (fun c => c.2.1) hr.this).trans hk
  · exact (congrArg (fun c => c.2.1) (hr.other i hi)).trans hk

end Delete

end PhpInternals.Zend.ZendHash

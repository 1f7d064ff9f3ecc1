import PhpInternals.Zend.ZendHash.Effects
import PhpInternals.Zend.ZendHash.Iterators

/-!
# Where the elements are after a silent step

A silent step leaves every element at its index, or compacts the table: then every element is at
its rank, no hole is left, and the iterators are those that one `zend_hash_rehash` of the table
with its old indices produces.
-/

namespace PhpInternals.Zend.ZendHash

open Nat Found

variable {K V : Type}

/-- The elements stay at their indices. -/
structure Unmoved (s s' : HashState K V) : Prop where
  used : s'.ht.nNumUsed = s.ht.nNumUsed
  content : ∀ i < s.ht.nNumUsed, s'.ht.content i = s.ht.content i
  addr : s'.ht.addr = s.ht.addr
  nIteratorsCount : s'.ht.nIteratorsCount = s.ht.nIteratorsCount
  nNumOfElements : s'.ht.nNumOfElements = s.ht.nNumOfElements
  eg : s'.eg = s.eg

/-- The elements are at their ranks. -/
structure Compressed (s s' : HashState K V) : Prop where
  used : s'.ht.nNumUsed = count s.ht.live s.ht.nNumUsed
  content : ∀ i < s.ht.nNumUsed, s.ht.live i →
    s'.ht.content (count s.ht.live i) = s.ht.content i
  addr : s'.ht.addr = s.ht.addr
  nIteratorsCount : s'.ht.nIteratorsCount = s.ht.nIteratorsCount
  nNumOfElements : s'.ht.nNumOfElements = s.ht.nNumOfElements
  eg : ∃ s₁, Unmoved s s₁ ∧ s'.eg = (zendHashRehash s₁).eg

namespace Unmoved

variable {s s₁ s' : HashState K V}

lemma refl (s : HashState K V) : Unmoved s s := ⟨rfl, fun _ _ => rfl, rfl, rfl, rfl, rfl⟩

lemma trans (h : Unmoved s s₁) (h' : Unmoved s₁ s') : Unmoved s s' where
  used := h'.used.trans h.used
  content := fun i hi => (h'.content i (h.used ▸ hi)).trans (h.content i hi)
  addr := h'.addr.trans h.addr
  nIteratorsCount := h'.nIteratorsCount.trans h.nIteratorsCount
  nNumOfElements := h'.nNumOfElements.trans h.nNumOfElements
  eg := h'.eg.trans h.eg

lemma live (h : Unmoved s s') {i : ℕ} (hi : i < s.ht.nNumUsed) : s'.ht.live i ↔ s.ht.live i :=
  HashTable.live_congr (h.content i hi)

lemma rank (h : Unmoved s s') {i : ℕ} (hi : i ≤ s.ht.nNumUsed) :
    count s'.ht.live i = count s.ht.live i :=
  count_congr fun j hj => h.live (by omega)

lemma count (h : Unmoved s s') (hcount : s.ht.nNumOfElements = count s.ht.live s.ht.nNumUsed) :
    s'.ht.nNumOfElements = count s'.ht.live s'.ht.nNumUsed := by
  rw [h.nNumOfElements, h.used, h.rank le_rfl, hcount]

lemma of_copied {ht1 : HashTable K V} (h : Copied s.ht ht1) : Unmoved s { s with ht := ht1 } :=
  ⟨h.nNumUsed, fun _ hi => h.content hi, h.addr, h.nIteratorsCount, h.nNumOfElements, rfl⟩

lemma rehash (h : Unmoved s s₁) (hcount : s.ht.nNumOfElements = Nat.count s.ht.live s.ht.nNumUsed)
    (hit : s₁.ht.initialized = true) : Compressed s (zendHashRehash s₁) := by
  have hre := zendHashRehash_spec s₁ (h.count hcount)
    fun hi => absurd (hit.symm.trans hi) (by decide)
  refine ⟨?_, fun i hi hl => ?_, hre.header.addr.trans h.addr,
    hre.header.nIteratorsCount.trans h.nIteratorsCount,
    hre.header.nNumOfElements.trans h.nNumOfElements, s₁, h, rfl⟩
  · rw [hre.used, h.used, h.rank le_rfl]
  · rw [← h.rank hi.le, hre.moved i (h.used ▸ hi) ((h.live hi).mpr hl), h.content i hi]

end Unmoved

namespace Compressed

variable {s s₁ s' : HashState K V}

lemma live (h : Compressed s s') {j : ℕ} (hj : j < s'.ht.nNumUsed) : s'.ht.live j := by
  rw [h.used] at hj
  obtain ⟨i, hi, hl, hc⟩ := exists_count_eq hj
  exact (HashTable.live_congr (hc ▸ h.content i hi hl)).mpr hl

lemma unmoved (h : Compressed s s₁) (h' : Unmoved s₁ s') : Compressed s s' where
  used := h'.used.trans h.used
  content := fun i hi hl => by
    have hlt : count s.ht.live i < s₁.ht.nNumUsed := h.used ▸ count_strict_mono hl hi
    rw [h'.content _ hlt, h.content i hi hl]
  addr := h'.addr.trans h.addr
  nIteratorsCount := h'.nIteratorsCount.trans h.nIteratorsCount
  nNumOfElements := h'.nNumOfElements.trans h.nNumOfElements
  eg := by
    obtain ⟨s2, h2, heg⟩ := h.eg
    exact ⟨s2, h2, h'.eg.trans heg⟩

end Compressed

lemma zendHashRehash_unmoved {s : HashState K V} (hl : ∀ i < s.ht.nNumUsed, s.ht.live i)
    (hcount : s.ht.nNumOfElements = count s.ht.live s.ht.nNumUsed)
    (hit : s.ht.initialized = true) : Unmoved s (zendHashRehash s) := by
  have hre := zendHashRehash_spec s hcount fun hi => absurd (hit.symm.trans hi) (by decide)
  have hr : ∀ i ≤ s.ht.nNumUsed, count s.ht.live i = i := fun i hi =>
    count_iff_forall.mpr fun k hk => hl k (by omega)
  have hf : s.ht.hashReset.isWithoutHoles = true :=
    beq_iff_eq.mpr ((hr _ le_rfl).symm.trans hcount.symm)
  refine { hre.header with used := ?_, content := fun i hi => ?_, eg := ?_ }
  · rw [hre.used, hr _ le_rfl]
  · have := hre.moved i hi (hl i hi)
    rwa [hr i hi.le] at this
  · simp only [zendHashRehash, hf]
    split_ifs <;> rfl

/-- **Where the elements are after silent steps.** -/
theorem Settles.cases {s s' : HashState K V} (hwf : s.ht.Wf) (h : Settles s s') :
    Unmoved s s' ∨ Compressed s s' := by
  induction h with
  | refl => exact .inl (Unmoved.refl s)
  | tail _ hsl ih =>
    rename_i s₁ s2
    rcases ih with ih | ih
    · cases hsl with
      | copy ht1 hcp _ _ => exact .inl (ih.trans (.of_copied hcp))
      | rehash ht1 hcp _ _ =>
        exact .inr ((ih.trans (.of_copied hcp)).rehash hwf.count hcp.initialized)
    cases hsl with
    | copy ht1 hcp _ _ => exact .inr (ih.unmoved (.of_copied hcp))
    | rehash ht1 hcp _ _ =>
      have hc := ih.unmoved (.of_copied hcp)
      refine .inr (hc.unmoved (zendHashRehash_unmoved (fun i hi => hc.live hi) ?_ hcp.initialized))
      rw [count_iff_forall.mpr fun i hi => hc.live hi, hc.nNumOfElements, hc.used, hwf.count]

/-! ## Iterators -/

namespace Unmoved

variable {s s' : HashState K V}

lemma posOf (h : Unmoved s s') (n : ℕ) : s'.eg.posOf s'.ht.addr n = s.eg.posOf s.ht.addr n := by
  rw [h.eg, h.addr]

lemma placed (h : Unmoved s s') (hpl : Placed s.ht (s.eg.posOf s.ht.addr)) :
    Placed s'.ht (s'.eg.posOf s'.ht.addr) := by
  intro n p hp
  rw [h.posOf] at hp
  rcases hpl n p hp with hi | ⟨hlt, hl⟩
  · exact .inl hi
  · exact .inr ⟨by rw [h.used]; exact hlt, (h.live hlt).mpr hl⟩

lemma isFirstHole_iff (h : Unmoved s s') (fh : ℕ) : s'.ht.IsFirstHole fh ↔ s.ht.IsFirstHole fh := by
  constructor
  · rintro ⟨hu, hd, hb⟩
    rw [h.used] at hu
    exact ⟨hu, fun hl => hd ((h.live hu).mpr hl), fun k hk => (h.live (by omega)).mp (hb k hk)⟩
  · rintro ⟨hu, hd, hb⟩
    exact ⟨by rw [h.used]; exact hu, fun hl => hd ((h.live hu).mp hl),
      fun k hk => (h.live (by omega)).mpr (hb k hk)⟩

lemma noSplit (h : Unmoved s s') (hs : s.NoSplit) : s'.NoSplit := by
  intro fh hfh n p m q hp hq
  rw [h.posOf] at hp hq
  exact hs fh ((h.isFirstHole_iff fh).mp hfh) n p m q hp hq

end Unmoved

lemma HashState.exists_of_split {s : HashState K V} (hs : ¬ s.NoSplit)
    (hpl : Placed s.ht (s.eg.posOf s.ht.addr)) :
    ∃ fh n p m q, s.ht.IsFirstHole fh ∧ s.eg.posOf s.ht.addr n = some p ∧ p < fh ∧
      s.eg.posOf s.ht.addr m = some q ∧ fh < q ∧ q < s.ht.nNumUsed ∧ s.ht.live q := by
  unfold HashState.NoSplit at hs
  push Not at hs
  obtain ⟨fh, hfh, n, p, m, q, hp, hq, hlt, hge, hnn⟩ := hs
  rcases hpl m q hq with hi | ⟨hu, hl⟩
  · exact absurd hi hnn
  · exact ⟨fh, n, p, m, q, hfh, hp, hlt, hq, lt_of_le_of_ne hge fun heq =>
      hfh.dead (heq ▸ hl), hu, hl⟩

namespace Compressed

variable {s s' : HashState K V} (h : Compressed s s')
  (hcount : s.ht.nNumOfElements = count s.ht.live s.ht.nNumUsed)

include h hcount

/-- **Without a split, every iterator is at the rank of its bucket.** -/
theorem posOf_of_noSplit (hu : s.ht.nNumUsed ≤ htInvalidIdx)
    (hpl : Placed s.ht (s.eg.posOf s.ht.addr))
    (hr : s.ht.nIteratorsCount = 0 → ∀ n, s.eg.posOf s.ht.addr n = none) (hs : s.NoSplit)
    (n : ℕ) :
    s'.eg.posOf s'.ht.addr n = (s.eg.posOf s.ht.addr n).map (movedPointer s.ht s.ht.nNumUsed) := by
  obtain ⟨s₁, hun, heg⟩ := h.eg
  have hre := zendHashRehash_posOf (hun.count hcount) (by rw [hun.used]; exact hu)
    (hun.placed hpl) (fun h0 m => by rw [hun.posOf]; exact hr (hun.nIteratorsCount ▸ h0) m)
    (hun.noSplit hs) n
  rw [heg, h.addr.trans hun.addr.symm, hre, hun.posOf]
  cases hp : s.eg.posOf s.ht.addr n with
  | none => rfl
  | some p =>
    rw [Option.map_some, Option.map_some, movedPointer, movedPointer, hun.used]
    by_cases hlt : p < s.ht.nNumUsed
    · simp [hun.live hlt, hun.rank hlt.le]
    · rw [if_neg fun hh => hlt hh.1, if_neg fun hh => hlt hh.1]

/-- **With a split, no iterator has moved.** -/
theorem posOf_of_split {fh n p : ℕ} (hps : 0 < s.ht.nNumOfElements)
    (hfh : s.ht.IsFirstHole fh) (hp : s.eg.posOf s.ht.addr n = some p) (hlt : p < fh) (m : ℕ) :
    s'.eg.posOf s'.ht.addr m = s.eg.posOf s.ht.addr m := by
  obtain ⟨s₁, hun, heg⟩ := h.eg
  have hs := zendHashRehash_stuck (hun.count hcount) (by rw [hun.nNumOfElements]; exact hps)
    ((hun.isFirstHole_iff fh).mpr hfh) (by rw [hun.posOf]; exact hp) hlt
  rw [heg, hs, h.addr.trans hun.addr.symm, hun.posOf]

end Compressed

end PhpInternals.Zend.ZendHash

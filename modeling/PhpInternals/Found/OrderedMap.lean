import Mathlib.Data.Nat.Nth
import Mathlib.Data.List.Nodup
import Mathlib.Tactic

/-!
# Insertion-ordered finite maps, and arrays with holes that represent them

A key that is stored again keeps its place; a key that is erased and stored again goes to the end.
The lemmas about `gather` say what a write, a hole, a new last cell and a compaction do to the
sequence an array holds.
-/

namespace PhpInternals.Found

open Nat List

/-! ## The map -/

/-- A finite map whose entries are kept in the order of their first insertion. -/
structure OrderedMap (κ ν : Type) where
  /-- The entries, oldest first. -/
  entries : List (κ × ν)
  /-- No key occurs twice. -/
  keys_nodup : (entries.map Prod.fst).Nodup

namespace OrderedMap

variable {κ ν : Type} [DecidableEq κ]

/-- The map without entries. -/
def empty : OrderedMap κ ν := ⟨[], nodup_nil⟩

/-- The keys, oldest first. -/
def keys (m : OrderedMap κ ν) : List κ := m.entries.map Prod.fst

/-- The value stored for a key. -/
def lookup (m : OrderedMap κ ν) (k : κ) : Option ν :=
  (m.entries.find? fun e => decide (e.1 = k)).map Prod.snd

/-- Overwriting the value of a key in a list of entries. -/
def overwrite (k : κ) (v : ν) (e : κ × ν) : κ × ν := if e.1 = k then (k, v) else e

lemma overwrite_fst (k : κ) (v : ν) : Prod.fst ∘ overwrite k v = (Prod.fst : κ × ν → κ) := by
  funext e
  simp only [Function.comp_apply, overwrite]
  split_ifs with h
  · exact h.symm
  · rfl

/-- Storing a value: in place for a key that is present, at the end for a new one. -/
def store (m : OrderedMap κ ν) (k : κ) (v : ν) : OrderedMap κ ν :=
  if h : k ∈ m.keys then
    { entries := m.entries.map (overwrite k v)
      keys_nodup := by
        rw [map_map, overwrite_fst]
        exact m.keys_nodup }
  else
    { entries := m.entries ++ [(k, v)]
      keys_nodup := by
        rw [map_append, nodup_append]
        refine ⟨m.keys_nodup, nodup_singleton _, ?_⟩
        intro a ha b hb
        simp only [map_cons, map_nil, mem_singleton] at hb
        subst hb
        exact fun hab => h (hab ▸ ha) }

/-- Removing a key. -/
def erase (m : OrderedMap κ ν) (k : κ) : OrderedMap κ ν where
  entries := m.entries.filter fun e => decide (e.1 ≠ k)
  keys_nodup := (filter_sublist.map Prod.fst).nodup m.keys_nodup

variable {k : κ} {v : ν}

lemma lookup_eq_some_iff (m : OrderedMap κ ν) : m.lookup k = some v ↔ (k, v) ∈ m.entries := by
  obtain ⟨l, hl⟩ := m
  unfold lookup
  induction l with
  | nil => simp
  | cons e l ih =>
    simp only [map_cons, nodup_cons] at hl
    by_cases he : e.1 = k
    · rw [find?_cons_of_pos (by simpa using he)]
      simp only [Option.map_some, Option.some.injEq, mem_cons]
      constructor
      · rintro rfl
        exact .inl (by rw [← he])
      · rintro (h | h)
        · exact congrArg Prod.snd h.symm
        · exact absurd (mem_map.mpr ⟨(k, v), h, he.symm⟩) hl.1
    · rw [find?_cons_of_neg (by simpa using he), ih hl.2, mem_cons]
      constructor
      · exact .inr
      · rintro (h | h)
        · exact absurd (congrArg Prod.fst h).symm he
        · exact h

lemma lookup_eq_none_iff (m : OrderedMap κ ν) : m.lookup k = none ↔ k ∉ m.keys := by
  rw [Option.eq_none_iff_forall_ne_some]
  constructor
  · intro h hk
    obtain ⟨⟨k', v⟩, hmm, rfl⟩ := mem_map.mp hk
    exact h v (m.lookup_eq_some_iff.mpr hmm)
  · intro h v hv
    exact h (mem_map.mpr ⟨(k, v), m.lookup_eq_some_iff.mp hv, rfl⟩)

variable {m : OrderedMap κ ν}

/-- Storing under a key that is there changes the value in its place. -/
lemma entries_store_of_mem (h : k ∈ m.keys) (v : ν) :
    (m.store k v).entries = m.entries.map (overwrite k v) := by
  simp [store, h]

lemma entries_store_of_not_mem (h : k ∉ m.keys) (v : ν) :
    (m.store k v).entries = m.entries ++ [(k, v)] := by
  simp [store, h]

variable {k' : κ}

lemma mem_keys_store : k' ∈ (m.store k v).keys ↔ k' = k ∨ k' ∈ m.keys := by
  by_cases h : k ∈ m.keys
  · have hky : (m.store k v).keys = m.keys := by
      rw [keys, entries_store_of_mem h, map_map, overwrite_fst, keys]
    rw [hky]
    constructor
    · exact .inr
    · rintro (rfl | hk')
      · exact h
      · exact hk'
  · rw [keys, entries_store_of_not_mem h, keys]
    simp [or_comm]

omit [DecidableEq κ] in
/-- **One-sided inclusion is enough** when the other map has no more entries: then its keys are the
same. -/
theorem mem_keys_iff_of_subset {ν1 ν2 : Type} {m1 : OrderedMap κ ν1} {m2 : OrderedMap κ ν2}
    (hsb : ∀ k ∈ m1.keys, k ∈ m2.keys) (hl : m2.entries.length ≤ m1.entries.length) (k : κ) :
    k ∈ m1.keys ↔ k ∈ m2.keys := by
  have hs : m1.keys.Subperm m2.keys := subperm_of_subset m1.keys_nodup hsb
  have hpr : m1.keys.Perm m2.keys := hs.perm_of_length_le (by simpa [keys] using hl)
  exact hpr.mem_iff

lemma mem_keys_of_mem_keys_erase (h : k' ∈ (m.erase k).keys) : k' ∈ m.keys :=
  (filter_sublist.map Prod.fst).subset h

/-- The entry of a key whose value is replaced, or dropped. -/
def keepEntry {μ : Type} (keep : ν → Option μ) (e : κ × ν) : Option (κ × μ) :=
  (keep e.2).map fun w => (e.1, w)

omit [DecidableEq κ] in
lemma keepEntry_sublist {μ : Type} (keep : ν → Option μ) (l : List (κ × ν)) :
    ((l.filterMap (keepEntry keep)).map Prod.fst).Sublist (l.map Prod.fst) := by
  induction l with
  | nil => exact List.Sublist.slnil
  | cons e l ih =>
    cases hk : keep e.2 with
    | none =>
      rw [filterMap_cons_none (by rw [keepEntry, hk]; rfl)]
      exact ih.cons _
    | some w =>
      rw [filterMap_cons_some (by rw [keepEntry, hk]; rfl)]
      exact ih.cons_cons _

/-- The map with some values replaced and the other entries dropped. -/
def filterMap {μ : Type} (m : OrderedMap κ ν) (keep : ν → Option μ) : OrderedMap κ μ :=
  ⟨m.entries.filterMap (keepEntry keep), (keepEntry_sublist keep m.entries).nodup m.keys_nodup⟩

end OrderedMap

/-! ## Arrays with holes -/

/-- The sequence held by the cells below `n` of an array with holes. -/
def gather {α : Type} (f : ℕ → Option α) (n : ℕ) : List α := (range n).filterMap f

section Gather

variable {α β : Type} {f g : ℕ → Option α} {n : ℕ}

@[simp] lemma gather_zero (f : ℕ → Option α) : gather f 0 = [] := rfl

lemma gather_succ (f : ℕ → Option α) (n : ℕ) : gather f (n + 1) = gather f n ++ (f n).toList := by
  unfold gather
  rw [range_succ]
  cases h : f n <;> simp [h]

variable {a : α}

/-- What is gathered stands at some index. -/
lemma mem_gather : a ∈ gather f n ↔ ∃ i < n, f i = some a := by
  simp [gather]

variable {j : ℕ} {b : α}

/-- When the keys of the sequence are all different, a key determines its cell. -/
lemma gather_key_inj {κ : Type} {r : α → κ} (h : ((gather f n).map r).Nodup) {i : ℕ}
    (hi : i < n) (hj : j < n) (ha : f i = some a) (hb : f j = some b) (hab : r a = r b) :
    i = j := by
  induction n with
  | zero => omega
  | succ n ih =>
    rw [gather_succ, map_append, nodup_append] at h
    obtain ⟨hl, -, hds⟩ := h
    have hne : ∀ k c, k < n → f k = some c → ∀ d, f n = some d → r c ≠ r d := by
      intro k c hk hc d hd
      refine hds _ (mem_map_of_mem (mem_gather.mpr ⟨k, hk, hc⟩)) _ ?_
      simp [hd]
    rcases Nat.lt_succ_iff_lt_or_eq.mp hi with hi | rfl
    · rcases Nat.lt_succ_iff_lt_or_eq.mp hj with hj | rfl
      · exact ih hl hi hj
      · exact absurd hab (hne i a hi ha b hb)
    · rcases Nat.lt_succ_iff_lt_or_eq.mp hj with hj | rfl
      · exact absurd hab.symm (hne j b hj hb a ha)
      · rfl

lemma gather_congr (h : ∀ i < n, f i = g i) : gather f n = gather g n :=
  filterMap_congr fun i hi => h i (mem_range.mp hi)

/-- Holes at the end add nothing. -/
lemma gather_eq_of_holes {m : ℕ} (hmn : m ≤ n) (h : ∀ i, m ≤ i → i < n → f i = none) :
    gather f n = gather f m := by
  induction n, hmn using le_induction with
  | base => rfl
  | succ n hmn ih =>
    rw [gather_succ, h n hmn (by omega), ih fun i h1 h2 => h i h1 (by omega)]
    simp

/-- Gathering commutes with a map. -/
lemma gather_map {f : ℕ → Option α} {g : ℕ → Option β} (r : α → β)
    (h : ∀ i < n, g i = (f i).map r) : gather g n = (gather f n).map r := by
  unfold gather
  rw [map_filterMap]
  exact filterMap_congr fun i hi => h i (mem_range.mp hi)

lemma gather_filter (r : α → Bool) (h : ∀ i < n, g i = (f i).filter r) :
    gather g n = (gather f n).filter r := by
  unfold gather
  rw [filter_filterMap]
  exact filterMap_congr fun i hi => h i (mem_range.mp hi)

lemma gather_bind {f : ℕ → Option α} {g : ℕ → Option β} (r : α → Option β)
    (h : ∀ i < n, g i = (f i).bind r) : gather g n = (gather f n).filterMap r := by
  unfold gather
  rw [filterMap_filterMap]
  exact filterMap_congr fun i hi => h i (mem_range.mp hi)

/-- The number of elements is that of the occupied indices. -/
lemma length_gather (f : ℕ → Option α) (n : ℕ) :
    (gather f n).length = count (fun i => (f i).isSome = true) n := by
  induction n with
  | zero => simp
  | succ n ih =>
    rw [gather_succ, length_append, ih, count_succ]
    cases h : f n <;> simp

/-- Without holes the index is the position. -/
lemma getElem?_gather_of_forall (h : ∀ i < n, (f i).isSome = true) {i : ℕ} (hi : i < n) :
    (gather f n)[i]? = f i := by
  induction n with
  | zero => omega
  | succ n ih =>
    have hl : (gather f n).length = n := by
      rw [length_gather]
      exact count_iff_forall.mpr fun i hi => h i (by omega)
    rw [gather_succ]
    rcases Nat.lt_succ_iff_lt_or_eq.mp hi with hlt | rfl
    · rw [getElem?_append_left (by omega)]
      exact ih (fun j hj => h j (by omega)) hlt
    · obtain ⟨a, ha⟩ := Option.isSome_iff_exists.mp (h i (by omega))
      rw [getElem?_append_right (by omega), hl, Nat.sub_self, ha]
      rfl

/-- **Compaction.** If every cell that is no hole moves to its rank among such cells, the sequence
stays. -/
theorem gather_compact (p : ℕ → Prop) [DecidablePred p] (hp : ∀ i < n, ((f i).isSome = true ↔ p i))
    (hm : ∀ i < n, p i → g (count p i) = f i) :
    gather g (count p n) = gather f n := by
  induction n with
  | zero => simp
  | succ n ih =>
    have ih' := ih (fun i hi => hp i (by omega)) fun i hi => hm i (by omega)
    rw [count_succ, gather_succ f n]
    by_cases hn : p n
    · rw [if_pos hn, gather_succ, ih', hm n (by omega) hn]
    · have hf : f n = none := by
        have := mt (hp n (by omega)).mp hn
        simpa using this
      simp [hn, hf, ih']

lemma gather_eq_filterMap_range' (f : ℕ → Option α) (n : ℕ) :
    gather f n = (range' 0 n).filterMap f := by
  rw [gather, range_eq_range']

/-! ### Successors -/

/-- The key that comes after `k` in a list of entries. -/
def nextKey {κ ν : Type} [DecidableEq κ] (l : List (κ × ν)) (k : κ) : Option κ :=
  (l.dropWhile fun e => decide (e.1 ≠ k)).tail.head?.map Prod.fst

lemma gather_eq_append {i : ℕ} (hi : i < n) (ha : f i = some a) :
    gather f n = gather f i ++ a :: (range' (i + 1) (n - (i + 1))).filterMap f := by
  have hs : range n = range (i + 1) ++ range' (i + 1) (n - (i + 1)) := by
    rw [range_eq_range', range_eq_range', show n = i + 1 + (n - (i + 1)) by omega,
      ← range'_append_1]
    simp
  have hl := gather_succ f i
  unfold gather at hl ⊢
  rw [hs, filterMap_append, hl, ha]
  simp

lemma head?_filterMap_range' (hb : f j = some b) : ∀ m a, a ≤ j → j < a + m →
    (∀ i, a ≤ i → i < j → f i = none) → ((range' a m).filterMap f).head? = some b
  | 0, a, h1, h2, _ => by omega
  | m + 1, a, h1, h2, hgp => by
    rw [range'_succ]
    rcases eq_or_lt_of_le h1 with rfl | hlt
    · simp [hb]
    · rw [filterMap_cons_none (hgp a le_rfl hlt)]
      exact head?_filterMap_range' hb m (a + 1) (by omega) (by omega)
        fun i h1 h2 => hgp i (by omega) h2

section Next

variable {κ ν : Type} [DecidableEq κ] {f : ℕ → Option (κ × ν)} {i : ℕ} {e : κ × ν}
  (hnd : ((gather f n).map Prod.fst).Nodup) (hi : i < n) (he : f i = some e)

include hnd hi he

lemma nextKey_gather : nextKey (gather f n) e.1
      = ((range' (i + 1) (n - (i + 1))).filterMap f).head?.map Prod.fst := by
  have hb : ∀ e' ∈ gather f i, decide (e'.1 ≠ e.1) = true := by
    intro e' he'
    obtain ⟨k, hk, hk'⟩ := mem_gather.mp he'
    rw [decide_eq_true_eq]
    intro heq
    have := gather_key_inj hnd (by omega) hi hk' he heq
    omega
  unfold nextKey
  rw [gather_eq_append hi he, dropWhile_append_of_pos hb]
  simp

/-- The next occupied index has the next key. -/
lemma nextKey_gather_of_succ {e' : κ × ν} (hij : i < j) (hj : j < n) (he' : f j = some e')
    (hgp : ∀ k, i < k → k < j → f k = none) : nextKey (gather f n) e.1 = some e'.1 := by
  rw [nextKey_gather hnd hi he, head?_filterMap_range' he' _ _ (by omega) (by omega)
    fun k h1 h2 => hgp k (by omega) h2]
  rfl

lemma nextKey_gather_of_last (hgp : ∀ k, i < k → k < n → f k = none) :
    nextKey (gather f n) e.1 = none := by
  rw [nextKey_gather hnd hi he]
  have hnl : (range' (i + 1) (n - (i + 1))).filterMap f = [] := by
    rw [filterMap_eq_nil_iff]
    intro k hk
    rw [mem_range'_1] at hk
    exact hgp k (by omega) (by omega)
  rw [hnl]
  rfl

end Next

end Gather

/-! ## Ranks -/

section Rank

variable {p q : ℕ → Prop} [DecidablePred p] [DecidablePred q] {n : ℕ}

omit [DecidablePred q] in
/-- Every rank below the count is taken. -/
lemma exists_count_eq {k : ℕ} (h : k < count p n) : ∃ i < n, p i ∧ count p i = k := by
  induction n with
  | zero => simp at h
  | succ n ih =>
    rw [count_succ] at h
    by_cases hk : k < count p n
    · obtain ⟨i, hi, hp, hc⟩ := ih hk
      exact ⟨i, by omega, hp, hc⟩
    · split_ifs at h with hn
      · exact ⟨n, by omega, hn, by omega⟩
      · omega

lemma count_congr (h : ∀ i < n, (p i ↔ q i)) : count p n = count q n :=
  le_antisymm (count_mono_left fun i hi => (h i hi).mp) (count_mono_left fun i hi => (h i hi).mpr)

/-- Deleting one lowers the count by one. -/
lemma count_erase {idx : ℕ} (hid : idx < n) (hp : p idx)
    (h : ∀ i < n, (q i ↔ p i ∧ i ≠ idx)) : count q n + 1 = count p n := by
  induction n with
  | zero => omega
  | succ n ih =>
    rw [count_succ, count_succ]
    by_cases hn : idx = n
    · subst hn
      have hq : ¬ q idx := fun hq => ((h idx (by omega)).mp hq).2 rfl
      have hr : count q idx = count p idx := count_congr fun i hi => by
          rw [h i (by omega)]
          exact ⟨fun hh => hh.1, fun hh => ⟨hh, by omega⟩⟩
      rw [if_pos hp, if_neg hq, hr]
    · have := ih (by omega) fun i hi => h i (by omega)
      have hif : q n ↔ p n := by
        rw [h n (by omega)]
        exact ⟨fun hh => hh.1, fun hh => ⟨hh, fun hne => hn hne.symm⟩⟩
      simp only [hif]
      omega

omit [DecidablePred q] in
lemma count_eq_of_gap {m : ℕ} (hmn : m ≤ n) (h : ∀ i, m ≤ i → i < n → ¬ p i) :
    count p n = count p m := by
  induction n, hmn using le_induction with
  | base => rfl
  | succ n hmn ih =>
    rw [count_succ, if_neg (h n hmn (by omega)), ih fun i h1 h2 => h i h1 (by omega)]
    rfl

end Rank

end PhpInternals.Found

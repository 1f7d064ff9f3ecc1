import Mathlib.Algebra.BigOperators.Group.Finset.Basic
import Mathlib.Algebra.Order.Group.Multiset
import PhpInternals.Found.Rearrange

/-!
# SplHeap

`spl_ptr_heap_insert` and `spl_ptr_heap_delete_top` of `ext/spl/spl_heap.c`. Both loops move a hole:
the array with the missing element put into the hole is rearranged by swaps of parent and child,
whatever the comparisons say (`siftUp_rule`, `siftDown_rule`). Comparisons may read and change a
state, so that they may be inconsistent or throw.
-/

namespace PhpInternals.Ext.Spl

open Finset Function Found

variable {α σ : Type}

/-- Source: `spl_ptr_heap`. -/
structure SplPtrHeap (α : Type) where
  elements : ℕ → α
  count : ℕ
  maxSize : ℕ
  corrupted : Bool

section Source

variable (cmp : α → α → σ → ℤ × σ) (exception : σ → Bool)

/-- Sifting up: where the hole ends, and the array. Source: `spl_ptr_heap_insert`. -/
def siftUp (elem : α) (i : ℕ) (a : ℕ → α) (s : σ) : ℕ × (ℕ → α) × σ :=
  if 0 < i then
    let r := cmp (a ((i - 1) / 2)) elem s
    if r.1 < 0 then siftUp elem ((i - 1) / 2) (update a i (a ((i - 1) / 2))) r.2 else (i, a, r.2)
  else (i, a, s)
termination_by i

/-- The size is doubled as an `int`: where it wraps, `erealloc` fails. Source:
`spl_ptr_heap_insert`. -/
def splPtrHeapInsert (h : SplPtrHeap α) (elem : α) (s : σ) : Option (SplPtrHeap α × σ) :=
  if h.maxSize < h.count + 1 ∧ 2 ^ 31 ≤ h.maxSize * 2 then none
  else
    let r := siftUp cmp elem h.count h.elements s
    some (⟨update r.2.1 r.1 elem, h.count + 1,
      if h.maxSize < h.count + 1 then h.maxSize * 2 else h.maxSize,
      h.corrupted || exception r.2.2⟩, r.2.2)

/-- Sifting down: where the hole ends, and the array. `bottom` points to the slot `count`. Source:
`spl_ptr_heap_delete_top`. -/
def siftDown (count limit i : ℕ) (a : ℕ → α) (s : σ) : ℕ × (ℕ → α) × σ :=
  if i < limit then
    let r := if i * 2 + 1 ≠ count then cmp (a (i * 2 + 1 + 1)) (a (i * 2 + 1)) s else (0, s)
    let j := if 0 < r.1 then i * 2 + 1 + 1 else i * 2 + 1
    let t := cmp (a count) (a j) r.2
    if t.1 < 0 then siftDown count limit j (update a i (a j)) t.2 else (i, a, t.2)
  else (i, a, s)
termination_by limit - i
decreasing_by split_ifs <;> omega

/-- Source: `spl_ptr_heap_delete_top`. -/
def splPtrHeapDeleteTop (h : SplPtrHeap α) (s : σ) : Option α × SplPtrHeap α × σ :=
  if h.count = 0 then (none, h, s)
  else
    let r := siftDown cmp (h.count - 1) ((h.count - 1) / 2) 0 h.elements s
    (some (h.elements 0), ⟨update r.2.1 r.1 (r.2.1 (h.count - 1)), h.count - 1, h.maxSize,
      h.corrupted || exception r.2.2⟩, r.2.2)

/-- The heaps that calls reach from `spl_ptr_heap_init`, with what was inserted and returned. -/
inductive Reaches : SplPtrHeap α → Multiset α → Multiset α → Prop
  | init (elements : ℕ → α) : Reaches ⟨elements, 0, 8, false⟩ 0 0
  | insert {h h' : SplPtrHeap α} {ins ret : Multiset α} (hr : Reaches h ins ret) (elem : α)
      (s : σ) {s' : σ} (hok : splPtrHeapInsert cmp exception h elem s = some (h', s')) :
      Reaches h' (ins + {elem}) ret
  | deleteTop {h h' : SplPtrHeap α} {ins ret : Multiset α} (hr : Reaches h ins ret) {elem : α}
      (s : σ) {s' : σ} (hok : splPtrHeapDeleteTop cmp exception h s = (some elem, h', s')) :
      Reaches h' ins (ret + {elem})

/-- What the loop of the insertion does, for every comparison. -/
lemma siftUp_rule (elem : α) {P : ℕ → (ℕ → α) → Prop}
    (hstep : ∀ i a s, 0 < i → (cmp (a ((i - 1) / 2)) elem s).1 < 0 → P i a →
      P ((i - 1) / 2) (update a i (a ((i - 1) / 2)))) (i : ℕ) (a : ℕ → α) (s : σ) (h : P i a) :
    ∃ i' a' s', siftUp cmp elem i a s = (i', a', s') ∧ P i' a' ∧
      (0 < i' → ∃ t, ¬ (cmp (a' ((i' - 1) / 2)) elem t).1 < 0) := by
  fun_induction siftUp cmp elem i a s with
  | case1 i a s hi r hr ih => exact ih (hstep i a s hi hr h)
  | case2 i a s hi r hr => exact ⟨i, a, _, rfl, h, fun _ => ⟨s, hr⟩⟩
  | case3 i a s hi => exact ⟨i, a, s, rfl, h, fun hi' => absurd hi' hi⟩

/-- The child that the loop of the deletion goes to. -/
def Bigger (a : ℕ → α) (i j : ℕ) : Prop :=
  j = i * 2 + 1 + 1 ∧ (∃ s, 0 < (cmp (a (i * 2 + 1 + 1)) (a (i * 2 + 1)) s).1) ∨
    j = i * 2 + 1 ∧ ∃ s, ¬ 0 < (cmp (a (i * 2 + 1 + 1)) (a (i * 2 + 1)) s).1

variable {cmp} in
lemma bigger_of_lt {a : ℕ → α} {i m : ℕ} (hi : i < m / 2) (s : σ) :
    Bigger cmp a i (if 0 < (if i * 2 + 1 ≠ m then cmp (a (i * 2 + 1 + 1)) (a (i * 2 + 1)) s
      else (0, s)).1 then i * 2 + 1 + 1 else i * 2 + 1) := by
  rw [if_pos (show i * 2 + 1 ≠ m by omega)]
  split_ifs with h
  · exact .inl ⟨rfl, s, h⟩
  · exact .inr ⟨rfl, s, h⟩

/-- What the loop of the deletion does, for every comparison. -/
lemma siftDown_rule {m : ℕ} {P : ℕ → (ℕ → α) → Prop}
    (hstep : ∀ i a j s, i < m / 2 → Bigger cmp a i j → (cmp (a m) (a j) s).1 < 0 → P i a →
      P j (update a i (a j))) (i : ℕ) (a : ℕ → α) (s : σ) (h : P i a) :
    ∃ i' a' s', siftDown cmp m (m / 2) i a s = (i', a', s') ∧ P i' a' ∧
      (i' < m / 2 → ∃ j t, Bigger cmp a' i' j ∧ ¬ (cmp (a' m) (a' j) t).1 < 0) := by
  fun_induction siftDown cmp m (m / 2) i a s with
  | case1 i a s hi r j t ht ih =>
    exact ih (hstep i a j r.2 hi (bigger_of_lt hi s) ht h)
  | case2 i a s hi r j t ht =>
    exact ⟨i, a, _, rfl, h, fun _ => ⟨j, r.2, bigger_of_lt hi s, ht⟩⟩
  | case3 i a s hi => exact ⟨i, a, s, rfl, h, fun hi' => absurd hi' hi⟩

end Source

/-! ## The elements -/

/-- The elements in the slots below `n`. -/
def contents (a : ℕ → α) (n : ℕ) : Multiset α := ∑ k ∈ range n, {a k}

lemma contents_congr {a b : ℕ → α} {n : ℕ} (h : ∀ k < n, a k = b k) :
    contents a n = contents b n :=
  sum_congr rfl fun k hk => by rw [h k (mem_range.mp hk)]

lemma mem_contents {a : ℕ → α} {n : ℕ} {x : α} : x ∈ contents a n ↔ ∃ k < n, a k = x := by
  simp [contents, Multiset.mem_sum, eq_comm]

/-- A hole that moves, seen with the element in it. -/
lemma update_move {a : ℕ → α} {i j : ℕ} (hij : i ≠ j) (x : α) :
    update (update a i (a j)) j x = update a i x ∘ Equiv.swap i j := by
  funext k
  rcases eq_or_ne k j with rfl | hkj
  · simp
  · rcases eq_or_ne k i with rfl | hki
    · simp [hkj, hij.symm]
    · simp [hkj, hki, Equiv.swap_apply_of_ne_of_ne]

lemma contents_swap (b : ℕ → α) {i j n : ℕ} (hi : i < n) (hj : j < n) :
    contents (b ∘ Equiv.swap i j) n = contents b n := by
  refine Equiv.Perm.sum_comp (Equiv.swap i j) (range n) (fun k => {b k}) fun k hk => ?_
  by_contra hkn
  have hne : k ≠ i ∧ k ≠ j := by
    constructor <;> rintro rfl <;> exact hkn (by simpa)
  exact hk (Equiv.swap_apply_of_ne_of_ne hne.1 hne.2)

/-! ## The order -/

/-- The comparison is that of a preorder, in every state. -/
structure Orders (cmp : α → α → σ → ℤ × σ) (le : α → α → Prop) : Prop where
  preorder : TotalPreorder le
  lt_iff : ∀ x y s, (cmp x y s).1 < 0 ↔ ¬ le y x
  gt_iff : ∀ x y s, 0 < (cmp x y s).1 ↔ ¬ le x y

/-- No slot below `n` is greater than its parent. -/
def HeapOrdered (le : α → α → Prop) (b : ℕ → α) (n : ℕ) : Prop :=
  ∀ k, 0 < k → k < n → le (b k) (b ((k - 1) / 2))

/-- All are in order but those in `bad`, and the children of `i` are not above its parent. -/
structure OrderedBut (le : α → α → Prop) (b : ℕ → α) (n i : ℕ) (bad : ℕ → Prop) : Prop where
  edge : ∀ k, 0 < k → k < n → ¬ bad k → le (b k) (b ((k - 1) / 2))
  grand : 0 < i → ∀ k, 0 < k → k < n → (k - 1) / 2 = i → le (b k) (b ((i - 1) / 2))

variable {le : α → α → Prop} {b : ℕ → α} {n i : ℕ}

lemma swap_eq (b : ℕ → α) (i j k : ℕ) :
    (b ∘ Equiv.swap i j) k = if k = i then b j else if k = j then b i else b k := by
  rw [comp_apply, Equiv.swap_apply_def]
  split_ifs <;> rfl

/-- The hole moves up. -/
lemma OrderedBut.up (h : OrderedBut le b n i (· = i)) (hle : TotalPreorder le) (hi : 0 < i)
    (hin : i < n) (hlt : le (b ((i - 1) / 2)) (b i)) :
    OrderedBut le (b ∘ Equiv.swap i ((i - 1) / 2)) n ((i - 1) / 2) (· = (i - 1) / 2) := by
  have hedge := h.edge
  have hgrand := h.grand hi
  constructor
  · intro k hk hkn hbad
    simp only [swap_eq]
    have := hedge k hk hkn
    have := hgrand k hk hkn
    split_ifs <;> grind [hle.trans]
  · intro hp k hk hkn hpar
    simp only [swap_eq]
    have := hedge k hk hkn
    have := hedge ((i - 1) / 2) hp (by omega) (by omega)
    split_ifs <;> grind [hle.trans]

/-- The hole moves down to the bigger child. -/
lemma OrderedBut.down (h : OrderedBut le b n i fun k => (k - 1) / 2 = i)
    {j : ℕ} (hj : 0 < j) (hij : (j - 1) / 2 = i) (hjn : j < n) (hlt : le (b i) (b j))
    (hmax : ∀ k, 0 < k → k < n → (k - 1) / 2 = i → le (b k) (b j)) :
    OrderedBut le (b ∘ Equiv.swap i j) n j fun k => (k - 1) / 2 = j := by
  constructor
  · intro k hk hkn hbad
    simp only [swap_eq]
    have := h.edge k hk hkn
    have := hmax k hk hkn
    have := fun hi => h.grand hi j hj hjn hij
    split_ifs <;> grind
  · intro _ k hk hkn hpar
    simp only [swap_eq]
    have := h.edge k hk hkn
    split_ifs <;> grind

lemma HeapOrdered.le_top (h : HeapOrdered le b n) (hle : TotalPreorder le) :
    ∀ k < n, le (b k) (b 0) := by
  intro k
  induction k using Nat.strong_induction_on with
  | _ k ih =>
    intro hk
    rcases Nat.eq_zero_or_pos k with rfl | hpos
    · exact hle.refl _
    · exact hle.trans _ _ _ (h k hpos hk) (ih _ (by omega) (by omega))

/-! ## The calls -/

section Calls

variable {cmp : α → α → σ → ℤ × σ} {a : ℕ → α} {m : ℕ}

lemma Orders.le_of_lt (ho : Orders cmp le) {x y : α} {s : σ} (h : (cmp x y s).1 < 0) : le x y :=
  ho.preorder.of_not ((ho.lt_iff x y s).mp h)

lemma Orders.le_of_not_lt (ho : Orders cmp le) {x y : α} {s : σ} (h : ¬ (cmp x y s).1 < 0) :
    le y x :=
  not_not.mp fun hn => h ((ho.lt_iff x y s).mpr hn)

/-- No child is above the bigger one. -/
lemma Bigger.child_le (ho : Orders cmp le) {j : ℕ} (h : Bigger cmp a i j) {k : ℕ} (hk : 0 < k)
    (hpar : (k - 1) / 2 = i) : le (a k) (a j) := by
  have hcases : k = i * 2 + 1 ∨ k = i * 2 + 1 + 1 := by omega
  rcases h with ⟨rfl, s, hs⟩ | ⟨rfl, s, hs⟩
  · have hgt := ho.preorder.of_not ((ho.gt_iff _ _ s).mp hs)
    rcases hcases with rfl | rfl
    exacts [hgt, ho.preorder.refl _]
  · have hle := not_not.mp fun hn => hs ((ho.gt_iff _ _ s).mpr hn)
    rcases hcases with rfl | rfl
    exacts [ho.preorder.refl _, hle]

/-- Before `elem` is put into the hole `i` of `b`. -/
structure Inserting (cmp : α → α → σ → ℤ × σ) (a : ℕ → α) (n : ℕ) (elem : α) (i : ℕ)
    (b : ℕ → α) : Prop where
  hole : i ≤ n
  elements : contents (update b i elem) (n + 1) = contents a n + {elem}
  ordered : ∀ le, Orders cmp le → HeapOrdered le a n →
    OrderedBut le (update b i elem) (n + 1) i (· = i)

lemma inserting_start (cmp : α → α → σ → ℤ × σ) (a : ℕ → α) (n : ℕ) (elem : α) :
    Inserting cmp a n elem n a where
  hole := le_rfl
  elements := by
    rw [contents, sum_range_succ, update_self]
    congr 1
    exact contents_congr fun k hk => update_of_ne hk.ne _ _
  ordered le _ hh := by
    refine ⟨fun k hk hkn hne => ?_, fun _ k _ _ _ => by omega⟩
    rw [update_of_ne hne, update_of_ne (by omega)]
    exact hh k hk (by omega)

lemma Inserting.move {elem : α} (h : Inserting cmp a n elem i b) {s : σ} (hi : 0 < i)
    (hlt : (cmp (b ((i - 1) / 2)) elem s).1 < 0) :
    Inserting cmp a n elem ((i - 1) / 2) (update b i (b ((i - 1) / 2))) := by
  have hin := h.hole
  have hmove := update_move (a := b) (show i ≠ (i - 1) / 2 by omega) elem
  refine ⟨by omega, ?_, fun le ho hh => ?_⟩ <;> rw [hmove]
  · rw [contents_swap _ (by omega) (by omega), h.elements]
  · refine (h.ordered le ho hh).up ho.preorder hi (by omega) ?_
    rw [update_self, update_of_ne (by omega)]
    exact ho.le_of_lt hlt

/-- **An insertion** adds its element and keeps the order. -/
lemma siftUp_inserts (cmp : α → α → σ → ℤ × σ) (elem : α) (a : ℕ → α) (n : ℕ) (s : σ) :
    ∃ i' a' s', siftUp cmp elem n a s = (i', a', s') ∧
      contents (update a' i' elem) (n + 1) = contents a n + {elem} ∧
      ∀ le, Orders cmp le → HeapOrdered le a n → HeapOrdered le (update a' i' elem) (n + 1) := by
  obtain ⟨i', a', s', heq, h, hstop⟩ := siftUp_rule cmp elem (P := Inserting cmp a n elem)
    (fun i b s hi hlt h => h.move hi hlt) n a s (inserting_start cmp a n elem)
  refine ⟨i', a', s', heq, h.elements, fun le ho hh k hk hkn => ?_⟩
  rcases eq_or_ne k i' with rfl | hne
  · obtain ⟨t, ht⟩ := hstop hk
    rw [update_self, update_of_ne (by omega)]
    exact ho.le_of_not_lt ht
  · exact (h.ordered le ho hh).edge k hk hkn hne

/-- Before the last element, in slot `m`, is put into the hole `i` of `b`. -/
structure Deleting (cmp : α → α → σ → ℤ × σ) (a : ℕ → α) (m i : ℕ) (b : ℕ → α) : Prop where
  elements : contents (update b i (b m)) m + {a 0} = contents a (m + 1)
  ordered : ∀ le, Orders cmp le → HeapOrdered le a (m + 1) →
    OrderedBut le (update b i (b m)) m i fun k => (k - 1) / 2 = i

lemma deleting_start (cmp : α → α → σ → ℤ × σ) (a : ℕ → α) (m : ℕ) : Deleting cmp a m 0 a where
  elements := by
    rw [← contents_swap a (Nat.succ_pos m) (Nat.lt_succ_self m), contents, contents,
      sum_range_succ, comp_apply, Equiv.swap_apply_right]
    congr 1
    refine contents_congr fun k hk => ?_
    rw [swap_eq, if_neg (show ¬ k = m from hk.ne), update_apply]
  ordered le _ hh := by
    refine ⟨fun k hk hkn hne => ?_, fun h0 => absurd h0 (lt_irrefl 0)⟩
    rw [update_of_ne (by omega), update_of_ne hne]
    exact hh k hk (by omega)

lemma Deleting.move (h : Deleting cmp a m i b) {j : ℕ} {s : σ} (hi : i < m / 2)
    (hj : Bigger cmp b i j) (hlt : (cmp (b m) (b j) s).1 < 0) :
    Deleting cmp a m j (update b i (b j)) := by
  have hjm : 0 < j ∧ (j - 1) / 2 = i ∧ j ≤ m := by
    rcases hj with ⟨rfl, -⟩ | ⟨rfl, -⟩ <;> omega
  have hm : update b i (b j) m = b m := update_of_ne (by omega) _ _
  rcases hjm.2.2.eq_or_lt with rfl | hjlt
  -- the child is the slot of `bottom`, which only an inconsistent comparison puts above itself
  · refine ⟨?_, fun le ho _ => absurd (ho.preorder.refl _) ((ho.lt_iff _ _ s).mp hlt)⟩
    rw [update_eq_self_iff.mpr rfl, h.elements]
  · have hmove := update_move (a := b) (show i ≠ j by omega) (b m)
    refine ⟨?_, fun le ho hh => ?_⟩ <;> rw [hm, hmove]
    · rw [contents_swap _ (by omega) hjlt, h.elements]
    · refine (h.ordered le ho hh).down hjm.1 hjm.2.1 hjlt ?_ fun k hk hkn hpar => ?_
      · rw [update_self, update_of_ne (by omega)]
        exact ho.le_of_lt hlt
      · rw [update_of_ne (by omega), update_of_ne (by omega)]
        exact hj.child_le ho hk hpar

/-- **A deletion** removes the element at the top and keeps the order. -/
lemma siftDown_deletes (cmp : α → α → σ → ℤ × σ) (a : ℕ → α) (m : ℕ) (s : σ) :
    ∃ i' a' s', siftDown cmp m (m / 2) 0 a s = (i', a', s') ∧
      contents (update a' i' (a' m)) m + {a 0} = contents a (m + 1) ∧
      ∀ le, Orders cmp le → HeapOrdered le a (m + 1) →
        HeapOrdered le (update a' i' (a' m)) m := by
  obtain ⟨i', a', s', heq, h, hstop⟩ := siftDown_rule cmp (P := Deleting cmp a m)
    (fun i b j s hi hj hlt h => h.move hi hj hlt) 0 a s (deleting_start cmp a m)
  refine ⟨i', a', s', heq, h.elements, fun le ho hh k hk hkn => ?_⟩
  by_cases hpar : (k - 1) / 2 = i'
  · obtain ⟨j, t, hj, ht⟩ := hstop (by omega)
    rw [hpar, update_self, update_of_ne (by omega)]
    exact ho.preorder.trans _ _ _ (hj.child_le ho hk hpar) (ho.le_of_not_lt ht)
  · exact (h.ordered le ho hh).edge k hk hkn hpar

variable {exception : σ → Bool}

/-- **Every call keeps both invariants.** -/
lemma Reaches.inv {h : SplPtrHeap α} {ins ret : Multiset α} (hr : Reaches cmp exception h ins ret) :
    contents h.elements h.count + ret = ins ∧
      ∀ le, Orders cmp le → HeapOrdered le h.elements h.count := by
  induction hr with
  | init => exact ⟨rfl, fun _ _ k _ hk => absurd hk (Nat.not_lt_zero k)⟩
  | @insert h _ _ _ _ elem s _ hok ih =>
    obtain ⟨i', a', s', heq, hc, hord⟩ := siftUp_inserts cmp elem h.elements h.count s
    rw [splPtrHeapInsert, heq] at hok
    split_ifs at hok <;> cases hok
    all_goals
      exact ⟨by rw [hc, add_right_comm, ih.1], fun le ho => hord le ho (ih.2 le ho)⟩
  | @deleteTop h _ _ _ _ _ s _ hok ih =>
    rw [splPtrHeapDeleteTop] at hok
    split_ifs at hok with h0
    · cases hok
    · obtain ⟨m, hm⟩ := Nat.exists_eq_succ_of_ne_zero h0
      obtain ⟨i', a', s', heq, hc, hord⟩ := siftDown_deletes cmp h.elements m s
      rw [hm] at ih hok
      rw [Nat.succ_sub_one, heq] at hok
      cases hok
      exact ⟨by rw [← ih.1, ← hc, add_assoc, add_comm {_}], fun le ho => hord le ho (ih.2 le ho)⟩

end Calls

end PhpInternals.Ext.Spl

import Mathlib.Algebra.Order.BigOperators.Group.Finset
import PhpInternals.Found.StackWalk
import PhpInternals.Zend.ZendGc.Basic

/-!
# The object graph and the walks over it

The collector does not go through `EG(symbol_table)`. Its recursive functions are walks in the sense
of `Found.Walks`.
-/

namespace PhpInternals.Zend.ZendGc

open GcState Finset Found

variable {N : Type}

/-! ## Edges -/

/-- The references that a value holds, as far as the collector can see. -/
def Refcounted.edges : Refcounted N → List N
  | .object false (some (zvs, none)) _ => zvs.filterMap Zval.counted?
  | .object false (some (zvs, some ht)) _ =>
    zvs.filterMap Zval.counted? ++ (ht.map Zval.deref).filterMap Zval.counted?
  | .object _ _ _ => []
  | .array arData => (arData.map Zval.deref).filterMap Zval.counted?
  | .reference val => val.counted?.toList
  | .other => []

/-- The references of a value. -/
def Heap.edges (h : Heap N) (ref : N) : List N := (h.node ref).edges

/-- The references that the collector follows. -/
def Heap.children [DecidableEq N] (h : Heap N) (ref : N) : List N :=
  if h.isSymbolTable ref then [] else h.edges ref

section Loops

variable {σ τ ε : Type} {π : σ → τ}

lemma map_bind_eq {x : Except ε σ} {y : Except ε τ} {f : σ → Except ε σ} {g : τ → Except ε τ}
    (hx : x.map π = y) (hf : ∀ s, (f s).map π = g (π s)) : (x >>= f).map π = y >>= g := by
  subst hx
  cases x with
  | error e => rfl
  | ok s => exact hf s

variable {back skip : Zval N → σ → σ} {call : N → σ → Except ε σ} {call' : N → τ → Except ε τ}
  (hback : ∀ zv s, π (back zv s) = π s) (hskip : ∀ zv s, π (skip zv s) = π s)
  (hcall : ∀ c s, (call c s).map π = call' c (π s))

include hskip hcall

/-- The loop over the slots makes one call for each counted slot. -/
lemma walkFront_map (zvs : List (Zval N)) (s : σ) : (walkFront skip call zvs s).map π =
      (zvs.filterMap Zval.counted?).foldlM (fun t c => call' c t) (π s) := by
  induction zvs generalizing s with
  | nil => rfl
  | cons zv zvs ih =>
    rw [walkFront]
    cases hc : zv.counted? with
    | none => rw [List.filterMap_cons_none hc, ← hskip zv s, ih]
    | some c =>
      rw [List.filterMap_cons_some hc]
      exact map_bind_eq (hcall c s) ih

include hback

lemma walkSlots_map (zvs : List (Zval N)) (s : σ) : (walkSlots back skip call zvs s).map π =
      (zvs.filterMap Zval.counted?).foldlM (fun t c => call' c t) (π s) := by
  obtain ⟨rev, rfl⟩ : ∃ rev, zvs = rev.reverse := ⟨zvs.reverse, zvs.reverse_reverse.symm⟩
  rw [walkSlots, List.reverse_reverse]
  induction rev generalizing s with
  | nil => rfl
  | cons zv before ih =>
    rw [scanBack, List.reverse_cons, List.filterMap_append]
    cases hc : zv.counted? with
    | none =>
      rw [List.filterMap_cons_none hc, List.filterMap_nil, List.append_nil, ← hback zv s]
      exact ih (back zv s)
    | some c =>
      rw [List.filterMap_cons_some hc, List.foldlM_append]
      refine map_bind_eq (walkFront_map hskip hcall before.reverse s) fun s' => ?_
      rw [hcall]
      simp

omit hback

/-- **The loops of a value visit its edges in order.** -/
theorem walkNode_map (node : Refcounted N) (s : σ) :
    (walkNode skip call node s).map π = node.edges.foldlM (fun t c => call' c t) (π s) := by
  match node with
  | .object true _ _ => rfl
  | .object false none _ => rfl
  | .object false (some (zvs, none)) _ =>
    exact walkSlots_map (fun _ => hskip _) hskip hcall zvs s
  | .object false (some (zvs, some ht)) _ =>
    rw [Refcounted.edges, List.foldlM_append]
    exact map_bind_eq (walkFront_map hskip hcall zvs s)
      (walkSlots_map hskip hskip hcall (ht.map Zval.deref))
  | .array arData => exact walkSlots_map hskip hskip hcall (arData.map Zval.deref) s
  | .reference val =>
    rw [walkNode, Refcounted.edges]
    cases val.counted? with
    | none => rfl
    | some c =>
      simp only [hcall]
      simp
  | .other => rfl

omit hskip hcall in
lemma walkNode_eq (node : Refcounted N) (s : σ) :
    walkNode (fun _ s => s) call node s = node.edges.foldlM (fun s c => call c s) s := by
  have hid : ∀ x : Except ε σ, x.map id = x := fun x => by cases x <;> rfl
  rw [← hid (walkNode _ call node s)]
  exact walkNode_map (fun _ _ => rfl) (fun c s => hid (call c s)) node s

end Loops

/-! ## Colours and the view of the buffer -/

/-- The colour of a value. Source: `zend_gc.c` `GC_REF_GET_COLOR`. -/
def GcState.color (s : GcState N) (ref : N) : Color := (s.info ref).color

/-- The root buffer and the addresses of the values in it. -/
structure BufferView (N : Type) where
  address : N → ℕ
  ref : RootPtr → Option N
  links : Links RootPtr
  unused : RootPtr
  firstUnused : ℕ
  lastUnused : ℕ
  additionalBuffer : List ℕ

/-- What marking and scanning leave alone. -/
def GcState.view (s : GcState N) : BufferView N :=
  ⟨fun n => (s.info n).address, s.ref, s.links, s.unused, s.firstUnused, s.lastUnused,
    s.additionalBuffer⟩

section StateLemmas

variable [DecidableEq N] (s : GcState N) (ref n : N) (c : Color)

@[simp] lemma color_setColor : (s.setColor ref c).color n = if n = ref then c else s.color n := by
  by_cases h : n = ref
  · simp [color, setColor, h]
  · simp [color, setColor, h]

@[simp] lemma refcount_setColor : (s.setColor ref c).refcount = s.refcount := rfl

@[simp] lemma view_setColor : (s.setColor ref c).view = s.view := by
  simp only [view, setColor, BufferView.mk.injEq, and_true]
  funext m
  by_cases h : m = ref
  · subst h
    rw [Function.update_self]
  · rw [Function.update_of_ne h]

@[simp] lemma color_incRef : (s.incRef ref).color = s.color := rfl

@[simp] lemma view_incRef : (s.incRef ref).view = s.view := rfl

lemma refcount_incRef : (s.incRef ref).refcount n = s.refcount n + [ref].count n := by
  by_cases h : n = ref
  · subst h
    simp [incRef]
  · have h' : ref ≠ n := fun he => h he.symm
    simp [incRef, h, h']

lemma decRef_spec (h : 0 < s.refcount ref) : ∃ s', s.decRef ref = .ok s' ∧
    s'.color = s.color ∧ s'.view = s.view ∧ ∀ n, s'.refcount n + [ref].count n = s.refcount n := by
  refine ⟨_, if_neg h.ne', rfl, rfl, fun n => ?_⟩
  by_cases hn : n = ref
  · subst hn
    simp only [Function.update_self, List.count_singleton_self]
    omega
  · have hn' : ref ≠ n := fun he => hn he.symm
    simp [hn, hn']

end StateLemmas

/-! ## The recursive functions are walks -/

section Walks

variable [DecidableEq N] (h : Heap N)

/-- Entering a value in `gc_mark_grey`. -/
def markEnter (ref : N) (s : GcState N) : GcState N × List N :=
  if s.color ref ≠ .grey then
    if h.isSymbolTable ref then ((s.setColor ref .grey).setColor ref .black, [])
    else (s.setColor ref .grey, h.edges ref)
  else (s, [])

/-- A child in `gc_mark_grey`. -/
def markChild (depth : ℕ) (c : N) (s : GcState N) : Except GcError (GcState N) :=
  s.decRef c >>= gcMarkGrey h depth c

/-- `gc_mark_grey` enters a node and goes on to its children. -/
lemma gcMarkGrey_succ (depth : ℕ) (ref : N) (s : GcState N) : gcMarkGrey h (depth + 1) ref s =
      (markEnter h ref s).2.foldlM (fun s c => markChild h depth c s) (markEnter h ref s).1 := by
  rw [gcMarkGrey, markEnter, color]
  split_ifs
  · rfl
  · exact walkNode_eq (h.node ref) (s.setColor ref .grey)
  · rfl

/-- As a walk over the graph. -/
lemma walks_markGrey :
    Walks (fun c s => s.decRef c >>= fun s => .ok (markEnter h c s)) (markChild h) where
  succ depth c s := by
    rw [markChild]
    cases s.decRef c with
    | error e => rfl
    | ok s' => exact gcMarkGrey_succ h depth c s'

/-- Entering a child in `gc_scan_black`. -/
def blackEnter (c : N) (s : GcState N) : GcState N × List N :=
  if s.color c ≠ .black then ((s.incRef c).setColor c .black, h.children c)
  else (s.incRef c, [])

/-- A child in `gc_scan_black`. -/
def blackChild (depth : ℕ) (c : N) (s : GcState N) : Except GcError (GcState N) :=
  if s.color c ≠ .black then gcScanBlack h depth c (s.incRef c) else .ok (s.incRef c)

lemma gcScanBlack_succ (depth : ℕ) (ref : N) (s : GcState N) : gcScanBlack h (depth + 1) ref s =
      (h.children ref).foldlM (fun s c => blackChild h depth c s) (s.setColor ref .black) := by
  rw [gcScanBlack, Heap.children]
  split_ifs
  · rfl
  · exact walkNode_eq (h.node ref) (s.setColor ref .black)

/-- `gc_scan_black` as a walk. -/
lemma walks_scanBlack : Walks (fun c s => .ok (blackEnter h c s)) (blackChild h) where
  succ depth c s := by
    rw [blackChild, blackEnter]
    split_ifs
    · exact gcScanBlack_succ h depth c (s.incRef c)
    · rfl

/-- Entering a value in `gc_scan`. -/
def scanEnter (black : ℕ) (ref : N) (s : GcState N) : Except GcError (GcState N × List N) :=
  if s.color ref = .grey then
    if s.refcount ref > 0 then (gcScanBlack h black ref s).map fun s => (s, [])
    else if h.isSymbolTable ref then .ok ((s.setColor ref .white).setColor ref .black, [])
    else .ok (s.setColor ref .white, h.edges ref)
  else .ok (s, [])

/-- `gc_scan` as a walk, which may start one of the former. -/
lemma walks_scan (black : ℕ) : Walks (scanEnter h black) (gcScan h black) where
  succ depth ref s := by
    rw [gcScan, scanEnter, color]
    split_ifs
    · cases gcScanBlack h black ref s <;> rfl
    · rfl
    · exact walkNode_eq (h.node ref) (s.setColor ref .white)
    · rfl

/-- Entering a child in `gc_collect_white`. -/
def whiteEnter (c : N) (r : GcState N × Bool) : (GcState N × Bool) × List N :=
  if r.1.color c = .white then
    (enterGarbage h c ((r.1.incRef c).setColor c .black, r.2), h.edges c)
  else ((r.1.incRef c, r.2), [])

/-- A child in `gc_collect_white`, without the number of collected values. -/
def whiteChild (depth : ℕ) (c : N) (r : GcState N × Bool) : Except GcError (GcState N × Bool) :=
  (gcCollectWhite h depth c (r.1.incRef c, r.2)).map Prod.fst

lemma gcCollectWhite_succ (depth : ℕ) (ref : N) (r : GcState N × Bool) :
    (gcCollectWhite h (depth + 1) ref r).map Prod.fst =
      if r.1.color ref = .white then
        (h.edges ref).foldlM (fun r c => whiteChild h depth c r)
          (enterGarbage h ref (r.1.setColor ref .black, r.2))
      else .ok r := by
  rw [gcCollectWhite, color]
  split_ifs
  · have hskip : ∀ (zv : Zval N) (r : (GcState N × Bool) × ℕ),
        (r.1, r.2 + zv.weight).fst = r.fst := fun _ _ => rfl
    refine walkNode_map hskip (fun c r => ?_) (h.node ref) _
    rw [whiteChild]
    cases gcCollectWhite h depth c (r.1.1.incRef c, r.1.2) <;> rfl
  · rfl

/-- `gc_collect_white` as a walk. -/
lemma walks_collectWhite : Walks (fun c r => .ok (whiteEnter h c r)) (whiteChild h) where
  succ depth c r := by
    rw [whiteChild, gcCollectWhite_succ, whiteEnter, color_incRef]
    split_ifs <;> rfl

end Walks

/-! ## Held references -/

section Held

variable [DecidableEq N] [Fintype N] (h : Heap N)

/-- The number of references to `x` that the values in a set hold, as the collector sees them. -/
def Heap.held (p : N → Prop) [DecidablePred p] (x : N) : ℕ :=
  ∑ m with p m, (h.children m).count x

variable {p q : N → Prop}

lemma Heap.held_mono [DecidablePred p] [DecidablePred q] (hpq : ∀ m, p m → q m) (x : N) :
    h.held p x ≤ h.held q x :=
  sum_le_sum_of_subset fun m hm => by
    rw [mem_filter] at hm ⊢
    exact ⟨hm.1, hpq m hm.2⟩

lemma Heap.held_congr [DecidablePred p] [DecidablePred q] (hpq : ∀ m, p m ↔ q m) (x : N) :
    h.held p x = h.held q x :=
  le_antisymm (h.held_mono (fun m => (hpq m).mp) x) (h.held_mono (fun m => (hpq m).mpr) x)

/-- One more node holds its own children. -/
lemma Heap.held_insert [DecidablePred p] [DecidablePred q] {n : N} (hn : ¬ p n)
    (hpq : ∀ m, q m ↔ m = n ∨ p m) (x : N) :
    h.held q x = (h.children n).count x + h.held p x := by
  have hse : univ.filter q = insert n (univ.filter p) := by
    ext m
    simp [hpq]
  rw [Heap.held, hse, sum_insert (by simp [hn])]
  rfl

lemma Heap.held_add {r : N → Prop} [DecidablePred p] [DecidablePred q] [DecidablePred r]
    (hds : ∀ m, p m → ¬ q m) (hr : ∀ m, r m ↔ p m ∨ q m) (x : N) :
    h.held r x = h.held p x + h.held q x := by
  have hse : univ.filter r = univ.filter p ∪ univ.filter q := by
    ext m
    simp [hr]
  rw [Heap.held, hse, sum_union]
  · rfl
  · rw [disjoint_filter]
    exact fun m _ => hds m

/-- What is held is a child of a holder. -/
lemma Heap.exists_of_held_pos [DecidablePred p] {x : N} (hps : 0 < h.held p x) :
    ∃ m, p m ∧ x ∈ h.children m := by
  obtain ⟨m, hm, hne⟩ := exists_ne_zero_of_sum_ne_zero hps.ne'
  rw [mem_filter] at hm
  exact ⟨m, hm.2, List.count_pos_iff.mp (Nat.pos_of_ne_zero hne)⟩

end Held

end PhpInternals.Zend.ZendGc

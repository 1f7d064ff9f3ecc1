import PhpInternals.Zend.ZendHash.Refinement
import PhpInternals.Zend.ZendHash.Relocation

/-!
# External iterators and the elements they stand on

Every iterator of `EG(ht_iterators)` is paired with a cursor: the key of the element it stands on,
or the end. Deleting that element moves the cursor to the next key, and the end becomes the first
key that is appended. An iterator follows its cursor when its position is the current index of that
element.
-/

namespace PhpInternals.Zend.ZendHash

open HashTable Option Nat Found

variable {K V : Type}

/-! ## Elements -/

/-- Bucket `i` holds the element with key `k`. -/
def HashTable.ElementAt (ht : HashTable K V) (k : HashKey K) (i : ℕ) : Prop :=
  i < ht.nNumUsed ∧ ∃ v, ht.entryAt i = some (k, v)

variable {ht : HashTable K V} {i : ℕ}

lemma HashTable.elementAt_of_live (hi : i < ht.nNumUsed) (hl : ht.live i) :
    ht.ElementAt (hashKeyOf (ht.arData i).h (ht.arData i).key) i := by
  obtain ⟨v, hv⟩ := isSome_iff_exists.mp hl
  exact ⟨hi, v, by simp [entryAt, hv]⟩

variable {k : HashKey K}

lemma HashTable.ElementAt.live (h : ht.ElementAt k i) : ht.live i := by
  obtain ⟨-, v, hv⟩ := h
  exact (ht.entryAt_isSome i).mp (by rw [hv]; rfl)

lemma HashTable.ElementAt.key_eq (h : ht.ElementAt k i) :
    k = hashKeyOf (ht.arData i).h (ht.arData i).key := by
  obtain ⟨-, v, hv⟩ := h
  rw [entryAt] at hv
  cases hvl : (ht.arData i).val with
  | none => simp [hvl] at hv
  | some w =>
    simp only [hvl, map_some, some.injEq, Prod.mk.injEq] at hv
    exact hv.1.symm

variable {ht' : HashTable K V} {j : ℕ}

lemma HashTable.ElementAt.congr (h : ht.ElementAt k i)
    (hj : j < ht'.nNumUsed) (hc : ht'.content j = ht.content i) :
    ht'.ElementAt k j := by
  obtain ⟨-, v, hv⟩ := h
  exact ⟨hj, v, by rw [entryAt_congr hc, hv]⟩

lemma Represents.elementAt_unique {hashVal : K → BitVec 64} {t : OrderedTable K V}
    (hr : Represents hashVal ht t) (hi : ht.ElementAt k i) (hj : ht.ElementAt k j) :
    i = j := by
  obtain ⟨hi, v, hv⟩ := hi
  obtain ⟨hj, w, hw⟩ := hj
  exact hr.entry_unique hi hj hv hw rfl

/-! ## Cursors -/

section Cursors

/-- A table with its iterators, and the cursor of every iterator: the key of the element it stands
on, `none` at the end. -/
structure Tracked (K V : Type) where
  state : HashState K V
  cursor : ℕ → Option (HashKey K)

/-- Position `p` is where a cursor is. -/
def Sits (ht : HashTable K V) : Option (HashKey K) → ℕ → Prop
  | some k, p => ht.ElementAt k p
  | none, p => p = htInvalidIdx

/-- **Every iterator of the table is where its cursor is.** -/
def Tracked.Follows (x : Tracked K V) : Prop :=
  ∀ n p, x.state.eg.posOf x.state.ht.addr n = some p → Sits x.state.ht (x.cursor n) p

/-- A call on a table with iterators. -/
inductive IterOp (K V : Type) where
  | call (op : HashOp K V)
  | delBucket (idx : ℕ)
  | iteratorAdd (pos : ℕ)

variable [DecidableEq K] (hashVal : K → BitVec 64)

/-- A cursor after a key has been inserted. -/
def cursorAfterInsert (ht : HashTable K V) (k : HashKey K) (c : Option (HashKey K)) :
    Option (HashKey K) :=
  if c = none ∧ k ∉ ht.walk.map Prod.fst then some k else c

/-- A cursor after a key has been deleted. -/
def cursorAfterDelete (ht : HashTable K V) (k : HashKey K) (c : Option (HashKey K)) :
    Option (HashKey K) :=
  if c = some k then nextKey ht.walk k else c

/-- A cursor after a call. -/
def cursorAfter (s : HashState K V) (op : HashOp K V) (c : Option (HashKey K)) :
    Option (HashKey K) :=
  match s.insertedKey op, op.deletedKey with
  | some k, _ => cursorAfterInsert s.ht k c
  | none, some k => cursorAfterDelete s.ht k c
  | none, none => c

/-- A call with its effect on the cursors. -/
def Tracked.step (x : Tracked K V) : IterOp K V → Except HashError (Tracked K V)
  | .call op =>
    (x.state.apply hashVal op).map fun (s, _) => ⟨s, fun n => cursorAfter x.state op (x.cursor n)⟩
  | .delBucket idx =>
    let b := x.state.ht.arData idx
    (zendHashDelBucket x.state idx).map fun s =>
      ⟨s, fun n => cursorAfterDelete x.state.ht (hashKeyOf b.h b.key) (x.cursor n)⟩
  | .iteratorAdd pos =>
    let (s, idx) := zendHashIteratorAdd x.state pos
    .ok ⟨s, Function.update x.cursor idx
      (if pos = htInvalidIdx then none else (x.state.ht.entryAt pos).map Prod.fst)⟩

omit [DecidableEq K] in
/-- The calls in question: inserts and deletes within their contracts, and iterators that are
registered on an element or at the end. -/
def Tracked.Allowed (x : Tracked K V) : IterOp K V → Prop
  | .call op => x.state.Legal op ∧ (x.state.insertedKey op ≠ none ∨ op.deletedKey ≠ none)
  | .delBucket idx => idx < x.state.ht.nNumUsed ∧ x.state.ht.live idx
  | .iteratorAdd pos => pos = htInvalidIdx ∨ pos < x.state.ht.nNumUsed ∧ x.state.ht.live pos

omit [DecidableEq K] in
/-- Some element has another index. -/
def ElementMoved (ht ht' : HashTable K V) : Prop :=
  ∃ k i j, ht.ElementAt k i ∧ ht'.ElementAt k j ∧ i ≠ j

/-- A call that moves an element to another index. -/
def HashState.Moves (s : HashState K V) (op : HashOp K V) : Prop :=
  ∃ s' o, s.apply hashVal op = .ok (s', o) ∧ ElementMoved s.ht s'.ht

/-- **The condition**: a call that moves elements finds the iterators on one side of the first hole.
-/
def Tracked.Clear (x : Tracked K V) : IterOp K V → Prop
  | .call op => x.state.Moves hashVal op → x.state.NoSplit
  | _ => True

omit [DecidableEq K] in
/-- The iterator registry as `zend_hash_iterator_add` leaves it: a table with iterators knows that
it has some, and what is not in use is free. -/
structure HashState.Registered (s : HashState K V) : Prop where
  addr_ne : s.ht.addr ≠ 0
  count : s.ht.nIteratorsCount = 0 → ∀ n, s.eg.posOf s.ht.addr n = none
  free : ∀ iter ∈ s.eg.htIterators.drop s.eg.htIteratorsUsed, iter.ht = 0

/-- A table that stands for a map, with a registry in order. -/
structure Tracked.Good (x : Tracked K V) : Prop where
  rep : ∃ t, Represents hashVal x.state.ht t
  registered : x.state.Registered

end Cursors

/-! ## What a call does to the iterators -/

section Effects

variable {hashVal : K → BitVec 64} {s s' : HashState K V} {t : OrderedTable K V}
  {cur : ℕ → Option (HashKey K)}

/-- A followed iterator stands on an element or at the end. -/
lemma Tracked.Follows.placed (h : Tracked.Follows ⟨s, cur⟩) :
    Placed s.ht (s.eg.posOf s.ht.addr) := by
  intro n p hp
  have hsi := h n p hp
  simp only at hsi
  cases hc : cur n with
  | none =>
    rw [hc] at hsi
    exact .inl hsi
  | some k =>
    rw [hc] at hsi
    exact .inr ⟨hsi.1, HashTable.ElementAt.live hsi⟩

lemma not_elementMoved (hr : Represents hashVal ht' t)
    (h : ∀ k i, ht.ElementAt k i → ht'.ElementAt k i ∨ ∀ j, ¬ ht'.ElementAt k j) :
    ¬ ElementMoved ht ht' := by
  rintro ⟨k, i, j, hi, hj, hne⟩
  rcases h k i hi with hi' | hno
  · exact hne (hr.elementAt_unique hi' hj)
  · exact hno j hj

lemma mem_walk_keys_iff : k ∈ ht.walk.map Prod.fst ↔ ∃ i, ht.ElementAt k i := by
  rw [List.mem_map]
  constructor
  · rintro ⟨⟨k, v⟩, hm, rfl⟩
    obtain ⟨i, hi, he⟩ := mem_gather.mp hm
    exact ⟨i, hi, v, he⟩
  · rintro ⟨i, hi, v, he⟩
    exact ⟨(k, v), mem_gather.mpr ⟨i, hi, he⟩, rfl⟩

variable {v : V}

lemma follows_overwritten (hf : Tracked.Follows ⟨s, cur⟩) {p : ℕ} (ho : Overwritten s s' p v)
    (hl : s.ht.live p) :
    (∀ k i, s.ht.ElementAt k i → s'.ht.ElementAt k i) ∧ Tracked.Follows ⟨s', cur⟩ := by
  have hel : ∀ k i, s.ht.ElementAt k i → s'.ht.ElementAt k i := by
    intro k i hi
    by_cases hip : i = p
    · subst hip
      have hk := hi.key_eq
      have hth := entryAt_of_content ho.this
      exact ⟨by rw [ho.used]; exact hi.1, v, by rw [hth, hk]⟩
    · exact hi.congr (by rw [ho.used]; exact hi.1) (ho.other i hip)
  refine ⟨hel, fun n q hq => ?_⟩
  rw [ho.eg, ho.addr] at hq
  have hsi := hf n q hq
  simp only at hsi ⊢
  cases hc : cur n with
  | none =>
    rw [hc] at hsi
    exact hsi
  | some k =>
    rw [hc] at hsi
    exact hel k q hsi

variable {idx : ℕ}

variable {s1 : HashState K V} {h : BitVec 64} {key : Option K}

/-- The iterators and elements of `s` are those of `s1`, at other indices. -/
structure Relocates (s s1 : HashState K V) : Prop where
  some : ∀ n p, s.eg.posOf s.ht.addr n = some p → ∃ q, s1.eg.posOf s1.ht.addr n = some q ∧
    (p = htInvalidIdx → q = htInvalidIdx) ∧
    ∀ k, s.ht.ElementAt k p → q ≠ htInvalidIdx ∧ s1.ht.ElementAt k q
  none : ∀ n, s.eg.posOf s.ht.addr n = none → s1.eg.posOf s1.ht.addr n = none

lemma Unmoved.elementAt (hun : Unmoved s s1) {k : HashKey K} {i : ℕ} (hi : s.ht.ElementAt k i) :
    s1.ht.ElementAt k i :=
  hi.congr (by rw [hun.used]; exact hi.1) (hun.content i hi.1)

lemma Unmoved.relocates (hun : Unmoved s s1) (hwf : s.ht.Wf) : Relocates s s1 where
  some n p hp :=
    ⟨p, by rw [hun.posOf]; exact hp, id, fun k hk => ⟨hwf.ne_invalid hk.1, hun.elementAt hk⟩⟩
  none n hp := by
    rw [hun.posOf]
    exact hp

lemma Compressed.elementAt (hcp : Compressed s s1) {k : HashKey K} {i : ℕ}
    (hi : s.ht.ElementAt k i) : s1.ht.ElementAt k (count s.ht.live i) :=
  hi.congr (by rw [hcp.used]; exact count_strict_mono hi.live hi.1) (hcp.content i hi.1 hi.live)

lemma Compressed.relocates (hcp : Compressed s s1) (hwf : s.ht.Wf) (hr : s.Registered)
    (hpl : Placed s.ht (s.eg.posOf s.ht.addr)) (hs : s.NoSplit) : Relocates s s1 := by
  have hpos1 := hcp.posOf_of_noSplit hwf.count hwf.used_le_invalid hpl hr.count hs
  refine ⟨fun n p hp => ⟨_, by rw [hpos1, hp]; rfl, ?_, fun k hk => ?_⟩, fun n hp => ?_⟩
  · rintro rfl
    have := hwf.used_le_invalid
    rw [movedPointer, if_neg fun hh => by omega]
  · rw [movedPointer, if_pos ⟨hk.1, hk.live⟩]
    have hlt : count s.ht.live p < s.ht.nNumUsed :=
      (count_strict_mono hk.live hk.1).trans_le (count_le _)
    exact ⟨hwf.ne_invalid hlt, hcp.elementAt hk⟩
  · rw [hpos1, hp]
    rfl

section appended

variable (ha : Appended s1 s' idx h key v)
include ha

lemma Appended.elementAt {k : HashKey K} {i : ℕ} (hi : s1.ht.ElementAt k i) :
    s'.ht.ElementAt k i :=
  hi.congr (by have := hi.1; have := ha.used_le; rw [ha.used]; omega) (ha.old i hi.1)

lemma Appended.posOf_eq (hreg1 : s1.Registered) (n : ℕ) : s'.eg.posOf s'.ht.addr n =
    (s1.eg.posOf s1.ht.addr n).map (redirect htInvalidIdx idx) := by
  rw [ha.eg, ha.addr]
  exact zendHashIteratorsUpdate_posOf s1 hreg1.count htInvalidIdx idx n

/-- Iterators follow when the silent steps have put each of them where its element is. -/
lemma Appended.follows [DecidableEq K] (hreg1 : s1.Registered) (hfo : Tracked.Follows ⟨s, cur⟩)
    (hab : hashKeyOf h key ∉ s.ht.walk.map Prod.fst) (hrl : Relocates s s1) :
    Tracked.Follows ⟨s', fun n => cursorAfterInsert s.ht (hashKeyOf h key) (cur n)⟩ := by
  intro n q' hq'
  rw [ha.posOf_eq hreg1] at hq'
  cases hp : s.eg.posOf s.ht.addr n with
  | none =>
    rw [hrl.none n hp] at hq'
    cases hq'
  | some p =>
    obtain ⟨q, hq, hiv, hel⟩ := hrl.some n p hp
    rw [hq, map_some, some.injEq] at hq'
    have hsi := hfo n p hp
    simp only [cursorAfterInsert] at hsi ⊢
    cases hc : cur n with
    | none =>
      rw [hc] at hsi
      have hq0 := hiv hsi
      rw [if_pos ⟨rfl, hab⟩, ← hq', hq0, redirect, if_pos rfl]
      exact ⟨by rw [ha.used]; omega, v, entryAt_of_content ha.new⟩
    | some k =>
      rw [hc] at hsi
      obtain ⟨hne, hat⟩ := hel k hsi
      rw [← hq', redirect, if_neg hne]
      exact ha.elementAt hat

/-- A compaction between iterators leaves the one behind the hole where it is. -/
lemma Appended.left_behind [DecidableEq K] (hwf : s.ht.Wf) (hr' : Represents hashVal s'.ht t)
    (hfo : Tracked.Follows ⟨s, cur⟩) (hreg1 : s1.Registered) (hcp : Compressed s s1)
    (hs : ¬ s.NoSplit) : ElementMoved s.ht s'.ht ∧
      ¬ Tracked.Follows ⟨s', fun n => cursorAfterInsert s.ht (hashKeyOf h key) (cur n)⟩ := by
  obtain ⟨fh, n, p, m, q, hfh, hp, hlt, hq, hfq, hu, hl⟩ := HashState.exists_of_split hs hfo.placed
  have hsi := hfo m q hq
  simp only at hsi
  obtain ⟨k, hc, hk⟩ : ∃ k, cur m = some k ∧ s.ht.ElementAt k q := by
    cases hc : cur m with
    | none =>
      rw [hc] at hsi
      exact absurd hsi (hwf.ne_invalid hu)
    | some k =>
      rw [hc] at hsi
      exact ⟨k, rfl, hsi⟩
  have hls : Nat.count s.ht.live q ≠ q := fun heq =>
    hfh.dead (count_iff_forall.mp heq fh hfq)
  have hat : s'.ht.ElementAt k (Nat.count s.ht.live q) := ha.elementAt (hcp.elementAt hk)
  refine ⟨⟨k, q, _, hk, hat, hls.symm⟩, fun hf => ?_⟩
  have hpos0 : 0 < s.ht.nNumOfElements :=
    hwf.count ▸ (zero_le _).trans_lt (count_strict_mono hl hu)
  have hps : s'.eg.posOf s'.ht.addr m = some q := by
    rw [ha.posOf_eq hreg1, hcp.posOf_of_split hwf.count hpos0 hfh hp hlt, hq, map_some, redirect,
      if_neg (hwf.ne_invalid hu)]
  have hsi' := hf m q hps
  simp only [hc] at hsi'
  exact hls (hr'.elementAt_unique hsi' hat).symm

end appended

/-- **A new last element** after the elements before it have stayed or been compacted. -/
theorem follows_appended_iff [DecidableEq K] (hwf : s.ht.Wf) (hr' : Represents hashVal s'.ht t)
    (hr : s.Registered) (hfo : Tracked.Follows ⟨s, cur⟩)
    (hab : hashKeyOf h key ∉ s.ht.walk.map Prod.fst) (hse : Settles s s1)
    (ha : Appended s1 s' idx h key v) (hreg1 : s1.Registered) :
    Tracked.Follows ⟨s', fun n => cursorAfterInsert s.ht (hashKeyOf h key) (cur n)⟩ ↔
      (ElementMoved s.ht s'.ht → s.NoSplit) := by
  have hfl : Relocates s s1 → _ := ha.follows hreg1 hfo hab
  rcases hse.cases hwf with hun | hcp
  · have hnt : ¬ ElementMoved s.ht s'.ht :=
      not_elementMoved hr' fun k i hi => .inl (ha.elementAt (hun.elementAt hi))
    exact ⟨fun _ hm => absurd hm hnt, fun _ => hfl (hun.relocates hwf)⟩
  by_cases hs : s.NoSplit
  · exact ⟨fun _ _ => hs, fun _ => hfl (hcp.relocates hwf hr hfo.placed hs)⟩
  · obtain ⟨hmv, hnf⟩ := ha.left_behind hwf hr' hfo hreg1 hcp hs
    exact ⟨fun hf => absurd hf hnf, fun hcl => absurd (hcl hmv) hs⟩

/-- **A deleted element**: its iterators go to the next one. -/
theorem follows_removed [DecidableEq K] (hrp : Represents hashVal s.ht t) (hrg : s.Registered)
    (hf : Tracked.Follows ⟨s, cur⟩) (hid : idx < s.ht.nNumUsed) (hlv : s.ht.live idx)
    (hr : Removed s s' idx) (hk : k = hashKeyOf (s.ht.arData idx).h (s.ht.arData idx).key) :
    Tracked.Follows ⟨s', fun n => cursorAfterDelete s.ht k (cur n)⟩ ∧
      ∀ k' i, s.ht.ElementAt k' i → s'.ht.ElementAt k' i ∨ ∀ j, ¬ s'.ht.ElementAt k' j := by
  have hat : s.ht.ElementAt k idx := hk ▸ elementAt_of_live hid hlv
  have hsy : ∀ k' i, s.ht.ElementAt k' i → i ≠ idx → s'.ht.ElementAt k' i := by
    intro k' i hi hne
    refine hi.congr ?_ (hr.other i hne)
    by_contra hge
    exact hr.trimmed i (by omega) hi.1 ((hr.live_iff i).mpr ⟨hi.live, hne⟩)
  have hb : ∀ k' i, s'.ht.ElementAt k' i → s.ht.ElementAt k' i := by
    intro k' i hi
    have hne := ((hr.live_iff i).mp hi.live).2
    exact hi.congr (hi.1.trans_le hr.used_le) (hr.other i hne).symm
  refine ⟨fun n p' hp' => ?_, fun k' i hi => ?_⟩
  · obtain ⟨j, hsc, -, heg⟩ := hr.succ
    rw [heg, hr.addr, zendHashIteratorsUpdate_posOf s hrg.count] at hp'
    obtain ⟨p, hp, hpp⟩ := map_eq_some_iff.mp hp'
    have hsi := hf n p hp
    simp only [cursorAfterDelete] at hsi ⊢
    have hnd : (s.ht.walk.map Prod.fst).Nodup := hrp.walk ▸ t.map.keys_nodup
    by_cases hpi : p = idx
    · -- the iterator stood on the deleted element
      subst hpi
      have hc : cur n = some k := by
        cases hc : cur n with
        | none =>
          rw [hc] at hsi
          exact absurd hsi (hrp.wf.ne_invalid hid)
        | some k' =>
          rw [hc] at hsi
          rw [hk, ← HashTable.ElementAt.key_eq hsi]
      rw [hc, if_pos rfl, ← hpp, redirect, if_pos rfl]
      obtain ⟨-, v, hv⟩ := hat
      rcases hsc with ⟨rfl, hnn⟩ | ⟨hlt, hu, hl, hg⟩
      · have hnx := nextKey_gather_of_last hnd hid hv fun i h1 h2 =>
          entryAt_of_not_live (hnn i h1 h2)
        rw [walk, hnx]
        rfl
      have hj := elementAt_of_live hu hl
      obtain ⟨-, w, hw⟩ := hj
      have hnx := nextKey_gather_of_succ hnd hid hv hlt hu hw fun i h1 h2 =>
        entryAt_of_not_live (hg i h1 h2)
      rw [walk, hnx]
      exact hsy _ j (elementAt_of_live hu hl) (by omega)
    · rw [← hpp, redirect, if_neg hpi]
      cases hc : cur n with
      | none =>
        rw [hc] at hsi
        exact hsi
      | some k' =>
        rw [hc] at hsi
        have hne : some k' ≠ some k := by
          rintro ⟨⟩
          exact hpi (hrp.elementAt_unique hsi hat)
        rw [if_neg hne]
        exact hsy k' p hsi hpi
  · by_cases hi' : i = idx
    · subst hi'
      refine .inr fun j hj => ?_
      have := hrp.elementAt_unique (hb k' j hj) hi
      exact ((hr.live_iff j).mp hj.live).2 this
    · exact .inl (hsy k' i hi hi')

/-! ## The registry -/

/-! ### Slots and counters -/

/-- The table keeps its address and its counter, and the slots keep their tables. -/
structure SameRegistry (s s' : HashState K V) : Prop where
  addr : s'.ht.addr = s.ht.addr
  nIteratorsCount : s'.ht.nIteratorsCount = s.ht.nIteratorsCount
  slots : SameSlots s.eg s'.eg

lemma SameRegistry.refl (s : HashState K V) : SameRegistry s s := ⟨rfl, rfl, SameSlots.refl _⟩

lemma SameRegistry.trans (h : SameRegistry s s1) (h' : SameRegistry s1 s') : SameRegistry s s' :=
  ⟨h'.addr.trans h.addr, h'.nIteratorsCount.trans h.nIteratorsCount, h.slots.trans h'.slots⟩

/-- Preparing the table leaves the slots to their owners. -/
lemma Settles.sameRegistry (hse : Settles s s') (hwf : s.ht.Wf) : SameRegistry s s' := by
  rcases hse.cases hwf with hun | hc
  · exact ⟨hun.addr, hun.nIteratorsCount, hun.eg ▸ SameSlots.refl _⟩
  · obtain ⟨s1, hun, heg⟩ := hc.eg
    refine ⟨hc.addr, hc.nIteratorsCount, ?_⟩
    rw [heg, ← hun.eg]
    exact zendHashRehash_sameSlots s1

lemma InsertEffect.sameRegistry {flag : HashFlag} {r : Option ℕ}
    (hef : InsertEffect s h key v flag s' r) (hwf : s.ht.Wf) : SameRegistry s s' := by
  cases hef with
  | kept => exact .refl s
  | overwritten _ _ _ _ ho => exact ⟨ho.addr, ho.nIteratorsCount, ho.eg ▸ SameSlots.refl _⟩
  | appended s1 _ _ _ hse ha =>
    refine (hse.sameRegistry hwf).trans ⟨ha.addr, ha.nIteratorsCount, ?_⟩
    rw [ha.eg]
    exact zendHashIteratorsUpdate_sameSlots s1 _ _

lemma Removed.sameRegistry (hr : Removed s s' idx) : SameRegistry s s' := by
  obtain ⟨j, -, -, heg⟩ := hr.succ
  refine ⟨hr.addr, hr.nIteratorsCount, ?_⟩
  rw [heg]
  exact zendHashIteratorsUpdate_sameSlots s idx j

lemma HashState.Registered.congr (h : s.Registered) (hsm : SameRegistry s s') : s'.Registered := by
  obtain ⟨ha, hc, hs⟩ := hsm
  refine ⟨ha ▸ h.addr_ne, fun h0 n => ?_, fun iter hit => ?_⟩
  · have hnn := h.count (hc ▸ h0) n
    rw [ExecutorGlobals.posOf_eq_none_iff] at hnn ⊢
    rw [hs.tables, hs.used, ha]
    exact hnn
  have hm : iter.ht ∈ (s.eg.htIterators.drop s.eg.htIteratorsUsed).map HashTableIterator.ht := by
    rw [List.map_drop, ← hs.tables, ← hs.used, ← List.map_drop]
    exact List.mem_map_of_mem hit
  obtain ⟨iter', hi', heq⟩ := List.mem_map.mp hm
  rw [← heq]
  exact h.free iter' hi'

end Effects

end PhpInternals.Zend.ZendHash

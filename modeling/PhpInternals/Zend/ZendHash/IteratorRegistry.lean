import PhpInternals.Zend.ZendHash.DupContents
import PhpInternals.Zend.ZendHash.IteratorRuns

/-!
# The iterator registry and the death of tables

`EG(ht_iterators)` holds addresses of tables. A slot is moved to another table by
`zend_hash_iterator_pos`, freed by `zend_hash_iterator_del`, and poisoned when its table dies; each
function trusts the 8-bit counter of the table.

Destructors run before the iterators are removed. They may call anything but functions on the dying
table, whose header stays as it is, so the calls they make are calls before the destruction.
-/

namespace PhpInternals.Zend.ZendHash

open Function HashState List Found

variable {K V : Type}

/-! ## The functions -/

/-- Source: `HT_POISONED_PTR`, `(HashTable *) (intptr_t) -1`. -/
def htPoisonedPtr : ℕ := 2 ^ 64 - 1

/-- The tables of a process, and the executor's registry. -/
structure Process (K V : Type) where
  tables : ℕ → Option (HashTable K V)
  eg : ExecutorGlobals

/-- How a call can fail. -/
inductive RegistryError where
  /-- The memory of a table that was destroyed is read or written. -/
  | freed
  /-- A slot past the end of `EG(ht_iterators)`. -/
  | noSlot
  /-- A table function does not return. -/
  | hash (e : HashError)
  deriving DecidableEq, Repr

namespace Process

/-- The table at an address. -/
def read (p : Process K V) (addr : ℕ) : Except RegistryError (HashTable K V) :=
  match p.tables addr with
  | some ht => .ok ht
  | none => .error .freed

/-- A table written back. -/
def write (p : Process K V) (addr : ℕ) (ht : HashTable K V) : Process K V :=
  { p with tables := update p.tables addr (some ht) }

/-- The slot of a handle. -/
def slot (p : Process K V) (idx : ℕ) : Except RegistryError HashTableIterator :=
  match p.eg.htIterators[idx]? with
  | some iter => .ok iter
  | none => .error .noSlot

/-- A slot written. -/
def setSlot (p : Process K V) (idx : ℕ) (iter : HashTableIterator) : Process K V :=
  { p with eg := { p.eg with htIterators := p.eg.htIterators.set idx iter } }

end Process

/-- `iter->ht->u.v.nIteratorsCount--`, on an `unsigned char`, unless the slot is free or poisoned or
the counter sticks. Source: `zend_hash.c` `zend_hash_iterator_del`. -/
def leaveTable (p : Process K V) (iter : HashTableIterator) : Except RegistryError (Process K V) :=
  if iter.ht ≠ 0 ∧ iter.ht ≠ htPoisonedPtr then do
    let ht ← p.read iter.ht
    if ht.nIteratorsCount ≠ 255 then
      .ok (p.write iter.ht { ht with nIteratorsCount := (ht.nIteratorsCount + 255) % 256 })
    else .ok p
  else .ok p

/-- Source: `zend_hash_iterator_pos`. -/
def zendHashIteratorPos (p : Process K V) (idx addr : ℕ) :
    Except RegistryError (Process K V × ℕ) := do
  let iter ← p.slot idx
  if iter.pos = htInvalidIdx then .ok (p, htInvalidIdx)
  else if iter.ht ≠ addr then do
    let p ← leaveTable p iter
    let ht ← p.read addr
    let p := if ht.nIteratorsCount ≠ 255 then
      p.write addr { ht with nIteratorsCount := ht.nIteratorsCount + 1 } else p
    .ok (p.setSlot idx ⟨addr, ht.nInternalPointer⟩, ht.nInternalPointer)
  else .ok (p, iter.pos)

/-- `while (idx > 0 && EG(ht_iterators)[idx - 1].ht == NULL)`. Source: `zend_hash.c`
`zend_hash_iterator_del`. -/
def trimIterators (iters : List HashTableIterator) : ℕ → ℕ
  | 0 => 0
  | idx + 1 => if (iters[idx]?.map HashTableIterator.ht) = some 0 then trimIterators
    iters idx else idx + 1

/-- Source: `zend_hash_iterator_del`. -/
def zendHashIteratorDel (p : Process K V) (idx : ℕ) : Except RegistryError (Process K V) := do
  let iter ← p.slot idx
  let p ← leaveTable p iter
  let p := p.setSlot idx { iter with ht := 0 }
  if idx + 1 = p.eg.htIteratorsUsed then
    .ok { p with eg := { p.eg with htIteratorsUsed := trimIterators p.eg.htIterators idx } }
  else .ok p

/-- `zend_hash_iterators_remove`: the slots of a table that has some are poisoned. -/
def zendHashIteratorsRemove (eg : ExecutorGlobals) (ht : HashTable K V) : ExecutorGlobals :=
  if ht.nIteratorsCount ≠ 0 then
    { eg with htIterators :=
        (eg.htIterators.take eg.htIteratorsUsed).map (fun iter =>
            if iter.ht = ht.addr then { iter with ht := htPoisonedPtr } else iter) ++
          eg.htIterators.drop eg.htIteratorsUsed }
  else eg

/-- `zend_hash_destroy`, as far as the registry goes: it returns early on a table that was never
initialised. -/
def zendHashDestroy (p : Process K V) (addr : ℕ) : Except RegistryError (Process K V) := do
  let ht ← p.read addr
  let eg := if ht.nNumUsed ≠ 0 then zendHashIteratorsRemove p.eg ht else p.eg
  .ok ⟨update p.tables addr none, eg⟩

/-- `zend_array_destroy`; `ptrDtor` tells whether `pDestructor` is `ZVAL_PTR_DTOR`. -/
def zendArrayDestroy (p : Process K V) (addr : ℕ)
    (ptrDtor : Bool) : Except RegistryError (Process K V) := do
  let ht ← p.read addr
  if ht.nNumUsed ≠ 0 then
    if !ptrDtor then zendHashDestroy p addr
    else .ok ⟨update p.tables addr none, zendHashIteratorsRemove p.eg ht⟩
  else .ok ⟨update p.tables addr none, p.eg⟩

/-! ## Calls and runs -/

/-- The calls. -/
inductive RegistryOp (K V : Type) where
  | init (addr nSize : ℕ)
  | dup (source addr : ℕ) (immutable : Bool)
  | call (addr : ℕ) (op : HashOp K V)
  | iteratorAdd (addr pos : ℕ)
  | iteratorPos (idx addr : ℕ)
  | iteratorDel (idx : ℕ)
  | hashDestroy (addr : ℕ)
  | arrayDestroy (addr : ℕ) (ptrDtor : Bool)

namespace Process

variable (hashVal : K → BitVec 64) (ops : ZvalOps V)

/-- One call. -/
def step [DecidableEq K] (p : Process K V) : RegistryOp K V → Except RegistryError (Process K V)
  | .init addr nSize => do
    let ht ← (zendHashInit addr nSize).mapError .hash
    .ok (p.write addr ht)
  | .dup source addr immutable => do
    let ht ← p.read source
    .ok (p.write addr (zendArrayDup ops immutable addr ht))
  | .call addr op => do
    let ht ← p.read addr
    let (s, _) ← (apply hashVal ⟨p.eg, ht⟩ op).mapError .hash
    .ok ({ p with eg := s.eg }.write addr s.ht)
  | .iteratorAdd addr pos => do
    let ht ← p.read addr
    let s := (zendHashIteratorAdd ⟨p.eg, ht⟩ pos).1
    .ok ({ p with eg := s.eg }.write addr s.ht)
  | .iteratorPos idx addr => (zendHashIteratorPos p idx addr).map Prod.fst
  | .iteratorDel idx => zendHashIteratorDel p idx
  | .hashDestroy addr => zendHashDestroy p addr
  | .arrayDestroy addr ptrDtor => zendArrayDestroy p addr ptrDtor

/-- The handle of an iterator that has not been deleted. -/
def InUse (p : Process K V) (idx : ℕ) : Prop :=
  ∃ iter, p.eg.htIterators[idx]? = some iter ∧ iter.ht ≠ 0

/-- What the callers promise: the allocator hands out free addresses, the functions on a table keep
their contracts, and an iterator is not used after it has been deleted. -/
def Promised (p : Process K V) : RegistryOp K V → Prop
  | .init addr _ | .dup _ addr _ => p.tables addr = none ∧ addr ≠ 0 ∧ addr ≠ htPoisonedPtr
  | .call addr op => ∀ ht, p.tables addr = some ht → HashState.Promised ⟨p.eg, ht⟩ (.call op)
  | .iteratorPos idx addr => p.InUse idx ∧ ∃ ht, p.tables addr = some ht
  | .iteratorDel idx => p.InUse idx
  | _ => True

/-- No slot below `ht_iterators_used` holds the address. -/
def NoSlotOf (p : Process K V) (addr : ℕ) : Prop :=
  ∀ iter ∈ p.eg.htIterators.take p.eg.htIteratorsUsed, iter.ht ≠ addr

/-- A table that is destroyed has used buckets, or no iterator. -/
def Covered (p : Process K V) : RegistryOp K V → Prop
  | .hashDestroy addr | .arrayDestroy addr _ =>
    ∀ ht, p.tables addr = some ht → ht.nNumUsed ≠ 0 ∨ p.NoSlotOf addr
  | _ => True

/-- A process before its first call: `ht_iterators_slots` are cleared. Source: `zend_execute_API.c`
`init_executor`. -/
def initial (slots : ℕ) : Process K V := ⟨fun _ => none, ⟨replicate slots ⟨0, 0⟩, 0⟩⟩

/-- A run whose destructions are covered. -/
inductive Run [DecidableEq K] (slots : ℕ) : Process K V → Prop
  | initial : Run slots (initial slots)
  | step {p p' : Process K V} (h : Run slots p) (op : RegistryOp K V) (hprom : p.Promised op)
      (hcov : p.Covered op) (hstep : p.step hashVal ops op = .ok p') : Run slots p'

end Process

/-! ## Counters and slots -/

/-- The tables that the slots belong to. -/
def ExecutorGlobals.owners (eg : ExecutorGlobals) : List ℕ :=
  eg.htIterators.map HashTableIterator.ht

/-- A table with `n` slots. -/
structure TableOk (addr n : ℕ) (ht : HashTable K V) : Prop where
  addr_eq : ht.addr = addr
  ne_null : addr ≠ 0
  ne_poisoned : addr ≠ htPoisonedPtr
  wf : ht.Wf
  /-- The counter is an `unsigned char`. -/
  count_le : ht.nIteratorsCount ≤ 255
  count : ht.nIteratorsCount = 255 ∨ n ≤ ht.nIteratorsCount

/-- The counters cover the slots. -/
def TablesOk (os : List ℕ) (tables : ℕ → Option (HashTable K V)) : Prop :=
  ∀ addr ht, tables addr = some ht → TableOk addr (os.count addr) ht

variable {n : ℕ}

section counters

variable {os os' : List ℕ} {tables : ℕ → Option (HashTable K V)} {idx addr : ℕ} {ht : HashTable K V}

/-- The counter may be changed as long as it covers the slots or is saturated. -/
lemma TableOk.setCount {n' c : ℕ} (h : TableOk addr n ht) (hle : c ≤ 255) (hc : c = 255 ∨ n' ≤ c) :
    TableOk addr n' { ht with nIteratorsCount := c } :=
  { h with wf := { h.wf with }, count_le := hle, count := hc }

lemma TableOk.of_le {n' : ℕ} (h : TableOk addr n ht) (hle : n' ≤ n) : TableOk addr n' ht :=
  { h with count := h.count.imp_right hle.trans }

section

variable (h : TablesOk os tables)
include h

/-- Slots that leave a table keep its counter large enough. -/
lemma TablesOk.of_count_le (hle : ∀ a, a ≠ 0 → a ≠ htPoisonedPtr →
    os'.count a ≤ os.count a) : TablesOk os' tables := fun a t ha =>
  (h a t ha).of_le (hle a (h a t ha).ne_null (h a t ha).ne_poisoned)

lemma TablesOk.update {t : HashTable K V}
    (hs : ∀ a ≠ addr, a ≠ 0 → os'.count a = os.count a) (ht : TableOk addr (os'.count addr) t) :
    TablesOk os' (update tables addr (some t)) := by
  intro a t' ha
  by_cases hne : a = addr
  · subst hne
    rw [update_self] at ha
    cases ha
    exact ht
  · rw [update_of_ne hne] at ha
    have hok := h a t' ha
    exact hok.of_le (hs a hne hok.ne_null).le

/-- A slot taken for a table raises the table's counter. -/
lemma TablesOk.enter (hi : os[idx]? = some 0) (hr : tables addr = some ht) :
    TablesOk (os.set idx addr) (Function.update tables addr (some (if ht.nIteratorsCount ≠ 255 then
      { ht with nIteratorsCount := ht.nIteratorsCount + 1 } else ht))) := by
  obtain ⟨hlt, hz⟩ := List.getElem?_eq_some_iff.mp hi
  have hok := h addr ht hr
  have hc : ∀ a, a ≠ 0 → (os.set idx addr).count a = os.count a + if addr = a then 1 else 0 := by
    intro a ha
    rw [count_set hlt, hz]
    simp [ha.symm]
  refine h.update (fun a hne ha => ?_) ?_
  · rw [hc a ha, if_neg (Ne.symm hne), Nat.add_zero]
  · rw [hc addr hok.ne_null, if_pos rfl]
    have hle := hok.count_le
    split_ifs with hs
    · exact hok.setCount (by omega) (.inr (Nat.succ_le_succ (hok.count.resolve_left hs)))
    · exact hok.setCount hle (.inl (not_not.mp hs))

/-- A slot given back lowers it, unless it is saturated. -/
lemma TablesOk.leave (hi : os[idx]? = some addr) (hr : tables addr = some ht) :
    TablesOk (os.set idx 0) (Function.update tables addr (some (if ht.nIteratorsCount ≠ 255 then
      { ht with nIteratorsCount := (ht.nIteratorsCount + 255) % 256 } else ht))) := by
  obtain ⟨hlt, hsl⟩ := List.getElem?_eq_some_iff.mp hi
  have hok := h addr ht hr
  have hc : ∀ a, a ≠ 0 → (os.set idx 0).count a = os.count a - if addr = a then 1 else 0 := by
    intro a ha
    rw [count_set hlt, hsl]
    simp [ha.symm]
  refine h.update (fun a hne ha => ?_) ?_
  · rw [hc a ha, if_neg (Ne.symm hne), Nat.sub_zero]
  rw [hc addr hok.ne_null, if_pos rfl]
  have hle := hok.count_le
  split_ifs with hs
  · have hcv := hok.count.resolve_left hs
    exact hok.setCount (by omega) (.inr (by omega))
  · exact hok.setCount hle (.inl (not_not.mp hs))

end

end counters

/-- **The invariant.** -/
structure Process.Ok (p : Process K V) : Prop where
  tables : TablesOk p.eg.owners p.tables
  live : ∀ o ∈ p.eg.owners, o = 0 ∨ o = htPoisonedPtr ∨ ∃ ht, p.tables o = some ht
  /-- What is not in use is free. -/
  free : ∀ i o, p.eg.htIteratorsUsed ≤ i → p.eg.owners[i]? = some o → o = 0

/-! ## What the calls keep -/

section steps

variable {p p' : Process K V} {idx addr : ℕ} {ht : HashTable K V}

variable {eg : ExecutorGlobals}

lemma SameSlots.owners {eg' : ExecutorGlobals} (h : SameSlots eg eg') :
    eg'.owners = eg.owners := h.tables

lemma Process.Ok.write (h : p.Ok) (hs : SameSlots p.eg eg)
    (ht' : TableOk addr (p.eg.owners.count addr) ht) :
    (Process.write { p with eg } addr ht).Ok := by
  refine ⟨?_, fun o ho => ?_, fun i o hi ho => ?_⟩
  · rw [Process.write, hs.owners]
    exact h.tables.update (fun _ _ _ => rfl) ht'
  · rw [Process.write, hs.owners] at ho
    refine (h.live o ho).imp_right (Or.imp_right fun ⟨t, hr⟩ => ?_)
    by_cases hne : o = addr
    · exact ⟨ht, by rw [hne]; exact update_self ..⟩
    · exact ⟨t, (update_of_ne hne ..).trans hr⟩
  · rw [Process.write, hs.owners] at ho
    exact h.free i o (hs.used ▸ hi) ho

/-- A table that was destroyed has no slot left. -/
lemma Process.Ok.count_eq_zero (h : p.Ok) (hnn : p.tables addr = none) (hnl : addr ≠ 0)
    (hps : addr ≠ htPoisonedPtr) : p.eg.owners.count addr = 0 := by
  refine List.count_eq_zero.mpr fun hm => ?_
  rcases h.live addr hm with h0 | hp | ⟨ht, hr⟩
  · exact hnl h0
  · exact hps hp
  · rw [hnn] at hr
    cases hr

lemma Process.Ok.live_set {tables : ℕ → Option (HashTable K V)} {o' : ℕ} (h : p.Ok)
    (hs : ∀ a, (p.tables a).isSome → (tables a).isSome) (ho' : o' = 0 ∨ (tables o').isSome) :
    ∀ o ∈ p.eg.owners.set idx o', o = 0 ∨ o = htPoisonedPtr ∨ ∃ ht, tables o = some ht := by
  simp only [← Option.isSome_iff_exists]
  intro o ho
  rcases mem_or_eq_of_mem_set ho with ho | rfl
  · exact (h.live o ho).imp_right (Or.imp_right fun hr =>
      hs o (Option.isSome_iff_exists.mpr hr))
  · exact ho'.imp_right .inr

variable {iter : HashTableIterator}

lemma owners_getElem (hi : eg.htIterators[idx]? = some iter) : eg.owners[idx]? = some iter.ht := by
  rw [ExecutorGlobals.owners, getElem?_map, hi]
  rfl

lemma slot_eq (hi : p.eg.htIterators[idx]? = some iter) : p.slot idx = .ok iter := by
  rw [Process.slot, hi]

lemma read_eq (hr : p.tables addr = some ht) : p.read addr = .ok ht := by
  rw [Process.read, hr]

lemma owners_setSlot (p : Process K V) (idx : ℕ) (iter : HashTableIterator) :
    (p.setSlot idx iter).eg.owners = p.eg.owners.set idx iter.ht := by
  simp [Process.setSlot, ExecutorGlobals.owners]

/-- A slot leaves its table. The table is there, so its counter can be read. -/
lemma leaveTable_spec (h : p.Ok) (hi : p.eg.htIterators[idx]? = some iter) :
    ∃ p', leaveTable p iter = .ok p' ∧ p'.eg = p.eg ∧ TablesOk (p.eg.owners.set idx 0) p'.tables ∧
      ∀ a, (p'.tables a).isSome = (p.tables a).isSome := by
  have ho := owners_getElem hi
  rw [leaveTable]
  by_cases hr : iter.ht ≠ 0 ∧ iter.ht ≠ htPoisonedPtr
  · obtain ⟨ht, hrd⟩ : ∃ ht, p.tables iter.ht = some ht :=
      ((h.live _ (mem_of_getElem? ho)).resolve_left hr.1).resolve_left hr.2
    have hl := h.tables.leave ho hrd
    have hsm : ∀ t a, (update p.tables iter.ht (some t) a).isSome = (p.tables a).isSome := by
      intro t a
      by_cases hne : a = iter.ht
      · rw [hne, update_self, hrd]
        rfl
      · rw [update_of_ne hne]
    rw [if_pos hr, read_eq hrd]
    split_ifs at hl with hs
    · exact ⟨_, if_pos hs, rfl, hl, hsm _⟩
    · rw [update_eq_self_iff.mpr hrd.symm] at hl
      exact ⟨p, if_neg hs, rfl, hl, fun _ => rfl⟩
  · rw [if_neg hr]
    refine ⟨p, rfl, rfl, h.tables.of_count_le fun a h0 hp => ?_, fun _ => rfl⟩
    obtain ⟨hlt, -⟩ := List.getElem?_eq_some_iff.mp ho
    rw [count_set hlt]
    simp [h0.symm]

/-- Moving an iterator to another table keeps both counters right. -/
lemma zendHashIteratorPos_ok (h : p.Ok) (hid : p.eg.htIterators[idx]? = some iter)
    (hus : iter.ht ≠ 0) (hrd : p.tables addr = some ht) :
    ∃ p' pos, zendHashIteratorPos p idx addr = .ok (p', pos) ∧ p'.Ok := by
  rw [zendHashIteratorPos, slot_eq hid]
  by_cases hiv : iter.pos = htInvalidIdx
  · exact ⟨p, htInvalidIdx, if_pos hiv, h⟩
  by_cases hs : iter.ht ≠ addr
  swap
  · exact ⟨p, iter.pos, (if_neg hiv).trans (if_neg hs), h⟩
  obtain ⟨p1, hl, heg, hta, hsm⟩ := leaveTable_spec h hid
  obtain ⟨ht1, hr⟩ : ∃ ht1, p1.tables addr = some ht1 :=
    Option.isSome_iff_exists.mp (by rw [hsm, hrd]; rfl)
  have how := owners_getElem hid
  obtain ⟨hlt, -⟩ := List.getElem?_eq_some_iff.mp how
  have hen := hta.enter (List.getElem?_set_self hlt) hr
  rw [List.set_set] at hen
  -- the table has been written, or stays as it is when its counter sticks
  obtain ⟨p2, hp2, heg2, htb⟩ : ∃ p2, (if ht1.nIteratorsCount ≠ 255 then
      p1.write addr { ht1 with nIteratorsCount := ht1.nIteratorsCount + 1 } else p1) = p2 ∧
      p2.eg = p.eg ∧ p2.tables = update p1.tables addr (some (if ht1.nIteratorsCount ≠ 255 then
        { ht1 with nIteratorsCount := ht1.nIteratorsCount + 1 } else ht1)) := by
    refine ⟨_, rfl, ?_, ?_⟩
    · split_ifs <;> exact heg
    · split_ifs
      · rfl
      · exact (update_eq_self_iff.mpr hr.symm).symm
  refine ⟨p2.setSlot idx ⟨addr, ht1.nInternalPointer⟩, ht1.nInternalPointer, ?_, ?_, fun o ho => ?_,
    fun i o hi ho => ?_⟩
  · refine (if_neg hiv).trans ((if_pos hs).trans ?_)
    rw [hl]
    change (do let ht ← p1.read addr; _) = _
    rw [read_eq hr, ← hp2]
    rfl
  · rw [owners_setSlot, heg2]
    change TablesOk _ p2.tables
    rw [htb]
    exact hen
  · rw [owners_setSlot, heg2] at ho
    have hol : ∀ a, (p.tables a).isSome → (p2.tables a).isSome := by
      intro a ha
      rw [htb]
      by_cases hne : a = addr
      · simp [hne]
      · rwa [update_of_ne hne, hsm]
    exact h.live_set hol (.inr (hol addr (by rw [hrd]; rfl))) o ho
  rw [owners_setSlot, heg2] at ho
  have hu : p.eg.htIteratorsUsed ≤ i := by
    have hi' : p2.eg.htIteratorsUsed ≤ i := hi
    rwa [heg2] at hi'
  by_cases hi' : i = idx
  · -- a slot in use
    exact absurd (h.free idx _ (hi' ▸ hu) how) hus
  · rw [getElem?_set_ne (Ne.symm hi')] at ho
    exact h.free i o hu ho

/-- The slots above the trimmed end are free. -/
lemma trimIterators_spec (iters : List HashTableIterator) :
    ∀ n, ∀ i, trimIterators iters n ≤ i → i < n →
    iters[i]?.map HashTableIterator.ht = some 0
  | 0, i, _, hi => by omega
  | n + 1, i, hle, hi => by
    rw [trimIterators] at hle
    split_ifs at hle with hf
    · rcases Nat.lt_succ_iff_lt_or_eq.mp hi with hlt | rfl
      · exact trimIterators_spec iters n i hle hlt
      · exact hf
    · omega

/-- Deleting an iterator frees its slot. -/
lemma zendHashIteratorDel_ok (h : p.Ok) (hid : p.eg.htIterators[idx]? = some iter) :
    ∃ p', zendHashIteratorDel p idx = .ok p' ∧ p'.Ok := by
  obtain ⟨p1, hl, heg, htb, hs⟩ := leaveTable_spec h hid
  have how : (p1.setSlot idx { iter with ht := 0 }).eg.owners = p.eg.owners.set idx 0 := by
    rw [owners_setSlot, heg]
  have hf : ∀ i o, p.eg.htIteratorsUsed ≤ i ∨ i = idx →
      (p.eg.owners.set idx 0)[i]? = some o → o = 0 := by
    intro i o hi ho
    by_cases hi' : i = idx
    · rw [hi', getElem?_set] at ho
      simp only [if_true] at ho
      split_ifs at ho
      cases ho
      rfl
    · rw [getElem?_set_ne (Ne.symm hi')] at ho
      exact h.free i o (hi.resolve_right hi') ho
  obtain ⟨used, hdl, hu⟩ : ∃ used,
      zendHashIteratorDel p idx = .ok { p1.setSlot idx { iter with ht := 0 }
      with eg := { (p1.setSlot idx { iter with ht := 0 }).eg with htIteratorsUsed := used } } ∧
      (used = p.eg.htIteratorsUsed ∨ idx + 1 = p.eg.htIteratorsUsed ∧
        used = trimIterators (p1.setSlot idx { iter with ht := 0 }).eg.htIterators idx) := by
    simp only [zendHashIteratorDel, slot_eq hid, hl, bind, Except.bind]
    split_ifs with hls
    · exact ⟨_, rfl, .inr ⟨heg ▸ hls, rfl⟩⟩
    · exact ⟨_, rfl, .inl (congrArg _ heg)⟩
  refine ⟨_, hdl, ?_, ?_, fun i o hi ho => ?_⟩
  · change TablesOk (p1.setSlot idx { iter with ht := 0 }).eg.owners p1.tables
    rw [how]
    exact htb
  · change ∀ o ∈ (p1.setSlot idx { iter with ht := 0 }).eg.owners, _
    rw [how]
    exact h.live_set (fun a ha => hs a ▸ ha) (.inl rfl)
  change (p1.setSlot idx { iter with ht := 0 }).eg.owners[i]? = some o at ho
  by_cases htr : idx + 1 = p.eg.htIteratorsUsed ∧ i < idx ∧
      used = trimIterators (p1.setSlot idx { iter with ht := 0 }).eg.htIterators idx
  · -- a slot that the loop has passed
    have := trimIterators_spec _ idx i (htr.2.2 ▸ hi) htr.2.1
    rw [← getElem?_map] at this
    exact Option.some.inj (ho.symm.trans this)
  · rw [how] at ho
    have hi' : used ≤ i := hi
    exact hf i o (by omega) ho

/-- The slot found is free. -/
lemma findFreeIterator_free :
    ∀ (l : List HashTableIterator) (i n : ℕ), findFreeIterator l i = some n →
    (l.map HashTableIterator.ht)[n - i]? = some 0
  | [], _, _, h => by cases h
  | iter :: l, i, n, h => by
    rw [findFreeIterator] at h
    split_ifs at h with hf
    · cases h
      simp [hf]
    · have hlt := (findFreeIterator_lt l (i + 1) n h).1
      have := findFreeIterator_free l (i + 1) n h
      rw [show n - i = n - (i + 1) + 1 by omega]
      simpa using this

lemma zendHashIteratorAdd_ok (h : p.Ok) (hr : p.tables addr = some ht) (pos : ℕ) :
    (Process.write { p with eg := (zendHashIteratorAdd ⟨p.eg, ht⟩ pos).1.eg } addr
      (zendHashIteratorAdd ⟨p.eg, ht⟩ pos).1.ht).Ok := by
  have had : (if ht.nIteratorsCount ≠ 255 then { ht with nIteratorsCount := ht.nIteratorsCount + 1 }
      else ht).addr = addr := by
    rw [← (h.tables addr ht hr).addr_eq]
    split_ifs <;> rfl
  have hl : ∀ t o, o ∈ p.eg.owners ∨ o = addr ∨ o = 0 →
      o = 0 ∨ o = htPoisonedPtr ∨ ∃ ht', update p.tables addr (some t) o = some ht' := by
    intro t o ho
    by_cases hne : o = addr
    · exact .inr (.inr ⟨t, by rw [hne]; exact update_self ..⟩)
    rcases ho with ho | ho | ho
    · refine (h.live o ho).imp_right (Or.imp_right fun ⟨t', ht'⟩ => ⟨t', ?_⟩)
      rw [update_of_ne hne]
      exact ht'
    · exact absurd ho hne
    · exact .inl ho
  unfold zendHashIteratorAdd
  cases hf : findFreeIterator p.eg.htIterators 0 with
  | some idx =>
    have hz : p.eg.owners[idx]? = some 0 := findFreeIterator_free p.eg.htIterators 0 idx hf
    have how : ∀ pos used, (ExecutorGlobals.mk (p.eg.htIterators.set idx ⟨addr, pos⟩) used).owners =
        p.eg.owners.set idx addr := fun _ _ => by simp [ExecutorGlobals.owners]
    simp only [had]
    refine ⟨?_, fun o ho => ?_, fun i o hi ho => ?_⟩
    · simp only [Process.write, how]
      exact h.tables.enter hz hr
    · simp only [Process.write, how] at ho
      exact hl _ o ((mem_or_eq_of_mem_set ho).imp_right .inl)
    · simp only [Process.write, how] at ho hi
      have hne : idx ≠ i := by split_ifs at hi <;> omega
      rw [getElem?_set_ne hne] at ho
      exact h.free i o (by split_ifs at hi <;> omega) ho
  | none =>
    have how : ∀ pos used, (ExecutorGlobals.mk (p.eg.htIterators ++ ⟨addr, pos⟩ ::
        replicate 7 ⟨0, 0⟩) used).owners = (p.eg.owners ++ replicate 8 0).set
          p.eg.owners.length addr :=
      fun _ _ => by
        simp [ExecutorGlobals.owners]
    have hln : p.eg.owners.length = p.eg.htIterators.length := length_map _
    have hz : (p.eg.owners ++ replicate 8 0)[p.eg.owners.length]? = some 0 := by
      rw [getElem?_append_right le_rfl, Nat.sub_self]
      rfl
    simp only [had]
    refine ⟨?_, fun o ho => ?_, fun i o hi ho => ?_⟩
    · simp only [Process.write, how]
      refine (h.tables.of_count_le fun a h0 _ => ?_).enter hz hr
      simp [h0.symm]
    · simp only [Process.write, how] at ho
      refine hl _ o ?_
      rcases mem_or_eq_of_mem_set ho with ho | ho
      · rcases mem_append.mp ho with ho | ho
        · exact .inl ho
        · exact .inr (.inr (eq_of_mem_replicate ho))
      · exact .inr (.inl ho)
    · simp only [Process.write, how] at ho hi
      rw [getElem?_set_ne (by omega), getElem?_append_right (by omega)] at ho
      exact eq_of_mem_replicate (mem_of_getElem? ho)

/-- Without a slot for the table the registry stays as it is. -/
lemma poison_eq_self {os : List ℕ} (h : addr ∉ os) :
    (os.map fun o => if o = addr then htPoisonedPtr else o) = os := by
  rw [map_congr_left, map_id]
  exact fun o ho => if_neg fun heq : o = addr => h (heq ▸ ho)

/-- **The poisoning.** No slot of the table is left. -/
theorem zendHashIteratorsRemove_owners (h : p.Ok) (hr : p.tables addr = some ht) :
    (zendHashIteratorsRemove p.eg ht).htIteratorsUsed = p.eg.htIteratorsUsed ∧
      (zendHashIteratorsRemove p.eg ht).owners =
        p.eg.owners.map fun o => if o = addr then htPoisonedPtr else o := by
  have hok := h.tables addr ht hr
  unfold zendHashIteratorsRemove
  by_cases hc : ht.nIteratorsCount ≠ 0
  · rw [if_pos hc]
    refine ⟨rfl, ?_⟩
    have hdr : addr ∉ (p.eg.htIterators.drop p.eg.htIteratorsUsed).map HashTableIterator.ht := by
      intro ho
      obtain ⟨i, hi⟩ := mem_iff_getElem?.mp ho
      rw [map_drop, getElem?_drop] at hi
      exact hok.ne_null (h.free _ addr (Nat.le_add_right _ i) hi)
    simp only [ExecutorGlobals.owners, map_append]
    rw [← poison_eq_self hdr, ← take_append_drop p.eg.htIteratorsUsed p.eg.htIterators,
      map_append, map_append]
    simp only [take_append_drop, map_map]
    refine congrArg₂ _ (map_congr_left fun iter _ => ?_) rfl
    simp only [comp_apply, hok.addr_eq]
    split_ifs <;> rfl
  · -- a counter of zero covers no slot
    rw [if_neg hc]
    refine ⟨rfl, ?_⟩
    have hnn : p.eg.owners.count addr = 0 := by
      have := hok.count
      omega
    exact (poison_eq_self (count_eq_zero.mp hnn)).symm

/-- Slots of a destroyed table are poisoned. -/
lemma Process.Ok.destroy (h : p.Ok) (hr : p.tables addr = some ht)
    (hu : eg.htIteratorsUsed = p.eg.htIteratorsUsed)
    (how : eg.owners = p.eg.owners.map fun o => if o = addr then htPoisonedPtr else o) :
    Process.Ok ⟨update p.tables addr none, eg⟩ := by
  have hok := h.tables addr ht hr
  refine ⟨fun a t ha => ?_, fun o ho => ?_, fun i o hi ho => ?_⟩
  · have hne : a ≠ addr := fun heq => by
      rw [heq] at ha
      simp at ha
    simp only [update_of_ne hne] at ha
    refine (h.tables a t ha).of_le ?_
    rw [how, count_eq_countP, countP_map]
    refine countP_mono_left fun o _ ho => ?_
    simp only [comp_apply, beq_iff_eq] at ho ⊢
    split_ifs at ho
    · exact absurd ho.symm (h.tables a t ha).ne_poisoned
    · exact ho
  · rw [how] at ho
    obtain ⟨o', ho', rfl⟩ := mem_map.mp ho
    split_ifs with heq
    · exact .inr (.inl rfl)
    · simp only [update_of_ne heq]
      exact h.live o' ho'
  · simp only [hu] at hi
    simp only [how, getElem?_map] at ho
    obtain ⟨o', ho', rfl⟩ := Option.map_eq_some_iff.mp ho
    rw [h.free i o' hi ho']
    exact if_neg hok.ne_null.symm

lemma zendHashInit_tableOk {nSize : ℕ} (hi : zendHashInit addr nSize = .ok ht) (hnl : addr ≠ 0)
    (hp : addr ≠ htPoisonedPtr) : TableOk addr 0 ht := by
  have hwf := zendHashInit_wf hi
  obtain ⟨n, -, hi⟩ := bind_eq_ok_iff.mp hi
  cases hi
  exact ⟨rfl, hnl, hp, hwf, Nat.zero_le _, .inr le_rfl⟩

/-- A duplicate has the counter of its source, as `zend_array_dup` copies the flags. -/
lemma zendArrayDup_header (ops : ZvalOps V) (immutable : Bool) (hwf : ht.Wf) :
    (zendArrayDup ops immutable addr ht).addr = addr ∧
      (zendArrayDup ops immutable addr ht).nIteratorsCount = ht.nIteratorsCount := by
  have hl := dupElements_loop hwf ops addr
  unfold zendArrayDup
  by_cases h0 : ht.nNumUsed = 0
  · rw [if_pos h0]
    exact ⟨rfl, rfl⟩
  rw [if_neg h0]
  by_cases hi : immutable
  · rw [if_pos hi, rewindPointer_eq]
    exact ⟨rfl, rfl⟩
  split_ifs with hp
  · rw [rewindPointer_eq]
    exact ⟨rfl, rfl⟩
  · simp only
    split_ifs <;> exact ⟨hl.header.addr, hl.header.nIteratorsCount⟩

lemma zendArrayDup_tableOk {source : ℕ} (h : TableOk source n ht) (ops : ZvalOps V)
    (immutable : Bool) (hnl : addr ≠ 0) (hp : addr ≠ htPoisonedPtr) :
    TableOk addr 0 (zendArrayDup ops immutable addr ht) := by
  obtain ⟨ha, hc⟩ : (zendArrayDup ops immutable addr ht).addr = addr ∧ _ :=
    zendArrayDup_header ops immutable h.wf
  exact ⟨ha, hnl, hp, zendArrayDup_wf ops immutable addr h.wf, hc ▸ h.count_le,
    .inr (Nat.zero_le _)⟩

/-- A call that succeeds was made on a table that exists. -/
lemma exists_of_bind_read {β : Type} {f : HashTable K V → Except RegistryError β} {b : β}
    (h : (p.read addr >>= f) = .ok b) : ∃ ht, p.tables addr = some ht ∧ f ht = .ok b := by
  rw [Process.read] at h
  cases hr : p.tables addr with
  | none =>
    rw [hr] at h
    cases h
  | some ht =>
    rw [hr] at h
    exact ⟨ht, rfl, h⟩

lemma Process.Ok.destroyed (h : p.Ok) (hr : p.tables addr = some ht)
    (hc : ht.nNumUsed ≠ 0 ∨ p.NoSlotOf addr)
    (heg : eg = if ht.nNumUsed ≠ 0 then zendHashIteratorsRemove p.eg ht else p.eg) :
    Process.Ok ⟨update p.tables addr none, eg⟩ := by
  by_cases hu : ht.nNumUsed ≠ 0
  · obtain ⟨hs, how⟩ := zendHashIteratorsRemove_owners h hr
    rw [heg, if_pos hu]
    exact h.destroy hr hs how
  rw [heg, if_neg hu]
  refine h.destroy hr rfl (poison_eq_self fun ho => ?_).symm
  obtain ⟨iter, hit, hht⟩ := mem_map.mp ho
  obtain ⟨i, hi⟩ := mem_iff_getElem?.mp hit
  have hlt : i < p.eg.htIteratorsUsed := by
    by_contra hge
    have := h.free i iter.ht (by omega) (owners_getElem hi)
    exact (h.tables addr ht hr).ne_null (hht ▸ this)
  refine hc.resolve_left hu iter (mem_iff_getElem?.mpr ⟨i, ?_⟩) hht
  rw [getElem?_take_of_lt hlt]
  exact hi

variable [DecidableEq K] {hashVal : K → BitVec 64} {ops : ZvalOps V}

/-- The calls on the elements leave the slots alone. -/
lemma HashState.apply_sameRegistry {s s' : HashState K V} {o : Outcome V}
    (hwf : s.ht.Wf) {op : HashOp K V}
    (hpr : s.Promised (.call op)) (hok : s.apply hashVal op = .ok (s', o)) :
    s'.ht.Wf ∧ SameRegistry s s' := by
  cases apply_effect hwf (fun n p het => by subst het; exact hpr) hok with
  | insert _ _ _ hef => exact ⟨hef.wf hwf, hef.sameRegistry hwf⟩
  | delete _ _ hef =>
    cases hef with
    | missing => exact ⟨hwf, .refl s⟩
    | removed _ _ _ hr hw' => exact ⟨hw', hr.sameRegistry⟩
  | clean => exact ⟨zendHashClean_wf hwf, by simp only [zendHashClean]; split_ifs <;> rfl,
      by simp only [zendHashClean]; split_ifs <;> rfl, SameSlots.refl _⟩
  | extend hse => exact ⟨hse.wf hwf, hse.sameRegistry hwf⟩
  | rehash =>
    obtain ⟨hre, hw'⟩ := hwf.rehashed
    exact ⟨hw', hre.header.addr, hre.header.nIteratorsCount, zendHashRehash_sameSlots s⟩

/-- **Every call keeps the registry in order.** -/
lemma Process.step_ok (h : p.Ok) {op : RegistryOp K V} (hpr : p.Promised op) (hc : p.Covered op)
    (hs : p.step hashVal ops op = .ok p') : p'.Ok := by
  cases op with
  | init addr nSize =>
    obtain ⟨hnn, hnl, hp⟩ := hpr
    cases hi : zendHashInit addr nSize with
    | error e =>
      rw [Process.step, hi] at hs
      cases hs
    | ok ht =>
      rw [Process.step, hi] at hs
      cases hs
      refine h.write (SameSlots.refl _) ?_
      rw [h.count_eq_zero hnn hnl hp]
      exact zendHashInit_tableOk hi hnl hp
  | dup source addr immutable =>
    obtain ⟨hnn, hnl, hp⟩ := hpr
    obtain ⟨ht, hrd, hok⟩ := exists_of_bind_read hs
    cases hok
    refine h.write (SameSlots.refl _) ?_
    rw [h.count_eq_zero hnn hnl hp]
    exact zendArrayDup_tableOk (h.tables source ht hrd) ops immutable hnl hp
  | call addr op =>
    obtain ⟨ht, hrd, hok⟩ := exists_of_bind_read hs
    have htb := h.tables addr ht hrd
    cases ha : apply hashVal ⟨p.eg, ht⟩ op with
    | error e =>
      rw [ha] at hok
      cases hok
    | ok r =>
      rw [ha] at hok
      cases hok
      obtain ⟨hwf, hsm⟩ := apply_sameRegistry htb.wf (hpr ht hrd) ha
      refine h.write hsm.slots ⟨hsm.addr.trans htb.addr_eq, htb.ne_null, htb.ne_poisoned, hwf,
        ?_, ?_⟩
      · rw [hsm.nIteratorsCount]
        exact htb.count_le
      · rw [hsm.nIteratorsCount]
        exact htb.count
  | iteratorAdd addr pos =>
    obtain ⟨ht, hrd, hok⟩ := exists_of_bind_read hs
    cases hok
    exact zendHashIteratorAdd_ok h hrd pos
  | iteratorPos idx addr =>
    obtain ⟨⟨iter, hid, hus⟩, ht, hrd⟩ := hpr
    obtain ⟨p1, pos, hok, hp1⟩ := zendHashIteratorPos_ok h hid hus hrd
    rw [Process.step, hok] at hs
    cases hs
    exact hp1
  | iteratorDel idx =>
    obtain ⟨iter, hid, -⟩ := hpr
    obtain ⟨p1, hok, hp1⟩ := zendHashIteratorDel_ok h hid
    rw [Process.step, hok] at hs
    cases hs
    exact hp1
  | hashDestroy addr =>
    obtain ⟨ht, hrd, hok⟩ := exists_of_bind_read hs
    cases hok
    exact h.destroyed hrd (hc ht hrd) rfl
  | arrayDestroy addr ptrDtor =>
    obtain ⟨ht, hrd, hok⟩ := exists_of_bind_read hs
    by_cases hu : ht.nNumUsed ≠ 0
    · split_ifs at hok
      · -- `zend_hash_destroy` is called
        obtain ⟨ht', hr', hok⟩ := exists_of_bind_read hok
        cases hok
        exact h.destroyed hr' (hc ht' hr') rfl
      · cases hok
        exact h.destroyed hrd (hc ht hrd) (if_pos hu).symm
    · rw [if_neg hu] at hok
      cases hok
      exact h.destroyed hrd (hc ht hrd) (if_neg hu).symm

lemma Process.Run.ok {slots : ℕ} (hr : Process.Run hashVal ops slots p) : p.Ok := by
  induction hr with
  | initial =>
    have hz : ∀ o ∈ (Process.initial (K := K) (V := V) slots).eg.owners, o = 0 := by
      intro o ho
      obtain ⟨iter, hit, rfl⟩ := mem_map.mp ho
      rw [eq_of_mem_replicate hit]
    exact ⟨nofun, fun o ho => .inl (hz o ho), fun i o _ ho => hz o (mem_of_getElem? ho)⟩
  | step _ op hpr hc hs ih => exact Process.step_ok ih hpr hc hs

end steps

/-! ## The result -/

section result

variable [DecidableEq K] {hashVal : K → BitVec 64} {ops : ZvalOps V}

/-- **The registry and the death of tables.** In a run in which no table without used buckets is
destroyed while it has an iterator, no slot in use holds an address where no table is, in particular
not that of a table that was destroyed; a slot that names a table finds a counter that is not zero;
and moving and deleting an iterator never touch the memory of a table that is gone. -/
theorem iteratorRegistry_sound {slots : ℕ} {p : Process K V}
    (hrun : Process.Run hashVal ops slots p) :
    (∀ addr, addr ≠ 0 → addr ≠ htPoisonedPtr → p.tables addr = none → p.NoSlotOf addr) ∧
      (∀ addr ht, p.tables addr = some ht → ¬ p.NoSlotOf addr → ht.nIteratorsCount ≠ 0) ∧
      (∀ idx addr, p.Promised (.iteratorPos idx addr) →
        ∃ r, zendHashIteratorPos p idx addr = .ok r) ∧
      ∀ idx, p.Promised (.iteratorDel idx) → ∃ p', zendHashIteratorDel p idx = .ok p' := by
  have h := hrun.ok
  have hm : ∀ addr iter, iter ∈ p.eg.htIterators.take p.eg.htIteratorsUsed → iter.ht = addr →
      addr ∈ p.eg.owners := fun addr iter hi heq =>
    mem_map.mpr ⟨iter, mem_of_mem_take hi, heq⟩
  refine ⟨fun addr hnl hp hnn iter hi heq => ?_, fun addr ht hrd hs h0 => ?_,
    fun idx addr hpr => ?_, fun idx hpr => ?_⟩
  · have hc := h.count_eq_zero hnn hnl hp
    exact count_eq_zero.mp hc (hm addr iter hi heq)
  · have hcv := (h.tables addr ht hrd).count
    have hc : p.eg.owners.count addr = 0 := by omega
    exact hs fun iter hi heq => count_eq_zero.mp hc (hm addr iter hi heq)
  · obtain ⟨⟨iter, hid, hu⟩, ht, hrd⟩ := hpr
    obtain ⟨p', pos, hok, -⟩ := zendHashIteratorPos_ok h hid hu hrd
    exact ⟨_, hok⟩
  · obtain ⟨iter, hid, -⟩ := hpr
    obtain ⟨p', hok, -⟩ := zendHashIteratorDel_ok h hid
    exact ⟨p', hok⟩

end result

/-- An array with an element dies while an iterator is on it. -/
theorem iteratorRegistry_sound_poisoned :
    ∃ p : Process ℕ ℕ, Process.Run (fun _ => 3) unsetZero 16 p ∧ p.tables 4096 = none ∧
      p.eg.htIterators[0]? = some ⟨htPoisonedPtr, 0⟩ ∧ p.NoSlotOf 4096 := by
  obtain ⟨p, hrn, hg, hs⟩ : ∃ p : Process ℕ ℕ, Process.Run (fun _ => 3) unsetZero 16 p ∧
      p.tables 4096 = none ∧ p.eg.htIterators[0]? = some ⟨htPoisonedPtr, 0⟩ :=
    ⟨_, (((Process.Run.initial.step (.init 4096 8) ⟨rfl, by decide, by decide⟩ trivial rfl).step
      (.call 4096 (.indexAdd 0 10)) (fun _ _ => trivial) trivial rfl).step
        (.iteratorAdd 4096 0) trivial
      trivial rfl).step (.arrayDestroy 4096 true) trivial
      (fun ht hr => .inl (by cases hr; decide)) rfl, rfl, rfl⟩
  exact ⟨p, hrn, hg, hs, (iteratorRegistry_sound hrn).1 4096 (by decide) (by decide) hg⟩

/-- **A table that has lost its elements dies with its iterator.** -/
theorem destroy_leaves_slot :
    ∃ p₁ p₂ p₃ p₄ p₅ : Process ℕ ℕ,
      (Process.initial 16).step (fun _ => 3) unsetZero (.init 4096 8) = .ok p₁ ∧
      p₁.step (fun _ => 3) unsetZero (.call 4096 (.indexAdd 0 10)) = .ok p₂ ∧
      p₂.step (fun _ => 3) unsetZero (.iteratorAdd 4096 0) = .ok p₃ ∧
      p₃.step (fun _ => 3) unsetZero (.call 4096 (.indexDel 0)) = .ok p₄ ∧
      p₄.step (fun _ => 3) unsetZero (.arrayDestroy 4096 true) = .ok p₅ ∧
      p₅.tables 4096 = none ∧ p₅.eg.htIteratorsUsed = 1 ∧
      (p₅.eg.htIterators[0]?.map HashTableIterator.ht) = some 4096 ∧
      zendHashIteratorDel p₅ 0 = .error .freed :=
  ⟨_, _, _, _, _, rfl, rfl, rfl, rfl, rfl, rfl, rfl, rfl, rfl⟩

end PhpInternals.Zend.ZendHash

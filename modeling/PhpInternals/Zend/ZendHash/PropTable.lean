import PhpInternals.Zend.ZendHash.DupContents
import PhpInternals.Zend.ZendHash.NumericKey

/-!
# Symbol tables and property tables

Embedding of `zend_symtable_to_proptable` and `zend_proptable_to_symtable` (`Zend/zend_hash.c`). A
symbol table has integer keys and string keys that are not integer-like; a property table has string
keys only.
-/

namespace PhpInternals.Zend.ZendHash

open HashKey Function OrderedTable HashTable List Found OrderedMap ZendOperators

/-! ## Values -/

/-- A value that is no `IS_INDIRECT`. -/
inductive Cell (A : Type) where
  | plain (a : A)
  /-- `IS_REFERENCE`, with its number of owners. -/
  | reference (refcount : ℕ) (a : A)
  deriving DecidableEq, Repr

/-- A value of a table. -/
inductive Slot (A : Type) where
  | cell (c : Cell A)
  /-- `IS_INDIRECT` to a variable, `none` when that is `IS_UNDEF`. -/
  | indirect (var : Option (Cell A))
  deriving DecidableEq, Repr

section values

variable {A : Type}

/-- `ZVAL_DEREF`. -/
def Cell.deref : Cell A → A
  | .plain a => a
  | .reference _ a => a

/-- What a reader finds in a value: `IS_INDIRECT` and references are followed. -/
def Slot.seen : Slot A → Option A
  | .cell c => some c.deref
  | .indirect var => var.map Cell.deref

/-- The value that is stored for `zv`: what a reference with one owner refers to, or the value
itself, with one more owner. Source: `zend_symtable_to_proptable`. -/
def Slot.addref : Slot A → Slot A
  | .cell (.reference refcount a) =>
    if refcount = 1 then .cell (.plain a) else .cell (.reference (refcount + 1) a)
  | zv => zv

/-- What `zend_array_dup_element` asks about a value: as `Slot.addref`, but a reference to the array
that is copied, `isSource`, stays a reference. -/
def Slot.ops (isSource : A → Bool) : ZvalOps (Slot A) where
  indirect
    | .cell _ => none
    | .indirect var => some (var.map .cell)
  copied
    | .cell (.reference refcount a) =>
      if refcount = 1 ∧ isSource a = false then .cell (.plain a)
      else .cell (.reference (refcount + 1) a)
    | zv => zv

/-- Counting a reference changes nothing that can be seen. -/
@[simp] lemma Slot.seen_addref (zv : Slot A) : zv.addref.seen = zv.seen := by
  match zv with
  | .cell (.plain a) => rfl
  | .cell (.reference refcount a) =>
    simp only [Slot.addref]
    split_ifs <;> rfl
  | .indirect var => rfl

@[simp] lemma Slot.seen_copied (isSource : A → Bool) (zv : Slot A) :
    ((Slot.ops isSource).copied zv).seen = zv.seen := by
  match zv with
  | .cell (.plain a) => rfl
  | .cell (.reference refcount a) =>
    simp only [Slot.ops]
    split_ifs <;> rfl
  | .indirect var => rfl

/-- **What `zend_array_dup` keeps of a value shows the same**, and a value that shows nothing is
dropped or shows nothing. -/
theorem Slot.seen_kept (isSource : A → Bool) (immutable packed : Bool) (zv : Slot A) :
    ((Slot.ops isSource).kept immutable packed zv).bind Slot.seen = zv.seen := by
  unfold ZvalOps.kept
  split_ifs with him hp
  · rfl
  · exact Slot.seen_copied isSource zv
  · match zv with
    | .cell c => exact Slot.seen_copied isSource (.cell c)
    | .indirect none => rfl
    | .indirect (some c) => exact Slot.seen_copied isSource (.cell c)

lemma Slot.seen_ne_none_iff (zv : Slot A) : zv.seen ≠ none ↔ zv ≠ .indirect none := by
  cases zv with
  | cell c => simp [Slot.seen]
  | indirect var => cases var <;> simp [Slot.seen]

end values

/-! ## The functions -/

/-- `ZEND_HASH_FOREACH_KEY_VAL`: `n` buckets are left, from `idx` on. -/
def foreachKeyVal {K V S : Type} (body : S → BitVec 64 → Option K → V → Except HashError S)
    (ht : HashTable K V) : (n idx : ℕ) → S → Except HashError S
  | 0, _, s => .ok s
  | n + 1, idx, s =>
    match (ht.arData idx).val with
    | none => foreachKeyVal body ht n (idx + 1) s
    | some zv => do
      let s ← body s (ht.arData idx).h (ht.arData idx).key zv
      foreachKeyVal body ht n (idx + 1) s

/-- Whether the loop in front of `convert` jumps there: some element has a key that `found` asks
for. Source: `zend_symtable_to_proptable`, `zend_proptable_to_symtable`. -/
def HashTable.anyKey {K V : Type} (ht : HashTable K V) (found : Option K → Bool) : Bool :=
  (range ht.nNumUsed).any fun i => (ht.arData i).val.isSome && found (ht.arData i).key

/-- What stands behind `convert`: a new table, of the size of the old one, is filled in a loop.
Source: `zend_symtable_to_proptable`, `zend_proptable_to_symtable`. -/
def convertTable {K V : Type}
    (body : HashState K V → BitVec 64 → Option K → V → Except HashError (HashState K V))
    (eg : ExecutorGlobals) (addr : ℕ) (ht : HashTable K V) : Except HashError (HashTable K V) := do
  let newHt ← zendHashInit addr ht.nNumOfElements
  let s ← foreachKeyVal body ht ht.nNumUsed 0 ⟨eg, newHt⟩
  return s.ht

section functions

variable {A : Type} (hashVal : List UInt8 → BitVec 64)

/-- The body of the loop of `zend_symtable_to_proptable`. -/
def proptableUpdate (s : HashState (List UInt8) (Slot A)) (numKey : BitVec 64)
    (strKey : Option (List UInt8)) (zv : Slot A) :
    Except HashError (HashState (List UInt8) (Slot A)) :=
  (zendHashUpdate hashVal s (strKey.getD (zendLongToStr numKey)) zv.addref).map Prod.fst

/-- Source: `zend_symtable_to_proptable`. -/
def zendSymtableToProptable (eg : ExecutorGlobals) (addr : ℕ)
    (ht : HashTable (List UInt8) (Slot A)) :
    Except HashError (HashTable (List UInt8) (Slot A)) :=
  if ht.packed || ht.anyKey Option.isNone then convertTable (proptableUpdate hashVal) eg addr ht
  else .ok ht

/-- The body of the loop of `zend_proptable_to_symtable`. -/
def symtableUpdate (s : HashState (List UInt8) (Slot A)) (numKey : BitVec 64)
    (strKey : Option (List UInt8)) (zv : Slot A) :
    Except HashError (HashState (List UInt8) (Slot A)) :=
  match strKey with
  | none => (zendHashIndexUpdate s numKey zv.addref).map Prod.fst
  | some key =>
    match zendHandleNumericStr key with
    | some idx => (zendHashIndexUpdate s idx zv.addref).map Prod.fst
    | none => (zendHashUpdate hashVal s key zv.addref).map Prod.fst

/-- Source: `zend_proptable_to_symtable`. -/
def zendProptableToSymtable (isSource : A → Bool) (immutable : Bool)
    (eg : ExecutorGlobals) (addr : ℕ)
    (ht : HashTable (List UInt8) (Slot A)) (alwaysDuplicate : Bool) :
    Except HashError (HashTable (List UInt8) (Slot A)) :=
  if ht.anyKey fun strKey => (strKey.bind zendHandleNumericStr).isSome then
    convertTable (symtableUpdate hashVal) eg addr ht
  else if alwaysDuplicate then .ok (zendArrayDup (Slot.ops isSource) immutable addr ht)
  else .ok ht

end functions

/-! ## Keys -/

namespace HashKey

/-- The key of a property table. -/
def toProp : HashKey (List UInt8) → HashKey (List UInt8)
  | .index h => .str (zendLongToStr h)
  | .str key => .str key

/-- The key of a symbol table. -/
def toSym : HashKey (List UInt8) → HashKey (List UInt8)
  | .index h => .index h
  | .str key => (zendHandleNumericStr key).elim (.str key) .index

/-- A key that a symbol table may have: no integer-like string. -/
def IsSym (k : HashKey (List UInt8)) : Prop := ∀ key, k = .str key → zendHandleNumericStr key = none

/-- A key that a property table may have. -/
def IsStr (k : HashKey (List UInt8)) : Prop := ∃ key, k = .str key

instance : DecidablePred IsSym := fun k =>
  match k with
  | .index _ => isTrue fun _ hkey => nomatch hkey
  | .str key => decidable_of_iff (zendHandleNumericStr key = none)
      ⟨fun h _ hkey => str.inj hkey ▸ h, fun h => h key rfl⟩

lemma isStr_toProp (k : HashKey (List UInt8)) : k.toProp.IsStr := by
  cases k with
  | index h | str key => exact ⟨_, rfl⟩

lemma isSym_toSym (k : HashKey (List UInt8)) : k.toSym.IsSym := by
  intro key hky
  cases k with
  | index h => cases hky
  | str key' =>
    cases hn : zendHandleNumericStr key' with
    | some i => simp [toSym, hn] at hky
    | none =>
      simp only [toSym, hn, Option.elim_none, str.injEq] at hky
      rw [← hky]
      exact hn

variable {k : HashKey (List UInt8)}

lemma toSym_of_isSym (h : k.IsSym) : k.toSym = k := by
  cases k with
  | index h => rfl
  | str key => rw [toSym, h key rfl, Option.elim_none]

lemma toProp_of_isStr (h : k.IsStr) : k.toProp = k := by
  obtain ⟨key, rfl⟩ := h
  rfl

/-- **The conversions of keys undo each other** on the keys of a symtable. -/
lemma toSym_toProp (h : k.IsSym) : k.toProp.toSym = k := by
  cases k with
  | index i => rw [toProp, toSym, zendHandleNumericStr_eq_some_iff.mpr rfl, Option.elim_some]
  | str key => exact toSym_of_isSym h

variable {k' : HashKey (List UInt8)}

lemma toProp_injOn (h : k.IsSym) (h' : k'.IsSym) (heq : k.toProp = k'.toProp) : k = k' := by
  rw [← toSym_toProp h, ← toSym_toProp h', heq]

lemma toSym_injOn (h : k.IsStr) (h' : k'.IsStr) (heq : k.toSym = k'.toSym) : k = k' := by
  obtain ⟨key, rfl⟩ := h
  obtain ⟨key', rfl⟩ := h'
  cases hn : zendHandleNumericStr key with
  | none =>
    cases hn' : zendHandleNumericStr key' with
    | none => simpa [toSym, hn, hn'] using heq
    | some i' => simp [toSym, hn, hn'] at heq
  | some i =>
    cases hn' : zendHandleNumericStr key' with
    | none => simp [toSym, hn, hn'] at heq
    | some i' =>
      obtain rfl : i = i' := by simpa [toSym, hn, hn'] using heq
      rw [zendHandleNumericStr_eq_some_iff.mp hn, zendHandleNumericStr_eq_some_iff.mp hn']

end HashKey

/-! ## The loops -/

section loops

variable {K V : Type} [DecidableEq K] {hashVal : K → BitVec 64} {ht : HashTable K V}
  {t : OrderedTable K V}

variable {s : HashState K V}

/-- `zend_hash_update` stores, or the table cannot grow. -/
lemma Represents.update (hr : Represents hashVal s.ht t) (key : K) (v : V) :
    (zendHashUpdate hashVal s key v).map Prod.fst = .error .overflow ∧
        htMaxSize ≤ s.ht.nTableSize ∨
      ∃ s', (zendHashUpdate hashVal s key v).map Prod.fst = .ok s' ∧
        Represents hashVal s'.ht (t.store (.str key) v) := by
  unfold zendHashUpdate
  rcases zendHashAddOrUpdateI_effect hashVal hr.wf key v hashUpdate with
    ⟨her, hfull⟩ | ⟨s', p, hok, hef⟩
  · exact .inl ⟨by rw [her]; rfl, hfull⟩
  · refine .inr ⟨s', by rw [hok]; rfl, ?_⟩
    exact (hr.insert (fun k hk => by cases hk; rfl) hef nofun).1

lemma Represents.indexUpdate (hr : Represents hashVal s.ht t) (h : BitVec 64)
    (v : V) : (zendHashIndexUpdate s h v).map Prod.fst = .error .overflow ∧
        htMaxSize ≤ s.ht.nTableSize ∨
      ∃ s', (zendHashIndexUpdate s h v).map Prod.fst = .ok s' ∧
        Represents hashVal s'.ht (t.store (.index h) v) := by
  unfold zendHashIndexUpdate
  rcases zendHashIndexAddOrUpdateI_effect hr.wf h v hashUpdate rfl with
    ⟨her, hfull⟩ | ⟨s', p, hok, hef⟩
  · exact .inl ⟨by rw [her]; rfl, hfull⟩
  · refine .inr ⟨s', by rw [hok]; rfl, ?_⟩
    exact (hr.insert (fun k hk => by cases hk) hef nofun).1

/-- One round of a loop stores the element under its converted key. -/
def Stores (hashVal : K → BitVec 64)
    (body : HashState K V → BitVec 64 → Option K → V → Except HashError (HashState K V))
    (conv : HashKey K → HashKey K) (copy : V → V) : Prop :=
  ∀ (s : HashState K V) (t : OrderedTable K V) (h : BitVec 64) (key : Option K) (v : V),
    Represents hashVal s.ht t → body s h key v = .error .overflow ∧ htMaxSize ≤ s.ht.nTableSize ∨
      ∃ s', body s h key v = .ok s' ∧
        Represents hashVal s'.ht (t.store (conv (hashKeyOf h key)) (copy v))

variable {body : HashState K V → BitVec 64 → Option K → V → Except HashError (HashState K V)}
  {conv : HashKey K → HashKey K} {copy : V → V}

/-- The rebuilt table would have to grow beyond `HT_MAX_SIZE`, at once or after `m` rounds. -/
def RebuildFull (body : HashState K V → BitVec 64 → Option K → V → Except HashError (HashState K V))
    (eg : ExecutorGlobals) (addr : ℕ) (ht : HashTable K V) : Prop :=
  htMaxSize ≤ ht.nNumOfElements ∨ ∃ newHt m s', zendHashInit addr ht.nNumOfElements = .ok newHt ∧
    foreachKeyVal body ht m 0 ⟨eg, newHt⟩ = .ok s' ∧ htMaxSize ≤ s'.ht.nTableSize

variable (ht) in
/-- A conversion loop stores every element under its converted key. -/
lemma foreachKeyVal_stores (hb : Stores hashVal body conv copy) :
    ∀ (n idx : ℕ) (s : HashState K V) (t : OrderedTable K V), Represents hashVal s.ht t →
      (foreachKeyVal body ht n idx s = .error .overflow ∧
        ∃ m s', foreachKeyVal body ht m idx s = .ok s' ∧ htMaxSize ≤ s'.ht.nTableSize) ∨
        ∃ s', foreachKeyVal body ht n idx s = .ok s' ∧ Represents hashVal s'.ht
          (t.storeAll (((range' idx n).filterMap ht.entryAt).map fun e => (conv e.1, copy e.2)))
  | 0, _, s, _, hr => .inr ⟨s, rfl, hr⟩
  | n + 1, idx, s, t, hr => by
    rw [range'_succ, foreachKeyVal]
    cases hv : (ht.arData idx).val with
    | none =>
      rw [filterMap_cons_none (entryAt_of_val_none hv)]
      rcases foreachKeyVal_stores hb n (idx + 1) s t hr with ⟨her, m, s', hm, hfull⟩ | hok
      · exact .inl ⟨her, m + 1, s', by rw [foreachKeyVal, hv]; exact hm, hfull⟩
      · exact .inr hok
    | some v =>
      rw [filterMap_cons_some (entryAt_of_val_some hv)]
      simp only
      rcases hb s t (ht.arData idx).h (ht.arData idx).key v hr with ⟨her, hfull⟩ | ⟨s1, hok, hrep1⟩
      · rw [her]
        exact .inl ⟨rfl, 0, s, rfl, hfull⟩
      rw [hok]
      rcases foreachKeyVal_stores hb n (idx + 1) s1 _ hrep1 with ⟨her, m, s', hm, hfull⟩ | hok'
      · refine .inl ⟨her, m + 1, s', ?_, hfull⟩
        rw [foreachKeyVal, hv]
        simp only
        rw [hok]
        exact hm
      · exact .inr hok'

omit [DecidableEq K] in
lemma zendHashInit_error {addr nSize : ℕ} {e : HashError}
    (h : (zendHashInit addr nSize : Except HashError (HashTable K V)) = .error e) :
    e = .overflow ∧ htMaxSize ≤ nSize := by
  unfold zendHashInit zendHashCheckSize at h
  split_ifs at h with h1 h2
  · cases h
  · cases h
    exact ⟨rfl, h2⟩
  · cases h

/-- **A rebuild stores the converted entries in order.** -/
theorem convertTable_represents (hb : Stores hashVal body conv copy)
    (hr : Represents hashVal ht t) (eg : ExecutorGlobals) (addr : ℕ) :
    convertTable body eg addr ht = .error .overflow ∧ RebuildFull body eg addr ht ∨
      ∃ ht', convertTable body eg addr ht = .ok ht' ∧ Represents hashVal ht'
        (empty.storeAll (t.map.entries.map fun e => (conv e.1, copy e.2))) := by
  have hw : (range' 0 ht.nNumUsed).filterMap ht.entryAt = t.map.entries := by
    rw [← gather_eq_filterMap_range', ← hr.walk, walk]
  unfold convertTable
  cases hi : (zendHashInit addr ht.nNumOfElements : Except HashError (HashTable K V)) with
  | error e =>
    obtain ⟨rfl, hfull⟩ := zendHashInit_error hi
    exact .inl ⟨rfl, .inl hfull⟩
  | ok newHt =>
    rcases foreachKeyVal_stores ht hb ht.nNumUsed 0 ⟨eg, newHt⟩ .empty
      (zendHashInit_represents hi) with ⟨her, m, s', hm, hfull⟩ | ⟨s', hok, hr'⟩
    · refine .inl ⟨?_, .inr ⟨newHt, m, s', hi, hm, hfull⟩⟩
      simp [bind, Except.bind, her]
    · rw [hw] at hr'
      refine .inr ⟨s'.ht, ?_, hr'⟩
      simp only [bind, Except.bind, hok]
      rfl

omit [DecidableEq K] in
lemma Represents.anyKey_eq_false (hr : Represents hashVal ht t) {found : Option K → Bool}
    (h : ht.anyKey found = false) {k : HashKey K} (hk : k ∈ t.map.keys) :
    ∃ h key, k = hashKeyOf h key ∧ found key = false := by
  obtain ⟨⟨k, v⟩, hm, rfl⟩ := mem_map.mp hk
  rw [← hr.walk] at hm
  obtain ⟨i, hi, hen⟩ := mem_gather.mp hm
  obtain ⟨w, hw, heq⟩ := Option.map_eq_some_iff.mp hen
  refine ⟨(ht.arData i).h, (ht.arData i).key, (congrArg Prod.fst heq).symm, ?_⟩
  have ha := any_eq_false.mp h i (mem_range.mpr hi)
  simpa [hw] using ha

end loops

/-! ## The conversions -/

section conversions

variable {A : Type}

/-- The entries as a reader sees them. -/
def shown (l : List (HashKey (List UInt8) × Slot A)) : List (HashKey (List UInt8) × Option A) :=
  l.map fun e => (e.1, e.2.seen)

/-- The entries that show a value, with the value. -/
def visible (l : List (HashKey (List UInt8) × Slot A)) : List (HashKey (List UInt8) × A) :=
  l.filterMap (keepEntry Slot.seen)

/-- The entries under other keys. -/
def underKeys (conv : HashKey (List UInt8) → HashKey (List UInt8))
    (l : List (HashKey (List UInt8) × Slot A)) : List (HashKey (List UInt8) × Slot A) :=
  l.map fun e => (conv e.1, e.2)

lemma visible_eq (l : List (HashKey (List UInt8) × Slot A)) :
    visible l = (shown l).filterMap (keepEntry id) := by
  rw [shown, filterMap_map]
  rfl

variable {l l' : List (HashKey (List UInt8) × Slot A)}

lemma visible_congr (h : shown l = shown l') : visible l = visible l' := by
  rw [visible_eq, h, visible_eq]

lemma length_eq_of_shown (h : shown l = shown l') : l.length = l'.length := by
  simpa [shown] using congrArg length h

lemma keys_eq_of_shown (h : shown l = shown l') : l.map Prod.fst = l'.map Prod.fst := by
  simpa [shown, comp_def] using congrArg (map Prod.fst) h

variable {hashVal : List UInt8 → BitVec 64} {ht : HashTable (List UInt8) (Slot A)}
  {t : OrderedTable (List UInt8) (Slot A)}

lemma proptableUpdate_stores :
    Stores hashVal (proptableUpdate hashVal (A := A)) toProp Slot.addref := by
  intro s t h key v hr
  cases key with
  | none | some key => exact hr.update _ _

lemma symtableUpdate_stores :
    Stores hashVal (symtableUpdate hashVal (A := A)) toSym Slot.addref := by
  intro s t h key v hr
  cases key with
  | none => exact hr.indexUpdate _ _
  | some key =>
    rw [symtableUpdate, hashKeyOf, toSym]
    cases zendHandleNumericStr key with
    | none => exact hr.update _ _
    | some idx => exact hr.indexUpdate _ _

/-- With converted keys that differ, the order and the values stay. -/
lemma shown_storeAll (conv : HashKey (List UInt8) → HashKey (List UInt8))
    (hi : ∀ k ∈ t.map.keys, ∀ k' ∈ t.map.keys, conv k = conv k' → k = k') :
    shown (empty.storeAll (t.map.entries.map fun e => (conv e.1, e.2.addref))).map.entries =
      shown (underKeys conv t.map.entries) := by
  have hky : (t.map.entries.map fun e => (conv e.1, e.2.addref)).map Prod.fst =
      t.map.keys.map conv := by
    simp [OrderedMap.keys, map_map]
  rw [entries_storeAll]
  · simp [shown, underKeys, OrderedTable.empty, OrderedMap.empty, map_map]
  · rw [hky]
    exact List.Nodup.map_on (fun k hk k' hk' => hi k hk k' hk') t.map.keys_nodup

/-- **`zend_symtable_to_proptable` of a symbol table** shows the same under the texts of the keys.
-/
theorem zendSymtableToProptable_spec (hr : Represents hashVal ht t)
    (hs : ∀ k ∈ t.map.keys, k.IsSym) (eg : ExecutorGlobals) (addr : ℕ) :
    zendSymtableToProptable hashVal eg addr ht = .error .overflow ∧
        RebuildFull (proptableUpdate hashVal) eg addr ht ∨
      ∃ p tp, zendSymtableToProptable hashVal eg addr ht = .ok p ∧ Represents hashVal p tp ∧
        shown tp.map.entries = shown (underKeys toProp t.map.entries) := by
  unfold zendSymtableToProptable
  split_ifs with hc
  · rcases convertTable_represents proptableUpdate_stores hr eg addr with her | ⟨p, hok, hp⟩
    · exact .inl her
    · exact .inr ⟨p, _, hok, hp, shown_storeAll toProp fun k hk k' hk' =>
        toProp_injOn (hs k hk) (hs k' hk')⟩
  refine .inr ⟨ht, t, rfl, hr, ?_⟩
  simp only [Bool.or_eq_true, not_or, Bool.not_eq_true] at hc
  rw [underKeys, shown, shown, map_map]
  refine map_congr_left fun e he => ?_
  obtain ⟨h, key, hky, hf⟩ := hr.anyKey_eq_false hc.2 (mem_map_of_mem he)
  have hsr : e.1.IsStr := by
    cases key with
    | none => simp at hf
    | some key => exact ⟨key, hky⟩
  rw [comp_apply, toProp_of_isStr hsr]

/-- What a duplicate shows: the elements that show nothing may be left out. -/
lemma zendArrayDup_shown (hr : Represents hashVal ht t) (isSource : A → Bool) (immutable : Bool)
    (addr : ℕ) : ∃ tq, Represents hashVal (zendArrayDup (Slot.ops isSource) immutable addr ht) tq ∧
      visible tq.map.entries = visible t.map.entries ∧
      (tq.map.keys.Sublist t.map.keys) ∧
      ((∀ e ∈ t.map.entries, e.2 ≠ .indirect none) →
      shown tq.map.entries = shown t.map.entries) := by
  obtain ⟨tq, hq⟩ := zendArrayDup_represents hr (Slot.ops isSource) immutable addr
  have hwl := (zendArrayDup_spec hr.wf (Slot.ops isSource) immutable addr).walk
  rw [hq.walk, hr.walk] at hwl
  set keep := (Slot.ops isSource).kept immutable ht.packed with hkp
  have hb : ∀ e : HashKey (List UInt8) × Slot A,
      (keepEntry keep e).bind (keepEntry Slot.seen) = keepEntry Slot.seen e := by
    intro e
    have hs := Slot.seen_kept isSource immutable ht.packed e.2
    rw [← hkp] at hs
    rw [keepEntry, keepEntry, ← hs]
    cases keep e.2 with
    | none | some w => rfl
  refine ⟨tq, hq, ?_, ?_, fun hse => ?_⟩
  · rw [visible, hwl, filterMap_filterMap]
    exact filterMap_congr fun e _ => hb e
  · rw [OrderedMap.keys, hwl]
    exact keepEntry_sublist keep t.map.entries
  rw [hwl, shown, shown, map_filterMap, ← filterMap_eq_map]
  refine filterMap_congr fun e he => ?_
  have hs := Slot.seen_kept isSource immutable ht.packed e.2
  rw [← hkp] at hs
  rw [keepEntry, comp_apply, ← hs]
  cases hk : keep e.2 with
  | none =>
    rw [hk] at hs
    exact absurd hs.symm ((Slot.seen_ne_none_iff e.2).mpr (hse e he))
  | some w => rfl

/-- **What the conversion to a symtable gives**, for every table. -/
lemma zendProptableToSymtable_spec (hr : Represents hashVal ht t) (isSource : A → Bool)
    (immutable : Bool) (eg : ExecutorGlobals) (addr : ℕ) (alwaysDuplicate : Bool) :
    zendProptableToSymtable hashVal isSource immutable eg addr ht alwaysDuplicate =
        .error .overflow ∧ RebuildFull (symtableUpdate hashVal) eg addr ht ∨
      ∃ q tq, zendProptableToSymtable hashVal isSource immutable eg addr ht
          alwaysDuplicate = .ok q ∧
        Represents hashVal q tq ∧ (∀ k ∈ tq.map.keys, k.IsSym) ∧
        ((∀ k ∈ t.map.keys, k.IsStr) →
          visible tq.map.entries = visible (underKeys toSym t.map.entries) ∧
          ((alwaysDuplicate = true → ∀ e ∈ t.map.entries, e.2 ≠ .indirect none) →
            shown tq.map.entries = shown (underKeys toSym t.map.entries))) := by
  unfold zendProptableToSymtable
  by_cases hc : ht.anyKey fun strKey => (strKey.bind zendHandleNumericStr).isSome
  · rw [if_pos hc]
    rcases convertTable_represents symtableUpdate_stores hr eg addr with her | ⟨q, hok, hq⟩
    · exact .inl her
    refine .inr ⟨q, _, hok, hq, fun k hk => ?_, fun hsr => ?_⟩
    · rw [mem_keys_storeAll] at hk
      rcases hk with hk | hk
      · simp [OrderedTable.empty, OrderedMap.empty, OrderedMap.keys] at hk
      · obtain ⟨e, -, rfl⟩ := mem_map.mp (by simpa only [map_map] using hk)
        exact isSym_toSym e.1
    · have hs := shown_storeAll toSym fun k hk k' hk' =>
        toSym_injOn (hsr k hk) (hsr k' hk')
      exact ⟨visible_congr hs, fun _ => hs⟩
  rw [if_neg hc]
  have hsy : ∀ k ∈ t.map.keys, k.IsSym := fun k hk key hke => by
    obtain ⟨h, key', rfl, hf⟩ := hr.anyKey_eq_false (by simpa using hc) hk
    cases key' with
    | none => cases hke
    | some key' =>
      cases hke
      simpa using hf
  have hky : underKeys toSym t.map.entries = t.map.entries := by
    refine (map_congr_left fun e he => ?_).trans (map_id _)
    rw [toSym_of_isSym (hsy e.1 (mem_map_of_mem he))]
    rfl
  rw [hky]
  cases alwaysDuplicate with
  | true =>
    obtain ⟨tq, hq, hv, hsb, hs⟩ := zendArrayDup_shown hr isSource immutable addr
    exact .inr ⟨_, tq, rfl, hq, fun k hk => hsy k (hsb.subset hk),
      fun _ => ⟨hv, fun hse => hs (hse rfl)⟩⟩
  | false => exact .inr ⟨ht, t, rfl, hr, hsy, fun _ => ⟨rfl, fun _ => rfl⟩⟩

lemma shown_underKeys (conv : HashKey (List UInt8) → HashKey (List UInt8))
    (l : List (HashKey (List UInt8) × Slot A)) :
    shown (underKeys conv l) = (shown l).map fun e => (conv e.1, e.2) := by
  simp [shown, underKeys, map_map]

lemma allSet_iff (l : List (HashKey (List UInt8) × Slot A)) :
    (∀ e ∈ l, e.2 ≠ .indirect none) ↔ ∀ e ∈ shown l, e.2 ≠ none := by
  simp only [shown, forall_mem_map, Slot.seen_ne_none_iff]

/-- **Conversions of property tables.** From a symbol table, `zend_symtable_to_proptable` makes a
table with string keys only and as many elements, and `zend_proptable_to_symtable` brings the keys,
values and order back. From any table, `zend_proptable_to_symtable` makes one without integer-like
string keys; when all keys were strings, it has the same values in the same order. Values are
compared as a reader sees them. The numbers of elements are the same, unless the table is duplicated
and has an element that is `IS_INDIRECT` to an unset variable. A function only stops where the
rebuilt table is of `HT_MAX_SIZE`. -/
theorem propTable_conversion (hrep : Represents hashVal ht t) (isSource : A → Bool)
    (immutable : Bool) (eg eg' : ExecutorGlobals) (addr addr' : ℕ) (alwaysDuplicate : Bool) :
    ((∀ k ∈ t.map.keys, k.IsSym) →
      zendSymtableToProptable hashVal eg addr ht = .error .overflow ∧
        RebuildFull (proptableUpdate hashVal) eg addr ht ∨
      ∃ p tp, zendSymtableToProptable hashVal eg addr ht = .ok p ∧ Represents hashVal p tp ∧
        (∀ k ∈ tp.map.keys, k.IsStr) ∧ p.nNumOfElements = ht.nNumOfElements ∧
        (zendProptableToSymtable hashVal isSource immutable eg' addr' p alwaysDuplicate =
            .error .overflow ∧ RebuildFull (symtableUpdate hashVal) eg' addr' p ∨
          ∃ q tq,
            zendProptableToSymtable hashVal isSource immutable eg' addr' p alwaysDuplicate = .ok q ∧
            Represents hashVal q tq ∧ visible tq.map.entries = visible t.map.entries ∧
            ((alwaysDuplicate = true → ∀ e ∈ t.map.entries, e.2 ≠ .indirect none) →
              shown tq.map.entries = shown t.map.entries ∧
                q.nNumOfElements = ht.nNumOfElements))) ∧
      (zendProptableToSymtable hashVal isSource immutable eg' addr' ht alwaysDuplicate =
          .error .overflow ∧ RebuildFull (symtableUpdate hashVal) eg' addr' ht ∨
        ∃ q tq,
          zendProptableToSymtable hashVal isSource immutable eg' addr' ht alwaysDuplicate = .ok q ∧
          Represents hashVal q tq ∧ (∀ k ∈ tq.map.keys, k.IsSym) ∧
          ((∀ k ∈ t.map.keys, k.IsStr) →
            visible tq.map.entries = visible (underKeys toSym t.map.entries) ∧
            ((alwaysDuplicate = true → ∀ e ∈ t.map.entries, e.2 ≠ .indirect none) →
              shown tq.map.entries = shown (underKeys toSym t.map.entries) ∧
                q.nNumOfElements = ht.nNumOfElements))) := by
  constructor
  · intro hsy
    rcases zendSymtableToProptable_spec hrep hsy eg addr with her | ⟨p, tp, hok, hp, hs⟩
    · exact .inl her
    have hsr : ∀ k ∈ tp.map.keys, k.IsStr := by
      intro k hk
      rw [OrderedMap.keys, keys_eq_of_shown hs, underKeys, map_map] at hk
      obtain ⟨e, -, rfl⟩ := mem_map.mp hk
      exact isStr_toProp e.1
    have hb : shown (underKeys toSym tp.map.entries) = shown t.map.entries := by
      rw [shown_underKeys, hs, shown_underKeys, map_map]
      refine (map_congr_left fun e he => ?_).trans (map_id _)
      obtain ⟨e', he', rfl⟩ := mem_map.mp he
      rw [comp_apply, toSym_toProp (hsy e'.1 (mem_map_of_mem he'))]
      rfl
    refine .inr ⟨p, tp, hok, hp, hsr, ?_, ?_⟩
    · rw [hp.numOfElements, hrep.numOfElements, length_eq_of_shown hs, underKeys, length_map]
    rcases zendProptableToSymtable_spec hp isSource immutable eg' addr' alwaysDuplicate with
      her | ⟨q, tq, ho, hq, -, hsm⟩
    · exact .inl her
    obtain ⟨hv, ha⟩ := hsm hsr
    refine .inr ⟨q, tq, ho, hq, hv.trans (visible_congr hb), fun hse => ?_⟩
    have hq' := (ha fun hdp => (allSet_iff _).mpr ?_).trans hb
    · exact ⟨hq', by rw [hq.numOfElements, hrep.numOfElements, length_eq_of_shown hq']⟩
    · rw [hs, shown_underKeys, forall_mem_map]
      exact (allSet_iff _).mp (hse hdp)
  · rcases zendProptableToSymtable_spec hrep isSource immutable eg' addr' alwaysDuplicate with
      her | ⟨q, tq, hok, hq, hsy, hsm⟩
    · exact .inl her
    · refine .inr ⟨q, tq, hok, hq, hsy, fun hsr => ?_⟩
      obtain ⟨hv, ha⟩ := hsm hsr
      refine ⟨hv, fun hse => ⟨ha hse, ?_⟩⟩
      rw [hq.numOfElements, hrep.numOfElements, length_eq_of_shown (ha hse), underKeys, length_map]

end conversions

/-- A symbol table with the keys `5`, `"a"` and `0`; the second value is a reference with one owner.
-/
def sampleSymtable : List (HashOp (List UInt8) (Slot ℕ)) :=
  [.indexAdd 5 (.cell (.plain 7)), .add [0x61] (.cell (.reference 1 8)),
    .indexAdd 0 (.cell (.plain 9))]

/-- A symbol table that goes through both rebuilds. -/
theorem propTable_conversion_sample :
    ∃ (s : HashState (List UInt8) (Slot ℕ)) (p q : HashTable (List UInt8) (Slot ℕ)),
      s.ht.walk = [(.index 5, .cell (.plain 7)), (.str [0x61], .cell (.reference 1 8)),
        (.index 0, .cell (.plain 9))] ∧
      zendSymtableToProptable (fun _ => 3) ⟨[], 0⟩ 8192 s.ht = .ok p ∧
      p.walk = [(.str [0x35], .cell (.plain 7)), (.str [0x61], .cell (.plain 8)),
        (.str [0x30], .cell (.plain 9))] ∧
      zendProptableToSymtable (fun _ => 3) (fun _ => false) false ⟨[], 0⟩ 12288 p true = .ok q ∧
      shown q.walk = shown s.ht.walk := by
  rcases HashState.run_represents (fun _ => 3) (s := ⟨⟨[], 0⟩, _⟩) sampleSymtable
    (zendHashInit_represents (rfl : zendHashInit 4096 8 = .ok _)) (by decide) with
    ⟨her, -⟩ | ⟨s, hok, hrp⟩
  · cases her
  let convert := fun ht : HashTable (List UInt8) (Slot ℕ) =>
    zendSymtableToProptable (fun _ => 3) ⟨[], 0⟩ 8192 ht
  let back := fun ht : HashTable (List UInt8) (Slot ℕ) => (convert ht).bind fun p =>
    zendProptableToSymtable (fun _ => 3) (fun _ => false) false ⟨[], 0⟩ 12288 p true
  let walkOf := fun r : HashState (List UInt8) (Slot ℕ) × List (Outcome (Slot ℕ)) =>
    (convert r.1.ht).map walk
  let countOf := fun r : HashState (List UInt8) (Slot ℕ) × List (Outcome (Slot ℕ)) =>
    (back r.1.ht).map nNumOfElements
  have hw : .ok [(.str [0x35], .cell (.plain 7)), (.str [0x61], .cell (.plain 8)),
      (.str [0x30], .cell (.plain 9))] = (convert s.ht).map walk :=
    Except.ok.inj (congrArg (Except.map walkOf) hok)
  have hc : .ok 3 = (back s.ht).map nNumOfElements :=
    Except.ok.inj (congrArg (Except.map countOf) hok)
  obtain ⟨hcn, -⟩ := propTable_conversion hrp (fun _ => false) false ⟨[], 0⟩ ⟨[], 0⟩ 8192 12288 true
  rcases hcn (by decide) with ⟨her, -⟩ | ⟨p, tp, hp, -, -, -, ⟨her, -⟩ | ⟨q, tq, hq, htq, -, hs⟩⟩
  · rw [show convert s.ht = .error .overflow from her] at hw
    cases hw
  · rw [show back s.ht = .error .overflow by simp only [back, convert, hp, Except.bind, her]] at hc
    cases hc
  · rw [show convert s.ht = .ok p from hp] at hw
    refine ⟨s, p, q, hrp.walk, hp, (Except.ok.inj hw).symm, hq, ?_⟩
    rw [htq.walk, hrp.walk]
    exact (hs fun _ => by decide).1

/-- **A duplicate has fewer elements.** `"a"` is `IS_INDIRECT` to an unset variable; no key is
integer-like, so that `zend_proptable_to_symtable` duplicates the table. -/
theorem propTable_drops_unset :
    ∃ s : HashState (List UInt8) (Slot ℕ), HashState.Reachable (fun _ => 3) s ∧
      s.ht.walk = [(.str [0x61], .indirect none), (.str [0x62], .cell (.plain 7))] ∧
      s.ht.nNumOfElements = 2 ∧
      (zendProptableToSymtable (fun _ => 3) (fun _ => false) false ⟨[], 0⟩ 8192 s.ht true).map
        (fun q => (q.walk, q.nNumOfElements)) = .ok ([(.str [0x62], .cell (.plain 7))], 1) :=
  ⟨_, ((HashState.Reachable.init ⟨[], 0⟩ (rfl : zendHashInit 4096 8 = .ok _)).step
    (.call (.add [0x61] (.indirect none))) trivial rfl).step
      (.call (.add [0x62] (.cell (.plain 7)))) trivial rfl,
    rfl, rfl, rfl⟩

end PhpInternals.Zend.ZendHash

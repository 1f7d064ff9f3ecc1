import PhpInternals.Zend.ZendHash.Represents

/-!
# Refinement: runs of the hash table simulate the ordered map
-/

namespace PhpInternals.Zend.ZendHash

open OrderedTable HashState Found

variable {K V : Type} [DecidableEq K] (hashVal : K → BitVec 64)

/-! ## Calls and runs -/

/-- The result of an insertion function: the value behind its `zval *`. -/
def zvalOutcome (r : Except HashError (HashState K V × Option ℕ)) :
    Except HashError (HashState K V × Outcome V) :=
  r.map fun (s, p) => (s, .zval (p.bind fun p => (s.ht.arData p).val))

/-- One call. -/
def HashState.apply (s : HashState K V) : HashOp K V → Except HashError (HashState K V × Outcome V)
  | .add key v => zvalOutcome (zendHashAdd hashVal s key v)
  | .update key v => zvalOutcome (zendHashUpdate hashVal s key v)
  | .addNew key v => zvalOutcome (zendHashAddNew hashVal s key v)
  | .indexAdd h v => zvalOutcome (zendHashIndexAdd s h v)
  | .indexUpdate h v => zvalOutcome (zendHashIndexUpdate s h v)
  | .nextIndexInsert v => zvalOutcome (zendHashNextIndexInsert s v)
  | .del key => (zendHashDel hashVal s key).map fun (s, r) => (s, .status r)
  | .indexDel h => (zendHashIndexDel s h).map fun (s, r) => (s, .status r)
  | .clean => .ok ({ s with ht := zendHashClean s.ht }, .void)
  | .extend nSize packed => (zendHashExtend s nSize packed).map fun s => (s, .void)
  | .rehash => .ok (zendHashRehash s, .void)

/-- A sequence of calls. -/
def HashState.run (s : HashState K V) :
    List (HashOp K V) → Except HashError (HashState K V × List (Outcome V))
  | [] => .ok (s, [])
  | op :: ops => do
    let (s, o) ← s.apply hashVal op
    let (s, os) ← s.run ops
    return (s, o :: os)

omit [DecidableEq K] in
/-- What the caller of a function promises. -/
def HashState.Legal (s : HashState K V) : HashOp K V → Prop
  | .addNew key _ => ∀ e ∈ s.ht.walk, e.1 ≠ .str key
  | .extend nSize packed => nSize = 0 ∨ s.ht.initialized = false ∨ s.ht.packed = packed
  | .rehash => s.ht.packed = false ∨ s.ht.nNumOfElements = 0
  | _ => True

instance (s : HashState K V) : DecidablePred s.Legal
  | .addNew key _ => inferInstanceAs (Decidable (∀ e ∈ s.ht.walk, e.1 ≠ .str key))
  | .extend nSize packed =>
    inferInstanceAs (Decidable (nSize = 0 ∨ s.ht.initialized = false ∨ s.ht.packed = packed))
  | .rehash => inferInstanceAs (Decidable (s.ht.packed = false ∨ s.ht.nNumOfElements = 0))
  | .add _ _ | .update _ _ | .indexAdd _ _ | .indexUpdate _ _ | .nextIndexInsert _ | .del _
  | .indexDel _ | .clean => inferInstanceAs (Decidable True)

/-- A sequence of calls whose callers keep their promises. -/
def HashState.LegalRun (s : HashState K V) : List (HashOp K V) → Prop
  | [] => True
  | op :: ops => s.Legal op ∧
      match s.apply hashVal op with
      | .ok (s', _) => s'.LegalRun ops
      | .error _ => True

instance HashState.decidableLegalRun (s : HashState K V) : DecidablePred (s.LegalRun hashVal)
  | [] => inferInstanceAs (Decidable True)
  | op :: ops =>
    match h : s.apply hashVal op with
    | .ok (s', o) =>
      let _ := decidableLegalRun s' ops
      decidable_of_iff (s.Legal op ∧ s'.LegalRun hashVal ops) (by rw [HashState.LegalRun, h])
    | .error e => decidable_of_iff (s.Legal op) (by rw [HashState.LegalRun, h]; simp)

/-! ## What a call does -/

omit [DecidableEq K] in
/-- The key that a call inserts. -/
def HashState.insertedKey (s : HashState K V) : HashOp K V → Option (HashKey K)
  | .add key _ | .update key _ | .addNew key _ => some (.str key)
  | .indexAdd h _ | .indexUpdate h _ => some (.index h)
  | .nextIndexInsert _ => some (.index s.ht.nNextFreeElement)
  | _ => none

omit [DecidableEq K] in
/-- The key that a call deletes. -/
def HashOp.deletedKey : HashOp K V → Option (HashKey K)
  | .del key => some (.str key)
  | .indexDel h => some (.index h)
  | _ => none

omit [DecidableEq K] in
/-- What a call that returns has done. -/
inductive CallEffect (s : HashState K V) : HashOp K V → HashState K V → Prop
  | insert {op : HashOp K V} {h : BitVec 64} {key : Option K} {v : V} {flag : HashFlag}
      {s' : HashState K V} {p : Option ℕ} (hop : s.insertedKey op = some (hashKeyOf h key))
      (hkey : ∀ k, key = some k → h = hashVal k)
      (hnew : flag.addNew = true → ∃ k v, op = .addNew k v)
      (heff : InsertEffect s h key v flag s' p) : CallEffect s op s'
  | delete {op : HashOp K V} {h : BitVec 64} {key : Option K} {s' : HashState K V} {b : Bool}
      (hop : op.deletedKey = some (hashKeyOf h key)) (hkey : ∀ k, key = some k → h = hashVal k)
      (heff : DeleteEffect s h key s' b) : CallEffect s op s'
  | clean : CallEffect s .clean { s with ht := zendHashClean s.ht }
  | extend {nSize : ℕ} {packed : Bool} {s' : HashState K V} (hset : Settles s s') :
      CallEffect s (.extend nSize packed) s'
  | rehash : CallEffect s .rehash (zendHashRehash s)

variable {hashVal} in
lemma HashState.apply_effect {s s' : HashState K V} {op : HashOp K V} {o : Outcome V}
    (hwf : s.ht.Wf) (het : ∀ nSize packed, op = .extend nSize packed →
      nSize = 0 ∨ s.ht.initialized = false ∨ s.ht.packed = packed)
    (hok : s.apply hashVal op = .ok (s', o)) : CallEffect hashVal s op s' := by
  have hsr : ∀ key v flag, s.insertedKey op = some (.str key) →
      (flag.addNew = true → ∃ k v, op = .addNew k v) →
      zvalOutcome (zendHashAddOrUpdateI hashVal s key v flag) = .ok (s', o) →
      CallEffect hashVal s op s' := by
    intro key v flag hop hn hok
    obtain ⟨r, hrn, hr⟩ := map_eq_ok_iff.mp hok
    rcases zendHashAddOrUpdateI_effect hashVal hwf key v flag with
      ⟨her, -⟩ | ⟨s1, p, hrun1, hef⟩
    · cases her.symm.trans hrn
    cases hrun1.symm.trans hrn
    cases hr
    refine .insert ?_ (fun k hk => ?_) hn hef
    · exact hop
    · cases hk
      rfl
  have hi : ∀ h v flag, s.insertedKey op = some (.index h) → flag.addNew = false →
      zvalOutcome (zendHashIndexAddOrUpdateI s h v flag) = .ok (s', o) →
      CallEffect hashVal s op s' := by
    intro h v flag hop hf hok
    obtain ⟨r, hrn, hr⟩ := map_eq_ok_iff.mp hok
    rcases zendHashIndexAddOrUpdateI_effect hwf h v flag hf with
      ⟨her, -⟩ | ⟨s1, p, hrun1, hef⟩
    · cases her.symm.trans hrn
    cases hrun1.symm.trans hrn
    cases hr
    refine .insert ?_ (fun k hk => ?_) (fun hn => ?_) hef
    · exact hop
    · cases hk
    · cases hf.symm.trans hn
  cases op with
  | add key v => exact hsr key v hashAdd rfl (fun h => by cases h) hok
  | update key v => exact hsr key v hashUpdate rfl (fun h => by cases h) hok
  | addNew key v => exact hsr key v hashAddNew rfl (fun _ => ⟨key, v, rfl⟩) hok
  | indexAdd h v => exact hi h v hashAdd rfl rfl hok
  | indexUpdate h v => exact hi h v hashUpdate rfl rfl hok
  | nextIndexInsert v => exact hi _ v _ rfl rfl hok
  | del key =>
    obtain ⟨r, hrn, hr⟩ := map_eq_ok_iff.mp hok
    cases hr
    refine .delete ?_ (fun k hk => ?_) (zendHashDel_deleteEffect hwf hrn)
    · rfl
    · cases hk
      rfl
  | indexDel h =>
    obtain ⟨r, hrn, hr⟩ := map_eq_ok_iff.mp hok
    obtain ⟨s1, b, hrun1, hef⟩ := zendHashIndexDel_effect hwf h
    cases hrun1.symm.trans hrn
    cases hr
    refine .delete ?_ (fun k hk => ?_) hef
    · rfl
    · cases hk
  | clean =>
    cases hok
    exact .clean
  | extend nSize packed =>
    obtain ⟨s1, hrn, hr⟩ := map_eq_ok_iff.mp hok
    cases hr
    rcases zendHashExtend_effect hwf nSize packed (het nSize packed rfl) with
      ⟨her, -⟩ | ⟨s2, hrun2, hse⟩
    · cases her.symm.trans hrn
    · cases hrun2.symm.trans hrn
      exact .extend hse
  | rehash =>
    cases hok
    exact .rehash

/-! ## One call -/

section Step

variable {hashVal} {s : HashState K V} {t : OrderedTable K V}

/-- The call would have to grow the table beyond `HT_MAX_SIZE`. -/
def HashState.Exhausted (s : HashState K V) : HashOp K V → Prop
  | .extend nSize _ => htMaxSize ≤ nSize
  | _ => htMaxSize ≤ s.ht.nTableSize

/-- A call that stops with the overflow where the table is `full`, or returns what the map dictates
and represents the map after it. -/
def Simulates (hashVal : K → BitVec 64) (full : Prop)
    (r : Except HashError (HashState K V × Outcome V)) (t : OrderedTable K V × Outcome V) : Prop :=
  r = .error .overflow ∧ full ∨ ∃ s', r = .ok (s', t.2) ∧ Represents hashVal s'.ht t.1

section

variable (hrep : Represents hashVal s.ht t)
include hrep

lemma simulates_insert {h : BitVec 64} {key : Option K}
    {v : V} {flag : HashFlag} (hky : ∀ k, key = some k → h = hashVal k)
    {r : Except HashError (HashState K V × Option ℕ)}
    (hn : flag.addNew = true → hashKeyOf h key ∉ t.map.keys)
    (hef : r = .error .overflow ∧ htMaxSize ≤ s.ht.nTableSize ∨
      ∃ s' p, r = .ok (s', p) ∧ InsertEffect s h key v flag s' p) :
    Simulates hashVal (htMaxSize ≤ s.ht.nTableSize) (zvalOutcome r)
      ((t.insert flag.add (hashKeyOf h key) v).map id .zval) := by
  rcases hef with ⟨rfl, hfull⟩ | ⟨s', p, rfl, hef⟩
  · exact .inl ⟨rfl, hfull⟩
  · obtain ⟨hrp', hrs⟩ := hrep.insert hky hef hn
    refine .inr ⟨s', ?_, hrp'⟩
    simp [zvalOutcome, Except.map, hrs]

lemma simulates_insert_str (key : K) (v : V)
    (flag : HashFlag) (hn : flag.addNew = true → HashKey.str key ∉ t.map.keys) :
    Simulates hashVal (htMaxSize ≤ s.ht.nTableSize)
      (zvalOutcome (zendHashAddOrUpdateI hashVal s key v flag))
      ((t.insert flag.add (.str key) v).map id .zval) :=
  simulates_insert hrep (fun k hk => by cases hk; rfl) hn
    (zendHashAddOrUpdateI_effect hashVal hrep.wf key v flag)

lemma simulates_insert_index (h : BitVec 64) (v : V) (flag : HashFlag) (hf : flag.addNew = false) :
    Simulates hashVal (htMaxSize ≤ s.ht.nTableSize)
      (zvalOutcome (zendHashIndexAddOrUpdateI s h v flag))
      ((t.insert flag.add (.index h) v).map id .zval) :=
  simulates_insert hrep (fun k hk => by cases hk) (fun hn => by rw [hf] at hn; cases hn)
    (zendHashIndexAddOrUpdateI_effect hrep.wf h v flag hf)

lemma simulates_remove (h : BitVec 64) (key : Option K)
    (hky : ∀ k, key = some k → h = hashVal k) {r : Except HashError (HashState K V × Bool)}
    (hef : ∃ s' p, r = .ok (s', p) ∧ DeleteEffect s h key s' p) :
    Simulates hashVal (htMaxSize ≤ s.ht.nTableSize) (r.map fun (s, r) => (s, .status r))
      ((t.remove (hashKeyOf h key)).map id .status) := by
  obtain ⟨s', p, rfl, hef⟩ := hef
  obtain ⟨hrp', hrs⟩ := hrep.remove hky hef
  refine .inr ⟨s', ?_, hrp'⟩
  simp [Except.map, hrs]

lemma zendHashDel_packed (hp : s.ht.packed = true) (key : K) :
    zendHashDel hashVal s key = .ok (s, false) := by
  rw [zendHashDel, hrep.keyed.packed_hash hp]
  rfl

lemma simulates_del (key : K) :
    Simulates hashVal (htMaxSize ≤ s.ht.nTableSize)
      ((zendHashDel hashVal s key).map fun (s, r) => (s, .status r))
      ((t.remove (.str key)).map id .status) := by
  refine simulates_remove hrep (hashVal key) (some key) (fun k hk => by cases hk; rfl) ?_
  by_cases hp : s.ht.packed
  · exact ⟨s, false, zendHashDel_packed hrep hp key, .missing (HashTable.not_holds_str hp _ key)⟩
  · exact zendHashDel_effect hashVal hrep.wf (by simpa using hp) key

end

omit [DecidableEq K] in
lemma zendHashClean_represents (hrep : Represents hashVal s.ht t) :
    Represents hashVal (zendHashClean s.ht) (.empty : OrderedTable K V) := by
  obtain ⟨-, hpc, -, -, hh⟩ := zendHashClean_header s.ht
  have hu : (zendHashClean s.ht).nNumUsed = 0 := rfl
  refine ⟨zendHashClean_wf hrep.wf, ⟨?_, ?_, ?_⟩, rfl, rfl⟩
  · intro i hi
    omega
  · intro _ i hi
    omega
  · intro hp
    rw [hpc] at hp
    rw [hh hp]
    exact hrep.keyed.packed_hash hp

omit [DecidableEq K] in
/-- **`zend_hash_rehash`** of a table that is not packed, or has no element. -/
theorem zendHashRehash_represents (hrep : Represents hashVal s.ht t)
    (hl : s.ht.packed = false ∨ s.ht.nNumOfElements = 0) :
    Represents hashVal (zendHashRehash s).ht t := by
  obtain ⟨hre, hwf⟩ := hrep.wf.rehashed
  refine Represents.rehashed hrep.walk hrep.keyed.str_hash hrep.next hre hwf fun hp => ?_
  rw [hre.header.packed] at hp
  have h0 : s.ht.nNumOfElements = 0 := by simpa [hp] using hl
  have hi : s.ht.initialized = true := by
    by_contra hi
    have := (hrep.wf.uninit (by simpa using hi)).2
    rw [hp] at this
    cases this
  simp [zendHashRehash, h0, hi, HashTable.hashReset]

lemma HashState.apply_represents (hrep : Represents hashVal s.ht t) (op : HashOp K V)
    (hl : s.Legal op) :
    Simulates hashVal (s.Exhausted op) (s.apply hashVal op) (t.apply op) := by
  cases op with
  | add key v => exact simulates_insert_str hrep key v hashAdd (fun h => by cases h)
  | update key v => exact simulates_insert_str hrep key v hashUpdate (fun h => by cases h)
  | addNew key v =>
    refine simulates_insert_str hrep key v hashAddNew fun _ hm => ?_
    obtain ⟨e, he, hek⟩ := List.mem_map.mp hm
    exact hl e (hrep.walk ▸ he) hek
  | indexAdd h v => exact simulates_insert_index hrep h v hashAdd rfl
  | indexUpdate h v => exact simulates_insert_index hrep h v hashUpdate rfl
  | nextIndexInsert v =>
    have hn : BitVec.ofInt 64 t.nextFree = s.ht.nNextFreeElement := by
      rw [← hrep.next, BitVec.ofInt_toInt]
    rw [OrderedTable.apply, hn]
    exact simulates_insert_index hrep _ v _ rfl
  | del key => exact simulates_del hrep key
  | indexDel h =>
    exact simulates_remove hrep h none (fun k hk => by cases hk) (zendHashIndexDel_effect hrep.wf h)
  | clean => exact .inr ⟨_, rfl, zendHashClean_represents hrep⟩
  | extend nSize packed =>
    rcases zendHashExtend_effect hrep.wf nSize packed hl with ⟨her, hfull⟩ | ⟨s', hok, hse⟩
    · refine .inl ⟨?_, hfull⟩
      rw [apply, her]
      rfl
    · refine .inr ⟨s', ?_, hrep.settles hse⟩
      rw [apply, hok]
      rfl
  | rehash => exact .inr ⟨_, rfl, zendHashRehash_represents hrep hl⟩

omit [DecidableEq K] in
lemma zendHashInit_represents {addr nSize : ℕ} {ht : HashTable K V}
    (hit : zendHashInit addr nSize = .ok ht) :
    Represents hashVal ht (.empty : OrderedTable K V) := by
  have hwf := zendHashInit_wf hit
  obtain ⟨n, -, hit⟩ := bind_eq_ok_iff.mp hit
  cases hit
  refine ⟨hwf, ⟨?_, ?_, ?_⟩, rfl, rfl⟩
  · intro i hi
    simp at hi
  · intro hp
    cases hp
  · intro hp
    cases hp

end Step

/-! ## Runs -/

/-- Some call of the run would have to grow the table beyond `HT_MAX_SIZE`. -/
def HashState.ExhaustedRun (s : HashState K V) : List (HashOp K V) → Prop
  | [] => False
  | op :: ops => s.Exhausted op ∨ ∃ s' o, s.apply hashVal op = .ok (s', o) ∧ s'.ExhaustedRun ops

/-- **The run lemma**, from any table that represents a map. -/
theorem HashState.run_represents {s : HashState K V} {t : OrderedTable K V}
    (ops : List (HashOp K V))
    (hrep : Represents hashVal s.ht t) (hl : s.LegalRun hashVal ops) :
    s.run hashVal ops = .error .overflow ∧ s.ExhaustedRun hashVal ops ∨
      ∃ s', s.run hashVal ops = .ok (s', (t.run ops).2) ∧
        Represents hashVal s'.ht (t.run ops).1 := by
  induction ops generalizing s t with
  | nil => exact .inr ⟨s, rfl, hrep⟩
  | cons op ops ih =>
    obtain ⟨hop, hr⟩ := hl
    rcases apply_represents hrep op hop with ⟨her, hfull⟩ | ⟨s1, hok, hrep1⟩
    · refine .inl ⟨?_, .inl hfull⟩
      rw [run, her]
      rfl
    rw [hok] at hr
    rcases ih hrep1 hr with ⟨her, hfull⟩ | ⟨s', ho', hr'⟩
    · refine .inl ⟨?_, .inr ⟨s1, _, hok, hfull⟩⟩
      simp [run, hok, her, bind, Except.bind]
    · refine .inr ⟨s', ?_, hr'⟩
      simp only [run, hok, ho', bind, Except.bind]
      rfl

/-- **The hash table simulates an insertion-ordered map.** Every sequence of legal calls on a fresh
table either stops at a call that would grow it beyond `HT_MAX_SIZE` or returns, call by call, what
the map dictates; afterwards every lookup returns the value last stored, the walk over `arData`
yields the entries in the order of their first insertion, and `nNumOfElements` counts them. -/
theorem zendHash_run_refines (eg : ExecutorGlobals) {addr nSize : ℕ} {ht : HashTable K V}
    (hinit : zendHashInit addr nSize = .ok ht) (ops : List (HashOp K V))
    (hlegal : HashState.LegalRun hashVal ⟨eg, ht⟩ ops) :
    run hashVal ⟨eg, ht⟩ ops = .error .overflow ∧ ExhaustedRun hashVal ⟨eg, ht⟩ ops ∨
      ∃ s t, run hashVal ⟨eg, ht⟩ ops = .ok (s, (empty.run ops).2) ∧
        t = (empty.run ops).1 ∧
        (∀ key, zendHashFind hashVal s.ht key = .ok (t.map.lookup (.str key))) ∧
        (∀ h, zendHashIndexFind s.ht h = .ok (t.map.lookup (.index h))) ∧
        s.ht.walk = t.map.entries ∧
        s.ht.nNumOfElements = t.map.entries.length := by
  rcases run_represents hashVal ops (zendHashInit_represents hinit) hlegal with
    her | ⟨s, hok, hrep⟩
  · exact .inl her
  · exact .inr ⟨s, _, hok, rfl, hrep.find, hrep.indexFind, hrep.walk, hrep.numOfElements⟩

/-- The refinement on a short run: a packed table with a hole becomes a hash table, is compacted,
and an erased key comes back. -/
theorem zendHash_run_refines_short :
    ∃ (ht : HashTable ℕ ℕ) (ops : List (HashOp ℕ ℕ)),
      ops = [.indexAdd 0 10, .indexAdd 2 12, .add 5 1, .indexDel 0, .rehash, .addNew 7 2] ∧
      zendHashInit 4096 8 = .ok ht ∧
      HashState.LegalRun (fun _ => 3) ⟨⟨[], 0⟩, ht⟩ ops ∧
      ∃ s t, run (fun _ => 3) ⟨⟨[], 0⟩, ht⟩ ops = .ok (s, (empty.run ops).2) ∧
        t = (empty.run ops).1 ∧
        (∀ key, zendHashFind (fun _ => 3) s.ht key = .ok (t.map.lookup (.str key))) ∧
        (∀ h, zendHashIndexFind s.ht h = .ok (t.map.lookup (.index h))) ∧
        s.ht.walk = t.map.entries ∧
        s.ht.nNumOfElements = t.map.entries.length := by
  refine ⟨_, _, rfl, rfl, ?_,
    (zendHash_run_refines _ _ (rfl : zendHashInit 4096 8 = _) _ ?_).resolve_left ?_⟩
  · decide
  · decide
  · rintro ⟨her, -⟩
    cases her

/-- `zend_hash_rehash` of a packed table with a hole moves the elements to other indices, where
`zend_hash_index_find` no longer looks: the key `2` is lost although nothing erased it. -/
theorem rehash_packed_loses_key :
    ∃ (ht : HashTable ℕ ℕ) (s : HashState ℕ ℕ) (ops : List (HashOp ℕ ℕ)),
      ops = [.indexAdd 0 10, .indexAdd 2 12, .rehash] ∧
      zendHashInit 4096 8 = .ok ht ∧
      run (fun _ => 3) ⟨⟨[], 0⟩, ht⟩ ops = .ok (s, (empty.run ops).2) ∧
      (empty.run ops).1.map.lookup (.index 2) = some 12 ∧
      zendHashIndexFind s.ht 2 = .ok none :=
  ⟨_, _, _, rfl, rfl, rfl, by decide, rfl⟩

end PhpInternals.Zend.ZendHash

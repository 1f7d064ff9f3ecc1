import PhpInternals.Zend.ZendHash.Cursors

/-!
# Iterators over whole runs
-/

namespace PhpInternals.Zend.ZendHash

open Tracked HashState List Found

variable {K V : Type}

/-! ## Registering an iterator -/

lemma findFreeIterator_lt : ∀ (l : List HashTableIterator) (i idx : ℕ),
    findFreeIterator l i = some idx → i ≤ idx ∧ idx - i < l.length
  | [], _, _, h => by cases h
  | iter :: l, i, idx, h => by
    rw [findFreeIterator] at h
    split_ifs at h
    · cases h
      simp
    · have := findFreeIterator_lt l (i + 1) idx h
      simp only [length_cons]
      omega

lemma ExecutorGlobals.posOf_eq (eg : ExecutorGlobals) (addr n : ℕ) :
    eg.posOf addr n = if n < eg.htIteratorsUsed then
      eg.htIterators[n]?.bind fun iter => if iter.ht = addr then some iter.pos else none
    else none := by
  rw [posOf, getElem?_take]
  split_ifs <;> rfl

section Add

variable {s : HashState K V} (hreg : s.Registered) (pos : ℕ)

include hreg

lemma HashState.Registered.unused {n : ℕ} (hn : s.eg.htIteratorsUsed ≤ n) :
    (s.eg.htIterators[n]?.bind fun iter => if iter.ht = s.ht.addr then some iter.pos else none)
      = none := by
  cases hit : s.eg.htIterators[n]? with
  | none => rfl
  | some iter =>
    have hm : iter ∈ s.eg.htIterators.drop s.eg.htIteratorsUsed := by
      rw [mem_iff_getElem?]
      exact ⟨n - s.eg.htIteratorsUsed, by rw [getElem?_drop, ← hit]; congr 1; omega⟩
    have hne : iter.ht ≠ s.ht.addr := by
      rw [hreg.free iter hm]
      exact hreg.addr_ne.symm
    simp [hne]

/-- **`zend_hash_iterator_add`** adds one position. -/
theorem zendHashIteratorAdd_posOf (n : ℕ) : (zendHashIteratorAdd s pos).1.eg.posOf s.ht.addr n
      = if n = (zendHashIteratorAdd s pos).2 then some pos else s.eg.posOf s.ht.addr n := by
  have ha : ∀ b : Prop, [Decidable b] → ∀ c, (if b then { s.ht with nIteratorsCount := c }
      else s.ht).addr = s.ht.addr := fun b _ c => by split_ifs <;> rfl
  unfold zendHashIteratorAdd
  cases hf : findFreeIterator s.eg.htIterators 0 with
  | some idx =>
    obtain ⟨-, hlt⟩ := findFreeIterator_lt _ _ _ hf
    simp only [ExecutorGlobals.posOf_eq, ha]
    by_cases hn : n = idx
    · subst hn
      have hu : n < (if n + 1 > s.eg.htIteratorsUsed then n + 1 else s.eg.htIteratorsUsed) := by
        split_ifs <;> omega
      rw [if_pos hu, if_pos rfl, getElem?_set_self (by omega)]
      simp
    · rw [if_neg hn, getElem?_set_ne (Ne.symm hn)]
      by_cases hl : n < s.eg.htIteratorsUsed
      · rw [if_pos hl, if_pos (by split_ifs <;> omega)]
      · rw [if_neg hl, hreg.unused (by omega), ite_self]
  | none =>
    simp only [ExecutorGlobals.posOf_eq, ha]
    by_cases hn : n = s.eg.htIterators.length
    · subst hn
      simp
    rw [if_neg hn]
    by_cases hl : n < s.eg.htIteratorsUsed
    · by_cases hln : n < s.eg.htIterators.length
      · rw [if_pos hl, if_pos (by omega), getElem?_append_left hln]
      · rw [if_pos hl, if_neg (by omega), getElem?_eq_none (by omega)]
        rfl
    · rw [if_neg hl]
      by_cases hln : n < s.eg.htIterators.length
      · rw [if_pos (by omega), getElem?_append_left hln]
        exact hreg.unused (by omega)
      · rw [if_neg (by omega)]

omit hreg in
/-- The table after `zend_hash_iterator_add` differs in its iterator count only. -/
lemma zendHashIteratorAdd_ht :
    ∃ c, (zendHashIteratorAdd s pos).1.ht = { s.ht with nIteratorsCount := c } ∧ c ≠ 0 := by
  have hht : (zendHashIteratorAdd s pos).1.ht = if s.ht.nIteratorsCount ≠ 255 then
      { s.ht with nIteratorsCount := s.ht.nIteratorsCount + 1 } else s.ht := by
    unfold zendHashIteratorAdd
    cases findFreeIterator s.eg.htIterators 0 <;> rfl
  rw [hht]
  split_ifs with h
  · exact ⟨_, rfl, by omega⟩
  · exact ⟨s.ht.nIteratorsCount, rfl, by omega⟩

lemma zendHashIteratorAdd_registered : (zendHashIteratorAdd s pos).1.Registered := by
  obtain ⟨c, hht, hc⟩ := zendHashIteratorAdd_ht (s := s) pos
  refine ⟨by rw [hht]; exact hreg.addr_ne, fun h0 => absurd (by rw [hht] at h0; exact h0) hc, ?_⟩
  unfold zendHashIteratorAdd
  cases hf : findFreeIterator s.eg.htIterators 0 with
  | some idx =>
    intro iter hi
    rw [mem_iff_getElem?] at hi
    obtain ⟨n, hn⟩ := hi
    rw [getElem?_drop] at hn
    have hne : idx ≠ (if idx + 1 > s.eg.htIteratorsUsed then idx + 1
        else s.eg.htIteratorsUsed) + n := by
      split_ifs <;> omega
    rw [getElem?_set_ne hne] at hn
    refine hreg.free iter ?_
    rw [mem_iff_getElem?]
    refine ⟨(if idx + 1 > s.eg.htIteratorsUsed then idx + 1 else s.eg.htIteratorsUsed) + n
      - s.eg.htIteratorsUsed, ?_⟩
    rw [getElem?_drop, ← hn]
    congr 1
    split_ifs <;> omega
  | none =>
    intro iter hi
    simp only [drop_append, drop_eq_nil_of_le (Nat.le_succ s.eg.htIterators.length),
      nil_append, Nat.add_sub_cancel_left, drop_succ_cons, drop_zero] at hi
    rw [eq_of_mem_replicate hi]

end Add

/-! ## Calls -/

section Calls

variable [DecidableEq K] {hashVal : K → BitVec 64} {s s' : HashState K V} {t : OrderedTable K V}
  {o : Outcome V}

variable {h : BitVec 64} {key : Option K}

variable {cur : ℕ → Option (HashKey K)}

omit [DecidableEq K] in
lemma Represents.elementAt_of_holds (hr : Represents hashVal s.ht t)
    (hk : ∀ k', key = some k' → h = hashVal k') {p : ℕ} (hp : s.ht.Holds h key p) :
    s.ht.ElementAt (hashKeyOf h key) p :=
  (hr.holds_iff hk p).mp hp

/-- The iterators follow an insertion iff none is left behind by a move. -/
lemma follows_insert_iff (hrp : Represents hashVal s.ht t) {t' : OrderedTable K V}
    (hrp' : Represents hashVal s'.ht t') (hreg : s.Registered) (hfl : Tracked.Follows ⟨s, cur⟩)
    {v : V} {flag : HashFlag} {r : Option ℕ} (hky : ∀ k', key = some k' → h = hashVal k')
    (hnw : flag.addNew = true → hashKeyOf h key ∉ s.ht.walk.map Prod.fst)
    (hef : InsertEffect s h key v flag s' r) :
    Tracked.Follows ⟨s', fun n => cursorAfterInsert s.ht (hashKeyOf h key) (cur n)⟩ ↔
      (ElementMoved s.ht s'.ht → s.NoSplit) := by
  have hpr : ∀ p, s.ht.Holds h key p →
      (fun n => cursorAfterInsert s.ht (hashKeyOf h key) (cur n)) = cur := by
    intro p hp
    funext n
    exact if_neg fun hh =>
      hh.2 (mem_walk_keys_iff.mpr ⟨p, hrp.elementAt_of_holds hky hp⟩)
  cases hef with
  | kept p hp _ =>
    rw [hpr p hp]
    refine ⟨fun _ hm => absurd hm (not_elementMoved hrp fun _ _ hi => .inl hi), fun _ => hfl⟩
  | overwritten _ p hp _ hov _ _ =>
    obtain ⟨hel, hf'⟩ := follows_overwritten hfl hov hp.live.2
    rw [hpr p hp]
    exact ⟨fun _ hm => absurd hm (not_elementMoved hrp' fun k i hi => .inl (hel k i hi)),
      fun _ => hf'⟩
  | appended s1 _ idx ha hse hap _ _ _ =>
    refine follows_appended_iff hrp.wf hrp' hreg hfl ?_ hse
      hap (hreg.congr (hse.sameRegistry hrp.wf))
    rcases ha with ha | hf
    · rw [mem_walk_keys_iff]
      rintro ⟨i, hi⟩
      exact ha i ((hrp.holds_iff hky i).mpr hi)
    · exact hnw hf

lemma follows_delete (hr : Represents hashVal s.ht t) (hreg : s.Registered)
    (hf : Tracked.Follows ⟨s, cur⟩) {b : Bool} (hk : ∀ k', key = some k' → h = hashVal k')
    (hef : DeleteEffect s h key s' b) :
    Tracked.Follows ⟨s', fun n => cursorAfterDelete s.ht (hashKeyOf h key) (cur n)⟩ ∧
      ∀ k' i, s.ht.ElementAt k' i → s'.ht.ElementAt k' i ∨ ∀ j, ¬ s'.ht.ElementAt k' j := by
  cases hef with
  | missing ha =>
    refine ⟨fun n p hp => ?_, fun _ _ hi => .inl hi⟩
    have hsi := hf n p hp
    simp only [cursorAfterDelete] at hsi ⊢
    by_cases hc : cur n = some (hashKeyOf h key)
    · rw [hc] at hsi
      exact absurd ((hr.holds_iff hk p).mpr hsi) (ha p)
    · rw [if_neg hc]
      exact hsi
  | removed _ idx hp hrm _ =>
    exact follows_removed hr hreg hf hp.live.1 hp.live.2 hrm
      (HashTable.ElementAt.key_eq (hr.elementAt_of_holds hk hp))

end Calls

/-! ## Steps -/

section Steps

variable [DecidableEq K] {hashVal : K → BitVec 64} {x x' : Tracked K V}

lemma HashState.moves_iff {s s' : HashState K V} {op : HashOp K V} {o : Outcome V}
    (hok : s.apply hashVal op = .ok (s', o)) : s.Moves hashVal op ↔ ElementMoved s.ht s'.ht := by
  constructor
  · rintro ⟨s1, o1, hok1, hm⟩
    rw [hok] at hok1
    cases hok1
    exact hm
  · intro hm
    exact ⟨s', o, hok, hm⟩

/-- A call on the table, from a state in which the iterators follow. -/
lemma Tracked.step_call (hg : x.Good hashVal) (hfl : x.Follows) (op : HashOp K V)
    (ha : x.Allowed (.call op)) (hok : x.step hashVal (.call op) = .ok x') :
    x'.Good hashVal ∧ (x'.Follows ↔ x.Clear hashVal (.call op)) := by
  obtain ⟨t, hr⟩ := hg.rep
  obtain ⟨hl, hkn⟩ := ha
  obtain ⟨⟨s', o⟩, hc, rfl⟩ := map_eq_ok_iff.mp hok
  obtain ⟨t', hr'⟩ : ∃ t', Represents hashVal s'.ht t' := by
    rcases apply_represents hr op hl with ⟨her, -⟩ | ⟨s1, hok1, hrep1⟩
    · cases her.symm.trans hc
    · cases hok1.symm.trans hc
      exact ⟨_, hrep1⟩
  rw [Tracked.Clear, moves_iff hc]
  cases apply_effect hr.wf (fun n p het => by subst het; exact hl) hc with
  | insert hop hky hnw hef =>
    simp only [cursorAfter, hop]
    refine ⟨⟨⟨t', hr'⟩, hg.registered.congr (hef.sameRegistry hr.wf)⟩,
      follows_insert_iff hr hr' hg.registered hfl hky (fun hf hmm => ?_) hef⟩
    obtain ⟨k, v, rfl⟩ := hnw hf
    obtain ⟨e, he, hek⟩ := mem_map.mp hmm
    exact hl e he (hek.trans (Option.some.inj hop).symm)
  | delete hop hky hef =>
    obtain ⟨hf', hsy⟩ := follows_delete hr hg.registered hfl hky hef
    have hrg' : s'.Registered := by
      cases hef with
      | missing => exact hg.registered
      | removed _ _ _ hrm => exact hg.registered.congr hrm.sameRegistry
    have hi : x.state.insertedKey op = none := by cases op <;> first | rfl | cases hop
    simp only [cursorAfter, hi, hop]
    exact ⟨⟨⟨t', hr'⟩, hrg'⟩, fun _ hm => absurd hm (not_elementMoved hr' hsy), fun _ => hf'⟩
  | clean | extend | rehash =>
    exact absurd hkn (by simp [insertedKey, HashOp.deletedKey])

lemma Tracked.step_delBucket (hg : x.Good hashVal) (hf : x.Follows) (idx : ℕ)
    (ha : x.Allowed (.delBucket idx)) (hok : x.step hashVal (.delBucket idx) = .ok x') :
    x'.Good hashVal ∧ x'.Follows := by
  obtain ⟨t, hr⟩ := hg.rep
  obtain ⟨hi, hl⟩ := ha
  obtain ⟨s', hdl, hrm, hw'⟩ := zendHashDelBucket_effect hr.wf hi hl
  rw [step, hdl] at hok
  cases hok
  have hf' := follows_removed hr hg.registered hf hi hl hrm rfl
  have hat := HashTable.elementAt_of_live hi hl
  have hk := hr.keyed.str_hash idx hi hl
  obtain ⟨hr', -⟩ := hr.remove hk (.removed s' idx ((hr.holds_iff hk idx).mpr hat) hrm hw')
  exact ⟨⟨⟨_, hr'⟩, hg.registered.congr hrm.sameRegistry⟩, hf'.1⟩

omit [DecidableEq K] in
lemma Represents.iteratorsCount {ht : HashTable K V} {t : OrderedTable K V}
    (hr : Represents hashVal ht t) (c : ℕ) :
    Represents hashVal { ht with nIteratorsCount := c } t := by
  obtain ⟨hwf, hk, hw, hn⟩ := hr
  exact ⟨{ hwf with }, { hk with }, hw, hn⟩

lemma Tracked.step_iteratorAdd (hg : x.Good hashVal) (hf : x.Follows) (pos : ℕ)
    (ha : x.Allowed (.iteratorAdd pos)) (hok : x.step hashVal (.iteratorAdd pos) = .ok x') :
    x'.Good hashVal ∧ x'.Follows := by
  obtain ⟨t, hrp⟩ := hg.rep
  obtain ⟨c, hht, -⟩ := zendHashIteratorAdd_ht (s := x.state) pos
  have hps := zendHashIteratorAdd_posOf hg.registered pos
  have hr := zendHashIteratorAdd_registered hg.registered pos
  obtain ⟨s', idx, had⟩ : ∃ s' idx, zendHashIteratorAdd x.state pos = (s', idx) := ⟨_, _, rfl⟩
  rw [step, had] at hok
  cases hok
  rw [had] at hht hps hr
  simp only at hht hps hr
  refine ⟨⟨⟨t, hht ▸ hrp.iteratorsCount c⟩, hr⟩, fun n p hp => ?_⟩
  have hss : ∀ cursor, Sits x.state.ht cursor p → Sits s'.ht cursor p := by
    rintro (_ | k) hsi
    · exact hsi
    · rw [hht]
      exact hsi
  refine hss _ ?_
  simp only [hht] at hp
  rw [hps] at hp
  by_cases hn : n = idx
  · subst hn
    rw [if_pos rfl, Option.some.injEq] at hp
    subst hp
    simp only [Function.update_self]
    rcases ha with rfl | ⟨hu, hl⟩
    · rw [if_pos rfl]
      rfl
    · have hat := HashTable.elementAt_of_live hu hl
      obtain ⟨-, v, hv⟩ := hat
      rw [if_neg (hrp.wf.ne_invalid hu), hv]
      exact ⟨hu, v, hv⟩
  · rw [if_neg hn] at hp
    simp only [Function.update_of_ne hn]
    exact hf n p hp

/-- **The step lemma**: from a state where every iterator follows its cursor, they all do after a
call exactly when the call is clear. -/
theorem Tracked.step_follows_iff (hg : x.Good hashVal) (hf : x.Follows) (op : IterOp K V)
    (ha : x.Allowed op) (hok : x.step hashVal op = .ok x') :
    x'.Good hashVal ∧ (x'.Follows ↔ x.Clear hashVal op) := by
  cases op with
  | call op => exact step_call hg hf op ha hok
  | delBucket idx =>
    obtain ⟨hg', hf'⟩ := step_delBucket hg hf idx ha hok
    exact ⟨hg', fun _ => trivial, fun _ => hf'⟩
  | iteratorAdd pos =>
    obtain ⟨hg', hf'⟩ := step_iteratorAdd hg hf pos ha hok
    exact ⟨hg', fun _ => trivial, fun _ => hf'⟩

end Steps

/-! ## Runs -/

section Runs

variable [DecidableEq K] (hashVal : K → BitVec 64)

/-- A sequence of calls. -/
def Tracked.run (x : Tracked K V) : List (IterOp K V) → Except HashError (Tracked K V)
  | [] => .ok x
  | op :: ops =>
    match x.step hashVal op with
    | .ok y => y.run ops
    | .error e => .error e

/-- Every call of a run is made in a state that meets `P`. -/
def Tracked.EachCall (P : Tracked K V → IterOp K V → Prop) (x : Tracked K V) :
    List (IterOp K V) → Prop
  | [] => True
  | op :: ops => P x op ∧
      match x.step hashVal op with
      | .ok y => y.EachCall P ops
      | .error _ => True

instance Tracked.decidableEachCall (P : Tracked K V → IterOp K V → Prop)
    [∀ x op, Decidable (P x op)] (x : Tracked K V) :
    DecidablePred (x.EachCall hashVal P)
  | [] => inferInstanceAs (Decidable True)
  | op :: ops =>
    match h : x.step hashVal op with
    | .ok y =>
      let _ := decidableEachCall P y ops
      decidable_of_iff (P x op ∧ y.EachCall hashVal P ops) (by rw [Tracked.EachCall, h])
    | .error _ => decidable_of_iff (P x op) (by simp [Tracked.EachCall, h])

instance (x : Tracked K V) : DecidablePred x.Allowed
  | .call _ => inferInstanceAs (Decidable (_ ∧ _))
  | .delBucket _ => inferInstanceAs (Decidable (_ ∧ _))
  | .iteratorAdd _ => inferInstanceAs (Decidable (_ ∨ _))

variable {hashVal}

/-- **Along every run of allowed calls** they stay on their elements. -/
lemma Tracked.run_follows {x y : Tracked K V} (ops : List (IterOp K V)) (hg : x.Good hashVal)
    (hf : x.Follows)
    (hc : x.EachCall hashVal (fun z op => z.Allowed op ∧ z.Clear hashVal op) ops)
    (hrn : x.run hashVal ops = .ok y) : y.Good hashVal ∧ y.Follows := by
  induction ops generalizing x with
  | nil =>
    cases hrn
    exact ⟨hg, hf⟩
  | cons op ops ih =>
    obtain ⟨⟨ha, hcl⟩, hr⟩ := hc
    cases hok : x.step hashVal op with
    | error e =>
      rw [run, hok] at hrn
      cases hrn
    | ok z =>
      rw [hok] at hr
      rw [run, hok] at hrn
      obtain ⟨hg', hi⟩ := step_follows_iff hg hf op ha hok
      exact ih hg' (hi.mpr hcl) hr hrn

/-- **Iterators follow their elements** in every run of clear calls, and the first call that is not
clear leaves one behind. The run may start from any table and any iterators that are where their
cursors are. -/
theorem iterators_follow {x y : Tracked K V} (hgood : x.Good hashVal) (hfol : x.Follows)
    (ops : List (IterOp K V))
    (hcalls : x.EachCall hashVal (fun z op => z.Allowed op ∧ z.Clear hashVal op) ops)
    (hrun : x.run hashVal ops = .ok y) :
    y.Follows ∧ ∀ op y', y.Allowed op → y.step hashVal op = .ok y' →
      (y'.Follows ↔ y.Clear hashVal op) := by
  obtain ⟨hg', hf'⟩ := run_follows ops hgood hfol hcalls hrun
  exact ⟨hf', fun op y' ha hok => (step_follows_iff hg' hf' op ha hok).2⟩

omit [DecidableEq K] in
lemma Tracked.fresh {addr nSize : ℕ} {ht : HashTable K V} (ha : addr ≠ 0)
    (hi : zendHashInit addr nSize = .ok ht) :
    Tracked.Good hashVal ⟨⟨⟨[], 0⟩, ht⟩, fun _ => none⟩ ∧
      Tracked.Follows ⟨⟨⟨[], 0⟩, ht⟩, fun _ => none⟩ := by
  have hnn : ∀ n, (⟨[], 0⟩ : ExecutorGlobals).posOf ht.addr n = none := fun n => by
    rw [ExecutorGlobals.posOf_eq, if_neg n.not_lt_zero]
  refine ⟨⟨⟨_, zendHashInit_represents hi⟩, ?_, fun _ => hnn, nofun⟩, fun n p hp => ?_⟩
  · obtain ⟨size, -, hi⟩ := bind_eq_ok_iff.mp hi
    cases hi
    exact ha
  · rw [hnn] at hp
    cases hp

omit [DecidableEq K] in
lemma HashState.noSplit_of_used_le_one {s : HashState K V} (h : s.eg.htIteratorsUsed ≤ 1) :
    s.NoSplit := by
  intro fh _ n p m q hp hq hlt
  have hz : ∀ {n p}, s.eg.posOf s.ht.addr n = some p → n = 0 := by
    intro n p hp
    rw [ExecutorGlobals.posOf_eq] at hp
    split_ifs at hp
    omega
  obtain rfl := hz hp
  obtain rfl := hz hq
  rw [hp] at hq
  cases hq
  exact .inl hlt

end Runs

lemma Tracked.eachCall_clear_of_used_le_one [DecidableEq K] {hashVal : K → BitVec 64}
    {x : Tracked K V} (ops : List (IterOp K V))
    (h : x.EachCall hashVal (fun z op => z.Allowed op ∧ z.state.eg.htIteratorsUsed ≤ 1) ops) :
    x.EachCall hashVal (fun z op => z.Allowed op ∧ z.Clear hashVal op) ops := by
  induction ops generalizing x with
  | nil => trivial
  | cons op ops ih =>
    obtain ⟨⟨ha, hu⟩, hr⟩ := h
    refine ⟨⟨ha, ?_⟩, ?_⟩
    · cases op with
      | call op => exact fun _ => noSplit_of_used_le_one hu
      | delBucket _ | iteratorAdd _ => trivial
    · cases hok : x.step hashVal op with
      | error e => trivial
      | ok z =>
        rw [hok] at hr
        exact ih hr

lemma exists_ok_and {ε α β : Type} {r : Except ε α} {f : α → β} {b : β} {P : α → Prop}
    (h : r.map f = .ok b) (hP : ∀ a, r = .ok a → f a = b → P a) : ∃ a, r = .ok a ∧ P a := by
  cases r with
  | error e => cases h
  | ok a =>
    cases h
    exact ⟨a, rfl, hP a rfl rfl⟩

/-- An iterator on the last of three elements follows it through the deletion of the one before it
and the compaction that the next insertion causes. -/
theorem iterators_follow_compaction :
    ∃ ht : HashTable ℕ ℕ, zendHashInit 4096 8 = .ok ht ∧
    ∃ x : Tracked ℕ ℕ, x = ⟨⟨⟨[], 0⟩, ht⟩, fun _ => none⟩ ∧
    ∃ ops : List (IterOp ℕ ℕ), ops = [.call (.indexAdd 0 10), .call (.indexAdd 1 11),
        .call (.indexAdd 2 12), .iteratorAdd 2, .call (.indexDel 1), .call (.add 5 1)] ∧
      x.EachCall (fun _ => 3) (fun z op => z.Allowed op ∧ z.Clear (fun _ => 3) op) ops ∧
    ∃ y, x.run (fun _ => 3) ops = .ok y ∧
      (y.state.eg.posOf y.state.ht.addr 0, y.cursor 0) = (some 1, some (.index 2)) ∧
      y.Follows := by
  obtain ⟨hg, hfl⟩ := @Tracked.fresh ℕ ℕ (fun _ => 3) 4096 8 _ (by decide) rfl
  refine ⟨_, rfl, _, rfl, _, rfl, eachCall_clear_of_used_le_one _ (by decide +kernel), ?_⟩
  refine exists_ok_and
    (f := fun y : Tracked ℕ ℕ => (y.state.eg.posOf y.state.ht.addr 0, y.cursor 0))
    (b := (some 1, some (.index 2))) rfl fun y hrn hr => ⟨hr, ?_⟩
  exact (iterators_follow hg hfl _ (eachCall_clear_of_used_le_one _ (by decide +kernel)) hrn).1

/-- With a second iterator before the hole the compaction leaves the iterator behind: its element is
now in bucket 1, but its position is still 2. The search for the next iterator to move starts at
bucket 0 instead of after the hole, finds the first iterator and stays there. -/
theorem rehash_leaves_iterator_behind :
    ∃ ht : HashTable ℕ ℕ, zendHashInit 4096 8 = .ok ht ∧
    ∃ x : Tracked ℕ ℕ, x = ⟨⟨⟨[], 0⟩, ht⟩, fun _ => none⟩ ∧ x.Good (fun _ => 3) ∧ x.Follows ∧
    ∃ ops : List (IterOp ℕ ℕ), ops = [.call (.indexAdd 0 10), .call (.indexAdd 1 11),
        .call (.indexAdd 2 12), .iteratorAdd 0, .iteratorAdd 2, .call (.indexDel 1),
        .call (.add 5 1)] ∧
      x.EachCall (fun _ => 3) (fun z op => z.Allowed op) ops ∧
    ∃ y, x.run (fun _ => 3) ops = .ok y ∧
      (y.state.eg.posOf y.state.ht.addr 1, y.cursor 1) = (some 2, some (.index 2)) ∧
      (y.state.ht.entryAt 1, y.state.ht.entryAt 2) = (some (.index 2, 12), some (.str 5, 1)) ∧
      ¬ y.Follows := by
  obtain ⟨hg, hfl⟩ := @Tracked.fresh ℕ ℕ (fun _ => 3) 4096 8 _ (by decide) rfl
  refine ⟨_, rfl, _, rfl, hg, hfl, _, rfl, by decide +kernel, ?_⟩
  refine exists_ok_and
    (f := fun y : Tracked ℕ ℕ => ((y.state.eg.posOf y.state.ht.addr 1, y.cursor 1),
      (y.state.ht.entryAt 1, y.state.ht.entryAt 2)))
    (b := ((some 2, some (.index 2)), (some (.index 2, 12), some (.str 5, 1))))
    rfl fun y _ hr => ?_
  simp only [Prod.mk.injEq] at hr
  obtain ⟨⟨hp, hc⟩, hon, htw⟩ := hr
  refine ⟨by rw [hp, hc], by rw [hon, htw], fun hf => ?_⟩
  have hsi := hf 1 2 hp
  rw [hc] at hsi
  obtain ⟨-, v, hv⟩ := hsi
  rw [htw] at hv
  cases hv

end PhpInternals.Zend.ZendHash

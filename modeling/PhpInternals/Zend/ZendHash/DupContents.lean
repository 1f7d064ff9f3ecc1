import PhpInternals.Zend.ZendHash.ArrayDup
import PhpInternals.Zend.ZendHash.InternalPointer

/-!
# What `zend_array_dup` copies
-/

namespace PhpInternals.Zend.ZendHash

open HashTable Option Nat Found CursorList OrderedMap

variable {K V : Type}

variable {t : OrderedTable K V}

/-! ## Reachable tables -/

namespace HashState

variable [DecidableEq K] (hashVal : K → BitVec 64)

omit [DecidableEq K] in
/-- What the callers promise. -/
def Admissible (s : HashState K V) : PointerOp K V → Prop
  | .call op => s.Legal op
  | op => s.Promised op

/-- The states that calls reach from `zend_hash_init`. -/
inductive Reachable : HashState K V → Prop
  | init (eg : ExecutorGlobals) {addr nSize : ℕ} {ht : HashTable K V}
      (hinit : zendHashInit addr nSize = .ok ht) : Reachable ⟨eg, ht⟩
  | step {s s' : HashState K V} (h : Reachable s) (op : PointerOp K V) (hadm : s.Admissible op)
      (hstep : s.pointerStep hashVal op = .ok s') : Reachable s'

variable {hashVal} {s s' : HashState K V}

omit [DecidableEq K] in
lemma Admissible.promised {op : PointerOp K V} (h : s.Admissible op) : s.Promised op := by
  cases op with
  | call op =>
    cases op with
    | extend nSize packed => exact h
    | _ => trivial
  | _ => exact h

omit [DecidableEq K] in
lemma represents_setPointer (hr : Represents hashVal s.ht t) (pos : ℕ) :
    Represents hashVal (s.setPointer pos).ht t :=
  ⟨hr.wf.setPointer pos, ⟨hr.keyed.str_hash, hr.keyed.packed_index, hr.keyed.packed_hash⟩,
    hr.walk, hr.next⟩

/-- Every call on the source keeps what it represents. -/
lemma pointerStep_represents (hr : Represents hashVal s.ht t) {op : PointerOp K V}
    (ha : s.Admissible op) (hsp : s.pointerStep hashVal op = .ok s') :
    ∃ t', Represents hashVal s'.ht t' := by
  cases op with
  | call op =>
    rcases HashState.apply_represents hr op ha with ⟨her, -⟩ | ⟨s1, hok, hr'⟩
    · rw [pointerStep, her] at hsp
      cases hsp
    · rw [pointerStep, hok] at hsp
      cases hsp
      exact ⟨_, hr'⟩
  | packedToHash =>
    cases hsp
    exact ⟨t, hr.silent (zendHashPackedToHash_silent hr.wf ha).1⟩
  | doResize => exact ⟨t, hr.silent (zendHashDoResize_silent hr.wf ha.1 ha.2 hsp)⟩
  | internalPointerReset | internalPointerEnd | moveForward | moveBackwards =>
    cases hsp
    exact ⟨t, represents_setPointer hr _⟩

/-- **Reachable tables represent a map, and their pointer is in order.** -/
theorem Reachable.represents (h : Reachable hashVal s) :
    (∃ t, Represents hashVal s.ht t) ∧ s.ht.PointerOk := by
  induction h with
  | init eg hi => exact ⟨⟨_, zendHashInit_represents hi⟩, zendHashInit_pointerOk hi⟩
  | step _ op ha hsp ih =>
    obtain ⟨⟨t, hr⟩, hok⟩ := ih
    exact ⟨pointerStep_represents hr ha hsp,
      (HashState.pointerStep_moves hr.wf hok ha.promised hsp).2.1⟩

end HashState

/-! ## What is kept -/

/-- The value that the duplicate has for a value of the source. Source: `zend_hash.c`
`zend_array_dup`. -/
def ZvalOps.kept (ops : ZvalOps V) (immutable packed : Bool) (v : V) : Option V :=
  if immutable then some v else if packed then some (ops.copied v)
    else (ops.follow v).map ops.copied

/-- A current element that is not kept has an index below the number of entries that are. -/
def CurrentBelow (keep : V → Option V) (source : HashTable K V) : Prop :=
  ∀ v, source.nInternalPointer ≠ htInvalidIdx →
    (source.arData source.nInternalPointer).val = some v → keep v = none →
      source.nInternalPointer < (source.walk.filterMap (keepEntry keep)).length

/-- The contents and the pointer of a duplicate. -/
structure DupSpec (keep : V → Option V) (source dup : HashTable K V) : Prop where
  walk : dup.walk = source.walk.filterMap (keepEntry keep)
  /-- Every live bucket comes from one of the source. -/
  origin : ∀ j < dup.nNumUsed, dup.live j → ∃ i < source.nNumUsed, source.live i ∧
    (dup.arData j).h = (source.arData i).h ∧ (dup.arData j).key = (source.arData i).key ∧
      (dup.packed = true → i = j)
  packed : dup.packed = true → source.packed = true ∧
    (dup.hash = source.hash ∨ ∀ i, dup.hash i = htInvalidIdx)
  next : source.nNumUsed ≠ 0 → dup.nNextFreeElement = source.nNextFreeElement
  image : ∀ v w, source.nInternalPointer < source.nNumUsed →
    (source.arData source.nInternalPointer).val = some v → keep v = some w →
      dup.nInternalPointer < dup.nNumUsed ∧ dup.entryAt dup.nInternalPointer =
        some (hashKeyOf (source.arData source.nInternalPointer).h
          (source.arData source.nInternalPointer).key, w)
  /-- The index of a current element that is dropped is kept; there are no holes then. -/
  dropped : ∀ v, source.nInternalPointer < source.nNumUsed →
    (source.arData source.nInternalPointer).val = some v → keep v = none →
      dup.nInternalPointer = source.nInternalPointer ∧ dup.nNumUsed = dup.nNumOfElements
  rewound : source.nInternalPointer = htInvalidIdx →
    dup.PointerOk ∧ (dup.nNumOfElements ≠ 0 → dup.nInternalPointer ≠ htInvalidIdx)

section branches

variable {source : HashTable K V} (hwf : source.Wf)

include hwf

lemma rewindPointer_pointer (hiv : source.nInternalPointer = htInvalidIdx) :
    (rewindPointer source).PointerOk ∧ ((rewindPointer source).nNumOfElements ≠ 0 →
      (rewindPointer source).nInternalPointer ≠ htInvalidIdx) := by
  have hf := isFrom_nextLive hwf (zero_le source.nNumUsed)
  unfold rewindPointer
  by_cases hp : source.nNumOfElements > 0
  · rw [if_pos ⟨hp, hiv⟩]
    rw [Nat.sub_zero] at hf
    refine ⟨pointerOk_iff.mpr hf.posOk, fun _ heq => ?_⟩
    simp only at heq
    rw [heq] at hf
    have hc : count source.live source.nNumUsed = count source.live 0 :=
      count_eq_of_gap (zero_le _) fun i h1 h2 hl => by
        have := (source.entryAt_isSome i).mpr hl
        rw [hf i h1 h2] at this
        cases this
    rw [count_zero, ← hwf.count] at hc
    omega
  · rw [if_neg fun h => hp h.1]
    exact ⟨.inl hiv, fun hne => by omega⟩

omit hwf in
lemma rewindPointer_of_ne (hne : source.nInternalPointer ≠ htInvalidIdx) :
    rewindPointer source = source :=
  if_neg fun h => hne h.2

omit hwf in
lemma rewindPointer_eq (ht : HashTable K V) :
    rewindPointer ht = { ht with nInternalPointer := (rewindPointer ht).nInternalPointer } := by
  unfold rewindPointer
  split_ifs <;> rfl

lemma rewindPointer_dupSpec {keep : V → V} {target : HashTable K V} (hwf' : target.Wf)
    (hu : target.nNumUsed = source.nNumUsed)
    (hn : target.nNextFreeElement = source.nNextFreeElement)
    (hp : target.nInternalPointer = source.nInternalPointer)
    (hvl : ∀ i < source.nNumUsed, (target.arData i).val = (source.arData i).val.map keep)
    (hky : ∀ i < source.nNumUsed, source.live i →
      (target.arData i).h = (source.arData i).h ∧ (target.arData i).key = (source.arData i).key)
    (hpc : target.packed = true → source.packed = true ∧
      (target.hash = source.hash ∨ ∀ i, target.hash i = htInvalidIdx)) :
    DupSpec (fun v => some (keep v)) source (rewindPointer target) := by
  have hen : ∀ i < source.nNumUsed, target.entryAt i =
      (source.entryAt i).bind (keepEntry fun v => some (keep v)) := fun i hi => by
    rw [entryAt, entryAt, hvl i hi]
    cases hv : (source.arData i).val with
    | none => rfl
    | some v =>
      obtain ⟨hh, hk⟩ := hky i hi (by rw [live, hv]; rfl)
      rw [hh, hk]
      rfl
  have heq := rewindPointer_eq target
  refine ⟨?_, ?_, ?_, fun _ => ?_, fun v w hlt hv hw => ?_, fun v _ _ hw => (by cases hw),
    fun hiv => ?_⟩
  · rw [heq]
    rw [hu]
    exact gather_bind _ hen
  · rw [heq]
    intro j hj hl
    rw [hu] at hj
    change (target.arData j).val.isSome = true at hl
    rw [hvl j hj, isSome_map] at hl
    obtain ⟨hh, hk⟩ := hky j hj hl
    exact ⟨j, hj, hl, hh, hk, fun _ => rfl⟩
  · rw [heq]
    exact hpc
  · rw [heq]
    exact hn
  · have hne : target.nInternalPointer ≠ htInvalidIdx := hp ▸ hwf.ne_invalid hlt
    rw [rewindPointer_of_ne hne, hp, hu, hen _ hlt]
    refine ⟨hlt, ?_⟩
    rw [entryAt, hv]
    cases hw
    rfl
  · exact rewindPointer_pointer hwf' (hp.trans hiv)

/-- The buckets of a packed copy. A bucket that is not copied keeps no key. -/
lemma dupPackedElements_eq (ops : ZvalOps V) (hp : source.packed = true) {i : ℕ}
    (hi : i < source.nNumUsed) :
    let b := dupPackedElements ops (!source.isWithoutHoles) source i
    b.val = (source.arData i).val.map ops.copied ∧
      (source.live i → b.h = (source.arData i).h ∧ b.key = (source.arData i).key) := by
  simp only
  rw [dupPackedElements, if_pos hi, live, hwf.packed_key hp i]
  cases hh : source.isWithoutHoles with
  | true => exact ⟨rfl, fun _ => ⟨rfl, rfl⟩⟩
  | false =>
    cases hv : (source.arData i).val with
    | none => exact ⟨rfl, fun hl => by cases hl⟩
    | some v => exact ⟨rfl, fun _ => ⟨rfl, rfl⟩⟩

lemma dupData_hashed (ops : ZvalOps V) {i : ℕ} (hi : i < source.nNumUsed) :
    dupData ops false (!source.isWithoutHoles) (source.arData i).val =
      ((source.arData i).val.bind (ops.kept false false)).map some := by
  cases hh : source.isWithoutHoles with
  | true =>
    obtain ⟨v, hv⟩ := isSome_iff_exists.mp (hwf.live_of_isWithoutHoles hh i hi)
    simp [hv, ZvalOps.kept]
    rfl
  | false =>
    cases hv : (source.arData i).val with
    | none => rfl
    | some v =>
      simp [ZvalOps.kept]
      rfl

/-! ### The hashed branch -/

section hashed

/-- What is written for bucket `i`. -/
def hashedData (ops : ZvalOps V) (source : HashTable K V) (i : ℕ) : Option (Option V) :=
  dupData ops false (!source.isWithoutHoles) (source.arData i).val

variable {ops : ZvalOps V} {target0 target dup : HashTable K V} {idx : ℕ}

lemma isDuped_iff {i : ℕ} (hi : i < source.nNumUsed) : IsDuped (hashedData ops source) i ↔
    ∃ v w, (source.arData i).val = some v ∧ ops.kept false false v = some w := by
  rw [IsDuped, hashedData, dupData_hashed hwf ops hi, isSome_map, isSome_iff_exists]
  simp only [bind_eq_some_iff]
  exact exists_comm

variable (h : Duped (hashedData ops source) source target0 target source.nNumUsed idx)

include h

/-- A kept value has gone to its rank. -/
lemma Duped.content_kept {i : ℕ} (hi : i < source.nNumUsed) {v w : V}
    (hv : (source.arData i).val = some v) (hw : ops.kept false false v = some w) :
    target.content (count (IsDuped (hashedData ops source)) i) =
      ((source.arData i).h, (source.arData i).key, some w) :=
  h.moved i hi _ (by rw [hashedData, dupData_hashed hwf ops hi, hv, bind_some, hw]; rfl)

/-- Every bucket of the copy has the contents of one that is kept. -/
lemma Duped.exists_content {j : ℕ} (hj : j < idx) : ∃ i < source.nNumUsed, ∃ v w,
    (source.arData i).val = some v ∧
      target.content j = ((source.arData i).h, (source.arData i).key, some w) := by
  rw [← h.rank] at hj
  obtain ⟨i, hi, hd, rfl⟩ := exists_count_eq hj
  obtain ⟨v, w, hv, hw⟩ := (isDuped_iff hwf hi).mp hd
  exact ⟨i, hi, v, w, hv, h.content_kept hwf hi hv hw⟩

lemma Duped.walk_eq : gather target.entryAt idx =
    source.walk.filterMap (keepEntry (ops.kept false false)) := by
  rw [← h.rank, walk, ← gather_bind (keepEntry (ops.kept false false)) fun i hi => rfl]
  refine gather_compact (IsDuped (hashedData ops source)) (fun i hi => ?_) fun i hi hd => ?_
  · rw [IsDuped, hashedData, dupData_hashed hwf ops hi, entryAt]
    cases (source.arData i).val with
    | none => rfl
    | some v => simp [keepEntry]
  · obtain ⟨v, w, hv, hw⟩ := (isDuped_iff hwf hi).mp hd
    rw [entryAt_of_content (h.content_kept hwf hi hv hw), entryAt, hv]
    simp [keepEntry, hw]

/-- A current element that is kept has gone to its rank, below the index that stands for none. -/
lemma Duped.pointer_kept (hlt : source.nInternalPointer < source.nNumUsed) {v w : V}
    (hv : (source.arData source.nInternalPointer).val = some v)
    (hw : ops.kept false false v = some w) :
    target.nInternalPointer = count (IsDuped (hashedData ops source)) source.nInternalPointer ∧
      target.nInternalPointer < idx ∧ target.nInternalPointer ≠ htInvalidIdx := by
  have hd := (isDuped_iff hwf hlt).mpr ⟨v, w, hv, hw⟩
  have hpt := h.pointer
  rw [if_pos ⟨hlt, hd⟩] at hpt
  have hr := h.rank ▸ count_strict_mono hd hlt
  have hle := count_le (p := IsDuped (hashedData ops source)) (n := source.nNumUsed)
  have hiv := hwf.used_le_invalid
  rw [h.rank] at hle
  exact ⟨hpt, by omega, by omega⟩

lemma dupElements_dupSpec (hpc : target.packed = false)
    (hnx : target.nNextFreeElement = source.nNextFreeElement)
    (hdu : dup = { target with
      nNumUsed := idx, nNumOfElements := idx, nInternalPointer := dup.nInternalPointer })
    (hpn : dup.nInternalPointer =
      if idx > 0 ∧ target.nInternalPointer = htInvalidIdx then 0 else target.nInternalPointer) :
    DupSpec (ops.kept false false) source dup := by
  refine ⟨?_, fun j hj _ => ?_, fun hp => ?_, fun _ => ?_, fun v w hlt hv hw => ?_,
    fun v hlt hv hw => ?_, fun hiv => ?_⟩
  · rw [hdu]
    exact h.walk_eq hwf
  · rw [hdu] at hj ⊢
    obtain ⟨i, hi, v, w, hv, hcl⟩ := h.exists_content hwf hj
    simp only [content, Prod.mk.injEq] at hcl
    refine ⟨i, hi, by rw [live, hv]; rfl, hcl.1, hcl.2.1, fun hp => ?_⟩
    exact absurd (hpc.symm.trans hp) (by decide)
  · rw [hdu] at hp
    exact absurd (hpc.symm.trans hp) (by decide)
  · rw [hdu]
    exact hnx
  · obtain ⟨hpt, hlt', hne⟩ := h.pointer_kept hwf hlt hv hw
    rw [if_neg fun hh => hne hh.2] at hpn
    have hk := entryAt_of_content (h.content_kept hwf hlt hv hw)
    rw [← hpt] at hk
    rw [hpn]
    rw [hdu]
    exact ⟨hlt', hk⟩
  · have hd : ¬ IsDuped (hashedData ops source) source.nInternalPointer := fun hd => by
      obtain ⟨v', w, hv', hw'⟩ := (isDuped_iff hwf hlt).mp hd
      obtain rfl := some.inj (hv.symm.trans hv')
      rw [hw] at hw'
      cases hw'
    have hpt := h.pointer
    rw [if_neg fun hh => hd hh.2] at hpt
    rw [hpt, if_neg fun hh => hwf.ne_invalid hlt hh.2] at hpn
    refine ⟨hpn, ?_⟩
    rw [hdu]
  · have hpt : target.nInternalPointer = htInvalidIdx := by
      have := hwf.used_le_invalid
      rw [h.pointer, if_neg fun hh => by omega, hiv]
    rw [hpt] at hpn
    by_cases hps : idx > 0
    · rw [if_pos ⟨hps, rfl⟩] at hpn
      obtain ⟨i, -, v, w, -, hcl⟩ := h.exists_content hwf hps
      have hvl : (target.arData 0).val = some w := congrArg (fun c => c.2.2) hcl
      refine ⟨.inr ?_, fun _ => by rw [hpn]; decide⟩
      rw [hpn, hdu]
      exact ⟨hps, by simp [live, hvl]⟩
    · rw [if_neg fun hh => hps hh.1] at hpn
      refine ⟨.inl hpn, fun hne => absurd ?_ hne⟩
      rw [hdu]
      change idx = 0
      omega

end hashed

/-- **The duplicate of a well-formed table**, branch by branch. -/
theorem zendArrayDup_spec (ops : ZvalOps V) (immutable : Bool) (addr : ℕ) :
    DupSpec (ops.kept immutable source.packed) source (zendArrayDup ops immutable addr source) := by
  have hwf' := zendArrayDup_wf ops immutable addr hwf
  by_cases h0 : source.nNumUsed = 0
  · rw [zendArrayDup, if_pos h0]
    refine ⟨?_, fun j hj => absurd hj (not_lt_zero j), nofun, fun hne => absurd h0 hne,
      fun v w hlt => by omega, fun v hlt => by omega,
      fun _ => ⟨.inl rfl, fun hne => absurd rfl hne⟩⟩
    simp [walk, h0]
  unfold zendArrayDup at hwf' ⊢
  rw [if_neg h0] at hwf' ⊢
  cases immutable with
  | true =>
    have hk : ops.kept true source.packed = fun v => some (id v) := rfl
    refine rewindPointer_dupSpec hwf ?_ rfl rfl rfl (fun i hi => ?_) (fun i hi _ => ?_)
      fun hp => ⟨hp, .inl rfl⟩
    · rw [rewindPointer_eq] at hwf'
      exact hwf'.setPointer source.nInternalPointer
    · simp [moveData, hi]
    · simp [moveData, hi]
  | false =>
    rw [if_neg (by decide)] at hwf' ⊢
    split_ifs at hwf' ⊢ with hp
    · have hk : ops.kept false source.packed = fun v => some (ops.copied v) := by
        funext v
        simp [ZvalOps.kept, hp]
      rw [hk]
      refine rewindPointer_dupSpec hwf ?_ rfl rfl rfl
        (fun i hi => (dupPackedElements_eq hwf ops hp hi).1)
        (fun i hi => (dupPackedElements_eq hwf ops hp hi).2) fun _ => ⟨hp, .inr fun _ => rfl⟩
      rw [rewindPointer_eq] at hwf'
      exact hwf'.setPointer source.nInternalPointer
    have hp' : source.packed = false := by simpa using hp
    have hl := dupElements_loop hwf ops addr
    rw [hp']
    refine dupElements_dupSpec hwf hl (hl.header.packed.trans hp')
      hl.header.nNextFreeElement ?_ ?_
    all_goals
      simp only
      split_ifs <;> rfl

end branches

/-! ## The map that a duplicate stands for -/

/-- The table of what is kept. -/
def OrderedTable.filterMap [DecidableEq K] (t : OrderedTable K V) (keep : V → Option V) :
    OrderedTable K V :=
  { t with
    map := t.map.filterMap keep
    bounded := fun h hh => t.bounded h ((keepEntry_sublist keep t.map.entries).subset hh) }

/-- **The duplicate represents the map of what is kept.** -/
theorem DupSpec.represents [DecidableEq K] {hashVal : K → BitVec 64} {keep : V → Option V}
    {source dup : HashTable K V} (h : DupSpec keep source dup) (hr : Represents hashVal source t)
    (hwf : dup.Wf) (hu : source.nNumUsed ≠ 0) :
    Represents hashVal dup (t.filterMap keep) where
  wf := hwf
  keyed := by
    refine ⟨fun j hj hl k hk => ?_, fun hp j hj hl => ?_, fun hp => ?_⟩
    · obtain ⟨i, hi, hil, hh, hky, -⟩ := h.origin j hj hl
      rw [hh]
      exact hr.keyed.str_hash i hi hil k (hky ▸ hk)
    · obtain ⟨i, hi, hil, hh, -, hij⟩ := h.origin j hj hl
      obtain rfl := hij hp
      rw [hh]
      exact hr.keyed.packed_index (h.packed hp).1 i hi hil
    · obtain ⟨hp', hhs | hhs⟩ := h.packed hp
      · rw [hhs]
        exact hr.keyed.packed_hash hp'
      · exact hhs
  walk := by rw [h.walk, hr.walk]; rfl
  next := by rw [h.next hu]; exact hr.next

/-- **The copy represents the same table.** -/
lemma zendArrayDup_represents [DecidableEq K] {hashVal : K → BitVec 64} {source : HashTable K V}
    (hr : Represents hashVal source t) (ops : ZvalOps V) (immutable : Bool) (addr : ℕ) :
    ∃ t', Represents hashVal (zendArrayDup ops immutable addr source) t' := by
  have hwf := zendArrayDup_wf ops immutable addr hr.wf
  by_cases h0 : source.nNumUsed = 0
  · refine ⟨.empty, hwf, ?_, ?_, ?_⟩ <;> rw [zendArrayDup, if_pos h0]
    · exact ⟨fun i hi => absurd hi (not_lt_zero i), nofun, nofun⟩
    · rfl
    · rfl
  · exact ⟨_, (zendArrayDup_spec hr.wf ops immutable addr).represents hr hwf h0⟩

/-- **What a duplicate should be.** It has the entries that are kept, in order, finds each of them,
counts them, and has the next free index of a source with elements. Its pointer is on one of its
elements, unless it has none, and on the image of the current element if that is kept. -/
structure Duplicates [DecidableEq K] (hashVal : K → BitVec 64) (keep : V → Option V)
    (source dup : HashTable K V) : Prop where
  walk : dup.walk = source.walk.filterMap (keepEntry keep)
  find : ∀ key v, (.str key, v) ∈ dup.walk → zendHashFind hashVal dup key = .ok (some v)
  indexFind : ∀ h v, (.index h, v) ∈ dup.walk → zendHashIndexFind dup h = .ok (some v)
  count : dup.nNumOfElements = dup.walk.length
  next : source.nNumOfElements ≠ 0 → dup.nNextFreeElement = source.nNextFreeElement
  current : dup.nNumOfElements ≠ 0 →
    dup.nInternalPointer < dup.nNumUsed ∧ dup.live dup.nInternalPointer
  empty : dup.nNumOfElements = 0 → dup.nInternalPointer = htInvalidIdx
  image : ∀ e e', source.nInternalPointer ≠ htInvalidIdx →
    source.entryAt source.nInternalPointer = some e → keepEntry keep e = some e' →
      dup.entryAt dup.nInternalPointer = some e'

section duplicates

variable [DecidableEq K] {hashVal : K → BitVec 64} {keep : V → Option V} {t' : OrderedTable K V}
  {source dup : HashTable K V} (hsp : DupSpec keep source dup)
  (hr : Represents hashVal source t) (hok : source.PointerOk) (hr' : Represents hashVal dup t')

include hsp hok hr'

omit [DecidableEq K] in
/-- With a current element in the source, the pointer of the duplicate is on an element. -/
lemma DupSpec.live_pointer (hb : CurrentBelow keep source)
    (hne : source.nInternalPointer ≠ htInvalidIdx) :
    dup.nInternalPointer < dup.nNumUsed ∧ dup.live dup.nInternalPointer := by
  obtain ⟨hlt, hl⟩ := hok.resolve_left hne
  obtain ⟨v, hv⟩ := isSome_iff_exists.mp hl
  cases hw : keep v with
  | some w =>
    obtain ⟨hlt', hen⟩ := hsp.image v w hlt hv hw
    exact ⟨hlt', (dup.entryAt_isSome _).mp (by rw [hen]; rfl)⟩
  | none =>
    obtain ⟨hpt, hu⟩ := hsp.dropped v hlt hv hw
    have hlt' := hb v hne hv hw
    rw [← hsp.walk, hr'.walk, ← hr'.numOfElements, ← hu, ← hpt] at hlt'
    exact ⟨hlt', hr'.wf.live_of_isWithoutHoles (beq_iff_eq.mpr hu) _ hlt'⟩

include hr

lemma DupSpec.duplicates_iff : Duplicates hashVal keep source dup ↔ CurrentBelow keep source := by
  constructor
  · intro h v hne hv hw
    obtain ⟨hpt, hu⟩ := hsp.dropped v (hok.resolve_left hne).1 hv hw
    rw [← h.walk, ← h.count, ← hu, ← hpt]
    by_cases h0 : dup.nNumOfElements = 0
    · exact absurd (hpt ▸ h.empty h0) hne
    · exact (h.current h0).1
  · intro hb
    refine ⟨hsp.walk, fun key v hm => ?_, fun h v hm => ?_, ?_, fun hne => hsp.next fun h0 => ?_,
      fun hne => ?_, fun h0 => ?_, fun e e' hne he he' => ?_⟩
    · rw [hr'.find, t'.map.lookup_eq_some_iff.mpr (hr'.walk ▸ hm)]
    · rw [hr'.indexFind, t'.map.lookup_eq_some_iff.mpr (hr'.walk ▸ hm)]
    · rw [hr'.numOfElements, hr'.walk]
    · rw [hr.wf.count, h0] at hne
      exact hne rfl
    · by_cases hiv : source.nInternalPointer = htInvalidIdx
      · obtain ⟨ho', hn'⟩ := hsp.rewound hiv
        exact ho'.resolve_left (hn' hne)
      · exact hsp.live_pointer hok hr' hb hiv
    · -- a duplicate without elements has no live bucket
      have hdd : ¬ (dup.nInternalPointer < dup.nNumUsed ∧ dup.live dup.nInternalPointer) := by
        rintro ⟨hlt, hl⟩
        have := count_strict_mono hl hlt
        rw [← hr'.wf.count] at this
        omega
      by_cases hiv : source.nInternalPointer = htInvalidIdx
      · exact (hsp.rewound hiv).1.resolve_right hdd
      · exact absurd (hsp.live_pointer hok hr' hb hiv) hdd
    · obtain ⟨hlt, hl⟩ := hok.resolve_left hne
      obtain ⟨v, hv⟩ := isSome_iff_exists.mp hl
      rw [entryAt, hv] at he
      cases he
      obtain ⟨w, hw, rfl⟩ := map_eq_some_iff.mp he'
      exact (hsp.image v w hlt hv hw).2

end duplicates

/-- **`zend_array_dup` preserves a reachable array if and only if the index of a current element
that is dropped is below the number of entries that are kept.** -/
theorem zendArrayDup_preserves_iff [DecidableEq K] {hashVal : K → BitVec 64} {s : HashState K V}
    (hreach : HashState.Reachable hashVal s) (ops : ZvalOps V) (immutable : Bool) (addr : ℕ) :
    Duplicates hashVal (ops.kept immutable s.ht.packed) s.ht
        (zendArrayDup ops immutable addr s.ht) ↔
      CurrentBelow (ops.kept immutable s.ht.packed) s.ht := by
  obtain ⟨⟨t, hr⟩, hok⟩ := hreach.represents
  obtain ⟨t', hr'⟩ := zendArrayDup_represents hr ops immutable addr
  exact (zendArrayDup_spec hr.wf ops immutable addr).duplicates_iff hr hok hr'

/-- Values of a symbol table with variables: `0` is an `IS_INDIRECT` whose variable is unset, other
numbers stand for themselves. -/
def unsetZero : ZvalOps ℕ := ⟨fun v => if v = 0 then some none else none, id⟩

/-- A hashed table of three elements whose second one is current and dropped: the duplicate keeps
the index 1, where the third one now is. -/
theorem zendArrayDup_preserves_iff_shifted :
    ∃ s : HashState ℕ ℕ, s.ht.nInternalPointer = 1 ∧ s.ht.entryAt 1 = some (.str 6, 0) ∧
      Duplicates (fun _ => 3) (unsetZero.kept false false) s.ht
        (zendArrayDup unsetZero false 8192 s.ht) := by
  obtain ⟨s, hr, hp, hpt, hen, hw⟩ : ∃ s : HashState ℕ ℕ,
      HashState.Reachable (fun _ => 3) s ∧ s.ht.packed = false ∧ s.ht.nInternalPointer = 1 ∧
      s.ht.entryAt 1 = some (.str 6, 0) ∧
      s.ht.walk.filterMap (keepEntry (unsetZero.kept false false)) = [(.str 5, 7), (.str 8, 9)] :=
    ⟨_, ((((HashState.Reachable.init ⟨[], 0⟩ (rfl : zendHashInit 4096 8 = .ok _)).step
      (.call (.add 5 7)) trivial rfl).step (.call (.add 6 0)) trivial rfl).step
      (.call (.add 8 9)) trivial rfl).step .moveForward trivial rfl, rfl, rfl, rfl, rfl⟩
  have hd := zendArrayDup_preserves_iff hr unsetZero false 8192
  rw [hp] at hd
  refine ⟨s, hpt, hen, hd.mpr fun v _ _ _ => ?_⟩
  rw [hw, hpt]
  decide

/-- **The pointer of the duplicate may dangle.** The current element of the source is an
`IS_INDIRECT` whose variable is unset: it is dropped, and the duplicate keeps its index, past the
last bucket. -/
theorem zendArrayDup_pointer_dangles :
    ∃ s : HashState ℕ ℕ, HashState.Reachable (fun _ => 3) s ∧
      (zendArrayDup unsetZero false 8192 s.ht).walk = [(.str 5, 7)] ∧
      (zendArrayDup unsetZero false 8192 s.ht).nNumUsed = 1 ∧
      (zendArrayDup unsetZero false 8192 s.ht).nInternalPointer = 1 :=
  ⟨_, (((HashState.Reachable.init ⟨[], 0⟩ (rfl : zendHashInit 4096 8 = .ok _)).step
    (.call (.add 5 7)) trivial rfl).step (.call (.add 6 0)) trivial rfl).step
      .moveForward trivial rfl,
    rfl, rfl, rfl⟩

end PhpInternals.Zend.ZendHash

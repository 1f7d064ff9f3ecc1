import PhpInternals.Found.CursorList
import PhpInternals.Zend.ZendHash.Refinement

/-!
# The internal pointer

`nInternalPointer` is an index into an array with holes; what its users see is a list with a cursor.
The layout invariant `HashTable.Wf` is all that is used here, so that `zend_hash_rehash` may also
meet a packed table.
-/

namespace PhpInternals.Zend.ZendHash

open HashTable Option Found CursorList

variable {K V : Type}

/-! ## Moving the pointer -/

/-- The search for the last live bucket below `n`. Source: `zend_hash.c`
`zend_hash_move_backwards_ex`. -/
def prevLive (arData : ℕ → Bucket K V) : ℕ → ℕ
  | 0 => htInvalidIdx
  | n + 1 => if (arData n).val.isSome then n else prevLive arData n

/-- `zend_hash_internal_pointer_reset_ex`: the new `*pos`. -/
def zendHashInternalPointerResetEx (ht : HashTable K V) : ℕ := nextLive ht.arData ht.nNumUsed 0

/-- `zend_hash_internal_pointer_end_ex`: the new `*pos`. -/
def zendHashInternalPointerEndEx (ht : HashTable K V) : ℕ := prevLive ht.arData ht.nNumUsed

/-- `zend_hash_move_forward_ex`: the new `*pos`, and whether it is a `SUCCESS`. -/
def zendHashMoveForwardEx (ht : HashTable K V) (pos : ℕ) : ℕ × Bool :=
  if pos ≠ htInvalidIdx then (nextLive ht.arData (ht.nNumUsed - (pos + 1)) (pos + 1), true)
  else (pos, false)

/-- `zend_hash_move_backwards_ex`: the new `*pos`, and whether it is a `SUCCESS`. -/
def zendHashMoveBackwardsEx (ht : HashTable K V) (pos : ℕ) : ℕ × Bool :=
  if pos ≠ htInvalidIdx then (prevLive ht.arData pos, true) else (pos, false)

/-- The index that a `HashPosition` stands for. -/
def posOf (pos : ℕ) : Option ℕ := if pos = htInvalidIdx then none else some pos

lemma posOf_invalid : posOf htInvalidIdx = none := if_pos rfl

variable {pos : ℕ}

lemma posOf_of_ne (h : pos ≠ htInvalidIdx) : posOf pos = some pos := if_neg h

variable {i : ℕ}

lemma mem_posOf : i ∈ posOf pos ↔ pos = i ∧ pos ≠ htInvalidIdx := by
  rw [posOf]
  split_ifs with h <;> simp [h]

namespace HashTable

variable {ht : HashTable K V}

/-- The internal pointer is `HT_INVALID_IDX` or the index of a live bucket. -/
def PointerOk (ht : HashTable K V) : Prop :=
  ht.nInternalPointer = htInvalidIdx ∨ ht.nInternalPointer < ht.nNumUsed ∧
    ht.live ht.nInternalPointer

/-- The elements in order, with the rank of the current one. -/
def cursorList (ht : HashTable K V) : CursorList (HashKey K × V) :=
  atPos ht.entryAt ht.nNumUsed (posOf ht.nInternalPointer)

lemma pointerOk_iff : ht.PointerOk ↔ PosOk ht.entryAt ht.nNumUsed (posOf ht.nInternalPointer) := by
  constructor
  · rintro hok i hi
    obtain ⟨rfl, hne⟩ := mem_posOf.mp hi
    obtain ⟨hlt, hl⟩ := hok.resolve_left hne
    exact ⟨hlt, (ht.entryAt_isSome _).mpr hl⟩
  · intro hp
    by_cases hne : ht.nInternalPointer = htInvalidIdx
    · exact .inl hne
    · obtain ⟨hlt, hsm⟩ := hp _ (mem_posOf.mpr ⟨rfl, hne⟩)
      exact .inr ⟨hlt, (ht.entryAt_isSome _).mp hsm⟩

lemma rank_entryAt (ht : HashTable K V) (i : ℕ) : rank ht.entryAt i = Nat.count ht.live i :=
  count_congr fun k _ => ht.entryAt_isSome k

lemma isFrom_nextLive (hwf : ht.Wf) (hi : i ≤ ht.nNumUsed) :
    IsFrom ht.entryAt ht.nNumUsed i (posOf (nextLive ht.arData (ht.nNumUsed - i) i)) := by
  rcases nextLive_spec ht (ht.nNumUsed - i) i with ⟨heq, hdd⟩ | ⟨hle, hlt, hl, hdd⟩
  · rw [heq]
    exact fun k h1 h2 => entryAt_of_not_live (hdd k h1 (by omega))
  · have hl' : nextLive ht.arData (ht.nNumUsed - i) i < ht.nNumUsed := by omega
    rw [posOf_of_ne (hwf.ne_invalid hl')]
    exact ⟨hle, hl', (ht.entryAt_isSome _).mpr hl, fun k h1 h2 => entryAt_of_not_live (hdd k h1 h2)⟩

lemma isBelow_prevLive (hwf : ht.Wf) (hi : i ≤ ht.nNumUsed) :
    IsBelow ht.entryAt i (posOf (prevLive ht.arData i)) := by
  induction i with
  | zero =>
    exact fun k hk => absurd hk (Nat.not_lt_zero k)
  | succ i ih =>
    rw [prevLive]
    split_ifs with hl
    · rw [posOf_of_ne (hwf.ne_invalid hi)]
      exact ⟨Nat.lt_succ_self i, (ht.entryAt_isSome i).mpr hl, fun k h1 h2 => by omega⟩
    have hn : ht.entryAt i = none := entryAt_of_not_live hl
    have hb := ih (by omega)
    cases hp : posOf (prevLive ht.arData i) with
    | none =>
      rw [hp] at hb
      intro k hk
      rcases Nat.lt_succ_iff_lt_or_eq.mp hk with hk | rfl
      · exact hb k hk
      · exact hn
    | some j =>
      rw [hp] at hb
      obtain ⟨hj, hsm, hg⟩ := hb
      refine ⟨by omega, hsm, fun k h1 h2 => ?_⟩
      rcases Nat.lt_succ_iff_lt_or_eq.mp h2 with hk | rfl
      · exact hg k h1 hk
      · exact hn

end HashTable

variable {h : BitVec 64} {key : Option K} {v : V}

/-! ## What the effects do to the pointer -/

section effects

variable {s s' : HashState K V} {ht ht' : HashTable K V}

/-- A table that keeps its elements and its current element. -/
def Keeps (ht ht' : HashTable K V) : Prop := ht'.PointerOk ∧ ht'.cursorList = ht.cursorList

lemma Keeps.trans {ht1 : HashTable K V} (h : Keeps ht ht1) (h' : Keeps ht1 ht') : Keeps ht ht' :=
  ⟨h'.1, h'.2.trans h.2⟩

lemma Copied.keeps (h : Copied ht ht') (hok : ht.PointerOk) : Keeps ht ht' := by
  have hc : ∀ i < ht.nNumUsed, ht'.entryAt i = ht.entryAt i := fun i hi =>
    entryAt_congr (h.content hi)
  have hp := pointerOk_iff.mp hok
  refine ⟨pointerOk_iff.mpr ?_, ?_⟩
  · rw [h.nNumUsed, h.nInternalPointer]
    intro i hi
    obtain ⟨hlt, hsm⟩ := hp i hi
    exact ⟨hlt, by rw [hc i hlt]; exact hsm⟩
  · rw [cursorList, h.nNumUsed, h.nInternalPointer]
    exact atPos_congr hc hp

/-- **Compaction keeps the current element.** -/
theorem Rehashed.keeps (h : Rehashed ht ht') (hle : ht.nNumUsed ≤ htInvalidIdx)
    (hok : ht.PointerOk) :
    Keeps ht ht' := by
  have hm : ∀ i < ht.nNumUsed, (ht.entryAt i).isSome = true →
      ht'.entryAt (rank ht.entryAt i) = ht.entryAt i := fun i hi hsm => by
    rw [rank_entryAt]
    exact entryAt_congr (h.moved i hi ((ht.entryAt_isSome i).mp hsm))
  have hu : ht'.nNumUsed = rank ht.entryAt ht.nNumUsed := by rw [h.used, rank_entryAt]
  have hp : posOf ht'.nInternalPointer = (posOf ht.nInternalPointer).map (rank ht.entryAt) := by
    rw [h.pointer, movedPointer]
    rcases hok with hiv | ⟨hlt, hl⟩
    · rw [if_neg (by omega), hiv]
      rfl
    · have hr : Nat.count ht.live ht.nInternalPointer ≤ ht.nInternalPointer := Nat.count_le _
      rw [if_pos ⟨hlt, hl⟩, posOf_of_ne (by omega), posOf_of_ne (by omega), map_some, rank_entryAt]
  have hps := pointerOk_iff.mp hok
  refine ⟨pointerOk_iff.mpr ?_, ?_⟩
  · rw [hu, hp]
    exact hps.compact hm
  · rw [cursorList, hu, hp]
    exact atPos_compact hm hps

lemma Silent.keeps (h : Silent s s') (hwf : s.ht.Wf) (hok : s.ht.PointerOk) : Keeps s.ht s'.ht := by
  cases h with
  | copy ht1 hc _ _ => exact hc.keeps hok
  | rehash ht1 hc _ _ =>
    have hk := hc.keeps hok
    exact hk.trans ((hc.rehashed hwf).keeps (hc.nNumUsed ▸ hwf.used_le_invalid) hk.1)

/-- Preparing the table keeps the pointer on its element. -/
lemma Settles.keeps (h : Settles s s') (hwf : s.ht.Wf) (hok : s.ht.PointerOk) :
    Keeps s.ht s'.ht := by
  induction h with
  | refl => exact ⟨hok, rfl⟩
  | tail hse hsl ih => exact ih.trans (hsl.keeps (Settles.wf hse hwf) ih.1)

lemma Appended.pointer_moves {idx : ℕ} (ha : Appended s s' idx h key v) (hwf : s'.ht.Wf)
    (hok : s.ht.PointerOk) :
    s'.ht.PointerOk ∧ s'.ht.cursorList = s.ht.cursorList.append (hashKeyOf h key, v) := by
  have hne : idx ≠ htInvalidIdx := hwf.ne_invalid (ha.used ▸ Nat.lt_succ_self idx)
  have hps := pointerOk_iff.mp hok
  have ho : ∀ i < s.ht.nNumUsed, s'.ht.entryAt i = s.ht.entryAt i := fun i hi =>
    entryAt_congr (ha.old i hi)
  have hn := entryAt_of_content ha.new
  have hp : posOf s'.ht.nInternalPointer = some ((posOf s.ht.nInternalPointer).getD idx) := by
    rw [ha.pointer]
    split_ifs with hiv
    · rw [hiv, posOf_of_ne hne]
      rfl
    · rw [posOf_of_ne hiv]
      rfl
  rw [pointerOk_iff, cursorList, ha.used, hp]
  exact ⟨hps.append ha.used_le ho hn, atPos_append ha.used_le ho
    (fun i h1 h2 => entryAt_of_not_live (ha.gap i h1 h2)) hn hps⟩

lemma Overwritten.pointer_moves {p : ℕ} (hov : Overwritten s s' p v) (hp : p < s.ht.nNumUsed)
    (hl : s.ht.live p) (hok : s.ht.PointerOk) :
    s'.ht.PointerOk ∧ s'.ht.cursorList = s.ht.cursorList.set (rank s.ht.entryAt p)
      (hashKeyOf (s.ht.arData p).h (s.ht.arData p).key, v) := by
  have hps := pointerOk_iff.mp hok
  have ho : ∀ i < s.ht.nNumUsed, i ≠ p → s'.ht.entryAt i = s.ht.entryAt i := fun i _ hi =>
    entryAt_congr (hov.other i hi)
  have hth := entryAt_of_content hov.this
  refine ⟨pointerOk_iff.mpr ?_, ?_⟩
  · rw [hov.used, hov.pointer]
    intro i hi
    obtain ⟨hlt, hsm⟩ := hps i hi
    refine ⟨hlt, ?_⟩
    by_cases hip : i = p
    · rw [hip, hth]
      rfl
    · rw [ho i hlt hip]
      exact hsm
  · rw [cursorList, hov.used, hov.pointer]
    exact atPos_set hp ((s.ht.entryAt_isSome p).mpr hl) hth ho hps

/-- The pointer leaves a deleted element for the next one. -/
lemma Removed.pointer_moves {idx : ℕ} (hr : Removed s s' idx) (hwf : s.ht.Wf)
    (hid : idx < s.ht.nNumUsed)
    (hl : s.ht.live idx) (hok : s.ht.PointerOk) :
    s'.ht.PointerOk ∧ s'.ht.cursorList = s.ht.cursorList.erase (rank s.ht.entryAt idx) := by
  have hps := pointerOk_iff.mp hok
  have hsm := (s.ht.entryAt_isSome idx).mpr hl
  have hg : s'.ht.entryAt idx = none := entryAt_of_not_live hr.not_live
  have ho : ∀ i < s.ht.nNumUsed, i ≠ idx → s'.ht.entryAt i = s.ht.entryAt i := fun i _ hi =>
    entryAt_congr (hr.other i hi)
  have htr : ∀ i, s'.ht.nNumUsed ≤ i → i < s.ht.nNumUsed → s'.ht.entryAt i = none := fun i h1 h2 =>
    entryAt_of_not_live (hr.trimmed i h1 h2)
  obtain ⟨j, hj, hp, -⟩ := hr.succ
  have hsc : IsFrom s.ht.entryAt s.ht.nNumUsed (idx + 1) (posOf j) := by
    rcases hj with ⟨rfl, hdd⟩ | ⟨hlt, hj, hjl, hdd⟩
    · exact fun k h1 h2 => entryAt_of_not_live (hdd k h1 h2)
    · rw [posOf_of_ne (hwf.ne_invalid hj)]
      exact ⟨hlt, hj, (s.ht.entryAt_isSome j).mpr hjl, fun k h1 h2 =>
        entryAt_of_not_live (hdd k h1 h2)⟩
  have hp' : posOf s'.ht.nInternalPointer =
      (posOf s.ht.nInternalPointer).bind fun p => if p = idx then posOf j else some p := by
    rw [hp]
    by_cases hiv : s.ht.nInternalPointer = htInvalidIdx
    · have hne := hwf.ne_invalid hid
      rw [hiv, if_neg hne.symm]
      rfl
    · rw [posOf_of_ne hiv, bind_some]
      split_ifs with heq
      · rfl
      · exact posOf_of_ne hiv
  rw [pointerOk_iff, cursorList, hp']
  exact ⟨hps.erase ho htr hsc, atPos_erase hid hsm hg ho hr.used_le htr hsc hps⟩

end effects

/-! ## Calls -/

/-- The calls. -/
inductive PointerOp (K V : Type) where
  | call (op : HashOp K V)
  | packedToHash
  | doResize
  | internalPointerReset
  | internalPointerEnd
  | moveForward
  | moveBackwards

namespace HashState

variable [DecidableEq K] (hashVal : K → BitVec 64)

omit [DecidableEq K] in
/-- A table with its pointer moved. -/
def setPointer (s : HashState K V) (pos : ℕ) : HashState K V :=
  { s with ht := { s.ht with nInternalPointer := pos } }

/-- One call. -/
def pointerStep (s : HashState K V) : PointerOp K V → Except HashError (HashState K V)
  | .call op => (s.apply hashVal op).map Prod.fst
  | .packedToHash => .ok (zendHashPackedToHash s)
  | .doResize => zendHashDoResize s
  | .internalPointerReset => .ok (s.setPointer (zendHashInternalPointerResetEx s.ht))
  | .internalPointerEnd => .ok (s.setPointer (zendHashInternalPointerEndEx s.ht))
  | .moveForward => .ok (s.setPointer (zendHashMoveForwardEx s.ht s.ht.nInternalPointer).1)
  | .moveBackwards => .ok (s.setPointer (zendHashMoveBackwardsEx s.ht s.ht.nInternalPointer).1)

omit [DecidableEq K] in
/-- What the callers of the functions promise: the assertions of `zend_hash_extend`, and that the
functions which move `arData` to another block find a block of their own. `zend_hash_do_resize` is
called for a table that is not packed. -/
def Promised (s : HashState K V) : PointerOp K V → Prop
  | .call (.extend nSize packed) => nSize = 0 ∨ s.ht.initialized = false ∨ s.ht.packed = packed
  | .packedToHash => s.ht.initialized = true
  | .doResize => s.ht.initialized = true ∧ s.ht.packed = false
  | _ => True

/-- A sequence of calls. -/
inductive PointerRun (s : HashState K V) : HashState K V → Prop
  | nil : PointerRun s s
  | call {s₁ s₂ : HashState K V} (hrun : PointerRun s s₁) (op : PointerOp K V)
    (hprom : s₁.Promised op)
      (hstep : s₁.pointerStep hashVal op = .ok s₂) : PointerRun s s₂

end HashState

/-- An insertion appends an element, or sets the value of one, or finds that it must not. -/
def Inserts (l l' : CursorList (HashKey K × V)) : Prop :=
  l' = l ∨ (∃ r e, r < l.entries.length ∧ l' = l.set r e) ∨ ∃ e, l' = l.append e

/-- A deletion erases the element that the table holds for the key, or finds none. The current
element stays, unless it is the erased one: then the next one in order is current, or none. -/
def Deletes (ht : HashTable K V) (h : BitVec 64) (key : Option K)
    (l' : CursorList (HashKey K × V)) : Prop :=
  ((∀ p, ¬ ht.Holds h key p) ∧ l' = ht.cursorList) ∨
    ∃ idx, ht.Holds h key idx ∧ l' = ht.cursorList.erase (rank ht.entryAt idx) ∧
      l'.current? =
        if ht.nInternalPointer = idx then ht.cursorList.entries[rank ht.entryAt idx + 1]?
        else ht.cursorList.current?

/-- What a call does to the list with the cursor. -/
def PointerMoves (hashVal : K → BitVec 64) (ht : HashTable K V) (l' : CursorList (HashKey K × V)) :
    PointerOp K V → Prop
  | .call (.add _ _) | .call (.update _ _) | .call (.addNew _ _) | .call (.indexAdd _ _)
  | .call (.indexUpdate _ _) | .call (.nextIndexInsert _) => Inserts ht.cursorList l'
  | .call (.del key) => Deletes ht (hashVal key) (some key) l'
  | .call (.indexDel h) => Deletes ht h none l'
  | .call .clean => l' = ⟨[], none⟩
  | .call (.extend _ _) | .call .rehash | .packedToHash | .doResize => l' = ht.cursorList
  | .internalPointerReset => l' = ht.cursorList.first
  | .internalPointerEnd => l' = ht.cursorList.last
  | .moveForward => l' = ht.cursorList.next
  | .moveBackwards => l' = ht.cursorList.prev

/-! ## One call -/

section step

variable {s s' : HashState K V}

lemma InsertEffect.pointer_moves {flag : HashFlag} {p : Option ℕ}
    (hef : InsertEffect s h key v flag s' p) (hwf : s.ht.Wf) (hok : s.ht.PointerOk) :
    s'.ht.Wf ∧ s'.ht.PointerOk ∧ Inserts s.ht.cursorList s'.ht.cursorList := by
  cases hef with
  | kept p hp ha => exact ⟨hwf, hok, .inl rfl⟩
  | overwritten _ p hp ha ho hw' hn =>
    obtain ⟨hlt, hl⟩ := hp.live
    obtain ⟨ho', hls⟩ := ho.pointer_moves hlt hl hok
    refine ⟨hw', ho', .inr (.inl ⟨_, _, ?_, hls⟩)⟩
    rw [cursorList, atPos, length_gather_eq_rank]
    exact rank_lt_rank ((s.ht.entryAt_isSome p).mpr hl) hlt
  | appended s1 _ idx hab hse hap hpc hw' hn =>
    have hk := hse.keeps hwf hok
    obtain ⟨ho', hls⟩ := hap.pointer_moves hw' hk.1
    exact ⟨hw', ho', .inr (.inr ⟨_, hls.trans (by rw [hk.2])⟩)⟩

lemma DeleteEffect.pointer_moves {r : Bool} (hef : DeleteEffect s h key s' r) (hwf : s.ht.Wf)
    (hok : s.ht.PointerOk) :
    s'.ht.Wf ∧ s'.ht.PointerOk ∧ Deletes s.ht h key s'.ht.cursorList := by
  cases hef with
  | missing ha => exact ⟨hwf, hok, .inl ⟨ha, rfl⟩⟩
  | removed _ idx hp hrm hw' =>
    obtain ⟨hlt, hl⟩ := hp.live
    obtain ⟨ho', hls⟩ := hrm.pointer_moves hwf hlt hl hok
    refine ⟨hw', ho', .inr ⟨idx, hp, hls, ?_⟩⟩
    rw [hls, erase_current?]
    refine if_congr ?_ rfl rfl
    -- the cursor has the rank of the erased element when the pointer is on its bucket
    rcases hok with hiv | ⟨hlt', hl'⟩
    · rw [cursorList, atPos, hiv, posOf_invalid]
      simp only [map_none, reduceCtorEq, false_iff]
      exact (hwf.ne_invalid hlt).symm
    · rw [cursorList, atPos, posOf_of_ne (hwf.ne_invalid hlt')]
      simp only [map_some, some.injEq]
      exact ⟨Nat.count_injective ((s.ht.entryAt_isSome _).mpr hl') ((s.ht.entryAt_isSome _).mpr hl),
        fun heq => by rw [heq]⟩

lemma setPointer_moves (hwf : s.ht.Wf) {l' : CursorList (HashKey K × V)}
    (hp : PosOk s.ht.entryAt s.ht.nNumUsed (posOf pos))
    (hl : atPos s.ht.entryAt s.ht.nNumUsed (posOf pos) = l') :
    (s.setPointer pos).ht.Wf ∧ (s.setPointer pos).ht.PointerOk ∧
    (s.setPointer pos).ht.cursorList = l' :=
  ⟨{ hwf with }, pointerOk_iff.mpr hp, hl⟩

variable [DecidableEq K] {hashVal : K → BitVec 64}

/-- **Every call moves the pointer as on the list.** -/
lemma HashState.pointerStep_moves (hwf : s.ht.Wf) (hok : s.ht.PointerOk) {op : PointerOp K V}
    (hpr : s.Promised op) (hsp : s.pointerStep hashVal op = .ok s') :
    s'.ht.Wf ∧ s'.ht.PointerOk ∧ PointerMoves hashVal s.ht s'.ht.cursorList op := by
  have hps := pointerOk_iff.mp hok
  have hs : Silent s s' → s'.ht.Wf ∧ s'.ht.PointerOk ∧ s'.ht.cursorList = s.ht.cursorList :=
    fun hsl => ⟨hsl.wf, hsl.keeps hwf hok⟩
  cases op with
  | call op =>
    obtain ⟨⟨s1, o⟩, hc, rfl⟩ := map_eq_ok_iff.mp hsp
    cases HashState.apply_effect hwf (fun n p hop => by subst hop; exact hpr) hc with
    | insert hop _ _ hef =>
      obtain ⟨hw', hok', his⟩ := hef.pointer_moves hwf hok
      refine ⟨hw', hok', ?_⟩
      cases op <;> first | exact his | cases hop
    | delete hop hky hef =>
      obtain ⟨hw', hok', hdl⟩ := hef.pointer_moves hwf hok
      refine ⟨hw', hok', ?_⟩
      rename_i h key _
      cases key with
      | none => cases op <;> cases hop; exact hdl
      | some k =>
        obtain rfl := hky k rfl
        cases op <;> cases hop; exact hdl
    | clean => exact ⟨zendHashClean_wf hwf, .inl rfl, rfl⟩
    | extend hse => exact ⟨hse.wf hwf, hse.keeps hwf hok⟩
    | rehash =>
      obtain ⟨hre, hw'⟩ := hwf.rehashed
      exact ⟨hw', hre.keeps hwf.used_le_invalid hok⟩
  | packedToHash =>
    cases hsp
    exact hs (zendHashPackedToHash_silent hwf hpr).1
  | doResize => exact hs (zendHashDoResize_silent hwf hpr.1 hpr.2 hsp)
  | internalPointerReset =>
    cases hsp
    have hf := isFrom_nextLive hwf (Nat.zero_le s.ht.nNumUsed)
    exact setPointer_moves hwf hf.posOk (atPos_first hf)
  | internalPointerEnd =>
    cases hsp
    have hb := isBelow_prevLive hwf le_rfl
    exact setPointer_moves hwf (hb.posOk le_rfl) (atPos_last hb)
  | moveForward =>
    cases hsp
    rcases hok with hiv | ⟨hlt, hl⟩
    · rw [zendHashMoveForwardEx, if_neg (not_not.mpr hiv)]
      refine setPointer_moves hwf hps ?_
      rw [hiv, cursorList, hiv]
      rfl
    · rw [zendHashMoveForwardEx, if_pos (hwf.ne_invalid hlt)]
      have hf := isFrom_nextLive hwf hlt
      refine setPointer_moves hwf hf.posOk ?_
      rw [cursorList, posOf_of_ne (hwf.ne_invalid hlt)]
      exact atPos_next hlt ((s.ht.entryAt_isSome _).mpr hl) hf
  | moveBackwards =>
    cases hsp
    rcases hok with hiv | ⟨hlt, hl⟩
    · rw [zendHashMoveBackwardsEx, if_neg (not_not.mpr hiv)]
      refine setPointer_moves hwf hps ?_
      rw [hiv, cursorList, hiv]
      rfl
    · rw [zendHashMoveBackwardsEx, if_pos (hwf.ne_invalid hlt)]
      have hb := isBelow_prevLive hwf hlt.le
      refine setPointer_moves hwf (hb.posOk hlt.le) ?_
      rw [cursorList, posOf_of_ne (hwf.ne_invalid hlt)]
      exact atPos_prev hb

end step

/-! ## Runs -/

lemma zendHashInit_pointerOk {addr nSize : ℕ} {ht : HashTable K V}
    (hit : zendHashInit addr nSize = .ok ht) : ht.PointerOk := by
  obtain ⟨n, -, hit⟩ := bind_eq_ok_iff.mp hit
  cases hit
  exact .inl rfl

lemma HashState.PointerRun.ok [DecidableEq K] {hashVal : K → BitVec 64} {s0 s : HashState K V}
    (hr : HashState.PointerRun hashVal s0 s) (hwf : s0.ht.Wf) (hok : s0.ht.PointerOk) :
    s.ht.Wf ∧ s.ht.PointerOk := by
  induction hr with
  | nil => exact ⟨hwf, hok⟩
  | call _ op hp hsp ih =>
    obtain ⟨hw', ho', -⟩ := HashState.pointerStep_moves ih.1 ih.2 hp hsp
    exact ⟨hw', ho'⟩

/-- **The internal pointer is a cursor.** In every state that calls reach from a fresh table it is
`HT_INVALID_IDX` or the index of a live bucket, and every further call moves it as a cursor on the
list of the elements moves: a deletion of the current element brings it to the next one, other
deletions, compactions, conversions and resizes leave it on its element. -/
theorem internalPointer_moves [DecidableEq K] (hashVal : K → BitVec 64)
    (eg : ExecutorGlobals) {addr nSize : ℕ}
    {ht : HashTable K V} (hinit : zendHashInit addr nSize = .ok ht) {s : HashState K V}
    (hrun : HashState.PointerRun hashVal ⟨eg, ht⟩ s) :
    s.ht.PointerOk ∧ ∀ op s', s.Promised op → s.pointerStep hashVal op = .ok s' →
      s'.ht.PointerOk ∧ PointerMoves hashVal s.ht s'.ht.cursorList op := by
  obtain ⟨hwf, hok⟩ := hrun.ok (zendHashInit_wf hinit) (zendHashInit_pointerOk hinit)
  exact ⟨hok, fun op s' hp hsp => (HashState.pointerStep_moves hwf hok hp hsp).2⟩

/-- The current element is deleted from a packed table. -/
theorem internalPointer_moves_delete :
    ∃ (ht : HashTable ℕ ℕ) (s s' : HashState ℕ ℕ), zendHashInit 4096 8 = .ok ht ∧
      HashState.PointerRun (fun _ => 3) ⟨⟨[], 0⟩, ht⟩ s ∧ s.ht.nInternalPointer = 1 ∧
      s.pointerStep (fun _ => 3) (.call (.indexDel 1)) = .ok s' ∧ s'.ht.nInternalPointer = 2 ∧
      s.ht.PointerOk ∧ PointerMoves (fun _ => 3) s.ht s'.ht.cursorList (.call (.indexDel 1)) := by
  obtain ⟨ht, s, s', hit, hr, hb, hsp, ha⟩ : ∃ (ht : HashTable ℕ ℕ) (s s' : HashState ℕ ℕ),
      zendHashInit 4096 8 = .ok ht ∧ HashState.PointerRun (fun _ => 3) ⟨⟨[], 0⟩, ht⟩ s ∧
        s.ht.nInternalPointer = 1 ∧ s.pointerStep (fun _ => 3) (.call (.indexDel 1)) = .ok s' ∧
        s'.ht.nInternalPointer = 2 :=
    ⟨_, _, _, rfl, (((HashState.PointerRun.nil.call (.call (.indexAdd 0 10)) trivial rfl).call
      (.call (.indexAdd 1 11)) trivial rfl).call (.call (.indexAdd 2 12)) trivial rfl).call
      .moveForward trivial rfl, rfl, rfl, rfl⟩
  have hm := internalPointer_moves _ _ hit hr
  exact ⟨ht, s, s', hit, hr, hb, hsp, ha, hm.1, (hm.2 (.call (.indexDel 1)) _ trivial hsp).2⟩

end PhpInternals.Zend.ZendHash

import PhpInternals.Zend.ZendGc.RootBuffer

/-!
# The operations of the root buffer

What `gc_add_garbage`, the two ways of removing a root, and `gc_remove_from_buffer` do to a state
whose buffer is well formed.
-/

namespace PhpInternals.Zend.ZendGc

open GcState Function List Found

variable {N : Type} [DecidableEq N] {s : GcState N} {R T U : List RootPtr} {p : RootPtr} {n : N}

/-! ## What the operations do to the view -/

omit [DecidableEq N] in
lemma gcInit_wf (refcount : N → ℕ) : (gcInit refcount).view.Wf [] [] [] [] where
  roots := ⟨by simp, rfl, rfl⟩
  toFree := ⟨by simp, rfl, rfl⟩
  unused := rfl
  nodup := nodup_nil
  slot := nofun
  buf_mem i hi := by
    obtain ⟨hps, hlt⟩ := hi
    have hlt : i < 1 := hlt
    omega
  unused_buf := nofun
  held_newest := nofun
  linked := nofun
  ref_inj := nofun
  buffered n hn := absurd rfl hn
  newest := nofun
  first_pos _ := le_rfl
  first_le := by simp [view, gcInit, gcRootBufferMaxEntries]
  last_le := le_rfl
  used_le := nofun

@[simp] lemma view_addRoot (s : GcState N) (p : RootPtr) (n : N) (info : GcInfo) :
    (s.addRoot p n info).view = s.view.addRoot p n info.address := by
  simp only [view, addRoot, BufferView.addRoot, BufferView.mk.injEq, and_true]
  funext m
  by_cases h : m = n
  · rw [h, update_self, update_self]
  · rw [update_of_ne h, update_of_ne h]

omit [DecidableEq N] in
lemma BufferView.Wf.unused_cons (hw : s.view.Wf R T U []) (hne : s.unused ≠ .null) :
    ∃ i U', U = .buf i :: U' ∧ s.unused = .buf i := by
  cases U with
  | nil => exact absurd hw.unused hne
  | cons q U' =>
    obtain ⟨i, rfl⟩ := hw.unused_buf q (mem_cons_self ..)
    exact ⟨i, U', rfl, hw.unused.1⟩

lemma addRoot_wf {z : GcState N} (hw : z.view.Wf R T U [p]) (hn : (z.info n).address = 0)
    {color : Color} : (z.addRoot p n ⟨p.address, color⟩).view.Wf (p :: R) T U [] := by
  rw [view_addRoot]
  exact hw.addRoot hn

/-- **`gc_add_garbage`** takes a slot, from one of three places, and stores the value in it. -/
theorem gcAddGarbage_eq (hw : s.view.Wf R T U []) :
    ∃ (z : GcState N) (p : RootPtr) (U' : List RootPtr),
      gcAddGarbage n s = z.addRoot p n ⟨p.address, .black⟩ ∧ z.view.Wf R T U' [p] ∧
      z.info = s.info ∧ z.refcount = s.refcount ∧ z.ref = s.ref := by
  rw [gcAddGarbage]
  split_ifs with hu hf
  · obtain ⟨i, U', rfl, hi⟩ := hw.unused_cons hu
    simp only [hi]
    exact ⟨_, .buf i, U', rfl, hw.popUnused, rfl, rfl, rfl⟩
  · exact ⟨_, .buf s.firstUnused, U, rfl, hw.bump hf, rfl, rfl, rfl⟩
  -- the newest additional buffer has room, or a new one is made
  cases hb : s.additionalBuffer with
  | nil =>
    exact ⟨_, .additional 0 0, U, rfl, hw.newAdditional (.inr ⟨hb, rfl⟩), rfl, rfl, rfl⟩
  | cons used rest =>
    simp only
    split_ifs with hfl
    · have hnw : s.view.additionalBuffer = used :: rest ∧ 0 = 0 := ⟨hb, rfl⟩
      exact ⟨_, .additional (rest.length + 1) 0, U, rfl, hw.newAdditional (.inr hnw),
        rfl, rfl, rfl⟩
    · exact ⟨_, .additional rest.length used, U, rfl,
        hw.newAdditional (.inl ⟨hb, hfl⟩), rfl, rfl, rfl⟩

/-- `gc_add_garbage` keeps the invariant and the values in the other slots. -/
lemma gcAddGarbage_wf (hw : s.view.Wf R T U []) (hn : (s.info n).address = 0) :
    ∃ p U', (gcAddGarbage n s).view.Wf (p :: R) T U' [] ∧
      ∀ q ∈ R ++ T, (gcAddGarbage n s).ref q = s.ref q := by
  obtain ⟨z, p, U', heq, hz, hi, -, hr⟩ := gcAddGarbage_eq hw
  rw [heq]
  refine ⟨p, U', addRoot_wf hz (by rw [hi, hn]), fun q hq => ?_⟩
  rw [← hr]
  refine update_of_ne (fun he => ?_) _ _
  have hnd := hz.nodup
  rw [← append_assoc] at hnd
  exact disjoint_of_nodup_append hnd hq (by simp [he])

/-- `gc_add_garbage` leaves a black value black and the others as they are. -/
lemma gcAddGarbage_frame (hw : s.view.Wf R T U []) (hn : s.color n = .black) :
    (gcAddGarbage n s).color = s.color ∧ (gcAddGarbage n s).refcount = s.refcount := by
  obtain ⟨z, p, U', heq, -, hi, hc, -⟩ := gcAddGarbage_eq hw
  rw [heq]
  refine ⟨funext fun m => ?_, hc⟩
  simp only [color, addRoot, hi]
  by_cases hm : m = n
  · rw [hm, update_self]
    exact hn.symm
  · rw [update_of_ne hm]

/-! ## Removing a slot -/

/-- The slot that `GC_ADDRESS` names. Source: `zend_gc.c` `gc_remove_from_buffer`. -/
def GcState.named (s : GcState N) (ref : N) : Except GcError RootPtr :=
  if (s.info ref).address < gcRootBufferMaxEntries then .ok (.buf (s.info ref).address)
  else gcFindAdditionalBuffer ref s s.additionalBuffer

/-- Slots of the buffer go to the unused list. -/
def BufferView.giveBack (v : BufferView N) : RootPtr → BufferView N
  | .buf i => v.pushUnused (.buf i)
  | _ => v

omit [DecidableEq N] in
lemma BufferView.Wf.giveBack {v : BufferView N} (hw : v.Wf R T U (handBack p)) :
    ∃ U', (v.giveBack p).Wf R T U' [] := by
  cases p with
  | buf i => exact ⟨_, hw.pushUnused⟩
  | additional b i | null | roots | toFree => exact ⟨U, hw⟩

/-- Remove a root and forget the address of its value. -/
def removeSlot (root : RootPtr) (ref : N) (s : GcState N) : GcState N :=
  (if (s.info ref).address < gcRootBufferMaxEntries then gcRemoveFromRoots root s
    else gcRemoveFromAdditionalRoots root s).setInfo ref ⟨0, .black⟩

omit [DecidableEq N] in
/-- Addresses of slots of the buffer are below the limit, the others are not. -/
lemma BufferView.Wf.address_lt_iff {v : BufferView N} (hw : v.Wf R T U []) (hp : p ∈ R ++ T) :
    p.address < gcRootBufferMaxEntries ↔ ∃ i, p = .buf i := by
  have hsl := hw.slot p (BufferView.Wf.mem_slots hp)
  have hf := hw.first_le
  have hl := hw.last_le
  cases p with
  | buf i =>
    simp only [BufferView.IsSlot] at hsl
    simp only [RootPtr.address, RootPtr.buf.injEq, exists_eq', iff_true]
    omega
  | additional b i => simp [RootPtr.address]
  | null | roots | toFree => exact hsl.elim

lemma view_removeSlot (hw : s.view.Wf R T U []) (hp : p ∈ R ++ T) (hr : s.ref p = some n) :
    (removeSlot p n s).view = (s.view.unlink p n).giveBack p := by
  obtain ⟨m, hm, ha⟩ := hw.linked p hp
  obtain rfl : n = m := Option.some.inj (hr.symm.trans hm)
  have ha : (s.info n).address = p.address := ha
  have hif : (fun m => (update s.info n ⟨0, .black⟩ m).address) =
      update (fun m => (s.info m).address) n 0 := by
    funext m
    by_cases h : m = n
    · rw [h, update_self, update_self]
    · rw [update_of_ne h, update_of_ne h]
  rw [removeSlot, ha]
  by_cases hb : ∃ i, p = .buf i
  · rw [if_pos ((hw.address_lt_iff hp).mpr hb)]
    obtain ⟨i, rfl⟩ := hb
    simp only [view, setInfo, gcRemoveFromRoots, hif]
    rfl
  rw [if_neg fun hlt => hb ((hw.address_lt_iff hp).mp hlt)]
  have hsm : (s.view.unlink p n).giveBack p = s.view.unlink p n := by
    cases p with
    | buf i => exact absurd ⟨i, rfl⟩ hb
    | _ => rfl
  rw [hsm]
  simp only [view, setInfo, gcRemoveFromAdditionalRoots, hif]
  rfl

lemma removeSlot_wf {R1 R2 : List RootPtr} (hw : s.view.Wf (R1 ++ p :: R2) T U [])
    (hr : s.ref p = some n) : ∃ U', (removeSlot p n s).view.Wf (R1 ++ R2) T U' [] := by
  rw [view_removeSlot hw (by simp) hr]
  exact (hw.unlinkRoots hr).giveBack

lemma removeSlot_toFree_wf {T1 T2 : List RootPtr} (hw : s.view.Wf R (T1 ++ p :: T2) U [])
    (hr : s.ref p = some n) : ∃ U', (removeSlot p n s).view.Wf R (T1 ++ T2) U' [] := by
  rw [view_removeSlot hw (by simp) hr]
  exact (hw.unlinkToFree hr).giveBack

/-- **`GC_ADDRESS` names the slot of a value.** -/
theorem named_eq (hw : s.view.Wf R T U []) (hp : p ∈ R ++ T) (hr : s.ref p = some n) :
    s.named n = .ok p := by
  obtain ⟨m, hm, ha⟩ := hw.linked p hp
  obtain rfl : n = m := Option.some.inj (hr.symm.trans hm)
  have ha : (s.info n).address = p.address := ha
  have hsl := hw.slot p (BufferView.Wf.mem_slots hp)
  rw [GcState.named, ha]
  cases p with
  | buf i => rw [if_pos ((hw.address_lt_iff hp).mpr ⟨i, rfl⟩), RootPtr.address]
  | additional b i =>
    rw [if_neg fun hlt => by simpa using (hw.address_lt_iff hp).mp hlt]
    exact gcFindAdditionalBuffer_eq hw hp hr
  | null | roots | toFree => exact hsl.elim

lemma gcRemoveFromBuffer_eq (hn : s.named n = .ok p) :
    gcRemoveFromBuffer n s = .ok (if (removeSlot p n s).nextToFree = p then
      { removeSlot p n s with nextToFree := (removeSlot p n s).links.next p }
      else removeSlot p n s) := by
  rw [GcState.named] at hn
  rw [gcRemoveFromBuffer, removeSlot]
  split_ifs at hn with hlt
  · simp only [if_pos hlt]
    obtain rfl := Except.ok.inj hn
    rfl
  · simp only [if_neg hlt, hn]
    rfl

lemma gcRemoveFromBuffer_wf (hw : s.view.Wf R T U []) (hn : (s.info n).address ≠ 0) :
    ∃ s', gcRemoveFromBuffer n s = .ok s' ∧ ∃ R' T' U', s'.view.Wf R' T' U' [] := by
  obtain ⟨p, hp, hr⟩ := hw.buffered n hn
  refine ⟨_, gcRemoveFromBuffer_eq (named_eq hw hp hr), ?_⟩
  have hv : ∀ z : GcState N, (if z.nextToFree = p then { z with nextToFree := z.links.next p }
      else z).view = z.view := fun z => by split_ifs <;> rfl
  rw [hv]
  rcases mem_append.mp hp with hp | hp
  · obtain ⟨R1, R2, rfl⟩ := append_of_mem hp
    obtain ⟨U', hw'⟩ := removeSlot_wf hw hr
    exact ⟨R1 ++ R2, T, U', hw'⟩
  · obtain ⟨T1, T2, rfl⟩ := append_of_mem hp
    obtain ⟨U', hw'⟩ := removeSlot_toFree_wf hw hr
    exact ⟨R, T1 ++ T2, U', hw'⟩

end PhpInternals.Zend.ZendGc

import PhpInternals.Zend.ZendObjectsApi.Table

/-!
# Deletions with handlers

Every function of the store keeps it in order up to the next handler.
-/

namespace PhpInternals.Zend.ZendObjectsApi

open Store Function Nat List Found

/-! ## Running handlers -/

/-- Source: `zend_objects_API.c` `zend_objects_store_del`. -/
structure FramesOk (s : Store) : Prop where
  held : ∀ a o, s.obj a = some o → s.held a ≤ o.refcount
  holding : ∀ a, 0 < s.held a → a ∉ s.beingFreed ∧ ∃ o, s.obj a = some o
  freeing : ∀ a h, Frame.free a h ∈ s.stack → ∃ o, s.obj a = some o ∧ o.handle = h
  nodup : s.beingFreed.Nodup

/-- A handler was called at most once, and only if its flag says so. -/
structure Obj.RunsOk (o : Obj) : Prop where
  dtor : o.dtorRuns ≤ if o.destructorCalled then 1 else 0
  free : o.freeRuns ≤ if o.freeCalled then 1 else 0

/-- **The store between two actions.** -/
structure StoreOk (s : Store) (free : List ℕ) : Prop where
  table : TableOk s free s.beingFreed
  frames : FramesOk s
  runs : ∀ a o, s.obj a = some o → o.RunsOk

/-- The store is in order, with some free list. -/
def Good (s : Store) : Prop := ∃ free, StoreOk s free

section
variable {s s' : Store} {free : List ℕ} {a b : Ptr} {o o' : Obj} {f : Frame} {stack : List Frame}

lemma Store.held_cons (s : Store) (f : Frame) (stack : List Frame) (a : Ptr) :
    ({ s with stack := f :: stack } : Store).held a =
      ({ s with stack := stack } : Store).held a + if f.holds a then 1 else 0 := by
  simp [held, countP_cons]

lemma mem_beingFreed_of_free {h : ℕ} (hm : Frame.free a h ∈ s.stack) : a ∈ s.beingFreed :=
  mem_filterMap.mpr ⟨_, hm, rfl⟩

namespace FramesOk

section

variable (h : FramesOk s)
include h

lemma setObj (ho : s.obj a = some o) (hh : o'.handle = o.handle)
    (hle : s.held a ≤ o'.refcount) : FramesOk (s.setObj a o') := by
  have hkp : ∀ b x, s.obj b = some x → ∃ y, (s.setObj a o').obj b = some y ∧
    y.handle = x.handle := by
    intro b x hx
    by_cases heq : b = a
    · rw [heq, ho] at hx
      exact ⟨o', heq ▸ update_self .., hh.trans (congrArg _ (Option.some.inj hx))⟩
    · exact ⟨x, (update_of_ne heq _ _).trans hx, rfl⟩
  refine ⟨fun b x hx => ?_, fun b hb => ?_, fun b k hm => ?_, h.nodup⟩
  · rcases setObj_some hx with ⟨rfl, rfl⟩ | ⟨-, hx⟩
    · exact hle
    · exact h.held b x hx
  · obtain ⟨hbf, x, hx⟩ := h.holding b hb
    obtain ⟨y, hy, -⟩ := hkp b x hx
    exact ⟨hbf, y, hy⟩
  · obtain ⟨x, hx, rfl⟩ := h.freeing b k hm
    exact hkp b x hx

lemma delFinish (hhl : s.held a = 0) (hbf : a ∉ s.beingFreed) (k : ℕ) :
    FramesOk (delFinish s a k) := by
  have hne : ∀ b x, b ≠ a → s.obj b = some x → (ZendObjectsApi.delFinish s a k).obj b = some x :=
    fun b x hne hx => (update_of_ne hne _ _).trans hx
  refine ⟨fun b x hx => ?_, fun b hb => ?_, fun b j hm => ?_, h.nodup⟩
  · by_cases heq : b = a
    · rw [heq]
      exact hhl.le.trans (zero_le _)
    · exact h.held b x ((update_of_ne heq _ _).symm.trans hx)
  · obtain ⟨hbf', x, hx⟩ := h.holding b hb
    refine ⟨hbf', x, hne b x ?_ hx⟩
    rintro rfl
    exact hb.ne' hhl
  · obtain ⟨x, hx, hh⟩ := h.freeing b j hm
    exact ⟨x, hne b x (ne_of_mem_of_not_mem (mem_beingFreed_of_free hm) hbf) hx, hh⟩

lemma pushHolds (ho : s.obj a = some o) (hbf : a ∉ s.beingFreed)
    (hle : s.held a + 1 ≤ o.refcount) (hh : ∀ b, f.holds b = (a == b)) (hfr : f.freeing = none) :
    FramesOk (s.push f) := by
  have hhl : ∀ b, (s.push f).held b = s.held b + if a = b then 1 else 0 := by
    intro b
    refine (held_cons s f s.stack b).trans ?_
    simp [hh]
  have hf : (s.push f).beingFreed = s.beingFreed := filterMap_cons_none hfr
  refine ⟨fun b x hx => ?_, fun b hb => ?_, fun b k hm => ?_, hf ▸ h.nodup⟩
  · rw [hhl]
    split_ifs with heq
    · have hx' : s.obj a = some x := heq ▸ hx
      rw [← heq, ← Option.some.inj (ho.symm.trans hx')]
      exact hle
    · exact h.held b x hx
  · rw [hf]
    by_cases heq : a = b
    · exact heq ▸ ⟨hbf, o, ho⟩
    · rw [hhl, if_neg heq] at hb
      exact h.holding b hb
  · rcases mem_cons.mp hm with rfl | hm
    · cases hfr
    · exact h.freeing b k hm

lemma pushFree (ho : s.obj a = some o) (hbf : a ∉ s.beingFreed)
    (hhl : s.held a = 0) : FramesOk (s.push (.free a o.handle)) := by
  have hsm : ∀ b, (s.push (.free a o.handle)).held b = s.held b := fun b =>
    held_cons s (.free a o.handle) s.stack b
  refine ⟨fun b x hx => ?_, fun b hb => ?_, fun b k hm => ?_, nodup_cons.mpr ⟨hbf, h.nodup⟩⟩
  · exact h.held b x hx
  · refine ⟨?_, (h.holding b hb).2⟩
    change b ∉ a :: s.beingFreed
    rw [mem_cons, not_or]
    refine ⟨?_, (h.holding b hb).1⟩
    rintro rfl
    exact hb.ne' hhl
  · rcases mem_cons.mp hm with heq | hm
    · cases heq
      exact ⟨o, ho, rfl⟩
    · exact h.freeing b k hm

lemma popHolds (hs : s.stack = f :: stack) (hh : ∀ b, f.holds b = (a == b))
    (hfr : f.freeing = none) :
    FramesOk { s with stack := stack } ∧
    ({ s with stack := stack } : Store).beingFreed = s.beingFreed ∧
      a ∉ s.beingFreed ∧ ∃ o, s.obj a = some o ∧
        ({ s with stack := stack } : Store).held a + 1 ≤ o.refcount := by
  have hhl : ∀ b, s.held b = ({ s with stack := stack } : Store).held b +
    if a = b then 1 else 0 := by
    intro b
    have hc := held_cons s f stack b
    simp only [hh, beq_iff_eq] at hc
    rw [← hc, ← hs]
  have hf : ({ s with stack := stack } : Store).beingFreed = s.beingFreed := by
    rw [beingFreed, beingFreed, hs, filterMap_cons_none hfr]
  have hsl : 0 < s.held a := by
    rw [hhl, if_pos rfl]
    exact succ_pos _
  obtain ⟨hbf, o, ho⟩ := h.holding a hsl
  refine ⟨⟨fun b x hx => ?_, fun b hb => ?_, fun b k hm => ?_, hf ▸ h.nodup⟩, hf, hbf, o, ho, ?_⟩
  · exact (le_add_right _ _).trans ((hhl b).symm.le.trans (h.held b x hx))
  · rw [hf]
    refine h.holding b (hb.trans_le ?_)
    rw [hhl b]
    exact le_add_right _ _
  · exact h.freeing b k (hs ▸ mem_cons_of_mem _ hm)
  · have hle := h.held a o ho
    rwa [hhl, if_pos rfl] at hle

lemma popFree {k : ℕ} (hs : s.stack = .free a k :: stack) : FramesOk { s with stack := stack } ∧
      s.beingFreed = a :: ({ s with stack := stack } : Store).beingFreed ∧
      ({ s with stack := stack } : Store).held a = 0 := by
  have hhl : ∀ b, s.held b = ({ s with stack := stack } : Store).held b := by
    intro b
    rw [Store.held, hs]
    exact countP_cons_of_neg Bool.false_ne_true
  have hf : s.beingFreed = a :: ({ s with stack := stack } : Store).beingFreed := by
    rw [beingFreed, hs]
    rfl
  have hn := h.nodup
  rw [hf] at hn
  refine ⟨⟨fun b x hx => ?_, fun b hb => ?_, fun b j hm => ?_, (nodup_cons.mp hn).2⟩, hf, ?_⟩
  · rw [← hhl]
    exact h.held b x hx
  · obtain ⟨hbf, hob⟩ := h.holding b (by rwa [hhl])
    rw [hf] at hbf
    exact ⟨fun hm => hbf (mem_cons_of_mem _ hm), hob⟩
  · exact h.freeing b j (hs ▸ mem_cons_of_mem _ hm)
  by_contra hne
  have hp : 0 < s.held a := by
    rw [hhl]
    exact pos_of_ne_zero hne
  refine (h.holding a hp).1 ?_
  rw [hf]
  exact mem_cons_self

end

end FramesOk

/-! ## Functions of the store -/

/-- No object is added, and every object has the handle it had. -/
def Kept (s s' : Store) : Prop :=
  ∀ b x, s'.obj b = some x → ∃ y, s.obj b = some y ∧ x.handle = y.handle

lemma Kept.refl (s : Store) : Kept s s := fun _ x hx => ⟨x, hx, rfl⟩

lemma Kept.trans {s'' : Store} (h : Kept s s') (h' : Kept s' s'') : Kept s s'' := by
  intro b x hx
  obtain ⟨y, hy, hxy⟩ := h' b x hx
  obtain ⟨z, hz, hyz⟩ := h b y hy
  exact ⟨z, hz, hxy.trans hyz⟩

lemma Kept.setObj (ho : s.obj a = some o) (hh : o'.handle = o.handle) : Kept s (s.setObj a o') := by
  intro b x hx
  rcases setObj_some hx with ⟨rfl, rfl⟩ | ⟨-, hx⟩
  · exact ⟨o, ho, hh⟩
  · exact ⟨x, hx, rfl⟩

lemma Kept.delFinish (s : Store) (a : Ptr) (k : ℕ) : Kept s (delFinish s a k) :=
  fun _ x hx => ⟨x, (delFinish_some hx).2, rfl⟩

/-- A function of the store returns, or it stands at a handler, in a good state. -/
def Succeeds (s : Store) (r : Except StoreFault Store) : Prop := ∃ s', r = .ok s' ∧
    Good s' ∧ Kept s s'

lemma Succeeds.of_kept {r : Except StoreFault Store} (h : Succeeds s' r) (hk : Kept s s') :
    Succeeds s r := by
  obtain ⟨t, ht, hg, hk'⟩ := h
  exact ⟨t, ht, hg, hk.trans hk'⟩

lemma Store.readObj_eq (ho : s.obj a = some o) : s.readObj a = .ok o := by rw [readObj, ho]

lemma StoreOk.setObj (h : StoreOk s free) (ho : s.obj a = some o) (hh : o'.handle = o.handle)
    (hle : s.held a ≤ o'.refcount) (hr : o'.RunsOk) : StoreOk (s.setObj a o') free := by
  refine ⟨h.table.setObj ho hh, h.frames.setObj ho hh hle, fun b x hx => ?_⟩
  rcases setObj_some hx with ⟨-, rfl⟩ | ⟨-, hx⟩
  · exact hr
  · exact h.runs b x hx

lemma delFinish_setObj (s : Store) (a : Ptr) (o : Obj) (k : ℕ) :
    delFinish (s.setObj a o) a k = delFinish s a k := by
  simp [delFinish, setObj]

/-- **An object without a reference and without a handler that runs is freed.** -/
theorem StoreOk.finish (h : StoreOk s free) (ho : s.obj a = some o) (hbf : a ∉ s.beingFreed)
    (hhl : s.held a = 0) :
    StoreOk (delFinish (s.setBucket o.handle (setObjInvalid a)) a o.handle) (o.handle :: free) := by
  refine ⟨(h.table.invalidate ho).finish ho fun b hne => ?_, ?_, fun b x hx => ?_⟩
  · rw [mem_cons]
    exact ⟨.inr, fun hm => hm.resolve_left hne⟩
  · have hf : FramesOk (s.setBucket o.handle (setObjInvalid a)) := { h.frames with }
    exact hf.delFinish hhl hbf _
  · exact h.runs b x (delFinish_some hx).2

lemma delFree_good (h : Good s) (hl : s.Live a o) : Succeeds s (delFree s a) := by
  obtain ⟨free, h⟩ := h
  obtain ⟨ho, hbf⟩ := hl
  have hk := Kept.delFinish (s.setBucket o.handle (setObjInvalid a)) a o.handle
  rw [delFree, readObj_eq ho]
  change Succeeds s (if o.refcount = 0 then _ else _)
  have hhl : o.refcount = 0 → s.held a = 0 := fun hz => le_zero.mp (hz ▸ h.frames.held a o ho)
  split_ifs with hz hc hfr
  · exact ⟨_, rfl, ⟨_, h.finish ho hbf (hhl hz)⟩, hk⟩
  · replace hhl := hhl hz
    have hr := h.runs a o ho
    refine ⟨_, rfl, ⟨free, ?_, ?_, ?_⟩, ?_⟩
    · have hse : TableOk ((s.setBucket o.handle (setObjInvalid a)).setObj a o.callFree) free
          (a :: s.beingFreed) := (h.table.invalidate ho).setObj ho rfl
      exact hse.setStack _
    · have hf : FramesOk (s.setBucket o.handle (setObjInvalid a)) := { h.frames with }
      have hse : FramesOk ((s.setBucket o.handle (setObjInvalid a)).setObj a o.callFree) :=
        hf.setObj ho rfl (hhl.le.trans (zero_le _))
      exact hse.pushFree (o := o.callFree) (update_self ..) hbf hhl
    · intro b x hx
      rcases setObj_some hx with ⟨-, rfl⟩ | ⟨-, hx⟩
      · refine ⟨hr.dtor, ?_⟩
        have hn := hr.free
        rw [if_neg hc] at hn
        exact succ_le_succ hn
      · exact h.runs b x hx
    · exact Kept.setObj ho rfl
  · replace hhl := hhl hz
    refine ⟨_, rfl, ?_, ?_⟩
    · rw [delFinish_setObj]
      exact ⟨_, h.finish ho hbf hhl⟩
    · rw [delFinish_setObj]
      exact hk
  · exact ⟨s, rfl, ⟨free, h⟩, .refl s⟩

lemma StoreOk.callDtor (h : StoreOk s free) (ho : s.obj a = some o) (hbf : a ∉ s.beingFreed)
    (hc : o.destructorCalled = false) (hh : ∀ b, f.holds b = (a == b)) (hfre : f.freeing = none) :
    StoreOk ((s.setObj a o.callDtor).push f) free := by
  have hrn := h.runs a o ho
  have hr : o.callDtor.RunsOk := by
    refine ⟨?_, hrn.free⟩
    have hn := hrn.dtor
    rw [hc] at hn
    exact succ_le_succ hn
  have hle := h.frames.held a o ho
  have hse : StoreOk (s.setObj a o.callDtor) free := h.setObj ho rfl (hle.trans (le_succ _)) hr
  have hf := hse.frames.pushHolds (update_self ..) hbf (succ_le_succ hle) hh hfre
  refine ⟨?_, hf, hse.runs⟩
  have hfr : ((s.setObj a o.callDtor).push f).beingFreed = s.beingFreed := filterMap_cons_none hfre
  rw [hfr]
  exact hse.table.setStack _

lemma StoreOk.markDtor (h : StoreOk s free) (ho : s.obj a = some o)
    (hc : o.destructorCalled = false) :
    StoreOk (s.setObj a o.markDtor) free := by
  have hr := h.runs a o ho
  refine h.setObj ho rfl (h.frames.held a o ho) ⟨?_, hr.free⟩
  have hn := hr.dtor
  rw [hc] at hn
  exact hn.trans (zero_le _)

/-- **The deletion of an object** whose last reference is gone. -/
theorem del_good (h : Good s) (hl : s.Live a o) (hz : o.refcount = 0) : Succeeds s (del s a) := by
  obtain ⟨free, hok⟩ := id h
  obtain ⟨ho, hbf⟩ := id hl
  have hv : isObjValid (s.objectBuckets o.handle) := by
    rw [hok.table.entry a o ho, if_neg hbf]
    exact hok.table.valid a o ho
  rw [del, readObj_eq ho]
  change Succeeds s (if isObjValid (s.objectBuckets o.handle) then _ else _)
  split_ifs with hc hdt
  · exact delFree_good h hl
  · rw [Bool.not_eq_true] at hc
    exact ⟨_, rfl, ⟨free, hok.callDtor ho hbf hc (fun _ => rfl) rfl⟩, Kept.setObj ho rfl⟩
  · rw [Bool.not_eq_true] at hc
    have hm := delFree_good ⟨free, hok.markDtor ho hc⟩ ⟨update_self .., hbf⟩
    exact hm.of_kept (Kept.setObj ho rfl)

/-- **Releasing a reference** never touches a freed object. -/
lemma release_good (h : Good s) (hl : s.Live a o) (hhl : s.held a < o.refcount) :
    Succeeds s (release s a) := by
  obtain ⟨free, hok⟩ := h
  obtain ⟨ho, hbf⟩ := hl
  have hdc : StoreOk (s.setObj a o.decRef) free :=
    hok.setObj ho rfl (le_sub_one_of_lt hhl) ⟨(hok.runs a o ho).dtor, (hok.runs a o ho).free⟩
  have hsl : (s.setObj a o.decRef).obj a = some o.decRef := update_self ..
  have heq : release s a =
      if o.decRef.refcount = 0 then del (s.setObj a o.decRef) a
      else .ok (s.setObj a o.decRef) := by
    simp [release, decRefcount, readObj_eq ho, bind, Except.bind, pure, Except.pure, readObj_eq hsl]
  rw [heq]
  split_ifs with hz
  · exact (del_good ⟨free, hdc⟩ ⟨hsl, hbf⟩ hz).of_kept (Kept.setObj ho rfl)
  · exact ⟨_, rfl, ⟨free, hdc⟩, Kept.setObj ho rfl⟩

/-- **The loop over the destructors**, up to the next one that runs. -/
theorem destructorsFrom_good (n : ℕ) {s : Store} {i : ℕ} (h : Good s) (hi : 0 < i) :
    Succeeds s (destructorsFrom s n i) := by
  induction n generalizing s i with
  | zero => exact ⟨s, rfl, h, .refl s⟩
  | succ n ih =>
    rw [destructorsFrom]
    split_ifs with hlt hv
    · obtain ⟨free, hok⟩ := id h
      obtain ⟨o, ho, -, hbf⟩ := hok.table.obj_of_valid hi hlt hv
      rw [readObj_eq ho]
      change Succeeds s (if o.destructorCalled = true then _ else _)
      split_ifs with hc hdt
      · exact ih h (succ_pos i)
      · rw [Bool.not_eq_true] at hc
        exact ⟨_, rfl, ⟨free, hok.callDtor ho hbf hc (fun _ => rfl) rfl⟩, Kept.setObj ho rfl⟩
      · rw [Bool.not_eq_true] at hc
        exact (ih ⟨free, hok.markDtor ho hc⟩ (succ_pos i)).of_kept (Kept.setObj ho rfl)
    · exact ih h (succ_pos i)
    · exact ⟨s, rfl, h, .refl s⟩

/-- When a destructor returns, its object is still there. -/
lemma StoreOk.popHolds (h : StoreOk s free) (hs : s.stack = f :: stack)
    (hh : ∀ b, f.holds b = (a == b)) (hfre : f.freeing = none) :
    ∃ o s', s.obj a = some o ∧ decRefcount { s with stack := stack } a = .ok s' ∧
      s' = ({ s with stack := stack } : Store).setObj a o.decRef ∧
      StoreOk s' free ∧ s'.Live a o.decRef ∧ Kept s s' := by
  obtain ⟨hfr, hf, hbf, o, ho, hle⟩ := h.frames.popHolds hs hh hfre
  have hp : StoreOk { s with stack := stack } free := ⟨hf ▸ h.table.setStack stack, hfr, h.runs⟩
  have hdc : StoreOk (({ s with stack := stack } : Store).setObj a o.decRef) free :=
    hp.setObj ho rfl (le_sub_one_of_lt hle) ⟨(h.runs a o ho).dtor, (h.runs a o ho).free⟩
  refine ⟨o, _, ho, ?_, rfl, hdc, ⟨update_self .., hf ▸ hbf⟩,
    Kept.setObj ho rfl⟩
  have hr : ({ s with stack := stack } : Store).readObj a = .ok o := readObj_eq ho
  simp [decRefcount, hr, bind, Except.bind, pure, Except.pure]

/-- **The return of a handler** goes on where the call was made. -/
lemma handlerReturns_good (h : Good s) : Succeeds s (handlerReturns s) := by
  obtain ⟨free, hok⟩ := id h
  rw [handlerReturns]
  split
  · exact ⟨s, rfl, h, .refl s⟩
  · next a stack hs =>
      obtain ⟨o, t, ho, hdc, -, hg, hl, hkp⟩ := hok.popHolds hs (fun b => rfl) rfl
      rw [hdc]
      exact (delFree_good ⟨free, hg⟩ hl).of_kept hkp
  · next a k stack hs =>
      obtain ⟨hfr, hf, hhl⟩ := hok.frames.popFree hs
      obtain ⟨o, ho, rfl⟩ := hok.frames.freeing a k (hs ▸ mem_cons_self)
      have hn := hok.frames.nodup
      rw [hf] at hn
      have hr : ({ s with stack := stack } : Store).readObj a = .ok o := readObj_eq ho
      simp only [decRefcount, hr, bind, Except.bind, pure, Except.pure, delFinish_setObj]
      refine ⟨_, rfl, ⟨o.handle :: free, ?_, hfr.delFinish hhl (nodup_cons.mp hn).1 _, ?_⟩,
        Kept.delFinish ({ s with stack := stack } : Store) a o.handle⟩
      · refine (hok.table.setStack stack).finish ho fun b hne => ?_
        rw [hf, mem_cons]
        exact ⟨.inr, fun hm => hm.resolve_left hne⟩
      · intro b x hx
        exact hok.runs b x (delFinish_some hx).2
  · next a i stack hs =>
      obtain ⟨o, t, ho, hdc, -, hg, -, hkp⟩ := hok.popHolds hs (fun b => rfl) rfl
      rw [hdc]
      exact (destructorsFrom_good t.top ⟨free, hg⟩ (succ_pos i)).of_kept hkp

end

end PhpInternals.Zend.ZendObjectsApi

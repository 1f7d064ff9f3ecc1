import PhpInternals.Zend.ZendObjectsApi.Handlers

/-!
# Handles of objects
-/

namespace PhpInternals.Zend.ZendObjectsApi

open Store Function Nat List Found

section
variable {s s' : Store} {free : List ℕ} {a b : Ptr} {o o' : Obj} {initSize : ℕ}

/-! ## New objects -/

lemma FramesOk.obj_of_beingFreed (h : FramesOk s) (ha : a ∈ s.beingFreed) :
    ∃ o, s.obj a = some o := by
  obtain ⟨f, hm, hf⟩ := mem_filterMap.mp ha
  cases f with
  | dtor b | destructors b i => cases hf
  | free b k =>
    cases hf
    obtain ⟨o, ho, -⟩ := h.freeing a k hm
    exact ⟨o, ho⟩

lemma FramesOk.of_new (h : FramesOk s) (hnw : s.obj a = none) :
    a ∉ s.beingFreed ∧ s.held a = 0 := by
  have hn : ¬ ∃ o, s.obj a = some o := by
    rintro ⟨o, ho⟩
    rw [hnw] at ho
    cases ho
  refine ⟨fun hm => hn (h.obj_of_beingFreed hm), ?_⟩
  by_contra hne
  exact hn (h.holding a (pos_of_ne_zero hne)).2

lemma FramesOk.addObj (h : FramesOk s) (hn : s.obj a = none)
    (hob : s'.obj = update s.obj a (some o)) (hs : s'.stack = s.stack) : FramesOk s' := by
  obtain ⟨-, hhl⟩ := h.of_new hn
  have hsm : ∀ b, s'.held b = s.held b := fun b => by rw [Store.held, Store.held, hs]
  have hf : s'.beingFreed = s.beingFreed := by rw [Store.beingFreed, Store.beingFreed, hs]
  have hol : ∀ b x, s.obj b = some x → s'.obj b = some x := by
    intro b x hx
    have hne : b ≠ a := by
      rintro rfl
      rw [hn] at hx
      cases hx
    rw [hob, update_of_ne hne, hx]
  refine ⟨fun b x hx => ?_, fun b hb => ?_, fun b k hm => ?_, hf ▸ h.nodup⟩
  · rw [hsm]
    rw [hob] at hx
    rcases setObj_some hx with ⟨rfl, -⟩ | ⟨-, hx⟩
    · exact hhl.le.trans (zero_le _)
    · exact h.held b x hx
  · rw [hsm] at hb
    rw [hf]
    obtain ⟨hbf, x, hx⟩ := h.holding b hb
    exact ⟨hbf, x, hol b x hx⟩
  · rw [hs] at hm
    obtain ⟨x, hx, hk⟩ := h.freeing b k hm
    exact ⟨x, hol b x hx, hk⟩

/-- The outcome of `zend_objects_store_put`. -/
def Placed (s : Store) (a : Ptr) (o : Obj) (s' : Store) : Prop :=
  Good s' ∧ ∃ k, s'.obj = update s.obj a (some { o with handle := k }) ∧
    (s.inShutdown = true → k = s.top)

lemma StoreOk.placed {k : ℕ} (free' : List ℕ) (h : StoreOk s free) (hn : s.obj a = none)
    (hr : o.RunsOk) (hob : s'.obj = update s.obj a (some { o with handle := k }))
    (hs : s'.stack = s.stack) (htb : TableOk s' free' s.beingFreed) : Good s' := by
  have hf : s'.beingFreed = s.beingFreed := by rw [beingFreed, beingFreed, hs]
  refine ⟨free', hf ▸ htb, h.frames.addObj hn hob hs, fun b x hx => ?_⟩
  rw [hob] at hx
  rcases setObj_some hx with ⟨-, rfl⟩ | ⟨-, hx⟩
  · exact ⟨hr.dtor, hr.free⟩
  · exact h.runs b x hx

lemma place_eq (ho : s.obj a = some o) {k : ℕ} (hk : k < s.size) :
    place s a k = .ok ((s.setObj a { o with handle := k }).setBucket k a) := by
  rw [place, readObj_eq ho]
  change (if (0 : ℤ) ≤ k ∧ (k : ℤ) < s.size then _ else _) = _
  rw [if_pos (by omega)]
  rfl

lemma put_reuses (h : StoreOk s free) (hnw : s.obj a = none) (hv : isObjValid a)
    (hr : o.RunsOk) (hs : s.inShutdown = false) (hhd : s.freeListHead ≠ -1) :
    ∃ s', put (s.setObj a o) a = .ok s' ∧ Placed s a o s' := by
  obtain ⟨hbf, -⟩ := h.frames.of_new hnw
  have hc := h.table.chain
  cases free with
  | nil => exact absurd hc hhd
  | cons k free =>
    have hn : (k :: free).Nodup := hc.nodup.of_map _
    obtain ⟨hk, -, hta⟩ := hc
    have hkm : k ∈ k :: free := mem_cons_self
    obtain ⟨hkp, hkl, -⟩ := h.table.tagged k hkm
    have hp : put (s.setObj a o) a = .ok ((({ s.setObj a o with
        freeListHead := getObjBucketNumber (s.objectBuckets k) } : Store).setObj a
          { o with handle := k }).setBucket k a) := by
      have hk : (s.setObj a o).freeListHead = k := hk
      rw [put, if_pos ⟨hs, hhd⟩, hk]
      exact place_eq (update_self ..) (hkl.trans_le h.table.top_le)
    have hob : (update (update s.obj a (some o)) a (some { o with handle := k })) =
        update s.obj a (some { o with handle := k }) := update_idem ..
    refine ⟨_, hp, h.placed free hnw hr hob rfl ?_, k, hob, ?_⟩
    · refine h.table.place free hnw hv hbf hob rfl rfl hkp hkl h.table.top_le
        h.table.top_le_limit ?_ le_rfl (fun j => ?_) ?_ fun j _ hj => .inr hj
      · rintro b x hx rfl
        exact (h.table.handle b x hx).2.2 hkm
      · rw [mem_cons]
        constructor
        · intro hj
          exact ⟨.inr hj, ne_of_mem_of_not_mem hj (nodup_cons.mp hn).1⟩
        · rintro ⟨rfl | hj, hne⟩
          · exact absurd rfl hne
          · exact hj
      · exact hta
    · intro hon
      rw [hon] at hs
      cases hs

/-- The table is doubled as long as that fits in 32 bits. -/
lemma growIfFull_room (hps : 0 < s.top) (hle : s.top ≤ s.size) (hl : s.top < handleLimit) :
    growIfFull s = { s with size := (growIfFull s).size } ∧ s.top + 1 ≤ (growIfFull s).size := by
  rw [handleLimit] at hl
  unfold growIfFull
  split_ifs with hf
  · refine ⟨rfl, ?_⟩
    simp only
    omega
  · exact ⟨rfl, by omega⟩

lemma put_eq_of_room (hnt : ¬ (s.inShutdown = false ∧ s.freeListHead ≠ -1)) (hps : 0 < s.top)
    (hle : s.top ≤ s.size) (hl : s.top < handleLimit) (ho : s.obj a = some o) :
    ∃ size, s.top + 1 ≤ size ∧ put s a =
      .ok (({ s with size := size, top := s.top + 1 }.setObj a { o with handle := s.top }).setBucket
        s.top a) := by
  obtain ⟨hg, hrm⟩ := growIfFull_room hps hle hl
  rw [handleLimit] at hl
  have htp : (s.top + 1) % 2 ^ 32 = s.top + 1 := Nat.mod_eq_of_lt (by omega)
  have hb : Int.bmod s.top (2 ^ 32) = s.top := Int.bmod_eq_of_le (by omega) (by omega)
  refine ⟨_, hrm, ?_⟩
  rw [put, if_neg hnt, hg]
  simp only [htp, hb]
  exact place_eq (s := { s with size := (growIfFull s).size, top := s.top + 1 }) ho hrm

lemma put_appends (h : StoreOk s free) (hn : s.obj a = none) (hv : isObjValid a)
    (hr : o.RunsOk) (hnt : ¬ (s.inShutdown = false ∧ s.freeListHead ≠ -1))
    (hl : s.top < handleLimit) :
    ∃ s', put (s.setObj a o) a = .ok s' ∧ Placed s a o s' := by
  obtain ⟨hbf, -⟩ := h.frames.of_new hn
  have hob : (update (update s.obj a (some o)) a (some { o with handle := s.top })) =
      update s.obj a (some { o with handle := s.top }) := update_idem ..
  obtain ⟨size, hrm, hput⟩ :=
    put_eq_of_room (s := s.setObj a o) hnt h.table.top_pos h.table.top_le hl (update_self ..)
  refine ⟨_, hput, h.placed free hn hr hob rfl ?_, s.top, hob, fun _ => rfl⟩
  refine h.table.place free hn hv hbf hob rfl rfl h.table.top_pos
    (lt_succ_self _) hrm hl (fun b x hx => (h.table.handle b x hx).2.1.ne) (le_succ _)
    (fun j => ?_) h.table.chain fun j _ hj => (Nat.lt_succ_iff_lt_or_eq.mp hj).symm
  exact (and_iff_left_of_imp fun hj => (h.table.tagged j hj).2.1.ne).symm

/-- At `2 ^ 31` the handle is negative. -/
lemma put_overruns (hnt : ¬ (s.inShutdown = false ∧ s.freeListHead ≠ -1)) (hl : s.top = handleLimit)
    (ho : s.obj a = some o) : put s a = .error .outOfTable := by
  have htp : (growIfFull s).top = s.top ∧ (growIfFull s).obj = s.obj := by
    unfold growIfFull
    split_ifs <;> exact ⟨rfl, rfl⟩
  have hb : Int.bmod (growIfFull s).top (2 ^ 32) = -2 ^ 31 := by
    rw [htp.1, hl, handleLimit]
    norm_num [Int.bmod]
  have hr : ∀ top, ({ growIfFull s with top := top } : Store).readObj a = .ok o := fun _ =>
    readObj_eq (htp.2 ▸ ho)
  rw [put, if_neg hnt]
  simp only [hb, place, hr]
  rfl

/-! ## Runs -/

/-- What an action does to the objects: those that were there keep their handles, and in the
shutdown a new one gets a handle that was never used. -/
structure Stepped (s s' : Store) : Prop where
  keeps : ∀ a o o', s.obj a = some o → s'.obj a = some o' → o'.handle = o.handle
  fresh : s.inShutdown = true → ∀ a o', s.obj a = none → s'.obj a = some o' → o'.handle = s.top

lemma Kept.stepped (h : Kept s s') : Stepped s s' := by
  refine ⟨fun a o o' ho ho' => ?_, fun _ a o' hn ho' => ?_⟩
  · obtain ⟨y, hy, hh⟩ := h a o' ho'
    rw [hh, Option.some.inj (hy.symm.trans ho)]
  · obtain ⟨y, hy, -⟩ := h a o' ho'
    rw [hn] at hy
    cases hy

lemma Placed.stepped (h : Placed s a o s') (hnw : s.obj a = none) : Stepped s s' := by
  obtain ⟨-, k, hob, htp⟩ := h
  refine ⟨fun b x y hx hy => ?_, fun hon b y hn hy => ?_⟩
  · rw [hob] at hy
    rcases setObj_some hy with ⟨rfl, -⟩ | ⟨-, hy⟩
    · rw [hnw] at hx
      cases hx
    · rw [Option.some.inj (hx.symm.trans hy)]
  · rw [hob] at hy
    rcases setObj_some hy with ⟨-, rfl⟩ | ⟨-, hy⟩
    · exact htp hon
    · rw [hn] at hy
      cases hy

/-- **Every action of a script or a handler** that does not overrun the handles. -/
theorem exec_good (h : Good s) (act : Action) (ha : s.Allows act) (hov : ¬ s.Overruns act) :
    ∃ s', exec s act = .ok s' ∧ Good s' ∧ Stepped s s' := by
  have hdn : ∀ {r : Except StoreFault Store}, Succeeds s r →
      ∃ s', r = .ok s' ∧ Good s' ∧ Stepped s s' := by
    rintro r ⟨s', hr, hg, hk⟩
    exact ⟨s', hr, hg, hk.stepped⟩
  cases act with
  | create a hasDtor hasFree =>
    obtain ⟨hn, hv⟩ := ha
    obtain ⟨free, h⟩ := h
    have hput : ∃ s', exec s (.create a hasDtor hasFree) = .ok s' ∧
        Placed s a ⟨0, 1, false, false, hasDtor, hasFree, 0, 0⟩ s' := by
      by_cases hr : s.inShutdown = false ∧ s.freeListHead ≠ -1
      · exact put_reuses h hn hv ⟨zero_le _, zero_le _⟩ hr.1 hr.2
      · exact put_appends h hn hv ⟨zero_le _, zero_le _⟩ hr
          (lt_of_le_of_ne h.table.top_le_limit fun htp => hov ⟨hr, htp⟩)
    obtain ⟨s', hs', hp⟩ := hput
    exact ⟨s', hs', hp.1, hp.stepped hn⟩
  | addRef a =>
    obtain ⟨o, ho, -⟩ := ha
    obtain ⟨free, hok⟩ := h
    have hse : StoreOk (s.setObj a { o with refcount := o.refcount + 1 }) free :=
      hok.setObj ho rfl ((hok.frames.held a o ho).trans (le_succ _))
        ⟨(hok.runs a o ho).dtor, (hok.runs a o ho).free⟩
    refine hdn ⟨s.setObj a { o with refcount := o.refcount + 1 }, ?_, ⟨free, hse⟩,
      Kept.setObj ho rfl⟩
    rw [exec, readObj_eq ho]
    rfl
  | release a =>
    obtain ⟨o, hl, hhl⟩ := ha
    exact hdn (release_good h hl hhl)
  | handlerReturns => exact hdn (handlerReturns_good h)
  | callDestructors => exact hdn (destructorsFrom_good s.top h one_pos)
  | setShutdown flag =>
    obtain ⟨free, hok⟩ := h
    refine hdn ⟨_, rfl, ⟨free, ?_, ?_, hok.runs⟩, .refl s⟩
    · exact { hok.table with }
    · exact { hok.frames with }

/-- A table that cannot grow is written past its end. -/
lemma exec_overruns {act : Action} (hov : s.Overruns act) : exec s act = .error .outOfTable := by
  cases act with
  | create a hasDtor hasFree => exact put_overruns hov.1 hov.2 (update_self ..)
  | _ => exact hov.elim

lemma Store.init_good (hp : 0 < initSize) : Good (init initSize) := by
  refine ⟨[], ⟨one_pos, hp, Nat.one_le_two_pow, nofun, nofun, nofun, rfl, nofun,
    fun h hp hlt => ?_⟩,
    ⟨nofun, fun a ha => ?_, nofun, nodup_nil⟩, nofun⟩
  · exact absurd hlt (not_lt.mpr hp)
  · exact absurd ha (lt_irrefl 0)

/-- **Every run keeps the store in order.** -/
lemma Reaches.good (hp : 0 < initSize) (h : Reaches initSize s) : Good s := by
  induction h with
  | start => exact init_good hp
  | step _ ha hsp ih =>
    obtain ⟨s', hs', hg, -⟩ := exec_good ih _ ha fun hov => by
      rw [exec_overruns hov] at hsp
      cases hsp
    rw [hs'] at hsp
    cases hsp
    exact hg

lemma handlerReturns_of_resurrected (h : Good s) {stack : List Frame}
    (hs : s.stack = .dtor a :: stack)
    (ho : s.obj a = some o) (hr : 1 < o.refcount) :
    ∃ s', handlerReturns s = .ok s' ∧ s'.Live a o.decRef := by
  obtain ⟨free, hok⟩ := h
  obtain ⟨x, t, hx, hdc, -, -, hl, -⟩ := hok.popHolds hs (fun b => rfl) rfl
  obtain rfl : o = x := Option.some.inj (ho.symm.trans hx)
  refine ⟨t, ?_, hl⟩
  have hne : o.decRef.refcount ≠ 0 := sub_ne_zero_of_lt hr
  rw [handlerReturns, hs]
  change (decRefcount _ a >>= fun s => delFree s a) = _
  rw [hdc]
  change delFree t a = _
  rw [delFree, readObj_eq hl.1]
  exact if_neg hne

end

/-- **The object store in every run**, between any two actions, be they of a script or of a handler
that runs in the middle of a deletion.

Live objects have their own handles, none of them 0, and their entries lead to them. The free list
has no cycle; on it are the handles below `top` of the objects that are freed completely. No handler
was called twice for an object. An action that is allowed succeeds exactly if it does not overrun
the handles; then it does not change the handle of an object, and in the shutdown it does not use a
handle again. A destructor that leaves a reference to its object leaves it live, with its handle. -/
theorem objectsStore_handles {initSize : ℕ} (hpos : 0 < initSize) {s : Store}
    (h : Reaches initSize s) :
    (∀ a o, s.Live a o → 0 < o.handle ∧ s.objectBuckets o.handle = a) ∧
    (∀ a b o o', s.Live a o → s.Live b o' → o.handle = o'.handle → a = b) ∧
    (∃ free : List ℕ, free.Nodup ∧
      NullList (-1) (fun h : ℤ => getObjBucketNumber (s.objectBuckets h.toNat)) s.freeListHead
        (free.map (↑)) ∧
      ∀ h, h ∈ free ↔ 0 < h ∧ h < s.top ∧ ∀ a o, s.obj a = some o → o.handle ≠ h) ∧
    (∀ a o, s.obj a = some o → o.dtorRuns ≤ 1 ∧ o.freeRuns ≤ 1) ∧
    (∀ act, s.Allows act → ((∃ s', exec s act = .ok s' ∧ Stepped s s') ↔ ¬ s.Overruns act)) ∧
    (∀ a o stack, s.stack = .dtor a :: stack → s.obj a = some o → 1 < o.refcount →
      ∃ s' o', handlerReturns s = .ok s' ∧ s'.Live a o' ∧ o'.handle = o.handle) := by
  have hg := h.good hpos
  obtain ⟨free, hok⟩ := id hg
  refine ⟨fun a o hl => ?_, fun a b o o' ha hb => hok.table.handle_inj ha.1 hb.1,
    ⟨free, hok.table.chain.nodup.of_map _, hok.table.chain, fun k => ?_⟩, fun a o ho => ?_,
    fun act hal => ?_, fun a o stack hsc ho hrf => ?_⟩
  · refine ⟨(hok.table.handle a o hl.1).1, ?_⟩
    rw [hok.table.entry a o hl.1, if_neg hl.2]
  · constructor
    · intro hk
      obtain ⟨hkp, hkl, -⟩ := hok.table.tagged k hk
      refine ⟨hkp, hkl, ?_⟩
      rintro a o ho rfl
      exact (hok.table.handle a o ho).2.2 hk
    · rintro ⟨hkp, hkl, hn⟩
      refine (hok.table.cover k hkp hkl).resolve_right ?_
      rintro ⟨a, o, ho, hk⟩
      exact hn a o ho hk
  · have hr := hok.runs a o ho
    refine ⟨hr.dtor.trans ?_, hr.free.trans ?_⟩ <;> split_ifs <;> decide
  · constructor
    · rintro ⟨s', hs', -⟩ hov
      rw [exec_overruns hov] at hs'
      cases hs'
    · intro hov
      obtain ⟨s', hs', -, hs⟩ := exec_good hg act hal hov
      exact ⟨s', hs', hs⟩
  · obtain ⟨s', hs', hl⟩ := handlerReturns_of_resurrected hg hsc ho hrf
    exact ⟨s', o.decRef, hs', hl, rfl⟩

/-- An object that its destructor keeps alive. -/
theorem objectsStore_handles_resurrected : ∃ s, Reaches 1 s ∧ s.stack = [.dtor 8#64] ∧
    ∃ s' o', handlerReturns s = .ok s' ∧ s'.Live 8#64 o' ∧ o'.handle = 1 := by
  have hput : exec (init 1) (.create 8#64 true true) =
      .ok ⟨update (fun _ => 0) 1 8#64, 2, 2, -1, false,
      update (fun _ => none) 8#64 (some ⟨1, 1, false, false, true, true, 0, 0⟩), []⟩ := by
    simp [exec, put, growIfFull, place, readObj, init, Store.setObj, setBucket, bind,
      Except.bind, pure,
      Except.pure, Int.bmod]
  have hc : Reaches 1 _ := .step (a := .create 8#64 true true) .start ⟨rfl, by decide⟩ hput
  have hr : Reaches 1 _ := .step (a := .release 8#64) hc ⟨_, ⟨rfl, not_mem_nil⟩, one_pos⟩ rfl
  have had : Reaches 1 _ := .step (a := .addRef 8#64) hr ⟨_, rfl, not_mem_nil⟩ rfl
  refine ⟨_, had, rfl, ?_⟩
  exact (objectsStore_handles one_pos had).2.2.2.2.2 8#64 _ [] rfl rfl (lt_succ_self 1)

/-! ## Handles run out -/

lemma create_of_room {s : Store} {a : Ptr} (h : Good s)
    (hnt : ¬ (s.inShutdown = false ∧ s.freeListHead ≠ -1)) (hl : s.top < handleLimit) :
    ∃ s', exec s (.create a false false) = .ok s' ∧
      s'.obj = update s.obj a (some ⟨s.top, 1, false, false, false, false, 0, 0⟩) ∧
      s'.objectBuckets s.top = a ∧ s'.top = s.top + 1 ∧ s'.inShutdown = s.inShutdown ∧
      s'.stack = s.stack := by
  obtain ⟨free, h⟩ := h
  obtain ⟨size, -, hput⟩ :=
    put_eq_of_room (s := s.setObj a ⟨0, 1, false, false, false, false, 0, 0⟩)
    hnt h.table.top_pos h.table.top_le hl (update_self ..)
  exact ⟨_, hput, update_idem .., update_self .., rfl, rfl, rfl⟩

lemma release_last {s : Store} {a : Ptr} {k : ℕ}
    (ho : s.obj a = some ⟨k, 1, false, false, false, false, 0, 0⟩)
    (hv : isObjValid (s.objectBuckets k)) :
    ∃ s', exec s (.release a) = .ok s' ∧ s'.obj = update s.obj a none ∧ s'.top = s.top ∧
      s'.inShutdown = s.inShutdown ∧ s'.stack = s.stack := by
  simp [exec, release, decRefcount, del, delFree, delFinish, readObj, ho, hv, bind,
    Except.bind, pure,
    Except.pure, Store.setObj, Store.setBucket, Obj.decRef, Obj.markDtor]

/-- In the shutdown an object that is created and released again takes a handle each time. -/
lemma exists_top (n : ℕ) (hn : n < handleLimit) : ∃ s, Reaches 1024 s ∧ s.inShutdown = true ∧
    s.top = n + 1 ∧ s.obj = (fun _ => none) ∧ s.stack = [] := by
  induction n with
  | zero => exact ⟨_, .step (a := .setShutdown true) .start trivial rfl, rfl, rfl, rfl, rfl⟩
  | succ n ih =>
    obtain ⟨s, hr, hsd, htp, hob, hst⟩ := ih (by omega)
    have hnew : ¬ (s.inShutdown = false ∧ s.freeListHead ≠ -1) := by simp [hsd]
    obtain ⟨t, ht, hto, htb, htt, hts, htk⟩ :=
      create_of_room (a := 8#64) (hr.good (by decide)) hnew (htp ▸ hn)
    have hlv : t.obj 8#64 = some ⟨s.top, 1, false, false, false, false, 0, 0⟩ :=
      hto ▸ update_self ..
    obtain ⟨s', hs', hob', htp', hsd', hst'⟩ := release_last hlv (htb ▸ by decide)
    rw [hst] at htk
    refine ⟨s', (hr.step (a := .create 8#64 false false) ⟨by rw [hob], by decide⟩ ht).step
      (a := .release 8#64) ⟨_, ⟨hlv, ?_⟩, ?_⟩ hs', hsd'.trans (hts.trans hsd), ?_, ?_,
        hst'.trans htk⟩
    · rw [beingFreed, htk]
      exact not_mem_nil
    · rw [held, htk]
      exact one_pos
    · rw [htp', htt, htp]
    · rw [hob', hto, update_idem, hob]
      exact update_eq_self 8#64 _

/-- **The handles run out.** After `2 ^ 31 - 1` objects in the shutdown, each of them released at
once, the next one gets the handle `-2 ^ 31`. -/
theorem objectsStore_overrun :
    ∃ s, Reaches 1024 s ∧ s.top = 2 ^ 31 ∧ s.Allows (.create 8#64 false false) ∧
    exec s (.create 8#64 false false) = .error .outOfTable := by
  obtain ⟨s, hr, hsd, htp, hob, -⟩ := exists_top (2 ^ 31 - 1) (by decide)
  refine ⟨s, hr, htp, ⟨by rw [hob], by decide⟩, exec_overruns ⟨?_, htp⟩⟩
  rw [hsd]
  simp

end PhpInternals.Zend.ZendObjectsApi

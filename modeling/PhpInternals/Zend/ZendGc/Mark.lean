import Mathlib.Logic.Relation
import PhpInternals.Zend.ZendGc.Graph

/-!
# The first phase: trial deletion

`gc_mark_roots` turns everything that can be reached from a purple root grey and takes one from the
reference count at the end of every edge it follows. What it keeps is
`refcount + references held by grey values`.
-/

namespace PhpInternals.Zend.ZendGc

open List Found

variable {N : Type} [DecidableEq N] [Fintype N]

/-! ## Reference counts -/

/-- The reference count of every value is the number of edges into it plus its external references.
-/
def Heap.Consistent (h : Heap N) (external : N → ℕ) (refcount : N → ℕ) : Prop :=
  ∀ x, refcount x = ∑ m, (h.edges m).count x + external x

instance (h : Heap N) (external refcount : N → ℕ) : Decidable (h.Consistent external refcount) :=
  inferInstanceAs (Decidable (∀ x, refcount x = ∑ m, (h.edges m).count x + external x))

variable {m : N}

omit [Fintype N] in
lemma Heap.mem_edges_of_mem_children {h : Heap N} {c : N} (hc : c ∈ h.children m) :
    c ∈ h.edges m := by
  rw [Heap.children] at hc
  split_ifs at hc
  · simp at hc
  · exact hc

omit [Fintype N] in
lemma Heap.children_eq {h : Heap N} (hm : h.isSymbolTable m = false) :
    h.children m = h.edges m := by
  rw [Heap.children, hm]
  rfl

variable {external : N → ℕ}

lemma Heap.Consistent.held_le {h : Heap N} {refcount : N → ℕ}
    (hc : h.Consistent external refcount) (p : N → Prop) [DecidablePred p] (x : N) :
    h.held p x ≤ refcount x := by
  rw [hc x]
  refine le_trans ?_ (Nat.le_add_right _ _)
  calc h.held p x ≤ ∑ m, (h.children m).count x :=
        Finset.sum_le_sum_of_subset (Finset.filter_subset _ _)
    _ ≤ ∑ m, (h.edges m).count x := Finset.sum_le_sum fun m _ => by
        rw [Heap.children]
        split_ifs
        · simp
        · exact le_rfl

/-- The values that the collector comes to from a value. -/
def Heap.Follow (h : Heap N) : N → N → Prop :=
  Relation.ReflTransGen fun a b => b ∈ h.children a

/-- Reachability in the graph. -/
def Heap.Reach (h : Heap N) : N → N → Prop := Relation.ReflTransGen fun a b => b ∈ h.edges a

/-! ## The invariant -/

/-- The invariant of `gc_mark_grey`: `owed` are the edges of grey values that have not been taken
away yet, `calls` the calls still to be made, `root` the values that were purple before the phase
and `purple` those that were so before the call. -/
structure Marking (h : Heap N) (rc : N → ℕ) (root purple : N → Prop) (v : BufferView N)
    (owed calls : List N) (s : GcState N) : Prop where
  view : s.view = v
  conserved : ∀ x, s.refcount x + h.held (fun m => s.color m = .grey) x = rc x + owed.count x
  color : ∀ x, s.color x = .grey ∨ s.color x = .black ∨ s.color x = .purple ∧ purple x
  symbol : ∀ x, h.isSymbolTable x = true → s.color x ≠ .grey
  rooted : ∀ x, root x → s.color x = .purple ∨ s.color x = .grey ∨ h.isSymbolTable x = true
  closed : ∀ m, s.color m = .grey → ∀ c ∈ h.children m,
    s.color c = .grey ∨ h.isSymbolTable c = true ∨ c ∈ calls
  sound : ∀ m, s.color m = .grey → ∃ r, root r ∧ h.Follow r m
  calls_sound : ∀ c ∈ calls, ∃ r, root r ∧ h.Follow r c

/-- The number of values that are not grey. -/
def notGrey (s : GcState N) : ℕ := (Finset.univ.filter fun x => s.color x ≠ .grey).card

variable {h : Heap N} {rc : N → ℕ} {root purple : N → Prop} {v : BufferView N}
  {owed calls pend : List N} {n : N} {s s' : GcState N}

lemma Marking.decRef (hM : Marking h rc root purple v (n :: owed) calls s)
    (hle : ∀ x, h.held (fun m => s.color m = .grey) x ≤ rc x) :
    ∃ s', s.decRef n = .ok s' ∧ Marking h rc root purple v owed calls s' ∧ s'.color = s.color := by
  have hp : 0 < s.refcount n := by
    have hc := hM.conserved n
    have := hle n
    rw [count_cons_self] at hc
    omega
  obtain ⟨s', hok, hcl, hvw, hcn⟩ := decRef_spec s n hp
  refine ⟨s', hok, ⟨by rw [hvw, hM.view], fun x => ?_, ?_, ?_, ?_, ?_, ?_, hM.calls_sound⟩, hcl⟩
  · have hc := hM.conserved x
    have := hcn x
    rw [hcl]
    rw [← singleton_append, count_append] at hc
    omega
  all_goals rw [hcl]
  · exact hM.color
  · exact hM.symbol
  · exact hM.rooted
  · exact hM.closed
  · exact hM.sound

lemma Marking.drop_call (hM : Marking h rc root purple v owed (n :: calls) s)
    (hn : s.color n = .grey ∨ h.isSymbolTable n = true) :
    Marking h rc root purple v owed calls s := by
  refine { hM with closed := fun m hm c hc => ?_, calls_sound := fun c hc => ?_ }
  · rcases hM.closed m hm c hc with hg | hsy | hmm
    · exact .inl hg
    · exact .inr (.inl hsy)
    · rcases mem_cons.mp hmm with rfl | hmm
      · exact hn.imp_right .inl
      · exact .inr (.inr hmm)
  · exact hM.calls_sound c (mem_cons_of_mem _ hc)

lemma Marking.symbolTable (hM : Marking h rc root purple v owed calls s)
    (hsy : h.isSymbolTable n = true) :
    Marking h rc root purple v owed calls ((s.setColor n .grey).setColor n .black) := by
  have hcl : ∀ x, ((s.setColor n .grey).setColor n .black).color x =
      if x = n then .black else s.color x := fun x => by
    simp only [color_setColor]
    split_ifs <;> rfl
  have hg : ∀ x, ((s.setColor n .grey).setColor n .black).color x = .grey ↔
      s.color x = .grey := fun x => by
    rw [hcl]
    split_ifs with hx
    · subst hx
      simp [hM.symbol x hsy]
    · rfl
  refine ⟨by simp [hM.view], fun x => ?_, fun x => ?_, ?_, fun x hx => ?_, ?_, ?_, hM.calls_sound⟩
  · rw [h.held_congr hg]
    exact hM.conserved x
  · rw [hcl]
    split_ifs
    · exact .inr (.inl rfl)
    · exact hM.color x
  · intro x hx
    rw [ne_eq, hg]
    exact hM.symbol x hx
  · rw [hcl]
    split_ifs with he
    · exact .inr (.inr (he ▸ hsy))
    · exact hM.rooted x hx
  · intro m hm c hc
    rw [hg] at hm ⊢
    exact hM.closed m hm c hc
  · intro m hm
    exact hM.sound m ((hg m).mp hm)

lemma Marking.grey (hM : Marking h rc root purple v owed (n :: calls) s)
    (hn : s.color n ≠ .grey) (hsy : h.isSymbolTable n = false) :
    Marking h rc root purple v (h.edges n ++ owed) (h.edges n ++ calls) (s.setColor n .grey) := by
  obtain ⟨r, hr, hrn⟩ := hM.calls_sound n (mem_cons_self ..)
  have hch := h.children_eq hsy
  have hg : ∀ x, (s.setColor n .grey).color x = .grey ↔ x = n ∨ s.color x = .grey := fun x => by
    rw [color_setColor]
    split_ifs with hx <;> simp [hx]
  refine ⟨by simp [hM.view], fun x => ?_, fun x => ?_, ?_, fun x hx => ?_, ?_, ?_, fun c hc => ?_⟩
  · have hc := hM.conserved x
    rw [h.held_insert hn hg, hch, count_append, refcount_setColor]
    omega
  · rw [color_setColor]
    split_ifs
    · exact .inl rfl
    · exact hM.color x
  · intro x hx
    rw [ne_eq, hg]
    rintro (rfl | hx')
    · rw [hsy] at hx
      cases hx
    · exact hM.symbol x hx hx'
  · rw [color_setColor]
    split_ifs
    · exact .inr (.inl rfl)
    · exact hM.rooted x hx
  · intro m hm c hc
    rw [hg] at hm ⊢
    rcases hm with rfl | hm
    · rw [hch] at hc
      exact .inr (.inr (mem_append_left _ hc))
    rcases hM.closed m hm c hc with hc' | hc' | hc'
    · exact .inl (.inr hc')
    · exact .inr (.inl hc')
    · rcases mem_cons.mp hc' with rfl | hc'
      · exact .inl (.inl rfl)
      · exact .inr (.inr (mem_append_right _ hc'))
  · intro m hm
    rcases (hg m).mp hm with rfl | hm
    · exact ⟨r, hr, hrn⟩
    · exact hM.sound m hm
  · rcases mem_append.mp hc with hc | hc
    · exact ⟨r, hr, hrn.tail (hch ▸ hc)⟩
    · exact hM.calls_sound c (mem_cons_of_mem _ hc)

lemma Marking.enter (hM : Marking h rc root purple v pend (n :: pend) s) :
    let r := markEnter h n s
    Marking h rc root purple v (r.2 ++ pend) (r.2 ++ pend) r.1 ∧
      notGrey r.1 ≤ notGrey s ∧ (r.2 ≠ [] → notGrey r.1 < notGrey s) ∧
      (s.color n = .purple → r.1.color n ≠ .purple) := by
  simp only [markEnter]
  split_ifs with hn hsy
  · refine ⟨(hM.symbolTable hsy).drop_call (.inr hsy), ?_, fun hne => absurd rfl hne, ?_⟩
    · refine Finset.card_le_card fun x hx => ?_
      rw [Finset.mem_filter] at hx ⊢
      refine ⟨hx.1, ?_⟩
      by_cases hxn : x = n
      · exact hxn ▸ hn
      · simpa [hxn] using hx.2
    · simp
  · have hsy : h.isSymbolTable n = false := by simpa using hsy
    have hlt : notGrey (s.setColor n .grey) < notGrey s := by
      refine Finset.card_lt_card ⟨fun x hx => ?_, fun hsb => ?_⟩
      · rw [Finset.mem_filter] at hx ⊢
        refine ⟨hx.1, fun he => hx.2 ?_⟩
        rw [color_setColor, he, ite_self]
      · have := hsb (Finset.mem_filter.mpr ⟨Finset.mem_univ n, hn⟩)
        simp at this
    exact ⟨hM.grey hn hsy, hlt.le, fun _ => hlt, by simp⟩
  · rw [not_not] at hn
    exact ⟨hM.drop_call (.inl hn), le_rfl, fun hne => absurd rfl hne, by simp [hn]⟩

lemma Marking.with_purple (hM : Marking h rc root purple v owed calls s) {purple' : N → Prop}
    (hp : ∀ x, s.color x = .purple → purple' x) : Marking h rc root purple' v owed calls s :=
  { hM with color := fun x => (hM.color x).imp_right fun hx => hx.imp_right fun hx =>
      ⟨hx.1, hp x hx.1⟩ }

lemma Marking.with_call (hM : Marking h rc root purple v owed calls s) (hn : root n) :
    Marking h rc root purple v owed (n :: calls) s := by
  refine { hM with closed := fun m hm c hc => ?_, calls_sound := fun c hc => ?_ }
  · exact (hM.closed m hm c hc).imp_right fun hx => hx.imp_right (mem_cons_of_mem _)
  · rcases mem_cons.mp hc with rfl | hc
    · exact ⟨c, hn, .refl⟩
    · exact hM.calls_sound c hc

lemma Marking.child (hle : ∀ p : N → Prop, [DecidablePred p] → ∀ x, h.held p x ≤ rc x)
    (hM : Marking h rc root purple v (n :: pend) (n :: pend) s) :
    ∃ s' cs, (s.decRef n >>= fun s => .ok (markEnter h n s)) = .ok (s', cs) ∧
      Marking h rc root purple v (cs ++ pend) (cs ++ pend) s' ∧ notGrey s' ≤ notGrey s ∧
      (cs ≠ [] → notGrey s' < notGrey s) := by
  obtain ⟨s1, hok, hM1, hc⟩ := hM.decRef (hle _)
  have hnt : notGrey s1 = notGrey s := by rw [notGrey, notGrey, hc]
  obtain ⟨hM', hl', hlt', -⟩ := hM1.enter
  rw [hnt] at hl' hlt'
  exact ⟨_, _, by rw [hok]; rfl, hM', hl', hlt'⟩

variable {depth : ℕ}

/-- **`gc_mark_grey`** on a purple root. -/
theorem gcMarkGrey_marking (hle : ∀ p : N → Prop, [DecidablePred p] → ∀ x, h.held p x ≤ rc x)
    (hdp : Fintype.card N < depth) (hM : Marking h rc root purple v [] [] s)
    (hr : root n) (hn : s.color n = .purple) :
    ∃ s', gcMarkGrey h depth n s = .ok s' ∧
      Marking h rc root (fun x => s.color x = .purple ∧ x ≠ n) v [] [] s' := by
  obtain ⟨depth, rfl⟩ : ∃ d, depth = d + 1 := ⟨depth - 1, by omega⟩
  have hM0 := (hM.with_purple fun x hx => hx).with_call hr
  obtain ⟨hM1, -, hlt, hp⟩ := hM0.enter
  have hM2 : Marking h rc root (fun x => s.color x = .purple ∧ x ≠ n) v _ _ _ :=
    hM1.with_purple fun x hx => by
      rcases hM1.color x with hc | hc | hc
      · rw [hc] at hx
        cases hx
      · rw [hc] at hx
        cases hx
      · exact ⟨hc.2, fun he => hp hn (he ▸ hx)⟩
  have hcr : notGrey s ≤ Fintype.card N := Finset.card_le_univ _
  -- the children: each call takes one pending edge off the stack
  obtain ⟨s', hok, hM', -⟩ := (walks_markGrey h).total_list
    (P := fun pend z => Marking h rc root (fun x => s.color x = .purple ∧ x ≠ n) v pend pend z)
    (fun _ _ _ hM => Marking.child hle hM) (markEnter h n s).2 [] (markEnter h n s).1
    (fun hne => (hlt hne).trans_le (hcr.trans (Nat.lt_succ_iff.mp hdp))) hM2
  exact ⟨s', by rw [gcMarkGrey_succ, hok], hM'⟩

/-! ## The phase -/

/-- The slots on the ring of the roots hold the values `rs`. -/
structure BufferView.Roots (v : BufferView N) (slots : List RootPtr) (rs : List N) : Prop where
  ring : v.links.Ring .roots slots
  refs : slots.map v.ref = rs.map some

variable {slots : List RootPtr} {rs : List N} {steps : ℕ}

omit [DecidableEq N] [Fintype N] in
/-- **The loop over the roots**, when its body leaves the root buffer alone. -/
theorem rootWalk_total (hr : v.Roots slots rs)
    {body : N → GcState N → Except GcError (GcState N)} {Q : List N → GcState N → Prop}
    (hvw : ∀ rest z, Q rest z → z.view = v)
    (hb : ∀ r rest z, Q (r :: rest) z → ∃ z', body r z = .ok z' ∧ Q rest z')
    (hsp : slots.length < steps) (hQ : Q rs s) :
    ∃ s', forRoots body steps s = .ok s' ∧ Q [] s' := by
  have hl : ∀ rest z, Q rest z → z.links = v.links := fun rest z hz =>
    congrArg BufferView.links (hvw rest z hz)
  have hf : s.links.next .roots = slots.headD .roots := by
    rw [hl rs s hQ]
    exact hr.ring.next_head
  have hste : ∀ (p : RootPtr) (ahead : List RootPtr) (z : GcState N),
      (∃ done rest, slots = done ++ p :: ahead ∧ (p :: ahead).map v.ref = rest.map some ∧
        Q rest z) →
      p ≠ .roots ∧ ∃ z', (do
        let ref ← z.refOf p
        let s ← body ref z
        .ok (s, s.links.next p)) = Except.ok (z', ahead.headD .roots) ∧
        ∃ done rest, slots = done ++ ahead ∧ ahead.map v.ref = rest.map some ∧ Q rest z' := by
    rintro p ahead z ⟨done, rest, hs, hrf, hz⟩
    obtain ⟨r, rest, rfl⟩ : ∃ r rest', rest = r :: rest' := by
      cases rest with
      | nil => simp at hrf
      | cons r rest => exact ⟨r, rest, rfl⟩
    simp only [map_cons, cons.injEq] at hrf
    obtain ⟨z', hok, hz'⟩ := hb r rest z hz
    have hrn := hr.ring
    rw [hs] at hrn
    refine ⟨fun he => hrn.head_notMem (he ▸ by simp), z', ?_, done ++ [p], rest, by simp [hs],
      hrf.2, hz'⟩
    have hre : z.refOf p = .ok r := by
      have hzr : z.ref p = v.ref p := congrFun (congrArg BufferView.ref (hvw _ z hz)) p
      rw [GcState.refOf, hzr, hrf.1]
    have hnx : z'.links.next p = ahead.headD .roots := by
      rw [hl rest z' hz']
      exact hrn.next_cell
    rw [hre, ← hnx]
    simp [bind, Except.bind, hok]
  rw [forRoots, hf]
  obtain ⟨s', hok, _, rest, -, hrt, hQ'⟩ := ringWalk_total
    (Q := fun ahead z => ∃ done rest, slots = done ++ ahead ∧ ahead.map v.ref = rest.map some ∧
      Q rest z) hste slots steps s hsp ⟨[], rs, rfl, hr.refs, hQ⟩
  rw [map_nil, eq_comm, map_eq_nil_iff] at hrt
  exact ⟨s', hok, hrt ▸ hQ'⟩

/-- The state after `gc_mark_roots`. -/
structure Marked (h : Heap N) (rc : N → ℕ) (root : N → Prop) (v : BufferView N) (s : GcState N) :
    Prop where
  view : s.view = v
  conserved : ∀ x, s.refcount x + h.held (fun m => s.color m = .grey) x = rc x
  color : ∀ x, s.color x = .grey ∨ s.color x = .black
  grey_iff : ∀ x, s.color x = .grey ↔ h.isSymbolTable x = false ∧ ∃ r, root r ∧ h.Follow r x

lemma Marking.follow (hM : Marking h rc root purple v owed [] s) {x : N}
    (hf : h.Follow m x) (hm : s.color m = .grey ∨ h.isSymbolTable m = true) :
    s.color x = .grey ∨ h.isSymbolTable x = true := by
  induction hf with
  | refl => exact hm
  | @tail y z _ hyz ih =>
    rcases ih with hg | hsy
    · exact (hM.closed y hg z hyz).imp_right fun hx => hx.resolve_right (by simp)
    · rw [Heap.children, if_pos hsy] at hyz
      cases hyz

lemma Marking.marked (hM : Marking h rc root purple v [] [] s)
    (hnn : ∀ x, s.color x ≠ .purple) : Marked h rc root v s where
  view := hM.view
  conserved x := by simpa using hM.conserved x
  color x := (hM.color x).imp_right fun hx => hx.resolve_right fun hp => hnn x hp.1
  grey_iff x := by
    constructor
    · intro hx
      refine ⟨?_, hM.sound x hx⟩
      by_contra hsy
      exact hM.symbol x (by simpa using hsy) hx
    · rintro ⟨hsy, r, hr, hf⟩
      have hg := hM.follow hf ((hM.rooted r hr).resolve_left (hnn r))
      exact hg.resolve_right (by simp [hsy])

/-- **`gc_mark_roots`**: from a heap with consistent counts, whose values are black but for purple
ones in the root buffer. -/
theorem gcMarkRoots_marked (hcn : h.Consistent external s.refcount) (hrt : s.view.Roots slots rs)
    (hcl : ∀ x, s.color x = .black ∨ s.color x = .purple ∧ x ∈ rs) (hdp : Fintype.card N < depth)
    (hs : slots.length < steps) :
    ∃ s', gcMarkRoots h depth steps s = .ok s' ∧
      Marked h s.refcount (fun x => s.color x = .purple) s.view s' := by
  have hle : ∀ p : N → Prop, [DecidablePred p] → ∀ x, h.held p x ≤ s.refcount x :=
    fun p _ x => hcn.held_le p x
  have hnn : ∀ m, s.color m ≠ .grey := fun m hm => by
    rcases hcl m with hc | hc <;> simp [hm] at hc
  have hsr : Marking h s.refcount (fun x => s.color x = .purple) (fun x => s.color x = .purple)
      s.view [] [] s := by
    refine ⟨rfl, fun x => ?_, fun x => ?_, fun x _ => hnn x, fun x hx => .inl hx,
      fun m hm => absurd hm (hnn m), fun m hm => absurd hm (hnn m), nofun⟩
    · rw [h.held_congr fun m => iff_false_intro (hnn m)]
      simp [Heap.held]
    · exact .inr ((hcl x).imp_right fun hx => ⟨hx.1, hx.1⟩)
  have hb : ∀ (r : N) (rest : List N) (z : GcState N),
      Marking h s.refcount (fun x => s.color x = .purple)
        (fun x => s.color x = .purple ∧ x ∈ r :: rest) s.view [] [] z →
      ∃ z', (if z.color r = .purple then gcMarkGrey h depth r z else .ok z) = .ok z' ∧
        Marking h s.refcount (fun x => s.color x = .purple)
          (fun x => s.color x = .purple ∧ x ∈ rest) s.view [] [] z' := by
    intro r rest z hM
    have hp : ∀ x, z.color x = .purple → s.color x = .purple ∧ x ∈ r :: rest := fun x hx => by
      rcases hM.color x with hc | hc | hc
      · simp [hc] at hx
      · simp [hc] at hx
      · exact hc.2
    have ha : ∀ x, z.color x = .purple → x ≠ r → s.color x = .purple ∧ x ∈ rest :=
      fun x hx hne => ⟨(hp x hx).1, (mem_cons.mp (hp x hx).2).resolve_left hne⟩
    split_ifs with hr
    · obtain ⟨z', hok, hM'⟩ := gcMarkGrey_marking hle hdp hM (hp r hr).1 hr
      refine ⟨z', hok, hM'.with_purple fun x hx => ?_⟩
      rcases hM'.color x with hc | hc | hc
      · simp [hc] at hx
      · simp [hc] at hx
      · exact ha x hc.2.1 hc.2.2
    · exact ⟨z, rfl, hM.with_purple fun x hx => ha x hx fun he => hr (he ▸ hx)⟩
  obtain ⟨s', hok, hM⟩ := rootWalk_total
    (Q := fun rest z => Marking h s.refcount (fun x => s.color x = .purple)
      (fun x => s.color x = .purple ∧ x ∈ rest) s.view [] [] z)
    hrt (fun _ _ hM => hM.view) hb hs
    (hsr.with_purple fun x hx => ⟨hx, ((hcl x).resolve_left (by simp [hx])).2⟩)
  refine ⟨s', hok, hM.marked fun x hx => ?_⟩
  rcases hM.color x with hc | hc | hc
  · simp [hc] at hx
  · simp [hc] at hx
  · cases hc.2.2

end PhpInternals.Zend.ZendGc

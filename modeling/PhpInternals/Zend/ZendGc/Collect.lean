import PhpInternals.Zend.ZendGc.CollectRoots
import PhpInternals.Zend.ZendGc.Scan

/-!
# The third phase: giving back the rest

`gc_collect_roots` collects the white values: it makes them black and gives back the references they
hold, which trial deletion had taken away.
-/

namespace PhpInternals.Zend.ZendGc

open List Found

variable {N : Type} [DecidableEq N] [Fintype N] {h : Heap N} {rc : N → ℕ} {white : N → Prop}
  {owed calls : List N} {n : N} {s s' : GcState N} {R T : List RootPtr}
  {ref : RootPtr → Option N}

/-! ## The invariant -/

/-- The invariant of the phase: `owed` are the edges of collected values that have not been given
back yet, `calls` the calls of `gc_collect_white` still to be made, `white` the values that were
white before the phase. -/
structure Collecting (h : Heap N) (rc : N → ℕ) (white : N → Prop) (owed calls : List N)
    (s : GcState N) : Prop where
  conserved : ∀ x, s.refcount x + h.held (fun m => s.color m = .white) x + owed.count x = rc x
  color : ∀ x, s.color x = .white ∨ s.color x = .black
  inside : ∀ x, s.color x = .white → white x
  closed : ∀ m, white m → s.color m = .black → ∀ c ∈ h.children m, s.color c = .black ∨ c ∈ calls

lemma Collecting.congr (hC : Collecting h rc white owed calls s) (hc : s'.color = s.color)
    (hcn : s'.refcount = s.refcount) : Collecting h rc white owed calls s' := by
  refine ⟨fun x => ?_, ?_, ?_, ?_⟩
  · rw [hc, hcn]
    exact hC.conserved x
  all_goals rw [hc]
  · exact hC.color
  · exact hC.inside
  · exact hC.closed

lemma Collecting.incRef (hC : Collecting h rc white (n :: owed) calls s) :
    Collecting h rc white owed calls (s.incRef n) := by
  refine { hC with conserved := fun x => ?_ }
  have hc := hC.conserved x
  rw [← singleton_append, count_append] at hc
  rw [refcount_incRef, color_incRef]
  omega

lemma Collecting.drop_call (hC : Collecting h rc white owed (n :: calls) s)
    (hn : s.color n = .black) : Collecting h rc white owed calls s := by
  refine { hC with closed := fun m hm hb c hc => ?_ }
  rcases hC.closed m hm hb c hc with hbl | hmm
  · exact .inl hbl
  · rcases mem_cons.mp hmm with rfl | hmm
    · exact .inl hn
    · exact .inr hmm

lemma Collecting.with_call (hC : Collecting h rc white owed calls s) :
    Collecting h rc white owed (n :: calls) s :=
  { hC with closed := fun m hm hb c hc => (hC.closed m hm hb c hc).imp_right (mem_cons_of_mem _) }

/-- **A white value is collected** and owes its edges. -/
theorem Collecting.collect (hC : Collecting h rc white owed (n :: calls) s)
    (hn : s.color n = .white) (hsy : h.isSymbolTable n = false) :
    Collecting h rc white (h.edges n ++ owed) (h.edges n ++ calls) (s.setColor n .black) := by
  have hch := h.children_eq hsy
  have hw : ∀ m, s.color m = .white ↔ m = n ∨ (s.setColor n .black).color m = .white := fun m => by
      rw [color_setColor]
      split_ifs with hm <;> simp [hm, hn]
  refine ⟨fun x => ?_, fun x => ?_, fun x hx => ?_, fun m hm hb c hc => ?_⟩
  · have hc := hC.conserved x
    have hnt : ¬ (s.setColor n .black).color n = .white := by simp
    rw [h.held_insert hnt hw, hch] at hc
    rw [count_append, refcount_setColor]
    omega
  · rw [color_setColor]
    split_ifs
    · exact .inr rfl
    · exact hC.color x
  · exact hC.inside x ((hw x).mpr (.inr hx))
  by_cases hmn : m = n
  · subst hmn
    exact .inr (mem_append_left _ (hch ▸ hc))
  rw [color_setColor, if_neg hmn] at hb
  rw [color_setColor]
  split_ifs with hcn
  · exact .inl rfl
  · rcases hC.closed m hm hb c hc with hbl | hmm
    · exact .inl hbl
    · exact .inr (mem_append_right _ ((mem_cons.mp hmm).resolve_left hcn))

/-! ## `gc_collect_white` -/

/-- The number of white values. -/
def whites (s : GcState N) : ℕ := (Finset.univ.filter fun x => s.color x = .white).card

/-- What is known of a state inside a call on `n` that started in `s₀`: the invariant, the ring, and
that no value has turned white. -/
structure Inside (h : Heap N) (rc : N → ℕ) (white : N → Prop) (R T : List RootPtr)
    (ref : RootPtr → Option N) (s₀ : GcState N) (pend : List N) (s : GcState N) : Prop where
  collecting : Collecting h rc white pend pend s
  grown : Grown R T ref s
  fewer : ∀ x, s.color x = .white → s₀.color x = .white

omit [Fintype N] in
lemma enterGarbage_frame (flags : Bool) (hg : Grown R T ref s) (hn : s.color n = .black) :
    (enterGarbage h n (s, flags)).1.color = s.color ∧
      (enterGarbage h n (s, flags)).1.refcount = s.refcount := by
  rcases enterGarbage_cases h n s flags with heq | ⟨-, heq⟩
  · rw [heq]
    exact ⟨rfl, rfl⟩
  · obtain ⟨new, U, hw, -⟩ := hg
    rw [heq]
    exact gcAddGarbage_frame hw hn

variable {s0 : GcState N} {pend : List N}

/-- A white node is collected and its children get their count back. -/
lemma collectOne (flags : Bool) (hsy : ∀ x, white x → h.isSymbolTable x = false)
    (hC : Collecting h rc white pend (n :: pend) s) (hg : Grown R T ref s)
    (hf : ∀ x, s.color x = .white → s0.color x = .white) (hn : s.color n = .white) :
    let z := (enterGarbage h n (s.setColor n .black, flags)).1
    Inside h rc white R T ref s0 (h.edges n ++ pend) z ∧ whites z < whites s ∧
      z.color n = .black := by
  intro z
  have hg' : Grown R T ref (s.setColor n .black) := hg.congr (view_setColor s n .black)
  have hb : (s.setColor n .black).color n = .black := by simp
  obtain ⟨hc, hcn⟩ := enterGarbage_frame flags hg' hb
  have hz : ∀ x, z.color x = .white → x ≠ n ∧ s.color x = .white := by
    intro x hx
    rw [hc, color_setColor] at hx
    split_ifs at hx with hxn
    exact ⟨hxn, hx⟩
  refine ⟨⟨?_, hg'.enterGarbage, fun x hx => hf x (hz x hx).2⟩, ?_, by rw [hc, hb]⟩
  · exact (hC.collect hn (hsy n (hC.inside n hn))).congr hc hcn
  · refine Finset.card_lt_card ⟨fun x hx => ?_, fun hsb => ?_⟩
    · rw [Finset.mem_filter] at hx ⊢
      exact ⟨hx.1, (hz x hx.2).2⟩
    · have hm := hsb (Finset.mem_filter.mpr ⟨Finset.mem_univ n, hn⟩)
      exact (hz n (Finset.mem_filter.mp hm).2).1 rfl

lemma Inside.enter (flags : Bool) (hsy : ∀ x, white x → h.isSymbolTable x = false)
    (hI : Inside h rc white R T ref s0 (n :: pend) s) :
    let r := whiteEnter h n (s, flags)
    Inside h rc white R T ref s0 (r.2 ++ pend) r.1.1 ∧ whites r.1.1 ≤ whites s ∧
      (r.2 ≠ [] → whites r.1.1 < whites s) := by
  have hC := hI.collecting.incRef
  have hg : Grown R T ref (s.incRef n) := hI.grown.congr (view_incRef s n)
  simp only [whiteEnter]
  split_ifs with hn
  · obtain ⟨hI', hlt, -⟩ := collectOne flags hsy hC hg hI.fewer hn
    exact ⟨hI', hlt.le, fun _ => hlt⟩
  · have hb := (hI.collecting.color n).resolve_left hn
    exact ⟨⟨hC.drop_call hb, hg, hI.fewer⟩, le_rfl, fun hne => absurd rfl hne⟩

variable {depth : ℕ}

/-- **`gc_collect_white`** on a white root. -/
theorem gcCollectWhite_collecting (flags : Bool) (hsy : ∀ x, white x → h.isSymbolTable x = false)
    (hC : Collecting h rc white [] [] s) (hg : Grown R T ref s) (hn : s.color n = .white)
    (hdp : Fintype.card N < depth) :
    ∃ r, gcCollectWhite h depth n (s, flags) = .ok r ∧ Collecting h rc white [] [] r.1.1 ∧
      Grown R T ref r.1.1 ∧ ∀ x, r.1.1.color x = .white → x ≠ n ∧ s.color x = .white := by
  obtain ⟨depth, rfl⟩ : ∃ d, depth = d + 1 := ⟨depth - 1, by omega⟩
  let z := enterGarbage h n (s.setColor n .black, flags)
  obtain ⟨hI, hlt, hb⟩ :=
    collectOne flags hsy hC.with_call hg (fun x (hx : s.color x = .white) => hx) hn
  have hcr : whites s ≤ Fintype.card N := Finset.card_le_univ _
  -- the children: each call gives one edge back
  have hI' : Inside h rc white R T ref z.1 (h.edges n ++ []) z.1 :=
    ⟨hI.collecting, hI.grown, fun _ => id⟩
  obtain ⟨r, hok, hen, -⟩ := (walks_collectWhite h).total_list
    (P := fun pend r => Inside h rc white R T ref z.1 pend r.1) (μ := fun r => whites r.1)
    (fun c pend r hr => by
      obtain ⟨hE, hle, hdc⟩ := Inside.enter r.2 hsy hr
      exact ⟨_, _, rfl, hE, hle, hdc⟩)
    (h.edges n) [] z (fun _ => hlt.trans_le (hcr.trans (Nat.lt_succ_iff.mp hdp))) hI'
  have hm := gcCollectWhite_succ h depth n (s, flags)
  rw [if_pos hn] at hm
  obtain ⟨r', hr', rfl⟩ := map_eq_ok_iff.mp (hm.trans hok)
  refine ⟨r', hr', hen.collecting, hen.grown, fun x hx => ?_⟩
  have hzx := hen.fewer x hx
  refine ⟨fun he => ?_, hI.fewer x hzx⟩
  rw [he, hb] at hzx
  cases hzx

/-! ## The phase -/

/-- The invariant of the second loop of `gc_collect_roots`: `root` are the values in the root buffer
before the phase, `R` the slots of the ring when the loop starts, `ahead` those that it has not come
to. -/
structure Looping (h : Heap N) (rc : N → ℕ) (white root : N → Prop) (R T : List RootPtr)
    (ref : RootPtr → Option N) (ahead : List RootPtr) (s : GcState N) : Prop where
  position : ∃ before, R = before ++ ahead
  collecting : Collecting h rc white [] [] s
  grown : Grown R T ref s
  left : ∀ x, root x → s.color x = .white → ∃ p ∈ ahead, ref p = some x

variable {root : N → Prop}

lemma Looping.step (hsy : ∀ x, white x → h.isSymbolTable x = false)
    {p : RootPtr} {ahead : List RootPtr} {r : (GcState N × Bool) × ℕ}
    (hdp : Fintype.card N < depth)
    (hL : Looping h rc white root R T ref (p :: ahead) r.1.1) :
    p ≠ .roots ∧ ∃ r', collectRoot h depth p r = .ok (r', ahead.headD .roots) ∧
      Looping h rc white root R T ref ahead r'.1.1 := by
  obtain ⟨before, rfl⟩ := hL.position
  obtain ⟨new, U, hw, hrf⟩ := hL.grown
  obtain ⟨n, hr, hn⟩ := hw.refOf (p := p) (by simp)
  have hpn : ref p = some n := by rw [← hrf p (by simp), hn]
  have hne : p ≠ .roots := fun he => hw.roots.head_notMem (he ▸ by simp)
  have hl : ∀ x, root x → r.1.1.color x = .white → x ≠ n → ∃ q ∈ ahead, ref q = some x := by
    intro x hx hwh hxn
    obtain ⟨q, hq, hqx⟩ := hL.left x hx hwh
    rcases mem_cons.mp hq with rfl | hq
    · exact absurd (Option.some.inj (hqx.symm.trans hpn)) hxn
    · exact ⟨q, hq, hqx⟩
  obtain ⟨r', hok, hC, hl'⟩ : ∃ r', collectIfWhite h depth n r = .ok r' ∧
      Collecting h rc white [] [] r'.1.1 ∧
      ∀ x, root x → r'.1.1.color x = .white → ∃ q ∈ ahead, ref q = some x := by
    rw [collectIfWhite]
    by_cases hwh : r.1.1.color n = .white
    · obtain ⟨r1, hok, hC, -, hf⟩ :=
        gcCollectWhite_collecting r.1.2 hsy hL.collecting hL.grown hwh hdp
      refine ⟨(r1.1, r.2 + r1.2), ?_, hC, fun x hx hxw => ?_⟩
      · exact (if_pos hwh).trans (map_eq_ok_iff.mpr ⟨r1, hok, rfl⟩)
      · exact hl x hx (hf x hxw).2 (hf x hxw).1
    · refine ⟨r, if_neg hwh, hL.collecting, fun x hx hxw => hl x hx hxw ?_⟩
      rintro rfl
      exact hwh hxw
  have hrt : collectRoot h depth p r = .ok (r', r'.1.1.links.next p) := by
    rw [collectRoot]
    exact bind_eq_ok_iff.mpr ⟨n, hr, bind_eq_ok_iff.mpr ⟨r', hok, rfl⟩⟩
  obtain ⟨hnx, hg⟩ := collectRoot_grown hL.grown hrt
  exact ⟨hne, r', by rw [hrt, hnx], ⟨before ++ [p], by simp⟩, hC, hg, hl'⟩

variable {U : List RootPtr}

/-- **`gc_collect_roots`** on a ring whose white roots are known. -/
theorem gcCollectRoots_collected (hw : s.view.Wf R T U [])
    (hsy : ∀ x, s.color x = .white → h.isSymbolTable x = false)
    (hrt : ∀ x, root x → s.color x = .white → ∃ p ∈ R, s.ref p = some x)
    (hC : Collecting h rc (fun x => s.color x = .white) [] [] s) {steps : ℕ}
    (hdp : Fintype.card N < depth) (hs : R.length < steps) (flags : Bool) :
    ∃ r, gcCollectRoots h depth steps s flags = .ok r ∧
      Collecting h rc (fun x => s.color x = .white) [] [] r.1.1 ∧
      ∀ x, root x → r.1.1.color x ≠ .white := by
  have hfr : s.links.next .roots = R.headD .roots := hw.roots.next_head
  obtain ⟨s1, hpr, hP⟩ : ∃ s1, ringWalk GcError.steps .roots pruneRoot steps (R.headD .roots) s =
      .ok s1 ∧ Pruning s R T [] s1 :=
    ringWalk_total (fun p ahead z hz => pruneStep hz) R steps s hs (.start hw)
  obtain ⟨R1, U1, hw1, hl, hk⟩ := hP.wf
  rw [append_nil] at hw1 hl
  have hsr : Looping h rc (fun x => s.color x = .white) root R1 T s1.ref R1 s1 := by
    refine ⟨⟨[], rfl⟩, hC.congr hP.color hP.refcount, ⟨[], U1, hw1, fun _ _ => rfl⟩, ?_⟩
    intro x hx hwh
    rw [hP.color] at hwh
    obtain ⟨p, hp, hrf⟩ := hrt x hx hwh
    refine ⟨p, ?_, by rw [hP.ref, hrf]⟩
    have hm := hk p hp x hrf (by rw [hwh]; decide)
    rwa [append_nil] at hm
  have hf : s1.links.next .roots = R1.headD .roots := hw1.roots.next_head
  obtain ⟨r, hc, hL⟩ : ∃ r, ringWalk GcError.steps .roots (collectRoot h depth) steps
      (R1.headD .roots) ((s1, flags), 0) = .ok r ∧
      Looping h rc (fun x => s.color x = .white) root R1 T s1.ref [] r.1.1 :=
    ringWalk_total (Q := fun ahead (r : (GcState N × Bool) × ℕ) =>
        Looping h rc (fun x => s.color x = .white) root R1 T s1.ref ahead r.1.1)
      (fun p ahead r hr => hr.step hsy hdp) R1 steps _ (hl.trans_lt hs) hsr
  refine ⟨(({ r.1.1 with links := relinkRoots r.1.1.links }, r.1.2), r.2), ?_,
    hL.collecting.congr rfl rfl, fun x hx hwh => ?_⟩
  · rw [gcCollectRoots, hfr]
    refine bind_eq_ok_iff.mpr ⟨s1, hpr, ?_⟩
    rw [hf]
    exact bind_eq_ok_iff.mpr ⟨r, hc, rfl⟩
  · obtain ⟨p, hp, -⟩ := hL.left x hx hwh
    cases hp

/-! ## The three phases -/

omit [DecidableEq N] [Fintype N] in
lemma BufferView.Wf.refs {v : BufferView N} (hw : v.Wf R T U []) :
    ∃ rs : List N, R.map v.ref = rs.map some := by
  have hsm : ∀ l : List RootPtr, (∀ p ∈ l, ∃ n, v.ref p = some n) →
      ∃ rs : List N, l.map v.ref = rs.map some := by
    intro l
    induction l with
    | nil => exact fun _ => ⟨[], rfl⟩
    | cons p l ih =>
      intro hl
      obtain ⟨n, hn⟩ := hl p (mem_cons_self ..)
      obtain ⟨rs, hrs⟩ := ih fun q hq => hl q (mem_cons_of_mem _ hq)
      exact ⟨n :: rs, by rw [map_cons, map_cons, hn, hrs]⟩
  refine hsm R fun p hp => ?_
  obtain ⟨n, hn, -⟩ := hw.linked p (mem_append_left _ hp)
  exact ⟨n, hn⟩

/-- **Trial deletion leaves no trace.** On a heap with consistent counts, whose values are black but
for purple ones in the root buffer, the three phases return, so that no count was to go below zero;
every count is what it was, and every value is black. -/
theorem collection_leaves_no_trace {external : N → ℕ} {U : List RootPtr}
    (hcons : h.Consistent external s.refcount) (hw : s.view.Wf R T U [])
    (hcolor : ∀ x, s.color x = .black ∨ s.color x = .purple ∧ ∃ p ∈ R, s.ref p = some x)
    {depth steps : ℕ} (hdepth : Fintype.card N < depth) (hsteps : R.length < steps)
    (flags : Bool) :
    ∃ s₁ s₂ r, gcMarkRoots h depth steps s = .ok s₁ ∧ gcScanRoots h depth steps s₁ = .ok s₂ ∧
      gcCollectRoots h depth steps s₂ flags = .ok r ∧
      (∀ x, r.1.1.refcount x = s.refcount x) ∧ ∀ x, r.1.1.color x = .black := by
  obtain ⟨rs, hrs⟩ := hw.refs
  have hrt : s.view.Roots R rs := ⟨hw.roots, hrs⟩
  have hmm : ∀ x, (∃ p ∈ R, s.ref p = some x) → x ∈ rs := by
    rintro x ⟨p, hp, hrf⟩
    have hx : some x ∈ rs.map some := hrs ▸ mem_map.mpr ⟨p, hp, hrf⟩
    simpa using hx
  obtain ⟨s₁, hmr, hM⟩ := gcMarkRoots_marked hcons hrt
    (fun x => (hcolor x).imp_right fun hx => ⟨hx.1, hmm x hx.2⟩) hdepth hsteps
  have hpr : ∀ x, s.color x = .purple → ∃ p ∈ R, s.ref p = some x := fun x hx =>
    ((hcolor x).resolve_left (by rw [hx]; decide)).2
  obtain ⟨s₂, hsc, hS⟩ := gcScanRoots_scanned hM hrt (fun r hr => hmm r (hpr r hr)) hdepth hsteps
  have hw₂ : s₂.view.Wf R T U [] := hS.view ▸ hw
  have hsm : s₂.ref = s.ref := congrArg BufferView.ref hS.view
  have hC : Collecting h s.refcount (fun x => s₂.color x = .white) [] [] s₂ := by
    refine ⟨fun x => by simpa using hS.conserved x, hS.color, fun _ => id, fun m hm hb => ?_⟩
    rw [hm] at hb
    cases hb
  obtain ⟨r, hc, hC', hdn⟩ := gcCollectRoots_collected hw₂
    (fun x hx => ((hM.grey_iff x).mp ((hS.white_iff x).mp hx).1).1)
    (fun x (hx : s.color x = .purple) _ => hsm ▸ hpr x hx) hC hdepth hsteps flags
  -- garbage is followed to from a root through garbage
  have hpt : ∀ a x, s.color a = .purple → h.Follow a x → s₂.color x = .white →
      r.1.1.color x ≠ .white := by
    intro a x ha hf
    induction hf with
    | refl => exact fun _ => hdn a ha
    | @tail y z hay hyz ih =>
      intro hz
      obtain ⟨-, hdd⟩ := (hS.white_iff z).mp hz
      have hsy : h.isSymbolTable y = false := by
        by_contra hsy
        rw [Heap.children, if_pos (by simpa using hsy)] at hyz
        cases hyz
      have hwh : s₂.color y = .white := by
        refine (hS.white_iff y).mpr ⟨(hM.grey_iff y).mpr ⟨hsy, a, ha, hay⟩, ?_⟩
        rintro ⟨w, hw, hps, hwy⟩
        exact hdd ⟨w, hw, hps, hwy.tail hyz⟩
      have hbl := (hC'.color y).resolve_left (ih hwh)
      rcases hC'.closed y hwh hbl z hyz with hb | hb
      · rw [hb]
        decide
      · cases hb
  have hnn : ∀ x, r.1.1.color x ≠ .white := by
    intro x hx
    have hx₂ := hC'.inside x hx
    obtain ⟨-, a, ha, hf⟩ := (hM.grey_iff x).mp ((hS.white_iff x).mp hx₂).1
    exact hpt a x ha hf hx₂ hx
  refine ⟨s₁, s₂, r, hmr, hsc, hc, fun x => ?_, fun x => (hC'.color x).resolve_left (hnn x)⟩
  have hzr : h.held (fun m => r.1.1.color m = .white) x = 0 := by
    by_contra hne
    obtain ⟨m, hm, -⟩ := h.exists_of_held_pos (Nat.pos_of_ne_zero hne)
    exact hnn m hm
  have hen := hC'.conserved x
  rw [count_nil] at hen
  omega

/-- Two arrays that refer to each other, one of them buffered. -/
theorem collection_leaves_no_trace_cycle :
    ∃ (h : Heap (Fin 2)) (s s₁ s₂ : GcState (Fin 2)) (r : (GcState (Fin 2) × Bool) × ℕ),
      h.node = ![.array [.counted 1], .array [.counted 0]] ∧
      gcPossibleRoot .ok 0 (gcInit fun _ => 1) = .ok s ∧ h.Consistent (fun _ => 0) s.refcount ∧
      gcMarkRoots h 3 2 s = .ok s₁ ∧ gcScanRoots h 3 2 s₁ = .ok s₂ ∧
      gcCollectRoots h 3 2 s₂ false = .ok r ∧ (∀ x, r.1.1.refcount x = s.refcount x) ∧
      ∀ x, r.1.1.color x = .black := by
  have hw : ({ gcInit (fun _ : Fin 2 => 1) with firstUnused := 2 }.addRoot (.buf 1) 0
      ⟨1, .purple⟩).view.Wf [.buf 1] [] [] [] :=
    addRoot_wf
      ((gcInit_wf fun _ : Fin 2 => 1).bump (by decide)) rfl
  have hcs : Heap.Consistent ⟨![.array [.counted 1], .array [.counted (0 : Fin 2)]], none⟩
      (fun _ => 0) fun _ => 1 := by decide
  obtain ⟨s₁, s₂, r, hm, hsc, hc, hcn, hb⟩ := collection_leaves_no_trace hcs hw
    (by decide) (show Fintype.card (Fin 2) < 3 by decide)
    (show [RootPtr.buf 1].length < 2 by decide) false
  exact ⟨_, _, s₁, s₂, r, rfl, rfl, hcs, hm, hsc, hc, hcn, hb⟩

end PhpInternals.Zend.ZendGc

import PhpInternals.Found.Except
import PhpInternals.Zend.ZendGc.BufferOps

/-!
# What `gc_collect_roots` does to the root buffer
-/

namespace PhpInternals.Zend.ZendGc

open Except List Found

variable {N : Type} [DecidableEq N] {R T U : List RootPtr} {s : GcState N} {p : RootPtr} {n : N}

omit [DecidableEq N] in
lemma BufferView.Wf.refOf (hw : s.view.Wf R T U []) (hp : p ∈ R ++ T) :
    ∃ n, s.refOf p = .ok n ∧ s.ref p = some n := by
  obtain ⟨n, hn, -⟩ := hw.linked p hp
  have hn : s.ref p = some n := hn
  exact ⟨n, by rw [GcState.refOf, hn], hn⟩

/-! ## Removing what is alive -/

/-- The invariant of the first loop. `s₀` is the state before it, whose ring is `R`; `ahead` are the
slots that the loop has not come to. -/
structure Pruning (s₀ : GcState N) (R T ahead : List RootPtr) (s : GcState N) : Prop where
  wf : ∃ kept U, s.view.Wf (kept ++ ahead) T U [] ∧ (kept ++ ahead).length ≤ R.length ∧
    ∀ p ∈ R, ∀ n, s₀.ref p = some n → s₀.color n ≠ .black → p ∈ kept ++ ahead
  color : s.color = s₀.color
  refcount : s.refcount = s₀.refcount
  ref : s.ref = s₀.ref

lemma removeIfBlack_eq (p : RootPtr) (n : N) (s : GcState N) :
    removeIfBlack p n s = if s.color n = .black then removeSlot p n s else s := rfl

/-- Removing the slot of a black value changes neither colours nor counts nor values. -/
lemma removeSlot_frame (hn : s.color n = .black) :
    (removeSlot p n s).color = s.color ∧ (removeSlot p n s).refcount = s.refcount ∧
      (removeSlot p n s).ref = s.ref := by
  have hc : ∀ z : GcState N, z.info = s.info →
      (z.setInfo n ⟨0, .black⟩).color = s.color := fun z hz => by
    funext m
    simp only [GcState.color, GcState.setInfo, hz]
    by_cases hm : m = n
    · rw [hm, Function.update_self]
      exact hn.symm
    · rw [Function.update_of_ne hm]
  rw [removeSlot]
  split_ifs
  · exact ⟨hc _ rfl, rfl, rfl⟩
  · exact ⟨hc _ rfl, rfl, rfl⟩

lemma pruneStep {s0 : GcState N} {ahead : List RootPtr} (hP : Pruning s0 R T (p :: ahead) s) :
    p ≠ .roots ∧ ∃ s', pruneRoot p s = .ok (s', ahead.headD .roots) ∧ Pruning s0 R T ahead s' := by
  obtain ⟨kept, U, hw, hl, hk⟩ := hP.wf
  obtain ⟨n, hok, hrf⟩ := hw.refOf (p := p) (by simp)
  have hnx : s.links.next p = ahead.headD .roots := hw.roots.next_cell
  refine ⟨fun he => hw.roots.head_notMem (he ▸ by simp), removeIfBlack p n s, ?_, ?_⟩
  · rw [pruneRoot, hok, ← hnx]
    rfl
  rw [removeIfBlack_eq]
  split_ifs with hb
  · obtain ⟨U', hw'⟩ := removeSlot_wf hw hrf
    obtain ⟨hc, hcn, hrf'⟩ := removeSlot_frame hb
    refine ⟨⟨kept, U', hw', ?_, fun q hq m hqm hm => ?_⟩, hc.trans hP.color,
      hcn.trans hP.refcount, hrf'.trans hP.ref⟩
    · simp only [length_append, length_cons] at hl ⊢
      omega
    have hqp : q ≠ p := by
      rintro rfl
      rw [← hP.ref, hrf] at hqm
      obtain rfl := Option.some.inj hqm
      exact hm (hP.color ▸ hb)
    have := hk q hq m hqm hm
    simp only [mem_append, mem_cons] at this ⊢
    tauto
  · refine { hP with wf := ⟨kept ++ [p], U, ?_⟩ }
    simpa using And.intro hw (And.intro (by simpa using hl) (by simpa using hk))

omit [DecidableEq N] in
lemma Pruning.start (hw : s.view.Wf R T U []) : Pruning s R T R s :=
  ⟨⟨[], U, hw, le_rfl, fun _ hp _ _ _ => hp⟩, rfl, rfl, rfl⟩

/-! ## New slots behind the head -/

/-- The ring has at most got new slots behind its head, and the slots it had keep their values. -/
def Grown (R T : List RootPtr) (ref : RootPtr → Option N) (s : GcState N) : Prop :=
  ∃ new U, s.view.Wf (new ++ R) T U [] ∧ ∀ q ∈ R ++ T, s.ref q = ref q

variable {ref : RootPtr → Option N} {h : Heap N} {flags : Bool}

omit [DecidableEq N] in
lemma Grown.congr {s' : GcState N} (hg : Grown R T ref s) (hv : s'.view = s.view) :
    Grown R T ref s' := by
  obtain ⟨new, U, hw, hrf⟩ := hg
  refine ⟨new, U, hv ▸ hw, fun q hq => ?_⟩
  rw [← hrf q hq]
  exact congrFun (congrArg BufferView.ref hv) q

lemma Grown.addGarbage (hg : Grown R T ref s) (hn : (s.info n).address = 0) :
    Grown R T ref (gcAddGarbage n s) := by
  obtain ⟨new, U, hw, hrf⟩ := hg
  obtain ⟨p, U', hw', hrf'⟩ := gcAddGarbage_wf hw hn
  refine ⟨p :: new, U', hw', fun q hq => ?_⟩
  rw [hrf' q (by simp only [mem_append] at hq ⊢; tauto), hrf q hq]

lemma enterGarbage_cases (h : Heap N) (n : N) (s : GcState N) (flags : Bool) :
    (enterGarbage h n (s, flags)).1 = s ∨
      s.info n = ⟨0, .black⟩ ∧ (enterGarbage h n (s, flags)).1 = gcAddGarbage n s := by
  rw [enterGarbage]
  split
  · by_cases hn : s.info n = ⟨0, .black⟩
    · exact .inr ⟨hn, if_pos hn⟩
    · exact .inl (if_neg hn)
  · by_cases hn : s.info n = ⟨0, .black⟩
    · exact .inr ⟨hn, if_pos hn⟩
    · exact .inl (if_neg hn)
  · exact .inl rfl

lemma Grown.enterGarbage (hg : Grown R T ref s) :
    Grown R T ref (enterGarbage h n (s, flags)).1 := by
  rcases enterGarbage_cases h n s flags with heq | ⟨hn, heq⟩
  · rw [heq]
    exact hg
  · rw [heq]
    exact hg.addGarbage (by rw [hn])

lemma Grown.whiteEnter (hg : Grown R T ref s) : Grown R T ref (whiteEnter h n (s, flags)).1.1 := by
  rw [ZendGc.whiteEnter]
  split_ifs
  · exact Grown.enterGarbage (hg.congr (by simp))
  · exact hg.congr (by simp)

variable {depth : ℕ} {r : (GcState N × Bool) × ℕ}

/-- **`gc_collect_white`**, when it returns. -/
theorem gcCollectWhite_grown (hg : Grown R T ref s)
    (hok : gcCollectWhite h depth n (s, flags) = .ok r) : Grown R T ref r.1.1 := by
  cases depth with
  | zero => cases hok
  | succ depth =>
    have hm := gcCollectWhite_succ h depth n (s, flags)
    rw [hok] at hm
    split_ifs at hm with hn
    · refine Walks.foldlM_preserves (P := fun _ z => Grown R T ref z.1)
        ((walks_collectWhite h).preserves (P := fun _ z => Grown R T ref z.1) ?_ ?_ depth)
        (h.edges n) [] _ r.1 (Grown.enterGarbage (hg.congr (by simp))) hm.symm
      · intro c z z' hz
        cases hz
      · intro c _ z z' cs hz heq
        obtain ⟨rfl, rfl⟩ := Prod.mk.inj (ok.inj heq)
        exact hz.whiteEnter
    · rw [← ok.inj hm.symm]
      exact hg

lemma collectRoot_grown {before ahead : List RootPtr} {r' : (GcState N × Bool) × ℕ}
    {next : RootPtr} (hg : Grown (before ++ p :: ahead) T ref r.1.1)
    (hok : collectRoot h depth p r = .ok (r', next)) :
    next = ahead.headD .roots ∧ Grown (before ++ p :: ahead) T ref r'.1.1 := by
  rw [collectRoot] at hok
  obtain ⟨n, -, hok⟩ := bind_eq_ok_iff.mp hok
  obtain ⟨r1, hc, hok⟩ := bind_eq_ok_iff.mp hok
  obtain ⟨rfl, rfl⟩ := Prod.mk.inj (ok.inj hok)
  have hg' : Grown (before ++ p :: ahead) T ref r1.1.1 := by
    rw [collectIfWhite] at hc
    split_ifs at hc
    · obtain ⟨⟨r', count⟩, hwh, rfl⟩ := map_eq_ok_iff.mp hc
      exact gcCollectWhite_grown (r := (r', count)) hg hwh
    · rw [← ok.inj hc]
      exact hg
  refine ⟨?_, hg'⟩
  obtain ⟨new, U, hw, -⟩ := hg'
  have hrn := hw.roots
  rw [← append_assoc] at hrn
  exact hrn.next_cell

/-! ## The whole function -/

/-- **`gc_collect_roots` keeps the invariant of the buffer.** -/
theorem gcCollectRoots_wf {steps : ℕ} (hw : s.view.Wf R T U [])
    (hok : gcCollectRoots h depth steps s flags = .ok r) :
    ∃ R' T' U', r.1.1.view.Wf R' T' U' [] := by
  rw [gcCollectRoots] at hok
  obtain ⟨s1, hp, hok⟩ := bind_eq_ok_iff.mp hok
  obtain ⟨r1, hc, hok⟩ := bind_eq_ok_iff.mp hok
  have hpr : Pruning s R T [] s1 := by
    have hf : s.links.next .roots = R.headD .roots := hw.roots.next_head
    rw [hf] at hp
    refine ringWalk_preserves (fun p ahead z hz => ?_) steps R s s1
      (Pruning.start hw) hp
    obtain ⟨hne, z', hz', hP⟩ := pruneStep hz
    refine ⟨hne, fun z'' next heq => ?_⟩
    obtain ⟨rfl, rfl⟩ := Prod.mk.inj (ok.inj (hz'.symm.trans heq))
    exact ⟨rfl, hP⟩
  obtain ⟨R1, U1, hw1, -, -⟩ := hpr.wf
  rw [append_nil] at hw1
  have hgr : Grown R1 T s1.ref r1.1.1 := by
    have hf : s1.links.next .roots = R1.headD .roots := hw1.roots.next_head
    rw [hf] at hc
    have hen := ringWalk_preserves
      (Q := fun ahead z => ∃ before, R1 = before ++ ahead ∧ Grown R1 T s1.ref z.1.1)
      (fun p ahead z hz => ?_) steps R1 ((s1, flags), 0) r1
      ⟨[], rfl, [], U1, hw1, fun _ _ => rfl⟩ hc
    · exact hen.choose_spec.2
    · obtain ⟨before, rfl, hg⟩ := hz
      refine ⟨fun he => ?_, fun z' next heq => ?_⟩
      · exact hw1.roots.head_notMem (he ▸ by simp)
      · obtain ⟨hnx, hg'⟩ := collectRoot_grown hg heq
        exact ⟨hnx, before ++ [p], by simp, hg'⟩
  obtain ⟨new, U2, hw2, -⟩ := hgr
  obtain rfl := ok.inj hok
  exact ⟨[], _, U2, hw2.relink⟩

end PhpInternals.Zend.ZendGc

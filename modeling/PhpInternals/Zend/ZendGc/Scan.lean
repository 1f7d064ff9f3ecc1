import PhpInternals.Zend.ZendGc.Mark

/-!
# The second phase: what is garbage

`gc_scan_roots` goes over the grey values. One whose count is still positive is alive, and
`gc_scan_black` gives back what trial deletion took along everything that can be reached from it;
the others turn white, until something alive is found to hold them.
-/

namespace PhpInternals.Zend.ZendGc

open Finset Found

variable {N : Type} [DecidableEq N] [Fintype N]

/-- Grey or white: the edges of such a value have been taken away. -/
def GcState.Trial (s : GcState N) (m : N) : Prop := s.color m = .grey ∨ s.color m = .white

instance (s : GcState N) : DecidablePred s.Trial := fun m =>
  inferInstanceAs (Decidable (s.color m = .grey ∨ s.color m = .white))

/-- The counts and the grey values that the first phase leaves. -/
structure MarkedGraph (h : Heap N) (rc rest : N → ℕ) (grey : N → Prop) [DecidablePred grey] :
    Prop where
  conserved : ∀ x, rest x + h.held grey x = rc x
  symbol : ∀ x, grey x → h.isSymbolTable x = false
  closed : ∀ m, grey m → ∀ c ∈ h.children m, grey c ∨ h.isSymbolTable c = true

/-- A value that is reached from a grey one whose count is positive. -/
def Alive (h : Heap N) (rest : N → ℕ) (grey : N → Prop) (x : N) : Prop :=
  ∃ y, grey y ∧ 0 < rest y ∧ h.Follow y x

/-- The invariant of the phase: `owed` are the edges of black values that have not been given back
yet, `calls` the calls of `gc_scan` still to be made, `old` the values that may be grey. -/
structure Scanning (h : Heap N) (rc rest : N → ℕ) (grey old : N → Prop) (v : BufferView N)
    (owed calls : List N) (s : GcState N) : Prop where
  view : s.view = v
  conserved : ∀ x, s.refcount x + h.held s.Trial x + owed.count x = rc x
  inside : ∀ x, s.color x ≠ .black → grey x
  color : ∀ x, s.color x ≠ .purple
  grey_old : ∀ x, s.color x = .grey → old x
  white_closed : ∀ m, s.color m = .white → ∀ c ∈ h.children m, s.color c ≠ .grey ∨ c ∈ calls
  black_closed : ∀ m, grey m → s.color m = .black → ∀ c ∈ h.children m,
    s.color c = .black ∨ c ∈ owed
  white_zero : ∀ m, s.color m = .white → rest m = 0
  black_alive : ∀ m, grey m → s.color m = .black → Alive h rest grey m
  owed_alive : ∀ c ∈ owed, Alive h rest grey c

variable {h : Heap N} {rc rest : N → ℕ} {grey old : N → Prop}
  {v : BufferView N} {owed calls : List N} {n : N} {s s' : GcState N}

/-! ## `gc_scan_black` -/

lemma Scanning.incRef (hS : Scanning h rc rest grey old v (n :: owed) calls s)
    (hn : s.color n = .black) : Scanning h rc rest grey old v owed calls (s.incRef n) := by
  refine { hS with conserved := fun x => ?_, black_closed := fun m hm hb c hc => ?_,
                   owed_alive := fun c hc => hS.owed_alive c (List.mem_cons_of_mem _ hc) }
  · have hcn := hS.conserved x
    rw [← List.singleton_append, List.count_append] at hcn
    rw [refcount_incRef]
    have : h.held (s.incRef n).Trial x = h.held s.Trial x := rfl
    omega
  · rcases hS.black_closed m hm hb c hc with hbl | hmm
    · exact .inl hbl
    · rcases List.mem_cons.mp hmm with rfl | hmm
      · exact .inl hn
      · exact .inr hmm

section

variable (hS : Scanning h rc rest grey old v owed calls s)
include hS

lemma Scanning.black (hn : s.color n ≠ .black) (ha : Alive h rest grey n) :
    Scanning h rc rest grey (fun x => old x ∧ x ≠ n) v (h.children n ++ owed) calls
      (s.setColor n .black) := by
  have htr : ∀ m, s.Trial m ↔ m = n ∨ (s.setColor n .black).Trial m := fun m => by
    by_cases hm : m = n
    · have := hS.color m
      cases hc : s.color m <;> simp_all [GcState.Trial]
    · simp [GcState.Trial, hm]
  have hnt : ¬ (s.setColor n .black).Trial n := by simp [GcState.Trial]
  obtain ⟨y, hy, hp, hf⟩ := ha
  refine ⟨by simp [hS.view], fun x => ?_, fun x hx => ?_, fun x => ?_, fun x hx => ?_,
    fun m hm c hc => ?_, fun m hm hb c hc => ?_, fun m hm => ?_, fun m hm hb => ?_, fun c hc => ?_⟩
  · have hcn := hS.conserved x
    rw [h.held_insert hnt htr] at hcn
    rw [List.count_append, refcount_setColor]
    omega
  · rw [color_setColor] at hx
    split_ifs at hx
    · exact absurd rfl hx
    · exact hS.inside x hx
  · rw [color_setColor]
    split_ifs
    · simp
    · exact hS.color x
  · rw [color_setColor] at hx
    split_ifs at hx with hxn
    exact ⟨hS.grey_old x hx, hxn⟩
  · rw [color_setColor] at hm ⊢
    split_ifs at hm
    refine (hS.white_closed m hm c hc).imp_left fun hcl => ?_
    split_ifs
    · simp
    · exact hcl
  · rw [color_setColor] at hb ⊢
    by_cases hmn : m = n
    · subst hmn
      exact .inr (List.mem_append_left _ hc)
    rw [if_neg hmn] at hb
    rcases hS.black_closed m hm hb c hc with hcb | hmm
    · left
      split_ifs
      · rfl
      · exact hcb
    · exact .inr (List.mem_append_right _ hmm)
  · rw [color_setColor] at hm
    split_ifs at hm
    exact hS.white_zero m hm
  · rw [color_setColor] at hb
    split_ifs at hb with hmn
    · exact ⟨y, hy, hp, hmn ▸ hf⟩
    · exact hS.black_alive m hm hb
  · rcases List.mem_append.mp hc with hc | hc
    · exact ⟨y, hy, hp, hf.tail hc⟩
    · exact hS.owed_alive c hc

lemma Scanning.perm {owed' : List N}
    (hp : owed.Perm owed') : Scanning h rc rest grey old v owed' calls s :=
  { hS with
    conserved := fun x => by rw [← hp.count_eq]; exact hS.conserved x
    black_closed := fun m hm hb c hc => (hS.black_closed m hm hb c hc).imp_right hp.mem_iff.mp
    owed_alive := fun c hc => hS.owed_alive c (hp.mem_iff.mpr hc) }

lemma Scanning.with_old {old' : N → Prop}
    (ho : ∀ x, s.color x = .grey → old' x) : Scanning h rc rest grey old' v owed calls s :=
  { hS with grey_old := ho }

end

/-- The number of values that are not black. -/
def notBlack (s : GcState N) : ℕ := (univ.filter fun x => s.color x ≠ .black).card

lemma notBlack_setColor_lt (hn : s.color n ≠ .black) :
    notBlack (s.setColor n .black) < notBlack s := by
  refine card_lt_card ⟨fun x hx => ?_, fun hsb => ?_⟩
  · rw [mem_filter] at hx ⊢
    refine ⟨hx.1, fun he => hx.2 ?_⟩
    rw [color_setColor, he, ite_self]
  · have := hsb (mem_filter.mpr ⟨mem_univ n, hn⟩)
    simp at this

/-- **A child in `gc_scan_black`**: the increment, then the value. -/
theorem Scanning.blackChild (hS : Scanning h rc rest grey old v (n :: owed) calls s) :
    ∃ s' cs, Except.ok (ε := GcError) (blackEnter h n s) = .ok (s', cs) ∧
      Scanning h rc rest grey old v (cs ++ owed) calls s' ∧ notBlack s' ≤ notBlack s ∧
      (cs ≠ [] → notBlack s' < notBlack s) := by
  rw [blackEnter]
  split_ifs with hn
  · have hb := (hS.black hn (hS.owed_alive n (List.mem_cons_self ..))).perm List.perm_middle
    have hlt := notBlack_setColor_lt hn
    exact ⟨_, _, rfl, (hb.incRef (by simp)).with_old fun x hx => (hb.grey_old x hx).1,
      hlt.le, fun _ => hlt⟩
  · rw [not_not] at hn
    exact ⟨_, _, rfl, hS.incRef hn, le_rfl, fun hne => absurd rfl hne⟩

/-- **`gc_scan_black`** on a value that is alive. -/
theorem gcScanBlack_scanning {depth : ℕ} (hdp : Fintype.card N < depth)
    (hS : Scanning h rc rest grey old v [] calls s) (hn : s.color n ≠ .black)
    (ha : Alive h rest grey n) :
    ∃ s', gcScanBlack h depth n s = .ok s' ∧
      Scanning h rc rest grey (fun x => old x ∧ x ≠ n) v [] calls s' := by
  obtain ⟨depth, rfl⟩ : ∃ d, depth = d + 1 := ⟨depth - 1, by omega⟩
  have hlt : notBlack (s.setColor n .black) < depth :=
    (notBlack_setColor_lt hn).trans_le ((card_le_univ _).trans (Nat.lt_succ_iff.mp hdp))
  obtain ⟨s', hok, hS', -⟩ := (walks_scanBlack h).total_list
    (P := fun owed z => Scanning h rc rest grey (fun x => old x ∧ x ≠ n) v owed calls z)
    (fun _ _ _ hS => hS.blackChild) (h.children n) [] (s.setColor n .black) (fun _ => hlt)
    (hS.black hn ha)
  exact ⟨s', by rw [gcScanBlack_succ, hok], hS'⟩

/-! ## `gc_scan` -/

lemma Scanning.drop_call (hS : Scanning h rc rest grey old v owed (n :: calls) s)
    (hn : s.color n ≠ .grey) : Scanning h rc rest grey old v owed calls s := by
  refine { hS with white_closed := fun m hm c hc => ?_ }
  rcases hS.white_closed m hm c hc with hcl | hmm
  · exact .inl hcl
  · rcases List.mem_cons.mp hmm with rfl | hmm
    · exact .inl hn
    · exact .inr hmm

variable [DecidablePred grey]

section

variable (hG : MarkedGraph h rc rest grey)
include hG

/-- The count of a value during the phase: what the first phase has left, and what black values have
given back. -/
lemma Scanning.refcount_eq (hS : Scanning h rc rest grey old v [] calls s) (x : N) :
    s.refcount x = rest x + h.held (fun m => grey m ∧ s.color m = .black) x := by
  have hs : h.held grey x = h.held s.Trial x + h.held (fun m => grey m ∧ s.color m = .black) x := by
    refine h.held_add (fun m hm hb => ?_) (fun m => ⟨fun hm => ?_, fun hm => ?_⟩) x
    · rcases hm with hm | hm <;> simp [hm] at hb
    · have := hS.color m
      cases hc : s.color m <;> simp_all [GcState.Trial]
    · rcases hm with hm | hm
      · refine hS.inside m fun hb => ?_
        rcases hm with hm | hm <;> simp [hm] at hb
      · exact hm.1
  have h1 := hS.conserved x
  have h2 := hG.conserved x
  simp only [List.count_nil] at h1
  omega

lemma Scanning.alive_of_refcount_pos
    (hS : Scanning h rc rest grey old v [] calls s) {x : N} (hx : grey x)
    (hp : 0 < s.refcount x) : Alive h rest grey x := by
  rw [hS.refcount_eq hG] at hp
  by_cases hr : 0 < rest x
  · exact ⟨x, hx, hr, .refl⟩
  · have hhl : 0 < h.held (fun m => grey m ∧ s.color m = .black) x := by omega
    obtain ⟨m, ⟨hm, hb⟩, hmx⟩ := h.exists_of_held_pos hhl
    obtain ⟨y, hy, hyp, hf⟩ := hS.black_alive m hm hb
    exact ⟨y, hy, hyp, hf.tail hmx⟩

lemma Scanning.white (hS : Scanning h rc rest grey old v [] (n :: calls) s) (hn : s.color n = .grey)
    (hz : s.refcount n = 0) :
    Scanning h rc rest grey (fun x => old x ∧ x ≠ n) v [] (h.edges n ++ calls)
      (s.setColor n .white) := by
  have hg : grey n := hS.inside n (by simp [hn])
  have hch := h.children_eq (hG.symbol n hg)
  have htr : ∀ m, (s.setColor n .white).Trial m ↔ s.Trial m := fun m => by
    by_cases hm : m = n
    · subst hm
      simp [GcState.Trial, hn]
    · simp [GcState.Trial, hm]
  have ho : ∀ x, x ≠ n → (s.setColor n .white).color x = s.color x := fun x hx => by simp [hx]
  have hbl : ∀ x, (s.setColor n .white).color x = .black ↔ s.color x = .black := fun x => by
    by_cases hx : x = n
    · subst hx
      simp [hn]
    · rw [ho x hx]
  refine ⟨by simp [hS.view], fun x => ?_, fun x hx => ?_, fun x => ?_, fun x hx => ?_,
    fun m hm c hc => ?_, fun m hm hb c hc => ?_, fun m hm => ?_, fun m hm hb => ?_, nofun⟩
  · rw [h.held_congr htr]
    exact hS.conserved x
  · exact hS.inside x fun hb => hx ((hbl x).mpr hb)
  · by_cases hx : x = n
    · subst hx
      simp
    · rw [ho x hx]
      exact hS.color x
  · by_cases hxn : x = n
    · subst hxn
      simp at hx
    · rw [ho x hxn] at hx
      exact ⟨hS.grey_old x hx, hxn⟩
  · by_cases hmn : m = n
    · subst hmn
      exact .inr (List.mem_append_left _ (hch ▸ hc))
    rw [ho m hmn] at hm
    by_cases hcn : c = n
    · subst hcn
      exact .inl (by simp)
    · rw [ho c hcn]
      refine (hS.white_closed m hm c hc).imp_right fun hmm => ?_
      exact List.mem_append_right _ ((List.mem_cons.mp hmm).resolve_left hcn)
  · rw [hbl] at hb ⊢
    exact hS.black_closed m hm hb c hc
  · by_cases hmn : m = n
    · subst hmn
      have := hS.refcount_eq hG m
      omega
    · rw [ho m hmn] at hm
      exact hS.white_zero m hm
  · exact hS.black_alive m hm ((hbl m).mp hb)

end

/-- The number of grey values. -/
def greyCount (s : GcState N) : ℕ := (univ.filter fun x => s.color x = .grey).card

lemma Scanning.enter (hG : MarkedGraph h rc rest grey) {black : ℕ}
    (hb : Fintype.card N < black) (hS : Scanning h rc rest grey old v [] (n :: calls) s) :
    ∃ s' cs, scanEnter h black n s = .ok (s', cs) ∧
      Scanning h rc rest grey (fun x => old x ∧ x ≠ n) v [] (cs ++ calls) s' ∧
      greyCount s' ≤ greyCount s ∧ (cs ≠ [] → greyCount s' < greyCount s) := by
  have ho := hS.with_old fun x hx => hx
  have hc : ∀ z : GcState N, (∀ x, z.color x = .grey → s.color x = .grey ∧ x ≠ n) →
      greyCount z ≤ greyCount s ∧ (s.color n = .grey → greyCount z < greyCount s) := by
    intro z hz
    have hsb : (univ.filter fun x => z.color x = .grey) ⊆
        univ.filter fun x => s.color x = .grey := fun x hx => by
      rw [mem_filter] at hx ⊢
      exact ⟨hx.1, (hz x hx.2).1⟩
    refine ⟨card_le_card hsb, fun hn => card_lt_card ⟨hsb, fun hsp => ?_⟩⟩
    have := hsp (mem_filter.mpr ⟨mem_univ n, hn⟩)
    exact (hz n (mem_filter.mp this).2).2 rfl
  rw [scanEnter]
  by_cases hn : s.color n = .grey
  · rw [if_pos hn]
    have hg : grey n := hS.inside n (by simp [hn])
    by_cases hp : s.refcount n > 0
    · obtain ⟨s', hok, hS'⟩ := gcScanBlack_scanning hb ho (by simp [hn])
        (hS.alive_of_refcount_pos hG hg hp)
      have hdn : s'.color n ≠ .grey := fun hx => (hS'.grey_old n hx).2 rfl
      rw [if_pos hp, hok]
      refine ⟨s', [], rfl, (hS'.drop_call hdn).with_old fun x hx => ?_,
        (hc s' hS'.grey_old).1, fun hne => absurd rfl hne⟩
      exact ⟨hS.grey_old x (hS'.grey_old x hx).1, (hS'.grey_old x hx).2⟩
    · rw [if_neg hp, hG.symbol n hg]
      have hzr : s.refcount n = 0 := by omega
      have hlt := (hc (s.setColor n .white) (ho.white hG hn hzr).grey_old).2 hn
      exact ⟨_, _, rfl, hS.white hG hn hzr, hlt.le, fun _ => hlt⟩
  · rw [if_neg hn]
    refine ⟨s, [], rfl, (hS.drop_call hn).with_old fun x hx => ?_, le_rfl, fun hne =>
      absurd rfl hne⟩
    exact ⟨hS.grey_old x hx, fun he => hn (he ▸ hx)⟩

/-- **A whole scan.** -/
lemma gcScan_scanning (hG : MarkedGraph h rc rest grey) {black depth : ℕ}
    (hb : Fintype.card N < black) (hdp : Fintype.card N < depth)
    (hS : Scanning h rc rest grey old v [] [] s) :
    ∃ s', gcScan h black depth n s = .ok s' ∧
      Scanning h rc rest grey (fun x => old x ∧ x ≠ n) v [] [] s' := by
  obtain ⟨depth, rfl⟩ : ∃ d, depth = d + 1 := ⟨depth - 1, by omega⟩
  have hS0 : Scanning h rc rest grey old v [] [n] s :=
    { hS with white_closed := fun m hm c hc => .inl <|
        (hS.white_closed m hm c hc).resolve_right (by simp) }
  obtain ⟨s1, cs, hok, hS1, -, hlt⟩ := hS0.enter hG hb
  have hcr : greyCount s ≤ Fintype.card N := card_le_univ _
  obtain ⟨s', ho', hS', -⟩ := (walks_scan h black).total_list
   
    (fun m calls z hS => by
      obtain ⟨z', cs, hok, hS', hr⟩ := hS.enter hG hb
      exact ⟨z', cs, hok, hS'.with_old fun x hx => (hS'.grey_old x hx).1, hr⟩)
    cs [] s1 (fun hne => (hlt hne).trans_le (hcr.trans (Nat.lt_succ_iff.mp hdp))) hS1
  refine ⟨s', ?_, hS'⟩
  rw [(walks_scan h black).succ, hok]
  exact ho'

/-! ## The phase -/

/-- The state after `gc_scan_roots`. -/
structure Scanned (h : Heap N) (rc rest : N → ℕ) (grey : N → Prop) (v : BufferView N)
    (s : GcState N) : Prop where
  view : s.view = v
  conserved : ∀ x, s.refcount x + h.held (fun m => s.color m = .white) x = rc x
  color : ∀ x, s.color x = .white ∨ s.color x = .black
  white_iff : ∀ x, s.color x = .white ↔ grey x ∧ ¬ Alive h rest grey x

/-- A property that edges keep holds of every grey value that can be followed to. -/
lemma MarkedGraph.follow (hG : MarkedGraph h rc rest grey) {p : N → Prop} {m x : N}
    (hsp : ∀ y, grey y → p y → ∀ z ∈ h.children y, p z) (hf : h.Follow m x)
    (hm : grey m ∧ p m ∨ h.isSymbolTable m = true) (hx : grey x) : p x := by
  -- a path leaves the grey values only to end in the symbol table
  have hpt : grey x ∧ p x ∨ h.isSymbolTable x = true := by
    clear hx
    induction hf with
    | refl => exact hm
    | @tail y z _ hyz ih =>
      rcases ih with ⟨hy, hpy⟩ | hsy
      · exact (hG.closed y hy z hyz).imp_left fun hz => ⟨hz, hsp y hy hpy z hyz⟩
      · rw [Heap.children, if_pos hsy] at hyz
        cases hyz
  exact (hpt.resolve_right (by simp [hG.symbol x hx])).2

/-- At the end nothing is grey, and the white nodes are garbage. -/
lemma Scanning.scanned (hG : MarkedGraph h rc rest grey)
    (hS : Scanning h rc rest grey old v [] [] s) (hnn : ∀ x, s.color x ≠ .grey) :
    Scanned h rc rest grey v s := by
  have hcl : ∀ x, s.color x = .white ∨ s.color x = .black := fun x => by
    have h2 := hS.color x
    cases hc : s.color x <;> simp_all
  refine ⟨hS.view, fun x => ?_, hcl, fun x => ⟨fun hx => ?_, fun ⟨hg, hdd⟩ => ?_⟩⟩
  · have htr : ∀ m, s.color m = .white ↔ s.Trial m := fun m => by
      simp [GcState.Trial, hnn m]
    rw [h.held_congr htr]
    simpa using hS.conserved x
  · have hg : grey x := hS.inside x (by simp [hx])
    refine ⟨hg, ?_⟩
    rintro ⟨y, hy, hps, hf⟩
    have hyb : s.color y = .black := (hcl y).resolve_left fun hw => by
      have := hS.white_zero y hw
      omega
    have hxb := hG.follow
      (fun m hm hb c hc => (hS.black_closed m hm hb c hc).resolve_right (by simp)) hf
      (.inl ⟨hy, hyb⟩) hg
    simp [hx] at hxb
  · exact (hcl x).resolve_right fun hb => hdd (hS.black_alive x hg hb)

lemma Marked.graph {root : N → Prop} (hM : Marked h rc root v s) :
    MarkedGraph h rc s.refcount (fun x => s.color x = .grey) where
  conserved := hM.conserved
  symbol x hx := ((hM.grey_iff x).mp hx).1
  closed m hm c hc := by
    obtain ⟨-, r, hr, hf⟩ := (hM.grey_iff m).mp hm
    cases hsy : h.isSymbolTable c with
    | true => exact .inr rfl
    | false => exact .inl ((hM.grey_iff c).mpr ⟨hsy, r, hr, hf.tail hc⟩)

/-- **`gc_scan_roots`** after `gc_mark_roots`. -/
theorem gcScanRoots_scanned {root : N → Prop} (hM : Marked h rc root v s)
    {slots : List RootPtr} {rs : List N} (hrt : v.Roots slots rs) (hrs : ∀ r, root r → r ∈ rs)
    {depth steps : ℕ} (hdp : Fintype.card N < depth) (hs : slots.length < steps) :
    ∃ s', gcScanRoots h depth steps s = .ok s' ∧
      Scanned h rc s.refcount (fun x => s.color x = .grey) v s' := by
  have hG := hM.graph
  have hnt : ∀ x, s.color x ≠ .white := fun x hx => by
    rcases hM.color x with hc | hc <;> simp [hx] at hc
  have hsr : Scanning h rc s.refcount (fun x => s.color x = .grey) (fun x => x ∈ rs → x ∈ rs) v
      [] [] s := by
    refine ⟨hM.view, fun x => ?_, fun x hx => (hM.color x).resolve_right hx, fun x hx => ?_,
      fun x _ => id, fun m hm => absurd hm (hnt m), fun m hm hb => ?_, fun m hm =>
        absurd hm (hnt m),
      fun m hm hb => ?_, nofun⟩
    · have htr : ∀ m, s.Trial m ↔ s.color m = .grey := fun m => by
        simp [GcState.Trial, hnt m]
      rw [h.held_congr htr]
      simpa using hM.conserved x
    · rcases hM.color x with hc | hc <;> simp [hx] at hc
    · simp [hm] at hb
    · simp [hm] at hb
  -- over the ring: only roots that are still ahead are grey
  obtain ⟨s', hok, hS⟩ := rootWalk_total
    (Q := fun ahead z => Scanning h rc s.refcount (fun x => s.color x = .grey)
      (fun x => x ∈ rs → x ∈ ahead) v [] [] z)
    hrt (fun _ _ hS => hS.view)
    (fun r ahead z hS => by
      obtain ⟨z', hok, hS'⟩ := gcScan_scanning (n := r) hG hdp hdp hS
      refine ⟨z', hok, hS'.with_old fun x hx hmm => ?_⟩
      obtain ⟨ho, hne⟩ := hS'.grey_old x hx
      exact (List.mem_cons.mp (ho hmm)).resolve_left hne)
    hs hsr
  refine ⟨s', hok, hS.scanned hG fun x hx => ?_⟩
  have hg : s.color x = .grey := hS.inside x (by simp [hx])
  obtain ⟨-, r, hr, hf⟩ := (hM.grey_iff x).mp hg
  have hro : s'.color r ≠ .grey := fun hc => by
    have := hS.grey_old r hc (hrs r hr)
    simp at this
  refine hG.follow (p := fun m => s'.color m ≠ .grey) (fun y hy hny z hz => ?_) hf ?_ hg hx
  · have := hS.color y
    cases hc : s'.color y with
    | white => exact (hS.white_closed y hc z hz).resolve_right (by simp)
    | black =>
      rw [(hS.black_closed y hy hc z hz).resolve_right (by simp)]
      simp
    | grey => exact absurd hc hny
    | purple => exact absurd hc this
  · cases hsy : h.isSymbolTable r with
    | true => exact .inr rfl
    | false => exact .inl ⟨(hM.grey_iff r).mpr ⟨hsy, r, hr, .refl⟩, hro⟩

end PhpInternals.Zend.ZendGc

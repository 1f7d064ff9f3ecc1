import PhpInternals.Zend.ZendGc.Scan

/-!
# What is found to be garbage
-/

namespace PhpInternals.Zend.ZendGc

open Finset Found

variable {N : Type} [DecidableEq N] [Fintype N] {h : Heap N} {external rc : N → ℕ}
  {root : N → Prop} {v : BufferView N} {s : GcState N}

/-- **What trial deletion leaves of a count.** -/
theorem Marked.refcount_pos_iff (hcons : h.Consistent external rc) (hM : Marked h rc root v s)
    (y : N) :
    0 < s.refcount y ↔ 0 < external y ∨ ∃ m, s.color m ≠ .grey ∧ y ∈ h.edges m := by
  have hs : ∑ m, (h.edges m).count y = h.held (fun m => s.color m = .grey) y +
      ∑ m with ¬ s.color m = .grey, (h.edges m).count y := by
    rw [← sum_filter_add_sum_filter_not _ fun m => s.color m = .grey]
    congr 1
    refine sum_congr rfl fun m hm => ?_
    rw [h.children_eq ((hM.grey_iff m).mp (mem_filter.mp hm).2).1]
  have hrc : s.refcount y = ∑ m with ¬ s.color m = .grey, (h.edges m).count y + external y := by
    have h1 := hM.conserved y
    have h2 := hcons y
    omega
  constructor
  · intro hp
    by_cases het : 0 < external y
    · exact .inl het
    · have hsm : ∑ m with ¬ s.color m = .grey, (h.edges m).count y ≠ 0 := by omega
      obtain ⟨m, hm, hne⟩ := exists_ne_zero_of_sum_ne_zero hsm
      exact .inr ⟨m, (mem_filter.mp hm).2, List.count_pos_iff.mp (Nat.pos_of_ne_zero hne)⟩
  rintro (het | ⟨m, hm, hy⟩)
  · omega
  have hmm : m ∈ univ.filter fun m => ¬ s.color m = .grey := mem_filter.mpr ⟨mem_univ m, hm⟩
  have hle : (h.edges m).count y ≤ ∑ m with ¬ s.color m = .grey, (h.edges m).count y :=
    single_le_sum (f := fun m => (h.edges m).count y) (fun _ _ => Nat.zero_le _) hmm
  have := List.count_pos_iff.mpr hy
  omega

/-- A value that is kept alive from outside: by an external reference, as `EG(symbol_table)`, or by
a value that no buffered root leads to. -/
def Heap.Anchored (h : Heap N) (external : N → ℕ) (rs : List N) (y : N) : Prop :=
  0 < external y ∨ h.isSymbolTable y = true ∨ ∃ m, (∀ r ∈ rs, ¬ h.Reach r m) ∧ y ∈ h.edges m

omit [Fintype N] in
lemma Heap.Follow.reach {a b : N} (hf : h.Follow a b) : h.Reach a b := by
  induction hf with
  | refl => exact .refl
  | tail _ hyz ih => exact ih.tail (Heap.mem_edges_of_mem_children hyz)

omit [Fintype N] in
/-- What can be reached can be followed to, or lies behind the symbol table. -/
lemma Heap.Reach.follow {a b : N} (hr : h.Reach a b) :
    h.Follow a b ∨ ∃ z, h.isSymbolTable z = true ∧ h.Reach z b := by
  induction hr with
  | refl => exact .inl .refl
  | @tail y z hay hyz ih =>
    rcases ih with hf | ⟨w, hw, hwy⟩
    · cases hsy : h.isSymbolTable y with
      | true => exact .inr ⟨y, hsy, .single hyz⟩
      | false => exact .inl (hf.tail (by rw [h.children_eq hsy]; exact hyz))
    · exact .inr ⟨w, hw, hwy.tail hyz⟩

section Characterisation

variable {rs : List N} (hcons : h.Consistent external rc)
  (hM : Marked h rc (fun r => r ∈ rs) v s)

include hcons hM

lemma Marked.alive_of_anchored {y x : N} (hy : h.Anchored external rs y) (hrc : h.Reach y x)
    (hx : s.color x = .grey) : Alive h s.refcount (fun x => s.color x = .grey) x := by
  have hp := hM.refcount_pos_iff hcons
  induction hrc with
  | refl =>
    refine ⟨y, hx, (hp y).mpr ?_, .refl⟩
    rcases hy with het | hsy | ⟨m, hm, hym⟩
    · exact .inl het
    · rw [((hM.grey_iff y).mp hx).1] at hsy
      cases hsy
    · refine .inr ⟨m, fun hg => ?_, hym⟩
      obtain ⟨-, r, hr, hf⟩ := (hM.grey_iff m).mp hg
      exact hm r hr hf.reach
  | @tail w z _ hwz ih =>
    by_cases hw : s.color w = .grey
    · obtain ⟨u, hu, hup, hf⟩ := ih hw
      refine ⟨u, hu, hup, hf.tail ?_⟩
      rw [h.children_eq ((hM.grey_iff w).mp hw).1]
      exact hwz
    · exact ⟨z, hx, (hp z).mpr (.inr ⟨w, hw, hwz⟩), .refl⟩

lemma Marked.anchored_of_alive {x : N} (ha : Alive h s.refcount (fun x => s.color x = .grey) x) :
    ∃ y, h.Anchored external rs y ∧ h.Reach y x := by
  obtain ⟨y, -, hp, hf⟩ := ha
  rcases (hM.refcount_pos_iff hcons y).mp hp with het | ⟨m, hm, hym⟩
  · exact ⟨y, .inl het, hf.reach⟩
  by_cases hrc : ∃ r ∈ rs, h.Reach r m
  · -- a value behind a root that is not marked is the symbol table, or lies behind it
    obtain ⟨r, hr, hrm⟩ := hrc
    have hb : ∃ z, h.isSymbolTable z = true ∧ h.Reach z m := by
      rcases hrm.follow with hf' | hz
      · refine ⟨m, ?_, .refl⟩
        by_contra hsy
        exact hm ((hM.grey_iff m).mpr ⟨by simpa using hsy, r, hr, hf'⟩)
      · exact hz
    obtain ⟨z, hz, hzm⟩ := hb
    exact ⟨z, .inr (.inl hz), (hzm.tail hym).trans hf.reach⟩
  · push Not at hrc
    exact ⟨y, .inr (.inr ⟨m, hrc, hym⟩), hf.reach⟩

end Characterisation

/-! ## Garbage -/

/-- **Exactly the garbage is white.** On a heap with consistent counts, whose values are black but
for the purple ones in the root buffer, the first two phases return, and then a value is white if
and only if some buffered root leads to it and nothing anchored does. Values that no buffered root
leads to are as they were. -/
theorem garbage_iff_white (hcons : h.Consistent external s.refcount) {slots : List RootPtr}
    {rs : List N} (hroots : s.view.Roots slots rs)
    (hcolor : ∀ x, s.color x = if x ∈ rs then .purple else .black) {depth steps : ℕ}
    (hdepth : Fintype.card N < depth) (hsteps : slots.length < steps) :
    ∃ s₁ s₂, gcMarkRoots h depth steps s = .ok s₁ ∧ gcScanRoots h depth steps s₁ = .ok s₂ ∧
      (∀ x, s₂.color x = .white ↔
        (∃ r ∈ rs, h.Reach r x) ∧ ¬ ∃ y, h.Anchored external rs y ∧ h.Reach y x) ∧
      (∀ x, (∀ r ∈ rs, ¬ h.Reach r x) →
        s₂.info x = s.info x ∧ s₂.refcount x = s.refcount x) := by
  have hp : ∀ x, s.color x = .purple ↔ x ∈ rs := fun x => by
    rw [hcolor]
    split_ifs with hx <;> simp [hx]
  have hrn : ∀ x, s.color x = .black ∨ s.color x = .purple ∧ x ∈ rs := fun x => by
    rw [hcolor]
    split_ifs with hx <;> simp [hx]
  obtain ⟨s₁, hmr, hM⟩ := gcMarkRoots_marked hcons hroots hrn hdepth hsteps
  simp only [hp] at hM
  obtain ⟨s₂, hsc, hS⟩ := gcScanRoots_scanned hM hroots (fun _ => id) hdepth hsteps
  have hwh : ∀ x, s₂.color x = .white ↔
      (∃ r ∈ rs, h.Reach r x) ∧ ¬ ∃ y, h.Anchored external rs y ∧ h.Reach y x := by
    intro x
    rw [hS.white_iff]
    constructor
    · rintro ⟨hg, hdd⟩
      obtain ⟨-, r, hr, hfl⟩ := (hM.grey_iff x).mp hg
      refine ⟨⟨r, hr, hfl.reach⟩, ?_⟩
      rintro ⟨y, hy, hrc⟩
      exact hdd (hM.alive_of_anchored hcons hy hrc hg)
    rintro ⟨⟨r, hr, hrc⟩, hf⟩
    have hsy : ∀ z, h.isSymbolTable z = true → ¬ h.Reach z x := fun z hz hzx =>
      hf ⟨z, .inr (.inl hz), hzx⟩
    have hfl : h.Follow r x := hrc.follow.resolve_right fun ⟨z, hz, hzx⟩ => hsy z hz hzx
    have hx : h.isSymbolTable x = false := by
      by_contra hx
      exact hsy x (by simpa using hx) .refl
    exact ⟨(hM.grey_iff x).mpr ⟨hx, r, hr, hfl⟩, fun ha =>
      hf (hM.anchored_of_alive hcons ha)⟩
  refine ⟨s₁, s₂, hmr, hsc, hwh, fun x hx => ⟨?_, ?_⟩⟩
  · have had : (s₂.info x).address = (s.info x).address :=
      congrFun (congrArg BufferView.address hS.view) x
    have hb : s₂.color x = s.color x := by
      rw [hcolor, if_neg fun hmm => hx x hmm .refl]
      refine (hS.color x).resolve_left fun hw => ?_
      obtain ⟨r, hr, hrc⟩ := ((hwh x).mp hw).1
      exact hx r hr hrc
    exact GcInfo.ext had hb
  · have hzr : h.held (fun m => s₂.color m = .white) x = 0 := by
      by_contra hne
      obtain ⟨m, hm, hmx⟩ := h.exists_of_held_pos (Nat.pos_of_ne_zero hne)
      obtain ⟨r, hr, hrc⟩ := ((hwh m).mp hm).1
      exact hx r hr (hrc.tail (Heap.mem_edges_of_mem_children hmx))
    have := hS.conserved x
    omega

/-- Two arrays that refer to each other, one of them buffered. -/
theorem garbage_iff_white_cycle :
    ∃ (h : Heap (Fin 2)) (s s₁ s₂ : GcState (Fin 2)),
      h.node = ![.array [.counted 1], .array [.counted 0]] ∧
      gcPossibleRoot .ok 0 (gcInit fun _ => 1) = .ok s ∧ h.Consistent (fun _ => 0) s.refcount ∧
      s.view.Roots [.buf 1] [0] ∧ gcMarkRoots h 3 2 s = .ok s₁ ∧ gcScanRoots h 3 2 s₁ = .ok s₂ ∧
      ∀ x, s₂.color x = .white ↔
        (∃ r ∈ [0], h.Reach r x) ∧ ¬ ∃ y, h.Anchored (fun _ => 0) [0] y ∧ h.Reach y x := by
  have hrn : ((gcInit fun _ : Fin 2 => 1).links.insertAfter .roots (.buf 1)).Ring .roots
      [.buf 1] := Links.Ring.insertAfter ⟨by simp, rfl, rfl⟩ (by decide)
  have hr : ({ gcInit (fun _ : Fin 2 => 1) with firstUnused := 2 }.addRoot (.buf 1) 0
      ⟨1, .purple⟩).view.Roots [.buf 1] [0] := ⟨hrn, rfl⟩
  have hcons : Heap.Consistent ⟨![.array [.counted 1], .array [.counted (0 : Fin 2)]], none⟩
      (fun _ => 0) fun _ => 1 := by decide
  obtain ⟨s₁, s₂, hm, hsc, hw, -⟩ := garbage_iff_white hcons hr (by decide)
    (show Fintype.card (Fin 2) < 3 by decide) (show [RootPtr.buf 1].length < 2 by decide)
  exact ⟨_, _, s₁, s₂, rfl, rfl, hcons, hr, hm, hsc, hw⟩

/-- **A cycle that is in no root buffer keeps what it refers to.** The value `1` refers to itself
and to `0`; nothing refers to either from outside. Only `0` is buffered, and it does not turn white.
-/
theorem unbuffered_cycle_keeps_alive :
    ∃ (h : Heap (Fin 2)) (external : Fin 2 → ℕ) (s s₁ s₂ : GcState (Fin 2)),
      h.node = ![.array [], .array [.counted 1, .counted 0]] ∧ (∀ x, external x = 0) ∧
      gcPossibleRoot .ok 0 (gcInit fun _ => 1) = .ok s ∧ h.Consistent external s.refcount ∧
      (∀ x, s.color x = if x ∈ [0] then .purple else .black) ∧
      gcMarkRoots h 3 2 s = .ok s₁ ∧ gcScanRoots h 3 2 s₁ = .ok s₂ ∧
      (∃ r ∈ [0], h.Reach r 0) ∧ (¬ ∃ y, 0 < external y ∧ h.Reach y 0) ∧ s₂.color 0 = .black :=
  ⟨⟨_, none⟩, fun _ => 0, _, _, _, rfl, fun _ => rfl, rfl, by decide, by decide, rfl, rfl,
    ⟨0, by decide, .refl⟩, by simp, by decide⟩

end PhpInternals.Zend.ZendGc

import PhpInternals.Optimizer.Scdf.Invariant
import Mathlib.Data.DFinsupp.WellFounded

/-!
# The solver reaches a fixed point
-/

namespace PhpInternals.Optimizer.Scdf

open List Found
open Finset (card_le_card erase_subset mem_erase mem_insert mem_insert_of_mem
  mem_insert_self mem_sdiff)

variable {S : Ssa} {L : Type} [PartialOrder L] [DecidableEq L] {H : Handlers S L} {c c' : Ctx S L}
  {E E' : Item S → Prop}

/-! ## Exceptions -/

omit [DecidableEq L] in
lemma Inv.mono (h : Inv H c E) (hE : ∀ x, E x → E' x) : Inv H c E' :=
  { h with settled := fun b hb hl x hx hx' => h.settled b hb hl x hx fun he => hx' (hE x he) }

omit [DecidableEq L] in
/-- Exceptions that are settled, or in blocks that are not executable, are none. -/
lemma Inv.settle (h : Inv H c E)
    (hE : ∀ x, E x → E' x ∨ Settled H c x ∨ ∀ b ∈ c.executableBlocks, ¬ x.In b) : Inv H c E' := by
  refine { h with settled := fun b hb hl x hx hx' => ?_ }
  by_cases he : E x
  · rcases hE x he with hE' | hs | ho
    · exact absurd hE' hx'
    · exact hs
    · exact absurd hx (ho b hb)
  · exact h.settled b hb hl x hx he

variable {f t : Fin S.blocksCount}

/-! ## Marking edges -/

omit [PartialOrder L] [DecidableEq L] in
lemma scdfEdge_inj (hS : S.Valid) {f' t' : Fin S.blocksCount} (hf : f ∈ (S.blocks t).predecessors)
    (hf' : f' ∈ (S.blocks t').predecessors) (heq : scdfEdge S f t = scdfEdge S f' t') :
    f = f' ∧ t = t' := by
  have hlt := idxOf_lt_length_of_mem hf
  have hl' := idxOf_lt_length_of_mem hf'
  unfold scdfEdge at heq
  have ht : t = t' := by
    by_contra hne
    rcases hS.edges t t' hne with h | h <;> omega
  subst ht
  exact ⟨(idxOf_inj hf).mp (by omega), rfl⟩

/-- The phis of a block are visited one after the other. -/
lemma Inv.visitPhis (hS : S.Valid) : ∀ (ps : List (Fin S.varsCount)) {c : Ctx S L}
    {E : Item S → Prop}, (∀ p ∈ ps, ∃ φ, S.definitionPhi p = some φ) → Inv H c E →
    Inv H (visitPhis H ps c) (fun x => E x ∧ ∀ p ∈ ps, x ≠ .phi p) ∧ Moves c (Scdf.visitPhis H ps c)
  | [], c, E, _, h => ⟨h.mono fun x hx => ⟨hx, nofun⟩, Moves.refl c⟩
  | p :: ps, c, E, hps, h => by
    obtain ⟨φ, hφ⟩ := hps p mem_cons_self
    obtain ⟨hv, hm⟩ := (h.erasePhi H p).visitPhi H hS hφ
    obtain ⟨hr, hm'⟩ := Inv.visitPhis hS ps (fun q hq => hps q (mem_cons_of_mem _ hq)) hv
    have her : Moves c { c with phiVarWorklist := c.phiVarWorklist.erase p } := { Moves.refl c with
        idle := fun _ _ => ⟨subset_rfl, erase_subset _ _, subset_rfl⟩ }
    refine ⟨hr.mono ?_, (her.trans hm).trans hm'⟩
    rintro x ⟨⟨hx | hx, hne⟩, hx'⟩
    · exact ⟨hx, forall_mem_cons.mpr ⟨hne, hx'⟩⟩
    · exact absurd hx hne

variable {b : Fin S.blocksCount}

omit [DecidableEq L] in
/-- A new edge unsettles the phis of its target only. -/
lemma Settled.addEdge (hS : S.Valid) (hf : f ∈ (S.blocks t).predecessors) {x : Item S}
    (h : Settled H c x) (hx : x.In b) (hne : ∀ p, x = .phi p → b ≠ t) :
    Settled H { c with
      feasibleEdges := insert (scdfEdge S f t) c.feasibleEdges
      log := .edge f t :: c.log } x := by
  cases x with
  | instr k =>
    refine h.imp id fun ⟨hsn, hs⟩ => ⟨hsn.cons ?_, hs⟩
    rintro ⟨v, -, he⟩
    cases he
  | phi p =>
    refine h.imp id fun hdn φ hφ => ?_
    obtain ⟨hsn, hs⟩ := hdn φ hφ
    obtain ⟨φ', hφ', hb⟩ := (hS.phis_iff b p).mp hx
    obtain rfl : φ' = φ := Option.some.inj (hφ'.symm.trans hφ)
    have hbt : φ'.block ≠ t := hb ▸ hne p rfl
    refine ⟨hsn.cons ?_, ?_⟩
    · rintro (⟨v, -, he⟩ | ⟨source, he⟩)
      · cases he
      · cases he
        exact hbt rfl
    have hsm : feasibleFrom { c with
        feasibleEdges := insert (scdfEdge S f t) c.feasibleEdges
        log := .edge f t :: c.log } φ'.block = feasibleFrom c φ'.block := by
      funext source
      by_cases hsr : source ∈ (S.blocks φ'.block).predecessors
      · have hdf : scdfEdge S source φ'.block ≠ scdfEdge S f t := fun heq =>
          hbt (scdfEdge_inj hS hsr hf heq).2
        simp [feasibleFrom, isEdgeFeasible, hdf]
      · simp [feasibleFrom, hsr]
    rw [hsm]
    exact hs
  | jump b' =>
    exact h.imp id fun hm t' ht' => mem_insert_of_mem (hm t' ht')

/-- **A new edge** puts its target on the list or visits the target's phis. -/
lemma Inv.markEdge (hS : S.Valid) (h : Inv H c E) (hec : f ∈ c.executableBlocks)
    (ht : t ∈ (S.blocks f).successors) :
    Inv H (markEdgeFeasible H f t c) E ∧ Moves c (markEdgeFeasible H f t c) ∧
      scdfEdge S f t ∈ (markEdgeFeasible H f t c).feasibleEdges := by
  have hpr := hS.predecessors f t ht
  unfold markEdgeFeasible
  split_ifs with ho
  · exact ⟨h, Moves.refl c, ho⟩
  have hbt : scdfEdge S f t ∈ allEdges S := Finset.mem_image.mpr ⟨(f, t), Finset.mem_univ _, rfl⟩
  set c1 : Ctx S L := { c with
    feasibleEdges := insert (scdfEdge S f t) c.feasibleEdges
    log := .edge f t :: c.log } with hc1
  have hn : scdfEdge S f t ∈ c1.feasibleEdges := mem_insert_self _ _
  have ha : c1.feasibleEdges ≠ c.feasibleEdges := fun heq => ho (heq ▸ hn)
  have hmn : ∀ f' t', FeasibleEdge c f' t' → FeasibleEdge c1 f' t' := by
    intro f' t' hft
    simp only [FeasibleEdge, feasibleFrom, isEdgeFeasible, Bool.and_eq_true, decide_eq_true_eq]
      at hft ⊢
    exact ⟨hft.1, mem_insert_of_mem hft.2⟩
  have hf : FeasibleEdge c1 f t := by
    simp only [FeasibleEdge, feasibleFrom, isEdgeFeasible, Bool.and_eq_true, decide_eq_true_eq]
    exact ⟨hpr, hn⟩
  have hi : ∀ f' t', FeasibleEdge c1 f' t' → FeasibleEdge c f' t' ∨ t' = t := by
    intro f' t' hft
    simp only [FeasibleEdge, feasibleFrom, isEdgeFeasible, Bool.and_eq_true, decide_eq_true_eq]
      at hft ⊢
    rcases mem_insert.mp hft.2 with heq | hin
    · exact .inr (scdfEdge_inj hS hft.1 hpr heq).2
    · exact .inl ⟨hft.1, hin⟩
  have hr : ∀ b, b ∈ c.executableBlocks ∨ b ∈ c.blockWorklist →
      Relation.ReflTransGen (FeasibleEdge c1) S.entry b := fun b hb =>
    Relation.ReflTransGen.mono hmn _ _ (h.reached b hb)
  have hv : ∀ k, .instr k ∈ c1.log → S.map k ∈ c.executableBlocks := by
    intro k hk
    rcases mem_cons.mp hk with heq | hk
    · cases heq
    · exact h.visited k hk
  have hm : Moves c c1 := { Moves.refl c with
      edges := Finset.subset_insert _ _
      bounded := Finset.insert_subset (Finset.mem_union_right _ hbt) Finset.subset_union_left
      idle := fun _ he => absurd he ha }
  by_cases hlv : t ∈ c.executableBlocks
  · -- the target is executable: its phis are visited
    rw [if_neg (not_not.mpr hlv)]
    have hinv1 : Inv H c1 (fun x => E x ∨ ∃ p ∈ S.phis t, x = .phi p) := by
      refine ⟨fun b hb hl x hx hE => ?_, h.entry, hr, fun f' t' hft => ?_, hv⟩
      · refine (h.settled b hb hl x hx fun he => hE (.inl he)).addEdge hS hpr hx ?_
        rintro p rfl rfl
        exact hE (.inr ⟨p, hx, rfl⟩)
      · rcases hi f' t' hft with hft | rfl
        · exact h.closed f' t' hft
        · exact .inl hlv
    obtain ⟨hph, hm'⟩ := Inv.visitPhis hS (S.phis t) (fun p hp => by
      obtain ⟨φ, hφ, -⟩ := (hS.phis_iff t p).mp hp
      exact ⟨φ, hφ⟩) hinv1
    refine ⟨hph.mono ?_, hm.trans hm', hm'.edges hn⟩
    rintro x ⟨hx | ⟨p, hp, rfl⟩, hne⟩
    · exact hx
    · exact absurd rfl (hne p hp)
  rw [if_pos hlv]
  refine ⟨⟨fun b hb hl x hx hE => ?_, h.entry, fun b hb => ?_, fun f' t' hft => ?_, hv⟩, ?_, hn⟩
  · have hne : b ≠ t := fun heq => hlv (heq ▸ hb)
    have hlb : b ∉ c.blockWorklist := fun hin => hl (mem_insert_of_mem hin)
    exact (h.settled b hb hlb x hx hE).addEdge hS hpr hx fun _ _ => hne
  · have hs := (hr f (.inl hec)).tail hf
    rcases hb with hb | hb
    · exact hr b (.inl hb)
    · rcases mem_insert.mp hb with rfl | hb
      · exact hs
      · exact hr b (.inr hb)
  · have hft : FeasibleEdge c1 f' t' := hft
    rcases hi f' t' hft with hft | rfl
    · exact (h.closed f' t' hft).imp id mem_insert_of_mem
    · exact .inr (mem_insert_self _ _)
  · exact { hm with idle := fun _ he => absurd he ha }

/-- The edges that the handler found feasible. -/
lemma Inv.markEdges (hS : S.Valid) : ∀ (ts : List (Fin S.blocksCount))
    {c : Ctx S L}, (∀ t ∈ ts, t ∈ (S.blocks b).successors) → b ∈ c.executableBlocks → Inv H c E →
    let c' := ts.foldl (fun c t => markEdgeFeasible H b t c) c
    Inv H c' E ∧ Moves c c' ∧ ∀ t ∈ ts, scdfEdge S b t ∈ c'.feasibleEdges
  | [], c, _, _, h => ⟨h, Moves.refl c, nofun⟩
  | t :: ts, c, hts, hec, h => by
    obtain ⟨hi, hm, hmr⟩ := h.markEdge hS hec (hts t mem_cons_self)
    obtain ⟨hi', hm', hmr'⟩ := Inv.markEdges hS ts
      (fun t' ht' => hts t' (mem_cons_of_mem _ ht')) (hm.executable ▸ hec) hi
    exact ⟨hi', hm.trans hm', forall_mem_cons.mpr ⟨hm'.edges hmr, hmr'⟩⟩

/-- After the last instruction of a block its jump is settled. -/
lemma Inv.markSuccessors (hS : S.Valid) (h : Inv H c E) (hec : b ∈ c.executableBlocks) :
    Inv H (markSuccessors H b c) (fun x => E x ∧ x ≠ .jump b) ∧
      Moves c (Scdf.markSuccessors H b c) := by
  have hts : ∀ t ∈ successorsToMark H b c.values, t ∈ (S.blocks b).successors := by
    intro t ht
    unfold successorsToMark at ht
    split_ifs at ht
    · exact ht
    · exact H.successors_mem b c.values t ht
  obtain ⟨hi, hm, hmr⟩ := h.markEdges hS _ hts hec
  refine ⟨hi.settle fun x hx => ?_, hm⟩
  by_cases hxb : x = .jump b
  · subst hxb
    exact .inr (.inl (hm.settled_jump H hS hmr))
  · exact .inl ⟨hx, hxb⟩

/-! ## Rounds -/

omit [PartialOrder L] [DecidableEq L] in
/-- The instruction to which an `OP_DATA` belongs is in the same block. -/
lemma head_spec (hS : S.Valid) (i : Fin S.last) :
    S.opData (S.head i) = false ∧ S.map (S.head i) = S.map i := by
  cases hi : S.opData i with
  | true => exact (hS.opData_head i hi).2
  | false =>
    have hh : S.head i = i := by rw [Ssa.head, if_neg (by simp [hi])]
    rw [hh]
    exact ⟨hi, rfl⟩

lemma Inv.phiRound (hS : S.Valid) (p : Fin S.varsCount) (h : Inv H c (fun x => x = .phi p)) :
    Inv H (phiRound H p c) (fun _ => False) ∧ Moves c (Scdf.phiRound H p c) := by
  unfold Scdf.phiRound
  cases hφ : S.definitionPhi p with
  | none =>
    refine ⟨h.settle ?_, Moves.refl c⟩
    rintro x rfl
    exact .inr (.inl (.inr fun φ hφ' => absurd (hφ.symm.trans hφ') (by simp)))
  | some φ =>
    simp only
    split_ifs with hec
    · obtain ⟨hi, hm⟩ := h.visitPhi H hS hφ
      exact ⟨hi.mono fun x hx => hx.2 hx.1, hm⟩
    refine ⟨h.settle ?_, Moves.refl c⟩
    rintro x rfl
    refine .inr (.inr fun b hb hx => hec ?_)
    obtain ⟨φ', hφ', rfl⟩ := (hS.phis_iff b p).mp hx
    obtain rfl : φ = φ' := Option.some.inj (hφ.symm.trans hφ')
    exact hb

lemma Inv.instrRound (hS : S.Valid) (i : Fin S.last)
    (h : Inv H c (fun x => x = .instr (S.head i) ∨ S.IsEnd (S.map i) i ∧ x = .jump (S.map i))) :
    Inv H (instrRound H i c) (fun _ => False) ∧ Moves c (Scdf.instrRound H i c) := by
  obtain ⟨hdt, hmp⟩ := head_spec hS i
  unfold Scdf.instrRound
  by_cases hec : S.map i ∈ c.executableBlocks
  · rw [if_pos hec]
    obtain ⟨hiv, -, hm⟩ := h.visitInstr H hS hdt (hmp ▸ hec)
    split_ifs with hen
    · obtain ⟨hiv', hm'⟩ := hiv.markSuccessors hS (hm.executable ▸ hec)
      refine ⟨hiv'.mono ?_, hm.trans hm'⟩
      rintro x ⟨⟨hx | hx, hne⟩, hj⟩
      · exact hne hx
      · exact hj hx.2
    · refine ⟨hiv.mono ?_, hm⟩
      rintro x ⟨hx | hx, hne⟩
      · exact hne hx
      · exact hen hx.1
  · rw [if_neg hec]
    refine ⟨h.settle ?_, Moves.refl c⟩
    rintro x (rfl | ⟨-, rfl⟩)
    · exact .inr (.inr fun b hb hx => hec (hmp ▸ hx.2 ▸ hb))
    · exact .inr (.inr fun b hb hx => hec ((show S.map i = b from hx) ▸ hb))

omit [DecidableEq L] in
lemma sinks_eraseInstr (c : Ctx S L) (j : Fin S.last) :
    Sinks c { c with instrWorklist := c.instrWorklist.erase j } :=
  { Sinks.refl c with idle := fun _ _ => ⟨erase_subset _ _, subset_rfl, subset_rfl⟩ }

/-- **The instructions of a block, in order.** A `ZEND_OP_DATA` is taken out of the worklist right
after its instruction has been visited, so nothing is lost with it. -/
theorem Inv.visitOps (hS : S.Valid) (h : Inv H c E) (hexe : b ∈ c.executableBlocks) :
    ∀ n ≤ (S.blocks b).len,
    let c' := Scdf.visitOps H (S.blocks b).start n c
    Inv H c' (fun x => (E x ∨ x = .jump b) ∧
      ∀ k : Fin S.last, (S.blocks b).start ≤ k → (k : ℕ) < (S.blocks b).start + n → x ≠ .instr k) ∧
    Sinks c c' ∧ c'.executableBlocks = c.executableBlocks ∧
    ∀ k : Fin S.last, (k : ℕ) + 1 = (S.blocks b).start + n → (S.blocks b).start ≤ k →
      S.opData k = false → InstrDone H c' k := by
  intro n
  induction n with
  | zero =>
    exact fun _ => ⟨h.mono fun x hx => ⟨.inl hx, fun k _ _ => by omega⟩, Sinks.refl c, rfl,
      fun k _ _ => by omega⟩
  | succ n ih =>
    intro hn
    obtain ⟨hi, hsn, hsm, hdn⟩ := ih (by omega)
    have hl : (S.blocks b).start + n < S.last := by
      have := hS.inside b
      omega
    simp only [Scdf.visitOps, dif_pos hl]
    generalize Scdf.visitOps H (S.blocks b).start n c = c1 at *
    set j : Fin S.last := ⟨(S.blocks b).start + n, hl⟩ with hj
    have hma : S.map j = b := (hS.map_iff j b).mpr ⟨by simp [hj], by simp only [hj]; omega⟩
    have her := hi.eraseInstr H hS j
    have hs := hsn.trans (sinks_eraseInstr c1 j)
    unfold Scdf.visitOp
    cases hdt : S.opData j with
    | true =>
      obtain ⟨hp, hhe, hmp⟩ := hS.opData_head j hdt
      have hv : ((S.head j : Fin S.last) : ℕ) + 1 = (S.blocks b).start + n := by
        rw [Ssa.head, if_pos hdt]
        simp only [hj] at hp ⊢
        omega
      have hsr := ((hS.map_iff (S.head j) b).mp (hmp.trans hma)).1
      have hd := hdn (S.head j) hv hsr hhe
      refine ⟨her.settle fun x hx => ?_, hs, hsm, fun k hk _ hnt => ?_⟩
      · by_cases hxj : x = .instr j
        · subst hxj
          exact .inr (.inr fun _ _ hin => by simp [Item.In, hdt] at hin)
        rcases hx with ⟨hx, hne⟩ | rfl | ⟨-, rfl⟩
        · refine .inl ⟨hx, fun k hk hlt => ?_⟩
          rcases Nat.lt_succ_iff_lt_or_eq.mp hlt with hlt | heq
          · exact hne k hk hlt
          · obtain rfl : k = j := Fin.ext heq
            exact hxj
        · exact .inr (.inl (.inr hd))
        · exact .inl ⟨.inr (by rw [hma]), fun _ _ _ => by simp⟩
      · obtain rfl : k = j := Fin.ext (by simp only [hj]; omega)
        exact absurd hdt (by simp [hnt])
    | false =>
      have hhe : S.head j = j := by rw [Ssa.head, if_neg (by simp [hdt])]
      have hec : S.map j ∈ c1.executableBlocks := by rw [hsm, hma]; exact hexe
      obtain ⟨hi', hdn', hm⟩ := her.visitInstr H hS hdt hec
      refine ⟨hi'.mono ?_, hs.trans hm.toSinks, hm.executable.trans hsm, fun k hk _ _ => ?_⟩
      · rintro x ⟨hx | rfl | ⟨-, rfl⟩, hxj⟩
        · refine ⟨hx.1, fun k hk hlt => ?_⟩
          rcases Nat.lt_succ_iff_lt_or_eq.mp hlt with hlt | heq
          · exact hx.2 k hk hlt
          · obtain rfl : k = j := Fin.ext heq
            exact hxj
        · exact absurd (by rw [hhe]) hxj
        · exact ⟨.inr (by rw [hma]), fun _ _ _ => by simp⟩
      · obtain rfl : k = j := Fin.ext (by simp only [hj]; omega)
        exact hdn'

omit [DecidableEq L] in
/-- A block taken from the list is executable, and all of it is to be visited. -/
lemma Inv.enter (h : Inv H c (fun _ => False)) (hb : b ∈ c.blockWorklist) : Inv H { c with
      blockWorklist := c.blockWorklist.erase b
      executableBlocks := insert b c.executableBlocks } (fun x => x.In b) := by
  have hm : ∀ b', b' ∈ insert b c.executableBlocks ∨ b' ∈ c.blockWorklist.erase b →
      b' ∈ c.executableBlocks ∨ b' ∈ c.blockWorklist := by
    rintro b' (hb' | hb')
    · rcases mem_insert.mp hb' with rfl | hb'
      · exact .inr hb
      · exact .inl hb'
    · exact .inr (Finset.mem_of_mem_erase hb')
  refine ⟨fun b' hb' hl x hx hE => ?_, mem_insert_of_mem h.entry,
    fun b' hb' => h.reached b' (hm b' hb'), fun f t hft => ?_,
    fun k hk => mem_insert_of_mem (h.visited k hk)⟩
  · have hne : b' ≠ b := by
      rintro rfl
      exact hE hx
    have hec : b' ∈ c.executableBlocks := (mem_insert.mp hb').resolve_left hne
    have hl' : b' ∉ c.blockWorklist := fun hin => hl (mem_erase.mpr ⟨hne, hin⟩)
    exact h.settled b' hec hl' x hx id
  · rcases h.closed f t hft with ht | ht
    · exact .inl (mem_insert_of_mem ht)
    · by_cases htb : t = b
      · exact .inl (htb ▸ mem_insert_self _ _)
      · exact .inr (mem_erase.mpr ⟨htb, ht⟩)

lemma Inv.blockRound (hS : S.Valid) (h : Inv H c (fun _ => False)) (hb : b ∈ c.blockWorklist) :
    Inv H (blockRound H b { c with blockWorklist := c.blockWorklist.erase b }) (fun _ => False) ∧
      Sinks { c with
        blockWorklist := c.blockWorklist.erase b
        executableBlocks := insert b c.executableBlocks }
        (Scdf.blockRound H b { c with blockWorklist := c.blockWorklist.erase b }) := by
  obtain ⟨hph, hm⟩ := Inv.visitPhis hS (S.phis b) (fun p hp => by
    obtain ⟨φ, hφ, -⟩ := (hS.phis_iff b p).mp hp
    exact ⟨φ, hφ⟩) (h.enter hb)
  have hec : b ∈ (Scdf.visitPhis H (S.phis b) { c with
      blockWorklist := c.blockWorklist.erase b
      executableBlocks := insert b c.executableBlocks }).executableBlocks := by
    rw [hm.executable]
    exact mem_insert_self _ _
  unfold Scdf.blockRound
  simp only
  generalize Scdf.visitPhis H (S.phis b) { c with
    blockWorklist := c.blockWorklist.erase b
    executableBlocks := insert b c.executableBlocks } = c1 at *
  split_ifs with hl
  · obtain ⟨t, ht⟩ := hS.empty_block b hl
    simp only [ht]
    obtain ⟨hi, hm', hmr⟩ := hph.markEdge hS hec (t := t) (by simp [ht])
    refine ⟨hi.settle ?_, hm.toSinks.trans hm'.toSinks⟩
    rintro x ⟨hx, hne⟩
    cases x with
    | instr k =>
      have := (hS.map_iff k b).mp hx.2
      omega
    | phi p => exact absurd rfl (hne p hx)
    | jump b' =>
      obtain rfl : b' = b := hx
      refine .inr (.inl (.inr fun t' ht' => ?_))
      rw [successorsToMark, if_pos (by simp [ht]), ht] at ht'
      rwa [mem_singleton.mp ht']
  · obtain ⟨ho, hs, hsm, -⟩ := hph.visitOps hS hec _ le_rfl
    obtain ⟨hi, hm'⟩ := ho.markSuccessors hS (hsm ▸ hec)
    refine ⟨hi.mono ?_, (hm.toSinks.trans hs).trans hm'.toSinks⟩
    rintro x ⟨⟨hx | rfl, ho⟩, hj⟩
    · obtain ⟨hx, hne⟩ := hx
      cases x with
      | instr k =>
        obtain ⟨hk, hlt⟩ := (hS.map_iff k b).mp hx.2
        exact ho k hk hlt rfl
      | phi p => exact hne p hx rfl
      | jump b' => exact hj (by rw [show b' = b from hx])
    · exact hj rfl

/-! ## Termination -/

/-- How many steps it takes until something is taken from a worklist or the solver returns. -/
def distance : Phase × Ctx S L → ℕ
  | (.test, c) => if c.phiVarWorklist.Nonempty then 1 else if c.instrWorklist.Nonempty then 2
      else if c.blockWorklist.Nonempty then 3 else 0
  | (.phis, c) => if c.phiVarWorklist.Nonempty then 0 else if c.instrWorklist.Nonempty then 1
      else if c.blockWorklist.Nonempty then 2 else 3
  | (.instrs, c) => if c.instrWorklist.Nonempty then 0 else if c.blockWorklist.Nonempty then 1
      else if c.phiVarWorklist.Nonempty then 3 else 2
  | (.blocks, c) => if c.blockWorklist.Nonempty then 0 else if c.phiVarWorklist.Nonempty then 2
      else if c.instrWorklist.Nonempty then 3 else 1

/-- What waits on the three lists. -/
def Ctx.waiting (c : Ctx S L) : ℕ :=
  c.instrWorklist.card + c.phiVarWorklist.card + c.blockWorklist.card

/-- **Why the loops end.** Values sink; while they do not, edges become feasible; while they do not,
the worklists shrink. -/
def Descends : Phase × Ctx S L → Phase × Ctx S L → Prop :=
  InvImage (Prod.Lex (· < ·) (Prod.Lex (· < ·) (Prod.Lex (· < ·) (· < ·))))
    fun s => (s.2.values, ((allEdges S \ s.2.feasibleEdges).card, (s.2.waiting, distance s)))

omit [DecidableEq L] in
/-- The measure has no infinite descent. -/
lemma descends_wellFounded [WellFoundedLT L] : WellFounded (Descends (S := S) (L := L)) :=
  InvImage.wf _ (WellFounded.prod_lex wellFounded_lt (WellFounded.prod_lex wellFounded_lt
    (WellFounded.prod_lex wellFounded_lt wellFounded_lt)))

omit [DecidableEq L] in
/-- A round that changes no value takes an entry from a list. -/
lemma Sinks.descends {c0 : Ctx S L} {ph ph' : Phase} (h : Sinks c0 c')
    (hvl : c0.values = c.values) (hed : c0.feasibleEdges = c.feasibleEdges)
    (hw : c0.waiting < c.waiting) : Descends (ph', c') (ph, c) := by
  by_cases hv : c'.values = c.values
  · by_cases he : c'.feasibleEdges = c.feasibleEdges
    · obtain ⟨hi, hp, hb⟩ := h.idle (hv.trans hvl.symm) (he.trans hed.symm)
      have hle : c'.waiting ≤ c0.waiting :=
        Nat.add_le_add (Nat.add_le_add (card_le_card hi) (card_le_card hp)) (card_le_card hb)
      have hlt := hle.trans_lt hw
      simp only [Descends, InvImage, hv, he]
      exact Prod.Lex.right _ (Prod.Lex.right _ (Prod.Lex.left _ _ hlt))
    have hs : c.feasibleEdges ⊆ c'.feasibleEdges := hed ▸ h.edges
    obtain ⟨e, he', hn⟩ := Finset.exists_of_ssubset (hs.ssubset_of_ne (Ne.symm he))
    have ha : e ∈ allEdges S := by
      rcases Finset.mem_union.mp (h.bounded he') with hin | hin
      · exact absurd (hed ▸ hin) hn
      · exact hin
    have hlt : (allEdges S \ c'.feasibleEdges).card < (allEdges S \ c.feasibleEdges).card := by
      refine Finset.card_lt_card ⟨Finset.sdiff_subset_sdiff subset_rfl hs, fun hbc => ?_⟩
      exact (mem_sdiff.mp (hbc (mem_sdiff.mpr ⟨ha, hn⟩))).2 he'
    simp only [Descends, InvImage, hv]
    exact Prod.Lex.right _ (Prod.Lex.left _ _ hlt)
  · have hlt : c'.values < c.values :=
      lt_of_le_of_ne (fun v => (h.le v).trans (le_of_eq (congrFun hvl v))) hv
    exact Prod.Lex.left _ _ hlt

omit [DecidableEq L] in
lemma descends_distance {ph ph' : Phase} (h : distance (ph', c) < distance (ph, c)) :
    Descends (ph', c) (ph, c) :=
  Prod.Lex.right _ (Prod.Lex.right _ (Prod.Lex.right _ h))

lemma popFirst_cases {n : ℕ} (s : Finset (Fin n)) :
    popFirst s = none ∧ ¬ s.Nonempty ∨ ∃ i ∈ s, popFirst s = some (i, s.erase i) := by
  unfold popFirst
  split_ifs with hne
  · exact .inr ⟨_, s.min'_mem hne, rfl⟩
  · exact .inl ⟨rfl, hne⟩

/-- **Every step keeps the invariant and descends.** -/
lemma solveStep_spec (hS : S.Valid) {s s' : Phase × Ctx S L}
    (h : Inv H s.2 (fun _ => False)) (hsp : solveStep H s = some s') :
    Inv H s'.2 (fun _ => False) ∧ Descends s' s := by
  obtain ⟨ph, c⟩ := s
  cases ph with
  | test =>
    simp only [solveStep] at hsp
    split_ifs at hsp with hem
    cases hsp
    refine ⟨h, descends_distance ?_⟩
    simp only [distance]
    split_ifs with hp hi hb
    · exact Nat.zero_lt_one
    · exact Nat.lt_succ_self 1
    · exact Nat.lt_succ_self 2
    · simp only [Finset.not_nonempty_iff_eq_empty] at hp hi hb
      exact absurd ⟨hi, hp, hb⟩ hem
  | phis =>
    simp only [solveStep] at hsp
    rcases popFirst_cases c.phiVarWorklist with ⟨hpp, hn⟩ | ⟨p, hp, hpp⟩
    all_goals rw [hpp] at hsp; cases hsp
    · refine ⟨h, descends_distance ?_⟩
      simp only [distance]
      split_ifs <;> omega
    obtain ⟨hiv, hm⟩ := ((h.erasePhi H p).mono (fun x hx => hx.resolve_left id)).phiRound hS p
    refine ⟨hiv, hm.toSinks.descends rfl rfl ?_⟩
    have := Finset.card_erase_lt_of_mem hp
    simp only [Ctx.waiting]
    omega
  | instrs =>
    simp only [solveStep] at hsp
    rcases popFirst_cases c.instrWorklist with ⟨hpp, hn⟩ | ⟨i, hi, hpp⟩
    all_goals rw [hpp] at hsp; cases hsp
    · refine ⟨h, descends_distance ?_⟩
      simp only [distance]
      split_ifs <;> omega
    obtain ⟨hiv, hm⟩ := ((h.eraseInstr H hS i).mono
      (fun x hx => hx.resolve_left id)).instrRound hS i
    refine ⟨hiv, hm.toSinks.descends rfl rfl ?_⟩
    have := Finset.card_erase_lt_of_mem hi
    simp only [Ctx.waiting]
    omega
  | blocks =>
    simp only [solveStep] at hsp
    rcases popFirst_cases c.blockWorklist with ⟨hpp, hn⟩ | ⟨b, hb, hpp⟩
    all_goals rw [hpp] at hsp; cases hsp
    · refine ⟨h, descends_distance ?_⟩
      simp only [distance]
      split_ifs <;> omega
    · obtain ⟨hiv, hs⟩ := h.blockRound hS hb
      refine ⟨hiv, hs.descends rfl rfl ?_⟩
      have := Finset.card_erase_lt_of_mem hb
      simp only [Ctx.waiting]
      omega

omit [DecidableEq L] in
/-- The invariant holds at the start. -/
lemma inv_scdfInit (values : Fin S.varsCount → L) : Inv H (scdfInit values) (fun _ => False) where
  settled b hb hlive := absurd hb hlive
  entry := Finset.mem_singleton_self _
  reached b hb := by
    have hb' : b = S.entry := Finset.mem_singleton.mp (hb.elim id id)
    exact hb' ▸ .refl
  closed f t hft := by
    simp [FeasibleEdge, feasibleFrom, isEdgeFeasible, scdfInit] at hft
  visited k hk := nomatch hk

end PhpInternals.Optimizer.Scdf

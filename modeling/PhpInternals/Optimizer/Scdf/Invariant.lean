import PhpInternals.Optimizer.Scdf.Basic

/-!
# What the solver keeps

In blocks that have been taken from the worklist, everything has been treated since what it depends
on last changed, or is waiting in a worklist, some exceptions apart that are just being treated.
-/

namespace PhpInternals.Optimizer.Scdf

open List

variable {S : Ssa} {L : Type} {c c' c'' : Ctx S L}

/-! ## Histories -/

/-- The event `e` has happened, and nothing of `P` after it. -/
def Since (log : List (Event S)) (e : Event S) (P : Event S → Prop) : Prop :=
  ∃ later earlier, log = later ++ e :: earlier ∧ ∀ x ∈ later, ¬ P x

section History

variable {log later : List (Event S)} {e x : Event S} {P : Event S → Prop}

/-- Events that do not matter may follow. -/
lemma Since.append (h : Since log e P) (hlr : ∀ x ∈ later, ¬ P x) : Since (later ++ log) e P := by
  obtain ⟨l, earlier, rfl, hl⟩ := h
  refine ⟨later ++ l, earlier, (append_assoc _ _ _).symm, fun x hx => ?_⟩
  rcases mem_append.mp hx with hx | hx
  · exact hlr x hx
  · exact hl x hx

lemma Since.cons (h : Since log e P) (hx : ¬ P x) : Since (x :: log) e P :=
  Since.append h fun y hy => by rwa [mem_singleton.mp hy]

lemma Since.now (hl : ∀ x ∈ later, ¬ P x) : Since (later ++ e :: log) e P := ⟨later, log, rfl, hl⟩

end History

/-- Lowered values of operands. -/
def ChangesOperand (k : Fin S.last) (e : Event S) : Prop :=
  ∃ v ∈ S.operands k, e = .value v

/-- Lowered values of sources, and edges into the block. -/
def ChangesSource (φ : Phi S.varsCount S.blocksCount) (e : Event S) : Prop :=
  (∃ v ∈ φ.sources, e = .value v) ∨ ∃ source, e = .edge source φ.block

/-! ## Settled -/

/-- What has to be treated in a block. -/
inductive Item (S : Ssa) where
  | instr (k : Fin S.last)
  | phi (p : Fin S.varsCount)
  | jump (b : Fin S.blocksCount)

/-- An item belongs to a block. -/
def Item.In : Item S → Fin S.blocksCount → Prop
  | .instr k, b => S.opData k = false ∧ S.map k = b
  | .phi p, b => p ∈ S.phis b
  | .jump b', b => b' = b

/-- The variables that an item may change. -/
def Item.Defines : Item S → Fin S.varsCount → Prop
  | .instr k, v => v ∈ S.defs k
  | .phi p, v => v = p
  | .jump _, _ => False

/-- An instruction is in the worklist, itself or its `ZEND_OP_DATA`. -/
def Waiting (c : Ctx S L) (k : Fin S.last) : Prop :=
  k ∈ c.instrWorklist ∨ ∃ d, S.dataOp k = some d ∧ d ∈ c.instrWorklist

/-! ## Values -/

section Values

variable [DecidableEq L] {τ : Fin S.varsCount → L} {k i : Fin S.last} {v p : Fin S.varsCount}

lemma mem_changed {σ : Fin S.varsCount → L} : v ∈ changed σ τ ↔ τ v ≠ σ v := by
  simp [changed]

lemma changed_self (σ : Fin S.varsCount → L) : changed σ σ = [] := by
  simp [changed]

lemma setValues_self (c : Ctx S L) : c.setValues c.values = c := by
  simp [Ctx.setValues, changed_self]

/-- A changed variable puts the instructions of its use chain on the list. -/
lemma mem_instrWorklist_setValues : i ∈ (c.setValues τ).instrWorklist ↔
      i ∈ c.instrWorklist ∨ ∃ v, τ v ≠ c.values v ∧ i ∈ S.useChain v := by
  simp [Ctx.setValues, mem_changed]

lemma mem_phiVarWorklist_setValues : p ∈ (c.setValues τ).phiVarWorklist ↔
      p ∈ c.phiVarWorklist ∨ ∃ v, τ v ≠ c.values v ∧ p ∈ S.phiUseChain v := by
  simp [Ctx.setValues, mem_changed]

lemma waiting_of_changed (hS : S.Valid) (hv : v ∈ S.operands k) (hne : τ v ≠ c.values v) :
    Waiting (c.setValues τ) k := by
  rcases mem_append.mp hv with hv | hv
  · exact .inl (mem_instrWorklist_setValues.mpr (.inr ⟨v, hne, hS.uses k v hv⟩))
  · cases hd : S.dataOp k with
    | none => rw [hd] at hv; cases hv
    | some d =>
      rw [hd] at hv
      exact .inr ⟨d, hd, mem_instrWorklist_setValues.mpr (.inr ⟨v, hne, hS.uses d v hv⟩)⟩

/-- No event of a step that leaves the operands alone matters to the instruction. -/
lemma not_changesOperand (hs : ∀ v ∈ S.operands k, τ v = c.values v) :
    ∀ e ∈ (changed c.values τ).map Event.value, ¬ ChangesOperand k e := by
  rintro e he ⟨v, hv, rfl⟩
  obtain ⟨w, hw, heq⟩ := mem_map.mp he
  cases heq
  exact mem_changed.mp hw (hs v hv)

lemma not_changesSource {φ : Phi S.varsCount S.blocksCount}
    (hs : ∀ v ∈ φ.sources, τ v = c.values v) :
    ∀ e ∈ (changed c.values τ).map Event.value, ¬ ChangesSource φ e := by
  rintro e he (⟨v, hv, rfl⟩ | ⟨source, rfl⟩)
  · obtain ⟨w, hw, heq⟩ := mem_map.mp he
    cases heq
    exact mem_changed.mp hw (hs v hv)
  · obtain ⟨w, hw, heq⟩ := mem_map.mp he
    cases heq

end Values

variable [PartialOrder L] (H : Handlers S L)

/-- An instruction that has been visited after the last change of an operand. -/
def InstrDone (c : Ctx S L) (k : Fin S.last) : Prop :=
  Since c.log (.instr k) (ChangesOperand k) ∧ H.visitInstr k c.values = c.values

/-- A phi that has been visited after the last change of a source or of the edges into its block. -/
def PhiDone (c : Ctx S L) (p : Fin S.varsCount) : Prop :=
  ∀ φ, S.definitionPhi p = some φ → Since c.log (.phi p) (ChangesSource φ) ∧
    H.visitPhi p (feasibleFrom c φ.block) c.values = c.values

/-- An item waits on a list or was visited after the last change of its operands. -/
def Settled (c : Ctx S L) : Item S → Prop
  | .instr k => Waiting c k ∨ InstrDone H c k
  | .phi p => p ∈ c.phiVarWorklist ∨ PhiDone H c p
  | .jump b =>
    (1 < (S.blocks b).successors.length ∧ ∃ i, S.IsEnd b i ∧ i ∈ c.instrWorklist) ∨
    ∀ t ∈ successorsToMark H b c.values, scdfEdge S b t ∈ c.feasibleEdges

/-- A feasible edge of the graph. -/
def FeasibleEdge (c : Ctx S L) (source target : Fin S.blocksCount) : Prop :=
  feasibleFrom c target source = true

/-- **The invariant.** `E` are the exceptions. -/
structure Inv (c : Ctx S L) (E : Item S → Prop) : Prop where
  settled : ∀ b ∈ c.executableBlocks, b ∉ c.blockWorklist → ∀ x : Item S, x.In b → ¬ E x →
    Settled H c x
  entry : S.entry ∈ c.executableBlocks
  reached : ∀ b, b ∈ c.executableBlocks ∨ b ∈ c.blockWorklist →
    Relation.ReflTransGen (FeasibleEdge c) S.entry b
  closed : ∀ f t, FeasibleEdge c f t → t ∈ c.executableBlocks ∨ t ∈ c.blockWorklist
  visited : ∀ k, .instr k ∈ c.log → S.map k ∈ c.executableBlocks

/-- The bits of all edges. -/
def allEdges (S : Ssa) : Finset ℕ :=
  Finset.univ.image fun e : Fin S.blocksCount × Fin S.blocksCount => scdfEdge S e.1 e.2

omit [PartialOrder L] in
/-- Values sink, edges become feasible, and while neither happens nothing is added to a worklist. -/
structure Sinks [LE L] (c c' : Ctx S L) : Prop where
  le : ∀ v, c'.values v ≤ c.values v
  edges : c.feasibleEdges ⊆ c'.feasibleEdges
  bounded : c'.feasibleEdges ⊆ c.feasibleEdges ∪ allEdges S
  idle : c'.values = c.values → c'.feasibleEdges = c.feasibleEdges →
    c'.instrWorklist ⊆ c.instrWorklist ∧ c'.phiVarWorklist ⊆ c.phiVarWorklist ∧
    c'.blockWorklist ⊆ c.blockWorklist

lemma Sinks.refl (c : Ctx S L) : Sinks c c :=
  ⟨fun _ => le_rfl, subset_rfl, Finset.subset_union_left,
    fun _ _ => ⟨subset_rfl, subset_rfl, subset_rfl⟩⟩

/-- Values only sink along a run. -/
lemma Sinks.trans (h : Sinks c c') (h' : Sinks c' c'') : Sinks c c'' where
  le v := (h'.le v).trans (h.le v)
  edges := h.edges.trans h'.edges
  bounded := h'.bounded.trans (Finset.union_subset h.bounded Finset.subset_union_right)
  idle hv he := by
    have hvl : c'.values = c.values := by
      funext v
      exact le_antisymm (h.le v) (by rw [← congrFun hv v]; exact h'.le v)
    have hed : c'.feasibleEdges = c.feasibleEdges :=
      (by rw [← he]; exact h'.edges : c'.feasibleEdges ⊆ c.feasibleEdges).antisymm h.edges
    obtain ⟨hi, hp, hb⟩ := h.idle hvl hed
    obtain ⟨hi', hp', hb'⟩ := h'.idle (hv.trans hvl.symm) (he.trans hed.symm)
    exact ⟨hi'.trans hi, hp'.trans hp, hb'.trans hb⟩

omit [PartialOrder L] in
/-- **What visits and marked edges do.** What uses a changed value is in the worklist, and nothing
leaves it. -/
structure Moves [LE L] (c c' : Ctx S L) : Prop extends Sinks c c' where
  uses : ∀ v, c'.values v ≠ c.values v → ∀ i ∈ S.useChain v, i ∈ c'.instrWorklist
  instrs : c.instrWorklist ⊆ c'.instrWorklist
  executable : c'.executableBlocks = c.executableBlocks

lemma Moves.refl (c : Ctx S L) : Moves c c :=
  ⟨Sinks.refl c, fun _ h => absurd rfl h, subset_rfl, rfl⟩

lemma Moves.trans (h : Moves c c') (h' : Moves c' c'') : Moves c c'' where
  toSinks := h.toSinks.trans h'.toSinks
  uses v hv i hi := by
    by_cases hs : c''.values v = c'.values v
    · exact h'.instrs (h.uses v (fun heq => hv (hs.trans heq)) i hi)
    · exact h'.uses v hs i hi
  instrs := h.instrs.trans h'.instrs
  executable := h'.executable.trans h.executable

variable [DecidableEq L] {τ : Fin S.varsCount → L} {k : Fin S.last}

/-- Lowering values is a move. -/
lemma setValues_moves (hle : τ ≤ c.values) : Moves c (c.setValues τ) where
  le := hle
  uses v hv i hi := mem_instrWorklist_setValues.mpr (.inr ⟨v, hv, hi⟩)
  instrs := Finset.subset_union_left
  edges := subset_rfl
  bounded := Finset.subset_union_left
  executable := rfl
  idle hv _ := by
    have hτ : τ = c.values := hv
    rw [hτ, setValues_self]
    exact ⟨subset_rfl, subset_rfl, subset_rfl⟩

variable {b : Fin S.blocksCount}

/-- The last instruction of a block with several successors has no `ZEND_OP_DATA`. -/
lemma dataOp_end (hS : S.Valid) {i : Fin S.last}
    (hi : S.IsEnd b i) (hm : S.map i = b) : S.dataOp i = none := by
  unfold Ssa.dataOp
  split_ifs with hlt hdt
  · -- it would belong to the same block, which ends before it
    obtain ⟨-, -, hs⟩ := hS.opData_head _ hdt
    have hh : S.head ⟨i + 1, hlt⟩ = i := by
      rw [Ssa.head, if_pos hdt]
      rfl
    rw [hh, hm] at hs
    have hin := ((hS.map_iff _ _).mp hs.symm).2
    have hen : (i : ℕ) + 1 = (S.blocks b).start + (S.blocks b).len := hi
    simp only at hin
    omega
  · rfl
  · rfl

/-- A block with several successors ends in an instruction of its own. -/
lemma exists_end (hS : S.Valid)
    (hb : 1 < (S.blocks b).successors.length) : ∃ i, S.IsEnd b i ∧ S.map i = b ∧ S.head i = i := by
  have hl : (S.blocks b).len ≠ 0 := by
    intro hz
    obtain ⟨t, ht⟩ := hS.empty_block b hz
    rw [ht] at hb
    exact absurd hb (lt_irrefl 1)
  have hin := hS.inside b
  have hen : S.IsEnd b ⟨(S.blocks b).start + (S.blocks b).len - 1, by omega⟩ := by
    simp only [Ssa.IsEnd]
    omega
  refine ⟨_, hen, (hS.map_iff _ _).mpr ⟨?_, ?_⟩, ?_⟩
  · simp only
    omega
  · simp only
    omega
  · rw [Ssa.head, if_neg (by simp [hS.branch_end b _ hb hen])]

/-- **After moves, the end of a block is settled** if all that was decided before has been marked: a
branch with a changed operand waits. -/
theorem Moves.settled_jump (h : Moves c c') (hS : S.Valid)
    (hm : ∀ t ∈ successorsToMark H b c.values, scdfEdge S b t ∈ c'.feasibleEdges) :
    Settled H c' (.jump b) := by
  by_cases hb : 1 < (S.blocks b).successors.length
  · obtain ⟨i, hen, hmp, hhd⟩ := exists_end hS hb
    by_cases hs : ∀ v ∈ S.operands i, c'.values v = c.values v
    · right
      have heq : successorsToMark H b c'.values = successorsToMark H b c.values := by
        unfold successorsToMark
        rw [if_neg (by omega), if_neg (by omega)]
        exact H.successors_congr b i _ _ hen (by rwa [hhd])
      rwa [heq]
    · push Not at hs
      obtain ⟨v, hv, hne⟩ := hs
      rw [Ssa.operands, dataOp_end hS hen hmp, Option.elim_none, append_nil] at hv
      exact .inl ⟨hb, i, hen, h.uses v hne i (hS.uses i v hv)⟩
  · right
    have heq : ∀ σ, successorsToMark H b σ = (S.blocks b).successors := fun σ =>
      if_pos (by omega)
    rw [heq] at hm ⊢
    exact hm

/-- Lowering a variable leaves the items that do not define it settled. -/
lemma Settled.setValues (hS : S.Valid) {x : Item S} (h : Settled H c x) {τ : Fin S.varsCount → L}
    (hle : τ ≤ c.values) (hdf : ∀ v, τ v ≠ c.values v → ¬ x.Defines v) :
    Settled H (c.setValues τ) x := by
  cases x with
  | instr k =>
    by_cases hsm : ∀ v ∈ S.operands k, τ v = c.values v
    · rcases h with (hk | ⟨d, hd, hk⟩) | ⟨hsn, hs⟩
      · exact .inl (.inl (Finset.mem_union_left _ hk))
      · exact .inl (.inr ⟨d, hd, Finset.mem_union_left _ hk⟩)
      · refine .inr ⟨hsn.append (not_changesOperand hsm), ?_⟩
        refine H.instr_again k c.values τ hsm fun v hv => ?_
        rw [hs]
        by_contra hne
        exact hdf v hne hv
    · push Not at hsm
      obtain ⟨v, hv, hne⟩ := hsm
      exact .inl (waiting_of_changed hS hv hne)
  | phi p =>
    rcases h with hp | hdn
    · exact .inl (Finset.mem_union_left _ hp)
    cases hφ : S.definitionPhi p with
    | none => exact .inr fun φ h => absurd (hφ.symm.trans h) (by simp)
    | some φ =>
      obtain ⟨hsn, hs⟩ := hdn φ hφ
      by_cases hsm : ∀ v ∈ φ.sources, τ v = c.values v
      · right
        intro φ' hφ'
        obtain rfl : φ = φ' := Option.some.inj (hφ.symm.trans hφ')
        refine ⟨hsn.append (not_changesSource hsm), ?_⟩
        refine H.phi_again p φ _ c.values τ hφ hsm ?_
        have hp := congrFun hs p
        by_contra hne
        exact hdf p (fun heq => hne (heq.trans hp.symm)) rfl
      · push Not at hsm
        obtain ⟨v, hv, hne⟩ := hsm
        exact .inl (mem_phiVarWorklist_setValues.mpr (.inr ⟨v, hne, hS.phiUses p φ hφ v hv⟩))
  | jump b =>
    rcases h with ⟨hb, i, hen, hi⟩ | hm
    · exact .inl ⟨hb, i, hen, Finset.mem_union_left _ hi⟩
    · exact (setValues_moves hle).settled_jump H hS hm

/-! ## Visits -/

omit [PartialOrder L] [DecidableEq L] in
lemma feasibleEdge_congr (h : c'.feasibleEdges = c.feasibleEdges) :
    FeasibleEdge c' = FeasibleEdge c := by
  funext f t
  simp [FeasibleEdge, feasibleFrom, isEdgeFeasible, h]

variable {E : Item S → Prop}

omit [DecidableEq L] in
/-- The invariant survives a step that changes no block or edge. -/
lemma Inv.inside {E' : Item S → Prop} (h : Inv H c E)
    (hec : c'.executableBlocks = c.executableBlocks) (hb : c'.blockWorklist = c.blockWorklist)
    (hed : c'.feasibleEdges = c.feasibleEdges)
    (hl : ∀ k, .instr k ∈ c'.log → .instr k ∈ c.log ∨ S.map k ∈ c.executableBlocks)
    (hs : ∀ b ∈ c.executableBlocks, b ∉ c.blockWorklist → ∀ x : Item S, x.In b → ¬ E' x →
      Settled H c' x) : Inv H c' E' where
  settled := by rwa [hec, hb]
  entry := hec ▸ h.entry
  reached := by
    rw [hec, hb, feasibleEdge_congr hed]
    exact h.reached
  closed := by
    rw [hec, hb, feasibleEdge_congr hed]
    exact h.closed
  visited k hk := by
    rw [hec]
    exact (hl k hk).elim (h.visited k) id

/-- Events that no treatment depends on. -/
def Event.Silent (e : Event S) : Prop :=
  (∀ k, ¬ ChangesOperand k e) ∧ ∀ φ, ¬ ChangesSource φ e

lemma Event.silent_instr (k : Fin S.last) : (Event.instr k).Silent := by
  refine ⟨?_, ?_⟩
  · rintro _ ⟨_, _, ⟨⟩⟩
  · rintro _ (⟨_, _, ⟨⟩⟩ | ⟨_, ⟨⟩⟩)

lemma Event.silent_phi (p : Fin S.varsCount) : (Event.phi p).Silent := by
  refine ⟨?_, ?_⟩
  · rintro _ ⟨_, _, ⟨⟩⟩
  · rintro _ (⟨_, _, ⟨⟩⟩ | ⟨_, ⟨⟩⟩)

omit [DecidableEq L] in
/-- An entry of the log that changes no value keeps an item settled. -/
lemma Settled.log {x : Item S} (h : Settled H c x) {e : Event S} (he : e.Silent) :
    Settled H { c with log := e :: c.log } x := by
  cases x with
  | instr k =>
    rcases h with hk | ⟨hsn, hs⟩
    · exact .inl hk
    · exact .inr ⟨hsn.cons (he.1 k), hs⟩
  | phi p =>
    rcases h with hp | hdn
    · exact .inl hp
    · exact .inr fun φ hφ => ⟨(hdn φ hφ).1.cons (he.2 φ), (hdn φ hφ).2⟩
  | jump b => exact h

omit [PartialOrder L] in
lemma mem_log_setValues {τ : Fin S.varsCount → L} {e e' : Event S} {k : Fin S.last}
    (h : .instr k ∈ ({ c with log := e :: c.log }.setValues τ).log) (he : e = e') :
    .instr k = e' ∨ .instr k ∈ c.log := by
  subst he
  rcases mem_append.mp h with h | h
  · obtain ⟨v, -, hv⟩ := mem_map.mp h
    cases hv
  · exact mem_cons.mp h

/-- **Visiting an instruction** keeps the invariant and settles the instruction. -/
lemma Inv.visitInstr (hS : S.Valid) (h : Inv H c E) {k : Fin S.last}
    (hk : S.opData k = false) (hec : S.map k ∈ c.executableBlocks) :
    Inv H (visitInstr H k c) (fun x => E x ∧ x ≠ .instr k) ∧
      InstrDone H (Scdf.visitInstr H k c) k ∧ Moves c (Scdf.visitInstr H k c) := by
  have hle := H.instr_le k c.values
  have hm : Moves c (Scdf.visitInstr H k c) :=
    { setValues_moves (c := { c with log := .instr k :: c.log }) hle with }
  have hdn : InstrDone H (Scdf.visitInstr H k c) k := by
    have hs : ∀ v ∈ S.operands k, H.visitInstr k c.values v = c.values v := fun v hv =>
      H.instr_frame k c.values v (hS.ownUse k v hv)
    exact ⟨Since.now (not_changesOperand (c := { c with log := .instr k :: c.log }) hs),
      H.instr_again k c.values _ hs fun _ _ => rfl⟩
  refine ⟨h.inside H rfl rfl rfl (fun k' hk' => ?_) ?_, hdn, hm⟩
  · rcases mem_log_setValues hk' rfl with heq | hk'
    · cases heq
      exact .inr hec
    · exact .inl hk'
  intro b hb hl x hx hE
  by_cases hxk : x = .instr k
  · subst hxk
    exact .inr hdn
  have hse := (h.settled b hb hl x hx (fun he => hE ⟨he, hxk⟩)).log H (Event.silent_instr k)
  refine hse.setValues H hS hle fun v hv hdf => ?_
  have hvk : v ∈ S.defs k := by
    by_contra hn
    exact hv (H.instr_frame k c.values v hn)
  cases x with
  | instr k' => exact hxk (by rw [hS.oneDef k' k v hdf hvk hx.1 hk])
  | phi p =>
    obtain ⟨φ, hφ, -⟩ := (hS.phis_iff b p).mp hx
    obtain rfl : v = p := hdf
    rw [hS.noPhiDef k v hvk] at hφ
    cases hφ
  | jump b => exact hdf

/-- **Visiting a phi** does the same for the phi. -/
lemma Inv.visitPhi (hS : S.Valid) (h : Inv H c E) {p : Fin S.varsCount}
    {φ : Phi S.varsCount S.blocksCount} (hφ : S.definitionPhi p = some φ) :
    Inv H (visitPhi H p c) (fun x => E x ∧ x ≠ .phi p) ∧ Moves c (Scdf.visitPhi H p c) := by
  have hed : phiEdges c p = feasibleFrom c φ.block := by
    simp only [phiEdges, hφ]
  have hle := H.phi_le p (phiEdges c p) c.values
  have hm : Moves c (Scdf.visitPhi H p c) :=
    { setValues_moves (c := { c with log := .phi p :: c.log }) hle with }
  have hdn : Settled H (Scdf.visitPhi H p c) (.phi p) := by
    -- a phi that has itself as a source may have to be visited again
    by_cases hs : ∀ v ∈ φ.sources, H.visitPhi p (phiEdges c p) c.values v = c.values v
    · right
      intro φ' hφ'
      obtain rfl : φ = φ' := Option.some.inj (hφ.symm.trans hφ')
      have ha := H.phi_again p φ (phiEdges c p) c.values _ hφ hs rfl
      exact ⟨Since.now (not_changesSource (c := { c with log := .phi p :: c.log }) hs), hed ▸ ha⟩
    · push Not at hs
      obtain ⟨v, hv, hne⟩ := hs
      exact .inl (mem_phiVarWorklist_setValues.mpr (.inr ⟨v, hne, hS.phiUses p φ hφ v hv⟩))
  refine ⟨h.inside H rfl rfl rfl (fun k' hk' => ?_) ?_, hm⟩
  · rcases mem_log_setValues hk' rfl with heq | hk'
    · cases heq
    · exact .inl hk'
  intro b hb hl x hx hE
  by_cases hxp : x = .phi p
  · subst hxp
    exact hdn
  have hse := (h.settled b hb hl x hx (fun he => hE ⟨he, hxp⟩)).log H (Event.silent_phi p)
  refine hse.setValues H hS hle fun v hv hdf => ?_
  have hvp : v = p := by
    by_contra hn
    exact hv (H.phi_frame p (phiEdges c p) c.values v hn)
  subst hvp
  cases x with
  | instr k =>
    rw [hS.noPhiDef k v hdf] at hφ
    cases hφ
  | phi p' => exact hxp (by rw [show v = p' from hdf])
  | jump b => exact hdf

/-! ## Worklists -/

omit [DecidableEq L] in
/-- Taken from its list, a phi is the one item that may be unsettled. -/
lemma Inv.erasePhi (h : Inv H c E) (p : Fin S.varsCount) :
    Inv H { c with phiVarWorklist := c.phiVarWorklist.erase p } (fun x => E x ∨ x = .phi p) := by
  refine h.inside H rfl rfl rfl (fun _ => .inl) fun b hb hl x hx hE => ?_
  have hs := h.settled b hb hl x hx (fun he => hE (.inl he))
  cases x with
  | instr k => exact hs
  | phi p' =>
    exact hs.imp_left fun hp => Finset.mem_erase.mpr ⟨fun heq => hE (.inr (by rw [heq])), hp⟩
  | jump b => exact hs

omit [PartialOrder L] [DecidableEq L] in
/-- An `OP_DATA` belongs to the instruction before it. -/
lemma head_of_dataOp {k d : Fin S.last} (h : S.dataOp k = some d) :
    S.head d = k ∧ S.opData d = true := by
  unfold Ssa.dataOp at h
  split_ifs at h with hlt hdt
  cases h
  refine ⟨?_, hdt⟩
  rw [Ssa.head, if_pos hdt]
  rfl

omit [DecidableEq L] in
/-- Taken from its list, an instruction or the one its `OP_DATA` belongs to may be unsettled. -/
lemma Inv.eraseInstr (hS : S.Valid) (h : Inv H c E) (j : Fin S.last) :
    Inv H { c with instrWorklist := c.instrWorklist.erase j }
      (fun x => E x ∨ x = .instr (S.head j) ∨ S.IsEnd (S.map j) j ∧ x = .jump (S.map j)) := by
  refine h.inside H rfl rfl rfl (fun _ => .inl) fun b hb hl x hx hE => ?_
  have hse := h.settled b hb hl x hx (fun he => hE (.inl he))
  have her : ∀ i ∈ c.instrWorklist, i ≠ j → i ∈ c.instrWorklist.erase j := fun i hi hij =>
    Finset.mem_erase.mpr ⟨hij, hi⟩
  cases x with
  | instr k =>
    refine hse.imp_left (Or.imp (fun hk => her k hk ?_) fun ⟨d, hd, hk⟩ =>
      ⟨d, hd, her d hk ?_⟩)
    · rintro rfl
      refine hE (.inr (.inl ?_))
      rw [Ssa.head, if_neg (by simp [hx.1])]
    · rintro rfl
      exact hE (.inr (.inl (by rw [(head_of_dataOp hd).1])))
  | phi p => exact hse
  | jump b' =>
    refine hse.imp_left fun ⟨hln, i, hen, hi⟩ => ⟨hln, i, hen, her i hi ?_⟩
    rintro rfl
    obtain ⟨i', hen', hm, -⟩ := exists_end hS hln
    have hs : i = i' := Fin.ext (by
      have h1 : (i : ℕ) + 1 = _ := hen
      have h2 : (i' : ℕ) + 1 = _ := hen'
      omega)
    rw [← hs] at hm
    exact hE (.inr (.inr ⟨hm.symm ▸ hen, by rw [hm]⟩))

end PhpInternals.Optimizer.Scdf

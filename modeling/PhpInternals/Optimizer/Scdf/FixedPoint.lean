import PhpInternals.Optimizer.Scdf.Solve
import PhpInternals.Optimizer.Scdf.Sccp

/-!
# Sparse conditional data flow
-/

namespace PhpInternals.Optimizer.Scdf

open List Found

variable {S : Ssa} {L : Type} [PartialOrder L] [DecidableEq L] {H : Handlers S L} {c : Ctx S L}

lemma visitInstr_eq {k : Fin S.last} (h : H.visitInstr k c.values = c.values) :
    visitInstr H k c = { c with log := .instr k :: c.log } := by
  rw [visitInstr, h]
  exact setValues_self { c with log := .instr k :: c.log }

lemma visitPhi_eq {p : Fin S.varsCount} {φ : Phi S.varsCount S.blocksCount}
    (hφ : S.definitionPhi p = some φ)
    (h : H.visitPhi p (feasibleFrom c φ.block) c.values = c.values) :
    visitPhi H p c = { c with log := .phi p :: c.log } := by
  have hed : phiEdges c p = feasibleFrom c φ.block := by simp only [phiEdges, hφ]
  rw [visitPhi, hed, h]
  exact setValues_self { c with log := .phi p :: c.log }

lemma markSuccessors_eq {b : Fin S.blocksCount}
    (h : ∀ t ∈ successorsToMark H b c.values, scdfEdge S b t ∈ c.feasibleEdges) :
    markSuccessors H b c = c := by
  unfold markSuccessors
  generalize successorsToMark H b c.values = ts at h
  induction ts with
  | nil => rfl
  | cons t ts ih =>
    obtain ⟨ht, hts⟩ := forall_mem_cons.mp h
    rw [foldl_cons, markEdgeFeasible, if_pos ht]
    exact ih hts

/-- **The solver reaches a fixed point.** It terminates. Then exactly the blocks that feasible edges
lead to from block 0 are executable; every instruction of such a block has been visited after the
last change of an operand, and taking it from the worklist once more would change nothing; the same
holds for its phis, with their sources and the edges into the block; and no instruction of another
block was visited. -/
theorem scdfSolve_fixedPoint [WellFoundedLT L] (hS : S.Valid) (H : Handlers S L)
    (values : Fin S.varsCount → L) :
    ∃ n c, (∀ rounds ≥ n, scdfSolve H rounds (scdfInit values) = some c) ∧
      (∀ b, b ∈ c.executableBlocks ↔ Relation.ReflTransGen (FeasibleEdge c) S.entry b) ∧
      (∀ i, S.map i ∈ c.executableBlocks →
        Since c.log (.instr (S.head i)) (ChangesOperand (S.head i)) ∧
        instrRound H i c = { c with log := .instr (S.head i) :: c.log }) ∧
      (∀ p φ, S.definitionPhi p = some φ → φ.block ∈ c.executableBlocks →
        Since c.log (.phi p) (ChangesSource φ) ∧
        visitPhi H p c = { c with log := .phi p :: c.log }) ∧
      ∀ k, .instr k ∈ c.log → S.map k ∈ c.executableBlocks := by
  obtain ⟨n, ⟨ph, c⟩, hl, hiv, hen⟩ := loop_total
    descends_wellFounded
    (fun s s' hs hsp => solveStep_spec hS hs hsp) (s := (.test, scdfInit values))
    (inv_scdfInit values)
  -- the loops are left with all worklists empty
  obtain ⟨his, hps, hbl⟩ : c.instrWorklist = ∅ ∧ c.phiVarWorklist = ∅ ∧ c.blockWorklist = ∅ := by
    cases ph with
    | test =>
      simp only [solveStep] at hen
      split_ifs at hen with hem
      exact hem
    | phis | instrs | blocks => simp only [solveStep] at hen; split at hen <;> cases hen
  have hse : ∀ b ∈ c.executableBlocks, ∀ x : Item S, x.In b → Settled H c x :=
    fun b hb x hx => hiv.settled b hb (by simp [hbl]) x hx id
  refine ⟨n, c, fun rounds hr => ?_, fun b => ⟨fun hb => hiv.reached b (.inl hb), ?_⟩,
    fun i hi => ?_, fun p φ hφ hb => ?_, hiv.visited⟩
  · rw [scdfSolve, hl rounds hr]
    rfl
  · intro hrc
    induction hrc with
    | refl => exact hiv.entry
    | tail _ hed _ => exact (hiv.closed _ _ hed).resolve_right (by simp [hbl])
  · obtain ⟨hdt, hmp⟩ := head_spec hS i
    have hdn : InstrDone H c (S.head i) :=
      (hse (S.map i) hi (.instr (S.head i)) ⟨hdt, hmp⟩).resolve_left (by
        simp [Waiting, his])
    refine ⟨hdn.1, ?_⟩
    rw [instrRound]
    simp only [visitInstr_eq hdn.2]
    split_ifs with hise
    · have hm : ∀ t ∈ successorsToMark H (S.map i) c.values,
          scdfEdge S (S.map i) t ∈ c.feasibleEdges :=
        (hse (S.map i) hi (.jump (S.map i)) rfl).resolve_left (by simp [his])
      exact markSuccessors_eq hm
    · rfl
  · have hdn : PhiDone H c p :=
      (hse φ.block hb (.phi p) ((hS.phis_iff _ _).mpr ⟨φ, hφ, rfl⟩)).resolve_left (by
        simp [hps])
    exact ⟨(hdn φ hφ).1, visitPhi_eq hφ (hdn φ hφ).2⟩

/-- A branch on a constant, with a phi where its two ways meet. -/
def branchOnConstant : Ssa where
  last := 4
  varsCount := 2
  blocksCount := 3
  blocksPos := by decide
  blocks := ![⟨0, 2, [1, 2], 0, []⟩, ⟨2, 1, [2], 0, [0]⟩, ⟨3, 1, [], 1, [0, 1]⟩]
  map := ![0, 0, 1, 2]
  opData _ := false
  opUses := ![[], [0], [], []]
  opDefs := ![[0], [], [], []]
  phis := ![[], [], [1]]
  definitionPhi := ![none, some ⟨2, none, [0, 0]⟩]
  useChain := ![[1], []]
  phiUseChain := ![[1], []]

lemma branchOnConstant_valid : branchOnConstant.Valid where
  map_iff := by decide
  inside := by decide
  opData_head := by decide
  empty_block := by decide
  branch_end := by decide
  predecessors := by decide
  edges := by decide
  uses := by decide
  phiUses := by
    intro p φ hφ
    fin_cases p
    · cases hφ
    · cases hφ
      decide
  phis_iff := by
    intro b p
    constructor
    · intro hp
      fin_cases b
      · cases hp
      · cases hp
      · obtain rfl : p = (1 : Fin 2) := mem_singleton.mp hp
        exact ⟨_, rfl, rfl⟩
    · rintro ⟨φ, hφ, rfl⟩
      fin_cases p
      · cases hφ
      · cases hφ
        decide
  oneDef := by decide
  noPhiDef := by decide
  ownUse := by decide

/-- The constant is 1, and the branch takes its first way when it is. -/
def branchEvaluation : Evaluation branchOnConstant ℕ where
  result k _ _ := if k.val = 0 then .known 1 else .bot
  taken b σ := if b.val = 0 ∧ σ (0 : Fin 2) = .top then []
    else if b.val = 0 ∧ σ (0 : Fin 2) = .known 1 then (branchOnConstant.blocks b).successors.take 1
    else (branchOnConstant.blocks b).successors
  result_congr _ _ _ _ := rfl
  taken_mem b σ t ht := by
    split_ifs at ht
    · cases ht
    · exact mem_of_mem_take ht
    · exact ht
  taken_congr b i σ τ hend hsame := by
    fin_cases b
    · -- the branch is the second instruction
      obtain rfl : i = (1 : Fin 4) := Fin.ext (Nat.succ.inj hend)
      rw [hsame (0 : Fin 2) (mem_append_left _
        (show (0 : Fin 2) ∈ [(0 : Fin 2)] from mem_cons_self))]
    · rfl
    · rfl

/-- A branch on a constant. -/
theorem scdfSolve_fixedPoint_branch :
    branchOnConstant.Valid ∧ ∃ n c,
      (∀ rounds ≥ n, scdfSolve (sccpHandlers branchEvaluation) rounds (scdfInit fun _ => .top) =
        some c) ∧
      ∀ b, b ∈ c.executableBlocks ↔
        Relation.ReflTransGen (FeasibleEdge c) branchOnConstant.entry b := by
  obtain ⟨n, c, hs, hec, -⟩ := scdfSolve_fixedPoint branchOnConstant_valid
    (sccpHandlers branchEvaluation) (fun _ => .top)
  exact ⟨branchOnConstant_valid, n, c, hs, hec⟩

end PhpInternals.Optimizer.Scdf

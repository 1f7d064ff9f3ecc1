import PhpInternals.Found.Loop

/-!
# Sparse conditional data-flow propagation

The framework of `ext/opcache/Optimizer/scdf.c`, over any handlers.
-/

namespace PhpInternals.Optimizer.Scdf

open Found

/-! ## The SSA form -/

/-- A `zend_basic_block` with its slice of `cfg->predecessors`. -/
structure BasicBlock (blocksCount : ℕ) where
  start : ℕ
  len : ℕ
  successors : List (Fin blocksCount)
  predecessorOffset : ℕ
  predecessors : List (Fin blocksCount)

/-- A `zend_ssa_phi`: one source for each predecessor, or the source of a pi with the predecessor it
stands for. -/
structure Phi (varsCount blocksCount : ℕ) where
  block : Fin blocksCount
  pi : Option (Fin blocksCount)
  sources : List (Fin varsCount)

/-- What the solver reads of `op_array` and `ssa`: `opUses` and `opDefs` are the variables in a
`zend_ssa_op`, a phi is named by its `ssa_var`, and `useChain` and `phiUseChain` are what
`FOREACH_USE` and `FOREACH_PHI_USE` enumerate. Source: `zend_ssa.h`, `zend_cfg.h`. -/
structure Ssa where
  last : ℕ
  varsCount : ℕ
  blocksCount : ℕ
  blocksPos : 0 < blocksCount
  blocks : Fin blocksCount → BasicBlock blocksCount
  map : Fin last → Fin blocksCount
  opData : Fin last → Bool
  opUses : Fin last → List (Fin varsCount)
  opDefs : Fin last → List (Fin varsCount)
  phis : Fin blocksCount → List (Fin varsCount)
  definitionPhi : Fin varsCount → Option (Phi varsCount blocksCount)
  useChain : Fin varsCount → List (Fin last)
  phiUseChain : Fin varsCount → List (Fin varsCount)

variable (S : Ssa)

/-- Block 0. Source: `scdf_init`. -/
def Ssa.entry : Fin S.blocksCount :=
  ⟨0, S.blocksPos⟩

/-- The instruction that a `ZEND_OP_DATA` belongs to: `opline--`. Source: `scdf_solve`. -/
def Ssa.head (i : Fin S.last) : Fin S.last :=
  if S.opData i then ⟨i - 1, by omega⟩ else i

/-- The `ZEND_OP_DATA` of an instruction. -/
def Ssa.dataOp (k : Fin S.last) : Option (Fin S.last) :=
  if h : k + 1 < S.last then if S.opData ⟨k + 1, h⟩ then some ⟨k + 1, h⟩ else none else none

/-- The variables an instruction reads, its `ZEND_OP_DATA` included. -/
def Ssa.operands (k : Fin S.last) : List (Fin S.varsCount) :=
  S.opUses k ++ (S.dataOp k).elim [] S.opUses

/-- The variables an instruction defines. -/
def Ssa.defs (k : Fin S.last) : List (Fin S.varsCount) :=
  S.opDefs k ++ (S.dataOp k).elim [] S.opDefs

/-- The last instruction of a block. -/
def Ssa.IsEnd (b : Fin S.blocksCount) (i : Fin S.last) : Prop :=
  (i : ℕ) + 1 = (S.blocks b).start + (S.blocks b).len

instance (b : Fin S.blocksCount) (i : Fin S.last) : Decidable (S.IsEnd b i) :=
  inferInstanceAs (Decidable (_ = _))

/-- The bit of an edge. -/
def scdfEdge (source target : Fin S.blocksCount) : ℕ :=
  (S.blocks target).predecessorOffset + (S.blocks target).predecessors.idxOf source

/-- What the construction of the graph and of the SSA form guarantees. An instruction with several
successors has no `ZEND_OP_DATA`; every variable has one definition, and no instruction reads what
it defines itself. -/
structure Ssa.Valid : Prop where
  map_iff : ∀ i b, S.map i = b ↔
    (S.blocks b).start ≤ i ∧ (i : ℕ) < (S.blocks b).start + (S.blocks b).len
  inside : ∀ b, (S.blocks b).start + (S.blocks b).len ≤ S.last
  opData_head : ∀ i, S.opData i = true → 0 < (i : ℕ) ∧ S.opData (S.head i) = false ∧
    S.map (S.head i) = S.map i
  empty_block : ∀ b, (S.blocks b).len = 0 → ∃ t, (S.blocks b).successors = [t]
  branch_end : ∀ b i, 1 < (S.blocks b).successors.length → S.IsEnd b i → S.opData i = false
  predecessors : ∀ b, ∀ t ∈ (S.blocks b).successors, b ∈ (S.blocks t).predecessors
  edges : ∀ b b', b ≠ b' →
    (S.blocks b).predecessorOffset + (S.blocks b).predecessors.length ≤
      (S.blocks b').predecessorOffset ∨
    (S.blocks b').predecessorOffset + (S.blocks b').predecessors.length ≤
      (S.blocks b).predecessorOffset
  uses : ∀ i, ∀ v ∈ S.opUses i, i ∈ S.useChain v
  phiUses : ∀ p φ, S.definitionPhi p = some φ → ∀ v ∈ φ.sources, p ∈ S.phiUseChain v
  phis_iff : ∀ b p, p ∈ S.phis b ↔ ∃ φ, S.definitionPhi p = some φ ∧ φ.block = b
  oneDef : ∀ k k' v, v ∈ S.defs k → v ∈ S.defs k' → S.opData k = false →
    S.opData k' = false → k = k'
  noPhiDef : ∀ k v, v ∈ S.defs k → S.definitionPhi v = none
  ownUse : ∀ k, ∀ v ∈ S.operands k, v ∉ S.defs k

variable {S} {L : Type}

/-! ## Handlers -/

/-- The callbacks, and what is asked of them. Values only move downwards; a visit changes what the
instruction or phi defines; and it depends on the operands only (for a phi, also on which edges into
its block are feasible), so that a second visit finds nothing to do. What successors of a branch are
feasible depends on the operands of the branch. Each changed variable is given to
`scdf_add_to_worklist`. Source: `scdf.h` `scdf_ctx`. -/
structure Handlers (S : Ssa) (L : Type) [PartialOrder L] where
  visitInstr : Fin S.last → (Fin S.varsCount → L) → Fin S.varsCount → L
  visitPhi : Fin S.varsCount → (Fin S.blocksCount → Bool) → (Fin S.varsCount → L) →
    Fin S.varsCount → L
  feasibleSuccessors : Fin S.blocksCount → (Fin S.varsCount → L) → List (Fin S.blocksCount)
  instr_le : ∀ k σ, visitInstr k σ ≤ σ
  instr_frame : ∀ k σ v, v ∉ S.defs k → visitInstr k σ v = σ v
  instr_again : ∀ k σ τ, (∀ v ∈ S.operands k, τ v = σ v) →
    (∀ v ∈ S.defs k, τ v = visitInstr k σ v) → visitInstr k τ = τ
  phi_le : ∀ p feasible σ, visitPhi p feasible σ ≤ σ
  phi_frame : ∀ p feasible σ v, v ≠ p → visitPhi p feasible σ v = σ v
  phi_again : ∀ p φ feasible σ τ, S.definitionPhi p = some φ → (∀ v ∈ φ.sources, τ v = σ v) →
    τ p = visitPhi p feasible σ p → visitPhi p feasible τ = τ
  successors_mem : ∀ b σ, ∀ t ∈ feasibleSuccessors b σ, t ∈ (S.blocks b).successors
  successors_congr : ∀ b i σ τ, S.IsEnd b i → (∀ v ∈ S.operands (S.head i), τ v = σ v) →
    feasibleSuccessors b τ = feasibleSuccessors b σ

/-! ## The solver's state -/

/-- What happens in a run: a visit, a lowered value, an edge that becomes feasible. -/
inductive Event (S : Ssa) where
  | instr (k : Fin S.last)
  | phi (p : Fin S.varsCount)
  | value (v : Fin S.varsCount)
  | edge (source target : Fin S.blocksCount)

/-- A `scdf_ctx` and the values of the handlers. The bit sets are sets. `log` is not in the source:
it is what has happened so far, the latest first. Source: `scdf.h` `scdf_ctx`. -/
structure Ctx (S : Ssa) (L : Type) where
  values : Fin S.varsCount → L
  instrWorklist : Finset (Fin S.last)
  phiVarWorklist : Finset (Fin S.varsCount)
  blockWorklist : Finset (Fin S.blocksCount)
  executableBlocks : Finset (Fin S.blocksCount)
  feasibleEdges : Finset ℕ
  log : List (Event S)

/-- Source: `scdf_init`. -/
def scdfInit (values : Fin S.varsCount → L) : Ctx S L :=
  ⟨values, ∅, ∅, {S.entry}, {S.entry}, ∅, []⟩

/-- Source: `scdf.h` `scdf_is_edge_feasible`. -/
def isEdgeFeasible (c : Ctx S L) (source target : Fin S.blocksCount) : Bool :=
  decide (scdfEdge S source target ∈ c.feasibleEdges)

/-- The predecessors of a block whose edge is feasible; `scdf_edge` is asked for predecessors only.
Source: `scdf.h` `scdf_is_edge_feasible`. -/
def feasibleFrom (c : Ctx S L) (target source : Fin S.blocksCount) : Bool :=
  decide (source ∈ (S.blocks target).predecessors) && isEdgeFeasible c source target

variable [DecidableEq L]

/-- The variables whose value is another one. -/
def changed (σ τ : Fin S.varsCount → L) : List (Fin S.varsCount) :=
  (List.finRange S.varsCount).filter fun v => τ v ≠ σ v

/-- Values are set, and the uses of the changed variables are added to the worklists. Source:
`scdf.h` `scdf_add_to_worklist`, `sccp.c` `set_value`. -/
def Ctx.setValues (c : Ctx S L) (τ : Fin S.varsCount → L) : Ctx S L :=
  { c with
    values := τ
    instrWorklist := c.instrWorklist ∪ ((changed c.values τ).flatMap S.useChain).toFinset
    phiVarWorklist := c.phiVarWorklist ∪ ((changed c.values τ).flatMap S.phiUseChain).toFinset
    log := (changed c.values τ).map .value ++ c.log }

variable [PartialOrder L] (H : Handlers S L)

/-- `handlers.visit_instr`. -/
def visitInstr (k : Fin S.last) (c : Ctx S L) : Ctx S L :=
  { c with log := .instr k :: c.log }.setValues (H.visitInstr k c.values)

/-- Which edges into the block of a phi are feasible. Source: `scdf.h` `scdf_is_edge_feasible`. -/
def phiEdges (c : Ctx S L) (p : Fin S.varsCount) : Fin S.blocksCount → Bool :=
  match S.definitionPhi p with
  | some φ => feasibleFrom c φ.block
  | none => fun _ => false

/-- `handlers.visit_phi`. -/
def visitPhi (p : Fin S.varsCount) (c : Ctx S L) : Ctx S L :=
  { c with log := .phi p :: c.log }.setValues (H.visitPhi p (phiEdges c p) c.values)

/-- All phis of a block. Source: `scdf_mark_edge_feasible`, `scdf_solve`. -/
def visitPhis (ps : List (Fin S.varsCount)) (c : Ctx S L) : Ctx S L :=
  ps.foldl (fun c p => visitPhi H p { c with phiVarWorklist := c.phiVarWorklist.erase p }) c

/-- `scdf_mark_edge_feasible`. -/
def markEdgeFeasible (source target : Fin S.blocksCount) (c : Ctx S L) : Ctx S L :=
  if scdfEdge S source target ∈ c.feasibleEdges then c
  else
    let c := { c with
      feasibleEdges := insert (scdfEdge S source target) c.feasibleEdges
      log := .edge source target :: c.log }
    if target ∉ c.executableBlocks then { c with blockWorklist := insert target c.blockWorklist }
    else visitPhis H (S.phis target) c

/-- What is marked at the end of a block. Source: `scdf_solve`. -/
def successorsToMark (b : Fin S.blocksCount) (σ : Fin S.varsCount → L) : List (Fin S.blocksCount) :=
  if (S.blocks b).successors.length ≤ 1 then (S.blocks b).successors else H.feasibleSuccessors b σ

/-- The end of a block; the callback decides before it marks. Source: `scdf_solve`. -/
def markSuccessors (b : Fin S.blocksCount) (c : Ctx S L) : Ctx S L :=
  (successorsToMark H b c.values).foldl (fun c t => markEdgeFeasible H b t c) c

/-! ## The loops of `scdf_solve` -/

/-- `zend_bitset_pop_first`. -/
def popFirst {n : ℕ} (s : Finset (Fin n)) : Option (Fin n × Finset (Fin n)) :=
  if h : s.Nonempty then some (s.min' h, s.erase (s.min' h)) else none

/-- A phi from the worklist. Source: `scdf_solve`. -/
def phiRound (p : Fin S.varsCount) (c : Ctx S L) : Ctx S L :=
  match S.definitionPhi p with
  | some φ => if φ.block ∈ c.executableBlocks then visitPhi H p c else c
  | none => c

/-- An instruction from the worklist. Source: `scdf_solve`. -/
def instrRound (i : Fin S.last) (c : Ctx S L) : Ctx S L :=
  if S.map i ∈ c.executableBlocks then
    let c := visitInstr H (S.head i) c
    if S.IsEnd (S.map i) i then markSuccessors H (S.map i) c else c
  else c

/-- An instruction of a block that has become executable; a `ZEND_OP_DATA` is visited with the
instruction before it. Source: `scdf_solve`. -/
def visitOp (j : Fin S.last) (c : Ctx S L) : Ctx S L :=
  let c := { c with instrWorklist := c.instrWorklist.erase j }
  if S.opData j then c else visitInstr H j c

/-- The first `n` instructions from `start` on, in order. Source: `scdf_solve`. -/
def visitOps (start : ℕ) : ℕ → Ctx S L → Ctx S L
  | 0, c => c
  | n + 1, c =>
    if h : start + n < S.last then visitOp H ⟨start + n, h⟩ (visitOps start n c)
    else visitOps start n c

/-- A block from the worklist. Source: `scdf_solve`. -/
def blockRound (b : Fin S.blocksCount) (c : Ctx S L) : Ctx S L :=
  let c := { c with executableBlocks := insert b c.executableBlocks }
  let c := visitPhis H (S.phis b) c
  if (S.blocks b).len = 0 then
    match (S.blocks b).successors with
    | t :: _ => markEdgeFeasible H b t c
    | [] => c
  else markSuccessors H b (visitOps H (S.blocks b).start (S.blocks b).len c)

/-- Where the solver is: at the test of the outer loop or in one of the inner loops. Source:
`scdf_solve`. -/
inductive Phase where
  | test
  | phis
  | instrs
  | blocks
  deriving DecidableEq

/-- One step of the loops: one test of the outer loop, or one round of an inner loop, which goes on
to the next loop when its worklist is empty. Source: `scdf_solve`. -/
def solveStep : Phase × Ctx S L → Option (Phase × Ctx S L)
  | (.test, c) =>
    if c.instrWorklist = ∅ ∧ c.phiVarWorklist = ∅ ∧ c.blockWorklist = ∅ then none
    else some (.phis, c)
  | (.phis, c) => match popFirst c.phiVarWorklist with
      | some (p, rest) => some (.phis, phiRound H p { c with phiVarWorklist := rest })
      | none => some (.instrs, c)
  | (.instrs, c) => match popFirst c.instrWorklist with
      | some (i, rest) => some (.instrs, instrRound H i { c with instrWorklist := rest })
      | none => some (.blocks, c)
  | (.blocks, c) => match popFirst c.blockWorklist with
      | some (b, rest) => some (.blocks, blockRound H b { c with blockWorklist := rest })
      | none => some (.test, c)

/-- Source: `scdf_solve`. -/
def scdfSolve (rounds : ℕ) (c : Ctx S L) : Option (Ctx S L) :=
  (loop (solveStep H) rounds (.test, c)).map Prod.snd

end PhpInternals.Optimizer.Scdf

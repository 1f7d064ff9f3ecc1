import PhpInternals.Optimizer.Scdf.Basic

/-!
# Constant propagation as an instance

The handlers of `ext/opcache/Optimizer/sccp.c`, over any evaluation of instructions and branches.
-/

namespace PhpInternals.Optimizer.Scdf

open Function

/-- A value of the constant propagation lattice. -/
inductive Value (V : Type) where
  | top
  | known (v : V)
  | bot
  deriving DecidableEq

variable {V : Type}

instance : PartialOrder (Value V) where
  le a b := a = b ∨ a = .bot ∨ b = .top
  le_refl _ := .inl rfl
  le_trans a b c hab hbc := by
    rcases hab with rfl | rfl | rfl
    · exact hbc
    · exact .inr (.inl rfl)
    · rcases hbc with rfl | hbot | rfl
      · exact .inr (.inr rfl)
      · cases hbot
      · exact .inr (.inr rfl)
  le_antisymm a b hab hba := by
    rcases hab with rfl | rfl | rfl
    · rfl
    · rcases hba with h | h | h
      · exact h.symm
      · exact h.symm
      · cases h
    · rcases hba with h | h | h
      · exact h.symm
      · cases h
      · exact h

/-- Three levels. -/
def Value.level : Value V → ℕ
  | .top => 2
  | .known _ => 1
  | .bot => 0

instance : WellFoundedLT (Value V) where
  wf := by
    refine Subrelation.wf ?_ (InvImage.wf Value.level Nat.lt_wfRel.wf)
    intro a b hab
    obtain ⟨hle, hne⟩ := lt_iff_le_and_ne.mp hab
    show a.level < b.level
    rcases hle with rfl | rfl | rfl
    · exact absurd rfl hne
    · cases b with
      | bot => exact absurd rfl hne
      | known v => exact Nat.zero_lt_one
      | top => exact Nat.zero_lt_two
    · cases a with
      | top => exact absurd rfl hne
      | known v => exact Nat.lt_succ_self 1
      | bot => exact Nat.zero_lt_two

/-- The new value of a variable; two different constants do not meet here, which `ZEND_DEBUG`
asserts. -/
def setValue : Value V → Value V → Value V
  | .bot, _ => .bot
  | value, .top => value
  | .top, new => new
  | .known _, .bot => .bot
  | .known v, .known _ => .known v

lemma setValue_le (value new : Value V) : setValue value new ≤ value := by
  cases value with
  | top => exact .inr (.inr rfl)
  | known v => cases new with
    | bot => exact .inr (.inl rfl)
    | top | known w => exact le_rfl
  | bot => exact le_rfl

lemma setValue_again (value new : Value V) :
    setValue (setValue value new) new = setValue value new := by
  cases value <;> cases new <;> rfl

variable [DecidableEq V]

/-- Source: `join_phi_values`. -/
def joinPhiValues (a b : Value V) : Value V :=
  if a = .bot ∨ b = .top then a
  else if a = .top then b
  else if b = .bot ∨ a ≠ b then .bot
  else a

variable {S : Ssa}

/-- The sources whose edge is feasible. Source: `sccp_visit_phi`. -/
def feasibleSources (φ : Phi S.varsCount S.blocksCount) (feasible : Fin S.blocksCount → Bool) :
    List (Fin S.varsCount) :=
  match φ.pi with
  | some source => if feasible source then φ.sources.take 1 else []
  | none => (((S.blocks φ.block).predecessors.zip φ.sources).filter fun e => feasible e.1).map
      Prod.snd

omit [DecidableEq V] in
lemma mem_sources_of_feasible {φ : Phi S.varsCount S.blocksCount}
    {feasible : Fin S.blocksCount → Bool} {v : Fin S.varsCount}
    (hv : v ∈ feasibleSources φ feasible) : v ∈ φ.sources := by
  unfold feasibleSources at hv
  cases hpi : φ.pi with
  | some source =>
    simp only [hpi] at hv
    split_ifs at hv
    · exact List.mem_of_mem_take hv
    · cases hv
  | none =>
    simp only [hpi] at hv
    obtain ⟨e, he, rfl⟩ := List.mem_map.mp hv
    exact (List.of_mem_zip (List.mem_filter.mp he).1).2

/-- Source: `sccp_visit_phi`. -/
def sccpVisitPhi (p : Fin S.varsCount) (feasible : Fin S.blocksCount → Bool)
    (σ : Fin S.varsCount → Value V) : Fin S.varsCount → Value V :=
  match S.definitionPhi p with
  | some φ => update σ p (setValue (σ p)
      (((feasibleSources φ feasible).map σ).foldl joinPhiValues .top))
  | none => σ

/-- What the instructions of a program compute for the variables they define, and which successors a
branch can take; both from the values of the operands. Source: `sccp_visit_instr`,
`sccp_mark_feasible_successors`. -/
structure Evaluation (S : Ssa) (V : Type) where
  result : Fin S.last → (Fin S.varsCount → Value V) → Fin S.varsCount → Value V
  taken : Fin S.blocksCount → (Fin S.varsCount → Value V) → List (Fin S.blocksCount)
  result_congr : ∀ k σ τ, (∀ v ∈ S.operands k, τ v = σ v) → result k τ = result k σ
  taken_mem : ∀ b σ, ∀ t ∈ taken b σ, t ∈ (S.blocks b).successors
  taken_congr : ∀ b i σ τ, S.IsEnd b i → (∀ v ∈ S.operands (S.head i), τ v = σ v) →
    taken b τ = taken b σ

/-- Source: `sccp_visit_instr`. -/
def sccpVisitInstr (e : Evaluation S V) (k : Fin S.last) (σ : Fin S.varsCount → Value V)
    (v : Fin S.varsCount) : Value V :=
  if v ∈ S.defs k then setValue (σ v) (e.result k σ v) else σ v

/-- **The handlers of constant propagation.** -/
def sccpHandlers (e : Evaluation S V) : Handlers S (Value V) where
  visitInstr := sccpVisitInstr e
  visitPhi := sccpVisitPhi
  feasibleSuccessors := e.taken
  instr_le k σ v := by
    simp only [sccpVisitInstr]
    split_ifs
    · exact setValue_le _ _
    · exact le_rfl
  instr_frame k σ v hv := by simp [sccpVisitInstr, if_neg hv]
  instr_again k σ τ hops hdefs := by
    funext v
    by_cases hv : v ∈ S.defs k
    · have hτ := hdefs v hv
      simp only [sccpVisitInstr, if_pos hv] at hτ ⊢
      rw [e.result_congr k σ τ hops, hτ, setValue_again]
    · simp [sccpVisitInstr, if_neg hv]
  phi_le p feasible σ v := by
    unfold sccpVisitPhi
    cases hφ : S.definitionPhi p with
    | none => exact le_rfl
    | some φ =>
      by_cases hv : v = p
      · subst hv
        simp only [update_self]
        exact setValue_le _ _
      · simp only [update_of_ne hv]
        exact le_rfl
  phi_frame p feasible σ v hv := by
    unfold sccpVisitPhi
    cases hφ : S.definitionPhi p with
    | none => rfl
    | some φ => exact update_of_ne hv _ _
  phi_again p φ feasible σ τ hφ hsources hp := by
    have hread : (feasibleSources φ feasible).map τ = (feasibleSources φ feasible).map σ :=
      List.map_congr_left fun v hv => hsources v (mem_sources_of_feasible hv)
    simp only [sccpVisitPhi, hφ, update_self] at hp ⊢
    rw [hread, hp, setValue_again, ← hp, update_eq_self]
  successors_mem := e.taken_mem
  successors_congr := e.taken_congr

end PhpInternals.Optimizer.Scdf

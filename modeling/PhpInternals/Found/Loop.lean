import Mathlib.Order.WellFounded
import Mathlib.Tactic

/-!
# Loops with a bound on their rounds
-/

namespace PhpInternals.Found

variable {σ : Type}

/-- A loop whose body returns the next state, or nothing when the loop is left. -/
def loop (body : σ → Option σ) : ℕ → σ → Option σ
  | 0, _ => none
  | n + 1, s => match body s with
    | none => some s
    | some s' => loop body n s'

lemma loop_total {body : σ → Option σ} {I : σ → Prop} {r : σ → σ → Prop} (hwf : WellFounded r)
    (hsp : ∀ s s', I s → body s = some s' → I s' ∧ r s' s) {s : σ} (hs : I s) :
    ∃ n s', (∀ k ≥ n, loop body k s = some s') ∧ I s' ∧ body s' = none := by
  induction s using hwf.induction with
  | h s ih =>
    cases hb : body s with
    | none =>
      refine ⟨1, s, fun k hk => ?_, hs, hb⟩
      obtain ⟨k, rfl⟩ : ∃ j, k = j + 1 := ⟨k - 1, by omega⟩
      rw [loop, hb]
    | some s1 =>
      obtain ⟨hs1, hlt⟩ := hsp s s1 hs hb
      obtain ⟨n, s', hl, hI, hen⟩ := ih s1 hlt hs1
      refine ⟨n + 1, s', fun k hk => ?_, hI, hen⟩
      obtain ⟨k, rfl⟩ : ∃ j, k = j + 1 := ⟨k - 1, by omega⟩
      rw [loop, hb]
      exact hl k (by omega)

/-! ## Loops with returns -/

variable {ε ρ : Type}

/-- A loop whose body fails, returns, or gives the next state; out of rounds, it fails with `stuck`.
-/
def loopReturn (stuck : ε) (body : σ → Except ε (ρ ⊕ σ)) : ℕ → σ → Except ε ρ
  | 0, _ => .error stuck
  | n + 1, s => match body s with
    | .error e => .error e
    | .ok (.inl r) => .ok r
    | .ok (.inr s') => loopReturn stuck body n s'

lemma loopReturn_total {stuck : ε} {body : σ → Except ε (ρ ⊕ σ)} {I : σ → Prop} {Post : ρ → Prop}
    (μ : σ → ℕ)
    (hsp : ∀ s, I s → (∃ r, body s = .ok (.inl r) ∧ Post r) ∨
      ∃ s', body s = .ok (.inr s') ∧ I s' ∧ μ s' < μ s)
    {n : ℕ} {s : σ} (hs : I s) (hn : μ s < n) :
    ∃ r, loopReturn stuck body n s = .ok r ∧ Post r := by
  induction n generalizing s with
  | zero => omega
  | succ n ih =>
    obtain ⟨r, hb, hp⟩ | ⟨s', hb, hs', hlt⟩ := hsp s hs
    · exact ⟨r, by rw [loopReturn, hb], hp⟩
    · obtain ⟨r, hrn, hp⟩ := ih hs' (by omega)
      exact ⟨r, by rw [loopReturn, hb]; exact hrn, hp⟩

lemma loopReturn_stuck {stuck : ε} {body : σ → Except ε (ρ ⊕ σ)} {s : σ} (h : body s = .ok (.inr s))
    (n : ℕ) : loopReturn stuck body n s = .error stuck := by
  induction n with
  | zero => rfl
  | succ n ih =>
    rw [loopReturn, h]
    exact ih

end PhpInternals.Found

import Mathlib.Tactic

/-!
# Recursive walks over a graph

A recursive function that enters a node, changes a state on the way and then calls itself on the
node's children. The calls still to be made, those of the callers included, form a stack, so that an
invariant of a walk is a predicate on a stack and a state.
-/

namespace PhpInternals.Found

variable {N σ ε : Type}

/-- `f` enters a node and then calls itself, one level deeper, on each of its children in order. -/
structure Walks (enter : N → σ → Except ε (σ × List N)) (f : ℕ → N → σ → Except ε σ) : Prop where
  succ : ∀ depth n s, f (depth + 1) n s =
    enter n s >>= fun r => r.2.foldlM (fun s c => f depth c s) r.1

namespace Walks

variable {enter : N → σ → Except ε (σ × List N)} {f : ℕ → N → σ → Except ε σ}
  {P : List N → σ → Prop} {μ : σ → ℕ}

lemma foldlM_total {g : σ → N → Except ε σ} {bound : ℕ}
    (hc : ∀ n pend s, μ s < bound → P (n :: pend) s →
      ∃ s', g s n = .ok s' ∧ P pend s' ∧ μ s' ≤ μ s) :
    ∀ (ns pend : List N) (s : σ), (ns ≠ [] → μ s < bound) → P (ns ++ pend) s →
      ∃ s', ns.foldlM g s = .ok s' ∧ P pend s' ∧ μ s' ≤ μ s
  | [], _, s, _, h => ⟨s, rfl, h, le_rfl⟩
  | n :: ns, pend, s, hlt, h => by
    have hs := hlt (List.cons_ne_nil n ns)
    obtain ⟨s1, hok1, hP1, hle1⟩ := hc n (ns ++ pend) s hs h
    obtain ⟨s2, hok2, hP2, hle2⟩ := foldlM_total hc ns pend s1 (fun _ => hle1.trans_lt hs) hP1
    refine ⟨s2, ?_, hP2, hle2.trans hle1⟩
    rw [List.foldlM_cons, hok1]
    exact hok2

lemma total (hf : Walks enter f)
    (hen : ∀ n pend s, P (n :: pend) s → ∃ s' cs, enter n s = .ok (s', cs) ∧
      P (cs ++ pend) s' ∧ μ s' ≤ μ s ∧ (cs ≠ [] → μ s' < μ s)) :
    ∀ (depth : ℕ) (n : N) (pend : List N) (s : σ), μ s < depth → P (n :: pend) s →
      ∃ s', f depth n s = .ok s' ∧ P pend s' ∧ μ s' ≤ μ s := by
  intro depth
  induction depth with
  | zero => exact fun _ _ _ hlt => absurd hlt (Nat.not_lt_zero _)
  | succ depth ih =>
    intro n pend s hlt h
    obtain ⟨s1, cs, hok, hP, hle, hdc⟩ := hen n pend s h
    -- every child is called with a smaller measure and one level less
    obtain ⟨s2, hok2, hP2, hle2⟩ := foldlM_total (g := fun s c => f depth c s) ih cs pend s1
      (fun hne => (hdc hne).trans_le (Nat.lt_succ_iff.mp hlt)) hP
    refine ⟨s2, ?_, hP2, hle2.trans hle⟩
    rw [hf.succ, hok]
    exact hok2

lemma total_list (hf : Walks enter f)
    (hen : ∀ n pend s, P (n :: pend) s → ∃ s' cs, enter n s = .ok (s', cs) ∧
      P (cs ++ pend) s' ∧ μ s' ≤ μ s ∧ (cs ≠ [] → μ s' < μ s))
    {depth : ℕ} (ns pend : List N) (s : σ) (hlt : ns ≠ [] → μ s < depth) (h : P (ns ++ pend) s) :
    ∃ s', ns.foldlM (fun s c => f depth c s) s = .ok s' ∧ P pend s' ∧ μ s' ≤ μ s :=
  foldlM_total (hf.total hen depth) ns pend s hlt h

lemma foldlM_preserves {g : σ → N → Except ε σ}
    (hc : ∀ n pend s s', P (n :: pend) s → g s n = .ok s' → P pend s') :
    ∀ (ns pend : List N) (s s' : σ), P (ns ++ pend) s → ns.foldlM g s = .ok s' → P pend s'
  | [], _, _, _, h, hok => Except.ok.inj hok ▸ h
  | n :: ns, pend, s, s', h, hok => by
    rw [List.foldlM_cons] at hok
    cases hg : g s n with
    | error e =>
      rw [hg] at hok
      cases hok
    | ok s1 =>
      rw [hg] at hok
      exact foldlM_preserves hc ns pend s1 s' (hc n (ns ++ pend) s s1 h hg) hok

lemma preserves (hf : Walks enter f) (hz : ∀ n s s', f 0 n s ≠ .ok s')
    (hen : ∀ n pend s s' cs, P (n :: pend) s → enter n s = .ok (s', cs) → P (cs ++ pend) s') :
    ∀ (depth : ℕ) (n : N) (pend : List N) (s s' : σ), P (n :: pend) s → f depth n s = .ok s' →
      P pend s' := by
  intro depth
  induction depth with
  | zero => exact fun n _ s s' _ hok => absurd hok (hz n s s')
  | succ depth ih =>
    intro n pend s s' h hok
    rw [hf.succ] at hok
    cases he : enter n s with
    | error e =>
      rw [he] at hok
      cases hok
    | ok r =>
      rw [he] at hok
      exact foldlM_preserves ih r.2 pend r.1 s' (hen n pend s r.1 r.2 h he) hok

end Walks

end PhpInternals.Found

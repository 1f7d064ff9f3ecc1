import Mathlib.Tactic

/-!
# Programs with a state that may fail

Total correctness for `StateT σ (Except ε)`: a program ends normally, and its result satisfies a
postcondition.
-/

namespace PhpInternals.Found

variable {σ ε β γ : Type}

/-- From `s` the program ends normally, with a value and in a state that satisfy `Q`. -/
def Ends (x : StateT σ (Except ε) β) (s : σ) (Q : β → σ → Prop) : Prop :=
  ∃ b s', x s = .ok (b, s') ∧ Q b s'

/-- A loop: `inl` goes on, `inr` leaves. -/
def iterate (outOfSteps : ε) (body : β → StateT σ (Except ε) (β ⊕ γ)) :
    ℕ → β → StateT σ (Except ε) γ
  | 0, _ => throw outOfSteps
  | n + 1, b => do
    match ← body b with
    | .inl b' => iterate outOfSteps body n b'
    | .inr c => pure c

variable {b : β} {g : σ → σ}

namespace Ends

variable {x : StateT σ (Except ε) β} {f : β → StateT σ (Except ε) γ} {s : σ} {Q : γ → σ → Prop}
  {P R : β → σ → Prop}

lemma pure (h : P b s) : Ends (Pure.pure b : StateT σ (Except ε) β) s P := ⟨b, s, rfl, h⟩

lemma mono (h : Ends x s P) (hi : ∀ b s', P b s' → R b s') : Ends x s R := by
  obtain ⟨b, s', hx, hP⟩ := h
  exact ⟨b, s', hx, hi b s' hP⟩

lemma bind (h : Ends x s P) (hf : ∀ b s', P b s' → Ends (f b) s' Q) : Ends (x >>= f) s Q := by
  obtain ⟨b, s', hx, hP⟩ := h
  obtain ⟨c, s'', hc, hQ⟩ := hf b s' hP
  refine ⟨c, s'', ?_, hQ⟩
  rw [← hc]
  change (x s >>= fun p => f p.1 p.2) = f b s'
  rw [hx]
  rfl

lemma step {s' : σ} (hx : x s = .ok (b, s')) (hf : Ends (f b) s' Q) : Ends (x >>= f) s Q :=
  bind (P := fun b' t => b' = b ∧ t = s') ⟨b, s', hx, rfl, rfl⟩ (by rintro _ _ ⟨rfl, rfl⟩; exact hf)

lemma get_bind {f : σ → StateT σ (Except ε) γ} (hf : Ends (f s) s Q) : Ends (get >>= f) s Q :=
  step rfl hf

lemma set_bind {t : σ} {f : PUnit → StateT σ (Except ε) γ} (hf : Ends (f ⟨⟩) t Q) :
    Ends (set t >>= f) s Q :=
  step rfl hf

lemma modify_bind {f : PUnit → StateT σ (Except ε) γ} (hf : Ends (f ⟨⟩) (g s) Q) :
    Ends (modify g >>= f) s Q :=
  step rfl hf

lemma ite {p : Prop} [Decidable p] {y : StateT σ (Except ε) β} (hps : p → Ends x s P)
    (hn : ¬ p → Ends y s P) : Ends (if p then x else y) s P := by
  split_ifs with h
  · exact hps h
  · exact hn h

variable {body : β → StateT σ (Except ε) (β ⊕ γ)} {outOfSteps : ε} {n : ℕ}

/-- **The rule for loops** with an auxiliary value next to the state: an invariant, and a measure of
the auxiliary value that goes down. -/
theorem iterate_aux {ι : Type} {I : ι → β → σ → Prop} {μ : ι → ℕ}
    (hbd : ∀ g b s, I g b s → Ends (body b) s fun r s' =>
      Sum.elim (fun b' => ∃ g', I g' b' s' ∧ μ g' < μ g) (fun c => Q c s') r)
    {g : ι} (hI : I g b s) (hn : μ g < n) :
    Ends (Found.iterate outOfSteps body n b) s Q := by
  induction n generalizing g b s with
  | zero => exact absurd hn (Nat.not_lt_zero _)
  | succ n ih =>
    refine (hbd g b s hI).bind fun r s' hr => ?_
    cases r with
    | inl b' =>
      obtain ⟨g', hI', hlt⟩ := hr
      exact ih hI' (by omega)
    | inr c => exact .pure hr

/-- **The rule for loops.** -/
theorem iterate {I : β → σ → Prop} {μ : β → σ → ℕ}
    (hbd : ∀ b s, I b s → Ends (body b) s fun r s' =>
      Sum.elim (fun b' => I b' s' ∧ μ b' s' < μ b s) (fun c => Q c s') r)
    (hI : I b s) (hn : μ b s < n) : Ends (Found.iterate outOfSteps body n b) s Q := by
  refine iterate_aux (I := fun m b s => I b s ∧ μ b s = m) (μ := fun m => m) ?_ ⟨hI, rfl⟩ hn
  rintro m b s ⟨hI, rfl⟩
  refine (hbd b s hI).mono fun r s' hr => ?_
  cases r with
  | inl b' => exact ⟨μ b' s', ⟨hr.1, rfl⟩, hr.2⟩
  | inr c => exact hr

end Ends

/-! ## Programs that may stop -/

/-- From `s` the program ends normally with `Q`, or it stops in a way that `E` allows. -/
def Yields (E : ε → Prop) (x : StateT σ (Except ε) β) (s : σ) (Q : β → σ → Prop) : Prop :=
  match x s with
  | .ok (b, s') => Q b s'
  | .error e => E e

namespace Yields

variable {E : ε → Prop} {x : StateT σ (Except ε) β} {f : β → StateT σ (Except ε) γ} {s : σ}
  {Q : γ → σ → Prop} {P : β → σ → Prop}

lemma pure (h : P b s) : Yields E (Pure.pure b : StateT σ (Except ε) β) s P := h

variable {e : ε}

lemma throw (h : E e) : Yields E (throw e : StateT σ (Except ε) β) s P := h

lemma bind (h : Yields E x s P) (hf : ∀ b s', P b s' → Yields E (f b) s' Q) :
    Yields E (x >>= f) s Q := by
  have heq : (x >>= f) s = x s >>= fun p => f p.1 p.2 := rfl
  unfold Yields at h hf ⊢
  rw [heq]
  cases hx : x s with
  | ok r =>
    rw [hx] at h
    exact hf r.1 r.2 h
  | error e =>
    rw [hx] at h
    exact h

lemma get_bind {f : σ → StateT σ (Except ε) γ} (hf : Yields E (f s) s Q) :
    Yields E (get >>= f) s Q := hf

lemma set_bind {t : σ} {f : PUnit → StateT σ (Except ε) γ} (hf : Yields E (f ⟨⟩) t Q) :
    Yields E (set t >>= f) s Q := hf

lemma modify_bind {f : PUnit → StateT σ (Except ε) γ} (hf : Yields E (f ⟨⟩) (g s) Q) :
    Yields E (modify g >>= f) s Q := hf

lemma modify {P : PUnit → σ → Prop} (h : P ⟨⟩ (g s)) :
    Yields E (modify g : StateT σ (Except ε) PUnit) s P := h

lemma ite {p : Prop} [Decidable p] {y : StateT σ (Except ε) β} (hps : p → Yields E x s P)
    (hn : ¬ p → Yields E y s P) : Yields E (if p then x else y) s P := by
  split_ifs with h
  · exact hps h
  · exact hn h

lemma of_ok {s' : σ} (h : Yields E x s P) (hx : x s = .ok (b, s')) : P b s' := by
  unfold Yields at h
  rwa [hx] at h

lemma of_error (h : Yields E x s P) (hx : x s = .error e) : E e := by
  unfold Yields at h
  rwa [hx] at h

end Yields

end PhpInternals.Found

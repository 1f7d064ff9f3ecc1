import Mathlib.Tactic

/-!
# Computations that may fail

How a sequence of fallible steps comes to return a value.
-/

namespace PhpInternals.Found

variable {ε α β : Type} {x : Except ε α} {b : β}

lemma bind_eq_ok_iff {f : α → Except ε β} : x >>= f = .ok b ↔ ∃ a, x = .ok a ∧ f a = .ok b := by
  cases x with
  | error e => exact ⟨nofun, nofun⟩
  | ok a => exact ⟨fun h => ⟨a, rfl, h⟩, fun ⟨_, ha, h⟩ => Except.ok.inj ha ▸ h⟩

lemma map_eq_ok_iff {f : α → β} : x.map f = .ok b ↔ ∃ a, x = .ok a ∧ f a = b := by
  cases x with
  | error e => exact ⟨nofun, nofun⟩
  | ok a => exact ⟨fun h => ⟨a, rfl, Except.ok.inj h⟩, fun ⟨_, ha, h⟩ => by cases ha; rw [← h]; rfl⟩

/-- With enough steps the computation returns `a`. -/
def Returns (f : ℕ → Except ε α) (a : α) : Prop :=
  ∃ m, ∀ steps ≥ m, f steps = .ok a

namespace Returns

variable {f : ℕ → Except ε α} {a : α}

lemma of_forall (h : ∀ steps, f steps = .ok a) : Returns f a := ⟨0, fun steps _ => h steps⟩

lemma of_succ (h : ∀ steps, f (steps + 1) = .ok a) : Returns f a := ⟨1, fun steps hs => by
    obtain ⟨k, rfl⟩ := Nat.exists_eq_add_of_le' hs
    exact h k⟩

lemma step {f' : ℕ → Except ε α} (h : Returns f a) (hf : ∀ steps, f' (steps + 1) = f steps) :
    Returns f' a := by
  obtain ⟨m, hm⟩ := h
  refine ⟨m + 1, fun steps hs => ?_⟩
  obtain ⟨k, rfl⟩ : ∃ k, steps = k + 1 := ⟨steps - 1, by omega⟩
  exact (hf k).trans (hm k (by omega))

lemma bind {g : α → ℕ → Except ε β} (h : Returns f a) (h' : Returns (g a) b) :
    Returns (fun steps => f steps >>= fun a => g a steps) b := by
  obtain ⟨m, hm⟩ := h
  obtain ⟨k, hk⟩ := h'
  refine ⟨max m k, fun steps hs => bind_eq_ok_iff.mpr ⟨a, hm steps ?_, hk steps ?_⟩⟩
  · exact le_trans (le_max_left m k) hs
  · exact le_trans (le_max_right m k) hs

lemma map {g : α → β} (h : Returns f a) : Returns (fun steps => (f steps).map g) (g a) := by
  obtain ⟨m, hm⟩ := h
  exact ⟨m, fun steps hs => map_eq_ok_iff.mpr ⟨a, hm steps hs, rfl⟩⟩

lemma unique {a' : α} (h : Returns f a) (h' : Returns f a') : a = a' := by
  obtain ⟨m, hm⟩ := h
  obtain ⟨k, hk⟩ := h'
  have h1 := hm (max m k) (le_max_left m k)
  rw [hk (max m k) (le_max_right m k)] at h1
  exact (Except.ok.inj h1).symm

end Returns

end PhpInternals.Found

import Mathlib.Algebra.BigOperators.Group.List.Basic
import Mathlib.Tactic

/-!
# Mixed radix

Numbers whose digits have radices of their own. A digit is a pair of its radix and its value, the
most significant one first.
-/

namespace PhpInternals.Found

/-- How many values digits of these radices can have. -/
def radixSize : List (ℕ × ℕ) → ℕ
  | [] => 1
  | p :: ps => p.1 * radixSize ps

/-- The value of the digits. -/
def radixValue : List (ℕ × ℕ) → ℕ
  | [] => 0
  | p :: ps => p.2 * radixSize ps + radixValue ps

@[simp] lemma radixSize_append (ps qs : List (ℕ × ℕ)) :
    radixSize (ps ++ qs) = radixSize ps * radixSize qs := by
  induction ps with
  | nil => simp [radixSize]
  | cons p ps ih => simp [radixSize, ih, mul_assoc]

lemma radixValue_append (ps qs : List (ℕ × ℕ)) :
    radixValue (ps ++ qs) = radixValue ps * radixSize qs + radixValue qs := by
  induction ps with
  | nil => simp [radixValue]
  | cons p ps ih =>
    simp only [List.cons_append, radixValue, radixSize_append, ih]
    ring

variable {ps : List (ℕ × ℕ)}

lemma radixValue_of_max (h : ∀ p ∈ ps, p.2 + 1 = p.1) : radixValue ps + 1 = radixSize ps := by
  induction ps with
  | nil => rfl
  | cons p ps ih =>
    rw [List.forall_mem_cons] at h
    simp only [radixValue, radixSize]
    rw [← h.1, add_assoc, ih h.2, add_mul, one_mul]

lemma radixValue_of_zero (h : ∀ p ∈ ps, p.2 = 0) : radixValue ps = 0 := by
  induction ps with
  | nil => rfl
  | cons p ps ih =>
    rw [List.forall_mem_cons] at h
    simp [radixValue, h.1, ih h.2]

lemma radixSize_congr {qs : List (ℕ × ℕ)} (h : ps.map Prod.fst = qs.map Prod.fst) :
    radixSize ps = radixSize qs := by
  have hp : ∀ rs : List (ℕ × ℕ), radixSize rs = (rs.map Prod.fst).prod := by
    intro rs
    induction rs with
    | nil => rfl
    | cons r rs ih => simp [radixSize, ih]
  rw [hp, hp, h]

lemma radixValue_lt (h : ∀ p ∈ ps, p.2 < p.1) : radixValue ps < radixSize ps := by
  induction ps with
  | nil => exact one_pos
  | cons p ps ih =>
    rw [List.forall_mem_cons] at h
    have hps := ih h.2
    calc p.2 * radixSize ps + radixValue ps
        < p.2 * radixSize ps + radixSize ps := by omega
      _ = (p.2 + 1) * radixSize ps := by ring
      _ ≤ p.1 * radixSize ps := Nat.mul_le_mul_right _ h.1

lemma radixValue_carry (ps : List (ℕ × ℕ)) (r d : ℕ) {top zero : List (ℕ × ℕ)}
    (htp : ∀ p ∈ top, p.2 + 1 = p.1) (hz : ∀ p ∈ zero, p.2 = 0)
    (hr : zero.map Prod.fst = top.map Prod.fst) :
    radixValue (ps ++ (r, d + 1) :: zero) = radixValue (ps ++ (r, d) :: top) + 1 := by
  have hs := radixSize_congr hr
  have hm := radixValue_of_max htp
  simp only [radixValue_append, radixValue, radixSize, radixValue_of_zero hz, hs]
  rw [add_assoc, add_assoc, hm]
  ring

/-- Either all elements have a property, or the list splits behind the last one without it. -/
lemma all_or_last_not {α : Type*} (p : α → Prop) [DecidablePred p] (l : List α) :
    (∀ a ∈ l, p a) ∨ ∃ front a back, l = front ++ a :: back ∧ ¬ p a ∧ ∀ b ∈ back, p b := by
  induction l with
  | nil => exact .inl nofun
  | cons a l ih =>
    rcases ih with hal | ⟨front, b, back, rfl, hb, hbc⟩
    · by_cases ha : p a
      · exact .inl (List.forall_mem_cons.mpr ⟨ha, hal⟩)
      · exact .inr ⟨[], a, l, rfl, ha, hal⟩
    · exact .inr ⟨a :: front, b, back, rfl, hb, hbc⟩

end PhpInternals.Found

import Mathlib.Tactic

/-!
# Writing into a sequence at an offset
-/

namespace PhpInternals.Found

open List

variable {α : Type}

/-- `l` with `bs` written at `i`; a gap between the end of `l` and `i` is filled with `pad`. Writing
nothing leaves `l` as it is. -/
def overwrite (pad : α) (l : List α) (i : ℕ) (bs : List α) : List α :=
  if bs.isEmpty then l else l.take i ++ replicate (i - l.length) pad ++ bs ++ l.drop (i + bs.length)

variable {pad : α} {l as bs : List α} {i r w : ℕ}

@[simp]
lemma overwrite_nil : overwrite pad l i [] = l := rfl

lemma overwrite_of_ne_nil (h : bs ≠ []) : overwrite pad l i bs =
    l.take i ++ replicate (i - l.length) pad ++ bs ++ l.drop (i + bs.length) := by
  rw [overwrite, if_neg (by simpa using h)]

lemma length_take_pad : (l.take i ++ replicate (i - l.length) pad).length = i := by
  simp only [length_append, length_take, length_replicate]
  omega

lemma length_overwrite (h : bs ≠ []) :
    (overwrite pad l i bs).length = max l.length (i + bs.length) := by
  rw [overwrite_of_ne_nil h, append_assoc, length_append, length_take_pad]
  simp only [length_append, length_drop]
  omega

lemma overwrite_append : overwrite pad (overwrite pad l i as) (i + as.length) bs =
    overwrite pad l i (as ++ bs) := by
  by_cases has : as = []
  · simp [has]
  by_cases hbs : bs = []
  · simp [hbs]
  have hne : as ++ bs ≠ [] := by simp [has]
  have hln : (overwrite pad l i as).length = max l.length (i + as.length) := length_overwrite has
  rw [overwrite_of_ne_nil hbs, overwrite_of_ne_nil hne, hln]
  have hg : i + as.length - max l.length (i + as.length) = 0 := by omega
  have hf : (overwrite pad l i as).take (i + as.length) =
      l.take i ++ replicate (i - l.length) pad ++ as := by
    rw [overwrite_of_ne_nil has]
    exact take_left' (by rw [length_append, length_take_pad])
  have hrs : (overwrite pad l i as).drop (i + as.length + bs.length) =
      l.drop (i + (as ++ bs).length) := by
    rw [overwrite_of_ne_nil has, ← drop_drop, drop_left'
      (by rw [length_append, length_take_pad]), drop_drop, length_append,
      Nat.add_assoc]
  rw [hf, hrs]
  simp

/-- **A write at the end of a window extends it.** -/
theorem take_drop_overwrite (hrw : r ≤ w) (hw : w ≤ l.length) :
    ((overwrite pad l w bs).drop r).take (w + bs.length - r) = (l.drop r).take (w - r) ++ bs := by
  by_cases hbs : bs = []
  · simp [hbs]
  have hg : w - l.length = 0 := by omega
  rw [overwrite_of_ne_nil hbs, hg, replicate_zero, append_nil, append_assoc,
    drop_append_of_le_length (by rw [length_take]; omega), drop_take,
    ← append_assoc]
  exact take_left' (by simp only [length_append, length_take, length_drop]; omega)

end PhpInternals.Found

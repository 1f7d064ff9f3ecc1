import PhpInternals.Found.Overwrite

/-!
# Sequences of frames

A reader of one frame, applied until the input is used up, takes a sequence of encoded frames apart
again.
-/

namespace PhpInternals.Found

open List

variable {α β : Type}

/-- The `n` elements from position `i`. -/
def slice (l : List α) (i n : ℕ) : List α := (l.drop i).take n

variable {l bs : List α} {pad : α} {i j m n : ℕ}

lemma slice_zero : slice l 0 n = l.take n := by
  rw [slice, drop_zero]

lemma slice_add : slice l i (m + n) = slice l i m ++ slice l (i + m) n := by
  rw [slice, slice, slice, take_add, drop_drop]

lemma length_slice (h : i + n ≤ l.length) : (slice l i n).length = n := by
  rw [slice, length_take, length_drop]
  omega

section

variable (h : i + bs.length ≤ l.length)
include h

lemma overwrite_of_le : overwrite pad l i bs = l.take i ++ bs ++ l.drop (i + bs.length) := by
  by_cases hbs : bs = []
  · simp [hbs]
  · have hg : i - l.length = 0 := by omega
    rw [overwrite_of_ne_nil hbs, hg, replicate_zero, append_nil]

lemma length_overwrite_of_le : (overwrite pad l i bs).length = l.length := by
  rw [overwrite_of_le h]
  simp only [length_append, length_take, length_drop]
  omega

lemma slice_overwrite_self : slice (overwrite pad l i bs) i bs.length = bs := by
  have htk : (l.take i).length = i := by rw [length_take]; omega
  rw [overwrite_of_le h, slice, append_assoc, drop_left' htk, take_left]

lemma slice_overwrite_before (hj : j + n ≤ i) : slice (overwrite pad l i bs) j n = slice l j n := by
  have hln : (l.take i).length = i := by rw [length_take]; omega
  rw [overwrite_of_le h, slice, slice, append_assoc,
    drop_append_of_le_length (by omega), take_append_of_le_length
      (by rw [length_drop]; omega), drop_take, take_take, min_eq_left (by omega)]

lemma slice_overwrite_after (hj : i + bs.length ≤ j) :
    slice (overwrite pad l i bs) j n = slice l j n := by
  have hln : (l.take i ++ bs).length = i + bs.length := by
    rw [length_append, length_take]
    omega
  obtain ⟨k, rfl⟩ := Nat.exists_eq_add_of_le hj
  rw [overwrite_of_le h, slice, slice, ← drop_drop, drop_left' hln, drop_drop]

end

/-! ## Reading frames -/

/-- The frames of an input: `read` takes one frame off its front. `none` if `read` fails, or if `n`
frames are not enough. -/
def readAll (read : List α → Option (β × List α)) : ℕ → List α → Option (List β)
  | _, [] => some []
  | 0, _ :: _ => none
  | n + 1, a :: as =>
    match read (a :: as) with
    | none => none
    | some (b, rest) => (readAll read n rest).map (b :: ·)

lemma readAll_flatMap {read : List α → Option (β × List α)} {encode : β → List α} {frames : List β}
    (hr : ∀ b ∈ frames, ∀ rest, read (encode b ++ rest) = some (b, rest))
    (hne : ∀ b ∈ frames, encode b ≠ []) (hn : (frames.flatMap encode).length ≤ n) :
    readAll read n (frames.flatMap encode) = some frames := by
  induction frames generalizing n with
  | nil => cases n <;> rfl
  | cons b frames ih =>
    have hf : encode b ≠ [] := hne b mem_cons_self
    rw [flatMap_cons] at hn ⊢
    have hs := hr b mem_cons_self (frames.flatMap encode)
    cases hb : encode b with
    | nil => exact absurd hb hf
    | cons a as =>
      rw [hb] at hn hs
      rw [length_append, length_cons] at hn
      obtain ⟨k, rfl⟩ : ∃ k, n = k + 1 := ⟨n - 1, by omega⟩
      have hrs : readAll read k (frames.flatMap encode) = some frames :=
        ih (fun c hc => hr c (mem_cons_of_mem _ hc))
          (fun c hc => hne c (mem_cons_of_mem _ hc)) (by omega)
      rw [cons_append] at hs ⊢
      simp [readAll, hs, hrs]

end PhpInternals.Found

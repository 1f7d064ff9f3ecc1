import Mathlib.Order.Bounds.Basic
import Mathlib.Order.MinMax
import Mathlib.Tactic.SplitIfs

/-!
# Levenshtein distance

Embedding of `reference_levdist` (`ext/standard/levenshtein.c`). The rows are functions of which the
first `l2 + 1` values are used; costs and sums are natural numbers, as long as none overflows.
-/

namespace PhpInternals.Ext.Standard

open Function Nat List

/-- The costs of an insertion, a replacement and a deletion. -/
structure EditCosts where
  ins : ℕ
  rep : ℕ
  del : ℕ

/-- The inner loop, for the byte `ch` of `s1` and the rest of `s2` from `i2`. -/
def levdistRow (c : EditCosts) (ch : UInt8) (p1 : ℕ → ℕ) : List UInt8 → ℕ → (ℕ → ℕ) → ℕ → ℕ
  | [], _, p2 => p2
  | b :: s2, i2, p2 =>
    let c0 := p1 i2 + if ch = b then 0 else c.rep
    let c1 := p1 (i2 + 1) + c.del
    let c0 := if c1 < c0 then c1 else c0
    let c2 := p2 i2 + c.ins
    let c0 := if c2 < c0 then c2 else c0
    levdistRow c ch p1 s2 (i2 + 1) (update p2 (i2 + 1) c0)

/-- The outer loop; the rows are swapped. -/
def levdistRows (c : EditCosts) (s2 : List UInt8) : List UInt8 → (ℕ → ℕ) → (ℕ → ℕ) → ℕ → ℕ
  | [], p1, _ => p1
  | ch :: s1, p1, p2 =>
    levdistRows c s2 s1 (levdistRow c ch p1 s2 0 (update p2 0 (p1 0 + c.del))) p1

/-- `reference_levdist`, with the contents of the allocated second row. -/
def referenceLevdist (c : EditCosts) (s1 s2 : List UInt8) (p2 : ℕ → ℕ) : ℤ :=
  if s1.length = 0 then s2.length * c.ins
  else if s2.length = 0 then s1.length * c.del
  else if 255 < s1.length ∨ 255 < s2.length then -1
  else levdistRows c s2 s1 (· * c.ins) p2 s2.length

/-! ## Edit scripts -/

/-- The string can be turned into another one by edits of this total cost, at any places in any
order. -/
inductive Edits (c : EditCosts) (s : List UInt8) : List UInt8 → ℕ → Prop
  | refl : Edits c s s 0
  | ins {l r n} (b : UInt8) : Edits c s (l ++ r) n → Edits c s (l ++ b :: r) (n + c.ins)
  | del {l r n} {b : UInt8} : Edits c s (l ++ b :: r) n → Edits c s (l ++ r) (n + c.del)
  | rep {l r n} {a : UInt8} (b : UInt8) : Edits c s (l ++ a :: r) n →
    Edits c s (l ++ b :: r) (n + c.rep)

variable {c : EditCosts} {x y s t : List UInt8} {n : ℕ}

lemma Edits.cons (a : UInt8) (h : Edits c s t n) : Edits c (a :: s) (a :: t) n := by
  induction h with
  | refl => exact .refl
  | ins b _ ih => exact ih.ins (l := a :: _) b
  | del _ ih => exact ih.del (l := a :: _)
  | rep b _ ih => exact ih.rep (l := a :: _) b

lemma Edits.reverse (h : Edits c s t n) : Edits c s.reverse t.reverse n := by
  induction h with
  | refl => exact .refl
  | ins b _ ih =>
    simp only [reverse_append, reverse_cons, append_assoc] at ih ⊢
    exact ih.ins b
  | del _ ih =>
    simp only [reverse_append, reverse_cons, append_assoc] at ih ⊢
    exact ih.del
  | rep b _ ih =>
    simp only [reverse_append, reverse_cons, append_assoc] at ih ⊢
    exact ih.rep b

/-! ## The distance of two strings -/

/-- The entry of the table for two prefixes, read from their ends. -/
def distance (c : EditCosts) : List UInt8 → List UInt8 → ℕ
  | [], y => y.length * c.ins
  | _ :: x, [] => distance c x [] + c.del
  | a :: x, b :: y => min (min (distance c x y + if a = b then 0 else c.rep)
      (distance c x (b :: y) + c.del)) (distance c (a :: x) y + c.ins)

lemma distance_nil (x : List UInt8) : distance c x [] = x.length * c.del := by
  induction x with
  | nil => simp [distance]
  | cons a x ih => rw [distance, ih, length_cons, succ_mul]

/-- The recursive distance is the cost of some edits. -/
lemma edits_distance (c : EditCosts) : ∀ x y, Edits c x y (distance c x y)
  | [], [] => by simpa [distance] using Edits.refl
  | [], b :: y => by
    have h := (edits_distance c [] y).ins (l := []) b
    simpa [distance, succ_mul] using h
  | a :: x, [] => by
    rw [distance]
    exact ((edits_distance c x []).cons a).del (l := [])
  | a :: x, b :: y => by
    unfold distance
    rcases min_choice (min (distance c x y + if a = b then 0 else c.rep)
      (distance c x (b :: y) + c.del)) (distance c (a :: x) y + c.ins) with h | h
    · rw [h]
      rcases min_choice (distance c x y + if a = b then 0 else c.rep)
        (distance c x (b :: y) + c.del) with h | h
      · rw [h]
        have hc := (edits_distance c x y).cons a
        split_ifs with hab
        · rw [← hab]
          exact hc
        · exact hc.rep (l := []) b
      · rw [h]
        exact ((edits_distance c x (b :: y)).cons a).del (l := [])
    · rw [h]
      exact (edits_distance c (a :: x) y).ins (l := []) b

lemma distance_cons_left (a : UInt8) (x y : List UInt8) :
    distance c (a :: x) y ≤ distance c x y + c.del := by
  cases y with
  | nil => rw [distance]
  | cons b y =>
    rw [distance]
    exact (min_le_left _ _).trans (min_le_right _ _)

lemma distance_cons_right (b : UInt8) (x y : List UInt8) :
    distance c x (b :: y) ≤ distance c x y + c.ins := by
  cases x with
  | nil => simp only [distance, length_cons, succ_mul, le_refl]
  | cons a x =>
    rw [distance]
    exact min_le_right _ _

lemma distance_self (x : List UInt8) : distance c x x = 0 := by
  induction x with
  | nil => simp [distance]
  | cons a x ih => simp [distance, ih]

/-- Edits keep their cost behind a byte. -/
lemma distance_cons_congr {k : ℕ} (h : ∀ x, distance c x s ≤ distance c x t + k) (b : UInt8) :
    ∀ x, distance c x (b :: s) ≤ distance c x (b :: t) + k := by
  intro x
  induction x with
  | nil =>
    have := h []
    simp only [distance, length_cons, succ_mul] at this ⊢
    omega
  | cons a x ih =>
    have h1 := h x
    have h2 := h (a :: x)
    simp only [distance]
    omega

lemma distance_append_congr {k : ℕ} (h : ∀ x, distance c x s ≤ distance c x t + k)
    (l : List UInt8) : ∀ x, distance c x (l ++ s) ≤ distance c x (l ++ t) + k := by
  induction l with
  | nil => exact h
  | cons b l ih => exact distance_cons_congr ih b

lemma distance_drop (b : UInt8) (y : List UInt8) : ∀ x,
    distance c x y ≤ distance c x (b :: y) + c.del := by
  intro x
  induction x with
  | nil =>
    simp only [distance, length_cons, succ_mul]
    omega
  | cons a x ih =>
    have h := distance_cons_left (c := c) a x y
    rw [distance.eq_3]
    omega

lemma distance_replace (a b : UInt8) (y : List UInt8) : ∀ x,
    distance c x (b :: y) ≤ distance c x (a :: y) + c.rep := by
  intro x
  induction x with
  | nil => simp [distance]
  | cons d x ih =>
    simp only [distance]
    split_ifs <;> omega

/-- No script is cheaper. -/
lemma Edits.distance_le (h : Edits c s t n) : distance c s t ≤ n := by
  induction h with
  | refl => exact (distance_self s).le
  | ins b _ ih =>
    exact (distance_append_congr (distance_cons_right b · _) _ s).trans (Nat.add_le_add_right ih _)
  | del _ ih =>
    exact (distance_append_congr (distance_drop _ _) _ s).trans (Nat.add_le_add_right ih _)
  | rep b _ ih =>
    exact (distance_append_congr (distance_replace _ b _) _ s).trans (Nat.add_le_add_right ih _)

/-! ## The rows -/

/-- The row of the prefix `x`, read from its end, is filled up to `i`. -/
def Filled (c : EditCosts) (s2 x : List UInt8) (i : ℕ) (p : ℕ → ℕ) : Prop :=
  ∀ j ≤ i, p j = distance c x (take j s2).reverse

variable {s1 s2 rest : List UInt8} {ch : UInt8} {p1 p2 : ℕ → ℕ} {i2 : ℕ}

lemma levdistRow_filled (h1 : Filled c s2 x s2.length p1) (hr : drop i2 s2 = rest)
    (hi : i2 ≤ s2.length) (h2 : Filled c s2 (ch :: x) i2 p2) :
    Filled c s2 (ch :: x) s2.length (levdistRow c ch p1 rest i2 p2) := by
  induction rest generalizing i2 p2 with
  | nil =>
    rw [le_antisymm (drop_eq_nil_iff.mp hr) hi]
    exact h2
  | cons b rest ih =>
    have hlt : i2 < s2.length := by
      by_contra hge
      rw [drop_eq_nil_of_le (by omega)] at hr
      cases hr
    have htk : (take (i2 + 1) s2).reverse = b :: (take i2 s2).reverse := by
      rw [take_add_one, ← head?_drop, hr]
      simp
    rw [levdistRow]
    refine ih (by rw [← tail_drop, hr]; rfl) hlt fun j hj => ?_
    by_cases heq : j = i2 + 1
    · rw [heq, update_self, htk, distance, ← htk, ← h1 (i2 + 1) hlt, ← h1 i2 hi, ← h2 i2 le_rfl]
      split_ifs <;> omega
    · rw [update_of_ne heq]
      exact h2 j (by omega)

/-- Each row of the table has the distances of a longer text. -/
lemma levdistRows_filled (h1 : Filled c s2 x s2.length p1) :
    Filled c s2 (s1.reverse ++ x) s2.length (levdistRows c s2 s1 p1 p2) := by
  induction s1 generalizing x p1 p2 with
  | nil => exact h1
  | cons ch s1 ih =>
    rw [reverse_cons, append_assoc, singleton_append]
    apply ih
    refine levdistRow_filled h1 rfl (zero_le _) fun j hj => ?_
    rw [le_zero.mp hj, update_self, h1 0 (zero_le _), take_zero, reverse_nil, distance]

/-- **The distance is optimal.** Some script has the cost that is returned, and none a smaller one.
-/
theorem referenceLevdist_isLeast (c : EditCosts) (s1 s2 : List UInt8) (p2 : ℕ → ℕ)
    (h1 : s1.length ≤ 255) (h2 : s2.length ≤ 255) :
    ∃ n : ℕ, referenceLevdist c s1 s2 p2 = n ∧ IsLeast {m | Edits c s1 s2 m} n := by
  refine ⟨distance c s1.reverse s2.reverse, ?_, ?_, fun m hm => hm.reverse.distance_le⟩
  · unfold referenceLevdist
    split_ifs with hnl hnl' hl
    · rw [length_eq_zero_iff.mp hnl, reverse_nil, distance, length_reverse]
      norm_cast
    · rw [length_eq_zero_iff.mp hnl', reverse_nil, distance_nil, length_reverse]
      norm_cast
    · omega
    · have hr : Filled c s2 [] s2.length (· * c.ins) := by
        intro j hj
        rw [distance, length_reverse, length_take, min_eq_left hj]
      rw [levdistRows_filled hr _ le_rfl, append_nil, take_length]
  · have h := (edits_distance c s1.reverse s2.reverse).reverse
    rwa [reverse_reverse, reverse_reverse] at h

/-- Two letters against one. -/
theorem referenceLevdist_isLeast_ab :
    ∃ n : ℕ, referenceLevdist ⟨1, 1, 1⟩ [0x61, 0x62] [0x62] (fun _ => 0) = n ∧
      IsLeast {m | Edits ⟨1, 1, 1⟩ [0x61, 0x62] [0x62] m} n :=
  referenceLevdist_isLeast ⟨1, 1, 1⟩ [0x61, 0x62] [0x62] _ (by decide) (by decide)

end PhpInternals.Ext.Standard

import Mathlib.Data.List.Infix
import PhpInternals.Found.Loop

/-!
# Occurrences of a substring, and searches by windows

Positions are integers, so that a search may step over either end of the text. A search from the
front and one from the back differ in the order of the positions.
-/

namespace PhpInternals.Found

variable {α : Type} {needle text : List α} {p q : ℤ}

/-- The needle stands at position `p` of the text. -/
def OccursAt (needle text : List α) (p : ℤ) : Prop := 0 ≤ p ∧ needle <+: text.drop p.toNat

instance [DecidableEq α] : Decidable (OccursAt needle text p) := inferInstanceAs (Decidable (_ ∧ _))

/-- The occurrence that no other one is before, or nothing when there is none. -/
def IsNearest (before : ℤ → ℤ → Prop) (needle text : List α) : Option ℤ → Prop
  | none => ∀ p, ¬ OccursAt needle text p
  | some p => OccursAt needle text p ∧ ∀ q, before q p → ¬ OccursAt needle text q

/-- The first occurrence. -/
abbrev IsFirst : List α → List α → Option ℤ → Prop := IsNearest (· < ·)

/-- The last occurrence. -/
abbrev IsLast : List α → List α → Option ℤ → Prop := IsNearest (· > ·)

lemma IsNearest.unique {before : ℤ → ℤ → Prop} [IsStrictTotalOrder ℤ before] {r r' : Option ℤ}
    (h : IsNearest before needle text r) (h' : IsNearest before needle text r') : r = r' := by
  cases r with
  | none =>
    cases r' with
    | none => rfl
    | some p => exact absurd h'.1 (h p)
  | some p =>
    cases r' with
    | none => exact absurd h.1 (h' p)
    | some q =>
      rcases trichotomous_of before p q with hlt | heq | hlt
      · exact absurd h.1 (h'.2 p hlt)
      · exact congrArg some heq
      · exact absurd h'.1 (h.2 q hlt)

lemma OccursAt.add_length_le (hne : needle ≠ []) (h : OccursAt needle text p) :
    p + needle.length ≤ text.length := by
  have hl := h.2.length_le
  have hps := List.length_pos_iff_ne_nil.mpr hne
  rw [List.length_drop] at hl
  omega

lemma not_occursAt_of_short (hne : needle ≠ []) (hlt : text.length < needle.length) :
    ¬ OccursAt needle text p := fun ho => by
  have := ho.add_length_le hne
  have := ho.1
  omega

lemma OccursAt.getElem?_eq (h : OccursAt needle text p) {k : ℕ} (hk : k < needle.length) :
    text[(p + k).toNat]? = needle[k]? := by
  obtain ⟨hp, back, hb⟩ := h
  have ha : (p + k).toNat = p.toNat + k := by omega
  rw [ha, ← List.getElem?_drop, ← hb, List.getElem?_append_left hk]

/-! ## Shifts -/

/-- **The shift forward.** No occurrence starts between the window at `p` and the window that lays
the character behind it over its last place in the needle. -/
theorem not_occursAt_of_shift {c : α} {shift : ℕ} (hc : text[(p + needle.length).toNat]? = some c)
    (hs : ∀ k, needle[k]? = some c → shift ≤ needle.length - k)
    (hm : shift ≤ needle.length + 1) (hl : p < q) (hh : q < p + shift) :
    ¬ OccursAt needle text q := by
  intro ho
  obtain ⟨k, hk⟩ : ∃ k : ℕ, q + k = p + needle.length := ⟨(p + needle.length - q).toNat, by omega⟩
  have hg := ho.getElem?_eq (k := k) (by omega)
  rw [hk, hc] at hg
  have := hs k hg.symm
  omega

lemma not_occursAt_of_shift_back {c : α} {shift : ℕ} (hc : text[(p - 1).toNat]? = some c)
    (hs : ∀ k, needle[k]? = some c → shift ≤ k + 1)
    (hm : shift ≤ needle.length + 1) (hl : p - shift < q) (hh : q < p) :
    ¬ OccursAt needle text q := by
  intro ho
  obtain ⟨k, hk⟩ : ∃ k : ℕ, q + k = p - 1 := ⟨(p - 1 - q).toNat, by omega⟩
  have hg := ho.getElem?_eq (k := k) (by omega)
  rw [hk, hc] at hg
  have := hs k hg.symm
  omega

/-! ## Searches by windows -/

/-- The windows that a search comes to; it goes on from those where the needle does not stand. -/
inductive Visits (needle text : List α) (next : ℤ → Option ℤ) (start : ℤ) : ℤ → Prop
  | start : Visits needle text next start start
  | next {p q : ℤ} : Visits needle text next start p → ¬ OccursAt needle text p → next p = some q →
    Visits needle text next start q

/-- Every window is followed by one further on, and no occurrence lies between the two. -/
def Thorough (before : ℤ → ℤ → Prop) (needle text : List α) (next : ℤ → Option ℤ) (start : ℤ) :
    Prop :=
  ∀ p q, Visits needle text next start p → ¬ OccursAt needle text p → next p = some q →
    before p q ∧ ∀ j, before p j → before j q → ¬ OccursAt needle text j

/-- A loop that looks at windows: it returns at an occurrence, moves on to the next window, and ends
where all occurrences are behind it. -/
structure WindowSearch {ε : Type} (before : ℤ → ℤ → Prop) (needle text : List α)
    (next : ℤ → Option ℤ)
    (start : ℤ) (round : ℤ → Except ε (Option ℤ ⊕ ℤ)) (μ : ℤ → ℕ) : Prop where
  starts : ∀ j, OccursAt needle text j → ¬ before j start
  found : ∀ p, Visits needle text next start p → OccursAt needle text p →
    round p = .ok (.inl (some p))
  moves : ∀ p q, Visits needle text next start p → ¬ OccursAt needle text p → next p = some q →
    round p = .ok (.inr q) ∧ ¬ before q p ∧ (before p q → μ q < μ p)
  ends : ∀ p, Visits needle text next start p → ¬ OccursAt needle text p → next p = none →
    round p = .ok (.inl none) ∧ ∀ j, OccursAt needle text j → before j p

section
variable {ε : Type} {before : ℤ → ℤ → Prop} [IsStrictTotalOrder ℤ before] {next : ℤ → Option ℤ}
  {start : ℤ} {round : ℤ → Except ε (Option ℤ ⊕ ℤ)} {μ : ℤ → ℕ} {stuck : ε} {n : ℕ} {r : Option ℤ}
  (h : WindowSearch before needle text next start round μ)
include h

lemma WindowSearch.nearest (ht : Thorough before needle text next start) (hn : μ start < n) :
    ∃ r, loopReturn stuck round n start = .ok r ∧ IsNearest before needle text r := by
  refine loopReturn_total (I := fun p => Visits needle text next start p ∧
    ∀ j, before j p → ¬ OccursAt needle text j) μ ?_ ⟨.start, fun j hj ho => h.starts j ho hj⟩ hn
  rintro p ⟨hv, hb⟩
  by_cases ho : OccursAt needle text p
  · exact .inl ⟨some p, h.found p hv ho, ho, hb⟩
  cases hq : next p with
  | none =>
    obtain ⟨hr, hbh⟩ := h.ends p hv ho hq
    exact .inl ⟨none, hr, fun j hj => hb j (hbh j hj) hj⟩
  | some q =>
    obtain ⟨hpq, hbt⟩ := ht p q hv ho hq
    obtain ⟨hr, -, hμ⟩ := h.moves p q hv ho hq
    refine .inr ⟨q, hr, ⟨.next hv ho hq, fun j hj => ?_⟩, hμ hpq⟩
    rcases trichotomous_of before j p with hlt | rfl | hgt
    · exact hb j hlt
    · exact ho
    · exact hbt j hgt hj

omit [IsStrictTotalOrder ℤ before] in
/-- A run that returns, seen from a window it came to. -/
lemma WindowSearch.returns_from (hr : loopReturn stuck round n start = .ok r)
    (hv : Visits needle text next start p) : ∃ m, loopReturn stuck round m p = .ok r := by
  induction hv with
  | start => exact ⟨n, hr⟩
  | next hv ho hq ih =>
    obtain ⟨m, hm⟩ := ih
    cases m with
    | zero => cases hm
    | succ m =>
      rw [loopReturn, (h.moves _ _ hv ho hq).1] at hm
      exact ⟨m, hm⟩

/-- What is found is not behind the window at hand. -/
lemma WindowSearch.not_before {x : ℤ} (hv : Visits needle text next start p)
    (hr : loopReturn stuck round n p = .ok (some x)) : ¬ before x p := by
  induction n generalizing p with
  | zero => cases hr
  | succ n ih =>
    by_cases ho : OccursAt needle text p
    · rw [loopReturn, h.found p hv ho] at hr
      cases hr
      exact irrefl_of before _
    cases hq : next p with
    | none =>
      rw [loopReturn, (h.ends p hv ho hq).1] at hr
      cases hr
    | some q =>
      obtain ⟨hm, hqp, -⟩ := h.moves p q hv ho hq
      rw [loopReturn, hm] at hr
      intro hxp
      rcases trichotomous_of before p q with hlt | rfl | hgt
      · exact ih (.next hv ho hq) hr (trans_of before hxp hlt)
      · exact ih hv hr hxp
      · exact hqp hgt

omit [IsStrictTotalOrder ℤ before] in
lemma WindowSearch.ne_of_returns (hr : loopReturn stuck round n start = .ok r)
    (hv : Visits needle text next start p) (ho : ¬ OccursAt needle text p) : next p ≠ some p := by
  intro hq
  obtain ⟨m, hm⟩ := h.returns_from hr hv
  rw [loopReturn_stuck (h.moves p p hv ho hq).1] at hm
  cases hm

/-- **A search by windows finds the nearest occurrence exactly if it is thorough.** -/
theorem WindowSearch.nearest_iff (hn : μ start < n) :
    (∃ r, loopReturn stuck round n start = .ok r ∧ IsNearest before needle text r) ↔
      Thorough before needle text next start := by
  refine ⟨?_, fun ht => h.nearest ht hn⟩
  rintro ⟨r, hr, hnr⟩ p q hv ho hq
  have hpq : before p q := by
    rcases trichotomous_of before p q with hlt | rfl | hgt
    · exact hlt
    · exact absurd hq (h.ne_of_returns hr hv ho)
    · exact absurd hgt (h.moves p q hv ho hq).2.1
  refine ⟨hpq, fun j _ hjq hj => ?_⟩
  cases r with
  | none => exact hnr j hj
  | some x =>
    have hvq := hv.next ho hq
    obtain ⟨m, hm⟩ := h.returns_from hr hvq
    rcases trichotomous_of before x j with hlt | rfl | hgt
    · exact h.not_before hvq hm (trans_of before hlt hjq)
    · exact h.not_before hvq hm hjq
    · exact hnr.2 j hgt hj

end

end PhpInternals.Found

import Mathlib.Logic.Relation
import Mathlib.Order.WellFounded
import Mathlib.Tactic

/-!
# Forests given by parent pointers
-/

namespace PhpInternals.Found

open Relation.ReflTransGen Function Option

variable {α : Type} {parent : α → Option α} {a b c g n x : α}

/-- `x` is `a` or has it as an ancestor. -/
def Below (parent : α → Option α) : α → α → Prop :=
  Relation.ReflTransGen fun u v => parent v = some u

/-- There are no cycles. -/
def Acyclic (parent : α → Option α) : Prop :=
  WellFounded fun u v => parent v = some u

namespace Below

lemma refl (a : α) : Below parent a a := Relation.ReflTransGen.refl

lemma trans (h : Below parent a b) (h' : Below parent b x) : Below parent a x :=
  Relation.ReflTransGen.trans h h'

lemma single (h : parent x = some a) : Below parent a x := Relation.ReflTransGen.single h

lemma step (h : Below parent a n) (hx : parent x = some n) : Below parent a x := tail h hx

lemma eq_or_parent (h : Below parent a x) : x = a ∨ ∃ n, parent x = some n ∧ Below parent a n := by
  rcases cases_tail h with heq | ⟨n, hn, hx⟩
  · exact .inl heq
  · exact .inr ⟨n, hx, hn⟩

lemma parent_of_ne (h : Below parent a x) (hne : x ≠ a) (hx : parent x = some n) :
    Below parent a n := by
  obtain ⟨n', hn', hb⟩ := h.eq_or_parent.resolve_left hne
  obtain rfl : n = n' := some.inj (hx.symm.trans hn')
  exact hb

lemma comparable (ha : Below parent a x) (hb : Below parent b x) :
    Below parent a b ∨ Below parent b a := by
  induction hb with
  | refl => exact .inl ha
  | tail hy hz ih =>
    rcases ha.eq_or_parent with rfl | ⟨n, hn, hbl⟩
    · exact .inr (step hy hz)
    · rw [some.inj (hn.symm.trans hz)] at hbl
      exact ih hbl

lemma not_parent (hac : Acyclic parent) (hx : parent x = some n) : ¬ Below parent x n := by
  intro h
  have hcy := Relation.TransGen.tail' h hx
  exact (WellFounded.transGen hac).irrefl.irrefl x hcy

lemma child_unique (hac : Acyclic parent) (ha : parent a = some n) (hb : parent b = some n)
    (hax : Below parent a x) (hbx : Below parent b x) : a = b := by
  by_contra hne
  rcases hax.comparable hbx with h | h
  · exact not_parent hac ha (h.parent_of_ne (Ne.symm hne) hb)
  · exact not_parent hac hb (h.parent_of_ne hne ha)

lemma exists_child (h : Below parent n x) (hne : x ≠ n) :
    ∃ c, parent c = some n ∧ Below parent c x := by
  rcases cases_head h with heq | ⟨c, hc, hx⟩
  · exact absurd heq.symm hne
  · exact ⟨c, hc, hx⟩

end Below

section attach

variable [DecidableEq α]

/-- `c`, the root of its tree, is put below `g`. -/
def attach (parent : α → Option α) (c g : α) : α → Option α :=
  update parent c (some g)

variable (hc : parent c = none)

include hc in
lemma Below.attach (h : Below parent a x) : Below (attach parent c g) a x := by
  refine mono ?_ _ _ h
  intro u v huv
  have hne : v ≠ c := by
    rintro rfl
    rw [hc] at huv
    cases huv
  show update parent c (some g) v = some u
  rw [update_of_ne hne]
  exact huv

include hc in
lemma below_attach_iff (hg : ¬ Below parent c g) :
    Below (attach parent c g) a x ↔ Below parent a x ∨ Below parent a g ∧ Below parent c x := by
  constructor
  · intro h
    induction h with
    | refl => exact .inl (.refl a)
    | @tail y z _ hz ih =>
      have hz : update parent c (some g) z = some y := hz
      by_cases hzc : z = c
      · subst hzc
        rw [update_self] at hz
        obtain rfl : g = y := some.inj hz
        rcases ih with h | ⟨-, h⟩
        · exact .inr ⟨h, .refl z⟩
        · exact absurd h hg
      · rw [update_of_ne hzc] at hz
        exact ih.imp (·.step hz) fun ⟨h1, h2⟩ => ⟨h1, h2.step hz⟩
  · rintro (h | ⟨h, h'⟩)
    · exact h.attach hc
    · have hs : Found.attach parent c g c = some g := update_self _ _ _
      exact ((h.attach hc).step hs).trans (h'.attach hc)

lemma attach_wellFounded (hac : Acyclic parent) (hg : ¬ Below parent c g) :
    Acyclic (attach parent c g) := by
  have hs : ∀ u v, v ≠ c → attach parent c g v = some u → parent v = some u := by
    intro u v hne huv
    rwa [attach, update_of_ne hne] at huv
  have ho : ∀ x, ¬ Below parent c x → Acc (fun u v => attach parent c g v = some u) x := by
    intro x
    induction x using hac.induction with
    | h x ih =>
      intro hx
      have hne : x ≠ c := by
        rintro rfl
        exact hx (.refl x)
      exact ⟨x, fun y hy => ih y (hs y x hne hy) fun h => hx (h.step (hs y x hne hy))⟩
  refine ⟨fun x => ?_⟩
  induction x using hac.induction with
  | h x ih =>
    refine ⟨x, fun y hy => ?_⟩
    by_cases hxc : x = c
    · subst hxc
      rw [attach, update_self] at hy
      obtain rfl : g = y := some.inj hy
      exact ho g hg
    · exact ih y (hs y x hxc hy)

end attach

end PhpInternals.Found

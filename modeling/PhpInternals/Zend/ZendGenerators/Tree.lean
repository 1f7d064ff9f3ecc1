import PhpInternals.Zend.ZendGenerators.Lists

/-!
# The tree and its lists

Every list has exactly the leaves below its node and the children towards them.
-/

namespace PhpInternals.Zend.ZendGenerators

open Function Found

variable {G : Type} {s s' : State G} {g c l n x : G}

/-- Source: `zend_generators.h` `struct _zend_generator_node`. -/
def parentOf (s : State G) : G → Option G := fun g => (s g).parent

/-- No generator delegates to `x`. -/
def IsLeaf (s : State G) (x : G) : Prop :=
  ∀ y, parentOf s y ≠ some x

/-- Source: `zend_generators.c` `zend_generator_add_child`. -/
def leafOf (s : State G) (g : G) : G :=
  if (s g).children = 0 then g else (s g).ptr

/-- **The tree is described by its lists.** Entries may be doubled, and a list may still have a
generator that was a leaf once. -/
structure Wf (s : State G) : Prop where
  acyclic : Acyclic (parentOf s)
  executeData : ∀ x, (s x).executeData = true
  children_eq_zero : ∀ x, (s x).children = 0 ↔ IsLeaf s x
  two_le_children : ∀ x, (s x).children ≠ 0 → 2 ≤ (s x).children
  shaped : ∀ x, (s x).Shaped
  sound : ∀ x, ∀ e ∈ (s x).child.entries,
    parentOf s e.child = some x ∧ Below (parentOf s) e.child e.leaf
  complete : ∀ x l, IsLeaf s l → Below (parentOf s) x l → l ≠ x → (s x).Lists l
  leaf : ∀ x, (s x).children ≠ 0 → IsLeaf s (s x).ptr ∧ Below (parentOf s) x (s x).ptr
  root : ∀ x, IsLeaf s x → Below (parentOf s) (s x).ptr x

/-- A leaf that delegates has a root above it. -/
def Rooted (s : State G) (x : G) : Prop :=
  IsLeaf s x → parentOf s x ≠ none → (s x).ptr ≠ x

lemma not_isLeaf (h : parentOf s x = some n) : ¬ IsLeaf s n := fun hn => hn x h

lemma eq_of_below_isLeaf (h : Below (parentOf s) l x) (hl : IsLeaf s l) : x = l := by
  by_contra hne
  obtain ⟨y, hy, -⟩ := h.exists_child hne
  exact hl y hy

/-- **`zend_generator_search_multi_children_node`** stops at a node that has not one child. -/
theorem search_returns (h : (s g).children ≠ 1) :
    Returns (fun steps => searchMultiChildrenNode s steps g)
      (if (s g).children = 0 then none else some g) := by
  refine .of_succ fun steps => ?_
  rw [searchMultiChildrenNode, if_neg h]
  by_cases hz : (s g).children = 0
  · rw [if_neg (by omega), if_pos hz]
  · rw [if_pos (by omega), if_neg hz]

lemma fresh_wf : Wf (fresh : State G) where
  acyclic := ⟨fun x => ⟨x, nofun⟩⟩
  executeData _ := rfl
  children_eq_zero _ := ⟨fun _ => nofun, fun _ => rfl⟩
  two_le_children _ h := absurd rfl h
  shaped _ := ⟨fun _ => ⟨[], rfl, rfl⟩, nofun⟩
  sound _ := nofun
  complete x l _ hbelow hne := by
    obtain ⟨y, hy, -⟩ := hbelow.exists_child hne
    cases hy
  leaf _ h := absurd rfl h
  root x _ := .refl x

namespace Wf

section

variable (hwf : Wf s)
include hwf

lemma leafOf_isLeaf (g : G) : IsLeaf s (leafOf s g) := by
  unfold leafOf
  split_ifs with hz
  · exact (hwf.children_eq_zero g).mp hz
  · exact (hwf.leaf g hz).1

lemma below_leafOf (g : G) : Below (parentOf s) g (leafOf s g) := by
  unfold leafOf
  split_ifs with hz
  · exact .refl g
  · exact (hwf.leaf g hz).2

lemma children_ne_zero (h : parentOf s x = some n) : (s n).children ≠ 0 :=
  fun hz => not_isLeaf h ((hwf.children_eq_zero n).mp hz)

lemma children_ne_one (x : G) : (s x).children ≠ 1 := by
  intro ho
  have := hwf.two_le_children x (by omega)
  omega

lemma two_le_of_parent (h : parentOf s x = some n) : 2 ≤ (s n).children :=
  hwf.two_le_children n (hwf.children_ne_zero h)

lemma entry_child (hc : parentOf s c = some n) (hl : Below (parentOf s) c l) :
    ∀ e ∈ (s n).child.entries, e.leaf = l → e.child = c := by
  rintro e he rfl
  obtain ⟨hp, hb⟩ := hwf.sound n e he
  exact Below.child_unique hwf.acyclic hp hc hb hl

lemma ne_of_below_child (hc : parentOf s c = some n) (hl : Below (parentOf s) c l) : l ≠ n := by
  rintro rfl
  exact Below.not_parent hwf.acyclic hc hl

end

variable [DecidableEq G]

lemma getChild_eq (hwf : Wf s) (hc : parentOf s c = some n) (hl : IsLeaf s l)
    (hb : Below (parentOf s) c l) : getChild (s n) l = .ok (some c) := by
  have hls : (s n).Lists l :=
    hwf.complete n l hl ((Below.single hc).trans hb) (hwf.ne_of_below_child hc hb)
  exact ZendGenerators.getChild_eq (hwf.shaped n) (hwf.two_le_of_parent hc) hls
    (hwf.entry_child hc hb)

end Wf

/-! ## Walks to the root -/

section climb

variable [DecidableEq G] {parent : G → Option G} {f : G → Node G → Except GenError (Node G)}

/-- **A walk to the root.** Every node above the start is changed, as the child below it says. -/
theorem climb_spec (hac : Acyclic parent) : ∀ (start : G) (s : State G), parentOf s = parent →
    (∀ c p, parent c = some p → Below parent c start →
      ∃ node, f c (s p) = .ok node ∧ node.parent = (s p).parent) →
    ∃ s', Returns (fun steps => climb f steps start s) s' ∧ parentOf s' = parent ∧
      (∀ x, (∀ c, parent c = some x → ¬ Below parent c start) → s' x = s x) ∧
      ∀ c p, parent c = some p → Below parent c start → f c (s p) = .ok (s' p) := by
  intro start
  -- the walk goes on from the parent, in a state that differs at the parent only
  induction start using hac.induction with
  | h start ih =>
    intro s hs hf
    cases hp : parent start with
    | none =>
      have hr : ∀ c p, parent c = some p → ¬ Below parent c start := by
        intro c p hc hb
        rcases hb.eq_or_parent with rfl | ⟨q, hq, -⟩
        · rw [hp] at hc
          cases hc
        · rw [hp] at hq
          cases hq
      refine ⟨s, .of_succ fun steps => ?_, hs, fun _ _ => rfl,
        fun c p hc hb => absurd hb (hr c p hc)⟩
      have hnn : (s start).parent = none := (congrFun hs start).trans hp
      simp [climb, hnn]
    | some p =>
      obtain ⟨node, hno, hpr⟩ := hf start p hp (.refl start)
      have hs1 : parentOf (update s p node) = parent := by
        rw [← hs]
        funext x
        by_cases hx : x = p
        · subst hx
          simp [parentOf, hpr]
        · simp [parentOf, update_of_ne hx]
      have hne : ∀ c q, parent c = some q → Below parent c p → q ≠ p := by
        rintro c q hc hb rfl
        exact Below.not_parent hac hc hb
      obtain ⟨s', hcl, hs', hfr, ha⟩ := ih p hp (update s p node) hs1 (by
        intro c q hc hb
        rw [update_of_ne (hne c q hc hb)]
        exact hf c q hc (hb.step hp))
      have hsp : s' p = node := by
        rw [hfr p fun c hc => Below.not_parent hac hc, update_self]
      refine ⟨s', hcl.step fun steps => ?_, hs', ?_, ?_⟩
      · have hsm : (s start).parent = some p := (congrFun hs start).trans hp
        simp only [climb, hsm, hno]
        rfl
      · intro x hx
        have hxp : x ≠ p := by
          rintro rfl
          exact hx start hp (.refl start)
        rw [hfr x fun c hc hb => hx c hc (hb.step hp), update_of_ne hxp]
      intro c q hc hb
      rcases hb.eq_or_parent with rfl | ⟨p', hp', hb⟩
      · obtain rfl : p = q := Option.some.inj (hp.symm.trans hc)
        rw [hsp, hno]
      · obtain rfl : p = p' := Option.some.inj (hp.symm.trans hp')
        have := ha c q hc hb
        rwa [update_of_ne (hne c q hc hb)] at this

end climb

end PhpInternals.Zend.ZendGenerators

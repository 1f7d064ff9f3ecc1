import PhpInternals.Zend.ZendGenerators.AddChild

/-!
# Delegation

A generator that delegates becomes the child of its source, and the leaves below it find their root
anew: the tree and the child lists stay well formed along every run in which each new child brings
one leaf.
-/

namespace PhpInternals.Zend.ZendGenerators

open Function Found

variable {G : Type} {s s1 s2 : State G} {g c l x : G}

/-! ## Both parts of `zend_generator_add_child` -/

namespace Grown

variable (hwf : Wf s) (hprep : Prepared s s1 g c) (hgrown : Grown s s1 s2 g c)

include hprep hgrown

/-- At each generator the lists gain the leaves below the new child, or nothing. -/
lemma grows (x : G) : ∃ c' ls, Grows c' ls (s1 x) (s2 x) ∧
    ∀ l ∈ ls, Below (parentOf s) c l ∧ Towards s g c x c' := by
  by_cases hx : Below (parentOf s) x g
  · obtain ⟨c', ls, htw, hg, hsb, -⟩ := hgrown.inside x hx
    exact ⟨c', ls, hg, fun l hl => ⟨hsb l hl, htw⟩⟩
  · rw [hgrown.outside x hx]
    exact ⟨g, [], .refl (hprep x).shaped, by simp⟩

/-- The parents stay. -/
lemma parentOf_eq : parentOf s2 = parentOf s := by
  funext x
  obtain ⟨_, _, hg, -⟩ := hgrown.grows hprep x
  exact hg.parent.trans (hprep x).parent

lemma executeData_eq (x : G) : (s2 x).executeData = (s x).executeData := by
  obtain ⟨_, _, hg, -⟩ := hgrown.grows hprep x
  exact hg.executeData.trans (hprep x).executeData

/-- Every entry is old, or names a new leaf and the way to it. -/
lemma entries (x : G) : ∀ e ∈ (s2 x).child.entries,
    e ∈ (s x).child.entries ∨ Below (parentOf s) c e.leaf ∧ Towards s g c x e.child := by
  intro e he
  obtain ⟨_, _, hg, hsb⟩ := hgrown.grows hprep x
  rcases hg.entries e he with he | ⟨rfl, hl⟩
  · exact (hprep x).entries e he
  · exact .inr (hsb _ hl)

lemma ptr_eq (x : G) : (s2 x).ptr = (s1 x).ptr := by
  obtain ⟨_, _, hg, -⟩ := hgrown.grows hprep x
  exact hg.ptr

/-- Generators that are not above the source keep their number of children. -/
lemma children_eq (hx : ¬ Below (parentOf s) x g) : (s2 x).children = (s x).children := by
  have hxg : x ≠ g := by
    rintro rfl
    exact hx (.refl x)
  rw [hgrown.outside x hx, (hprep x).children hxg]

include hwf in
/-- Those above it have at least two. -/
lemma two_le_children (hx : Below (parentOf s) x g) : 2 ≤ (s2 x).children := by
  obtain ⟨c', ls, htw, hg, -, ha⟩ := hgrown.inside x hx
  have hls : 0 < ls.length :=
    List.length_pos_of_mem (ha _ (hwf.leafOf_isLeaf c) (hwf.below_leafOf c))
  rw [hg.children]
  by_cases hxg : x = g
  · have := (hprep x).children_pos hxg
    omega
  · obtain ⟨hp, -⟩ := htw.resolve_left fun h => hxg h.1
    rw [(hprep x).children hxg]
    have := hwf.two_le_of_parent hp
    omega

end Grown

/-! ## The parent pointer -/

variable [DecidableEq G]

/-- `generator->node.parent = from`. Source: `zend_generator_yield_from`. -/
def delegate (s : State G) (c g : G) : State G :=
  update s c { s c with parent := some g }

lemma delegate_cases (s : State G) (c g x : G) :
    delegate s c g x = s x ∨ delegate s c g x = { s x with parent := some g } := by
  unfold delegate
  by_cases hx : x = c
  · exact .inr (by rw [hx, update_self])
  · exact .inl (update_of_ne hx _ _)

@[simp] lemma delegate_children (s : State G) (c g x : G) :
    (delegate s c g x).children = (s x).children := by
  rcases delegate_cases s c g x with h | h <;> rw [h]

@[simp] lemma delegate_child (s : State G) (c g x : G) :
    (delegate s c g x).child = (s x).child := by
  rcases delegate_cases s c g x with h | h <;> rw [h]

@[simp] lemma delegate_ptr (s : State G) (c g x : G) : (delegate s c g x).ptr = (s x).ptr := by
  rcases delegate_cases s c g x with h | h <;> rw [h]

@[simp] lemma delegate_executeData (s : State G) (c g x : G) :
    (delegate s c g x).executeData = (s x).executeData := by
  rcases delegate_cases s c g x with h | h <;> rw [h]

/-- The delegating generator is attached to its source. -/
lemma parentOf_delegate (s : State G) (c g : G) :
    parentOf (delegate s c g) = attach (parentOf s) c g := by
  funext x
  unfold delegate parentOf attach
  by_cases hx : x = c
  · rw [hx, update_self, update_self]
  · rw [update_of_ne hx, update_of_ne hx]

section delegate

variable (hwf : Wf s) (hc : parentOf s c = none) (hcg : ¬ Below (parentOf s) c g)
  (hprep : Prepared s s1 g c) (hgrown : Grown s s1 s2 g c)

omit [DecidableEq G] in
include hc in
lemma ne_of_parent {y : G} (hy : parentOf s y = some x) : y ≠ c := by
  rintro rfl
  rw [hc] at hy
  cases hy

include hc in
/-- The source is a leaf no longer. -/
lemma isLeaf_delegate_iff (hs : parentOf s2 = parentOf s) :
    IsLeaf (delegate s2 c g) x ↔ IsLeaf s x ∧ x ≠ g := by
  unfold IsLeaf
  rw [parentOf_delegate, hs]
  constructor
  · intro h
    refine ⟨fun y hy => h y ?_, fun hxg => h c ?_⟩
    · rw [attach, update_of_ne (ne_of_parent hc hy), hy]
    · rw [attach, update_self, hxg]
  rintro ⟨h, hxg⟩ y hy
  by_cases hyc : y = c
  · rw [attach, hyc, update_self] at hy
    exact hxg (Option.some.inj hy).symm
  · rw [attach, update_of_ne hyc] at hy
    exact h y hy

include hc hcg in
/-- What is new below a generator is what hangs below the delegating one. -/
lemma below_delegate_iff (hs : parentOf s2 = parentOf s) {a b : G} :
    Below (parentOf (delegate s2 c g)) a b ↔
      Below (parentOf s) a b ∨ Below (parentOf s) a g ∧ Below (parentOf s) c b := by
  rw [parentOf_delegate, hs]
  exact below_attach_iff hc hcg

include hwf hc hprep hgrown in
/-- A generator that something delegates to has children, and the others keep theirs. -/
lemma delegate_children_eq_zero (x : G) :
    (delegate s2 c g x).children = 0 ↔ IsLeaf (delegate s2 c g) x := by
  rw [delegate_children, isLeaf_delegate_iff hc (hgrown.parentOf_eq hprep)]
  by_cases hx : Below (parentOf s) x g
  · have htw := hgrown.two_le_children hwf hprep hx
    exact ⟨fun h => by omega, fun h => absurd (eq_of_below_isLeaf hx h.1).symm h.2⟩
  · rw [hgrown.children_eq hprep hx, hwf.children_eq_zero]
    refine ⟨fun h => ⟨h, ?_⟩, And.left⟩
    rintro rfl
    exact hx (.refl x)

include hwf hc hcg hprep hgrown in
/-- The entries of the lists lead to children above the leaves they are for. -/
lemma delegate_sound (x : G) (e : Entry G) (he : e ∈ (delegate s2 c g x).child.entries) :
    parentOf (delegate s2 c g) e.child = some x ∧
      Below (parentOf (delegate s2 c g)) e.child e.leaf := by
  have hs := hgrown.parentOf_eq hprep
  rw [delegate_child] at he
  rw [below_delegate_iff hc hcg hs, parentOf_delegate, hs]
  rcases hgrown.entries hprep x e he with he | ⟨hl, ⟨rfl, hec⟩ | ⟨hp, heg⟩⟩
  · obtain ⟨hp, hl⟩ := hwf.sound x e he
    exact ⟨(update_of_ne (ne_of_parent hc hp) _ _).trans hp, .inl hl⟩
  · rw [hec]
    exact ⟨update_self _ _ _, .inl hl⟩
  · exact ⟨(update_of_ne (ne_of_parent hc hp) _ _).trans hp, .inr ⟨heg, hl⟩⟩

include hwf hc hcg hprep hgrown in
/-- Every list has the leaves below its generator, the old ones and those of `c`. -/
lemma delegate_complete (x l : G) (hl : IsLeaf (delegate s2 c g) l)
    (hxl : Below (parentOf (delegate s2 c g)) x l) (hne : l ≠ x) : (delegate s2 c g x).Lists l := by
  have hs := hgrown.parentOf_eq hprep
  obtain ⟨hl, hlg⟩ := (isLeaf_delegate_iff hc hs).mp hl
  rw [Node.Lists, delegate_child]
  rcases (below_delegate_iff hc hcg hs).mp hxl with hxl | ⟨hxg, hcl⟩
  · obtain ⟨_, _, hg, -⟩ := hgrown.grows hprep x
    exact hg.keeps l ((hprep x).keeps l (hwf.complete x l hl hxl hne) hlg)
  · obtain ⟨c', ls, -, hgr, -, hal⟩ := hgrown.inside x hxg
    exact hgr.lists l (hal l hl hcl)

include hwf hc hcg hprep hgrown in
/-- The leaf that a generator with children remembers is a leaf below it. -/
lemma delegate_leaf (x : G) (hx : (delegate s2 c g x).children ≠ 0) :
    IsLeaf (delegate s2 c g) (delegate s2 c g x).ptr ∧
      Below (parentOf (delegate s2 c g)) x (delegate s2 c g x).ptr := by
  have hs := hgrown.parentOf_eq hprep
  rw [delegate_children] at hx
  rw [delegate_ptr, hgrown.ptr_eq hprep, isLeaf_delegate_iff hc hs, below_delegate_iff hc hcg hs]
  by_cases hxg : Below (parentOf s) x g
  · obtain ⟨hl, hlg, hxl⟩ := (hprep x).leaf hxg
    exact ⟨⟨hl, hlg⟩, hxl.imp id fun h => ⟨hxg, h⟩⟩
  rw [hgrown.children_eq hprep hxg] at hx
  obtain ⟨hl, hxl⟩ := hwf.leaf x hx
  rcases (hprep x).root hxg with hpt | ⟨rfl, -, -⟩
  · rw [hpt]
    refine ⟨⟨hl, ?_⟩, .inl hxl⟩
    intro h
    exact hxg (h ▸ hxl)
  · exact absurd ((hwf.children_eq_zero _).mpr (hwf.leafOf_isLeaf c)) hx

include hwf hc hcg hprep hgrown in
/-- **The tree is described by its lists after `zend_generator_add_child`.** -/
theorem delegate_wf : Wf (delegate s2 c g) := by
  have hs := hgrown.parentOf_eq hprep
  refine ⟨?_, fun x => ?_, delegate_children_eq_zero hwf hc hprep hgrown, fun x => ?_, fun x => ?_,
    delegate_sound hwf hc hcg hprep hgrown, delegate_complete hwf hc hcg hprep hgrown,
    delegate_leaf hwf hc hcg hprep hgrown, fun x hx => ?_⟩
  · rw [parentOf_delegate, hs]
    exact attach_wellFounded hwf.acyclic hcg
  · rw [delegate_executeData, hgrown.executeData_eq hprep, hwf.executeData]
  · rw [delegate_children]
    by_cases hx : Below (parentOf s) x g
    · exact fun _ => hgrown.two_le_children hwf hprep hx
    · rw [hgrown.children_eq hprep hx]
      exact hwf.two_le_children x
  · obtain ⟨_, _, hg, -⟩ := hgrown.grows hprep x
    exact ⟨by simpa using hg.shaped.array, by simpa using hg.shaped.ht⟩
  · obtain ⟨hx, hxg⟩ := (isLeaf_delegate_iff hc hs).mp hx
    rw [delegate_ptr, hgrown.ptr_eq hprep, below_delegate_iff hc hcg hs]
    rcases (hprep x).root fun h => hxg (eq_of_below_isLeaf h hx).symm with hpt | ⟨rfl, hg, hpt⟩
    · rw [hpt]
      exact .inl (hwf.root x hx)
    · rw [hpt]
      exact .inr ⟨hwf.root g hg, hwf.below_leafOf c⟩

include hwf hc hprep hgrown in
/-- Leaves elsewhere keep their root. -/
lemma delegate_rooted (hr : ∀ x, Rooted s x) (hx : x ≠ c) : Rooted (delegate s2 c g) x := by
  have hs := hgrown.parentOf_eq hprep
  intro hlf hp
  obtain ⟨hlf, hxg⟩ := (isLeaf_delegate_iff hc hs).mp hlf
  rw [parentOf_delegate, hs, attach, update_of_ne hx] at hp
  rw [delegate_ptr, hgrown.ptr_eq hprep]
  rcases (hprep x).root fun h => hxg (eq_of_below_isLeaf h hlf).symm with hpt | ⟨rfl, hg, hpt⟩
  · rw [hpt]
    exact hr x hlf hp
  · rw [hpt]
    intro h
    have := hwf.root g hg
    rw [h] at this
    exact hxg (eq_of_below_isLeaf this hlf).symm

end delegate

/-! ## The root -/

/-- Only the root pointer of a leaf changes. Source: `zend_generator_update_current`. -/
def setRoot (s : State G) (l top : G) : State G :=
  update s l { s l with ptr := top }

variable {top : G}

lemma setRoot_of_ne (s : State G) (h : x ≠ l) : setRoot s l top x = s x := update_of_ne h _ _

lemma setRoot_self (s : State G) (l top : G) : setRoot s l top l = { s l with ptr := top } :=
  update_self _ _ _

lemma parentOf_setRoot (s : State G) (l top : G) : parentOf (setRoot s l top) = parentOf s := by
  funext x
  by_cases hx : x = l
  · rw [hx, parentOf, parentOf, setRoot_self]
  · rw [parentOf, parentOf, setRoot_of_ne s hx]

/-- A root may be written into a leaf's pointer. -/
lemma setRoot_wf (hwf : Wf s) (hl : IsLeaf s l) (htp : Below (parentOf s) top l) :
    Wf (setRoot s l top) := by
  have hn : ∀ x, (setRoot s l top x).children = (s x).children ∧
      (setRoot s l top x).child = (s x).child ∧
      (setRoot s l top x).executeData = (s x).executeData := by
    intro x
    by_cases hx : x = l
    · rw [hx, setRoot_self]
      exact ⟨rfl, rfl, rfl⟩
    · rw [setRoot_of_ne s hx]
      exact ⟨rfl, rfl, rfl⟩
  have hlf : ∀ x, IsLeaf (setRoot s l top) x ↔ IsLeaf s x := fun x => by
    unfold IsLeaf
    rw [parentOf_setRoot]
  constructor
  case acyclic => exact parentOf_setRoot s l top ▸ hwf.acyclic
  case executeData => exact fun x => (hn x).2.2.trans (hwf.executeData x)
  case children_eq_zero => exact fun x => by rw [(hn x).1, hlf, hwf.children_eq_zero]
  case two_le_children => exact fun x => by rw [(hn x).1]; exact hwf.two_le_children x
  case shaped =>
    intro x
    obtain ⟨hch, hcl, -⟩ := hn x
    exact ⟨hch ▸ hcl ▸ (hwf.shaped x).array, hch ▸ hcl ▸ (hwf.shaped x).ht⟩
  case sound => exact fun x => by rw [(hn x).2.1, parentOf_setRoot]; exact hwf.sound x
  case complete =>
    intro x l'
    rw [hlf, parentOf_setRoot, Node.Lists, (hn x).2.1]
    exact hwf.complete x l'
  case leaf =>
    intro x hx
    have hxl : x ≠ l := by
      rintro rfl
      exact hx ((hn x).1.trans ((hwf.children_eq_zero x).mpr hl))
    rw [setRoot_of_ne s hxl] at hx ⊢
    rw [hlf, parentOf_setRoot]
    exact hwf.leaf x hx
  case root =>
    intro x hx
    rw [parentOf_setRoot]
    by_cases hxl : x = l
    · subst hxl
      rw [setRoot_self]
      exact htp
    · rw [setRoot_of_ne s hxl]
      exact hwf.root x ((hlf x).mp hx)

lemma setRoot_rooted (hx : x ≠ l → Rooted s x) (htp : parentOf s top = none) :
    Rooted (setRoot s l top) x := by
  unfold Rooted IsLeaf
  rw [parentOf_setRoot]
  intro hlf hp
  by_cases hxl : x = l
  · subst hxl
    rw [setRoot_self]
    rintro (rfl : top = x)
    exact hp htp
  · rw [setRoot_of_ne s hxl]
    exact hx hxl hlf hp

omit [DecidableEq G] in
/-- Following parents ends at a root. -/
lemma topOf_returns (hac : Acyclic (parentOf s)) (x : G) :
    ∃ top, Returns (fun steps => topOf s steps x) top ∧ Below (parentOf s) top x ∧
      parentOf s top = none := by
  induction x using hac.induction with
  | h x ih =>
    cases hp : (s x).parent with
    | none => exact ⟨x, .of_succ fun steps => by rw [topOf, hp], .refl x, hp⟩
    | some p =>
      obtain ⟨top, hr, hb, htp⟩ := ih p hp
      exact ⟨top, hr.step fun steps => by rw [topOf, hp], hb.step hp, htp⟩

/-- The child from which a leaf looks for its root. -/
lemma first_eq (hwf : Wf s) (hc : parentOf s c = some g) (hl : IsLeaf s l)
    (hcl : Below (parentOf s) c l) (hr : ∀ x, x ≠ c → Rooted s x) :
    ∃ first p, (if (s l).ptr ≠ c then getChild (s (s l).ptr) l else .ok (some c)) =
    .ok (some first) ∧
      parentOf s first = some p ∧ Below (parentOf s) first l := by
  by_cases hpt : (s l).ptr = c
  · exact ⟨c, g, by rw [if_neg (not_not.mpr hpt)], hc, hcl⟩
  have hne : (s l).ptr ≠ l := by
    by_cases hlc : l = c
    · rwa [hlc] at hpt ⊢
    · obtain ⟨n, hn, -⟩ := hcl.eq_or_parent.resolve_left hlc
      exact hr l hlc hl (by rw [hn]; simp)
  obtain ⟨first, hf, hb⟩ := (hwf.root l hl).exists_child hne.symm
  exact ⟨first, _, by rw [if_pos hpt, hwf.getChild_eq hf hl hb], hf, hb⟩

/-- **`zend_generator_update_current`**, with all generators alive. -/
theorem updateCurrent_returns (hwf : Wf s) (hc : parentOf s c = some g) (hl : IsLeaf s l)
    (hcl : Below (parentOf s) c l) (hr : ∀ x, x ≠ c → Rooted s x) :
    ∃ top, Returns (fun steps => updateCurrent steps c l s) (setRoot s l top) ∧
      Below (parentOf s) top l ∧ parentOf s top = none := by
  obtain ⟨first, p, hf, hp, hb⟩ := first_eq hwf hc hl hcl hr
  obtain ⟨top, htp, hb', hn⟩ := topOf_returns hwf.acyclic first
  have hds : Returns (fun steps => descend s c l steps first) first := by
    refine .of_succ fun steps => ?_
    rw [descend, hwf.executeData]
    rfl
  refine ⟨top, ?_, hb'.trans hb, hn⟩
  refine (Returns.of_forall fun _ => hf).bind ?_
  refine hds.bind ?_
  have hp : (s first).parent = some p := hp
  simp only [hp, if_pos (hwf.executeData p)]
  exact htp.bind (.of_forall fun _ => rfl)

/-- `zend_generator_get_current` ends and gives the leaf its root. -/
lemma getCurrent_returns (hwf : Wf s) (hc : parentOf s c = some g) (hrt : ∀ x, x ≠ c → Rooted s x) :
    ∃ s', Returns (fun steps => getCurrent steps c s) s' ∧ Wf s' ∧ (∀ x, Rooted s' x) ∧
      parentOf s' = parentOf s := by
  have hsm : (s c).parent ≠ none := by
    rw [show (s c).parent = some g from hc]
    simp
  have hl := hwf.leafOf_isLeaf c
  have hcl := hwf.below_leafOf c
  unfold getCurrent
  simp only [if_neg hsm]
  by_cases hn : (s (s (leafOf s c)).ptr).parent = none
  · -- the root is known
    refine ⟨s, .of_forall fun _ => if_pos ⟨hwf.executeData _, hn⟩, hwf, fun x => ?_, rfl⟩
    by_cases hx : x = c
    · subst hx
      intro hlf _ hp
      rw [leafOf, if_pos ((hwf.children_eq_zero x).mpr hlf), hp] at hn
      exact hsm hn
    · exact hrt x hx
  obtain ⟨top, hr, hb, htp⟩ := updateCurrent_returns hwf hc hl hcl hrt
  refine ⟨setRoot s (leafOf s c) top, ?_, setRoot_wf hwf hl hb, fun x => ?_,
    parentOf_setRoot s _ top⟩
  · obtain ⟨m, hm⟩ := hr
    exact ⟨m, fun steps hs => (if_neg fun h => hn h.2).trans (hm steps hs)⟩
  refine setRoot_rooted (fun hx => ?_) htp
  by_cases hxc : x = c
  · -- an inner node
    subst hxc
    intro hlf
    rw [leafOf, if_pos ((hwf.children_eq_zero x).mpr hlf)] at hx
    exact absurd rfl hx
  · exact hrt x hxc

/-- **One delegation** with one leaf keeps the tree. -/
lemma yieldFrom_returns (hwf : Wf s) (hr : ∀ x, Rooted s x) (hc : parentOf s c = none)
    (hcg : ¬ Below (parentOf s) c g) (ho : OneLeaf s g c) :
    ∃ s', Returns (fun steps => yieldFrom steps c g s) s' ∧ Wf s' ∧ (∀ x, Rooted s' x) ∧
      parentOf s' = attach (parentOf s) c g := by
  obtain ⟨s1, s2, ha, hprep, hgrown⟩ := addChild_returns hwf hcg ho
  have hp : parentOf (delegate s2 c g) = attach (parentOf s) c g := by
    rw [parentOf_delegate, hgrown.parentOf_eq hprep]
  have hsl : parentOf (delegate s2 c g) c = some g := by
    rw [hp, attach, update_self]
  obtain ⟨s', hcr, hw', hr', hs'⟩ := getCurrent_returns (delegate_wf hwf hc hcg hprep hgrown) hsl
      fun x hx => delegate_rooted hwf hc hprep hgrown hr hx
  exact ⟨s', ha.bind hcr, hw', hr', hs'.trans hp⟩

/-! ## Runs -/

/-- The states after sequences of calls, from generators that have not delegated. A generator that
delegates has no parent, and the one it delegates to is not below it, as the handler of `YIELD_FROM`
ensures; `ok` is a further condition on the calls. Source: `zend_generator_yield_from`. -/
inductive Reaches (ok : State G → G → G → Prop) : State G → Prop where
  | fresh : Reaches ok fresh
  | yieldFrom {s s' : State G} {generator source : G} :
      Reaches ok s → parentOf s generator = none → ¬ Below (parentOf s) generator source →
      ok s source generator →
      Returns (fun steps => yieldFrom steps generator source s) s' → Reaches ok s'

/-- **Every run of such delegations keeps it.** -/
lemma Reaches.wf (h : Reaches OneLeaf s) : Wf s ∧ ∀ x, Rooted s x := by
  induction h with
  | fresh => exact ⟨fresh_wf, fun _ _ h => absurd rfl h⟩
  | yieldFrom _ hc hcg ho hr ih =>
    obtain ⟨s', hr', hwf, hrt, -⟩ := yieldFrom_returns ih.1 ih.2 hc hcg ho
    rw [hr.unique hr']
    exact ⟨hwf, hrt⟩

/-- **The tree of delegating generators.** As long as a generator without children is delegated to
only by generators with one leaf below them, every such call returns; the child towards a leaf is
found, the recorded leaf is one, and the search for a node with several children finds a node that
lists all leaves. -/
theorem delegation_tree_of_oneLeaf (h : Reaches OneLeaf s) :
    (∀ generator source, parentOf s generator = none → ¬ Below (parentOf s) generator source →
      OneLeaf s source generator →
      ∃ s', Returns (fun steps => yieldFrom steps generator source s) s' ∧
        parentOf s' = attach (parentOf s) generator source) ∧
    ∀ n, ¬ IsLeaf s n →
      (∀ l, IsLeaf s l → Below (parentOf s) n l → ∃ c, parentOf s c = some n ∧
        Below (parentOf s) c l ∧ getChild (s n) l = .ok (some c)) ∧
      IsLeaf s (s n).ptr ∧ Below (parentOf s) n (s n).ptr ∧
      ∃ m, Returns (fun steps => searchMultiChildrenNode s steps n) (some m) ∧
        ∀ l, IsLeaf s l → Below (parentOf s) n l → (s m).Lists l := by
  obtain ⟨hwf, hrt⟩ := h.wf
  refine ⟨fun generator source hc hcg ho => ?_, fun n hn => ?_⟩
  · obtain ⟨s', hr, -, -, hs'⟩ := yieldFrom_returns hwf hrt hc hcg ho
    exact ⟨s', hr, hs'⟩
  have hch : (s n).children ≠ 0 := fun hz => hn ((hwf.children_eq_zero n).mp hz)
  have hne : ∀ l, IsLeaf s l → l ≠ n := by
    rintro l hl rfl
    exact hn hl
  obtain ⟨hlf, hb⟩ := hwf.leaf n hch
  have hs := search_returns (hwf.children_ne_one n)
  rw [if_neg hch] at hs
  refine ⟨fun l hl hnl => ?_, hlf, hb, n, hs, fun l hl hnl => ?_⟩
  · obtain ⟨c, hc, hcl⟩ := hnl.exists_child (hne l hl)
    exact ⟨c, hc, hcl, hwf.getChild_eq hc hl hcl⟩
  · exact hwf.complete n l hl hnl (hne l hl)

/-- A call among four generators. Source: `zend_generator_yield_from`. -/
def afterCall (s : State (Fin 4)) (generator source : Fin 4) : State (Fin 4) :=
  (yieldFrom 4 generator source s).toOption.getD s

/-- Two generators delegate to one source. Source: `zend_generator_yield_from`. -/
def shared (first second source : Fin 4) : State (Fin 4) :=
  afterCall (afterCall fresh first source) second source

omit [DecidableEq G] in
lemma not_below_of_root (hx : parentOf s x = none) (hne : x ≠ c) : ¬ Below (parentOf s) c x := by
  intro h
  obtain ⟨n, hn, -⟩ := h.eq_or_parent.resolve_left hne
  rw [hx] at hn
  cases hn

omit [DecidableEq G] in
/-- A generator that is itself a leaf brings one leaf. -/
lemma oneLeaf_of_isLeaf (hc : IsLeaf s c) : OneLeaf s g c := by
  intro _ l l' _ _ hl hl'
  rw [eq_of_below_isLeaf hl hc, eq_of_below_isLeaf hl' hc]

variable {ok : State (Fin 4) → Fin 4 → Fin 4 → Prop}

lemma reaches_afterCall {s : State (Fin 4)}
    (h : Reaches ok s) (generator source : Fin 4) (hg : parentOf s generator = none)
    (hs : parentOf s source = none) (hne : source ≠ generator) (hok : ok s source generator)
    (hcl : ∀ k, yieldFrom (k + 4) generator source s = .ok (afterCall s generator source)) :
    Reaches ok (afterCall s generator source) := by
  refine h.yieldFrom hg (not_below_of_root hs hne) hok ⟨4, fun steps hsp => ?_⟩
  obtain ⟨k, rfl⟩ := Nat.exists_eq_add_of_le' hsp
  exact hcl k

/-- The two calls are allowed. -/
lemma shared_reaches (hok : ∀ s g c, IsLeaf s c → ok s g c) : Reaches ok (shared 0 1 2) := by
  have hf : Reaches ok (afterCall fresh 0 2) :=
    reaches_afterCall .fresh 0 2 rfl rfl (by decide)
      (hok _ _ _ (by unfold IsLeaf; decide)) fun _ => rfl
  exact reaches_afterCall hf 1 2 rfl rfl (by decide)
    (hok _ _ _ (by unfold IsLeaf; decide)) fun _ => rfl

/-- A generator that two others delegate to tells their leaves apart. -/
theorem delegation_tree_of_oneLeaf_shared :
    Reaches OneLeaf (shared 0 1 2) ∧ ∃ c, parentOf (shared 0 1 2) c = some 2 ∧
      Below (parentOf (shared 0 1 2)) c 1 ∧ getChild (shared 0 1 2 2) 1 = .ok (some c) := by
  have hr : Reaches OneLeaf (shared 0 1 2) := shared_reaches fun _ _ _ => oneLeaf_of_isLeaf
  refine ⟨hr, ?_⟩
  exact ((delegation_tree_of_oneLeaf hr).2 2 (not_isLeaf (x := 1) rfl)).1 1
    (by unfold IsLeaf; decide) (.single rfl)

/-- **A shared generator that delegates to a fresh one.** `2` has the leaves `0` and `1`, and
delegates to `3`, whose list then has `0` only, twice. -/
theorem shared_generator_loses_leaf : ∃ s : State (Fin 4), Reaches (fun _ _ _ => True) s ∧
    ¬ IsLeaf s 3 ∧ IsLeaf s 1 ∧ Below (parentOf s) 3 1 ∧
    getChild (s 3) 1 = .error .noMatchingChild ∧
    Returns (fun steps => searchMultiChildrenNode s steps 3) (some 3) ∧ ¬ (s 3).Lists 1 := by
  have hr : Reaches (fun _ _ _ => True) (afterCall (shared 0 1 2) 2 3) :=
    reaches_afterCall (shared_reaches fun _ _ _ _ => trivial) 2 3 rfl rfl (by decide)
      trivial fun _ => rfl
  refine ⟨afterCall (shared 0 1 2) 2 3, hr, not_isLeaf (x := 2) rfl,
    by unfold IsLeaf; decide +kernel, Below.step (.single rfl) rfl, by decide +kernel,
    .of_succ fun _ => rfl, ?_⟩
  unfold Node.Lists
  decide +kernel

end PhpInternals.Zend.ZendGenerators

import PhpInternals.Zend.ZendGenerators.Tree

/-!
# Adding a child to the tree

`zend_generator_add_child(g, c)` in a tree that is described by its lists.
-/

namespace PhpInternals.Zend.ZendGenerators

open Function Option List Found

variable {G : Type} {s s₁ s₂ : State G} {g c l x : G}

/-- The child of `x` through which the tree of `c` is reached once `c` is below `g`. -/
def Towards (s : State G) (g c x c' : G) : Prop :=
  x = g ∧ c' = c ∨ parentOf s c' = some x ∧ Below (parentOf s) c' g

lemma exists_towards (c : G) (h : Below (parentOf s) x g) : ∃ c', Towards s g c x c' := by
  by_cases hx : g = x
  · exact ⟨c, .inl ⟨hx.symm, rfl⟩⟩
  · obtain ⟨c', hc', hb⟩ := h.exists_child hx
    exact ⟨c', .inr ⟨hc', hb⟩⟩

/-- What holds of the node of `x` after the first part. -/
structure PreparedAt (s : State G) (g c x : G) (node : Node G) : Prop where
  parent : node.parent = (s x).parent
  executeData : node.executeData = (s x).executeData
  shaped : node.Shaped
  children : x ≠ g → node.children = (s x).children
  children_pos : x = g → 0 < node.children
  outside : ¬ Below (parentOf s) x g → node.child = (s x).child
  root : ¬ Below (parentOf s) x g →
    node.ptr = (s x).ptr ∨ x = leafOf s c ∧ IsLeaf s g ∧ node.ptr = (s g).ptr
  entries : ∀ e ∈ node.child.entries,
    e ∈ (s x).child.entries ∨ Below (parentOf s) c e.leaf ∧ Towards s g c x e.child
  keeps : ∀ l, (s x).Lists l → l ≠ g → node.Lists l
  leaf : Below (parentOf s) x g → IsLeaf s node.ptr ∧ node.ptr ≠ g ∧
    (Below (parentOf s) x node.ptr ∨ Below (parentOf s) c node.ptr)

/-- The state after the first part. -/
def Prepared (s s₁ : State G) (g c : G) : Prop :=
  ∀ x, PreparedAt s g c x (s₁ x)

/-- What the second part adds. -/
structure Grown (s s₁ s₂ : State G) (g c : G) : Prop where
  outside : ∀ x, ¬ Below (parentOf s) x g → s₂ x = s₁ x
  inside : ∀ x, Below (parentOf s) x g → ∃ c' ls, Towards s g c x c' ∧ Grows c' ls (s₁ x) (s₂ x) ∧
    (∀ l ∈ ls, Below (parentOf s) c l) ∧ ∀ l, IsLeaf s l → Below (parentOf s) c l → l ∈ ls

/-- The leaves below `c`, as they are added. Source: `zend_generators.c` `zend_generator_add_child`.
-/
def addedLeaves (s : State G) (c : G) : List G :=
  if (s c).children = 0 then [c] else (s c).leaves

namespace Wf

lemma below_of_mem_addedLeaves (hwf : Wf s) (h : l ∈ addedLeaves s c) : Below (parentOf s) c l := by
  unfold addedLeaves at h
  split_ifs at h with hz
  · rw [mem_singleton.mp h]
    exact .refl c
  · obtain ⟨e, he, rfl⟩ := mem_leaves.mp h
    obtain ⟨hp, hb⟩ := hwf.sound c e he
    exact (Below.single hp).trans hb

lemma mem_addedLeaves (hwf : Wf s) (hl : IsLeaf s l) (h : Below (parentOf s) c l) :
    l ∈ addedLeaves s c := by
  unfold addedLeaves
  split_ifs with hz
  · exact mem_singleton.mpr (eq_of_below_isLeaf h ((hwf.children_eq_zero c).mp hz))
  · refine mem_leaves.mpr (hwf.complete c l hl h ?_)
    rintro rfl
    exact hz ((hwf.children_eq_zero l).mpr hl)

end Wf

variable [DecidableEq G]

/-! ## The first part -/

/-- **The first walk.** A leaf becomes an inner node, and is replaced in the lists above it. -/
theorem leafGetsChild_returns (hwf : Wf s) (hg : IsLeaf s g) (hcg : ¬ Below (parentOf s) c g) :
    ∃ s₁, Returns (fun steps => leafGetsChild steps g c (leafOf s c) s) s₁ ∧
      s₁ g = addSingleChild { s g with ptr := leafOf s c } c (leafOf s c) ∧
      s₁ (leafOf s c) = { s (leafOf s c) with ptr := (s g).ptr } ∧
      (∀ x, ¬ Below (parentOf s) x g → x ≠ leafOf s c → s₁ x = s x) ∧
      ∀ c' p, parentOf s c' = some p → Below (parentOf s) c' g →
        Relabels g (leafOf s c) c' (s p) (s₁ p) := by
  set leaf := leafOf s c
  have hi : IsLeaf s leaf := hwf.leafOf_isLeaf c
  have hne : leaf ≠ g := by
    intro h
    exact hcg (h ▸ hwf.below_leafOf c)
  have hl : ¬ Below (parentOf s) leaf g := fun h => hne (eq_of_below_isLeaf h hi).symm
  let t := update s leaf { s leaf with ptr := (s g).ptr }
  let u := update t g { t g with ptr := leaf }
  have ht : t g = s g := update_of_ne hne.symm _ _
  have hug : u g = { s g with ptr := leaf } := by
    rw [← ht]
    exact update_self _ _ _
  have hul : u leaf = { s leaf with ptr := (s g).ptr } :=
    (update_of_ne hne _ _).trans (update_self _ _ _)
  have hux : ∀ x, x ≠ g → x ≠ leaf → u x = s x := fun x h h' =>
    (update_of_ne h _ _).trans (update_of_ne h' _ _)
  have hu : parentOf u = parentOf s := by
    funext x
    by_cases hx : x = g
    · rw [hx, parentOf, parentOf, hug]
    by_cases hx' : x = leaf
    · rw [hx', parentOf, parentOf, hul]
    · rw [parentOf, parentOf, hux x hx hx']
  have ha : ∀ c' p, parentOf s c' = some p → Below (parentOf s) c' g → u p = s p := by
    intro c' p hp hc'
    refine hux p (hwf.ne_of_below_child hp hc').symm ?_
    rintro rfl
    exact hi c' hp
  have hr : ∀ c' p, parentOf s c' = some p → Below (parentOf s) c' g →
      ∃ node, relabel g leaf (s p) = .ok node ∧ Relabels g leaf c' (s p) node := fun c' p hp hc' =>
    relabel_spec (hwf.shaped p) (hwf.two_le_of_parent hp)
      (hwf.complete p g hg ((Below.single hp).trans hc') (hwf.ne_of_below_child hp hc'))
      (hwf.entry_child hp hc')
  obtain ⟨v, hc, -, hf, hw⟩ := climb_spec hwf.acyclic g u hu (by
    intro c' p hp hc'
    obtain ⟨node, hn, hrl⟩ := hr c' p hp hc'
    rw [ha c' p hp hc']
    exact ⟨node, hn, hrl.parent⟩)
  have hvg : v g = { s g with ptr := leaf } :=
    (hf g fun c' hp => Below.not_parent hwf.acyclic hp).trans hug
  have hvt : ∀ x, ¬ Below (parentOf s) x g → v x = u x := fun x hx =>
    hf x fun c' hp hc' => hx ((Below.single hp).trans hc')
  refine ⟨update v g (addSingleChild (v g) c leaf), ?_, ?_, ?_, ?_, ?_⟩
  · exact hc.bind (.of_forall fun _ => rfl)
  · rw [update_self, hvg]
  · rw [update_of_ne hne, hvt leaf hl, hul]
  · intro x hx hxl
    have hxg : x ≠ g := by
      rintro rfl
      exact hx (.refl x)
    rw [update_of_ne hxg, hvt x hx, hux x hxg hxl]
  intro c' p hp hc'
  obtain ⟨node, hn, hrl⟩ := hr c' p hp hc'
  have hw := hw c' p hp hc'
  rw [ha c' p hp hc', hn] at hw
  rw [update_of_ne (hwf.ne_of_below_child hp hc').symm, ← Except.ok.inj hw]
  exact hrl

lemma leafGetsChild_prepared (hwf : Wf s) (hg : IsLeaf s g) (hcg : ¬ Below (parentOf s) c g) :
    ∃ s₁, Returns (fun steps => leafGetsChild steps g c (leafOf s c) s) s₁ ∧ Prepared s s₁ g c := by
  obtain ⟨s₁, hr, ho, hlf, hot, ha⟩ := leafGetsChild_returns hwf hg hcg
  have hi := hwf.leafOf_isLeaf c
  have hb := hwf.below_leafOf c
  have hne : leafOf s c ≠ g := fun h => hcg (h ▸ hb)
  refine ⟨s₁, hr, fun x => ?_⟩
  by_cases hxg : Below (parentOf s) x g
  · obtain ⟨c', ⟨rfl, rfl⟩ | ⟨hp, hc'⟩⟩ := exists_towards c hxg
    · -- the leaf itself
      have hz := (hwf.children_eq_zero x).mpr hg
      have hs : { s x with ptr := leafOf s c' }.Shaped := ⟨(hwf.shaped x).array, (hwf.shaped x).ht⟩
      have hgr := addSingleChild_grows hs c' (leafOf s c')
      rw [← ho] at hgr
      refine ⟨hgr.parent, hgr.executeData, hgr.shaped, fun h => absurd rfl h, fun _ => ?_,
        fun h => absurd hxg h, fun h => absurd hxg h, fun e he => ?_, fun l hl _ => hgr.keeps l hl,
        fun _ => ?_⟩
      · rw [hgr.children, hz]
        exact Nat.zero_lt_one
      · refine (hgr.entries e he).imp id fun ⟨hc', hl⟩ => ?_
        rw [mem_singleton.mp hl, hc']
        exact ⟨hb, .inl ⟨rfl, rfl⟩⟩
      · rw [hgr.ptr]
        exact ⟨hi, hne, .inr hb⟩
    · -- a node above
      have hrl := ha c' x hp hc'
      have hx : x ≠ g := by
        rintro rfl
        exact hg c' hp
      refine ⟨hrl.parent, hrl.executeData, hrl.shaped, fun _ => hrl.children, fun h => absurd h hx,
        fun h => absurd hxg h, fun h => absurd hxg h, fun e he => ?_, hrl.keeps, fun _ => ?_⟩
      · rcases hrl.entries e he with he | rfl
        · exact .inl he
        · exact .inr ⟨hb, .inr ⟨hp, hc'⟩⟩
      · rw [hrl.ptr]
        exact ⟨hi, hne, .inr hb⟩
  · have hx : x ≠ g := by
      rintro rfl
      exact hxg (.refl x)
    by_cases hxl : x = leafOf s c
    · subst hxl
      rw [hlf]
      exact ⟨rfl, rfl, ⟨(hwf.shaped _).array, (hwf.shaped _).ht⟩, fun _ => rfl,
        fun h => absurd h hx,
        fun _ => rfl, fun _ => .inr ⟨rfl, hg, rfl⟩, fun _ => Or.inl, fun _ h _ => h,
        fun h => absurd h hxg⟩
    · rw [hot x hxg hxl]
      exact ⟨rfl, rfl, hwf.shaped x, fun _ => rfl, fun h => absurd h hx, fun _ => rfl,
        fun _ => .inl rfl, fun _ => Or.inl, fun _ h _ => h, fun h => absurd h hxg⟩

omit [DecidableEq G] in
lemma prepared_self (hwf : Wf s) (hg : ¬ IsLeaf s g) : Prepared s s g c := by
  intro x
  have hi : Below (parentOf s) x g → (s x).children ≠ 0 := by
    intro hxg hz
    have hx := (hwf.children_eq_zero x).mp hz
    rw [← eq_of_below_isLeaf hxg hx] at hx
    exact hg hx
  refine ⟨rfl, rfl, hwf.shaped x, fun _ => rfl, ?_, fun _ => rfl, fun _ => .inl rfl,
    fun _ => Or.inl,
    fun _ h _ => h, fun hxg => ?_⟩
  · rintro rfl
    exact Nat.pos_of_ne_zero (hi (.refl x))
  · obtain ⟨hlf, hb⟩ := hwf.leaf x (hi hxg)
    exact ⟨hlf, fun h => hg (h ▸ hlf), .inl hb⟩

/-! ## The second part -/

lemma spread_grows {node : Node G} (h : node.Shaped) (hc : 2 ≤ node.children) (leaf c' : G)
    (multi : Option (Node G)) :
    Grows c' (multi.elim [leaf] Node.leaves) node (spread leaf multi c' node) := by
  unfold spread
  rw [if_pos (by omega)]
  cases multi with
  | none => exact addSingleChild_grows h c' leaf
  | some src => exact mergeChildNodes_grows h src c'

lemma climb_spread_returns (hwf : Wf s) (hpr : Prepared s s₁ g c) {own : Node G}
    (ho : own.parent = (s₁ g).parent) (leaf : G) (multi : Option (Node G)) :
    ∃ s₂, Returns (fun steps => climb (fun cur node => .ok (spread leaf multi cur node)) steps g
        (update s₁ g own)) s₂ ∧
      s₂ g = own ∧ (∀ x, ¬ Below (parentOf s) x g → s₂ x = s₁ x) ∧
      ∀ c' p, parentOf s c' = some p → Below (parentOf s) c' g →
        Grows c' (multi.elim [leaf] Node.leaves) (s₁ p) (s₂ p) := by
  have hu : parentOf (update s₁ g own) = parentOf s := by
    funext x
    by_cases hx : x = g
    · subst hx
      rw [parentOf, update_self, ho]
      exact (hpr x).parent
    · rw [parentOf, update_of_ne hx]
      exact (hpr x).parent
  have hg : ∀ c' p, parentOf s c' = some p → Below (parentOf s) c' g →
      Grows c' (multi.elim [leaf] Node.leaves) (s₁ p) (spread leaf multi c' (s₁ p)) := by
    intro c' p hp hc'
    refine spread_grows (hpr p).shaped ?_ leaf c' multi
    rw [(hpr p).children (hwf.ne_of_below_child hp hc').symm]
    exact hwf.two_le_of_parent hp
  obtain ⟨s₂, hc, -, hf, hw⟩ :=
    climb_spec (f := fun cur node => .ok (spread leaf multi cur node)) hwf.acyclic g _ hu (by
      intro c' p hp hc'
      rw [update_of_ne (hwf.ne_of_below_child hp hc').symm]
      exact ⟨_, rfl, (hg c' p hp hc').parent⟩)
  refine ⟨s₂, hc, ?_, ?_, ?_⟩
  · rw [hf g fun c' hp => Below.not_parent hwf.acyclic hp, update_self]
  · intro x hx
    have hxg : x ≠ g := by
      rintro rfl
      exact hx (.refl x)
    rw [hf x fun c' hp hc' => hx ((Below.single hp).trans hc'), update_of_ne hxg]
  · intro c' p hp hc'
    have hw := hw c' p hp hc'
    rw [update_of_ne (hwf.ne_of_below_child hp hc').symm] at hw
    rw [← Except.ok.inj hw]
    exact hg c' p hp hc'

/-- What a leaf that gets a child needs: the new leaf is the only one. -/
def OneLeaf (s : State G) (g c : G) : Prop :=
  IsLeaf s g → ∀ l l', IsLeaf s l → IsLeaf s l' → Below (parentOf s) c l →
    Below (parentOf s) c l' → l = l'

omit [DecidableEq G] in
lemma Prepared.leaves_eq (hp : Prepared s s₁ g c) (hcg : ¬ Below (parentOf s) c g) :
    (s₁ c).leaves = (s c).leaves := by
  have hcn : c ≠ g := by
    rintro rfl
    exact hcg (.refl c)
  simp [Node.leaves, (hp c).children hcn, (hp c).outside hcg]

/-- What is added to the list of `g` itself; of a former leaf, one leaf only. -/
lemma own_grows (hwf : Wf s) (hp : Prepared s s₁ g c) (hcg : ¬ Below (parentOf s) c g)
    (ho : OneLeaf s g c) :
    ∃ ls, Grows c ls (s₁ g) (match (if (s c).children = 0 then none else some c) with
        | some m => if (s g).children = 0 then addSingleChild (s₁ g) c (leafOf s c)
            else mergeChildNodes (s₁ g) (s₁ m) c
        | none => addSingleChild (s₁ g) c (leafOf s c)) ∧
      (∀ l ∈ ls, Below (parentOf s) c l) ∧ ∀ l, IsLeaf s l → Below (parentOf s) c l → l ∈ ls := by
  have hb : ∀ l ∈ [leafOf s c], Below (parentOf s) c l := by
    intro l hl
    rw [mem_singleton.mp hl]
    exact hwf.below_leafOf c
  by_cases hc : (s c).children = 0
  · rw [if_pos hc]
    refine ⟨[leafOf s c], addSingleChild_grows (hp g).shaped c _, hb, fun l hl h => ?_⟩
    rw [leafOf, if_pos hc]
    exact mem_singleton.mpr (eq_of_below_isLeaf h ((hwf.children_eq_zero c).mp hc))
  split_ifs with hg
  · refine ⟨[leafOf s c], addSingleChild_grows (hp g).shaped c _, hb, fun l hl h => ?_⟩
    exact mem_singleton.mpr (ho ((hwf.children_eq_zero g).mp hg) l _ hl (hwf.leafOf_isLeaf c) h
      (hwf.below_leafOf c))
  have ha : (s₁ c).leaves = addedLeaves s c := by
    rw [hp.leaves_eq hcg, addedLeaves, if_neg hc]
  refine ⟨(s₁ c).leaves, mergeChildNodes_grows (hp g).shaped (s₁ c) c, ?_, ?_⟩
  · rw [ha]
    exact fun _ => hwf.below_of_mem_addedLeaves
  · rw [ha]
    exact fun _ => hwf.mem_addedLeaves

lemma addChild_returns (hwf : Wf s) (hcg : ¬ Below (parentOf s) c g) (ho : OneLeaf s g c) :
    ∃ s₁ s₂, Returns (fun steps => addChild steps g c s) s₂ ∧ Prepared s s₁ g c ∧
    Grown s s₁ s₂ g c := by
  obtain ⟨s₁, hf, hpr⟩ : ∃ s₁, Returns (fun steps =>
      if (s g).children = 0 then leafGetsChild steps g c (leafOf s c) s
      else if (s g).children = 1 then listSingleChild steps g s else .ok s) s₁ ∧
      Prepared s s₁ g c := by
    by_cases hz : (s g).children = 0
    · simp only [if_pos hz]
      exact leafGetsChild_prepared hwf ((hwf.children_eq_zero g).mp hz) hcg
    · simp only [if_neg hz, if_neg (hwf.children_ne_one g)]
      exact ⟨s, .of_forall fun _ => rfl, prepared_self hwf fun h =>
        hz ((hwf.children_eq_zero g).mpr h)⟩
  have hcn : c ≠ g := by
    rintro rfl
    exact hcg (.refl c)
  have hc : (s₁ c).children = (s c).children := (hpr c).children hcn
  have hs : Returns (fun steps => searchMultiChildrenNode s₁ steps c)
      (if (s c).children = 0 then none else some c) := by
    rw [← hc]
    exact search_returns (hc ▸ hwf.children_ne_one c)
  have hl : ((if (s c).children = 0 then none else some c).map s₁).elim [leafOf s c] Node.leaves =
      addedLeaves s c := by
    unfold addedLeaves leafOf
    split_ifs with hz
    · simp [map_none]
    · simp [map_some, hpr.leaves_eq hcg]
  obtain ⟨ls, hg, hsb, hal⟩ := own_grows hwf hpr hcg ho
  obtain ⟨s₂, hcl, hs2g, hot, ha⟩ := climb_spread_returns hwf hpr hg.parent (leafOf s c)
    ((if (s c).children = 0 then none else some c).map s₁)
  rw [hl] at ha
  refine ⟨s₁, s₂, ?_, hpr, hot, fun x hx => ?_⟩
  · exact hf.bind (hs.bind hcl)
  · obtain ⟨c', ⟨rfl, rfl⟩ | ⟨hp, hc'⟩⟩ := exists_towards c hx
    · exact ⟨c', ls, .inl ⟨rfl, rfl⟩, hs2g ▸ hg, hsb, hal⟩
    · exact ⟨c', addedLeaves s c, .inr ⟨hp, hc'⟩, ha c' x hp hc',
        fun _ => hwf.below_of_mem_addedLeaves, fun _ => hwf.mem_addedLeaves⟩

end PhpInternals.Zend.ZendGenerators

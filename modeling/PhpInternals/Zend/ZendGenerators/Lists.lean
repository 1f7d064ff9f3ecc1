import PhpInternals.Zend.ZendGenerators.Basic

/-!
# The lists of leaves of one node
-/

namespace PhpInternals.Zend.ZendGenerators

open List

variable {G : Type} {node node' node'' : Node G} {child leaf old new c : G}

/-- The array holds up to four entries, the hash table is used beyond them. -/
structure Node.Shaped (node : Node G) : Prop where
  array : node.children ≤ 4 → ∃ es, node.child = .array es ∧ es.length = node.children
  ht : 4 < node.children → ∃ es, node.child = .ht es

/-- The leaves in a list. -/
def Node.Lists (node : Node G) (l : G) : Prop :=
  ∃ e ∈ node.child.entries, e.leaf = l

/-- Entries for the leaves `ls` have been added, all with the same child. -/
structure Grows (child : G) (ls : List G) (node node' : Node G) : Prop where
  parent : node'.parent = node.parent
  executeData : node'.executeData = node.executeData
  ptr : node'.ptr = node.ptr
  children : node'.children = node.children + ls.length
  shaped : node'.Shaped
  entries : ∀ e ∈ node'.child.entries, e ∈ node.child.entries ∨ e.child = child ∧ e.leaf ∈ ls
  keeps : ∀ l, node.Lists l → node'.Lists l
  lists : ∀ l ∈ ls, node'.Lists l

/-- The leaf `old` has been replaced by `new`, with the child `c`. -/
structure Relabels (old new c : G) (node node' : Node G) : Prop where
  shaped : node'.Shaped
  children : node'.children = node.children
  parent : node'.parent = node.parent
  executeData : node'.executeData = node.executeData
  ptr : node'.ptr = new
  entries : ∀ e ∈ node'.child.entries, e ∈ node.child.entries ∨ e = ⟨new, c⟩
  keeps : ∀ l, node.Lists l → l ≠ old → node'.Lists l

lemma Grows.refl (h : node.Shaped) : Grows child [] node node :=
  ⟨rfl, rfl, rfl, rfl, h, fun _ => Or.inl, fun _ => id, nofun⟩

lemma Grows.trans {ls ms : List G} (h : Grows child ls node node')
    (h' : Grows child ms node' node'') :
    Grows child (ls ++ ms) node node'' where
  parent := h'.parent.trans h.parent
  executeData := h'.executeData.trans h.executeData
  ptr := h'.ptr.trans h.ptr
  children := by rw [h'.children, h.children, length_append, Nat.add_assoc]
  shaped := h'.shaped
  entries e he := by
    rcases h'.entries e he with he | ⟨hc, hl⟩
    · exact (h.entries e he).imp id fun ⟨hc, hl⟩ => ⟨hc, mem_append_left _ hl⟩
    · exact .inr ⟨hc, mem_append_right _ hl⟩
  keeps l hl := h'.keeps l (h.keeps l hl)
  lists l hl := by
    rcases mem_append.mp hl with hl | hl
    · exact h'.keeps l (h.lists l hl)
    · exact h'.lists l hl

variable [DecidableEq G]

variable {es : List (Entry G)} {l : G}

/-! ## Tables -/

lemma lookup_eq_some (h : lookup es l = some c) : ∃ e ∈ es, e.leaf = l ∧ e.child = c := by
  obtain ⟨e, he, rfl⟩ := Option.map_eq_some_iff.mp h
  exact ⟨e, mem_of_find?_eq_some he, by simpa using find?_some he, rfl⟩

lemma lookup_eq_none (h : lookup es l = none) : ∀ e ∈ es, e.leaf ≠ l := by
  simpa [lookup] using h

lemma lookup_of_agree (hl : ∃ e ∈ es, e.leaf = l) (hc : ∀ e ∈ es, e.leaf = l → e.child = c) :
    lookup es l = some c := by
  cases h : lookup es l with
  | none =>
    obtain ⟨e, he, hel⟩ := hl
    exact absurd hel (lookup_eq_none h e he)
  | some c' =>
    obtain ⟨e, he, hel, rfl⟩ := lookup_eq_some h
    rw [hc e he hel]

lemma mem_htAdd {e e' : Entry G} (h : e' ∈ htAdd es e) : e' ∈ es ∨ e' = e := by
  unfold htAdd at h
  split_ifs at h
  · exact .inl h
  · simpa using h

lemma mem_htAdd_of_mem {e e' : Entry G} (h : e' ∈ es) : e' ∈ htAdd es e := by
  unfold htAdd
  split_ifs
  · exact h
  · exact mem_append_left _ h

lemma exists_mem_htAdd (es : List (Entry G)) (e : Entry G) :
    ∃ e' ∈ htAdd es e, e'.leaf = e.leaf := by
  unfold htAdd
  split_ifs with hin
  · obtain ⟨c, hc⟩ := Option.isSome_iff_exists.mp hin
    obtain ⟨e', he', hl, -⟩ := lookup_eq_some hc
    exact ⟨e', he', hl⟩
  · exact ⟨e, mem_append_right _ (mem_singleton_self e), rfl⟩

lemma foldl_htAdd : ∀ (es acc : List (Entry G)), (∀ e ∈ es.foldl htAdd acc, e ∈ acc ∨ e ∈ es) ∧
      ∀ e, e ∈ acc ∨ e ∈ es → ∃ e' ∈ es.foldl htAdd acc, e'.leaf = e.leaf
  | [], acc => ⟨fun _ => Or.inl, fun e he => ⟨e, he.resolve_right nofun, rfl⟩⟩
  | a :: es, acc => by
    obtain ⟨hin, ho⟩ := foldl_htAdd es (htAdd acc a)
    refine ⟨fun e he => ?_, fun e he => ?_⟩
    · rcases hin e he with he | he
      · rcases mem_htAdd he with he | rfl
        · exact .inl he
        · exact .inr mem_cons_self
      · exact .inr (mem_cons_of_mem _ he)
    rcases he with he | he
    · exact ho e (.inl (mem_htAdd_of_mem he))
    · rcases mem_cons.mp he with rfl | he
      · obtain ⟨e', he', hl⟩ := exists_mem_htAdd acc e
        obtain ⟨e'', he'', hl'⟩ := ho e' (.inl he')
        exact ⟨e'', he'', hl'.trans hl⟩
      · exact ho e (.inr he)

/-! ## Adding -/

lemma grows_of_entries {es es' : List (Entry G)} (hes : node.child.entries = es)
    (hs : (addSingleChild node child leaf).child.entries = es')
    (hsh : (addSingleChild node child leaf).Shaped) (hin : ∀ e ∈ es', e ∈ es ∨ e = ⟨leaf, child⟩)
    (hk : ∀ e ∈ es, ∃ e' ∈ es', e'.leaf = e.leaf) (hn : ∃ e' ∈ es', e'.leaf = leaf) :
    Grows child [leaf] node (addSingleChild node child leaf) := by
  subst hes hs
  refine ⟨rfl, rfl, rfl, rfl, hsh, fun e he => (hin e he).imp_right ?_, ?_, fun l hl => ?_⟩
  · rintro rfl
    exact ⟨rfl, mem_singleton_self _⟩
  · rintro l ⟨e, he, rfl⟩
    exact hk e he
  · cases mem_singleton.mp hl
    exact hn

lemma addSingleChild_grows (h : node.Shaped) (child leaf : G) :
    Grows child [leaf] node (addSingleChild node child leaf) := by
  have hsz : (addSingleChild node child leaf).children = node.children + 1 := rfl
  rcases lt_trichotomy node.children 4 with hlt | heq | hgt
  · obtain ⟨es, hes, hln⟩ := h.array (by omega)
    have hs : (addSingleChild node child leaf).child = .array (es ++ [⟨leaf, child⟩]) := by
      simp only [addSingleChild, if_pos hlt, hes, ChildStore.entries]
      rw [← hln, take_length]
    refine grows_of_entries (congrArg _ hes) (congrArg _ hs)
      ⟨fun _ => ⟨_, hs, by simp [hln, hsz]⟩, fun _ => by omega⟩ (fun e he => ?_)
      (fun e he => ⟨e, mem_append_left _ he, rfl⟩) ⟨_, mem_append_right _ mem_cons_self, rfl⟩
    simpa [ChildStore.entries] using he
  · obtain ⟨es, hes, -⟩ := h.array (by omega)
    have hs : (addSingleChild node child leaf).child =
        .ht (htAdd (es.foldl htAdd []) ⟨leaf, child⟩) := by
      simp [addSingleChild, if_neg (show ¬ node.children < 4 by omega),
        if_neg (show ¬ 4 < node.children by omega), hes, ChildStore.entries]
    obtain ⟨hin, ho⟩ := foldl_htAdd es []
    refine grows_of_entries (congrArg _ hes) (congrArg _ hs)
      ⟨fun _ => by omega, fun _ => ⟨_, hs⟩⟩ (fun e he => ?_) (fun e he => ?_)
      (exists_mem_htAdd _ ⟨leaf, child⟩)
    · exact (mem_htAdd he).imp_left fun he => (hin e he).resolve_left nofun
    · obtain ⟨e', he', hl⟩ := ho e (.inr he)
      exact ⟨e', mem_htAdd_of_mem he', hl⟩
  · obtain ⟨es, hes⟩ := h.ht hgt
    have hs : (addSingleChild node child leaf).child = .ht (htAdd es ⟨leaf, child⟩) := by
      simp [addSingleChild, if_neg (show ¬ node.children < 4 by omega), if_pos hgt, hes,
        ChildStore.entries]
    exact grows_of_entries (congrArg _ hes) (congrArg _ hs)
      ⟨fun _ => by omega, fun _ => ⟨_, hs⟩⟩ (fun e => mem_htAdd)
      (fun e he => ⟨e, mem_htAdd_of_mem he, rfl⟩) (exists_mem_htAdd _ ⟨leaf, child⟩)

lemma foldl_addSingleChild_grows : ∀ (ls : List G) {node : Node G}, node.Shaped →
    Grows child ls node (ls.foldl (fun dest leaf => addSingleChild dest child leaf) node)
  | [], _, h => .refl h
  | l :: ls, _, h =>
    have ho := addSingleChild_grows h child l
    ho.trans (foldl_addSingleChild_grows ls ho.shaped)

lemma mergeChildNodes_grows (h : node.Shaped) (src : Node G) (child : G) :
    Grows child src.leaves node (mergeChildNodes node src child) :=
  foldl_addSingleChild_grows src.leaves h

omit [DecidableEq G] in
lemma mem_leaves {src : Node G} : l ∈ src.leaves ↔ src.Lists l := by
  unfold Node.leaves Node.Lists
  split_ifs <;> simp

/-! ## Replacing -/

lemma replaceLast_none : ∀ {es : List (Entry G)}, (∀ e ∈ es, e.leaf ≠ old) →
    replaceLast old new es = none
  | [], _ => rfl
  | a :: es, h => by
    have ha := h a mem_cons_self
    rw [replaceLast, replaceLast_none fun e he => h e (mem_cons_of_mem _ he)]
    simp [if_neg ha]

lemma replaceLast_spec : ∀ {es : List (Entry G)}, (∃ e ∈ es, e.leaf = old) →
    (∀ e ∈ es, e.leaf = old → e.child = c) →
    ∃ es', replaceLast old new es = some es' ∧ es'.length = es.length ∧
      (∀ e ∈ es', e ∈ es ∨ e = ⟨new, c⟩) ∧ ∀ e ∈ es, e.leaf ≠ old → e ∈ es'
  | [], ho, _ => by simp at ho
  | a :: es, ho, hc => by
    unfold replaceLast
    cases hr : replaceLast old new es with
    | some es' =>
      have hin : ∃ e ∈ es, e.leaf = old := by
        by_contra hn
        push Not at hn
        exact absurd hr (by rw [replaceLast_none hn]; simp)
      obtain ⟨es'', hes'', hln, hm, hk⟩ :=
        replaceLast_spec hin fun e he => hc e (mem_cons_of_mem _ he)
      obtain rfl : es' = es'' := Option.some.inj (hr.symm.trans hes'')
      refine ⟨a :: es', rfl, by simp [hln], ?_, ?_⟩
      · intro e he
        rcases mem_cons.mp he with rfl | he
        · exact .inl mem_cons_self
        · exact (hm e he).imp (mem_cons_of_mem _) id
      · intro e he hne
        rcases mem_cons.mp he with rfl | he
        · exact mem_cons_self
        · exact mem_cons_of_mem _ (hk e he hne)
    | none =>
      have ha : a.leaf = old := by
        obtain ⟨e, he, hel⟩ := ho
        rcases mem_cons.mp he with rfl | he
        · exact hel
        · obtain ⟨es', hes', -⟩ := replaceLast_spec ⟨e, he, hel⟩
            fun e he => hc e (mem_cons_of_mem _ he)
          rw [hr] at hes'
          cases hes'
      have hac := hc a mem_cons_self ha
      simp only [if_pos ha, hac]
      refine ⟨_, rfl, rfl, ?_, ?_⟩
      · intro e he
        rcases mem_cons.mp he with rfl | he
        · exact .inr rfl
        · exact .inl (mem_cons_of_mem _ he)
      · intro e he hne
        rcases mem_cons.mp he with rfl | he
        · exact absurd ha hne
        · exact mem_cons_of_mem _ he

/-- **What the first walk does to a node.** -/
theorem relabel_spec (h : node.Shaped) (hch : 2 ≤ node.children) (ho : node.Lists old)
    (hc : ∀ e ∈ node.child.entries, e.leaf = old → e.child = c) :
    ∃ node', relabel old new node = .ok node' ∧ Relabels old new c node node' := by
  unfold relabel
  by_cases hgt : 4 < node.children
  · obtain ⟨es, hes⟩ := h.ht hgt
    rw [Node.Lists, hes] at ho
    rw [hes] at hc
    have hl : lookup node.child.entries old = some c := by
      rw [hes]
      exact lookup_of_agree ho hc
    rw [if_pos hgt]
    simp only [hl]
    refine ⟨_, rfl, ⟨fun hle => ?_, fun _ => ⟨_, rfl⟩⟩, rfl, rfl, rfl, rfl, ?_, ?_⟩
    · simp only at hle
      omega
    · intro e he
      exact (mem_htAdd he).imp mem_of_mem_filter id
    · rintro l ⟨e, he, rfl⟩ hne
      exact ⟨e, mem_htAdd_of_mem (mem_filter.mpr ⟨he, by simpa using hne⟩), rfl⟩
  · obtain ⟨es, hes, hln⟩ := h.array (by omega)
    rw [Node.Lists, hes] at ho
    rw [hes] at hc
    obtain ⟨es', hr, hln', hm, hk⟩ := replaceLast_spec ho hc
    rw [if_neg hgt, if_pos (by omega)]
    simp only [hes] at hr ⊢
    rw [hr]
    refine ⟨_, rfl, ⟨fun _ => ⟨_, rfl, hln'.trans hln⟩, fun hg' => absurd hg' hgt⟩, rfl, rfl, rfl,
      rfl, fun e he => by rw [hes]; exact hm e he, ?_⟩
    rintro l ⟨e, he, rfl⟩ hne
    rw [hes] at he
    exact ⟨e, hk e he hne, rfl⟩

/-! ## Looking up -/

lemma getChild_eq (h : node.Shaped) (hch : 2 ≤ node.children) (hlf : node.Lists leaf)
    (hc : ∀ e ∈ node.child.entries, e.leaf = leaf → e.child = c) :
    getChild node leaf = .ok (some c) := by
  obtain ⟨n, hn⟩ : ∃ n, node.children = n + 2 := ⟨node.children - 2, by omega⟩
  unfold getChild
  by_cases hgt : 4 < node.children
  · obtain ⟨es, hes⟩ := h.ht hgt
    rw [Node.Lists, hes] at hlf
    rw [hes] at hc
    have hlk : lookup es leaf = some c := lookup_of_agree hlf hc
    simp [hn, hes, hlk]
  obtain ⟨es, hes, -⟩ := h.array (by omega)
  rw [Node.Lists, hes] at hlf
  rw [hes] at hc
  have hlk : lookup es.reverse leaf = some c := by
    refine lookup_of_agree ?_ ?_
    · obtain ⟨e, he, hl⟩ := hlf
      exact ⟨e, mem_reverse.mpr he, hl⟩
    · exact fun e he => hc e (mem_reverse.mp he)
  simp [hn, hes, hlk]

end PhpInternals.Zend.ZendGenerators

import PhpInternals.Found.Ring

/-!
# Doubly linked lists that end in null

A list that is known by its first cell: `prev` of the first cell and `next` of the last one are
null.
-/

namespace PhpInternals.Found

open Links Function List

variable {P : Type} [DecidableEq P]

namespace Links

/-- The links with the null pointer as one more cell. -/
def closed (L : Links P) (null head last : P) : Links P :=
  ⟨update L.next null head, update L.prev null last⟩

@[simp] lemma closed_next (L : Links P) (null head last : P) :
    (L.closed null head last).next = update L.next null head := rfl

@[simp] lemma closed_prev (L : Links P) (null head last : P) :
    (L.closed null head last).prev = update L.prev null last := rfl

/-- `x->next = head; if (x->next) x->next->prev = x; x->prev = 0; head = x`. -/
def pushHead (L : Links P) (null head x : P) : Links P :=
  let L := L.setNext x head
  let L := if L.next x = null then L else L.setPrev (L.next x) x
  L.setPrev x null

/-- `if (x->prev) x->prev->next = x->next; else head = x->next; if (x->next) x->next->prev =
x->prev`, with the new first cell. -/
def removeCell (L : Links P) (null head x : P) : P × Links P :=
  let r := if L.prev x = null then (L.next x, L) else (head, L.setNext (L.prev x) (L.next x))
  (r.1, if r.2.next x = null then r.2 else r.2.setPrev (r.2.next x) (r.2.prev x))

end Links

/-- The cells of `l` in order, from `head` on. -/
def HeadList (null : P) (L : Links P) (head : P) (l : List P) : Prop :=
  ∃ last, (L.closed null head last).Ring null l

/-- The cells from `p` on, if there are at most as many as the bound. -/
def collect (null : P) (next : P → P) : ℕ → P → Option (List P)
  | 0, p => if p = null then some [] else none
  | n + 1, p => if p = null then some [] else (collect null next n (next p)).map (p :: ·)

namespace HeadList

variable {null head x : P} {L L' : Links P} {l l1 l2 : List P}

lemma nil : HeadList null L null [] := by
  refine ⟨null, nodup_singleton null, ?_, ?_⟩
  · exact update_self ..
  · exact update_self ..

section

variable (h : HeadList null L head l)
include h

lemma nodup : (null :: l).Nodup := h.choose_spec.nodup

lemma ne_null (hx : x ∈ l) : x ≠ null := fun heq => (nodup_cons.mp h.nodup).1 (heq ▸ hx)

lemma head_eq : head = l.headD null := by
  obtain ⟨last, hr⟩ := h
  have hn := hr.next_head
  rwa [closed_next, update_self] at hn

lemma congr (hn : ∀ p ∈ l, L'.next p = L.next p)
    (hp : ∀ p ∈ l, L'.prev p = L.prev p) : HeadList null L' head l := by
  obtain ⟨last, hr⟩ := h
  have hne : ∀ p ∈ l, p ≠ null := fun p hp heq => hr.head_notMem (heq ▸ hp)
  refine ⟨last, hr.congr (fun p hm => ?_) fun p hm => ?_⟩
  · rcases mem_cons.mp hm with rfl | hm
    · simp
    · simp [update_of_ne (hne p hm), hn p hm]
  · rcases mem_cons.mp hm with rfl | hm
    · simp
    · simp [update_of_ne (hne p hm), hp p hm]

lemma nullList : NullList null L.next head l := by
  obtain ⟨last, hr⟩ := h
  have hf : ∀ l2 l1, l1 ++ l2 = l → NullList null L.next (l2.headD null) l2 := by
    intro l2
    induction l2 with
    | nil => exact fun _ _ => rfl
    | cons y l2 ih =>
      intro l1 hl
      have hm : y ∈ l := hl ▸ mem_append_right _ mem_cons_self
      have hne : y ≠ null := fun heq => hr.head_notMem (heq ▸ hm)
      have hn : L.next y = l2.headD null := by
        have hc := (hl ▸ hr : (L.closed null head last).Ring null (l1 ++ y :: l2)).next_cell
        rwa [closed_next, update_of_ne hne] at hc
      refine ⟨rfl, hne, ?_⟩
      rw [hn]
      exact ih (l1 ++ [y]) (by rw [append_assoc, singleton_append, hl])
  have hhd := head_eq ⟨last, hr⟩
  rw [hhd]
  exact hf l [] rfl

end

/-! ## A new first cell -/

@[simp] lemma pushHead_next (L : Links P) (null head x : P) :
    (L.pushHead null head x).next = update L.next x head := by
  simp only [pushHead]
  split_ifs <;> rfl

@[simp] lemma pushHead_prev (L : Links P) (null head x : P) : (L.pushHead null head x).prev =
    update (if head = null then L.prev else update L.prev head x) x null := by
  simp only [pushHead, setNext_next, update_self]
  split_ifs <;> rfl

lemma pushHead (h : HeadList null L head l) (hx : x ∉ null :: l) :
    HeadList null (L.pushHead null head x) x (x :: l) := by
  have hhd := h.head_eq
  obtain ⟨last, hr⟩ := h
  obtain ⟨hne, hxl⟩ : x ≠ null ∧ x ∉ l := by simpa using hx
  have hxh : head ≠ x := by
    rw [hhd]
    cases l with
    | nil => exact hne.symm
    | cons y l => exact fun heq => hxl (heq ▸ mem_cons_self)
  refine ⟨if head = null then x else last, ?_⟩
  have hc : (L.pushHead null head x).closed null x (if head = null then x else last) =
      (L.closed null head last).insertAfter null x := by
    rw [insertAfter, mk.injEq]
    simp only [closed_next, closed_prev, pushHead_next, pushHead_prev, setNext_next,
      setNext_prev, setPrev_next, setPrev_prev, update_self,
      update_of_ne hne.symm]
    constructor
    · rw [update_comm hne.symm, update_idem]
    · split_ifs with hn
      · rw [hn, update_comm hne.symm, update_idem]
      · rw [update_comm hne, update_comm hn, update_comm hxh]
  rw [hc]
  exact hr.insertAfter hx

/-! ## A cell is taken out -/

@[simp] lemma removeCell_head (L : Links P) (null head x : P) :
    (L.removeCell null head x).1 = if L.prev x = null then L.next x else head := by
  simp only [removeCell]
  split_ifs <;> rfl

@[simp] lemma removeCell_next (L : Links P) (null head x : P) : (L.removeCell null head x).2.next =
    if L.prev x = null then L.next else update L.next (L.prev x) (L.next x) := by
  simp only [removeCell]
  split_ifs <;> rfl

@[simp] lemma removeCell_prev (L : Links P) (null head x : P) : (L.removeCell null head x).2.prev =
    if L.next x = null then L.prev else update L.prev (L.next x) (L.prev x) := by
  have hn : update L.next (L.prev x) (L.next x) x = L.next x := by
    rw [update_apply]
    split_ifs <;> rfl
  simp only [removeCell]
  by_cases hp : L.prev x = null
  · simp only [hp, if_true]
    split_ifs <;> rfl
  · simp only [hp, if_false, setNext_next, setNext_prev, hn]
    split_ifs <;> rfl

lemma removeCell (h : HeadList null L head (l1 ++ x :: l2)) :
    HeadList null (L.removeCell null head x).2 (L.removeCell null head x).1 (l1 ++ l2) := by
  have hne : x ≠ null := h.ne_null (mem_append_right _ mem_cons_self)
  obtain ⟨last, hr⟩ := h
  have hs : L.next x ≠ x := by
    have hcl := hr.next_cell
    rw [closed_next, update_of_ne hne] at hcl
    rw [hcl]
    have hn := (nodup_append'.mp hr.cells_nodup).2.1
    cases l2 with
    | nil => exact hne.symm
    | cons y l2 => exact fun heq => (nodup_cons.mp hn).1 (heq ▸ mem_cons_self)
  refine ⟨if L.next x = null then L.prev x else last, ?_⟩
  have hc : (L.removeCell null head x).2.closed null (L.removeCell null head x).1
      (if L.next x = null then L.prev x else last) = (L.closed null head last).unlink x := by
    rw [unlink, mk.injEq]
    simp only [closed_next, closed_prev, removeCell_head, removeCell_next,
      removeCell_prev, setNext_next, setNext_prev, setPrev_next, setPrev_prev,
      update_of_ne hne, update_of_ne hs.symm]
    constructor
    all_goals
      split_ifs with hnl
      · rw [hnl, update_idem]
      · rw [update_comm hnl]
  rw [hc]
  exact hr.unlink

lemma neighbours (h : HeadList null L head (l1 ++ x :: l2)) :
    L.next x ∈ null :: (l1 ++ l2) ∧ L.prev x ∈ null :: (l1 ++ l2) := by
  have hne : x ≠ null := h.ne_null (mem_append_right _ mem_cons_self)
  obtain ⟨last, hr⟩ := h
  obtain ⟨hb, ha⟩ := Links.Path.append_iff.mp hr.path
  constructor
  · have hn := ha.next_eq
    rw [closed_next, update_of_ne hne] at hn
    rw [hn]
    cases l2 <;> simp
  · have hp := hb.prev_mem
    rw [closed_prev, update_of_ne hne] at hp
    simp only [mem_cons, mem_append] at hp ⊢
    tauto

/-! ## Lists next to each other -/

lemma pushHead_other {head' : P} {l' : List P} (h : HeadList null L head l)
    (h' : HeadList null L head' l') (hx : x ∉ l') (hds : l.Disjoint l') :
    HeadList null (L.pushHead null head x) head' l' := by
  have hhd : ∀ p ∈ l', head ≠ null → p ≠ head := by
    intro p hp hn heq
    have hm : head ∈ l := by
      have := h.head_eq
      cases l with
      | nil => exact absurd this hn
      | cons y l => rw [this]; exact mem_cons_self
    exact hds hm (heq ▸ hp)
  refine h'.congr (fun p hp => ?_) fun p hp => ?_
  · rw [pushHead_next, update_of_ne (ne_of_mem_of_not_mem hp hx)]
  · rw [pushHead_prev, update_of_ne (ne_of_mem_of_not_mem hp hx)]
    split_ifs with hn
    · rfl
    · exact update_of_ne (hhd p hp hn) _ _

lemma removeCell_other {head' : P} {l' : List P} (h : HeadList null L head (l1 ++ x :: l2))
    (h' : HeadList null L head' l') (hds : (l1 ++ x :: l2).Disjoint l') :
    HeadList null (L.removeCell null head x).2 head' l' := by
  have ho : ∀ p ∈ l', ∀ q ∈ null :: (l1 ++ l2), p ≠ q := by
    rintro p hp q hq rfl
    rcases mem_cons.mp hq with hn | hq
    · exact h'.ne_null hp hn
    · refine hds ?_ hp
      simp only [mem_append] at hq ⊢
      tauto
  obtain ⟨hnx, hpr⟩ := h.neighbours
  refine h'.congr (fun p hp => ?_) fun p hp => ?_
  · rw [removeCell_next]
    split_ifs with hn
    · rfl
    · exact update_of_ne (ho p hp _ hpr) _ _
  · rw [removeCell_prev]
    split_ifs with hn
    · rfl
    · exact update_of_ne (ho p hp _ hnx) _ _

end HeadList

/-- **All cells are read** when the bound suffices. -/
theorem NullList.collect_eq {null : P} {next : P → P} : ∀ {l : List P} {n : ℕ} {p : P},
    NullList null next p l → l.length ≤ n → collect null next n p = some l
  | [], 0, p, h, _ => if_pos h
  | [], n + 1, p, h, _ => if_pos h
  | q :: l, 0, p, _, hn => absurd hn (Nat.not_succ_le_zero _)
  | q :: l, n + 1, p, h, hn => by
    obtain ⟨rfl, hne, hta⟩ := h
    rw [collect, if_neg hne, collect_eq hta (Nat.le_of_succ_le_succ hn), Option.map_some]

end PhpInternals.Found

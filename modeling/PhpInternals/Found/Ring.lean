import Mathlib.Data.List.Nodup
import Mathlib.Tactic

/-!
# Doubly linked rings

The links of intrusive lists: every cell of a type `P` has a successor and a predecessor, and a ring
runs from its head through a list of cells back to the head.
-/

namespace PhpInternals.Found

open Function List

/-- The links of every cell. -/
structure Links (P : Type) where
  next : P → P
  prev : P → P

namespace Links

variable {P : Type}

section Writes

variable [DecidableEq P]

/-- `p->next = q`. -/
def setNext (L : Links P) (p q : P) : Links P := { L with next := update L.next p q }

/-- `p->prev = q`. -/
def setPrev (L : Links P) (p q : P) : Links P := { L with prev := update L.prev p q }

/-- Link `x` in behind `head`. -/
def insertAfter (L : Links P) (head x : P) : Links P :=
  let L := L.setNext x (L.next head)
  let L := L.setPrev x head
  let L := L.setPrev (L.next head) x
  L.setNext head x

/-- Take `x` out. -/
def unlink (L : Links P) (x : P) : Links P :=
  let L := L.setPrev (L.next x) (L.prev x)
  L.setNext (L.prev x) (L.next x)

@[simp] lemma setNext_next (L : Links P) (p q : P) : (L.setNext p q).next = update L.next p q := rfl

@[simp] lemma setNext_prev (L : Links P) (p q : P) : (L.setNext p q).prev = L.prev := rfl

@[simp] lemma setPrev_next (L : Links P) (p q : P) : (L.setPrev p q).next = L.next := rfl

@[simp] lemma setPrev_prev (L : Links P) (p q : P) : (L.setPrev p q).prev = update L.prev p q := rfl

end Writes

/-! ## Runs of links -/

/-- The links lead from `a` through the cells of a list to `b`, and back. -/
def Path (L : Links P) : P → List P → P → Prop
  | a, [], b => L.next a = b ∧ L.prev b = a
  | a, x :: l, b => (L.next a = x ∧ L.prev x = a) ∧ L.Path x l b

namespace Path

variable {L L' : Links P} {a b c : P}

lemma append_iff {l1 l2 : List P} : L.Path a (l1 ++ b :: l2) c ↔ L.Path a l1 b ∧ L.Path b l2 c := by
  induction l1 generalizing a with
  | nil => rfl
  | cons x l1 ih => simp only [cons_append, Path, ih, and_assoc]

lemma next_eq : ∀ {l : List P}, L.Path a l b → L.next a = l.headD b
  | [], h => h.1
  | _ :: _, h => h.1.1

lemma prev_mem : ∀ {l : List P} {a : P}, L.Path a l b → L.prev b ∈ a :: l
  | [], _, h => by simp [h.2]
  | _ :: _, _, h => mem_cons_of_mem _ (prev_mem h.2)

lemma congr : ∀ {l : List P} {a : P}, L.Path a l b → (∀ p ∈ a :: l, L'.next p = L.next p) →
    (∀ p ∈ l ++ [b], L'.prev p = L.prev p) → L'.Path a l b
  | [], a, h, hn, hp => ⟨by rw [hn a (by simp), h.1], by rw [hp b (by simp), h.2]⟩
  | x :: l, a, h, hn, hp => by
    refine ⟨⟨by rw [hn a (by simp), h.1.1], by rw [hp x (by simp), h.1.2]⟩, ?_⟩
    exact congr h.2 (fun p hp' => hn p (mem_cons_of_mem _ hp'))
      fun p hp' => hp p (mem_cons_of_mem _ hp')

/-- The end of a path can be moved. -/
lemma retarget {b' : P} : ∀ {l : List P} {a : P}, L.Path a l b → (a :: l).Nodup →
    L'.next (L.prev b) = b' → L'.prev b' = L.prev b →
    (∀ p ∈ a :: l, p ≠ L.prev b → L'.next p = L.next p) →
    (∀ p ∈ l, L'.prev p = L.prev p) → L'.Path a l b'
  | [], a, h, _, hnx, hpr, _, _ => by
    rw [h.2] at hnx hpr
    exact ⟨hnx, hpr⟩
  | x :: l, a, h, hnd, hnx, hpr, hn, hp => by
    have hne : a ≠ L.prev b := fun he =>
      (nodup_cons.mp hnd).1 (he ▸ prev_mem h.2)
    refine ⟨⟨by rw [hn a (by simp) hne, h.1.1], by rw [hp x (by simp), h.1.2]⟩, ?_⟩
    exact retarget h.2 (nodup_cons.mp hnd).2 hnx hpr (fun p hp' => hn p (mem_cons_of_mem _ hp'))
      fun p hp' => hp p (mem_cons_of_mem _ hp')

lemma restart {a' : P} {l : List P} (h : L.Path a l b) (hnx : L'.next a' = L.next a)
    (hpr : L'.prev (L.next a) = a') (hn : ∀ p ∈ l, L'.next p = L.next p)
    (hp : ∀ p ∈ (l ++ [b]).tail, L'.prev p = L.prev p) : L'.Path a' l b := by
  cases l with
  | nil =>
    rw [h.1] at hnx hpr
    exact ⟨hnx, hpr⟩
  | cons x l =>
    rw [h.1.1] at hnx hpr
    exact ⟨⟨hnx, hpr⟩, h.2.congr hn hp⟩

end Path

/-! ## Rings -/

/-- A well-formed ring: its cells are distinct, and the links lead once around. -/
structure Ring (L : Links P) (head : P) (l : List P) : Prop where
  nodup : (head :: l).Nodup
  path : L.Path head l head

namespace Ring

variable {L L' : Links P} {head x p : P} {l l1 l2 : List P}

lemma head_notMem (h : L.Ring head l) : head ∉ l := (nodup_cons.mp h.nodup).1

lemma cells_nodup (h : L.Ring head l) : l.Nodup := (nodup_cons.mp h.nodup).2

lemma next_head (h : L.Ring head l) : L.next head = l.headD head := h.path.next_eq

lemma next_head_eq_iff (h : L.Ring head l) : L.next head = head ↔ l = [] := by
  rw [h.next_head]
  cases l with
  | nil => simp
  | cons y l =>
    have := h.head_notMem
    simp only [headD_cons, reduceCtorEq, iff_false]
    rintro rfl
    simp at this

lemma next_cell (h : L.Ring head (l1 ++ x :: l2)) :
    L.next x = l2.headD head := (Links.Path.append_iff.mp h.path).2.next_eq

lemma congr (h : L.Ring head l) (hn : ∀ p ∈ head :: l, L'.next p = L.next p)
    (hp : ∀ p ∈ head :: l, L'.prev p = L.prev p) : L'.Ring head l := by
  refine ⟨h.nodup, h.path.congr hn fun p hm => hp p ?_⟩
  simpa [or_comm] using hm

lemma frame (h : L.Ring head l)
    (hf : ∀ p ∈ head :: l, L'.next p = L.next p ∧ L'.prev p = L.prev p) : L'.Ring head l :=
  h.congr (fun p hp => (hf p hp).1) fun p hp => (hf p hp).2

section Writes

variable [DecidableEq P]

/-- Inserting after the head puts the cell first. -/
lemma insertAfter (h : L.Ring head l) (hx : x ∉ head :: l) :
    (L.insertAfter head x).Ring head (x :: l) := by
  obtain ⟨hxh, hxl⟩ : x ≠ head ∧ x ∉ l := by simpa using hx
  have hhl := h.head_notMem
  have hf := h.next_head
  have hfx : L.next head ≠ x := fun he => hx <| he ▸ by
    rw [hf]
    cases l <;> simp
  refine ⟨?_, ⟨by simp [Links.insertAfter], ?_⟩, ?_⟩
  · simp [hxh.symm, hhl, hxl, h.cells_nodup]
  · simp [Links.insertAfter, update_of_ne hxh.symm, update_of_ne hfx.symm]
  refine h.path.restart ?_ ?_ (fun p hp => ?_) fun p hp => ?_
  · simp [Links.insertAfter, update_of_ne hxh]
  · simp [Links.insertAfter, update_of_ne hxh.symm]
  · have hph : p ≠ head := fun he => hhl (he ▸ hp)
    have hpx : p ≠ x := fun he => hxl (he ▸ hp)
    simp [Links.insertAfter, update_of_ne hph, update_of_ne hpx]
  have hpx : p ≠ x := by
    rintro rfl
    have := mem_of_mem_tail hp
    simp [hxl, hxh] at this
  have hpf : p ≠ L.next head := by
    rw [hf]
    rintro rfl
    cases l with
    | nil => simp at hp
    | cons y l =>
      have hnd := h.cells_nodup
      simp only [cons_append, tail_cons, headD_cons, mem_append, mem_singleton] at hp
      rcases hp with hp | rfl
      · exact (nodup_cons.mp hnd).1 hp
      · simp at hhl
  simp [Links.insertAfter, update_of_ne hxh.symm, update_of_ne hpf, update_of_ne hpx]

/-- Unlinking takes the cell out. -/
lemma unlink (h : L.Ring head (l1 ++ x :: l2)) : (L.unlink x).Ring head (l1 ++ l2) := by
  obtain ⟨hb, ha⟩ := Links.Path.append_iff.mp h.path
  have hnd := h.nodup
  have hs : (head :: l1).Nodup ∧ (x :: l2).Nodup ∧ List.Disjoint (head :: l1) (x :: l2) := by
    rw [← cons_append, nodup_append'] at hnd
    exact hnd
  obtain ⟨hnd1, hnd2, hds⟩ := hs
  have hpr : L.prev x ∈ head :: l1 := hb.prev_mem
  have hn : L.next x = l2.headD head := ha.next_eq
  have hnx : L.next x ≠ x := by
    rw [hn]
    cases l2 with
    | nil => exact fun he => hds (mem_cons_self ..) (he ▸ mem_cons_self ..)
    | cons y l2 => exact fun he => (nodup_cons.mp hnd2).1 (he ▸ by simp)
  have hn' : (L.unlink x).next = update L.next (L.prev x) (L.next x) := by
    simp [Links.unlink, update_of_ne hnx.symm]
  have hp' : (L.unlink x).prev = update L.prev (L.next x) (L.prev x) := rfl
  refine ⟨?_, ?_⟩
  · exact hnd.sublist ((List.Sublist.refl _).append (sublist_cons_self x l2) |>.cons_cons head)
  have hld : (L.unlink x).Path head l1 (l2.headD head) := by
    refine hb.retarget hnd1 ?_ ?_ (fun p _ hp => ?_) fun p hp => ?_
    · rw [hn', update_self, hn]
    · rw [hp', ← hn, update_self]
    · rw [hn', update_of_ne hp]
    rw [hp', update_of_ne]
    rw [hn]
    rintro rfl
    cases l2 with
    | nil => exact (nodup_cons.mp hnd1).1 hp
    | cons y l2 => exact hds (mem_cons_of_mem _ hp) (by simp)
  cases l2 with
  | nil => simpa using hld
  | cons y l2 =>
    refine Links.Path.append_iff.mpr ⟨hld, ha.2.congr (fun p hp => ?_) fun p hp => ?_⟩
    · rw [hn', update_of_ne]
      rintro rfl
      exact hds hpr (mem_cons_of_mem _ hp)
    rw [hp', hn, update_of_ne]
    rintro rfl
    simp only [mem_append, mem_singleton] at hp
    rcases hp with hp | hp
    · exact (nodup_cons.mp (nodup_cons.mp hnd2).2).1 hp
    · exact hds (mem_cons_self ..) (hp ▸ by simp)

/-- Cells elsewhere keep their links. -/
lemma insertAfter_frame (h : L.Ring head l) (hpx : p ≠ x) (hp : p ∉ head :: l) :
    (L.insertAfter head x).next p = L.next p ∧ (L.insertAfter head x).prev p = L.prev p := by
  have hph : p ≠ head := fun he => hp (he ▸ mem_cons_self ..)
  have hf : p ≠ (L.setNext x (L.next head)).next head := by
    rw [setNext_next]
    by_cases hhx : head = x
    · subst hhx
      rw [h.next_head]
      rintro rfl
      exact hp (by cases l <;> simp)
    · rw [update_of_ne hhx, h.next_head]
      rintro rfl
      exact hp (by cases l <;> simp)
  constructor
  · simp [Links.insertAfter, update_of_ne hph, update_of_ne hpx]
  · simp only [setNext_next] at hf
    simp [Links.insertAfter, update_of_ne hpx, update_of_ne hf]

/-- Taking a cell out leaves its own links and those outside the ring alone. -/
lemma unlink_frame (h : L.Ring head (l1 ++ x :: l2)) (hp : p ∉ head :: (l1 ++ l2)) :
    (L.unlink x).next p = L.next p ∧ (L.unlink x).prev p = L.prev p := by
  obtain ⟨hb, ha⟩ := Links.Path.append_iff.mp h.path
  have hpr : L.prev x ∈ head :: (l1 ++ l2) := by
    have := hb.prev_mem
    simp only [mem_cons, mem_append] at this ⊢
    tauto
  have hn : L.next x ∈ head :: (l1 ++ l2) := by
    rw [ha.next_eq]
    cases l2 <;> simp
  have hpn : p ≠ L.next x := fun he => hp (he ▸ hn)
  have hxn : x ≠ L.next x := by
    have hx : x ∉ head :: (l1 ++ l2) := by
      have hnd := h.nodup
      simp only [nodup_cons, mem_append, mem_cons, nodup_append'] at hnd ⊢
      tauto
    exact fun he => hx (he ▸ hn)
  have hpp : p ≠ L.prev x := fun he => hp (he ▸ hpr)
  constructor
  · simp [Links.unlink, update_of_ne hxn, update_of_ne hpp]
  · simp [Links.unlink, update_of_ne hpn]

end Writes

/-- What appending the cells of one ring to another does to the links. -/
structure Transferred (L L' : Links P) (src dst : P) : Prop where
  next_src : L'.next src = src
  prev_src : L'.prev src = src
  next_joint : L'.next (L.prev dst) = L.next src
  prev_joint : L'.prev (L.next src) = L.prev dst
  next_last : L'.next (L.prev src) = dst
  prev_dst : L'.prev dst = L.prev src
  next_other : ∀ p, p ≠ src → p ≠ L.prev src → p ≠ L.prev dst → L'.next p = L.next p
  prev_other : ∀ p, p ≠ src → p ≠ L.next src → p ≠ dst → L'.prev p = L.prev p

/-- **The cells of a ring appended to another.** -/
theorem transfer {src dst : P} (h1 : L.Ring src l1) (h2 : L.Ring dst l2)
    (hne : l1 ≠ []) (hds : List.Disjoint (src :: l1) (dst :: l2))
    (ht : Transferred L L' src dst) : L'.Ring dst (l2 ++ l1) ∧ L'.Ring src [] := by
  refine ⟨⟨?_, ?_⟩, ⟨by simp, ht.next_src, ht.prev_src⟩⟩
  · rw [← cons_append, nodup_append']
    exact ⟨h2.nodup, h1.cells_nodup, fun p hp hp' => hds (mem_cons_of_mem _ hp') hp⟩
  cases l1 with
  | nil => exact absurd rfl hne
  | cons f t =>
    have hf : L.next src = f := h1.next_head
    have hi := h1.path.2
    have hls : L.prev src ∈ f :: t := hi.prev_mem
    have hl : L.prev dst ∈ dst :: l2 := h2.path.prev_mem
    have hs := h1.head_notMem
    have hdt := h2.head_notMem
    have hft := (nodup_cons.mp h1.cells_nodup).1
    refine Links.Path.append_iff.mpr ⟨?_, ?_⟩
    · refine h2.path.retarget h2.nodup ?_ ?_ (fun p hp hpl => ?_) fun p hp => ?_
      · rw [ht.next_joint, hf]
      · rw [← hf, ht.prev_joint]
      · refine ht.next_other p (fun he => ?_) (fun he => ?_) hpl
        · exact hds (mem_cons_self ..) (he ▸ hp)
        · exact hds (mem_cons_of_mem _ hls) (he ▸ hp)
      · have hp' := mem_cons_of_mem dst hp
        refine ht.prev_other p (fun he => ?_) (fun he => ?_) fun he => hdt (he ▸ hp)
        · exact hds (mem_cons_self ..) (he ▸ hp')
        · exact hds (mem_cons_of_mem _ (hf ▸ mem_cons_self ..)) (he ▸ hp')
    · refine hi.retarget h1.cells_nodup ht.next_last ht.prev_dst (fun p hp hpl => ?_) fun p hp => ?_
      · refine ht.next_other p (fun he => hs (he ▸ hp)) hpl fun he => ?_
        exact hds (mem_cons_of_mem _ hp) (he ▸ hl)
      · have hp' := mem_cons_of_mem f hp
        refine ht.prev_other p (fun he => hs (he ▸ hp')) (fun he => ?_) fun he => ?_
        · exact hft (hf ▸ he ▸ hp)
        · exact hds (mem_cons_of_mem _ hp') (he ▸ mem_cons_self ..)

end Ring

end Links

/-! ## Lists that end in a null pointer -/

section NullList

variable {P : Type} {null : P} {next next' : P → P}

/-- The links lead from `p` through the cells of a list to the null pointer. -/
def NullList (null : P) (next : P → P) : P → List P → Prop
  | p, [] => p = null
  | p, q :: l => p = q ∧ q ≠ null ∧ NullList null next (next q) l

namespace NullList

lemma congr : ∀ {l : List P} {p : P}, NullList null next p l → (∀ q ∈ l, next' q = next q) →
    NullList null next' p l
  | [], _, h, _ => h
  | q :: l, p, ⟨hpq, hne, h⟩, hk => by
    refine ⟨hpq, hne, ?_⟩
    rw [hk q (mem_cons_self ..)]
    exact congr h fun r hr => hk r (mem_cons_of_mem _ hr)

/-- The links determine the list. -/
lemma unique : ∀ {l l' : List P} {p : P}, NullList null next p l → NullList null next p l' → l = l'
  | [], [], _, _, _ => rfl
  | [], q :: l', p, h, h' => absurd (h'.1.symm.trans h) h'.2.1
  | q :: l, [], p, h, h' => absurd (h.1.symm.trans h') h.2.1
  | q :: l, q' :: l', p, ⟨hq, _, h⟩, ⟨hq', _, h'⟩ => by
    obtain rfl : q = q' := hq.symm.trans hq'
    rw [unique h h']

variable {q : P}

lemma of_append {l2 : List P} : ∀ {l1 : List P} {p : P},
    NullList null next p (l1 ++ q :: l2) → NullList null next (next q) l2
  | [], _, h => h.2.2
  | _ :: _, _, h => of_append h.2.2

lemma nodup : ∀ {l : List P} {p : P}, NullList null next p l → l.Nodup
  | [], _, _ => nodup_nil
  | q :: l, p, h => by
    refine nodup_cons.mpr ⟨fun hm => ?_, nodup h.2.2⟩
    -- the list behind the second occurrence would be the whole rest
    obtain ⟨l1, l2, rfl⟩ := append_of_mem hm
    have hln := congrArg length (unique h.2.2 (of_append h.2.2))
    simp only [length_append, length_cons] at hln
    omega

end NullList

end NullList

/-! ## The loop around a ring -/

section Walk

variable {P σ ε : Type} [DecidableEq P]

/-- The loop `while (current != head)`, whose body returns the next cell. -/
def ringWalk (exhausted : ε) (head : P) (body : P → σ → Except ε (σ × P)) :
    ℕ → P → σ → Except ε σ
  | 0, _, _ => .error exhausted
  | fuel + 1, current, s =>
    if current = head then .ok s
    else do
      let (s', next) ← body current s
      ringWalk exhausted head body fuel next s'

variable {body : P → σ → Except ε (σ × P)} {Q : List P → σ → Prop} {exhausted : ε}

/-- **A walk that frees its way goes through the whole ring.** -/
lemma ringWalk_total {head : P} (hbd : ∀ p rest s, Q (p :: rest) s →
      p ≠ head ∧ ∃ s', body p s = .ok (s', rest.headD head) ∧ Q rest s') :
    ∀ (l : List P) (fuel : ℕ) (s : σ), l.length < fuel → Q l s →
      ∃ s', ringWalk exhausted head body fuel (l.headD head) s = .ok s' ∧ Q [] s'
  | _, 0, _, hlt, _ => absurd hlt (Nat.not_lt_zero _)
  | [], fuel + 1, s, _, h => ⟨s, by simp [ringWalk], h⟩
  | p :: l, fuel + 1, s, hlt, h => by
    obtain ⟨hne, s1, hok, hQ⟩ := hbd p l s h
    obtain ⟨s2, hok2, hQ2⟩ := ringWalk_total hbd l fuel s1 (Nat.lt_of_succ_lt_succ hlt) hQ
    refine ⟨s2, ?_, hQ2⟩
    rw [headD_cons, ringWalk, if_neg hne, hok]
    exact hok2

/-- **The rule for a loop that is known to return.** -/
theorem ringWalk_preserves {head : P} (hbd : ∀ p rest s, Q (p :: rest) s →
      p ≠ head ∧ ∀ s' next, body p s = .ok (s', next) → next = rest.headD head ∧ Q rest s') :
    ∀ (fuel : ℕ) (l : List P) (s s' : σ), Q l s →
      ringWalk exhausted head body fuel (l.headD head) s = .ok s' → Q [] s'
  | 0, _, _, _, _, hok => nomatch hok
  | fuel + 1, [], s, s', h, hok => by
    simp only [headD_nil, ringWalk, if_true] at hok
    exact Except.ok.inj hok ▸ h
  | fuel + 1, p :: l, s, s', h, hok => by
    obtain ⟨hne, hsp⟩ := hbd p l s h
    rw [headD_cons, ringWalk, if_neg hne] at hok
    cases hb : body p s with
    | error e =>
      rw [hb] at hok
      cases hok
    | ok r =>
      obtain ⟨hn, hQ⟩ := hsp r.1 r.2 hb
      have hrs : ringWalk exhausted head body fuel r.2 r.1 = .ok s' := by rwa [hb] at hok
      rw [hn] at hrs
      exact ringWalk_preserves hbd fuel l r.1 s' hQ hrs

end Walk

end PhpInternals.Found

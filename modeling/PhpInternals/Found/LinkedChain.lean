import Mathlib.Data.Nat.Nth
import Mathlib.Tactic

/-!
# Singly linked chains threaded through an array in decreasing index order

An intrusive hash table keeps, for every slot `s`, the index of the last array cell that belongs
to `s`, and for every cell the index of the previous cell of the same slot. This file develops
that shape on its own, for any membership relation and any index `bot` standing for "no cell".
-/

namespace PhpInternals.Found

open Function

/-! ## The last index below a bound -/

/-- The largest index below `n` that satisfies `p`, or `bot` when there is none. -/
def lastBelow (p : ℕ → Prop) [DecidablePred p] (bot : ℕ) : ℕ → ℕ
  | 0 => bot
  | n + 1 => if p n then n else lastBelow p bot n

/-- The indices below `n` that satisfy `p`, in decreasing order. -/
def below (p : ℕ → Prop) [DecidablePred p] : ℕ → List ℕ
  | 0 => []
  | n + 1 => if p n then n :: below p n else below p n

section LastBelow

variable {p q : ℕ → Prop} [DecidablePred p] [DecidablePred q] {bot : ℕ}

lemma lastBelow_succ_of_pos {n : ℕ} (h : p n) : lastBelow p bot (n + 1) = n := by
  rw [lastBelow, if_pos h]

lemma lastBelow_succ_of_neg {n : ℕ} (h : ¬ p n) : lastBelow p bot (n + 1) = lastBelow p bot n := by
  rw [lastBelow, if_neg h]

lemma lastBelow_congr {n : ℕ} (h : ∀ i < n, (p i ↔ q i)) :
    lastBelow p bot n = lastBelow q bot n := by
  induction n with
  | zero => rfl
  | succ n ih =>
    have ih' := ih fun i hi => h i (by omega)
    by_cases hp : p n
    · rw [lastBelow_succ_of_pos hp, lastBelow_succ_of_pos ((h n (by omega)).mp hp)]
    · rw [lastBelow_succ_of_neg hp, lastBelow_succ_of_neg (fun hq => hp ((h n (by omega)).mpr hq)),
        ih']

/-- Either nothing below `n` satisfies `p`, or `lastBelow` is the greatest index that does. -/
lemma lastBelow_cases (p : ℕ → Prop) [DecidablePred p] (bot n : ℕ) :
    (lastBelow p bot n = bot ∧ ∀ i < n, ¬ p i) ∨ (lastBelow p bot n < n ∧ p (lastBelow p bot n) ∧
        ∀ i, lastBelow p bot n < i → i < n → ¬ p i) := by
  induction n with
  | zero => exact .inl ⟨rfl, fun i hi => absurd hi (by omega)⟩
  | succ n ih =>
    by_cases hp : p n
    · rw [lastBelow_succ_of_pos hp]
      exact .inr ⟨by omega, hp, fun i h1 h2 => absurd h1 (by omega)⟩
    rw [lastBelow_succ_of_neg hp]
    rcases ih with ⟨hb, hn⟩ | ⟨hlt, hm, hg⟩
    · refine .inl ⟨hb, fun i hi => ?_⟩
      rcases Nat.lt_succ_iff_lt_or_eq.mp hi with h | rfl
      · exact hn i h
      · exact hp
    · refine .inr ⟨by omega, hm, fun i h1 h2 => ?_⟩
      rcases Nat.lt_succ_iff_lt_or_eq.mp h2 with h | rfl
      · exact hg i h1 h
      · exact hp

/-- Nothing in `[m, n)` satisfies `p`, so the two bounds see the same last index. -/
lemma lastBelow_eq_of_gap {m n : ℕ} (hmn : m ≤ n) (h : ∀ i, m ≤ i → i < n → ¬ p i) :
    lastBelow p bot n = lastBelow p bot m := by
  induction n, hmn using Nat.le_induction with
  | base => rfl
  | succ n hmn ih =>
    rw [lastBelow_succ_of_neg (h n hmn (by omega))]
    exact ih fun i h1 h2 => h i h1 (by omega)

lemma lastBelow_eq_of_isLast {n i : ℕ} (hi : i < n) (hp : p i)
    (hg : ∀ j, i < j → j < n → ¬ p j) : lastBelow p bot n = i := by
  rw [lastBelow_eq_of_gap (m := i + 1) (by omega) fun j h1 h2 => hg j (by omega) h2,
    lastBelow_succ_of_pos hp]

@[simp] lemma mem_below {n i : ℕ} : i ∈ below p n ↔ i < n ∧ p i := by
  induction n with
  | zero => simp [below]
  | succ n ih =>
    by_cases hp : p n
    · simp only [below, if_pos hp, List.mem_cons, ih]
      constructor
      · rintro (rfl | ⟨h1, h2⟩)
        · exact ⟨by omega, hp⟩
        · exact ⟨by omega, h2⟩
      · rintro ⟨h1, h2⟩
        by_cases hin : i = n
        · exact .inl hin
        · exact .inr ⟨by omega, h2⟩
    simp only [below, if_neg hp, ih]
    constructor
    · rintro ⟨h1, h2⟩
      exact ⟨by omega, h2⟩
    · rintro ⟨h1, h2⟩
      refine ⟨?_, h2⟩
      by_contra hge
      have : i = n := by omega
      exact hp (this ▸ h2)

lemma below_pairwise (p : ℕ → Prop) [DecidablePred p] (n : ℕ) : (below p n).Pairwise (· > ·) := by
  induction n with
  | zero => simp [below]
  | succ n ih =>
    by_cases hp : p n
    · simp only [below, if_pos hp, List.pairwise_cons]
      exact ⟨fun i hi => (mem_below.mp hi).1, ih⟩
    · simpa only [below, if_neg hp] using ih

/-- `below` unfolds at its greatest element: the head is `lastBelow`, the tail is what lies below
that. -/
lemma below_eq_cons_of_mem (bot : ℕ) {n i : ℕ} (hi : i < n) (hp : p i) :
    below p n = lastBelow p bot n :: below p (lastBelow p bot n) := by
  induction n with
  | zero => omega
  | succ n ih =>
    by_cases hn : p n
    · rw [lastBelow_succ_of_pos hn, below, if_pos hn]
    · rw [lastBelow_succ_of_neg hn, below, if_neg hn]
      have hne : i ≠ n := fun h => hn (h ▸ hp)
      exact ih (by omega)

lemma below_eq_nil {n : ℕ} (h : ∀ i < n, ¬ p i) : below p n = [] := by
  rw [List.eq_nil_iff_forall_not_mem]
  intro i hi
  exact h i (mem_below.mp hi).1 (mem_below.mp hi).2

end LastBelow

/-! ## The chain invariant -/

/-- **The chain invariant.** `mem s i` says that cell `i` belongs to slot `s`; `hd` is the head of
every chain over the cells below `n` and `nx` the link of a cell (`none` for a cell whose link was
never written). -/
structure Linked (bot : ℕ) (hd : ℕ → ℕ) (nx : ℕ → Option ℕ) (mem : ℕ → ℕ → Prop)
    [∀ s, DecidablePred (mem s)] (n : ℕ) : Prop where
  /-- The head of a slot is its last member. -/
  head : ∀ s, hd s = lastBelow (mem s) bot n
  /-- The link of a member is the last member of its slot below it. -/
  link : ∀ s i, i < n → mem s i → nx i = some (lastBelow (mem s) bot i)

section Linked

variable {bot n s0 idx : ℕ} {hd hd' : ℕ → ℕ} {nx nx' : ℕ → Option ℕ} {mem mem' : ℕ → ℕ → Prop}
  [∀ s, DecidablePred (mem s)] [∀ s, DecidablePred (mem' s)]

lemma Linked.zero (hhd : ∀ s, hd s = bot) : Linked bot hd nx mem 0 :=
  ⟨hhd, fun _ _ hi => absurd hi (by omega)⟩

/-- The invariant only reads the heads, the links of members and the membership below `n`. -/
lemma Linked.congr (h : Linked bot hd nx mem n) (hhd : ∀ s, hd' s = hd s)
    (hmm : ∀ s, ∀ i < n, (mem' s i ↔ mem s i))
    (hnx : ∀ s, ∀ i < n, mem' s i → nx' i = nx i) : Linked bot hd' nx' mem' n := by
  refine ⟨fun s => ?_, fun s i hi hm => ?_⟩
  · rw [hhd, h.head s]
    exact (lastBelow_congr (hmm s)).symm
  · rw [hnx s i hi hm, h.link s i hi ((hmm s i hi).mp hm)]
    exact congrArg some (lastBelow_congr fun j hj => (hmm s j (by omega)).symm)

/-- **Prepending the new largest cell.** Cell `n` joins slot `s0`: it links to the old head and
becomes the head. -/
theorem Linked.snoc (s0 : ℕ) (h : Linked bot hd nx mem n)
    (hmm : ∀ s, ∀ i < n, (mem' s i ↔ mem s i)) (hnw : ∀ s, mem' s n ↔ s = s0)
    (hhd : hd' = update hd s0 n) (hnx : nx' n = some (hd s0))
    (hnx' : ∀ s, ∀ i < n, mem s i → nx' i = nx i) : Linked bot hd' nx' mem' (n + 1) := by
  have hl : ∀ s, ∀ i ≤ n, lastBelow (mem' s) bot i = lastBelow (mem s) bot i :=
    fun s i hi => lastBelow_congr fun j hj => hmm s j (by omega)
  refine ⟨fun s => ?_, fun s i hi hm => ?_⟩
  · rw [hhd]
    by_cases hs : s = s0
    · subst hs
      rw [update_self, lastBelow_succ_of_pos ((hnw s).mpr rfl)]
    · rw [update_of_ne hs, lastBelow_succ_of_neg (fun hm => hs ((hnw s).mp hm)),
        hl s n le_rfl, h.head s]
  rcases Nat.lt_succ_iff_lt_or_eq.mp hi with hlt | rfl
  · have hm' := (hmm s i hlt).mp hm
    rw [hnx' s i hlt hm', h.link s i hlt hm', hl s i hlt.le]
  · have hs := (hnw s).mp hm
    subst hs
    rw [hnx, hl s i le_rfl, h.head s]

section

variable (h : Linked bot hd nx mem n)
include h

lemma Linked.link_inj (hbt : n ≤ bot) {s i j : ℕ}
    (hi : i < n) (hj : j < n) (hmi : mem s i) (hmj : mem s j) (hidx : idx < n)
    (hni : nx i = some idx) (hnj : nx j = some idx) : i = j := by
  have key : ∀ a b : ℕ, a < b → b < n → mem s a → mem s b → nx b = some idx → a ≤ idx := by
    intro a b hab hb hma hmb hnb
    have hlb := Option.some.inj ((h.link s b hb hmb).symm.trans hnb)
    rcases lastBelow_cases (mem s) bot b with ⟨-, hnn⟩ | ⟨-, -, hg⟩
    · exact absurd hma (hnn a hab)
    · by_contra hlt
      exact hg a (by omega) hab hma
  have hlt : ∀ a : ℕ, a < n → mem s a → nx a = some idx → idx < a := by
    intro a ha hma hna
    have hla := Option.some.inj ((h.link s a ha hma).symm.trans hna)
    rcases lastBelow_cases (mem s) bot a with ⟨hb, -⟩ | ⟨hl, -, -⟩
    · omega
    · omega
  have hid := hlt i hi hmi hni
  have hix := hlt j hj hmj hnj
  rcases Nat.lt_trichotomy i j with hij | hij | hij
  · have := key i j hij hj hmi hmj hnj
    omega
  · exact hij
  · have := key j i hij hi hmj hmi hni
    omega

lemma Linked.shrink {m : ℕ} (hmn : m ≤ n)
    (hg : ∀ s i, m ≤ i → i < n → ¬ mem s i) : Linked bot hd nx mem m := by
  refine ⟨fun s => ?_, fun s i hi hm => h.link s i (by omega) hm⟩
  rw [h.head s]
  exact lastBelow_eq_of_gap hmn (hg s)

/-- **Unlinking one cell.** `idx` leaves slot `s0`; the cell (or the head) that pointed at it now
points at what it pointed at. `prev` is that cell, `none` standing for the head. -/
theorem Linked.remove (hbt : n ≤ bot) (hid : idx < n) (hin : mem s0 idx)
    (hu : ∀ s s' i, mem s i → mem s' i → s = s')
    (hme : ∀ s i, i < n → (mem' s i ↔ mem s i ∧ i ≠ idx))
    (hhd : ∀ s, hd' s = if hd s = idx then lastBelow (mem s0) bot idx else hd s)
    (hnx : ∀ s i, i < n → mem' s i →
      nx' i = if nx i = some idx then some (lastBelow (mem s0) bot idx) else nx i) :
    Linked bot hd' nx' mem' n := by
  -- removing `idx` changes the last member only where `idx` was that member
  have key : ∀ s m, m ≤ n → lastBelow (mem' s) bot m =
      if lastBelow (mem s) bot m = idx then lastBelow (mem s0) bot idx
      else lastBelow (mem s) bot m := by
    intro s m hm
    rcases lastBelow_cases (mem s) bot m with ⟨hb, hnn⟩ | ⟨hlt, hmm, hg⟩
    · rw [hb, if_neg (by omega)]
      rcases lastBelow_cases (mem' s) bot m with ⟨hb', -⟩ | ⟨hl', hmm', -⟩
      · exact hb'
      · exact absurd ((hme s _ (by omega)).mp hmm').1 (hnn _ hl')
    split_ifs with hi
    · have hs : s = s0 := hu s s0 idx (hi ▸ hmm) hin
      subst hs
      have hg' : ∀ j, idx ≤ j → j < m → ¬ mem' s j := by
        intro j h1 h2 hj
        have hj' := (hme s j (by omega)).mp hj
        exact hg j (by omega) h2 hj'.1
      rw [lastBelow_eq_of_gap (by omega) hg']
      refine lastBelow_congr fun j hj => ?_
      rw [hme s j (by omega)]
      exact ⟨fun hh => hh.1, fun hh => ⟨hh, by omega⟩⟩
    · refine lastBelow_eq_of_isLast hlt ((hme s _ (by omega)).mpr ⟨hmm, hi⟩) ?_
      intro j h1 h2 hj
      exact hg j h1 h2 ((hme s j (by omega)).mp hj).1
  refine ⟨fun s => ?_, fun s i hi hm => ?_⟩
  · rw [hhd, h.head s, key s n le_rfl]
  · have hm' := ((hme s i hi).mp hm).1
    rw [hnx s i hi hm, h.link s i hi hm', key s i hi.le]
    simp only [Option.some.injEq]
    split_ifs <;> rfl

lemma Linked.mem_of_head (hbt : n ≤ bot) {s idx : ℕ}
    (hid : idx < n) (hs : hd s = idx) : mem s idx ∧ ∀ i, idx < i → i < n → ¬ mem s i := by
  have hl := (h.head s).symm.trans hs
  rcases lastBelow_cases (mem s) bot n with ⟨hb, -⟩ | ⟨-, hm, hg⟩
  · omega
  · rw [hl] at hm hg
    exact ⟨hm, hg⟩

lemma Linked.mem_of_link (hbt : n ≤ bot) {s i idx : ℕ} (hi : i < n)
    (hm : mem s i) (hid : idx < n) (hn : nx i = some idx) : mem s idx ∧ idx < i := by
  have hl := Option.some.inj ((h.link s i hi hm).symm.trans hn)
  rcases lastBelow_cases (mem s) bot i with ⟨hb, -⟩ | ⟨hlt, hmm, -⟩
  · omega
  · rw [hl] at hlt hmm
    exact ⟨hmm, hlt⟩

end

lemma Linked.remove_head (h : Linked bot hd nx mem n) (hb : n ≤ bot) (hid : idx < n)
    (hin : mem s0 idx) (hu : ∀ s s' i, mem s i → mem s' i → s = s')
    (hmm : ∀ s i, i < n → (mem' s i ↔ mem s i ∧ i ≠ idx)) (hhea : hd s0 = idx)
    (hhd : hd' = update hd s0 (lastBelow (mem s0) bot idx))
    (hnx : ∀ s i, i < n → mem' s i → nx' i = nx i) : Linked bot hd' nx' mem' n := by
  refine h.remove hb hid hin hu hmm (fun s => ?_) fun s i hi hm => ?_
  · rw [hhd]
    by_cases hs : s = s0
    · subst hs
      rw [update_self, if_pos hhea]
    · rw [update_of_ne hs, if_neg]
      intro he
      exact hs (hu s s0 idx (h.mem_of_head hb hid he).1 hin)
  rw [hnx s i hi hm, if_neg]
  intro he
  have hm' := ((hmm s i hi).mp hm).1
  obtain ⟨hms, hlt⟩ := h.mem_of_link hb hi hm' hid he
  have hs := hu s s0 idx hms hin
  subst hs
  exact (h.mem_of_head hb hid hhea).2 i hlt hi hm'

lemma Linked.remove_after {q : ℕ} (h : Linked bot hd nx mem n) (hb : n ≤ bot) (hid : idx < n)
    (hin : mem s0 idx) (hu : ∀ s s' i, mem s i → mem s' i → s = s')
    (hmm : ∀ s i, i < n → (mem' s i ↔ mem s i ∧ i ≠ idx)) (hq : q < n) (hmq : mem s0 q)
    (hl : nx q = some idx) (hhd : ∀ s, hd' s = hd s)
    (hnq : nx' q = some (lastBelow (mem s0) bot idx))
    (hnx : ∀ s i, i < n → i ≠ q → mem' s i → nx' i = nx i) : Linked bot hd' nx' mem' n := by
  refine h.remove hb hid hin hu hmm (fun s => ?_) fun s i hi hm => ?_
  · rw [hhd, if_neg]
    intro he
    obtain ⟨hms, hg⟩ := h.mem_of_head hb hid he
    have hs := hu s s0 idx hms hin
    subst hs
    exact hg q (h.mem_of_link hb hq hmq hid hl).2 hq hmq
  by_cases hiq : i = q
  · subst hiq
    rw [if_pos hl, hnq]
  rw [hnx s i hi hiq hm, if_neg]
  intro he
  have hm' := ((hmm s i hi).mp hm).1
  have hs := hu s s0 idx (h.mem_of_link hb hi hm' hid he).1 hin
  subst hs
  exact hiq (h.link_inj hb hi hq hm' hmq hid he hl)

end Linked

/-! ## Following the links -/

/-- The cells met from cell `i` on, `none` when a link was never written or the fuel runs out. -/
def chainWalk (bot : ℕ) (nx : ℕ → Option ℕ) : ℕ → ℕ → Option (List ℕ)
  | 0, _ => none
  | fuel + 1, i =>
    if i = bot then some []
    else match nx i with
      | none => none
      | some j => (chainWalk bot nx fuel j).map (i :: ·)

section Walk

variable {bot n : ℕ} {hd : ℕ → ℕ} {nx : ℕ → Option ℕ} {mem : ℕ → ℕ → Prop}
  [∀ s, DecidablePred (mem s)]

/-- From the last member below `m`, the walk visits the members below `m`, largest first. -/
lemma Linked.chainWalk_lastBelow (h : Linked bot hd nx mem n) (hbt : n ≤ bot) (s : ℕ) :
    ∀ fuel m, m ≤ n → m < fuel →
      chainWalk bot nx fuel (lastBelow (mem s) bot m) = some (below (mem s) m) := by
  intro fuel
  induction fuel with
  | zero => intro m _ hf; omega
  | succ fuel ih =>
    intro m hm hf
    rcases lastBelow_cases (mem s) bot m with ⟨hb, hnn⟩ | ⟨hlt, hmm, -⟩
    · rw [hb, below_eq_nil hnn]
      simp [chainWalk]
    · rw [chainWalk, if_neg (by omega), h.link s _ (by omega) hmm]
      simp only
      rw [ih _ (by omega) (by omega), below_eq_cons_of_mem bot hlt hmm]
      rfl

/-- **The walk from a head** visits exactly the members of the slot, in decreasing order, and any
fuel above `n` is enough. -/
theorem Linked.chainWalk_head (h : Linked bot hd nx mem n) (hb : n ≤ bot) (s : ℕ) {fuel : ℕ}
    (hf : n < fuel) : chainWalk bot nx fuel (hd s) = some (below (mem s) n) := by
  rw [h.head s]
  exact h.chainWalk_lastBelow hb s fuel n le_rfl hf

end Walk

end PhpInternals.Found

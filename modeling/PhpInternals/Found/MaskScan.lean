import Mathlib.Tactic

/-!
# Scanning a word from its top bit, and the least value of a bitwise operation on a box

* `scanMasks body k`: the masks `2^(k-1), …, 1` are tried in turn; the first that `body` answers
  ends the scan. `scanMasks_rule` is its invariant rule.
* `upper x k`: the bits of `x` from position `k` on. Two words are compared by their upper parts.
* `RaiseOp`: a commutative monotone bitwise operation. `RaiseOp.scan_least`: a scan that raises the
  lower end of one operand at the highest bit where this costs nothing finds the least value of the
  operation on a box `[a, b] × [c, d]`.
-/

namespace PhpInternals.Found

open Nat
open BitVec (getLsbD getLsbD_and getLsbD_or le_def toNat_inj toNat_not toNat_or twoPow)

variable {w : ℕ}

/-! ## The scan -/

/-- The masks `2^(k-1), …, 1` in turn, until `body` answers. -/
def scanMasks {α : Type} (body : BitVec w → Option α) : ℕ → Option α
  | 0 => none
  | k + 1 => (body (twoPow w k)).or (scanMasks body k)

/-- The rule for a scan from the top mask down: `P i` holds before mask `i - 1` is tried. -/
lemma scanMasks_rule {α : Type} {body : BitVec w → Option α} {P : ℕ → Prop}
    {Q : Option α → Prop} (hz : P 0 → Q none)
    (hs : ∀ i < w, P (i + 1) → (body (twoPow w i) = none ∧ P i) ∨
        ∃ r, body (twoPow w i) = some r ∧ Q (some r)) :
    ∀ k ≤ w, P k → Q (scanMasks body k) := by
  intro k
  induction k with
  | zero => exact fun _ h => hz h
  | succ i ih =>
    intro hk hP
    rcases hs i hk hP with ⟨hn, hPi⟩ | ⟨r, hsm, hQ⟩
    · simpa only [scanMasks, hn, Option.none_or] using ih (by omega) hPi
    · simpa only [scanMasks, hsm, Option.some_or] using hQ

/-- Bodies that agree give scans that agree. -/
lemma scanMasks_map {α β : Type} {body : BitVec w → Option α} {body' : BitVec w → Option β}
    (g : α → β) (h : ∀ i < w, body' (twoPow w i) = (body (twoPow w i)).map g) :
    ∀ k ≤ w, scanMasks body' k = (scanMasks body k).map g := by
  intro k
  induction k with
  | zero => exact fun _ => rfl
  | succ i ih =>
    intro hk
    rw [scanMasks, scanMasks, h i hk, ih (by omega)]
    cases body (twoPow w i) <;> rfl

/-! ## Upper parts -/

/-- The bits of `x` from position `k` on. -/
def upper (x : BitVec w) (k : ℕ) : ℕ := x.toNat >>> k

lemma upper_width (x : BitVec w) : upper x w = 0 := by
  rw [upper, shiftRight_eq_div_pow]
  exact div_eq_of_lt x.isLt

lemma upper_eq_succ (x : BitVec w) (i : ℕ) :
    upper x i = 2 * upper x (i + 1) + (x.getLsbD i).toNat := by
  have hbt : (x.getLsbD i).toNat = x.toNat >>> i % 2 := by
    rw [getLsbD, testBit]
    rcases mod_two_eq_zero_or_one (x.toNat >>> i) with h | h <;> simp [h]
  rw [upper, upper, shiftRight_succ]
  omega

variable {k : ℕ}

/-- The upper parts agree if the upper bits do. -/
lemma upper_eq_iff {x y : BitVec w} :
    upper x k = upper y k ↔ ∀ j, k ≤ j → x.getLsbD j = y.getLsbD j := by
  constructor
  · intro h j hj
    have hbt := congrArg (testBit · (j - k)) h
    simp only [upper, Nat.testBit_shiftRight, Nat.add_sub_cancel' hj] at hbt
    exact hbt
  · intro h
    refine Nat.eq_of_testBit_eq fun j => ?_
    simp only [upper, testBit_shiftRight]
    exact h (k + j) (le_add_right k j)

/-- A bitwise operation works on the upper parts alone. -/
lemma upper_bitwise {op : BitVec w → BitVec w → BitVec w} {bit : Bool → Bool → Bool}
    (hop : ∀ x y j, (op x y).getLsbD j = bit (x.getLsbD j) (y.getLsbD j)) {x x' y y' : BitVec w}
    (hx : upper x k = upper x' k) (hy : upper y k = upper y' k) :
    upper (op x y) k = upper (op x' y') k := by
  refine upper_eq_iff.mpr fun j hj => ?_
  rw [hop, hop, upper_eq_iff.mp hx j hj, upper_eq_iff.mp hy j hj]

lemma upper_mono {x y : BitVec w} (h : x ≤ y) (k : ℕ) : upper x k ≤ upper y k := by
  simp only [upper, shiftRight_eq_div_pow]
  exact Nat.div_le_div_right h

lemma toNat_eq_upper (x : BitVec w) (k : ℕ) : x.toNat = 2 ^ k * upper x k + x.toNat % 2 ^ k := by
  rw [upper, shiftRight_eq_div_pow, div_add_mod]

/-- The upper part decides the order, if it can. -/
lemma le_of_upper_lt {x y : BitVec w} (h : upper x k < upper y k) : x ≤ y := by
  by_contra hlt
  have := upper_mono (BitVec.le_of_lt (BitVec.not_le.mp hlt)) k
  omega

lemma le_of_upper_eq {x y : BitVec w} (h : upper x k = upper y k)
    (hl : x.toNat % 2 ^ k ≤ y.toNat % 2 ^ k) : x ≤ y := by
  rw [le_def, toNat_eq_upper x k, toNat_eq_upper y k, h]
  omega

lemma low_le_of_upper_eq {x y : BitVec w} (h : upper x k = upper y k) (hle : x ≤ y) :
    x.toNat % 2 ^ k ≤ y.toNat % 2 ^ k := by
  rw [le_def, toNat_eq_upper x k, toNat_eq_upper y k, h] at hle
  omega

/-- Of two ordered words that agree above `i`, the larger has bit `i` if the smaller has it. -/
lemma bit_le_of_upper_eq {x y : BitVec w} {i : ℕ} (h : upper x (i + 1) = upper y (i + 1))
    (hle : x ≤ y) : x.getLsbD i ≤ y.getLsbD i := by
  have hup := upper_mono hle i
  rw [upper_eq_succ x, upper_eq_succ y] at hup
  cases hx : x.getLsbD i <;> cases hy : y.getLsbD i <;> simp_all

/-! ## Raising a word at one bit -/

/-- `a` with bit `i` set and the bits below it cleared. -/
def raise (a : BitVec w) (i : ℕ) : BitVec w := (a ||| twoPow w i) &&& -twoPow w i

variable {a b c d x y : BitVec w} {i : ℕ}

lemma getLsbD_raise (hi : i < w) (j : ℕ) : (raise a i).getLsbD j =
    (decide (i = j) || (decide (i < j) && a.getLsbD j)) := by
  rw [raise, getLsbD_and, getLsbD_or, BitVec.getLsbD_neg]
  simp only [BitVec.getLsbD_twoPow, hi]
  rcases lt_trichotomy i j with hij | rfl | hij
  · by_cases hj : j < w
    · simp [hij, hij.ne, hj]
    · simp [hj, BitVec.getLsbD_of_ge a j (by omega)]
  · simp
  · simp [hij.ne', hij.not_gt]

lemma upper_raise_succ (hi : i < w) : upper (raise a i) (i + 1) = upper a (i + 1) := by
  refine upper_eq_iff.mpr fun j hj => ?_
  rw [getLsbD_raise hi]
  simp [show i ≠ j by omega, show i < j by omega]

/-- A raised number has nothing below the raised bit. -/
lemma raise_low (hi : i < w) : (raise a i).toNat % 2 ^ i = 0 := by
  refine eq_of_testBit_eq fun j => ?_
  rw [testBit_mod_two_pow, ← getLsbD, getLsbD_raise hi]
  by_cases hj : j < i
  · simp [hj.ne', hj.not_gt]
  · simp [hj]

/-- It is the least one that agrees above and has the bit. -/
lemma raise_le (hi : i < w) (h : upper a (i + 1) = upper x (i + 1)) (hx : x.getLsbD i = true) :
    raise a i ≤ x := by
  apply le_of_upper_eq
  · rw [upper_eq_succ (raise _ _), upper_eq_succ x i, upper_raise_succ hi, h, getLsbD_raise hi, hx]
    simp
  · rw [raise_low hi]
    exact zero_le _

lemma le_raise (hi : i < w) (ha : a.getLsbD i = false) : a ≤ raise a i := by
  apply le_of_upper_lt
  rw [upper_eq_succ, upper_eq_succ (raise _ _), upper_raise_succ hi, ha, getLsbD_raise hi]
  simp

/-- The largest word below `b` without the mask's bit, by the arithmetic on masks. -/
lemma sub_or_eq_not_raise (hi : i < w) (hb : b.getLsbD i = true) :
    (b - twoPow w i) ||| (twoPow w i - 1#w) = ~~~ raise (~~~ b) i := by
  have hs : b - twoPow w i = b &&& ~~~ twoPow w i := by
    have hds : (b &&& ~~~ twoPow w i) + twoPow w i = b := by
      rw [BitVec.add_eq_or_of_and_eq_zero _ _ (by simp [BitVec.and_assoc])]
      refine BitVec.eq_of_getLsbD_eq fun j hj => ?_
      by_cases hij : i = j
      · subst hij
        simp [hb, hi]
      · simp [Ne.symm hij, hj]
    exact BitVec.sub_eq_iff_eq_add.mpr hds.symm
  have hn : ~~~ (-twoPow w i) = twoPow w i - 1#w := by
    rw [BitVec.not_eq_neg_add, BitVec.neg_neg]
  rw [hs, raise, BitVec.not_and, BitVec.not_or, BitVec.not_not, hn]

lemma not_le_not_iff : ~~~ x ≤ ~~~ y ↔ y ≤ x := by
  rw [le_def, le_def, toNat_not, toNat_not]
  omega

/-! ## The least value on a box -/

/-- `x` lies in `[a, b]` and `y` in `[c, d]`. -/
structure Box (a b c d x y : BitVec w) : Prop where
  ax : a ≤ x
  xb : x ≤ b
  cy : c ≤ y
  yd : y ≤ d

lemma Box.swap (h : Box a b c d x y) : Box c d a b y x := ⟨h.cy, h.yd, h.ax, h.xb⟩

/-- `v` is a value of the operation on the box, and in relation `r` to every other. -/
def Extreme (r : BitVec w → BitVec w → Prop) (op : BitVec w → BitVec w → BitVec w)
    (a b c d v : BitVec w) : Prop :=
  (∃ p q, Box a b c d p q ∧ v = op p q) ∧ ∀ x y, Box a b c d x y → r v (op x y)

/-- A commutative monotone bitwise operation; `raise_le` is what makes a free raise optimal. -/
structure RaiseOp (w : ℕ) where
  op : BitVec w → BitVec w → BitVec w
  bit : Bool → Bool → Bool
  getLsbD_op : ∀ x y j, (op x y).getLsbD j = bit (x.getLsbD j) (y.getLsbD j)
  comm : ∀ p q, bit p q = bit q p
  mono : ∀ p p' q q', p ≤ p' → q ≤ q' → bit p q ≤ bit p' q'
  raise_le : ∀ {a c x y : BitVec w} {i}, i < w → upper a (i + 1) = upper x (i + 1) →
    upper c (i + 1) = upper y (i + 1) → bit false (c.getLsbD i) = bit true (c.getLsbD i) →
    c ≤ y → op (raise a i) c ≤ op x y

namespace RaiseOp

variable (f : RaiseOp w)

lemma op_comm (x y : BitVec w) : f.op x y = f.op y x := by
  refine BitVec.eq_of_getLsbD_eq fun j _ => ?_
  rw [f.getLsbD_op, f.getLsbD_op, f.comm]

lemma upper_op {x' y' : BitVec w} (hx : upper x k = upper x' k) (hy : upper y k = upper y' k) :
    upper (f.op x y) k = upper (f.op x' y') k :=
  upper_bitwise f.getLsbD_op hx hy

/-- Above `k` the lower ends are optimal: another point is larger there or agrees with them. -/
def Settled (a b c d : BitVec w) (k : ℕ) : Prop :=
  ∀ x y, Box a b c d x y → upper (f.op a c) k < upper (f.op x y) k ∨
    (upper a k = upper x k ∧ upper c k = upper y k)

/-- Raising `a` at bit `i` leaves that bit of the result as it is. -/
def Free (a c : BitVec w) (i : ℕ) : Prop :=
  a.getLsbD i = false ∧ f.bit false (c.getLsbD i) = f.bit true (c.getLsbD i)

/-- One turn of the scan: an end that can be raised freely inside its interval is raised. -/
noncomputable def turn (a b c d : BitVec w) (i : ℕ) : Option (BitVec w × BitVec w) :=
  open Classical in
  if f.Free a c i ∧ raise a i ≤ b then some (raise a i, c)
  else if f.Free c a i ∧ raise c i ≤ d then some (a, raise c i)
  else none

variable {f}

lemma upper_lt_of_bit (hx : upper a (i + 1) = upper x (i + 1))
    (hy : upper c (i + 1) = upper y (i + 1))
    (hlt : f.bit (a.getLsbD i) (c.getLsbD i) < f.bit (x.getLsbD i) (y.getLsbD i)) :
    upper (f.op a c) i < upper (f.op x y) i := by
  rw [upper_eq_succ, upper_eq_succ (f.op x y), f.upper_op hx hy, f.getLsbD_op, f.getLsbD_op]
  obtain ⟨h0, h1⟩ := Bool.lt_iff.mp hlt
  simp [h0, h1]

/-- Bit `i` of `x` exceeds that of `a`, where a raise of `a` would not have been free: the value
is larger. -/
lemma bit_lt_of_not_free (ha : a.getLsbD i = false) (hx : x.getLsbD i = true)
    (hfr : ¬ f.Free a c i) (hcy : c.getLsbD i ≤ y.getLsbD i) :
    f.bit (a.getLsbD i) (c.getLsbD i) < f.bit (x.getLsbD i) (y.getLsbD i) := by
  have hne : f.bit false (c.getLsbD i) ≠ f.bit true (c.getLsbD i) := fun h => hfr ⟨ha, h⟩
  have hle := f.mono false true _ _ (Bool.false_le _) (le_refl (c.getLsbD i))
  rw [ha, hx]
  exact lt_of_lt_of_le (lt_of_le_of_ne hle hne) (f.mono true true _ _ le_rfl hcy)

/-- A bit at which neither end can be raised is settled. -/
lemma Settled.step (hi : i < w) (hs : f.Settled a b c d (i + 1))
    (ha : f.Free a c i → ¬ raise a i ≤ b) (hc : f.Free c a i → ¬ raise c i ≤ d) :
    f.Settled a b c d i := by
  intro x y hbo
  rcases hs x y hbo with hlt | ⟨hx, hy⟩
  · left
    rw [upper_eq_succ, upper_eq_succ (f.op x y)]
    have := (f.op a c).getLsbD i |>.toNat_le
    omega
  have hbx := bit_le_of_upper_eq hx hbo.ax
  have hby := bit_le_of_upper_eq hy hbo.cy
  by_cases hex : a.getLsbD i = x.getLsbD i
  · by_cases hey : c.getLsbD i = y.getLsbD i
    · right
      rw [upper_eq_succ a, upper_eq_succ x, upper_eq_succ c, upper_eq_succ y, hx, hy, hex, hey]
      exact ⟨rfl, rfl⟩
    obtain ⟨hc0, hy1⟩ := Bool.lt_iff.mp (lt_of_le_of_ne hby hey)
    left
    apply upper_lt_of_bit hx hy
    rw [f.comm, f.comm (x.getLsbD i)]
    refine bit_lt_of_not_free hc0 hy1 (fun hfr => hc hfr ?_) hbx
    exact BitVec.le_trans (Found.raise_le hi hy hy1) hbo.yd
  · obtain ⟨ha0, hx1⟩ := Bool.lt_iff.mp (lt_of_le_of_ne hbx hex)
    left
    apply upper_lt_of_bit hx hy
    refine bit_lt_of_not_free ha0 hx1 (fun hfr => ha hfr ?_) hby
    exact BitVec.le_trans (Found.raise_le hi hx hx1) hbo.xb

/-- Raising one end at the first free bit gives the least result. -/
lemma Settled.raised (hi : i < w) (hs : f.Settled a b c d (i + 1)) (hfr : f.Free a c i)
    (hbx : Box a b c d x y) : f.op (raise a i) c ≤ f.op x y := by
  rcases hs x y hbx with hlt | ⟨hx, hy⟩
  · apply le_of_upper_lt
    rwa [f.upper_op (upper_raise_succ hi) rfl]
  · exact f.raise_le hi hx hy hfr.2 hbx.cy

lemma Settled.comm (hs : f.Settled a b c d k) : f.Settled c d a b k := by
  intro x y hbx
  rw [f.op_comm c a, f.op_comm x y]
  exact (hs y x hbx.swap).imp_right And.symm

/-- A scan of such turns ends with the least value on the box. -/
lemma scan_least {body : BitVec w → Option (BitVec w × BitVec w)} (hab : a ≤ b) (hcd : c ≤ d)
    (htr : ∀ i < w, body (twoPow w i) = f.turn a b c d i) :
    let r := (scanMasks body w).getD (a, c)
    Extreme (· ≤ ·) f.op a b c d (f.op r.1 r.2) := by
  have hl : Box a b c d a c := ⟨BitVec.le_refl a, hab, BitVec.le_refl c, hcd⟩
  refine scanMasks_rule (P := f.Settled a b c d)
    (Q := fun o => Extreme (· ≤ ·) f.op a b c d (f.op (o.getD (a, c)).1 (o.getD (a, c)).2))
    (fun hs => ⟨⟨a, c, hl, rfl⟩, fun x y hbx => ?_⟩) (fun i hi hs => ?_) w le_rfl ?_
  · rcases hs x y hbx with hlt | ⟨hx, hy⟩
    · exact le_of_upper_lt hlt
    · rw [toNat_inj.mp hx, toNat_inj.mp hy]
      exact BitVec.le_refl _
  · rw [htr i hi, turn]
    split_ifs with ha hc
    · exact .inr ⟨_, rfl, ⟨_, _, ⟨le_raise hi ha.1.1, ha.2, hl.cy, hcd⟩, rfl⟩,
        fun x y => hs.raised hi ha.1⟩
    · refine .inr ⟨_, rfl, ⟨_, _, ⟨hl.ax, hab, le_raise hi hc.1.1, hc.2⟩, rfl⟩, ?_⟩
      intro x y hbx
      show f.op a (raise c i) ≤ f.op x y
      rw [f.op_comm a, f.op_comm x]
      exact hs.comm.raised hi hc.1 hbx.swap
    · exact .inl ⟨rfl, hs.step hi (fun h hle => ha ⟨h, hle⟩) fun h hle => hc ⟨h, hle⟩⟩
  · intro x y _
    right
    simp [upper_width]

end RaiseOp

/-- The bitwise or. -/
def orRaise (w : ℕ) : RaiseOp w where
  op x y := x ||| y
  bit p q := p || q
  getLsbD_op _ _ _ := getLsbD_or
  comm := Bool.or_comm
  mono := by decide
  raise_le {a c x y i} hi hx hy hfree hcy := by
    have hc : c.getLsbD i = true := by simpa using hfree.symm
    have hyi : y.getLsbD i = true := Bool.le_iff_imp.mp (bit_le_of_upper_eq hy hcy) hc
    have hup : upper c i = upper y i := by rw [upper_eq_succ c, upper_eq_succ y, hy, hc, hyi]
    apply le_of_upper_eq (k := i)
    · rw [upper_eq_succ, upper_eq_succ (x ||| y), getLsbD_or, getLsbD_or, hc, hyi,
        upper_bitwise (fun _ _ _ => getLsbD_or) ((upper_raise_succ hi).trans hx) hy,
        Bool.or_true, Bool.or_true]
    · rw [toNat_or, toNat_or, or_mod_two_pow, or_mod_two_pow, raise_low hi,
        zero_or]
      exact (low_le_of_upper_eq hup hcy).trans right_le_or

lemma orRaise_free_iff : (orRaise w).Free a c i ↔ a.getLsbD i = false ∧ c.getLsbD i = true := by
  unfold RaiseOp.Free orRaise
  cases a.getLsbD i <;> cases c.getLsbD i <;> simp

/-- The bitwise and. -/
def andRaise (w : ℕ) : RaiseOp w where
  op x y := x &&& y
  bit p q := p && q
  getLsbD_op _ _ _ := getLsbD_and
  comm := Bool.and_comm
  mono := by decide
  raise_le {a c x y i} hi hx hy hfree _ := by
    have hc : c.getLsbD i = false := by simpa using hfree.symm
    have hlow : (raise a i &&& c).toNat % 2 ^ (i + 1) = 0 := by
      refine eq_of_testBit_eq fun j => ?_
      rw [testBit_mod_two_pow, zero_testBit, ← getLsbD, getLsbD_and,
        getLsbD_raise hi]
      rcases lt_trichotomy i j with hij | rfl | hij
      · simp [show ¬ j < i + 1 by omega]
      · simp [hc]
      · simp [hij.ne', hij.not_gt]
    apply le_of_upper_eq (k := i + 1)
    · exact upper_bitwise (fun _ _ _ => getLsbD_and) ((upper_raise_succ hi).trans hx) hy
    · rw [hlow]
      exact zero_le _

lemma andRaise_free_iff : (andRaise w).Free a c i ↔ a.getLsbD i = false ∧ c.getLsbD i = false := by
  unfold RaiseOp.Free andRaise
  cases a.getLsbD i <;> cases c.getLsbD i <;> simp

end PhpInternals.Found

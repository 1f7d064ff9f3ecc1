import Mathlib.Logic.Function.Iterate
import Mathlib.Tactic.SplitIfs

/-!
# The Mersenne Twister

Embedding of `php_mt_initialize`, `php_mt_reload`, `php_mt_srand` and `php_mt_rand`
(`ext/standard/mt_rand.c`). The state vector is a function of which the first 624 values are used;
`next` is an index.
-/

namespace PhpInternals.Ext.Standard

open Function


/-- Source: `mixBits`. -/
def mixBits (u v : BitVec 32) : BitVec 32 := u &&& 0x80000000#32 ||| v &&& 0x7FFFFFFF#32

/-- Source: `loBit`. -/
def loBit (u : BitVec 32) : BitVec 32 := u &&& 1#32

/-- Source: `twist`. -/
def twist (m u v : BitVec 32) : BitVec 32 :=
  m ^^^ mixBits u v >>> 1 ^^^ (-loBit v &&& 0x9908b0df#32)

/-- Source: `twist_php`, which takes the low bit of `u`. -/
def twistPhp (m u v : BitVec 32) : BitVec 32 :=
  m ^^^ mixBits u v >>> 1 ^^^ (-loBit u &&& 0x9908b0df#32)

/-- Source: `MT_RAND_MT19937` and `MT_RAND_PHP`. -/
inductive MtRandMode where
  | mt19937
  | php

/-- The part of `basic_globals` that belongs to the generator. -/
structure MtState where
  state : ℕ → BitVec 32
  left : ℕ
  next : ℕ
  mode : MtRandMode
  isSeeded : Bool

/-- The word after `r` in `php_mt_initialize`. -/
def seedWord (r : BitVec 32) (i : ℕ) : BitVec 32 :=
  1812433253#32 * (r ^^^ r >>> 30) + BitVec.ofNat 32 i

/-- The loop of `php_mt_initialize`. -/
def initializeLoop : ℕ → ℕ → (ℕ → BitVec 32) → ℕ → BitVec 32
  | 0, _, s => s
  | n + 1, i, s => initializeLoop n (i + 1) (update s i (seedWord (s (i - 1)) i))

/-- Source: `php_mt_initialize`. -/
def phpMtInitialize (seed : BitVec 32) (s : ℕ → BitVec 32) : ℕ → BitVec 32 :=
  initializeLoop 623 1 (update s 0 seed)

/-- A loop of `php_mt_reload`, with the place of the first word from `p`. -/
def reloadLoop (twist : BitVec 32 → BitVec 32 → BitVec 32 → BitVec 32) (m : ℕ → ℕ) :
    ℕ → ℕ → (ℕ → BitVec 32) → ℕ → BitVec 32
  | 0, _, s => s
  | n + 1, p, s => reloadLoop twist m n (p + 1) (update s p (twist (s (m p)) (s p) (s (p + 1))))

/-- Source: `php_mt_reload`. -/
def phpMtReload (g : MtState) : MtState :=
  let tw := match g.mode with
    | .mt19937 => twist
    | .php => twistPhp
  let s := reloadLoop tw (· + 397) 227 0 g.state
  let s := reloadLoop tw (· - 227) 396 227 s
  { g with state := update s 623 (tw (s 396) (s 623) (s 0)), left := 624, next := 0 }

/-- Source: `php_mt_srand`. -/
def phpMtSrand (seed : BitVec 32) (g : MtState) : MtState :=
  { phpMtReload { g with state := phpMtInitialize seed g.state } with isSeeded := true }

/-- The tempering at the end of `php_mt_rand`. -/
def temper (s1 : BitVec 32) : BitVec 32 :=
  let s1 := s1 ^^^ s1 >>> 11
  let s1 := s1 ^^^ (s1 <<< 7 &&& 0x9d2c5680#32)
  let s1 := s1 ^^^ (s1 <<< 15 &&& 0xefc60000#32)
  s1 ^^^ s1 >>> 18

/-- Source: `php_mt_rand`. -/
def phpMtRand (generateSeed : BitVec 32) (g : MtState) : BitVec 32 × MtState :=
  let g := if g.isSeeded then g else phpMtSrand generateSeed g
  let g := if g.left = 0 then phpMtReload g else g
  (temper (g.state g.next), { g with left := g.left - 1, next := g.next + 1 })

/-! ## The recurrence -/

/-- The words `x(n)` of the Mersenne Twister. -/
def mtWord (seed : BitVec 32) (n : ℕ) : BitVec 32 :=
  if n = 0 then seed
  else if n < 624 then
    1812433253#32 * (mtWord seed (n - 1) ^^^ mtWord seed (n - 1) >>> 30) + BitVec.ofNat 32 n
  else
    let y := mtWord seed (n - 624) &&& 0x80000000#32 ||| mtWord seed (n - 623) &&& 0x7FFFFFFF#32
    mtWord seed (n - 227) ^^^ y >>> 1 ^^^ if y.toNat % 2 = 1 then 0x9908b0df#32 else 0
termination_by n

lemma twist_eq (m u v : BitVec 32) : twist m u v =
    m ^^^ mixBits u v >>> 1 ^^^ if (mixBits u v).toNat % 2 = 1 then 0x9908b0df#32 else 0 := by
  have hl : (mixBits u v).toNat % 2 = 1 ↔ v.getLsbD 0 := by
    have hb : (mixBits u v).getLsbD 0 = v.getLsbD 0 := by simp [mixBits]
    rw [← hb, BitVec.getLsbD, Nat.testBit_zero, decide_eq_true_iff]
  have hlo : loBit v = if v.getLsbD 0 then 1#32 else 0 := by
    rw [loBit, BitVec.and_one_eq_setWidth_ofBool_getLsbD]
    cases v.getLsbD 0 <;> rfl
  unfold twist
  rw [hlo]
  simp only [hl]
  split_ifs <;> simp

variable {seed : BitVec 32} {s : ℕ → BitVec 32} {k p : ℕ}

lemma mtWord_succ (seed : BitVec 32) (n : ℕ) : mtWord seed (n + 624) =
    twist (mtWord seed (n + 397)) (mtWord seed n) (mtWord seed (n + 1)) := by
  rw [mtWord, if_neg (by omega), if_neg (by omega), twist_eq, Nat.add_sub_cancel]
  rw [show n + 624 - 623 = n + 1 by omega, show n + 624 - 227 = n + 397 by omega]
  rfl

lemma initializeLoop_eq {n i : ℕ} (hi : 1 ≤ i) (hn : i + n ≤ 624)
    (h : ∀ j < i, s j = mtWord seed j) :
    ∀ j < i + n, initializeLoop n i s j = mtWord seed j := by
  induction n generalizing i s with
  | zero => exact h
  | succ n ih =>
    intro j hj
    rw [initializeLoop]
    refine ih (by omega) (by omega) (fun l hl => ?_) j (by omega)
    rw [update_apply]
    split_ifs with heq
    · rw [heq, mtWord, if_neg (by omega), if_pos (by omega), h (i - 1) (by omega)]
      rfl
    · exact h l (by omega)

/-- The words before `p` are those of the next block. -/
def Reloaded (seed : BitVec 32) (k p : ℕ) (s : ℕ → BitVec 32) : Prop :=
  ∀ j < 624, s j = mtWord seed (if j < p then k + 624 + j else k + j)

lemma Reloaded.step (h : Reloaded seed k p s) (hp : p < 624) {m v : BitVec 32}
    (hm : m = mtWord seed (k + p + 397)) (hv : v = mtWord seed (k + p + 1)) :
    Reloaded seed k (p + 1) (update s p (twist m (s p) v)) := by
  intro j hj
  rw [update_apply]
  split_ifs with heq hlt hlt
  · rw [h p hp, if_neg (by omega), hm, hv, ← mtWord_succ, heq, Nat.add_right_comm]
  · omega
  · rw [h j hj, if_pos (by omega)]
  · rw [h j hj, if_neg (by omega)]

lemma reloadLoop_reloaded {m : ℕ → ℕ} {n : ℕ} (h : Reloaded seed k p s) (hn : p + n < 624)
    (hm : ∀ q s, p ≤ q → q < p + n → Reloaded seed k q s → s (m q) = mtWord seed (k + q + 397)) :
    Reloaded seed k (p + n) (reloadLoop twist m n p s) := by
  induction n generalizing p s with
  | zero => exact h
  | succ n ih =>
    rw [← Nat.add_assoc, Nat.add_right_comm]
    have hnx : s (p + 1) = mtWord seed (k + p + 1) := by
      rw [h (p + 1) (by omega), if_neg (by omega), Nat.add_assoc]
    apply ih (h.step (by omega) (hm p s (by omega) (by omega) h) hnx) (by omega)
    intro q s' hq hqn
    exact hm q s' (by omega) (by omega)

/-- A block of the state is replaced by the next one. -/
lemma phpMtReload_reloaded {g : MtState} (hmd : g.mode = .mt19937) (h : Reloaded seed k 0 g.state) :
    Reloaded seed (k + 624) 0 (phpMtReload g).state := by
  unfold phpMtReload
  rw [hmd]
  have h1 := reloadLoop_reloaded (n := 227) h (by omega) fun q s _ hq hs => by
    rw [hs (q + 397) (by omega), if_neg (by omega), Nat.add_assoc]
  have h2 := reloadLoop_reloaded (n := 396) h1 (by omega) fun q s hq hqn hs => by
    rw [hs (q - 227) (by omega), if_pos (by omega), show k + 624 + (q - 227) = k + q + 397 by omega]
  simp only
  generalize reloadLoop twist (· - 227) 396 227 _ = s at *
  have h3 := h2.step (by omega) (m := s 396) (v := s 0)
    (by rw [h2 396 (by omega), if_pos (by omega)])
    (by rw [h2 0 (by omega), if_pos (by omega)])
  intro j hj
  rw [h3 j hj, if_pos (by omega), if_neg (by omega)]

/-- The generator after `k` calls: the next word is `x(624 + k)`. -/
structure Drawn (seed : BitVec 32) (k : ℕ) (g : MtState) : Prop where
  isSeeded : g.isSeeded = true
  mode : g.mode = .mt19937
  block : ∃ b, Reloaded seed b 0 g.state ∧ b + g.next = 624 + k
  left : g.next + g.left = 624

lemma phpMtInitialize_reloaded (seed : BitVec 32) (s : ℕ → BitVec 32) :
    Reloaded seed 0 0 (phpMtInitialize seed s) := by
  intro j hj
  rw [if_neg (by omega), Nat.zero_add]
  refine initializeLoop_eq (by omega) (by omega) (fun l hl => ?_) j hj
  rw [update_apply, if_pos (by omega), Nat.lt_one_iff.mp hl, mtWord, if_pos rfl]

lemma phpMtSrand_drawn (seed : BitVec 32) (g : MtState) :
    Drawn seed 0 (phpMtSrand seed { g with mode := .mt19937 }) := by
  have hi := phpMtInitialize_reloaded seed g.state
  unfold phpMtSrand
  simp only
  generalize phpMtInitialize seed g.state = s at hi ⊢
  refine ⟨rfl, rfl, ⟨624, ?_, rfl⟩, rfl⟩
  have hre := @phpMtReload_reloaded seed 0 { g with state := s, mode := .mt19937 } rfl hi
  rwa [Nat.zero_add] at hre

/-- **Every call draws the next word.** -/
lemma phpMtRand_drawn {g : MtState} (h : Drawn seed k g) (generateSeed : BitVec 32) :
    (phpMtRand generateSeed g).1 = temper (mtWord seed (624 + k)) ∧
      Drawn seed (k + 1) (phpMtRand generateSeed g).2 := by
  obtain ⟨hs, hm, ⟨b, hb, hn⟩, hlf⟩ := h
  unfold phpMtRand
  dsimp only
  split_ifs with hz
  · have hre := phpMtReload_reloaded hm hb
    have hl : b + 624 = 624 + k := by omega
    refine ⟨?_, hs, hm, ⟨b + 624, hre, by rw [hl]; rfl⟩, rfl⟩
    exact congrArg temper ((hre 0 (by omega)).trans (by rw [hl]; rfl))
  · refine ⟨?_, hs, hm, ⟨b, hb, ?_⟩, ?_⟩
    · rw [hb g.next (by omega), if_neg (by omega), hn]
    · simp only
      omega
    · simp only
      omega

/-- **The stream.** After `php_mt_srand` the calls of `php_mt_rand` return the tempered words of the
recurrence, from the second block on. -/
theorem phpMtRand_stream (seed generateSeed : BitVec 32) (g : MtState) (k : ℕ) :
    (phpMtRand generateSeed ((fun g => (phpMtRand generateSeed g).2)^[k]
      (phpMtSrand seed { g with mode := .mt19937 }))).1 = temper (mtWord seed (624 + k)) := by
  have hdr : Drawn seed k ((fun g => (phpMtRand generateSeed g).2)^[k]
      (phpMtSrand seed { g with mode := .mt19937 })) := by
    induction k with
    | zero => exact phpMtSrand_drawn seed g
    | succ k ih =>
      rw [iterate_succ_apply']
      exact (phpMtRand_drawn ih generateSeed).2
  exact (phpMtRand_drawn hdr generateSeed).1

end PhpInternals.Ext.Standard

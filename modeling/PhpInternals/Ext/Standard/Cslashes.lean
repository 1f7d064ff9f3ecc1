import PhpInternals.Ext.Standard.QuotPrint

/-!
# C-style escapes

Embedding of `php_addcslashes` and `php_stripcslashes` (`ext/standard/string.c`). The latter writes
over bytes it has read; what it writes stands in a list of its own here.
-/

namespace PhpInternals.Ext.Standard

open List

/-- The letters of the escapes and the control characters they stand for. -/
def controls : List (UInt8 × UInt8) :=
  [(0x6e, 10), (0x72, 13), (0x61, 7), (0x74, 9), (0x76, 11), (0x62, 8), (0x66, 12)]

/-- `strtol` of hexadecimal or octal digits, as a `char`. -/
def strtolChar (base : ℕ) (ds : List UInt8) : UInt8 :=
  UInt8.ofNat (ds.foldl (fun v d => v * base + (phpHex2int d).getD 0) 0)

/-- The escape that begins with `c`: the byte that is written, what `nlen` loses, and what stands
behind the escape. -/
def unescape (c : UInt8) (source : List UInt8) : UInt8 × ℕ × List UInt8 :=
  match ((0x5c, 0x5c) :: controls).find? (·.1 = c) with
  | some e => (e.2, 1, source)
  | none =>
    let hex := (source.take 2).takeWhile fun d => (phpHex2int d).isSome
    let oct := ((c :: source).take 3).takeWhile fun d => 0x30 ≤ d ∧ d ≤ 0x37
    if c = 0x78 ∧ hex ≠ [] then
      (strtolChar 16 hex, if hex.length = 2 then 3 else 2, source.drop hex.length)
    else if oct ≠ [] then (strtolChar 8 oct, oct.length, (c :: source).drop oct.length)
    else (c, 1, source)

lemma length_takeWhile_take (p : UInt8 → Bool) (n : ℕ) (l : List UInt8) :
    ((l.take n).takeWhile p).length ≤ min n l.length :=
  (takeWhile_sublist p).length_le.trans_eq length_take

/-- `nlen` loses one for every byte behind the backslash. -/
lemma unescape_length (c : UInt8) (s : List UInt8) :
    (unescape c s).2.1 + (unescape c s).2.2.length = s.length + 1 := by
  have hx := length_takeWhile_take (fun d => (phpHex2int d).isSome) 2 s
  have ho := length_takeWhile_take (fun d => 0x30 ≤ d ∧ d ≤ 0x37) 3 (c :: s)
  unfold unescape
  split
  · exact Nat.add_comm ..
  · simp only
    split_ifs with h1 h2
    all_goals simp only [ne_eq, ← length_eq_zero_iff, length_drop, length_cons] at *
    all_goals omega

/-- The bytes that are written, and what `nlen` loses. -/
def stripLoop : List UInt8 → List UInt8 × ℕ
  | [] => ([], 0)
  | [c] => ([c], 0)
  | c :: d :: source =>
    if c = 0x5c then
      let e := unescape d source
      (e.1 :: (stripLoop e.2.2).1, e.2.1 + (stripLoop e.2.2).2)
    else (c :: (stripLoop (d :: source)).1, (stripLoop (d :: source)).2)
termination_by source => source.length
decreasing_by
  all_goals
    have := unescape_length d source
    simp only [length_cons]
    omega

/-- What is written, and the new length. -/
def phpStripcslashes (str : List UInt8) : List UInt8 × ℤ :=
  ((stripLoop str).1, str.length - (stripLoop str).2)

/-- A byte of the loop in `php_addcslashes`. -/
def escapeByte (flags : UInt8 → Bool) (c : UInt8) : List UInt8 :=
  if flags c then
    if c < 32 ∨ 126 < c then
      match controls.find? (·.2 = c) with
      | some e => [0x5c, e.1]
      -- `%03o`
      | none => 0x5c :: [c.toNat / 64, c.toNat / 8 % 8, c.toNat % 8].map hexAt
    else [0x5c, c]
  else [c]

/-- Source: `php_addcslashes`. -/
def phpAddcslashes (str : List UInt8) (flags : UInt8 → Bool) : List UInt8 :=
  str.flatMap (escapeByte flags)

lemma stripLoop_length (s : List UInt8) : (stripLoop s).1.length + (stripLoop s).2 = s.length := by
  fun_induction stripLoop s with
  | case1 => rfl
  | case2 => rfl
  | case3 d source e ih =>
    have hl : e.2.1 + e.2.2.length = source.length + 1 := unescape_length d source
    simp only [length_cons]
    omega
  | case4 c d source hc ih =>
    simp only [length_cons] at ih ⊢
    omega

lemma unescape_octal {a b d : ℕ} (ha : a < 8) (hb : b < 8) (hd : d < 8) (s : List UInt8) :
    unescape (hexAt a) (hexAt b :: hexAt d :: s) =
      (UInt8.ofNat ((a * 8 + b) * 8 + d), 3, s) := by
  have hf0 : ∀ a < 8, ((0x5c, 0x5c) :: controls).find? (·.1 = hexAt a) = none := by decide
  have hoct : ∀ a < 8, hexAt a ≠ 0x78 ∧ 0x30 ≤ hexAt a ∧ hexAt a ≤ 0x37 := by decide
  simp [unescape, hf0 a ha, hoct, ha, hb, hd, strtolChar, phpHex2int_hexAt (n := a) (by omega),
    phpHex2int_hexAt (n := b) (by omega), phpHex2int_hexAt (n := d) (by omega)]

section

variable {flags : UInt8 → Bool} (hb : flags 0x5c = true) (hx : flags 0x78 = false)
  (hctl : ∀ e ∈ controls, flags e.1 = false)
  (hoct : ∀ d, 0x30 ≤ d → d ≤ 0x37 → flags d = false)
include hx hctl hoct

lemma unescape_self {c : UInt8} (hc : flags c = true) (s : List UInt8) :
    unescape c s = (c, 1, s) := by
  unfold unescape
  split
  · next e he =>
    rcases mem_cons.mp (mem_of_find?_eq_some he) with rfl | hm
    · rw [show c = 0x5c by simpa [eq_comm] using find?_some he]
    · rw [← show e.1 = c by simpa using find?_some he, hctl e hm] at hc
      cases hc
  · have hnx : c ≠ 0x78 := fun h => by simp [h, hx] at hc
    have hno : ¬ (0x30 ≤ c ∧ c ≤ 0x37) := fun h => by simp [hoct c h.1 h.2] at hc
    simp [hnx, hno]

include hb

lemma stripLoop_escapeByte (c : UInt8) (s : List UInt8) :
    (stripLoop (escapeByte flags c ++ s)).1 = c :: (stripLoop s).1 := by
  have hesc : ∀ {d t n}, unescape d t = (c, n, s) →
      (stripLoop (0x5c :: d :: t)).1 = c :: (stripLoop s).1 := fun h => by
    rw [stripLoop, if_pos rfl, h]
  unfold escapeByte
  split_ifs with hf hc
  · split
    · next e he =>
      have hf0 : ∀ e ∈ controls, ((0x5c, 0x5c) :: controls).find? (·.1 = e.1) = some e := by
        simp [controls]
      have hc : e.2 = c := by simpa using find?_some he
      refine hesc (n := 1) ?_
      simp only [unescape, hf0 e (mem_of_find?_eq_some he), hc]
      rfl
    · have hlt := c.toNat_lt
      refine hesc (n := 3) ((unescape_octal (by omega) (by omega) (by omega) s).trans ?_)
      rw [show (c.toNat / 64 * 8 + c.toNat / 8 % 8) * 8 + c.toNat % 8 = c.toNat by omega,
        UInt8.ofNat_toNat]
  · exact hesc (unescape_self hx hctl hoct hf s)
  · cases s with
    | nil => simp [stripLoop]
    | cons d s => rw [singleton_append, stripLoop, if_neg fun hc : c = 0x5c => hf (hc ▸ hb)]

lemma stripLoop_flatMap (s : List UInt8) : (stripLoop (s.flatMap (escapeByte flags))).1 = s := by
  induction s with
  | nil => simp [stripLoop]
  | cons c s ih => rw [flatMap_cons, stripLoop_escapeByte hb hx hctl hoct, ih]

end

/-- **What was escaped is restored**, and every string gets the length of what was written. -/
theorem phpStripcslashes_phpAddcslashes :
    (∀ s flags, flags 0x5c = true → flags 0x78 = false → (∀ e ∈ controls, flags e.1 = false) →
      (∀ d, 0x30 ≤ d → d ≤ 0x37 → flags d = false) →
      phpStripcslashes (phpAddcslashes s flags) = (s, (s.length : ℤ))) ∧
    ∀ str, (phpStripcslashes str).2 = (phpStripcslashes str).1.length := by
  have hl : ∀ str, (phpStripcslashes str).2 = (phpStripcslashes str).1.length := fun str => by
    have := stripLoop_length str
    simp only [phpStripcslashes]
    omega
  refine ⟨fun s flags hb hx hctl hoct => ?_, hl⟩
  have he : (phpStripcslashes (phpAddcslashes s flags)).1 = s := stripLoop_flatMap hb hx hctl hoct s
  exact Prod.ext he (by rw [hl, he])

/-- A backslash that is escaped itself. -/
theorem phpStripcslashes_phpAddcslashes_backslash :
    phpStripcslashes (phpAddcslashes [0x61, 0x5c, 0x6e] (· == 0x5c)) = ([0x61, 0x5c, 0x6e], 3) :=
  phpStripcslashes_phpAddcslashes.1 _ _ (by decide) (by decide) (by simp [controls]) fun d _ hd =>
    beq_eq_false_iff_ne.mpr fun h => absurd (h ▸ hd) (by decide)

end PhpInternals.Ext.Standard

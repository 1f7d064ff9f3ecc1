import Mathlib.Data.PNat.Basic
import Mathlib.Tactic

/-!
# uuencode

`php_uuencode` and `php_uudecode` of `ext/standard/uuencode.c`. The encoder writes full lines, a
shortened one and up to three bytes behind the loop, all with one variable for the length; the
decoder takes the extent of a line from its length alone.

* `phpUuencode_short`, `phpUuencode_long`: the text line by line.
* `phpUudecode_phpUuencode`: decoding gives back what was encoded.

The sizes of the buffers are left out. Products and quotients of `double` are exact here.
-/

namespace PhpInternals.Ext.Standard

open List

/-! ## Characters -/

/-- Source: `PHP_UU_ENC`. -/
def phpUuEnc (c : ℤ) : UInt8 := if c ≠ 0 then UInt8.ofNat ((c % 64).toNat + 0x20) else 0x60

/-- Source: `PHP_UU_ENC_C2`. -/
def phpUuEncC2 (a b : UInt8) : UInt8 :=
  phpUuEnc ((a.toNat <<< 4 &&& 0o60) ||| (b.toNat >>> 4 &&& 0o17) : ℕ)

/-- Source: `PHP_UU_ENC_C3`. -/
def phpUuEncC3 (b c : UInt8) : UInt8 :=
  phpUuEnc ((b.toNat <<< 2 &&& 0o74) ||| (c.toNat >>> 6 &&& 0o3) : ℕ)

/-- Source: `PHP_UU_DEC`. -/
def phpUuDec (c : UInt8) : ℕ := (c - 0x20).toNat &&& 0o77

/-- The four characters for three bytes. A `char` is signed, and its shift divides. -/
def encodeGroup (a b c : UInt8) : List UInt8 :=
  [phpUuEnc (a.toBitVec.toInt / 2 ^ 2), phpUuEncC2 a b, phpUuEncC3 b c,
    phpUuEnc (c.toNat &&& 0o77 : ℕ)]

/-- The three bytes for four characters. -/
def decodeGroup (a b c d : UInt8) : List UInt8 :=
  [UInt8.ofNat (phpUuDec a <<< 2 ||| phpUuDec b >>> 4),
    UInt8.ofNat (phpUuDec b <<< 4 ||| phpUuDec c >>> 2),
    UInt8.ofNat (phpUuDec c <<< 6 ||| phpUuDec d)]

/-! ## The encoder -/

/-- The inner loop, with `k` bytes before `ee`. -/
def encodeRun (k : ℕ) (s : List UInt8) : List UInt8 :=
  if 0 < k then
    encodeGroup (s.getD 0 0) (s.getD 1 0) (s.getD 2 0) ++ encodeRun (k - 3) (s.drop 3)
  else []
termination_by k

/-- The loop over the lines: what it writes, what is left, and `len`. -/
def encodeLines (len : ℕ+) (s : List UInt8) : List UInt8 × List UInt8 × ℕ+ :=
  if h : 3 < s.length then
    if hl : s.length < len then
      let run := if s.length % 3 ≠ 0 then s.length / 3 * 3 else s.length
      let r := encodeLines (s.length.toPNat (by omega)) (s.drop ((run + 2) / 3 * 3))
      (phpUuEnc s.length :: encodeRun run s ++ (if s.length = 45 then [10] else []) ++ r.1, r.2)
    else
      -- the inner loop goes on in threes until `ee` is reached
      let r := encodeLines len (s.drop ((len + 2) / 3 * 3))
      (phpUuEnc (len : ℕ) :: encodeRun len s ++ (if len = 45 then [10] else []) ++ r.1, r.2)
  else ([], s, len)
termination_by s.length
decreasing_by
  all_goals
    have := len.pos
    simp only [length_drop]
    try split_ifs
    all_goals omega

/-- The part behind the loop: the last one to three bytes, and `len`. -/
def encodeRest (s : List UInt8) (len : ℕ) : List UInt8 × ℕ :=
  if s ≠ [] then
    ((if len = 45 then [phpUuEnc s.length] else []) ++
      [phpUuEnc ((s.getD 0 0).toBitVec.toInt / 2 ^ 2), phpUuEncC2 (s.getD 0 0) (s.getD 1 0),
        if 1 < s.length then phpUuEncC3 (s.getD 1 0) (s.getD 2 0) else phpUuEnc 0,
        if 2 < s.length then phpUuEnc ((s.getD 2 0).toNat &&& 0o77 : ℕ) else phpUuEnc 0],
      if len = 45 then 0 else len)
  else ([], len)

/-- Source: `php_uuencode`. -/
def phpUuencode (src : List UInt8) : List UInt8 :=
  let lines := encodeLines 45 src
  let rest := encodeRest lines.2.1 lines.2.2
  lines.1 ++ rest.1 ++ (if rest.2 < 45 then [10] else []) ++ [phpUuEnc 0, 10]

/-! ## The decoder -/

/-- The inner loop, with `k` characters before `ee`: what it writes and leaves, or the error. -/
def decodeRun (k : ℕ) (s : List UInt8) : Option (List UInt8 × List UInt8) :=
  if 0 < k then
    match s with
    | a :: b :: c :: d :: s => (decodeRun (k - 4) s).map fun r => (decodeGroup a b c d ++ r.1, r.2)
    | _ => none
  else some ([], s)
termination_by k

lemma decodeRun_length {k : ℕ} {s : List UInt8} {r : List UInt8 × List UInt8}
    (h : decodeRun k s = some r) : r.2.length ≤ s.length := by
  fun_induction decodeRun k s generalizing r with
  | case1 k hk a b c d s ih =>
    obtain ⟨r', hr', rfl⟩ := Option.map_eq_some_iff.mp h
    have := ih hr'
    simp only [length_cons]
    omega
  | case2 => cases h
  | case3 => cases h; rfl

/-- The loop over the lines: what it writes, `total_len`, and what is left. -/
def decodeLines (srcLen : ℕ) : List UInt8 → Option (List UInt8 × ℕ × List UInt8)
  | [] => some ([], 0, [])
  | c :: s =>
    let len := phpUuDec c
    let run := if len = 45 then 60 else len * 133 / 100
    if len = 0 then some ([], 0, s)
    else if srcLen < len then none
    else if s.length < run then none
    else
      match _h : decodeRun run s with
      | none => none
      | some (p, s) =>
        if len < 45 then some (p, len, s)
        -- skip \n
        else (decodeLines srcLen (s.drop 1)).map fun r => (p ++ r.1, len + r.2.1, r.2.2)
termination_by s => s.length
decreasing_by
  have := decodeRun_length ‹_›
  simp only [length_drop, length_cons] at *
  omega

/-- The part behind the loop, for fewer bytes written than `total_len` says. -/
def decodeRest (len written : ℕ) (s : List UInt8) : List UInt8 :=
  if written < len then
    (decodeGroup (s.getD 0 0) (s.getD 1 0) (s.getD 2 0) (s.getD 3 0)).take len
  else []

/-- Source: `php_uudecode`. -/
def phpUudecode (src : List UInt8) : Option (List UInt8) :=
  (decodeLines src.length src).map fun r =>
    (r.1 ++ decodeRest r.2.1 r.1.length r.2.2).take r.2.1

/-! ## Characters read back -/

lemma phpUuDec_phpUuEnc (c : ℤ) : phpUuDec (phpUuEnc c) = (c % 64).toNat := by
  unfold phpUuEnc
  split_ifs with h
  · have hlt : (c % 64).toNat < 64 := by omega
    rw [phpUuDec, UInt8.toNat_sub, UInt8.toNat_ofNat', Nat.and_two_pow_sub_one_eq_mod _ 6]
    simp only [UInt8.toNat_ofNat, Nat.reducePow, Nat.reduceMod, Nat.reduceSub]
    omega
  · rw [not_not.mp h]
    rfl

/-- Shifted bits above others add up. -/
lemma shiftLeft_or {u v i : ℕ} (hv : v < 2 ^ i) : u <<< i ||| v = u * 2 ^ i + v := by
  rw [← Nat.shiftLeft_add_eq_or_of_lt hv, Nat.shiftLeft_eq]

lemma phpUuDec_first (a : UInt8) :
    phpUuDec (phpUuEnc (a.toBitVec.toInt / 2 ^ 2)) = a.toNat / 4 := by
  have ha := a.toNat_lt
  have hto : a.toBitVec.toInt = if 2 * a.toNat < 2 ^ 8 then (a.toNat : ℤ) else a.toNat - 2 ^ 8 :=
    BitVec.toInt_eq_toNat_cond _
  rw [phpUuDec_phpUuEnc, hto]
  split_ifs <;> omega

lemma phpUuDec_phpUuEncC2 (a b : UInt8) :
    phpUuDec (phpUuEncC2 a b) = a.toNat % 4 * 16 + b.toNat / 16 := by
  have hb := b.toNat_lt
  have hmask : a.toNat <<< 4 &&& 0o60 = (a.toNat % 4) <<< 4 := by
    rw [← Nat.and_two_pow_sub_one_eq_mod _ 2, Nat.shiftLeft_and_distrib]
    rfl
  rw [phpUuEncC2, phpUuDec_phpUuEnc, hmask, Nat.and_two_pow_sub_one_eq_mod _ 4,
    shiftLeft_or (Nat.mod_lt _ (by decide)), Nat.shiftRight_eq_div_pow]
  omega

lemma phpUuDec_phpUuEncC3 (b c : UInt8) :
    phpUuDec (phpUuEncC3 b c) = b.toNat % 16 * 4 + c.toNat / 64 := by
  have hc := c.toNat_lt
  have hmask : b.toNat <<< 2 &&& 0o74 = (b.toNat % 16) <<< 2 := by
    rw [← Nat.and_two_pow_sub_one_eq_mod _ 4, Nat.shiftLeft_and_distrib]
    rfl
  rw [phpUuEncC3, phpUuDec_phpUuEnc, hmask, Nat.and_two_pow_sub_one_eq_mod _ 2,
    shiftLeft_or (Nat.mod_lt _ (by decide)), Nat.shiftRight_eq_div_pow]
  omega

lemma phpUuDec_last (c : UInt8) : phpUuDec (phpUuEnc (c.toNat &&& 0o77 : ℕ)) = c.toNat % 64 := by
  rw [phpUuDec_phpUuEnc, Nat.and_two_pow_sub_one_eq_mod _ 6]
  omega

/-- **A group is read back.** -/
lemma decodeRun_encodeGroup {k : ℕ} (hk : 0 < k) (a b c : UInt8) (s : List UInt8) :
    decodeRun k (encodeGroup a b c ++ s) =
      (decodeRun (k - 4) s).map fun r => (a :: b :: c :: r.1, r.2) := by
  have ha := a.toNat_lt
  have hb := b.toNat_lt
  have hc := c.toNat_lt
  have hgroup : decodeGroup (phpUuEnc (a.toBitVec.toInt / 2 ^ 2)) (phpUuEncC2 a b) (phpUuEncC3 b c)
      (phpUuEnc (c.toNat &&& 0o77 : ℕ)) = [a, b, c] := by
    simp only [decodeGroup, phpUuDec_first, phpUuDec_phpUuEncC2, phpUuDec_phpUuEncC3,
      phpUuDec_last, Nat.shiftRight_eq_div_pow, cons.injEq, ← UInt8.toNat_inj,
      UInt8.toNat_ofNat', and_true]
    refine ⟨?_, ?_, ?_⟩
    all_goals
      rw [shiftLeft_or (by omega)]
      omega
  rw [encodeGroup, decodeRun.eq_def, if_pos hk]
  simp only [cons_append, nil_append, hgroup]

/-! ## Lines -/

/-- The groups of a line, the last one filled up with zeros. -/
def encodeGroups : List UInt8 → List UInt8
  | [] => []
  | [a] => encodeGroup a 0 0
  | [a, b] => encodeGroup a b 0
  | a :: b :: c :: s => encodeGroup a b c ++ encodeGroups s

lemma length_encodeGroups (s : List UInt8) : (encodeGroups s).length = (s.length + 2) / 3 * 4 := by
  fun_induction encodeGroups s with
  | case4 a b c s ih =>
    simp only [length_append, ih, length_cons, encodeGroup, length_nil]
    omega
  | _ => simp [encodeGroup]

/-- The extent of a line may end inside its last group. -/
lemma decodeRun_encodeGroups (s rest : List UInt8) (k : ℕ) (hk : (k + 3) / 4 = (s.length + 2) / 3) :
    ∃ z, decodeRun k (encodeGroups s ++ rest) = some (s ++ z, rest) ∧
      (s.length % 3 = 0 → z = []) := by
  fun_induction encodeGroups s generalizing k with
  | case1 =>
    have hk0 : k = 0 := by
      rw [length_nil] at hk
      omega
    exact ⟨[], by rw [hk0, decodeRun.eq_def]; rfl, fun _ => rfl⟩
  | case2 a =>
    have hk4 : 0 < k ∧ k - 4 = 0 := by simp at hk; omega
    refine ⟨[0, 0], ?_, fun h => by simp at h⟩
    rw [decodeRun_encodeGroup hk4.1, hk4.2, decodeRun.eq_def]
    rfl
  | case3 a b =>
    have hk4 : 0 < k ∧ k - 4 = 0 := by simp at hk; omega
    refine ⟨[0], ?_, fun h => by simp at h⟩
    rw [decodeRun_encodeGroup hk4.1, hk4.2, decodeRun.eq_def]
    rfl
  | case4 a b c s ih =>
    simp only [length_cons] at hk ⊢
    obtain ⟨z, hz, hnil⟩ := ih (k - 4) (by omega)
    refine ⟨z, ?_, fun h => hnil (by omega)⟩
    rw [append_assoc, decodeRun_encodeGroup (by omega), hz]
    rfl

/-- The inner loop of the encoder writes whole groups, which those of the rest follow. -/
lemma encodeGroups_append {u : List UInt8} (hu : u.length % 3 = 0) (v : List UInt8) :
    encodeRun u.length (u ++ v) = encodeGroups u ∧
      encodeGroups (u ++ v) = encodeGroups u ++ encodeGroups v := by
  fun_induction encodeGroups u with
  | case1 => exact ⟨by rw [length_nil, encodeRun]; rfl, rfl⟩
  | case2 a => simp at hu
  | case3 a b => simp at hu
  | case4 a b c u ih =>
    simp only [length_cons] at hu
    obtain ⟨hrun, happ⟩ := ih (by omega)
    constructor
    · rw [encodeRun, if_pos (by simp), ← hrun]
      rfl
    · rw [append_assoc, ← happ]
      rfl

lemma encodeRun_take {k : ℕ} {s : List UInt8} (hk : k % 3 = 0) (hl : k ≤ s.length) :
    encodeRun k s = encodeGroups (s.take k) ∧
      encodeGroups (s.take k) ++ encodeGroups (s.drop k) = encodeGroups s := by
  have hlen : (s.take k).length = k := length_take_of_le hl
  have h := encodeGroups_append (u := s.take k) (by omega) (s.drop k)
  rw [hlen, take_append_drop] at h
  exact ⟨h.1, h.2.symm⟩

/-- The one to three bytes behind the loop are a group. -/
lemma encodeRest_eq {s : List UInt8} (hne : s ≠ []) (hl : s.length ≤ 3) (len : ℕ) :
    encodeRest s len = ((if len = 45 then [phpUuEnc s.length] else []) ++ encodeGroups s,
      if len = 45 then 0 else len) := by
  rw [encodeRest, if_pos hne]
  rcases s with _ | ⟨a, _ | ⟨b, _ | ⟨c, _ | _⟩⟩⟩
  · exact absurd rfl hne
  · rfl
  · rfl
  · simp [encodeGroups, encodeGroup]
  · simp only [length_cons] at hl
    omega

/-- The shortened line is the last one of the loop. -/
lemma encodeLines_short {s : List UInt8} (h : 3 < s.length) (hl : s.length < 45) :
    encodeLines 45 s = (phpUuEnc s.length :: encodeRun (s.length / 3 * 3) s,
      s.drop (s.length / 3 * 3), s.length.toPNat (by omega)) := by
  have hrun : (if s.length % 3 ≠ 0 then s.length / 3 * 3 else s.length) = s.length / 3 * 3 := by
    split_ifs <;> omega
  have hround : (s.length / 3 * 3 + 2) / 3 * 3 = s.length / 3 * 3 := by omega
  have hleft : ¬ 3 < (s.drop (s.length / 3 * 3)).length := by
    rw [length_drop]
    omega
  have hlast (len : ℕ+) : encodeLines len (s.drop (s.length / 3 * 3)) =
      ([], s.drop (s.length / 3 * 3), len) := by
    rw [encodeLines, dif_neg hleft]
  rw [encodeLines, dif_pos h, dif_pos (show s.length < ((45 : ℕ+) : ℕ) from hl)]
  simp only [hrun, hround]
  rw [if_neg (by omega), append_nil, hlast, append_nil]

lemma encodeLines_full {s : List UInt8} (hl : 45 ≤ s.length) :
    encodeLines 45 s =
      (phpUuEnc 45 :: encodeRun 45 s ++ 10 :: (encodeLines 45 (s.drop 45)).1,
        (encodeLines 45 (s.drop 45)).2) := by
  rw [encodeLines, dif_pos (by omega),
    dif_neg (show ¬ s.length < ((45 : ℕ+) : ℕ) from not_lt.mpr hl)]
  simp

lemma phpUuencode_nil : phpUuencode [] = [phpUuEnc 0, 10] := by
  rw [phpUuencode, encodeLines]
  rfl

/-- A text of one line that is not full. -/
lemma phpUuencode_short {s : List UInt8} (hne : s ≠ []) (hl : s.length < 45) :
    phpUuencode s = phpUuEnc s.length :: encodeGroups s ++ [10, phpUuEnc 0, 10] := by
  by_cases h : 3 < s.length
  · obtain ⟨hrun, happ⟩ := encodeRun_take (k := s.length / 3 * 3) (s := s) (by omega) (by omega)
    have hn : s.length ≠ 45 := by omega
    rw [phpUuencode, encodeLines_short h hl, ← happ, hrun]
    by_cases hd : s.drop (s.length / 3 * 3) = []
    · simp [encodeRest, hd, hl, encodeGroups, Nat.toPNat]
    · have hleft : (s.drop (s.length / 3 * 3)).length ≤ 3 := by
        rw [length_drop]
        omega
      simp [encodeRest_eq hd hleft, hn, hl, Nat.toPNat]
  · rw [phpUuencode, encodeLines, dif_neg h]
    simp [encodeRest_eq hne (not_lt.mp h)]

/-- A longer text starts with a full line. -/
lemma phpUuencode_long {s : List UInt8} (hl : 45 ≤ s.length) :
    phpUuencode s =
      phpUuEnc 45 :: encodeGroups (s.take 45) ++ 10 :: phpUuencode (s.drop 45) := by
  rw [phpUuencode, encodeLines_full hl, phpUuencode, (encodeRun_take (by decide) hl).1]
  simp

/-! ## The round trip -/

/-- The extent of a line, computed from its length, ends in its last group. -/
lemma run_extent {n : ℕ} (hn : n ≤ 45) :
    ((if n = 45 then 60 else n * 133 / 100) + 3) / 4 = (n + 2) / 3 := by
  have h : ∀ n ≤ 45, ((if n = 45 then 60 else n * 133 / 100) + 3) / 4 = (n + 2) / 3 := by decide
  exact h n hn

lemma phpUuDec_length {n : ℕ} (hn : n ≤ 45) : phpUuDec (phpUuEnc n) = n := by
  rw [phpUuDec_phpUuEnc]
  omega

/-- One line, up to the test for its length. -/
lemma decodeLines_line {srcLen : ℕ} {line : List UInt8} (rest : List UInt8) (hne : line ≠ [])
    (hl : line.length ≤ 45) (hsrc : line.length ≤ srcLen) :
    ∃ z, (line.length % 3 = 0 → z = []) ∧
      decodeLines srcLen (phpUuEnc line.length :: encodeGroups line ++ rest) =
        if line.length < 45 then some (line ++ z, line.length, rest)
        else (decodeLines srcLen (rest.drop 1)).map fun r =>
          (line ++ z ++ r.1, line.length + r.2.1, r.2.2) := by
  have hpos := length_pos_of_ne_nil hne
  have hext := run_extent hl
  obtain ⟨z, hz, hnil⟩ := decodeRun_encodeGroups line rest _ hext
  have hlong : ¬ (encodeGroups line ++ rest).length <
      if line.length = 45 then 60 else line.length * 133 / 100 := by
    rw [length_append, length_encodeGroups]
    omega
  refine ⟨z, hnil, ?_⟩
  rw [cons_append, decodeLines]
  simp only [phpUuDec_length hl]
  rw [if_neg hpos.ne', if_neg (not_lt.mpr hsrc), if_neg hlong]
  split
  · rename_i heq
    rw [phpUuDec_length hl, hz] at heq
    cases heq
  · rename_i p s heq
    rw [phpUuDec_length hl, hz] at heq
    cases heq
    rfl

/-- No length of a line exceeds that of the text. -/
lemma line_le_phpUuencode (s : List UInt8) : min 45 s.length ≤ (phpUuencode s).length := by
  rcases eq_or_ne s [] with rfl | hne
  · simp
  · by_cases hl : s.length < 45
    · rw [phpUuencode_short hne hl, length_append, length_cons, length_encodeGroups]
      omega
    · rw [phpUuencode_long (not_lt.mp hl), length_append, length_cons, length_encodeGroups,
        length_take]
      omega

/-- **The lines are read back** one after the other. -/
lemma decodeLines_phpUuencode (srcLen : ℕ) (s : List UInt8) (hsrc : min 45 s.length ≤ srcLen) :
    ∃ z rest, decodeLines srcLen (phpUuencode s) = some (s ++ z, s.length, rest) := by
  induction hn : s.length using Nat.strong_induction_on generalizing s with
  | _ n ih =>
    subst hn
    rcases eq_or_ne s [] with rfl | hne
    · exact ⟨[], [10], by rw [phpUuencode_nil, decodeLines]; simp [phpUuDec_phpUuEnc]⟩
    · by_cases hl : s.length < 45
      · have hline : s.length ≤ srcLen := by omega
        obtain ⟨z, -, hz⟩ := decodeLines_line [10, phpUuEnc 0, 10] hne hl.le hline
        exact ⟨z, _, by rw [phpUuencode_short hne hl, hz, if_pos hl]⟩
      · have hl45 : 45 ≤ s.length := not_lt.mp hl
        have htake : (s.take 45).length = 45 := by rw [length_take]; omega
        have hline : (s.take 45).length ≤ srcLen := by omega
        obtain ⟨z, hnil, hz⟩ := decodeLines_line (10 :: phpUuencode (s.drop 45))
          (ne_nil_of_length_pos (by omega)) htake.le hline
        have hdrop : (s.drop 45).length < s.length := by rw [length_drop]; omega
        obtain ⟨z', rest, hz'⟩ := ih _ hdrop (s.drop 45) (by omega) rfl
        rw [htake] at hz hnil
        refine ⟨z', rest, ?_⟩
        rw [phpUuencode_long hl45, show (45 : ℤ) = (45 : ℕ) from rfl, hz, if_neg (by omega),
          hnil rfl, append_nil, drop_one, tail_cons, hz']
        simp only [Option.map_some, ← append_assoc, take_append_drop, length_drop]
        rw [Nat.add_sub_cancel' hl45]

/-- **uuencode round trip**: every text, the empty one included, is decoded to itself. -/
theorem phpUudecode_phpUuencode (s : List UInt8) :
    phpUudecode (phpUuencode s) = some s := by
  obtain ⟨z, rest, h⟩ := decodeLines_phpUuencode _ s (line_le_phpUuencode s)
  rw [phpUudecode, h]
  simp [decodeRest]

end PhpInternals.Ext.Standard

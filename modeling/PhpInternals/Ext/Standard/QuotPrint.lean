import Mathlib.Data.List.Basic
import Mathlib.Tactic

/-!
# Quoted-printable

Embedding of `ext/standard/quot_print.c`. A string is what stands at the pointer; behind its end the
terminating NUL byte is read. Both decoders give the string back; the limit of 76 bytes to a line is
not tested before a byte above `0xf4`.
-/

namespace PhpInternals.Ext.Standard

open List

/-- `hex[n]`. -/
def hexAt (n : ℕ) : UInt8 :=
  [0x30, 0x31, 0x32, 0x33, 0x34, 0x35, 0x36, 0x37, 0x38, 0x39, 0x41, 0x42, 0x43, 0x44, 0x45,
    0x46].getD n 0

/-- `php_hex2int`, where `isxdigit` holds. -/
def phpHex2int (c : UInt8) : Option ℕ :=
  if 0x30 ≤ c ∧ c ≤ 0x39 then some (c.toNat - 0x30)
  else if 0x41 ≤ c ∧ c ≤ 0x46 then some (c.toNat - 0x41 + 10)
  else if 0x61 ≤ c ∧ c ≤ 0x66 then some (c.toNat - 0x61 + 10)
  else none

/-- `hexval_tbl[c]`: a digit, white space (32), a line end (16), or another byte (64). -/
def hexvalTbl (c : UInt8) : ℕ :=
  (phpHex2int c).getD (if c = 9 ∨ c = 32 then 32 else if c = 10 ∨ c = 13 then 16 else 64)

/-- A byte that does not begin a CRLF pair: what is written for it in column `lp`, and the column
behind it. -/
def encodeByte (lp : ℕ) (c next : UInt8) : List UInt8 × ℕ :=
  -- `iscntrl` of the C locale
  if c < 32 ∨ c = 0x7f ∨ 0x80 ≤ c ∨ c = 0x3d ∨ c = 32 ∧ next = 13 then
    let quoted := [0x3d, hexAt (c.toNat / 16), hexAt (c.toNat % 16)]
    if 75 < lp + 3 ∧ c ≤ 0x7f ∨ 0x7f < c ∧ c ≤ 0xdf ∧ 75 < lp + 3 + 3 ∨
        0xdf < c ∧ c ≤ 0xef ∧ 75 < lp + 3 + 6 ∨ 0xef < c ∧ c ≤ 0xf4 ∧ 75 < lp + 3 + 9 then
      (0x3d :: 13 :: 10 :: quoted, 3)
    else (quoted, lp + 3)
  else if 75 < lp + 1 then ([0x3d, 13, 10, c], 1) else ([c], lp + 1)

/-- The loop of `php_quot_print_encode` from column `lp` on. -/
def encodeLoop : ℕ → List UInt8 → List UInt8
  | _, [] => []
  | lp, [c] => (encodeByte lp c 0).1
  | lp, c :: next :: str =>
    if c = 13 ∧ next = 10 then 13 :: 10 :: encodeLoop 0 str
    else (encodeByte lp c next).1 ++ encodeLoop (encodeByte lp c next).2 (next :: str)

/-- Source: `php_quot_print_encode`. -/
def phpQuotPrintEncode (str : List UInt8) : List UInt8 := encodeLoop 0 str

/-- `none` is the `NULL` for a text that is not quoted-printable. Source: `php_quot_print_decode`.
-/
def phpQuotPrintDecode (replaceUsByWs : Bool) : List UInt8 → Option (List UInt8)
  | [] => some []
  | c :: p1 =>
    if c = 0 then some []
    else if c = 0x3d then
      let hNbl := hexvalTbl (p1.headD 0)
      let lNbl := hexvalTbl (p1.tail.headD 0)
      if p1.headD 0 = 0 then some []
      else if hNbl < 16 then
        if 16 ≤ lNbl then none
        else (phpQuotPrintDecode replaceUsByWs (p1.drop 2)).map
          (UInt8.ofNat (hNbl <<< 4 ||| lNbl) :: ·)
      else if hNbl < 64 then
        -- the loop over white space ends at a byte of another kind, or fails
        let rest := p1.dropWhile (hexvalTbl · = 32)
        if hexvalTbl (rest.headD 0) = 64 then none
        else if rest.take 2 = [13, 10] then phpQuotPrintDecode replaceUsByWs (rest.drop 2)
        else phpQuotPrintDecode replaceUsByWs (rest.drop 1)
      else none
    else (phpQuotPrintDecode replaceUsByWs p1).map
      ((if replaceUsByWs ∧ c = 0x5f then 32 else c) :: ·)
termination_by str => str.length
decreasing_by
  all_goals
    have := (dropWhile_sublist (hexvalTbl · = 32) (l := p1)).length_le
    simp only [length_drop, length_cons]
    omega

/-- Source: `PHP_FUNCTION(quoted_printable_decode)`. -/
def quotedPrintableDecode : List UInt8 → List UInt8
  | [] => []
  | c :: strIn =>
    if c = 0 then []
    else if c = 0x3d then
      match phpHex2int (strIn.headD 0), phpHex2int (strIn.tail.headD 0) with
      | some h, some l => UInt8.ofNat (h <<< 4 + l) :: quotedPrintableDecode (strIn.drop 2)
      | _, _ =>
        let rest := strIn.dropWhile fun b => b = 32 ∨ b = 9
        if rest.headD 0 = 0 then []
        else if rest.take 2 = [13, 10] then quotedPrintableDecode (rest.drop 2)
        else if rest.headD 0 = 13 ∨ rest.headD 0 = 10 then quotedPrintableDecode (rest.drop 1)
        else c :: quotedPrintableDecode strIn
    else c :: quotedPrintableDecode strIn
termination_by strIn => strIn.length
decreasing_by
  all_goals
    have := (dropWhile_sublist (fun b => b = 32 ∨ b = 9) (l := strIn)).length_le
    simp only [length_drop, length_cons]
    omega

/-! ## Round trip -/

/-- The texts that stand for a string: each byte as it is or by its number, soft breaks anywhere. -/
inductive Encodes : List UInt8 → List UInt8 → Prop
  | nil : Encodes [] []
  | soft {e s} : Encodes e s → Encodes (0x3d :: 13 :: 10 :: e) s
  | quoted {e s} (c : UInt8) : Encodes e s →
    Encodes (0x3d :: hexAt (c.toNat / 16) :: hexAt (c.toNat % 16) :: e) (c :: s)
  | plain {e s} {c : UInt8} : c ≠ 0 → c ≠ 0x3d → Encodes e s → Encodes (c :: e) (c :: s)

variable {e s : List UInt8}

lemma Encodes.encodeByte (h : Encodes e s) (lp : ℕ) (c next : UInt8) :
    Encodes ((encodeByte lp c next).1 ++ e) (c :: s) := by
  unfold Standard.encodeByte
  split_ifs with hc hb hcl
  · exact .soft (.quoted c h)
  · exact .quoted c h
  all_goals
    push Not at hc
    have hp : Encodes (c :: e) (c :: s) := .plain (fun h0 => by simp [h0] at hc) hc.2.2.2.1 h
  · exact .soft hp
  · exact hp

lemma encodeLoop_encodes (lp : ℕ) (s : List UInt8) : Encodes (encodeLoop lp s) s := by
  fun_induction encodeLoop lp s with
  | case1 => exact .nil
  | case2 lp c => simpa using Encodes.nil.encodeByte lp c 0
  | case3 lp c next str hc ih =>
    rw [hc.1, hc.2]
    exact .plain (by decide) (by decide) (.plain (by decide) (by decide) ih)
  | case4 lp c next str hc ih => exact ih.encodeByte lp c next

variable {n : ℕ}

lemma phpHex2int_hexAt (hn : n < 16) : phpHex2int (hexAt n) = some n := by
  revert n
  decide

lemma hexvalTbl_hexAt (hn : n < 16) : hexvalTbl (hexAt n) = n := by
  rw [hexvalTbl, phpHex2int_hexAt hn]
  rfl

lemma ofNat_nibbles (c : UInt8) : UInt8.ofNat ((c.toNat / 16) <<< 4 + c.toNat % 16) = c := by
  rw [Nat.shiftLeft_eq, Nat.div_add_mod']
  exact UInt8.ofNat_toNat

lemma Encodes.phpQuotPrintDecode_eq (h : Encodes e s) : phpQuotPrintDecode false e = some s := by
  induction h with
  | nil => rw [phpQuotPrintDecode]
  | soft _ ih =>
    rw [phpQuotPrintDecode]
    simpa [hexvalTbl, phpHex2int] using ih
  | quoted c _ ih =>
    have hc := c.toNat_lt
    have hh := hexvalTbl_hexAt (n := c.toNat / 16) (by omega)
    have hl := hexvalTbl_hexAt (n := c.toNat % 16) (by omega)
    have hne : hexAt (c.toNat / 16) ≠ 0 := fun h0 => by
      rw [h0, show hexvalTbl 0 = 64 by rfl] at hh
      omega
    have hor : (c.toNat / 16) <<< 4 ||| c.toNat % 16 = (c.toNat / 16) <<< 4 + c.toNat % 16 :=
      (Nat.shiftLeft_add_eq_or_of_lt (Nat.mod_lt _ (by decide)) _).symm
    rw [phpQuotPrintDecode, if_neg (by decide), if_pos rfl]
    simp only [headD_cons, tail_cons, drop_succ_cons, drop_zero, hh, hl, hor, ofNat_nibbles, ih]
    rw [if_neg hne, if_pos (by omega), if_neg (by omega)]
    rfl
  | plain h0 heq _ ih =>
    rw [phpQuotPrintDecode]
    simp [h0, heq, ih]

lemma Encodes.quotedPrintableDecode_eq (h : Encodes e s) : quotedPrintableDecode e = s := by
  induction h with
  | nil => rw [quotedPrintableDecode]
  | soft _ ih =>
    rw [quotedPrintableDecode]
    simpa [phpHex2int] using ih
  | quoted c _ ih =>
    have hc := c.toNat_lt
    rw [quotedPrintableDecode, if_neg (by decide), if_pos rfl]
    simp only [headD_cons, tail_cons, drop_succ_cons, drop_zero, ih, ofNat_nibbles,
      phpHex2int_hexAt (n := c.toNat / 16) (by omega),
      phpHex2int_hexAt (Nat.mod_lt c.toNat (by decide : 0 < 16))]
  | plain h0 heq _ ih =>
    rw [quotedPrintableDecode, if_neg h0, if_neg heq, ih]

/-- **What was encoded is decoded again**, by both decoders. -/
theorem phpQuotPrintEncode_roundTrip (s : List UInt8) :
    quotedPrintableDecode (phpQuotPrintEncode s) = s ∧
    phpQuotPrintDecode false (phpQuotPrintEncode s) = some s := by
  have h := encodeLoop_encodes 0 s
  exact ⟨h.quotedPrintableDecode_eq, h.phpQuotPrintDecode_eq⟩

/-! ## The length of a line -/

/-- The lines between CRLF pairs. -/
def crlfLines : List UInt8 → List (List UInt8)
  | [] => [[]]
  | [c] => [[c]]
  | c :: d :: s =>
    if c = 13 ∧ d = 10 then [] :: crlfLines s else (crlfLines (d :: s)).modifyHead (c :: ·)

/-- Every line has at most 76 bytes, the first one behind column `lp`. -/
def Fits (lp : ℕ) (e : List UInt8) : Prop :=
  lp + ((crlfLines e).headD []).length ≤ 76 ∧ ∀ q ∈ crlfLines e, q.length ≤ 76

variable {lp : ℕ} {c next : UInt8}

lemma crlfLines_ne_nil (e : List UInt8) : crlfLines e ≠ [] := by
  fun_induction crlfLines e <;> simp_all

lemma fits_nil_iff : Fits lp [] ↔ lp ≤ 76 := by
  simp [Fits, crlfLines]

lemma Fits.column_le (h : Fits lp e) : lp ≤ 76 := (Nat.le_add_right _ _).trans h.1

lemma fits_crlf_iff : Fits lp (13 :: 10 :: e) ↔ lp ≤ 76 ∧ Fits 0 e := by
  obtain ⟨q, qs, hl⟩ := exists_cons_of_ne_nil (crlfLines_ne_nil e)
  simp [Fits, crlfLines, hl]

lemma fits_cons_iff (hc : c ≠ 13) : Fits lp (c :: e) ↔ Fits (lp + 1) e := by
  have hln : crlfLines (c :: e) = (crlfLines e).modifyHead (c :: ·) := by
    cases e with
    | nil => rfl
    | cons d e => rw [crlfLines, if_neg fun hd => hc hd.1]
  obtain ⟨q, qs, hl⟩ := exists_cons_of_ne_nil (crlfLines_ne_nil e)
  simp only [Fits, hln, hl, modifyHead_cons, headD_cons, forall_mem_cons, length_cons]
  constructor
  · exact fun h => ⟨by omega, by omega, h.2.2⟩
  · exact fun h => ⟨by omega, by omega, h.2.2⟩

lemma hexAt_ne_cr (hn : n < 16) : hexAt n ≠ 13 := fun h => by
  have hv := hexvalTbl_hexAt hn
  rw [h, show hexvalTbl 13 = 16 by rfl] at hv
  omega

/-- The text behind a byte has to fit behind its column; a soft break needs room for its `=`. -/
lemma fits_encodeByte_iff : Fits lp ((encodeByte lp c next).1 ++ e) ↔
    ((encodeByte lp c next).2 ≤ lp → lp ≤ 75) ∧ Fits (encodeByte lp c next).2 e := by
  have hlt := c.toNat_lt
  have hq : ∀ {lp}, Fits lp (0x3d :: hexAt (c.toNat / 16) :: hexAt (c.toNat % 16) :: e) ↔
      Fits (lp + 3) e := by
    intro lp
    rw [fits_cons_iff (by decide), fits_cons_iff (hexAt_ne_cr (by omega)),
      fits_cons_iff (hexAt_ne_cr (by omega))]
  have hs : ∀ {e}, Fits lp (0x3d :: 13 :: 10 :: e) ↔ lp ≤ 75 ∧ Fits 0 e := by
    intro e
    rw [fits_cons_iff (by decide), fits_crlf_iff]
    exact and_congr_left' (by omega)
  unfold encodeByte
  split_ifs with hqt hb hcl
  · simp only [cons_append, nil_append, hs, hq]
    exact and_congr_left' ⟨fun h _ => h, fun h => h (by omega)⟩
  · simp only [cons_append, nil_append, hq]
    exact ⟨fun h => ⟨by omega, h⟩, And.right⟩
  all_goals have hcr : c ≠ 13 := fun h0 => hqt (.inl (by rw [h0]; decide))
  · simp only [cons_append, nil_append, hs, fits_cons_iff hcr]
    exact and_congr_left' ⟨fun h _ => h, fun h => h (by omega)⟩
  · simp only [cons_append, nil_append, fits_cons_iff hcr]
    exact ⟨fun h => ⟨by omega, h⟩, And.right⟩

/-- A byte up to `0xf4` keeps the column within the limit; one above it is written without a test.
-/
lemma encodeByte_column (c next : UInt8) (hlp : lp ≤ 75) :
    (c ≤ 0xf4 → (encodeByte lp c next).2 ≤ 75) ∧
    (0xf4 < c → (encodeByte lp c next).2 = lp + 3) := by
  unfold encodeByte
  simp only [UInt8.le_iff_toNat_le, UInt8.lt_iff_toNat_lt, UInt8.reduceToNat]
  split_ifs with hq hb
  · exact ⟨fun _ => (by decide : 3 ≤ 75), by omega⟩
  · exact ⟨fun hc => (by omega : lp + 3 ≤ 75), fun _ => rfl⟩
  · exact ⟨fun _ => (by decide : 1 ≤ 75), by omega⟩
  · exact ⟨fun _ => (by omega : lp + 1 ≤ 75), by omega⟩

/-- In the text `str` from column `lp` on, every byte above `0xf4` stands where its `=XX` fits: up
to column 72, or 73 if the line ends behind it. -/
def HighFits : ℕ → List UInt8 → Prop
  | _, [] => True
  | lp, [c] => 0xf4 < c → lp ≤ 73
  | lp, c :: next :: str =>
    if c = 13 ∧ next = 10 then HighFits 0 str
    else (0xf4 < c → lp ≤ 72 ∨ lp = 73 ∧ (next :: str).take 2 = [13, 10]) ∧
      HighFits (encodeByte lp c next).2 (next :: str)

/-- A full line ends where the text ends or with a CRLF pair. -/
lemma take_of_fits (h : Fits 76 (encodeLoop 76 s)) (hs : s ≠ []) : s.take 2 = [13, 10] := by
  have hno : ∀ {c next e}, ¬ Fits 76 ((encodeByte 76 c next).1 ++ e) := by
    intro c next e hf
    obtain ⟨hb, hf⟩ := fits_encodeByte_iff.mp hf
    exact absurd (hb hf.column_le) (by decide)
  cases s with
  | nil => exact absurd rfl hs
  | cons c s =>
    cases s with
    | nil =>
      rw [encodeLoop, ← append_nil (encodeByte 76 c 0).1] at h
      exact absurd h hno
    | cons next str =>
      rw [encodeLoop] at h
      split_ifs at h with hc
      · simp [hc]
      · exact absurd h hno

/-- One byte above `0xf4` at column `lp`, with `s` behind it. -/
lemma high_iff (ih : lp + 3 ≤ 75 ∨ lp + 3 = 76 ∧ (s = [] ∨ s.take 2 = [13, 10]) →
      (Fits (lp + 3) (encodeLoop (lp + 3) s) ↔ HighFits (lp + 3) s)) :
    Fits (lp + 3) (encodeLoop (lp + 3) s) ↔
      (lp ≤ 72 ∨ lp = 73 ∧ (s = [] ∨ s.take 2 = [13, 10])) ∧ HighFits (lp + 3) s := by
  by_cases hok : lp ≤ 72 ∨ lp = 73 ∧ (s = [] ∨ s.take 2 = [13, 10])
  · rw [ih (hok.imp (by omega) fun h => ⟨by omega, h.2⟩)]
    exact ⟨fun h => ⟨hok, h⟩, And.right⟩
  · refine ⟨fun h => absurd ?_ hok, fun h => absurd h.1 hok⟩
    have hle := h.column_le
    by_cases h73 : lp = 73
    · subst h73
      exact .inr ⟨rfl, or_iff_not_imp_left.mpr (take_of_fits h)⟩
    · exact .inl (by omega)

/-- The lines stay short if each byte is written in time. -/
lemma fits_encodeLoop_iff (hlp : lp ≤ 75 ∨ lp = 76 ∧ (s = [] ∨ s.take 2 = [13, 10])) :
    Fits lp (encodeLoop lp s) ↔ HighFits lp s := by
  fun_induction encodeLoop lp s with
  | case1 lp => exact iff_of_true (fits_nil_iff.mpr (by omega)) trivial
  | case2 lp c =>
    have h75 : lp ≤ 75 := by simpa using hlp
    obtain ⟨hlow, hhigh⟩ := encodeByte_column c 0 h75
    rw [← append_nil (encodeByte lp c 0).1, fits_encodeByte_iff, fits_nil_iff, HighFits]
    by_cases hc : 0xf4 < c
    · rw [hhigh hc]
      exact ⟨fun h _ => by omega, fun h => ⟨fun _ => h75, by have := h hc; omega⟩⟩
    · have := hlow (UInt8.not_lt.mp hc)
      exact iff_of_true ⟨fun _ => h75, by omega⟩ fun h => absurd h hc
  | case3 lp c next str hc ih =>
    rw [HighFits, if_pos hc, fits_crlf_iff, ih (.inl (by omega))]
    exact and_iff_right (by omega)
  | case4 lp c next str hc ih =>
    have h75 : lp ≤ 75 := by
      refine hlp.resolve_right fun h => ?_
      simp only [take_succ_cons, cons.injEq, reduceCtorEq, false_or] at h
      exact hc ⟨h.2.1, h.2.2.1⟩
    obtain ⟨hlow, hhigh⟩ := encodeByte_column c next h75
    rw [HighFits, if_neg hc, fits_encodeByte_iff, and_iff_right fun _ => h75]
    by_cases hhi : 0xf4 < c
    · rw [hhigh hhi] at ih ⊢
      rw [high_iff ih]
      simp [hhi]
    · rw [ih (.inl (hlow (UInt8.not_lt.mp hhi)))]
      exact (and_iff_right fun h => absurd h hhi).symm

/-- **Every line has at most 76 bytes if and only if the bytes above `0xf4` stand where they fit.**
-/
theorem phpQuotPrintEncode_lines_iff (s : List UInt8) :
    (∀ q ∈ crlfLines (phpQuotPrintEncode s), q.length ≤ 76) ↔ HighFits 0 s := by
  rw [← fits_encodeLoop_iff (.inl (by omega)), phpQuotPrintEncode, Fits]
  obtain ⟨q, qs, hl⟩ := exists_cons_of_ne_nil (crlfLines_ne_nil (encodeLoop 0 s))
  simp [hl]

/-- 25 bytes `0xff` still fit. -/
theorem phpQuotPrintEncode_lines_iff_full :
    ∀ q ∈ crlfLines (phpQuotPrintEncode (replicate 25 0xff)), q.length ≤ 76 :=
  (phpQuotPrintEncode_lines_iff _).mpr (by simp [HighFits, encodeByte])

/-- No limit is tested for the bytes above `0xf4`. -/
theorem phpQuotPrintEncode_longLine :
    ∃ q ∈ crlfLines (phpQuotPrintEncode (replicate 26 0xff)), q.length = 78 := by
  decide +kernel

end PhpInternals.Ext.Standard

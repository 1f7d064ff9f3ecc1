import PhpInternals.Found.Utf8

/-!
# Reading a UTF-8 character

Embedding of the `cs_utf_8` case of `get_next_char` (`ext/standard/html.c`), which
`php_next_utf8_char` calls. The string from the cursor on is a list of octets; the new cursor is
what is left of it.
-/

namespace PhpInternals.Ext.Standard

open PhpInternals.Found

/-- `utf8_lead`: valid as single byte character or leading byte. -/
def utf8Lead (c : UInt8) : Bool := c < 0x80 || (0xc2 ≤ c && c ≤ 0xf4)

/-- Source: `utf8_trail`. -/
def utf8Trail (c : UInt8) : Bool := 0x80 ≤ c && c ≤ 0xbf

/-- What `get_next_char` returns: `this_char` or a failed `status`, and the string from the new
cursor on. Source: `get_next_char`. -/
inductive NextChar where
  | success (thisChar : ℕ) (rest : List UInt8)
  | failure (rest : List UInt8)
  deriving DecidableEq, Repr

/-- Source: `MB_FAILURE`. -/
def mbFailure (str : List UInt8) (advance : ℕ) : NextChar := .failure (str.drop advance)

/-- The case of a leading byte below `0xe0`. Source: `get_next_char`. -/
def getNextChar2 (c : UInt8) : List UInt8 → NextChar
  | [] => mbFailure [c] 1
  | d :: s =>
    if !utf8Trail d then mbFailure (c :: d :: s) (if utf8Lead d then 1 else 2)
    else
      let thisChar := ((c.toNat &&& 0x1f) <<< 6) ||| (d.toNat &&& 0x3f)
      -- non-shortest form
      if thisChar < 0x80 then mbFailure (c :: d :: s) 2
      else .success thisChar s

/-- The case of a leading byte below `0xf0`. Source: `get_next_char`. -/
def getNextChar3 (c : UInt8) : List UInt8 → NextChar
  | [] => mbFailure [c] 1
  | [d] => mbFailure [c, d] (if utf8Lead d then 1 else 2)
  | d :: e :: s =>
    if !utf8Trail d || !utf8Trail e then
      mbFailure (c :: d :: e :: s) (if utf8Lead d then 1 else if utf8Lead e then 2 else 3)
    else
      let thisChar :=
        ((c.toNat &&& 0x0f) <<< 12) ||| ((d.toNat &&& 0x3f) <<< 6) ||| (e.toNat &&& 0x3f)
      -- non-shortest form, or a surrogate
      if thisChar < 0x800 then mbFailure (c :: d :: e :: s) 3
      else if 0xd800 ≤ thisChar ∧ thisChar ≤ 0xdfff then mbFailure (c :: d :: e :: s) 3
      else .success thisChar s

/-- The case of a leading byte below `0xf5`. Source: `get_next_char`. -/
def getNextChar4 (c : UInt8) : List UInt8 → NextChar
  | [] => mbFailure [c] 1
  | [d] => mbFailure [c, d] (if utf8Lead d then 1 else 2)
  | [d, e] => mbFailure [c, d, e] (if utf8Lead d then 1 else if utf8Lead e then 2 else 3)
  | d :: e :: f :: s =>
    if !utf8Trail d || !utf8Trail e || !utf8Trail f then
      mbFailure (c :: d :: e :: f :: s)
        (if utf8Lead d then 1 else if utf8Lead e then 2 else if utf8Lead f then 3 else 4)
    else
      let thisChar :=
        ((c.toNat &&& 0x07) <<< 18) ||| ((d.toNat &&& 0x3f) <<< 12) ||| ((e.toNat &&& 0x3f) <<< 6)
          ||| (f.toNat &&& 0x3f)
      -- non-shortest form or outside range
      if thisChar < 0x10000 ∨ 0x10ffff < thisChar then mbFailure (c :: d :: e :: f :: s) 4
      else .success thisChar s

/-- `get_next_char(cs_utf_8, ...)`. -/
def getNextChar : List UInt8 → NextChar
  | [] => mbFailure [] 1
  | c :: s =>
    if c < 0x80 then .success c.toNat s
    else if c < 0xc2 then mbFailure (c :: s) 1
    else if c < 0xe0 then getNextChar2 c s
    else if c < 0xf0 then getNextChar3 c s
    else if c < 0xf5 then getNextChar4 c s
    else mbFailure (c :: s) 1

/-! ## Success -/

section success

variable {c d e f : UInt8} {s rest : List UInt8} {v : ℕ}

lemma utf8Trail_iff : utf8Trail c = true ↔ 0x80 ≤ c.toNat ∧ c.toNat ≤ 0xbf := by
  simp [utf8Trail, UInt8.le_iff_toNat_le]

@[simp] lemma mbFailure_ne_success (str : List UInt8) (n : ℕ) :
    mbFailure str n ≠ .success v rest := nofun

lemma getNextChar2_cons (hc : 0xc2 ≤ c.toNat) (hc' : c.toNat < 0xe0) :
    getNextChar2 c (d :: s) = .success v rest ↔ Utf8Char v [c, d] ∧ s = rest := by
  have hch : ((c.toNat &&& 0x1f) <<< 6) ||| (d.toNat &&& 0x3f) =
      c.toNat % 0x20 * 0x40 + d.toNat % 0x40 := by
    rw [or_shiftLeft_six, Nat.and_two_pow_sub_one_eq_mod c.toNat 5]
  rw [getNextChar2]
  by_cases htr : utf8Trail d = true
  · rw [if_neg (by simpa using htr)]
    rw [utf8Trail_iff] at htr
    rw [if_neg (by omega), NextChar.success.injEq]
    refine and_congr_left fun _ => ⟨fun hv => ?_, fun h => ?_⟩
    · exact .two (by omega) (by omega) (by omega) (by omega)
    · cases h; omega
  · rw [if_pos (by simpa using htr)]
    refine iff_of_false (mbFailure_ne_success _ _) fun h => htr ?_
    cases h.1
    rw [utf8Trail_iff]
    omega

lemma getNextChar3_cons (hc : 0xe0 ≤ c.toNat) (hc' : c.toNat < 0xf0) :
    getNextChar3 c (d :: e :: s) = .success v rest ↔ Utf8Char v [c, d, e] ∧ s = rest := by
  have hch : ((c.toNat &&& 0x0f) <<< 12) ||| ((d.toNat &&& 0x3f) <<< 6) ||| (e.toNat &&& 0x3f) =
      (c.toNat % 0x10 * 0x40 + d.toNat % 0x40) * 0x40 + e.toNat % 0x40 := by
    rw [or_shiftLeft_twelve, Nat.and_two_pow_sub_one_eq_mod c.toNat 4]
  rw [getNextChar3]
  by_cases htr : utf8Trail d = true ∧ utf8Trail e = true
  · rw [if_neg (by simpa using htr)]
    rw [utf8Trail_iff, utf8Trail_iff] at htr
    simp only
    split_ifs with hs hsr
    iterate 2
      refine iff_of_false (mbFailure_ne_success _ _) fun h => ?_
      cases h.1; omega
    · rw [NextChar.success.injEq]
      refine and_congr_left fun _ => ⟨fun hv => ?_, fun h => ?_⟩
      · exact .three (by omega) (by omega) (by omega) (by omega) (by omega) (by omega)
      · cases h; omega
  · rw [if_pos (by simpa [imp_iff_not_or] using htr)]
    refine iff_of_false (mbFailure_ne_success _ _) fun h => htr ?_
    cases h.1
    rw [utf8Trail_iff, utf8Trail_iff]
    omega

lemma getNextChar4_cons (hc : 0xf0 ≤ c.toNat) (hc' : c.toNat < 0xf5) :
    getNextChar4 c (d :: e :: f :: s) = .success v rest ↔ Utf8Char v [c, d, e, f] ∧ s = rest := by
  have hch : ((c.toNat &&& 0x07) <<< 18) ||| ((d.toNat &&& 0x3f) <<< 12) |||
      ((e.toNat &&& 0x3f) <<< 6) ||| (f.toNat &&& 0x3f) =
      ((c.toNat % 0x8 * 0x40 + d.toNat % 0x40) * 0x40 + e.toNat % 0x40) * 0x40 +
        f.toNat % 0x40 := by
    rw [or_shiftLeft_eighteen, Nat.and_two_pow_sub_one_eq_mod c.toNat 3]
  rw [getNextChar4]
  by_cases htr : utf8Trail d = true ∧ utf8Trail e = true ∧ utf8Trail f = true
  · rw [if_neg (by simpa [and_assoc] using htr)]
    rw [utf8Trail_iff, utf8Trail_iff, utf8Trail_iff] at htr
    simp only
    split_ifs with hr
    · refine iff_of_false (mbFailure_ne_success _ _) fun h => ?_
      cases h.1; omega
    · rw [NextChar.success.injEq]
      refine and_congr_left fun _ => ⟨fun hv => ?_, fun h => ?_⟩
      · exact .four (by omega) (by omega) (by omega) (by omega) (by omega) (by omega)
      · cases h; omega
  · rw [if_pos (by simpa [imp_iff_not_or, or_assoc] using htr)]
    refine iff_of_false (mbFailure_ne_success _ _) fun h => htr ?_
    cases h.1
    rw [utf8Trail_iff, utf8Trail_iff, utf8Trail_iff]
    omega

/-- **It reads the well-formed characters, and nothing else.** -/
theorem getNextChar_eq_success_iff {str : List UInt8} :
    getNextChar str = .success v rest ↔ ∃ bs, Utf8Char v bs ∧ str = bs ++ rest := by
  cases str with
  | nil =>
    refine iff_of_false (mbFailure_ne_success _ _) ?_
    rintro ⟨bs, h, heq⟩
    exact absurd (List.append_eq_nil_iff.mp heq.symm).1 h.ne_nil
  | cons c s =>
    rw [getNextChar]
    simp only [UInt8.lt_iff_toNat_lt]
    constructor
    · intro h
      split_ifs at h with h1 h2 h3 h4 h5
      all_goals try exact absurd h (mbFailure_ne_success _ _)
      · cases h
        exact ⟨[c], .one h1 rfl, rfl⟩
      · obtain _ | ⟨d, s⟩ := s
        · exact absurd h (mbFailure_ne_success _ _)
        · obtain ⟨hch, rfl⟩ := (getNextChar2_cons (by simpa using h2) h3).mp h
          exact ⟨_, hch, rfl⟩
      · obtain _ | ⟨d, _ | ⟨e, s⟩⟩ := s
        all_goals try exact absurd h (mbFailure_ne_success _ _)
        obtain ⟨hch, rfl⟩ := (getNextChar3_cons (by simpa using h3) h4).mp h
        exact ⟨_, hch, rfl⟩
      · obtain _ | ⟨d, _ | ⟨e, _ | ⟨f, s⟩⟩⟩ := s
        all_goals try exact absurd h (mbFailure_ne_success _ _)
        obtain ⟨hch, rfl⟩ := (getNextChar4_cons (by simpa using h4) h5).mp h
        exact ⟨_, hch, rfl⟩
    rintro ⟨bs, hch, heq⟩
    cases hch with
    | one hv h0 =>
      cases heq
      rw [if_pos (by simpa using (h0 ▸ hv)), h0]
      rfl
    | two hv hv' h0 h1 =>
      cases heq
      rw [if_neg, if_neg, if_pos]
      · exact (getNextChar2_cons (by omega) (by omega)).mpr ⟨.two hv hv' h0 h1, rfl⟩
      all_goals (simp; omega)
    | three hv hv' hsr h0 h1 h2 =>
      cases heq
      rw [if_neg, if_neg, if_neg, if_pos]
      · exact (getNextChar3_cons (by omega) (by omega)).mpr ⟨.three hv hv' hsr h0 h1 h2, rfl⟩
      all_goals (simp; omega)
    | four hv hv' h0 h1 h2 h3 =>
      cases heq
      rw [if_neg, if_neg, if_neg, if_neg, if_pos]
      · exact (getNextChar4_cons (by omega) (by omega)).mpr ⟨.four hv hv' h0 h1 h2 h3, rfl⟩
      all_goals (simp; omega)

end success

/-! ## Failure -/

section failure

variable {c : UInt8} {s rest : List UInt8}

lemma length_of_mbFailure {n : ℕ} (hn : 0 < n) (h : mbFailure (c :: s) n = .failure rest) :
    rest.length ≤ s.length := by
  cases h
  rw [List.length_drop, List.length_cons]
  omega

lemma length_of_getNextChar2_failure (h : getNextChar2 c s = .failure rest) :
    rest.length ≤ s.length := by
  obtain _ | ⟨d, s⟩ := s
  · exact length_of_mbFailure one_pos h
  · simp only [getNextChar2] at h
    split_ifs at h <;> exact length_of_mbFailure (by norm_num) h

lemma length_of_getNextChar3_failure (h : getNextChar3 c s = .failure rest) :
    rest.length ≤ s.length := by
  obtain _ | ⟨d, _ | ⟨e, s⟩⟩ := s
  · exact length_of_mbFailure one_pos h
  · exact length_of_mbFailure (by split_ifs <;> norm_num) h
  · simp only [getNextChar3] at h
    split_ifs at h <;> exact length_of_mbFailure (by norm_num) h

lemma length_of_getNextChar4_failure (h : getNextChar4 c s = .failure rest) :
    rest.length ≤ s.length := by
  obtain _ | ⟨d, _ | ⟨e, _ | ⟨f, s⟩⟩⟩ := s
  · exact length_of_mbFailure one_pos h
  · exact length_of_mbFailure (by split_ifs <;> norm_num) h
  · exact length_of_mbFailure (by split_ifs <;> norm_num) h
  · simp only [getNextChar4] at h
    split_ifs at h <;> exact length_of_mbFailure (by norm_num) h

lemma length_of_getNextChar_failure (h : getNextChar (c :: s) = .failure rest) :
    rest.length ≤ s.length := by
  rw [getNextChar] at h
  split_ifs at h
  · exact length_of_mbFailure one_pos h
  · exact length_of_getNextChar2_failure h
  · exact length_of_getNextChar3_failure h
  · exact length_of_getNextChar4_failure h
  · exact length_of_mbFailure one_pos h

end failure

lemma length_of_getNextChar_success {str rest : List UInt8} {v : ℕ}
    (h : getNextChar str = .success v rest) : rest.length < str.length := by
  obtain ⟨bs, hch, rfl⟩ := getNextChar_eq_success_iff.mp h
  have hp := List.length_pos_iff.mpr hch.ne_nil
  rw [List.length_append]
  omega

end PhpInternals.Ext.Standard

import PhpInternals.Ext.Json.Encoder

/-!
# The tokens that the encoder writes

Every text that the encoder appends for a scalar is a token of the grammar.
-/

namespace PhpInternals.Ext.Json

open Nat List PhpInternals.Found PhpInternals.Ext.Standard

/-! ## Doubles -/

section double

variable {o : Options} {n : ℤ} (d : Dtoa)

lemma isDigits_append {ds ds' : List UInt8} (h : IsDigits ds) (h' : ∀ b ∈ ds', IsDigit b) :
    IsDigits (ds ++ ds') := by
  refine ⟨by simp [h.1], fun b hb => ?_⟩
  rcases mem_append.mp hb with hb | hb
  · exact h.2 b hb
  · exact h' b hb

lemma isDigit_replicate_zero (n : ℕ) : ∀ b ∈ replicate n (0x30 : UInt8), IsDigit b := by
  intro b hb
  rw [eq_of_mem_replicate hb]
  exact ⟨le_refl _, by decide⟩

lemma isDigits_zero : IsDigits [0x30] := ⟨cons_ne_nil _ _, isDigit_replicate_zero 1⟩

/-- The integer part of a double that is written without exponent. -/
lemma isIntPart_standard {n : ℕ} (hn : 0 < n) (hdc : d.digits = [0x30] ∧ d.decpt = 1 → n = 1) :
    IsIntPart (d.digits.take n ++ replicate (n - d.digits.length) 0x30) := by
  obtain ⟨c, cs, hcs⟩ := exists_cons_of_ne_nil d.isDigits.1
  by_cases hz : d.digits.head? = some 0x30
  · have hl := d.leading hz
    rw [hdc hl, hl.1]
    exact .inl rfl
  · refine .inr ⟨isDigits_append ⟨?_, fun b hb => ?_⟩ (isDigit_replicate_zero _), ?_⟩
    · simp [hcs, hn.ne']
    · exact d.isDigits.2 b (mem_of_mem_take hb)
    · obtain ⟨n, rfl⟩ := Nat.exists_eq_add_of_lt hn
      simpa [hcs] using hz

lemma isIntPart_singleton {b : UInt8} (hb : IsDigit b) : IsIntPart [b] := by
  by_cases hz : b = 0x30
  · exact .inl (by rw [hz])
  · refine .inr ⟨⟨cons_ne_nil _ _, fun b' hb' => mem_singleton.mp hb' ▸ hb⟩, ?_⟩
    simpa using hz

lemma isExp_gcvtExponent (decpt : ℤ) : IsExp (0x65 :: gcvtExponent decpt) := by
  refine .inr ⟨0x65, _, _, .inl rfl, ?_, isDigits_natDecimal _, rfl⟩
  split_ifs
  · exact .inr (.inr rfl)
  · exact .inr (.inl rfl)

/-- The parts of what `php_gcvt` writes. -/
lemma phpGcvt_parts : ∃ minus int frac exp, phpGcvt n d = minus ++ int ++ frac ++ exp ∧
    (minus = [] ∨ minus = [0x2d]) ∧ IsIntPart int ∧ IsFrac frac ∧ IsExp exp ∧
      (frac = [] → exp = []) := by
  obtain ⟨c, cs, hcs⟩ := exists_cons_of_ne_nil d.isDigits.1
  have hmm : ∀ b ∈ c :: cs, IsDigit b := hcs ▸ d.isDigits.2
  have hc : IsDigit c := hmm c mem_cons_self
  have hm : ∀ b : Bool, (if b then [0x2d] else [] : List UInt8) = [] ∨
      (if b then [0x2d] else [] : List UInt8) = [0x2d] := by decide
  simp only [phpGcvt]
  generalize (if 0 ≤ n then n else 17) = nd
  refine ⟨if d.sign then [0x2d] else [], ?_⟩
  by_cases hep : 0 ≤ d.decpt ∧ nd < d.decpt ∨ d.decpt < -3
  · rw [if_pos hep]
    refine ⟨[c], 0x2e :: (if cs = [] then [0x30] else cs), 0x65 :: gcvtExponent d.decpt, ?_,
      hm _, isIntPart_singleton hc, .inr ⟨_, ?_, rfl⟩, isExp_gcvtExponent _, nofun⟩
    · simp [hcs]
    · split_ifs with hta
      · exact isDigits_zero
      · exact ⟨hta, fun b hb => hmm b (mem_cons_of_mem c hb)⟩
  rw [if_neg hep]
  by_cases hng : d.decpt < 0
  · rw [if_pos hng]
    refine ⟨[0x30], 0x2e :: (replicate d.decpt.natAbs 0x30 ++ d.digits), [], by simp, hm _,
      .inl rfl, .inr ⟨_, ⟨by simp [hcs], fun b hb => ?_⟩, rfl⟩, .inl rfl, fun _ => rfl⟩
    rcases mem_append.mp hb with hb | hb
    · exact isDigit_replicate_zero _ b hb
    · exact d.isDigits.2 b hb
  rw [if_neg hng]
  have hf : ∀ k, IsFrac (if d.digits.drop k = [] then [] else 0x2e :: d.digits.drop k) := by
    intro k
    split_ifs with hdr
    · exact .inl rfl
    · exact .inr ⟨_, ⟨hdr, fun b hb => d.isDigits.2 b (mem_of_mem_drop hb)⟩, rfl⟩
  rcases Nat.eq_zero_or_pos d.decpt.toNat with hz | hp
  · refine ⟨[0x30], _, [], ?_, hm _, .inl rfl, hf 0, .inl rfl, fun _ => rfl⟩
    simp [hz, hcs]
  · refine ⟨_, _, [], ?_, hm _, isIntPart_standard d hp fun h => by rw [h.2]; rfl,
      hf d.decpt.toNat, .inl rfl, fun _ => rfl⟩
    simp [hp.ne']

/-- **A double is written as a number.** -/
lemma isNumber_encodeDouble : IsNumber (encodeDouble o n d) := by
  obtain ⟨minus, int, frac, exp, hg, hm, hi, hf, hep, hp⟩ := phpGcvt_parts (n := n) d
  simp only [encodeDouble, hg]
  split_ifs with hz
  · -- no decimal point, so no fraction and no exponent
    have hno : frac = [] := by
      rcases hf with hnl | ⟨ds, -, rfl⟩
      · exact hnl
      · simp at hz
    refine ⟨minus, int, [0x2e, 0x30], [], hm, hi, .inr ⟨_, isDigits_zero, rfl⟩, .inl rfl, ?_⟩
    rw [hno, hp hno]
    simp
  · exact ⟨minus, int, frac, exp, hm, hi, hf, hep, rfl⟩

end double

/-! ## Characters -/

section chars

variable {o : Options}

lemma isHex_digits {n : ℕ} (hn : n < 16) : IsHex (digits.getD n 0) := by
  unfold IsHex IsDigit
  revert n
  decide

/-- A character as `\u` escape, in two parts above the BMP. -/
lemma isChars_unicodeEscape (us : ℕ) : IsChars (unicodeEscape us) := by
  have hn : ∀ k, (us &&& (0xf <<< k)) >>> k < 16 := by
    intro k
    rw [shiftRight_and_distrib, shiftLeft_shiftRight]
    exact lt_succ_of_le and_le_right
  exact .unicode (isHex_digits (hn 12)) (isHex_digits (hn 8)) (isHex_digits (hn 4))
    (isHex_digits (hn 0)) .nil

/-- A multibyte character is copied or escaped. -/
lemma isChars_escapeMultibyte {us : ℕ} {raw : List UInt8} (hr : Utf8Char us raw)
    (hus : 0x80 ≤ us) : IsChars (escapeMultibyte o us raw) := by
  unfold escapeMultibyte
  split_ifs
  · have h := IsChars.unescaped hr (by omega) (by omega) (by omega) .nil
    rwa [append_nil] at h
  · exact (isChars_unicodeEscape _).append (isChars_unicodeEscape _)
  · exact isChars_unicodeEscape us

/-- The bytes that the table lets pass need no escape. -/
lemma charmap_eq_zero {n : ℕ} (hn : n < 0x80)
    (h : charmap.getD (n >>> 5) 0 &&& (1 <<< (n &&& 0x1f)) = 0) :
    0x20 ≤ n ∧ n ≠ 0x22 ∧ n ≠ 0x5c := by
  revert n
  decide

/-- The others are escaped. -/
lemma isChars_escapeAscii {us : UInt8} (hus : us.toNat < 0x80) : IsChars (escapeAscii o us) := by
  have hp : ∀ b : UInt8, b.toNat < 0x80 → 0x20 ≤ b.toNat → b.toNat ≠ 0x22 → b.toNat ≠ 0x5c →
      IsChars [b] := fun b h h1 h2 h3 => .unescaped (.one h rfl) h1 h2 h3 .nil
  unfold escapeAscii
  by_cases hm : charmap.getD (us.toNat >>> 5) 0 &&& (1 <<< (us.toNat &&& 0x1f)) = 0
  · rw [if_pos hm]
    obtain ⟨hc, hq, hb⟩ := charmap_eq_zero hus hm
    exact hp us hus hc hq hb
  rw [if_neg hm]
  split
  all_goals try split_ifs
  all_goals first
    | exact .escape (by decide) .nil
    | exact .unicode (by decide) (by decide) (by decide) (by decide) .nil
    | exact hp _ (by decide) (by decide) (by decide) (by decide)
    | skip
  · -- `\u00` and two digits
    have hn : (us.toNat &&& 0xf0) >>> 4 < 16 := by
      have hle : us.toNat &&& 0xf0 ≤ 0xf0 := and_le_right
      omega
    exact .unicode (by decide) (by decide) (isHex_digits hn)
      (isHex_digits (lt_succ_of_le and_le_right)) .nil

/-- What `php_next_utf8_char` accepts is well formed. -/
lemma getNextChar_multibyte {us : UInt8} {s rest : List UInt8} {thisChar : ℕ} (hus : ¬ us < 0x80)
    (h : getNextChar (us :: s) = .success thisChar rest) :
    Utf8Char thisChar ((us :: s).take (s.length + 1 - rest.length)) ∧ 0x80 ≤ thisChar := by
  obtain ⟨bs, hc, heq⟩ := getNextChar_eq_success_iff.mp h
  have hl : s.length + 1 - rest.length = bs.length := by
    have := congrArg length heq
    rw [length_cons, length_append] at this
    omega
  rw [hl, heq, take_left]
  refine ⟨hc, ?_⟩
  rw [UInt8.lt_iff_toNat_lt, not_lt] at hus
  cases hc with
  | one hv h0 =>
    cases heq
    exact h0 ▸ hus
  | two hv => exact hv
  | three hv | four hv => exact le_trans (by norm_num) hv

lemma utf8Char_replacement : Utf8Char 0xfffd [0xef, 0xbf, 0xbd] :=
  .three (by norm_num) (by norm_num) (by norm_num) (by decide) (by decide) (by decide)

/-- **Whole characters and whole escapes.** -/
theorem escapeLoop_spec (s buf : List UInt8) :
    ∃ cs, (escapeLoop o s buf).2 = buf ++ cs ∧ IsChars cs := by
  have hr : ∀ {buf cs : List UInt8} {r : Bool × List UInt8}, IsChars cs →
      (∃ cs', r.2 = buf ++ cs ++ cs' ∧ IsChars cs') → ∃ cs', r.2 = buf ++ cs' ∧ IsChars cs' :=
    fun hcs ⟨cs', heq, hc'⟩ => ⟨_, by rw [heq, append_assoc], hcs.append hc'⟩
  fun_induction escapeLoop o s buf with
  | case1 buf => exact ⟨[], by simp, .nil⟩
  | case2 buf us s hus ih => exact hr (isChars_escapeAscii hus) ih
  | case3 buf us s hus thisChar rest h ih =>
    obtain ⟨hc, hge⟩ := getNextChar_multibyte hus h
    exact hr (isChars_escapeMultibyte hc hge) ih
  | case4 buf us s hus rest h hi ih => exact ih
  | case5 buf us s hus rest h hi hsb ih =>
    exact hr (isChars_escapeMultibyte utf8Char_replacement (by norm_num)) ih
  | case6 buf us s hus rest h hi hsb => exact ⟨[], by simp, .nil⟩

end chars

/-! ## Strings -/

section string

variable {T O : Type} {env : Env T O} {o : Options} {enc : Encoder T}

/-- What a call that appends a string does: it appends a string, or with `JSON_NUMERIC_CHECK` a
number; or it fails, with the buffer as it was or `null` behind it. Source: `json_encoder.c`
`php_json_escape_string`. -/
inductive EscapeSpec (o : Options) (enc : Encoder T) : Status × Encoder T → Prop where
  | string {s : List UInt8} (hs : IsString s) : EscapeSpec o enc (.success, enc.append s)
  | number {n : List UInt8} (hcheck : o.numericCheck = true) (hn : IsNumber n) :
      EscapeSpec o enc (.success, enc.append n)
  | invalid : EscapeSpec o enc (.failure, Encoder.append { enc with errorCode := .utf8 }
      (if o.partialOutputOnError then ascii "null" else []))

/-- **The loop writes characters** or sets the error. -/
lemma escapeChars_spec (s : List UInt8) : EscapeSpec o enc (escapeChars o s enc) := by
  obtain ⟨cs, hb, hcs⟩ := escapeLoop_spec s (enc.buf ++ [0x22])
  unfold escapeChars
  rcases hl : escapeLoop o s (enc.buf ++ [0x22]) with ⟨_ | _, buf⟩
  · rw [hl] at hb
    have htk : buf.take enc.buf.length = enc.buf := by
      rw [show buf = _ from hb, append_assoc, take_left]
    have h : EscapeSpec o enc _ := .invalid
    simp only [htk]
    cases hp : o.partialOutputOnError
    · simpa [hp, Encoder.append] using h
    · simpa [hp] using h
  · rw [hl] at hb
    have h : EscapeSpec o enc _ := .string ⟨cs, hcs, rfl⟩
    simpa [Encoder.append, show buf = _ from hb] using h

/-- **A string is written as a string or a number.** -/
lemma escapeString_spec (s : List UInt8) : EscapeSpec o enc (escapeString env o s enc) := by
  unfold escapeString
  split_ifs with hnl hc
  · exact .string ⟨[], .nil, rfl⟩
  · split
    · exact .number hc (isNumber_intDecimal _)
    · exact .number hc (isNumber_encodeDouble _)
    · exact escapeChars_spec s
  · exact escapeChars_spec s

end string

end PhpInternals.Ext.Json

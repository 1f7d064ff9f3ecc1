import PhpInternals.Zend.ZendOperators.NumericString
import PhpInternals.Zend.ZendOperators.Pow

/-!
# Which strings are numeric

What `_is_numeric_string_ex` recognises, with an `lval` and a `dval`.
-/

namespace PhpInternals.Zend.ZendOperators

open Option PhpInternals.Found List

/-! ## Numeric texts -/

/-- `whitespace* sign? (digits+ [. digits*] | . digits+) ([eE] sign? digits+)?`. -/
def IsNumericText (t : List UInt8) : Prop :=
  ∃ ws u, (∀ b ∈ ws, IsSpace b) ∧ IsFloat u ∧ t = ws ++ u

/-- The value of digits behind a sign. -/
def signedValue (sg ds : List UInt8) : ℤ :=
  if sg = [0x2d] then -(decimalValue ds : ℤ) else decimalValue ds

/-- A text without point and exponent, and the integer it denotes. -/
def Denotes (t : List UInt8) (n : ℤ) : Prop :=
  ∃ ws sg ds, (∀ b ∈ ws, IsSpace b) ∧ IsSign sg ∧ IsDigits ds ∧ t = ws ++ (sg ++ ds) ∧
    n = signedValue sg ds

/-- The parts of a string, as the function finds them. -/
structure Reading (s ws sg zs ks r : List UInt8) : Prop where
  eq : s = ws ++ (sg ++ (zs ++ ks ++ r))
  spaces : ∀ b ∈ ws, IsSpace b
  no_space : ∀ c, (sg ++ (zs ++ ks ++ r)).head? = some c → ¬ IsSpace c
  parts : Parts (sg ++ (zs ++ ks ++ r)) sg (zs ++ ks) r
  zeros : ∀ b ∈ zs, b = 0x30
  significant : ∀ c, ks.head? = some c → c ≠ 0x30

/-- Every text splits into white space, sign, zeros, digits and the rest. -/
lemma exists_reading (s : List UInt8) : ∃ ws sg zs ks r, Reading s ws sg zs ks r := by
  obtain ⟨ws, str, rfl, hws, hsr⟩ := exists_span IsSpace s
  obtain ⟨sg, ds, r, hp⟩ := exists_parts str
  obtain ⟨zs, ks, rfl, hzs, hks⟩ := exists_span (· = 0x30) ds
  obtain rfl := hp.eq
  exact ⟨ws, sg, zs, ks, r, rfl, hws, hsr, hp, hzs, hks⟩

lemma head_not_space_of_isFloat {u : List UInt8} (h : IsFloat u) (x : List UInt8) :
    ∀ c, (u ++ x).head? = some c → ¬ IsSpace c := by
  have hdg : ∀ c, IsDigit c ∨ c = 0x2e → ¬ IsSpace c := by
    rintro c (hc | rfl)
    · rintro (rfl | rfl | rfl | rfl | rfl | rfl) <;> exact absurd hc (by decide)
    · decide
  obtain ⟨sg, m, e, hsg, hm, -, rfl⟩ := h
  obtain ⟨d, m', rfl, hd⟩ := hm.head
  intro c hc
  rcases hsg with rfl | rfl | rfl
  · rw [← some.inj hc]
    exact hdg d hd
  · rw [← some.inj hc]
    decide
  · rw [← some.inj hc]
    decide

/-- The white space belongs to every numeric prefix. -/
lemma numericText_prefix_iff {ws str t : List UInt8} (hws : ∀ b ∈ ws, IsSpace b)
    (hsr : ∀ c, str.head? = some c → ¬ IsSpace c) :
    t <+: ws ++ str ∧ IsNumericText t ↔ ∃ u, u <+: str ∧ IsFloat u ∧ t = ws ++ u := by
  constructor
  · rintro ⟨⟨tail, hta⟩, ws', u, hw', hu, rfl⟩
    rw [append_assoc] at hta
    obtain ⟨rfl, hrs⟩ := (span_unique hta hw' hws hsr).2 (head_not_space_of_isFloat hu tail)
    exact ⟨u, ⟨tail, hrs⟩, hu, rfl⟩
  · rintro ⟨u, ⟨tail, rfl⟩, hu, rfl⟩
    exact ⟨⟨tail, by simp⟩, ws, u, hws, hu, rfl⟩

/-- The longest numeric prefix is the longest floating-point text behind the white space. -/
lemma longest_numericText_iff {ws str t : List UInt8} (hws : ∀ b ∈ ws, IsSpace b)
    (hsr : ∀ c, str.head? = some c → ¬ IsSpace c) :
    IsLongestPrefix IsNumericText (ws ++ str) t ↔
      ∃ u, IsLongestPrefix IsFloat str u ∧ t = ws ++ u := by
  constructor
  · rintro ⟨hp, ht, hm⟩
    obtain ⟨u, hu, hf, rfl⟩ := (numericText_prefix_iff hws hsr).mp ⟨hp, ht⟩
    refine ⟨u, ⟨hu, hf, fun u' hu' hf' => ?_⟩, rfl⟩
    obtain ⟨hp', ht'⟩ := (numericText_prefix_iff hws hsr).mpr ⟨u', hu', hf', rfl⟩
    have hle := hm _ hp' ht'
    simp only [length_append] at hle
    omega
  rintro ⟨u, ⟨hu, hf, hm⟩, rfl⟩
  obtain ⟨hp, ht⟩ := (numericText_prefix_iff hws hsr).mpr ⟨u, hu, hf, rfl⟩
  refine ⟨hp, ht, fun t' hp' ht' => ?_⟩
  obtain ⟨u', hu', hf', rfl⟩ := (numericText_prefix_iff hws hsr).mp ⟨hp', ht'⟩
  have hle := hm u' hu' hf'
  simp only [length_append]
  omega

/-- The integer that a text denotes. -/
lemma denotes_iff {ws sg ds : List UInt8} {n : ℤ} (hws : ∀ b ∈ ws, IsSpace b) (hsg : IsSign sg)
    (hds : IsDigits ds) : Denotes (ws ++ (sg ++ ds)) n ↔ n = signedValue sg ds := by
  refine ⟨?_, fun h => ⟨ws, sg, ds, hws, hsg, hds, rfl, h⟩⟩
  rintro ⟨ws', sg', ds', hw', hsg', hds', heq, rfl⟩
  have hhd : ∀ sg ds : List UInt8, IsSign sg → IsDigits ds →
      ∀ c, (sg ++ ds).head? = some c → ¬ IsSpace c := by
    intro sg ds hsg hds
    simpa using head_not_space_of_isFloat (isFloat_integer hsg hds) []
  obtain ⟨-, hm⟩ := span_unique heq hws hw' (hhd sg' ds' hsg' hds')
  obtain ⟨-, heq'⟩ := hm (hhd sg ds hsg hds)
  obtain ⟨sg'', ds'', r, hp⟩ := exists_parts (sg ++ ds)
  have ho := hp.sign_eq (x := []) hsg (.inl ⟨ds, hds, .inl rfl⟩) (by simp)
  have htw := hp.sign_eq (x := []) hsg' (.inl ⟨ds', hds', .inl rfl⟩) (by simp [heq'])
  rw [append_nil] at ho htw
  rw [ho.1, htw.1, ho.2, htw.2]

/-! ## The scan of a string -/

section scan

variable {D : Type} (strtod : Strtod D) {s ws sg zs ks r : List UInt8}

/-- The string behind its white space. -/
def body (sg zs ks r : List UInt8) : List UInt8 := sg ++ (zs ++ ks ++ r)

lemma length_body (sg zs ks r : List UInt8) :
    (body sg zs ks r).length = (sg ++ (zs ++ ks)).length + r.length := by
  simp only [body, length_append]
  omega

lemma Reading.digits (h : Reading s ws sg zs ks r) : ∀ b ∈ ks, IsDigit b := fun b hb =>
  h.parts.digits b (mem_append_right _ hb)

/-- `zend_strtod` is asked. -/
def AsksStrtod (zs ks r : List UInt8) : Prop :=
  (zs ++ ks ≠ [] ∧ (GoesOn r ∨ maxLengthOfLong ≤ ks.length)) ∨ (zs ++ ks = [] ∧ PointDigit r)

/-- Where `zend_strtod` is not asked, the text is an integer of few digits. -/
lemma Reading.integer_of_not_double (h : Reading s ws sg zs ks r) {u : List UInt8}
    (hp : u <+: body sg zs ks r) (hf : IsFloat u) (hdb : ¬ AsksStrtod zs ks r) :
    zs ++ ks ≠ [] ∧ ¬ GoesOn r ∧ ks.length < maxLengthOfLong := by
  have hds : zs ++ ks ≠ [] := fun hn =>
    not_float_of_parts h.parts hn (fun hp => hdb (.inr ⟨hn, hp⟩)) hp hf
  refine ⟨hds, fun hr => hdb (.inl ⟨hds, .inl hr⟩), ?_⟩
  by_contra hge
  exact hdb (.inl ⟨hds, .inr (by omega)⟩)

lemma Reading.headD_iff (h : Reading s ws sg zs ks r) :
    ((body sg zs ks r).headD 0 = 0x2d ↔ sg = [0x2d]) ∧
      ((body sg zs ks r).headD 0 = 0x2b ↔ sg = [0x2b]) := by
  rcases h.parts.sign with rfl | rfl | rfl
  · have hno := h.parts.no_sign rfl
    unfold body
    cases hrs : ([] ++ (zs ++ ks ++ r) : List UInt8) with
    | nil => simp
    | cons c rest =>
      rw [hrs] at hno
      simp [(hno c rfl).1, (hno c rfl).2]
  · simp [body]
  · simp [body]

lemma Reading.ptr_eq (h : Reading s ws sg zs ks r) :
    (if (body sg zs ks r).headD 0 = 0x2d ∨ (body sg zs ks r).headD 0 = 0x2b then 1 else 0) =
      sg.length := by
  simp only [h.headD_iff.1, h.headD_iff.2]
  rcases h.parts.sign with rfl | rfl | rfl <;> simp

/-- The first loop passes the white space. -/
lemma Reading.dropWhile_eq (h : Reading s ws sg zs ks r) :
    s.dropWhile (fun b => decide (IsSpace b)) = body sg zs ks r := by
  rw [h.eq]
  exact (takeWhile_span h.spaces h.no_space).2

lemma Reading.drop_eq : (body sg zs ks r).drop sg.length = zs ++ ks ++ r := drop_left

/-- The second one passes the zeros. -/
lemma Reading.takeWhile_eq (h : Reading s ws sg zs ks r) :
    (zs ++ ks ++ r).takeWhile (fun b => decide (b = 0x30)) = zs := by
  rw [append_assoc]
  refine (takeWhile_span h.zeros fun c hc => ?_).1
  cases ks with
  | nil =>
    rintro rfl
    exact absurd (by decide) (h.parts.stop 0x30 hc)
  | cons k ks => exact h.significant c hc

lemma Reading.isDigit_iff (h : Reading s ws sg zs ks r) :
    IsDigit ((zs ++ ks ++ r).headD 0) ↔ zs ++ ks ≠ [] := by
  cases hds : zs ++ ks with
  | nil =>
    simp only [ne_eq, not_true, iff_false]
    cases hr : r with
    | nil => decide
    | cons c r' => exact h.parts.stop c (by rw [hr]; rfl)
  | cons d ds =>
    simp only [ne_eq, reduceCtorEq, not_false_eq_true, iff_true]
    exact h.parts.digits d (by rw [hds]; exact mem_cons_self)

lemma pointDigit_iff {r : List UInt8} : r.headD 0 = 0x2e ∧ IsDigit (r.getD 1 0) ↔ PointDigit r := by
  constructor
  · rintro ⟨hhe, hdg⟩
    match r with
    | [] => exact absurd hhe (by decide)
    | [_] => exact absurd (show IsDigit 0 from hdg) (by decide)
    | c :: d :: r' =>
      obtain rfl : c = 0x2e := hhe
      exact ⟨d, hdg, r', rfl⟩
  · rintro ⟨d, hd, r', rfl⟩
    exact ⟨rfl, hd⟩

variable (wantOflow : Bool) (allowErrors : ℤ)

section

variable (h : Reading s ws sg zs ks r)
include h

/-- With a digit the outcome is that of the scan of the digits. -/
lemma isNumeric_scan (hds : zs ++ ks ≠ []) :
    isNumericStringExI strtod s true true wantOflow allowErrors =
      finishScan strtod (body sg zs ks r) true true wantOflow allowErrors
        (checkDigits (some (strtod.consumed (body sg zs ks r))) allowErrors (ks ++ r)
          ⟨.long, sg.length + zs.length, 0, 0, 0, false⟩) := by
  have hl : s.length ≠ 0 := by
    rw [h.eq]
    have := length_pos_iff_ne_nil.mpr hds
    simp only [length_append] at this ⊢
    omega
  have hdr : (zs ++ ks ++ r).drop zs.length = ks ++ r := by
    rw [append_assoc, drop_left]
  unfold isNumericStringExI
  simp only [if_neg hl, h.dropWhile_eq, h.ptr_eq, Reading.drop_eq, if_pos (h.isDigit_iff.mpr hds),
    h.takeWhile_eq, hdr, if_true]

/-- Without a digit or a point with one there is no number. -/
lemma isNumeric_none (hds : zs ++ ks = []) (hr : ¬ PointDigit r) :
    (isNumericStringExI strtod s true true wantOflow allowErrors).ret = none := by
  unfold isNumericStringExI
  by_cases hl : s.length = 0
  · rw [if_pos hl]
  have hdg : ¬ IsDigit ((zs ++ ks ++ r).headD 0) := by
    rw [h.isDigit_iff]
    exact not_not.mpr hds
  have hp : ¬ ((zs ++ ks ++ r).headD 0 = 0x2e ∧ IsDigit ((zs ++ ks ++ r).getD 1 0)) := by
    rw [hds, pointDigit_iff]
    exact hr
  simp only [if_neg hl, h.dropWhile_eq, h.ptr_eq, Reading.drop_eq, if_neg hdg, if_neg hp]

/-- Where `strtod` is asked, its end is the end of the number. -/
lemma isNumeric_double (hr : AsksStrtod zs ks r) :
    ∃ sc, isNumericStringExI strtod s true true wantOflow allowErrors =
        finishScan strtod (body sg zs ks r) true true wantOflow allowErrors sc ∧
      sc.type = .double ∧ sc.ptr = strtod.consumed (body sg zs ks r) := by
  have hks := h.digits
  obtain ⟨hds, hr⟩ | ⟨hds, hr⟩ := hr
  · rw [isNumeric_scan strtod wantOflow allowErrors h hds]
    refine ⟨_, rfl, ?_⟩
    rcases lt_or_ge ks.length maxLengthOfLong with hlt | hge
    · have hg := hr.resolve_right (by omega)
      rw [checkDigits_digits hks (by simpa using hlt), foldl_digit hks _ 0 rfl,
        checkDigits_goesOn hg rfl]
      exact ⟨rfl, rfl⟩
    obtain ⟨sc, hsc, hty, hpt, -⟩ :=
      checkDigits_tooLong hks
        (show (⟨.long, sg.length + zs.length, 0, 0, 0, false⟩ : Scan).digits < maxLengthOfLong from
          Nat.zero_lt_succ _) (by simpa using hge)
    rw [hsc]
    exact ⟨hty, hpt⟩
  have hl : s.length ≠ 0 := by
    obtain ⟨d, -, r', rfl⟩ := hr
    rw [h.eq]
    simp
  have hdg : ¬ IsDigit ((zs ++ ks ++ r).headD 0) := by
    rw [h.isDigit_iff]
    exact not_not.mpr hds
  have hp : (zs ++ ks ++ r).headD 0 = 0x2e ∧ IsDigit ((zs ++ ks ++ r).getD 1 0) := by
    rw [hds, pointDigit_iff]
    exact hr
  refine ⟨Scan.processDouble (some (strtod.consumed (body sg zs ks r)))
    ⟨.long, sg.length, 0, 0, 0, false⟩, ?_, rfl, rfl⟩
  unfold isNumericStringExI
  simp only [if_neg hl, h.dropWhile_eq, h.ptr_eq, Reading.drop_eq, if_neg hdg, if_pos hp,
    if_true, Scan.goesBack_some, Bool.false_eq_true, if_false]

/-- An integer of at most nineteen digits. The cursor stands behind it, or one further. -/
lemma isNumeric_long (hds : zs ++ ks ≠ []) (hr : ¬ GoesOn r) (hl : ks.length < maxLengthOfLong) :
    ∃ ptr, isNumericStringExI strtod s true true wantOflow allowErrors =
        finishScan strtod (body sg zs ks r) true true wantOflow allowErrors
          ⟨.long, ptr, ks.length, BitVec.ofNat 64 (decimalValue ks), 0, false⟩ ∧
      (SignOnly r → ptr = (sg ++ (zs ++ ks)).length + 1) ∧
      (¬ SignOnly r → ptr = (sg ++ (zs ++ ks)).length) := by
  have hks := h.digits
  rw [isNumeric_scan strtod wantOflow allowErrors h hds, checkDigits_digits hks (by simpa using hl),
    foldl_digit hks _ 0 rfl]
  simp only [length_append, ← Nat.add_assoc, Nat.zero_add]
  by_cases hsn : SignOnly r
  · rw [(checkDigits_stop h.parts.stop hr rfl hl).1 hsn]
    exact ⟨_, rfl, fun _ => rfl, fun hno => absurd hsn hno⟩
  · rw [(checkDigits_stop h.parts.stop hr rfl hl).2 hsn]
    exact ⟨_, rfl, fun hy => absurd hy hsn, fun _ => rfl⟩

end

/-! ## The stores -/

/-- For 19 digits `strcmp` with the least integer compares values, and then the rest. -/
lemma strcmp_longMinDigits {ks : List UInt8} (hks : ∀ b ∈ ks, IsDigit b) (hl : ks.length = 19)
    (r : List UInt8) :
    strcmp (ks ++ r) longMinDigits =
      if decimalValue ks < 2 ^ 63 then -1
      else if 2 ^ 63 < decimalValue ks then 1 else if r.headD 0 = 0 then 0 else 1 := by
  have hm : ∀ b ∈ longMinDigits, IsDigit b := (show IsDigits longMinDigits by decide).2
  have hc := strcmp_digits hks hm (by rw [hl]; rfl) r []
  rwa [strcmp_nil_right] at hc

/-- One byte too far, eighteen digits are compared with those of `ZEND_LONG_MIN`, and then a letter.
-/
lemma strcmp_signOnly {ks r : List UInt8} (hks : ∀ b ∈ ks, IsDigit b) (hl : ks.length = 19)
    (hr : SignOnly r) : strcmp (ks.tail ++ r) longMinDigits =
      if decimalValue ks.tail < 922337203685477580 then -1 else 1 := by
  have hm : ∀ b ∈ longMinDigits.take 18, IsDigit b :=
    (show IsDigits (longMinDigits.take 18) by decide).2
  have hc := strcmp_digits (fun b hb => hks b (mem_of_mem_tail hb)) hm
    (by rw [length_tail, hl]; rfl) r [0x38]
  obtain ⟨e, c, r', rfl, he, -⟩ := hr
  have hlt : strcmp (e :: c :: r') [0x38] = 1 := by rcases he with rfl | rfl <;> rfl
  rw [hlt, ite_self] at hc
  exact hc

/-- An integer that fits is read without wrapping. -/
lemma toInt_signed {v : ℕ} {neg : Prop} [Decidable neg]
    (h : FitsLong (if neg then -(v : ℤ) else v)) :
    (if neg then -BitVec.ofNat 64 v else BitVec.ofNat 64 v).toInt =
    if neg then -(v : ℤ) else v := by
  simp only [FitsLong, zendLongMin, zendLongMax] at h
  split_ifs at h ⊢ with hn
  · rw [← BitVec.ofInt_natCast, ← BitVec.ofInt_neg, BitVec.toInt_ofInt,
      Int.bmod_eq_of_le (by omega) (by omega)]
  · rw [← BitVec.ofInt_natCast, BitVec.toInt_ofInt, Int.bmod_eq_of_le (by omega) (by omega)]

/-- The outcome of the comparison decides whether the value fits, unless the digits of
`ZEND_LONG_MIN` are followed by more text. -/
lemma compared_iff {v : ℕ} {neg nul : Prop} [Decidable neg] [Decidable nul] {cmp : ℤ}
    (hc : cmp = if v < 2 ^ 63 then -1 else if 2 ^ 63 < v then 1 else if nul then 0 else 1) :
    ((cmp < 0 ∨ (cmp = 0 ∧ neg)) ↔ FitsLong (if neg then -(v : ℤ) else v)) ↔
      ¬ (neg ∧ v = 2 ^ 63 ∧ ¬ nul) := by
  have hf : FitsLong (if neg then -(v : ℤ) else v) ↔ v < 2 ^ 63 ∨ neg ∧ v = 2 ^ 63 := by
    rw [FitsLong, zendLongMin, zendLongMax]
    split_ifs with hn <;> simp only [hn, true_and, false_and, or_false] <;> omega
  rw [hf, hc]
  generalize (2 : ℕ) ^ 63 = m
  rcases lt_trichotomy v m with hlt | heq | hgt
  · simp [hlt, hlt.ne]
  · by_cases hnu : nul <;> simp [heq, hnu]
  · simp [hgt, hgt.not_gt, hgt.ne']

/-- What is wrong with the comparison of nineteen digits. If the cursor was moved, the last eighteen
of them are compared with the first eighteen of `ZEND_LONG_MIN`; otherwise the digits of
`ZEND_LONG_MIN`, negative, with more text behind them, are taken for more. -/
def Miscompared (sg ks r : List UInt8) : Prop :=
  ks.length = 19 ∧
    (SignOnly r ∧ ¬ (decimalValue ks.tail < 922337203685477580 ↔ FitsLong (signedValue sg ks)) ∨
      ¬ SignOnly r ∧ sg = [0x2d] ∧ decimalValue ks = 2 ^ 63 ∧ r.headD 0 ≠ 0)

/-- The test on nineteen digits. -/
abbrev TakenForMore (str ks : List UInt8) (ptr : ℕ) : Prop :=
  ks.length = maxLengthOfLong - 1 ∧
    ¬ (strcmp (str.drop (ptr - ks.length)) longMinDigits < 0 ∨
      (strcmp (str.drop (ptr - ks.length)) longMinDigits = 0 ∧ str.headD 0 = 0x2d))

/-- When the length test and `strcmp` are right about the overflow. -/
lemma takenForMore_iff (h : Reading s ws sg zs ks r) (hln : ks.length < maxLengthOfLong) {ptr : ℕ}
    (hmv : SignOnly r → ptr = (sg ++ (zs ++ ks)).length + 1)
    (hs : ¬ SignOnly r → ptr = (sg ++ (zs ++ ks)).length) :
    (TakenForMore (body sg zs ks r) ks ptr ↔ ¬ FitsLong (signedValue sg (zs ++ ks))) ↔
      ¬ Miscompared sg ks r := by
  have hks := h.digits
  rw [TakenForMore, h.headD_iff.1, Miscompared, signedValue, signedValue,
    decimalValue_zeros_append h.zeros]
  by_cases hn : ks.length = 19
  · have hsp : body sg zs ks r = (sg ++ zs) ++ (ks ++ r) := by simp [body]
    simp only [show maxLengthOfLong - 1 = 19 from rfl, hn, true_and]
    by_cases hsn : SignOnly r
    · have hdr : (body sg zs ks r).drop (ptr - 19) = ks.tail ++ r := by
        have hsb : ptr - 19 = (sg ++ zs).length + 1 := by
          rw [hmv hsn]
          simp only [length_append]
          omega
        obtain ⟨k, ks', rfl⟩ := exists_cons_of_ne_nil (show ks ≠ [] by rintro rfl; simp at hn)
        rw [hsb, hsp, ← drop_drop, drop_left]
        rfl
      rw [hdr, strcmp_signOnly hks hn hsn]
      simp only [hsn, true_and, not_true, false_and, or_false, not_not]
      split_ifs <;> simp [*]
    · have hdr : (body sg zs ks r).drop (ptr - 19) = ks ++ r := by
        have hsb : ptr - 19 = (sg ++ zs).length := by
          rw [hs hsn]
          simp only [length_append]
          omega
        rw [hsb, hsp, drop_left]
      simp only [hdr, hsn, false_and, false_or, not_false_eq_true, true_and, not_iff_not]
      exact compared_iff (strcmp_longMinDigits hks hn r)
  · have hlt : ks.length ≤ 18 := by
      rw [maxLengthOfLong] at hln
      omega
    have hvl := decimalValue_lt hks
    have hp : 10 ^ ks.length ≤ 10 ^ 18 := Nat.pow_le_pow_right (by norm_num) hlt
    have hf : FitsLong (if sg = [0x2d] then -(decimalValue ks : ℤ) else decimalValue ks) := by
      rw [FitsLong, zendLongMin, zendLongMax]
      split_ifs <;> omega
    exact iff_of_true (iff_of_false (fun hc => hn hc.1) (not_not.mpr hf)) fun hm => hn hm.1

/-- **An integer in range is read as one**, and one out of range as a double. -/
lemma isNumeric_integer (h : Reading s ws sg zs ks r) (hds : zs ++ ks ≠ []) (hr : ¬ GoesOn r)
    (hln : ks.length < maxLengthOfLong) (hae : allowErrors = 0 → r = [])
    (hm : ¬ Miscompared sg ks r) :
    let out := isNumericStringExI strtod s true true wantOflow allowErrors
    (FitsLong (signedValue sg (zs ++ ks)) → out.ret = some .long ∧
        (∃ l, out.lval = some l ∧ l.toInt = signedValue sg (zs ++ ks)) ∧
        out.oflowInfo = if wantOflow then some 0 else none) ∧
      (¬ FitsLong (signedValue sg (zs ++ ks)) → out.ret = some .double ∧
        out.dval = some (strtod.eval (body sg zs ks r)) ∧
        out.oflowInfo = if wantOflow then some (oflowSign (body sg zs ks r)) else none) := by
  have hks := h.digits
  obtain ⟨ptr, ho, hmv, hs⟩ := isNumeric_long strtod wantOflow allowErrors h hds hr hln
  have hbd := length_body sg zs ks r
  have hen : ¬ (ptr ≠ (body sg zs ks r).length ∧ allowErrors = 0) := by
    rintro ⟨hne, hz⟩
    obtain rfl := hae hz
    refine hne ?_
    rw [hs fun ⟨_, _, _, hnl, _⟩ => by simp at hnl, hbd, length_nil, Nat.add_zero]
  have hft := (takenForMore_iff h hln hmv hs).mpr hm
  intro out
  have ho' : out = _ := ho
  constructor
  · intro hf
    have hcn := fun hc => hft.mp hc hf
    rw [ho', finishScan]
    simp only [if_neg hen, if_neg hcn]
    refine ⟨trivial, ⟨_, rfl, ?_⟩, by simp⟩
    rw [signedValue, decimalValue_zeros_append h.zeros] at hf ⊢
    simp only [h.headD_iff.1]
    exact toInt_signed hf
  · intro hf
    rw [ho', finishScan]
    simp only [if_neg hen, if_pos (hft.mpr hf), if_true]
    exact ⟨trivial, trivial, trivial⟩

/-- Miscompared digits: an integer is `IS_LONG` exactly if it does not fit. -/
lemma isNumeric_miscompared (h : Reading s ws sg zs ks r) (hds : zs ++ ks ≠ []) (hr : ¬ GoesOn r)
    (hae : allowErrors ≠ 0) (hm : Miscompared sg ks r) :
    (isNumericStringExI strtod s true true wantOflow allowErrors).ret = some .long ↔
      ¬ FitsLong (signedValue sg (zs ++ ks)) := by
  have hln : ks.length < maxLengthOfLong := by
    rw [hm.1]
    decide
  obtain ⟨ptr, ho, hmv, hs⟩ := isNumeric_long strtod wantOflow allowErrors h hds hr hln
  have hft := mt (takenForMore_iff h hln hmv hs).mp (not_not.mpr hm)
  rw [ho, finishScan, if_neg fun hen => hae hen.2]
  by_cases ht : TakenForMore (body sg zs ks r) ks ptr
  · simp only [if_pos ht]
    exact iff_of_false nofun fun hf => hft (iff_of_true ht hf)
  · simp only [if_neg ht, true_iff]
    exact fun hf => hft (iff_of_false ht (not_not.mpr hf))

/-- 20 digits and more are read by `strtod`. -/
lemma isNumeric_tooLong (h : Reading s ws sg zs ks []) (hl : maxLengthOfLong ≤ ks.length) :
    let out := isNumericStringExI strtod s true true wantOflow allowErrors
    out.ret = some .double ∧ out.dval = some (strtod.eval (body sg zs ks [])) ∧
      out.oflowInfo = if wantOflow then some (oflowSign (body sg zs ks [])) else none := by
  have hks := h.digits
  have hds : zs ++ ks ≠ [] := by
    intro hnl
    rw [(append_eq_nil_iff.mp hnl).2] at hl
    exact absurd hl (by decide)
  have hr := not_goesOn_nil
  have hc : strtod.consumed (body sg zs ks []) = (sg ++ (zs ++ ks)).length :=
    strtod.consumed_eq (longest_integer h.parts hds hr)
  obtain ⟨sc, hsc, hty, hpt, ho⟩ :=
    checkDigits_tooLong hks
      (show (⟨.long, sg.length + zs.length, 0, 0, 0, false⟩ : Scan).digits < maxLengthOfLong from
        Nat.zero_lt_succ _) (by simpa using hl)
  intro out
  have hot : out = finishScan strtod (body sg zs ks []) true true wantOflow allowErrors sc :=
    (isNumeric_scan strtod wantOflow allowErrors h hds).trans (by rw [hsc])
  have hen : ¬ (sc.ptr ≠ (body sg zs ks []).length ∧ allowErrors = 0) := by
    rw [hpt, hc, body]
    simp
  rw [hot, finishScan]
  simp only [hty, if_neg hen, ho, if_true]
  exact ⟨trivial, trivial, trivial⟩

lemma finishScan_double {str : List UInt8} {sc : Scan} (hsc : sc.type = .double) :
    (finishScan strtod str true true wantOflow allowErrors sc).ret =
      if sc.ptr ≠ str.length ∧ allowErrors = 0 then none else some .double := by
  unfold finishScan
  simp only [hsc]
  split_ifs <;> rfl

end scan

/-! ## Recognition -/

section recognition

variable {D : Type} (strtod : Strtod D) (wantOflow : Bool) {s t : List UInt8}

/-- The result says of `t` whether it is an integer that fits, and stores it. -/
def Recognises (out : NumericOut D) (t : List UInt8) : Prop :=
  (out.ret = some .long ↔ ∃ n, Denotes t n ∧ FitsLong n) ∧
    (out.ret = some .long → ∀ n, Denotes t n → ∃ lval, out.lval = some lval ∧ lval.toInt = n)

/-- Nineteen digits of an integer are compared with those of `ZEND_LONG_MIN` at a wrong place, or
together with what stands behind them. -/
def Misread (s : List UInt8) : Prop :=
  ∃ ws sg zs ks r, Reading s ws sg zs ks r ∧ ¬ GoesOn r ∧ Miscompared sg ks r

lemma isInteger_of_denotes {ws u : List UInt8} {n : ℤ} (hws : ∀ b ∈ ws, IsSpace b) (hu : IsFloat u)
    (h : Denotes (ws ++ u) n) : IsInteger u := by
  obtain ⟨ws', sg, ds, hw', hsg, hds, heq, -⟩ := h
  have hhd := head_not_space_of_isFloat (isFloat_integer hsg hds) []
  have hh' := head_not_space_of_isFloat hu []
  rw [append_nil] at hhd hh'
  obtain ⟨-, rfl⟩ := (span_unique heq hws hw' hhd).2 hh'
  exact ⟨sg, ds, hsg, hds, rfl⟩

lemma not_fitsLong_of_tooLong {ws sg zs ks r : List UInt8} (h : Reading s ws sg zs ks r)
    (hl : maxLengthOfLong ≤ ks.length) : ¬ FitsLong (signedValue sg (zs ++ ks)) := by
  have hks := h.digits
  rw [maxLengthOfLong] at hl
  have hn : ks ≠ [] := by
    rintro rfl
    simp at hl
  have hc : IsCanonical ks := ⟨⟨hn, hks⟩, fun hz => absurd rfl (h.significant _ hz)⟩
  have ho : ks ≠ [0x30] := fun heq => h.significant 0x30 (by rw [heq]; rfl) rfl
  have hp := hc.pow_le ho
  have hm : 10 ^ 19 ≤ 10 ^ (ks.length - 1) := Nat.pow_le_pow_right (by norm_num) (by omega)
  rw [signedValue, decimalValue_zeros_append h.zeros, FitsLong, zendLongMin, zendLongMax]
  split_ifs <;> omega

/-- **The longest numeric text in front of a string that is not misread.** -/
theorem isNumeric_recognises {allowErrors : ℤ} (ht : IsLongestPrefix IsNumericText s t)
    (hae : allowErrors = 0 → t = s) (hm : ¬ Misread s) :
    (isNumericStringExI strtod s true true wantOflow allowErrors).ret ≠ none ∧
      Recognises (isNumericStringExI strtod s true true wantOflow allowErrors) t := by
  obtain ⟨ws, sg, zs, ks, r, h⟩ := exists_reading s
  rw [h.eq] at ht
  obtain ⟨u, hu, rfl⟩ := (longest_numericText_iff h.spaces h.no_space).mp ht
  have hw : allowErrors = 0 → u = body sg zs ks r := fun hz =>
    append_cancel_left ((hae hz).trans h.eq)
  by_cases hdb : AsksStrtod zs ks r
  · -- `zend_strtod` decides, and no integer of the text fits
    obtain ⟨sc, hot, hty, hpt⟩ := isNumeric_double strtod wantOflow allowErrors h hdb
    have hrt : (isNumericStringExI strtod s true true wantOflow allowErrors).ret =
      some .double := by
      have hc : strtod.consumed (body sg zs ks r) = u.length := strtod.consumed_eq hu
      rw [hot, finishScan_double strtod wantOflow allowErrors hty, hpt, hc, if_neg]
      rintro ⟨hne, hz⟩
      exact hne (by rw [hw hz])
    have hnt : ¬ ∃ n, Denotes (ws ++ u) n ∧ FitsLong n := by
      rintro ⟨n, hn, hft⟩
      by_cases hg : (zs ++ ks ≠ [] ∧ GoesOn r) ∨ (zs ++ ks = [] ∧ PointDigit r)
      · exact not_isInteger_of_longest h.parts hg hu (isInteger_of_denotes h.spaces hu.2.1 hn)
      · obtain ⟨hds, hl⟩ : zs ++ ks ≠ [] ∧ maxLengthOfLong ≤ ks.length := by
          unfold AsksStrtod at hdb
          tauto
        have hr : ¬ GoesOn r := fun hr => hg (.inl ⟨hds, hr⟩)
        rw [hu.unique (longest_integer h.parts hds hr),
          denotes_iff h.spaces h.parts.sign ⟨hds, h.parts.digits⟩] at hn
        exact not_fitsLong_of_tooLong h hl (hn ▸ hft)
    rw [Recognises, hrt]
    exact ⟨by simp, ⟨nofun, fun hex => absurd hex hnt⟩, nofun⟩
  obtain ⟨hds, hr, hln⟩ := h.integer_of_not_double hu.1 hu.2.1 hdb
  obtain rfl := hu.unique (longest_integer h.parts hds hr)
  have hnl : allowErrors = 0 → r = [] := by
    intro hz
    have heq := hw hz
    simpa [body] using heq
  obtain ⟨hl, ho⟩ := isNumeric_integer strtod wantOflow allowErrors h hds hr hln hnl
    fun hms => hm ⟨ws, sg, zs, ks, r, h, hr, hms⟩
  have hdn := fun n => denotes_iff (n := n) h.spaces h.parts.sign ⟨hds, h.parts.digits⟩
  by_cases hft : FitsLong (signedValue sg (zs ++ ks))
  · obtain ⟨hrt, ⟨lval, hlv, hv⟩, -⟩ := hl hft
    rw [Recognises, hrt]
    refine ⟨by simp, ⟨fun _ => ⟨_, (hdn _).mpr rfl, hft⟩, fun _ => rfl⟩, fun _ n hn => ?_⟩
    exact ⟨lval, hlv, by rw [hv, (hdn n).mp hn]⟩
  · rw [Recognises, (ho hft).1]
    refine ⟨by simp, ⟨nofun, ?_⟩, nofun⟩
    rintro ⟨n, hn, hf⟩
    exact absurd ((hdn n).mp hn ▸ hf) hft

/-- Without a numeric prefix nothing is recognised. -/
lemma isNumeric_of_noText (allowErrors : ℤ) (hno : ∀ t, t <+: s → ¬ IsNumericText t) :
    (isNumericStringExI strtod s true true wantOflow allowErrors).ret = none := by
  obtain ⟨ws, sg, zs, ks, r, h⟩ := exists_reading s
  have hfl : ∀ u, u <+: body sg zs ks r → ¬ IsFloat u := by
    intro u hu hfl
    obtain ⟨hpr, ht⟩ := (numericText_prefix_iff h.spaces h.no_space).mpr ⟨u, hu, hfl, rfl⟩
    exact hno _ (h.eq ▸ hpr) ht
  by_cases hds : zs ++ ks = []
  · refine isNumeric_none strtod wantOflow allowErrors h hds fun hp => ?_
    obtain ⟨t, ht, hf, -⟩ := exists_longer h.parts (.inr ⟨hds, hp⟩)
    exact hfl t ht hf
  · refine absurd (isFloat_integer h.parts.sign ⟨hds, h.parts.digits⟩) (hfl _ ⟨r, ?_⟩)
    simp [body]

/-- Without errors allowed, bytes behind the longest numeric text refuse the string. -/
lemma isNumeric_trailing (ht : IsLongestPrefix IsNumericText s t) (hne : t ≠ s) :
    (isNumericStringExI strtod s true true wantOflow 0).ret = none := by
  obtain ⟨ws, sg, zs, ks, r, h⟩ := exists_reading s
  have ht' := ht
  rw [h.eq] at ht'
  obtain ⟨u, hu, rfl⟩ := (longest_numericText_iff h.spaces h.no_space).mp ht'
  have hlt : u.length < (body sg zs ks r).length := by
    refine lt_of_le_of_ne hu.1.length_le fun hl => hne ?_
    rw [h.eq, hu.1.eq_of_length hl]
  have hc : strtod.consumed (body sg zs ks r) = u.length := strtod.consumed_eq hu
  by_cases hdb : AsksStrtod zs ks r
  · obtain ⟨sc, ho, hty, hpt⟩ := isNumeric_double strtod wantOflow 0 h hdb
    rw [ho, finishScan_double strtod wantOflow 0 hty, hpt, if_pos ⟨by omega, rfl⟩]
  obtain ⟨hds, hr, hl⟩ := h.integer_of_not_double hu.1 hu.2.1 hdb
  obtain rfl := hu.unique (longest_integer h.parts hds hr)
  obtain ⟨ptr, ho, hm, hs⟩ := isNumeric_long strtod wantOflow 0 h hds hr hl
  have hb := length_body sg zs ks r
  have hpt : ptr ≠ (body sg zs ks r).length := by
    by_cases hsn : SignOnly r
    · -- the cursor stands on the sign, not behind it
      have htw : 2 ≤ r.length := by
        obtain ⟨e, c, r', rfl, -⟩ := hsn
        simp
      rw [hm hsn]
      omega
    · rw [hs hsn]
      omega
  rw [ho, finishScan]
  simp [hpt, ne_eq, and_self]

/-- A text that is numeric as a whole is never misread. -/
lemma not_misread_of_numericText (h : IsNumericText s) : ¬ Misread s := by
  rintro ⟨ws, sg, zs, ks, r, hrd, hr, hln, hm⟩
  have hds : zs ++ ks ≠ [] := by
    intro hn
    rw [(append_eq_nil_iff.mp hn).2] at hln
    simp at hln
  have hn : r ≠ [] := by
    rintro rfl
    rcases hm with ⟨⟨_, _, _, h, _⟩, -⟩ | ⟨-, -, -, h⟩
    · simp at h
    · exact h rfl
  have hl := (longest_numericText_iff hrd.spaces hrd.no_space).mpr
    ⟨_, longest_integer hrd.parts hds hr, rfl⟩
  rw [← hrd.eq] at hl
  have hle := hl.2.2 s (prefix_refl s) h
  have hp := length_pos_iff_ne_nil.mpr hn
  nth_rewrite 1 [hrd.eq] at hle
  simp only [length_append] at hle
  omega

/-- A misread text is not recognised as its longest numeric prefix. -/
lemma not_recognises_of_misread {allowErrors : ℤ} (hae : allowErrors ≠ 0) (hm : Misread s)
    (hrc : ∀ t, IsLongestPrefix IsNumericText s t →
      Recognises (isNumericStringExI strtod s true true wantOflow allowErrors) t) : False := by
  obtain ⟨ws, sg, zs, ks, r, h, hr, hm⟩ := hm
  have hds : zs ++ ks ≠ [] := by
    intro hn
    rw [Miscompared, (append_eq_nil_iff.mp hn).2] at hm
    simp at hm
  have hl := (longest_numericText_iff h.spaces h.no_space).mpr ⟨_,
    longest_integer h.parts hds hr, rfl⟩
  rw [← h.eq] at hl
  have hft := (isNumeric_miscompared strtod wantOflow allowErrors h hds hr hae
    hm).symm.trans (hrc _ hl).1
  have hdn := fun n => denotes_iff (n := n) h.spaces h.parts.sign ⟨hds, h.parts.digits⟩
  simp only [hdn, exists_eq_left] at hft
  exact not_iff_self hft

lemma isNumericText_of_denotes {n : ℤ} (h : Denotes t n) : IsNumericText t := by
  obtain ⟨ws, sg, ds, hws, hsg, hds, rfl, -⟩ := h
  exact ⟨ws, sg ++ ds, hws, isFloat_integer hsg hds, rfl⟩

/-- **Numeric strings.** Without errors allowed the function accepts exactly the numeric texts, and
says `IS_LONG` exactly of the integers that fit. With errors allowed the same holds of the longest
numeric prefix if and only if the string is not misread. -/
theorem isNumericString_recognises_iff (s : List UInt8) :
    (((isNumericStringExI strtod s true true wantOflow 0).ret ≠ none ↔ IsNumericText s) ∧
      Recognises (isNumericStringExI strtod s true true wantOflow 0) s) ∧
    ∀ allowErrors, allowErrors = 1 ∨ allowErrors = -1 →
      (((isNumericStringExI strtod s true true wantOflow allowErrors).ret ≠ none ↔
          ∃ t, t <+: s ∧ IsNumericText t) ∧
        (∀ t, IsLongestPrefix IsNumericText s t →
          Recognises (isNumericStringExI strtod s true true wantOflow allowErrors) t) ↔
        ¬ Misread s) := by
  constructor
  · by_cases hs : IsNumericText s
    · have hl : IsLongestPrefix IsNumericText s s := ⟨prefix_refl s, hs, fun _ ht _ => ht.length_le⟩
      obtain ⟨hrt, hrc⟩ := isNumeric_recognises strtod wantOflow hl (fun _ => rfl)
        (not_misread_of_numericText hs)
      exact ⟨iff_of_true hrt hs, hrc⟩
    have hrt : (isNumericStringExI strtod s true true wantOflow 0).ret = none := by
      by_cases hp : ∃ t, t <+: s ∧ IsNumericText t
      · obtain ⟨t, ht, hnm⟩ := hp
        obtain ⟨u, hu⟩ := exists_longestPrefix ht hnm
        exact isNumeric_trailing strtod wantOflow hu fun heq => hs (heq ▸ hu.2.1)
      · push Not at hp
        exact isNumeric_of_noText strtod wantOflow 0 hp
    refine ⟨iff_of_false (not_not.mpr hrt) hs, ?_⟩
    rw [Recognises, hrt]
    exact ⟨⟨nofun, fun ⟨n, hn, _⟩ => absurd (isNumericText_of_denotes hn) hs⟩, nofun⟩
  · intro allowErrors hae
    have hne : allowErrors ≠ 0 := by rcases hae with rfl | rfl <;> decide
    refine ⟨fun hrc hm => not_recognises_of_misread strtod wantOflow hne hm hrc.2, fun hm => ?_⟩
    refine ⟨⟨fun hrt => ?_, ?_⟩, fun t ht => ?_⟩
    · by_contra hno
      push Not at hno
      exact hrt (isNumeric_of_noText strtod wantOflow allowErrors hno)
    · rintro ⟨t, ht, hnm⟩
      obtain ⟨u, hu⟩ := exists_longestPrefix ht hnm
      exact (isNumeric_recognises strtod wantOflow hu (fun hz => absurd hz hne) hm).1
    · exact (isNumeric_recognises strtod wantOflow ht (fun hz => absurd hz hne) hm).2

/-- Short texts are never misread. -/
lemma not_misread_of_length (h : s.length < 19) : ¬ Misread s := by
  rintro ⟨ws, sg, zs, ks, r, hrd, -, hl, -⟩
  have hs := congrArg length hrd.eq
  simp only [length_append] at hs
  omega

/-- `"12"`. -/
theorem isNumericString_recognises_iff_twelve :
    ¬ Misread [0x31, 0x32] ∧ IsNumericText [0x31, 0x32] ∧
      (isNumericStringExI (Strtod.ofValue fun _ => ()) [0x31, 0x32] true true false 1).ret ≠
        none := by
  have hm : ¬ Misread [0x31, 0x32] := not_misread_of_length (by decide)
  have ht : IsNumericText [0x31, 0x32] :=
    ⟨[], [0x31, 0x32], nofun, isFloat_integer (.inl rfl) (by decide), rfl⟩
  have hrc := ((isNumericString_recognises_iff (Strtod.ofValue fun _ => ()) false [0x31, 0x32]).2 1
    (.inl rfl)).mpr hm
  exact ⟨hm, ht, hrc.1.mpr ⟨_, prefix_refl _, ht⟩⟩

end recognition

/-! ## Misread strings -/

/-- Digits behind an optional minus, and text that does not go on: the longest numeric prefix. -/
lemma longest_of_digits {sg ds r : List UInt8} (hsg : sg = [] ∨ sg = [0x2d]) (hds : IsDigits ds)
    (hsp : ∀ c, r.head? = some c → ¬ IsDigit c) (hr : ¬ GoesOn r) :
    IsLongestPrefix IsNumericText (sg ++ (ds ++ r)) (sg ++ ds) := by
  have hsn : IsSign sg := hsg.imp_right .inl
  obtain ⟨d, ds', rfl⟩ := exists_cons_of_ne_nil hds.1
  have hd := hds.2 d mem_cons_self
  have hp : Parts (sg ++ (d :: ds' ++ r)) sg (d :: ds') r := by
    refine ⟨rfl, hsn, fun hn c hc => ?_, hds.2, hsp⟩
    rw [hn] at hc
    rw [← some.inj hc]
    exact ne_sign_of_digit (.inl hd)
  have hs : ∀ c, (sg ++ (d :: ds' ++ r)).head? = some c → ¬ IsSpace c := by
    have := head_not_space_of_isFloat (isFloat_integer hsn hds) r
    rwa [append_assoc] at this
  have hn : ∀ b ∈ ([] : List UInt8), IsSpace b := nofun
  exact (longest_numericText_iff hn hs).mpr ⟨_, longest_integer hp hds.1 hr, rfl⟩

/-- `"9300000000000000000e+"`. -/
def signOnlyText : List UInt8 := [0x39, 0x33] ++ replicate 17 0x30 ++ [0x65, 0x2b]

/-- `"-9223372036854775808abc"`. -/
def longMinGarbage : List UInt8 := [0x2d] ++ (longMinDigits ++ [0x61, 0x62, 0x63])

/-- **Two strings that are misread.** The first one starts with an integer that does not fit, and is
`IS_LONG`; the second one starts with `ZEND_LONG_MIN`, and is `IS_DOUBLE`. -/
theorem isNumericString_misread :
    (∃ t, IsLongestPrefix IsNumericText signOnlyText t ∧ Denotes t 9300000000000000000 ∧
        ¬ FitsLong 9300000000000000000 ∧
        (isNumericStringExI (Strtod.ofValue fun _ => ()) signOnlyText true true false 1).ret =
          some .long) ∧
      ∃ t, IsLongestPrefix IsNumericText longMinGarbage t ∧ Denotes t zendLongMin ∧
        FitsLong zendLongMin ∧
        (isNumericStringExI (Strtod.ofValue fun _ => ()) longMinGarbage true true false 1).ret =
          some .double := by
  constructor
  · refine ⟨[] ++ ([0x39, 0x33] ++ replicate 17 0x30), ?_, ?_, by decide, ?_⟩
    · refine longest_of_digits (.inl rfl) (by decide) (fun c hc => ?_) ?_
      · rw [← some.inj hc]
        decide
      rw [goesOn_iff]
      rintro (h | ⟨e, r', h, -, ⟨d, r'', rfl, hd⟩ | ⟨c, d, r'', rfl, -⟩⟩)
      · simp at h
      · obtain ⟨-, rfl, -⟩ : e = 0x65 ∧ d = 0x2b ∧ r'' = [] := by simpa using h.symm
        exact absurd hd (by decide)
      · simp at h
    · exact ⟨[], [], _, nofun, .inl rfl, by decide, rfl, by decide⟩
    · rfl
  · refine ⟨[0x2d] ++ longMinDigits, ?_, ?_, by decide, ?_⟩
    · refine longest_of_digits (.inr rfl) (by decide) (fun c hc => ?_) ?_
      · rw [← some.inj hc]
        decide
      · rw [goesOn_iff]
        rintro (h | ⟨e, r', h, he, -⟩)
        · simp at h
        · rw [← (cons.inj h).1] at he
          exact absurd he (by decide)
    · exact ⟨[], [0x2d], _, nofun, .inr (.inl rfl), by decide, rfl, by decide⟩
    · rfl

end PhpInternals.Zend.ZendOperators

import PhpInternals.Found.CString
import PhpInternals.Found.FloatText
import PhpInternals.Zend.ZendOperators.LongToStr

/-!
# Numeric strings

Embedding of `_is_numeric_string_ex` (`Zend/zend_operators.c`) and `is_numeric_string_ex`
(`Zend/zend_operators.h`). A string is the list of its bytes, with the terminator behind the last
one; a pointer into it is its distance from `str`. What is written through the pointers that the
function is given is part of its result.
-/

namespace PhpInternals.Zend.ZendOperators

open List PhpInternals.Found

/-! ## Data -/

/-- `IS_LONG` or `IS_DOUBLE`. -/
inductive NumType where
  | long
  | double
  deriving DecidableEq, Repr

/-- `zend_strtod` over a type of doubles: the value of a text, the bytes it consumes of a string,
and that they are the longest floating-point text, or none. Source: `zend_strtod.c` `zend_strtod`.
-/
structure Strtod (D : Type) where
  value : List UInt8 → D
  consumed : List UInt8 → ℕ
  longest : ∀ s, IsLongestPrefix IsFloat s (s.take (consumed s)) ∨
    consumed s = 0 ∧ ∀ t, t <+: s → ¬ IsFloat t
  consumed_le : ∀ s, consumed s ≤ s.length

/-- There is such a function for every way to give texts a value. -/
noncomputable def Strtod.ofValue {D : Type} (value : List UInt8 → D) : Strtod D := by
  classical
  exact
    { value
      consumed := fun s => if h : ∃ t, IsLongestPrefix IsFloat s t then h.choose.length else 0
      longest := by
        intro s
        by_cases h : ∃ t, IsLongestPrefix IsFloat s t
        · rw [dif_pos h, ← prefix_iff_eq_take.mp h.choose_spec.1]
          exact .inl h.choose_spec
        · exact .inr ⟨dif_neg h, fun t ht hfloat => h (exists_longestPrefix ht hfloat)⟩
      consumed_le := by
        intro s
        by_cases h : ∃ t, IsLongestPrefix IsFloat s t
        · rw [dif_pos h]
          exact h.choose_spec.1.length_le
        · rw [dif_neg h]
          exact Nat.zero_le _ }

@[simp] lemma Strtod.value_ofValue {D : Type} (value : List UInt8 → D) :
    (Strtod.ofValue value).value = value := rfl

lemma Strtod.consumed_eq {D : Type} (strtod : Strtod D) {s u : List UInt8}
    (hu : IsLongestPrefix IsFloat s u) : strtod.consumed s = u.length := by
  rcases strtod.longest s with hl | ⟨-, hnn⟩
  · rw [hu.unique hl, length_take, min_eq_left (strtod.consumed_le s)]
  · exact absurd hu.2.1 (hnn u hu.1)

/-- `zend_strtod(str, NULL)`. Source: `zend_strtod.c` `zend_strtod`. -/
def Strtod.eval {D : Type} (strtod : Strtod D) (str : List UInt8) : D :=
  strtod.value (str.take (strtod.consumed str))

/-- What `_is_numeric_string_ex` returns and writes; nothing where it does not write. Source:
`_is_numeric_string_ex`. -/
structure NumericOut (D : Type) where
  /-- The returned type, nothing for `0`. -/
  ret : Option NumType
  /-- `*lval`. -/
  lval : Option (BitVec 64)
  /-- `*dval`. -/
  dval : Option D
  /-- `*oflow_info`. -/
  oflowInfo : Option ℤ
  /-- The notice "A non well formed numeric value encountered". -/
  notice : Bool

/-- The variables of the scan. Source: `_is_numeric_string_ex`. -/
structure Scan where
  type : NumType
  ptr : ℕ
  digits : ℕ
  tmpLval : BitVec 64
  dpOrE : ℤ
  /-- The digits are too many for a long: `*oflow_info` was set to the sign. -/
  oflow : Bool

/-! ## The scan -/

/-- White space that is skipped. -/
def IsSpace (b : UInt8) : Prop :=
  b = 0x20 ∨ b = 0x09 ∨ b = 0x0a ∨ b = 0x0d ∨ b = 0x0b ∨ b = 0x0c

instance : DecidablePred IsSpace := fun _ => inferInstanceAs (Decidable (_ ∨ _))

section scan

/-! `consumed` is what `zend_strtod` consumes of the string when there is a `dval`. -/

variable (consumed : Option ℕ) (allowErrors : ℤ)

/-- Whether `process_double` goes back to `check_digits`. Source: `_is_numeric_string_ex`. -/
def Scan.goesBack (sc : Scan) : Bool := consumed.isNone && allowErrors != 1 && sc.dpOrE != -1

/-- `process_double` when it does not go back. Source: `_is_numeric_string_ex`. -/
def Scan.processDouble (sc : Scan) : Scan :=
  { sc with type := .double, ptr := consumed.getD sc.ptr }

/-- The way out of the loop. Source: `_is_numeric_string_ex`. -/
def Scan.leave (sc : Scan) : Scan :=
  if maxLengthOfLong ≤ sc.digits then
    Scan.processDouble consumed { sc with oflow := true, dpOrE := -1 }
  else sc

/-- A digit is taken. Source: `_is_numeric_string_ex`. -/
def Scan.digit (sc : Scan) (c : UInt8) : Scan :=
  { sc with
    tmpLval := sc.tmpLval * 10#64 + BitVec.ofNat 64 c.toNat - 0x30#64
    digits := sc.digits + 1
    ptr := sc.ptr + 1 }

/-- The loop from `check_digits` on, over the bytes from `ptr` on. Source: `_is_numeric_string_ex`.
-/
def checkDigits : List UInt8 → Scan → Scan
  | [], sc => sc.leave consumed
  | c :: rest, sc =>
    if IsDigit c then
      let sc := sc.digit c
      if maxLengthOfLong ≤ sc.digits ∧ (consumed.isSome ∨ allowErrors = 1) then sc.leave consumed
      else checkDigits rest sc
    else if c = 0x2e ∧ sc.dpOrE < 1 then
      if sc.goesBack consumed allowErrors then
        checkDigits rest { sc with type := .double, dpOrE := 1, ptr := sc.ptr + 1 }
      else sc.processDouble consumed
    else if (c = 0x65 ∨ c = 0x45) ∧ sc.dpOrE < 2 then
      match rest with
      | [] => sc.leave consumed
      | e :: rest' =>
        if e = 0x2d ∨ e = 0x2b then
          -- `ptr = e++`
          let sc := { sc with ptr := sc.ptr + 1 }
          if IsDigit (rest'.headD 0) then
            if sc.goesBack consumed allowErrors then
              checkDigits rest' { sc with type := .double, dpOrE := 2, ptr := sc.ptr + 1 }
            else sc.processDouble consumed
          else sc.leave consumed
        else if IsDigit e then
          if sc.goesBack consumed allowErrors then
            checkDigits (e :: rest') { sc with type := .double, dpOrE := 2, ptr := sc.ptr + 1 }
          else sc.processDouble consumed
        else sc.leave consumed
    else sc.leave consumed

end scan

/-! ## The function -/

/-- Source: `long_min_digits`. -/
def longMinDigits : List UInt8 :=
  [0x39, 0x32, 0x32, 0x33, 0x33, 0x37, 0x32, 0x30, 0x33, 0x36, 0x38, 0x35, 0x34, 0x37,
    0x37, 0x35, 0x38,
    0x30, 0x38]

variable {D : Type} (strtod : Strtod D)

/-- `*str == '-' ? -1 : 1`. Source: `_is_numeric_string_ex`. -/
def oflowSign (str : List UInt8) : ℤ := if str.headD 0 = 0x2d then -1 else 1

/-- What is done with a scan of `str`: the check for trailing bytes, the check of nineteen digits
against those of `ZEND_LONG_MIN`, and the stores. Source: `_is_numeric_string_ex`. -/
def finishScan (str : List UInt8) (wantLval wantDval wantOflow : Bool)
    (allowErrors : ℤ) (sc : Scan) :
    NumericOut D :=
  let oflow : Option ℤ := if wantOflow then some (if sc.oflow then oflowSign str else 0) else none
  if sc.ptr ≠ str.length ∧ allowErrors = 0 then ⟨none, none, none, oflow, false⟩
  else
    let notice : Bool := sc.ptr ≠ str.length ∧ allowErrors = -1
    match sc.type with
    | .long =>
      let cmp := strcmp (str.drop (sc.ptr - sc.digits)) longMinDigits
      if sc.digits = maxLengthOfLong - 1 ∧ ¬ (cmp < 0 ∨ (cmp = 0 ∧ str.headD 0 = 0x2d)) then
        ⟨some .double, none, if wantDval then some (strtod.eval str) else none,
          if wantOflow then some (oflowSign str) else none, notice⟩
      else
        let lval := if str.headD 0 = 0x2d then -sc.tmpLval else sc.tmpLval
        ⟨some .long, if wantLval then some lval else none, none, oflow, notice⟩
    | .double =>
      ⟨some .double, none, if wantDval then some (strtod.eval str) else none, oflow, notice⟩

/-- `_is_numeric_string_ex`; the pointers that are not `NULL` are wanted. -/
def isNumericStringExI (s : List UInt8) (wantLval wantDval wantOflow : Bool) (allowErrors : ℤ) :
    NumericOut D :=
  if s.length = 0 then ⟨none, none, none, none, false⟩
  else
    let str := s.dropWhile fun b => decide (IsSpace b)
    let ptr := if str.headD 0 = 0x2d ∨ str.headD 0 = 0x2b then 1 else 0
    let rest := str.drop ptr
    let consumed := if wantDval then some (strtod.consumed str) else none
    if IsDigit (rest.headD 0) then
      let zeros := (rest.takeWhile fun b => decide (b = 0x30)).length
      finishScan strtod str wantLval wantDval wantOflow allowErrors
        (checkDigits consumed allowErrors (rest.drop zeros) ⟨.long, ptr + zeros, 0, 0, 0, false⟩)
    else if rest.headD 0 = 0x2e ∧ IsDigit (rest.getD 1 0) then
      let sc : Scan := ⟨.long, ptr, 0, 0, 0, false⟩
      finishScan strtod str wantLval wantDval wantOflow allowErrors
        (if sc.goesBack consumed allowErrors then
          checkDigits consumed allowErrors (rest.drop 1) ⟨.double, ptr + 1, 0, 0, 1, false⟩
        else sc.processDouble consumed)
    else ⟨none, none, none, if wantOflow then some 0 else none, false⟩

/-- Source: `is_numeric_string_ex`. -/
def isNumericStringEx (s : List UInt8) (wantLval wantDval wantOflow : Bool) (allowErrors : ℤ) :
    NumericOut D :=
  -- `char` is signed
  if 0x39 < s.headD 0 ∧ s.headD 0 < 0x80 then ⟨none, none, none, none, false⟩
  else isNumericStringExI strtod s wantLval wantDval wantOflow allowErrors

/-! ## The run of the loop -/

/-- An exponent mark and a sign without a digit behind them: the cursor is moved onto the sign. -/
def SignOnly (r : List UInt8) : Prop :=
  ∃ e c r', r = e :: c :: r' ∧ (e = 0x65 ∨ e = 0x45) ∧ (c = 0x2d ∨ c = 0x2b) ∧
    ¬ IsDigit (r'.headD 0)

section run

variable {n : ℕ} {allowErrors : ℤ} {r : List UInt8} {sc : Scan}

lemma Scan.leave_of_lt {consumed : Option ℕ} (h : sc.digits < maxLengthOfLong) :
    sc.leave consumed = sc := by
  rw [Scan.leave, if_neg (by omega)]

@[simp] lemma Scan.goesBack_some : sc.goesBack (some n) allowErrors = false := by
  simp [Scan.goesBack]

lemma checkDigits_cons {c : UInt8} (hc : IsDigit c) (rest : List UInt8) :
    checkDigits (some n) allowErrors (c :: rest) sc =
      if maxLengthOfLong ≤ sc.digits + 1 then (sc.digit c).leave (some n)
      else checkDigits (some n) allowErrors rest (sc.digit c) := by
  have hnx : (sc.digit c).digits = sc.digits + 1 := rfl
  rw [checkDigits.eq_def]
  simp [if_pos hc, hnx, true_or]

lemma checkDigits_goesOn (hr : GoesOn r) (hsc : sc.dpOrE = 0) :
    checkDigits (some n) allowErrors r sc = { sc with type := .double, ptr := n } := by
  have hp : ¬ IsDigit 0x2e := by decide
  obtain hh | ⟨e, r', rfl, he, hta⟩ := goesOn_iff.mp hr
  · obtain ⟨tail, rfl⟩ : ∃ tail, r = 0x2e :: tail := by
      cases r with
      | nil => simp at hh
      | cons c tail => exact ⟨tail, by rw [Option.some.inj hh]⟩
    rw [checkDigits.eq_def]
    simp [hp, hsc, Scan.processDouble]
  · have hl : ¬ IsDigit e ∧ e ≠ 0x2e := by rcases he with rfl | rfl <;> decide
    obtain ⟨d, r'', rfl, hd⟩ | ⟨c, d, r'', rfl, hc, hd⟩ := hta
    · obtain ⟨hm, hpl⟩ := ne_sign_of_digit (.inl hd)
      simp [checkDigits, hl, he, hsc, hd, hm, hpl, Scan.processDouble]
    · simp [checkDigits, hl, he, hsc, hc, hd, Scan.processDouble]

/-- The loop stops behind the digits, and a lone exponent sign has moved the cursor. -/
lemma checkDigits_stop (hsp : ∀ c, r.head? = some c → ¬ IsDigit c) (hr : ¬ GoesOn r)
    (hsc : sc.dpOrE = 0) (hlt : sc.digits < maxLengthOfLong) :
    (SignOnly r → checkDigits (some n) allowErrors r sc = { sc with ptr := sc.ptr + 1 }) ∧
      (¬ SignOnly r → checkDigits (some n) allowErrors r sc = sc) := by
  rw [goesOn_iff, not_or] at hr
  obtain ⟨hp, hep⟩ := hr
  have hl : ∀ sc' : Scan, sc'.digits = sc.digits → sc'.leave (some n) = sc' :=
    fun sc' h => Scan.leave_of_lt (h ▸ hlt)
  match r with
  | [] =>
    refine ⟨fun ⟨_, _, _, h, _⟩ => by simp at h, fun _ => ?_⟩
    rw [checkDigits, hl sc rfl]
  | c :: rest =>
    have hc := hsp c rfl
    have hdt : c ≠ 0x2e := fun h => hp (by rw [h]; rfl)
    by_cases he : c = 0x65 ∨ c = 0x45
    swap
    · refine ⟨fun ⟨e, _, _, h, he', _⟩ => absurd ((cons.inj h).1 ▸ he') he, fun _ => ?_⟩
      rw [checkDigits.eq_def]
      simp [hc, hdt, he, hl sc rfl]
    match rest with
    | [] =>
      refine ⟨fun ⟨_, _, _, h, _⟩ => by simp at h, fun _ => ?_⟩
      simp [checkDigits, hc, hdt, he, hl sc rfl]
    | d :: rest' =>
      have hd : ¬ IsDigit d := fun hd => hep ⟨c, d :: rest', rfl, he, .inl ⟨d, rest', rfl, hd⟩⟩
      by_cases hsg : d = 0x2d ∨ d = 0x2b
      · have hnx : ¬ IsDigit (rest'.headD 0) := by
          intro hdg
          cases rest' with
          | nil => exact absurd hdg (by decide)
          | cons f rest'' =>
            exact hep ⟨c, _, rfl, he, .inr ⟨d, f, rest'', rfl, hsg, hdg⟩⟩
        have hs : SignOnly (c :: d :: rest') := ⟨c, d, rest', rfl, he, hsg, hnx⟩
        refine ⟨fun _ => ?_, fun h => absurd hs h⟩
        have hm : (c = 0x65 ∨ c = 0x45) ∧ sc.dpOrE < 2 := ⟨he, by omega⟩
        rw [checkDigits.eq_def]
        simp only [if_neg hc, hdt, if_pos hm, if_pos hsg, if_neg hnx]
        exact hl { sc with ptr := sc.ptr + 1 } rfl
      · refine ⟨fun ⟨_, _, _, h, _, hs', _⟩ => absurd ?_ hsg, fun _ => ?_⟩
        · obtain ⟨-, h⟩ := cons.inj h
          exact (cons.inj h).1 ▸ hs'
        · simp [checkDigits, hc, hdt, he, hsg, hd, hl sc rfl]

variable {ks : List UInt8}

lemma checkDigits_digits (hks : ∀ b ∈ ks, IsDigit b)
    (hl : sc.digits + ks.length < maxLengthOfLong) :
    checkDigits (some n) allowErrors (ks ++ r) sc =
      checkDigits (some n) allowErrors r (ks.foldl Scan.digit sc) := by
  induction ks generalizing sc with
  | nil => rfl
  | cons k ks ih =>
    rw [forall_mem_cons] at hks
    rw [length_cons] at hl
    have hnx : (sc.digit k).digits = sc.digits + 1 := rfl
    rw [cons_append, checkDigits_cons hks.1, if_neg (by omega), ih hks.2 (by omega), foldl_cons]

/-- **The run over twenty digits**: the loop is left for `process_double`. -/
theorem checkDigits_tooLong (hks : ∀ b ∈ ks, IsDigit b)
    (hlt : sc.digits < maxLengthOfLong) (hl : maxLengthOfLong ≤ sc.digits + ks.length) :
    ∃ sc', checkDigits (some n) allowErrors (ks ++ r) sc = sc' ∧ sc'.type = .double ∧ sc'.ptr = n ∧
      sc'.oflow = true := by
  induction ks generalizing sc with
  | nil =>
    rw [length_nil] at hl
    omega
  | cons k ks ih =>
    rw [forall_mem_cons] at hks
    rw [length_cons] at hl
    have hnx : (sc.digit k).digits = sc.digits + 1 := rfl
    rw [cons_append, checkDigits_cons hks.1]
    split_ifs with hf
    · refine ⟨_, rfl, ?_⟩
      rw [Scan.leave, if_pos (by rw [hnx]; exact hf)]
      exact ⟨rfl, rfl, rfl⟩
    · exact ih hks.2 (by omega) (by omega)

lemma foldl_digit (hks : ∀ b ∈ ks, IsDigit b) (sc : Scan) (v : ℕ)
    (hv : sc.tmpLval = BitVec.ofNat 64 v) :
    ks.foldl Scan.digit sc = { sc with
        ptr := sc.ptr + ks.length
        digits := sc.digits + ks.length
        tmpLval := BitVec.ofNat 64 (decimalFrom v ks) } := by
  induction ks generalizing sc v with
  | nil => simp [← hv]
  | cons k ks ih =>
    rw [forall_mem_cons] at hks
    have hs : (sc.digit k).tmpLval = BitVec.ofNat 64 (v * 10 + (k.toNat - 0x30)) := by
      have hl := hks.1.1
      have ha : v * 10 + k.toNat = v * 10 + (k.toNat - 0x30) + 0x30 := by omega
      change sc.tmpLval * 10#64 + BitVec.ofNat 64 k.toNat - 0x30#64 = _
      rw [hv, BitVec.ofNat_mul_ofNat, BitVec.ofNat_add_ofNat, ha, ← BitVec.ofNat_add_ofNat,
        BitVec.add_sub_cancel]
    rw [foldl_cons, ih hks.2 (sc.digit k) _ hs]
    simp [Scan.digit, Nat.add_assoc, Nat.add_comm 1]

end run

end PhpInternals.Zend.ZendOperators

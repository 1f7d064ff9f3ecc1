import PhpInternals.Found.MixedRadix

/-!
# The increment of a string

Embedding of `increment_string` (`Zend/zend_operators.c`): `"Az"` becomes `"Ba"`, `"zz"` becomes
`"aaa"`, `"a-9"` becomes `"a-0"`. The string is a list of octets. The three branches of the loop,
one for each class of characters, are one definition over the class.
-/

namespace PhpInternals.Zend.ZendOperators

open PhpInternals.Found List

/-! ## Classes of characters -/

/-- `LOWER_CASE`, `UPPER_CASE`, `NUMERIC`. -/
inductive CharClass where
  | lowerCase
  | upperCase
  | numeric
  deriving DecidableEq, Repr

namespace CharClass

/-- The first character: `'a'`, `'A'`, `'0'`. -/
def min : CharClass → UInt8
  | lowerCase => 0x61
  | upperCase => 0x41
  | numeric => 0x30

/-- The last character: `'z'`, `'Z'`, `'9'`. -/
def max : CharClass → UInt8
  | lowerCase => 0x7a
  | upperCase => 0x5a
  | numeric => 0x39

/-- The character that stands before the others when the string grows. Source: `increment_string`.
-/
def lead : CharClass → UInt8
  | lowerCase => 0x61
  | upperCase => 0x41
  | numeric => 0x31

/-- How many characters the class has. -/
def radix (c : CharClass) : ℕ := c.max.toNat - c.min.toNat + 1

end CharClass

/-- The class of a character, if it has one. Source: `increment_string`. -/
def charClass (ch : UInt8) : Option CharClass :=
  if 0x61 ≤ ch ∧ ch ≤ 0x7a then some .lowerCase
  else if 0x41 ≤ ch ∧ ch ≤ 0x5a then some .upperCase
  else if 0x30 ≤ ch ∧ ch ≤ 0x39 then some .numeric
  else none

/-! ## The function -/

/-- The string and the variables of the loop; `last` is `none` before a class was met. Source:
`increment_string`. -/
structure IncrementState where
  s : List UInt8
  carry : Bool
  last : Option CharClass

/-- The loop, at position `pos`. Source: `increment_string`. -/
def incrementLoop (st : IncrementState) (pos : ℕ) : IncrementState :=
  let ch := st.s.getD pos 0
  match charClass ch with
  | none => { st with carry := false }
  | some c =>
    if ch = c.max then
      match pos with
      | 0 => { s := st.s.set 0 c.min, carry := true, last := some c }
      | pos + 1 => incrementLoop
          { s := st.s.set (pos + 1) c.min, carry := true, last := some c } pos
    else { s := st.s.set pos (ch + 1), carry := false, last := some c }

/-- Source: `increment_string`. -/
def incrementString (s : List UInt8) : List UInt8 :=
  if s = [] then [0x31]
  else
    let st := incrementLoop ⟨s, false, none⟩ (s.length - 1)
    if st.carry then
      match st.last with
      | some c => c.lead :: st.s
      -- not reached: a carry comes out of a class
      | none => 0 :: st.s
    else st.s

/-! ## Strings as numbers -/

/-- `ch` is one of `[a-zA-Z0-9]`. -/
def IsAlnum (ch : UInt8) : Prop := (charClass ch).isSome = true

instance : DecidablePred IsAlnum := fun _ => inferInstanceAs (Decidable (_ = true))

/-- `ch` is the last character of its class. -/
def IsMax (ch : UInt8) : Prop := ∃ c, charClass ch = some c ∧ ch = c.max

/-- The radix and the value of a character. -/
def digit (ch : UInt8) : ℕ × ℕ :=
  match charClass ch with
  | some c => (c.radix, ch.toNat - c.min.toNat)
  | none => (1, 0)

/-- A string as the digits of a number. -/
def digits (s : List UInt8) : List (ℕ × ℕ) := s.map digit

/-- The class pattern of a string. -/
def pattern (s : List UInt8) : List (Option CharClass) := s.map charClass

/-- The first character of the same class. -/
def minChar (ch : UInt8) : UInt8 :=
  match charClass ch with
  | some c => c.min
  | none => ch

instance : DecidablePred IsMax := fun ch =>
  match h : charClass ch with
  | some c => decidable_of_iff (ch = c.max) ⟨fun he => ⟨c, h, he⟩, fun ⟨d, hd, he⟩ => by
    rw [h, Option.some.injEq] at hd
    rw [hd]
    exact he⟩
  | none => isFalse fun ⟨d, hd, _⟩ => by simp [h] at hd

variable {ch : UInt8} {c : CharClass}

lemma charClass_eq_some (h : charClass ch = some c) :
    c.min.toNat ≤ ch.toNat ∧ ch.toNat ≤ c.max.toNat := by
  unfold charClass at h
  split_ifs at h with h1 h2 h3 <;> cases h <;> assumption

lemma charClass_eq_some_iff :
    charClass ch = some c ↔ c.min.toNat ≤ ch.toNat ∧ ch.toNat ≤ c.max.toNat := by
  refine ⟨charClass_eq_some, fun ⟨hm, hmx⟩ => ?_⟩
  cases c <;> simp only [CharClass.min, CharClass.max] at hm hmx <;>
    simp only [charClass, UInt8.le_iff_toNat_le] <;>
    grind

@[simp] lemma charClass_min (c : CharClass) : charClass c.min = some c := by cases c <;> decide

lemma charClass_succ (h : charClass ch = some c) (hm : ch ≠ c.max) :
    charClass (ch + 1) = some c ∧ (ch + 1).toNat = ch.toNat + 1 := by
  obtain ⟨hl, hhg⟩ := charClass_eq_some h
  have hlt : ch.toNat < c.max.toNat := lt_of_le_of_ne hhg fun heq => hm (UInt8.toNat_inj.mp heq)
  have hb : c.max.toNat ≤ 0x7a := by cases c <;> decide
  have hsc : (ch + 1).toNat = ch.toNat + 1 := by
    exact Nat.mod_eq_of_lt (by change ch.toNat + 1 < 256; omega)
  exact ⟨charClass_eq_some_iff.mpr ⟨by omega, by omega⟩, hsc⟩

lemma digit_of_class (h : charClass ch = some c) :
    digit ch = (c.radix, ch.toNat - c.min.toNat) := by
  rw [digit, h]

lemma digit_succ (h : charClass ch = some c) (hm : ch ≠ c.max) :
    digit (ch + 1) = (c.radix, ch.toNat - c.min.toNat + 1) := by
  obtain ⟨hc, hv⟩ := charClass_succ h hm
  have hl := (charClass_eq_some h).1
  rw [digit_of_class hc, hv, Nat.sub_add_comm hl]

lemma digit_of_isMax (h : IsMax ch) : (digit ch).2 + 1 = (digit ch).1 := by
  obtain ⟨c, hc, rfl⟩ := h
  rw [digit_of_class hc, CharClass.radix]

lemma charClass_minChar (ch : UInt8) : charClass (minChar ch) = charClass ch := by
  unfold minChar
  cases h : charClass ch with
  | some c => exact charClass_min c
  | none => exact h

/-- The first one is 0. -/
lemma digit_minChar (h : IsAlnum ch) : (digit (minChar ch)).2 = 0 := by
  obtain ⟨c, hc⟩ := Option.isSome_iff_exists.mp h
  rw [minChar, hc, digit_of_class (charClass_min c)]
  exact Nat.sub_self _

lemma digit_fst_congr {a b : UInt8} (h : charClass a = charClass b) :
    (digit a).1 = (digit b).1 := by
  unfold digit
  rw [h]
  cases charClass b <;> rfl

lemma IsMax.isAlnum (h : IsMax ch) : IsAlnum ch := by
  obtain ⟨c, hc, -⟩ := h
  simp [IsAlnum, hc]

variable {s : List UInt8}

lemma digits_minChar (h : ∀ ch ∈ s, IsAlnum ch) : (∀ p ∈ digits (s.map minChar), p.2 = 0) ∧
      (digits (s.map minChar)).map Prod.fst = (digits s).map Prod.fst := by
  constructor
  · intro p hp
    simp only [digits, map_map, mem_map] at hp
    obtain ⟨ch, hch, rfl⟩ := hp
    exact digit_minChar (h ch hch)
  · simp only [digits, map_map]
    exact map_congr_left fun ch _ => digit_fst_congr (charClass_minChar ch)

lemma digits_of_isMax (h : ∀ ch ∈ s, IsMax ch) : ∀ p ∈ digits s, p.2 + 1 = p.1 := by
  intro p hp
  obtain ⟨ch, hch, rfl⟩ := mem_map.mp hp
  exact digit_of_isMax (h ch hch)

/-- A text's value is below the number of texts of its pattern. -/
lemma radixValue_digits_lt (s : List UInt8) : radixValue (digits s) < radixSize (digits s) := by
  refine radixValue_lt fun p hp => ?_
  obtain ⟨ch, -, rfl⟩ := mem_map.mp hp
  cases hc : charClass ch with
  | some c =>
    have hb := charClass_eq_some hc
    rw [digit_of_class hc, CharClass.radix]
    omega
  | none => simp [digit, hc]

lemma radixSize_digits_congr {t : List UInt8} (h : pattern s = pattern t) :
    radixSize (digits s) = radixSize (digits t) := by
  refine radixSize_congr ?_
  have hf : ∀ u : List UInt8, (digits u).map Prod.fst =
      (pattern u).map fun c => (c.map CharClass.radix).getD 1 := by
    intro u
    simp only [digits, pattern, map_map]
    refine map_congr_left fun ch _ => ?_
    cases hc : charClass ch with
    | some c | none => simp [digit, hc]
  rw [hf, hf, h]

@[simp] lemma pattern_append (s t : List UInt8) : pattern (s ++ t) = pattern s ++ pattern t :=
  map_append

@[simp] lemma pattern_cons (ch : UInt8) (s : List UInt8) :
    pattern (ch :: s) = charClass ch :: pattern s := rfl

@[simp] lemma pattern_minChar (s : List UInt8) : pattern (s.map minChar) = pattern s := by
  rw [pattern, map_map]
  exact map_congr_left fun ch _ => charClass_minChar ch

/-! ## The rounds of the loop -/

lemma incrementLoop_max (h : IsMax ch) (front back : List UInt8) (y : UInt8) (carry : Bool)
    (last : Option CharClass) :
    ∃ last', incrementLoop ⟨front ++ y :: ch :: back, carry, last⟩ (front.length + 1) =
      incrementLoop ⟨front ++ y :: minChar ch :: back, true, last'⟩ front.length := by
  obtain ⟨c, hc, hm⟩ := h
  have hse : (front ++ y :: ch :: back).set (front.length + 1) c.min =
      front ++ y :: c.min :: back := by
    simp
  have hmn : minChar ch = c.min := by rw [minChar, hc]
  refine ⟨some c, ?_⟩
  rw [incrementLoop]
  simp [hc, if_pos hm, hmn]

variable {maxes : List UInt8}

/-- **The run over the maximal characters behind position `front.length`.** -/
theorem incrementLoop_maxes (front : List UInt8) (y : UInt8) (h : ∀ ch ∈ maxes, IsMax ch)
    (back : List UInt8) (carry : Bool) (last : Option CharClass) :
    ∃ carry' last', incrementLoop ⟨front ++ y :: (maxes ++ back), carry, last⟩
        (front.length + maxes.length) =
      incrementLoop ⟨front ++ y :: (maxes.map minChar ++ back), carry', last'⟩ front.length := by
  induction maxes using reverseRecOn generalizing back carry last with
  | nil => exact ⟨carry, last, rfl⟩
  | append_singleton maxes ch ih =>
    rw [forall_mem_append, forall_mem_singleton] at h
    rcases eq_nil_or_concat' maxes with rfl | ⟨inner, z, rfl⟩
    · obtain ⟨last', hsp⟩ := incrementLoop_max h.2 front back y carry last
      exact ⟨true, last', by simpa using hsp⟩
    obtain ⟨last', hsp⟩ := incrementLoop_max h.2 (front ++ y :: inner) back z carry last
    obtain ⟨carry'', last'', hr⟩ := ih h.1 (minChar ch :: back) true last'
    refine ⟨carry'', last'', ?_⟩
    simp only [append_assoc, cons_append, nil_append, length_append,
      length_cons, length_nil, map_append, map_cons, map_nil] at hsp hr ⊢
    rw [show front.length + (inner.length + 1 + 1) = front.length + (inner.length + 1) + 1 by omega,
      hsp, hr]

variable {y : UInt8}

/-- At the front the carry is left. -/
lemma incrementLoop_first (hc : charClass y = some c) (hm : y = c.max) (back : List UInt8)
    (carry : Bool) (last : Option CharClass) :
    incrementLoop ⟨y :: back, carry, last⟩ 0 = ⟨minChar y :: back, true, some c⟩ := by
  rw [incrementLoop]
  simp [hc, if_pos hm, minChar]

/-- Any other letter or digit takes the carry. -/
lemma incrementLoop_stop (hc : charClass y = some c) (hm : y ≠ c.max) (front back : List UInt8)
    (carry : Bool) (last : Option CharClass) :
    incrementLoop ⟨front ++ y :: back, carry, last⟩ front.length =
      ⟨front ++ (y + 1) :: back, false, some c⟩ := by
  rw [incrementLoop]
  simp [hc, if_neg hm, set_cons_zero]

/-- A byte of no class swallows the carry. -/
lemma incrementLoop_break (hy : ¬ IsAlnum y) (front back : List UInt8) (carry : Bool)
    (last : Option CharClass) :
    incrementLoop ⟨front ++ y :: back, carry, last⟩ front.length =
      ⟨front ++ y :: back, false, last⟩ := by
  have hg : (front ++ y :: back).getD front.length 0 = y := by simp
  have hc : charClass y = none := Option.not_isSome_iff_eq_none.mp hy
  rw [incrementLoop]
  simp only [hg, hc]

/-! ## The function -/

/-- The loop of the function, up to the last character that is not maximal. -/
lemma incrementString_split (front : List UInt8) (y : UInt8) (h : ∀ ch ∈ maxes, IsMax ch) :
    ∃ carry last, incrementLoop ⟨front ++ y :: maxes, false, none⟩
        ((front ++ y :: maxes).length - 1) =
      incrementLoop ⟨front ++ y :: maxes.map minChar, carry, last⟩ front.length := by
  have hp : (front ++ y :: maxes).length - 1 = front.length + maxes.length := by
    simp only [length_append, length_cons]
    omega
  obtain ⟨carry, last, hr⟩ := incrementLoop_maxes front y h [] false none
  rw [append_nil, append_nil] at hr
  exact ⟨carry, last, by rw [hp, hr]⟩

/-- The carry stops inside the text. -/
lemma incrementString_of_alnum (front : List UInt8) (hc : charClass y = some c) (hm : y ≠ c.max)
    (h : ∀ ch ∈ maxes, IsMax ch) :
    incrementString (front ++ y :: maxes) = front ++ (y + 1) :: maxes.map minChar := by
  obtain ⟨carry, last, hr⟩ := incrementString_split front y h
  rw [incrementLoop_stop hc hm] at hr
  rw [incrementString, if_neg (by simp)]
  simp only [hr, Bool.false_eq_true, if_false]

/-- The carry is lost. -/
lemma incrementString_of_not_alnum (front : List UInt8) (hy : ¬ IsAlnum y)
    (h : ∀ ch ∈ maxes, IsMax ch) :
    incrementString (front ++ y :: maxes) = front ++ y :: maxes.map minChar := by
  obtain ⟨carry, last, hr⟩ := incrementString_split front y h
  rw [incrementLoop_break hy] at hr
  rw [incrementString, if_neg (by simp)]
  simp only [hr, Bool.false_eq_true, if_false]

/-- The text grows by the class of its first byte. -/
lemma incrementString_of_maxes (hc : charClass y = some c) (hm : y = c.max)
    (h : ∀ ch ∈ maxes, IsMax ch) :
    incrementString (y :: maxes) = c.lead :: (y :: maxes).map minChar := by
  obtain ⟨carry, last, hr⟩ := incrementString_split [] y h
  simp only [nil_append, length_nil] at hr
  rw [incrementLoop_first hc hm] at hr
  rw [incrementString, if_neg (by simp)]
  simp only [hr, if_true, map_cons]

/-- An alphanumeric part that is not all maximal, behind anything: its value grows by one. -/
lemma incrementString_succ (front : List UInt8) (hs : ∀ ch ∈ s, IsAlnum ch)
    (hmx : ¬ ∀ ch ∈ s, IsMax ch) :
    ∃ s', incrementString (front ++ s) = front ++ s' ∧ pattern s' = pattern s ∧
      radixValue (digits s') = radixValue (digits s) + 1 := by
  obtain ha | ⟨inner, y, maxes, rfl, hy, hm⟩ := all_or_last_not IsMax s
  · exact absurd ha hmx
  obtain ⟨c, hc⟩ := Option.isSome_iff_exists.mp (hs y (by simp))
  have hne : y ≠ c.max := fun heq => hy ⟨c, hc, heq⟩
  obtain ⟨hz, hr⟩ := digits_minChar fun ch hch => (hm ch hch).isAlnum
  refine ⟨inner ++ (y + 1) :: maxes.map minChar, ?_, ?_, ?_⟩
  · have hi := incrementString_of_alnum (front ++ inner) hc hne hm
    simpa only [append_assoc] using hi
  · simp [pattern_cons, (charClass_succ hc hne).1, hc]
  · have hcr := radixValue_carry (digits inner) c.radix (y.toNat - c.min.toNat)
      (digits_of_isMax hm) hz hr
    rw [← digit_succ hc hne, ← digit_of_class hc] at hcr
    simpa only [digits, map_append, map_cons] using hcr

/-- **The increment of a string.** Over `[a-zA-Z0-9]` the value grows by one in the same pattern,
and the maximal string grows by a leading character of the class of the old first one; behind a byte
of no class the alphanumeric suffix counts modulo its size, and the rest stays. -/
theorem incrementString_mixedRadix (s : List UInt8) :
    (s ≠ [] → (∀ ch ∈ s, IsAlnum ch) →
      ((¬ ∀ ch ∈ s, IsMax ch) → pattern (incrementString s) = pattern s ∧
        radixValue (digits (incrementString s)) = radixValue (digits s) + 1) ∧
      ((∀ ch ∈ s, IsMax ch) → ∃ c, s.head?.bind charClass = some c ∧
        incrementString s = c.lead :: s.map minChar)) ∧
    (∀ front b suffix, s = front ++ b :: suffix → ¬ IsAlnum b → (∀ ch ∈ suffix, IsAlnum ch) →
      ∃ suffix', incrementString s = front ++ b :: suffix' ∧ pattern suffix' = pattern suffix ∧
        radixValue (digits suffix') =
          (radixValue (digits suffix) + 1) % radixSize (digits suffix)) := by
  refine ⟨fun hne hs => ⟨fun hmx => ?_, fun hmx => ?_⟩, ?_⟩
  · obtain ⟨s', hi, hrs⟩ := incrementString_succ [] hs hmx
    rw [nil_append] at hi
    rw [hi]
    exact hrs
  · cases s with
    | nil => exact absurd rfl hne
    | cons y maxes =>
      rw [forall_mem_cons] at hmx
      obtain ⟨⟨c, hc, hy⟩, hm⟩ := hmx
      exact ⟨c, by simpa using hc, incrementString_of_maxes hc hy hm⟩
  rintro front b suffix rfl hb hsf
  by_cases hmx : ∀ ch ∈ suffix, IsMax ch
  · -- all characters behind the byte are maximal: the count starts again
    obtain ⟨hz, hr⟩ := digits_minChar hsf
    refine ⟨suffix.map minChar, incrementString_of_not_alnum front hb hmx,
      pattern_minChar suffix, ?_⟩
    rw [radixValue_of_zero hz, radixValue_of_max (digits_of_isMax hmx), Nat.mod_self]
  obtain ⟨suffix', hi, hp, hv⟩ := incrementString_succ (front ++ [b]) hsf hmx
  simp only [append_assoc] at hi
  refine ⟨suffix', hi, hp, ?_⟩
  have hlt := radixValue_digits_lt suffix'
  rw [radixSize_digits_congr hp, hv] at hlt
  rw [hv, Nat.mod_eq_of_lt hlt]

/-- `"Zz9"` and `"a-9"`. -/
theorem incrementString_mixedRadix_zz9 :
    incrementString [0x5a, 0x7a, 0x39] = [0x41, 0x41, 0x61, 0x30] ∧
      ∃ suffix', incrementString [0x61, 0x2d, 0x39] = [0x61, 0x2d] ++ suffix' ∧
        radixValue (digits suffix') = 0 := by
  have hb : ∀ ch ∈ [0x5a, 0x7a, 0x39], IsAlnum ch ∧ IsMax ch := by
    intro ch hch
    simp only [mem_cons, not_mem_nil, or_false] at hch
    rcases hch with rfl | rfl | rfl <;> decide
  obtain ⟨c, hc, hi⟩ := ((incrementString_mixedRadix _).1 (by decide) fun ch h => (hb ch h).1).2
    fun ch h => (hb ch h).2
  obtain ⟨suffix', hi', -, hv⟩ := (incrementString_mixedRadix [0x61, 0x2d, 0x39]).2 [0x61] 0x2d
    [0x39] rfl (by decide) (forall_mem_singleton.mpr (by decide))
  obtain rfl : CharClass.upperCase = c := Option.some.inj hc
  exact ⟨hi, suffix', hi', hv⟩

end PhpInternals.Zend.ZendOperators

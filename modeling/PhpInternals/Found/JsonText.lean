import PhpInternals.Found.FloatText
import PhpInternals.Found.Utf8

/-!
# The texts of JSON

The grammar of RFC 7159 over octets: which sequences are a number, a string, a value. White space
stands where the grammar allows it, and characters that are not escaped are well-formed UTF-8.
-/

namespace PhpInternals.Found

/-- The octets of an ASCII text. -/
def ascii (s : String) : List UInt8 := s.toList.map fun c => UInt8.ofNat c.toNat

/-! ## Tokens -/

/-- `ws`. -/
def IsWs (w : List UInt8) : Prop := ∀ b ∈ w, b = 0x20 ∨ b = 0x09 ∨ b = 0x0a ∨ b = 0x0d

/-- `int = zero / ( digit1-9 *DIGIT )`. -/
def IsIntPart (n : List UInt8) : Prop := n = [0x30] ∨ IsDigits n ∧ n.head? ≠ some 0x30

/-- `[ frac ]`. -/
def IsFrac (f : List UInt8) : Prop := f = [] ∨ ∃ ds, IsDigits ds ∧ f = 0x2e :: ds

/-- `number = [ minus ] int [ frac ] [ exp ]`. -/
def IsNumber (n : List UInt8) : Prop :=
  ∃ minus int frac exp, (minus = [] ∨ minus = [0x2d]) ∧ IsIntPart int ∧ IsFrac frac ∧ IsExp exp ∧
    n = minus ++ int ++ frac ++ exp

/-- `HEXDIG`, of both cases. -/
def IsHex (b : UInt8) : Prop :=
  IsDigit b ∨ 0x41 ≤ b.toNat ∧ b.toNat ≤ 0x46 ∨ 0x61 ≤ b.toNat ∧ b.toNat ≤ 0x66

instance : DecidablePred IsHex := fun _ => inferInstanceAs (Decidable (_ ∨ _))

/-- `*char`. -/
inductive IsChars : List UInt8 → Prop where
  | nil : IsChars []
  | unescaped {v : ℕ} {bs cs : List UInt8} (hchar : Utf8Char v bs) (hctrl : 0x20 ≤ v)
      (hquote : v ≠ 0x22) (hbackslash : v ≠ 0x5c) (hcs : IsChars cs) : IsChars (bs ++ cs)
  | escape {b : UInt8} {cs : List UInt8} (hb : b ∈ ascii "\"\\/bfnrt") (hcs : IsChars cs) :
      IsChars (0x5c :: b :: cs)
  | unicode {a b c d : UInt8} {cs : List UInt8} (ha : IsHex a) (hb : IsHex b) (hc : IsHex c)
      (hd : IsHex d) (hcs : IsChars cs) : IsChars (0x5c :: 0x75 :: a :: b :: c :: d :: cs)

/-- `string = quotation-mark *char quotation-mark`. -/
def IsString (s : List UInt8) : Prop := ∃ cs, IsChars cs ∧ s = 0x22 :: (cs ++ [0x22])

/-! ## Values -/

mutual

/-- `value`. -/
inductive IsJson : List UInt8 → Prop where
  | null : IsJson (ascii "null")
  | true : IsJson (ascii "true")
  | false : IsJson (ascii "false")
  | number {n : List UInt8} (hn : IsNumber n) : IsJson n
  | string {s : List UInt8} (hs : IsString s) : IsJson s
  | emptyArray {w : List UInt8} (hw : IsWs w) : IsJson (0x5b :: (w ++ [0x5d]))
  | array {w es w' : List UInt8} (hw : IsWs w) (hes : IsElements es) (hw' : IsWs w') :
      IsJson (0x5b :: (w ++ es ++ w' ++ [0x5d]))
  | emptyObject {w : List UInt8} (hw : IsWs w) : IsJson (0x7b :: (w ++ [0x7d]))
  | object {w ms w' : List UInt8} (hw : IsWs w) (hms : IsMembers ms) (hw' : IsWs w') :
      IsJson (0x7b :: (w ++ ms ++ w' ++ [0x7d]))

/-- `value *( value-separator value )`. -/
inductive IsElements : List UInt8 → Prop where
  | one {v : List UInt8} (hv : IsJson v) : IsElements v
  | more {es w w' v : List UInt8} (hes : IsElements es) (hw : IsWs w) (hw' : IsWs w')
      (hv : IsJson v) : IsElements (es ++ w ++ 0x2c :: (w' ++ v))

/-- `member *( value-separator member )`. -/
inductive IsMembers : List UInt8 → Prop where
  | one {s w w' v : List UInt8} (hs : IsString s) (hw : IsWs w) (hw' : IsWs w') (hv : IsJson v) :
      IsMembers (s ++ w ++ 0x3a :: (w' ++ v))
  | more {ms u u' s w w' v : List UInt8} (hms : IsMembers ms) (hu : IsWs u) (hu' : IsWs u')
      (hs : IsString s) (hw : IsWs w) (hw' : IsWs w') (hv : IsJson v) :
      IsMembers (ms ++ u ++ 0x2c :: (u' ++ (s ++ w ++ 0x3a :: (w' ++ v))))

end

lemma IsJson.ne_nil {v : List UInt8} (h : IsJson v) : v ≠ [] := by
  cases h with
  | number hn =>
    obtain ⟨minus, int, frac, exp, -, hi, -, -, rfl⟩ := hn
    have hne : int ≠ [] := by
      rcases hi with rfl | ⟨⟨hne, -⟩, -⟩
      · exact List.cons_ne_nil _ _
      · exact hne
    simp [hne]
  | string hs =>
    obtain ⟨cs, -, rfl⟩ := hs
    exact List.cons_ne_nil _ _
  | _ => exact List.cons_ne_nil _ _

/-! ## White space, strings and numbers -/

lemma isWs_nil : IsWs [] := nofun

lemma IsChars.append {cs cs' : List UInt8} (h : IsChars cs) (h' : IsChars cs') :
    IsChars (cs ++ cs') := by
  induction h with
  | nil => exact h'
  | unescaped hch hct hq hbc _ ih =>
    rw [List.append_assoc]
    exact .unescaped hch hct hq hbc ih
  | escape hb _ ih => exact .escape hb ih
  | unicode ha hb hc hd _ ih => exact .unicode ha hb hc hd ih

/-! ## Decimal text -/

lemma isIntPart_natDecimal (n : ℕ) : IsIntPart (natDecimal n) := by
  rcases eq_or_ne n 0 with rfl | hn
  · exact .inl rfl
  · exact .inr ⟨isDigits_natDecimal n, head_natDecimal hn⟩

lemma isNumber_intDecimal (n : ℤ) : IsNumber (intDecimal n) := by
  refine ⟨if n < 0 then [0x2d] else [], _, [], [], ?_, isIntPart_natDecimal n.natAbs, .inl rfl,
    .inl rfl, by simp [intDecimal]⟩
  split_ifs
  · exact .inr rfl
  · exact .inl rfl

end PhpInternals.Found

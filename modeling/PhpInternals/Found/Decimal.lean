import Mathlib.Data.Nat.Digits.Lemmas
import Mathlib.Tactic

/-!
# Decimal text

Numbers written with the digits `0` to `9`, as octets, the most significant one first.
-/

namespace PhpInternals.Found

open Nat List

/-! ## Digits -/

/-- `DIGIT`. -/
def IsDigit (b : UInt8) : Prop := 0x30 ≤ b.toNat ∧ b.toNat ≤ 0x39

instance : DecidablePred IsDigit := fun _ => inferInstanceAs (Decidable (_ ∧ _))

/-- `1*DIGIT`. -/
def IsDigits (ds : List UInt8) : Prop := ds ≠ [] ∧ ∀ b ∈ ds, IsDigit b

-- over the bytes of the list, not over all bytes
instance : DecidablePred IsDigits := fun ds =>
  decidable_of_iff (ds ≠ [] ∧ ds.all fun b => decide (IsDigit b)) (by simp [IsDigits])

/-- Digits without a superfluous zero in front. -/
def IsCanonical (ds : List UInt8) : Prop := IsDigits ds ∧ (ds.head? = some 0x30 → ds = [0x30])

/-- The decimal text of a natural number. -/
def natDecimal (n : ℕ) : List UInt8 :=
  if n = 0 then [0x30] else (digits 10 n).reverse.map fun d => UInt8.ofNat (0x30 + d)

/-- The decimal text of an integer. -/
def intDecimal (n : ℤ) : List UInt8 :=
  (if n < 0 then [0x2d] else []) ++ natDecimal n.natAbs

lemma toNat_digit {d : ℕ} (hd : d < 10) : (UInt8.ofNat (0x30 + d)).toNat = 0x30 + d := by
  rw [UInt8.toNat_ofNat']
  omega

lemma isDigits_natDecimal (n : ℕ) : IsDigits (natDecimal n) := by
  unfold natDecimal
  split_ifs with hn
  · refine ⟨cons_ne_nil _ _, fun b hb => ?_⟩
    rw [mem_singleton.mp hb]
    exact ⟨le_refl _, by decide⟩
  · refine ⟨by simpa [digits_ne_nil_iff_ne_zero] using hn, fun b hb => ?_⟩
    obtain ⟨d, hd, rfl⟩ := mem_map.mp hb
    have hlt : d < 10 := digits_lt_base (by norm_num) (mem_reverse.mp hd)
    rw [IsDigit, toNat_digit hlt]
    omega

variable {n : ℕ}

lemma head_natDecimal (hn : n ≠ 0) : (natDecimal n).head? ≠ some 0x30 := by
  intro hh
  rw [natDecimal, if_neg hn, head?_map, head?_reverse, Option.map_eq_some_iff] at hh
  obtain ⟨d, hd, heq⟩ := hh
  have hne : digits 10 n ≠ [] := digits_ne_nil_iff_ne_zero.mpr hn
  rw [getLast?_eq_getLast_of_ne_nil hne, Option.some.injEq] at hd
  have hp : d ≠ 0 := hd ▸ getLast_digit_ne_zero 10 hn
  have hlt : d < 10 := digits_lt_base (by norm_num) (hd ▸ getLast_mem hne)
  have hv := toNat_digit hlt
  rw [heq] at hv
  have h30 : (0x30 : UInt8).toNat = 0x30 := rfl
  omega

lemma isCanonical_natDecimal (n : ℕ) : IsCanonical (natDecimal n) := by
  refine ⟨isDigits_natDecimal n, fun hh => ?_⟩
  rcases eq_or_ne n 0 with rfl | hn
  · rfl
  · exact absurd hh (head_natDecimal hn)

lemma natDecimal_eq (hn : 10 ≤ n) :
    natDecimal n = natDecimal (n / 10) ++ [UInt8.ofNat (0x30 + n % 10)] := by
  rw [natDecimal, if_neg (by omega), natDecimal, if_neg (by omega),
    digits_def' (by norm_num) (by omega), reverse_cons, map_append, map_singleton]

lemma natDecimal_of_lt (hn : n < 10) : natDecimal n = [UInt8.ofNat (0x30 + n)] := by
  rcases eq_or_ne n 0 with rfl | hne
  · rfl
  · rw [natDecimal, if_neg hne, digits_of_lt 10 n hne hn, reverse_singleton, map_singleton]

/-! ## The value of a text -/

/-- The value of digits behind a number that was read already. -/
def decimalFrom (v : ℕ) (ds : List UInt8) : ℕ := ds.foldl (fun v b => v * 10 + (b.toNat - 0x30)) v

/-- The value of digits. -/
def decimalValue (ds : List UInt8) : ℕ := decimalFrom 0 ds

@[simp] lemma decimalFrom_nil (v : ℕ) : decimalFrom v [] = v := rfl

@[simp] lemma decimalFrom_cons (v : ℕ) (b : UInt8) (ds : List UInt8) :
    decimalFrom v (b :: ds) = decimalFrom (v * 10 + (b.toNat - 0x30)) ds := by
  rw [decimalFrom, foldl_cons, decimalFrom]

lemma decimalFrom_append (v : ℕ) (ds es : List UInt8) :
    decimalFrom v (ds ++ es) = decimalFrom (decimalFrom v ds) es := foldl_append

lemma decimalFrom_eq (v : ℕ) (ds : List UInt8) :
    decimalFrom v ds = v * 10 ^ ds.length + decimalValue ds := by
  induction ds using reverseRecOn generalizing v with
  | nil => simp [decimalValue]
  | append_singleton ds d ih =>
    simp only [decimalValue, decimalFrom_append, decimalFrom_cons, decimalFrom_nil,
      length_append, length_singleton]
    rw [ih v, decimalValue]
    ring

lemma decimalValue_cons (b : UInt8) (ds : List UInt8) :
    decimalValue (b :: ds) = (b.toNat - 0x30) * 10 ^ ds.length + decimalValue ds := by
  rw [decimalValue, decimalFrom_cons, zero_mul, zero_add, decimalFrom_eq]

lemma decimalValue_zeros_append {zs : List UInt8} (hzs : ∀ b ∈ zs, b = 0x30) (ds : List UInt8) :
    decimalValue (zs ++ ds) = decimalValue ds := by
  induction zs with
  | nil => rfl
  | cons z zs ih =>
    rw [forall_mem_cons] at hzs
    rw [cons_append, decimalValue_cons, hzs.1, ih hzs.2]
    change 0 * _ + _ = _
    rw [zero_mul, zero_add]

variable {ds : List UInt8}

lemma decimalValue_lt (h : ∀ b ∈ ds, IsDigit b) : decimalValue ds < 10 ^ ds.length := by
  induction ds with
  | nil => exact one_pos
  | cons b ds ih =>
    rw [forall_mem_cons] at h
    have hds := ih h.2
    have hb : b.toNat - 0x30 ≤ 9 := by
      have := h.1.2
      omega
    rw [decimalValue_cons, length_cons, pow_succ]
    nlinarith

/-- Without a leading zero the length bounds the value from below. -/
lemma IsCanonical.pow_le (h : IsCanonical ds) (hne : ds ≠ [0x30]) :
    10 ^ (ds.length - 1) ≤ decimalValue ds := by
  obtain ⟨⟨hn, hdg⟩, hhd⟩ := h
  cases ds with
  | nil => exact absurd rfl hn
  | cons b ds =>
    have hb : b ≠ 0x30 := by
      rintro rfl
      exact hne (hhd rfl)
    have hl := (hdg b mem_cons_self).1
    have hp : 1 ≤ b.toNat - 0x30 := by
      have hnt : b.toNat ≠ 0x30 := fun heq => hb (UInt8.toNat_inj.mp heq)
      omega
    rw [decimalValue_cons, length_cons, Nat.add_sub_cancel]
    nlinarith [Nat.pos_of_ne_zero (pow_ne_zero ds.length (show (10 : ℕ) ≠ 0 by norm_num))]

/-- **Reading gives back what was written.** -/
lemma decimalValue_natDecimal (n : ℕ) : decimalValue (natDecimal n) = n := by
  induction n using Nat.strong_induction_on with
  | _ n ih =>
    rcases lt_or_ge n 10 with hlt | hge
    · rw [natDecimal_of_lt hlt, decimalValue, decimalFrom_cons, decimalFrom_nil, toNat_digit hlt]
      omega
    · rw [natDecimal_eq hge, decimalValue, decimalFrom_append, ← decimalValue,
        ih (n / 10) (by omega),
        decimalFrom_cons, decimalFrom_nil, toNat_digit (by omega)]
      omega

lemma length_natDecimal_le {k : ℕ} (hk : 1 ≤ k) (hn : n < 10 ^ k) : (natDecimal n).length ≤ k := by
  by_contra hl
  have hne : natDecimal n ≠ [0x30] := by
    intro heq
    rw [heq, length_singleton] at hl
    omega
  have hp := (isCanonical_natDecimal n).pow_le hne
  rw [decimalValue_natDecimal] at hp
  have hm : 10 ^ k ≤ 10 ^ ((natDecimal n).length - 1) :=
    Nat.pow_le_pow_right (by norm_num) (by omega)
  omega

lemma length_natDecimal_mono {m : ℕ} (h : m ≤ n) :
    (natDecimal m).length ≤ (natDecimal n).length := by
  obtain ⟨hne, hd⟩ := isDigits_natDecimal n
  have hn := decimalValue_lt hd
  rw [decimalValue_natDecimal] at hn
  exact length_natDecimal_le (length_pos_of_ne_nil hne) (h.trans_lt hn)

/-- **And writing what was read**, if it was canonical. -/
lemma natDecimal_decimalValue (h : IsCanonical ds) : natDecimal (decimalValue ds) = ds := by
  induction ds using reverseRecOn with
  | nil => exact absurd rfl h.1.1
  | append_singleton ds d ih =>
    have hd : IsDigit d := h.1.2 d (by simp)
    have hdg : UInt8.ofNat (0x30 + (d.toNat - 0x30)) = d := by
      rw [Nat.add_sub_cancel' hd.1, UInt8.ofNat_toNat]
    have hl : d.toNat - 0x30 < 10 := by
      have := hd.2
      omega
    rcases eq_or_ne ds [] with rfl | hne
    · rw [nil_append, decimalValue, decimalFrom_cons, decimalFrom_nil, zero_mul, zero_add,
        natDecimal_of_lt hl, hdg]
    have hhe : ds.head? ≠ some 0x30 := by
      intro hz
      have ha := h.2 (by rw [head?_append_of_ne_nil _ hne, hz])
      have hln := congrArg length ha
      simp only [length_append, length_singleton] at hln
      exact hne (length_eq_zero_iff.mp (by omega))
    have hc : IsCanonical ds :=
      ⟨⟨hne, fun b hb => h.1.2 b (mem_append_left _ hb)⟩, fun hz => absurd hz hhe⟩
    have hps : 1 ≤ decimalValue ds := by
      have hp := hc.pow_le fun heq => hhe (by rw [heq, head?_cons])
      exact le_trans (one_le_pow _ _ (by norm_num)) hp
    have hv : decimalValue (ds ++ [d]) = decimalValue ds * 10 + (d.toNat - 0x30) := by
      rw [decimalValue, decimalFrom_append, decimalFrom_cons, decimalFrom_nil, ← decimalValue]
    rw [hv, natDecimal_eq (by omega), show (decimalValue ds * 10 + (d.toNat - 0x30)) / 10 =
      decimalValue ds by omega, ih hc, show (decimalValue ds * 10 + (d.toNat - 0x30)) % 10 =
      d.toNat - 0x30 by omega, hdg]

end PhpInternals.Found

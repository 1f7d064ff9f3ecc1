import PhpInternals.Found.Decimal

/-!
# Comparing strings of C

Digits of one length compare as the numbers they denote.
-/

namespace PhpInternals.Found

open Nat List

/-- The sign of `strcmp`. A string is the bytes from its start on; it ends at the first NUL, or with
the list. -/
def strcmp : List UInt8 → List UInt8 → ℤ
  | [], [] => 0
  | [], b :: _ => if b = 0 then 0 else -1
  | a :: _, [] => if a = 0 then 0 else 1
  | a :: s, b :: t => if a < b then -1 else if b < a then 1 else if a = 0 then 0 else strcmp s t

lemma strcmp_nil_right (s : List UInt8) : strcmp s [] = if s.headD 0 = 0 then 0 else 1 := by
  cases s <;> rfl

/-- **Digits of one length compare by value**, and what stands behind them decides when the values
are equal. -/
theorem strcmp_digits {ds es : List UInt8} (hds : ∀ b ∈ ds, IsDigit b) (hes : ∀ b ∈ es, IsDigit b)
    (hl : ds.length = es.length) (s t : List UInt8) :
    strcmp (ds ++ s) (es ++ t) =
      if decimalValue ds < decimalValue es then -1
      else if decimalValue es < decimalValue ds then 1 else strcmp s t := by
  induction ds generalizing es with
  | nil =>
    obtain rfl : es = [] := length_eq_zero_iff.mp hl.symm
    simp
  | cons d ds ih =>
    obtain ⟨e, es, rfl⟩ : ∃ e es', es = e :: es' := by
      cases es with
      | nil => simp at hl
      | cons e es => exact ⟨e, es, rfl⟩
    rw [length_cons, length_cons, add_right_cancel_iff] at hl
    rw [forall_mem_cons] at hds hes
    have hd := hds.1
    have he := hes.1
    have hlw := decimalValue_lt hds.2
    have hh := decimalValue_lt hes.2
    have hne : d ≠ 0 := by
      rintro rfl
      exact absurd hd (by decide)
    rw [hl] at hlw
    rw [cons_append, cons_append, strcmp, if_neg hne, ih hds.2 hes.2 hl,
      decimalValue_cons, decimalValue_cons, hl]
    simp only [UInt8.lt_iff_toNat_lt]
    obtain ⟨hd0, -⟩ := hd
    obtain ⟨he0, -⟩ := he
    -- the first digits decide, unless they are the same
    rcases lt_trichotomy d.toNat e.toNat with hlt | heq | hgt
    · have hm : (d.toNat - 0x30 + 1) * 10 ^ es.length ≤ (e.toNat - 0x30) * 10 ^ es.length :=
        mul_le_mul_right _ (by omega)
      rw [add_mul] at hm
      rw [if_pos hlt, if_pos (by omega)]
    · rw [if_neg (by omega), heq]
      split_ifs <;> omega
    · have hm : (e.toNat - 0x30 + 1) * 10 ^ es.length ≤ (d.toNat - 0x30) * 10 ^ es.length :=
        mul_le_mul_right _ (by omega)
      rw [add_mul] at hm
      rw [if_neg (by omega), if_pos hgt, if_neg (by omega), if_pos (by omega)]

/-! ## Memory -/

/-- The sign of `memcmp` over the shorter of two lengths. -/
def memcmp : List UInt8 → List UInt8 → ℤ
  | a :: s, b :: t => if a < b then -1 else if b < a then 1 else memcmp s t
  | _, _ => 0

lemma memcmp_eq_strcmp {s t : List UInt8} (hl : s.length = t.length) (hs : ∀ b ∈ s, b ≠ 0) :
    memcmp s t = strcmp s t := by
  induction s generalizing t with
  | nil =>
    obtain rfl : t = [] := length_eq_zero_iff.mp hl.symm
    rfl
  | cons a s ih =>
    cases t with
    | nil => simp at hl
    | cons b t =>
      rw [forall_mem_cons] at hs
      rw [memcmp, strcmp, if_neg hs.1, ih (by simpa using hl) hs.2]

lemma memcmp_digits {ds es : List UInt8} (hds : ∀ b ∈ ds, IsDigit b) (hes : ∀ b ∈ es, IsDigit b)
    (hl : ds.length = es.length) :
    memcmp ds es = ((decimalValue ds : ℤ) - decimalValue es).sign := by
  have hn : ∀ b ∈ ds, b ≠ 0 := by
    rintro b hb rfl
    exact absurd (hds 0 hb) (by decide)
  have hc := strcmp_digits hds hes hl [] []
  rw [append_nil, append_nil] at hc
  rw [memcmp_eq_strcmp hl hn, hc]
  rcases lt_trichotomy (decimalValue ds) (decimalValue es) with hlt | heq | hgt
  · rw [if_pos hlt, Int.sign_eq_neg_one_of_neg (by omega)]
  · rw [heq, if_neg (by omega), if_neg (by omega), Int.sub_self]
    rfl
  · rw [if_neg (by omega), if_pos hgt, Int.sign_eq_one_of_pos (by omega)]

/-- Only the bytes that both have are compared. -/
lemma memcmp_take (s t : List UInt8) : memcmp (s.take (min s.length t.length))
    (t.take (min s.length t.length)) = memcmp s t := by
  induction s generalizing t with
  | nil => cases t <;> simp [memcmp]
  | cons a s ih =>
    cases t with
    | nil => simp [memcmp]
    | cons b t =>
      rw [length_cons, length_cons, Nat.add_min_add_right, take_succ_cons, take_succ_cons,
        memcmp, ih, memcmp]

lemma memcmp_self (s : List UInt8) : memcmp s s = 0 := by
  induction s with
  | nil => rfl
  | cons a s ih => simp [memcmp, ih]

lemma memcmp_swap (s t : List UInt8) : memcmp t s = -memcmp s t := by
  induction s generalizing t with
  | nil => cases t <;> rfl
  | cons a s ih =>
    cases t with
    | nil => rfl
    | cons b t =>
      rw [memcmp, memcmp, ih]
      simp only [UInt8.lt_iff_toNat_lt]
      split_ifs <;> omega

lemma eq_of_memcmp {s t : List UInt8} (hl : s.length = t.length) (h : memcmp s t = 0) : s = t := by
  induction s generalizing t with
  | nil => exact (length_eq_zero_iff.mp hl.symm).symm
  | cons a s ih =>
    cases t with
    | nil => simp at hl
    | cons b t =>
      rw [memcmp] at h
      split_ifs at h with hlt hgt
      · exact absurd h (by decide)
      · rw [UInt8.lt_iff_toNat_lt] at hlt hgt
        have hab : a = b := UInt8.toNat_inj.mp (by omega)
        rw [hab, ih (by simpa using hl) h]

end PhpInternals.Found

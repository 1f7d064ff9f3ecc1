import PhpInternals.Found.Loop
import PhpInternals.Found.Substring

/-!
# Searching a string

Embedding of `zend_memnstr`, `zend_memnrstr` (`Zend/zend_operators.h`) and of the Sunday searches
`zend_memnstr_ex`, `zend_memnrstr_ex` (`Zend/zend_operators.c`). A pointer into the haystack is its
distance from `haystack`; the result `none` is `NULL`. A read outside `[haystack, end)` is the error
`outOfRange`, also for the bytes that `memchr` and `memcmp` are given and need not look at.

The shifts of the Sunday searches are kept in 32 bits: the table of a needle of more than `2 ^ 31`
bytes can lead over an occurrence or to the same window again.
-/

namespace PhpInternals.Zend.ZendOperators

open Function Int Option PhpInternals.Found
open List (length_pos_iff_ne_nil replicate)

/-! ## Reading -/

/-- How a search can fail to return. -/
inductive SearchError where
  /-- A byte outside `[haystack, end)` is read. -/
  | outOfRange
  /-- The loop does not end. -/
  | stuck
  deriving DecidableEq, Repr

/-- The byte at `p`. -/
def byteAt (haystack : List UInt8) (p : ℤ) : Except SearchError UInt8 :=
  if 0 ≤ p then
    match haystack[p.toNat]? with
    | some b => .ok b
    | none => .error .outOfRange
  else .error .outOfRange

/-- The `n` bytes from `p` on. -/
def bytesAt (haystack : List UInt8) (p : ℤ) (n : ℕ) : Except SearchError (List UInt8) :=
  if 0 ≤ p ∧ p + n ≤ haystack.length then .ok ((haystack.drop p.toNat).take n)
  else .error .outOfRange

/-- The first `c` among the `n` bytes at `p`. -/
def memchr (haystack : List UInt8) (p : ℤ) (c : UInt8) (n : ℕ) : Except SearchError (Option ℤ) := do
  let bytes ← bytesAt haystack p n
  pure ((bytes.findIdx? (· == c)).map fun k => p + k)

/-- `zend_memrchr(haystack, c, n)`. -/
def zendMemrchr (haystack : List UInt8) (c : UInt8) : ℕ → Except SearchError (Option ℤ)
  | 0 => .ok none
  | n + 1 => do
    let b ← byteAt haystack n
    if b = c then pure (some n) else zendMemrchr haystack c n

/-- `ne == p[needle_len-1]`, and then `!memcmp(needle, p, needle_len-1)`. Source: `zend_memnstr`,
`zend_memnrstr`. -/
def checkAt (haystack needle : List UInt8) (p : ℤ) : Except SearchError Bool := do
  let e ← byteAt haystack (p + (needle.length - 1 : ℕ))
  if needle.getD (needle.length - 1) 0 = e then
    let bytes ← bytesAt haystack p (needle.length - 1)
    pure (needle.take (needle.length - 1) == bytes)
  else pure false

/-- The comparison loop of the Sunday searches, over the bytes of the needle. Source:
`zend_memnstr_ex`, `zend_memnrstr_ex`. -/
def matchLoop (haystack : List UInt8) : List UInt8 → ℤ → Except SearchError Bool
  | [], _ => .ok true
  | b :: needle, p => do
    let c ← byteAt haystack p
    if b ≠ c then pure false else matchLoop haystack needle (p + 1)

/-! ## The searches with `memchr` -/

/-- A round of the loop around `memchr`; the left side returns. Source: `zend_memnstr`. -/
def memchrRound (haystack needle : List UInt8) (p : ℤ) : Except SearchError (Option ℤ ⊕ ℤ) :=
  let last : ℤ := haystack.length - needle.length
  if p ≤ last then do
    match ← memchr haystack p (needle.getD 0 0) (last - p + 1).toNat with
    | none => pure (.inl none)
    | some q => if ← checkAt haystack needle q then pure (.inl (some q)) else pure (.inr (q + 1))
  else .ok (.inl none)

/-- The loop around `memchr`. Source: `zend_memnstr`. -/
def memchrSearch (haystack needle : List UInt8) : Except SearchError (Option ℤ) :=
  loopReturn .stuck (memchrRound haystack needle) (haystack.length + 2) 0

/-- A round of the loop around `zend_memrchr`. When it finds nothing, `p` is `NULL`, which is below
`haystack`; otherwise the loop goes on one before what it found. Source: `zend_memnrstr`. -/
def memrchrRound (haystack needle : List UInt8) (p : ℤ) : Except SearchError (Option ℤ ⊕ ℤ) := do
  match ← zendMemrchr haystack (needle.getD 0 0) (p + 1).toNat with
  | none => pure (.inl none)
  | some q =>
    if ← checkAt haystack needle q then pure (.inl (some q))
    else if 0 ≤ q then pure (.inr (q - 1)) else pure (.inl none)

/-- The loop around `zend_memrchr`, for a needle that is not longer than the haystack. Source:
`zend_memnrstr`. -/
def memrchrSearch (haystack needle : List UInt8) : Except SearchError (Option ℤ) :=
  loopReturn .stuck (memrchrRound haystack needle) (haystack.length + 2)
    (haystack.length - needle.length)

/-! ## The Sunday searches -/

/-- The loop of `zend_memnstr_ex_pre` for a search from the front: `td[needle[i]] = (int)needle_len
- i`, computed in `size_t` and stored in an `unsigned int`. -/
def preForward (needleLen : ℕ) : List UInt8 → ℕ → (UInt8 → ℕ) → UInt8 → ℕ
  | [], _, td => td
  | b :: needle, i, td =>
    preForward needleLen needle (i + 1)
      (update td b ((bmod needleLen (2 ^ 32) - i) % 2 ^ 64 % 2 ^ 32).toNat)

/-- The loop of `zend_memnstr_ex_pre` for a search from the back, from `i - 1` down. -/
def preReverse (needle : List UInt8) : ℕ → (UInt8 → ℕ) → UInt8 → ℕ
  | 0, td => td
  | i + 1, td => preReverse needle i (update td (needle.getD i 0) (i + 1))

/-- `zend_memnstr_ex_pre`. The `int i` of the search from the back starts at `needle_len - 1`. -/
def zendMemnstrExPre (needle : List UInt8) (reverse : Bool) : UInt8 → ℕ :=
  let td : UInt8 → ℕ := fun _ => (needle.length + 1) % 2 ^ 32
  if reverse then preReverse needle (bmod (needle.length - 1 : ℤ) (2 ^ 32) + 1).toNat td
  else preForward needle.length needle 0 td

/-- A round of `zend_memnstr_ex`. -/
def memnstrExRound (haystack needle : List UInt8) (td : UInt8 → ℕ) (p : ℤ) :
    Except SearchError (Option ℤ ⊕ ℤ) :=
  let last : ℤ := haystack.length - needle.length
  if p ≤ last then do
    if ← matchLoop haystack needle p then pure (.inl (some p))
    else if p = last then pure (.inl none)
    else
      let c ← byteAt haystack (p + needle.length)
      pure (.inr (p + td c))
  else .ok (.inl none)

/-- Source: `zend_memnstr_ex`. -/
def zendMemnstrEx (haystack needle : List UInt8) : Except SearchError (Option ℤ) :=
  if needle.length = 0 ∨ haystack.length = 0 then .ok none
  else
    loopReturn .stuck (memnstrExRound haystack needle (zendMemnstrExPre needle false))
      (haystack.length + 2) 0

/-- A round of `zend_memnrstr_ex`. -/
def memnrstrExRound (haystack needle : List UInt8) (td : UInt8 → ℕ) (p : ℤ) :
    Except SearchError (Option ℤ ⊕ ℤ) :=
  if 0 ≤ p then do
    if ← matchLoop haystack needle p then pure (.inl (some p))
    else if p = 0 then pure (.inl none)
    else
      let c ← byteAt haystack (p - 1)
      pure (.inr (p - td c))
  else .ok (.inl none)

/-- Source: `zend_memnrstr_ex`. -/
def zendMemnrstrEx (haystack needle : List UInt8) : Except SearchError (Option ℤ) :=
  if needle.length = 0 ∨ haystack.length = 0 then .ok none
  else
    loopReturn .stuck (memnrstrExRound haystack needle (zendMemnstrExPre needle true))
      (haystack.length + 2) (haystack.length - needle.length)

/-! ## The choice -/

/-- Source: `zend_memnstr` (`zend_operators.h`). -/
def zendMemnstr (haystack needle : List UInt8) : Except SearchError (Option ℤ) :=
  if needle.length = 1 then memchr haystack 0 (needle.getD 0 0) haystack.length
  else if haystack.length < needle.length then .ok none
  else if haystack.length < 1024 ∨ needle.length < 9 then memchrSearch haystack needle
  else zendMemnstrEx haystack needle

/-- Source: `zend_memnrstr` (`zend_operators.h`). -/
def zendMemnrstr (haystack needle : List UInt8) : Except SearchError (Option ℤ) :=
  if needle.length = 1 then zendMemrchr haystack (needle.getD 0 0) haystack.length
  else if haystack.length < needle.length then .ok none
  else if haystack.length < 1024 ∨ needle.length < 3 then memrchrSearch haystack needle
  else zendMemnrstrEx haystack needle

/-! ## What is read -/

variable {haystack needle : List UInt8} {p q : ℤ}

lemma byteAt_eq_ok {b : UInt8} (hp : 0 ≤ p) (h : haystack[p.toNat]? = some b) :
    byteAt haystack p = .ok b := by
  rw [byteAt, if_pos hp, h]

/-- Inside the haystack a byte can be read. -/
lemma exists_byteAt (haystack : List UInt8) (hp : 0 ≤ p) (hlt : p < haystack.length) :
    ∃ b, haystack[p.toNat]? = some b ∧ byteAt haystack p = .ok b := by
  have hb : p.toNat < haystack.length := by omega
  have hg := List.getElem?_eq_getElem hb
  exact ⟨haystack[p.toNat], hg, byteAt_eq_ok hp hg⟩

variable {n : ℕ}

lemma bytesAt_eq_ok (hp : 0 ≤ p) (hle : p + n ≤ haystack.length) :
    bytesAt haystack p n = .ok ((haystack.drop p.toNat).take n) := by
  rw [bytesAt, if_pos ⟨hp, hle⟩]

/-- What a search for a byte in `[low, high)` from the front returns. -/
def ByteFirst (haystack : List UInt8) (c : UInt8) (low high : ℤ) : Option ℤ → Prop
  | none => ∀ q, low ≤ q → q < high → haystack[q.toNat]? ≠ some c
  | some q => low ≤ q ∧ q < high ∧ haystack[q.toNat]? = some c ∧
      ∀ j, low ≤ j → j < q → haystack[j.toNat]? ≠ some c

/-- What a search for a byte in `[0, n)` from the back returns. -/
def ByteLast (haystack : List UInt8) (c : UInt8) (n : ℤ) : Option ℤ → Prop
  | none => ∀ q, 0 ≤ q → q < n → haystack[q.toNat]? ≠ some c
  | some q => 0 ≤ q ∧ q < n ∧ haystack[q.toNat]? = some c ∧
      ∀ j, q < j → j < n → haystack[j.toNat]? ≠ some c

/-- `memchr` inside the haystack finds the first such byte. -/
lemma memchr_spec (haystack : List UInt8) {c : UInt8} (hp : 0 ≤ p) (hle : p + n ≤ haystack.length) :
    ∃ r, memchr haystack p c n = .ok r ∧ ByteFirst haystack c p (p + n) r := by
  have hg : ∀ k : ℕ, k < n → ((haystack.drop p.toNat).take n)[k]? = haystack[(p + k).toNat]? := by
    intro k hk
    have ha : (p + k).toNat = p.toNat + k := by omega
    rw [List.getElem?_take_of_lt hk, List.getElem?_drop, ha]
  refine ⟨_, by rw [memchr, bytesAt_eq_ok hp hle]; rfl, ?_⟩
  cases hf : ((haystack.drop p.toNat).take n).findIdx? (· == c) with
  | none =>
    intro q hl hh hq
    obtain ⟨k, rfl⟩ : ∃ k : ℕ, q = p + k := ⟨(q - p).toNat, by omega⟩
    rw [← hg k (by omega)] at hq
    have hnt := List.findIdx?_eq_none_iff.mp hf c (List.mem_of_getElem? hq)
    simp at hnt
  | some k =>
    obtain ⟨hk, hc, hb⟩ := List.findIdx?_eq_some_iff_getElem.mp hf
    have hkn : k < n := by
      rw [List.length_take] at hk
      omega
    change ByteFirst haystack c p (p + n) (some (p + k))
    refine ⟨by omega, by omega, ?_, fun j hl hh hj => ?_⟩
    · rw [← hg k hkn, List.getElem?_eq_getElem hk, beq_iff_eq.mp hc]
    · obtain ⟨m, rfl⟩ : ∃ m : ℕ, j = p + m := ⟨(j - p).toNat, by omega⟩
      have hmk : m < k := by omega
      rw [← hg m (by omega), List.getElem?_eq_getElem (by omega)] at hj
      exact hb m hmk (beq_iff_eq.mpr (some.inj hj))

/-- `zend_memrchr` finds the last one. -/
lemma zendMemrchr_spec (haystack : List UInt8) {c : UInt8} (hle : n ≤ haystack.length) :
    ∃ r, zendMemrchr haystack c n = .ok r ∧ ByteLast haystack c n r := by
  induction n with
  | zero => exact ⟨none, rfl, fun q hlw hh => absurd hh (by omega)⟩
  | succ n ih =>
    obtain ⟨b, hb, hrd⟩ := exists_byteAt haystack (p := n) (by omega) (by omega)
    rw [toNat_natCast] at hb
    by_cases hc : b = c
    · refine ⟨some n, ?_, by omega, by omega, ?_, fun j hlw hh => absurd hh (by omega)⟩
      · simp [zendMemrchr, hrd, hc, bind, Except.bind, pure, Except.pure]
      · rw [toNat_natCast, hb, hc]
    obtain ⟨r, hrn, hr⟩ := ih (by omega)
    refine ⟨r, ?_, ?_⟩
    · simp [zendMemrchr, hrd, hc, hrn, bind, Except.bind]
    have hl : haystack[((n : ℤ)).toNat]? ≠ some c := by
      rw [toNat_natCast, hb]
      simpa using hc
    cases r with
    | none =>
      intro q hlw hh
      rcases eq_or_ne q n with rfl | hne
      · exact hl
      · exact hr q hlw (by omega)
    | some q =>
      refine ⟨hr.1, by have := hr.2.1; omega, hr.2.2.1, fun j hlw hh => ?_⟩
      rcases eq_or_ne j n with rfl | hne
      · exact hl
      · exact hr.2.2.2 j hlw (by omega)

/-- An occurrence starts with the needle's first byte, which the searches look for. -/
lemma head_eq_of_occursAt (hne : needle ≠ []) (h : OccursAt needle haystack p) :
    haystack[p.toNat]? = some (needle.getD 0 0) := by
  have hps := length_pos_iff_ne_nil.mpr hne
  have hg := h.getElem?_eq hps
  rw [Nat.cast_zero, add_zero] at hg
  rw [hg, List.getD_eq_getElem?_getD, List.getElem?_eq_getElem hps, getD_some]

/-- The test of a candidate is exact. -/
lemma checkAt_eq (haystack : List UInt8) (hne : needle ≠ []) (hp : 0 ≤ p)
    (hle : p + needle.length ≤ haystack.length) :
    checkAt haystack needle p = .ok (decide (OccursAt needle haystack p)) := by
  obtain ⟨front, e, rfl⟩ := (List.eq_nil_or_concat' needle).resolve_left hne
  have hln : (front ++ [e]).length = front.length + 1 := by simp
  obtain ⟨c, hc, hr⟩ := exists_byteAt haystack (p := p + front.length) (by omega) (by omega)
  have ha : (p + front.length).toNat = p.toNat + front.length := by omega
  rw [ha, ← List.getElem?_drop] at hc
  have ho : OccursAt (front ++ [e]) haystack p ↔
      e = c ∧ front = (haystack.drop p.toNat).take front.length := by
    rw [OccursAt, List.prefix_iff_eq_take, hln, List.take_add_one, hc, toList_some]
    constructor
    · rintro ⟨-, heq⟩
      obtain ⟨hf, hl⟩ := List.append_inj' heq rfl
      exact ⟨(List.cons.inj hl).1, hf⟩
    · rintro ⟨rfl, hf⟩
      exact ⟨hp, by rw [← hf]⟩
  have hb := bytesAt_eq_ok hp (by omega : p + front.length ≤ haystack.length)
  have hg : (front ++ [e]).getD front.length 0 = e := by simp
  simp only [checkAt, hln, Nat.add_sub_cancel, hr, hg, hb, ho, bind,
    Except.bind, pure, Except.pure]
  split_ifs with hec
  · simp [hec, beq_eq_decide]
  · simp [hec]

lemma matchLoop_eq (haystack : List UInt8) (hp : 0 ≤ p)
    (hle : p + needle.length ≤ haystack.length) :
    matchLoop haystack needle p = .ok (decide (OccursAt needle haystack p)) := by
  induction needle generalizing p with
  | nil => simp [matchLoop, OccursAt, hp]
  | cons b needle ih =>
    rw [List.length_cons] at hle
    obtain ⟨c, hc, hr⟩ := exists_byteAt haystack hp (by omega)
    have hb : p.toNat < haystack.length := by omega
    have hdr : haystack.drop p.toNat = c :: haystack.drop (p + 1).toNat := by
      rw [List.drop_eq_getElem_cons hb, show (p + 1).toNat = p.toNat + 1 by omega]
      rw [List.getElem?_eq_getElem hb, some.injEq] at hc
      rw [hc]
    have ho : OccursAt (b :: needle) haystack p ↔ b = c ∧ OccursAt needle haystack (p + 1) := by
      rw [OccursAt, hdr, List.cons_prefix_cons]
      exact ⟨fun h => ⟨h.2.1, by omega, h.2.2⟩, fun h => ⟨hp, h.1, h.2.2⟩⟩
    simp only [ho]
    by_cases hbc : b = c
    · simp [matchLoop, hr, hbc, ih (p := p + 1) (by omega) (by omega), bind, Except.bind]
    · simp [matchLoop, hr, hbc, bind, Except.bind, pure, Except.pure]

/-! ## The searches with `memchr` -/

/-- Nothing was passed over from the front. -/
def NoneBefore (needle haystack : List UInt8) (p : ℤ) : Prop :=
  0 ≤ p ∧ ∀ q < p, ¬ OccursAt needle haystack q

/-- Nothing was passed over from the back. -/
def NoneAfter (needle haystack : List UInt8) (p : ℤ) : Prop :=
  p ≤ haystack.length - needle.length ∧ ∀ q > p, ¬ OccursAt needle haystack q

lemma noneBefore_zero : NoneBefore needle haystack 0 :=
  ⟨le_refl _, fun _ hq ho => absurd ho.1 (by omega)⟩

lemma noneAfter_last (hne : needle ≠ []) :
    NoneAfter needle haystack (haystack.length - needle.length) :=
  ⟨le_refl _, fun q hq ho => by have := ho.add_length_le hne; omega⟩

/-- Past the last window there is no occurrence left to find. -/
lemma NoneBefore.isFirst_none (hne : needle ≠ []) (h : NoneBefore needle haystack p)
    (hl : haystack.length - needle.length < p) : IsFirst needle haystack none := by
  intro q ho
  have := ho.add_length_le hne
  exact h.2 q (by omega) ho

/-- A window without an occurrence can be left to the right. -/
lemma NoneBefore.succ (h : NoneBefore needle haystack p) (ho : ¬ OccursAt needle haystack p) :
    NoneBefore needle haystack (p + 1) := by
  refine ⟨by have := h.1; omega, fun q hq => ?_⟩
  rcases eq_or_ne q p with rfl | hqp
  · exact ho
  · exact h.2 q (by omega)

lemma NoneAfter.pred (h : NoneAfter needle haystack p) (ho : ¬ OccursAt needle haystack p) :
    NoneAfter needle haystack (p - 1) := by
  refine ⟨by have := h.1; omega, fun q hq => ?_⟩
  rcases eq_or_ne q p with rfl | hqp
  · exact ho
  · exact h.2 q (by omega)

/-- The search for short needles is exact. -/
lemma memchrSearch_first (hne : needle ≠ []) (haystack : List UInt8) :
    ∃ r, memchrSearch haystack needle = .ok r ∧ IsFirst needle haystack r := by
  refine loopReturn_total (I := NoneBefore needle haystack)
    (fun p => (haystack.length + 1 - p).toNat)
    (fun p hp => ?_) noneBefore_zero (by omega)
  unfold memchrRound
  by_cases hl : p ≤ haystack.length - needle.length
  swap
  · exact .inl ⟨none, by simp only [if_neg hl], hp.isFirst_none hne (by omega)⟩
  have hps := length_pos_iff_ne_nil.mpr hne
  obtain ⟨r, hm, hr⟩ := memchr_spec haystack (c := needle.getD 0 0) hp.1
    (n := (haystack.length - needle.length - p + 1 : ℤ).toNat) (by omega)
  simp only [if_pos hl, hm, bind, Except.bind, pure, Except.pure]
  cases r with
  | none =>
    refine .inl ⟨none, rfl, fun q ho => ?_⟩
    have hq := ho.add_length_le hne
    rcases lt_or_ge q p with hlt | hge
    · exact hp.2 q hlt ho
    · exact hr q hge (by omega) (head_eq_of_occursAt hne ho)
  | some q =>
    obtain ⟨hlw, hh, -, hs⟩ := hr
    have hb : NoneBefore needle haystack q := by
      refine ⟨by have := hp.1; omega, fun j hj ho => ?_⟩
      rcases lt_or_ge j p with hlt | hge
      · exact hp.2 j hlt ho
      · exact hs j hge hj (head_eq_of_occursAt hne ho)
    simp only [checkAt_eq haystack hne hb.1 (by omega)]
    by_cases ho : OccursAt needle haystack q
    · exact .inl ⟨some q, by simp [ho], ho, hb.2⟩
    · exact .inr ⟨q + 1, by simp [ho], hb.succ ho, by omega⟩

lemma memrchrSearch_last (hne : needle ≠ []) (hle : needle.length ≤ haystack.length) :
    ∃ r, memrchrSearch haystack needle = .ok r ∧ IsLast needle haystack r := by
  refine loopReturn_total (I := fun p => -1 ≤ p ∧ NoneAfter needle haystack p)
    (fun p => (p + 1).toNat) (fun p hp => ?_) ⟨by omega, noneAfter_last hne⟩ (by omega)
  obtain ⟨hlw, hp⟩ := hp
  have hps := length_pos_iff_ne_nil.mpr hne
  have hl := hp.1
  obtain ⟨r, hm, hr⟩ := zendMemrchr_spec haystack (c := needle.getD 0 0)
    (n := (p + 1).toNat) (by omega)
  unfold memrchrRound
  simp only [hm, bind, Except.bind, pure, Except.pure]
  cases r with
  | none =>
    refine .inl ⟨none, rfl, fun q ho => ?_⟩
    rcases lt_or_ge p q with hlt | hge
    · exact hp.2 q hlt ho
    · exact hr q ho.1 (by omega) (head_eq_of_occursAt hne ho)
  | some q =>
    obtain ⟨hq0, hh, -, hs⟩ := hr
    have ha : NoneAfter needle haystack q := by
      refine ⟨by omega, fun j hj ho => ?_⟩
      rcases lt_or_ge p j with hlt | hge
      · exact hp.2 j hlt ho
      · exact hs j hj (by omega) (head_eq_of_occursAt hne ho)
    simp only [checkAt_eq haystack hne hq0 (by omega)]
    by_cases ho : OccursAt needle haystack q
    · exact .inl ⟨some q, by simp [ho], ho, ha.2⟩
    · exact .inr ⟨q - 1, by simp [ho, hq0], ⟨by omega, ha.pred ho⟩, by omega⟩

/-! ## The Sunday searches -/

/-- What a table of shifts has to satisfy: every byte of the needle is shifted by at most its
distance. -/
structure Shifts (needle : List UInt8) (dist : ℕ → ℕ) (td : UInt8 → ℕ) : Prop where
  le_dist : ∀ k c, needle[k]? = some c → td c ≤ dist k
  le_max : ∀ c, td c ≤ needle.length + 1

variable {i : ℕ}

/-- The table keeps the low 32 bits of a shift. -/
lemma stored_eq (n i : ℕ) :
    ((bmod n (2 ^ 32) - i) % 2 ^ 64 % 2 ^ 32).toNat = ((n - i : ℤ) % 2 ^ 32).toNat := by
  rw [bmod_def]
  omega

/-- The first loop over the needle keeps every shift within the needle's last occurrence of the
byte. -/
lemma preForward_shifts {front back : List UInt8} {td : UInt8 → ℕ}
    (hds : ∀ k c, front[k]? = some c → td c ≤ (front ++ back).length - k)
    (hm : ∀ c, td c ≤ (front ++ back).length + 1) :
    Shifts (front ++ back) (fun k => (front ++ back).length - k)
      (preForward (front ++ back).length back front.length td) := by
  induction back generalizing front td with
  | nil =>
    rw [List.append_nil] at *
    exact ⟨hds, hm⟩
  | cons b back ih =>
    have hs : front ++ b :: back = (front ++ [b]) ++ back := by simp
    have hl : front.length < (front ++ b :: back).length := by simp
    rw [preForward, stored_eq, hs]
    rw [hs] at hds hm hl
    have hn : front.length + 1 = (front ++ [b]).length := by simp
    rw [hn]
    refine ih (fun k c hk => ?_) ((forall_update_iff _ fun _ v => v ≤ _).mpr
      ⟨by omega, fun c _ => hm c⟩)
    · by_cases hc : c = b
      · -- the byte stands here again: the distance is the smallest so far
        have hkl : k < (front ++ [b]).length := (List.getElem?_eq_some_iff.mp hk).1
        rw [hc, update_self]
        omega
      have hkf : front[k]? = some c := by
        rcases lt_or_ge k front.length with hl' | hge
        · rwa [List.getElem?_append_left hl'] at hk
        · rw [List.getElem?_append_right hge] at hk
          have hmm := List.mem_singleton.mp (List.mem_of_getElem? hk)
          exact absurd hmm hc
      rw [update_of_ne hc]
      exact hds k c hkf

/-- No shift is 0 as long as the length fits. -/
lemma preForward_pos {td : UInt8 → ℕ} (hi : i + needle.length = n) (hn : n < 2 ^ 32)
    (hps : ∀ c, 1 ≤ td c)
    (c : UInt8) : 1 ≤ preForward n needle i td c := by
  induction needle generalizing i td with
  | nil => exact hps c
  | cons b needle ih =>
    rw [List.length_cons] at hi
    rw [preForward, stored_eq]
    exact ih (by omega) ((forall_update_iff _ fun _ v => 1 ≤ v).mpr ⟨by omega, fun c _ => hps c⟩)

lemma preReverse_shifts {td : UInt8 → ℕ} (hi : i ≤ needle.length)
    (hds : ∀ k c, i ≤ k → needle[k]? = some c → td c ≤ k + 1)
    (hm : ∀ c, td c ≤ needle.length + 1) :
    Shifts needle (fun k => k + 1) (preReverse needle i td) := by
  induction i generalizing td with
  | zero => exact ⟨fun k c hk => hds k c (Nat.zero_le k) hk, hm⟩
  | succ i ih =>
    have hg : needle[i]? = some (needle.getD i 0) := by
      rw [List.getD_eq_getElem?_getD, List.getElem?_eq_getElem (by omega), getD_some]
    rw [preReverse]
    generalize needle.getD i 0 = b at hg ⊢
    refine ih (by omega) (fun k c hle hk => ?_) ((forall_update_iff _ fun _ v => v ≤ _).mpr
      ⟨by omega, fun c _ => hm c⟩)
    · by_cases hc : c = b
      · rw [hc, update_self]
        omega
      · have hne : k ≠ i := by
          rintro rfl
          exact hc (some.inj (hk.symm.trans hg))
        rw [update_of_ne hc]
        exact hds k c (by omega) hk

lemma preReverse_pos {td : UInt8 → ℕ} (hps : ∀ c, 1 ≤ td c) (c : UInt8) :
    1 ≤ preReverse needle i td c := by
  induction i generalizing td with
  | zero => exact hps c
  | succ i ih => exact ih ((forall_update_iff _ fun _ v => 1 ≤ v).mpr ⟨by omega, fun c _ => hps c⟩)

/-- The table of the search from the front never leads too far: what is cut off makes a shift
smaller. -/
lemma zendMemnstrExPre_forward (needle : List UInt8) :
    Shifts needle (fun k => needle.length - k) (zendMemnstrExPre needle false) := by
  simp only [zendMemnstrExPre]
  exact @preForward_shifts [] needle _ (by simp) fun _ => Nat.mod_le _ _

/-- A needle of less than `2 ^ 32 - 1` bytes has no shift 0. -/
lemma zendMemnstrExPre_pos (hlt : needle.length + 1 < 2 ^ 32) (reverse : Bool) (c : UInt8) :
    1 ≤ zendMemnstrExPre needle reverse c := by
  have hi : ∀ c : UInt8, 1 ≤ (needle.length + 1) % 2 ^ 32 := fun _ => by omega
  cases reverse
  · exact preForward_pos (by omega) (by omega) hi c
  · exact preReverse_pos hi c

/-- Up to `2 ^ 31` bytes the table for the search from the end is right. -/
lemma zendMemnstrExPre_reverse (hlt : needle.length ≤ 2 ^ 31) :
    Shifts needle (fun k => k + 1) (zendMemnstrExPre needle true) := by
  have hi : (needle.length + 1) % 2 ^ 32 = needle.length + 1 := Nat.mod_eq_of_lt (by omega)
  have hs : (bmod (needle.length - 1 : ℤ) (2 ^ 32) + 1).toNat = needle.length := by
    rw [bmod_eq_of_le (by omega) (by omega)]
    omega
  simp only [zendMemnstrExPre, hi, hs]
  refine preReverse_shifts (le_refl _) (fun k c hle hk => ?_) (by simp)
  have hkl := (List.getElem?_eq_some_iff.mp hk).1
  omega

/-- The window that follows the one at `p` in the search from the front, by the byte behind it. -/
def nextWindow (haystack needle : List UInt8) (p : ℤ) : Option ℤ :=
  haystack[(p + needle.length).toNat]?.map fun c => p + zendMemnstrExPre needle false c

/-- The window that follows the one at `p` in the search from the back, by the byte before it. -/
def nextWindowBack (haystack needle : List UInt8) (p : ℤ) : Option ℤ :=
  if 0 < p then haystack[(p - 1).toNat]?.map fun c => p - zendMemnstrExPre needle true c else none

/-- The search from the front does not stand still. -/
def Searchable (haystack needle : List UInt8) : Prop :=
  ∀ p, Visits needle haystack (nextWindow haystack needle) 0 p → ¬ OccursAt needle haystack p →
    nextWindow haystack needle p ≠ some p

/-- The search from the back does not stand still, and does not pass an occurrence over. -/
def SearchableBack (haystack needle : List UInt8) : Prop :=
  Thorough (· > ·) needle haystack (nextWindowBack haystack needle)
    (haystack.length - needle.length)

lemma nextWindow_visits_nonneg (hv : Visits needle haystack (nextWindow haystack needle) 0 p) :
    0 ≤ p := by
  induction hv with
  | start => exact le_rfl
  | next _ _ hq ih =>
    obtain ⟨c, -, rfl⟩ := map_eq_some_iff.mp hq
    omega

lemma nextWindowBack_visits_le (hv : Visits needle haystack (nextWindowBack haystack needle)
    (haystack.length - needle.length) p) : p ≤ haystack.length - needle.length := by
  induction hv with
  | start => exact le_rfl
  | next _ _ hq ih =>
    rw [nextWindowBack] at hq
    split_ifs at hq
    obtain ⟨c, -, rfl⟩ := map_eq_some_iff.mp hq
    omega

/-- The windows that `zend_memnstr_ex` comes to, and what a round does at each. -/
lemma memnstrEx_windows (hne : needle ≠ []) :
    WindowSearch (· < ·) needle haystack (nextWindow haystack needle) 0
      (memnstrExRound haystack needle (zendMemnstrExPre needle false))
      fun p => (haystack.length + 1 - p).toNat where
  starts j ho := ho.1.not_gt
  found p hv ho := by
    have hle := ho.add_length_le hne
    rw [memnstrExRound, if_pos (by omega), matchLoop_eq haystack ho.1 hle]
    simp [ho, bind, Except.bind, pure, Except.pure]
  moves p q hv ho hq := by
    have hp := nextWindow_visits_nonneg hv
    obtain ⟨c, hc, rfl⟩ := map_eq_some_iff.mp hq
    have hlt := (List.getElem?_eq_some_iff.mp hc).1
    refine ⟨?_, by omega, by omega⟩
    rw [memnstrExRound, if_pos (by omega), matchLoop_eq haystack hp (by omega)]
    have hen : p ≠ haystack.length - needle.length := by omega
    simp [ho, hen, byteAt_eq_ok (by omega) hc, bind, Except.bind, pure, Except.pure]
  ends p hv ho hq := by
    have hp := nextWindow_visits_nonneg hv
    have hle := List.getElem?_eq_none_iff.mp (map_eq_none_iff.mp hq)
    refine ⟨?_, fun j hj => ?_⟩
    · by_cases hl : p ≤ haystack.length - needle.length
      · rw [memnstrExRound, if_pos hl, matchLoop_eq haystack hp (by omega)]
        have hen : p = haystack.length - needle.length := by omega
        simp only [ho, if_pos hen, bind, Except.bind, pure, Except.pure]
        rfl
      · rw [memnstrExRound, if_neg hl]
    · have hj' := hj.add_length_le hne
      rcases eq_or_ne j p with rfl | hjp
      · exact absurd hj ho
      · change j < p
        omega

lemma memnrstrEx_windows (hne : needle ≠ []) :
    WindowSearch (· > ·) needle haystack (nextWindowBack haystack needle)
      (haystack.length - needle.length)
      (memnrstrExRound haystack needle (zendMemnstrExPre needle true)) fun p => (p + 1).toNat where
  starts j ho := by
    have := ho.add_length_le hne
    change ¬ j > _
    omega
  found p hv ho := by
    rw [memnrstrExRound, if_pos ho.1, matchLoop_eq haystack ho.1 (ho.add_length_le hne)]
    simp [ho, bind, Except.bind, pure, Except.pure]
  moves p q hv ho hq := by
    have hle := nextWindowBack_visits_le hv
    rw [nextWindowBack] at hq
    split_ifs at hq with hp
    obtain ⟨c, hc, rfl⟩ := map_eq_some_iff.mp hq
    refine ⟨?_, by omega, by omega⟩
    rw [memnrstrExRound, if_pos hp.le, matchLoop_eq haystack hp.le (by omega)]
    simp [ho, hp.ne', byteAt_eq_ok (by omega) hc, bind, Except.bind, pure, Except.pure]
  ends p hv ho hq := by
    have hle := nextWindowBack_visits_le hv
    have hps := length_pos_iff_ne_nil.mpr hne
    have hp : p ≤ 0 := by
      by_contra hp
      rw [nextWindowBack, if_pos (by omega), map_eq_none_iff, List.getElem?_eq_none_iff] at hq
      omega
    refine ⟨?_, fun j hj => ?_⟩
    · by_cases hl : 0 ≤ p
      · obtain rfl : p = 0 := by omega
        rw [memnrstrExRound, if_pos hl, matchLoop_eq haystack hl (by omega)]
        simp [ho, bind, Except.bind, pure, Except.pure]
      · rw [memnrstrExRound, if_neg hl]
    · have hj' := hj.1
      rcases eq_or_ne j p with rfl | hjp
      · exact absurd hj ho
      · change j > p
        omega

/-- Forward, only a window that is its own successor does harm. -/
lemma searchable_iff : Searchable haystack needle ↔
    Thorough (· < ·) needle haystack (nextWindow haystack needle) 0 := by
  refine ⟨fun h p q hv ho hq => ?_, fun h p hv ho hq => absurd (h p p hv ho hq).1 (lt_irrefl p)⟩
  have hp := nextWindow_visits_nonneg hv
  have hqp : q ≠ p := fun heq => h p hv ho (heq ▸ hq)
  obtain ⟨c, hc, rfl⟩ := map_eq_some_iff.mp hq
  have htd := zendMemnstrExPre_forward needle
  refine ⟨by omega, fun j hj hjq => ?_⟩
  exact not_occursAt_of_shift hc (fun k hk => htd.le_dist k c hk) (htd.le_max c) hj hjq

/-- Needles below the limit of the table can always be searched for. -/
lemma searchable_of_lt (hlt : needle.length + 1 < 2 ^ 32) : Searchable haystack needle := by
  intro p hv ho hq
  obtain ⟨c, hc, heq⟩ := map_eq_some_iff.mp hq
  have := zendMemnstrExPre_pos hlt false c
  omega

lemma searchableBack_of_le (hlt : needle.length ≤ 2 ^ 31) : SearchableBack haystack needle := by
  intro p q hv ho hq
  rw [nextWindowBack] at hq
  split_ifs at hq with hp
  obtain ⟨c, hc, rfl⟩ := map_eq_some_iff.mp hq
  have htd := zendMemnstrExPre_reverse hlt
  have hps : 1 ≤ zendMemnstrExPre needle true c := zendMemnstrExPre_pos (by omega) true c
  refine ⟨by change p > _; omega, fun j (hj : p > j) (hjq : j > _) => ?_⟩
  exact not_occursAt_of_shift_back hc (fun k hk => htd.le_dist k c hk) (htd.le_max c) hjq hj

/-- A needle that is not shorter than the haystack leaves one window at most. -/
lemma searchable_of_short (hle : haystack.length ≤ needle.length) :
    Searchable haystack needle ∧ SearchableBack haystack needle := by
  constructor
  · intro p hv ho hq
    obtain ⟨c, hc, -⟩ := map_eq_some_iff.mp hq
    have hp := nextWindow_visits_nonneg hv
    have hlt := (List.getElem?_eq_some_iff.mp hc).1
    omega
  · intro p q hv ho hq
    have hp := nextWindowBack_visits_le hv
    rw [nextWindowBack, if_neg (by omega)] at hq
    cases hq

/-- `zend_memnstr_ex` finds the first occurrence unless a window has shift 0. -/
lemma zendMemnstrEx_first_iff (hne : needle ≠ []) (haystack : List UInt8) :
    (∃ r, zendMemnstrEx haystack needle = .ok r ∧ IsFirst needle haystack r) ↔
      Searchable haystack needle := by
  have hps := length_pos_iff_ne_nil.mpr hne
  unfold zendMemnstrEx
  split_ifs with hem
  · refine iff_of_true ⟨none, rfl, fun p => not_occursAt_of_short hne (by omega)⟩ ?_
    exact (searchable_of_short (by omega)).1
  · rw [searchable_iff]
    exact (memnstrEx_windows hne).nearest_iff (by omega)

/-- `zend_memnrstr_ex` finds the last one under the condition for its own windows. -/
lemma zendMemnrstrEx_last_iff (hne : needle ≠ []) (haystack : List UInt8) :
    (∃ r, zendMemnrstrEx haystack needle = .ok r ∧ IsLast needle haystack r) ↔
      SearchableBack haystack needle := by
  have hps := length_pos_iff_ne_nil.mpr hne
  unfold zendMemnrstrEx
  split_ifs with hem
  · refine iff_of_true ⟨none, rfl, fun p => not_occursAt_of_short hne (by omega)⟩ ?_
    exact (searchable_of_short (by omega)).2
  · exact (memnrstrEx_windows hne).nearest_iff (by omega)

/-! ## All searches -/

lemma occursAt_singleton {c : UInt8} :
    OccursAt [c] haystack p ↔ 0 ≤ p ∧ haystack[p.toNat]? = some c := by
  refine and_congr_right fun _ => ?_
  rw [List.singleton_prefix_iff_head?_eq_some, List.head?_drop]

/-- The dispatch over the lengths needs no condition of its own. -/
lemma zendMemnstr_first_iff (hne : needle ≠ []) (haystack : List UInt8) :
    (∃ r, zendMemnstr haystack needle = .ok r ∧ IsFirst needle haystack r) ↔
      Searchable haystack needle := by
  unfold zendMemnstr
  split_ifs with hon hs hpt
  · refine iff_of_true ?_ (searchable_of_lt (by omega))
    obtain ⟨c, rfl⟩ := List.length_eq_one_iff.mp hon
    obtain ⟨r, hrn, hr⟩ := memchr_spec haystack (n := haystack.length) (le_refl 0) (by omega)
    refine ⟨r, hrn, ?_⟩
    cases r with
    | none =>
      intro q ho
      have hb := ho.add_length_le hne
      exact hr q ho.1 (by omega) (occursAt_singleton.mp ho).2
    | some q =>
      refine ⟨occursAt_singleton.mpr ⟨hr.1, hr.2.2.1⟩, fun j hj ho => ?_⟩
      exact hr.2.2.2 j ho.1 hj (occursAt_singleton.mp ho).2
  · exact iff_of_true ⟨none, rfl, fun p => not_occursAt_of_short hne hs⟩
      (searchable_of_short hs.le).1
  · exact iff_of_true (memchrSearch_first hne haystack) (searchable_of_lt (by omega))
  · exact zendMemnstrEx_first_iff hne haystack

/-- A search that returns has met no shift 0. -/
lemma searchable_of_returns (hne : needle ≠ []) {r : Option ℤ}
    (h : zendMemnstr haystack needle = .ok r) :
    Searchable haystack needle := by
  by_cases hs : haystack.length ≤ needle.length
  · exact (searchable_of_short hs).1
  by_cases hlt : needle.length + 1 < 2 ^ 32
  · exact searchable_of_lt hlt
  rw [zendMemnstr, if_neg (by omega), if_neg (by omega), if_neg (by omega), zendMemnstrEx,
    if_neg (by omega)] at h
  exact fun p hv ho => (memnstrEx_windows hne).ne_of_returns h hv ho

lemma zendMemnrstr_last_iff (hne : needle ≠ []) (haystack : List UInt8) :
    (∃ r, zendMemnrstr haystack needle = .ok r ∧ IsLast needle haystack r) ↔
      SearchableBack haystack needle := by
  unfold zendMemnrstr
  split_ifs with hon hs hpt
  · refine iff_of_true ?_ (searchableBack_of_le (by omega))
    obtain ⟨c, rfl⟩ := List.length_eq_one_iff.mp hon
    obtain ⟨r, hrn, hr⟩ := zendMemrchr_spec haystack (le_refl haystack.length)
    refine ⟨r, hrn, ?_⟩
    cases r with
    | none =>
      intro q ho
      have hb := ho.add_length_le hne
      exact hr q ho.1 (by omega) (occursAt_singleton.mp ho).2
    | some q =>
      refine ⟨occursAt_singleton.mpr ⟨hr.1, hr.2.2.1⟩, fun j hj ho => ?_⟩
      have hb := ho.add_length_le hne
      exact hr.2.2.2 j hj (by omega) (occursAt_singleton.mp ho).2
  · exact iff_of_true ⟨none, rfl, fun p => not_occursAt_of_short hne hs⟩
      (searchable_of_short hs.le).2
  · exact iff_of_true (memrchrSearch_last hne (by omega)) (searchableBack_of_le (by omega))
  · exact zendMemnrstrEx_last_iff hne haystack

/-- **The searches.** `zend_memnstr` gives the first and `zend_memnrstr` the last occurrence, and
below `2 ^ 31` bytes of needle the loops around `memchr` and the Sunday searches give the same
answers, none of them reading outside the haystack, if and only if the windows of the Sunday
searches lead through the haystack. Those of a needle of at most `2 ^ 31` bytes, or not shorter than
the haystack, do. -/
theorem memnstr_searches_iff (haystack needle : List UInt8) (hne : 1 ≤ needle.length) :
    ((∃ r, zendMemnstr haystack needle = .ok r ∧ IsFirst needle haystack r ∧
          (needle.length < 2 ^ 31 → memchrSearch haystack needle = .ok r ∧
            zendMemnstrEx haystack needle = .ok r)) ∧
        (∃ r, zendMemnrstr haystack needle = .ok r ∧ IsLast needle haystack r ∧
          (needle.length < 2 ^ 31 →
            (needle.length ≤ haystack.length → memrchrSearch haystack needle = .ok r) ∧
            zendMemnrstrEx haystack needle = .ok r)) ↔
      Searchable haystack needle ∧ SearchableBack haystack needle) ∧
    (needle.length ≤ 2 ^ 31 ∨ haystack.length ≤ needle.length →
      Searchable haystack needle ∧ SearchableBack haystack needle) := by
  have hn : needle ≠ [] := length_pos_iff_ne_nil.mp hne
  refine ⟨and_congr ?_ ?_, ?_⟩
  · rw [← zendMemnstr_first_iff hn]
    refine exists_congr fun r => and_congr_right fun hrn => and_iff_left_of_imp fun hr hlt => ?_
    obtain ⟨r₁, hrun₁, hr₁⟩ := memchrSearch_first hn haystack
    obtain ⟨r₂, hrun₂, hr₂⟩ :=
      (zendMemnstrEx_first_iff hn haystack).mpr (searchable_of_lt (by omega))
    exact ⟨hr₁.unique hr ▸ hrun₁, hr₂.unique hr ▸ hrun₂⟩
  · rw [← zendMemnrstr_last_iff hn]
    refine exists_congr fun r => and_congr_right fun hrn => and_iff_left_of_imp fun hr hlt => ?_
    obtain ⟨r₂, hrun₂, hr₂⟩ :=
      (zendMemnrstrEx_last_iff hn haystack).mpr (searchableBack_of_le hlt.le)
    refine ⟨fun hle => ?_, hr₂.unique hr ▸ hrun₂⟩
    obtain ⟨r₁, hrun₁, hr₁⟩ := memrchrSearch_last hn hle
    exact hr₁.unique hr ▸ hrun₁
  · rintro (hle | hle)
    · exact ⟨searchable_of_lt (by omega), searchableBack_of_le hle⟩
    · exact searchable_of_short hle

/-- `"ab"` in `"cabab"`. -/
theorem memnstr_searches_iff_abab :
    zendMemnstr [0x63, 0x61, 0x62, 0x61, 0x62] [0x61, 0x62] = .ok (some 1) ∧
      zendMemnrstrEx [0x63, 0x61, 0x62, 0x61, 0x62] [0x61, 0x62] = .ok (some 3) := by
  obtain ⟨hiff, hsm⟩ := memnstr_searches_iff [0x63, 0x61, 0x62, 0x61, 0x62] [0x61, 0x62] (by decide)
  obtain ⟨⟨r, hf, hr, -⟩, ⟨r', -, hr', hag⟩⟩ := hiff.mpr (hsm (.inl (by decide)))
  have hl := (hag (by decide)).2
  have hon : IsFirst [0x61, 0x62] ([0x63, 0x61, 0x62, 0x61, 0x62] : List UInt8) (some 1) := by
    refine ⟨by decide, fun q hq ho => ?_⟩
    obtain rfl : q = 0 := by have := ho.1; omega
    exact absurd ho (by decide)
  have hth : IsLast [0x61, 0x62] ([0x63, 0x61, 0x62, 0x61, 0x62] : List UInt8) (some 3) := by
    refine ⟨by decide, fun q hq ho => ?_⟩
    have hb := ho.add_length_le (by decide)
    simp at hb
    omega
  exact ⟨hon.unique hr ▸ hf, hth.unique hr' ▸ hl⟩

/-! ## Long needles -/

/-- Behind `2 ^ 31` bytes the `int` that fills the table from the back starts below zero, and the
table stays as it was set up. -/
lemma zendMemnstrExPre_longNeedle (hl : 2 ^ 31 < needle.length)
    (hh : needle.length + 1 < 2 ^ 32) (c : UInt8) :
    zendMemnstrExPre needle true c = needle.length + 1 := by
  have hi := Nat.mod_eq_of_lt hh
  have hs : (bmod (needle.length - 1 : ℤ) (2 ^ 32) + 1).toNat = 0 := by
    have hb : bmod (needle.length - 1 : ℤ) (2 ^ 32) = needle.length - 1 - 2 ^ 32 := by
      rw [bmod_def, emod_eq_of_lt (by omega) (by push_cast; omega)]
      push_cast
      rw [if_neg (by omega)]
    omega
  simp only [zendMemnstrExPre, if_true, hi, hs, preReverse]

/-- The needle `a...a` in the haystack `a...ab`: the search from the back shifts over the
occurrence. -/
lemma zendMemnrstr_of_longNeedle (hlw : 2 ^ 31 < n) (hhg : n + 1 < 2 ^ 32) :
    OccursAt (replicate n 0x61) (replicate n (0x61 : UInt8) ++ [0x62]) 0 ∧
      zendMemnrstr (replicate n 0x61 ++ [0x62]) (replicate n 0x61) = .ok none := by
  have ho : OccursAt (replicate n 0x61) (replicate n (0x61 : UInt8) ++ [0x62]) 0 :=
    ⟨le_refl 0, List.prefix_append _ _⟩
  have hl : (replicate n (0x61 : UInt8)).length = n := List.length_replicate
  have hl' : (replicate n (0x61 : UInt8) ++ [0x62]).length = n + 1 := by simp
  have hnt : ¬ OccursAt (replicate n 0x61) (replicate n (0x61 : UInt8) ++ [0x62]) 1 := by
    intro h
    have hg := h.getElem?_eq (k := n - 1) (by omega)
    rw [show ((1 : ℤ) + (n - 1 : ℕ)).toNat = n by omega, List.getElem?_append_right (by omega), hl,
      Nat.sub_self, List.getElem?_replicate, if_pos (by omega)] at hg
    exact absurd hg (by decide)
  have hrd : byteAt (replicate n (0x61 : UInt8) ++ [0x62]) (1 - 1) = .ok 0x61 := by
    refine byteAt_eq_ok (by omega) ?_
    rw [List.getElem?_append_left (by omega),
      List.getElem?_replicate, if_pos (by omega)]
  have htd : zendMemnstrExPre (replicate n 0x61) true 0x61 = _ :=
    zendMemnstrExPre_longNeedle (by omega) (by omega) 0x61
  have hm : matchLoop (replicate n 0x61 ++ [0x62]) (replicate n 0x61) 1 = _ :=
    matchLoop_eq _ (by omega) (by omega)
  rw [hl] at htd
  refine ⟨ho, ?_⟩
  generalize hn : replicate n (0x61 : UInt8) = needle at *
  generalize hhaystack : needle ++ [0x62] = haystack at *
  have hr : memnrstrExRound haystack needle (zendMemnstrExPre needle true) 1 = .ok (.inr (-n)) := by
    simp only [memnrstrExRound, hm, hnt, hrd, htd, bind, Except.bind, pure, Except.pure]
    norm_num
  have hrn : memnrstrExRound haystack needle (zendMemnstrExPre needle true)
      (-n) = .ok (.inl none) := by
    rw [memnrstrExRound, if_neg (by omega)]
  rw [zendMemnrstr, if_neg (by omega), if_neg (by omega), zendMemnrstrEx,
    if_neg (by omega), hl', hl]
  simp [loopReturn, hr, hrn]

/-- **A needle of `2 ^ 31 + 1` bytes is missed.** -/
theorem zendMemnrstr_longNeedle :
    OccursAt (replicate (2 ^ 31 + 1) 0x61)
        (replicate (2 ^ 31 + 1) (0x61 : UInt8) ++ [0x62]) 0 ∧
      zendMemnrstr (replicate (2 ^ 31 + 1) 0x61 ++ [0x62]) (replicate (2 ^ 31 + 1) 0x61) =
        .ok none :=
  zendMemnrstr_of_longNeedle (by omega) (by omega)

end PhpInternals.Zend.ZendOperators

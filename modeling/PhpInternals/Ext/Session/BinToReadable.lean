import Mathlib.Data.Nat.Digits.Lemmas
import Mathlib.Data.Set.Card
import Mathlib.Order.Interval.Set.Nat
import Mathlib.Tactic
import PhpInternals.Found.JsonText

/-!
# Session ids

`bin_to_readable` of `ext/session/session.c` makes characters out of random bytes. The bits in hand
are the low ones of a word of 16 bits, which is filled byte by byte.

* `binToReadable_eq`: the characters are the digits of the bytes, read as one number with the least
  significant byte first.
* `binToReadable_even`: every id comes from the same number of inputs.
-/

namespace PhpInternals.Ext.Session

open List Nat Found

/-- Source: `session.c` `hexconvtab`. -/
def hexconvtab : List UInt8 :=
  ascii "0123456789abcdefghijklmnopqrstuvwxyzABCDEFGHIJKLMNOPQRSTUVWXYZ,-"

/-- The next byte is taken if fewer than `nbits` bits are in hand. `w` has these bits, `bits` is
their number (`have` in the source), and `p` is the input from the next byte on.
Source: `bin_to_readable`. -/
def refill (nbits : ℕ) (p : List UInt8) (w bits : ℕ) : Option (List UInt8 × ℕ × ℕ) :=
  if bits < nbits then
    match p with
    | b :: p => some (p, (w ||| b.toNat <<< bits) % 2 ^ 16, bits + 8)
    -- consumed everything? No? We need a final round
    | [] => if bits = 0 then none else some ([], w, nbits)
  else some (p, w, bits)

/-- The loop over the characters. Source: `bin_to_readable`. -/
def binLoop (nbits : ℕ) : ℕ → List UInt8 → ℕ → ℕ → List UInt8
  | 0, _, _, _ => []
  | inlen + 1, p, w, bits =>
    match refill nbits p w bits with
    | none => []
    | some (p, w, bits) =>
      hexconvtab.getD (w &&& (1 <<< nbits - 1)) 0 ::
        binLoop nbits inlen p (w >>> nbits) (bits - nbits)

/-- What is written to `out`, and the result, which is the length of the input whatever was written.
Source: `bin_to_readable`. -/
def binToReadable (input : List UInt8) (nbits : ℕ) : List UInt8 × ℕ :=
  (binLoop nbits input.length input 0 0 ++ [0], input.length)

/-- The bytes as one number, the least significant one first: bit `i` of the number is bit `i` of
the bit stream. -/
def bitStream (input : List UInt8) : ℕ := ofDigits 256 (input.map UInt8.toNat)

lemma bitStream_cons (b : UInt8) (p : List UInt8) :
    bitStream (b :: p) = b.toNat + 256 * bitStream p := by
  rw [bitStream, map_cons, ofDigits_cons, bitStream]

/-- The bits of the stream are those of the bytes, in turn and from the least significant one on. -/
lemma testBit_bitStream (input : List UInt8) (i : ℕ) :
    (bitStream input).testBit i = (input.getD (i / 8) 0).toNat.testBit (i % 8) := by
  induction input generalizing i with
  | nil => simp [bitStream]
  | cons b p ih =>
    rw [bitStream_cons, Nat.add_comm, testBit_two_pow_mul_add (i := 8) _ b.toNat_lt]
    split_ifs with hi
    · rw [Nat.div_eq_of_lt hi, Nat.mod_eq_of_lt hi, getD_cons_zero]
    · obtain ⟨j, rfl⟩ := Nat.exists_eq_add_of_le (not_lt.mp hi)
      rw [Nat.add_sub_cancel_left, ih, Nat.add_div_left _ (by decide), Nat.add_mod_left,
        getD_cons_succ]

/-- The characters of the first `n` digits of a number. -/
def readable (nbits n stream : ℕ) : List UInt8 :=
  (range n).map fun k => hexconvtab.getD (stream / 2 ^ (k * nbits) % 2 ^ nbits) 0

lemma readable_succ (nbits n v : ℕ) : readable nbits (n + 1) v =
    hexconvtab.getD (v % 2 ^ nbits) 0 :: readable nbits n (v / 2 ^ nbits) := by
  rw [readable, range_succ_eq_map, map_cons, map_map, zero_mul, pow_zero, Nat.div_one, readable]
  congr 1
  refine map_congr_left fun k _ => ?_
  rw [Function.comp_apply, Nat.div_div_eq_div_mul, ← pow_add, succ_mul, Nat.add_comm]

/-- As long as there are bytes, the bits in hand suffice after the refill, and none is lost. -/
lemma refill_eq {nbits w bits : ℕ} {p : List UInt8} (hn : nbits ≤ 6) (hw : w < 2 ^ bits)
    (hl : nbits ≤ bits + 8 * p.length) :
    ∃ p' w' bits', refill nbits p w bits = some (p', w', bits') ∧ nbits ≤ bits' ∧ w' < 2 ^ bits' ∧
      bits' + 8 * p'.length = bits + 8 * p.length ∧
      w' + 2 ^ bits' * bitStream p' = w + 2 ^ bits * bitStream p := by
  rw [refill.eq_def]
  by_cases hb : bits < nbits
  swap
  · exact ⟨p, w, bits, if_neg hb, not_lt.mp hb, hw, rfl, rfl⟩
  rw [if_pos hb]
  cases p with
  | nil =>
    rw [length_nil] at hl
    omega
  | cons b p =>
    have hor : w ||| b.toNat <<< bits = w + 2 ^ bits * b.toNat := by
      rw [Nat.or_comm, ← shiftLeft_add_eq_or_of_lt hw, Nat.shiftLeft_eq]
      ring
    have hlt : w + 2 ^ bits * b.toNat < 2 ^ (bits + 8) := by
      have hb8 : b.toNat ≤ 255 := Nat.le_of_lt_succ b.toNat_lt
      have := Nat.mul_le_mul_left (2 ^ bits) hb8
      rw [pow_add]
      omega
    have hle : 2 ^ (bits + 8) ≤ 2 ^ 16 := Nat.pow_le_pow_right (by decide) (by omega)
    refine ⟨p, _, _, rfl, by omega, ?_, by rw [length_cons]; omega, ?_⟩ <;>
      rw [hor, Nat.mod_eq_of_lt (hlt.trans_le hle)]
    · exact hlt
    · rw [bitStream_cons]
      ring

/-- **The loop writes the digits** of the bits in hand and the bytes behind them. -/
theorem binLoop_eq {nbits : ℕ} (hn : nbits ≤ 6) : ∀ (inlen : ℕ) (p : List UInt8) (w bits : ℕ),
    w < 2 ^ bits → inlen * nbits ≤ bits + 8 * p.length →
    binLoop nbits inlen p w bits = readable nbits inlen (w + 2 ^ bits * bitStream p) := by
  intro inlen
  induction inlen with
  | zero => exact fun _ _ _ _ _ => rfl
  | succ inlen ih =>
    intro p w bits hw hl
    rw [Nat.add_mul, one_mul] at hl
    obtain ⟨p', w', bits', hr, hb, hw', hln, hv⟩ := refill_eq (p := p) hn hw (by omega)
    obtain ⟨more, rfl⟩ := Nat.exists_eq_add_of_le hb
    rw [binLoop, hr, ← hv, readable_succ]
    dsimp only
    rw [Nat.shiftLeft_eq, one_mul, and_two_pow_sub_one_eq_mod, shiftRight_eq_div_pow,
      Nat.add_sub_cancel_left, pow_add, mul_assoc, Nat.add_mul_mod_self_left,
      Nat.add_mul_div_left _ _ (by positivity)]
    congr 1
    exact ih p' _ more (Nat.div_lt_of_lt_mul (pow_add 2 nbits more ▸ hw')) (by omega)

lemma binToReadable_eq {nbits : ℕ} (hn : nbits ≤ 6) (input : List UInt8) :
    binToReadable input nbits =
      (readable nbits input.length (bitStream input) ++ [0], input.length) := by
  have hl : input.length * nbits ≤ 0 + 8 * input.length := by nlinarith
  rw [binToReadable, binLoop_eq hn _ _ _ _ one_pos hl, zero_add, pow_zero, one_mul]

/-! ## How often an id arises -/

/-- The ids of `n` characters that `nbits` bits each can choose. -/
def IsId (nbits n : ℕ) (id : List UInt8) : Prop :=
  id.length = n ∧ ∀ c ∈ id, c ∈ hexconvtab.take (2 ^ nbits)

/-- The number whose digits an id has. -/
def idNumber (nbits : ℕ) (id : List UInt8) : ℕ :=
  ofDigits (2 ^ nbits) (id.map fun c => hexconvtab.idxOf c)

lemma hexconvtab_length : hexconvtab.length = 64 := by decide +kernel

lemma hexconvtab_nodup : hexconvtab.Nodup := by decide +kernel

lemma idxOf_lt_of_mem_take {c : UInt8} {m : ℕ} (h : c ∈ hexconvtab.take m) :
    hexconvtab.idxOf c < m := by
  rw [← take_append_drop m hexconvtab, idxOf_append_of_mem h]
  exact (idxOf_lt_length_of_mem h).trans_le (length_take_le _ _)

lemma idNumber_cons (nbits : ℕ) (c : UInt8) (id : List UInt8) :
    idNumber nbits (c :: id) = hexconvtab.idxOf c + 2 ^ nbits * idNumber nbits id := by
  rw [idNumber, map_cons, ofDigits_cons, idNumber]

lemma getD_idxOf {c : UInt8} (h : c ∈ hexconvtab) : hexconvtab.getD (hexconvtab.idxOf c) 0 = c := by
  rw [← getElem_eq_getD (h := idxOf_lt_length_of_mem h), getElem_idxOf]

section

variable {nbits n : ℕ} (hn : nbits ≤ 6)

include hn

lemma two_pow_le_length : 2 ^ nbits ≤ hexconvtab.length :=
  hexconvtab_length ▸ Nat.pow_le_pow_right (by decide) hn

/-- The characters written form an id. -/
lemma isId_readable (v : ℕ) : IsId nbits n (readable nbits n v) := by
  refine ⟨by simp [readable], fun c hc => ?_⟩
  obtain ⟨k, -, rfl⟩ := mem_map.mp hc
  have hd : v / 2 ^ (k * nbits) % 2 ^ nbits < 2 ^ nbits := Nat.mod_lt _ (by positivity)
  have hlt := hd.trans_le (two_pow_le_length hn)
  rw [← getElem_eq_getD (h := hlt), mem_take_iff_getElem]
  exact ⟨_, lt_min hd hlt, rfl⟩

/-- The number of an id holds the bits that the id was made from. -/
lemma idNumber_readable (v : ℕ) : idNumber nbits (readable nbits n v) = v % 2 ^ (n * nbits) := by
  induction n generalizing v with
  | zero => simp [readable, idNumber, Nat.mod_one]
  | succ n ih =>
    have hd : v % 2 ^ nbits < hexconvtab.length :=
      (Nat.mod_lt _ (by positivity)).trans_le (two_pow_le_length hn)
    rw [readable_succ, idNumber_cons, ih, ← getElem_eq_getD (h := hd),
      hexconvtab_nodup.idxOf_getElem, Nat.add_mul, one_mul, Nat.add_comm (n * nbits), pow_add,
      Nat.mod_mul]

omit hn in
/-- An id is read back from its number. -/
lemma readable_idNumber {id : List UInt8} (hid : IsId nbits n id) :
    readable nbits n (idNumber nbits id) = id := by
  induction id generalizing n with
  | nil => rw [← hid.1]; rfl
  | cons c id ih =>
    obtain ⟨rfl, hmem⟩ := hid
    have hc := hmem c mem_cons_self
    have htl : IsId nbits id.length id := ⟨rfl, fun d hd => hmem d (mem_cons_of_mem c hd)⟩
    have hlt := idxOf_lt_of_mem_take hc
    rw [length_cons, readable_succ, idNumber_cons, Nat.add_mul_mod_self_left, Nat.mod_eq_of_lt hlt,
      Nat.add_mul_div_left _ _ (by positivity), Nat.div_eq_of_lt hlt, zero_add, ih htl,
      getD_idxOf (mem_of_mem_take hc)]

/-- Which inputs an id comes from: those whose first bits are the number of the id. -/
lemma readable_eq_iff {id : List UInt8} (hid : IsId nbits n id) (v : ℕ) :
    readable nbits n v = id ↔ v % 2 ^ (n * nbits) = idNumber nbits id := by
  constructor
  · rintro rfl
    exact (idNumber_readable hn v).symm
  · intro h
    rw [← readable_idNumber (isId_readable hn v), idNumber_readable hn, h, readable_idNumber hid]

/-- The same in terms of what is written. -/
lemma setOf_written_eq {id : List UInt8} (hid : IsId nbits n id) :
    {input | input.length = n ∧ binToReadable input nbits = (id ++ [0], n)} =
      {input | input.length = n} ∩
        {input | bitStream input ∈ {v | v % 2 ^ (n * nbits) = idNumber nbits id}} := by
  ext input
  refine and_congr_right ?_
  rintro rfl
  rw [binToReadable_eq hn, Prod.mk.injEq, append_left_inj, readable_eq_iff hn hid]
  exact and_iff_left rfl

lemma idNumber_lt {id : List UInt8} (hid : IsId nbits n id) :
    idNumber nbits id < 2 ^ (n * nbits) := by
  have h := idNumber_readable (n := n) hn (idNumber nbits id)
  rw [readable_idNumber hid] at h
  rw [h]
  exact Nat.mod_lt _ (by positivity)

/-- The ids are the numbers of `n * nbits` bits. -/
lemma bijOn_idNumber :
    Set.BijOn (idNumber nbits) {id | IsId nbits n id} (Set.Iio (2 ^ (n * nbits))) := by
  refine ⟨fun id hid => idNumber_lt hn hid, fun id hid id' hid' h => ?_, fun v hv => ?_⟩
  · rw [← readable_idNumber hid, h, readable_idNumber hid']
  · exact ⟨readable nbits n v, isId_readable hn v,
      (idNumber_readable hn v).trans (Nat.mod_eq_of_lt hv)⟩

end

/-- The inputs of `n` bytes are the numbers of `8 * n` bits. -/
lemma bijOn_bitStream (n : ℕ) :
    Set.BijOn bitStream {input | input.length = n} {v | v < 256 ^ n} := by
  refine (bijOn_ofDigits (by decide) n).comp
    ⟨fun input hl => ?_, fun a _ b _ h => ?_, fun L hL => ?_⟩
  · refine ⟨by simpa using hl, fun d hd => ?_⟩
    obtain ⟨b, -, rfl⟩ := mem_map.mp hd
    exact b.toNat_lt
  · exact map_injective_iff.mpr (fun _ _ => UInt8.toNat_inj.mp) h
  · refine ⟨L.map UInt8.ofNat, by simpa using hL.1, ?_⟩
    rw [map_map]
    exact (map_congr_left fun d hd => Nat.mod_eq_of_lt (hL.2 d hd)).trans (map_id L)

/-- Of the numbers below `m * q`, `q` leave the remainder `x` modulo `m`. -/
lemma ncard_mod_eq {m q x : ℕ} (hx : x < m) : {v | v < m * q ∧ v % m = x}.ncard = q := by
  have himage : {v | v < m * q ∧ v % m = x} = (fun k => x + m * k) '' Set.Iio q := by
    ext v
    constructor
    · rintro ⟨hv, rfl⟩
      exact ⟨v / m, Nat.div_lt_of_lt_mul hv, Nat.mod_add_div v m⟩
    · rintro ⟨k, hk, rfl⟩
      have hle := Nat.mul_le_mul_left m (Nat.succ_le_of_lt hk)
      rw [Nat.mul_succ] at hle
      refine ⟨?_, by rw [Nat.add_mul_mod_self_left, Nat.mod_eq_of_lt hx]⟩
      change x + m * k < m * q
      omega
  have hinj : Set.InjOn (fun k => x + m * k) (Set.Iio q) := fun a _ b _ h =>
    Nat.eq_of_mul_eq_mul_left (Nat.zero_lt_of_lt hx) (Nat.add_left_cancel h)
  rw [himage, hinj.ncard_image, Set.ncard_Iio_nat]

/-- **Session ids lose no entropy**: for `n` bytes and 4, 5 or 6 bits in a character `n` characters
are written, the `k`-th one for the bits from `k * nbits` on, and each of the `2 ^ (n * nbits)` ids
comes from the same number of inputs. -/
theorem binToReadable_even {nbits : ℕ} (hbits : nbits ∈ [4, 5, 6]) (n : ℕ) :
    (∀ input : List UInt8, input.length = n →
      binToReadable input nbits = (readable nbits n (bitStream input) ++ [0], n) ∧
        (readable nbits n (bitStream input)).length = n ∧
        ∀ i, (bitStream input).testBit i = (input.getD (i / 8) 0).toNat.testBit (i % 8)) ∧
      {id | IsId nbits n id}.ncard = 2 ^ (n * nbits) ∧
      ∀ id, IsId nbits n id →
        {input | input.length = n ∧ binToReadable input nbits = (id ++ [0], n)}.ncard =
          2 ^ (n * (8 - nbits)) := by
  have hn : nbits ≤ 6 := by
    simp only [mem_cons, not_mem_nil, or_false] at hbits
    omega
  refine ⟨?_, by rw [(bijOn_idNumber hn).ncard_eq, Set.ncard_Iio_nat], fun id hid => ?_⟩
  · rintro input rfl
    exact ⟨binToReadable_eq hn input, (isId_readable hn _).1, testBit_bitStream input⟩
  · have hsplit : 256 ^ n = 2 ^ (n * nbits) * 2 ^ (n * (8 - nbits)) := by
      rw [← pow_add, ← Nat.mul_add, Nat.add_sub_cancel' (by omega), Nat.mul_comm, pow_mul]
      norm_num
    have hbij : Set.BijOn bitStream
        {input | input.length = n ∧ binToReadable input nbits = (id ++ [0], n)}
        {v | v < 256 ^ n ∧ v % 2 ^ (n * nbits) = idNumber nbits id} := by
      rw [setOf_written_eq hn hid]
      exact (bijOn_bitStream n).inter_mapsTo (fun _ h => h) fun _ h => h.2
    rw [hbij.ncard_eq, hsplit, ncard_mod_eq (idNumber_lt hn hid)]

/-- One byte and five bits: the three bits left over are free. -/
theorem binToReadable_even_five :
    {input | input.length = 1 ∧ binToReadable input 5 = ([0x61] ++ [0], 1)}.ncard = 8 := by
  have hmem : ∀ c ∈ [(0x61 : UInt8)], c ∈ hexconvtab.take (2 ^ 5) := by
    simp only [mem_singleton, forall_eq]
    decide
  exact (binToReadable_even (by decide) 1).2.2 _ ⟨rfl, hmem⟩

end PhpInternals.Ext.Session

import PhpInternals.Found.OrderedMap

/-!
# A list with a cursor

A sequence and a place in it: on one of its elements, or at the end. The sequence is often kept in
an array with holes, and the place as an index of the array; the operations then have to move the
index.
-/

namespace PhpInternals.Found

open Option Nat List

variable {α : Type}

/-- A list and the rank of its current element. -/
structure CursorList (α : Type) where
  entries : List α
  cursor : Option ℕ

namespace CursorList

/-- The current element. -/
def current? (l : CursorList α) : Option α := l.cursor.bind fun c => l.entries[c]?

/-- A new last element; a cursor at the end comes to stand on it. -/
def append (l : CursorList α) (a : α) : CursorList α :=
  ⟨l.entries ++ [a], some (l.cursor.getD l.entries.length)⟩

/-- Another element in the place of one. -/
def set (l : CursorList α) (r : ℕ) (a : α) : CursorList α := ⟨l.entries.set r a, l.cursor⟩

/-- An element less; a cursor on it goes to the next one. -/
def erase (l : CursorList α) (r : ℕ) : CursorList α :=
  ⟨l.entries.eraseIdx r, l.cursor.bind fun c =>
    if c < r then some c else if r < c then some (c - 1)
    else if r + 1 < l.entries.length then some r else none⟩

/-- To the first element. -/
def first (l : CursorList α) : CursorList α :=
  ⟨l.entries, if 0 < l.entries.length then some 0 else none⟩

/-- To the last element. -/
def last (l : CursorList α) : CursorList α :=
  ⟨l.entries, if 0 < l.entries.length then some (l.entries.length - 1) else none⟩

/-- To the next element. -/
def next (l : CursorList α) : CursorList α :=
  ⟨l.entries, l.cursor.bind fun c => if c + 1 < l.entries.length then some (c + 1) else none⟩

/-- To the element before. -/
def prev (l : CursorList α) : CursorList α :=
  ⟨l.entries, l.cursor.bind fun c => if 0 < c then some (c - 1) else none⟩

/-- **The cursor stays on its element**, unless that is the one erased. -/
theorem erase_current? (l : CursorList α) (r : ℕ) :
    (l.erase r).current? = if l.cursor = some r then l.entries[r + 1]? else l.current? := by
  cases hc : l.cursor with
  | none => simp [erase, current?, hc]
  | some c =>
    simp only [erase, current?, hc, bind_some, some.injEq]
    rcases lt_trichotomy c r with hlt | rfl | hgt
    · rw [if_pos hlt, if_neg hlt.ne, bind_some, getElem?_eraseIdx_of_lt hlt]
    · rw [if_neg (lt_irrefl c), if_neg (lt_irrefl c), if_pos rfl]
      split_ifs with hls
      · rw [bind_some, getElem?_eraseIdx_of_ge le_rfl]
      · rw [bind_none, getElem?_eq_none (by omega)]
    · rw [if_neg hgt.not_gt, if_pos hgt, if_neg hgt.ne', bind_some,
        getElem?_eraseIdx_of_ge (by omega), Nat.sub_add_cancel (by omega)]

/-! ## Arrays with holes -/

/-- The rank of a cell among those that are no hole. -/
def rank (f : ℕ → Option α) (i : ℕ) : ℕ := count (fun j => (f j).isSome = true) i

/-- The list that the cells below `n` and an index stand for. -/
def atPos (f : ℕ → Option α) (n : ℕ) (pos : Option ℕ) : CursorList α :=
  ⟨gather f n, pos.map (rank f)⟩

/-- The index is that of a cell below `n` that is no hole. -/
def PosOk (f : ℕ → Option α) (n : ℕ) (pos : Option ℕ) : Prop :=
  ∀ i ∈ pos, i < n ∧ (f i).isSome = true

/-- The first cell from `i` on that is no hole, if there is one below `n`. -/
def IsFrom (f : ℕ → Option α) (n i : ℕ) : Option ℕ → Prop
  | none => ∀ k, i ≤ k → k < n → f k = none
  | some j => i ≤ j ∧ j < n ∧ (f j).isSome = true ∧ ∀ k, i ≤ k → k < j → f k = none

/-- The last cell below `i` that is no hole. -/
def IsBelow (f : ℕ → Option α) (i : ℕ) : Option ℕ → Prop
  | none => ∀ k < i, f k = none
  | some j => j < i ∧ (f j).isSome = true ∧ ∀ k, j < k → k < i → f k = none

section atPos

variable {f g : ℕ → Option α} {n idx : ℕ} {pos : Option ℕ} {a : α}

lemma length_gather_eq_rank (f : ℕ → Option α) (n : ℕ) : (gather f n).length = rank f n :=
  length_gather f n

variable {i : ℕ}

lemma rank_congr (h : ∀ k < i, g k = f k) : rank g i = rank f i :=
  count_congr fun k hk => by rw [h k hk]

lemma rank_succ_of_isSome (h : (f i).isSome = true) : rank f (i + 1) = rank f i + 1 := by
  rw [rank, count_succ, if_pos h, rank]

lemma rank_eq_of_holes {j : ℕ} (hij : i ≤ j) (h : ∀ k, i ≤ k → k < j → f k = none) :
    rank f j = rank f i :=
  count_eq_of_gap hij fun k h1 h2 hk => by rw [h k h1 h2] at hk; cases hk

lemma rank_lt_rank {j : ℕ} (h : (f i).isSome = true) (hij : i < j) : rank f i < rank f j :=
  count_strict_mono h hij

lemma atPos_congr (h : ∀ i < n, g i = f i) (hpos : PosOk f n pos) :
    atPos g n pos = atPos f n pos := by
  unfold atPos
  rw [gather_congr h]
  refine congrArg _ (map_congr fun i hi => rank_congr fun k hk => h k ?_)
  have := (hpos i hi).1
  omega

lemma atPos_compact (hmv : ∀ i < n, (f i).isSome = true → g (rank f i) = f i)
    (hpos : PosOk f n pos) :
    atPos g (rank f n) (pos.map (rank f)) = atPos f n pos := by
  have hfl : ∀ k < rank f n, (g k).isSome = true := fun k hk => by
    obtain ⟨i, hi, hsome, hr⟩ := exists_count_eq hk
    rw [← hr]
    exact (congrArg isSome (hmv i hi hsome)).trans hsome
  unfold atPos
  rw [rank, gather_compact _ (fun _ _ => Iff.rfl) hmv, Option.map_map]
  refine congrArg _ (map_congr fun i hi => ?_)
  refine count_iff_forall.mpr fun k hk => hfl k (hk.trans_le ?_)
  exact count_monotone _ (hpos i hi).1.le

lemma PosOk.compact (hmv : ∀ i < n, (f i).isSome = true → g (rank f i) = f i)
    (hpos : PosOk f n pos) :
    PosOk g (rank f n) (pos.map (rank f)) := by
  intro j hj
  obtain ⟨i, hi, rfl⟩ := mem_map.mp hj
  obtain ⟨hlt, hsome⟩ := hpos i hi
  exact ⟨rank_lt_rank hsome hlt, by rw [hmv i hlt hsome]; exact hsome⟩

section append

variable (hle : n ≤ idx) (hold : ∀ i < n, g i = f i) (hgap : ∀ i, n ≤ i → i < idx → g i = none)
  (hnew : g idx = some a) (hpos : PosOk f n pos)

include hle hold hgap hnew hpos

lemma atPos_append : atPos g (idx + 1) (some (pos.getD idx)) = (atPos f n pos).append a := by
  unfold atPos append
  refine congrArg₂ _ ?_ ?_
  · rw [gather_succ, hnew, gather_eq_of_holes hle hgap, gather_congr hold]
    rfl
  simp only [map_some, some.injEq, length_gather_eq_rank]
  cases pos with
  | none => exact (rank_eq_of_holes hle hgap).trans (rank_congr hold)
  | some i =>
    have hi := (hpos i rfl).1
    exact rank_congr fun k hk => hold k (by simp only [getD_some] at hk; omega)

omit hgap in
lemma PosOk.append : PosOk g (idx + 1) (some (pos.getD idx)) := by
  rintro j ⟨⟩
  cases pos with
  | none => exact ⟨lt_succ_self idx, by rw [getD_none, hnew]; rfl⟩
  | some i =>
    obtain ⟨hlt, hsome⟩ := hpos i rfl
    exact ⟨by simp only [getD_some]; omega, by rw [getD_some, hold i hlt]; exact hsome⟩

end append

lemma gather_set (hidx : idx < n) (hsome : (f idx).isSome = true) (hnew : g idx = some a)
    (hother : ∀ i < n, i ≠ idx → g i = f i) : gather g n = (gather f n).set (rank f idx) a := by
  induction n with
  | zero => exact absurd hidx (not_lt_zero _)
  | succ n ih =>
    rw [gather_succ, gather_succ]
    rcases Nat.lt_succ_iff_lt_or_eq.mp hidx with hlt | rfl
    · rw [ih hlt fun i hi => hother i (by omega), hother n (by omega) (by omega),
        set_append_left _ _ (by rw [length_gather_eq_rank]; exact rank_lt_rank hsome hlt)]
    · obtain ⟨b, hb⟩ := isSome_iff_exists.mp hsome
      rw [hnew, hb, gather_congr fun i hi => hother i (by omega) (by omega),
        set_append_right _ _ (by rw [length_gather_eq_rank]), length_gather_eq_rank]
      simp

lemma atPos_set (hidx : idx < n) (hsome : (f idx).isSome = true) (hnew : g idx = some a)
    (hother : ∀ i < n, i ≠ idx → g i = f i) (hpos : PosOk f n pos) :
    atPos g n pos = (atPos f n pos).set (rank f idx) a := by
  unfold atPos set
  rw [gather_set hidx hsome hnew hother]
  refine congrArg _ (map_congr fun i hi => count_congr fun k hk => ?_)
  by_cases hk' : k = idx
  · rw [hk', hnew]
    simp [hsome]
  · rw [hother k (by have := (hpos i hi).1; omega) hk']

/-! ### An element less -/

section erase

variable {m : ℕ} {succ : Option ℕ} (hidx : idx < n) (hsome : (f idx).isSome = true)
    (hgone : g idx = none)
  (hother : ∀ i < n, i ≠ idx → g i = f i)

include hidx hsome hgone hother

lemma gather_erase : gather g n = (gather f n).eraseIdx (rank f idx) := by
  induction n with
  | zero => exact absurd hidx (not_lt_zero _)
  | succ n ih =>
    rw [gather_succ, gather_succ]
    rcases Nat.lt_succ_iff_lt_or_eq.mp hidx with hlt | rfl
    · rw [ih hlt fun i hi => hother i (by omega), hother n (by omega) (by omega),
        eraseIdx_append_of_lt_length (by rw [length_gather_eq_rank]; exact rank_lt_rank hsome hlt)]
    · obtain ⟨b, hb⟩ := isSome_iff_exists.mp hsome
      rw [hgone, hb, gather_congr fun i hi => hother i (by omega) (by omega),
        eraseIdx_append_of_length_le (by rw [length_gather_eq_rank]), length_gather_eq_rank]
      simp

lemma rank_erase (hi : i ≤ n) : rank g i = if idx < i then rank f i - 1 else rank f i := by
  split_ifs with hlt
  · have := count_erase (p := fun j => (f j).isSome = true)
      (q := fun j => (g j).isSome = true) hlt hsome
      fun k hk => by
        by_cases hk' : k = idx
        · simp [hk', hgone]
        · rw [hother k (by omega) hk']
          simp [hk']
    simp only [rank]
    omega
  · exact rank_congr fun k hk => hother k (by omega) (by omega)

/-- **A cell becomes a hole**, and the array ends earlier if holes are at its end. -/
theorem atPos_erase (hm : m ≤ n) (htr : ∀ i, m ≤ i → i < n → g i = none)
    (hs : IsFrom f n (idx + 1) succ)
    (hpos : PosOk f n pos) :
    atPos g m (pos.bind fun p => if p = idx then succ else some p) =
    (atPos f n pos).erase (rank f idx) := by
  have hc : gather g m = (gather f n).eraseIdx (rank f idx) := by
    rw [← gather_eq_of_holes hm htr, gather_erase hidx hsome hgone hother]
  unfold atPos erase
  refine congrArg₂ _ hc ?_
  cases pos with
  | none => rfl
  | some p =>
    obtain ⟨hp, hps⟩ := hpos p rfl
    simp only [bind_some, map_some, length_gather_eq_rank]
    rcases lt_trichotomy p idx with hlt | rfl | hgt
    · rw [if_neg hlt.ne, if_pos (rank_lt_rank hps hlt), map_some,
        rank_erase hidx hsome hgone hother hp.le, if_neg hlt.not_gt]
    · rw [if_pos rfl, if_neg (lt_irrefl _), if_neg (lt_irrefl _)]
      have hsp := rank_succ_of_isSome hsome
      cases succ with
      | none =>
        have := rank_eq_of_holes (by omega) hs
        rw [map_none, if_neg (by omega)]
      | some j =>
        obtain ⟨hpj, hj, hjs, hgap⟩ := hs
        have hr := rank_eq_of_holes hpj hgap
        have hlt := rank_lt_rank hjs hj
        rw [if_pos (by omega), map_some, rank_erase hidx hsome hgone hother hj.le,
          if_pos (by omega)]
        refine congrArg some ?_
        omega
    · rw [if_neg hgt.ne', if_neg (rank_lt_rank hsome hgt).not_gt, if_pos (rank_lt_rank hsome hgt),
        map_some, rank_erase hidx hsome hgone hother hp.le, if_pos hgt]

omit hidx hsome hgone in
/-- A position on the deleted element goes to its successor. -/
lemma PosOk.erase (htr : ∀ i, m ≤ i → i < n → g i = none)
    (hs : IsFrom f n (idx + 1) succ) (hpos : PosOk f n pos) :
    PosOk g m (pos.bind fun p => if p = idx then succ else some p) := by
  have hk : ∀ i, i < n → i ≠ idx → (f i).isSome = true → i < m ∧ (g i).isSome = true := by
    intro i hi hne his
    have hg : (g i).isSome = true := by rw [hother i hi hne]; exact his
    refine ⟨not_le.mp fun hle => ?_, hg⟩
    rw [htr i hle hi] at hg
    cases hg
  intro i hi
  obtain ⟨p, hp, hi⟩ := mem_bind_iff.mp hi
  obtain ⟨hpn, hps⟩ := hpos p hp
  split_ifs at hi with hpi
  · cases hi
    obtain ⟨hij, hjn, hj, -⟩ := hs
    exact hk i hjn (by omega) hj
  · cases hi
    exact hk i hpn hpi hps

end erase

variable {pos' : Option ℕ}

/-! ### Moving the cursor -/

lemma atPos_first (h : IsFrom f n 0 pos') : atPos f n pos' = (atPos f n pos).first := by
  unfold atPos first
  refine congrArg _ ?_
  simp only [length_gather_eq_rank]
  have hz : rank f 0 = 0 := count_zero _
  cases pos' with
  | none =>
    have := rank_eq_of_holes (zero_le n) h
    rw [map_none, if_neg (by omega)]
  | some j =>
    obtain ⟨-, hj, hsome, hgap⟩ := h
    have := rank_eq_of_holes (zero_le j) hgap
    have := rank_lt_rank hsome hj
    rw [if_pos (by omega)]
    exact congrArg some (by omega)

lemma atPos_next (hidx : idx < n) (hsome : (f idx).isSome = true) (h : IsFrom f n (idx + 1) pos') :
    atPos f n pos' = (atPos f n (some idx)).next := by
  unfold atPos next
  refine congrArg _ ?_
  simp only [map_some, bind_some, length_gather_eq_rank]
  have hs := rank_succ_of_isSome hsome
  cases pos' with
  | none =>
    have := rank_eq_of_holes (by omega) h
    rw [map_none, if_neg (by omega)]
  | some j =>
    obtain ⟨hij, hj, hjs, hgap⟩ := h
    have := rank_eq_of_holes hij hgap
    have := rank_lt_rank hjs hj
    rw [if_pos (by omega)]
    exact congrArg some (by omega)

lemma map_rank_of_isBelow (h : IsBelow f i pos') :
    pos'.map (rank f) = if 0 < rank f i then some (rank f i - 1) else none := by
  cases pos' with
  | none =>
    have := rank_eq_of_holes (zero_le i) fun k _ => h k
    have hz : rank f 0 = 0 := count_zero _
    rw [map_none, if_neg (by omega)]
  | some j =>
    obtain ⟨hj, hsome, hgap⟩ := h
    have := rank_eq_of_holes (show j + 1 ≤ i by omega) hgap
    have := rank_succ_of_isSome hsome
    rw [if_pos (by omega)]
    exact congrArg some (by omega)

lemma atPos_prev (h : IsBelow f idx pos') : atPos f n pos' = (atPos f n (some idx)).prev := by
  unfold atPos prev
  rw [map_rank_of_isBelow h]
  rfl

lemma atPos_last (h : IsBelow f n pos') : atPos f n pos' = (atPos f n pos).last := by
  unfold atPos last
  rw [map_rank_of_isBelow h, length_gather_eq_rank]

lemma IsFrom.posOk (h : IsFrom f n i pos') : PosOk f n pos' := by
  rintro j ⟨⟩
  exact ⟨h.2.1, h.2.2.1⟩

lemma IsBelow.posOk (h : IsBelow f i pos') (hi : i ≤ n) : PosOk f n pos' := by
  rintro j ⟨⟩
  exact ⟨by have := h.1; omega, h.2.1⟩

end atPos

end CursorList

end PhpInternals.Found

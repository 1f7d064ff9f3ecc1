import PhpInternals.Zend.ZendOperators.Memnstr

/-!
# Exploding a string

Embedding of `php_explode` and `php_explode_negative_limit` (`ext/standard/string.c`). A pointer
into the string is what stands behind it; `steps` bounds the rounds of a loop.
-/

namespace PhpInternals.Ext.Standard

open PhpInternals.Found PhpInternals.Zend.ZendOperators List

/-- The loop of `php_explode` from `p1`, with the delimiter at `p2`. -/
def explodeLoop (delim : List UInt8) :
    ℕ → List UInt8 → ℤ → ℤ → Except SearchError (List (List UInt8))
  | 0, _, _, _ => .error .stuck
  | steps + 1, p1, p2, limit => do
    let rest := p1.drop (p2.toNat + delim.length)
    match ← zendMemnstr rest delim with
    | some next =>
      if 1 < limit - 1 then
        return p1.take p2.toNat :: (← explodeLoop delim steps rest next (limit - 1))
      else return [p1.take p2.toNat, rest]
    | none => return [p1.take p2.toNat, rest]

/-- Source: `php_explode`. -/
def phpExplode (delim : List UInt8) (steps : ℕ) (str : List UInt8) (limit : ℤ) :
    Except SearchError (List (List UInt8)) := do
  match ← zendMemnstr str delim with
  | none => return [str]
  | some p2 => explodeLoop delim steps str p2 limit

/-- The positions behind the first one. -/
def positionsLoop (delim : List UInt8) :
    ℕ → List UInt8 → ℤ → Except SearchError (List (List UInt8))
  | 0, _, _ => .error .stuck
  | steps + 1, p1, p2 => do
    let rest := p1.drop (p2.toNat + delim.length)
    match ← zendMemnstr rest delim with
    | some next => return rest :: (← positionsLoop delim steps rest next)
    | none => return [rest]

/-- From `positions[i]` to the delimiter before `positions[i + 1]`. -/
def pieceAt (delim : List UInt8) (positions : List (List UInt8)) (i : ℕ) : List UInt8 :=
  let p := positions.getD i []
  p.take (p.length - (positions.getD (i + 1) []).length - delim.length)

/-- Source: `php_explode_negative_limit`. -/
def phpExplodeNegativeLimit (delim : List UInt8) (steps : ℕ) (str : List UInt8) (limit : ℤ) :
    Except SearchError (List (List UInt8)) := do
  match ← zendMemnstr str delim with
  | none => return []
  | some p2 =>
    let positions := str :: (← positionsLoop delim steps str p2)
    let toReturn := limit + positions.length
    return (range toReturn.toNat).map (pieceAt delim positions)

/-! ## Splitting from left to right -/

/-- The pieces between the delimiters that are found from left to right, and their number. -/
inductive Split (d : List UInt8) : List UInt8 → ℕ → List (List UInt8) → Prop
  | last {s} : IsFirst d s none → Split d s 0 [s]
  | next {s p n ps} : IsFirst d s (some p) → Split d (s.drop (p.toNat + d.length)) n ps →
    Split d s (n + 1) (s.take p.toNat :: ps)

/-- What is searched in a string: the string itself, and what stands behind each delimiter found. -/
inductive Searched (d : List UInt8) : List UInt8 → List UInt8 → Prop
  | whole {s} : Searched d s s
  | rest {s p t} : IsFirst d s (some p) → Searched d (s.drop (p.toNat + d.length)) t →
    Searched d s t

/-- None of these searches stands still. -/
def AllSearchable (d s : List UInt8) : Prop := ∀ t, Searched d s t → Searchable t d

section

variable {d s : List UInt8} {n : ℕ} {ps : List (List UInt8)}

lemma Split.length_eq (h : Split d s n ps) : ps.length = n + 1 := by
  induction h with
  | last => rfl
  | next _ _ ih => rw [length_cons, ih]

lemma Split.join (h : Split d s n ps) : d.intercalate ps = s := by
  induction h with
  | last => simp
  | @next s p n ps hp hs ih =>
    obtain ⟨b, bs, rfl⟩ := exists_cons_of_length_eq_add_one hs.length_eq
    obtain ⟨-, t, ht⟩ := hp.1
    rw [intercalate_cons_cons, ih, ← drop_drop, ← ht, drop_left, append_assoc, ht, take_append_drop]

lemma Split.not_occursAt (hd : d ≠ []) (h : Split d s n ps) : ∀ q ∈ ps, ∀ i, ¬ OccursAt d q i := by
  induction h with
  | last hs =>
    intro q hq
    rw [mem_singleton.mp hq]
    exact hs
  | @next s p n ps hp hs ih =>
    intro q hq i hi
    rcases mem_cons.mp hq with rfl | hq
    · have hle := hi.add_length_le hd
      have hpo := length_pos_iff_ne_nil.mpr hd
      rw [length_take] at hle
      refine hp.2 i (by have := hp.1.1; omega) ⟨hi.1, hi.2.trans ?_⟩
      have hpr := take_prefix p.toNat s
      exact hpr.drop _
    · exact ih q hq i hi

/-- The pieces when at most `m` are split off; the last one is the rest. -/
def limited (d : List UInt8) (ps : List (List UInt8)) (m : ℕ) : List (List UInt8) :=
  if ps.length ≤ m + 1 then ps else ps.take m ++ [d.intercalate (ps.drop m)]

lemma limited_cons (q : List UInt8) (m : ℕ) :
    limited d (q :: ps) (m + 1) = q :: limited d ps m := by
  simp only [limited, length_cons, Nat.add_le_add_iff_right]
  split_ifs <;> rfl

lemma Split.limited_zero (h : Split d s n ps) : limited d ps 0 = [s] := by
  unfold limited
  split_ifs with hle
  · cases h with
    | last => rfl
    | next _ hs => simp [hs.length_eq] at hle
  · rw [drop_zero, h.join]
    rfl

lemma AllSearchable.rest {p : ℤ} (h : AllSearchable d s) (hp : IsFirst d s (some p)) :
    AllSearchable d (s.drop (p.toNat + d.length)) := fun t ht => h t (.rest hp ht)

variable (hd : d ≠ [])
include hd

lemma length_rest {p : ℤ} (hp : OccursAt d s p) :
    (s.drop (p.toNat + d.length)).length + d.length + p.toNat = s.length ∧ 0 < d.length := by
  have hle := hp.add_length_le hd
  have hpo := hp.1
  rw [length_drop]
  exact ⟨by omega, length_pos_iff_ne_nil.mpr hd⟩

lemma zendMemnstr_eq (ha : AllSearchable d s) {r : Option ℤ} (h : IsFirst d s r) :
    zendMemnstr s d = .ok r := by
  obtain ⟨r', hrn, hr⟩ := (zendMemnstr_first_iff hd s).mpr (ha s .whole)
  rw [hrn, hr.unique h]

lemma exists_split (s : List UInt8) : ∃ n ps, Split d s n ps := by
  induction hs : s.length using Nat.strong_induction_on generalizing s with
  | h k ih =>
    obtain ⟨r, -, hr⟩ := memchrSearch_first hd s
    cases r with
    | none => exact ⟨0, _, .last hr⟩
    | some p =>
      have hl := length_rest hd hr.1
      obtain ⟨n, ps, h⟩ := ih _ (by omega) (s.drop (p.toNat + d.length)) rfl
      exact ⟨n + 1, _, .next hr h⟩

omit hd in
lemma explodeLoop_succ {p1 : List UInt8} {p2 : ℤ} {r : Option ℤ}
    (hr : zendMemnstr (p1.drop (p2.toNat + d.length)) d = .ok r) (limit : ℤ) (steps : ℕ) :
    explodeLoop d (steps + 1) p1 p2 limit =
      (if 1 < limit - 1 then phpExplode d steps (p1.drop (p2.toNat + d.length)) (limit - 1)
      else .ok [p1.drop (p2.toNat + d.length)]).map (p1.take p2.toNat :: ·) := by
  unfold explodeLoop phpExplode
  simp only [hr, bind, pure]
  cases r with
  | none => split_ifs <;> rfl
  | some q =>
    split_ifs
    · cases explodeLoop d steps (p1.drop (p2.toNat + d.length)) q (limit - 1) <;> rfl
    · rfl

/-- A search that stands still keeps the function from returning. -/
lemma Split.allSearchable (h : Split d s n ps) : ∀ steps out (limit : ℤ), n + 2 ≤ limit →
    phpExplode d steps s limit = .ok out → AllSearchable d s := by
  have hfst : ∀ {steps s out limit}, phpExplode d steps s limit = .ok out →
      ∃ r, zendMemnstr s d = .ok r := by
    intro steps s out limit ho
    cases hr : zendMemnstr s d with
    | error e =>
      rw [phpExplode, hr] at ho
      cases ho
    | ok r => exact ⟨r, rfl⟩
  induction h with
  | last hs =>
    rintro steps out limit - ho t (_ | ⟨hp, -⟩)
    · obtain ⟨r, hr⟩ := hfst ho
      exact searchable_of_returns hd hr
    · exact absurd hp.1 (hs _)
  | @next s p n ps hp hs ih =>
    intro steps out limit hl ho t ht
    obtain ⟨r, hr⟩ := hfst ho
    have hsr := searchable_of_returns hd hr
    cases ht with
    | whole => exact hsr
    | rest hp' ht =>
      obtain rfl := Option.some.inj (hp.unique hp')
      obtain ⟨r', hr', hf⟩ := (zendMemnstr_first_iff hd s).mpr hsr
      rw [phpExplode, hr', hf.unique hp'] at ho
      change explodeLoop d steps s _ limit = .ok out at ho
      cases steps with
      | zero => cases ho
      | succ steps =>
        cases hrs : zendMemnstr (s.drop (p.toNat + d.length)) d with
        | error e =>
          rw [explodeLoop, hrs] at ho
          cases ho
        | ok r'' =>
          rw [explodeLoop_succ hrs, if_pos (by omega)] at ho
          cases hex : phpExplode d steps (s.drop (p.toNat + d.length)) (limit - 1) with
          | error e =>
            rw [hex] at ho
            cases ho
          | ok out' => exact ih steps out' (limit - 1) (by omega) hex t ht

lemma Split.explode (h : Split d s n ps) (ha : AllSearchable d s) : ∀ steps ≥ s.length, ∀ m : ℕ,
    phpExplode d steps s (m + 2) = .ok (limited d ps (m + 1)) := by
  induction h with
  | last hs =>
    intro steps _ m
    unfold phpExplode
    rw [zendMemnstr_eq hd ha hs, limited, if_pos (by simp)]
    rfl
  | @next s p n ps hp hs ih =>
    intro steps hsp m
    have hl := length_rest hd hp.1
    obtain ⟨k, rfl⟩ : ∃ k, steps = k + 1 := ⟨steps - 1, by omega⟩
    unfold phpExplode
    rw [zendMemnstr_eq hd ha hp, limited_cons]
    obtain ⟨r, hr, -⟩ := (zendMemnstr_first_iff hd _).mpr (ha.rest hp _ .whole)
    refine (explodeLoop_succ hr (m + 2) k).trans ?_
    cases m with
    | zero =>
      rw [if_neg (by omega), hs.limited_zero]
      rfl
    | succ m =>
      rw [if_pos (by omega), show ((m + 1 : ℕ) + 2 - 1 : ℤ) = m + 2 by
        omega, ih (ha.rest hp) k (by omega) m]
      rfl

lemma Split.positions (h : Split d s n ps) (ha : AllSearchable d s) : ∃ qs, qs.length = n ∧
    (∀ steps ≥ s.length, ∀ p, IsFirst d s (some p) → positionsLoop d steps s p = .ok qs) ∧
    ∀ i < n, ps[i]? = some (pieceAt d (s :: qs) i) := by
  induction h with
  | last hs =>
    refine ⟨[], rfl, fun _ _ p hp => ?_, nofun⟩
    exact absurd hp.1 (hs p)
  | @next s p n ps hp hs ih =>
    obtain ⟨qs, hqs, hr, hpc⟩ := ih (ha.rest hp)
    have hl := length_rest hd hp.1
    refine ⟨s.drop (p.toNat + d.length) :: qs, by rw [length_cons, hqs], ?_, ?_⟩
    · intro steps hsp q hq
      obtain rfl : q = p := Option.some.inj (hq.unique hp)
      obtain ⟨k, rfl⟩ : ∃ k, steps = k + 1 := ⟨steps - 1, by omega⟩
      cases hs with
      | last hs =>
        rw [length_eq_zero_iff.mp hqs]
        simp [positionsLoop, zendMemnstr_eq hd (ha.rest hp) hs, bind, Except.bind,
          pure, Except.pure]
      | next hp' hs =>
        simp [positionsLoop, zendMemnstr_eq hd (ha.rest hp) hp', bind, Except.bind,
          pure, Except.pure,
          hr k (by omega) _ hp']
    · intro i hi
      cases i with
      | zero =>
        simp only [pieceAt, getD_cons_zero, getD_cons_succ, getElem?_cons_zero]
        congr 2
        omega
      | succ i => exact hpc i (by omega)

lemma Split.negative (h : Split d s n ps) (ha : AllSearchable d s) {steps k : ℕ}
    (hsp : s.length ≤ steps) (hk : 0 < k) :
    phpExplodeNegativeLimit d steps s (-k) = .ok (ps.take (ps.length - k)) := by
  obtain ⟨qs, hqs, hr, hpc⟩ := h.positions hd ha
  have hl := h.length_eq
  have hm : (range (ps.length - k)).map (pieceAt d (s :: qs)) = ps.take (ps.length - k) := by
    apply ext_getElem?
    intro i
    rw [getElem?_map, getElem?_take]
    by_cases hi : i < ps.length - k
    · rw [getElem?_range hi, if_pos hi, hpc i (by omega)]
      rfl
    · rw [if_neg hi, getElem?_eq_none (by simpa using hi)]
      rfl
  have hto : (-(k : ℤ) + (s :: qs).length).toNat = ps.length - k := by
    rw [length_cons, hl]
    omega
  unfold phpExplodeNegativeLimit
  cases h with
  | last hs =>
    rw [zendMemnstr_eq hd ha hs, Nat.sub_eq_zero_of_le (by omega)]
    rfl
  | next hp hs =>
    rw [zendMemnstr_eq hd ha hp, ← hm, ← hto]
    simp only [bind, Except.bind, hr steps hsp _ hp]
    rfl

omit hd in
lemma Searched.length_le {t : List UInt8} (h : Searched d s t) : t.length ≤ s.length := by
  induction h with
  | whole => exact le_rfl
  | rest _ _ ih => exact ih.trans (by simp)

end

/-- **Exploding.** The pieces of the delimiters found from left to right, joined again they give the
string and none contains the delimiter. If and only if none of the searches stands still, a limit
leaves the rest as the last piece and a negative one drops pieces from the end. -/
theorem phpExplode_splits_iff (d s : List UInt8) (hd : d ≠ []) :
    (∃ n ps, Split d s n ps ∧ ps.length = n + 1 ∧ d.intercalate ps = s ∧
      (∀ q ∈ ps, ∀ i, ¬ OccursAt d q i) ∧
      ((∀ steps ≥ s.length,
        (∀ m : ℕ, phpExplode d steps s (m + 2) = .ok (limited d ps (m + 1))) ∧
        ∀ k : ℕ, 0 < k → phpExplodeNegativeLimit d steps s (-k) = .ok (ps.take (ps.length - k))) ↔
      AllSearchable d s)) ∧
    (d.length + 1 < 2 ^ 32 ∨ s.length ≤ d.length → AllSearchable d s) := by
  refine ⟨?_, ?_⟩
  · obtain ⟨n, ps, h⟩ := exists_split hd s
    refine ⟨n, ps, h, h.length_eq, h.join, h.not_occursAt hd, fun hr => ?_,
      fun ha steps hsp => ⟨?_, ?_⟩⟩
    · exact h.allSearchable hd s.length _ (n + 2) le_rfl ((hr _ le_rfl).1 n)
    · exact h.explode hd ha steps hsp
    · exact fun k hk => h.negative hd ha hsp hk
  · rintro (hlt | hle) t ht
    · exact searchable_of_lt hlt
    · exact (searchable_of_short (ht.length_le.trans hle)).1

/-- `"a,"` at `","`. -/
theorem phpExplode_splits_iff_comma : ∃ n ps, Split [0x2c] [0x61, 0x2c] n ps ∧ ps.length = n + 1 ∧
    phpExplode [0x2c] 2 [0x61, 0x2c] 2 = .ok (limited [0x2c] ps 1) := by
  obtain ⟨⟨n, ps, h, hl, -, -, hr⟩, ha⟩ := phpExplode_splits_iff [0x2c] [0x61, 0x2c] (by decide)
  exact ⟨n, ps, h, hl, (hr.mpr (ha (.inl (by decide))) 2 le_rfl).1 0⟩

/-! ## Long delimiters -/

lemma preForward_of_not_mem {len i : ℕ} {td : UInt8 → ℕ} {c : UInt8} {needle : List UInt8}
    (hc : c ∉ needle) : preForward len needle i td c = td c := by
  induction needle generalizing i td with
  | nil => rfl
  | cons b needle ih =>
    rw [mem_cons, not_or] at hc
    rw [preForward, ih hc.2, Function.update_of_ne hc.1]

lemma zendMemnstr_stuck {n : ℕ} (hn : n + 1 = 2 ^ 32) :
    zendMemnstr (replicate (n + 1) 0x62) (replicate n 0x61) = .error .stuck := by
  have hl : (replicate n (0x61 : UInt8)).length = n := length_replicate
  have hl' : (replicate (n + 1) (0x62 : UInt8)).length = n + 1 := length_replicate
  have hr : ∀ p : ℤ, 0 ≤ p → p ≤ n → byteAt (replicate (n + 1) 0x62) p = .ok 0x62 := by
    intro p h0 hp
    refine byteAt_eq_ok h0 ?_
    rw [getElem?_replicate, if_pos (by omega)]
  have hsh : zendMemnstrExPre (replicate n 0x61) false 0x62 = 0 := by
    simp only [zendMemnstrExPre, Bool.false_eq_true, if_false]
    rw [preForward_of_not_mem (by simp), hl, hn, Nat.mod_self]
  have hmt : matchLoop (replicate (n + 1) 0x62) (replicate n 0x61) 0 = .ok false := by
    obtain ⟨m, rfl⟩ : ∃ m, n = m + 1 := ⟨n - 1, by omega⟩
    rw [replicate_succ (n := m), matchLoop]
    rfl
  rw [zendMemnstr, hl, if_neg (by omega), if_neg (by omega), if_neg (by omega),
    zendMemnstrEx, if_neg (by omega)]
  apply loopReturn_stuck
  unfold memnstrExRound
  rw [hmt, hl, Int.zero_add, hr n (by omega) le_rfl]
  simp [bind, Except.bind, pure, Except.pure, hsh]

/-- The table of a delimiter of `2 ^ 32 - 1` bytes holds a shift by 0: the search does not end. -/
theorem phpExplode_longDelimiter : phpExplode (replicate (2 ^ 32 - 1) 0x61) (2 ^ 32)
    (replicate (2 ^ 32 - 1 + 1) 0x62) 2 = .error .stuck := by
  unfold phpExplode
  rw [zendMemnstr_stuck (by omega)]
  rfl

end PhpInternals.Ext.Standard

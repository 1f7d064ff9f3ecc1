import PhpInternals.Found.Decimal

/-!
# Decimal floating-point text

The texts `sign? (digits+ [. digits*] | . digits+) ([eE] sign? digits+)?`, and the longest of them
that a string starts with.
-/

namespace PhpInternals.Found

open Option List

/-! ## The texts -/

/-- `[ exp ]`. -/
def IsExp (x : List UInt8) : Prop :=
  x = [] ∨ ∃ m sign ds, (m = 0x65 ∨ m = 0x45) ∧ (sign = [] ∨ sign = [0x2b] ∨ sign = [0x2d]) ∧
    IsDigits ds ∧ x = m :: (sign ++ ds)

/-- `digits+ [. digits*] | . digits+`. -/
def IsMantissa (m : List UInt8) : Prop :=
  (∃ ds, IsDigits ds ∧ (m = ds ∨ ∃ fs, (∀ b ∈ fs, IsDigit b) ∧ m = ds ++ 0x2e :: fs)) ∨
    ∃ fs, IsDigits fs ∧ m = 0x2e :: fs

/-- `sign?`. -/
def IsSign (sg : List UInt8) : Prop := sg = [] ∨ sg = [0x2d] ∨ sg = [0x2b]

/-- A decimal floating-point text. -/
def IsFloat (t : List UInt8) : Prop :=
  ∃ sg m e, IsSign sg ∧ IsMantissa m ∧ IsExp e ∧ t = sg ++ m ++ e

/-- A text with neither point nor exponent. -/
def IsInteger (t : List UInt8) : Prop := ∃ sg ds, IsSign sg ∧ IsDigits ds ∧ t = sg ++ ds

/-- The longest text of a kind that a string starts with. -/
def IsLongestPrefix (P : List UInt8 → Prop) (s t : List UInt8) : Prop :=
  t <+: s ∧ P t ∧ ∀ t', t' <+: s → P t' → t'.length ≤ t.length

variable {s t : List UInt8}

lemma IsLongestPrefix.unique {P : List UInt8 → Prop} {t' : List UInt8} (h : IsLongestPrefix P s t)
    (h' : IsLongestPrefix P s t') : t = t' := by
  have hle := h.2.2 t' h'.1 h'.2.1
  have hge := h'.2.2 t h.1 h.2.1
  exact List.IsPrefix.eq_of_length (prefix_of_prefix_length_le h.1 h'.1 hge) (by omega)

lemma exists_longestPrefix {P : List UInt8 → Prop} (ht : t <+: s) (hP : P t) :
    ∃ u, IsLongestPrefix P s u := by
  classical
  let n := Nat.findGreatest (fun n => ∃ u, u <+: s ∧ P u ∧ u.length = n) s.length
  have hm : ∀ u, u <+: s → P u → u.length ≤ n := fun u hu hPu =>
    Nat.le_findGreatest hu.length_le ⟨u, hu, hPu, rfl⟩
  obtain ⟨u, hu, hPu, hl⟩ : ∃ u, u <+: s ∧ P u ∧ u.length = n :=
    Nat.findGreatest_spec (P := fun n => ∃ u, u <+: s ∧ P u ∧ u.length = n)
      ht.length_le ⟨t, ht, hP, rfl⟩
  exact ⟨u, hu, hPu, fun t' ht' hPt' => hl ▸ hm t' ht' hPt'⟩

variable {α : Type}

/-! ## Taking lists apart -/

lemma exists_span (p : α → Prop) [DecidablePred p] (l : List α) :
    ∃ a b, l = a ++ b ∧ (∀ x ∈ a, p x) ∧ ∀ x, b.head? = some x → ¬ p x := by
  induction l with
  | nil => exact ⟨[], [], rfl, nofun, nofun⟩
  | cons x l ih =>
    by_cases hx : p x
    · obtain ⟨a, b, rfl, ha, hb⟩ := ih
      exact ⟨x :: a, b, rfl, forall_mem_cons.mpr ⟨hx, ha⟩, hb⟩
    · refine ⟨[], x :: l, rfl, nofun, fun y hy => ?_⟩
      rw [← some.inj hy]
      exact hx

lemma span_unique {p : α → Prop} {a b x y : List α} (h : a ++ x = b ++ y) (ha : ∀ c ∈ a, p c)
    (hb : ∀ c ∈ b, p c) (hy : ∀ c, y.head? = some c → ¬ p c) :
    a <+: b ∧ ((∀ c, x.head? = some c → ¬ p c) → a = b ∧ x = y) := by
  induction a generalizing b with
  | nil =>
    refine ⟨ nil_prefix, fun hx => ?_⟩
    cases b with
    | nil => exact ⟨rfl, h⟩
    | cons c b =>
      rw [nil_append] at h
      exact absurd (hb c mem_cons_self) (hx c (by rw [h]; rfl))
  | cons c a ih =>
    rw [forall_mem_cons] at ha
    cases b with
    | nil =>
      rw [nil_append] at h
      exact absurd ha.1 (hy c (by rw [← h]; rfl))
    | cons d b =>
      rw [forall_mem_cons] at hb
      obtain ⟨rfl, hta⟩ := cons.inj h
      obtain ⟨hpr, heq⟩ := ih hta ha.2 hb.2
      refine ⟨cons_prefix_cons.mpr ⟨rfl, hpr⟩, fun hx => ?_⟩
      obtain ⟨rfl, hxy⟩ := heq hx
      exact ⟨rfl, hxy⟩

lemma takeWhile_span {p : α → Prop} [DecidablePred p] {a b : List α} (ha : ∀ c ∈ a, p c)
    (hb : ∀ c, b.head? = some c → ¬ p c) :
    (a ++ b).takeWhile (fun c => decide (p c)) = a ∧
      (a ++ b).dropWhile (fun c => decide (p c)) = b := by
  have hps : ∀ c ∈ a, decide (p c) = true := fun c hc => decide_eq_true (ha c hc)
  rw [takeWhile_append_of_pos hps, dropWhile_append_of_pos hps]
  cases b with
  | nil => simp
  | cons c b => simp [hb c rfl]

/-! ## The parts of a string -/

/-- A string as a sign, the digits behind it and the rest. -/
structure Parts (s sg ds r : List UInt8) : Prop where
  eq : s = sg ++ (ds ++ r)
  sign : IsSign sg
  no_sign : sg = [] → ∀ c, s.head? = some c → c ≠ 0x2d ∧ c ≠ 0x2b
  digits : ∀ b ∈ ds, IsDigit b
  stop : ∀ c, r.head? = some c → ¬ IsDigit c

lemma exists_parts (s : List UInt8) : ∃ sg ds r, Parts s sg ds r := by
  have hsp : ∀ sg rest, s = sg ++ rest → IsSign sg →
      (sg = [] → ∀ c, s.head? = some c → c ≠ 0x2d ∧ c ≠ 0x2b) → ∃ sg ds r, Parts s sg ds r := by
    intro sg rest hs hsg hno
    obtain ⟨ds, r, rfl, hds, hr⟩ := exists_span IsDigit rest
    exact ⟨sg, ds, r, hs, hsg, hno, hds, hr⟩
  cases s with
  | nil => exact hsp [] [] rfl (.inl rfl) (fun _ => nofun)
  | cons c s =>
    by_cases hm : c = 0x2d
    · exact hsp [0x2d] s (by rw [hm]; rfl) (.inr (.inl rfl)) nofun
    by_cases hp : c = 0x2b
    · exact hsp [0x2b] s (by rw [hp]; rfl) (.inr (.inr rfl)) nofun
    · refine hsp [] (c :: s) rfl (.inl rfl) (fun _ d hd => ?_)
      rw [← some.inj hd]
      exact ⟨hm, hp⟩

/-- A fraction or an exponent stands here. -/
def GoesOn (r : List UInt8) : Prop := r.head? = some 0x2e ∨ ∃ e, IsExp e ∧ e ≠ [] ∧ e <+: r

variable {r : List UInt8}

lemma not_goesOn_nil : ¬ GoesOn [] := by
  rintro (h | ⟨e, -, hne, hp⟩)
  · simp at h
  · exact hne (prefix_nil.mp hp)

lemma goesOn_iff : GoesOn r ↔ r.head? = some 0x2e ∨ ∃ e r', r = e :: r' ∧ (e = 0x65 ∨ e = 0x45) ∧
      ((∃ d r'', r' = d :: r'' ∧ IsDigit d) ∨
        ∃ c d r'', r' = c :: d :: r'' ∧ (c = 0x2d ∨ c = 0x2b) ∧ IsDigit d) := by
  refine or_congr_right ⟨?_, ?_⟩
  · rintro ⟨x, rfl | ⟨e, sign, ds, he, hsn, hds, rfl⟩, hne, tail, rfl⟩
    · exact absurd rfl hne
    obtain ⟨d, ds', rfl⟩ := exists_cons_of_ne_nil hds.1
    have hd := hds.2 d mem_cons_self
    refine ⟨e, sign ++ d :: ds' ++ tail, by simp, he, ?_⟩
    rcases hsn with rfl | rfl | rfl
    · exact .inl ⟨d, ds' ++ tail, rfl, hd⟩
    · exact .inr ⟨0x2b, d, ds' ++ tail, rfl, .inr rfl, hd⟩
    · exact .inr ⟨0x2d, d, ds' ++ tail, rfl, .inl rfl, hd⟩
  rintro ⟨e, r', rfl, he, ⟨d, r'', rfl, hd⟩ | ⟨c, d, r'', rfl, hc, hd⟩⟩
  · refine ⟨[e, d], .inr ⟨e, [], [d], he, .inl rfl, ⟨by simp, ?_⟩, rfl⟩, by simp, r'', rfl⟩
    intro b hb
    rw [mem_singleton.mp hb]
    exact hd
  refine ⟨[e, c, d], .inr ⟨e, [c], [d], he, ?_, ⟨by simp, ?_⟩, rfl⟩, by simp, r'', rfl⟩
  · rcases hc with rfl | rfl
    · exact .inr (.inr rfl)
    · exact .inr (.inl rfl)
  · intro b hb
    rw [mem_singleton.mp hb]
    exact hd

/-- A fraction without digits before it stands here. -/
def PointDigit (r : List UInt8) : Prop := ∃ d, IsDigit d ∧ [0x2e, d] <+: r

lemma IsMantissa.head {m : List UInt8} (h : IsMantissa m) :
    ∃ c m', m = c :: m' ∧ (IsDigit c ∨ c = 0x2e) := by
  have hdg : ∀ ds x, IsDigits ds → ∃ c m', ds ++ x = c :: m' ∧ (IsDigit c ∨ c = 0x2e) := by
    intro ds x hds
    obtain ⟨c, ds', rfl⟩ := exists_cons_of_ne_nil hds.1
    exact ⟨c, ds' ++ x, rfl, .inl (hds.2 c mem_cons_self)⟩
  obtain ⟨ds, hds, rfl | ⟨fs, -, rfl⟩⟩ | ⟨fs, -, rfl⟩ := h
  · simpa using hdg m [] hds
  · exact hdg ds _ hds
  · exact ⟨0x2e, fs, rfl, .inr rfl⟩

lemma ne_sign_of_digit {c : UInt8} (h : IsDigit c ∨ c = 0x2e) : c ≠ 0x2d ∧ c ≠ 0x2b := by
  constructor
  · rintro rfl
    exact absurd h (by decide)
  · rintro rfl
    exact absurd h (by decide)

variable {sg ds : List UInt8}

lemma Parts.sign_eq (h : Parts s sg ds r) {sg' m x : List UInt8} (hsg : IsSign sg')
    (hm : IsMantissa m) (hs : sg' ++ (m ++ x) = s) :
    sg' = sg ∧ m ++ x = ds ++ r := by
  obtain ⟨c, m', hc, hhd⟩ := hm.head
  have hno := ne_sign_of_digit hhd
  have heq := hs.trans h.eq
  rcases hsg with rfl | hsg
  · rcases h.sign with rfl | hsn
    · exact ⟨rfl, heq⟩
    · -- the string has a sign, and the text starts with a digit or a point
      rw [hc] at heq
      rcases hsn with rfl | rfl
      · exact absurd (cons.inj heq).1 hno.1
      · exact absurd (cons.inj heq).1 hno.2
  rcases h.sign with rfl | hsn
  · have hf := h.no_sign rfl
    rcases hsg with rfl | rfl
    · exact absurd rfl (hf 0x2d (by rw [← hs]; rfl)).1
    · exact absurd rfl (hf 0x2b (by rw [← hs]; rfl)).2
  · rcases hsg with rfl | rfl <;> rcases hsn with rfl | rfl
    any_goals exact ⟨rfl, (cons.inj heq).2⟩
    all_goals exact absurd (cons.inj heq).1 (by decide)

/-- **The texts that a string starts with.** -/
theorem float_of_parts (h : Parts s sg ds r) (ht : t <+: s) (hf : IsFloat t) :
    (∃ ds', IsDigits ds' ∧ ds' <+: ds ∧ t = sg ++ ds') ∨ (ds ≠ [] ∧ GoesOn r) ∨
      (ds = [] ∧ PointDigit r) := by
  obtain ⟨sg', m, e, hsg', hm, he, rfl⟩ := hf
  obtain ⟨tail, hta⟩ := ht
  obtain ⟨rfl, heq⟩ := h.sign_eq (x := e ++ tail) hsg' hm (by rw [← hta]; simp)
  have hp : ¬ IsDigit 0x2e := by decide
  obtain ⟨ds', hds', rfl | ⟨fs, -, rfl⟩⟩ | ⟨fs, hfs, rfl⟩ := hm
  · -- digits only: an exponent stands behind all of them
    obtain ⟨hpr, hmx⟩ := span_unique heq hds'.2 h.digits h.stop
    rcases he with rfl | ⟨x, sign, es, hx, hsn, hes, rfl⟩
    · exact .inl ⟨m, hds', hpr, by simp⟩
    have hl : ∀ c, (x :: (sign ++ es) ++ tail).head? = some c → ¬ IsDigit c := by
      intro c hc
      rw [← some.inj hc]
      rcases hx with rfl | rfl <;> decide
    obtain ⟨rfl, hr⟩ := hmx hl
    refine .inr (.inl ⟨hds'.1, .inr ⟨x :: (sign ++ es), ?_, cons_ne_nil _ _, tail, hr⟩⟩)
    exact .inr ⟨x, sign, es, hx, hsn, hes, rfl⟩
  · rw [append_assoc] at heq
    obtain ⟨-, hmx⟩ := span_unique heq hds'.2 h.digits h.stop
    obtain ⟨rfl, hr⟩ := hmx fun c hc => by
      rw [← some.inj hc]
      exact hp
    exact .inr (.inl ⟨hds'.1, .inl (by rw [← hr]; rfl)⟩)
  cases ds with
  | nil =>
    obtain ⟨d, fs', rfl⟩ := exists_cons_of_ne_nil hfs.1
    exact .inr (.inr ⟨rfl, d, hfs.2 d mem_cons_self, fs' ++ (e ++ tail), by simpa using heq⟩)
  | cons d ds =>
    have hd := h.digits d mem_cons_self
    rw [← (cons.inj heq).1] at hd
    exact absurd hd hp

/-! ## The longest text -/

lemma isFloat_integer (hsg : IsSign sg) (hds : IsDigits ds) : IsFloat (sg ++ ds) :=
  ⟨sg, ds, [], hsg, .inl ⟨ds, hds, .inl rfl⟩, .inl rfl, by simp⟩

section

variable (h : Parts s sg ds r)
include h

lemma not_float_of_parts (hn : ds = []) (hr : ¬ PointDigit r) (ht : t <+: s) : ¬ IsFloat t := by
  intro hf
  obtain ⟨ds', hds', hpr, -⟩ | ⟨hne, -⟩ | ⟨-, hp⟩ := float_of_parts h ht hf
  · exact hds'.1 (prefix_nil.mp (hn ▸ hpr))
  · exact hne hn
  · exact hr hp

lemma longest_integer (hne : ds ≠ []) (hr : ¬ GoesOn r) : IsLongestPrefix IsFloat s (sg ++ ds) := by
  refine ⟨⟨r, by rw [h.eq]; simp⟩, isFloat_integer h.sign ⟨hne, h.digits⟩, fun t ht hf => ?_⟩
  obtain ⟨ds', -, hp, rfl⟩ | ⟨-, hg⟩ | ⟨hn, -⟩ := float_of_parts h ht hf
  · have hle := hp.length_le
    simp only [length_append]
    omega
  · exact absurd hg hr
  · exact absurd hn hne

lemma exists_longer (hr : (ds ≠ [] ∧ GoesOn r) ∨ (ds = [] ∧ PointDigit r)) :
    ∃ t, t <+: s ∧ IsFloat t ∧ (sg ++ ds).length < t.length := by
  obtain ⟨hne, hp | ⟨e, he, hn, tail, rfl⟩⟩ | ⟨rfl, d, hd, tail, rfl⟩ := hr
  · obtain ⟨tail, rfl⟩ : ∃ tail, r = 0x2e :: tail := by
      cases r with
      | nil => simp at hp
      | cons c tail => exact ⟨tail, by rw [some.inj hp]⟩
    refine ⟨sg ++ (ds ++ [0x2e]) ++ [], ⟨tail, by rw [h.eq]; simp⟩, ?_, by simp⟩
    exact ⟨sg, ds ++ [0x2e], [], h.sign, .inl ⟨ds, ⟨hne, h.digits⟩, .inr ⟨[], nofun, rfl⟩⟩,
      .inl rfl, rfl⟩
  · refine ⟨sg ++ ds ++ e, ⟨tail, by rw [h.eq]; simp⟩, ?_, ?_⟩
    · exact ⟨sg, ds, e, h.sign, .inl ⟨ds, ⟨hne, h.digits⟩, .inl rfl⟩, he, rfl⟩
    · have := length_pos_iff_ne_nil.mpr hn
      simp only [length_append]
      omega
  · refine ⟨sg ++ [0x2e, d] ++ [], ⟨tail, by rw [h.eq]; simp⟩, ?_, by simp⟩
    refine ⟨sg, [0x2e, d], [], h.sign, .inr ⟨[d], ⟨by simp, fun b hb => ?_⟩, rfl⟩, .inl rfl, rfl⟩
    rw [mem_singleton.mp hb]
    exact hd

lemma not_isInteger_of_longest
    (hr : (ds ≠ [] ∧ GoesOn r) ∨ (ds = [] ∧ PointDigit r)) (ht : IsLongestPrefix IsFloat s t) :
    ¬ IsInteger t := by
  rintro ⟨sg', ds', hsg', hds', rfl⟩
  obtain ⟨tail, hta⟩ := ht.1
  obtain ⟨rfl, heq⟩ := h.sign_eq (x := tail) hsg' (.inl ⟨ds', hds', .inl rfl⟩) (by rw [← hta]; simp)
  have hp := (span_unique heq hds'.2 h.digits h.stop).1.length_le
  obtain ⟨t', ht', hf, hlt⟩ := exists_longer h hr
  have hle := ht.2.2 t' ht' hf
  simp only [length_append] at hlt hle
  omega

end

end PhpInternals.Found

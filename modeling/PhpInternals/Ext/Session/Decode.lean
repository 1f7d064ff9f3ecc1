import PhpInternals.Zend.ZendHash.OrderedTable

/-!
# Session decoders

The `php` and `php_binary` decoders of `session.c`, over any `php_var_unserialize`. When `php`
returns, no entry points to a temporary slot; `php_binary` leaves such entries if the text is cut
short.
-/

namespace PhpInternals.Ext.Session

open Function Zend.ZendHash

/-- `var_hash`: `var_tmp_var` with `php_var_unserialize`, which give the new slot and the number of
bytes read, and the values of the slots. -/
structure VarHash (H V : Type) where
  unserialize : List UInt8 → H → Option (ℕ × ℕ) × H
  value : H → ℕ → V

/-- A session variable, or the `IS_PTR` to the slot that holds it. -/
inductive Entry (V : Type) where
  | ptr (slot : ℕ)
  | val (v : V)

/-- The session array; the order of its entries plays no part. -/
abbrev Vars (V : Type) := HashKey (List UInt8) → Option (Entry V)

/-- Where a decoder returns: `SUCCESS` if `finished`, otherwise `FAILURE`. -/
inductive Exit where
  | finished
  | badValue
  | badLength

/-- No entry points to a slot. -/
def Resolved {V : Type} (vars : Vars V) : Prop := ∀ k slot, vars k ≠ some (.ptr slot)

variable {H V : Type} (m : VarHash H V)

/-- Integer keys are skipped. Source: `php_session_normalize_vars`. -/
def phpSessionNormalizeVars (h : H) (vars : Vars V) : Vars V
  | .index n => vars (.index n)
  | .str key => (vars (.str key)).map fun
    | .ptr slot => .val (m.value h slot)
    | .val v => .val v

/-- `PS_SERIALIZER_DECODE_FUNC(php)`. -/
def psDecodePhp (text : List UInt8) (h : H) (vars : Vars V) : Exit × Vars V :=
  if 0x7c ∈ text then
    let name := text.takeWhile (· ≠ 0x7c)
    let q := text.drop (name.length + 1)
    match m.unserialize q h with
    | (some (slot, used), h) =>
      psDecodePhp (q.drop used) h (update vars (.str name) (some (.ptr slot)))
    | (none, h) => (.badValue, phpSessionNormalizeVars m h vars)
  else (.finished, phpSessionNormalizeVars m h vars)
termination_by text.length
decreasing_by
  have := List.length_pos_of_mem ‹_›
  simp only [List.length_drop]
  omega

/-- `PS_SERIALIZER_DECODE_FUNC(php_binary)`. -/
def psDecodePhpBinary (text : List UInt8) (h : H) (vars : Vars V) : Exit × Vars V :=
  match text with
  | [] => (.finished, phpSessionNormalizeVars m h vars)
  | b :: p =>
    let namelen := b.toNat &&& 127
    if 127 < namelen ∨ p.length + 1 ≤ namelen then (.badLength, vars)
    else match m.unserialize (p.drop namelen) h with
      | (some (slot, used), h) => psDecodePhpBinary ((p.drop namelen).drop used) h
          (update vars (.str (p.take namelen)) (some (.ptr slot)))
      | (none, h) => (.badValue, phpSessionNormalizeVars m h vars)
termination_by text.length
decreasing_by
  simp only [List.length_drop, List.length_cons]
  omega

/-- The name length of a variable that begins with `b`. -/
def namelen (b : UInt8) : ℕ := b.toNat &&& 127

/-- Variables in the format of `php_binary`, and then a name length that reaches behind the end. -/
inductive Truncated : List UInt8 → H → Prop
  | badLength {b : UInt8} {p : List UInt8} {h : H} (hl : p.length < namelen b) :
    Truncated (b :: p) h
  | more {b : UInt8} {p : List UInt8} {h h' : H} {slot used : ℕ} (hl : namelen b ≤ p.length)
      (hu : m.unserialize (p.drop (namelen b)) h = (some (slot, used), h'))
      (hr : Truncated ((p.drop (namelen b)).drop used) h') : Truncated (b :: p) h

/-- The same with a variable at the beginning. -/
def CutShort (text : List UInt8) (h : H) : Prop :=
  ∃ b p h' slot used, text = b :: p ∧ namelen b ≤ p.length ∧
    m.unserialize (p.drop (namelen b)) h = (some (slot, used), h') ∧
      Truncated m ((p.drop (namelen b)).drop used) h'

/-- A decoder never makes the entry of an integer key point to a slot. -/
def IndexResolved (vars : Vars V) : Prop := ∀ n slot, vars (.index n) ≠ some (.ptr slot)

section
variable {m} {text : List UInt8} {h : H} {vars : Vars V}

lemma IndexResolved.update (hv : IndexResolved vars) (name : List UInt8) (e : Option (Entry V)) :
    IndexResolved (update vars (.str name) e) := by
  intro n slot
  rw [update_of_ne (by simp)]
  exact hv n slot

lemma IndexResolved.normalize (hv : IndexResolved vars) :
    Resolved (phpSessionNormalizeVars m h vars) := by
  intro k slot hk
  cases k with
  | index n => exact hv n slot hk
  | str key =>
    obtain ⟨e, -, he⟩ := Option.map_eq_some_iff.mp hk
    cases e <;> cases he

lemma not_resolved_update (name : List UInt8) (slot : ℕ) :
    ¬ Resolved (update vars (.str name) (some (.ptr slot))) := fun h => h _ slot (update_self ..)

lemma psDecodePhp_resolved (hv : IndexResolved vars) : Resolved (psDecodePhp m text h vars).2 := by
  fun_induction psDecodePhp m text h vars
  case case1 ih => exact ih (hv.update _ _)
  all_goals exact hv.normalize

lemma psDecodePhpBinary_resolved (hv : IndexResolved vars)
    (he : (psDecodePhpBinary m text h vars).1 ≠ .badLength) :
    Resolved (psDecodePhpBinary m text h vars).2 := by
  fun_induction psDecodePhpBinary m text h vars
  case case2 => exact absurd rfl he
  case case3 ih => exact ih (hv.update _ _) he
  all_goals exact hv.normalize

/-- The length check leaves the pointers as they are. -/
lemma psDecodePhpBinary_not_resolved (hv : ¬ Resolved vars)
    (he : (psDecodePhpBinary m text h vars).1 = .badLength) :
    ¬ Resolved (psDecodePhpBinary m text h vars).2 := by
  fun_induction psDecodePhpBinary m text h vars
  case case2 => exact hv
  case case3 ih => exact ih (not_resolved_update _ _) he
  all_goals cases he

lemma psDecodePhpBinary_more {b : UInt8} {p : List UInt8} {h' : H} {slot used : ℕ}
    (hl : namelen b ≤ p.length)
    (hu : m.unserialize (p.drop (namelen b)) h = (some (slot, used), h')) :
    psDecodePhpBinary m (b :: p) h vars = psDecodePhpBinary m ((p.drop (namelen b)).drop used) h'
      (update vars (.str (p.take (namelen b))) (some (.ptr slot))) := by
  unfold namelen at *
  have hlt : ¬ 127 < b.toNat &&& 127 := Nat.and_le_right.not_gt
  rw [psDecodePhpBinary, if_neg (by omega), hu]

/-- The exit of the length check, by what is in the text. -/
lemma psDecodePhpBinary_badLength_iff :
    (psDecodePhpBinary m text h vars).1 = .badLength ↔ Truncated m text h := by
  fun_induction psDecodePhpBinary m text h vars with
  | case1 => exact ⟨nofun, nofun⟩
  | case2 h vars b p n hn =>
    exact iff_of_true rfl (.badLength (hn.resolve_left (Nat.and_le_right.not_gt)))
  | case3 h vars b p n hn slot used h' hu ih =>
    refine ih.trans ⟨.more (by simp only [namelen]; omega) hu, fun ht => ?_⟩
    cases ht with
    | badLength hl => exact absurd (.inr hl) hn
    | more _ hu' hr =>
      obtain ⟨h1, rfl⟩ := Prod.mk.inj (hu.symm.trans hu')
      obtain ⟨-, rfl⟩ := Prod.mk.inj (Option.some.inj h1)
      exact hr
  | case4 h vars b p n hn h' hu =>
    refine iff_of_false nofun fun ht => ?_
    cases ht with
    | badLength hl => exact hn (.inr hl)
    | more _ hu' _ => cases hu.symm.trans hu'

end

/-- Reads `N;` only. -/
def nullOnly : VarHash Unit Unit where
  unserialize text _ := (if text.take 2 = [0x4e, 0x3b] then some (0, 2) else none, ())
  value _ _ := ()

end PhpInternals.Ext.Session

import Mathlib.Data.List.Basic
import Mathlib.Tactic

/-!
# `var_unserializer.re`: the slots of a `var_hash`

A call that fails clears the slots it has pushed, but those of an empty `var_hash` stay.
-/

namespace PhpInternals.Ext.Standard

open List

variable {Z : Type}

/-! ## The slots -/

/-- The used slots of each `var_entries`, from `first` to `last`. `Z` stands for `zval *` and `none`
for NULL. -/
abbrev VarHash (Z : Type) := List (List (Option Z))

/-- Source: `VAR_ENTRIES_MAX`. -/
def varEntriesMax : ℕ := 1024

/-- Source: `var_push`. -/
def varPush (rval : Z) : VarHash Z → VarHash Z
  | [] => [[some rval]]
  | [e] => if e.length = varEntriesMax then [e, [some rval]] else [e ++ [some rval]]
  | e :: es => e :: varPush rval es

/-- Source: `var_replace`. -/
def varReplace [DecidableEq Z] (ozval nzval : Z) (h : VarHash Z) : VarHash Z :=
  h.map (map fun data => if data = some ozval then some nzval else data)

/-- Source: `var_access`. -/
def varAccess : VarHash Z → ℤ → Option Z
  | [], _ => none
  | e :: es, id =>
    if varEntriesMax ≤ id ∧ e.length = varEntriesMax then varAccess es (id - varEntriesMax)
    else if id < 0 ∨ e.length ≤ id then none else (e[id.toNat]?).join

/-- The slots from `s` on set to NULL. -/
def nullFrom (s : ℕ) (data : List (Option Z)) : List (Option Z) :=
  data.mapIdx fun i d => if i < s then d else none

/-- The loop of `php_var_unserialize` from slot `s` of the first of these blocks on. -/
def clear : ℕ → VarHash Z → VarHash Z
  | _, [] => []
  | s, e :: es => nullFrom s e :: clear 0 es

/-- The loop starts in the block that is the last of `orig`, behind the slots used there; there is
none if `orig` is empty. -/
def rollBack : (orig h : VarHash Z) → VarHash Z
  | [], h => h
  | [o], h => clear o.length h
  | _ :: os, e :: es => e :: rollBack os es
  | _, [] => []

lemma varPush_cons (rval : Z) {e : List (Option Z)} {es : VarHash Z} (hne : es ≠ []) :
    varPush rval (e :: es) = e :: varPush rval es := by
  cases es with
  | nil => exact absurd rfl hne
  | cons f fs => rfl

lemma rollBack_cons {o e : List (Option Z)} {os es : VarHash Z} (hne : os ≠ []) :
    rollBack (o :: os) (e :: es) = e :: rollBack os es := by
  cases os with
  | nil => exact absurd rfl hne
  | cons f fs => rfl

/-- `var_access` gives values of slots. -/
lemma mem_of_varAccess {h : VarHash Z} {id : ℤ} {z : Z} (hz : varAccess h id = some z) :
    some z ∈ h.flatten := by
  fun_induction varAccess with
  | case1 => cases hz
  | case2 e es id _ ih => exact mem_append_right _ (ih hz)
  | case3 => cases hz
  | case4 e es id =>
    exact mem_append_left _ (mem_of_getElem? (Option.join_eq_some_iff.mp hz))

lemma nullFrom_append {s : ℕ} {a : List (Option Z)} (hs : a.length ≤ s) (b : List (Option Z)) :
    nullFrom s (a ++ b) = a ++ nullFrom (s - a.length) b := by
  have ha : a.mapIdx (fun i d => if i < s then d else none) = a :=
    ext_getElem (by simp) fun i _ hi => by simp [hi.trans_le hs]
  simp [nullFrom, mapIdx_append, ha, Nat.lt_sub_iff_add_lt]

lemma nullFrom_zero (data : List (Option Z)) : nullFrom 0 data = replicate data.length none := by
  simp [nullFrom, mapIdx_eq_replicate_iff]

lemma flatten_clear_zero (h : VarHash Z) :
    (clear 0 h).flatten = replicate h.flatten.length none := by
  induction h with
  | nil => rfl
  | cons e es ih =>
    rw [clear, flatten_cons, ih, nullFrom_zero, flatten_cons, length_append, replicate_add]

/-! ## What is behind the slots of before -/

/-- `g` has the slots of `h` and more behind them. -/
inductive Grown : (h g : VarHash Z) → Prop
  | last (e t : List (Option Z)) (rest : VarHash Z) : Grown [e] ((e ++ t) :: rest)
  | cons (e : List (Option Z)) {h g : VarHash Z} : Grown h g → Grown (e :: h) (e :: g)

namespace Grown

variable {h g g' : VarHash Z}

lemma ne_nil (hg : Grown h g) : h ≠ [] ∧ g ≠ [] := by
  cases hg <;> simp

lemma refl (hne : h ≠ []) : Grown h h := by
  induction h with
  | nil => exact absurd rfl hne
  | cons e es ih =>
    cases es with
    | nil => simpa using last e [] []
    | cons f fs => exact cons e (ih (by simp))

lemma varPush (hg : Grown h g) (rval : Z) : Grown h (varPush rval g) := by
  induction hg with
  | last e t rest =>
    cases rest with
    | nil =>
      rw [Standard.varPush]
      split_ifs
      · exact last ..
      · simpa using last e (t ++ [some rval]) []
    | cons f fs => exact last ..
  | cons e hg ih => exact varPush_cons rval hg.ne_nil.2 ▸ cons e ih

lemma varReplace [DecidableEq Z] (hg : Grown h g) {ozval : Z} (nzval : Z)
    (hno : some ozval ∉ h.flatten) : Grown h (varReplace ozval nzval g) := by
  have hs : ∀ e : List (Option Z), some ozval ∉ e →
      e.map (fun data => if data = some ozval then some nzval else data) = e := by
    intro e he
    refine (map_congr_left fun d hd => if_neg ?_).trans (map_id' e)
    rintro rfl
    exact he hd
  induction hg with
  | last e t rest =>
    simp only [Standard.varReplace, map_cons, map_append, hs e (by simpa using hno)]
    exact last ..
  | cons e hg ih =>
    simp only [flatten_cons, mem_append, not_or] at hno
    rw [Standard.varReplace, map_cons, hs e hno.1]
    exact cons e (ih hno.2)

/-- The roll-back of a call that began later. -/
lemma rollBack (hg : Grown h g) (hg' : Grown h g') : Grown h (rollBack g g') := by
  induction hg generalizing g' with
  | last e t rest =>
    cases hg' with
    | cons _ h => exact absurd rfl h.ne_nil.1
    | last _ t' rest' =>
      cases rest with
      | nil =>
        rw [Standard.rollBack, clear, nullFrom_append (by simp)]
        exact last ..
      | cons f fs => exact last ..
  | cons e hg ih =>
    cases hg' with
    | last => exact absurd rfl hg.ne_nil.1
    | cons _ hg' => exact rollBack_cons hg.ne_nil.2 ▸ cons e (ih hg')

/-- A rollback keeps the old slots and clears the new ones. -/
lemma flatten_rollBack (hg : Grown h g) :
    ∃ k, (Standard.rollBack h g).flatten = h.flatten ++ replicate k none := by
  induction hg with
  | last e t rest =>
    refine ⟨t.length + rest.flatten.length, ?_⟩
    rw [Standard.rollBack, clear, nullFrom_append le_rfl, Nat.sub_self, nullFrom_zero,
      flatten_cons, flatten_clear_zero]
    simp
  | cons e hg ih =>
    obtain ⟨k, hk⟩ := ih
    exact ⟨k, by simp [rollBack_cons hg.ne_nil.1, hk]⟩

end Grown

/-! ## Calls -/

/-- What the code of a rule does to the `var_hash`: it pushes the zvals that it fills, and a class's
`unserialize` handler calls `php_var_unserialize` (`inner` is what happens in it) or `var_replace`.
-/
inductive Rule (Z : Type)
  | done
  | push (rval : Z) (rest : Rule Z)
  | replace (ozval nzval : Z) (rest : Rule Z)
  | call (inner : Rule Z) (result : Bool) (rest : Rule Z)

/-- The zvals that `var_replace` looks for. -/
def Rule.replaced : Rule Z → List Z
  | done => []
  | push _ rest => rest.replaced
  | replace ozval _ rest => ozval :: rest.replaced
  | call inner _ rest => inner.replaced ++ rest.replaced

/-- The code pushes nothing. -/
def Rule.quiet : Rule Z → Bool
  | done => true
  | push _ _ => false
  | replace _ _ rest => rest.quiet
  | call inner _ rest => inner.quiet && rest.quiet

variable [DecidableEq Z]

/-- The `var_hash` after the code of a rule. -/
def Rule.run : Rule Z → VarHash Z → VarHash Z
  | done, h => h
  | push rval rest, h => rest.run (varPush rval h)
  | replace ozval nzval rest, h => rest.run (varReplace ozval nzval h)
  | call inner result rest, h =>
    rest.run (if result then inner.run h else rollBack h (inner.run h))

/-- `text` are the bytes from `*p` to `max`, `rule` and `result` what the rule that they match does
and returns. Source: `php_var_unserialize_internal`. -/
def phpVarUnserializeInternal (rval : Z) (text : List UInt8) (rule : Rule Z) (result : Bool)
    (h : VarHash Z) : Bool × VarHash Z :=
  if text = [] then (false, h)
  else (result, rule.run (if text.head? = some 'R'.toUInt8 then h else varPush rval h))

/-- The call and the roll-back after a failure. Source: `php_var_unserialize`. -/
def phpVarUnserialize (rval : Z) (text : List UInt8) (rule : Rule Z) (result : Bool)
    (h : VarHash Z) : Bool × VarHash Z :=
  let r := phpVarUnserializeInternal rval text rule result h
  (r.1, if r.1 then r.2 else rollBack h r.2)

variable {h g : VarHash Z} {rval : Z} {text : List UInt8} {rule : Rule Z} {result : Bool}

/-- A rule pushes, and replaces what it pushed itself. -/
lemma Grown.run (hg : Grown h g) (ho : ∀ z ∈ rule.replaced, some z ∉ h.flatten) :
    Grown h (rule.run g) := by
  induction rule generalizing g with
  | done => exact hg
  | push rval rest ih => exact ih (hg.varPush rval) ho
  | replace ozval nzval rest ih =>
    exact ih (hg.varReplace nzval (ho ozval (.head _))) fun z hz => ho z (.tail _ hz)
  | call inner result rest ihi ihr =>
    have hin := ihi hg fun z hz => ho z (mem_append_left _ hz)
    refine ihr ?_ fun z hz => ho z (mem_append_right _ hz)
    split_ifs
    · exact hin
    · exact hg.rollBack hin

/-- Slot 0 holds a zval. -/
def Held (g : VarHash Z) : Prop := ∃ z e es, g = (some z :: e) :: es

omit [DecidableEq Z] in
lemma Held.rollBack (hg : Held g) (hh : Held h) : Held (rollBack g h) := by
  obtain ⟨z, e, es, rfl⟩ := hg
  obtain ⟨z', e', es', rfl⟩ := hh
  cases es with
  | nil => exact ⟨z', _, _, by rw [Standard.rollBack, clear, nullFrom, mapIdx_cons]; rfl⟩
  | cons f fs => exact ⟨z', e', _, rfl⟩

/-- A zval in slot 0 is never cleared by a call that began later. -/
lemma Held.run (hg : Held g) : Held (rule.run g) := by
  induction rule generalizing g with
  | done => exact hg
  | push rval rest ih =>
    obtain ⟨z, e, es, rfl⟩ := hg
    refine ih ?_
    cases es with
    | nil =>
      rw [varPush]
      split_ifs
      · exact ⟨z, e, _, rfl⟩
      · exact ⟨z, _, _, rfl⟩
    | cons f fs => exact ⟨z, e, _, rfl⟩
  | replace ozval nzval rest ih =>
    obtain ⟨z, e, es, rfl⟩ := hg
    refine ih ?_
    rw [varReplace, map_cons, map_cons]
    split_ifs
    · exact ⟨nzval, _, _, rfl⟩
    · exact ⟨z, _, _, rfl⟩
  | call inner result rest ihi ihr =>
    refine ihr ?_
    split_ifs
    · exact ihi hg
    · exact hg.rollBack (ihi hg)

/-- In an empty `var_hash` nothing is cleared. -/
lemma run_nil (rule : Rule Z) :
    rule.run [] = [] ∧ rule.quiet = true ∨ Held (rule.run []) ∧ rule.quiet = false := by
  induction rule with
  | done => exact .inl ⟨rfl, rfl⟩
  | push rval rest ih =>
    have hh : Held (varPush rval []) := ⟨rval, [], [], rfl⟩
    exact .inr ⟨hh.run, rfl⟩
  | replace ozval nzval rest ih => exact ih
  | call inner result rest ihi ihr =>
    have hrb : ∀ g : VarHash Z, (if result then g else rollBack [] g) = g := fun g => by
      split_ifs <;> rfl
    rw [Rule.run, hrb, Rule.quiet]
    rcases ihi with ⟨hn, hq⟩ | ⟨hh, hq⟩
    · rw [hn, hq]
      exact ihr
    · exact .inr ⟨hh.run, by rw [hq, Bool.false_and]⟩

/-- The call pushes a zval: its own, unless the text begins with `R`, or one of the rule. -/
def Pushes (text : List UInt8) (rule : Rule Z) : Prop :=
  text ≠ [] ∧ (text.head? = some 'R'.toUInt8 → rule.quiet = false)

/-- The slots of before are unchanged and the others NULL; no `r:` or `R:` finds another value. -/
def RolledBack (h h' : VarHash Z) : Prop :=
  (∃ k, h'.flatten = h.flatten ++ replicate k none) ∧
    ∀ id z, varAccess h' id = some z → some z ∈ h.flatten

omit [DecidableEq Z] in
lemma rolledBack_iff : RolledBack h g ↔ ∃ k, g.flatten = h.flatten ++ replicate k none := by
  refine ⟨And.left, fun hs => ⟨hs, fun id z hz => ?_⟩⟩
  obtain ⟨k, hk⟩ := hs
  have hm := mem_of_varAccess hz
  rw [hk, mem_append] at hm
  exact hm.resolve_right fun hn => by simpa using eq_of_mem_replicate hn

end PhpInternals.Ext.Standard

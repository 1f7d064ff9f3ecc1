import Mathlib.Data.Fintype.Card
import PhpInternals.Ext.Json.EscapeText

/-!
# What the encoder leaves in the buffer

Every call of `php_json_encode_zval` returns, puts the apply counts back, and appends one JSON
value; without `JSON_PARTIAL_OUTPUT_ON_ERROR` only if neither an error code nor an exception is
left.
-/

namespace PhpInternals.Ext.Json

open Encoder List PhpInternals.Found

variable {T O : Type}

/-! ## The specification of a call -/

/-- No error code and no exception. -/
def Encoder.clean (enc : Encoder T) : Prop := enc.errorCode = .none ∧ enc.exception = false

/-- What a call that encodes one value does. -/
structure ValueSpec (o : Options) (enc : Encoder T) (r : Status × Encoder T) : Prop where
  /-- It appends one value. -/
  text : ∃ out, r.2.buf = enc.buf ++ out ∧
    (o.partialOutputOnError = true ∨ r.2.clean → IsJson out)
  /-- It fails for a reason that is left behind. -/
  failure : r.1 = .failure → ¬ r.2.clean
  /-- An error stays. -/
  clean : r.2.clean → enc.clean
  applyCount : r.2.applyCount = enc.applyCount

/-- The same for what stands before the colon. -/
structure NameSpec (o : Options) (enc enc' : Encoder T) : Prop where
  text : ∃ out, enc'.buf = enc.buf ++ out ∧
    (o.partialOutputOnError = true ∨ enc'.clean → IsString out)
  clean : enc'.clean → enc.clean
  applyCount : enc'.applyCount = enc.applyCount

/-- What stands between the brackets. -/
def IsBody : OutputType → List UInt8 → Prop
  | .array => IsElements
  | .object => IsMembers

/-- What the loop has appended, as `need_comma` tells. Source: `json_encoder.c`
`php_json_encode_array`. -/
def BodyText (r : OutputType) : Bool → List UInt8 → Prop
  | false, out => out = []
  | true, out => ∃ w body, IsWs w ∧ IsBody r body ∧ out = w ++ body

variable {enc₁ : Encoder T}

section spec

variable {o : Options} {enc : Encoder T} {out : List UInt8}

@[simp] lemma Encoder.append_append (s s' : List UInt8) :
    (enc.append s).append s' = enc.append (s ++ s') := by
  simp [append]

@[simp] lemma Encoder.append_nil : enc.append [] = enc := by
  simp [append]

lemma valueSpec_success (hot : IsJson out) : ValueSpec o enc (.success, enc.append out) :=
  ⟨⟨out, rfl, fun _ => hot⟩, nofun, id, rfl⟩

/-- An error or an exception, and `null` in place of the value when there is to be one. -/
lemma valueSpec_failure (hb : enc₁.buf = enc.buf) (hc : ¬ enc₁.clean)
    (hcn : enc₁.applyCount = enc.applyCount) :
    ValueSpec o enc (.failure,
    if o.partialOutputOnError then enc₁.append (ascii "null") else enc₁) := by
  cases hp : o.partialOutputOnError with
  | true => exact ⟨⟨_, congrArg (· ++ _) hb, fun _ => .null⟩, fun _ => hc, fun h => absurd h hc,
      hcn⟩
  | false =>
    refine ⟨⟨[], by simpa using hb, fun h => ?_⟩, fun _ => hc, fun h => absurd h hc, hcn⟩
    rcases h with h | h
    · exact absurd h (by simp [hp])
    · exact absurd h hc

/-- Infinity and NaN are written as 0 and set the error. -/
lemma valueSpec_infOrNan :
    ValueSpec o enc (.success, append { enc with errorCode := .infOrNan } (ascii "0")) := by
  have hc : ¬ clean { enc with errorCode := .infOrNan } := fun h => by cases h.1
  exact ⟨⟨_, rfl, fun _ => .number (isNumber_intDecimal 0)⟩, nofun, fun h => absurd h hc, rfl⟩

lemma valueSpec_of_escapeSpec {r : Status × Encoder T}
    (h : EscapeSpec o enc r) : ValueSpec o enc r := by
  cases h with
  | string hs => exact valueSpec_success (.string hs)
  | number _ hn => exact valueSpec_success (.number hn)
  | invalid =>
    have hc : ¬ clean { enc with errorCode := .utf8 } := fun h => by cases h.1
    have h : ValueSpec o enc (.failure, if o.partialOutputOnError then
        append { enc with errorCode := .utf8 } (ascii "null")
      else { enc with errorCode := .utf8 }) := valueSpec_failure rfl hc rfl
    convert h using 2
    split_ifs
    · rfl
    · exact append_nil

end spec

variable {r : OutputType} {needComma : Bool}

/-! ## Keys and white space -/

section key

variable {env : Env T O} {o : Options} {enc : Encoder T}

/-- Pretty printing adds white space only. -/
lemma prettyPrint_newline (enc : Encoder T) :
    ∃ w, IsWs w ∧ prettyPrintIndent o (prettyPrintChar o 0x0a enc) = enc.append w := by
  unfold prettyPrintIndent prettyPrintChar
  split_ifs with hp
  · refine ⟨_, ?_, append_append _ _⟩
    intro b hb
    simp only [mem_append, mem_singleton, mem_flatten, mem_replicate] at hb
    rcases hb with rfl | ⟨l, ⟨-, rfl⟩, hb⟩
    · decide
    · have hs : ascii "    " = replicate 4 0x20 := rfl
      rw [hs] at hb
      exact .inl (eq_of_mem_replicate hb)
  · exact ⟨[], isWs_nil, append_nil.symm⟩

lemma prettyPrint_space (enc : Encoder T) :
    ∃ w, IsWs w ∧ prettyPrintChar o 0x20 enc = enc.append w := by
  unfold prettyPrintChar
  split_ifs
  · refine ⟨[0x20], fun b hb => .inl (mem_singleton.mp hb), rfl⟩
  · exact ⟨[], isWs_nil, append_nil.symm⟩

/-- Before an element stands a comma, if one is needed, and white space. -/
lemma beginElement_eq (needComma : Bool) (enc : Encoder T) : ∃ w, IsWs w ∧
    beginElement o needComma enc = enc.append ((if needComma then [0x2c] else []) ++ w) := by
  obtain ⟨w, hw, heq⟩ := prettyPrint_newline (o := o) (if needComma then enc.append [0x2c] else enc)
  refine ⟨w, hw, ?_⟩
  simp only [beginElement, heq]
  cases needComma <;> simp

/-- A string key: also a key that is not UTF-8 leaves a string, when there is to be output. -/
lemma encodeName_spec (key : List UInt8) : NameSpec o enc (encodeName env o key enc) := by
  have hsp : EscapeSpec { o with numericCheck := false } enc
    (escapeString env { o with numericCheck := false } key enc) := escapeString_spec key
  unfold encodeName
  generalize escapeString env { o with numericCheck := false } key enc = r at hsp
  cases hsp with
  | string hs => exact ⟨⟨_, rfl, fun _ => hs⟩, id, rfl⟩
  | number hch => exact absurd hch (by simp)
  | invalid =>
    have hc : ∀ {enc₁ : Encoder T}, enc₁.errorCode = .utf8 → ¬ enc₁.clean :=
      fun h hc => by rw [hc.1] at h; cases h
    cases hp : o.partialOutputOnError with
    | true =>
      -- `null` is cut off again
      refine ⟨⟨ascii "\"\"", ?_, fun _ => ⟨[], .nil, rfl⟩⟩, fun h => absurd h (hc rfl), rfl⟩
      have hl : (enc.buf ++ ascii "null").length - 4 = enc.buf.length := by
        rw [length_append]; rfl
      simp only [append, if_true, hl, take_left]
    | false =>
      refine ⟨⟨[], by simp, fun h => ?_⟩, fun h => absurd h (hc rfl), rfl⟩
      rcases h with h | h
      · exact absurd h (by simp [hp])
      · exact absurd h (hc rfl)

/-- Printable ASCII without quote and backslash needs no escape. -/
lemma isChars_of_plain {s : List UInt8}
    (h : ∀ b ∈ s, 0x20 ≤ b.toNat ∧ b.toNat < 0x80 ∧ b.toNat ≠ 0x22 ∧ b.toNat ≠ 0x5c) :
    IsChars s := by
  induction s with
  | nil => exact .nil
  | cons b s ih =>
    obtain ⟨hc, ha, hq, hb⟩ := h b mem_cons_self
    exact .unescaped (.one ha rfl) hc hq hb (ih fun b' hb' => h b' (mem_cons_of_mem b hb'))

lemma isChars_intDecimal (n : ℤ) : IsChars (intDecimal n) := by
  apply isChars_of_plain
  intro b hb
  rcases mem_append.mp hb with hb | hb
  · split_ifs at hb
    · rw [mem_singleton.mp hb]
      decide
    · exact absurd hb not_mem_nil
  · obtain ⟨hge, hle⟩ := (isDigits_natDecimal _).2 b hb
    omega

lemma encodeIndex_spec (index : BitVec 64) : NameSpec o enc (encodeIndex index enc) := by
  refine ⟨⟨0x22 :: (intDecimal index.toInt ++ [0x22]), ?_, fun _ => ⟨_, isChars_intDecimal _, rfl⟩⟩,
    id, rfl⟩
  simp [encodeIndex, append]

/-- One element, or one member. -/
def IsItem : OutputType → List UInt8 → Prop
  | .array, x => IsJson x
  | .object, x => ∃ s w w' v, IsString s ∧ IsWs w ∧ IsWs w' ∧ IsJson v ∧
    x = s ++ w ++ 0x3a :: (w' ++ v)

lemma BodyText.snoc {body w x : List UInt8} (hb : BodyText r needComma body) (hw : IsWs w)
    (hx : IsItem r x) :
    BodyText r true (body ++ ((if needComma then [0x2c] else []) ++ w) ++ x) := by
  cases needComma with
  | false =>
    cases hb
    refine ⟨w, x, hw, ?_, by simp⟩
    cases r with
    | array => exact .one hx
    | object =>
      obtain ⟨s, w1, w2, v, hs, hw1, hw2, hv, rfl⟩ := hx
      exact .one hs hw1 hw2 hv
  | true =>
    obtain ⟨w0, xs, hw0, hxs, rfl⟩ := hb
    refine ⟨w0, xs ++ [] ++ 0x2c :: (w ++ x), hw0, ?_, by simp⟩
    cases r with
    | array => exact .more hxs isWs_nil hw hx
    | object =>
      obtain ⟨s, w1, w2, v, hs, hw1, hw2, hv, rfl⟩ := hx
      exact .more hxs isWs_nil hw hs hw1 hw2 hv

/-- What the loop does before the value of an element. -/
structure KeySpec (o : Options) (r : OutputType) (needComma : Bool) (enc enc' : Encoder T) :
    Prop where
  text : ∃ out, enc'.buf = enc.buf ++ out ∧ (o.partialOutputOnError = true ∨ enc'.clean →
    ∀ body v, BodyText r needComma body → IsJson v → BodyText r true (body ++ out ++ v))
  clean : enc'.clean → enc.clean
  applyCount : enc'.applyCount = enc.applyCount

lemma keySpec_of_nameSpec {enc' : Encoder T} (h : NameSpec o (beginElement o needComma enc) enc') :
    KeySpec o .object needComma enc (prettyPrintChar o 0x20 (enc'.append [0x3a])) := by
  obtain ⟨w, hw, hb⟩ := beginElement_eq needComma enc
  obtain ⟨w', hw', hsp⟩ := prettyPrint_space (enc'.append [0x3a])
  obtain ⟨s, hbf, hs⟩ := h.text
  rw [hb] at h hbf
  rw [hsp]
  refine ⟨⟨((if needComma then [0x2c] else []) ++ w) ++ (s ++ 0x3a :: w'), ?_, ?_⟩,
    h.clean, h.applyCount⟩
  · simp [append, hbf]
  · intro hok body v hbd hv
    have h := hbd.snoc hw ⟨s, [], w', v, hs hok, isWs_nil, hw', hv, rfl⟩
    simpa using h

/-- The key of an element, for an array nothing. -/
lemma encodeKey_spec {isObject : Bool} {key : Key} {enc' : Encoder T}
    (h : encodeKey env o r isObject needComma key enc = some enc') :
    KeySpec o r needComma enc enc' := by
  cases r with
  | array =>
    cases h
    obtain ⟨w, hw, hb⟩ := beginElement_eq needComma enc
    rw [hb]
    exact ⟨⟨_, rfl, fun _ body v hbd hv => hbd.snoc hw hv⟩, id, rfl⟩
  | object =>
    cases key with
    | index index =>
      cases h
      exact keySpec_of_nameSpec (encodeIndex_spec index)
    | name key =>
      simp only [encodeKey] at h
      split_ifs at h
      cases h
      exact keySpec_of_nameSpec (encodeName_spec key)

end key

variable {enc₂ : Encoder T} {cnt : T → ℕ}

/-! ## The loop over the elements -/

section elements

variable {env : Env T O} {o : Options} {enc : Encoder T}

/-- What the loop does from a buffer that ends with `body`. -/
structure ElementsSpec (o : Options) (r : OutputType) (needComma : Bool) (enc : Encoder T)
    (res : Status × Bool × Encoder T) : Prop where
  text : ∃ out, res.2.2.buf = enc.buf ++ out ∧ (o.partialOutputOnError = true ∨ res.2.2.clean →
    ∀ body, BodyText r needComma body → BodyText r res.2.1 (body ++ out))
  failure : res.1 = .failure → o.partialOutputOnError = false ∧ ¬ res.2.2.clean
  clean : res.2.2.clean → enc.clean
  applyCount : res.2.2.applyCount = enc.applyCount

/-- An element that fails ends the loop, unless partial output is asked for. -/
lemma elementsSpec_of_failure {status : Status} (hk : KeySpec o r needComma enc enc₁)
    (hv : ValueSpec o enc₁ (status, enc₂))
    (hs : status = .failure ∧ (!o.partialOutputOnError) = true) :
    ElementsSpec o r needComma enc (.failure, true, enc₂) := by
  obtain ⟨out, hb, -⟩ := hk.text
  obtain ⟨v, hbuf2, -⟩ := hv.text
  have hp : o.partialOutputOnError = false := by simpa using hs.2
  have hc : ¬ enc₂.clean := hv.failure hs.1
  refine ⟨⟨out ++ v, ?_, fun h => ?_⟩, fun _ => ⟨hp, hc⟩, fun h => absurd h hc,
    hv.applyCount.trans hk.applyCount⟩
  · rw [hbuf2, hb, append_assoc]
  · rcases h with h | h
    · exact absurd h (by simp [hp])
    · exact absurd h hc

/-- An element that is written is followed by the others. -/
lemma ElementsSpec.cons {status : Status} {res : Status × Bool × Encoder T}
    (h : ElementsSpec o r true enc₂ res) (hk : KeySpec o r needComma enc enc₁)
    (hv : ValueSpec o enc₁ (status, enc₂)) :
    ElementsSpec o r needComma enc res := by
  obtain ⟨pre, hbf, hp⟩ := hk.text
  obtain ⟨v, hbuf2, hj⟩ := hv.text
  obtain ⟨out, hbuf3, hot⟩ := h.text
  refine ⟨⟨pre ++ v ++ out, ?_, fun hok body hb => ?_⟩, h.failure, ?_, ?_⟩
  · rw [hbuf3, show enc₂.buf = _ from hbuf2, hbf]
    simp
  · have hok2 := hok.imp id h.clean
    have hok1 := hok2.imp id hv.clean
    have hb' := hot hok _ (hp hok1 body v hb (hj hok2))
    simpa using hb'
  · exact fun hc => hk.clean (hv.clean (h.clean hc))
  · exact h.applyCount.trans (hv.applyCount.trans hk.applyCount)

variable [DecidableEq T] [DecidableEq O]

/-- The call returns, and does what it should. -/
def Finishes (env : Env T O) (o : Options) (val : Zval T O) (enc : Encoder T) : Prop :=
  ∃ r, Returns (fun steps => encodeZval env o steps val enc) r ∧ ValueSpec o enc r

/-- **The loop over the elements**, by induction on the elements. -/
theorem encodeElements_finishes {isObject : Bool} :
    ∀ {elements : List (Key × Zval T O)} {needComma : Bool} {enc : Encoder T},
    enc.applyCount = cnt →
    (∀ e ∈ elements, ∀ enc₁ : Encoder T, enc₁.applyCount = cnt → Finishes env o e.2 enc₁) →
    ∃ res, Returns (fun steps => encodeElements env o (encodeZval env o steps) r isObject elements
      needComma enc) res ∧ ElementsSpec o r needComma enc res
  | [], needComma, enc, _, _ =>
    ⟨_, .of_forall fun _ => rfl, ⟨[], by simp, fun _ body hb => by simpa using hb⟩, nofun, id, rfl⟩
  | (key, data) :: rest, needComma, enc, hc, hvl => by
    have hrs : ∀ e ∈ rest, ∀ enc₁ : Encoder T, enc₁.applyCount = cnt → Finishes env o e.2 enc₁ :=
      fun e he => hvl e (mem_cons_of_mem _ he)
    cases hky : encodeKey env o r isObject needComma key enc with
    | none =>
      obtain ⟨res, hrt, hs⟩ := encodeElements_finishes hc hrs
      refine ⟨res, ?_, hs⟩
      simpa only [encodeElements, hky] using hrt
    | some enc₁ =>
      have hk := encodeKey_spec hky
      obtain ⟨⟨status, enc₂⟩, hrt, hv⟩ := hvl _ mem_cons_self enc₁ (hk.applyCount.trans hc)
      have hcnt2 : enc₂.applyCount = cnt := hv.applyCount.trans (hk.applyCount.trans hc)
      by_cases hsp : status = .failure ∧ (!o.partialOutputOnError) = true
      · refine ⟨(.failure, true, enc₂), ?_, elementsSpec_of_failure hk hv hsp⟩
        simp only [encodeElements, hky]
        refine hrt.bind (.of_forall fun _ => ?_)
        simp only [if_pos hsp]
      · obtain ⟨res, hret2, hs⟩ := encodeElements_finishes hcnt2 hrs
        refine ⟨res, ?_, hs.cons hk hv⟩
        simp only [encodeElements, hky]
        refine hrt.bind ?_
        simpa only [if_neg hsp] using hret2

end elements

/-! ## Arrays -/

section array

variable {env : Env T O} {o : Options} {enc : Encoder T} {myht : T}

/-- Elements between brackets make a value. -/
lemma BodyText.isJson {body w : List UInt8} (hb : BodyText r needComma body) (hw : IsWs w)
    (hem : needComma = false → w = []) :
    IsJson ((if r = .array then [0x5b] else [0x7b]) ++ body ++
      (w ++ if r = .array then [0x5d] else [0x7d])) := by
  cases needComma with
  | false =>
    cases hb
    rw [hem rfl]
    cases r with
    | array => exact .emptyArray isWs_nil
    | object => exact .emptyObject isWs_nil
  | true =>
    obtain ⟨w0, xs, hw0, hxs, rfl⟩ := hb
    cases r with
    | array => simpa using IsJson.array hw0 hxs hw
    | object => simpa using IsJson.object hw0 hxs hw

/-- What the end of an array does. -/
structure CloseSpec (o : Options) (r : OutputType) (needComma : Bool) (enc : Encoder T)
    (res : Status × Encoder T) : Prop where
  text : ∃ out, res.2.buf = enc.buf ++ out ∧ (res.1 = .success →
    ∃ w, IsWs w ∧ (needComma = false → w = []) ∧ out = w ++ if r = .array then [0x5d] else [0x7d])
  failure : res.1 = .failure → o.partialOutputOnError = false ∧ ¬ res.2.clean
  clean : res.2.clean → enc.clean
  applyCount : res.2.applyCount = enc.applyCount

lemma closeSpec_success (hb : enc₁.buf = enc.buf) (hc : enc₁.clean → enc.clean)
    (hcn : enc₁.applyCount = enc.applyCount) :
    CloseSpec o r needComma enc (.success,
      (if needComma then prettyPrintIndent o (prettyPrintChar o 0x0a enc₁) else enc₁).append
        (if r = .array then [0x5d] else [0x7d])) := by
  cases needComma with
  | false =>
    refine ⟨⟨_, congrArg (· ++ _) hb, fun _ => ⟨[], isWs_nil, fun _ => rfl, rfl⟩⟩, nofun, hc, hcn⟩
  | true =>
    obtain ⟨w, hw, heq⟩ := prettyPrint_newline enc₁
    rw [if_pos rfl, heq, append_append]
    exact ⟨⟨_, congrArg (· ++ _) hb, fun _ => ⟨w, hw, nofun, rfl⟩⟩, nofun, hc, hcn⟩

/-- The end of `php_json_encode_array`: the depth is checked and the bracket written. -/
lemma closeArray_spec (r : OutputType) (needComma : Bool) (enc : Encoder T) :
    CloseSpec o r needComma enc (closeArray env o r needComma enc) := by
  unfold closeArray
  by_cases hdp : env.maxDepth < enc.depth
  · simp only [decide_eq_true hdp, Bool.true_and]
    have hc : ∀ {enc₁ : Encoder T}, enc₁.errorCode = .depth → ¬ enc₁.clean :=
      fun h hc => by rw [hc.1] at h; cases h
    by_cases hp : (!o.partialOutputOnError) = true
    · rw [if_pos hp]
      exact ⟨⟨[], by simp, nofun⟩, fun _ => ⟨by simpa using hp, hc rfl⟩,
        fun h => absurd h (hc rfl), rfl⟩
    · rw [if_neg hp]
      exact closeSpec_success rfl (fun h => absurd h (hc rfl)) rfl
  · simp only [decide_eq_false hdp]
    exact closeSpec_success rfl id rfl

lemma valueSpec_of_elements_failure {bracket : List UInt8} (hb : enc₁.buf = enc.buf ++ bracket)
    (hel : ElementsSpec o r false enc₁ (.failure, needComma, enc₂)) :
    ValueSpec o enc (.failure, { enc₂ with applyCount := enc.applyCount }) := by
  obtain ⟨hp, hc⟩ := hel.failure rfl
  obtain ⟨body, hbuf2, -⟩ := hel.text
  have hc' := hc
  refine ⟨⟨bracket ++ body, ?_, fun h => ?_⟩, fun _ => hc', fun h => absurd h hc', rfl⟩
  · rw [show enc₂.buf = _ from hbuf2, hb, append_assoc]
  · rcases h with h | h
    · exact absurd h (by simp [hp])
    · exact absurd h hc'

lemma valueSpec_of_close {res : Status × Encoder T}
    (hbf : enc₁.buf = enc.buf ++ if r = .array then [0x5b] else [0x7b])
    (hcn : enc₁.clean → enc.clean)
    (hel : ElementsSpec o r false enc₁ (.success, needComma, enc₂))
    (hc : CloseSpec o r needComma { enc₂ with applyCount := enc.applyCount } res) :
    ValueSpec o enc res := by
  obtain ⟨body, hbuf2, hb⟩ := hel.text
  obtain ⟨out, hbuf3, hot⟩ := hc.text
  have hcl : res.2.clean → enc₂.clean := hc.clean
  refine ⟨⟨(if r = .array then [0x5b] else [0x7b]) ++ body ++ out, ?_, fun hok => ?_⟩,
    fun h => (hc.failure h).2, fun h => hcn (hel.clean (hcl h)), hc.applyCount⟩
  · rw [hbuf3]
    rw [show enc₂.buf = _ from hbuf2, hbf]
    simp
  have hs : res.1 = .success := by
    cases hrs : res.1 with
    | success => rfl
    | failure =>
      obtain ⟨hp, hc'⟩ := hc.failure hrs
      rcases hok with hok | hok
      · exact absurd hok (by simp [hp])
      · exact absurd hok hc'
  obtain ⟨w, hw, hem, rfl⟩ := hot hs
  exact (hb (hok.imp id hcl) [] rfl).isJson hw hem

variable [DecidableEq T]

/-- The counts while a table is being encoded. Source: `json_encoder.c`
`PHP_JSON_HASH_APPLY_PROTECTION_INC`. -/
def raised (env : Env T O) (myht : T) (cnt : T → ℕ) : T → ℕ :=
  if (env.heap.table myht).applyProtection then Function.update cnt myht (cnt myht + 1) else cnt

lemma applyProtectionInc_eq : applyProtectionInc env myht enc =
    { enc with applyCount := raised env myht enc.applyCount } := by
  unfold applyProtectionInc raised
  split_ifs <;> rfl

/-- The recursion counter is put back. -/
lemma applyProtectionDec_eq (h : enc.applyCount = raised env myht cnt) :
    applyProtectionDec env myht enc = { enc with applyCount := cnt } := by
  unfold applyProtectionDec
  unfold raised at h
  split_ifs at h ⊢ with hp
  · rw [h]
    simp
  · rw [← h]

/-- An exception from a `jsonSerialize` call leaves `null` behind. -/
lemma valueSpec_exception (env : Env T O) (o : Options) (enc : Encoder T) (myht : T) :
    ValueSpec o enc (.failure, applyProtectionDec env myht
    (if o.partialOutputOnError then
      append { applyProtectionInc env myht enc with exception := true } (ascii "null")
    else { applyProtectionInc env myht enc with exception := true })) := by
  have hc : ¬ clean { enc with exception := true } := fun h => by cases h.2
  have hs : ValueSpec o enc (.failure, if o.partialOutputOnError then
      append { enc with exception := true } (ascii "null")
    else { enc with exception := true }) := valueSpec_failure rfl hc rfl
  convert hs using 2
  rw [applyProtectionInc_eq]
  split_ifs <;> exact applyProtectionDec_eq rfl

variable [DecidableEq O]

/-- A call of `php_json_encode_array` returns, and does what it should. -/
def FinishesArray (env : Env T O) (o : Options) (isObject : Bool) (myht : T) (enc : Encoder T) :
    Prop :=
  ∃ r, Returns (fun steps => encodeArray env o (encodeZval env o steps) isObject myht enc) r ∧
    ValueSpec o enc r

/-- **An array is written whole if its elements are.** -/
lemma encodeArray_finishes (isObject : Bool)
    (hv : enc.applyCount myht = 0 → ∀ e ∈ (env.heap.table myht).elements, ∀ enc₁ : Encoder T,
      enc₁.applyCount = raised env myht enc.applyCount → Finishes env o e.2 enc₁) :
    FinishesArray env o isObject myht enc := by
  by_cases hc : 0 < enc.applyCount myht
  · have hcl : ¬ clean { enc with errorCode := .recursion } := fun h => by cases h.1
    simp only [FinishesArray, encodeArray, if_pos hc]
    exact ⟨_, .of_forall fun _ => rfl, ⟨_, rfl, fun _ => .null⟩, fun _ => hcl,
      fun h => absurd h hcl, rfl⟩
  simp only [FinishesArray, encodeArray, if_neg hc]
  generalize (if (isObject || o.forceObject) = true then OutputType.object
    else determineArrayType (env.heap.table myht)) = r
  obtain ⟨enc₁, henc1⟩ : ∃ enc₁ : Encoder T, enc₁ =
      { (applyProtectionInc env myht enc).append (if r = .array then [0x5b] else [0x7b]) with
        depth := (applyProtectionInc env myht enc).depth + 1 } := ⟨_, rfl⟩
  have hcnt1 : enc₁.applyCount = raised env myht enc.applyCount := by
    rw [henc1, applyProtectionInc_eq]
    rfl
  have hbuf1 : enc₁.buf = enc.buf ++ if r = .array then [0x5b] else [0x7b] := by
    rw [henc1, applyProtectionInc_eq]
    rfl
  have hcn : enc₁.clean → enc.clean := by
    rw [henc1, applyProtectionInc_eq]
    exact id
  obtain ⟨⟨status, needComma, enc₂⟩, hrt, hel⟩ :
      ∃ res, Returns (fun steps => encodeElements env o (encodeZval env o steps) r isObject
        (env.heap.table myht).elements false enc₁) res ∧ ElementsSpec o r false enc₁ res :=
    encodeElements_finishes hcnt1 (hv (Nat.eq_zero_of_not_pos hc))
  have hdc := applyProtectionDec_eq (hel.applyCount.trans hcnt1)
  rw [henc1] at hrt
  cases status with
  | failure =>
    refine ⟨(.failure, _), hrt.bind (.of_forall fun _ => rfl), ?_⟩
    rw [hdc]
    exact valueSpec_of_elements_failure hbuf1 hel
  | success =>
    refine ⟨_, hrt.bind (.of_forall fun _ => rfl), ?_⟩
    rw [hdc]
    exact valueSpec_of_close hbuf1 hcn hel (closeArray_spec r needComma _)

end array

/-! ## Objects -/

section object

variable [DecidableEq T] [DecidableEq O] {env : Env T O} {o : Options} {enc : Encoder T} {obj : O}

/-- A call of `php_json_encode_serializable_object` returns, and does what it should. -/
def FinishesSerializable (env : Env T O) (o : Options) (obj : O) (call : Call T O)
    (enc : Encoder T) :
    Prop :=
  ∃ r, Returns (fun steps =>
    encodeSerializableObject env o (encodeZval env o steps) obj call enc) r ∧
    ValueSpec o enc r

/-- The value that `jsonSerialize` gave is encoded in place of the object. -/
lemma finishes_retval {myht : T} {retval : Zval T O}
    (h : Finishes env o retval (applyProtectionInc env myht enc)) :
    ∃ r, Returns (fun steps => (encodeZval env o steps retval (applyProtectionInc env myht enc)).map
      fun r => (r.1, applyProtectionDec env myht r.2)) r ∧ ValueSpec o enc r := by
  obtain ⟨⟨status, enc₁⟩, hrt, hs⟩ := h
  refine ⟨_, hrt.map, ?_⟩
  have hc : enc₁.applyCount = raised env myht enc.applyCount := by
    rw [show enc₁.applyCount = _ from hs.applyCount, applyProtectionInc_eq]
  rw [applyProtectionDec_eq hc]
  rw [applyProtectionInc_eq] at hs
  exact { hs with applyCount := rfl }

/-- **A serializable object**, from what the calls for its properties and for the value that
`jsonSerialize` returns do. -/
theorem encodeSerializableObject_finishes (call : Call T O)
    (hth : FinishesArray env o true (env.heap.object obj).properties enc)
    (hr : enc.applyCount (env.heap.object obj).properties = 0 → ∀ retval,
      Finishes env o retval (applyProtectionInc env (env.heap.object obj).properties enc)) :
    FinishesSerializable env o obj call enc := by
  unfold FinishesSerializable encodeSerializableObject
  generalize (env.heap.object obj).properties = myht at hth hr
  have hec := valueSpec_exception env o enc myht
  by_cases hc : 0 < enc.applyCount myht
  · have hcl : ¬ clean { enc with errorCode := .recursion } := fun h => by cases h.1
    simp only [if_pos hc]
    exact ⟨_, .of_forall fun _ => rfl, valueSpec_failure rfl hcl rfl⟩
  simp only [if_neg hc]
  have hrt := hr (Nat.eq_zero_of_not_pos hc)
  have hu : applyProtectionDec env myht (applyProtectionInc env myht enc) = enc := by
    rw [applyProtectionInc_eq, applyProtectionDec_eq rfl]
  cases (if (applyProtectionInc env myht enc).exception = true then none else call.retval) with
  | none => exact ⟨_, .of_forall fun _ => rfl, hec⟩
  | some retval =>
    cases call.exception with
    | true => exact ⟨_, .of_forall fun _ => rfl, hec⟩
    | false =>
      cases retval with
      | object obj' =>
        by_cases hob : obj' = obj
        · simp only [if_pos hob, hu]
          exact hth
        · simp only [if_neg hob]
          exact finishes_retval (hrt _)
      | _ => exact finishes_retval (hrt _)

end object

/-! ## All values -/

section value

variable [DecidableEq T] [Fintype T] {env : Env T O} {o : Options} {enc : Encoder T}

/-- The protected tables that are not being encoded. -/
def idle (env : Env T O) (cnt : T → ℕ) : Finset T :=
  Finset.univ.filter fun t => (env.heap.table t).applyProtection = true ∧ cnt t = 0

/-- A table entered is one less that can still be entered. -/
lemma idle_raised_lt {t : T} (hp : (env.heap.table t).applyProtection = true)
    (hc : cnt t = 0) : (idle env (raised env t cnt)).card < (idle env cnt).card := by
  apply Finset.card_lt_card
  have hm : t ∈ idle env cnt := by simp [idle, hp, hc]
  refine (Finset.ssubset_iff_of_subset fun t' ht' => ?_).mpr ⟨t, hm, ?_⟩
  · simp only [idle, raised, if_pos hp, Finset.mem_filter, Finset.mem_univ, true_and] at ht' ⊢
    refine ⟨ht'.1, ?_⟩
    by_cases heq : t' = t
    · rw [heq, hc]
    · simpa [Function.update_of_ne heq] using ht'.2
  · simp [idle, raised, hp]

variable [DecidableEq O]

/-- The induction hypothesis: every call with fewer idle tables is settled. -/
def FinishesBelow (env : Env T O) (o : Options) (n : ℕ) : Prop :=
  ∀ enc : Encoder T, (idle env enc.applyCount).card < n → ∀ val, Finishes env o val enc

section level

variable {n : ℕ} (hbelow : FinishesBelow env o n) (hn : (idle env enc.applyCount).card = n)
include hbelow hn

/-- A table whose recursion is counted is written, by induction on the idle tables. -/
lemma finishesArray_of_protected {t : T} (hp : (env.heap.table t).applyProtection = true)
    (isObject : Bool) : FinishesArray env o isObject t enc := by
  refine encodeArray_finishes isObject fun hc e _ enc₁ hcnt1 => hbelow enc₁ ?_ e.2
  rw [hcnt1, ← hn]
  exact idle_raised_lt hp hc

lemma finishes_object (obj : O) : Finishes env o (.object obj) enc := by
  have hp := env.heap.properties_protected obj
  have ha := finishesArray_of_protected hbelow hn hp true
  cases hc : (env.heap.object obj).jsonSerialize with
  | none =>
    obtain ⟨r, hrt, hs⟩ := ha
    exact ⟨r, hrt.step fun _ => by simp [encodeZval, hc], hs⟩
  | some call =>
    obtain ⟨r, hrt, hs⟩ := encodeSerializableObject_finishes call ha fun hcn retval => by
      refine hbelow _ ?_ retval
      rw [applyProtectionInc_eq, ← hn]
      exact idle_raised_lt hp hcn
    exact ⟨r, hrt.step fun _ => by simp [encodeZval, hc], hs⟩

/-- Any value, if the unprotected table behind it, if there is one, is settled. -/
lemma finishes_of_unprotected (val : Zval T O)
    (h : ∀ t, val.deref = .array t → (env.heap.table t).applyProtection = false →
      Finishes env o (.array t) enc) : Finishes env o val enc := by
  induction val with
  | null => exact ⟨_, .of_succ fun _ => rfl, valueSpec_success .null⟩
  | bool b =>
    cases b with
    | true => exact ⟨_, .of_succ fun _ => rfl, valueSpec_success .true⟩
    | false => exact ⟨_, .of_succ fun _ => rfl, valueSpec_success .false⟩
  | long n => exact ⟨_, .of_succ fun _ => rfl, valueSpec_success (.number (isNumber_intDecimal _))⟩
  | double d =>
    cases d with
    | finite d => exact ⟨_, .of_succ fun _ => rfl,
        valueSpec_success (.number (isNumber_encodeDouble d))⟩
    | inf | nan => exact ⟨_, .of_succ fun _ => rfl, valueSpec_infOrNan⟩
  | string s => exact ⟨_, .of_succ fun _ => rfl, valueSpec_of_escapeSpec (escapeString_spec s)⟩
  | object obj => exact finishes_object hbelow hn obj
  | array t =>
    cases hp : (env.heap.table t).applyProtection with
    | false => exact h t rfl hp
    | true =>
      obtain ⟨r, hrt, hsp⟩ := finishesArray_of_protected hbelow hn hp false
      exact ⟨r, hrt.step fun _ => rfl, hsp⟩
  | reference val ih =>
    obtain ⟨r, hrt, hsp⟩ := ih h
    exact ⟨r, hrt.step fun _ => rfl, hsp⟩
  | resource =>
    have hc : ¬ clean { enc with errorCode := .unsupportedType } := fun h => by cases h.1
    exact ⟨_, .of_succ fun _ => rfl, valueSpec_failure rfl hc rfl⟩

end level

/-- A table whose recursion is not counted is written by induction on its nesting. -/
lemma finishes_of_not_protected {n : ℕ} (hbelow : FinishesBelow env o n) (t : T) :
    (env.heap.table t).applyProtection = false → ∀ enc : Encoder T,
      (idle env enc.applyCount).card = n → Finishes env o (.array t) enc := by
  induction t using env.heap.unprotected_wf.induction with
  | h t ih =>
    intro hp enc hn
    have hr : raised env t enc.applyCount = enc.applyCount := if_neg (by simp [hp])
    have hf : FinishesArray env o false t enc :=
      encodeArray_finishes false fun _ e he enc₁ hcnt1 => by
      rw [hr] at hcnt1
      refine finishes_of_unprotected hbelow (hcnt1 ▸ hn) e.2 fun t' hdr hp' => ?_
      exact ih t' ⟨hp', hp, e, he, hdr⟩ hp' enc₁ (hcnt1 ▸ hn)
    obtain ⟨r, hrt, hs⟩ := hf
    exact ⟨r, hrt.step fun _ => rfl, hs⟩

/-- **Every call returns, and does what it should**, by induction on the number of idle tables. -/
theorem encodeZval_finishes (env : Env T O) (o : Options) (val : Zval T O) (enc : Encoder T) :
    Finishes env o val enc := by
  have ha : ∀ n, FinishesBelow env o n := by
    intro n
    induction n with
    | zero => exact fun enc h => absurd h (Nat.not_lt_zero _)
    | succ n ih =>
      intro enc hlt val
      rcases Nat.lt_succ_iff_lt_or_eq.mp hlt with hlt | heq
      · exact ih enc hlt val
      · exact finishes_of_unprotected ih heq val fun t _ hp =>
          finishes_of_not_protected ih t hp enc heq
  exact ha _ enc (Nat.lt_succ_self _) val

/-- **Partial output is still JSON.** For every value, over any heap of finitely many tables, and
every option set, the call returns. With `JSON_PARTIAL_OUTPUT_ON_ERROR` it has appended exactly one
JSON value; without it, it has done so or left an error code or an exception. The apply counts are
as before in any case. -/
theorem partial_output_isJson (env : Env T O) (o : Options) (val : Zval T O) (enc : Encoder T) :
    ∃ status enc' out,
      Returns (fun steps => encodeZval env o steps val enc) (status, enc') ∧
        enc'.buf = enc.buf ++ out ∧ enc'.applyCount = enc.applyCount ∧
        (o.partialOutputOnError = true → IsJson out) ∧
        (o.partialOutputOnError = false → ¬ IsJson out →
          enc'.errorCode ≠ .none ∨ enc'.exception = true) := by
  obtain ⟨⟨status, enc'⟩, hrt, hs⟩ := encodeZval_finishes env o val enc
  obtain ⟨out, hb, hj⟩ := hs.text
  refine ⟨status, enc', out, hrt, hb, hs.applyCount, fun hp => hj (.inl hp), ?_⟩
  intro _ hnt
  by_contra hc
  push Not at hc
  exact hnt (hj (.inr ⟨hc.1, by simpa using hc.2⟩))

end value

/-! ## An exception is not an error code -/

/-- One object, whose `jsonSerialize` throws. -/
def throwingHeap : Heap Unit Unit where
  table _ := { elements := [], applyProtection := true }
  object _ := { properties := (), jsonSerialize := some { retval := none, exception := true } }
  properties_protected _ := rfl
  unprotected_wf := ⟨fun t => ⟨t, fun _ h => absurd h.1 (by decide)⟩⟩

/-- `php_json_encode_init`, with an empty buffer. -/
def Encoder.init : Encoder T := ⟨[], 0, .none, fun _ => 0, false⟩

/-- Without `JSON_PARTIAL_OUTPUT_ON_ERROR` an object whose `jsonSerialize` throws leaves an empty
buffer, and no error code. -/
theorem throwing_jsonSerialize_no_error_code : ∃ enc',
    Returns (fun steps =>
    encodeZval ⟨throwingHeap, fun _ => none, 17, 512⟩ {} steps (.object ()) .init)
      (.failure, enc') ∧ ¬ IsJson enc'.buf ∧ enc'.errorCode = .none := by
  refine ⟨_, .of_succ fun _ => rfl, ?_, rfl⟩
  exact fun h => h.ne_nil rfl

end PhpInternals.Ext.Json

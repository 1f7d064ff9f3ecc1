import PhpInternals.Ext.Standard.NextUtf8Char
import PhpInternals.Found.Except
import PhpInternals.Found.JsonText

/-!
# The JSON encoder

Embedding of `ext/json/json_encoder.c` and of `php_gcvt` (`main/snprintf.c`).

A double is known to the encoder through the digits that `zend_dtoa` gives for it (`Dtoa`), and
`is_numeric_string` is a parameter.
-/

namespace PhpInternals.Ext.Json

open PhpInternals.Found PhpInternals.Ext.Standard

/-! ## Options and errors -/

/-- The `PHP_JSON_*` bits of `options`. -/
structure Options where
  hexTag : Bool := false
  hexAmp : Bool := false
  hexApos : Bool := false
  hexQuot : Bool := false
  forceObject : Bool := false
  numericCheck : Bool := false
  unescapedSlashes : Bool := false
  prettyPrint : Bool := false
  unescapedUnicode : Bool := false
  partialOutputOnError : Bool := false
  preserveZeroFraction : Bool := false
  unescapedLineTerminators : Bool := false
  invalidUtf8Ignore : Bool := false
  invalidUtf8Substitute : Bool := false
  deriving DecidableEq, Repr

/-- `php_json_error_code`. -/
inductive ErrorCode where
  | none
  | depth
  | stateMismatch
  | ctrlChar
  | syntaxError
  | utf8
  | recursion
  | infOrNan
  | unsupportedType
  | invalidPropertyName
  | utf16
  deriving DecidableEq, Repr

/-- `ZEND_RESULT_CODE`. -/
inductive Status where
  | success
  | failure
  deriving DecidableEq, Repr

/-- A recursion that is deeper than its bound. -/
inductive Unfinished where
  | outOfSteps
  deriving DecidableEq, Repr

/-! ## Doubles -/

/-- What `zend_dtoa` returns for a finite double: its sign, its decimal digits without leading
zeros, and the position of the decimal point among them. Source: `zend_strtod.c` `zend_dtoa`. -/
structure Dtoa where
  sign : Bool
  digits : List UInt8
  decpt : ℤ
  isDigits : IsDigits digits
  leading : digits.head? = some 0x30 → digits = [0x30] ∧ decpt = 1

/-- A double, as the encoder sees it. -/
inductive Double where
  | finite (d : Dtoa)
  | inf
  | nan

/-- The sign and the digits of the exponent. Source: `php_gcvt`. -/
def gcvtExponent (decpt : ℤ) : List UInt8 :=
  (if decpt - 1 < 0 then [0x2d] else [0x2b]) ++ natDecimal (decpt - 1).natAbs

/-- `php_gcvt(value, ndigit, '.', 'e', buf)` of a finite value. -/
def phpGcvt (ndigit : ℤ) (d : Dtoa) : List UInt8 :=
  let ndigit := if 0 ≤ ndigit then ndigit else 17
  (if d.sign then [0x2d] else []) ++
    if 0 ≤ d.decpt ∧ ndigit < d.decpt ∨ d.decpt < -3 then
      -- exponential format (e.g. 1.2345e+13)
      d.digits.take 1 ++ [0x2e] ++
        (if d.digits.tail = [] then [0x30] else d.digits.tail) ++ [0x65] ++
        gcvtExponent d.decpt
    else if d.decpt < 0 then
      -- standard format 0.
      [0x30, 0x2e] ++ List.replicate d.decpt.natAbs 0x30 ++ d.digits
    else
      -- standard format
      let n := d.decpt.toNat
      d.digits.take n ++ List.replicate (n - d.digits.length) 0x30 ++
        if d.digits.drop n = [] then []
        else (if n = 0 then [0x30] else []) ++ [0x2e] ++ d.digits.drop n

/-- Source: `PHP_DOUBLE_MAX_LENGTH`. -/
def phpDoubleMaxLength : ℕ := 1077

/-- What `php_json_encode_double` appends. -/
def encodeDouble (o : Options) (serializePrecision : ℤ) (d : Dtoa) : List UInt8 :=
  let num := phpGcvt serializePrecision d
  if o.preserveZeroFraction && !num.contains 0x2e &&
    decide (num.length < phpDoubleMaxLength - 2) then
    num ++ [0x2e, 0x30]
  else num

/-! ## Values -/

/-- A key of a hash table: an integer or a string. Source: `zend_types.h` `struct _Bucket`. -/
inductive Key where
  | index (h : BitVec 64)
  | name (key : List UInt8)
  deriving DecidableEq, Repr

/-- `zval`, over the tables `T` and the objects `O` of a heap. Source: `zend_types.h` `struct
_zval_struct`. -/
inductive Zval (T O : Type) where
  | null
  | bool (b : Bool)
  | long (n : BitVec 64)
  | double (d : Double)
  | string (s : List UInt8)
  | array (ht : T)
  | object (obj : O)
  | reference (val : Zval T O)
  /-- A resource, or any other type that JSON has no form for. -/
  | resource

/-- A hash table as `ZEND_HASH_FOREACH_KEY_VAL_IND` walks it. Source: `zend_types.h` `struct
_zend_array`. -/
structure HashTable (T O : Type) where
  elements : List (Key × Zval T O)
  /-- `ZEND_HASH_APPLY_PROTECTION`. -/
  applyProtection : Bool
  /-- `HT_IS_PACKED` and `HT_IS_WITHOUT_HOLES`. -/
  packedWithoutHoles : Bool := false
  packed_keys : packedWithoutHoles = true →
    elements.map Prod.fst = (List.range elements.length).map fun i =>
      .index (BitVec.ofNat 64 i) := by
      decide

/-- What a call of `jsonSerialize` does: the value it leaves in `retval`, if any, and whether it
leaves an exception. Source: `zend_execute_API.c` `zend_call_function`. -/
structure Call (T O : Type) where
  retval : Option (Zval T O)
  exception : Bool

/-- An object: `Z_OBJPROP`, and its `jsonSerialize` when its class implements `JsonSerializable`.
Source: `zend_types.h` `struct _zend_object`. -/
structure Object (T O : Type) where
  properties : T
  jsonSerialize : Option (Call T O) := none

/-- The value behind references. Source: `php_json_encode_zval`. -/
def Zval.deref {T O : Type} : Zval T O → Zval T O
  | .reference val => val.deref
  | val => val

/-- The tables and objects that values refer to. -/
structure Heap (T O : Type) where
  table : T → HashTable T O
  object : O → Object T O
  properties_protected : ∀ obj, (table (object obj).properties).applyProtection = true
  /-- Tables without apply protection are nested to a finite depth. -/
  unprotected_wf : WellFounded fun t' t =>
    (table t').applyProtection = false ∧ (table t).applyProtection = false ∧
      ∃ e ∈ (table t).elements, e.2.deref = .array t'

/-- What the encoder reads and never changes. -/
structure Env (T O : Type) where
  heap : Heap T O
  /-- `is_numeric_string`: a long, a double, or not a number. -/
  isNumericString : List UInt8 → Option (BitVec 64 ⊕ Double)
  /-- `PG(serialize_precision)`. -/
  serializePrecision : ℤ
  /-- `encoder->max_depth`. -/
  maxDepth : ℤ

/-- The output buffer, the fields of `php_json_encoder`, the apply counts and `EG(exception)`. -/
structure Encoder (T : Type) where
  buf : List UInt8
  depth : ℕ
  errorCode : ErrorCode
  applyCount : T → ℕ
  exception : Bool

/-- `smart_str_appendl`. -/
def Encoder.append {T : Type} (enc : Encoder T) (s : List UInt8) : Encoder T :=
  { enc with buf := enc.buf ++ s }

/-! ## Strings -/

/-- Source: `digits`. -/
def digits : List UInt8 := ascii "0123456789abcdef"

/-- `\u` and the four digits of `us`. Source: `php_json_escape_string`. -/
def unicodeEscape (us : ℕ) : List UInt8 :=
  ascii "\\u" ++ [digits.getD ((us &&& 0xf000) >>> 12) 0, digits.getD ((us &&& 0xf00) >>> 8) 0,
    digits.getD ((us &&& 0xf0) >>> 4) 0, digits.getD (us &&& 0xf) 0]

/-- What is appended for a character from `0x80` on: its octets `raw`, or its escape in UTF-16.
Source: `php_json_escape_string`. -/
def escapeMultibyte (o : Options) (us : ℕ) (raw : List UInt8) : List UInt8 :=
  if o.unescapedUnicode && (o.unescapedLineTerminators || us < 0x2028 || us > 0x2029) then raw
  else if 0x10000 ≤ us then
    let us := us - 0x10000
    let nextUs := ((us &&& 0x3ff) ||| 0xdc00) % 0x10000
    let us := ((us >>> 10) ||| 0xd800) % 0x10000
    unicodeEscape us ++ unicodeEscape nextUs
  else unicodeEscape us

/-- `charmap`: the characters below `0x80` that the `switch` looks at. Source:
`php_json_escape_string`. -/
def charmap : List ℕ := [0xffffffff, 0x500080c4, 0x10000000, 0x00000000]

/-- What is appended for a character below `0x80`. Source: `php_json_escape_string`. -/
def escapeAscii (o : Options) (us : UInt8) : List UInt8 :=
  if charmap.getD (us.toNat >>> 5) 0 &&& (1 <<< (us.toNat &&& 0x1f)) = 0 then [us]
  else match us with
    | 0x22 => if o.hexQuot then ascii "\\u0022" else ascii "\\\""
    | 0x5c => ascii "\\\\"
    | 0x2f => if o.unescapedSlashes then ascii "/" else ascii "\\/"
    | 0x08 => ascii "\\b"
    | 0x0c => ascii "\\f"
    | 0x0a => ascii "\\n"
    | 0x0d => ascii "\\r"
    | 0x09 => ascii "\\t"
    | 0x3c => if o.hexTag then ascii "\\u003C" else ascii "<"
    | 0x3e => if o.hexTag then ascii "\\u003E" else ascii ">"
    | 0x26 => if o.hexAmp then ascii "\\u0026" else ascii "&"
    | 0x27 => if o.hexApos then ascii "\\u0027" else ascii "'"
    | _ => ascii "\\u00" ++
        [digits.getD ((us.toNat &&& 0xf0) >>> 4) 0, digits.getD (us.toNat &&& 0xf) 0]

/-- The loop over the characters: the buffer it leaves, and whether it came to the end. Source:
`php_json_escape_string`. -/
def escapeLoop (o : Options) (s buf : List UInt8) : Bool × List UInt8 :=
  match s with
  | [] => (true, buf)
  | us :: s =>
    if us < 0x80 then escapeLoop o s (buf ++ escapeAscii o us)
    else match _h : getNextChar (us :: s) with
      | .success thisChar rest =>
        escapeLoop o rest
          (buf ++ escapeMultibyte o thisChar ((us :: s).take (s.length + 1 - rest.length)))
      | .failure rest =>
        if o.invalidUtf8Ignore then escapeLoop o rest buf
        else if o.invalidUtf8Substitute then
          escapeLoop o rest (buf ++ escapeMultibyte o 0xfffd [0xef, 0xbf, 0xbd])
        else (false, buf)
termination_by s.length
decreasing_by
  · exact Nat.lt_succ_self _
  · exact length_of_getNextChar_success _h
  · exact Nat.lt_succ_of_le (length_of_getNextChar_failure _h)
  · exact Nat.lt_succ_of_le (length_of_getNextChar_failure _h)

section encoder

variable {T O : Type}

/-- The part of `php_json_escape_string` after the numeric check: the buffer is cut back to the
checkpoint when the string is not well-formed. -/
def escapeChars (o : Options) (s : List UInt8) (enc : Encoder T) : Status × Encoder T :=
  let checkpoint := enc.buf.length
  match escapeLoop o s (enc.buf ++ [0x22]) with
  | (true, buf) => (.success, { enc with buf := buf ++ [0x22] })
  | (false, buf) =>
    let enc := { enc with buf := buf.take checkpoint, errorCode := .utf8 }
    (.failure, if o.partialOutputOnError then enc.append (ascii "null") else enc)

/-- `php_json_escape_string`. -/
def escapeString (env : Env T O) (o : Options) (s : List UInt8) (enc : Encoder T) :
    Status × Encoder T :=
  if s = [] then (.success, enc.append (ascii "\"\""))
  else if o.numericCheck then
    match env.isNumericString s with
    | some (.inl p) => (.success, enc.append (intDecimal p.toInt))
    | some (.inr (.finite d)) => (.success, enc.append (encodeDouble o env.serializePrecision d))
    | _ => escapeChars o s enc
  else escapeChars o s enc

/-! ## Arrays and objects -/

/-- `PHP_JSON_OUTPUT_ARRAY` and `PHP_JSON_OUTPUT_OBJECT`. -/
inductive OutputType where
  | array
  | object
  deriving DecidableEq, Repr

/-- The walk over the keys: they are `idx`, `idx + 1` and so on. Source:
`php_json_determine_array_type`. -/
def isList (idx : BitVec 64) : List (Key × Zval T O) → Bool
  | [] => true
  | (.name _, _) :: _ => false
  | (.index index, _) :: rest => if index ≠ idx then false else isList (idx + 1) rest

/-- `php_json_determine_array_type`. -/
def determineArrayType (ht : HashTable T O) : OutputType :=
  if ht.elements = [] then .array
  else if ht.packedWithoutHoles then .array
  else if isList 0 ht.elements then .array
  else .object

/-- `php_json_pretty_print_char`. -/
def prettyPrintChar (o : Options) (c : UInt8) (enc : Encoder T) : Encoder T :=
  if o.prettyPrint then enc.append [c] else enc

/-- `php_json_pretty_print_indent`. -/
def prettyPrintIndent (o : Options) (enc : Encoder T) : Encoder T :=
  if o.prettyPrint then enc.append (List.replicate enc.depth (ascii "    ")).flatten else enc

/-- The comma and the line break before an element. Source: `php_json_encode_array`. -/
def beginElement (o : Options) (needComma : Bool) (enc : Encoder T) : Encoder T :=
  let enc := if needComma then enc.append [0x2c] else enc
  prettyPrintIndent o (prettyPrintChar o 0x0a enc)

/-- A string key; what a failed escape left is replaced by an empty string. Source:
`php_json_encode_array`. -/
def encodeName (env : Env T O) (o : Options) (key : List UInt8) (enc : Encoder T) : Encoder T :=
  match escapeString env { o with numericCheck := false } key enc with
  | (.failure, enc) =>
    if o.partialOutputOnError then
      Encoder.append { enc with buf := enc.buf.take (enc.buf.length - 4) } (ascii "\"\"")
    else enc
  | (.success, enc) => enc

/-- An integer key. Source: `php_json_encode_array`. -/
def encodeIndex (index : BitVec 64) (enc : Encoder T) : Encoder T :=
  ((enc.append [0x22]).append (intDecimal index.toInt)).append [0x22]

/-- What the loop does with an element before its value; `none` for a private or protected member,
which is skipped. Source: `php_json_encode_array`. -/
def encodeKey (env : Env T O) (o : Options) (r : OutputType) (isObject needComma : Bool) (key : Key)
    (enc : Encoder T) : Option (Encoder T) :=
  match r, key with
  | .array, _ => some (beginElement o needComma enc)
  | .object, .name key =>
    if key.head? = some 0 ∧ isObject then none
    else
      let enc := encodeName env o key (beginElement o needComma enc)
      some (prettyPrintChar o 0x20 (enc.append [0x3a]))
  | .object, .index index =>
    let enc := encodeIndex index (beginElement o needComma enc)
    some (prettyPrintChar o 0x20 (enc.append [0x3a]))

/-- The loop over the elements; `encode` is `php_json_encode_zval`. It returns `need_comma`, or that
an element failed. Source: `php_json_encode_array`. -/
def encodeElements (env : Env T O) (o : Options)
    (encode : Zval T O → Encoder T → Except Unfinished (Status × Encoder T)) (r : OutputType)
    (isObject : Bool) :
    List (Key × Zval T O) → Bool → Encoder T → Except Unfinished (Status × Bool × Encoder T)
  | [], needComma, enc => .ok (.success, needComma, enc)
  | (key, data) :: rest, needComma, enc =>
    match encodeKey env o r isObject needComma key enc with
    | none => encodeElements env o encode r isObject rest needComma enc
    | some enc => do
      let (status, enc) ← encode data enc
      if status = .failure ∧ !o.partialOutputOnError then .ok (.failure, true, enc)
      else encodeElements env o encode r isObject rest true enc

variable [DecidableEq T] [DecidableEq O]

/-- `PHP_JSON_HASH_APPLY_PROTECTION_INC`. -/
def applyProtectionInc (env : Env T O) (myht : T) (enc : Encoder T) : Encoder T :=
  if (env.heap.table myht).applyProtection then
    { enc with applyCount := Function.update enc.applyCount myht (enc.applyCount myht + 1) }
  else enc

/-- `PHP_JSON_HASH_APPLY_PROTECTION_DEC`. -/
def applyProtectionDec (env : Env T O) (myht : T) (enc : Encoder T) : Encoder T :=
  if (env.heap.table myht).applyProtection then
    { enc with applyCount := Function.update enc.applyCount myht (enc.applyCount myht - 1) }
  else enc

/-- The end of `php_json_encode_array`: the depth check and the closing bracket. -/
def closeArray (env : Env T O) (o : Options) (r : OutputType) (needComma : Bool) (enc : Encoder T) :
    Status × Encoder T :=
  let tooDeep := decide (env.maxDepth < enc.depth)
  let enc := if tooDeep then { enc with errorCode := .depth } else enc
  if tooDeep && !o.partialOutputOnError then (.failure, enc)
  else
    let enc := { enc with depth := enc.depth - 1 }
    -- Only keep closing bracket on same line for empty arrays/objects
    let enc := if needComma then prettyPrintIndent o (prettyPrintChar o 0x0a enc) else enc
    (.success, enc.append (if r = .array then [0x5d] else [0x7d]))

/-- `php_json_encode_array` of an array, or of an object with these properties. -/
def encodeArray (env : Env T O) (o : Options)
    (encode : Zval T O → Encoder T → Except Unfinished (Status × Encoder T))
    (isObject : Bool) (myht : T)
    (enc : Encoder T) : Except Unfinished (Status × Encoder T) :=
  let ht := env.heap.table myht
  let r := if isObject || o.forceObject then .object else determineArrayType ht
  if 0 < enc.applyCount myht then
    .ok (.failure, Encoder.append { enc with errorCode := .recursion } (ascii "null"))
  else do
    let enc := applyProtectionInc env myht enc
    let enc := enc.append (if r = .array then [0x5b] else [0x7b])
    let enc := { enc with depth := enc.depth + 1 }
    let (status, needComma, enc) ← encodeElements env o encode r isObject ht.elements false enc
    let enc := applyProtectionDec env myht enc
    if status = .failure then .ok (.failure, enc) else .ok (closeArray env o r needComma enc)

/-- `php_json_encode_serializable_object`. -/
def encodeSerializableObject (env : Env T O) (o : Options)
    (encode : Zval T O → Encoder T → Except Unfinished (Status × Encoder T)) (obj : O)
    (call : Call T O)
    (enc : Encoder T) : Except Unfinished (Status × Encoder T) :=
  let myht := (env.heap.object obj).properties
  if 0 < enc.applyCount myht then
    let enc := { enc with errorCode := .recursion }
    .ok (.failure, if o.partialOutputOnError then enc.append (ascii "null") else enc)
  else
    let enc := applyProtectionInc env myht enc
    -- `zend_call_function` fails at once while an exception is pending
    let retval := if enc.exception then none else call.retval
    match retval with
    | none =>
      let enc := { enc with exception := true }
      let enc := if o.partialOutputOnError then enc.append (ascii "null") else enc
      .ok (.failure, applyProtectionDec env myht enc)
    | some retval =>
      if call.exception then
        let enc := { enc with exception := true }
        let enc := if o.partialOutputOnError then enc.append (ascii "null") else enc
        .ok (.failure, applyProtectionDec env myht enc)
      else match retval with
        | .object obj' =>
          if obj' = obj then
            -- `return $this;`: straight to the properties
            encodeArray env o encode true myht (applyProtectionDec env myht enc)
          else
            (encode (.object obj') enc).map fun r => (r.1, applyProtectionDec env myht r.2)
        | retval => (encode retval enc).map fun r => (r.1, applyProtectionDec env myht r.2)

/-- `php_json_encode_zval`, with a bound on the depth of the recursion. -/
def encodeZval (env : Env T O) (o : Options) :
    ℕ → Zval T O → Encoder T → Except Unfinished (Status × Encoder T)
  | 0, _, _ => .error .outOfSteps
  | steps + 1, val, enc =>
    match val with
    | .null => .ok (.success, enc.append (ascii "null"))
    | .bool true => .ok (.success, enc.append (ascii "true"))
    | .bool false => .ok (.success, enc.append (ascii "false"))
    | .long n => .ok (.success, enc.append (intDecimal n.toInt))
    | .double (.finite d) => .ok (.success, enc.append (encodeDouble o env.serializePrecision d))
    | .double _ => .ok (.success, Encoder.append { enc with errorCode := .infOrNan } (ascii "0"))
    | .string s => .ok (escapeString env o s enc)
    | .object obj =>
      match (env.heap.object obj).jsonSerialize with
      | some call => encodeSerializableObject env o (encodeZval env o steps) obj call enc
      | none =>
        encodeArray env o (encodeZval env o steps) true (env.heap.object obj).properties enc
    | .array ht => encodeArray env o (encodeZval env o steps) false ht enc
    | .reference val => encodeZval env o steps val enc
    | .resource =>
      let enc := { enc with errorCode := .unsupportedType }
      .ok (.failure, if o.partialOutputOnError then enc.append (ascii "null") else enc)

end encoder

end PhpInternals.Ext.Json

import Mathlib.Tactic

/-!
# Removing `NOP`s from an op array

The model of `zend_optimizer_nop_removal` and of the two functions it moves jumps with.
-/

namespace PhpInternals.Optimizer.NopRemoval

open Function (update)

/-! ## Op arrays -/

/-- The opcodes that hold jump targets, and those that the pass or the machine tells apart. -/
inductive Opcode where
  | nop
  | jmp
  | fastCall
  | jmpznz
  | jmpz
  | jmpnz
  | jmpzEx
  | jmpnzEx
  | feResetR
  | feResetRw
  | jmpSet
  | coalesce
  | assertCheck
  | catch_
  | declareAnonClass
  | declareAnonInheritedClass
  | feFetchR
  | feFetchRw
  | switchLong
  | switchString
  | fastRet
  | declareInheritedClassDelayed
  /-- `ZEND_RETURN` and the others that leave the function. -/
  | leave (n : ℕ)
  | other (n : ℕ)
deriving DecidableEq, Repr

/-- An instruction. `op1` and `op2` are jump offsets where the opcode has one there, `jumptable` has
the values of the array that `op2` is in a switch, and `data` is all the rest. The offsets are
counted in bytes; but for those of the array they have 32 bits. Source: `zend_compile.h` `zend_op`,
`znode_op`. -/
structure Op (D : Type) where
  opcode : Opcode
  op1 : ℤ
  op2 : ℤ
  result : ℕ
  extendedValue : ℤ
  jumptable : List ℤ
  data : D

/-- Source: `zend_compile.h` `zend_live_range`. -/
structure LiveRange where
  var : ℕ
  start : ℕ
  endOp : ℕ
deriving DecidableEq

/-- Source: `zend_compile.h` `zend_try_catch_element`. -/
structure TryCatchElement where
  tryOp : ℕ
  catchOp : ℕ
  finallyOp : ℕ
  finallyEnd : ℕ
deriving DecidableEq

/-- `(uint32_t)-1`. -/
def noOpline : ℕ := 2 ^ 32 - 1

/-- Source: `zend_compile.h` `zend_op_array`. -/
structure OpArray (D : Type) where
  opcodes : ℕ → Op D
  last : ℕ
  liveRange : List LiveRange
  tryCatchArray : List TryCatchElement
  earlyBinding : ℕ

variable {D : Type}

/-! ## Moving jumps -/

/-- How far a jump goes, in instructions of 32 bytes. The offset is read as an `int`. -/
def distance (offset : ℤ) : ℤ := Int.bmod offset (2 ^ 32) / 32

/-- Source: `zend_compile.h` `ZEND_OFFSET_TO_OPLINE_NUM`, `OP_JMP_ADDR`. -/
def offsetToOplineNum (base offset : ℤ) : ℤ := base + distance offset

/-- Source: `zend_compile.h` `ZEND_OPLINE_NUM_TO_OFFSET`, `ZEND_OPLINE_TO_OFFSET`. -/
def oplineNumToOffset (opline oplineNum : ℤ) : ℤ := 32 * (oplineNum - opline)

/-- The offset to a target seen from another instruction. Source: `zend_optimizer.c`
`zend_optimizer_migrate_jump`. -/
def rebase (newOpline opline offset : ℤ) : ℤ :=
  oplineNumToOffset newOpline (offsetToOplineNum opline offset)

/-- The offset to where a target has moved. Source: `zend_optimizer.c` `zend_optimizer_shift_jump`.
-/
def shifted (shiftlist : ℤ → ℤ) (opline offset : ℤ) : ℤ :=
  let target := offsetToOplineNum opline offset
  oplineNumToOffset opline (target - shiftlist target)

/-- An offset is stored in a `uint32_t`. -/
def stored (offset : ℤ) : ℤ := offset % 2 ^ 32

/-- The jumps of the copy of an instruction. A last `ZEND_CATCH` has no target. Source:
`zend_optimizer.c` `zend_optimizer_migrate_jump`. -/
def Op.migrateJump (newOpline opline : ℤ) (op : Op D) : Op D :=
  match op.opcode with
  | .jmp | .fastCall => { op with op1 := stored (rebase newOpline opline op.op1) }
  | .jmpznz =>
    { op with
      extendedValue := stored (rebase newOpline opline op.extendedValue)
      op2 := stored (rebase newOpline opline op.op2) }
  | .jmpz | .jmpnz | .jmpzEx | .jmpnzEx | .feResetR | .feResetRw | .jmpSet | .coalesce
  | .assertCheck => { op with op2 := stored (rebase newOpline opline op.op2) }
  | .catch_ =>
    if op.result = 0 then
      { op with extendedValue := stored (rebase newOpline opline op.extendedValue) }
    else op
  | .declareAnonClass | .declareAnonInheritedClass | .feFetchR | .feFetchRw =>
    { op with extendedValue := stored (rebase newOpline opline op.extendedValue) }
  | .switchLong | .switchString =>
    { op with
      jumptable := op.jumptable.map (rebase newOpline opline)
      extendedValue := stored (rebase newOpline opline op.extendedValue) }
  | _ => op

/-- The jumps of an instruction whose targets have moved. Here `ZEND_CATCH` is treated alike whether
it has a target or not. Source: `zend_optimizer.c` `zend_optimizer_shift_jump`. -/
def Op.shiftJump (shiftlist : ℤ → ℤ) (opline : ℤ) (op : Op D) : Op D :=
  match op.opcode with
  | .jmp | .fastCall => { op with op1 := stored (shifted shiftlist opline op.op1) }
  | .jmpznz =>
    { op with
      extendedValue := stored (shifted shiftlist opline op.extendedValue)
      op2 := stored (shifted shiftlist opline op.op2) }
  | .jmpz | .jmpnz | .jmpzEx | .jmpnzEx | .feResetR | .feResetRw | .jmpSet | .coalesce
  | .assertCheck => { op with op2 := stored (shifted shiftlist opline op.op2) }
  | .declareAnonClass | .declareAnonInheritedClass | .feFetchR | .feFetchRw | .catch_ =>
    { op with extendedValue := stored (shifted shiftlist opline op.extendedValue) }
  | .switchLong | .switchString =>
    { op with
      jumptable := op.jumptable.map (shifted shiftlist opline)
      extendedValue := stored (shifted shiftlist opline op.extendedValue) }
  | _ => op

/-! ## The pass -/

/-- `while (target->opcode == ZEND_NOP) target--;` -/
def skipNops (opcodes : ℕ → Op D) : ℕ → ℕ
  | 0 => 0
  | target + 1 => if (opcodes (target + 1)).opcode = .nop then skipNops opcodes target
    else target + 1

/-- Turn a jump over nothing but `NOP`s into a `NOP`. -/
def killJmp (opcodes : ℕ → Op D) (i : ℕ) : ℕ → Op D :=
  let opline := opcodes i
  if opline.opcode = .jmp ∧ offsetToOplineNum i opline.op1 > i then
    let target := skipNops opcodes (offsetToOplineNum i opline.op1 - 1).toNat
    if target = i then update opcodes i { opline with opcode := .nop } else opcodes
  else opcodes

/-- The variables of the loop over the instructions. `shiftlist` has arbitrary values where nothing
has been stored. -/
structure NopState (D : Type) where
  opcodes : ℕ → Op D
  shiftlist : ℤ → ℤ
  newCount : ℕ
  shift : ℕ

/-- The body of the loop over the instructions. -/
def removeStep (st : NopState D) (i : ℕ) : NopState D :=
  let opcodes := killJmp st.opcodes i
  let shiftlist := update st.shiftlist i st.shift
  if (opcodes i).opcode = .nop then ⟨opcodes, shiftlist, st.newCount, st.shift + 1⟩
  else if st.shift ≠ 0 then
    ⟨update opcodes st.newCount ((opcodes i).migrateJump st.newCount i), shiftlist,
      st.newCount + 1, st.shift⟩
  else ⟨opcodes, shiftlist, st.newCount + 1, st.shift⟩

/-- The loop over the instructions. -/
def removeLoop (garbage : ℤ → ℤ) (opcodes : ℕ → Op D) : ℕ → NopState D
  | 0 => ⟨opcodes, garbage, 0, 0⟩
  | i + 1 => removeStep (removeLoop garbage opcodes i) i

/-- `x -= shiftlist[x]`. -/
def moved (shiftlist : ℤ → ℤ) (x : ℕ) : ℕ := ((x : ℤ) - shiftlist x).toNat

def LiveRange.shift (shiftlist : ℤ → ℤ) (r : LiveRange) : LiveRange :=
  { r with start := moved shiftlist r.start, endOp := moved shiftlist r.endOp }

def TryCatchElement.shift (shiftlist : ℤ → ℤ) (t : TryCatchElement) : TryCatchElement :=
  let t := { t with tryOp := moved shiftlist t.tryOp, catchOp := moved shiftlist t.catchOp }
  if t.finallyOp ≠ 0 then
    { t with
      finallyOp := moved shiftlist t.finallyOp
      finallyEnd := moved shiftlist t.finallyEnd }
  else t

/-- The rest of the early binding list, from the instruction that was updated last. -/
def shiftBindings (shiftlist : ℤ → ℤ) : ℕ → ℕ → (ℕ → Op D) → ℕ → Op D
  | 0, _, opcodes => opcodes
  | steps + 1, opline, opcodes =>
    let link := (opcodes opline).result
    if link = noOpline then opcodes
    else
      let link' := moved shiftlist link
      shiftBindings shiftlist steps link'
        (update opcodes opline { opcodes opline with result := link' })

/-- The pass. The early binding list has no more entries than there are instructions. -/
def zendOptimizerNopRemoval (garbage : ℤ → ℤ) (opArray : OpArray D) : OpArray D :=
  let st := removeLoop garbage opArray.opcodes opArray.last
  if st.shift ≠ 0 then
    let opcodes := fun i : ℕ =>
      if i < st.newCount then (st.opcodes i).shiftJump st.shiftlist i else st.opcodes i
    let bound :=
      if opArray.earlyBinding ≠ noOpline then
        let first := moved st.shiftlist opArray.earlyBinding
        (first, shiftBindings st.shiftlist opArray.last first opcodes)
      else (opArray.earlyBinding, opcodes)
    { opcodes := bound.2
      last := st.newCount
      liveRange := opArray.liveRange.map (LiveRange.shift st.shiftlist)
      tryCatchArray := opArray.tryCatchArray.map (TryCatchElement.shift st.shiftlist)
      earlyBinding := bound.1 }
  else { opArray with opcodes := st.opcodes }

end PhpInternals.Optimizer.NopRemoval

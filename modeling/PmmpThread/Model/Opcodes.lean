/-
The relocation of the instructions of a function:
`pmmpthread_copy_opcodes` of src/copy.c and the memory that
`pmmpthread_copy_user_function` gives it.

# Representations

An engine is built with absolute addresses in the operands of its
instructions, or with signed 32-bit offsets in bytes from the instruction
that has the operand; `Build` says which, separately for constants and for
jumps. What an operand stands for is `rtConstant` and `jmpAddr`. An
operand is the number in the union `znode_op`. The code looks at bytes
only, so an address is an integer.

# The state of the op_array

Its literals are replaced already, its opcodes are not; the original
literals are the second argument.
-/
import Mathlib.Data.List.Basic
import Mathlib.Tactic.Ring

namespace PmmpThread.Model

/-- `zend_uchar opcode`: those the relocation looks at. -/
inductive Opcode where
  | sendVal
  | sendValEx
  | qmAssign
  | jmp
  | fastCall
  | jmpznz
  | jmpz
  | jmpnz
  | jmpzEx
  | jmpnzEx
  | jmpSet
  | coalesce
  | feResetR
  | feResetRw
  | assertCheck
  | jmpNull
  | bindInitStaticOrJmp
  | jmpFrameless
  | catch_
  | feFetchR
  | feFetchRw
  | switchLong
  | switchString
  | match_
  | other (n : Nat)
  deriving DecidableEq, Repr

/-- `op1_type`, `op2_type`. -/
inductive OperandType where
  | unused
  | const
  | tmpVar
  | var
  | cv
  deriving DecidableEq, Repr

/-- An operand of an instruction. -/
inductive Operand where
  | op1
  | op2
  deriving DecidableEq, Repr

/-- `zend_op`. `handler` is the type mask of the first operand that
`zend_vm_set_opcode_handler_ex` chose a handler for, if it was called. -/
structure ZendOp where
  opcode : Opcode
  op1Type : OperandType
  op2Type : OperandType
  op1 : Int
  op2 : Int
  extendedValue : Nat
  handler : Option Nat
  deriving DecidableEq, Repr

namespace ZendOp

def operandType (op : ZendOp) : Operand → OperandType
  | .op1 => op.op1Type
  | .op2 => op.op2Type

def operand (op : ZendOp) : Operand → Int
  | .op1 => op.op1
  | .op2 => op.op2

/-- The opcodes after whose relocation the handler is set. -/
def setsHandler (op : ZendOp) : Bool :=
  op.opcode = .sendVal || op.opcode = .sendValEx || op.opcode = .qmAssign

/-- The operand that is a jump, whatever the version. -/
def jumpOperand (op : ZendOp) : Option Operand :=
  match op.opcode with
  | .jmp | .fastCall => some .op1
  | .jmpznz | .jmpz | .jmpnz | .jmpzEx | .jmpnzEx | .jmpSet | .coalesce
  | .feResetR | .feResetRw | .assertCheck | .jmpNull
  | .bindInitStaticOrJmp | .jmpFrameless => some .op2
  | .catch_ =>
      -- `ZEND_LAST_CATCH`
      if op.extendedValue &&& 1 = 0 then some .op2 else none
  | _ => none

end ZendOp

/-- How the engine was built: `ZEND_USE_ABS_CONST_ADDR`,
`ZEND_USE_ABS_JMP_ADDR`, `PHP_VERSION_ID` and the sizes of `zend_op` and
`zval`. -/
structure Build where
  absConst : Bool
  absJmp : Bool
  version : Nat
  sizeofOp : Nat
  sizeofZval : Nat
  op_pos : 0 < sizeofOp
  zval_pos : 0 < sizeofZval

/-- `zend_op_array` while its opcodes are copied: `opcodes` are the
original ones, `literals` the new ones, with their types. No instruction
has a constant for a jump. -/
structure OpArray where
  opcodes : Int
  ops : List ZendOp
  literals : Int
  literalTypes : List Nat
  donePassTwo : Bool
  jump_not_const : ∀ op ∈ ops, ∀ o, op.jumpOperand = some o →
    op.operandType o ≠ .const

/-- `(int32_t)`. -/
def int32 (x : Int) : Int := x.bmod (2 ^ 32)

/-- A value that an `int32_t` has. -/
def IsInt32 (x : Int) : Prop := -2 ^ 31 ≤ x ∧ x < 2 ^ 31

namespace Build

variable (B : Build)

/-- `opcodes + i`. -/
def opAddr (opcodes : Int) (i : Int) : Int := opcodes + i * B.sizeofOp

/-- `literals + k`. -/
def zvalAddr (literals : Int) (k : Int) : Int := literals + k * B.sizeofZval

/-- `RT_CONSTANT`: the literal of a constant operand. -/
def rtConstant (opline node : Int) : Int :=
  if B.absConst then node else opline + int32 node

/-- `OP_JMP_ADDR`: the instruction of a jump operand. -/
def jmpAddr (opline node : Int) : Int :=
  if B.absJmp then node else opline + int32 node

-- ========================================================== relocation

/-- The new operand for a constant of the instruction `i`, which is a
`uint32_t` unless it is an address. -/
def relocateConst (a : OpArray) (literals memory : Int) (i : Nat)
    (node : Int) : Int :=
  if B.absConst then node + (a.literals - literals)
  else
    (B.zvalAddr a.literals
      ((B.opAddr a.opcodes i + int32 node - literals) / B.sizeofZval)
      - B.opAddr memory i) % 2 ^ 32

/-- The type mask for the handler: `1 << Z_TYPE_P(opline->op1.zv)` with
addresses, nothing is known otherwise. -/
def handlerMask (a : OpArray) (node : Int) : Nat :=
  if B.absConst then
    1 <<< (a.literalTypes[((node - a.literals) / B.sizeofZval).toNat]?.getD 0)
  else 0

/-- The part of the loop for a first operand that is a constant. -/
def relocateOp1 (a : OpArray) (literals memory : Int) (i : Nat)
    (op : ZendOp) : ZendOp :=
  if op.op1Type = .const then
    let node := B.relocateConst a literals memory i op.op1
    { op with
      op1 := node
      handler := if op.setsHandler then some (B.handlerMask a node)
        else op.handler }
  else op

def relocateOp2 (a : OpArray) (literals memory : Int) (i : Nat)
    (op : ZendOp) : ZendOp :=
  if op.op2Type = .const then
    { op with op2 := B.relocateConst a literals memory i op.op2 }
  else op

/-- The opcodes that the version has a case for. -/
def listed (op : ZendOp) : Bool :=
  match op.opcode with
  | .jmpznz => B.version < 80200
  | .bindInitStaticOrJmp => 80300 ≤ B.version
  | .jmpFrameless => 80400 ≤ B.version
  | _ => true

/-- `&copy[jmp_addr - op_array->opcodes]`. -/
def relocateJmp (a : OpArray) (memory node : Int) : Int :=
  B.opAddr memory ((node - a.opcodes) / B.sizeofOp)

/-- The `switch` over the opcodes. -/
def relocateJumps (a : OpArray) (memory : Int) (op : ZendOp) : ZendOp :=
  if B.absJmp && a.donePassTwo && B.listed op then
    match op.jumpOperand with
    | some .op1 => { op with op1 := B.relocateJmp a memory op.op1 }
    | some .op2 => { op with op2 := B.relocateJmp a memory op.op2 }
    | none => op
  else op

/-- One turn of the loop of `pmmpthread_copy_opcodes`. -/
def copyOpline (a : OpArray) (literals memory : Int) (i : Nat)
    (op : ZendOp) : ZendOp :=
  B.relocateJumps a memory
    (B.relocateOp2 a literals memory i (B.relocateOp1 a literals memory i op))

/-- `pmmpthread_copy_opcodes`: the instructions in `memory`. -/
def copyOpcodes (a : OpArray) (literals memory : Int) : List ZendOp :=
  a.ops.mapIdx (B.copyOpline a literals memory)

-- ============================================================== memory

/-- `ZEND_MM_ALIGNED_SIZE_EX(sizeof(zend_op) * last, 16)`. -/
def alignedOps (last : Nat) : Nat := (B.sizeofOp * last + 15) / 16 * 16

/-- The bytes that `pmmpthread_copy_user_function` asks for where the
literals are relative to the instructions. -/
def blockSize (last lastLiteral : Nat) : Nat :=
  B.alignedOps last + B.sizeofZval * lastLiteral

/-- Where the literals are in this block. -/
def literalsMemory (memory : Int) (last : Nat) : Int :=
  memory + B.alignedOps last

end Build

end PmmpThread.Model

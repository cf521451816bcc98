import TreeCode.Num.Basic
import TreeCode.Text.Quoted

/-!
# Instructions

The instruction set of the stack machine. Operands are positions in the side
tables of a unit, local slots, entries of the closure record, or positions of
instructions. Each constructor's comment gives its effect on the operand
stack.
-/

namespace TreeCode

/-- An instruction. -/
inductive Instr where
  /-- Stops; reaching it is a defect. -/
  | halt
  | nop
  /-- `… → …, null` -/
  | constNull
  /-- `… → …, unit` -/
  | constUnit
  /-- `… → …, bool` -/
  | constBool (b : Bool)
  /-- `… → …, i32` -/
  | constI32 (n : BitVec 32)
  /-- Pushes an entry of the literal table. `… → …, value` -/
  | constLiteral (index : Nat)
  /-- Pushes a constant of the closure record. `… → …, value` -/
  | loadConstant (index : Nat)
  /-- `…, a → …` -/
  | pop
  /-- `…, a → …, a, a` -/
  | dup
  /-- `… → …, local` -/
  | loadLocal (slot : Nat)
  /-- `…, value → …` -/
  | storeLocal (slot : Nat)
  /-- Pushes the address of a local that holds a value struct. `… → …, address` -/
  | loadLocalAddress (slot : Nat)
  /-- Moves a value into a fresh cell stored in the slot. `…, value → …` -/
  | newCell (slot : Nat)
  /-- Reads through the cell in a slot. `… → …, value` -/
  | loadCell (slot : Nat)
  /-- Writes through the cell in a slot. `…, value → …` -/
  | storeCell (slot : Nat)
  /-- `… → …, address` -/
  | loadCellAddress (slot : Nat)
  /-- Reads a captured variable. `… → …, value` -/
  | loadCaptured (index : Nat)
  /-- `…, value → …` -/
  | storeCaptured (index : Nat)
  /-- Pushes a captured cell itself. `… → …, cell` -/
  | loadCapturedCell (index : Nat)
  /-- `… → …, address` -/
  | loadCapturedAddress (index : Nat)
  /-- `…, a, b → …, a op b` -/
  | arith (op : ArithOp) (k : NumKind)
  /-- A bitwise operator on truth values. `…, a, b → …, a op b` -/
  | logical (op : ArithOp)
  /-- `…, a, b → …, bool` -/
  | compare (op : CmpOp) (k : NumKind)
  /-- `…, a → …, -a` -/
  | negate (k : NumKind)
  /-- `…, a → …, not a` -/
  | not
  /-- `…, a → …, a as k` -/
  | convert (k : NumKind)
  /-- `…, a, b → …, a == b` -/
  | eq
  /-- `…, a, b → …, a != b` -/
  | notEq
  /-- `…, a, b → …, a b` -/
  | concat
  /-- Raises on null. `…, a → …, a` -/
  | unwrapNullable
  /-- Checks a reference against an entry of the type table; null passes.
  `…, a → …, a` -/
  | castClass (index : Nat)
  | jump (target : Nat)
  /-- `…, bool → …` -/
  | jumpIfFalse (target : Nat)
  /-- `…, bool → …` -/
  | jumpIfTrue (target : Nat)
  /-- `…, a → …` -/
  | jumpIfNull (target : Nat)
  /-- `…, a → …` -/
  | jumpIfNotNull (target : Nat)
  /-- Leaves protected regions; every finally block crossed on the way runs. -/
  | leave (target : Nat)
  /-- Ends a finally or fault block: goes on leaving, or throws again. -/
  | endFinally
  /-- `…, exception →` -/
  | throw
  /-- `…, value →` -/
  | ret
  /-- Calls an entry of the method table. `…, receiver?, args → …, result?` -/
  | call (index : Nat)
  /-- Calls the method of that name of the receiver's class.
  `…, receiver, args → …, result?` -/
  | callVirtual (index : Nat)
  /-- `…, function, args → …, result` -/
  | invoke (count : Nat)
  /-- Binds an open unit to cells. `…, unit, cells → …, function` -/
  | curry (count : Nat)
  /-- Makes an instance of an entry of the struct table from its leading
  fields. `…, fields → …, instance` -/
  | newStruct (index count : Nat)
  /-- `…, receiver → …, field` -/
  | loadField (index : Nat)
  /-- `…, receiver, value → …` -/
  | storeField (index : Nat)
  /-- `…, items → …, array` -/
  | newArray (count : Nat)
  /-- Makes an array of copies of an entry of the literal table.
  `…, length → …, array` -/
  | newArrayBounds (index : Nat)
  /-- `…, array, index → …, item` -/
  | loadElement
  /-- `…, array, index, value → …` -/
  | storeElement
  /-- `…, array → …, i32` -/
  | arrayLength
  deriving DecidableEq, Inhabited

namespace Instr

/-- The position that a jump goes to. -/
def target? : Instr → Option Nat
  | jump t | jumpIfFalse t | jumpIfTrue t | jumpIfNull t | jumpIfNotNull t | leave t => some t
  | _ => none

/-- The same jump to another position; other instructions are left alone. -/
def withTarget (i : Instr) (t : Nat) : Instr :=
  match i with
  | jump _ => jump t
  | jumpIfFalse _ => jumpIfFalse t
  | jumpIfTrue _ => jumpIfTrue t
  | jumpIfNull _ => jumpIfNull t
  | jumpIfNotNull _ => jumpIfNotNull t
  | leave _ => leave t
  | other => other

/-- Whether control never reaches the instruction after this one. -/
def transfersControl : Instr → Bool
  | jump _ | leave _ | throw | ret | endFinally => true
  | _ => false

/-- Whether the instruction can raise an exception. -/
def mayRaise : Instr → Bool
  | arith .div _ | arith .rem _ | unwrapNullable | castClass _ | throw | call _ | callVirtual _
  | invoke _ | loadField _ | storeField _ | newArrayBounds _ | loadElement | storeElement
  | arrayLength => true
  | _ => false

/-- The instruction as listings show it. -/
def detailed : Instr → String
  | halt => "Halt"
  | nop => "Nop"
  | constNull => "ConstNull"
  | constUnit => "ConstUnit"
  | constBool b => s!"ConstBool({b})"
  | constI32 n => s!"ConstI32({n.toInt})"
  | constLiteral i => s!"ConstLiteral({i})"
  | loadConstant i => s!"LoadConstant({i})"
  | pop => "Pop"
  | dup => "Dup"
  | loadLocal i => s!"LoadLocal({i})"
  | storeLocal i => s!"StoreLocal({i})"
  | loadLocalAddress i => s!"LoadLocalAddress({i})"
  | newCell i => s!"NewCell({i})"
  | loadCell i => s!"LoadCell({i})"
  | storeCell i => s!"StoreCell({i})"
  | loadCellAddress i => s!"LoadCellAddress({i})"
  | loadCaptured i => s!"LoadCaptured({i})"
  | storeCaptured i => s!"StoreCaptured({i})"
  | loadCapturedCell i => s!"LoadCapturedCell({i})"
  | loadCapturedAddress i => s!"LoadCapturedAddress({i})"
  | arith op k => s!"Arith({op.tag}, {k.tag})"
  | logical op => s!"Logical({op.tag})"
  | compare op k => s!"Compare({op.tag}, {k.tag})"
  | negate k => s!"Negate({k.tag})"
  | not => "Not"
  | convert k => s!"Convert({k.tag})"
  | eq => "Eq"
  | notEq => "NotEq"
  | concat => "Concat"
  | unwrapNullable => "UnwrapNullable"
  | castClass i => s!"CastClass({i})"
  | jump t => s!"Jump({t})"
  | jumpIfFalse t => s!"JumpIfFalse({t})"
  | jumpIfTrue t => s!"JumpIfTrue({t})"
  | jumpIfNull t => s!"JumpIfNull({t})"
  | jumpIfNotNull t => s!"JumpIfNotNull({t})"
  | leave t => s!"Leave({t})"
  | endFinally => "EndFinally"
  | throw => "Throw"
  | ret => "Return"
  | call i => s!"Call({i})"
  | callVirtual i => s!"CallVirtual({i})"
  | invoke n => s!"Invoke({n})"
  | curry n => s!"Curry({n})"
  | newStruct i n => s!"NewStruct({i}, {n})"
  | loadField i => s!"LoadField({i})"
  | storeField i => s!"StoreField({i})"
  | newArray n => s!"NewArray({n})"
  | newArrayBounds i => s!"NewArrayBounds({i})"
  | loadElement => "LoadElement"
  | storeElement => "StoreElement"
  | arrayLength => "ArrayLength"

end Instr

end TreeCode

import TreeCode.Code.Instr

/-!
# Instructions by name

Instructions can be written by hand, as a name and operands. `Instr.assemble?`
reads one in the spelling of `Instr.detailed`.
-/

namespace TreeCode

/-- An operand of a written instruction. -/
inductive Operand where
  | number (n : Int)
  | flag (b : Bool)
  /-- The name of an operator or of a numeric kind. -/
  | word (s : String)
  deriving DecidableEq, Repr, Inhabited

namespace Operand

def index? : Operand → Option Nat
  | number (.ofNat n) => some n
  | _ => none

def arithOp? : Operand → Option ArithOp
  | word s => ArithOp.all.find? (·.tag == s)
  | _ => none

def cmpOp? : Operand → Option CmpOp
  | word s => CmpOp.all.find? (·.tag == s)
  | _ => none

def numKind? : Operand → Option NumKind
  | word s => NumKind.all.find? (·.name == s)
  | _ => none

end Operand

namespace Instr

/-- The instructions without operands. -/
def bare : List Instr :=
  [halt, nop, constNull, constUnit, pop, dup, not, eq, notEq, concat, unwrapNullable, endFinally,
   throw, ret, loadElement, storeElement, arrayLength]

/-- The instructions whose operand is a position, a slot or a number of
values. -/
def indexed : List (String × (Nat → Instr)) :=
  [("ConstLiteral", constLiteral), ("LoadConstant", loadConstant), ("LoadLocal", loadLocal),
   ("StoreLocal", storeLocal), ("LoadLocalAddress", loadLocalAddress), ("NewCell", newCell),
   ("LoadCell", loadCell), ("StoreCell", storeCell), ("LoadCellAddress", loadCellAddress),
   ("LoadCaptured", loadCaptured), ("StoreCaptured", storeCaptured),
   ("LoadCapturedCell", loadCapturedCell), ("LoadCapturedAddress", loadCapturedAddress),
   ("CastClass", castClass), ("Jump", jump), ("JumpIfFalse", jumpIfFalse),
   ("JumpIfTrue", jumpIfTrue), ("JumpIfNull", jumpIfNull), ("JumpIfNotNull", jumpIfNotNull),
   ("Leave", leave), ("Call", call), ("CallVirtual", callVirtual), ("Invoke", invoke),
   ("Curry", curry), ("LoadField", loadField), ("StoreField", storeField), ("NewArray", newArray),
   ("NewArrayBounds", newArrayBounds)]

/-- Reads an instruction from its name and operands. -/
def assemble? (name : String) (operands : List Operand) : Option Instr :=
  match name, operands with
  | "ConstBool", [.flag b] => some (constBool b)
  | "ConstI32", [.number n] => some (constI32 (BitVec.ofInt 32 n))
  | "Arith", [op, k] => do return arith (← op.arithOp?) (← k.numKind?)
  | "Logical", [op] => do return logical (← op.arithOp?)
  | "Compare", [op, k] => do return compare (← op.cmpOp?) (← k.numKind?)
  | "Negate", [k] => do return negate (← k.numKind?)
  | "Convert", [k] => do return convert (← k.numKind?)
  | "NewStruct", [i, n] => do return newStruct (← i.index?) (← n.index?)
  | name, [] => bare.find? (·.detailed == name)
  | name, [i] => do
    let (_, make) ← indexed.find? (·.1 == name)
    return make (← i.index?)
  | _, _ => none

end Instr

end TreeCode

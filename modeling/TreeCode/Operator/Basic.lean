import TreeCode.Member
import TreeCode.Num.Basic

/-!
# Operators of expressions

The unary and binary operators of the tree, the arithmetic or comparison each
stands for, and the names of the host methods that implement them on structs.
-/

namespace TreeCode

/-- Unary operators. -/
inductive UnaryOp where
  | negate
  | unaryPlus
  /-- Logical not on `bool`, bitwise complement on integers. -/
  | not
  | convert
  | arrayLength
  | throw
  | increment
  | decrement
  | preIncrementAssign
  | preDecrementAssign
  | postIncrementAssign
  | postDecrementAssign
  deriving DecidableEq, Repr, Inhabited

namespace UnaryOp

def tag : UnaryOp → String
  | negate => "Negate"
  | unaryPlus => "UnaryPlus"
  | not => "Not"
  | convert => "Convert"
  | arrayLength => "ArrayLength"
  | throw => "Throw"
  | increment => "Increment"
  | decrement => "Decrement"
  | preIncrementAssign => "PreIncrementAssign"
  | preDecrementAssign => "PreDecrementAssign"
  | postIncrementAssign => "PostIncrementAssign"
  | postDecrementAssign => "PostDecrementAssign"

/-- All operators. -/
def all : List UnaryOp :=
  [negate, unaryPlus, not, convert, arrayLength, throw, increment, decrement, preIncrementAssign,
   preDecrementAssign, postIncrementAssign, postDecrementAssign]

/-- Whether the operator stores to its operand. -/
def isAssignment : UnaryOp → Bool
  | preIncrementAssign | preDecrementAssign | postIncrementAssign | postDecrementAssign => true
  | _ => false

/-- Whether an assigning operator gives the value before the store. -/
def isPost : UnaryOp → Bool
  | postIncrementAssign | postDecrementAssign => true
  | _ => false

/-- The arithmetic that moves a value by one. -/
def stepArith : UnaryOp → ArithOp
  | increment | preIncrementAssign | postIncrementAssign => .add
  | _ => .sub

end UnaryOp

/-- Binary operators. -/
inductive BinaryOp where
  | add
  | subtract
  | multiply
  | divide
  | modulo
  | and
  | or
  | exclusiveOr
  | leftShift
  | rightShift
  | andAlso
  | orElse
  | equal
  | notEqual
  | lessThan
  | lessThanOrEqual
  | greaterThan
  | greaterThanOrEqual
  | coalesce
  | assign
  | addAssign
  | subtractAssign
  | multiplyAssign
  | divideAssign
  | moduloAssign
  deriving DecidableEq, Repr, Inhabited

namespace BinaryOp

def tag : BinaryOp → String
  | add => "Add"
  | subtract => "Subtract"
  | multiply => "Multiply"
  | divide => "Divide"
  | modulo => "Modulo"
  | and => "And"
  | or => "Or"
  | exclusiveOr => "ExclusiveOr"
  | leftShift => "LeftShift"
  | rightShift => "RightShift"
  | andAlso => "AndAlso"
  | orElse => "OrElse"
  | equal => "Equal"
  | notEqual => "NotEqual"
  | lessThan => "LessThan"
  | lessThanOrEqual => "LessThanOrEqual"
  | greaterThan => "GreaterThan"
  | greaterThanOrEqual => "GreaterThanOrEqual"
  | coalesce => "Coalesce"
  | assign => "Assign"
  | addAssign => "AddAssign"
  | subtractAssign => "SubtractAssign"
  | multiplyAssign => "MultiplyAssign"
  | divideAssign => "DivideAssign"
  | moduloAssign => "ModuloAssign"

/-- All operators. -/
def all : List BinaryOp :=
  [add, subtract, multiply, divide, modulo, and, or, exclusiveOr, leftShift, rightShift, andAlso,
   orElse, equal, notEqual, lessThan, lessThanOrEqual, greaterThan, greaterThanOrEqual, coalesce,
   assign, addAssign, subtractAssign, multiplyAssign, divideAssign, moduloAssign]

/-- Whether the operator compares its operands. -/
def isRelational : BinaryOp → Bool
  | equal | notEqual | lessThan | lessThanOrEqual | greaterThan | greaterThanOrEqual => true
  | _ => false

def isShift : BinaryOp → Bool
  | leftShift | rightShift => true
  | _ => false

/-- The operator that a compound assignment applies. -/
def base? : BinaryOp → Option BinaryOp
  | addAssign => some add
  | subtractAssign => some subtract
  | multiplyAssign => some multiply
  | divideAssign => some divide
  | moduloAssign => some modulo
  | _ => none

/-- The arithmetic applied to numeric operands. -/
def arith? : BinaryOp → Option ArithOp
  | add | addAssign => some .add
  | subtract | subtractAssign => some .sub
  | multiply | multiplyAssign => some .mul
  | divide | divideAssign => some .div
  | modulo | moduloAssign => some .rem
  | and => some .bitAnd
  | or => some .bitOr
  | exclusiveOr => some .bitXor
  | leftShift => some .shl
  | rightShift => some .shr
  | _ => none

/-- The ordering applied to numeric operands. -/
def cmp? : BinaryOp → Option CmpOp
  | lessThan => some .lt
  | lessThanOrEqual => some .le
  | greaterThan => some .gt
  | greaterThanOrEqual => some .ge
  | _ => none

/-- Name of the host method that implements the operator on structs. -/
def methodName? : BinaryOp → Option String
  | add => some "op_Addition"
  | subtract => some "op_Subtraction"
  | multiply => some "op_Multiply"
  | divide => some "op_Division"
  | modulo => some "op_Modulus"
  | and => some "op_BitwiseAnd"
  | or => some "op_BitwiseOr"
  | exclusiveOr => some "op_ExclusiveOr"
  | equal => some "op_Equality"
  | notEqual => some "op_Inequality"
  | lessThan => some "op_LessThan"
  | lessThanOrEqual => some "op_LessThanOrEqual"
  | greaterThan => some "op_GreaterThan"
  | greaterThanOrEqual => some "op_GreaterThanOrEqual"
  | _ => none

/-- The host method for operands of these types: the left type is searched
before the right one. -/
def methodNamed? (op : BinaryOp) (c : Catalog) (left right : Ty) : Option Method :=
  op.methodName?.bind fun name =>
    [left, right].findSome? fun t => t.struct?.bind fun d => c.operatorNamed? d name [left, right]

/-- The kind that an operator on numeric operands runs in. A shift keeps the
kind of its left operand; `none` when an operand is not numeric. -/
def kind? (op : BinaryOp) (left right : Ty) : Option NumKind :=
  left.liftedNumKind?.bind fun l =>
    if op.isShift then some (.promote l l)
    else right.liftedNumKind?.map (.promote l)

/-- The kind that the right operand is converted to, in an operation of kind
`k`. -/
def rightKind (op : BinaryOp) (k : NumKind) : NumKind := if op.isShift then .i32 else k

end BinaryOp

/-- Whether a binary operator passes null through. -/
def isLifted (left right : Ty) : Bool := left.isNullable || right.isNullable

end TreeCode

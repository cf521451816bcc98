import TreeCode.Fault

/-!
# Operators on values

The primitive operators, shared by both ways of running a program, so that
they agree on every numeric edge case. Operands arrive converted to the kind
of the operation; shift counts are 32-bit signed integers.

An operation either gives a value, raises an exception, or meets operands it
has no rule for (`OpError`).
-/

namespace TreeCode

/-- Why an operator gives no value. -/
inductive OpError where
  /-- An exception that the operator raises. -/
  | raises (e : Exception)
  | defect (d : Defect)
  /-- A field lies outside its instance. -/
  | outOfTable
  /-- The text of an exception could not be written within the bound. -/
  | outOfFuel

namespace Operator

/-- Arithmetic and bitwise operators. Integers wrap; division of integers by
zero raises; truth values know the bitwise operators only. -/
def arith (op : ArithOp) (left right : Value) : Except OpError Value :=
  if op.isShift then
    match left, right with
    | .num a, .num count =>
      match Num.shift (op == .shl) a count with
      | .ok n => .ok (.num n)
      | .error _ => .error (.defect (.operands .shift left right))
    | _, _ => .error (.defect (.operands .shift left right))
  else
    match left, right with
    | .num a, .num b =>
      match Num.arith op a b with
      | .ok n => .ok (.num n)
      | .error .divideByZero => .error (.raises .divideByZero)
      | .error .bitwiseOnFloat => .error (.defect (.operands .bitwise left right))
      | .error .kinds => .error (.defect (.operands .arithmetic left right))
    | .bool a, .bool b =>
      match op with
      | .bitAnd => .ok (.bool (a && b))
      | .bitOr => .ok (.bool (a || b))
      | .bitXor => .ok (.bool (a != b))
      | _ => .error (.defect (.operands .arithmetic left right))
    | _, _ => .error (.defect (.operands .arithmetic left right))

/-- Ordering comparison of numbers of one kind. -/
def compare (op : CmpOp) (left right : Value) : Except OpError Bool :=
  match left, right with
  | .num a, .num b =>
    match Num.compare? op a b with
    | some r => .ok r
    | none => .error (.defect (.operands .comparison left right))
  | _, _ => .error (.defect (.operands .comparison left right))

/-- Sign change. -/
def negate (v : Value) : Except OpError Value :=
  match v with
  | .num n =>
    match n.negate? with
    | some n => .ok (.num n)
    | none => .error (.defect (.negated v))
  | _ => .error (.defect (.negated v))

/-- Logical not for truth values, bitwise complement for integers. -/
def not (v : Value) : Except OpError Value :=
  match v with
  | .bool b => .ok (.bool !b)
  | .num n =>
    match n.complement? with
    | some n => .ok (.num n)
    | none => .error (.defect (.complemented v))
  | _ => .error (.defect (.complemented v))

/-- Conversion of a number to another kind. -/
def convert (v : Value) (k : NumKind) : Except OpError Value :=
  match v with
  | .num n => .ok (.num (n.convert k))
  | _ => .error (.defect (.converted v k))

/-- Conversion of a number to a kind, passing null through. -/
def asKind (v : Value) (k : NumKind) : Except OpError Value :=
  if v.isNull || v.numKind? == some k then .ok v else convert v k

/-- The exception of a failed cast. -/
def invalidCast (st : Store) (fuel : Nat) (v : Value) (t : Ty) : OpError :=
  match st.detailed fuel v with
  | some text => .raises ⟨.invalidCast, "Unable to cast " ++ text ++ " to " ++ t.shown ++ "."⟩
  | none => .outOfFuel

/-- Conversion of a value of static type `source` to `target`: numbers change
kind, nullable values are unwrapped (raising when there is none), references
are checked. -/
def cast (st : Store) (fuel : Nat) (v : Value) (source target : Ty) :
    Except OpError Value :=
  if source = target then .ok v
  else
    match source.liftedNumKind?, target.liftedNumKind? with
    | some _, some k =>
      if v.isNull then
        if target.isNullable then .ok .null else .error (.raises .noValue)
      else asKind v k
    | _, _ =>
      if target.isNullable && target.underlying = source then .ok v
      else if source.isNullable && source.underlying = target then
        if v.isNull then .error (.raises .noValue) else .ok v
      else if !target.accepts source && !v.isNull && !v.isA target then
        .error (invalidCast st fuel v target)
      else .ok v

/-- Concatenation of strings; null counts as the empty string. -/
def concat (left right : Value) : Except OpError Value := do
  let text : Value → Except OpError String
    | .str s => .ok s
    | .null => .ok ""
    | v => .error (.defect (.operands .concat v v))
  let l ← text left
  let r ← text right
  return .str (l ++ r)

/-- The number one of a kind. -/
def one (k : NumKind) : Value := .num (.ofInt64 k 1)

/-- Moves a number by one, within its own kind. -/
def step (op : UnaryOp) (v : Value) : Except OpError Value :=
  match v.numKind? with
  | some k => arith op.stepArith v (one k)
  | none => .error (.defect (.steppedBy op v))

/-- Result of a lifted operator with a missing operand. -/
def missing (op : BinaryOp) : Value := if op.isRelational then .bool false else .null

end Operator

end TreeCode

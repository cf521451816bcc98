import TreeCode.Eval.Basic

/-!
# Direct evaluation: operators

Application of unary and binary operators to evaluated operands. A host
method takes precedence over the primitive operator; a missing operand of a
lifted operator gives null, or false for a comparison.
-/

namespace TreeCode.Walk

/-- Whether a null operand reaches a parameter that cannot hold null. -/
def misses (m : Method) (operands : List Value) : Bool :=
  (operands.zip m.params).any fun (v, p) => v.isNull && !p.isNullable

/-- Result of an operator method that is not called, since an operand is
missing. -/
def methodMissing (op : BinaryOp) (left right : Value) : Value :=
  match op with
  | .equal => .bool (left.isNull && right.isNull)
  | .notEqual => .bool (left.isNull != right.isNull)
  | _ => Operator.missing op

/-- Applies a binary operator that a host method implements. -/
def combineByMethod (c : Walk) (op : BinaryOp) (m : Method) (left right : Value) :
    RunM (Value × Ty) := do
  if misses m [left, right] then return (methodMissing op left right, m.ret)
  return (← c.callStatic m [left, right], m.ret)

/-- Compares two values for equality, numbers in the kind of the comparison. -/
def equality (op : BinaryOp) (leftTy : Ty) (left : Value) (rightTy : Ty) (right : Value) :
    Except OpError (Value × Ty) := do
  let (left, right) ← match op.kind? leftTy rightTy with
    | some k => do pure (← Operator.asKind left k, ← Operator.asKind right k)
    | none => pure (left, right)
  return (.bool (left.equals right == (op == .equal)), .bool)

/-- Applies an arithmetic operator or ordering to numbers. -/
def numeric (op : BinaryOp) (leftTy : Ty) (left : Value) (rightTy : Ty) (right : Value) :
    Except OpError (Value × Ty) :=
  match op.kind? leftTy rightTy with
  | none => .error (.defect (.noOperator op leftTy))
  | some k =>
    let lifted := isLifted leftTy rightTy
    let ty : Ty :=
      if op.isRelational then .bool else if lifted then .nullable (.num k) else .num k
    if lifted && (left.isNull || right.isNull) then .ok (Operator.missing op, ty)
    else do
      let left ← Operator.asKind left k
      let right ← Operator.asKind right (op.rightKind k)
      match op.cmp?, op.arith? with
      | some cmp, _ => return (.bool (← Operator.compare cmp left right), ty)
      | none, some arith => return (← Operator.arith arith left right, ty)
      | none, none => .error (.defect (.binaryOperator op))

/-- Applies a binary operator that no method implements. -/
def primitive (op : BinaryOp) (leftTy : Ty) (left : Value) (rightTy : Ty) (right : Value) :
    Except OpError (Value × Ty) :=
  match op with
  | .add =>
    if leftTy == .str && rightTy == .str then do
      return (← Operator.concat left right, .str)
    else numeric op leftTy left rightTy right
  | .and | .or | .exclusiveOr =>
    if leftTy == .bool && rightTy == .bool then
      match op.arith? with
      | some arith => do return (← Operator.arith arith left right, .bool)
      | none => .error (.defect (.binaryOperator op))
    else numeric op leftTy left rightTy right
  | .equal | .notEqual => equality op leftTy left rightTy right
  | _ => numeric op leftTy left rightTy right

/-- Applies a binary operator that assigns nothing to evaluated operands.
Gives the result and its type. -/
def combine (c : Walk) (op : BinaryOp) (leftTy : Ty) (left : Value) (rightTy : Ty)
    (right : Value) (method : Option Method) : RunM (Value × Ty) :=
  match method.or (op.methodNamed? c.host.catalog leftTy rightTy) with
  | some m => c.combineByMethod op m left right
  | none => RunM.ofOp (primitive op leftTy left rightTy right)

/-- Converts a value from one static type to another. -/
def cast (c : Walk) (v : Value) (source target : Ty) : RunM Value := do
  RunM.ofOp (← RunM.readStore fun st => Operator.cast st c.fuel v source target)

/-- Applies a unary operator that a host method implements. -/
def unaryByMethod (c : Walk) (m : Method) (v : Value) : RunM Value :=
  if misses m [v] then pure .null else c.callStatic m [v]

/-- Applies a primitive unary operator that assigns nothing. -/
def unaryPrimitive (c : Walk) (op : UnaryOp) (v : Value) (source target : Ty) : RunM Value :=
  match op with
  | .throw => if v.isNull then RunM.raise .nullReference else throw (.thrown v)
  | .unaryPlus => pure v
  | .convert => c.cast v source target
  | .arrayLength => RunM.arrayLength v
  | _ =>
    if v.isNull then pure .null
    else
      match op with
      | .negate => RunM.ofOp (Operator.negate v)
      | .not => RunM.ofOp (Operator.not v)
      | .increment | .decrement => RunM.ofOp (Operator.step op v)
      | _ => RunM.defect (.unaryOperator op)

/-- Throws the exception being handled once more. -/
def throwAgain {α : Type} : EvalM α := do
  match (← get).caught with
  | v :: _ => EvalM.fault (.thrown v)
  | [] => EvalM.ofRun (RunM.raise .nothingCaught)

end TreeCode.Walk

import TreeCode.Lower.Part
import TreeCode.Operator.Apply

/-!
# Lowering: operators

Numeric operands are converted to the kind of the operation before its
instruction. Nullable operands are lowered to a lifted form: both go to
temporary slots, and a missing one leads to null, or false for a comparison.

## Main definitions

* `Lower.conversion` — conversion between static types.
* `Lower.unary`, `Lower.binary` — operators without assignment.
* `Lower.branchBoth` — jumps for short-circuit operators.
-/

namespace TreeCode.Lower

/-- Whether a nullable operand reaches a parameter that cannot hold null. -/
def mayMiss (m : Method) (operands : List Ty) : Bool :=
  (operands.zip m.params).any fun (t, p) => t.isNullable && !p.isNullable

/-! ## Conversions -/

/-- Converts the top of the stack to a kind unless it is null. -/
def convertUnlessNull (k : NumKind) : LowerM Unit := do
  let done ← freshLabel
  emit .dup
  jumpTo (.jumpIfNull 0) done
  emit (.convert k)
  placeLabel done

/-- Converts the top of the stack from a static type to another. -/
def conversion (source target : Ty) : LowerM Unit := do
  if source = target then return ()
  match source.liftedNumKind?, target.liftedNumKind? with
  | some k, some k' =>
    match source.isNullable, target.isNullable with
    | false, _ => if k != k' then emit (.convert k')
    | true, true => if k != k' then convertUnlessNull k'
    | true, false =>
      emit .unwrapNullable
      if k != k' then emit (.convert k')
  | _, _ =>
    if target.isNullable && target.underlying = source then return ()
    if source.isNullable && source.underlying = target then return ← emit .unwrapNullable
    if !target.accepts source then
      emit (.castClass (← typeEntry target))

/-- Converts the number on top of the stack to a kind. A nullable value is
guarded unless it was checked already. -/
def asKind (t : Ty) (k : NumKind) (f : Usage) : LowerM Unit :=
  if t.liftedNumKind? == some k then pure ()
  else if t.isNullable && !f.checked then convertUnlessNull k
  else emit (.convert k)

/-- The number of a constant node, converted to a kind. -/
def foldedConstant? (e : Expr) (k : NumKind) : Option Value :=
  match e with
  | .constant _ (.num n) => some (.num (n.convert k))
  | _ => none

/-- Emits an operand converted to a kind; constants are converted right away. -/
def operandOf (p : Part) (k : NumKind) (f : Usage) : LowerM Unit := do
  match foldedConstant? p.expr k with
  | some v => pushValue v
  | none =>
    p.emit f.operand
    asKind p.ty k f

/-! ## Unary operators -/

/-- Counts the value of a node that never falls through. -/
def assumeValue (t : Ty) (f : Usage) : LowerM Unit :=
  if !f.discarded && !t.isVoid then assumePushed else pure ()

/-- Emits a rethrow of the exception that is being handled. -/
def throwAgain (t : Ty) (f : Usage) : LowerM Unit := do
  match (← get).caught with
  | [] => unsupported .rethrowOutsideCatch
  | slot :: _ =>
    emit (.loadLocal slot)
    emit .throw
    assumeValue t f

/-- Applies a primitive operator to the top of the stack. -/
def applyUnary (op : UnaryOp) (t : Ty) : LowerM Unit :=
  match op with
  | .not => emit .not
  | .negate =>
    match t.liftedNumKind? with
    | some k => emit (.negate k)
    | none => error (.missingUnaryOperator op t)
  | .increment | .decrement =>
    match t.liftedNumKind? with
    | some k => do
      pushValue (Operator.one k)
      emit (.arith op.stepArith k)
    | none => error (.missingUnaryOperator op t)
  | _ => error (.missingUnaryOperator op t)

/-- Applies a primitive operator to the top of the stack, passing null through
when the type is nullable. -/
def applyUnaryLifted (op : UnaryOp) (t : Ty) : LowerM Unit := do
  if t.isNullable then
    let done ← freshLabel
    emit .dup
    jumpTo (.jumpIfNull 0) done
    applyUnary op t
    placeLabel done
  else applyUnary op t

/-- Emits an operator that adds one to a variable or subtracts one. -/
def stepVariable (op : UnaryOp) (target : Part) (f : Usage) : LowerM Unit := do
  match target.target with
  | .var v =>
    match target.ty.numKind? with
    | none => error (.missingUnaryOperator op target.ty)
    | some k =>
      let ref ← homeOf v
      load ref false
      if !f.discarded && op.isPost then emit .dup
      pushValue (Operator.one k)
      emit (.arith op.stepArith k)
      if !f.discarded && !op.isPost then emit .dup
      store ref
  | _ => unsupported (.assignTarget target.expr.kindName)

/-- Emits a unary operator that a host method implements. -/
def unaryByMethod (m : Method) (operand : Part) (f : Usage) : LowerM Unit := do
  if mayMiss m [operand.ty] then unsupported (.liftedOperatorMethod m.name)
  operand.emit f.operand
  callMethod m false
  dropWhen (f.discarded && !m.ret.isVoid)

/-- Emits a unary operator of type `t`. -/
def unary (t : Ty) (op : UnaryOp) (operand : Part) (method : Option Method) (f : Usage) :
    LowerM Unit := do
  match method with
  | some m => unaryByMethod m operand f
  | none =>
    match op with
    | .throw =>
      operand.emit f.operand
      emit .throw
      assumeValue t f
    | .unaryPlus => operand.emit { f.operand with discarded := f.discarded }
    | .convert =>
      operand.emit f.operand
      conversion operand.ty t
      dropWhen f.discarded
    | .arrayLength =>
      operand.emit f.operand
      emit .arrayLength
      dropWhen f.discarded
    | .negate | .not | .increment | .decrement =>
      operand.emit f.operand
      applyUnaryLifted op t
      dropWhen f.discarded
    | .preIncrementAssign | .preDecrementAssign | .postIncrementAssign | .postDecrementAssign =>
      stepVariable op operand f

/-! ## Binary operators -/

/-- Emits the right operand and the call of an operator method, the left operand
being on the stack. -/
def binaryByMethod (op : BinaryOp) (m : Method) (leftTy : Ty) (right : Part) (f : Usage) :
    LowerM Ty := do
  if !m.isStatic || m.arity != 2 then error (.missingOperator op leftTy)
  if mayMiss m [leftTy, right.ty] then unsupported (.liftedOperatorMethod m.name)
  right.emit f.operand
  callMethod m false
  return m.ret

/-- Jumps to a label when an operand in a slot is null. -/
def skipIfNull (slot : Nat) (t : Ty) (label : LabelRef) : LowerM Unit := do
  if t.hasNull then
    emit (.loadLocal slot)
    jumpTo (.jumpIfNull 0) label

/-- Emits the lifted form of a numeric operator, the left operand being on the
stack. -/
def lifted (op : BinaryOp) (i : Instr) (k : NumKind) (leftTy : Ty) (right : Part) (f : Usage) :
    LowerM Unit := do
  let leftSlot ← newSlot
  emit (.storeLocal leftSlot)
  right.emit f.operand
  let rightSlot ← newSlot
  emit (.storeLocal rightSlot)
  let missing ← freshLabel
  let done ← freshLabel
  skipIfNull leftSlot leftTy missing
  skipIfNull rightSlot right.ty missing
  let checked : Usage := { f.operand with checked := true }
  emit (.loadLocal leftSlot)
  asKind leftTy k checked
  emit (.loadLocal rightSlot)
  asKind right.ty (op.rightKind k) checked
  emit i
  jumpTo (.jump 0) done
  placeLabel missing
  emit (if op.isRelational then .constBool false else .constNull)
  placeLabel done

/-- The instruction of a numeric operator. -/
def numericInstr? (op : BinaryOp) (k : NumKind) : Option Instr :=
  match op.cmp?, op.arith? with
  | some cmp, _ => some (.compare cmp k)
  | none, some arith => some (.arith arith k)
  | none, none => none

/-- Emits the right operand and a numeric operator, the left operand being on
the stack. Gives the type of the result. -/
def numeric (op : BinaryOp) (leftTy : Ty) (right : Part) (f : Usage) : LowerM Ty := do
  match op.kind? leftTy right.ty with
  | none => error (.missingOperator op leftTy)
  | some k =>
    match numericInstr? op k with
    | none => error (.missingOperator op leftTy)
    | some i =>
      if isLifted leftTy right.ty then
        lifted op i k leftTy right f
        return if op.isRelational then .bool else .nullable (.num k)
      else
        asKind leftTy k f.operand
        operandOf right (op.rightKind k) f.operand
        emit i
        return if op.isRelational then .bool else .num k

/-- Emits the right operand and a test for equality, the left operand being on
the stack. -/
def equality (op : BinaryOp) (leftTy : Ty) (right : Part) (f : Usage) : LowerM Ty := do
  match op.kind? leftTy right.ty with
  | some k =>
    asKind leftTy k f.operand
    operandOf right k f.operand
  | none => right.emit f.operand
  emit (if op == .equal then .eq else .notEq)
  return .bool

/-- Emits the right operand and a primitive operator, the left operand being on
the stack. Gives the type of the result. -/
def primitive (op : BinaryOp) (leftTy : Ty) (right : Part) (f : Usage) : LowerM Ty := do
  match op with
  | .add =>
    if leftTy == .str && right.ty == .str then
      right.emit f.operand
      emit .concat
      return .str
    else numeric op leftTy right f
  | .and | .or | .exclusiveOr =>
    if leftTy == .bool && right.ty == .bool then
      match op.arith? with
      | some arith =>
        right.emit f.operand
        emit (.logical arith)
        return .bool
      | none => error (.missingOperator op leftTy)
    else numeric op leftTy right f
  | .equal | .notEqual => equality op leftTy right f
  | _ => numeric op leftTy right f

/-- Emits the right operand and the operator, the left operand being on the
stack. Gives the type of the result. -/
def withRight (op : BinaryOp) (leftTy : Ty) (right : Part) (method : Option Method)
    (f : Usage) : LowerM Ty := do
  match method.or (op.methodNamed? (← read).catalog leftTy right.ty) with
  | some m => binaryByMethod op m leftTy right f
  | none => primitive op leftTy right f

/-- Emits a short-circuit operator. -/
def shortCircuit (isAnd : Bool) (left right : Part) (f : Usage) : LowerM Unit := do
  if f.discarded then
    let done ← freshLabel
    left.branch done (!isAnd) f
    right.emit f.effect
    placeLabel done
  else
    match left.expr.constantBool? with
    | some b => if b == isAnd then right.emit f.operand else pushValue (.bool b)
    | none =>
      let done ← freshLabel
      left.emit f.operand
      emit .dup
      jumpTo (if isAnd then .jumpIfFalse 0 else .jumpIfTrue 0) done
      emit .pop
      right.emit f.operand
      placeLabel done

/-- Emits a short-circuit operator as a test. -/
def branchBoth (isAnd : Bool) (left right : Part) (label : LabelRef) (when_ : Bool) (f : Usage) :
    LowerM Unit := do
  match left.expr.constantBool? with
  | some b =>
    if b == isAnd then right.branch label when_ f
    else if b == when_ then jumpTo (.jump 0) label
  | none =>
    if isAnd == when_ then
      -- Both operands must agree with the value.
      let skip ← freshLabel
      left.branch skip (!when_) f
      right.branch label when_ f
      placeLabel skip
    else
      left.branch label when_ f
      right.branch label when_ f

/-- Emits the choice of the first operand that is not null. -/
def coalesce (t : Ty) (left right : Part) (f : Usage) : LowerM Unit := do
  let done ← freshLabel
  left.emit f.operand
  emit .dup
  jumpTo (.jumpIfNotNull 0) done
  emit .pop
  right.emit f.operand
  conversion right.ty t
  placeLabel done
  dropWhen f.discarded

end TreeCode.Lower

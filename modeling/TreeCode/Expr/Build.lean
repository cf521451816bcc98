import TreeCode.Expr.Basic

/-!
# Checked construction of expressions

Each constructor checks the operand types that its node requires and computes
the type of the node. Those that cannot fail return the node itself; the
others return an `Except BuildError`.

## Main definitions

* `BuildError`, `BuildError.message` — why a node is refused.
* `Build.binaryType?` — the type of a binary operator.
* `Build.unary`, `Build.binary`, `Build.call`, … — the constructors.
-/

namespace TreeCode

/-- Why a node is refused. -/
inductive BuildError where
  | binaryOperands (op : BinaryOp) (left right : Ty)
  | unaryOperand (op : UnaryOp) (operand : Ty)
  | typeMismatch (expected found : Ty)
  | noConversion (source target : Ty)
  | argumentCount (what : String) (expected got : Nat)
  | receiverMismatch (method : String) (isStatic : Bool)
  | notAssignable
  | labelNeedsValue (label : String) (t : Ty)
  | noIndexer (t : Ty)
  | noMember (t : Ty) (name : String)
  | cannotBeNull (t : Ty)
  | conversionWithoutTarget
  | emptyValuedBlock
  | valuedContinue
  | nothingProtected
  | faultWithOthers
  deriving DecidableEq

/-- Name of the class of a refusal. -/
def BuildError.tag : BuildError → String
  | binaryOperands .. => "BinaryOperandTypes"
  | unaryOperand .. => "UnaryOperandType"
  | typeMismatch .. => "TypeMismatch"
  | noConversion .. => "NoConversion"
  | argumentCount .. => "ArgumentCount"
  | receiverMismatch .. => "ReceiverMismatch"
  | notAssignable => "NotAssignable"
  | labelNeedsValue .. => "LabelNeedsValue"
  | noIndexer _ => "NoIndexer"
  | noMember .. | cannotBeNull _ | conversionWithoutTarget | emptyValuedBlock | valuedContinue
  | nothingProtected | faultWithOthers => "Invalid"

/-- Wording of a refusal. -/
def BuildError.message : BuildError → String
  | binaryOperands op l r =>
    "operator " ++ op.tag ++ " is not defined for " ++ l.shown ++ " and " ++ r.shown
  | unaryOperand op t => "operator " ++ op.tag ++ " is not defined for " ++ t.shown
  | typeMismatch e f =>
    "expression of type " ++ f.shown ++ " cannot be used where " ++ e.shown ++ " is expected"
  | noConversion s t => "no conversion from " ++ s.shown ++ " to " ++ t.shown
  | argumentCount what e g => s!"{what} expects {e} argument(s), got {g}"
  | receiverMismatch m s => s!"method {m} receiver mismatch (static: {s})"
  | notAssignable => "expression is not assignable"
  | labelNeedsValue l t => "label '" ++ l ++ "' of type " ++ t.shown ++ " needs a value"
  | noIndexer t => "type " ++ t.shown ++ " has no indexer"
  | noMember t n => t.shown ++ " has no member '" ++ n ++ "'"
  | cannotBeNull t => t.shown ++ " cannot be null"
  | conversionWithoutTarget => "use convert()"
  | emptyValuedBlock => "a valued block needs at least one expression"
  | valuedContinue => "continue labels carry no value"
  | nothingProtected => "try needs a catch, finally or fault block"
  | faultWithOthers => "a fault block cannot be combined with catch or finally"

namespace Build

/-- The result of a checked constructor. -/
abbrev Result (α : Type) := Except BuildError α

/-- Requires that a value of type `found` can be stored where `expected` is. -/
def requireFits (expected found : Ty) : Result Unit :=
  if expected.accepts found then .ok () else .error (.typeMismatch expected found)

/-- Requires each type of a list to fit the type at its place. -/
def requireEach : List Ty → List Ty → Result Unit
  | p :: ps, t :: ts => do
    requireFits p t
    requireEach ps ts
  | _, _ => .ok ()

/-- Requires arguments that fit the parameters of a callee. -/
def requireArgs (what : String) (params : List Ty) (args : List Expr) : Result Unit :=
  if params.length != args.length then
    .error (.argumentCount what params.length args.length)
  else requireEach params (args.map (·.ty))

/-- Requires an expression that can be stored to. -/
def requireWritable : Expr → Result Unit
  | .var _ => .ok ()
  | .member _ m => if m.isWritable then .ok () else .error .notAssignable
  | .index _ _ none _ => .ok ()
  | .index _ _ (some ix) _ => if ix.setter.isSome then .ok () else .error .notAssignable
  | _ => .error .notAssignable

/-! ## Leaves -/

def int (n : Int) : Expr := .constant .i32 (.i32 n)

def int64 (n : Int) : Expr := .constant (.num .i64) (.num (.int .i64 (BitVec.ofInt 64 n)))

def float (x : Double) : Expr := .constant (.num .f64) (.num (.f64 x))

def bool (b : Bool) : Expr := .constant .bool (.bool b)

def str (s : String) : Expr := .constant .str (.str s)

/-- The null of a type that has one. -/
def null (t : Ty) : Result Expr :=
  if t.hasNull then .ok (.constant t .null) else .error (.cannotBeNull t)

/-! ## Unary operators -/

/-- The type of a primitive unary operator on an operand. -/
def unaryType (op : UnaryOp) (operand : Expr) : Result Ty :=
  let t := operand.ty
  let refused : Result Ty := .error (.unaryOperand op t)
  match op with
  | .negate =>
    match t.liftedNumKind? with
    | some k => if k.isSigned then .ok t else refused
    | none => refused
  | .unaryPlus | .increment | .decrement => if t.liftedNumKind?.isSome then .ok t else refused
  | .not =>
    match t.underlying with
    | .bool => .ok t
    | .num k => if k.isInteger then .ok t else refused
    | _ => refused
  | .arrayLength =>
    match t with
    | .array _ => .ok .i32
    | _ => refused
  | .throw => .ok .void
  | .preIncrementAssign | .preDecrementAssign | .postIncrementAssign | .postDecrementAssign =>
    if t.numKind?.isSome then do
      requireWritable operand
      .ok t
    else refused
  | .convert => .error .conversionWithoutTarget

def unary (op : UnaryOp) (operand : Expr) : Result Expr := do
  return .unary (← unaryType op operand) op operand none

/-- A unary operator that a host method implements. -/
def unaryBy (op : UnaryOp) (operand : Expr) (m : Method) : Result Expr := do
  requireArgs m.name m.params [operand]
  return .unary m.ret op operand (some m)

/-- A throw in a position that expects a value of type `t`. -/
def throwing (e : Expr) (t : Ty) : Expr := .unary t .throw e none

/-- Whether a cast between two types can be checked at run time. -/
def isCheckedCast : Ty → Ty → Bool
  | .object, _ => true
  | _, .object => true
  | .struct a, .struct b => a.inherits b || b.inherits a
  | _, _ => false

/-- Whether there is a conversion between two types. -/
def isConvertible (source target : Ty) : Bool :=
  source == target
    || (source.liftedNumKind?.isSome && target.liftedNumKind?.isSome)
    || (target.isNullable && target.underlying == source)
    || (source.isNullable && source.underlying == target)
    || isCheckedCast source target

/-- A conversion. -/
def convert (operand : Expr) (target : Ty) : Result Expr :=
  if isConvertible operand.ty target then .ok (.unary target .convert operand none)
  else .error (.noConversion operand.ty target)

/-! ## Binary operators -/

/-- The numeric type of a kind, nullable when an operand is. -/
def liftedType (k : NumKind) (left right : Ty) : Ty :=
  if isLifted left right then .nullable (.num k) else .num k

/-- The type of an operator on primitive operands. -/
def primitiveType? (op : BinaryOp) (left right : Ty) : Option Ty :=
  let kinds := (left.liftedNumKind?, right.liftedNumKind?)
  match op with
  | .add =>
    if left == .str && right == .str then some .str
    else match kinds with
      | (some l, some r) => some (liftedType (.promote l r) left right)
      | _ => none
  | .and | .or | .exclusiveOr =>
    if left == .bool && right == .bool then some .bool
    else match kinds with
      | (some l, some r) =>
        if l.isInteger && r.isInteger then some (liftedType (.promote l r) left right) else none
      | _ => none
  | .subtract | .multiply | .divide | .modulo =>
    match kinds with
    | (some l, some r) => some (liftedType (.promote l r) left right)
    | _ => none
  | .leftShift | .rightShift =>
    match kinds with
    | (some l, some r) =>
      if r == .i32 && l.isInteger then some (liftedType (.promote l l) left right) else none
    | _ => none
  | .andAlso | .orElse => if left == .bool && right == .bool then some .bool else none
  | .equal | .notEqual =>
    if (kinds.1.isSome && kinds.2.isSome) || left.accepts right
        || right.accepts left then some .bool
    else none
  | .lessThan | .lessThanOrEqual | .greaterThan | .greaterThanOrEqual =>
    if kinds.1.isSome && kinds.2.isSome then some .bool else none
  | .coalesce =>
    if left.hasNull
        && (left.underlying.accepts right || left.accepts right) then
      some right
    else none
  | .assign | .addAssign | .subtractAssign | .multiplyAssign | .divideAssign | .moduloAssign =>
    none

/-- The type of a binary operator: an operator method of a struct operand
decides it, else the operands do. -/
def binaryType? (c : Catalog) (op : BinaryOp) (left right : Ty) : Option Ty :=
  match op.methodNamed? c left right with
  | some m => some m.ret
  | none => primitiveType? op left right

/-- The type of a binary node whose operands are checked. -/
def binaryNodeType (c : Catalog) (op : BinaryOp) (left right : Expr) : Result Ty :=
  let refused : Result Ty := .error (.binaryOperands op left.ty right.ty)
  match op.base? with
  | some base => do
    requireWritable left
    match binaryType? c base left.ty right.ty with
    | none => refused
    | some result =>
      if result.liftedNumKind?.isNone && result != left.ty then
        .error (.typeMismatch left.ty result)
      else .ok left.ty
  | none =>
    if op = .assign then do
      requireWritable left
      requireFits left.ty right.ty
      .ok left.ty
    else
      match binaryType? c op left.ty right.ty with
      | some t => .ok t
      | none => refused

def binary (c : Catalog) (op : BinaryOp) (left right : Expr) : Result Expr := do
  return .binary (← binaryNodeType c op left right) op left right none

/-- A binary operator that a host method implements. -/
def binaryBy (op : BinaryOp) (left right : Expr) (m : Method) : Result Expr := do
  requireArgs m.name m.params [left, right]
  return .binary m.ret op left right (some m)

/-! ## Members and calls -/

/-- A call; static methods are called without an object, the others with
one. -/
def call (object : Option Expr) (m : Method) (args : List Expr) : Result Expr := do
  if m.isStatic == object.isSome then
    .error (.receiverMismatch m.name m.isStatic)
  requireArgs m.name m.params args
  return .call m.ret object m args

/-- Requires arguments that fit the leading fields of a definition. -/
def requireFields (d : StructDef) (args : List Expr) : Result Unit :=
  let fields := d.layout
  if args.length > fields.length then
    .error (.argumentCount d.name fields.length args.length)
  else requireEach (fields.map (·.ty)) (args.map (·.ty))

/-- A new instance from its leading fields. -/
def new (d : StructDef) (args : List Expr) : Result Expr := do
  requireFields d args
  return .new d none args

/-- A new instance from a factory method. -/
def newBy (d : StructDef) (factory : Method) (args : List Expr) : Result Expr := do
  requireArgs factory.name factory.params args
  requireFits (.struct d) factory.ret
  return .new d (some factory) args

/-- The member of a type with a given name. -/
def findMember (c : Catalog) (t : Ty) (name : String) : Result Member :=
  match t.struct?.bind (c.memberNamed? · name) with
  | some m => .ok m
  | none => .error (.noMember t name)

/-- Access to a field or property by name. -/
def member (c : Catalog) (object : Expr) (name : String) : Result Expr := do
  return .member object (← findMember c object.ty name)

/-- Requires an integer, as a length or an index. -/
def requireInteger (t : Ty) : Result Unit :=
  match t.numKind? with
  | some k => if k.isInteger then .ok () else .error (.typeMismatch .i32 t)
  | none => .error (.typeMismatch .i32 t)

/-- An array element, or access through an indexer. -/
def index (c : Catalog) (object : Expr) (args : List Expr) : Result Expr :=
  match object.ty with
  | .array element =>
    match args with
    | [i] => do
      requireInteger i.ty
      return .index element object none args
    | _ => .error (.argumentCount "array index" 1 args.length)
  | .struct d =>
    match c.indexerOf? d with
    | some ix => do
      requireArgs "indexer" ix.getter.params args
      return .index ix.getter.ret object (some ix) args
    | none => .error (.noIndexer object.ty)
  | t => .error (.noIndexer t)

def arrayOf (element : Ty) (items : List Expr) : Result Expr := do
  items.forM fun item => requireFits element item.ty
  return .newArray element items

/-- An array of default elements. -/
def arrayOfLength (element : Ty) (length : Expr) : Result Expr := do
  requireInteger length.ty
  return .newArrayBounds element length

/-- Resolves the members that an initialiser sets. -/
def bindMembers (c : Catalog) (t : Ty) : List (String × Expr) → Result (List Binding)
  | [] => .ok []
  | (name, value) :: rest => do
    let m ← findMember c t name
    if !m.isWritable then .error .notAssignable
    requireFits m.ty value.ty
    return .mk m value :: (← bindMembers c t rest)

/-- A new instance with members set after its leading fields. -/
def newWithMembers (c : Catalog) (d : StructDef) (args : List Expr)
    (bindings : List (String × Expr)) : Result Expr := do
  requireFields d args
  return .memberInit d args (← bindMembers c (.struct d) bindings)

/-- A call of a function value. -/
def invoke (target : Expr) (args : List Expr) : Result Expr :=
  match target.ty with
  | .function params ret => do
    requireArgs "invoke" params args
    return .invoke ret target args
  | t => .error (.typeMismatch (.function [] .object) t)

/-! ## Control flow -/

def ifThenElseAs (test ifTrue ifFalse : Expr) (t : Ty) : Result Expr := do
  requireFits .bool test.ty
  if !t.isVoid then
    requireFits t ifTrue.ty
    requireFits t ifFalse.ty
  return .conditional t test ifTrue ifFalse

/-- A conditional of the type of its first branch. -/
def ifThenElse (test ifTrue ifFalse : Expr) : Result Expr := do
  requireFits ifTrue.ty ifFalse.ty
  ifThenElseAs test ifTrue ifFalse ifTrue.ty

/-- A conditional without a value and without a second branch. -/
def ifThen (test body : Expr) : Result Expr := ifThenElseAs test body (.default .void) .void

/-- A block whose value is its last expression. -/
def block (vars : List Var) (body : List Expr) : Expr :=
  let t := match body.getLast? with
    | some last => last.ty
    | none => .void
  .block t vars body

def blockAs (t : Ty) (vars : List Var) (body : List Expr) : Result Expr := do
  if !t.isVoid then
    match body.getLast? with
    | some last => requireFits t last.ty
    | none => .error .emptyValuedBlock
  return .block t vars body

/-- An endless loop; continue labels carry no value. -/
def loop (body : Expr) (breakLabel continueLabel : Option Label) : Result Expr :=
  match continueLabel with
  | some l =>
    if l.ty.isVoid then .ok (.loop body breakLabel continueLabel) else .error .valuedContinue
  | none => .ok (.loop body breakLabel continueLabel)

/-- Requires the value that a label carries. -/
def requireCarried (target : Label) : Option Expr → Result Unit
  | some value => requireFits target.ty value.ty
  | none =>
    if target.ty.isVoid then .ok () else .error (.labelNeedsValue target.shown target.ty)

/-- The place of a label. -/
def label (target : Label) (fallback : Option Expr) : Result Expr := do
  requireCarried target fallback
  return .label target fallback

/-- A jump in a position that expects a value of type `t`. -/
def goto (kind : JumpKind) (target : Label) (value : Option Expr) (t : Ty) : Result Expr := do
  requireCarried target value
  return .goto t kind target value

def filteredCatch (test : Ty) (var : Option Var) (filter body : Expr) : Result CatchClause := do
  requireFits .bool filter.ty
  return .mk test var (some filter) body

/-- A protected region. Handlers give values of the type of the body; a fault
block stands alone. -/
def protect (body : Expr) (handlers : List CatchClause) (finallyBlock faultBlock : Option Expr) :
    Result Expr := do
  let cleanup ← match finallyBlock, faultBlock with
    | none, none =>
      if handlers.isEmpty then Except.error BuildError.nothingProtected else .ok Cleanup.none
    | some block, none => .ok (.finally block)
    | none, some block =>
      if handlers.isEmpty then .ok (.fault block) else .error .faultWithOthers
    | some _, some _ => .error .faultWithOthers
  if !body.ty.isVoid then
    handlers.forM fun h => requireFits body.ty h.body.ty
  return .protect body handlers cleanup

/-- Requires that the tests of a case can be compared with the value. -/
def requireTests (c : Catalog) (value : Expr) (comparison : Option Method) :
    List Expr → Result Unit
  | [] => .ok ()
  | test :: rest => do
    match comparison with
    | some m => requireArgs m.name m.params [value, test]
    | none =>
      if (binaryType? c .equal value.ty test.ty).isNone then
        .error (.typeMismatch value.ty test.ty)
    requireTests c value comparison rest

/-- A switch; the first case with an equal test runs. -/
def switch (c : Catalog) (t : Ty) (value : Expr) (cases : List SwitchCase)
    (fallback : Option Expr) (comparison : Option Method) : Result Expr := do
  cases.forM fun k => do
    requireTests c value comparison k.tests
    if !t.isVoid then requireFits t k.body.ty
  if !t.isVoid then
    match fallback with
    | some e => requireFits t e.ty
    | none => pure ()
  return .switch t value cases fallback comparison

/-! ## Lambdas -/

/-- A lambda that returns the value of its body. -/
def lambda (id : Nat) (name : Option String) (params : List Var) (body : Expr) : Lambda :=
  .mk id name params body.ty body

/-- A lambda with a written return type; void drops the value of the body. -/
def lambdaAs (id : Nat) (name : Option String) (params : List Var) (body : Expr) (ret : Ty) :
    Result Lambda := do
  if !ret.isVoid then requireFits ret body.ty
  return .mk id name params ret body

end Build

end TreeCode

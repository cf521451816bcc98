import TreeCode.Eval.Place
import TreeCode.Eval.Control

/-!
# Direct evaluation

`Walk.node` evaluates one node, given how its parts are evaluated; `eval`
ties the knot, one unit of fuel for each level of the tree; `callLambda` is a
call of a lambda.
-/

namespace TreeCode

namespace Walk

/-- Evaluates a binary operator. -/
def binary (c : Walk) (ty : Ty) (op : BinaryOp) (left right : Expr)
    (method : Option Method) : EvalM Value :=
  match op with
  | .assign => c.assign left right
  | .andAlso => do if ← c.truthOf left then c.valueOf right else return .bool false
  | .orElse => do if ← c.truthOf left then return .bool true else c.valueOf right
  | .coalesce => do
    let v ← c.valueOf left
    if !v.isNull then return v
    let v ← c.valueOf right
    c.cast v right.ty ty
  | _ =>
    match op.base? with
    | some base => c.assignApplied base left right method
    | none => do
      let l ← c.valueOf left
      let r ← c.valueOf right
      let (result, _) ← c.combine op left.ty l right.ty r method
      return result

/-- Evaluates a unary operator. -/
def unary (c : Walk) (ty : Ty) (op : UnaryOp) (operand : Expr)
    (method : Option Method) : EvalM Value := do
  if op.isAssignment then return ← c.stepAssign op operand
  let v ← c.valueOf operand
  match method with
  | some m => c.unaryByMethod m v
  | none => c.unaryPrimitive op v operand.ty ty

/-- Evaluates a call of a method. -/
def methodCall (c : Walk) (object : Option Expr) (m : Method) (args : List Expr) :
    EvalM Value :=
  match object with
  | none => do
    let args ← c.valuesOf args
    c.callStatic m args
  | some object => do
    let r ← c.receiverOf object m.mutatesReceiver
    let args ← c.valuesOf args
    c.callAt r m args (m.isVirtual && object.ty.isReference)

/-- Evaluates access to a member. -/
def member (c : Walk) (object : Expr) : Member → EvalM Value
  | .field _ i _ _ => do
    let v ← c.valueOf object
    RunM.field v i
  | .property _ p =>
    if p.getter.isStatic then do
      let _ ← c.valueOf object
      c.callStatic p.getter []
    else do
      let r ← c.receiverOf object p.getter.mutatesReceiver
      c.callAt r p.getter [] false

/-- Evaluates an access through a subscript. -/
def subscript (c : Walk) (object : Expr) (indexer : Option Indexer) (args : List Expr) :
    EvalM Value := do
  let place ← c.subscriptOf object indexer args false
  c.read place

/-- Evaluates the making of an instance. -/
def newInstance (c : Walk) (d : StructDef) (factory : Option Method) (args : List Expr) :
    EvalM Value := do
  let args ← c.valuesOf args
  match factory with
  | some m => c.callStatic m args
  | none => RunM.newStruct d args

/-- Evaluates the making of an instance whose members are set afterwards. -/
def initialised (c : Walk) (d : StructDef) (args : List Expr) (bindings : List Binding) :
    EvalM Value := do
  let instance_ ← c.newInstance d none args
  let ref ← EvalM.ofRun (RunM.newCell instance_)
  c.setMembers ref bindings
  RunM.readCell ref

/-- Evaluates a lambda: a function that sees the variables visible here. -/
def lambda (c : Walk) (l : Lambda) : EvalM Value := do
  let captured := (← get).scopes.toList
  RunM.newFunction (.interpreted l captured c.gauge.max c.gauge.counter)

/-- Evaluates a call of a function value. -/
def invocation (c : Walk) (target : Expr) (args : List Expr) : EvalM Value := do
  let callee ← c.valueOf target
  let args ← c.valuesOf args
  match callee with
  | .function ref _ => c.call ref args
  | .null => EvalM.ofRun (RunM.raise .nullReference)
  | other => EvalM.defect (.invoked other)

/-- Evaluates one node. -/
def node (c : Walk) (e : Expr) : EvalM Value :=
  match e with
  | .constant _ v => return v
  | .var v => do RunM.readCell (← EvalM.cellOf v)
  | .default t => return t.default
  | .rethrow _ => throwAgain
  | .unary t op operand method => c.unary t op operand method
  | .binary t op left right method => c.binary t op left right method
  | .call _ object m args => c.methodCall object m args
  | .new d factory args => c.newInstance d factory args
  | .member object m => c.member object m
  | .index _ object indexer args => c.subscript object indexer args
  | .newArray _ items => do
    let items ← c.valuesOf items
    RunM.newArray items.toArray
  | .newArrayBounds element length => do
    let length ← c.valueOf length
    RunM.newArrayOf element.default length
  | .memberInit d args bindings => c.initialised d args bindings
  | .conditional _ test ifTrue ifFalse => do
    if ← c.truthOf test then c.valueOf ifTrue else c.valueOf ifFalse
  | .block _ vars body => c.block vars body
  | .loop body breakLabel continueLabel => c.loop body breakLabel continueLabel c.fuel
  | .protect body handlers cleanup => c.protect body handlers cleanup
  | .label target fallback =>
    match fallback with
    | some e => c.valueOf e
    | none => return target.ty.default
  | .goto _ _ target value => do
    let v ← match value with
      | some e => c.valueOf e
      | none => pure .unit
    throw (.jump target v)
  | .switch t value cases fallback comparison => c.switch t value cases fallback comparison
  | .lambda l => c.lambda l
  | .invoke _ target args => c.invocation target args

end Walk

/-- Evaluates an expression. -/
def eval (host : Host) (call : Caller) (gauge : Gauge) : Nat → Expr → EvalM Value
  | 0, _ => EvalM.fault .outOfFuel
  | fuel + 1, e =>
    let c : Walk := { host, gauge, fuel, call, valueOf := eval host call gauge fuel }
    EvalM.deeper gauge (c.node e)

/-- Evaluates the body of a lambda. A jump that leaves the body is lost, unless
the body itself is its label; a void lambda gives unit. -/
def bodyValue (host : Host) (call : Caller) (gauge : Gauge) (fuel : Nat) (l : Lambda) :
    EvalM Value :=
  fun s =>
    let result (v : Value) : Value := if l.ret.isVoid then .unit else v
    match eval host call gauge fuel l.body s with
    | .ok v s => .ok (result v) s
    | .error (.jump target v) s =>
      if l.body.isLabelOf target then .ok (result v) s
      else .error (.fault (.lostJump target.shown)) s
    | .error exit s => .error exit s

/-- Makes a cell for each argument. -/
def freshArguments : List Var → List Value → RunM (List (Nat × Nat))
  | v :: vs, a :: as => do
    let ref ← RunM.newCell a
    return (v.id, ref) :: (← freshArguments vs as)
  | _, _ => return []

/-- Calls a lambda with arguments, by evaluating its body. -/
def callLambda (host : Host) (call : Caller) (fuel : Nat) (l : Lambda)
    (captured : List (Nat × Nat)) (gauge : Gauge) (args : List Value) : RunM Value := do
  RunM.requireArity l.params.length args.length
  let bindings ← freshArguments l.params args
  let scopes := (Scopes.ofList captured).enter.bindAll bindings
  fun w =>
    match bodyValue host call gauge fuel l { world := w, scopes } with
    | .ok v s => .ok v s.world
    | .error (.fault f) s => .error f s.world
    | .error (.jump target _) s => .error (.lostJump target.shown) s.world

end TreeCode

import TreeCode.Host.Basic
import TreeCode.Scope

/-!
# Direct evaluation: the monad

Evaluation of an expression gives a value, fails, or jumps outwards to a
label. Its state is the world of the run, the scopes of the lambda being
evaluated, and the exceptions of the catch blocks entered.

Evaluation of one node is written against a `Walk`, which tells how to
evaluate the parts of the node and how to call functions; the knot is tied in
`TreeCode.Eval.Node`.
-/

namespace TreeCode

/-- Ways for control to leave an expression without a value. -/
inductive Exit where
  | fault (f : Fault)
  /-- Travels outwards until the block, loop or lambda body that holds the
  label takes it. -/
  | jump (target : Label) (value : Value)

/-- State of one evaluated call. -/
structure EvalState where
  world : World
  /-- Cells of the visible variables. -/
  scopes : Scopes Nat Nat := {}
  /-- Exceptions of the catch blocks being evaluated, innermost first. -/
  caught : List Value := []

/-- The state when an evaluation has got to a depth. -/
def EvalState.atDepth (s : EvalState) (g : Gauge) (n : Nat) : EvalState :=
  { s with world := s.world.atDepth g n }

/-- Evaluation. -/
abbrev EvalM := EStateM Exit EvalState

namespace EvalM

/-- An action on the world. -/
def ofRun {α : Type} (x : RunM α) : EvalM α := fun s =>
  let { world, scopes, caught } := s
  match x world with
  | .ok a world => .ok a { world, scopes, caught }
  | .error f world => .error (.fault f) { world, scopes, caught }

instance : MonadLift RunM EvalM := ⟨ofRun⟩

def fault {α : Type} (f : Fault) : EvalM α := throw (.fault f)

def defect {α : Type} (d : Defect) : EvalM α := fault (.defect d)

/-- The cell of a variable. -/
def cellOf (v : Var) : EvalM Nat := do
  match (← get).scopes.get? v.id with
  | some ref => return ref
  | none => defect (.undefinedVariable v.name)

/-- Closes the innermost scope. -/
def closeScope (s : EvalState) : Option EvalState :=
  s.scopes.leave?.map fun scopes => { s with scopes }

/-- Runs an action in a new scope that holds `bindings`; the scope is closed
however the action ends. -/
def inScope {α : Type} (bindings : List (Nat × Nat)) (x : EvalM α) : EvalM α := fun s =>
  match x { s with scopes := s.scopes.enter.bindAll bindings } with
  | .ok a s =>
    match closeScope s with
    | some s => .ok a s
    | none => .error (.fault (.defect .noOpenScope)) s
  | .error e s =>
    match closeScope s with
    | some s => .error e s
    | none => .error (.fault (.defect .noOpenScope)) s

/-- Runs an action as the body of a handler of `v`. -/
def whileCaught {α : Type} (v : Value) (x : EvalM α) : EvalM α := fun s =>
  match x { s with caught := v :: s.caught } with
  | .ok a s => .ok a { s with caught := s.caught.tail }
  | .error e s => .error e { s with caught := s.caught.tail }

/-- Runs an action one level deeper, unless that exceeds the limit. -/
def deeper {α : Type} (gauge : Gauge) (x : EvalM α) : EvalM α := fun s =>
  let depth := s.world.depthAt gauge
  if gauge.max ≤ depth then .error (.fault (.tooDeep depth gauge.max)) s
  else
    match x (s.atDepth gauge (depth + 1)) with
    | .ok a s => .ok a (s.atDepth gauge depth)
    | .error e s => .error e (s.atDepth gauge depth)

end EvalM

/-- What the evaluation of a node may use. -/
structure Walk where
  host : Host
  /-- Measures the depth of evaluation, of the lambdas made here too. -/
  gauge : Gauge
  /-- Bounds the turns of loops and the size of texts. -/
  fuel : Nat
  call : Caller
  /-- Evaluates a part of the node. -/
  valueOf : Expr → EvalM Value

namespace Walk

/-- Evaluates a truth value. -/
def truthOf (c : Walk) (e : Expr) : EvalM Bool := do
  let v ← c.valueOf e
  match v.bool? with
  | some b => return b
  | none => EvalM.defect (.notBool v)

/-- Evaluates expressions from left to right. -/
def valuesOf (c : Walk) : List Expr → EvalM (List Value)
  | [] => return []
  | e :: es => do
    let v ← c.valueOf e
    return v :: (← c.valuesOf es)

/-- Calls a host method without a receiver. -/
def callStatic (c : Walk) (m : Method) (args : List Value) : RunM Value :=
  c.host.callStatic c.call c.fuel m args

end Walk

end TreeCode

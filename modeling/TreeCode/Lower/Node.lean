import TreeCode.Lower.Control
import TreeCode.Lower.Member

/-!
# Lowering of nodes

`Expr.part` puts the code of every node together from the code of its parts,
by recursion on the tree.
-/

namespace TreeCode

namespace Lower

/-- Emits a mention of a nested lambda: its compiled form from the record, bound
to the cells of the variables it captures. -/
def pushLambda (l : Lambda) (f : Usage) : LowerM Unit := do
  let env ← read
  if env.supplied.isSome then unsupported .nestedLambdaWithSuppliedClosure
  if f.discarded then return ()
  let place? := (env.units.findIdx? (·.lambda.id == l.id)).bind fun unit =>
    (env.plan.nestedPlace? unit).map fun index => (unit, index)
  match place? with
  | none => error (.unresolvedNestedUnit l.shown)
  | some (unit, index) =>
    pushEntry (env.plan.constants.length + index)
    match env.compiled[unit]? with
    | none => error (.unresolvedNestedUnit l.shown)
    | some (.bound _) => pure ()
    | some (.opened _ captures) =>
      let cells ← cellLoads captures
      cells.forM emit
      emit (.curry cells.length)

end Lower

mutual

/-- The code of a node. -/
def Expr.part : Expr → Part
  | .constant t v => .plain (.constant t v) (Lower.pushConstant v)
  | .var v => .assignable (.var v) (Lower.pushVar v) (.var v)
  | .default t => .plain (.default t) fun f =>
    if !f.discarded && !t.isVoid then Lower.pushValue t.default else pure ()
  | .rethrow t => .plain (.rethrow t) (Lower.throwAgain t)
  | .unary t op e method =>
    let operand := e.part
    let node : Expr := .unary t op e method
    let code := Lower.unary t op operand method
    if op = .not && method.isNone && t = .bool then
      .mk node code (fun label when_ f => operand.branch label (!when_) f) .other
    else .plain node code
  | .binary t op l r method =>
    let left := l.part
    let right := r.part
    let node : Expr := .binary t op l r method
    let code := Lower.binary t op left right method
    match op with
    | .andAlso => .mk node code (Lower.branchBoth true left right) .other
    | .orElse => .mk node code (Lower.branchBoth false left right) .other
    | _ => .plain node code
  | .call t o m args =>
    .plain (.call t o m args) (Lower.methodCall (Expr.partOption o) m (Expr.parts args))
  | .new d factory args =>
    let args' := Expr.parts args
    .plain (.new d factory args) fun f => do
      Lower.newInstance d factory args' f
      Lower.dropWhen f.discarded
  | .member o m =>
    let object := o.part
    .assignable (.member o m) (Lower.readMember object m) (.member object m)
  | .index t o indexer args =>
    let object := o.part
    let args' := Expr.parts args
    .assignable (.index t o indexer args) (Lower.subscript object indexer args')
      (.index object indexer args')
  | .newArray t items => .plain (.newArray t items) (Lower.arrayOf (Expr.parts items))
  | .newArrayBounds t n => .plain (.newArrayBounds t n) (Lower.arrayOfLength t n.part)
  | .memberInit d args bindings =>
    .plain (.memberInit d args bindings)
      (Lower.initialised d (Expr.parts args) (Expr.partBindings bindings))
  | .conditional t test a b =>
    .plain (.conditional t test a b) (Lower.conditional t test.part a.part b.part)
  | .block t vars body => .plain (.block t vars body) (Lower.block t vars (Expr.parts body))
  | .loop b breakLabel continueLabel =>
    .plain (.loop b breakLabel continueLabel) (Lower.loop b.part breakLabel continueLabel)
  | .protect b handlers cleanup =>
    let hasReturn := b.hasReturn || CatchClause.anyReturn handlers || cleanup.hasReturn
    .plain (.protect b handlers cleanup)
      (Lower.protect hasReturn b.part (Expr.partHandlers handlers) (Expr.partCleanup cleanup))
  | .label l e => .plain (.label l e) (Lower.label l (Expr.partOption e))
  | .goto t kind l e => .plain (.goto t kind l e) (Lower.goto t l (Expr.partOption e))
  | .switch t v cases e comparison =>
    .plain (.switch t v cases e comparison)
      (Lower.switch t v.part (Expr.partCases cases) (Expr.partOption e) comparison)
  | .lambda l => .plain (.lambda l) (Lower.pushLambda l)
  | .invoke t target args =>
    .plain (.invoke t target args) (Lower.invocation t target.part (Expr.parts args))

def Expr.partOption : Option Expr → Option Part
  | none => none
  | some e => some e.part

def Expr.parts : List Expr → List Part
  | [] => []
  | e :: es => e.part :: Expr.parts es

def Expr.partBindings : List Binding → List (Member × Part)
  | [] => []
  | .mk m e :: bs => (m, e.part) :: Expr.partBindings bs

def Expr.partHandlers : List CatchClause → List CatchPart
  | [] => []
  | .mk test v _ body :: hs => ⟨test, v, body.part⟩ :: Expr.partHandlers hs

def Expr.partCleanup : Cleanup → Option CleanupPart
  | .none => none
  | .finally e => some ⟨true, e.part⟩
  | .fault e => some ⟨false, e.part⟩

def Expr.partCases : List SwitchCase → List (List Part × Part)
  | [] => []
  | .mk tests body :: cs => (Expr.parts tests, body.part) :: Expr.partCases cs

end

end TreeCode

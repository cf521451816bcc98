import TreeCode.Eval.Operator

/-!
# Direct evaluation: control flow

Blocks, loops, protected regions and switches. Jumps travel outwards as
`Exit.jump` until a block with the label among its statements, a loop with it
as break or continue label, or the lambda body takes them.
-/

namespace TreeCode.Walk

/-- Evaluates the statements `rest` of a block whose statements are `all`. A
jump to a label among the statements goes on right after it, the label taking
the carried value. -/
def statements (c : Walk) (all : List Expr) : Nat → List Expr → Value → EvalM Value
  | _, [], v => pure v
  | 0, _ :: _, _ => EvalM.fault .outOfFuel
  | n + 1, e :: rest, _ => fun s =>
    match c.valueOf e s with
    | .ok v s => c.statements all n rest v s
    | .error (.jump target v) s =>
      match all.findIdx? (·.isLabelOf target) with
      | some i => c.statements all n (all.drop (i + 1)) v s
      | none => .error (.jump target v) s
    | .error exit s => .error exit s

/-- Makes a cell with the default value for each variable. -/
def freshVariables : List Var → EvalM (List (Nat × Nat))
  | [] => return []
  | v :: vs => do
    let ref ← EvalM.ofRun (RunM.newCell v.ty.default)
    return (v.id, ref) :: (← freshVariables vs)

/-- Evaluates a block in a scope of its own. -/
def block (c : Walk) (vars : List Var) (body : List Expr) : EvalM Value := do
  let bindings ← freshVariables vars
  EvalM.inScope bindings (c.statements body c.fuel body .unit)

/-- Whether a jump goes to an optional label. -/
def isTargetOf (l : Option Label) (target : Label) : Bool :=
  match l with
  | some l => l.id == target.id
  | none => false

/-- Evaluates the body of a loop until control leaves it. -/
def loop (c : Walk) (body : Expr) (breakLabel continueLabel : Option Label) :
    Nat → EvalM Value
  | 0 => EvalM.fault .outOfFuel
  | n + 1 => fun s =>
    match c.valueOf body s with
    | .ok _ s => c.loop body breakLabel continueLabel n s
    | .error (.jump target v) s =>
      if isTargetOf breakLabel target then .ok v s
      else if isTargetOf continueLabel target then c.loop body breakLabel continueLabel n s
      else .error (.jump target v) s
    | .error exit s => .error exit s

/-- Whether a filter accepts the exception in flight. A filter that fails or
jumps declines it. -/
def accepts (c : Walk) (filter : Option Expr) : EvalM Bool :=
  match filter with
  | none => pure true
  | some f => fun s =>
    match c.valueOf f s with
    | .ok (.bool true) s => .ok true s
    | .ok _ s => .ok false s
    | .error (.fault .outOfFuel) s => .error (.fault .outOfFuel) s
    | .error (.fault .outOfTable) s => .error (.fault .outOfTable) s
    | .error _ s => .ok false s

/-- Runs a handler on an exception; `none` when its filter declines. -/
def handler (c : Walk) (v : Value) (h : CatchClause) : EvalM (Option Value) := do
  let bindings ← match h.var with
    | some x => do pure [(x.id, ← EvalM.ofRun (RunM.newCell v))]
    | none => pure []
  EvalM.inScope bindings do
    if ← c.accepts h.filter then
      return some (← EvalM.whileCaught v (c.valueOf h.body))
    else return none

/-- Runs the first handler that takes an exception; `none` when none does. -/
def firstHandler (c : Walk) (v : Value) : List CatchClause → EvalM (Option Value)
  | [] => return none
  | h :: rest => do
    if v.isA h.test then
      match ← c.handler v h with
      | some x => return some x
      | none => c.firstHandler v rest
    else c.firstHandler v rest

/-- Evaluates the body of a protected region, and a handler when an exception
escapes from it. -/
def handled (c : Walk) (body : Expr) (handlers : List CatchClause) : EvalM Value :=
  fun s =>
    match c.valueOf body s with
    | .error (.fault (.thrown v)) s =>
      match c.firstHandler v handlers s with
      | .ok (some x) s => .ok x s
      | .ok none s => .error (.fault (.thrown v)) s
      | .error exit s => .error exit s
    | result => result

/-- Evaluates a block and then leaves with `exit`, unless the block leaves in
another way. -/
def thenLeave (c : Walk) (block : Expr) (exit : Exit) : EvalM Value := do
  let _ ← c.valueOf block
  throw exit

/-- Evaluates a protected region. The cleanup block of a region runs after the
handlers; failures other than exceptions pass by it. -/
def protect (c : Walk) (body : Expr) (handlers : List CatchClause) (cleanup : Cleanup) :
    EvalM Value := fun s =>
  match cleanup, c.handled body handlers s with
  | .finally block, .ok v s =>
    match c.valueOf block s with
    | .ok _ s => .ok v s
    | .error exit s => .error exit s
  | .finally block, .error (.jump target v) s => c.thenLeave block (.jump target v) s
  | .finally block, .error (.fault (.thrown v)) s => c.thenLeave block (.fault (.thrown v)) s
  | .fault block, .error (.fault (.thrown v)) s => c.thenLeave block (.fault (.thrown v)) s
  | _, result => result

/-- The text of an exception when no case of a switch matches. -/
def unmatched (c : Walk) (v : Value) : RunM Value := do
  let text ← RunM.describe c.fuel v
  RunM.raise ⟨.invalidOperation, "No case matched the switch value " ++ text ++ "."⟩

/-- Whether one of the tests of a case equals the value. -/
def matchesTest (c : Walk) (ty : Ty) (v : Value) (comparison : Option Method) :
    List Expr → EvalM Bool
  | [] => return false
  | test :: rest => do
    let candidate ← c.valueOf test
    let (matched, _) ← c.combine .equal ty v test.ty candidate comparison
    match matched.bool? with
    | some true => return true
    | _ => c.matchesTest ty v comparison rest

/-- The body of the first case that the value matches. -/
def caseFor (c : Walk) (ty : Ty) (v : Value) (comparison : Option Method) :
    List SwitchCase → EvalM (Option Expr)
  | [] => return none
  | .mk tests body :: rest => do
    if ← c.matchesTest ty v comparison tests then return some body
    else c.caseFor ty v comparison rest

/-- Evaluates a switch of static type `ty`. -/
def switch (c : Walk) (ty : Ty) (value : Expr) (cases : List SwitchCase)
    (fallback : Option Expr) (comparison : Option Method) : EvalM Value := do
  let v ← c.valueOf value
  match ← c.caseFor value.ty v comparison cases with
  | some body => c.valueOf body
  | none =>
    match fallback with
    | some e => c.valueOf e
    | none => if ty.isVoid then return .unit else EvalM.ofRun (c.unmatched v)

end TreeCode.Walk

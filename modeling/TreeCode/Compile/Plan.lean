import TreeCode.Compile.Failure

/-!
# Closure plans

What a unit needs besides its parameters, found by one walk over its lambda:
the identity constants it mentions, the variables it captures, the lambdas
nested in it, its labels, and which of its own variables must live in cells
because a nested lambda captures them. Nested lambdas are planned on the way,
so a unit comes after every unit nested in it.

## Main definitions

* `Plan`, `UnitPlan` — the plan of a unit.
* `Expr.hasReturn` — whether a protected region holds a return jump.
* `planLambda` — the plans of a lambda and of all lambdas nested in it.
-/

namespace TreeCode

/-- An identity constant, with its number of mentions. -/
structure ConstantUse where
  value : Value
  uses : Nat

/-- A nested unit by its place in the table of units, with its number of
mentions. -/
structure NestedUse where
  unit : Nat
  uses : Nat
  deriving DecidableEq, Repr

/-- What a unit needs besides its parameters. -/
structure Plan where
  /-- Identity constants, in order of first mention. -/
  constants : List ConstantUse := []
  /-- Variables captured from enclosing units, in order of first mention. -/
  captures : List Var := []
  /-- Nested units, in order of first mention. -/
  nested : List NestedUse := []
  /-- Ids of the labels of the unit. -/
  labels : List Nat := []
  /-- Ids of the own variables that nested units capture. -/
  boxed : List Nat := []
  deriving Inhabited

/-- A nested lambda and its plan. -/
structure UnitPlan where
  lambda : Lambda
  plan : Plan
  deriving Inhabited

namespace Plan

/-- Counts a mention of an identity constant. -/
def countConstant (v : Value) (i : Identity) : List ConstantUse → List ConstantUse
  | [] => [⟨v, 1⟩]
  | c :: cs =>
    if c.value.identity? == some i then { c with uses := c.uses + 1 } :: cs
    else c :: countConstant v i cs

/-- Registers a mention of a constant; constants without identity need no
entry. -/
def noteConstant (p : Plan) (v : Value) : Plan :=
  match v.identity? with
  | some i => { p with constants := countConstant v i p.constants }
  | none => p

/-- Place of an identity constant in the record. -/
def constantPlace? (p : Plan) (v : Value) : Option Nat :=
  match v.identity? with
  | some i => p.constants.findIdx? (·.value.identity? == some i)
  | none => none

/-- Counts a mention of a nested unit. -/
def countNested (unit : Nat) : List NestedUse → List NestedUse
  | [] => [⟨unit, 1⟩]
  | n :: ns =>
    if n.unit == unit then { n with uses := n.uses + 1 } :: ns else n :: countNested unit ns

def noteNested (p : Plan) (unit : Nat) : Plan := { p with nested := countNested unit p.nested }

/-- Place of a nested unit among the nested units. -/
def nestedPlace? (p : Plan) (unit : Nat) : Option Nat := p.nested.findIdx? (·.unit == unit)

def noteCapture (p : Plan) (v : Var) : Plan :=
  if p.captures.any (·.id == v.id) then p else { p with captures := p.captures ++ [v] }

/-- Place of a captured variable among the captured ones. -/
def capturePlace? (p : Plan) (id : Nat) : Option Nat := p.captures.findIdx? (·.id == id)

def noteBoxed (p : Plan) (id : Nat) : Plan :=
  if p.boxed.contains id then p else { p with boxed := id :: p.boxed }

def isBoxed (p : Plan) (id : Nat) : Bool := p.boxed.contains id

def noteLabel (p : Plan) (id : Nat) : Plan :=
  if p.labels.contains id then p else { p with labels := id :: p.labels }

/-- Whether the unit reads anything through a closure record. -/
def needsRecord (p : Plan) : Bool :=
  !p.constants.isEmpty || !p.nested.isEmpty || !p.captures.isEmpty

end Plan

/-! ## Return jumps in protected regions -/

mutual

/-- Whether an expression holds a return jump outside nested protected regions
and lambdas. -/
def Expr.hasReturn : Expr → Bool
  | .constant .. | .var _ | .default _ | .rethrow _ | .protect .. | .lambda _ => false
  | .unary _ _ e _ => e.hasReturn
  | .binary _ _ l r _ => l.hasReturn || r.hasReturn
  | .call _ o _ args => Expr.hasReturnOption o || Expr.hasReturnAny args
  | .new _ _ args => Expr.hasReturnAny args
  | .member o _ => o.hasReturn
  | .index _ o _ args => o.hasReturn || Expr.hasReturnAny args
  | .newArray _ items => Expr.hasReturnAny items
  | .newArrayBounds _ n => n.hasReturn
  | .memberInit _ args bs => Expr.hasReturnAny args || Expr.hasReturnBindings bs
  | .conditional _ t a b => t.hasReturn || a.hasReturn || b.hasReturn
  | .block _ _ es => Expr.hasReturnAny es
  | .loop b _ _ => b.hasReturn
  | .label _ e => Expr.hasReturnOption e
  | .goto _ kind _ e => kind == .ret || Expr.hasReturnOption e
  | .switch _ v cases e _ =>
    v.hasReturn || Expr.hasReturnCases cases || Expr.hasReturnOption e
  | .invoke _ t args => t.hasReturn || Expr.hasReturnAny args

def Expr.hasReturnOption : Option Expr → Bool
  | none => false
  | some e => e.hasReturn

def Expr.hasReturnAny : List Expr → Bool
  | [] => false
  | e :: es => e.hasReturn || Expr.hasReturnAny es

def Expr.hasReturnBindings : List Binding → Bool
  | [] => false
  | .mk _ e :: bs => e.hasReturn || Expr.hasReturnBindings bs

def Expr.hasReturnCases : List SwitchCase → Bool
  | [] => false
  | .mk tests body :: cs =>
    Expr.hasReturnAny tests || body.hasReturn || Expr.hasReturnCases cs

end

/-- Whether the handlers of a protected region hold a return jump. -/
def CatchClause.anyReturn (handlers : List CatchClause) : Bool :=
  handlers.any fun h => h.body.hasReturn

/-- Whether a cleanup block holds a return jump. -/
def Cleanup.hasReturn : Cleanup → Bool
  | .none => false
  | .finally e => e.hasReturn
  | .fault e => e.hasReturn

/-! ## The walk -/

/-- State of the walk over a lambda. -/
structure Survey where
  /-- Nested units planned so far; a unit comes after those nested in it. -/
  units : Array UnitPlan := #[]
  /-- The plan of the lambda being walked. -/
  plan : Plan := {}
  params : List Var := []
  /-- Variables of the blocks and handlers around the node, innermost first. -/
  blocks : List (List Var) := []
  /-- Whether variables may come from an enclosing unit. -/
  isNested : Bool := false

/-- Steps of the walk. -/
abbrev SurveyM := StateT Survey (Except Failure)

namespace Survey

def unsupported {α : Type} (u : Unsupported) : SurveyM α := throw (.unsupported u)

def error {α : Type} (e : CompileError) : SurveyM α := throw (.error e)

/-- Changes the plan of the lambda being walked. -/
def modifyPlan (f : Plan → Plan) : SurveyM Unit := modify fun s => { s with plan := f s.plan }

def noteLabel (l : Label) : SurveyM Unit := modifyPlan (·.noteLabel l.id)

def noteLabelOption : Option Label → SurveyM Unit
  | some l => noteLabel l
  | none => pure ()

/-- Whether a variable belongs to the lambda being walked and is in scope. -/
def isOwn (s : Survey) (id : Nat) : Bool :=
  s.params.any (·.id == id) || s.blocks.any (·.any (·.id == id))

/-- Walks the inside of a block or handler that declares variables. -/
def inBlock (vars : List Var) (x : SurveyM Unit) : SurveyM Unit := do
  modify fun s => { s with blocks := vars :: s.blocks }
  x
  modify fun s => { s with blocks := s.blocks.tail }

/-- A mention of a variable that is not the lambda's own. -/
def capture (v : Var) : SurveyM Unit := do
  if (← get).isNested then modifyPlan (·.noteCapture v)
  else error (.undefinedVariable v.name)

/-- A mention of a variable. -/
def mention (v : Var) : SurveyM Unit := do
  if isOwn (← get) v.id then pure () else capture v

/-- Variables that a nested unit captures: the lambda's own ones must live in
cells, the others come from further out. -/
def passOn : List Var → SurveyM Unit
  | [] => pure ()
  | v :: vs => do
    if isOwn (← get) v.id then modifyPlan (·.noteBoxed v.id) else capture v
    passOn vs

/-- The unit of a lambda; `walk` plans it when it is mentioned for the first
time. -/
def unitFor (l : Lambda) (walk : SurveyM Unit) : SurveyM Nat := fun s =>
  match s.units.findIdx? (·.lambda.id == l.id) with
  | some unit => .ok (unit, s)
  | none => do
    let (_, inner) ← walk { units := s.units, params := l.params, isNested := true }
    .ok (inner.units.size, { s with units := inner.units.push ⟨l, inner.plan⟩ })

/-- A mention of a lambda. -/
def mentionLambda (l : Lambda) (walk : SurveyM Unit) : SurveyM Unit := do
  let unit ← unitFor l walk
  modifyPlan (·.noteNested unit)
  match (← get).units[unit]? with
  | some u => passOn u.plan.captures
  | none => pure ()

end Survey

open Survey

mutual

/-- Walks an expression from left to right. -/
def survey : Expr → SurveyM Unit
  | .constant _ v => modifyPlan (·.noteConstant v)
  | .var v => mention v
  | .default _ => pure ()
  | .rethrow _ => pure ()
  | .unary _ _ e _ => survey e
  | .binary _ _ l r _ => do
    survey l
    survey r
  | .call _ o _ args => do
    surveyOption o
    surveyAll args
  | .new _ _ args => surveyAll args
  | .member o _ => survey o
  | .index _ o _ args => do
    survey o
    surveyAll args
  | .newArray _ items => surveyAll items
  | .newArrayBounds _ n => survey n
  | .memberInit _ args bs => do
    surveyAll args
    surveyBindings bs
  | .conditional _ t a b => do
    survey t
    survey a
    survey b
  | .block _ vars es => inBlock vars (surveyAll es)
  | .loop b breakLabel continueLabel => do
    noteLabelOption breakLabel
    noteLabelOption continueLabel
    survey b
  | .protect b handlers cleanup => do
    survey b
    surveyHandlers handlers
    surveyCleanup cleanup
  | .label l e => do
    noteLabel l
    surveyOption e
  | .goto _ _ l e => do
    noteLabel l
    surveyOption e
  | .switch t v cases e _ => do
    if e.isNone && !t.isVoid then unsupported .switchWithoutDefault
    survey v
    surveyCases cases
    surveyOption e
  | .lambda l => surveyLambda l
  | .invoke _ t args => do
    survey t
    surveyAll args

def surveyOption : Option Expr → SurveyM Unit
  | none => pure ()
  | some e => survey e

def surveyAll : List Expr → SurveyM Unit
  | [] => pure ()
  | e :: es => do
    survey e
    surveyAll es

def surveyBindings : List Binding → SurveyM Unit
  | [] => pure ()
  | .mk _ e :: bs => do
    survey e
    surveyBindings bs

def surveyHandlers : List CatchClause → SurveyM Unit
  | [] => pure ()
  | .mk _ var filter body :: hs => do
    if filter.isSome then unsupported .filteredCatch
    inBlock var.toList (survey body)
    surveyHandlers hs

def surveyCleanup : Cleanup → SurveyM Unit
  | .none => pure ()
  | .finally e => survey e
  | .fault e => survey e

def surveyCases : List SwitchCase → SurveyM Unit
  | [] => pure ()
  | .mk tests body :: cs => do
    surveyAll tests
    survey body
    surveyCases cs

def surveyLambda : Lambda → SurveyM Unit
  | .mk id name params ret body => mentionLambda (.mk id name params ret body) (survey body)

end

/-- The plan of a lambda that is nested in no other, and those of the lambdas
nested in it. -/
def planLambda (l : Lambda) : Except Failure (Plan × Array UnitPlan) := do
  let (_, s) ← survey l.body { params := l.params }
  return (s.plan, s.units)

end TreeCode

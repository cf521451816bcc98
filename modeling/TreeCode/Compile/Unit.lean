import TreeCode.Lower.Unit
import TreeCode.World

/-!
# Compilation

A lambda is compiled together with the lambdas nested in it, innermost first:
the record of a unit holds its identity constants and then the compiled form
of each lambda that it mentions.

## Main definitions

* `BoundUnit` — code bound to its closure record.
* `Attempt` — a compiled lambda, or why there is none.
* `compileLambda` — compiles a lambda.
* `compileWith` — compiles a lambda against a given closure record.
-/

namespace TreeCode

/-- A lambda compiled to code and bound to its closure record. -/
structure BoundUnit where
  code : Code
  record : ClosureRecord

namespace BoundUnit

/-- The function it is. -/
def callable (c : BoundUnit) : Callable := .compiled c.code c.record

/-- The compiled lambda as listings show it. -/
def detailed (c : BoundUnit) : String :=
  Text.record "CompiledLambda" [("closure", closureText c.code.name c.record)]

end BoundUnit

/-- Result of an attempt to compile. -/
inductive Attempt where
  | compiled (c : BoundUnit)
  /-- The tree uses something that is only evaluated. -/
  | unsupported (reason : Unsupported)

/-- Steps of compilation, which make functions and open units. -/
abbrev CompileM := StateT World (Except Failure)

namespace CompileM

/-- The entries of a record for nested units. -/
def nestedEntries (units : Array UnitPlan) (compiled : Array NestedForm) :
    List NestedUse → Except Failure (List Value)
  | [] => .ok []
  | n :: ns => do
    match compiled[n.unit]? with
    | some c => return c.value :: (← nestedEntries units compiled ns)
    | none =>
      let name := match units[n.unit]? with
        | some u => u.lambda.shown
        | none => ""
      .error (.error (.unresolvedNestedUnit name))

/-- The entries of the record of a unit: its constants, then the compiled form
of every lambda that it mentions. -/
def recordEntries (plan : Plan) (units : Array UnitPlan) (compiled : Array NestedForm) :
    Except Failure (List Value) := do
  return plan.constants.map (·.value) ++ (← nestedEntries units compiled plan.nested)

/-- The code of a lambda, with the entries of its record. -/
def codeAndEntries (catalog : Catalog) (l : Lambda) (plan : Plan) (units : Array UnitPlan)
    (compiled : Array NestedForm) : Except Failure (Code × List Value) := do
  let code ← l.toCode { catalog, plan, units, compiled }
  return (code, ← recordEntries plan units compiled)

/-- Compiles a nested unit: a function if it captures nothing. -/
def nestedForm (catalog : Catalog) (units : Array UnitPlan) (compiled : Array NestedForm)
    (u : UnitPlan) : CompileM NestedForm := do
  let (code, values) ← codeAndEntries catalog u.lambda u.plan units compiled
  if u.plan.captures.isEmpty then
    return .bound (← modifyGet (·.newFunction (.compiled code (.ofConstants values))))
  else
    return .opened (← modifyGet (·.newOpenUnit ⟨code, values⟩)) u.plan.captures

/-- Compiles nested units in order. -/
def nestedForms (catalog : Catalog) (units : Array UnitPlan) (compiled : Array NestedForm) :
    List UnitPlan → CompileM (Array NestedForm)
  | [] => return compiled
  | u :: us => do
    let c ← nestedForm catalog units compiled u
    nestedForms catalog units (compiled.push c) us

/-- Compiles a lambda and the lambdas nested in it. -/
def boundUnit (catalog : Catalog) (l : Lambda) : CompileM BoundUnit := do
  let (plan, units) ← planLambda l
  let compiled ← nestedForms catalog units #[] units.toList
  let (code, values) ← codeAndEntries catalog l plan units compiled
  return ⟨code, .ofConstants values⟩

/-- Tells what is merely not lowered from what is wrong. -/
def settle (x : CompileM BoundUnit) (w : World) : Except CompileError (Attempt × World) :=
  match x w with
  | .ok (c, w) => .ok (.compiled c, w)
  | .error (.unsupported u) => .ok (.unsupported u, w)
  | .error (.error e) => .error e

end CompileM

/-- Compiles a lambda. -/
def compileLambda (catalog : Catalog) (l : Lambda) (w : World) :
    Except CompileError (Attempt × World) :=
  CompileM.settle (CompileM.boundUnit catalog l) w

/-- Compiles a lambda against a given closure record. Nothing is planned: every
identity constant must be in the record, and there may be neither labels nor
nested lambdas. -/
def compileWith (catalog : Catalog) (l : Lambda) (constants : List Value) (w : World) :
    Except CompileError (Attempt × World) :=
  CompileM.settle (do
    let code ← l.toCode { catalog, plan := {}, supplied := some constants }
    return ⟨code, .ofConstants constants⟩) w

end TreeCode

import TreeCode.Machine.Exec

/-!
# The stack machine: runs

`Machine.run` carries out instructions until the unit returns, passing
failures through the table of protected regions. `runUnit` is a run of a unit
on arguments, `callUnit` one that checks the shapes of the arguments first.
-/

namespace TreeCode

/-- Carries out at most `n` instructions. -/
def Machine.run (m : Machine) : Nat → MachineM Value
  | 0 => throw .outOfFuel
  | n + 1 => fun s =>
    match m.step s with
    | .ok none s => m.run n s
    | .ok (some v) s => .ok v s
    | .error f s =>
      match m.dispatch f (s.pointer - 1) s with
      | .ok _ s => m.run n s
      | .error f s => .error f s

/-- The slots that a unit starts with: the arguments, then unit in every other one. -/
def Code.initialLocals (code : Code) (args : List Value) : Array Value :=
  args.toArray ++ Array.replicate (code.numLocals - args.length) .unit

/-- Runs a unit on arguments. -/
def runUnit (host : Host) (call : Caller) (fuel : Nat) (code : Code) (record : ClosureRecord)
    (args : List Value) : RunM Value := fun w =>
  let m : Machine := { host, fuel, call, code, record }
  match m.run fuel { world := w, locals := code.initialLocals args } with
  | .ok v s => .ok v s.world
  | .error f s => .error f s.world

/-- The shapes that a unit requires of its arguments. -/
def Code.argShapes (code : Code) : List Shape :=
  match code.shapes with
  | .record :: shapes => shapes
  | shapes => shapes

/-- Requires arguments of the given shapes. -/
def requireShapes : List Shape → List Value → RunM Unit
  | s :: ss, v :: vs => if v.fits s then requireShapes ss vs else RunM.defect (.misfit v s)
  | _, _ => pure ()

/-- Runs a unit on arguments of the shapes it requires. -/
def callUnit (host : Host) (call : Caller) (fuel : Nat) (code : Code) (record : ClosureRecord)
    (args : List Value) : RunM Value := do
  RunM.requireArity code.argShapes.length args.length
  requireShapes code.argShapes args
  runUnit host call fuel code record args

end TreeCode

import TreeCode.Eval.Node
import TreeCode.Machine.Run

/-!
# Calls of functions

A function value is called in the way of its `Callable`: by evaluating a
lambda, by running a compiled unit, or by a host body. Each of these may call
functions in turn, at one unit of fuel less.
-/

namespace TreeCode

/-- Calls a function. -/
def call (host : Host) : Nat → Caller
  | 0, _, _ => throw .outOfFuel
  | fuel + 1, ref, args => fun w =>
    match w.functions[ref]? with
    | none => .error .outOfTable w
    | some (.interpreted l captured max counter) =>
      callLambda host (call host fuel) fuel l captured ⟨max, counter.getD ref⟩ args w
    | some (.compiled code record) => callUnit host (call host fuel) fuel code record args w
    | some (.native id sig) =>
      (do
        RunM.requireArity sig.params.length args.length
        (host.native id args).runStatic (call host fuel) fuel) w

end TreeCode

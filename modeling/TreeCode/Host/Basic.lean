import TreeCode.World

/-!
# The host

Host methods and functions are not written in the language: the embedding
program supplies them. A body is a `HostProg`, a tree of requests to the run
with what to do after each answer, so that a body can read and change shared
data and call functions, but sees nothing of how a program is run.

## Main definitions

* `HostOp`, `HostProg` — requests, and bodies made of them.
* `Host` — what is registered on definitions, and the bodies.
* `HostProg.run` — carries out a body.
-/

namespace TreeCode

/-- A request of a host body. -/
inductive HostOp where
  /-- A field of an instance. -/
  | field (v : Value) (index : Nat)
  /-- Stores to a field; the answer is the changed instance. -/
  | setField (v : Value) (index : Nat) (x : Value)
  /-- An element of an array. -/
  | element (a index : Value)
  /-- Stores to an element. -/
  | setElement (a index x : Value)
  /-- A new instance from its leading fields. -/
  | create (d : StructDef) (fields : List Value)
  /-- A new exception object. -/
  | exception (e : Exception)
  /-- The text of a value, as a string. -/
  | describe (v : Value)
  /-- Writes a line to the log. -/
  | log (line : String)
  /-- Calls a function. -/
  | call (ref : Nat) (args : List Value)

/-- A host body: finished, or waiting for the answer to a request. -/
inductive HostProg where
  /-- The result, and what is left in the receiver. -/
  | done (result : Except Fault Value) (receiver : Option Value)
  | ask (op : HostOp) (next : Except Fault Value → HostProg)

/-- What the embedding program supplies. -/
structure Host where
  catalog : Catalog
  /-- Bodies of methods by id, given the receiver and the arguments. -/
  method : Nat → Option Value → List Value → HostProg
  /-- Bodies of host functions by id. -/
  native : Nat → List Value → HostProg

/-- A function value called with arguments. -/
abbrev Caller := Nat → List Value → RunM Value

/-- How a host body ended: its result, and what is left in the receiver. -/
structure HostOutcome where
  result : Except Fault Value
  receiver : Option Value

namespace HostOp

/-- Carries out a request. -/
def run (call : Caller) (fuel : Nat) : HostOp → RunM Value
  | field v i => RunM.field v i
  | setField v i x => RunM.setField v i x
  | element a i => RunM.element a i
  | setElement a i x => do
    RunM.setElement a i x
    return .unit
  | create d fields => RunM.newStruct d fields
  | exception e => RunM.withStore (·.newException e)
  | describe v => do return .str (← RunM.describe fuel v)
  | log line => fun w => .ok .unit { w with log := w.log.push line }
  | .call ref args => call ref args

end HostOp

namespace HostProg

/-- Carries out a body. A run cut off by its bound is not for the body to
see. -/
def run (call : Caller) (fuel : Nat) : HostProg → World → HostOutcome × World
  | done result receiver, w => (⟨result, receiver⟩, w)
  | ask op next, w =>
    match op.run call fuel w with
    | .ok v w => run call fuel (next (.ok v)) w
    | .error .outOfFuel w => (⟨.error .outOfFuel, none⟩, w)
    | .error f w => run call fuel (next (.error f)) w

/-- Carries out a body that has no receiver. -/
def runStatic (call : Caller) (fuel : Nat) (p : HostProg) : RunM Value := fun w =>
  match p.run call fuel w with
  | (⟨.ok v, _⟩, w) => .ok v w
  | (⟨.error f, _⟩, w) => .error f w

end HostProg

namespace Host

/-- Calls a method without a receiver. -/
def callStatic (h : Host) (call : Caller) (fuel : Nat) (m : Method) (args : List Value) :
    RunM Value :=
  (h.method m.id none args).runStatic call fuel

/-- Calls a method on a receiver. -/
def callOn (h : Host) (call : Caller) (fuel : Nat) (m : Method) (receiver : Value)
    (args : List Value) : World → HostOutcome × World :=
  (h.method m.id (some receiver) args).run call fuel

/-- The method that a call on an instance reaches: for a virtual call the one
that the class of the instance provides. -/
def resolve (h : Host) (isVirtual : Bool) (m : Method) (receiver : Value) : Method :=
  if isVirtual then
    (receiver.structDef?.bind (h.catalog.methodNamed? · m.name)).getD m
  else m

end Host

end TreeCode

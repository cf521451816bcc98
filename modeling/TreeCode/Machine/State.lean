import TreeCode.Host.Basic

/-!
# The stack machine: state

A run of a unit has an operand stack, local slots, the position of the next
instruction, and the finally and fault blocks that are being run.

## Main definitions

* `MachineState`, `MachineM` — the state of a run and actions on it.
* `Machine` — what a run does not change: the unit, its record, the host.
* `MachineM.push`, `MachineM.pop`, `MachineM.popMany`, … — stack and slots.
-/

namespace TreeCode

/-- What happens at the end of a finally or fault block. -/
inductive AfterCleanup where
  /-- Goes on leaving towards a position. -/
  | leave (target : Nat)
  /-- Goes on with a failure. -/
  | rethrow (f : Fault)

/-- A finally or fault block that is being run. -/
structure Pending where
  /-- Place in the table of protected regions. -/
  handler : Nat
  after : AfterCleanup

/-- State of a run of a unit. -/
structure MachineState where
  world : World
  /-- Position of the next instruction. -/
  pointer : Nat := 0
  /-- The operand stack, top first. -/
  stack : List Value := []
  locals : Array Value := #[]
  /-- Blocks being run, innermost first. -/
  pending : List Pending := []

/-- Actions of a run of a unit; a failure keeps the changes made before it. -/
abbrev MachineM := EStateM Fault MachineState

/-- What a run of a unit does not change. -/
structure Machine where
  host : Host
  /-- Bounds the size of texts. -/
  fuel : Nat
  call : Caller
  code : Code
  record : ClosureRecord

namespace MachineM

/-- An action on the world. -/
def ofRun {α : Type} (x : RunM α) : MachineM α := fun s =>
  let { world, pointer, stack, locals, pending } := s
  match x world with
  | .ok a world => .ok a { world, pointer, stack, locals, pending }
  | .error f world => .error f { world, pointer, stack, locals, pending }

instance : MonadLift RunM MachineM := ⟨ofRun⟩

def defect {α : Type} (d : Defect) : MachineM α := throw (.defect d)

def raise {α : Type} (e : Exception) : MachineM α := ofRun (RunM.raise e)

def ofOp {α : Type} (x : Except OpError α) : MachineM α := ofRun (RunM.ofOp x)

/-- An entry of a table. -/
def entry {α : Type} : Option α → MachineM α
  | some a => pure a
  | none => throw .outOfTable

def push (v : Value) : MachineM Unit := modify fun s => { s with stack := v :: s.stack }

def pop : MachineM Value := fun s =>
  match s.stack with
  | v :: stack => .ok v { s with stack }
  | [] => .error (.defect .underflow) s

def peek : MachineM Value := fun s =>
  match s.stack with
  | v :: _ => .ok v s
  | [] => .error (.defect .underflow) s

def popTruth : MachineM Bool := do
  let v ← pop
  match v.bool? with
  | some b => return b
  | none => defect (.notBool v)

/-- Takes the top `n` values, in the order they were pushed. -/
def popMany (n : Nat) : MachineM (List Value) := fun s =>
  if s.stack.length < n then .error (.defect .underflow) s
  else .ok (s.stack.take n).reverse { s with stack := s.stack.drop n }

/-- Pops two operands; the right one is on top. -/
def popTwo : MachineM (Value × Value) := do
  let right ← pop
  let left ← pop
  return (left, right)

def continueAt (target : Nat) : MachineM Unit := modify fun s => { s with pointer := target }

def readSlot (slot : Nat) : MachineM Value := do
  entry (← get).locals[slot]?

def writeSlot (slot : Nat) (v : Value) : MachineM Unit := fun s =>
  if slot < s.locals.size then .ok () { s with locals := s.locals.setIfInBounds slot v }
  else .error .outOfTable s

/-- The cell held in a slot. -/
def cellIn (slot : Nat) : MachineM Nat := do
  match ← readSlot slot with
  | .cell ref => return ref
  | v => defect (.notBoxed slot v)

/-- Cuts the operand stack back to a height. -/
def cutBack (depth : Nat) (s : MachineState) : MachineState :=
  { s with stack := s.stack.drop (s.stack.length - depth) }

end MachineM

namespace Machine

/-- A constant of the closure record. -/
def constant (m : Machine) (index : Nat) : MachineM Value :=
  match m.record.values[index]? with
  | some v => pure v
  | none => MachineM.defect (.noConstant index)

/-- The cell of a captured variable. -/
def captured (m : Machine) (index : Nat) : MachineM Nat :=
  match m.record.cells[index]? with
  | some ref => pure ref
  | none => MachineM.defect (.noVariable index)

end Machine

end TreeCode

import TreeCode.Code.Basic
import TreeCode.Depth
import TreeCode.Expr.Basic
import TreeCode.Operator.Apply

/-!
# The world of a run

What a run can change: the store, the table of functions, the table of open
units, the log that host code writes, and the depths of evaluation. `RunM` is
the monad of everything that happens in a run: a failure keeps the changes
made before it.

## Main definitions

* `Callable` — what a function value does when called.
* `World`, `RunM` — the state of a run and actions on it.
* `RunM.raise`, `RunM.field`, `RunM.setField`, `RunM.element`, … — the actions
  that both ways of running a program share.
-/

namespace TreeCode

/-- What a function value does when called. -/
inductive Callable where
  /-- Evaluates the body of a lambda, with the variables that were visible
  where it was made. Its depth is counted with that of the function whose
  evaluation made it; a function made by nothing but the embedding program
  counts for itself. -/
  | interpreted (l : Lambda) (captured : List (Nat × Nat)) (maxDepth : Nat)
    (counter : Option Nat)
  /-- Runs a compiled unit. -/
  | compiled (code : Code) (record : ClosureRecord)
  /-- Runs a host function. -/
  | native (id : Nat) (sig : Signature)

instance : Inhabited Callable := ⟨.native 0 default⟩

def Callable.signature : Callable → Signature
  | interpreted l _ _ _ => l.signature
  | compiled code _ => code.signature
  | native _ sig => sig

/-- A compiled unit without the variables it captures. -/
structure OpenUnit where
  code : Code
  constants : List Value
  deriving Inhabited

/-- The state of a run. -/
structure World where
  store : Store := {}
  functions : Array Callable := #[]
  units : Array OpenUnit := #[]
  /-- Lines that host code wrote. -/
  log : Array String := #[]
  depth : Depths := 0
  deriving Inhabited

namespace World

/-- The depth that an evaluation has got to. -/
def depthAt (w : World) (g : Gauge) : Nat := w.depth.get g.counter

/-- The world when an evaluation has got to a depth. -/
def atDepth (w : World) (g : Gauge) (n : Nat) : World :=
  { w with depth := w.depth.set g.counter n }

/-- Makes a function value. -/
def newFunction (w : World) (c : Callable) : Value × World :=
  (.function w.functions.size c.signature, { w with functions := w.functions.push c })

/-- Makes an open unit. -/
def newOpenUnit (w : World) (u : OpenUnit) : Value × World :=
  (.openUnit w.units.size u.code.name, { w with units := w.units.push u })

end World

/-- Actions of a run. -/
abbrev RunM := EStateM Fault World

namespace Store

/-- Reads a field of an instance; a cell stands for its contents. `fuel` bounds
the number of cells passed. -/
def fieldFrom (st : Store) (i : Nat) : Nat → Value → Except OpError Value
  | 0, _ => .error .outOfFuel
  | fuel + 1, v =>
    match v with
    | .struct _ _ fs => match fs[i]? with
      | some x => .ok x
      | none => .error .outOfTable
    | .object r _ => match (st.objectAt r)[i]? with
      | some x => .ok x
      | none => .error .outOfTable
    | .cell r => fieldFrom st i fuel (st.cellAt r)
    | .null => .error (.raises .nullReference)
    | other => .error (.defect (.fieldOf other))

/-- Reads a field of an instance. -/
def field (st : Store) (v : Value) (i : Nat) : Except OpError Value :=
  st.fieldFrom i (st.cells.size + 2) v

/-- Stores to a field of an instance. A value struct is plain data, so the
changed one is given back; a cell stands for its contents. -/
def setFieldFrom (i : Nat) (x : Value) : Nat → Store → Value → Except OpError (Value × Store)
  | 0, _, _ => .error .outOfFuel
  | fuel + 1, st, v =>
    match v with
    | .struct _ d fs =>
      if i < fs.length then .ok (.struct none d (fs.set i x), st) else .error .outOfTable
    | .object r d =>
      let fs := st.objectAt r
      if i < fs.length then .ok (.object r d, st.setObject r (fs.set i x))
      else .error .outOfTable
    | .cell r => do
      let (inner, st) ← setFieldFrom i x fuel st (st.cellAt r)
      return (.cell r, st.setCell r inner)
    | .null => .error (.raises .nullReference)
    | other => .error (.defect (.fieldStoreOf other))

/-- Stores to a field of an instance. -/
def setField (st : Store) (v : Value) (i : Nat) (x : Value) : Except OpError (Value × Store) :=
  setFieldFrom i x (st.cells.size + 2) st v

/-- The array and the position that an array value and an index denote. -/
def elementAt (st : Store) (a index : Value) : Except OpError (Nat × Nat) :=
  match a with
  | .array r =>
    match index.index? with
    | none => .error (.defect (.indexBy index))
    | some i =>
      let length := (st.arrayAt r).size
      if i < 0 || i ≥ length then .error (.raises (.indexOutOfRange i length))
      else .ok (r, i.toNat)
  | .null => .error (.raises .nullReference)
  | other => .error (.defect (.elementOf other))

/-- Number of elements of an array. -/
def lengthOf (st : Store) : Value → Except OpError Nat
  | .array r => .ok (st.arrayAt r).size
  | .null => .error (.raises .nullReference)
  | other => .error (.defect (.lengthOf other))

/-- The length that a value asks for. -/
def lengthBy (v : Value) : Except OpError Nat :=
  match v.index? with
  | none => .error (.defect (.lengthBy v))
  | some n => if n < 0 then .error (.raises (.negativeLength n)) else .ok n.toNat

end Store

namespace RunM

/-- Raises an exception, as a new object. -/
def raise {α : Type} (e : Exception) : RunM α := fun w =>
  let (v, store) := w.store.newException e
  .error (.thrown v) { w with store }

/-- Fails with a defect. -/
def defect {α : Type} (d : Defect) : RunM α := throw (.defect d)

/-- The result of an operator. -/
def ofOp {α : Type} : Except OpError α → RunM α
  | .ok a => pure a
  | .error (.raises e) => raise e
  | .error (.defect d) => defect d
  | .error .outOfTable => throw .outOfTable
  | .error .outOfFuel => throw .outOfFuel

/-- Uses the store. -/
def withStore {α : Type} (f : Store → α × Store) : RunM α := fun w =>
  let { store, functions, units, log, depth } := w
  let (a, store) := f store
  .ok a { store, functions, units, log, depth }

/-- Reads the store. -/
def readStore {α : Type} (f : Store → α) : RunM α := fun w => .ok (f w.store) w

/-- Changes the store. -/
def setStore (f : Store → Store) : RunM Unit := withStore fun st => ((), f st)

def newArray (items : Array Value) : RunM Value := withStore (·.newArray items)

def newCell (v : Value) : RunM Nat := withStore (·.newCell v)

def readCell (ref : Nat) : RunM Value := readStore (·.cellAt ref)

def writeCell (ref : Nat) (v : Value) : RunM Unit := setStore (·.setCell ref v)

def newStruct (d : StructDef) (given : List Value) : RunM Value := withStore (·.newStruct d given)

/-- Makes a function value. -/
def newFunction (c : Callable) : RunM Value := fun w =>
  let (v, w) := w.newFunction c
  .ok v w

/-- Reads a field. -/
def field (v : Value) (i : Nat) : RunM Value := do
  ofOp (← readStore (·.field v i))

/-- Stores to a field and gives the receiver back. -/
def setField (v : Value) (i : Nat) (x : Value) : RunM Value := do
  let (v, st) ← ofOp (← readStore (·.setField v i x))
  setStore fun _ => st
  return v

/-- Reads an element. -/
def element (a index : Value) : RunM Value := do
  let (r, i) ← ofOp (← readStore (·.elementAt a index))
  readStore fun st => (st.arrayAt r)[i]?.getD .unit

/-- Stores an element. -/
def setElement (a index x : Value) : RunM Unit := do
  let (r, i) ← ofOp (← readStore (·.elementAt a index))
  setStore (·.setElement r i x)

/-- An array of copies of one value. -/
def newArrayOf (v length : Value) : RunM Value := do
  let n ← ofOp (Store.lengthBy length)
  newArray (Array.replicate n v)

/-- Length of an array, as a value. -/
def arrayLength (a : Value) : RunM Value := do
  return .i32 (← ofOp (← readStore (·.lengthOf a)))

/-- The text of a value in listings and traces. -/
def describe (fuel : Nat) (v : Value) : RunM String := do
  match ← readStore (·.detailed fuel v) with
  | some s => return s
  | none => throw .outOfFuel

/-- Requires the number of arguments that a callee takes. -/
def requireArity (expected got : Nat) : RunM Unit :=
  if expected = got then pure () else throw (.wrongArguments expected got)

end RunM

end TreeCode

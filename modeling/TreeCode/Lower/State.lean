import TreeCode.Code.Basic
import TreeCode.Compile.Plan

/-!
# Lowering: state

Lowering appends instructions to a unit under construction. It keeps the
height that the operand stack has at each instruction, so that the greatest
one is known at the end and jumps that would carry pending operands are
refused.

## Main definitions

* `Usage` — how the parent of a node uses its value.
* `Slots` — the slots of the variables in scope.
* `Draft`, `LowerEnv`, `LowerM` — state, surroundings and steps.
* `Lower.emit` — appends an instruction and applies its stack effect.
* `Lower.literal`, `Lower.typeEntry`, … — the tables of the unit.
-/

namespace TreeCode

/-- How the parent of a node uses its value. It only travels down the
tree. -/
structure Usage where
  /-- The value is ignored; only effects are emitted. -/
  discarded : Bool := false
  /-- The value is the receiver of a call or member access, by address if it is
  a value struct in a variable. -/
  byAddress : Bool := false
  /-- The value is an operand that was already checked for null. -/
  checked : Bool := false
  /-- The node is inside a protected region. -/
  guarded : Bool := false
  deriving DecidableEq, Repr, Inhabited

namespace Usage

/-- Usage of a child whose value the parent uses itself. -/
def operand (f : Usage) : Usage := { guarded := f.guarded }

/-- Usage of a child whose value the parent ignores. -/
def effect (f : Usage) : Usage := { guarded := f.guarded, discarded := true }

/-- Usage of a child that gives the value of its parent, of type `t`. -/
def result (f : Usage) (t : Ty) : Usage :=
  if f.discarded || t.isVoid then f.effect else f.operand

end Usage

/-- The slots of the variables in scope, by variable id. -/
structure Slots where
  entries : List (Nat × Nat) := []
  deriving Inhabited

namespace Slots

def get? (s : Slots) (id : Nat) : Option Nat := s.entries.lookup id

def erase (s : Slots) (id : Nat) : Slots := ⟨s.entries.filter (·.1 != id)⟩

def insert (s : Slots) (id slot : Nat) : Slots := ⟨(id, slot) :: (s.erase id).entries⟩

/-- Gives a variable back the slot it had before. -/
def restore (s : Slots) (id : Nat) : Option Nat → Slots
  | some slot => s.insert id slot
  | none => s.erase id

end Slots

/-- A label of the code under construction, by its place in the table of
labels. -/
abbrev LabelRef := Nat

/-- What is known of a label. -/
structure DraftLabel where
  /-- Name of a label of the program; others have none. -/
  name : Option String := none
  position : Option Nat := none
  /-- Jumps waiting for the position, with the cleanup block each stands in. -/
  fixups : List (Nat × Option Nat) := []
  /-- Height of the operand stack on arrival. -/
  depth : Option Nat := none
  /-- Slot of the value that jumps carry. -/
  valueSlot : Option Nat := none
  /-- Cleanup block that the label is placed in. -/
  cleanup : Option (Option Nat) := none
  deriving Inhabited

def DraftLabel.shown (l : DraftLabel) : String := l.name.getD "<internal>"

/-- A nested unit that is compiled. -/
inductive NestedForm where
  /-- Captures nothing: a function. -/
  | bound (function : Value)
  /-- Captures variables: bound to their cells at every mention. -/
  | opened (unbound : Value) (captures : List Var)

/-- The entry of the unit in the record of a unit that mentions it. -/
def NestedForm.value : NestedForm → Value
  | bound v => v
  | opened v _ => v

/-- What the lowering of a unit does not change. -/
structure LowerEnv where
  catalog : Catalog
  plan : Plan
  /-- Constants of a closure record that the caller supplies; nothing is
  planned then. -/
  supplied : Option (List Value) := none
  /-- All nested units, and those compiled so far, in the same order. -/
  units : Array UnitPlan := #[]
  compiled : Array NestedForm := #[]

/-- A unit under construction. -/
structure Draft where
  instrs : Array Instr := #[]
  literals : Array Value := #[]
  types : Array Ty := #[]
  methods : Array Method := #[]
  structs : Array StructDef := #[]
  handlers : List Handler := []
  slots : Slots := {}
  numLocals : Nat := 0
  labels : Array DraftLabel := #[]
  /-- Labels of the program, by id. -/
  programLabels : List (Nat × LabelRef) := []
  /-- Slots that hold constants and nested units mentioned more than once, by
  their place in the record. -/
  hoisted : List (Nat × Nat) := []
  depth : Nat := 0
  maxDepth : Nat := 0
  /-- Cleared after a transfer of control, set again by a label. -/
  reachable : Bool := true
  /-- Exception slots of the handlers around the node, innermost first. -/
  caught : List Nat := []
  /-- Cleanup blocks around the node, innermost first. -/
  cleanups : List Nat := []
  nextCleanup : Nat := 0
  deriving Inhabited

/-- Steps of lowering. -/
abbrev LowerM := ReaderT LowerEnv (StateT Draft (Except Failure))

namespace Lower

def unsupported {α : Type} (u : Unsupported) : LowerM α := throw (.unsupported u)

def error {α : Type} (e : CompileError) : LowerM α := throw (.error e)

/-! ## Instructions -/

/-- Number of values that an instruction takes from the operand stack and
number that it puts there. -/
def effectOf (methods : Array Method) : Instr → Nat × Nat
  | .halt | .nop | .jump _ | .leave _ | .endFinally => (0, 0)
  | .constNull | .constUnit | .constBool _ | .constI32 _ | .constLiteral _ | .loadConstant _
  | .loadLocal _ | .loadLocalAddress _ | .loadCell _ | .loadCellAddress _ | .loadCaptured _
  | .loadCapturedCell _ | .loadCapturedAddress _ => (0, 1)
  | .dup => (1, 2)
  | .pop | .storeLocal _ | .newCell _ | .storeCell _ | .storeCaptured _ => (1, 0)
  | .jumpIfFalse _ | .jumpIfTrue _ | .jumpIfNull _ | .jumpIfNotNull _ => (1, 0)
  | .throw | .ret => (1, 0)
  | .arith _ _ | .logical _ | .compare _ _ | .eq | .notEq | .concat => (2, 1)
  | .negate _ | .not | .convert _ | .unwrapNullable | .castClass _ => (1, 1)
  | .call index | .callVirtual index =>
    match methods[index]? with
    | some m => (m.arity + (if m.isStatic then 0 else 1), if m.ret.isVoid then 0 else 1)
    | none => (0, 0)
  | .invoke count => (count + 1, 1)
  | .curry count => (count + 1, 1)
  | .newStruct _ count => (count, 1)
  | .loadField _ => (1, 1)
  | .storeField _ => (2, 0)
  | .newArray count => (count, 1)
  | .newArrayBounds _ => (1, 1)
  | .loadElement => (2, 1)
  | .storeElement => (3, 0)
  | .arrayLength => (1, 1)

/-- Appends an instruction and applies its stack effect. -/
def emit (i : Instr) : LowerM Unit := modify fun s =>
  let (pops, pushes) := effectOf s.methods i
  let depth := s.depth - pops + pushes
  { s with
    instrs := s.instrs.push i
    depth := depth
    maxDepth := max s.maxDepth depth
    reachable := s.reachable && !i.transfersControl }

/-- Position of the next instruction. -/
def position : LowerM Nat := do return (← get).instrs.size

/-- Counts the value that a node of a value position would have given, when
control never falls out of it. -/
def assumePushed : LowerM Unit := modify fun s =>
  { s with depth := s.depth + 1, maxDepth := max s.maxDepth (s.depth + 1) }

/-- Starts a handler, entered with the operand stack at a height. -/
def resumeAt (depth : Nat) : LowerM Unit :=
  modify fun s => { s with depth, reachable := true }

def dropWhen (discard : Bool) : LowerM Unit := if discard then emit .pop else pure ()

/-! ## Tables -/

/-- Greatest number of entries of a table. -/
def tableLimit : Nat := 2147483647

/-- Greatest number of entries of the struct table. -/
def structLimit : Nat := 65535

/-- Greatest number of local slots. -/
def localLimit : Nat := 65535

/-- Requires room for one more entry. -/
def checkRoom (size limit : Nat) : LowerM Unit :=
  if limit ≤ size then error (.tooManyConstants limit) else pure ()

/-- Place of a literal in the table; equal literals share an entry. -/
def literal (v : Value) : LowerM Nat := do
  match (← get).literals.findIdx? (·.sharesLiteral v) with
  | some i => return i
  | none =>
    let index := (← get).literals.size
    checkRoom index tableLimit
    modify fun s => { s with literals := s.literals.push v }
    return index

/-- Place of a type in the table. -/
def typeEntry (t : Ty) : LowerM Nat := do
  match (← get).types.findIdx? (· == t) with
  | some i => return i
  | none =>
    let index := (← get).types.size
    checkRoom index tableLimit
    modify fun s => { s with types := s.types.push t }
    return index

/-- Place of a method in the table. -/
def methodEntry (m : Method) : LowerM Nat := do
  match (← get).methods.findIdx? (· == m) with
  | some i => return i
  | none =>
    let index := (← get).methods.size
    checkRoom index tableLimit
    modify fun s => { s with methods := s.methods.push m }
    return index

/-- Place of a definition in the table. -/
def structEntry (d : StructDef) : LowerM Nat := do
  match (← get).structs.findIdx? (· == d) with
  | some i => return i
  | none =>
    let index := (← get).structs.size
    checkRoom index structLimit
    modify fun s => { s with structs := s.structs.push d }
    return index

def callMethod (m : Method) (isVirtual : Bool) : LowerM Unit := do
  let index ← methodEntry m
  emit (if isVirtual then .callVirtual index else .call index)

/-! ## Values -/

/-- Pushes a value without identity. -/
def pushValue (v : Value) : LowerM Unit :=
  match v with
  | .unit => emit .constUnit
  | .null => emit .constNull
  | .bool b => emit (.constBool b)
  | .num (.int .i32 n) => emit (.constI32 n)
  | other => do emit (.constLiteral (← literal other))

/-- Place of a value in a supplied record, by identity. -/
def suppliedPlace? (values : List Value) (v : Value) : Option Nat :=
  values.findIdx? (·.identity? == v.identity?)

/-- Pushes an entry of the closure record. -/
def pushEntry (index : Nat) : LowerM Unit := do
  match (← get).hoisted.lookup index with
  | some slot => emit (.loadLocal slot)
  | none => emit (.loadConstant index)

/-- Pushes a constant. One with identity comes from the closure record. -/
def pushConstant (v : Value) (f : Usage) : LowerM Unit := do
  if f.discarded then return ()
  if v.identity?.isNone then return ← pushValue v
  let env ← read
  match env.supplied with
  | some values =>
    match suppliedPlace? values v with
    | some index => emit (.loadConstant index)
    | none => unsupported .missingSuppliedConstant
  | none =>
    match env.plan.constantPlace? v with
    | some index => pushEntry index
    | none => do emit (.constLiteral (← literal v))

end Lower

end TreeCode

import TreeCode.Code.Instr
import TreeCode.Member
import TreeCode.Store

/-!
# Compiled units

A unit is a list of instructions with the tables they name, and a table of
handlers for its protected regions. Through a `ClosureRecord` it sees what it
was compiled against and the variables it captures.

## Main definitions

* `Handler` — an entry of the table of protected regions.
* `Code` — a compiled unit; `Code.listing` writes it out.
* `ClosureRecord` — constants and captured cells that a unit is bound to.
-/

namespace TreeCode

/-- What a protected region does when control leaves it. -/
inductive HandlerKind where
  /-- Takes exceptions of a type: the exception goes to a slot. -/
  | catching (test : Ty) (slot target : Nat)
  /-- Entered on every exit; the block spans `target ..< stop`. -/
  | finally (target stop : Nat)
  /-- Entered when an exception escapes; the block spans `target ..< stop`. -/
  | fault (target stop : Nat)
  deriving DecidableEq

/-- An entry of the table of protected regions. Inner regions come before
outer ones; the entries of one region are in source order. -/
structure Handler where
  /-- The region spans `start ..< stop`. -/
  start : Nat
  stop : Nat
  /-- Height of the operand stack on entry; it is cut back to it before the
  handler runs. -/
  depth : Nat
  kind : HandlerKind
  deriving DecidableEq

namespace Handler

/-- Whether an instruction lies in the region. -/
def covers (h : Handler) (pointer : Nat) : Bool := h.start ≤ pointer && pointer < h.stop

/-- Where the handler starts. -/
def target (h : Handler) : Nat :=
  match h.kind with
  | .catching _ _ t => t
  | .finally t _ => t
  | .fault t _ => t

def isFinally (h : Handler) : Bool :=
  match h.kind with
  | .finally .. => true
  | _ => false

/-- Whether an instruction lies in the finally or fault block of the entry. -/
def blockHolds (h : Handler) (pointer : Nat) : Bool :=
  match h.kind with
  | .finally t e | .fault t e => t ≤ pointer && pointer < e
  | .catching .. => false

end Handler

/-- A compiled unit. -/
structure Code where
  name : Option String := none
  signature : Signature
  /-- Shapes checked on entry: one per parameter, after the record's when the
  unit is bound to one. -/
  shapes : List Shape := []
  literals : Array Value := #[]
  types : Array Ty := #[]
  methods : Array Method := #[]
  structs : Array StructDef := #[]
  instrs : Array Instr := #[]
  handlers : List Handler := []
  numParams : Nat := 0
  numLocals : Nat := 0
  maxStack : Nat := 0
  deriving Inhabited

namespace Code

/-- The positions that control reaches by a jump or through a handler, without
repetition and in increasing order. -/
def targets (c : Code) : Array Nat :=
  let all := c.instrs.toList.filterMap (·.target?) ++ c.handlers.map (·.target)
  (all.mergeSort (· ≤ ·)).eraseReps.toArray

/-- A number or text padded with blanks on the left. -/
def padLeft (width : Nat) (s : String) : String := "".pushn ' ' (width - s.length) ++ s

/-- Name of a position: its place among the targets. -/
def positionName (targets : Array Nat) (position : Nat) : String :=
  match targets.idxOf? position with
  | some i => "L" ++ toString i
  | none => "@" ++ toString position

/-- A line of the listing: position, label, instruction, and for jumps the
name of the target. -/
def instrLine (targets : Array Nat) (position : Nat) (i : Instr) : String :=
  let label := match targets.idxOf? position with
    | some n => "L" ++ toString n ++ ":"
    | none => ""
  let line :=
    "    " ++ padLeft 4 (toString position) ++ " " ++ padLeft 4 label ++ "  " ++ i.detailed
  match i.target? with
  | some t => line ++ " (to " ++ positionName targets t ++ ")"
  | none => line

/-- A line of the listing for an entry of the table of protected regions. -/
def handlerLine (targets : Array Nat) (h : Handler) : String :=
  let kind := match h.kind with
    | .catching test slot _ => "catch " ++ test.shown ++ " -> local " ++ toString slot
    | .finally .. => "finally"
    | .fault .. => "fault"
  s!"    [{h.start}, {h.stop}) depth {h.depth} {kind} at " ++ positionName targets h.target

/-- The lines of a unit's listing; `none` when a literal nests deeper than the
bound. -/
def listing (c : Code) (st : Store) (fuel : Nat) : Option (List String) := do
  let targets := c.targets
  let literals ← c.literals.toList.mapM (st.detailed fuel)
  let literalLines := literals.zipIdx.map fun (text, i) => "    [" ++ toString i ++ "] = " ++ text
  return ["Code \x7b"]
    ++ (c.name.toList.map fun n => "  name: " ++ n)
    ++ [s!"  num_locals: {c.numLocals}", s!"  max_stack_size: {c.maxStack}"]
    ++ (if literalLines.isEmpty then ["  literals: []"]
        else ["  literals: ["] ++ literalLines ++ ["  ]"])
    ++ ["  instructions:"]
    ++ (c.instrs.toList.zipIdx.map fun (i, position) => instrLine targets position i)
    ++ (if c.handlers.isEmpty then []
        else "  handlers:" :: c.handlers.map (handlerLine targets))
    ++ ["\x7d"]

end Code

/-- What a unit sees besides its parameters. -/
inductive ClosureRecord where
  | empty
  | constants (values : List Value)
  /-- Constants, and the cells of captured variables in the unit's order. -/
  | withVariables (values : List Value) (cells : List Nat)

namespace ClosureRecord

/-- A record of constants. -/
def ofConstants : List Value → ClosureRecord
  | [] => empty
  | values => constants values

def values : ClosureRecord → List Value
  | empty => []
  | constants vs => vs
  | withVariables vs _ => vs

def cells : ClosureRecord → List Nat
  | withVariables _ cs => cs
  | _ => []

def isEmpty : ClosureRecord → Bool
  | empty => true
  | _ => false

/-- The record as listings show it: the sizes of its parts. -/
def detailed : ClosureRecord → String
  | empty => "ClosureRecord::Empty"
  | constants vs => s!"ClosureRecord::Constants({vs.length})"
  | withVariables vs cs =>
    Text.record "ClosureRecord::WithVariables"
      [("constants", toString vs.length), ("variables", toString cs.length)]

end ClosureRecord

/-- A unit bound to a record, as listings show it. -/
def closureText (name : Option String) (record : ClosureRecord) : String :=
  Text.record "BytecodeClosure"
    [("name", Text.someOrNone (name.map Text.quoted)), ("record", record.detailed)]

end TreeCode

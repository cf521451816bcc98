import TreeCode.Operator.Basic
import TreeCode.Store

/-!
# Faults

Ways in which running a program fails. A thrown value is the only one that a
program can catch. A `Defect` is a malformed state that well-built programs
never reach; it names what was found where.

## Main definitions

* `Defect`, `Defect.message` — broken invariants and their wording.
* `Fault`, `Fault.message` — failures and their wording.
-/

namespace TreeCode

/-- Operations that complain about both operands. -/
inductive Operation where
  | bitwise | shift | arithmetic | comparison | concat
  deriving DecidableEq, Repr

def Operation.name : Operation → String
  | bitwise => "bitwise operation"
  | shift => "shift"
  | arithmetic => "arithmetic"
  | comparison => "comparison"
  | concat => "concat"

/-- A malformed state. -/
inductive Defect where
  | operands (op : Operation) (left right : Value)
  | negated (v : Value)
  | complemented (v : Value)
  | converted (v : Value) (k : NumKind)
  | fieldOf (v : Value)
  | fieldStoreOf (v : Value)
  | elementOf (v : Value)
  | indexBy (v : Value)
  | lengthOf (v : Value)
  | lengthBy (v : Value)
  | notBool (v : Value)
  | undefinedVariable (name : String)
  | noOpenScope
  | unaryOperator (op : UnaryOp)
  | steppedBy (op : UnaryOp) (v : Value)
  | binaryOperator (op : BinaryOp)
  | noOperator (op : BinaryOp) (t : Ty)
  | assignedTo (nodeKind : String)
  | indexArguments (count : Nat)
  | noSetter (what : String)
  | invoked (v : Value)
  | misfit (v : Value) (s : Shape)
  | pointerOutOfRange (pointer : Nat)
  | halted
  | nothingPending (pointer : Nat)
  | underflow
  | noConstant (index : Nat)
  | noVariable (index : Nat)
  | notBoxed (slot : Nat) (v : Value)
  | curried (v : Value)
  | curriedWith (v : Value)
  /-- Reported by a host body. -/
  | host (message : String)

/-- Wording of a defect; `none` when a value nests deeper than the bound. -/
def Defect.message (st : Store) (fuel : Nat) : Defect → Option String
  | operands op l r => do
    return op.name ++ " on " ++ (← st.detailed fuel l) ++ " and " ++ (← st.detailed fuel r)
  | negated v => do return "negate " ++ (← st.detailed fuel v)
  | complemented v => do return "not " ++ (← st.detailed fuel v)
  | converted v k => do return "convert " ++ (← st.detailed fuel v) ++ " to " ++ k.name
  | fieldOf v => do return "field access on " ++ (← st.detailed fuel v)
  | fieldStoreOf v => do return "field store on " ++ (← st.detailed fuel v)
  | elementOf v => do return "element access on " ++ (← st.detailed fuel v)
  | indexBy v => do return "array index " ++ (← st.detailed fuel v)
  | lengthOf v => do return "array length of " ++ (← st.detailed fuel v)
  | lengthBy v => do return "array length " ++ (← st.detailed fuel v)
  | notBool v => do return "expected bool, got " ++ (← st.detailed fuel v)
  | undefinedVariable name => some ("undefined variable '" ++ name ++ "'")
  | noOpenScope => some "Cannot pop from empty scope stack"
  | unaryOperator op => some ("unary " ++ op.tag)
  | steppedBy op v => do return op.tag ++ " of " ++ (← st.detailed fuel v)
  | binaryOperator op => some ("operator " ++ op.tag)
  | noOperator op t => some ("no operator " ++ op.tag ++ " for " ++ t.shown)
  | assignedTo k => some ("assignment to a " ++ k ++ " node")
  | indexArguments n => some ("array index with " ++ toString n ++ " arguments")
  | noSetter what => some (what ++ " has no setter")
  | invoked v => do return "invoke on " ++ (← st.detailed fuel v)
  | misfit v s => do
    return "argument " ++ (← st.detailed fuel v) ++ " does not fit parameter shape " ++ s.tag
  | pointerOutOfRange p => some ("instruction pointer " ++ toString p ++ " out of range")
  | halted => some "reached Halt"
  | nothingPending p => some ("EndFinally at " ++ toString p ++ " without pending block")
  | underflow => some "operand stack underflow"
  | noConstant i => some ("closure record has no constant " ++ toString i)
  | noVariable i => some ("closure record has no variable " ++ toString i)
  | notBoxed slot v => do
    return "local " ++ toString slot ++ " is not boxed: " ++ (← st.detailed fuel v)
  | curried v => do return "curry on " ++ (← st.detailed fuel v)
  | curriedWith v => do return "curry expects cells, got " ++ (← st.detailed fuel v)
  | host message => some message

/-- A failure of a run. -/
inductive Fault where
  /-- A value in flight: the only failure that a program can catch. -/
  | thrown (v : Value)
  /-- Evaluation nests deeper than its limit. -/
  | tooDeep (depth maxDepth : Nat)
  | wrongArguments (expected got : Nat)
  /-- A jump found nothing that holds its label. -/
  | lostJump (label : String)
  | defect (d : Defect)
  /-- An instruction names an entry that its table does not have, or a field
  lies outside its instance. -/
  | outOfTable
  /-- The run was cut off by the bound on its length. -/
  | outOfFuel

namespace Fault

/-- The thrown value of a failure that can be caught. -/
def thrown? : Fault → Option Value
  | thrown v => some v
  | _ => none

/-- Name of the class of a failure. -/
def tag : Fault → String
  | thrown _ => "Thrown"
  | tooDeep .. => "ResourceExceeded"
  | wrongArguments .. => "InvalidArguments"
  | lostJump _ => "InvalidJump"
  | defect _ => "Internal"
  | outOfTable => "OutOfTable"
  | outOfFuel => "OutOfFuel"

/-- Wording of a failure; `none` when a value nests deeper than the bound. -/
def message (st : Store) (fuel : Nat) : Fault → Option String
  | thrown v => do return "Unhandled exception: " ++ (← st.shown fuel v)
  | tooDeep d m =>
    some (s!"Evaluation stack overflow: depth {d} exceeds maximum of {m}")
  | wrongArguments e g => some (s!"Expected {e} argument(s), got {g}")
  | lostJump l => some ("Jump to label '" ++ l ++ "' has no reachable target")
  | defect d => do return "Internal error: " ++ (← d.message st fuel)
  | outOfTable => some "table index out of range"
  | outOfFuel => some "out of fuel"

end Fault

end TreeCode

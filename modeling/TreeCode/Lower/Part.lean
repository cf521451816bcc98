import TreeCode.Lower.Label

/-!
# Lowering: parts

Code for a node is put together from the code of its parts. A `Part` is a
node together with the ways in which its code can be used: for its value, as
a test that jumps, or as the target of an assignment.
-/

namespace TreeCode

mutual

/-- A node, and the code for it. -/
inductive Part where
  | mk (expr : Expr) (emit : Usage → LowerM Unit) (branch : LabelRef → Bool → Usage → LowerM Unit)
      (target : TargetPart)

/-- A node as the target of an assignment. -/
inductive TargetPart where
  | var (v : Var)
  | member (object : Part) (m : Member)
  | index (object : Part) (indexer : Option Indexer) (args : List Part)
  /-- Not assignable in compiled code. -/
  | other

end

namespace Part

def expr : Part → Expr
  | mk e _ _ _ => e

def ty (p : Part) : Ty := p.expr.ty

/-- Emits the node; its value is left on the stack unless the usage says that it
is ignored, or the type is void. -/
def emit : Part → Usage → LowerM Unit
  | mk _ f _ _ => f

/-- Emits a jump to a label, taken when the node's value is the given one. -/
def branch : Part → LabelRef → Bool → Usage → LowerM Unit
  | mk _ _ b _ => b

def target : Part → TargetPart
  | mk _ _ _ t => t

/-- A test without a special form: its value decides a conditional jump. -/
def branchOnValue (emit : Usage → LowerM Unit) (label : LabelRef) (when_ : Bool) (f : Usage) :
    LowerM Unit := do
  emit f.operand
  Lower.jumpTo (if when_ then .jumpIfTrue 0 else .jumpIfFalse 0) label

/-- A node that is neither a special test nor assignable. -/
def plain (e : Expr) (emit : Usage → LowerM Unit) : Part :=
  mk e emit (branchOnValue emit) .other

/-- An assignable node. -/
def assignable (e : Expr) (emit : Usage → LowerM Unit) (target : TargetPart) : Part :=
  mk e emit (branchOnValue emit) target

/-- Emits nodes from left to right, each leaving its value on the stack. -/
def pushAll : List Part → Usage → LowerM Unit
  | [], _ => pure ()
  | p :: ps, f => do
    p.emit f.operand
    pushAll ps f

end Part

end TreeCode

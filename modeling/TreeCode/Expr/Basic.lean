import TreeCode.Operator.Basic
import TreeCode.Value.Basic

/-!
# Expression trees

The trees that are run or compiled. Every node has a static type, either
written in it or determined by its parts (`Expr.ty`). Variables, labels and
lambdas have identity: two mentions denote the same one exactly when their
ids agree.

Trees are built with the checked constructors of `TreeCode.Expr.Build`.
-/

namespace TreeCode

/-- A variable: a lambda parameter, a block variable or a catch variable. -/
structure Var where
  id : Nat
  name : String
  ty : Ty
  deriving DecidableEq, Inhabited

/-- A label, with the type of the value that jumps to it carry. -/
structure Label where
  id : Nat
  name : Option String
  ty : Ty
  deriving DecidableEq, Inhabited

/-- Name of a label in messages. -/
def Label.shown (l : Label) : String := l.name.getD "<unnamed>"

/-- What a jump is meant for. -/
inductive JumpKind where
  | plain | ret | brk | cont
  deriving DecidableEq, Repr, Inhabited

mutual

/-- An expression. -/
inductive Expr where
  | constant (ty : Ty) (v : Value)
  | var (v : Var)
  | default (ty : Ty)
  /-- Throws the exception being handled once more. -/
  | rethrow (ty : Ty)
  | unary (ty : Ty) (op : UnaryOp) (operand : Expr) (method : Option Method)
  | binary (ty : Ty) (op : BinaryOp) (left right : Expr) (method : Option Method)
  | call (ty : Ty) (object : Option Expr) (method : Method) (args : List Expr)
  /-- A new instance, by a static factory method or from its leading fields. -/
  | new (d : StructDef) (factory : Option Method) (args : List Expr)
  | member (object : Expr) (m : Member)
  | index (ty : Ty) (object : Expr) (indexer : Option Indexer) (args : List Expr)
  | newArray (element : Ty) (items : List Expr)
  /-- An array of default elements of the given length. -/
  | newArrayBounds (element : Ty) (length : Expr)
  /-- A new instance from its leading fields, with members set afterwards. -/
  | memberInit (d : StructDef) (args : List Expr) (bindings : List Binding)
  | conditional (ty : Ty) (test ifTrue ifFalse : Expr)
  | block (ty : Ty) (vars : List Var) (body : List Expr)
  /-- An endless loop, left through its break label. -/
  | loop (body : Expr) (breakLabel continueLabel : Option Label)
  | protect (body : Expr) (handlers : List CatchClause) (cleanup : Cleanup)
  /-- The place of a label, with the value it has when control falls into it. -/
  | label (target : Label) (fallback : Option Expr)
  | goto (ty : Ty) (kind : JumpKind) (target : Label) (value : Option Expr)
  | switch (ty : Ty) (value : Expr) (cases : List SwitchCase) (fallback : Option Expr)
      (comparison : Option Method)
  | lambda (l : Lambda)
  | invoke (ty : Ty) (target : Expr) (args : List Expr)

/-- A member and the value it is set to. -/
inductive Binding where
  | mk (m : Member) (value : Expr)

/-- A handler of a protected region. -/
inductive CatchClause where
  | mk (test : Ty) (var : Option Var) (filter : Option Expr) (body : Expr)

/-- What runs when control leaves a protected region: nothing, a block that
runs on every exit, or one that runs only when an exception escapes. -/
inductive Cleanup where
  | none
  | finally (block : Expr)
  | fault (block : Expr)

/-- A case of a switch. -/
inductive SwitchCase where
  | mk (tests : List Expr) (body : Expr)

/-- A lambda. -/
inductive Lambda where
  | mk (id : Nat) (name : Option String) (params : List Var) (ret : Ty) (body : Expr)

end

instance : Inhabited Expr := ⟨.default .void⟩
instance : Inhabited CatchClause := ⟨.mk .void none none default⟩
instance : Inhabited Lambda := ⟨.mk 0 none [] .void default⟩

namespace Binding

def member : Binding → Member
  | mk m _ => m

def value : Binding → Expr
  | mk _ e => e

end Binding

namespace CatchClause

def test : CatchClause → Ty
  | mk t _ _ _ => t

def var : CatchClause → Option Var
  | mk _ v _ _ => v

def filter : CatchClause → Option Expr
  | mk _ _ f _ => f

def body : CatchClause → Expr
  | mk _ _ _ b => b

end CatchClause

namespace SwitchCase

def tests : SwitchCase → List Expr
  | mk ts _ => ts

def body : SwitchCase → Expr
  | mk _ b => b

end SwitchCase

namespace Lambda

def id : Lambda → Nat
  | mk i _ _ _ _ => i

def name : Lambda → Option String
  | mk _ n _ _ _ => n

def params : Lambda → List Var
  | mk _ _ ps _ _ => ps

def ret : Lambda → Ty
  | mk _ _ _ r _ => r

def body : Lambda → Expr
  | mk _ _ _ _ b => b

def signature (l : Lambda) : Signature := ⟨l.params.map (·.ty), l.ret⟩

/-- Name of a lambda in messages. -/
def shown (l : Lambda) : String := l.name.getD "<lambda>"

end Lambda

namespace Expr

/-- The static type of an expression. -/
def ty : Expr → Ty
  | constant t _ => t
  | var v => v.ty
  | default t => t
  | rethrow t => t
  | unary t _ _ _ => t
  | binary t _ _ _ _ => t
  | call t _ _ _ => t
  | new d _ _ => .struct d
  | member _ m => m.ty
  | index t _ _ _ => t
  | newArray e _ => .array e
  | newArrayBounds e _ => .array e
  | memberInit d _ _ => .struct d
  | conditional t _ _ _ => t
  | block t _ _ => t
  | loop _ b _ =>
    match b with
    | some l => l.ty
    | none => .void
  | protect b _ _ => ty b
  | label l _ => l.ty
  | goto t _ _ _ => t
  | switch t _ _ _ _ => t
  | lambda l => l.signature.ty
  | invoke t _ _ => t

/-- Name of the kind of a node. -/
def kindName : Expr → String
  | constant .. => "Constant"
  | var .. => "Parameter"
  | default .. => "Default"
  | rethrow .. => "Unary"
  | unary .. => "Unary"
  | binary .. => "Binary"
  | call .. => "Call"
  | new .. => "New"
  | member .. => "MemberAccess"
  | index .. => "Index"
  | newArray .. => "NewArray"
  | newArrayBounds .. => "NewArray"
  | memberInit .. => "MemberInit"
  | conditional .. => "Conditional"
  | block .. => "Block"
  | loop .. => "Loop"
  | protect .. => "Try"
  | label .. => "Label"
  | goto .. => "Goto"
  | switch .. => "Switch"
  | lambda .. => "Lambda"
  | invoke .. => "Invoke"

/-- Whether the node is the place of the given label. -/
def isLabelOf (e : Expr) (l : Label) : Bool :=
  match e with
  | label t _ => t.id == l.id
  | _ => false

/-- The truth value of a constant node. -/
def constantBool? : Expr → Option Bool
  | constant _ (.bool b) => some b
  | _ => none

end Expr

end TreeCode

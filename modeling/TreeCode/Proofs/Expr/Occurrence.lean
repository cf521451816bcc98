import TreeCode.Compile.Plan
import TreeCode.Proofs.Expr.Mention

/-!
# Occurrences whose value is used

A closure record holds constants with identity and compiled lambdas. They are pushed where
they occur in a tree, unless what stands around the occurrence has no use for its value: a
statement that another one follows, the body of a loop, a cleanup block, a static property
of an instance. `Expr.pushed` goes through a tree in the order in which code is emitted for
it and lists the occurrences whose value is used. Those in the body of a nested lambda are
the lambda's own.

Main definitions:

* `Occurrence` — a constant with identity, or a lambda, where it occurs.
* `Use` — what is done with the value of a node.
* `Expr.pushed`, `Lambda.pushed` — the occurrences whose value is used.
-/

namespace TreeCode

/-- An occurrence of something that closure records hold. -/
inductive Occurrence where
  /-- A constant, which has identity. -/
  | constant (v : Value)
  | lambda (l : Lambda)

/-- What is done with the value of a node: nothing, or it is taken from the stack, or it
decides a jump. -/
inductive Use where
  | ignored
  | taken
  | tested
  deriving DecidableEq, Repr

namespace Use

/-- The use of a node that gives the value of its parent, of type `t`. -/
def result (u : Use) (t : Ty) : Use := if u = .ignored ∨ t.isVoid then .ignored else .taken

/-- The use of the value that jumps to a label carry. -/
def carried (l : Label) : Use := if l.ty.isVoid then .ignored else .taken

/-- The use of the operand of a unary operator of type `t`. A negated test is a test. -/
def operand (u : Use) (t : Ty) (op : UnaryOp) (method : Option Method) : Use :=
  match op, method with
  | .unaryPlus, none => if u = .ignored then .ignored else .taken
  | .not, none => if t = .bool ∧ u = .tested then .tested else .taken
  | _, _ => .taken

/-- The use of the value of a protected region and of its handlers. It is kept in a slot if it
is used, and where a jump may return from the region. -/
def guarded (u : Use) (t : Ty) (hasReturn : Bool) : Use :=
  if !t.isVoid && (u != .ignored || hasReturn) then .taken else .ignored

/-- The use of the receiver of a member. -/
def receiver : Member → Use
  | .property _ p => if p.getter.isStatic then .ignored else .taken
  | .field .. => .taken

end Use

mutual

/-- The constants with identity and the lambdas in a tree whose values are used, in the order
in which code is emitted. -/
def Expr.pushed : Expr → Use → List Occurrence
  | .constant _ v, u => if u = .ignored ∨ v.identity? = none then [] else [.constant v]
  | .lambda l, u => if u = .ignored then [] else [.lambda l]
  | .var _, _ | .default _, _ | .rethrow _, _ => []
  | .unary t op e method, u => e.pushed (u.operand t op method)
  | .binary _ op l r _, u =>
    match op with
    | .assign => l.pushedPlace ++ r.pushed .taken
    | .andAlso | .orElse =>
      if u = .ignored then l.pushed .tested ++ r.pushed .ignored
      else
        -- A constant on the left decides whether the right operand is emitted.
        match l.constantBool? with
        | some b => if b == (op == .andAlso) then r.pushed u else []
        | none => l.pushed u ++ r.pushed u
    | _ =>
      if op.base?.isSome then l.pushedPlace ++ r.pushed .taken
      else l.pushed .taken ++ r.pushed .taken
  | .call _ o _ args, _ => Expr.pushedOption o .taken ++ Expr.pushedAll args
  | .new _ _ args, _ => Expr.pushedAll args
  | .member o m, _ => o.pushed (.receiver m)
  | .index _ o _ args, _ => o.pushed .taken ++ Expr.pushedAll args
  | .newArray _ items, _ => Expr.pushedAll items
  | .newArrayBounds _ n, _ => n.pushed .taken
  | .memberInit _ args bs, _ => Expr.pushedAll args ++ Expr.pushedBindings bs
  | .conditional t test a b, u =>
    test.pushed .tested ++ (a.pushed (u.result t) ++ b.pushed (u.result t))
  | .block t _ es, u => Expr.pushedInOrder es (u.result t)
  | .loop b _ _, _ => b.pushed .ignored
  | .protect b hs c, u =>
    let kept := u.guarded b.ty (b.hasReturn || CatchClause.anyReturn hs || c.hasReturn)
    b.pushed kept ++ (Expr.pushedHandlers hs kept ++ Expr.pushedCleanup c)
  | .label l e, _ => Expr.pushedOption e (.carried l)
  | .goto _ _ l e, _ => Expr.pushedOption e (.carried l)
  | .switch t v cs e _, u =>
    v.pushed .taken ++ (Expr.pushedTests cs ++
      (Expr.pushedOption e (u.result t) ++ Expr.pushedBodies cs (u.result t)))
  | .invoke _ t args, _ => t.pushed .taken ++ Expr.pushedAll args

/-- Those in the target of an assignment. -/
def Expr.pushedPlace : Expr → List Occurrence
  | .member o _ => o.pushed .taken
  | .index _ o _ args => o.pushed .taken ++ Expr.pushedAll args
  | _ => []

def Expr.pushedOption : Option Expr → Use → List Occurrence
  | none, _ => []
  | some e, u => e.pushed u

/-- Those in nodes whose values are all taken. -/
def Expr.pushedAll : List Expr → List Occurrence
  | [] => []
  | e :: es => e.pushed .taken ++ Expr.pushedAll es

/-- Those in statements, of which the last one has a use of its own. -/
def Expr.pushedInOrder : List Expr → Use → List Occurrence
  | [], _ => []
  | [e], u => e.pushed u
  | e :: e' :: es, u => e.pushed .ignored ++ Expr.pushedInOrder (e' :: es) u

def Expr.pushedBindings : List Binding → List Occurrence
  | [] => []
  | .mk _ e :: bs => e.pushed .taken ++ Expr.pushedBindings bs

def Expr.pushedHandlers : List CatchClause → Use → List Occurrence
  | [], _ => []
  | .mk _ _ _ body :: hs, u => body.pushed u ++ Expr.pushedHandlers hs u

def Expr.pushedCleanup : Cleanup → List Occurrence
  | .none => []
  | .finally e => e.pushed .ignored
  | .fault e => e.pushed .ignored

/-- Those in the tests of all cases. -/
def Expr.pushedTests : List SwitchCase → List Occurrence
  | [] => []
  | .mk tests _ :: cs => Expr.pushedAll tests ++ Expr.pushedTests cs

/-- Those in the bodies of all cases. -/
def Expr.pushedBodies : List SwitchCase → Use → List Occurrence
  | [], _ => []
  | .mk _ body :: cs, u => body.pushed u ++ Expr.pushedBodies cs u

end

/-- The occurrences in the body of a lambda whose value is used. -/
def Lambda.pushed (l : Lambda) : List Occurrence :=
  l.body.pushed (if l.ret.isVoid then .ignored else .taken)

end TreeCode

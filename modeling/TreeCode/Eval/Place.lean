import TreeCode.Eval.Operator

/-!
# Direct evaluation: places

A place is a location that can be read and assigned: a variable, a member, an
array element, or an access through an indexer. A value struct held in a
variable is changed in place, in any other position a copy is changed.

## Main definitions

* `Receiver`, `Place` — evaluated receivers and places.
* `Walk.callAt` — calls an instance method on a receiver.
* `Walk.placeOf`, `Walk.read`, `Walk.write`.
-/

namespace TreeCode

/-- Where a receiver lives. -/
inductive Receiver where
  /-- In a variable, which is updated. -/
  | cell (ref : Nat)
  /-- In a temporary copy. -/
  | copy (v : Value)

/-- An assignable location. -/
inductive Place where
  | cell (ref : Nat)
  | member (r : Receiver) (m : Member)
  | element (a index : Value)
  | indexed (r : Receiver) (ix : Indexer) (args : List Value)

namespace Receiver

/-- The value of a receiver. -/
def read : Receiver → RunM Value
  | cell ref => RunM.readCell ref
  | copy v => pure v

/-- Keeps what a method left in a receiver. -/
def save : Receiver → Value → World → World
  | cell ref, v, w => { w with store := w.store.setCell ref v }
  | copy _, _, w => w

end Receiver

namespace Walk

/-- Calls an instance method on a receiver. A receiver held in a variable is
updated with what the method leaves in it. -/
def callAt (c : Walk) (r : Receiver) (m : Method) (args : List Value) (isVirtual : Bool) :
    RunM Value := do
  if m.isStatic then return ← c.callStatic m args
  let v ← r.read
  if v.isNull then RunM.raise .nullReference
  fun w =>
    match c.host.callOn c.call c.fuel (c.host.resolve isVirtual m v) v args w with
    | (⟨.ok result, left⟩, w) => .ok result (r.save (left.getD v) w)
    | (⟨.error f, left⟩, w) => .error f (r.save (left.getD v) w)

/-- Evaluates a receiver; a variable that holds a value struct is used in
place when `byAddress` is set. -/
def receiverOf (c : Walk) (object : Expr) (byAddress : Bool) : EvalM Receiver :=
  match object with
  | .var v =>
    if byAddress && v.ty.isValueStruct then do return .cell (← EvalM.cellOf v)
    else do return .copy (← c.valueOf object)
  | _ => do return .copy (← c.valueOf object)

/-- Evaluates the parts of a subscript. `store` tells whether the place is
written, which decides the accessor whose need of an address counts. -/
def subscriptOf (c : Walk) (object : Expr) (indexer : Option Indexer) (args : List Expr)
    (store : Bool) : EvalM Place :=
  match indexer with
  | none => do
    let a ← c.valueOf object
    match args with
    | [i] => return .element a (← c.valueOf i)
    | _ => EvalM.defect (.indexArguments args.length)
  | some ix => do
    let accessor := if store then ix.setter.getD ix.getter else ix.getter
    let r ← c.receiverOf object accessor.mutatesReceiver
    return .indexed r ix (← c.valuesOf args)

/-- Evaluates the parts of an assignable expression. -/
def placeOf (c : Walk) (target : Expr) : EvalM Place :=
  match target with
  | .var v => do return .cell (← EvalM.cellOf v)
  | .member object m => do return .member (← c.receiverOf object true) m
  | .index _ object indexer args => c.subscriptOf object indexer args true
  | _ => EvalM.defect (.assignedTo target.kindName)

/-- Reads a place. -/
def read (c : Walk) : Place → RunM Value
  | .cell ref => RunM.readCell ref
  | .member r (.field _ i _ _) => do RunM.field (← r.read) i
  | .member r (.property _ p) => c.callAt r p.getter [] false
  | .element a i => RunM.element a i
  | .indexed r ix args => c.callAt r ix.getter args false

/-- Stores to a field of a receiver; a copy is changed and dropped. -/
def writeField (r : Receiver) (i : Nat) (x : Value) : RunM Unit := do
  let v ← RunM.setField (← r.read) i x
  modify (r.save v)

/-- Writes a place. -/
def write (c : Walk) (p : Place) (x : Value) : RunM Unit :=
  match p with
  | .cell ref => RunM.writeCell ref x
  | .member r (.field _ i _ _) => writeField r i x
  | .member r (.property _ p) =>
    match p.setter with
    | some setter => discard (c.callAt r setter [x] false)
    | none => RunM.defect (.noSetter p.name)
  | .element a i => RunM.setElement a i x
  | .indexed r ix args =>
    match ix.setter with
    | some setter => discard (c.callAt r setter (args ++ [x]) false)
    | none => RunM.defect (.noSetter "indexer")

/-- Adds one to a place or subtracts one; null stays null. Gives the value
before or after, as the operator says. -/
def stepAssign (c : Walk) (op : UnaryOp) (target : Expr) : EvalM Value := do
  let place ← c.placeOf target
  let old ← c.read place
  let new ← if old.isNull then pure .null else EvalM.ofRun (RunM.ofOp (Operator.step op old))
  c.write place new
  return if op.isPost then old else new

/-- Assigns to a place. -/
def assign (c : Walk) (left right : Expr) : EvalM Value := do
  let place ← c.placeOf left
  let v ← c.valueOf right
  c.write place v
  return v

/-- Applies an operator to a place and a value, and assigns the result. -/
def assignApplied (c : Walk) (base : BinaryOp) (left right : Expr)
    (method : Option Method) : EvalM Value := do
  let place ← c.placeOf left
  let current ← c.read place
  let operand ← c.valueOf right
  let (result, ty) ← c.combine base left.ty current right.ty operand method
  let result ← c.cast result ty left.ty
  c.write place result
  return result

/-- Sets the members of a new instance, which is held in a temporary variable
so that a value struct is changed in place. -/
def setMembers (c : Walk) (ref : Nat) : List Binding → EvalM Unit
  | [] => return ()
  | .mk m e :: rest => do
    let v ← c.valueOf e
    c.write (.member (.cell ref) m) v
    c.setMembers ref rest

end Walk

end TreeCode

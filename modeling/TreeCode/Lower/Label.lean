import TreeCode.Lower.State

/-!
# Lowering: variables and labels

Where a variable lives from the point of view of the unit, and the labels of
the code under construction. A jump to a label that is not placed yet is
patched when it is. Every arrival at a label must find the operand stack at
one height, and no jump may enter or leave a cleanup block.
-/

namespace TreeCode

/-- Where a variable lives. -/
inductive Home where
  | slot (index : Nat)
  /-- A slot that holds a cell. -/
  | boxed (index : Nat)
  /-- A cell of the closure record. -/
  | captured (index : Nat)
  deriving DecidableEq, Repr

namespace Lower

/-! ## Variables -/

def newSlot : LowerM Nat := do
  let slot := (← get).numLocals
  if localLimit ≤ slot then error (.tooManyLocals localLimit)
  modify fun s => { s with numLocals := s.numLocals + 1 }
  return slot

/-- Finds where a variable lives. -/
def homeOf (v : Var) : LowerM Home := do
  let plan := (← read).plan
  match (← get).slots.get? v.id with
  | some slot => return if plan.isBoxed v.id then .boxed slot else .slot slot
  | none =>
    match plan.capturePlace? v.id with
    | some index => return .captured index
    | none => error (.undefinedVariable v.name)

/-- Brings a variable into scope in a new slot. Gives the slot, and the one
that is hidden by it. -/
def bringIn (v : Var) : LowerM (Nat × Option Nat) := do
  let slot ← newSlot
  let hidden := (← get).slots.get? v.id
  modify fun s => { s with slots := s.slots.insert v.id slot }
  return (slot, hidden)

/-- Takes a variable out of scope. -/
def takeOut (v : Var) (hidden : Option Nat) : LowerM Unit :=
  modify fun s => { s with slots := s.slots.restore v.id hidden }

/-- Stores the top of the stack in a new variable, in a cell if it is
captured. -/
def initialise (v : Var) (slot : Nat) : LowerM Unit := do
  emit (if (← read).plan.isBoxed v.id then .newCell slot else .storeLocal slot)

def load (v : Home) (address : Bool) : LowerM Unit :=
  emit <| match v, address with
    | .slot i, false => .loadLocal i
    | .slot i, true => .loadLocalAddress i
    | .boxed i, false => .loadCell i
    | .boxed i, true => .loadCellAddress i
    | .captured i, false => .loadCaptured i
    | .captured i, true => .loadCapturedAddress i

def store (v : Home) : LowerM Unit :=
  emit <| match v with
    | .slot i => .storeLocal i
    | .boxed i => .storeCell i
    | .captured i => .storeCaptured i

/-- Pushes a variable, or its address if it holds a value struct and the parent
asks for it. -/
def pushVar (v : Var) (f : Usage) : LowerM Unit := do
  let ref ← homeOf v
  if f.discarded then return ()
  load ref (f.byAddress && v.ty.isValueStruct)

/-- Instructions that push the cells of variables. -/
def cellLoads : List Var → LowerM (List Instr)
  | [] => return []
  | v :: vs => do
    let i ← match ← homeOf v with
      | .boxed slot => pure (.loadLocal slot)
      | .captured index => pure (.loadCapturedCell index)
      | .slot _ => error (.unboxedCapture v.name)
    return i :: (← cellLoads vs)

/-! ## Labels -/

/-- What is known of a label. -/
def labelAt (id : LabelRef) : LowerM DraftLabel := do
  return (← get).labels[id]?.getD {}

def modifyLabel (id : LabelRef) (f : DraftLabel → DraftLabel) : LowerM Unit :=
  modify fun s => { s with labels := s.labels.modify id f }

/-- Adds a label to the table. -/
def addLabel (l : DraftLabel) : LowerM LabelRef := do
  let id := (← get).labels.size
  modify fun s => { s with labels := s.labels.push l }
  return id

def freshLabel : LowerM LabelRef := addLabel {}

/-- The label of the code for a label of the program, made on first use. -/
def programLabel (l : Label) : LowerM LabelRef := do
  let env ← read
  if env.supplied.isSome then error .labelsWithSuppliedClosure
  if !env.plan.labels.contains l.id then error (.labelNotRegistered l.shown)
  match (← get).programLabels.lookup l.id with
  | some id => return id
  | none =>
    let valueSlot ← if l.ty.isVoid then pure none else some <$> newSlot
    let id ← addLabel { name := some l.shown, valueSlot }
    modify fun s => { s with programLabels := (l.id, id) :: s.programLabels }
    return id

/-- Requires the operand stack at the height of the label; the first arrival
sets it. -/
def agreeOnHeight (id : LabelRef) : LowerM Unit := do
  let l ← labelAt id
  let depth := (← get).depth
  match l.depth with
  | some expected => if expected != depth then unsupported (.unbalancedJump l.shown)
  | none => modifyLabel id fun l => { l with depth := some depth }

/-- The cleanup block around the node. -/
def cleanupHere : LowerM (Option Nat) := do return (← get).cleanups.head?

/-- Emits a jump to a label. -/
def jumpTo (i : Instr) (id : LabelRef) : LowerM Unit := do
  let cleanup ← cleanupHere
  let at_ ← position
  let l ← labelAt id
  if l.position.isSome && l.cleanup != some cleanup then
    unsupported (.jumpOutOfFinally l.shown)
  emit (i.withTarget (l.position.getD 0))
  agreeOnHeight id
  if l.position.isNone then
    modifyLabel id fun l => { l with fixups := l.fixups ++ [(at_, cleanup)] }

/-- Directs waiting jumps to a position; all must stand in the same cleanup
block as the label. -/
def patch (shown : String) (cleanup : Option Nat) (target : Nat) :
    List (Nat × Option Nat) → LowerM Unit
  | [] => pure ()
  | (at_, c) :: rest => do
    if c != cleanup then unsupported (.jumpOutOfFinally shown)
    modify fun s => { s with instrs := s.instrs.modify at_ (·.withTarget target) }
    patch shown cleanup target rest

/-- Sets the height of the operand stack at a label about to be placed. In code
that is reached from above the heights must agree; otherwise the label's
height is taken over. -/
def arrive (id : LabelRef) (l : DraftLabel) : LowerM Unit := do
  if (← get).reachable then agreeOnHeight id
  else
    match l.depth with
    | some depth => modify fun s => { s with depth }
    | none =>
      let depth := (← get).depth
      modifyLabel id fun l => { l with depth := some depth }

/-- Places a label at the current position. A label that is placed already stays
where it is. -/
def placeLabel (id : LabelRef) : LowerM Unit := do
  let l ← labelAt id
  if l.position.isSome then return ()
  arrive id l
  modify fun s => { s with reachable := true }
  let target ← position
  let cleanup ← cleanupHere
  patch l.shown cleanup target l.fixups
  modifyLabel id fun l =>
    { l with position := some target, cleanup := some cleanup, fixups := [] }

end Lower

end TreeCode

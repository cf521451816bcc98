import TreeCode.Lower.Operator

/-!
# Lowering: calls, members and assignment

A value struct in a variable is passed by its address when it is changed in
place; in any other position a copy is. An assignment whose value is used
keeps it in a slot.
-/

namespace TreeCode.Lower

/-- Usage of the receiver of a call: by address for a method that changes a
value struct. -/
def receiverUse (m : Method) (receiver : Ty) (f : Usage) : Usage :=
  if m.mutatesReceiver && receiver.isValueStruct then { f.operand with byAddress := true }
  else f.operand

/-- Emits a call of a method. -/
def methodCall (object : Option Part) (m : Method) (args : List Part) (f : Usage) :
    LowerM Unit := do
  match object with
  | some o => o.emit (receiverUse m o.ty f)
  | none => pure ()
  Part.pushAll args f
  callMethod m (match object with
    | some o => m.isVirtual && o.ty.isReference
    | none => false)
  dropWhen (f.discarded && !m.ret.isVoid)

/-- Emits the making of an instance. The operand of the instruction has sixteen
bits. -/
def newInstance (d : StructDef) (factory : Option Method) (args : List Part) (f : Usage) :
    LowerM Unit := do
  Part.pushAll args f
  match factory with
  | some m => callMethod m false
  | none => do
    let index ← structEntry d
    emit (.newStruct index (args.length % 65536))

/-- Emits a call of a setter, which takes its receiver and arguments from the
stack. -/
def callSetter (setter : Method) : LowerM Unit := do
  callMethod setter false
  dropWhen (!setter.ret.isVoid)

/-- The setter of a property. -/
def setterOf (p : Property) : LowerM Method :=
  match p.setter with
  | some m => pure m
  | none => unsupported (.assignTarget "read-only property")

/-- Emits a value and its store to a member of the receiver on the stack. -/
def storeMember (m : Member) (value : Part) (f : Usage) : LowerM Unit := do
  match m with
  | .field _ index _ _ =>
    value.emit f.operand
    emit (.storeField index)
  | .property _ p =>
    let setter ← setterOf p
    value.emit f.operand
    callSetter setter

/-- Emits the setting of members of an instance; `load` pushes it. -/
def setMembers (load : LowerM Unit) (f : Usage) : List (Member × Part) → LowerM Unit
  | [] => pure ()
  | (m, value) :: rest => do
    load
    storeMember m value f
    setMembers load f rest

/-- Emits the making of an instance whose members are set afterwards. -/
def initialised (d : StructDef) (args : List Part) (bindings : List (Member × Part))
    (f : Usage) : LowerM Unit := do
  newInstance d none args f
  match d.kind with
  | .reference =>
    setMembers (emit .dup) f bindings
    dropWhen f.discarded
  | .value =>
    let slot ← newSlot
    emit (.storeLocal slot)
    setMembers (emit (.loadLocalAddress slot)) f bindings
    if !f.discarded then emit (.loadLocal slot)

/-- Emits access to a member. -/
def readMember (object : Part) (m : Member) (f : Usage) : LowerM Unit := do
  match m with
  | .field _ index _ _ =>
    object.emit { f.operand with byAddress := true }
    emit (.loadField index)
  | .property _ p =>
    object.emit (if p.getter.isStatic then f.effect else receiverUse p.getter object.ty f)
    callMethod p.getter false
  dropWhen f.discarded

/-- Emits an assignment to a member. -/
def assignMember (object : Part) (m : Member) (value : Part) (f : Usage) : LowerM Unit := do
  object.emit { f.operand with byAddress := true }
  if f.discarded then return ← storeMember m value f
  let result ← newSlot
  match m with
  | .field _ index _ _ =>
    value.emit f.operand
    emit .dup
    emit (.storeLocal result)
    emit (.storeField index)
  | .property _ p =>
    let setter ← setterOf p
    value.emit f.operand
    emit .dup
    emit (.storeLocal result)
    callSetter setter
  emit (.loadLocal result)

/-- Emits an access through a subscript. -/
def subscript (object : Part) (indexer : Option Indexer) (args : List Part) (f : Usage) :
    LowerM Unit := do
  match indexer with
  | none =>
    object.emit f.operand
    Part.pushAll args f
    emit .loadElement
  | some ix =>
    object.emit (receiverUse ix.getter object.ty f)
    Part.pushAll args f
    callMethod ix.getter false
  dropWhen f.discarded

/-- The setter of an indexer; none for an array. -/
def subscriptSetter : Option Indexer → LowerM (Option Method)
  | none => return none
  | some ix =>
    match ix.setter with
    | some m => return some m
    | none => unsupported (.assignTarget "read-only indexer")

/-- Emits an assignment through a subscript. -/
def assignSubscript (object : Part) (indexer : Option Indexer) (args : List Part) (value : Part)
    (f : Usage) : LowerM Unit := do
  let setter ← subscriptSetter indexer
  object.emit (match setter with
    | some m => receiverUse m object.ty f
    | none => f.operand)
  Part.pushAll args f
  value.emit f.operand
  let result ←
    if f.discarded then pure none
    else do
      let slot ← newSlot
      emit .dup
      emit (.storeLocal slot)
      pure (some slot)
  match setter with
  | none => emit .storeElement
  | some m => callSetter m
  match result with
  | some slot => emit (.loadLocal slot)
  | none => pure ()

/-- Emits the making of an array from its items. -/
def arrayOf (items : List Part) (f : Usage) : LowerM Unit := do
  Part.pushAll items f
  emit (.newArray items.length)
  dropWhen f.discarded

/-- Emits the making of an array of default elements. -/
def arrayOfLength (element : Ty) (length : Part) (f : Usage) : LowerM Unit := do
  length.emit f.operand
  let index ← literal element.default
  emit (.newArrayBounds index)
  dropWhen f.discarded

/-- Emits a call of a function value, which always leaves a result. -/
def invocation (t : Ty) (target : Part) (args : List Part) (f : Usage) : LowerM Unit := do
  target.emit f.operand
  Part.pushAll args f
  emit (.invoke args.length)
  dropWhen (f.discarded || t.isVoid)

/-! ## Assignment -/

/-- Emits an assignment. -/
def assign (left right : Part) (f : Usage) : LowerM Unit := do
  match left.target with
  | .var v =>
    let ref ← homeOf v
    right.emit f.operand
    if !f.discarded then emit .dup
    store ref
  | .member object m => assignMember object m right f
  | .index object indexer args => assignSubscript object indexer args right f
  | .other => unsupported (.assignTarget left.expr.kindName)

/-- Emits the application of an operator to the value on the stack and its
conversion back to the type of the target. -/
def applyAndConvert (base : BinaryOp) (leftTy : Ty) (right : Part) (method : Option Method)
    (f : Usage) : LowerM Unit := do
  let result ← withRight base leftTy right method f.operand
  conversion result leftTy

/-- Emits an assignment that applies an operator first. -/
def assignApplied (base : BinaryOp) (left right : Part) (method : Option Method)
    (f : Usage) : LowerM Unit := do
  match left.target with
  | .var v =>
    let ref ← homeOf v
    load ref false
    applyAndConvert base left.ty right method f
    if !f.discarded then emit .dup
    store ref
  | .member object (.field _ index _ _) =>
    object.emit { f.operand with byAddress := true }
    let receiver ← newSlot
    emit (.storeLocal receiver)
    emit (.loadLocal receiver)
    emit (.loadLocal receiver)
    emit (.loadField index)
    applyAndConvert base left.ty right method f
    if f.discarded then emit (.storeField index)
    else
      let value ← newSlot
      emit .dup
      emit (.storeLocal value)
      emit (.storeField index)
      emit (.loadLocal value)
  | _ => unsupported (.assignTarget left.expr.kindName)

/-- Emits a binary operator of type `t`. -/
def binary (t : Ty) (op : BinaryOp) (left right : Part) (method : Option Method) (f : Usage) :
    LowerM Unit := do
  match op with
  | .assign => assign left right f
  | .andAlso => shortCircuit true left right f
  | .orElse => shortCircuit false left right f
  | .coalesce => coalesce t left right f
  | _ =>
    match op.base? with
    | some base => assignApplied base left right method f
    | none =>
      left.emit f.operand
      let _ ← withRight op left.ty right method f.operand
      dropWhen f.discarded

end TreeCode.Lower

import TreeCode.Machine.State

/-!
# The stack machine: instructions

The effect of each instruction (`Machine.exec`), and what happens when one
fails: the table of protected regions is searched for the innermost handler
that takes the exception (`Machine.dispatch`).
-/

namespace TreeCode.Machine

open MachineM

/-- Leaves protected regions from `origin` towards `target`; the innermost
finally block crossed on the way is entered first. -/
def leave (m : Machine) (origin target : Nat) : MachineM Unit :=
  let crossed := m.code.handlers.findIdx? fun h =>
    h.isFinally && h.covers origin && !h.covers target
  match crossed.bind fun i => m.code.handlers[i]?.map ((i, ·)) with
  | some (i, h) => modify fun s =>
    { cutBack h.depth s with
      pointer := h.target
      pending := ⟨i, .leave target⟩ :: s.pending }
  | none => continueAt target

/-- Ends a finally or fault block. -/
def endFinally (m : Machine) : MachineM Unit := do
  let s ← get
  let origin := s.pointer - 1
  match s.pending with
  | [] => defect (.nothingPending origin)
  | frame :: pending =>
    set { s with pending }
    match frame.after with
    | .leave target => m.leave origin target
    | .rethrow f => throw f

/-- Whether an entry of the table takes an exception raised at `origin`. -/
def takes (origin : Nat) (v : Value) (h : Handler) : Bool :=
  h.covers origin &&
    match h.kind with
    | .catching test _ _ => v.isA test
    | .finally .. | .fault .. => true

/-- Whether an exception raised at `origin` and handled at `target` escapes
from a block being run. -/
def escapes (m : Machine) (origin target : Nat) (frame : Pending) : Bool :=
  match m.code.handlers[frame.handler]? with
  | some h => h.blockHolds origin && !h.blockHolds target
  | none => false

/-- Moves control to the handler of a failure at `origin`. Failures that are not
exceptions, and exceptions that no handler takes, are passed on. -/
def dispatch (m : Machine) (f : Fault) (origin : Nat) : MachineM Unit :=
  match f.thrown? with
  | none => throw f
  | some v =>
    let found := m.code.handlers.findIdx? (takes origin v)
    match found.bind fun i => m.code.handlers[i]?.map ((i, ·)) with
    | none => throw f
    | some (i, h) => do
      modify fun s =>
        { cutBack h.depth s with
          pending := s.pending.filter fun frame => !m.escapes origin h.target frame }
      match h.kind with
      | .catching _ slot _ => writeSlot slot v
      | .finally .. | .fault .. =>
        modify fun s => { s with pending := ⟨i, .rethrow f⟩ :: s.pending }
      continueAt h.target

/-- Calls a method on a receiver; `save` keeps what it leaves there. -/
def callAt (m : Machine) (method : Method) (receiver : Value) (args : List Value)
    (save : Value → MachineState → MachineState) : MachineM Value := fun s =>
  let { world, pointer, stack, locals, pending } := s
  match m.host.callOn m.call m.fuel method receiver args world with
  | (⟨.ok v, left⟩, world) =>
    .ok v (save (left.getD receiver) { world, pointer, stack, locals, pending })
  | (⟨.error f, left⟩, world) =>
    .error f (save (left.getD receiver) { world, pointer, stack, locals, pending })

/-- Calls an instance method. A receiver given by its address is updated in
place, also when the method fails. -/
def callReceiver (m : Machine) (method : Method) (receiver : Value) (args : List Value) :
    MachineM Value :=
  match receiver with
  | .null => raise .nullReference
  | .address (.slot slot) => do
    let v ← readSlot slot
    m.callAt method v args fun v s => { s with locals := s.locals.setIfInBounds slot v }
  | .address (.cell ref) => do
    let v ← RunM.readCell ref
    m.callAt method v args fun v s =>
      { s with world := { s.world with store := s.world.store.setCell ref v } }
  | _ => m.callAt method receiver args fun _ s => s

/-- Calls an entry of the method table. -/
def callEntry (m : Machine) (index : Nat) (isVirtual : Bool) : MachineM Unit := do
  let method ← entry m.code.methods[index]?
  let args ← popMany method.arity
  let result ←
    if method.isStatic then ofRun (m.host.callStatic m.call m.fuel method args)
    else do
      let receiver ← pop
      m.callReceiver (m.host.resolve isVirtual method receiver) receiver args
  if !method.ret.isVoid then push result

/-- Calls a function value. -/
def invoke (m : Machine) (count : Nat) : MachineM Unit := do
  let args ← popMany count
  match ← pop with
  | .function ref _ => push (← ofRun (m.call ref args))
  | .null => raise .nullReference
  | other => defect (.invoked other)

/-- The references of a list of cells. -/
def cellRefs : List Value → MachineM (List Nat)
  | [] => return []
  | .cell ref :: rest => do return ref :: (← cellRefs rest)
  | v :: _ => defect (.curriedWith v)

/-- Binds an open unit to cells. -/
def curry (count : Nat) : MachineM Unit := do
  let cells ← popMany count
  match ← pop with
  | .openUnit ref _ =>
    let cells ← cellRefs cells
    let unit ← entry (← get).world.units[ref]?
    push (← ofRun (RunM.newFunction
      (.compiled unit.code (.withVariables unit.constants cells))))
  | other => defect (.curried other)

/-- The value at an address; other values stand for themselves. -/
def follow : Value → MachineM Value
  | .address (.slot slot) => readSlot slot
  | .address (.cell ref) => RunM.readCell ref
  | v => pure v

/-- Stores to a field. A value struct given by its address is changed in place;
a copy is changed and dropped. -/
def storeInField (index : Nat) (receiver value : Value) : MachineM Unit :=
  match receiver with
  | .address (.slot slot) => do
    let v ← RunM.setField (← readSlot slot) index value
    writeSlot slot v
  | .address (.cell ref) => do
    let v ← RunM.setField (← RunM.readCell ref) index value
    RunM.writeCell ref v
  | v => do
    let _ ← RunM.setField v index value

/-- Checks a reference against a type. -/
def checkCast (m : Machine) (index : Nat) : MachineM Unit := do
  let ty ← entry m.code.types[index]?
  let v ← peek
  if !v.isNull && !v.isA ty then
    ofOp (.error (Operator.invalidCast (← get).world.store m.fuel v ty))

/-- Pops a truth value and jumps when it is `when_`. -/
def jumpWhen (when_ : Bool) (target : Nat) : MachineM Unit := do
  if (← popTruth) == when_ then continueAt target

/-- Pops a value and jumps when it is null, or when it is not. -/
def jumpNull (isNull : Bool) (target : Nat) : MachineM Unit := do
  if (← pop).isNull == isNull then continueAt target

/-- Carries out an instruction, the pointer being already past it. Gives a
value when the unit returns it. -/
def exec (m : Machine) (i : Instr) : MachineM (Option Value) :=
  let go (x : MachineM Unit) : MachineM (Option Value) := do
    x
    return none
  match i with
  | .halt => defect .halted
  | .nop => return none
  | .constNull => go (push .null)
  | .constUnit => go (push .unit)
  | .constBool b => go (push (.bool b))
  | .constI32 n => go (push (.num (.int .i32 n)))
  | .constLiteral index => go do push (← entry m.code.literals[index]?)
  | .loadConstant index => go do push (← m.constant index)
  | .pop => go (discard pop)
  | .dup => go do push (← peek)
  | .loadLocal slot => go do push (← readSlot slot)
  | .storeLocal slot => go do writeSlot slot (← pop)
  | .loadLocalAddress slot => go (push (.address (.slot slot)))
  | .newCell slot => go do
    let v ← pop
    let ref ← RunM.newCell v
    writeSlot slot (.cell ref)
  | .loadCell slot => go do
    let ref ← cellIn slot
    push (← RunM.readCell ref)
  | .storeCell slot => go do
    let v ← pop
    let ref ← cellIn slot
    RunM.writeCell ref v
  | .loadCellAddress slot => go do push (.address (.cell (← cellIn slot)))
  | .loadCaptured index => go do
    let ref ← m.captured index
    push (← RunM.readCell ref)
  | .storeCaptured index => go do
    let v ← pop
    let ref ← m.captured index
    RunM.writeCell ref v
  | .loadCapturedCell index => go do push (.cell (← m.captured index))
  | .loadCapturedAddress index => go do push (.address (.cell (← m.captured index)))
  | .arith op _ | .logical op => go do
    let (l, r) ← popTwo
    push (← ofOp (Operator.arith op l r))
  | .compare op _ => go do
    let (l, r) ← popTwo
    push (.bool (← ofOp (Operator.compare op l r)))
  | .negate _ => go do push (← ofOp (Operator.negate (← pop)))
  | .not => go do push (← ofOp (Operator.not (← pop)))
  | .convert k => go do push (← ofOp (Operator.convert (← pop) k))
  | .eq => go do
    let (l, r) ← popTwo
    push (.bool (l.equals r))
  | .notEq => go do
    let (l, r) ← popTwo
    push (.bool !(l.equals r))
  | .concat => go do
    let (l, r) ← popTwo
    push (← ofOp (Operator.concat l r))
  | .unwrapNullable => go do
    if (← peek).isNull then raise .noValue
  | .castClass index => go (m.checkCast index)
  | .jump target => go (continueAt target)
  | .jumpIfFalse target => go (jumpWhen false target)
  | .jumpIfTrue target => go (jumpWhen true target)
  | .jumpIfNull target => go (jumpNull true target)
  | .jumpIfNotNull target => go (jumpNull false target)
  | .leave target => go do m.leave ((← get).pointer - 1) target
  | .endFinally => go m.endFinally
  | .throw => do
    let v ← pop
    if v.isNull then raise .nullReference else throw (.thrown v)
  | .ret => some <$> pop
  | .call index => go (m.callEntry index false)
  | .callVirtual index => go (m.callEntry index true)
  | .invoke count => go (m.invoke count)
  | .curry count => go (curry count)
  | .newStruct index count => go do
    let fields ← popMany count
    let d ← entry m.code.structs[index]?
    push (← RunM.newStruct d fields)
  | .loadField index => go do
    let v ← follow (← pop)
    push (← RunM.field v index)
  | .storeField index => go do
    let value ← pop
    let receiver ← pop
    storeInField index receiver value
  | .newArray count => go do
    let items ← popMany count
    push (← RunM.newArray items.toArray)
  | .newArrayBounds index => go do
    let n ← ofOp (Store.lengthBy (← pop))
    let v ← entry m.code.literals[index]?
    push (← RunM.newArray (Array.replicate n v))
  | .loadElement => go do
    let (a, i) ← popTwo
    push (← RunM.element a i)
  | .storeElement => go do
    let value ← pop
    let (a, i) ← popTwo
    RunM.setElement a i value
  | .arrayLength => go do push (← RunM.arrayLength (← pop))

/-- Fetches the next instruction and carries it out. -/
def step (m : Machine) : MachineM (Option Value) := do
  let s ← get
  match m.code.instrs[s.pointer]? with
  | none => defect (.pointerOutOfRange s.pointer)
  | some i =>
    continueAt (s.pointer + 1)
    m.exec i

end TreeCode.Machine

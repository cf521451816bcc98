import TreeCode.Lower.Operator

/-!
# Lowering: control flow

Conditionals, blocks, loops, labels, jumps, switches and protected regions.
The value of a jump travels in the slot of its label. A protected region
becomes entries of the table of handlers; every way out of it is a `leave`,
which runs the finally blocks it crosses.
-/

namespace TreeCode

/-- A handler of a protected region, with the code of its body. -/
structure CatchPart where
  test : Ty
  var : Option Var
  body : Part

/-- A cleanup block, with its code. -/
structure CleanupPart where
  isFinally : Bool
  block : Part

namespace Lower

/-- Emits a conditional of type `t`. -/
def conditional (t : Ty) (test ifTrue ifFalse : Part) (f : Usage) : LowerM Unit := do
  let usage := f.result t
  let otherwise ← freshLabel
  let done ← freshLabel
  test.branch otherwise false f
  ifTrue.emit usage
  jumpTo (.jump 0) done
  placeLabel otherwise
  ifFalse.emit usage
  placeLabel done

/-- Declares variables with their default values. Gives the slots they hide. -/
def bringInAll : List Var → LowerM (List (Option Nat))
  | [] => return []
  | v :: vs => do
    let (slot, hidden) ← bringIn v
    pushValue v.ty.default
    initialise v slot
    return hidden :: (← bringInAll vs)

/-- Takes variables out of scope, in the order of their declaration. -/
def takeOutAll : List Var → List (Option Nat) → LowerM Unit
  | v :: vs, hidden :: rest => do
    takeOut v hidden
    takeOutAll vs rest
  | _, _ => pure ()

/-- Emits statements: the last one with a usage of its own, the others for their
effects. -/
def statements (f last : Usage) : List Part → LowerM Unit
  | [] => pure ()
  | [p] => p.emit last
  | p :: ps => do
    p.emit f.effect
    statements f last ps

/-- Emits a block of type `t`. -/
def block (t : Ty) (vars : List Var) (body : List Part) (f : Usage) : LowerM Unit := do
  let hidden ← bringInAll vars
  statements f (f.result t) body
  takeOutAll vars hidden

/-- Pushes the value that a label of type `t` received. -/
def pushCarried (id : LabelRef) (t : Ty) (f : Usage) : LowerM Unit := do
  if f.discarded || t.isVoid then return ()
  match (← labelAt id).valueSlot with
  | some slot => emit (.loadLocal slot)
  | none => pure ()

/-- Emits a loop. -/
def loop (body : Part) (breakLabel continueLabel : Option Label) (f : Usage) :
    LowerM Unit := do
  let top ← match continueLabel with
    | some l => programLabel l
    | none => freshLabel
  let exit ← match breakLabel with
    | some l => do pure (some (← programLabel l, l.ty))
    | none => pure none
  placeLabel top
  body.emit f.effect
  jumpTo (.jump 0) top
  match exit with
  | some (id, t) =>
    placeLabel id
    pushCarried id t f
  | none => pure ()

/-- Emits a value and its store to the slot of a label. -/
def storeCarried (id : LabelRef) (value : Option Part) (f : Usage) : LowerM Unit := do
  match value with
  | none => pure ()
  | some p =>
    match (← labelAt id).valueSlot with
    | some slot =>
      p.emit f.operand
      emit (.storeLocal slot)
    | none => p.emit f.effect

/-- Emits the place of a label. -/
def label (l : Label) (fallback : Option Part) (f : Usage) : LowerM Unit := do
  let id ← programLabel l
  storeCarried id fallback f
  placeLabel id
  pushCarried id l.ty f

/-- Emits a jump in a position of type `t`. -/
def goto (t : Ty) (l : Label) (value : Option Part) (f : Usage) : LowerM Unit := do
  let id ← programLabel l
  storeCarried id value f
  jumpTo (if f.guarded then .leave 0 else .jump 0) id
  assumeValue t f

/-! ## Switches -/

/-- Emits the tests of a case, which jump to its label. -/
def caseTests (slot : Nat) (ty : Ty) (comparison : Option Method) (f : Usage) (label : LabelRef) :
    List Part → LowerM Unit
  | [] => pure ()
  | test :: rest => do
    emit (.loadLocal slot)
    let _ ← withRight .equal ty test comparison f.operand
    jumpTo (.jumpIfTrue 0) label
    caseTests slot ty comparison f label rest

/-- Makes a label for each case. -/
def labelled : List (List Part × Part) → LowerM (List (LabelRef × List Part × Part))
  | [] => return []
  | c :: cs => do
    let label ← freshLabel
    return (label, c) :: (← labelled cs)

/-- Emits the tests of all cases. -/
def allTests (slot : Nat) (ty : Ty) (comparison : Option Method) (f : Usage) :
    List (LabelRef × List Part × Part) → LowerM Unit
  | [] => pure ()
  | (label, tests, _) :: rest => do
    caseTests slot ty comparison f label tests
    allTests slot ty comparison f rest

/-- Emits the bodies of the cases; all but the last jump to the end. -/
def caseBodies (f : Usage) (done : LabelRef) : List (LabelRef × List Part × Part) → LowerM Unit
  | [] => pure ()
  | (label, _, body) :: rest => do
    placeLabel label
    body.emit f
    if !rest.isEmpty then jumpTo (.jump 0) done
    caseBodies f done rest

/-- Emits a switch of type `t`. -/
def switch (t : Ty) (value : Part) (cases : List (List Part × Part)) (fallback : Option Part)
    (comparison : Option Method) (f : Usage) : LowerM Unit := do
  if fallback.isNone && !t.isVoid then unsupported .switchWithoutDefault
  let usage := f.result t
  value.emit f.operand
  let slot ← newSlot
  emit (.storeLocal slot)
  let done ← freshLabel
  let cases ← labelled cases
  allTests slot value.ty comparison f cases
  match fallback with
  | some p => p.emit usage
  | none => pure ()
  jumpTo (.jump 0) done
  caseBodies usage done cases
  placeLabel done

/-! ## Protected regions -/

/-- Stores the value of a protected block in the slot of the region. -/
def keepResult : Option Nat → LowerM Unit
  | some slot => emit (.storeLocal slot)
  | none => pure ()

/-- Emits the body of a handler, whose exception is in a slot. -/
def catchBody (h : CatchPart) (slot : Nat) (usage : Usage) : LowerM Unit := do
  let body : LowerM Unit := do
    modify fun s => { s with caught := slot :: s.caught }
    h.body.emit usage
    modify fun s => { s with caught := s.caught.tail }
  match h.var with
  | none => body
  | some v =>
    let (varSlot, hidden) ← bringIn v
    emit (.loadLocal slot)
    initialise v varSlot
    body
    takeOut v hidden

/-- Emits the handlers of a region that spans `start ..< stop`. -/
def catches (start stop depth : Nat) (result : Option Nat) (done : LabelRef) (usage : Usage) :
    List CatchPart → LowerM (List Handler)
  | [] => return []
  | h :: hs => do
    resumeAt depth
    let target ← position
    let slot ← newSlot
    catchBody h slot usage
    keepResult result
    jumpTo (.leave 0) done
    let handlers ← catches start stop depth result done usage hs
    return { start, stop, depth, kind := .catching h.test slot target } :: handlers

/-- Emits the cleanup block of a region that spans `start ..< stop`. -/
def cleanupBlock (start stop depth : Nat) (f : Usage) : Option CleanupPart →
    LowerM (List Handler)
  | none => return []
  | some c => do
    resumeAt depth
    let target ← position
    modify fun s =>
      { s with cleanups := s.nextCleanup :: s.cleanups, nextCleanup := s.nextCleanup + 1 }
    c.block.emit f.effect
    modify fun s => { s with cleanups := s.cleanups.tail }
    emit .endFinally
    let blockStop ← position
    let kind := if c.isFinally then HandlerKind.finally target blockStop
      else .fault target blockStop
    return [{ start, stop, depth, kind }]

/-- Emits a protected region. `hasReturn` tells whether a return jump stands
directly in it. -/
def protect (hasReturn : Bool) (body : Part) (handlers : List CatchPart)
    (cleanup : Option CleanupPart) (f : Usage) : LowerM Unit := do
  let t := body.ty
  let needed := !f.discarded && !t.isVoid
  let hasReturn := hasReturn && (← read).supplied.isNone
  let result ← if !t.isVoid && (needed || hasReturn) then some <$> newSlot else pure none
  let depth := (← get).depth
  let done ← freshLabel
  let usage : Usage := { guarded := true, discarded := result.isNone }
  -- A label placed right before the region stays outside of it.
  emit .nop
  let start ← position
  body.emit usage
  keepResult result
  jumpTo (.leave 0) done
  let stop ← position
  let catches ← catches start stop depth result done usage handlers
  let catchesStop ← position
  let cleanups ← cleanupBlock start catchesStop depth f cleanup
  modify fun s => { s with handlers := s.handlers ++ (catches ++ cleanups) }
  placeLabel done
  if needed then
    match result with
    | some slot => emit (.loadLocal slot)
    | none => pure ()

end Lower

end TreeCode

import TreeCode.Lower.Node

/-!
# Lowering: units

The code of a whole lambda: parameters in the first slots, a prologue that
moves captured parameters into cells and loads what is mentioned more than
once, the body, and the return of its value.

## Main definitions

* `Lower.unit` — emits a lambda.
* `Draft.toCode` — the finished unit.
* `Lambda.toCode` — the code of a lambda in its surroundings.
-/

namespace TreeCode

namespace Lower

/-- Gives each parameter a slot, in order. -/
def bringInParams : List Var → LowerM Unit
  | [] => pure ()
  | v :: vs => do
    let slot ← newSlot
    modify fun s => { s with slots := s.slots.insert v.id slot }
    bringInParams vs

/-- Moves captured parameters into cells, from the given slot on. -/
def boxParams (slot : Nat) : List Var → LowerM Unit
  | [] => pure ()
  | v :: vs => do
    if (← read).plan.isBoxed v.id then
      emit (.loadLocal slot)
      emit (.newCell slot)
    boxParams (slot + 1) vs

/-- Loads an entry of the record into a slot if it is mentioned more than
once. -/
def hoist (index uses : Nat) : LowerM Unit := do
  if uses > 1 then
    let slot ← newSlot
    emit (.loadConstant index)
    emit (.storeLocal slot)
    modify fun s => { s with hoisted := (index, slot) :: s.hoisted }

/-- Loads the entries of the record that are mentioned more than once, given
the numbers of mentions from the given entry on. -/
def hoistAll (index : Nat) : List Nat → LowerM Unit
  | [] => pure ()
  | uses :: rest => do
    hoist index uses
    hoistAll (index + 1) rest

/-- Emits what precedes the body. -/
def prologue (params : List Var) : LowerM Unit := do
  let env ← read
  boxParams 0 params
  if env.supplied.isNone then
    hoistAll 0 (env.plan.constants.map (·.uses) ++ env.plan.nested.map (·.uses))

/-- Requires that every label with waiting jumps is placed. -/
def checkPlaced : List DraftLabel → LowerM Unit
  | [] => pure ()
  | l :: ls => do
    if l.position.isNone && !l.fixups.isEmpty then error (.labelNotPlaced l.shown)
    checkPlaced ls

/-- Emits a lambda. A void one returns unit. -/
def unit (l : Lambda) : LowerM Unit := do
  bringInParams l.params
  prologue l.params
  if l.ret.isVoid then
    l.body.part.emit { discarded := true }
    emit .constUnit
  else l.body.part.emit {}
  emit .ret
  checkPlaced (← get).labels.toList

end Lower

/-- Whether the unit is bound to a closure record. -/
def LowerEnv.hasRecord (env : LowerEnv) : Bool :=
  match env.supplied with
  | some values => !values.isEmpty
  | none => env.plan.needsRecord

/-- The finished unit of a lambda. -/
def Draft.toCode (s : Draft) (l : Lambda) (hasRecord : Bool) : Code where
  name := l.name
  signature := l.signature
  shapes := (if hasRecord then [Shape.record] else []) ++ l.signature.params.map Shape.of
  literals := s.literals
  types := s.types
  methods := s.methods
  structs := s.structs
  instrs := s.instrs
  handlers := s.handlers
  numParams := l.params.length
  numLocals := s.numLocals
  maxStack := s.maxDepth

/-- The code of a lambda in its surroundings. -/
def Lambda.toCode (l : Lambda) (env : LowerEnv) : Except Failure Code := do
  let (_, s) ← Lower.unit l env {}
  return s.toCode l env.hasRecord

end TreeCode

import TreeCode.Call
import TreeCode.Proofs.Likeness.Eval

/-!
# Units and calls side by side

Two runs of a compiled unit are alike when the functions they call are. An instruction
that fails for want of what the second run has more of ends the unit, since the table of
protected regions takes exceptions only. With that, two calls of a function are alike,
whichever way the function is run.

Main definitions:

* `Likeness.Stations` — what the states of two runs of a unit share.

Main results:

* `Likeness.Machines.run` — two runs of a unit are alike.
* `Likeness.callers` — **two calls of a function are alike**.
-/

namespace TreeCode

namespace Likeness

variable {L : Likeness} {α β : Type}

variable (L) in
/-- The states of the two runs of a unit. -/
structure Stations (μ μ' : MachineState) : Prop where
  world : L.Worlds μ.world μ'.world
  pointer : μ'.pointer = μ.pointer
  stack : μ'.stack = μ.stack
  locals : μ'.locals = μ.locals
  pending : μ'.pending = μ.pending

variable (L) in
/-- Two actions of the machine. -/
abbrev Turns (x x' : MachineM α) : Prop := Mirrors L.stops L.Stations x x'

namespace Turns

theorem ofRun {x x' : RunM α} (h : Mirrors L.stops L.Worlds x x') :
    L.Turns (MachineM.ofRun x) (MachineM.ofRun x') := by
  intro μ μ' hμ
  have hr := h _ _ hμ.world
  simp only [MachineM.ofRun]
  generalize x μ.world = r, x' μ'.world = r' at hr ⊢
  cases hr with
  | ok hw => exact .ok { hμ with world := hw }
  | error hw => exact .error { hμ with world := hw }
  | stopped hf => exact .stopped hf

theorem raise (e : Exception) : L.Turns (MachineM.raise e : MachineM α) (MachineM.raise e) :=
  ofRun (RunM.raise_mirrors e)

theorem ofOp (x : Except OpError α) : L.Turns (MachineM.ofOp x) (MachineM.ofOp x) :=
  ofRun (RunM.ofOp_mirrors x)

theorem entry (o : Option α) : L.Turns (MachineM.entry o) (MachineM.entry o) := by
  cases o with
  | some a => exact .pure a
  | none => exact .throw _

theorem push (v : Value) : L.Turns (MachineM.push v) (MachineM.push v) :=
  Mirrors.modify fun _ _ h => { h with stack := by rw [h.stack] }

theorem pop : L.Turns MachineM.pop MachineM.pop := by
  intro μ μ' h
  simp only [MachineM.pop, h.stack]
  cases μ.stack with
  | nil => exact .error h
  | cons v st => exact .ok { h with stack := rfl }

theorem peek : L.Turns MachineM.peek MachineM.peek := by
  intro μ μ' h
  simp only [MachineM.peek, h.stack]
  cases μ.stack with
  | nil => exact .error h
  | cons v st => exact .ok h

theorem popTruth : L.Turns MachineM.popTruth MachineM.popTruth := by
  refine pop.bind fun v => ?_
  cases v.bool? with
  | some b => exact .pure b
  | none => exact .throw _

theorem popMany (n : Nat) : L.Turns (MachineM.popMany n) (MachineM.popMany n) := by
  intro μ μ' h
  simp only [MachineM.popMany, h.stack]
  split
  · exact .error h
  · exact .ok { h with stack := rfl }

theorem popTwo : L.Turns MachineM.popTwo MachineM.popTwo :=
  pop.bind fun _ => pop.bind fun _ => .pure _

theorem continueAt (target : Nat) :
    L.Turns (MachineM.continueAt target) (MachineM.continueAt target) :=
  Mirrors.modify fun _ _ h => { h with pointer := rfl }

theorem readSlot (slot : Nat) : L.Turns (MachineM.readSlot slot) (MachineM.readSlot slot) := by
  refine Mirrors.get_bind fun μ μ' h => ?_
  rw [h.locals]
  exact entry _

theorem writeSlot (slot : Nat) (v : Value) :
    L.Turns (MachineM.writeSlot slot v) (MachineM.writeSlot slot v) := by
  intro μ μ' h
  simp only [MachineM.writeSlot, h.locals]
  split
  · exact .ok { h with locals := rfl }
  · exact .error h

theorem cellIn (slot : Nat) : L.Turns (MachineM.cellIn slot) (MachineM.cellIn slot) := by
  refine (readSlot slot).bind fun v => ?_
  cases v with
  | cell ref => exact .pure ref
  | _ => exact .throw _

theorem readCell (ref : Nat) :
    L.Turns (MachineM.ofRun (RunM.readCell ref)) (MachineM.ofRun (RunM.readCell ref)) :=
  ofRun (RunM.readCell_mirrors ref)

theorem cellRefs (vs : List Value) : L.Turns (Machine.cellRefs vs) (Machine.cellRefs vs) := by
  induction vs with
  | nil => exact .pure []
  | cons v vs ih =>
    cases v with
    | cell ref => exact ih.bind fun _ => .pure _
    | _ => exact .throw _

theorem curry (count : Nat) : L.Turns (Machine.curry count) (Machine.curry count) := by
  refine (popMany count).bind fun cells => pop.bind fun v => ?_
  cases v with
  | openUnit ref name =>
    refine (cellRefs cells).bind fun refs => Mirrors.get_bind fun μ μ' h => ?_
    rw [h.world.units]
    exact (entry _).bind fun unit => (ofRun (RunM.newFunction_mirrors .compiled)).bind push
  | _ => exact .throw _

theorem follow (v : Value) : L.Turns (Machine.follow v) (Machine.follow v) := by
  cases v with
  | address a =>
    cases a with
    | slot i => exact readSlot i
    | cell ref => exact readCell ref
  | _ => exact .pure _

theorem storeInField (i : Nat) (receiver x : Value) :
    L.Turns (Machine.storeInField i receiver x) (Machine.storeInField i receiver x) := by
  have hset : ∀ v, L.Turns (MachineM.ofRun (RunM.setField v i x))
      (MachineM.ofRun (RunM.setField v i x)) := fun v => ofRun (RunM.setField_mirrors v i x)
  cases receiver with
  | address a =>
    cases a with
    | slot k => exact (readSlot k).bind fun v => (hset v).bind fun v => writeSlot k v
    | cell ref =>
      exact (readCell ref).bind fun v => (hset v).bind fun v =>
        ofRun (RunM.writeCell_mirrors ref v)
  | _ => exact (hset _).bind fun _ => .pure _

theorem jumpWhen (b : Bool) (target : Nat) :
    L.Turns (Machine.jumpWhen b target) (Machine.jumpWhen b target) :=
  popTruth.bind fun _ => Mirrors.ite (continueAt target) (.pure _)

theorem jumpNull (b : Bool) (target : Nat) :
    L.Turns (Machine.jumpNull b target) (Machine.jumpNull b target) :=
  pop.bind fun _ => Mirrors.ite (continueAt target) (.pure _)

theorem constant (m : Machine) (i : Nat) : L.Turns (m.constant i) (m.constant i) := by
  unfold Machine.constant
  cases m.record.values[i]? with
  | some v => exact .pure v
  | none => exact .throw _

theorem captured (m : Machine) (i : Nat) : L.Turns (m.captured i) (m.captured i) := by
  unfold Machine.captured
  cases m.record.cells[i]? with
  | some ref => exact .pure ref
  | none => exact .throw _

theorem leave (m : Machine) (origin target : Nat) :
    L.Turns (m.leave origin target) (m.leave origin target) := by
  unfold Machine.leave
  dsimp only
  split
  · exact Mirrors.modify fun _ _ h =>
      ⟨h.world, rfl, by simp only [MachineM.cutBack, h.stack], h.locals,
        by simp only [h.pending]⟩
  · exact continueAt target

theorem endFinally (m : Machine) : L.Turns m.endFinally m.endFinally := by
  refine Mirrors.get_bind fun μ μ' h => ?_
  simp only [h.pointer, h.pending]
  cases hp : μ.pending with
  | nil => exact .throw _
  | cons frame pending =>
    refine Mirrors.bind (Mirrors.set ⟨h.world, rfl, h.stack, h.locals, rfl⟩) fun _ => ?_
    cases frame.after with
    | leave target => exact leave m _ target
    | rethrow f => exact .throw f

end Turns

variable (L) in
/-- Two machines. -/
structure Machines (m m' : Machine) : Prop where
  host : m'.host = m.host
  relays : L.limits → m.host.Relays
  code : m'.code = m.code
  record : m'.record = m.record
  fuel : L.Bound m.fuel m'.fuel
  call : L.Callers m.call m'.call

namespace Machines

open Turns

variable {m m' : Machine}

theorem callAt (h : L.Machines m m') (method : Method) (receiver : Value) (args : List Value)
    {save : Value → MachineState → MachineState}
    (hsave : ∀ v μ μ', L.Stations μ μ' → L.Stations (save v μ) (save v μ')) :
    L.Turns (m.callAt method receiver args save) (m'.callAt method receiver args save) := by
  intro μ μ' hμ
  have ho := h.call.callOn h.relays h.fuel method receiver args hμ.world
  simp only [Machine.callAt, h.host]
  generalize m.host.callOn m.call m.fuel method receiver args μ.world = o,
    m.host.callOn m'.call m'.fuel method receiver args μ'.world = o' at ho ⊢
  cases ho with
  | @same o _ _ hw =>
    obtain ⟨result, left⟩ := o
    cases result with
    | ok x => exact .ok (hsave _ _ _ { hμ with world := hw })
    | error f => exact .error (hsave _ _ _ { hμ with world := hw })
  | @stopped f o _ _ he hf =>
    obtain ⟨result, left⟩ := o
    obtain rfl : result = .error f := he
    exact .stopped hf

theorem callReceiver (h : L.Machines m m') (method : Method) (receiver : Value)
    (args : List Value) :
    L.Turns (m.callReceiver method receiver args) (m'.callReceiver method receiver args) := by
  cases receiver with
  | null => exact raise _
  | address a =>
    cases a with
    | slot k =>
      exact (readSlot k).bind fun v => h.callAt method v args fun _ _ _ hμ =>
        { hμ with locals := by rw [hμ.locals] }
    | cell ref =>
      refine (readCell ref).bind fun v => h.callAt method v args fun v μ μ' hμ => ?_
      refine { hμ with world := ?_ }
      show L.Worlds { μ.world with store := _ } { μ'.world with store := _ }
      rw [hμ.world.store]
      exact hμ.world.withStore _
  | _ => exact h.callAt method _ args fun _ _ _ hμ => hμ

theorem callEntry (h : L.Machines m m') (index : Nat) (isVirtual : Bool) :
    L.Turns (m.callEntry index isVirtual) (m'.callEntry index isVirtual) := by
  simp only [Machine.callEntry, h.code, h.host]
  refine (entry _).bind fun method => (popMany _).bind fun args => ?_
  have hlast : ∀ v, L.Turns (if !method.ret.isVoid then MachineM.push v else pure ())
      (if !method.ret.isVoid then MachineM.push v else pure ()) :=
    fun v => Mirrors.ite (push v) (.pure _)
  refine Mirrors.ite ((ofRun (h.call.callStatic h.relays h.fuel method args)).bind hlast) ?_
  exact pop.bind fun receiver => (h.callReceiver _ receiver args).bind hlast

theorem invoke (h : L.Machines m m') (count : Nat) :
    L.Turns (m.invoke count) (m'.invoke count) := by
  refine (popMany count).bind fun args => pop.bind fun v => ?_
  cases v with
  | function ref sig => exact (ofRun (h.call ref args)).bind push
  | null => exact raise _
  | _ => exact .throw _

theorem checkCast (h : L.Machines m m') (index : Nat) :
    L.Turns (m.checkCast index) (m'.checkCast index) := by
  simp only [Machine.checkCast, h.code]
  refine (entry _).bind fun ty => peek.bind fun v => ?_
  refine Mirrors.ite (Mirrors.get_bind fun μ μ' hμ => ?_) (.pure _)
  rw [hμ.world.store]
  rcases h.fuel with hn | ⟨hb, hle⟩
  · rw [hn]
    exact ofOp _
  · -- The message describes the value, which may take more than the first run has.
    rcases Operator.invalidCast_of_le (s := μ.world.store) hle v ty with hc | hc
    · rw [hc]
      exact .stop (e := Fault.outOfFuel) hb
    · rw [hc]
      exact ofOp _

/-- Two runs of an instruction are alike. -/
theorem exec (h : L.Machines m m') (i : Instr) : L.Turns (m.exec i) (m'.exec i) := by
  -- Most instructions give nothing.
  have go : ∀ {x x' : MachineM Unit}, L.Turns x x' →
      L.Turns (do x; return none : MachineM (Option Value)) (do x'; return none) :=
    fun hx => hx.bind fun _ => .pure _
  have hpush : ∀ {x x' : MachineM Value}, L.Turns x x' →
      L.Turns (x >>= MachineM.push) (x' >>= MachineM.push) := fun hx => hx.bind push
  obtain ⟨host, fuel, call, code, record⟩ := m
  obtain ⟨host', fuel', call', code', record'⟩ := m'
  obtain ⟨rfl, -, rfl, rfl, -, -⟩ := id h
  cases i with
  | halt => exact .throw _
  | nop => exact .pure _
  | constNull | constUnit | constBool | constI32 => exact go (push _)
  | constLiteral index => exact go (hpush (entry _))
  | loadConstant index => exact go (hpush (constant _ index))
  | pop => exact go (pop.map _)
  | dup => exact go (hpush peek)
  | loadLocal slot => exact go (hpush (readSlot slot))
  | storeLocal slot => exact go (pop.bind fun v => writeSlot slot v)
  | loadLocalAddress slot => exact go (push _)
  | newCell slot =>
    exact go (pop.bind fun v => (ofRun (RunM.newCell_mirrors v)).bind fun ref => writeSlot slot _)
  | loadCell slot => exact go ((cellIn slot).bind fun ref => hpush (readCell ref))
  | storeCell slot =>
    exact go (pop.bind fun v => (cellIn slot).bind fun ref => ofRun (RunM.writeCell_mirrors ref v))
  | loadCellAddress slot => exact go ((cellIn slot).bind fun ref => push _)
  | loadCaptured index => exact go ((captured _ index).bind fun ref => hpush (readCell ref))
  | storeCaptured index =>
    exact go (pop.bind fun v => (captured _ index).bind fun ref =>
      ofRun (RunM.writeCell_mirrors ref v))
  | loadCapturedCell index => exact go ((captured _ index).bind fun ref => push _)
  | loadCapturedAddress index => exact go ((captured _ index).bind fun ref => push _)
  | arith op _ => exact go (popTwo.bind fun ⟨l, r⟩ => hpush (ofOp _))
  | logical op => exact go (popTwo.bind fun ⟨l, r⟩ => hpush (ofOp _))
  | compare op _ => exact go (popTwo.bind fun ⟨l, r⟩ => (ofOp _).bind fun b => push _)
  | negate _ => exact go (pop.bind fun v => hpush (ofOp _))
  | not => exact go (pop.bind fun v => hpush (ofOp _))
  | convert k => exact go (pop.bind fun v => hpush (ofOp _))
  | eq => exact go (popTwo.bind fun ⟨l, r⟩ => push _)
  | notEq => exact go (popTwo.bind fun ⟨l, r⟩ => push _)
  | concat => exact go (popTwo.bind fun ⟨l, r⟩ => hpush (ofOp _))
  | unwrapNullable => exact go (peek.bind fun v => Mirrors.ite (raise _) (.pure _))
  | castClass index => exact go (h.checkCast index)
  | jump target => exact go (continueAt target)
  | jumpIfFalse target => exact go (jumpWhen false target)
  | jumpIfTrue target => exact go (jumpWhen true target)
  | jumpIfNull target => exact go (jumpNull true target)
  | jumpIfNotNull target => exact go (jumpNull false target)
  | leave target =>
    refine go (Mirrors.get_bind fun μ μ' hμ => ?_)
    rw [hμ.pointer]
    exact leave _ _ target
  | endFinally => exact go (endFinally _)
  | throw => exact pop.bind fun v => Mirrors.ite (raise _) (.throw _)
  | ret => exact pop.map _
  | call index => exact go (h.callEntry index false)
  | callVirtual index => exact go (h.callEntry index true)
  | invoke count => exact go (h.invoke count)
  | curry count => exact go (curry count)
  | newStruct index count =>
    exact go ((popMany count).bind fun fields => (entry _).bind fun d =>
      hpush (ofRun (RunM.newStruct_mirrors d fields)))
  | loadField index =>
    exact go (pop.bind fun v => (follow v).bind fun v => hpush (ofRun (RunM.field_mirrors v index)))
  | storeField index => exact go (pop.bind fun x => pop.bind fun r => storeInField index r x)
  | newArray count =>
    exact go ((popMany count).bind fun items => hpush (ofRun (RunM.newArray_mirrors _)))
  | newArrayBounds index =>
    exact go (pop.bind fun v => (ofOp _).bind fun n => (entry _).bind fun x =>
      hpush (ofRun (RunM.newArray_mirrors _)))
  | loadElement =>
    exact go (popTwo.bind fun ⟨a, i⟩ => hpush (ofRun (RunM.element_mirrors a i)))
  | storeElement =>
    exact go (pop.bind fun x => popTwo.bind fun ⟨a, i⟩ => ofRun (RunM.setElement_mirrors a i x))
  | arrayLength => exact go (pop.bind fun a => hpush (ofRun (RunM.arrayLength_mirrors a)))

theorem step (h : L.Machines m m') : L.Turns m.step m'.step := by
  refine Mirrors.get_bind fun μ μ' hμ => ?_
  rw [h.code, hμ.pointer]
  cases m.code.instrs[μ.pointer]? with
  | none => exact .throw _
  | some i => exact (continueAt _).bind fun _ => h.exec i

theorem dispatch (h : L.Machines m m') (f : Fault) (origin : Nat) :
    L.Turns (m.dispatch f origin) (m'.dispatch f origin) := by
  have hsame : m'.dispatch f origin = m.dispatch f origin := by
    simp only [Machine.dispatch, Machine.escapes, h.code]
  rw [hsame]
  unfold Machine.dispatch
  cases f.thrown? with
  | none => exact .throw f
  | some v =>
    dsimp only
    split
    · exact .throw f
    · -- The handler finds the stack as it was where its region begins.
      rename_i i k _
      refine Mirrors.bind (Mirrors.modify fun _ _ hμ => ?_) fun _ => ?_
      · exact { hμ with
          stack := by simp only [MachineM.cutBack, hμ.stack]
          pending := by simp only [hμ.pending] }
      · have hlast := continueAt (L := L) k.target
        cases k.kind with
        | catching test slot depth => exact (writeSlot slot v).bind fun _ => hlast
        | «finally» =>
          exact Mirrors.bind (Mirrors.modify fun _ _ hμ => { hμ with pending := by rw [hμ.pending] })
            fun _ => hlast
        | fault =>
          exact Mirrors.bind (Mirrors.modify fun _ _ hμ => { hμ with pending := by rw [hμ.pending] })
            fun _ => hlast

/-- Two runs of a unit are alike. -/
theorem run (h : L.Machines m m') {n k : Nat} (hle : L.Bound n k) :
    L.Turns (m.run n) (m'.run k) := by
  induction n generalizing k with
  | zero =>
    rcases hle.zero with rfl | hb
    · exact .throw _
    · exact .stop (e := Fault.outOfFuel) hb
  | succ n ih =>
    obtain ⟨k, rfl, hn⟩ := hle.pred
    intro μ μ' hμ
    have hr := h.step μ μ' hμ
    simp only [Machine.run]
    generalize m.step μ = r, m'.step μ' = r' at hr ⊢
    cases hr with
    | @ok o μ μ' hμ =>
      cases o with
      | none => exact ih hn μ μ' hμ
      | some v => exact .ok hμ
    | @error f μ μ' hμ =>
      -- Both runs look for a handler at the same instruction.
      have hd := h.dispatch f (μ.pointer - 1) μ μ' hμ
      dsimp only
      rw [hμ.pointer]
      generalize m.dispatch f (μ.pointer - 1) μ = r, m'.dispatch f (μ.pointer - 1) μ' = r' at hd ⊢
      cases hd with
      | ok hμ => exact ih hn _ _ hμ
      | error hμ => exact .error hμ
      | stopped hf => exact .stopped hf
    | @stopped f μ _ hf =>
      -- The table of protected regions takes exceptions only.
      have hpass : m.dispatch f (μ.pointer - 1) μ = .error f μ := by
        rcases stops_cases hf with ⟨rfl, -⟩ | ⟨⟨d, i, rfl⟩, -⟩ <;> rfl
      dsimp only
      rw [hpass]
      exact .stopped hf

end Machines

section Call

variable {host : Host} {call call' : Caller} {n k : Nat}
  (hhost : L.limits → host.Relays) (hcall : L.Callers call call')
include hhost hcall

theorem Callers.unit (hle : L.Bound n k) (code : Code) (record : ClosureRecord)
    (args : List Value) :
    Mirrors L.stops L.Worlds (callUnit host call n code record args)
      (callUnit host call' k code record args) := by
  have hshapes : ∀ (ss : List Shape) vs,
      Mirrors L.stops L.Worlds (requireShapes ss vs) (requireShapes ss vs) := by
    intro ss
    induction ss with
    | nil => exact fun _ => .pure _
    | cons s ss ih =>
      intro vs
      cases vs with
      | nil => exact .pure _
      | cons v vs => exact Mirrors.ite (ih vs) (.throw _)
  refine (RunM.requireArity_mirrors _ _).bind fun _ => (hshapes _ _).bind fun _ w w' hw => ?_
  have hm : L.Machines { host, fuel := n, call, code, record }
      { host, fuel := k, call := call', code, record } := ⟨rfl, hhost, rfl, rfl, hle, hcall⟩
  have hr := hm.run hle { world := w, locals := code.initialLocals args }
    { world := w', locals := code.initialLocals args } ⟨hw, rfl, rfl, rfl, rfl⟩
  simp only [runUnit]
  generalize Machine.run { host, fuel := n, call, code, record } n
      { world := w, locals := code.initialLocals args } = r,
    Machine.run { host, fuel := k, call := call', code, record } k
      { world := w', locals := code.initialLocals args } = r' at hr ⊢
  cases hr with
  | ok hμ => exact .ok hμ.world
  | error hμ => exact .error hμ.world
  | stopped hf => exact .stopped hf

end Call

/-- **Two calls of a function are alike**, at whatever depths they are made. -/
theorem callers {host : Host} (hhost : L.limits → host.Relays) {n k : Nat} (hle : L.Bound n k)
    (d : Depths) : (L.atDepth d).Callers (call host n) (call host k) := by
  induction n generalizing k d with
  | zero =>
    intro ref args
    rcases hle.zero with rfl | hb
    · exact .throw _
    · exact .stop (e := Fault.outOfFuel) hb
  | succ n ih =>
    obtain ⟨k, rfl, hn⟩ := hle.pred
    intro ref args w w' hw
    have hf := hw.functions.entry ref
    simp only [call]
    generalize w.functions[ref]? = o, w'.functions[ref]? = o' at hf ⊢
    cases hf with
    | none => exact .error hw
    | some hf =>
      cases hf with
      | @interpreted l captured m m' counter limit clear =>
        have hgauges : (L.atDepth d).Gauges ⟨m, counter.getD ref⟩ ⟨m', counter.getD ref⟩ :=
          ⟨limit, rfl⟩
        exact Callers.lambda (L := L.atDepth d) hhost (fun d => ih hn d) hgauges hn clear captured
          args w w' hw
      | compiled => exact Callers.unit (L := L.atDepth d) hhost (ih hn d) hn _ _ args w w' hw
      | native => exact Callers.native (L := L.atDepth d) hhost (ih hn d) hn _ _ args w w' hw

end Likeness

end TreeCode

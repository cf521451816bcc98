import TreeCode.Proofs.Lower.Path
import TreeCode.Proofs.Machine.Pending

/-!
# Slots and positions of a run

What a turn does to the slots of a run, and where control goes in it. Slots are
written by the instructions that store to them, by handlers that take an exception,
and through addresses; a slot that none of these name keeps the shared value it holds.
Control goes on to the next instruction, or lands where a jump or an entry of the
table of protected regions says.

Main definitions:

* `Keeps` — the slots of a run change only where they may.
* `MachineM.Guards` — an action changes slots only where it may.
* `Host.LeavesShared` — methods do not replace shared receivers.
* `Code.Lands` — jumps and handlers go to certain positions.

Main results:

* `Machine.turn_keeps` — a turn changes only slots that the code writes.
* `Machine.turn_lands` — a turn goes on to the next instruction, or lands.
-/

namespace TreeCode

/-- The identity of the shared value in a slot. -/
def identityAt (locals : Array Value) (k : Nat) : Option Identity :=
  locals[k]?.bind Value.identity?

/-- There are as many slots as before, and outside `W` they hold the shared values
that they held. -/
structure Keeps (W : Nat → Prop) (ls ls' : Array Value) : Prop where
  size : ls'.size = ls.size
  shared : ∀ k i, ¬W k → identityAt ls k = some i → identityAt ls' k = some i

namespace Keeps

variable {W : Nat → Prop} {ls ls' ls'' : Array Value}

theorem refl (ls : Array Value) : Keeps W ls ls := ⟨rfl, fun _ _ _ h => h⟩

theorem trans (h₁ : Keeps W ls ls') (h₂ : Keeps W ls' ls'') : Keeps W ls ls'' :=
  ⟨h₂.size.trans h₁.size, fun k i hk h => h₂.shared k i hk (h₁.shared k i hk h)⟩

/-- A slot is written that may be, or gets a value with the identity it held. -/
theorem set {k : Nat} {v : Value} (h : W k ∨ ∀ i, identityAt ls k = some i → v.identity? = some i) :
    Keeps W ls (ls.setIfInBounds k v) := by
  refine ⟨Array.size_setIfInBounds, fun j i hj hi => ?_⟩
  by_cases hjk : k = j
  · subst hjk
    have hlt : k < ls.size := by
      by_contra hlt
      simp [identityAt, hlt] at hi
    have hv := (h.resolve_left hj) i hi
    simp [identityAt, hlt, hv]
  · rwa [identityAt, Array.getElem?_setIfInBounds_ne hjk]

end Keeps

namespace MachineM

/-- An action changes slots only where it may. -/
def Guards (W : Nat → Prop) {α : Type} (x : MachineM α) : Prop := ∀ s, match x s with
  | .ok _ s' => Keeps W s.locals s'.locals
  | .error _ s' => Keeps W s.locals s'.locals

namespace Guards

variable {W : Nat → Prop} {α β : Type} {x : MachineM α}

theorem bind {f : α → MachineM β} (hx : Guards W x) (hf : ∀ a, Guards W (f a)) :
    Guards W (x >>= f) := by
  intro s
  have h := hx s
  simp only [Bind.bind, EStateM.bind]
  cases hs : x s with
  | ok a s₁ =>
    rw [hs] at h
    have h₁ := hf a s₁
    dsimp only at h ⊢
    cases hs₁ : f a s₁ with
    | ok b s₂ =>
      rw [hs₁] at h₁
      exact h.trans h₁
    | error e s₂ =>
      rw [hs₁] at h₁
      exact h.trans h₁
  | error e s₁ =>
    rw [hs] at h
    exact h

/-- An action that leaves slots alone. -/
theorem of_eq (h : ∀ s, match x s with
    | .ok _ s' => s'.locals = s.locals
    | .error _ s' => s'.locals = s.locals) : Guards W x := by
  intro s
  have h := h s
  cases hs : x s with
  | ok a s' =>
    rw [hs] at h
    exact h ▸ .refl _
  | error f s' =>
    rw [hs] at h
    exact h ▸ .refl _

theorem pure {a : α} : Guards W (pure a : MachineM α) := of_eq fun _ => rfl

theorem get : Guards W (get : MachineM MachineState) := of_eq fun _ => rfl

theorem throw {f : Fault} : Guards W (throw f : MachineM α) := of_eq fun _ => rfl

theorem ofRun {x : RunM α} : Guards W (ofRun x) := by
  refine of_eq fun s => ?_
  unfold MachineM.ofRun
  cases h : x s.world <;> simp [h]

theorem push {v : Value} : Guards W (push v) := of_eq fun _ => rfl

theorem pop : Guards W pop := of_eq fun ⟨_, _, st, _, _⟩ => by cases st <;> rfl

theorem peek : Guards W peek := of_eq fun ⟨_, _, st, _, _⟩ => by cases st <;> rfl

theorem popMany {n : Nat} : Guards W (popMany n) := by
  refine of_eq fun s => ?_
  by_cases h : s.stack.length < n <;> simp [MachineM.popMany, h]

theorem continueAt {q : Nat} : Guards W (continueAt q) := of_eq fun _ => rfl

theorem entry {o : Option α} : Guards W (entry o) := by
  cases o with
  | none => exact throw
  | some a => exact pure

theorem readSlot {slot : Nat} : Guards W (readSlot slot) := get.bind fun _ => entry

theorem cellIn {slot : Nat} : Guards W (cellIn slot) := by
  refine readSlot.bind fun v => ?_
  split
  · exact pure
  · exact throw

theorem popTruth : Guards W popTruth := by
  refine pop.bind fun v => ?_
  split
  · exact pure
  · exact throw

theorem ite {c : Prop} [Decidable c] {x y : MachineM α} (hx : Guards W x) (hy : Guards W y) :
    Guards W (if c then x else y) := by
  split
  · exact hx
  · exact hy

theorem popTwo : Guards W popTwo := pop.bind fun _ => pop.bind fun _ => pure

theorem writeSlot {slot : Nat} {v : Value} (h : W slot) : Guards W (writeSlot slot v) := by
  intro s
  by_cases hlt : slot < s.locals.size
  · simp only [MachineM.writeSlot, hlt, if_true]
    exact .set (.inl h)
  · simp only [MachineM.writeSlot, hlt, if_false]
    exact .refl _

end Guards

end MachineM

/-! ## Shared values stay where they are -/

/-- Storing to a field of a shared value gives that value back. -/
theorem Store.setFieldFrom_identity {k : Nat} {x v v' : Value} {fuel : Nat} {st st' : Store}
    {i : Identity} (h : Store.setFieldFrom k x fuel st v = .ok (v', st'))
    (hv : v.identity? = some i) : v'.identity? = some i := by
  cases fuel with
  | zero => cases h
  | succ fuel =>
    cases v with
    | object r d =>
      simp only [setFieldFrom] at h
      split at h
      · cases h
        exact hv
      · cases h
    | cell r =>
      simp only [setFieldFrom] at h
      cases hin : setFieldFrom k x fuel st (st.cellAt r) with
      | error e => simp [hin, Bind.bind, Except.bind] at h
      | ok p =>
        simp only [hin, Bind.bind, Except.bind, Pure.pure, Except.pure, Except.ok.injEq,
          Prod.mk.injEq] at h
        exact h.1 ▸ hv
    | _ => first | cases hv; done | cases h

theorem RunM.setField_identity {k : Nat} {x v v' : Value} {w w' : World} {i : Identity}
    (h : RunM.setField v k x w = .ok v' w') (hv : v.identity? = some i) : v'.identity? = some i := by
  simp only [RunM.setField, Bind.bind, EStateM.bind, RunM.readStore] at h
  cases hset : w.store.setField v k x with
  | error e =>
    rw [hset] at h
    cases e <;> cases h
  | ok p =>
    obtain ⟨v'', st'⟩ := p
    rw [hset] at h
    cases h
    exact Store.setFieldFrom_identity hset hv

/-- Methods leave shared receivers in place: only instances of value structs, which
are passed by address, are replaced. -/
def Host.LeavesShared (h : Host) : Prop :=
  ∀ call fuel method receiver args w v i, receiver.identity? = some i →
    (h.callOn call fuel method receiver args w).1.receiver = some v → v.identity? = some i

namespace Machine

open MachineM

variable {m : Machine} {W : Nat → Prop} {μ μ' : MachineState}

theorem constant_guards {k : Nat} : Guards W (m.constant k) := by
  unfold constant
  split
  · exact .pure
  · exact .throw

theorem captured_guards {k : Nat} : Guards W (m.captured k) := by
  unfold captured
  split
  · exact .pure
  · exact .throw

/-- Either every slot may change, or methods leave shared receivers in place. -/
def Careful (m : Machine) (W : Nat → Prop) : Prop := (∀ k, W k) ∨ m.host.LeavesShared

theorem callAt_guards {d : Method} {v : Value} {args : List Value}
    {save : Value → MachineState → MachineState} (h : ∀ v s, (save v s).locals = s.locals) :
    Guards W (m.callAt d v args save) := by
  refine .of_eq fun s => ?_
  unfold callAt
  rcases hcall : m.host.callOn m.call m.fuel d v args s.world with ⟨⟨_ | _, left⟩, w⟩ <;>
    simp [hcall, h]

/-- A method that is called on the contents of a slot. -/
theorem callSlot_guards (hm : m.Careful W) {d : Method} {k : Nat} {args : List Value} :
    Guards W (do
      let v ← readSlot k
      m.callAt d v args fun v s => { s with locals := s.locals.setIfInBounds k v }) := by
  intro s
  have hget : (get : MachineM MachineState) s = .ok s s := rfl
  simp only [MachineM.readSlot, Bind.bind, EStateM.bind, hget]
  cases hk : s.locals[k]? with
  | none => exact .refl _
  | some v =>
    have hid : identityAt s.locals k = v.identity? := by simp [identityAt, hk]
    have hset : ∀ left, (m.host.callOn m.call m.fuel d v args s.world).1.receiver = left →
        Keeps W s.locals (s.locals.setIfInBounds k (left.getD v)) := fun left hleft => by
      refine .set (hm.imp (fun h => h k) fun hhost i hi => ?_)
      rw [hid] at hi
      cases left with
      | none => exact hi
      | some v' => exact hhost _ _ _ _ _ _ _ _ hi hleft
    simp only [entry, callAt, Pure.pure, EStateM.pure]
    rcases hcall : m.host.callOn m.call m.fuel d v args s.world with ⟨⟨_ | _, left⟩, w⟩ <;>
      rw [hcall] at hset <;> simpa [hcall] using hset left rfl

theorem callReceiver_guards (hm : m.Careful W) {d : Method} {v : Value} {args : List Value} :
    Guards W (m.callReceiver d v args) := by
  unfold callReceiver
  split
  · exact .ofRun
  · exact callSlot_guards hm
  · exact Guards.ofRun.bind fun _ => callAt_guards fun _ _ => rfl
  · exact callAt_guards fun _ _ => rfl

theorem callEntry_guards (hm : m.Careful W) {k : Nat} {b : Bool} :
    Guards W (m.callEntry k b) := by
  unfold callEntry
  refine Guards.entry.bind fun d => Guards.popMany.bind fun args => ?_
  have hpush : ∀ v, Guards W (if !d.ret.isVoid then push v else pure ()) := fun _ =>
    .ite .push .pure
  exact .ite (Guards.ofRun.bind hpush)
    (Guards.pop.bind fun _ => (callReceiver_guards hm).bind hpush)

theorem invoke_guards {n : Nat} : Guards W (m.invoke n) := by
  refine Guards.popMany.bind fun args => Guards.pop.bind fun v => ?_
  split
  · exact Guards.ofRun.bind fun _ => .push
  · exact .ofRun
  · exact .throw

theorem cellRefs_guards {vs : List Value} : Guards W (cellRefs vs) := by
  fun_induction cellRefs vs with
  | case1 => exact .pure
  | case2 ref rest ih => exact ih.bind fun _ => .pure
  | case3 v rest h => exact .throw

theorem curry_guards {n : Nat} : Guards W (curry n) := by
  refine Guards.popMany.bind fun cells => Guards.pop.bind fun v => ?_
  split
  · exact cellRefs_guards.bind fun _ => Guards.get.bind fun _ => Guards.entry.bind fun _ =>
      Guards.ofRun.bind fun _ => .push
  · exact .throw

theorem follow_guards {v : Value} : Guards W (follow v) := by
  unfold follow
  split
  · exact .readSlot
  · exact .ofRun
  · exact .pure

/-- A field of the contents of a slot is stored to. -/
theorem storeInSlot_guards {k n : Nat} {x : Value} : Guards W (do
    let v ← RunM.setField (← readSlot k) n x
    writeSlot k v) := by
  intro s
  have hget : (get : MachineM MachineState) s = .ok s s := rfl
  simp only [MachineM.readSlot, Bind.bind, EStateM.bind, hget]
  cases hk : s.locals[k]? with
  | none => exact .refl _
  | some v =>
    have hlt := (Array.getElem?_eq_some_iff.1 hk).1
    have hid : identityAt s.locals k = v.identity? := by simp [identityAt, hk]
    simp only [entry, Pure.pure, EStateM.pure, liftM, monadLift, MonadLift.monadLift,
      MachineM.ofRun]
    cases hset : RunM.setField v n x s.world with
    | error f w => exact .refl _
    | ok v' w =>
      simp only [MachineM.writeSlot, hlt, if_true]
      exact .set (.inr fun i hi => RunM.setField_identity hset (hid ▸ hi))

theorem storeInField_guards {k : Nat} {o v : Value} : Guards W (storeInField k o v) := by
  unfold storeInField
  split
  · exact storeInSlot_guards
  · exact Guards.ofRun.bind fun _ => Guards.ofRun.bind fun _ => .ofRun
  · exact Guards.ofRun.bind fun _ => .pure

theorem checkCast_guards {k : Nat} : Guards W (m.checkCast k) :=
  Guards.entry.bind fun _ => Guards.peek.bind fun _ =>
    .ite (Guards.get.bind fun _ => .ofRun) .pure

theorem departed_locals (m : Machine) (origin target : Nat) (μ : MachineState) :
    (m.departed origin target μ).locals = μ.locals := by
  unfold departed
  split <;> rfl

theorem endFinally_guards : Guards W m.endFinally := by
  refine .of_eq fun s => ?_
  have hget : (get : MachineM MachineState) s = .ok s s := rfl
  simp only [endFinally, bind, EStateM.bind, hget]
  cases hpend : s.pending with
  | nil => rfl
  | cons frame rest =>
    have hset : (set { s with pending := rest } : MachineM Unit) s =
        .ok () { s with pending := rest } := rfl
    cases hafter : frame.after with
    | leave q =>
      simp only [EStateM.bind, hset, hafter, leave_eq]
      exact departed_locals m _ q _
    | rethrow f =>
      simp only [EStateM.bind, hset, hafter]
      rfl

/-- An instruction changes the slot that it stores to. -/
theorem exec_guards (hm : m.Careful W) {i : Instr} (hi : ∀ k, i.writes? = some k → W k) :
    Guards W (m.exec i) := by
  -- Most instructions are a few elementary actions, and the slot that one of them writes is the
  -- instruction's own.
  have go : ∀ {x : MachineM Unit}, Guards W x → Guards W (do
      x
      return (none : Option Value)) := fun hx => hx.bind fun _ => .pure
  have test : ∀ {c : Prop} [Decidable c] {q : Nat},
      Guards W (if c then continueAt q else Pure.pure ()) := .ite .continueAt .pure
  cases i
  case halt => exact .throw
  case nop => exact .pure
  case constNull | constUnit | constBool | constI32 | loadLocalAddress => exact go .push
  case constLiteral => exact go (Guards.entry.bind fun _ => .push)
  case loadConstant => exact go (constant_guards.bind fun _ => .push)
  case pop => exact go (Guards.pop.bind fun _ => .pure)
  case dup => exact go (Guards.peek.bind fun _ => .push)
  case loadLocal => exact go (Guards.readSlot.bind fun _ => .push)
  case storeLocal => exact go (Guards.pop.bind fun _ => .writeSlot (hi _ rfl))
  case newCell =>
    exact go (Guards.pop.bind fun _ => Guards.ofRun.bind fun _ => .writeSlot (hi _ rfl))
  case loadCell => exact go (Guards.cellIn.bind fun _ => Guards.ofRun.bind fun _ => .push)
  case storeCell => exact go (Guards.pop.bind fun _ => Guards.cellIn.bind fun _ => .ofRun)
  case loadCellAddress => exact go (Guards.cellIn.bind fun _ => .push)
  case loadCaptured => exact go (captured_guards.bind fun _ => Guards.ofRun.bind fun _ => .push)
  case storeCaptured => exact go (Guards.pop.bind fun _ => captured_guards.bind fun _ => .ofRun)
  case loadCapturedCell | loadCapturedAddress => exact go (captured_guards.bind fun _ => .push)
  case arith | logical | compare | concat =>
    exact go (Guards.popTwo.bind fun ⟨_, _⟩ => Guards.ofRun.bind fun _ => .push)
  case eq | notEq => exact go (Guards.popTwo.bind fun ⟨_, _⟩ => .push)
  case negate | not | convert =>
    exact go (Guards.pop.bind fun _ => Guards.ofRun.bind fun _ => .push)
  case unwrapNullable => exact go (Guards.peek.bind fun _ => .ite .ofRun .pure)
  case castClass => exact go checkCast_guards
  case jump => exact go .continueAt
  case jumpIfFalse | jumpIfTrue => exact go (Guards.popTruth.bind fun _ => test)
  case jumpIfNull | jumpIfNotNull => exact go (Guards.pop.bind fun _ => test)
  case leave =>
    refine .of_eq fun s => ?_
    rw [exec_leave]
    exact departed_locals m _ _ s
  case endFinally => exact go endFinally_guards
  case throw => exact Guards.pop.bind fun _ => .ite .ofRun .throw
  case ret => exact Guards.pop.bind fun _ => .pure
  case call | callVirtual => exact go (callEntry_guards hm)
  case invoke => exact go invoke_guards
  case curry => exact go curry_guards
  case newStruct => exact go (Guards.popMany.bind fun _ => Guards.entry.bind fun _ =>
    Guards.ofRun.bind fun _ => .push)
  case loadField => exact go (Guards.pop.bind fun _ => follow_guards.bind fun _ =>
    Guards.ofRun.bind fun _ => .push)
  case storeField => exact go (Guards.pop.bind fun _ => Guards.pop.bind fun _ => storeInField_guards)
  case newArray => exact go (Guards.popMany.bind fun _ => Guards.ofRun.bind fun _ => .push)
  case newArrayBounds => exact go (Guards.pop.bind fun _ => Guards.ofRun.bind fun _ =>
    Guards.entry.bind fun _ => Guards.ofRun.bind fun _ => .push)
  case loadElement => exact go (Guards.popTwo.bind fun ⟨_, _⟩ => Guards.ofRun.bind fun _ => .push)
  case storeElement => exact go (Guards.pop.bind fun _ => Guards.popTwo.bind fun ⟨_, _⟩ => .ofRun)
  case arrayLength => exact go (Guards.pop.bind fun _ => Guards.ofRun.bind fun _ => .push)

/-- An exception that is taken goes to the slot of its handler. -/
theorem dispatch_guards (f : Fault) (origin : Nat)
    (hW : ∀ h ∈ m.code.handlers, ∀ t k q, h.kind = .catching t k q → W k) :
    Guards W (m.dispatch f origin) := by
  unfold dispatch
  split
  · exact .throw
  · dsimp only
    split
    · exact .throw
    · rename_i i h hfound
      have hmem : h ∈ m.code.handlers := by
        obtain ⟨j, -, hj⟩ := Option.bind_eq_some_iff.1 hfound
        obtain ⟨k, hk, heq⟩ := Option.map_eq_some_iff.1 hj
        cases heq
        exact List.mem_of_getElem? hk
      refine Guards.bind (.of_eq fun _ => rfl) fun _ => ?_
      split
      · rename_i t slot q hkind
        exact (Guards.writeSlot (hW h hmem t slot q hkind)).bind fun _ => .continueAt
      · exact Guards.bind (.of_eq fun _ => rfl) fun _ => .continueAt
      · exact Guards.bind (.of_eq fun _ => rfl) fun _ => .continueAt

/-- A turn that goes on carries an instruction out, or hands its failure over. -/
theorem turn_goes (h : m.turn μ = .goes μ') : m.step μ = .ok none μ' ∨
    ∃ f s, m.step μ = .error f s ∧ m.dispatch f (s.pointer - 1) s = .ok () μ' := by
  unfold turn at h
  cases hs : m.step μ with
  | ok r s =>
    rw [hs] at h
    cases r with
    | none =>
      cases h
      exact .inl rfl
    | some v => cases h
  | error f s =>
    rw [hs] at h
    dsimp only at h
    cases hd : m.dispatch f (s.pointer - 1) s with
    | ok u s' =>
      rw [hd] at h
      cases h
      exact .inr ⟨f, s, rfl, hd⟩
    | error f s' =>
      rw [hd] at h
      cases h

/-- **A turn changes only slots that the code writes.** -/
theorem turn_keeps (hm : m.Careful W)
    (hi : ∀ i k, m.code.instrs[μ.pointer]? = some i → i.writes? = some k → W k)
    (hW : ∀ h ∈ m.code.handlers, ∀ t k q, h.kind = .catching t k q → W k)
    (h : m.turn μ = .goes μ') : Keeps W μ.locals μ'.locals := by
  cases hinstr : m.code.instrs[μ.pointer]? with
  | none =>
    have := step_of_none (m := m) hinstr
    rcases turn_goes h with hs | ⟨f, s, hs, hd⟩
    · rw [this] at hs
      cases hs
    · rw [this] at hs
      cases hs
      cases hd
  | some i =>
    have hexec := exec_guards hm (hi i · hinstr) { μ with pointer := μ.pointer + 1 }
    rw [← step_of_some hinstr] at hexec
    rcases turn_goes h with hs | ⟨f, s, hs, hd⟩
    · rw [hs] at hexec
      exact hexec
    · rw [hs] at hexec
      have hdisp := dispatch_guards f (s.pointer - 1) hW s
      rw [hd] at hdisp
      exact hexec.trans hdisp

end Machine

/-! ## Where control goes -/

/-- Jumps and handlers go to positions of a kind. -/
structure Code.Lands (code : Code) (P : Nat → Prop) : Prop where
  jumps : ∀ (p : Nat) (i : Instr) (q : Nat), code.instrs[p]? = some i → i.target? = some q → P q
  handlers : ∀ h ∈ code.handlers, P h.target

/-- Blocks that are run on the way to somewhere go on to positions of a kind. -/
def Awaits (P : Nat → Prop) (pending : List Pending) : Prop :=
  ∀ frame ∈ pending, ∀ q, frame.after = .leave q → P q

namespace Machine

open MachineM

variable {m : Machine} {P : Nat → Prop} {μ μ' : MachineState}

/-- Leaving towards a position leads there, or to a handler on the way. -/
theorem departed_lands (hc : m.code.Lands P) (origin : Nat) {target : Nat} (ht : P target)
    (hw : Awaits P μ.pending) :
    P (m.departed origin target μ).pointer ∧ Awaits P (m.departed origin target μ).pending := by
  unfold departed
  split
  · rename_i i h hfound
    obtain ⟨j, -, hj⟩ := Option.bind_eq_some_iff.1 hfound
    obtain ⟨_, hk, heq⟩ := Option.map_eq_some_iff.1 hj
    cases heq
    refine ⟨hc.handlers h (List.mem_of_getElem? hk), fun frame hframe q hq => ?_⟩
    rcases List.mem_cons.1 hframe with rfl | hframe
    · cases hq
      exact ht
    · exact hw frame hframe q hq
  · exact ⟨ht, hw⟩

/-- What an instruction does to the pointer and to the blocks being run. -/
theorem step_lands (hc : m.code.Lands P) (hw : Awaits P μ.pending) :
    (∀ s, m.step μ = .ok none s → Awaits P s.pending ∧
      (P s.pointer ∨ s.pointer = μ.pointer + 1)) ∧
    ∀ f s, m.step μ = .error f s → Awaits P s.pending := by
  cases hi : m.code.instrs[μ.pointer]? with
  | none =>
    rw [step_of_none hi]
    refine ⟨fun s hs => (by cases hs), fun f s hs => ?_⟩
    cases hs
    exact hw
  | some i =>
    have hstep := step_of_some hi
    cases hf : i.falls with
    | true =>
      cases hq : i.target? with
      | none =>
        have hsteady := exec_steady (m := m) (Instr.isStraight_of_falls hf hq)
          { μ with pointer := μ.pointer + 1 }
        rw [← hstep] at hsteady
        refine ⟨fun s hs => ?_, fun f s hs => ?_⟩ <;> rw [hs] at hsteady
        · exact ⟨hsteady.2 ▸ hw, .inr hsteady.1⟩
        · exact hsteady.2 ▸ hw
      -- A jump goes to its target or, its condition being false, to the next instruction.
      | some q =>
        have hhops := exec_hops (m := m) hq hf { μ with pointer := μ.pointer + 1 }
        rw [← hstep] at hhops
        refine ⟨fun s hs => ?_, fun f s hs => ?_⟩ <;> rw [hs] at hhops
        · refine ⟨hhops.2 ▸ hw, hhops.1.symm.imp_left fun hland : s.pointer = q => ?_⟩
          exact hland ▸ hc.jumps _ i q hi hq
        · exact hhops.2 ▸ hw
    | false =>
      cases i
      case leave q =>
        rw [hstep, exec_leave]
        refine ⟨fun s hs => ?_, fun f s hs => (by cases hs)⟩
        cases hs
        have hland := departed_lands (μ := { μ with pointer := μ.pointer + 1 }) hc μ.pointer
          (hc.jumps _ _ q hi rfl) hw
        exact ⟨hland.2, .inl hland.1⟩
      case endFinally =>
        cases hpend : μ.pending with
        | nil =>
          rw [step_endFinally_nil hi hpend]
          refine ⟨fun s hs => (by cases hs), fun f s hs => ?_⟩
          cases hs
          exact hw
        | cons frame rest =>
          rw [step_endFinally hi hpend]
          have hrest : Awaits P rest := fun x hx => hw x (hpend ▸ List.mem_cons_of_mem _ hx)
          cases hafter : frame.after with
          | leave q =>
            refine ⟨fun s hs => ?_, fun f s hs => (by cases hs)⟩
            cases hs
            have hland := departed_lands
              (μ := { μ with pointer := μ.pointer + 1, pending := rest }) hc μ.pointer
              (hw frame (hpend ▸ List.mem_cons_self ..) q hafter) hrest
            exact ⟨hland.2, .inl hland.1⟩
          | rethrow f =>
            refine ⟨fun s hs => (by cases hs), fun f s hs => ?_⟩
            cases hs
            exact hrest
      all_goals cases hf

/-- **A turn goes on to the next instruction, or lands.** -/
theorem turn_lands (hc : m.code.Lands P) (hw : Awaits P μ.pending) (h : m.turn μ = .goes μ') :
    Awaits P μ'.pending ∧
      (P μ'.pointer ∨ μ'.pointer = μ.pointer + 1 ∧ m.step μ = .ok none μ') := by
  obtain ⟨hok, herror⟩ := step_lands hc hw
  rcases turn_goes h with hs | ⟨f, s, hs, hd⟩
  · exact ⟨(hok μ' hs).1, (hok μ' hs).2.imp_right fun h => ⟨h, hs⟩⟩
  · obtain ⟨i, k, v, hk, -, -, hptr, hpend⟩ := dispatch_ok hd
    refine ⟨fun frame hframe q hq => ?_, .inl (hptr ▸ hc.handlers k (List.mem_of_getElem? hk))⟩
    rw [hpend] at hframe
    rcases List.mem_append.1 hframe with hframe | hframe
    · split at hframe
      · obtain rfl := List.mem_singleton.1 hframe
        cases hq
      · cases hframe
    · exact herror f s hs frame (List.mem_filter.1 hframe).1 q hq

/-- A return goes on to no instruction. -/
theorem step_ret (hi : m.code.instrs[μ.pointer]? = some .ret) : m.step μ ≠ .ok none μ' := by
  rw [step_of_some hi]
  simp only [exec, Functor.map, EStateM.map, pop]
  cases μ.stack <;> simp

end Machine

end TreeCode

import TreeCode.Proofs.Lower.Acts
import TreeCode.Proofs.Machine.Turn

/-!
# Places in finished code

A draft that leads to a finished one is a place in the finished code: the position where
the draft ends, with the height of the operand stack there. Here a machine that runs
finished code is followed from place to place.

Main definitions:

* `At` — the machine stands where a draft ends, at the height the draft has there.
* `Landed` — the machine stands where a label is placed.
* `Draft.Finished` — no jump waits for its label.

Main results:

* `At.carried` — the machine stands behind an instruction that was carried out.
* `Draft.Finished.jump` — where a jump goes.
-/

namespace TreeCode

open Draft Lower

variable {F s s' : Draft} {m : Machine} {μ μ' : MachineState} {st st' : List Value}
  {pd : List Pending} {i : Instr} {r : Nat}

/-- The machine stands at the end of the code of a draft. -/
structure At (s : Draft) (st : List Value) (pd : List Pending) (μ : MachineState) : Prop where
  pointer : μ.pointer = s.instrs.size
  reachable : s.reachable = true
  stack : μ.stack = st
  height : st.length = s.depth
  pending : μ.pending = pd

/-- The machine stands where the label `r` is placed. -/
structure Landed (F : Draft) (r : Nat) (st : List Value) (pd : List Pending) (μ : MachineState) :
    Prop where
  label : ∃ l, F.labels[r]? = some l ∧ l.position = some μ.pointer ∧ l.depth = some st.length
  stack : μ.stack = st
  pending : μ.pending = pd

/-- A label placed in a draft is where the finished draft has it. -/
theorem Lower.Placed.final (h : Placed s s' r) (hF : s'.Leads F) :
    ∃ l, F.labels[r]? = some l ∧ l.position = some s.instrs.size ∧
      l.depth = some s'.depth ∧ l.cleanup = some s.cleanups.head? := by
  obtain ⟨l, hl, hp, hd, hc⟩ := h.label
  obtain ⟨l', hl', hb⟩ := hF.label r l hl
  exact ⟨l', hl', hb.position _ hp, hb.depth _ hd, hb.cleanup _ _ hp hc⟩

/-- Arrival at a label by a jump. -/
theorem Landed.place (h : Landed F r st pd μ) (hp : Placed s s' r) (hF : s'.Leads F) :
    At s' st pd μ := by
  obtain ⟨l, hl, hpos, hd⟩ := h.label
  obtain ⟨l', hl', hpos', hd', -⟩ := hp.final hF
  have : l = l' := by simpa [hl] using hl'
  subst this
  rw [hpos'] at hpos
  rw [hd'] at hd
  exact ⟨by simpa [hp.size] using hpos.symm, hp.reachable, h.stack, by simpa using hd.symm,
    h.pending⟩

/-- Arrival at a label from above. -/
theorem At.placed (h : At s st pd μ) (hp : Placed s s' r) : At s' st pd μ where
  pointer := h.pointer.trans hp.size.symm
  reachable := hp.reachable
  stack := h.stack
  height := h.height.trans (hp.depth h.reachable).symm
  pending := h.pending

/-- No jump waits for its label. -/
def Draft.Finished (F : Draft) : Prop :=
  ∀ (r : Nat) (l : DraftLabel), F.labels[r]? = some l → l.position = none → l.fixups = []

/-- A jump that is aimed at a label in a draft goes there in the finished one. -/
theorem Draft.Finished.aimed (R : F.Finished) {p : Nat} {c : Option Nat} (h : s.Aims p i r c)
    (hF : s.Leads F) :
    ∃ l q, F.labels[r]? = some l ∧ l.position = some q ∧ l.cleanup = some c ∧
      F.instrs[p]? = some (i.withTarget q) := by
  obtain ⟨l, hl, hcase⟩ := (hF.aims p i r c h).known
  rcases hcase with ⟨hn, hmem, -⟩ | ⟨q, hq, hc, hi⟩
  · rw [R r l hl hn] at hmem
    simp at hmem
  · exact ⟨l, q, hl, hq, hc, hi⟩

/-- Where a jump goes; `taken` tells whether it goes to its label. -/
theorem Draft.Finished.jump (R : F.Finished) {env : LowerEnv} {u : Unit} (taken : Bool)
    (st' : List Value) (h : At s st pd μ) (hj : jumpTo i r env s = .ok (u, s')) (hs : s.Sound)
    (hr : r < s.labels.size) (hF : s'.Leads F) (ht : taken = false → i.transfersControl = false)
    (hlen : st'.length = st.length - (effectOf s.methods i).1 + (effectOf s.methods i).2) :
    ∃ q, F.instrs[μ.pointer]? = some (i.withTarget q) ∧
      if taken then Landed F r st' pd { μ with stack := st', pointer := q }
      else At s' st' pd { μ with stack := st', pointer := μ.pointer + 1 } := by
  have hjump := jumpTo_jumped hj
  obtain ⟨l, q, hl, hq, -, hi⟩ := R.aimed (hjump.aims hs hr) hF
  have hdepth : st'.length = s'.depth := by
    rw [hjump.depth, hlen]
    simp [Draft.emitted, h.height]
  rw [← h.pointer] at hi
  refine ⟨q, hi, ?_⟩
  cases taken with
  | true =>
    obtain ⟨l₀, hl₀, hd₀⟩ := hjump.level hr
    obtain ⟨l₁, hl₁, hb⟩ := hF.label r l₀ hl₀
    have : l₁ = l := by simpa [hl] using hl₁.symm
    subst this
    exact ⟨⟨l₁, hl, hq, by rw [hdepth]; exact hb.depth _ hd₀⟩, rfl, h.pending⟩
  | false =>
    refine ⟨?_, ?_, rfl, hdepth, h.pending⟩
    · simp [h.pointer, hjump.size]
    · simp [hjump.reachable, h.reachable, ht rfl]

/-- An instruction that was emitted is in the finished code. -/
theorem Draft.Leads.emitted (hF : (s.emitted i).Leads F) (hi : i.target? = none) :
    F.instrs[s.instrs.size]? = some i :=
  hF.instr (by simp [Draft.emitted]) hi

/-- The machine stands behind an instruction that was carried out. -/
theorem At.carried (h : At s st pd μ) (ht : i.transfersControl = false)
    (hptr : μ'.pointer = μ.pointer + 1) (hstack : μ'.stack = st') (hpd : μ'.pending = μ.pending)
    (hlen : st'.length = st.length - (effectOf s.methods i).1 + (effectOf s.methods i).2) :
    At (s.emitted i) st' pd μ' where
  pointer := by simp [hptr, h.pointer, Draft.emitted]
  reachable := by simp [Draft.emitted, h.reachable, ht]
  stack := hstack
  height := by simp [hlen, Draft.emitted, h.height]
  pending := hpd.trans h.pending

/-- What an instruction does that stands for an action on the world: `r` is the
result of the action, `out` what is pushed on `rest`. -/
def MachineState.acted {α : Type} (μ : MachineState) (out : α → List Value) (rest : List Value)
    (r : EStateM.Result Fault World α) : EStateM.Result Fault MachineState (Option Value) :=
  match r with
  | .ok v w => .ok none { μ with world := w, stack := out v ++ rest }
  | .error f w => .error f { μ with world := w, stack := rest }

/-- What an instruction of a binary operator makes of two operands; `none` for
other instructions. -/
def Instr.combine? (l r : Value) : Instr → Option (Except OpError Value)
  | .arith op _ | .logical op => some (Operator.arith op l r)
  | .compare op _ => some (.bool <$> Operator.compare op l r)
  | .eq => some (.ok (.bool (l.equals r)))
  | .notEq => some (.ok (.bool !(l.equals r)))
  | .concat => some (Operator.concat l r)
  | _ => none

/-- Such an instruction takes two operands, leaves one value and goes on with the next. -/
theorem Instr.plain_of_combine? {i : Instr} {l r : Value} {x : Except OpError Value}
    (h : i.combine? l r = some x) :
    i.target? = none ∧ i.transfersControl = false ∧ effectOf s.methods i = (2, 1) := by
  cases i <;> simp_all [Instr.combine?, Instr.target?, Instr.transfersControl, effectOf]

namespace Machine

theorem goes_of_exec (hi : m.code.instrs[μ.pointer]? = some i)
    (h : m.exec i { μ with pointer := μ.pointer + 1 } = .ok none μ') : m.Goes 1 μ μ' := by
  apply goes_of_turn
  rw [turn, step_of_some hi, h]

/-- The values on top of the stack are taken in the order in which they were pushed. -/
theorem popMany_eq {vs rest : List Value} {n : Nat} {μ : MachineState} (hn : vs.length = n)
    (hμ : μ.stack = vs.reverse ++ rest) :
    MachineM.popMany n μ = .ok vs { μ with stack := rest } := by
  have hle : ¬(vs.reverse ++ rest).length < n := by simp [← hn]
  have htake : (vs.reverse ++ rest).take n = vs.reverse := by simp [← hn]
  have hdrop : (vs.reverse ++ rest).drop n = rest := by simp [← hn]
  simp only [MachineM.popMany, hμ, if_neg hle, htake, hdrop, List.reverse_reverse]

/-- The instruction of a call of a static method stands for the call. -/
theorem exec_call {method : Method} {index : Nat} {args rest : List Value}
    (hm : m.code.methods[index]? = some method) (hstatic : method.isStatic = true)
    (hlen : args.length = method.arity) (hμ : μ.stack = args.reverse ++ rest) :
    m.exec (.call index) μ = μ.acted (fun v => if method.ret.isVoid then [] else [v]) rest
      (m.host.callStatic m.call m.fuel method args μ.world) := by
  obtain ⟨w, p, stack, locals, q⟩ := μ
  obtain rfl : stack = _ := hμ
  have hpop := popMany_eq (μ := ⟨w, p, args.reverse ++ rest, locals, q⟩) hlen rfl
  simp only [Machine.exec, Machine.callEntry, hm, MachineM.entry, bind, EStateM.bind, pure,
    EStateM.pure, hpop, hstatic, if_true, MachineM.ofRun]
  cases m.host.callStatic m.call m.fuel method args w with
  | ok v w' => cases method.ret.isVoid <;> rfl
  | error f w' => rfl

/-- The instruction of a binary operator stands for the operator. -/
theorem exec_combine {i : Instr} {l r : Value} {x : Except OpError Value} {rest : List Value}
    (hx : i.combine? l r = some x) (hμ : μ.stack = r :: l :: rest) :
    m.exec i μ = μ.acted (fun v => [v]) rest (RunM.ofOp x μ.world) := by
  obtain ⟨w, p, stack, locals, q⟩ := μ
  obtain rfl : stack = _ := hμ
  cases i <;> simp only [Instr.combine?, Option.some.injEq, reduceCtorEq] at hx <;> subst hx
  case compare op k =>
    rw [Machine.exec]
    rcases hcmp : Operator.compare op l r with (e | d | _ | _) | v <;>
      simp [MachineM.popTwo, MachineM.pop, bind, EStateM.bind, pure, EStateM.pure, hcmp] <;> rfl
  case arith op k =>
    rw [Machine.exec]
    rcases hcmp : Operator.arith op l r with (e | d | _ | _) | v <;>
      simp [MachineM.popTwo, MachineM.pop, bind, EStateM.bind, pure, EStateM.pure, hcmp] <;> rfl
  case logical op =>
    rw [Machine.exec]
    rcases hcmp : Operator.arith op l r with (e | d | _ | _) | v <;>
      simp [MachineM.popTwo, MachineM.pop, bind, EStateM.bind, pure, EStateM.pure, hcmp] <;> rfl
  case concat =>
    rw [Machine.exec]
    rcases hcmp : Operator.concat l r with (e | d | _ | _) | v <;>
      simp [MachineM.popTwo, MachineM.pop, bind, EStateM.bind, pure, EStateM.pure, hcmp] <;> rfl
  all_goals rfl

end Machine

end TreeCode

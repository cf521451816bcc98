import Mathlib
import TreeCode.Proofs.Compile.Step
import TreeCode.Proofs.Lower.Regions
import TreeCode.Proofs.Machine.Turn

/-!
# Blocks being run

A run keeps a list of the finally and fault blocks that it is in. The list is
filled by leaving and by failing, and emptied at the ends of blocks and when an
exception escapes from them. In compiled code it mirrors the position: control
passes from a block to another one in no other way.

Main definitions:

* `MachineM.Steady` — an action moves neither the pointer nor the blocks being run.
* `Code.Tracks` — the blocks being run are those around a position, and each that
  is run on the way to somewhere goes on to a place among the blocks below it.
* `Machine.Reaches` — a number of turns leads from one state to another.

Main results:

* `Code.Nested.tracks_turn` — a turn keeps track.
* `compileLambda_pending` — **in every state of every run of compiled code, the
  blocks being run are those around the pointer**, and the end of a block ends the
  innermost of them.
-/

namespace TreeCode

/-! ## Actions that stay -/

namespace MachineM

/-- An action moves neither the pointer nor the blocks being run. -/
def Steady {α : Type} (x : MachineM α) : Prop := ∀ s, match x s with
  | .ok _ s' => s'.pointer = s.pointer ∧ s'.pending = s.pending
  | .error _ s' => s'.pointer = s.pointer ∧ s'.pending = s.pending

namespace Steady

variable {α β : Type} {x : MachineM α}

theorem bind {f : α → MachineM β} (hx : Steady x) (hf : ∀ a, Steady (f a)) : Steady (x >>= f) := by
  intro s
  have h := hx s
  simp only [Bind.bind, EStateM.bind]
  cases hs : x s with
  | ok a s₁ =>
    rw [hs] at h
    have h₁ := hf a s₁
    dsimp only at h ⊢
    cases hs₁ : f a s₁ with
    | ok b s₂ =>
      rw [hs₁] at h₁
      exact ⟨h₁.1.trans h.1, h₁.2.trans h.2⟩
    | error e s₂ =>
      rw [hs₁] at h₁
      exact ⟨h₁.1.trans h.1, h₁.2.trans h.2⟩
  | error e s₁ =>
    rw [hs] at h
    exact h

theorem pure {a : α} : Steady (pure a : MachineM α) := fun _ => ⟨rfl, rfl⟩

theorem get : Steady (get : MachineM MachineState) := fun _ => ⟨rfl, rfl⟩

theorem throw {f : Fault} : Steady (throw f : MachineM α) := fun _ => ⟨rfl, rfl⟩

theorem ofRun {x : RunM α} : Steady (ofRun x) := by
  intro s
  unfold MachineM.ofRun
  cases h : x s.world <;> simp [h]

theorem push {v : Value} : Steady (push v) := fun _ => ⟨rfl, rfl⟩

theorem pop : Steady pop := by
  rintro ⟨w, p, _ | ⟨v, st⟩, ls, pd⟩ <;> exact ⟨rfl, rfl⟩

theorem peek : Steady peek := by
  rintro ⟨w, p, _ | ⟨v, st⟩, ls, pd⟩ <;> exact ⟨rfl, rfl⟩

theorem popMany {n : Nat} : Steady (popMany n) := by
  intro s
  by_cases h : s.stack.length < n <;> simp [MachineM.popMany, h]

theorem writeSlot {slot : Nat} {v : Value} : Steady (writeSlot slot v) := by
  intro s
  by_cases h : slot < s.locals.size <;> simp [MachineM.writeSlot, h]

theorem entry {o : Option α} : Steady (entry o) := by
  cases o with
  | none => exact throw
  | some a => exact pure

theorem readSlot {slot : Nat} : Steady (readSlot slot) := get.bind fun _ => entry

theorem cellIn {slot : Nat} : Steady (cellIn slot) := by
  refine readSlot.bind fun v => ?_
  split
  · exact pure
  · exact throw

theorem popTruth : Steady popTruth := by
  refine pop.bind fun v => ?_
  split
  · exact pure
  · exact throw

theorem ite {c : Prop} [Decidable c] {x y : MachineM α} (hx : Steady x) (hy : Steady y) :
    Steady (if c then x else y) := by
  split
  · exact hx
  · exact hy

theorem popTwo : Steady popTwo := pop.bind fun _ => pop.bind fun _ => pure

end Steady

/-- An action may move the pointer to a position, at its end. -/
def Hops {α : Type} (q : Nat) (x : MachineM α) : Prop := ∀ s, match x s with
  | .ok _ s' => (s'.pointer = s.pointer ∨ s'.pointer = q) ∧ s'.pending = s.pending
  | .error _ s' => s'.pointer = s.pointer ∧ s'.pending = s.pending

section Hops

variable {α β : Type} {q : Nat} {x : MachineM α}

theorem Steady.hops (h : Steady x) : Hops q x := by
  intro s
  have h := h s
  cases hs : x s with
  | ok a s' =>
    rw [hs] at h
    exact ⟨.inl h.1, h.2⟩
  | error f s' =>
    rw [hs] at h
    exact h

theorem Steady.bindHops {f : α → MachineM β} (hx : Steady x) (hf : ∀ a, Hops q (f a)) :
    Hops q (x >>= f) := by
  intro s
  have h := hx s
  simp only [Bind.bind, EStateM.bind]
  cases hs : x s with
  | ok a s₁ =>
    rw [hs] at h
    have h₁ := hf a s₁
    dsimp only at h ⊢
    rwa [h.1, h.2] at h₁
  | error f s₁ =>
    rw [hs] at h
    exact h

theorem Hops.continueAt : Hops q (continueAt q) := fun _ => ⟨.inr rfl, rfl⟩

theorem Hops.ite {c : Prop} [Decidable c] {x y : MachineM α} (hx : Hops q x) (hy : Hops q y) :
    Hops q (if c then x else y) := by
  split
  · exact hx
  · exact hy

theorem Hops.done {x : MachineM Unit} (h : Hops q x) : Hops q (do
    x
    return (none : Option Value)) := by
  intro s
  have h := h s
  simp only [Bind.bind, EStateM.bind]
  cases hs : x s with
  | ok a s₁ =>
    rw [hs] at h
    exact h
  | error f s₁ =>
    rw [hs] at h
    exact h

end Hops

end MachineM

theorem Instr.isStraight_of_falls {i : Instr} (hf : i.falls = true) (hi : i.target? = none) :
    i.isStraight = true := by
  cases i <;> first | rfl | cases hi; done | cases hf

namespace Machine

open MachineM

variable {m : Machine} {μ μ' : MachineState}

theorem constant_steady {k : Nat} : Steady (m.constant k) := by
  unfold constant
  split
  · exact .pure
  · exact .throw

theorem captured_steady {k : Nat} : Steady (m.captured k) := by
  unfold captured
  split
  · exact .pure
  · exact .throw

theorem callAt_steady {d : Method} {v : Value} {args : List Value}
    {save : Value → MachineState → MachineState}
    (h : ∀ v s, (save v s).pointer = s.pointer ∧ (save v s).pending = s.pending) :
    Steady (m.callAt d v args save) := by
  intro s
  unfold callAt
  rcases hcall : m.host.callOn m.call m.fuel d v args s.world with ⟨⟨_ | _, left⟩, w⟩ <;>
    simp [hcall, h]

theorem callReceiver_steady {d : Method} {v : Value} {args : List Value} :
    Steady (m.callReceiver d v args) := by
  unfold callReceiver
  split
  · exact .ofRun
  · exact Steady.readSlot.bind fun _ => callAt_steady fun _ _ => ⟨rfl, rfl⟩
  · exact Steady.ofRun.bind fun _ => callAt_steady fun _ _ => ⟨rfl, rfl⟩
  · exact callAt_steady fun _ _ => ⟨rfl, rfl⟩

theorem callEntry_steady {k : Nat} {b : Bool} : Steady (m.callEntry k b) := by
  unfold callEntry
  refine Steady.entry.bind fun d => Steady.popMany.bind fun args => ?_
  have hpush : ∀ v, Steady (if !d.ret.isVoid then push v else pure ()) := fun _ =>
    .ite .push .pure
  exact .ite (Steady.ofRun.bind hpush)
    (Steady.pop.bind fun _ => callReceiver_steady.bind hpush)

theorem invoke_steady {n : Nat} : Steady (m.invoke n) := by
  refine Steady.popMany.bind fun args => Steady.pop.bind fun v => ?_
  split
  · exact Steady.ofRun.bind fun _ => .push
  · exact .ofRun
  · exact .throw

theorem cellRefs_steady {vs : List Value} : Steady (cellRefs vs) := by
  fun_induction cellRefs vs with
  | case1 => exact .pure
  | case2 ref rest ih => exact ih.bind fun _ => .pure
  | case3 v rest h => exact .throw

theorem curry_steady {n : Nat} : Steady (curry n) := by
  refine Steady.popMany.bind fun cells => Steady.pop.bind fun v => ?_
  split
  · exact cellRefs_steady.bind fun _ => Steady.get.bind fun _ => Steady.entry.bind fun _ =>
      Steady.ofRun.bind fun _ => .push
  · exact .throw

theorem follow_steady {v : Value} : Steady (follow v) := by
  unfold follow
  split
  · exact .readSlot
  · exact .ofRun
  · exact .pure

theorem storeInField_steady {k : Nat} {o v : Value} : Steady (storeInField k o v) := by
  unfold storeInField
  split
  · exact Steady.readSlot.bind fun _ => Steady.ofRun.bind fun _ => .writeSlot
  · exact Steady.ofRun.bind fun _ => Steady.ofRun.bind fun _ => .ofRun
  · exact Steady.ofRun.bind fun _ => .pure

theorem checkCast_steady {k : Nat} : Steady (m.checkCast k) :=
  Steady.entry.bind fun _ => Steady.peek.bind fun _ =>
    .ite (Steady.get.bind fun _ => .ofRun) .pure

/-- Instructions that neither jump nor end a block. -/
theorem exec_steady {i : Instr} (hi : i.isStraight = true) : Steady (m.exec i) := by
  -- All but three kinds of instructions do their work and go on.
  have go : ∀ {x : MachineM Unit}, Steady x → Steady (do
      x
      return (none : Option Value)) := fun hx => hx.bind fun _ => .pure
  cases i
  case halt => exact .throw
  case nop => exact .pure
  case constNull | constUnit | constBool | constI32 | loadLocalAddress => exact go .push
  case constLiteral => exact go (Steady.entry.bind fun _ => .push)
  case loadConstant => exact go (constant_steady.bind fun _ => .push)
  case pop => exact go (Steady.pop.bind fun _ => .pure)
  case dup => exact go (Steady.peek.bind fun _ => .push)
  case loadLocal => exact go (Steady.readSlot.bind fun _ => .push)
  case storeLocal => exact go (Steady.pop.bind fun _ => .writeSlot)
  case newCell => exact go (Steady.pop.bind fun _ => Steady.ofRun.bind fun _ => .writeSlot)
  case loadCell => exact go (Steady.cellIn.bind fun _ => Steady.ofRun.bind fun _ => .push)
  case storeCell => exact go (Steady.pop.bind fun _ => Steady.cellIn.bind fun _ => .ofRun)
  case loadCellAddress => exact go (Steady.cellIn.bind fun _ => .push)
  case loadCaptured => exact go (captured_steady.bind fun _ => Steady.ofRun.bind fun _ => .push)
  case storeCaptured => exact go (Steady.pop.bind fun _ => captured_steady.bind fun _ => .ofRun)
  case loadCapturedCell | loadCapturedAddress => exact go (captured_steady.bind fun _ => .push)
  case arith | logical | compare | concat =>
    exact go (Steady.popTwo.bind fun ⟨_, _⟩ => Steady.ofRun.bind fun _ => .push)
  case eq | notEq => exact go (Steady.popTwo.bind fun ⟨_, _⟩ => .push)
  case negate | not | convert =>
    exact go (Steady.pop.bind fun _ => Steady.ofRun.bind fun _ => .push)
  case unwrapNullable => exact go (Steady.peek.bind fun _ => .ite .ofRun .pure)
  case castClass => exact go checkCast_steady
  case throw => exact Steady.pop.bind fun _ => .ite .ofRun .throw
  case ret => exact Steady.pop.bind fun _ => .pure
  case call | callVirtual => exact go callEntry_steady
  case invoke => exact go invoke_steady
  case curry => exact go curry_steady
  case newStruct => exact go (Steady.popMany.bind fun _ => Steady.entry.bind fun _ =>
    Steady.ofRun.bind fun _ => .push)
  case loadField => exact go (Steady.pop.bind fun _ => follow_steady.bind fun _ =>
    Steady.ofRun.bind fun _ => .push)
  case storeField => exact go (Steady.pop.bind fun _ => Steady.pop.bind fun _ => storeInField_steady)
  case newArray => exact go (Steady.popMany.bind fun _ => Steady.ofRun.bind fun _ => .push)
  case newArrayBounds => exact go (Steady.pop.bind fun _ => Steady.ofRun.bind fun _ =>
    Steady.entry.bind fun _ => Steady.ofRun.bind fun _ => .push)
  case loadElement => exact go (Steady.popTwo.bind fun ⟨_, _⟩ => Steady.ofRun.bind fun _ => .push)
  case storeElement => exact go (Steady.pop.bind fun _ => Steady.popTwo.bind fun ⟨_, _⟩ => .ofRun)
  case arrayLength => exact go (Steady.pop.bind fun _ => Steady.ofRun.bind fun _ => .push)
  -- Jumps and ends of blocks are not straight.
  all_goals cases hi

/-- Jumps other than the ones that leave regions. -/
theorem exec_hops {i : Instr} {q : Nat} (hq : i.target? = some q) (hi : i.falls = true) :
    Hops q (m.exec i) := by
  have test : ∀ {c : Prop} [Decidable c], Hops q (if c then continueAt q else Pure.pure ()) :=
    .ite .continueAt Steady.pure.hops
  cases i
  case jump => exact Option.some.inj hq ▸ Hops.continueAt.done
  case jumpIfFalse | jumpIfTrue =>
    exact Option.some.inj hq ▸ (Steady.popTruth.bindHops fun _ => test).done
  case jumpIfNull | jumpIfNotNull =>
    exact Option.some.inj hq ▸ (Steady.pop.bindHops fun _ => test).done
  case leave => cases hi
  all_goals cases hq

/-- The end of a block takes it off the blocks being run, and goes on with what led
to it. -/
theorem step_endFinally {frame : Pending} {rest : List Pending}
    (hi : m.code.instrs[μ.pointer]? = some .endFinally) (h : μ.pending = frame :: rest) :
    m.step μ = match frame.after with
      | .leave q => .ok none
          (m.departed μ.pointer q { μ with pointer := μ.pointer + 1, pending := rest })
      | .rethrow f => .error f { μ with pointer := μ.pointer + 1, pending := rest } := by
  have hget : ∀ s : MachineState, (get : MachineM MachineState) s = .ok s s := fun _ => rfl
  have hset : ∀ s s' : MachineState, (set s' : MachineM Unit) s = .ok () s' := fun _ _ => rfl
  rw [step_of_some hi]
  simp only [exec, endFinally, bind, EStateM.bind, hget, h, hset, Nat.add_sub_cancel]
  cases frame.after with
  | leave q => simp only [leave_eq, pure, EStateM.pure]
  | rethrow f => rfl

/-- Without a block being run there is none to end. -/
theorem step_endFinally_nil (hi : m.code.instrs[μ.pointer]? = some .endFinally)
    (h : μ.pending = []) :
    m.step μ = .error (.defect (.nothingPending μ.pointer)) { μ with pointer := μ.pointer + 1 } := by
  have hget : ∀ s : MachineState, (get : MachineM MachineState) s = .ok s s := fun _ => rfl
  rw [step_of_some hi]
  simp only [exec, endFinally, bind, EStateM.bind, hget, h]
  rfl

/-- What becomes of the blocks being run when a failure is handled. -/
theorem dispatch_ok {f : Fault} {origin : Nat} {s s' : MachineState} {u : Unit}
    (h : m.dispatch f origin s = .ok u s') :
    ∃ (i : Nat) (k : Handler) (v : Value), m.code.handlers[i]? = some k ∧
      f = .thrown v ∧ k.covers origin = true ∧ s'.pointer = k.target ∧
      s'.pending = (if k.isCleanup then [⟨i, .rethrow f⟩] else []) ++
        s.pending.filter fun frame => !m.escapes origin k.target frame := by
  cases f with
  | thrown v =>
    simp only [dispatch, Fault.thrown?] at h
    cases hfound : m.code.handlers.findIdx? (takes origin v) with
    | none =>
      rw [hfound] at h
      cases h
    | some i =>
      -- The first entry that takes the exception is the one that control goes to.
      obtain ⟨hlt, htakes, -⟩ := List.findIdx?_eq_some_iff_getElem.1 hfound
      have hget : m.code.handlers[i]? = some m.code.handlers[i] := List.getElem?_eq_getElem hlt
      generalize m.code.handlers[i] = k at htakes hget
      have hcov : k.covers origin = true := (Bool.and_eq_true_iff.1 htakes).1
      simp only [hfound, Option.bind_some, hget, Option.map_some] at h
      refine ⟨i, k, v, hget, rfl, hcov, ?_⟩
      rcases hkind : k.kind with ⟨t, slot, q⟩ | ⟨q, e⟩ | ⟨q, e⟩
      · simp only [hkind] at h
        by_cases hslot : slot < s.locals.size
        · simp [modify, modifyGet, MonadStateOf.modifyGet, EStateM.modifyGet, bind, EStateM.bind,
            MachineM.writeSlot, MachineM.continueAt, MachineM.cutBack, hslot] at h
          rw [← h]
          simp [Handler.isCleanup, hkind]
        · simp [modify, modifyGet, MonadStateOf.modifyGet, EStateM.modifyGet, bind, EStateM.bind,
            MachineM.writeSlot, MachineM.cutBack, hslot] at h
      -- Only a handler of exceptions has a slot to fill; blocks are entered as they are.
      · simp only [hkind] at h
        cases h
        simp [Handler.isCleanup, hkind]
      · simp only [hkind] at h
        cases h
        simp [Handler.isCleanup, hkind]
  | _ => cases h

end Machine

/-! ## Keeping track -/

/-- Every block that is run on the way to a position goes on to a place in the
blocks below it. -/
def Code.Ordered (code : Code) : List Pending → Prop
  | [] => True
  | frame :: rest => (∀ t, frame.after = .leave t →
      blocksAt 0 code.handlers t = rest.map (·.handler)) ∧ code.Ordered rest

/-- The blocks being run are those around a position. -/
structure Code.Tracks (code : Code) (pending : List Pending) (p : Nat) : Prop where
  blocks : pending.map (·.handler) = blocksAt 0 code.handlers p
  ordered : code.Ordered pending

theorem Code.Ordered.right {code : Code} {fs fs' : List Pending} (h : code.Ordered (fs ++ fs')) :
    code.Ordered fs' := by
  induction fs with
  | nil => exact h
  | cons f fs ih => exact ih h.2

/-- The blocks `rest` around a position, but for one that has just ended. -/
def Code.Remain (code : Code) (p : Nat) (rest : List Nat) : Prop :=
  rest = blocksAt 0 code.handlers p ∨
    code.instrs[p]? = some .endFinally ∧ ∃ k, blocksAt 0 code.handlers p = k :: rest

namespace Code.Nested

variable {code : Code} {m : Machine} {p q k : Nat} {h : Handler} {rest inn out : List Nat}
  {fs : List Pending}

/-- A region around the end of a block holds all of it, so its handler is not in the
block. -/
theorem ends_inside (hn : code.Nested) (hend : code.instrs[p]? = some .endFinally)
    (hh : h ∈ code.handlers) (hcov : h.covers p = true) (hnot : h.covers h.target = false)
    (hout : ∀ j ∈ out, j ∈ blocksAt 0 code.handlers h.target)
    (hinn : blocksAt 0 code.handlers p = inn ++ out) : inn ≠ [] := by
  rintro rfl
  obtain ⟨x, j, rest, hx, hj, -, hall⟩ := hn.ends p hend
  have hmem : j ∈ out := by
    rw [List.nil_append, hj] at hinn
    exact hinn ▸ List.mem_cons_self ..
  obtain ⟨y, hy, hyt⟩ := mem_blocksAt_iff.1 (hout j hmem)
  rw [hx, Option.some.injEq] at hy
  rw [hall h hh hcov h.target (hy ▸ hyt)] at hnot
  cases hnot

/-- Of the blocks that remain in a region, the inner ones lie in the region and the
others are around its handler. -/
theorem crossing (hn : code.Nested) (hk : code.handlers[k]? = some h) (hcov : h.covers p = true)
    (hrest : code.Remain p rest) : h.covers h.target = false ∧ ∃ inn out, rest = inn ++ out ∧
      blocksAt 0 code.handlers h.target = (if h.isCleanup then k :: out else out) ∧
      ∀ j ∈ inn, ∃ x, code.handlers[j]? = some x ∧ x.blockHolds p = true ∧
        ∀ q, x.blockHolds q = true → h.covers q = true := by
  obtain ⟨hnot, out, hout, hin⟩ := hn.region h k hk
  obtain ⟨inn, hinn, hblocks⟩ := hin p hcov
  have hinside : ∀ j ∈ inn, ∃ x, code.handlers[j]? = some x ∧ x.blockHolds p = true ∧
      ∀ q, x.blockHolds q = true → h.covers q = true := by
    intro j hj
    obtain ⟨x, hx, hxp⟩ := mem_blocksAt_iff.1
      (hinn ▸ List.mem_append_left _ hj : j ∈ blocksAt 0 code.handlers p)
    exact ⟨x, hx, hxp, hblocks x j hx hj⟩
  refine ⟨hnot, ?_⟩
  rcases hrest with rfl | ⟨hend, j, hj⟩
  · exact ⟨inn, out, hinn, hout, hinside⟩
  · have hmem : ∀ j ∈ out, j ∈ blocksAt 0 code.handlers h.target := fun j hj => by
      rw [hout]
      split
      · exact List.mem_cons_of_mem _ hj
      · exact hj
    obtain ⟨i, inn', rfl⟩ := List.exists_cons_of_ne_nil
      (hn.ends_inside hend (List.mem_of_getElem? hk) hcov hnot hmem hinn)
    rw [hj, List.cons_append] at hinn
    exact ⟨inn', out, (List.cons.inj hinn).2, hout, fun j hj => hinside j (List.mem_cons_of_mem _ hj)⟩

/-- Blocks that control leaves when it goes from a region to its handler are
dropped, the others are kept. -/
theorem filter_escapes (hm : m.code = code) (hnot : h.covers h.target = false)
    (hinn : ∀ j ∈ inn, ∃ x, code.handlers[j]? = some x ∧ x.blockHolds p = true ∧
      ∀ q, x.blockHolds q = true → h.covers q = true)
    (hout : ∀ j ∈ out, j ∈ blocksAt 0 code.handlers h.target)
    (hfs : fs.map (·.handler) = inn ++ out) (hord : code.Ordered fs) :
    (fs.filter fun frame => !m.escapes p h.target frame).map (·.handler) = out ∧
      code.Ordered (fs.filter fun frame => !m.escapes p h.target frame) := by
  obtain ⟨fs₁, fs₂, rfl, hfs₁, rfl⟩ := List.map_eq_append_iff.1 hfs
  have hdrop : fs₁.filter (fun frame => !m.escapes p h.target frame) = [] := by
    rw [List.filter_eq_nil_iff]
    intro frame hframe
    obtain ⟨x, hx, hxp, hin⟩ := hinn frame.handler (hfs₁ ▸ List.mem_map_of_mem hframe)
    have hxt : x.blockHolds h.target = false := Bool.eq_false_iff.2 fun ht => by
      rw [hin _ ht] at hnot
      cases hnot
    simp [Machine.escapes, hm, hx, hxp, hxt]
  have hkeep : fs₂.filter (fun frame => !m.escapes p h.target frame) = fs₂ := by
    rw [List.filter_eq_self]
    intro frame hframe
    obtain ⟨x, hx, hxt⟩ := mem_blocksAt_iff.1 (hout frame.handler (List.mem_map_of_mem hframe))
    simp [Machine.escapes, hm, hx, hxt]
  rw [List.filter_append, hdrop, hkeep]
  exact ⟨rfl, hord.right⟩

/-- An exception is handled. -/
theorem tracks_dispatch (hn : code.Nested) (hm : m.code = code) {f : Fault} {s s' : MachineState}
    {u : Unit} (hd : m.dispatch f p s = .ok u s') (hord : code.Ordered s.pending)
    (hs : code.Remain p (s.pending.map (·.handler))) : code.Tracks s'.pending s'.pointer := by
  subst hm
  obtain ⟨i, k, v, hk, rfl, hcov, hptr, hpend⟩ := Machine.dispatch_ok hd
  obtain ⟨hnot, inn, out, hfs, hout, hinn⟩ := hn.crossing hk hcov hs
  have hmem : ∀ j ∈ out, j ∈ blocksAt 0 m.code.handlers k.target := fun j hj => by
    rw [hout]
    split
    · exact List.mem_cons_of_mem _ hj
    · exact hj
  obtain ⟨hmap, hord'⟩ := filter_escapes rfl hnot hinn hmem hfs hord
  rw [hptr, hpend]
  cases hc : k.isCleanup with
  | false => exact ⟨by simp [hout, hc, hmap], by simpa using hord'⟩
  | true => exact ⟨by simp [hout, hc, hmap], fun t ht => (nomatch ht), hord'⟩

/-- Control leaves for a position. -/
theorem tracks_departed (hn : code.Nested) (hm : m.code = code) {μ : MachineState}
    (hord : code.Ordered μ.pending) (hq : μ.pending.map (·.handler) = blocksAt 0 code.handlers q)
    (hp : code.Remain p (blocksAt 0 code.handlers q)) :
    code.Tracks (m.departed p q μ).pending (m.departed p q μ).pointer := by
  subst hm
  unfold Machine.departed
  cases hfound : m.code.handlers.findIdx? (fun h => h.isFinally && h.covers p && !h.covers q) with
  | none => exact ⟨hq, hord⟩
  | some i =>
    obtain ⟨hlt, hi, -⟩ := List.findIdx?_eq_some_iff_getElem.1 hfound
    have hget : m.code.handlers[i]? = some m.code.handlers[i] := List.getElem?_eq_getElem hlt
    generalize m.code.handlers[i] = h at hi hget
    simp only [Bool.and_eq_true, Bool.not_eq_true'] at hi
    obtain ⟨⟨hfin, hcov⟩, hnot⟩ := hi
    obtain ⟨-, inn, out, hrest, hout, hinn⟩ := hn.crossing hget hcov hp
    -- A block around the position that lies in the region would be crossed too.
    have hnil : inn = [] := List.eq_nil_iff_forall_not_mem.2 fun j hj => by
      obtain ⟨x, hx, -, hin⟩ := hinn j hj
      obtain ⟨y, hy, hyq⟩ := mem_blocksAt_iff.1
        (hrest ▸ List.mem_append_left _ hj : j ∈ blocksAt 0 m.code.handlers q)
      rw [hx, Option.some.injEq] at hy
      rw [hin q (hy ▸ hyq)] at hnot
      cases hnot
    have hcleanup : h.isCleanup = true := by
      unfold Handler.isFinally at hfin
      unfold Handler.isCleanup
      cases hkind : h.kind <;> simp_all
    rw [hnil, List.nil_append] at hrest
    simp only [Option.bind_some, hget, Option.map_some]
    refine ⟨?_, fun t ht => ?_, hord⟩
    · simp [hout, hcleanup, hq, hrest]
    · cases ht
      exact hq.symm

/-- A turn, given what its instruction does. -/
theorem tracks_of_step (hn : code.Nested) (hm : m.code = code) {μ μ' : MachineState}
    (h : m.turn μ = .goes μ')
    (hok : ∀ s, m.step μ = .ok none s → code.Tracks s.pending s.pointer)
    (herror : ∀ f s, m.step μ = .error f s → s.pointer = μ.pointer + 1 ∧
      code.Ordered s.pending ∧ code.Remain μ.pointer (s.pending.map (·.handler))) :
    code.Tracks μ'.pending μ'.pointer := by
  unfold Machine.turn at h
  rcases hstep : m.step μ with ⟨_ | v, s⟩ | ⟨f, s⟩
  · rw [hstep] at h
    cases h
    exact hok _ hstep
  · rw [hstep] at h
    cases h
  · obtain ⟨hptr, hord, hrest⟩ := herror f s hstep
    rw [hstep] at h
    simp only [hptr, Nat.add_sub_cancel] at h
    cases hd : m.dispatch f μ.pointer s with
    | ok u s' =>
      rw [hd] at h
      cases h
      exact hn.tracks_dispatch hm hd hord hrest
    | error f s' =>
      rw [hd] at h
      cases h

/-- The blocks around the pointer are kept by an instruction that does not jump out
of its region or end a block. -/
theorem tracks_falls (hn : code.Nested) {i : Instr} {s : MachineState}
    (ht : code.Tracks fs p) (hi : code.instrs[p]? = some i) (hf : i.falls = true)
    (hs : s.pending = fs)
    (hptr : s.pointer = p + 1 ∨ ∃ q, i.target? = some q ∧ s.pointer = q) :
    code.Tracks s.pending s.pointer := by
  refine ⟨?_, hs ▸ ht.ordered⟩
  rw [hs, ht.blocks]
  rcases hptr with hptr | ⟨q, hq, hptr⟩
  · rw [hptr, hn.falls p i hi hf]
  · rw [hptr, hn.jumps p i q hi hq]

/-- **A turn keeps track** of the blocks being run. -/
theorem tracks_turn (hn : code.Nested) (hm : m.code = code) {μ μ' : MachineState}
    (h : m.turn μ = .goes μ') (ht : code.Tracks μ.pending μ.pointer) :
    code.Tracks μ'.pending μ'.pointer := by
  cases hi : code.instrs[μ.pointer]? with
  | none =>
    rw [Machine.turn, Machine.step_of_none (hm ▸ hi)] at h
    cases h
  | some i =>
    have hstep := Machine.step_of_some (m := m) (hm ▸ hi)
    cases hf : i.falls with
    | true =>
      have hremain : code.Remain μ.pointer (μ.pending.map (·.handler)) := .inl ht.blocks
      -- Control passes on, jumps within the region, or fails here.
      have hends : ∀ s, (∀ f, m.step μ = .error f s → s.pointer = μ.pointer + 1 ∧
          s.pending = μ.pending) ∧ (m.step μ = .ok none s → s.pending = μ.pending ∧
            (s.pointer = μ.pointer + 1 ∨ ∃ q, i.target? = some q ∧ s.pointer = q)) := by
        intro s
        rw [hstep]
        cases hq : i.target? with
        | none =>
          have hsteady := Machine.exec_steady (m := m) (Instr.isStraight_of_falls hf hq)
            { μ with pointer := μ.pointer + 1 }
          refine ⟨fun f hs => ?_, fun hs => ?_⟩
          · rw [hs] at hsteady
            exact hsteady
          · rw [hs] at hsteady
            exact ⟨hsteady.2, .inl hsteady.1⟩
        | some q =>
          have hhops := Machine.exec_hops (m := m) hq hf { μ with pointer := μ.pointer + 1 }
          refine ⟨fun f hs => ?_, fun hs => ?_⟩
          · rw [hs] at hhops
            exact hhops
          · rw [hs] at hhops
            exact ⟨hhops.2, hhops.1.imp_right fun h => ⟨q, rfl, h⟩⟩
      refine hn.tracks_of_step hm h (fun s hs => ?_) fun f s hs => ?_
      · obtain ⟨hpend, hptr⟩ := (hends s).2 hs
        exact hn.tracks_falls ht hi hf hpend hptr
      · obtain ⟨hptr, hpend⟩ := (hends s).1 f hs
        exact ⟨hptr, hpend ▸ ht.ordered, hpend ▸ hremain⟩
    | false =>
      cases i
      case leave q =>
        have hq := hn.jumps μ.pointer _ q hi rfl
        refine hn.tracks_of_step hm h (fun s hs => ?_) fun f s hs => ?_
        · rw [hstep, Machine.exec_leave] at hs
          cases hs
          exact hn.tracks_departed hm ht.ordered (ht.blocks.trans hq.symm) (.inl hq)
        · rw [hstep, Machine.exec_leave] at hs
          cases hs
      case endFinally =>
        obtain ⟨x, k, rest, hk, hrest, -⟩ := hn.ends μ.pointer hi
        obtain ⟨frame, fs, hpend⟩ : ∃ frame fs, μ.pending = frame :: fs := by
          cases hpend : μ.pending with
          | nil =>
            have := ht.blocks
            rw [hpend, hrest] at this
            cases this
          | cons frame fs => exact ⟨frame, fs, rfl⟩
        have hblocks : fs.map (·.handler) = rest := by
          have := ht.blocks
          rw [hpend, hrest] at this
          exact (List.cons.inj this).2
        have hord : code.Ordered (frame :: fs) := hpend ▸ ht.ordered
        have hremain : code.Remain μ.pointer (fs.map (·.handler)) :=
          .inr ⟨hi, k, hblocks ▸ hrest⟩
        have hstep := Machine.step_endFinally (m := m) (hm ▸ hi) hpend
        cases hafter : frame.after with
        | leave q =>
          rw [hafter] at hstep
          refine hn.tracks_of_step hm h (fun s hs => ?_) fun f s hs => ?_
          · rw [hstep] at hs
            cases hs
            have hq := hord.1 q hafter
            exact hn.tracks_departed hm hord.2 hq.symm (hq ▸ hremain)
          · rw [hstep] at hs
            cases hs
        | rethrow f =>
          rw [hafter] at hstep
          refine hn.tracks_of_step hm h (fun s hs => ?_) fun f s hs => ?_
          · rw [hstep] at hs
            cases hs
          · rw [hstep] at hs
            cases hs
            exact ⟨rfl, hord.2, hremain⟩
      all_goals cases hf

end Code.Nested

/-! ## Runs -/

/-- Turns of the machine lead from one state to another. -/
def Machine.Reaches (m : Machine) : MachineState → MachineState → Prop :=
  Relation.ReflTransGen fun μ μ' => m.turn μ = .goes μ'

/-- Keeping track through a whole run. -/
theorem Code.Nested.tracks_reached {code : Code} (hn : code.Nested) {m : Machine}
    (hm : m.code = code) {μ μ' : MachineState} (hrun : m.Reaches μ μ')
    (ht : code.Tracks μ.pending μ.pointer) : code.Tracks μ'.pending μ'.pointer := by
  induction hrun with
  | refl => exact ht
  | tail _ hturn ih => exact hn.tracks_turn hm hturn ih

/-- The block of one entry of the table lies in that of another. -/
def Code.BlockIn (code : Code) (k k' : Nat) : Prop :=
  ∃ h h', code.handlers[k]? = some h ∧ code.handlers[k']? = some h' ∧
    h'.target ≤ h.target ∧ h.blockStop < h'.blockStop

/-- The blocks around a position lie one in the other. -/
theorem Code.Nested.pairwise_blocksAt {code : Code} (hn : code.Nested) (p : Nat) :
    (blocksAt 0 code.handlers p).Pairwise code.BlockIn := by
  have hsorted : (blocksAt 0 code.handlers p).Pairwise (· < ·) := by
    refine List.Pairwise.sublist (List.Sublist.map _ List.filter_sublist) ?_
    have hrange : (code.handlers.zipIdx 0).map (·.2) = List.range' 0 code.handlers.length :=
      List.zipIdx_map_snd 0 code.handlers
    rw [hrange]
    exact List.pairwise_lt_range'
  refine hsorted.imp_of_mem fun {k k'} hk hk' hlt => ?_
  obtain ⟨h, hh, hp⟩ := mem_blocksAt_iff.1 hk
  obtain ⟨h', hh', hp'⟩ := mem_blocksAt_iff.1 hk'
  exact ⟨h, h', hh, hh', hn.nests h k h' k' hh hh' hlt p hp hp'⟩

/-! ## Compiled code -/

/-- Code of a function or of an open unit. -/
def World.Holds (w : World) (code : Code) : Prop :=
  (∃ record, .compiled code record ∈ w.functions) ∨ ∃ values, ⟨code, values⟩ ∈ w.units

namespace CompileM

variable {catalog : Catalog} {units : Array UnitPlan} {compiled : Array NestedForm} {w w' : World}
  {code : Code}

theorem nestedForm_holds {u : UnitPlan} {form : NestedForm}
    (h : nestedForm catalog units compiled u w = .ok (form, w')) (hw : w'.Holds code) :
    w.Holds code ∨ ∃ l env, Lambda.toCode l env = .ok code := by
  obtain ⟨code', values, hboth, hform⟩ := nestedForm_ok h
  have hlow := (codeAndEntries_ok hboth).1
  rcases hform with ⟨-, -, rfl⟩ | ⟨-, rfl⟩
  · rcases hw with ⟨record, hw⟩ | hw
    · rcases Array.mem_push.1 hw with hw | hw
      · exact .inl (.inl ⟨record, hw⟩)
      · cases hw
        exact .inr ⟨_, _, hlow⟩
    · exact .inl (.inr hw)
  · rcases hw with hw | ⟨values', hw⟩
    · exact .inl (.inl hw)
    · rcases Array.mem_push.1 hw with hw | hw
      · exact .inl (.inr ⟨values', hw⟩)
      · cases hw
        exact .inr ⟨_, _, hlow⟩

end CompileM

/-- Compiling a lambda makes code by lowering, for the lambda and for those nested in
it. -/
theorem compileLambda_holds {catalog : Catalog} {l : Lambda} {w w' : World} {c : BoundUnit}
    {code : Code} (h : compileLambda catalog l w = .ok (.compiled c, w'))
    (hcode : code = c.code ∨ w'.Holds code ∧ ¬w.Holds code) :
    ∃ l env, Lambda.toCode l env = .ok code := by
  obtain ⟨plan, units, forms, values, -, hforms, hboth, -⟩ :=
    CompileM.boundUnit_ok (CompileM.settle_ok h)
  have hmade : w'.Holds code → w.Holds code ∨ ∃ l env, Lambda.toCode l env = .ok code :=
    CompileM.nestedForms_induct (Q := fun _ w' => w'.Holds code →
      w.Holds code ∨ ∃ l env, Lambda.toCode l env = .ok code)
      (fun _ hform ih hw => (CompileM.nestedForm_holds hform hw).elim ih .inr) hforms .inl
  rcases hcode with rfl | ⟨hw, hnew⟩
  · exact ⟨l, _, (CompileM.codeAndEntries_ok hboth).1⟩
  · exact (hmade hw).resolve_left hnew

/-- **In every state of every run of compiled code, the blocks being run are those
around the pointer**, the innermost first. Where a block ends, it is the one that is
taken off. -/
theorem compileLambda_pending {catalog : Catalog} {l : Lambda} {w w' : World} {c : BoundUnit}
    {code : Code} (h : compileLambda catalog l w = .ok (.compiled c, w'))
    (hcode : code = c.code ∨ w'.Holds code ∧ ¬w.Holds code) {m : Machine} (hm : m.code = code)
    {w₀ : World} {locals : Array Value} {μ : MachineState}
    (hrun : m.Reaches { world := w₀, locals } μ) :
    μ.pending.map (·.handler) = blocksAt 0 code.handlers μ.pointer ∧
      (μ.pending.map (·.handler)).Pairwise code.BlockIn ∧
      (code.instrs[μ.pointer]? = some .endFinally → ∃ frame rest h,
        μ.pending = frame :: rest ∧ code.handlers[frame.handler]? = some h ∧
          h.blockHolds μ.pointer = true ∧ h.blockStop = μ.pointer + 1 ∧
          m.step μ = match frame.after with
            | .leave q => .ok none
                (m.departed μ.pointer q { μ with pointer := μ.pointer + 1, pending := rest })
            | .rethrow f => .error f { μ with pointer := μ.pointer + 1, pending := rest }) := by
  obtain ⟨l, env, hlow⟩ := compileLambda_holds h hcode
  have hn := l.toCode_nested hlow
  have ht := hn.tracks_reached hm hrun ⟨hn.start.symm, trivial⟩
  refine ⟨ht.blocks, ht.blocks ▸ hn.pairwise_blocksAt _, fun hi => ?_⟩
  obtain ⟨x, k, rest, hx, hrest, hstop, -⟩ := hn.ends μ.pointer hi
  have hblocks := ht.blocks.trans hrest
  obtain ⟨frame, fs, hpend, rfl, -⟩ := List.map_eq_cons_iff.1 hblocks
  have hholds : x.blockHolds μ.pointer = true := by
    obtain ⟨y, hy, hyp⟩ := mem_blocksAt_iff.1
      (hrest ▸ List.mem_cons_self .. : frame.handler ∈ blocksAt 0 code.handlers μ.pointer)
    rw [hx, Option.some.injEq] at hy
    exact hy ▸ hyp
  exact ⟨frame, fs, x, hpend, hx, hholds, hstop, Machine.step_endFinally (hm ▸ hi) hpend⟩

/-- A lambda with a finally block. -/
def Lambda.guarded : Lambda := .mk 0 none [] .i32
  (.protect (.constant .i32 (.num (.int .i32 5))) [] (.finally (.default .void)))

/-- Its code. -/
def Code.guarded : Code where
  signature := Lambda.guarded.signature
  instrs := #[.nop, .constI32 5, .storeLocal 0, .leave 5, .endFinally, .loadLocal 0, .ret]
  handlers := [⟨1, 4, 0, .finally 4 5⟩]
  numLocals := 1
  maxStack := 1

/-- A machine that runs it; it calls nothing. -/
def Machine.guarded : Machine where
  host := ⟨.empty, fun _ _ _ => .done (.ok .unit) none, fun _ _ => .done (.ok .unit) none⟩
  fuel := 0
  call _ _ := RunM.defect .halted
  code := .guarded
  record := .empty

theorem compileLambda_pending_guarded : ∃ μ : MachineState,
    Machine.guarded.Reaches { world := {}, locals := #[.unit] } μ ∧
      Code.guarded.instrs[μ.pointer]? = some .endFinally ∧ μ.pending.map (·.handler) = [0] := by
  have hcompiled : compileLambda .empty .guarded {} = .ok (.compiled ⟨.guarded, .empty⟩, {}) := by
    cbv
  let five : Value := .num (.int .i32 5)
  let state (p : Nat) (v : Value) (st : List Value) (pd : List Pending) : MachineState :=
    { world := {}, pointer := p, stack := st, locals := #[v], pending := pd }
  have hrun : Machine.guarded.Reaches (state 0 .unit [] []) (state 4 five [] [⟨0, .leave 5⟩]) := by
    have h₁ : Machine.guarded.turn (state 0 .unit [] []) = .goes (state 1 .unit [] []) := rfl
    have h₂ : Machine.guarded.turn (state 1 .unit [] []) = .goes (state 2 .unit [five] []) := rfl
    have h₃ : Machine.guarded.turn (state 2 .unit [five] []) = .goes (state 3 five [] []) := rfl
    have h₄ : Machine.guarded.turn (state 3 five [] []) =
        .goes (state 4 five [] [⟨0, .leave 5⟩]) := rfl
    exact .head h₁ (.head h₂ (.head h₃ (.head h₄ .refl)))
  obtain ⟨hblocks, -⟩ := compileLambda_pending hcompiled (.inl rfl) rfl hrun
  exact ⟨_, hrun, rfl, hblocks⟩

end TreeCode

import TreeCode.Lower.Unit
import TreeCode.Proofs.Expr.Mention

/-!
# Rules of lowering

Every node is lowered by putting together the same few steps. A `Rule` is a
property of lowering steps that these few have and that composition keeps; the
code of every node then has it, provided that what the tree mentions is fit for
it. Properties of lowering that do not depend on what a node means are shown
this way, without another walk over the kinds of nodes.

Main definitions:

* `Instr.isStraight`, `CompileError.missesPlan` — the instructions and errors that
  only some steps may give.
* `Ref`, `Instr.refs` — what an instruction names by a number.
* `Lower.StepRule` — a property closed under the steps of lowering outside protected
  regions. It is indexed by the variables in scope, the labels that exist, those that may
  be placed, and what instructions may name.
* `Lower.Rule` — one that protected regions keep, too.
* `Part.Ruled` — every use of a part has the property.

Main results:

* `Lower.Rule.part` — **the code of every node keeps a rule**.
-/

namespace TreeCode

/-- Whether an instruction neither jumps nor ends a cleanup block. -/
def Instr.isStraight : Instr → Bool
  | .jump _ | .jumpIfFalse _ | .jumpIfTrue _ | .jumpIfNull _ | .jumpIfNotNull _ | .leave _
  | .endFinally => false
  | _ => true

/-- Something that instructions name by a number: a local slot, an entry of a table
of the unit or of the closure record, or a captured variable. -/
inductive Ref where
  | slot (k : Nat)
  | literal (k : Nat)
  | type (k : Nat)
  | method (k : Nat)
  | struct (k : Nat)
  | constant (k : Nat)
  | captured (k : Nat)
  /-- The cells that an open unit on the stack is bound to. -/
  | cells (n : Nat)
  deriving DecidableEq, Repr

/-- What an instruction names. Positions that jumps go to are labels until the unit
is finished, and are not counted here. -/
def Instr.refs : Instr → List Ref
  | .constLiteral k | .newArrayBounds k => [.literal k]
  | .loadConstant k => [.constant k]
  | .loadLocal k | .storeLocal k | .loadLocalAddress k | .newCell k | .loadCell k | .storeCell k
  | .loadCellAddress k => [.slot k]
  | .loadCaptured k | .storeCaptured k | .loadCapturedCell k | .loadCapturedAddress k =>
    [.captured k]
  | .castClass k => [.type k]
  | .call k | .callVirtual k => [.method k]
  | .newStruct k _ => [.struct k]
  | .curry n => [.cells n]
  | _ => []

/-- The place of the literal that an instruction reads. -/
def Instr.literal? : Instr → Option Nat
  | .constLiteral k | .newArrayBounds k => some k
  | _ => none

theorem Instr.isStraight_of_literal {i : Instr} {k : Nat} (h : i.literal? = some k) :
    i.isStraight = true := by
  cases i <;> first | rfl | cases h

theorem Instr.refs_of_literal {i : Instr} {k : Nat} (h : i.literal? = some k) :
    i.refs = [.literal k] := by
  cases i <;> first | (cases h; rfl) | cases h

theorem Instr.literal?_of_refs {i : Instr} (h : i.refs = []) : i.literal? = none := by
  cases i <;> first | rfl | cases h

/-- What code that uses a variable names. -/
def Home.ref : Home → Ref
  | .slot k | .boxed k => .slot k
  | .captured k => .captured k

/-- Whether an error says that the plan of a unit lacks something that its
lambda mentions. -/
def CompileError.missesPlan : CompileError → Bool
  | .undefinedVariable _ | .labelNotRegistered _ | .unresolvedNestedUnit _
  | .unboxedCapture _ => true
  | _ => false

namespace Lower

/-- The code of a protected region whose value goes to the slot `result`. -/
def regionWith (p : Part) (hs : List CatchPart) (o : Option CleanupPart) (f : Usage)
    (result : Option Nat) : LowerM Unit := do
  let depth := (← get).depth
  let done ← freshLabel
  let usage : Usage := { guarded := true, discarded := result.isNone }
  emit .nop
  let start ← position
  p.emit usage
  keepResult result
  jumpTo (.leave 0) done
  let stop ← position
  let catches ← catches start stop depth result done usage hs
  let catchesStop ← position
  let cleanups ← cleanupBlock start catchesStop depth f o
  modify fun s => { s with handlers := s.handlers ++ (catches ++ cleanups) }
  placeLabel done
  if !f.discarded && !p.ty.isVoid then
    match result with
    | some slot => emit (.loadLocal slot)
    | none => pure ()

theorem protect_eq {hasReturn : Bool} {p : Part} {hs : List CatchPart} {o : Option CleanupPart}
    {f : Usage} :
    protect hasReturn p hs o f = (do
      let env ← read
      if !p.ty.isVoid && (!f.discarded && !p.ty.isVoid || hasReturn && env.supplied.isNone) then
        (some <$> newSlot) >>= regionWith p hs o f
      else pure none >>= regionWith p hs o f) :=
  rfl

/-- A property of lowering steps that is closed under the steps of lowering but for
protected regions, given that mentions satisfy `K`. In `R D J I Γ x`, the variables `D` are
in scope, the labels `J` exist, the labels `I` may be placed, and instructions may name
`Γ`. -/
structure StepRule (K : Mention → Prop)
    (R : (D J I : List Nat) → List Ref → ∀ {α : Type}, LowerM α → Prop) : Prop where
  mono {D J J' I I' : List Nat} {Γ Γ' : List Ref} {α : Type} {x : LowerM α} :
    R D J I Γ x → J ⊆ J' → I ⊆ I' → Γ ⊆ Γ' → R D J' I' Γ' x
  pure {D J I : List Nat} {Γ : List Ref} {α : Type} (a : α) : R D J I Γ (pure a)
  bind {D J I : List Nat} {Γ : List Ref} {α β : Type} {x : LowerM α} {f : α → LowerM β} :
    R D J I Γ x → (∀ a, R D J I Γ (f a)) → R D J I Γ (x >>= f)
  read {D J I : List Nat} {Γ : List Ref} : R D J I Γ (read : LowerM LowerEnv)
  unsupported {D J I : List Nat} {Γ : List Ref} {α : Type} (u : Unsupported) :
    R D J I Γ (unsupported u : LowerM α)
  error {D J I : List Nat} {Γ : List Ref} {α : Type} {e : CompileError} :
    e.missesPlan = false → R D J I Γ (error e : LowerM α)
  /-- An instruction that does not jump and reads no literal. -/
  emit {D J I : List Nat} {Γ : List Ref} {i : Instr} :
    i.isStraight = true → i.literal? = none → i.refs ⊆ Γ → R D J I Γ (emit i)
  assumePushed {D J I : List Nat} {Γ : List Ref} : R D J I Γ assumePushed
  newSlot {D J I : List Nat} {Γ : List Ref} {α : Type} {f : Nat → LowerM α} :
    (∀ k, R D J I (.slot k :: Γ) (f k)) → R D J I Γ (newSlot >>= f)
  /-- An instruction that reads a literal, with the request for its place. -/
  literal {D J I : List Nat} {Γ : List Ref} {v : Value} {i : Nat → Instr} :
    (∀ k, (i k).literal? = some k) → R D J I Γ (literal v >>= fun k => Lower.emit (i k))
  typeEntry {D J I : List Nat} {Γ : List Ref} {α : Type} {t : Ty} {f : Nat → LowerM α} :
    (∀ k, R D J I (.type k :: Γ) (f k)) → R D J I Γ (typeEntry t >>= f)
  methodEntry {D J I : List Nat} {Γ : List Ref} {α : Type} {m : Method} {f : Nat → LowerM α} :
    (∀ k, R D J I (.method k :: Γ) (f k)) → R D J I Γ (methodEntry m >>= f)
  structEntry {D J I : List Nat} {Γ : List Ref} {α : Type} {d : StructDef} {f : Nat → LowerM α} :
    (∀ k, R D J I (.struct k :: Γ) (f k)) → R D J I Γ (structEntry d >>= f)
  jump {D J I : List Nat} {Γ : List Ref} {i : Instr} {r : Nat} :
    i.target?.isSome = true → r ∈ J → R D J I Γ (jumpTo i r)
  place {D J I : List Nat} {Γ : List Ref} {r : Nat} : r ∈ J → r ∈ I → R D J I Γ (placeLabel r)
  fresh {D J I : List Nat} {Γ : List Ref} {α : Type} {f : Nat → LowerM α} :
    (∀ r, R D (r :: J) (r :: I) Γ (f r)) → R D J I Γ (freshLabel >>= f)
  /-- A label of the program that may be placed. -/
  program {D J I : List Nat} {Γ : List Ref} {α : Type} {l : Label} {f : Nat → LowerM α} :
    K (.place l) → (∀ r, R D (r :: J) (r :: I) Γ (f r)) → R D J I Γ (programLabel l >>= f)
  /-- A label of the program that is only jumped to. -/
  mention {D J I : List Nat} {Γ : List Ref} {α : Type} {l : Label} {f : Nat → LowerM α} :
    K (.label l) → (∀ r, R D (r :: J) I Γ (f r)) → R D J I Γ (programLabel l >>= f)
  /-- The slot of the value that a label receives. -/
  carried {D J I : List Nat} {Γ : List Ref} {α : Type} {r : Nat} {f : Option Nat → LowerM α} :
    (∀ o, R D J I (o.toList.map .slot ++ Γ) (f o)) →
      R D J I Γ (labelAt r >>= fun l => f l.valueSlot)
  /-- The slot of the exception that is being handled. -/
  handling {D J I : List Nat} {Γ : List Ref} {α : Type} {f : Nat → LowerM α} :
    (∀ k, R D J I (.slot k :: Γ) (f k)) → R D J I Γ (do
      match (← get).caught with
      | [] => Lower.unsupported .rethrowOutsideCatch
      | k :: _ => f k)
  home {D J I : List Nat} {Γ : List Ref} {α : Type} {v : Var} {f : Home → LowerM α} :
    K (.var D v) → (∀ h, R D J I (h.ref :: Γ) (f h)) → R D J I Γ (homeOf v >>= f)
  constant {D J I : List Nat} {Γ : List Ref} {v : Value} {f : Usage} :
    K (.constant v) → R D J I Γ (pushConstant v f)
  lambda {D J I : List Nat} {Γ : List Ref} {l : Lambda} {f : Usage} :
    K (.lambda D l) → R D J I Γ (pushLambda l f)
  block {D J I : List Nat} {Γ : List Ref} {vars : List Var} {x : LowerM Unit} :
    K (.block vars) → R (Var.ids vars ++ D) J I Γ x →
      R D J I Γ (do
        let hidden ← bringInAll vars
        x
        takeOutAll vars hidden)
  caught {D J I : List Nat} {Γ : List Ref} {slot : Nat} {x : LowerM Unit} :
    .slot slot ∈ Γ → R D J I Γ x → R D J I Γ (do
      modify fun s => { s with caught := slot :: s.caught }
      x
      modify fun s => { s with caught := s.caught.tail })
  handler {D J I : List Nat} {Γ : List Ref} {v : Var} {x : Nat → LowerM Unit} :
    (∀ slot, R (v.id :: D) J I (.slot slot :: Γ) (x slot)) → R D J I Γ (do
      let (slot, hidden) ← bringIn v
      x slot
      takeOut v hidden)

/-- A property of lowering steps that is closed under all steps of lowering. -/
structure Rule (K : Mention → Prop)
    (R : (D J I : List Nat) → List Ref → ∀ {α : Type}, LowerM α → Prop) : Prop
    extends StepRule K R where
  region {D J I : List Nat} {Γ : List Ref} {p : Part} {hs : List CatchPart}
    {o : Option CleanupPart} {f : Usage} {result : Option Nat} :
    (∀ k, result = some k → .slot k ∈ Γ) → (∀ J I Γ f, R D J I Γ (p.emit f)) →
      (∀ k ∈ hs, ∀ J I Γ slot f, .slot slot ∈ Γ → R D J I Γ (catchBody k slot f)) →
        (∀ k, o = some k → ∀ J I Γ f, R D J I Γ (k.block.emit f)) →
          R D J I Γ (regionWith p hs o f result)

end Lower

open Lower

variable {K : Mention → Prop} {R : (D J I : List Nat) → List Ref → ∀ {α : Type}, LowerM α → Prop}
  {D J I : List Nat} {Γ : List Ref}

/-! ## Parts -/

/-- Emitting a part keeps a rule. -/
def Part.Emits (R : (D J I : List Nat) → List Ref → ∀ {α : Type}, LowerM α → Prop) (D : List Nat)
    (p : Part) : Prop :=
  ∀ J I Γ f, R D J I Γ (p.emit f)

/-- The parts of a target of an assignment keep a rule. -/
def TargetPart.Ruled (R : (D J I : List Nat) → List Ref → ∀ {α : Type}, LowerM α → Prop)
    (D : List Nat) : TargetPart → Prop
  | .var v => ∀ (J I : List Nat) (Γ : List Ref) {α : Type} (f : Home → LowerM α),
    (∀ h, R D J I (h.ref :: Γ) (f h)) → R D J I Γ (homeOf v >>= f)
  | .member o _ => o.Emits R D
  | .index o _ args => o.Emits R D ∧ ∀ a ∈ args, a.Emits R D
  | .other => True

/-- Every use of a part keeps a rule. -/
structure Part.Ruled (R : (D J I : List Nat) → List Ref → ∀ {α : Type}, LowerM α → Prop)
    (D : List Nat) (p : Part) : Prop where
  emit : p.Emits R D
  branch : ∀ J I Γ r w f, r ∈ J → R D J I Γ (p.branch r w f)
  target : p.target.Ruled R D

namespace Lower.StepRule

theorem ite (_ : StepRule K R) {c : Prop} [Decidable c] {α : Type} {x y : LowerM α} (hx : R D J I Γ x)
    (hy : R D J I Γ y) : R D J I Γ (if c then x else y) := by
  split
  · exact hx
  · exact hy

theorem special (_ : StepRule K R) {e : Expr} {emit : Usage → LowerM Unit}
    {branch : Nat → Bool → Usage → LowerM Unit} (h : ∀ J I Γ f, R D J I Γ (emit f))
    (hb : ∀ J I Γ r w f, r ∈ J → R D J I Γ (branch r w f)) :
    (Part.mk e emit branch .other).Ruled R D :=
  ⟨h, hb, trivial⟩

variable (hR : StepRule K R)
include hR

/-- An instruction that names nothing. -/
theorem bare {i : Instr} (hi : i.isStraight = true) (hr : i.refs = []) :
    R D J I Γ (Lower.emit i) :=
  hR.emit hi (Instr.literal?_of_refs hr) (by simp [hr])

/-- An instruction that names one thing. -/
theorem naming {i : Instr} {r : Ref} (hi : i.isStraight = true) (hl : i.literal? = none)
    (hr : i.refs = [r]) (hmem : r ∈ Γ) : R D J I Γ (Lower.emit i) :=
  hR.emit hi hl (by simp [hr, hmem])

/-- A step that is taken on a condition, before those that follow. -/
theorem guard {c : Prop} [Decidable c] {α : Type} {x : LowerM Unit} {f : Unit → LowerM α}
    (hx : R D J I Γ x) (hf : ∀ a, R D J I Γ (f a)) :
    R D J I Γ (if c then x >>= f else f ()) :=
  hR.ite (hR.bind hx hf) (hf ())

theorem branchOnValue {emit : Usage → LowerM Unit} (h : ∀ J I Γ f, R D J I Γ (emit f)) {r : Nat}
    {w : Bool} {f : Usage} (hr : r ∈ J) : R D J I Γ (Part.branchOnValue emit r w f) := by
  refine hR.bind (h J I _ _) fun _ => hR.jump ?_ hr
  cases w <;> rfl

theorem plain {e : Expr} {emit : Usage → LowerM Unit} (h : ∀ J I Γ f, R D J I Γ (emit f)) :
    (Part.plain e emit).Ruled R D :=
  ⟨h, fun _ _ _ _ _ _ hr => hR.branchOnValue h hr, trivial⟩

theorem assignable {e : Expr} {emit : Usage → LowerM Unit} {t : TargetPart}
    (h : ∀ J I Γ f, R D J I Γ (emit f)) (ht : t.Ruled R D) :
    (Part.assignable e emit t).Ruled R D :=
  ⟨h, fun _ _ _ _ _ _ hr => hR.branchOnValue h hr, ht⟩

theorem pushAll {ps : List Part} {f : Usage} (h : ∀ p ∈ ps, p.Emits R D) :
    R D J I Γ (Part.pushAll ps f) := by
  induction ps with
  | nil => exact hR.pure ()
  | cons p ps ih => exact hR.bind (h p (by simp) _ _ _ _) fun _ => ih fun q hq => h q (by simp [hq])

/-! ## Values and variables -/

theorem pushValue {v : Value} : R D J I Γ (pushValue v) := by
  unfold Lower.pushValue
  split
  case h_5 => exact hR.literal fun _ => rfl
  all_goals exact hR.bare rfl rfl

theorem dropWhen {b : Bool} : R D J I Γ (dropWhen b) := hR.ite (hR.bare rfl rfl) (hR.pure ())

theorem callMethod {m : Method} {b : Bool} : R D J I Γ (callMethod m b) := by
  refine hR.methodEntry fun _ => ?_
  cases b
  · exact hR.naming rfl rfl rfl (by simp)
  · exact hR.naming rfl rfl rfl (by simp)

theorem assumeValue {t : Ty} {f : Usage} : R D J I Γ (assumeValue t f) :=
  hR.ite hR.assumePushed (hR.pure ())

theorem store {h : Home} (hmem : h.ref ∈ Γ) : R D J I Γ (store h) := by
  cases h <;> exact hR.naming rfl rfl rfl hmem

theorem load {h : Home} {b : Bool} (hmem : h.ref ∈ Γ) : R D J I Γ (load h b) := by
  cases h <;> cases b <;> exact hR.naming rfl rfl rfl hmem

theorem initialise {v : Var} {slot : Nat} (hmem : .slot slot ∈ Γ) :
    R D J I Γ (initialise v slot) := by
  refine hR.bind hR.read fun env => ?_
  cases env.plan.isBoxed v.id <;> exact hR.naming rfl rfl rfl hmem

theorem pushVar {v : Var} {f : Usage} (h : (TargetPart.var v).Ruled R D) :
    R D J I Γ (pushVar v f) :=
  h J I Γ _ fun _ => hR.ite (hR.pure ()) (hR.load (by simp))

/-! ## Operators -/

theorem convertUnlessNull {k : NumKind} : R D J I Γ (convertUnlessNull k) :=
  hR.fresh fun _ => hR.bind (hR.bare rfl rfl) fun _ => hR.bind (hR.jump rfl (by simp)) fun _ =>
    hR.bind (hR.bare rfl rfl) fun _ => hR.place (by simp) (by simp)

theorem conversion {source target : Ty} : R D J I Γ (conversion source target) := by
  unfold Lower.conversion
  refine hR.ite (hR.pure ()) ?_
  split
  · split
    · exact hR.ite (hR.bare rfl rfl) (hR.pure ())
    · exact hR.ite hR.convertUnlessNull (hR.pure ())
    · exact hR.bind (hR.bare rfl rfl) fun _ => hR.ite (hR.bare rfl rfl) (hR.pure ())
  · exact hR.ite (hR.pure ()) (hR.ite (hR.bare rfl rfl)
      (hR.ite (hR.typeEntry fun _ => hR.naming rfl rfl rfl (by simp)) (hR.pure ())))

theorem asKind {t : Ty} {k : NumKind} {f : Usage} : R D J I Γ (asKind t k f) :=
  hR.ite (hR.pure ()) (hR.ite hR.convertUnlessNull (hR.bare rfl rfl))

theorem operandOf {p : Part} {k : NumKind} {f : Usage} (h : p.Emits R D) :
    R D J I Γ (operandOf p k f) := by
  unfold Lower.operandOf
  split
  · exact hR.pushValue
  · exact hR.bind (h _ _ _ _) fun _ => hR.asKind

theorem throwAgain {t : Ty} {f : Usage} : R D J I Γ (throwAgain t f) := by
  refine hR.handling fun _ => ?_
  exact hR.bind (hR.naming rfl rfl rfl (by simp)) fun _ => hR.bind (hR.bare rfl rfl) fun _ =>
    hR.assumeValue

theorem applyUnary {op : UnaryOp} {t : Ty} : R D J I Γ (applyUnary op t) := by
  have hstep : ∀ k, R D J I Γ (do
      Lower.pushValue (Operator.one k)
      Lower.emit (.arith op.stepArith k)) := fun _ =>
    hR.bind hR.pushValue fun _ => hR.bare rfl rfl
  unfold Lower.applyUnary
  split
  · exact hR.bare rfl rfl
  · split
    · exact hR.bare rfl rfl
    · exact hR.error rfl
  · split
    · exact hstep _
    · exact hR.error rfl
  · split
    · exact hstep _
    · exact hR.error rfl
  · exact hR.error rfl

theorem applyUnaryLifted {op : UnaryOp} {t : Ty} : R D J I Γ (applyUnaryLifted op t) :=
  hR.ite (hR.fresh fun _ => hR.bind (hR.bare rfl rfl) fun _ => hR.bind (hR.jump rfl (by simp)) fun _ =>
    hR.bind hR.applyUnary fun _ => hR.place (by simp) (by simp)) hR.applyUnary

theorem stepVariable {op : UnaryOp} {p : Part} {f : Usage} (h : p.target.Ruled R D) :
    R D J I Γ (stepVariable op p f) := by
  unfold Lower.stepVariable
  split
  · rename_i v hv
    rw [hv] at h
    split
    · exact hR.error rfl
    · refine h J I Γ _ fun _ => hR.bind (hR.load (by simp)) fun _ => ?_
      exact hR.guard (hR.bare rfl rfl) fun _ => hR.bind hR.pushValue fun _ =>
        hR.bind (hR.bare rfl rfl) fun _ => hR.guard (hR.bare rfl rfl) fun _ => hR.store (by simp)
  · exact hR.unsupported _

theorem unaryByMethod {m : Method} {p : Part} {f : Usage} (h : p.Emits R D) :
    R D J I Γ (unaryByMethod m p f) := by
  unfold Lower.unaryByMethod
  refine hR.guard (hR.unsupported _) fun _ => ?_
  exact hR.bind (h _ _ _ _) fun _ => hR.bind hR.callMethod fun _ => hR.dropWhen

theorem unary {t : Ty} {op : UnaryOp} {p : Part} {m : Option Method} {f : Usage}
    (h : p.Ruled R D) : R D J I Γ (unary t op p m f) := by
  unfold Lower.unary
  split
  · exact hR.unaryByMethod h.emit
  · split
    · exact hR.bind (h.emit _ _ _ _) fun _ => hR.bind (hR.bare rfl rfl) fun _ => hR.assumeValue
    · exact h.emit _ _ _ _
    · exact hR.bind (h.emit _ _ _ _) fun _ => hR.bind hR.conversion fun _ => hR.dropWhen
    · exact hR.bind (h.emit _ _ _ _) fun _ => hR.bind (hR.bare rfl rfl) fun _ => hR.dropWhen
    all_goals first
      | exact hR.bind (h.emit _ _ _ _) fun _ => hR.bind hR.applyUnaryLifted fun _ => hR.dropWhen
      | exact hR.stepVariable h.target

theorem binaryByMethod {op : BinaryOp} {m : Method} {t : Ty} {p : Part} {f : Usage}
    (h : p.Emits R D) : R D J I Γ (binaryByMethod op m t p f) := by
  unfold Lower.binaryByMethod
  refine hR.guard (hR.error rfl) fun _ => hR.guard (hR.unsupported _) fun _ => ?_
  exact hR.bind (h _ _ _ _) fun _ => hR.bind hR.callMethod fun _ => hR.pure _

theorem skipIfNull {slot : Nat} {t : Ty} {r : Nat} (hslot : .slot slot ∈ Γ) (hr : r ∈ J) :
    R D J I Γ (skipIfNull slot t r) :=
  hR.ite (hR.bind (hR.naming rfl rfl rfl hslot) fun _ => hR.jump rfl hr) (hR.pure ())

theorem lifted {op : BinaryOp} {i : Instr} {k : NumKind} {t : Ty} {p : Part} {f : Usage}
    (hi : i.isStraight = true) (hr : i.refs = []) (h : p.Emits R D) :
    R D J I Γ (lifted op i k t p f) := by
  refine hR.newSlot fun _ => hR.bind (hR.naming rfl rfl rfl (by simp)) fun _ =>
    hR.bind (h _ _ _ _) fun _ => hR.newSlot fun _ => hR.bind (hR.naming rfl rfl rfl (by simp)) fun _ =>
    hR.fresh fun _ => hR.fresh fun _ => ?_
  refine hR.bind (hR.skipIfNull (by simp) (by simp)) fun _ =>
    hR.bind (hR.skipIfNull (by simp) (by simp)) fun _ =>
    hR.bind (hR.naming rfl rfl rfl (by simp)) fun _ => hR.bind hR.asKind fun _ =>
    hR.bind (hR.naming rfl rfl rfl (by simp)) fun _ => hR.bind hR.asKind fun _ => ?_
  refine hR.bind (hR.bare hi hr) fun _ => hR.bind (hR.jump rfl (by simp)) fun _ =>
    hR.bind (hR.place (by simp) (by simp)) fun _ => hR.bind ?_ fun _ =>
    hR.place (by simp) (by simp)
  cases op.isRelational <;> exact hR.bare rfl rfl

theorem numeric {op : BinaryOp} {t : Ty} {p : Part} {f : Usage} (h : p.Emits R D) :
    R D J I Γ (numeric op t p f) := by
  unfold Lower.numeric
  split
  · exact hR.error rfl
  · split
    · exact hR.error rfl
    · rename_i i hi
      have hplain : i.isStraight = true ∧ i.refs = [] := by
        unfold numericInstr? at hi
        split at hi <;> cases hi <;> exact ⟨rfl, rfl⟩
      exact hR.ite (hR.bind (hR.lifted hplain.1 hplain.2 h) fun _ => hR.pure _)
        (hR.bind hR.asKind fun _ => hR.bind (hR.operandOf h) fun _ =>
          hR.bind (hR.bare hplain.1 hplain.2) fun _ => hR.pure _)

theorem equality {op : BinaryOp} {t : Ty} {p : Part} {f : Usage} (h : p.Emits R D) :
    R D J I Γ (equality op t p f) := by
  have hlast : ∀ _ : Unit, R D J I Γ (do
      Lower.emit (if op == .equal then .eq else .notEq)
      return Ty.bool) := by
    refine fun _ => hR.bind ?_ fun _ => hR.pure _
    cases op == .equal <;> exact hR.bare rfl rfl
  unfold Lower.equality
  cases op.kind? t p.ty with
  | some k => exact hR.bind hR.asKind fun _ => hR.bind (hR.operandOf h) hlast
  | none => exact hR.bind (h _ _ _ _) hlast

theorem primitive {op : BinaryOp} {t : Ty} {p : Part} {f : Usage} (h : p.Emits R D) :
    R D J I Γ (primitive op t p f) := by
  have hlogical : ∀ a, R D J I Γ (do
      p.emit f.operand
      Lower.emit (.logical a)
      return Ty.bool) := fun _ =>
    hR.bind (h _ _ _ _) fun _ => hR.bind (hR.bare rfl rfl) fun _ => hR.pure _
  unfold Lower.primitive
  split
  · exact hR.ite (hR.bind (h _ _ _ _) fun _ => hR.bind (hR.bare rfl rfl) fun _ => hR.pure _)
      (hR.numeric h)
  · exact hR.ite (hlogical _) (hR.numeric h)
  · exact hR.ite (hlogical _) (hR.numeric h)
  · exact hR.ite (hlogical _) (hR.numeric h)
  · exact hR.equality h
  · exact hR.equality h
  · exact hR.numeric h

theorem withRight {op : BinaryOp} {t : Ty} {p : Part} {m : Option Method} {f : Usage}
    (h : p.Emits R D) : R D J I Γ (withRight op t p m f) := by
  refine hR.bind hR.read fun _ => ?_
  split
  · exact hR.binaryByMethod h
  · exact hR.primitive h

theorem shortCircuit {isAnd : Bool} {l r : Part} {f : Usage} (hl : l.Ruled R D)
    (hr : r.Ruled R D) : R D J I Γ (shortCircuit isAnd l r f) := by
  unfold Lower.shortCircuit
  refine hR.ite (hR.fresh fun _ => hR.bind (hl.branch _ _ _ _ _ _ (by simp)) fun _ =>
    hR.bind (hr.emit _ _ _ _) fun _ => hR.place (by simp) (by simp)) ?_
  split
  · exact hR.ite (hr.emit _ _ _ _) hR.pushValue
  · refine hR.fresh fun _ => hR.bind (hl.emit _ _ _ _) fun _ => hR.bind (hR.bare rfl rfl) fun _ =>
      hR.bind (hR.jump ?_ (by simp)) fun _ => hR.bind (hR.bare rfl rfl) fun _ =>
      hR.bind (hr.emit _ _ _ _) fun _ => hR.place (by simp) (by simp)
    cases isAnd <;> rfl

theorem branchBoth {isAnd : Bool} {l r : Part} {label : Nat} {w : Bool} {f : Usage}
    (hl : l.Ruled R D) (hr : r.Ruled R D) (hlabel : label ∈ J) :
    R D J I Γ (branchBoth isAnd l r label w f) := by
  unfold Lower.branchBoth
  split
  · exact hR.ite (hr.branch _ _ _ _ _ _ hlabel) (hR.ite (hR.jump rfl hlabel) (hR.pure ()))
  · exact hR.ite (hR.fresh fun _ => hR.bind (hl.branch _ _ _ _ _ _ (by simp)) fun _ =>
      hR.bind (hr.branch _ _ _ _ _ _ (by simp [hlabel])) fun _ => hR.place (by simp) (by simp))
      (hR.bind (hl.branch _ _ _ _ _ _ hlabel) fun _ => hr.branch _ _ _ _ _ _ hlabel)

theorem coalesce {t : Ty} {l r : Part} {f : Usage} (hl : l.Emits R D) (hr : r.Emits R D) :
    R D J I Γ (coalesce t l r f) :=
  hR.fresh fun _ => hR.bind (hl _ _ _ _) fun _ => hR.bind (hR.bare rfl rfl) fun _ =>
    hR.bind (hR.jump rfl (by simp)) fun _ => hR.bind (hR.bare rfl rfl) fun _ =>
    hR.bind (hr _ _ _ _) fun _ => hR.bind hR.conversion fun _ =>
    hR.bind (hR.place (by simp) (by simp)) fun _ => hR.dropWhen

/-! ## Members and calls -/

theorem methodCall {o : Option Part} {m : Method} {args : List Part} {f : Usage}
    (ho : ∀ p, o = some p → p.Emits R D) (ha : ∀ p ∈ args, p.Emits R D) :
    R D J I Γ (methodCall o m args f) := by
  have hrest : ∀ b : Bool, ∀ _ : Unit, R D J I Γ (do
      Part.pushAll args f
      Lower.callMethod m b
      Lower.dropWhen (f.discarded && !m.ret.isVoid)) := fun _ _ =>
    hR.bind (hR.pushAll ha) fun _ => hR.bind hR.callMethod fun _ => hR.dropWhen
  cases o with
  | some p => exact hR.bind (ho p rfl _ _ _ _) (hrest _)
  | none => exact hrest _ ()

theorem newInstance {d : StructDef} {m : Option Method} {args : List Part} {f : Usage}
    (ha : ∀ p ∈ args, p.Emits R D) : R D J I Γ (newInstance d m args f) := by
  refine hR.bind (hR.pushAll ha) fun _ => ?_
  cases m with
  | some m => exact hR.callMethod
  | none => exact hR.structEntry fun _ => hR.naming rfl rfl rfl (by simp)

theorem callSetter {m : Method} : R D J I Γ (callSetter m) :=
  hR.bind hR.callMethod fun _ => hR.dropWhen

theorem setterOf {p : Property} : R D J I Γ (setterOf p) := by
  unfold Lower.setterOf
  split
  · exact hR.pure _
  · exact hR.unsupported _

theorem storeMember {m : Member} {p : Part} {f : Usage} (h : p.Emits R D) :
    R D J I Γ (storeMember m p f) := by
  cases m with
  | field _ _ _ _ => exact hR.bind (h _ _ _ _) fun _ => hR.bare rfl rfl
  | property _ _ =>
    exact hR.bind hR.setterOf fun _ => hR.bind (h _ _ _ _) fun _ => hR.callSetter

theorem setMembers {load : LowerM Unit} {f : Usage} {bs : List (Member × Part)}
    (hload : R D J I Γ load) (h : ∀ b ∈ bs, b.2.Emits R D) :
    R D J I Γ (setMembers load f bs) := by
  induction bs with
  | nil => exact hR.pure ()
  | cons b bs ih =>
    exact hR.bind hload fun _ => hR.bind (hR.storeMember (h b (by simp))) fun _ =>
      ih fun b hb => h b (by simp [hb])

theorem initialised {d : StructDef} {args : List Part} {bs : List (Member × Part)} {f : Usage}
    (ha : ∀ p ∈ args, p.Emits R D) (hb : ∀ b ∈ bs, b.2.Emits R D) :
    R D J I Γ (initialised d args bs f) := by
  refine hR.bind (hR.newInstance ha) fun _ => ?_
  cases d.kind with
  | reference => exact hR.bind (hR.setMembers (hR.bare rfl rfl) hb) fun _ => hR.dropWhen
  | value =>
    exact hR.newSlot fun _ => hR.bind (hR.naming rfl rfl rfl (by simp)) fun _ =>
      hR.bind (hR.setMembers (hR.naming rfl rfl rfl (by simp)) hb) fun _ =>
      hR.ite (hR.naming rfl rfl rfl (by simp)) (hR.pure ())

theorem readMember {o : Part} {m : Member} {f : Usage} (h : o.Emits R D) :
    R D J I Γ (readMember o m f) := by
  cases m with
  | field _ _ _ _ =>
    exact hR.bind (h _ _ _ _) fun _ => hR.bind (hR.bare rfl rfl) fun _ => hR.dropWhen
  | property _ _ =>
    exact hR.bind (h _ _ _ _) fun _ => hR.bind hR.callMethod fun _ => hR.dropWhen

theorem assignMember {o p : Part} {m : Member} {f : Usage} (ho : o.Emits R D)
    (h : p.Emits R D) : R D J I Γ (assignMember o m p f) := by
  refine hR.bind (ho _ _ _ _) fun _ => hR.ite (hR.storeMember h) (hR.newSlot fun _ => ?_)
  cases m with
  | field _ _ _ _ =>
    exact hR.bind (h _ _ _ _) fun _ => hR.bind (hR.bare rfl rfl) fun _ =>
      hR.bind (hR.naming rfl rfl rfl (by simp)) fun _ => hR.bind (hR.bare rfl rfl) fun _ =>
      hR.naming rfl rfl rfl (by simp)
  | property _ _ =>
    exact hR.bind hR.setterOf fun _ => hR.bind (h _ _ _ _) fun _ =>
      hR.bind (hR.bare rfl rfl) fun _ => hR.bind (hR.naming rfl rfl rfl (by simp)) fun _ =>
      hR.bind hR.callSetter fun _ => hR.naming rfl rfl rfl (by simp)

theorem subscript {o : Part} {ix : Option Indexer} {args : List Part} {f : Usage}
    (ho : o.Emits R D) (ha : ∀ p ∈ args, p.Emits R D) : R D J I Γ (subscript o ix args f) := by
  cases ix with
  | none =>
    exact hR.bind (ho _ _ _ _) fun _ => hR.bind (hR.pushAll ha) fun _ =>
      hR.bind (hR.bare rfl rfl) fun _ => hR.dropWhen
  | some _ =>
    exact hR.bind (ho _ _ _ _) fun _ => hR.bind (hR.pushAll ha) fun _ =>
      hR.bind hR.callMethod fun _ => hR.dropWhen

theorem subscriptSetter {ix : Option Indexer} : R D J I Γ (subscriptSetter ix) := by
  unfold Lower.subscriptSetter
  split
  · exact hR.pure _
  · split
    · exact hR.pure _
    · exact hR.unsupported _

theorem assignSubscript {o p : Part} {ix : Option Indexer} {args : List Part} {f : Usage}
    (ho : o.Emits R D) (ha : ∀ p ∈ args, p.Emits R D) (h : p.Emits R D) :
    R D J I Γ (assignSubscript o ix args p f) := by
  have hrest : ∀ Γ setter result, (∀ k, result = some k → .slot k ∈ Γ) → R D J I Γ (do
      match setter with
      | none => Lower.emit .storeElement
      | some m => Lower.callSetter m
      match result with
      | some slot => Lower.emit (.loadLocal slot)
      | none => Pure.pure ()) := by
    intro Γ setter result hresult
    have hload : ∀ u : Unit, R D J I Γ (match result with
        | some slot => Lower.emit (.loadLocal slot)
        | none => Pure.pure ()) := by
      intro _
      cases result with
      | some k => exact hR.naming rfl rfl rfl (hresult k rfl)
      | none => exact hR.pure ()
    cases setter with
    | none => exact hR.bind (hR.bare rfl rfl) hload
    | some m => exact hR.bind hR.callSetter hload
  refine hR.bind hR.subscriptSetter fun _ => hR.bind (ho _ _ _ _) fun _ =>
    hR.bind (hR.pushAll ha) fun _ => hR.bind (h _ _ _ _) fun _ => ?_
  refine hR.ite ?_ (hR.newSlot fun k => hR.bind (hR.bare rfl rfl) fun _ =>
    hR.bind (hR.naming rfl rfl rfl (by simp)) fun _ => ?_)
  · rw [pure_bind]
    exact hrest Γ _ none (by simp)
  · rw [pure_bind]
    exact hrest (.slot k :: Γ) _ (some k) (by simp)

theorem arrayOf {items : List Part} {f : Usage} (ha : ∀ p ∈ items, p.Emits R D) :
    R D J I Γ (arrayOf items f) :=
  hR.bind (hR.pushAll ha) fun _ => hR.bind (hR.bare rfl rfl) fun _ => hR.dropWhen

theorem arrayOfLength {t : Ty} {p : Part} {f : Usage} (h : p.Emits R D) :
    R D J I Γ (arrayOfLength t p f) :=
  hR.bind (h _ _ _ _) fun _ => by
    simpa only [bind_assoc] using
      hR.bind (hR.literal (i := .newArrayBounds) fun _ => rfl) fun _ => hR.dropWhen

theorem invocation {t : Ty} {p : Part} {args : List Part} {f : Usage} (h : p.Emits R D)
    (ha : ∀ p ∈ args, p.Emits R D) : R D J I Γ (invocation t p args f) :=
  hR.bind (h _ _ _ _) fun _ => hR.bind (hR.pushAll ha) fun _ => hR.bind (hR.bare rfl rfl) fun _ =>
    hR.dropWhen

theorem assign {l r : Part} {f : Usage} (hl : l.Ruled R D) (hr : r.Emits R D) :
    R D J I Γ (assign l r f) := by
  have ht := hl.target
  unfold Lower.assign
  cases hk : l.target with
  | var v =>
    rw [hk] at ht
    exact ht J I Γ _ fun _ => hR.bind (hr _ _ _ _) fun _ => hR.guard (hR.bare rfl rfl) fun _ =>
      hR.store (by simp)
  | member o m =>
    rw [hk] at ht
    exact hR.assignMember ht hr
  | index o ix args =>
    rw [hk] at ht
    exact hR.assignSubscript ht.1 ht.2 hr
  | other => exact hR.unsupported _

theorem applyAndConvert {op : BinaryOp} {t : Ty} {p : Part} {m : Option Method} {f : Usage}
    (h : p.Emits R D) : R D J I Γ (applyAndConvert op t p m f) :=
  hR.bind (hR.withRight h) fun _ => hR.conversion

theorem assignApplied {op : BinaryOp} {l r : Part} {m : Option Method} {f : Usage}
    (hl : l.Ruled R D) (hr : r.Emits R D) : R D J I Γ (assignApplied op l r m f) := by
  have ht := hl.target
  unfold Lower.assignApplied
  cases hk : l.target with
  | var v =>
    rw [hk] at ht
    exact ht J I Γ _ fun _ => hR.bind (hR.load (by simp)) fun _ =>
      hR.bind (hR.applyAndConvert hr) fun _ => hR.guard (hR.bare rfl rfl) fun _ =>
      hR.store (by simp)
  | member o m =>
    rw [hk] at ht
    cases m with
    | field _ _ _ _ =>
      exact hR.bind (ht _ _ _ _) fun _ => hR.newSlot fun _ =>
        hR.bind (hR.naming rfl rfl rfl (by simp)) fun _ =>
        hR.bind (hR.naming rfl rfl rfl (by simp)) fun _ =>
        hR.bind (hR.naming rfl rfl rfl (by simp)) fun _ => hR.bind (hR.bare rfl rfl) fun _ =>
        hR.bind (hR.applyAndConvert hr) fun _ => hR.ite (hR.bare rfl rfl)
          (hR.newSlot fun _ => hR.bind (hR.bare rfl rfl) fun _ =>
            hR.bind (hR.naming rfl rfl rfl (by simp)) fun _ => hR.bind (hR.bare rfl rfl) fun _ =>
            hR.naming rfl rfl rfl (by simp))
    | property _ _ => exact hR.unsupported _
  | index o ix args => exact hR.unsupported _
  | other => exact hR.unsupported _

theorem binary {t : Ty} {op : BinaryOp} {l r : Part} {m : Option Method} {f : Usage}
    (hl : l.Ruled R D) (hr : r.Ruled R D) : R D J I Γ (binary t op l r m f) := by
  unfold Lower.binary
  split
  · exact hR.assign hl hr.emit
  · exact hR.shortCircuit hl hr
  · exact hR.shortCircuit hl hr
  · exact hR.coalesce hl.emit hr.emit
  · split
    · exact hR.assignApplied hl hr.emit
    · exact hR.bind (hl.emit _ _ _ _) fun _ => hR.bind (hR.withRight hr.emit) fun _ => hR.dropWhen

/-! ## Control flow -/

theorem conditional {t : Ty} {p a b : Part} {f : Usage} (hp : p.Ruled R D) (ha : a.Emits R D)
    (hb : b.Emits R D) : R D J I Γ (conditional t p a b f) :=
  hR.fresh fun _ => hR.fresh fun _ => hR.bind (hp.branch _ _ _ _ _ _ (by simp)) fun _ =>
    hR.bind (ha _ _ _ _) fun _ => hR.bind (hR.jump rfl (by simp)) fun _ =>
    hR.bind (hR.place (by simp) (by simp)) fun _ => hR.bind (hb _ _ _ _) fun _ =>
    hR.place (by simp) (by simp)

theorem statements {f last : Usage} {ps : List Part} (h : ∀ p ∈ ps, p.Emits R D) :
    R D J I Γ (statements f last ps) := by
  induction ps with
  | nil => exact hR.pure ()
  | cons p ps ih =>
    cases ps with
    | nil => exact h p (by simp) _ _ _ _
    | cons q qs => exact hR.bind (h p (by simp) _ _ _ _) fun _ => ih fun q hq => h q (by simp [hq])

theorem pushCarried {r : Nat} {t : Ty} {f : Usage} : R D J I Γ (pushCarried r t f) := by
  refine hR.ite (hR.pure ()) (hR.carried (f := fun o => match o with
    | some slot => Lower.emit (.loadLocal slot)
    | none => Pure.pure ()) fun o => ?_)
  cases o with
  | some k => exact hR.naming rfl rfl rfl (by simp)
  | none => exact hR.pure ()

theorem storeCarried {r : Nat} {o : Option Part} {f : Usage}
    (h : ∀ p, o = some p → p.Emits R D) : R D J I Γ (storeCarried r o f) := by
  cases o with
  | none => exact hR.pure ()
  | some p =>
    refine hR.carried (f := fun o => match o with
      | some slot => do
        p.emit f.operand
        Lower.emit (.storeLocal slot)
      | none => p.emit f.effect) fun o => ?_
    cases o with
    | some k => exact hR.bind (h p rfl _ _ _ _) fun _ => hR.naming rfl rfl rfl (by simp)
    | none => exact h p rfl _ _ _ _

theorem loop {p : Part} {breakLabel continueLabel : Option Label} {f : Usage}
    (hb : ∀ l, breakLabel = some l → K (.place l))
    (hc : ∀ l, continueLabel = some l → K (.place l)) (h : p.Emits R D) :
    R D J I Γ (loop p breakLabel continueLabel f) := by
  -- The code between the place of the continue label and that of the break label.
  have hround : ∀ {rest : LowerM Unit} top J I, top ∈ J → top ∈ I → R D J I Γ rest → R D J I Γ (do
      placeLabel top
      p.emit f.effect
      jumpTo (.jump 0) top
      rest) := fun top J I hJ hI hrest =>
    hR.bind (hR.place hJ hI) fun _ => hR.bind (h J I _ _) fun _ =>
      hR.bind (hR.jump rfl hJ) fun _ => hrest
  unfold Lower.loop
  cases continueLabel with
  | none =>
    refine hR.fresh fun top => ?_
    cases breakLabel with
    | none => exact hround top _ _ (by simp) (by simp) (hR.pure ())
    | some l =>
      exact hR.program (hb l rfl) fun r => hround top _ _ (by simp) (by simp)
        (hR.bind (hR.place (by simp) (by simp)) fun _ => hR.pushCarried)
  | some l =>
    refine hR.program (hc l rfl) fun top => ?_
    cases breakLabel with
    | none => exact hround top _ _ (by simp) (by simp) (hR.pure ())
    | some l =>
      exact hR.program (hb l rfl) fun r => hround top _ _ (by simp) (by simp)
        (hR.bind (hR.place (by simp) (by simp)) fun _ => hR.pushCarried)

theorem label {l : Label} {o : Option Part} {f : Usage} (hl : K (.place l))
    (h : ∀ p, o = some p → p.Emits R D) : R D J I Γ (label l o f) :=
  hR.program hl fun _ => hR.bind (hR.storeCarried h) fun _ =>
    hR.bind (hR.place (by simp) (by simp)) fun _ => hR.pushCarried

theorem goto {t : Ty} {l : Label} {o : Option Part} {f : Usage} (hl : K (.label l))
    (h : ∀ p, o = some p → p.Emits R D) : R D J I Γ (goto t l o f) := by
  refine hR.mention hl fun _ => hR.bind (hR.storeCarried h) fun _ =>
    hR.bind (hR.jump ?_ (by simp)) fun _ => hR.assumeValue
  cases f.guarded <;> rfl

theorem caseTests {slot : Nat} {t : Ty} {m : Option Method} {f : Usage} {r : Nat} {ps : List Part}
    (hslot : .slot slot ∈ Γ) (hr : r ∈ J) (h : ∀ p ∈ ps, p.Emits R D) :
    R D J I Γ (caseTests slot t m f r ps) := by
  induction ps with
  | nil => exact hR.pure ()
  | cons p ps ih =>
    exact hR.bind (hR.naming rfl rfl rfl hslot) fun _ => hR.bind (hR.withRight (h p (by simp))) fun _ =>
      hR.bind (hR.jump rfl hr) fun _ => ih fun q hq => h q (by simp [hq])

/-- Each case gets a label of its own. -/
theorem labelled {cs : List (List Part × Part)} {f : List (Nat × List Part × Part) → LowerM Unit}
    (hf : ∀ ls : List (Nat × List Part × Part), ls.map (·.2) = cs →
      R D (ls.map (·.1) ++ J) (ls.map (·.1) ++ I) Γ (f ls)) : R D J I Γ (labelled cs >>= f) := by
  induction cs generalizing J I f with
  | nil => simpa [Lower.labelled] using hf [] rfl
  | cons k cs ih =>
    simp only [Lower.labelled, bind_assoc, pure_bind]
    refine hR.fresh fun r => ih fun ls hls =>
      hR.mono (hf ((r, k) :: ls) (by simp [hls])) ?_ ?_ (List.Subset.refl Γ)
    all_goals
      intro r' hr'
      simp only [List.map_cons, List.cons_append, List.mem_cons, List.mem_append] at hr' ⊢
      grind

theorem allTests {slot : Nat} {t : Ty} {m : Option Method} {f : Usage}
    {ls : List (Nat × List Part × Part)} (hslot : .slot slot ∈ Γ) (hJ : ∀ k ∈ ls, k.1 ∈ J)
    (h : ∀ k ∈ ls, ∀ p ∈ k.2.1, p.Emits R D) : R D J I Γ (allTests slot t m f ls) := by
  induction ls with
  | nil => exact hR.pure ()
  | cons k ls ih =>
    exact hR.bind (hR.caseTests hslot (hJ k (by simp)) (h k (by simp))) fun _ =>
      ih (fun k hk => hJ k (by simp [hk])) fun k hk => h k (by simp [hk])

theorem caseBodies {f : Usage} {done : Nat} {ls : List (Nat × List Part × Part)} (hdone : done ∈ J)
    (hJ : ∀ k ∈ ls, k.1 ∈ J) (hI : ∀ k ∈ ls, k.1 ∈ I) (h : ∀ k ∈ ls, k.2.2.Emits R D) :
    R D J I Γ (caseBodies f done ls) := by
  induction ls with
  | nil => exact hR.pure ()
  | cons k ls ih =>
    refine hR.bind (hR.place (hJ k (by simp)) (hI k (by simp))) fun _ =>
      hR.bind (h k (by simp) _ _ _ _) fun _ => hR.guard (hR.jump rfl hdone) fun _ => ?_
    exact ih (fun k hk => hJ k (by simp [hk])) (fun k hk => hI k (by simp [hk]))
      fun k hk => h k (by simp [hk])

theorem switch {t : Ty} {p : Part} {cs : List (List Part × Part)} {o : Option Part}
    {m : Option Method} {f : Usage} (hp : p.Emits R D) (ht : ∀ k ∈ cs, ∀ p ∈ k.1, p.Emits R D)
    (hb : ∀ k ∈ cs, k.2.Emits R D) (ho : ∀ p, o = some p → p.Emits R D) :
    R D J I Γ (switch t p cs o m f) := by
  unfold Lower.switch
  refine hR.guard (hR.unsupported _) fun _ => hR.bind (hp _ _ _ _) fun _ => hR.newSlot
    fun slot => hR.bind (hR.naming rfl rfl rfl (by simp)) fun _ => hR.fresh fun done =>
    hR.labelled fun ls hls => ?_
  have hmem : ∀ k ∈ ls, k.2 ∈ cs := fun k hk => hls ▸ List.mem_map_of_mem hk
  have hlabels : ∀ k ∈ ls, ∀ X : List Nat, k.1 ∈ ls.map (·.1) ++ X := fun k hk X =>
    List.mem_append_left X (List.mem_map_of_mem hk)
  have hrest : ∀ _ : Unit, R D (ls.map (·.1) ++ (done :: J)) (ls.map (·.1) ++ (done :: I))
      (.slot slot :: Γ) (do
      jumpTo (.jump 0) done
      Lower.caseBodies (f.result t) done ls
      placeLabel done) := fun _ =>
    hR.bind (hR.jump rfl (by simp)) fun _ => hR.bind (hR.caseBodies (by simp)
      (fun k hk => hlabels k hk _) (fun k hk => hlabels k hk _) fun k hk => hb _ (hmem k hk))
      fun _ => hR.place (by simp) (by simp)
  refine hR.bind (hR.allTests (by simp) (fun k hk => hlabels k hk _) fun k hk => ht _ (hmem k hk)) fun _ => ?_
  cases o with
  | none => exact hrest ()
  | some p => exact hR.bind (ho p rfl _ _ _ _) hrest

theorem catchBody {h : CatchPart} {slot : Nat} {f : Usage} (hslot : .slot slot ∈ Γ)
    (hb : h.body.Emits R (Var.ids h.var.toList ++ D)) : R D J I Γ (catchBody h slot f) := by
  obtain ⟨test, v, body⟩ := h
  cases v with
  | none => exact hR.caught hslot (hb _ _ _ _)
  | some v =>
    -- The variable is brought in around its initialisation and the body.
    have hinner : ∀ k, R (v.id :: D) J I (.slot k :: Γ) (do
        Lower.emit (.loadLocal slot)
        Lower.initialise v k
        modify fun s => { s with caught := slot :: s.caught }
        body.emit f
        modify fun s => { s with caught := s.caught.tail }) := fun _ =>
      hR.bind (hR.naming rfl rfl rfl (by simp [hslot])) fun _ => hR.bind (hR.initialise (by simp))
        fun _ => hR.caught (by simp [hslot]) (hb _ _ _ _)
    simpa only [Lower.catchBody, bind_assoc] using hR.handler hinner

/-! ## Nodes -/

theorem unaryNode {t : Ty} {op : UnaryOp} {e : Expr} {m : Option Method} (he : e.part.Ruled R D) :
    (Expr.unary t op e m).part.Ruled R D := by
  simp only [Expr.part]
  split
  · exact hR.special (fun _ _ _ _ => hR.unary he) fun _ _ _ _ _ _ hr => he.branch _ _ _ _ _ _ hr
  · exact hR.plain fun _ _ _ _ => hR.unary he

theorem binaryNode {t : Ty} {op : BinaryOp} {l r : Expr} {m : Option Method}
    (hl : l.part.Ruled R D) (hr : r.part.Ruled R D) : (Expr.binary t op l r m).part.Ruled R D := by
  simp only [Expr.part]
  split
  · exact hR.special (fun _ _ _ _ => hR.binary hl hr) fun _ _ _ _ _ _ hlabel =>
      hR.branchBoth hl hr hlabel
  · exact hR.special (fun _ _ _ _ => hR.binary hl hr) fun _ _ _ _ _ _ hlabel =>
      hR.branchBoth hl hr hlabel
  · exact hR.plain fun _ _ _ _ => hR.binary hl hr

theorem varNode {v : Var} (h : K (.var D v)) : (Expr.var v).part.Ruled R D := by
  have hv : (TargetPart.var v).Ruled R D := fun _ _ _ _ _ hf => hR.home h hf
  exact hR.assignable (fun _ _ _ _ => hR.pushVar hv) hv

end Lower.StepRule

theorem Lower.Rule.protect (hR : Rule K R) {hasReturn : Bool} {p : Part} {hs : List CatchPart}
    {o : Option CleanupPart} {f : Usage} (hp : p.Emits R D)
    (hh : ∀ k ∈ hs, k.body.Emits R (Var.ids k.var.toList ++ D))
    (ho : ∀ k, o = some k → k.block.Emits R D) : R D J I Γ (protect hasReturn p hs o f) := by
  have hregion : ∀ Γ result, (∀ k, result = some k → .slot k ∈ Γ) →
      R D J I Γ (regionWith p hs o f result) := fun _ _ hresult =>
    hR.region hresult hp (fun k hk _ _ _ _ _ hslot => hR.catchBody hslot (hh k hk)) ho
  rw [protect_eq]
  refine hR.bind hR.read fun env => hR.ite ?_ ?_
  · rw [map_eq_pure_bind, bind_assoc]
    refine hR.newSlot fun k => ?_
    rw [pure_bind]
    exact hregion (.slot k :: Γ) (some k) (by simp)
  · rw [pure_bind]
    exact hregion Γ none (by simp)

/-! ## Nodes -/

mutual

/-- **The code of a tree keeps every rule**, given that what it mentions is fit
for the rule. -/
theorem Lower.Rule.part (hR : Rule K R) : ∀ (e : Expr) (D : List Nat),
    (∀ m ∈ e.mentions D, K m) → e.part.Ruled R D
  | .constant t v, D, h => hR.plain fun _ _ _ _ => hR.constant (h _ (by simp [Expr.mentions]))
  | .var v, D, h => hR.varNode (h _ (by simp [Expr.mentions]))
  | .default t, D, h => hR.plain fun _ _ _ _ => hR.ite hR.pushValue (hR.pure ())
  | .rethrow t, D, h => hR.plain fun _ _ _ _ => hR.throwAgain
  | .lambda l, D, h => hR.plain fun _ _ _ _ => hR.lambda (h _ (by simp [Expr.mentions]))
  | .unary t op e m, D, h => hR.unaryNode (hR.part e D h)
  | .binary t op l r m, D, h => by
    simp only [Expr.mentions, List.forall_mem_append] at h
    exact hR.binaryNode (hR.part l D h.1) (hR.part r D h.2)
  | .call t o m args, D, h => by
    simp only [Expr.mentions, List.forall_mem_append] at h
    exact hR.plain fun _ _ _ _ => hR.methodCall (Lower.Rule.partOption hR o D h.1)
      (Lower.Rule.parts hR args D h.2)
  | .new d m args, D, h => hR.plain fun _ _ _ _ =>
    hR.bind (hR.newInstance (Lower.Rule.parts hR args D h)) fun _ => hR.dropWhen
  | .member o m, D, h => by
    have ho := (hR.part o D h).emit
    exact hR.assignable (fun _ _ _ _ => hR.readMember ho) ho
  | .index t o ix args, D, h => by
    simp only [Expr.mentions, List.forall_mem_append] at h
    have ho := (hR.part o D h.1).emit
    have ha := Lower.Rule.parts hR args D h.2
    exact hR.assignable (fun _ _ _ _ => hR.subscript ho ha) ⟨ho, ha⟩
  | .newArray t items, D, h => hR.plain fun _ _ _ _ =>
    hR.arrayOf (Lower.Rule.parts hR items D h)
  | .newArrayBounds t n, D, h => hR.plain fun _ _ _ _ => hR.arrayOfLength (hR.part n D h).emit
  | .memberInit d args bs, D, h => by
    simp only [Expr.mentions, List.forall_mem_append] at h
    exact hR.plain fun _ _ _ _ => hR.initialised (Lower.Rule.parts hR args D h.1)
      (Lower.Rule.partBindings hR bs D h.2)
  | .conditional t p a b, D, h => by
    simp only [Expr.mentions, List.forall_mem_append] at h
    exact hR.plain fun _ _ _ _ => hR.conditional (hR.part p D h.1) (hR.part a D h.2.1).emit
      (hR.part b D h.2.2).emit
  | .block t vars es, D, h => by
    simp only [Expr.mentions, List.forall_mem_cons] at h
    exact hR.plain fun _ _ _ _ => hR.block h.1 (hR.statements (Lower.Rule.parts hR es _ h.2))
  | .loop b breakLabel continueLabel, D, h => by
    simp only [Expr.mentions, List.forall_mem_append, List.forall_mem_map,
      Option.mem_toList] at h
    exact hR.plain fun _ _ _ _ => hR.loop h.1 h.2.1 (hR.part b D h.2.2).emit
  | .protect b hs c, D, h => by
    simp only [Expr.mentions, List.forall_mem_append] at h
    exact hR.plain fun _ _ _ _ => hR.protect (hR.part b D h.1).emit
      (Lower.Rule.partHandlers hR hs D h.2.1) (Lower.Rule.partCleanup hR c D h.2.2)
  | .label l e, D, h => by
    simp only [Expr.mentions, List.forall_mem_cons] at h
    exact hR.plain fun _ _ _ _ => hR.label h.1 (Lower.Rule.partOption hR e D h.2)
  | .goto t kind l e, D, h => by
    simp only [Expr.mentions, List.forall_mem_cons] at h
    exact hR.plain fun _ _ _ _ => hR.goto h.1 (Lower.Rule.partOption hR e D h.2)
  | .switch t v cs e m, D, h => by
    simp only [Expr.mentions, List.forall_mem_append] at h
    have hcs := Lower.Rule.partCases hR cs D h.2.1
    exact hR.plain fun _ _ _ _ => hR.switch (hR.part v D h.1).emit (fun k hk => (hcs k hk).1)
      (fun k hk => (hcs k hk).2) (Lower.Rule.partOption hR e D h.2.2)
  | .invoke t e args, D, h => by
    simp only [Expr.mentions, List.forall_mem_append] at h
    exact hR.plain fun _ _ _ _ => hR.invocation (hR.part e D h.1).emit
      (Lower.Rule.parts hR args D h.2)

theorem Lower.Rule.partOption (hR : Rule K R) : ∀ (o : Option Expr) (D : List Nat),
    (∀ m ∈ Expr.mentionsOption D o, K m) → ∀ p, Expr.partOption o = some p → p.Emits R D
  | some e, D, h, _, hp => by
    cases hp
    exact (hR.part e D h).emit

theorem Lower.Rule.parts (hR : Rule K R) : ∀ (es : List Expr) (D : List Nat),
    (∀ m ∈ Expr.mentionsAll D es, K m) → ∀ p ∈ Expr.parts es, p.Emits R D
  | e :: es, D, h, p, hp => by
    simp only [Expr.mentionsAll, List.forall_mem_append] at h
    rcases List.mem_cons.1 hp with rfl | hp
    · exact (hR.part e D h.1).emit
    · exact Lower.Rule.parts hR es D h.2 p hp

theorem Lower.Rule.partBindings (hR : Rule K R) : ∀ (bs : List Binding) (D : List Nat),
    (∀ m ∈ Expr.mentionsBindings D bs, K m) → ∀ b ∈ Expr.partBindings bs, b.2.Emits R D
  | .mk _ e :: bs, D, h, b, hb => by
    simp only [Expr.mentionsBindings, List.forall_mem_append] at h
    rcases List.mem_cons.1 hb with rfl | hb
    · exact (hR.part e D h.1).emit
    · exact Lower.Rule.partBindings hR bs D h.2 b hb

theorem Lower.Rule.partHandlers (hR : Rule K R) : ∀ (hs : List CatchClause) (D : List Nat),
    (∀ m ∈ Expr.mentionsHandlers D hs, K m) →
      ∀ k ∈ Expr.partHandlers hs, k.body.Emits R (Var.ids k.var.toList ++ D)
  | .mk _ v _ body :: hs, D, h, k, hk => by
    simp only [Expr.mentionsHandlers, List.forall_mem_append] at h
    rcases List.mem_cons.1 hk with rfl | hk
    · exact (hR.part body _ h.1).emit
    · exact Lower.Rule.partHandlers hR hs D h.2 k hk

theorem Lower.Rule.partCleanup (hR : Rule K R) : ∀ (c : Cleanup) (D : List Nat),
    (∀ m ∈ Expr.mentionsCleanup D c, K m) →
      ∀ k, Expr.partCleanup c = some k → k.block.Emits R D
  | .finally e, D, h, _, hk => by
    cases hk
    exact (hR.part e D h).emit
  | .fault e, D, h, _, hk => by
    cases hk
    exact (hR.part e D h).emit

theorem Lower.Rule.partCases (hR : Rule K R) : ∀ (cs : List SwitchCase) (D : List Nat),
    (∀ m ∈ Expr.mentionsCases D cs, K m) →
      ∀ k ∈ Expr.partCases cs, (∀ p ∈ k.1, p.Emits R D) ∧ k.2.Emits R D
  | .mk tests body :: cs, D, h, k, hk => by
    simp only [Expr.mentionsCases, List.forall_mem_append] at h
    rcases List.mem_cons.1 hk with rfl | hk
    · exact ⟨Lower.Rule.parts hR tests D h.1, (hR.part body D h.2.1).emit⟩
    · exact Lower.Rule.partCases hR cs D h.2.2 k hk

end

end TreeCode

import TreeCode.Proofs.Expr.Filter
import TreeCode.Proofs.Expr.Occurrence
import TreeCode.Proofs.Lower.Node
import TreeCode.Proofs.Lower.Retain

/-!
# Code for occurrences

The code of a tree pushes each constant with identity and each lambda whose value is used,
and in the order in which `Expr.pushed` lists them. Here lowering is followed through every
kind of node: what is emitted for its parts, with which use of their values, and that what
is emitted between them leaves in place what is there.

Main definitions:

* `Occurrence.push` — the code for an occurrence.
* `Draft.Emissions` — occurrences are pushed in turn between two drafts.
* `Lower.Pushes` — a step of lowering pushes occurrences in turn.
* `Part.Pushes` — a node does, with every use of its value.

Main results:

* `Expr.part_pushes` — **the code of every tree pushes the occurrences whose value is used**.
-/

namespace TreeCode

open Lower Draft

/-- The code for an occurrence. -/
def Occurrence.push : Occurrence → Usage → LowerM Unit
  | .constant v => pushConstant v
  | .lambda l => pushLambda l

/-- A constant that has identity has a place in the record. -/
def Occurrence.Planned (env : LowerEnv) : Occurrence → Prop
  | .constant v => v.identity?.isSome ∧ (env.plan.constantPlace? v).isSome
  | .lambda _ => True

/-- What is asked of a mention: constants with identity have places in the record, and labels
are those that their ids stand for. -/
def Mention.Ready (env : LowerEnv) (void : Nat → Bool) : Mention → Prop
  | .constant v => v.identity?.isSome → (env.plan.constantPlace? v).isSome
  | m => m.Marked void

/-- From `s` to `t` the occurrences are pushed in turn. What is there stays in place. -/
inductive Draft.Emissions (env : LowerEnv) (void : Nat → Bool) : Draft → List Occurrence → Draft → Prop
  | rest {s t : Draft} (h : s.Retains void t) : Emissions env void s [] t
  | push {s s₁ s₂ t : Draft} {o : Occurrence} {f : Usage} {os : List Occurrence}
      (h : s.Retains void s₁) (hplanned : o.Planned env) (hused : f.discarded = false)
      (hpush : o.push f env s₁ = .ok ((), s₂)) (hrest : Emissions env void s₂ os t) :
      Emissions env void s (o :: os) t

/-- The use of a value that is emitted with a usage. -/
def Use.of (f : Usage) : Use := if f.discarded then .ignored else .taken

theorem Use.of_result (f : Usage) (t : Ty) : Use.of (f.result t) = (Use.of f).result t := by
  unfold Use.of Use.result Usage.result
  cases f.discarded <;> cases t.isVoid <;> rfl

variable {α β : Type} {env : LowerEnv} {void : Nat → Bool} {s t u : Draft}
  {os os' A B C : List Occurrence}

namespace Draft.Emissions

theorem before (h : s.Retains void t) (ht : Emissions env void t os u) :
    Emissions env void s os u := by
  cases ht with
  | rest ht => exact .rest (h.trans ht)
  | push ht hplanned hused hpush hrest => exact .push (h.trans ht) hplanned hused hpush hrest

theorem append (h : Emissions env void s os t) (h' : Emissions env void t os' u) :
    Emissions env void s (os ++ os') u := by
  induction h with
  | rest h => exact h'.before h
  | push h hplanned hused hpush _ ih => exact .push h hplanned hused hpush (ih h')

theorem retains (h : Emissions env void s os t) : s.Retains void t := by
  induction h with
  | rest h => exact h
  | @push s s₁ s₂ t o f os h _ _ hpush _ ih =>
    refine h.trans (.trans ?_ ih)
    cases o with
    | constant v => exact Retaining.loose.pushConstant hpush
    | lambda l => exact Retaining.loose.pushLambda hpush

end Draft.Emissions

namespace Lower

/-- The step pushes the occurrences in turn. -/
def Pushes (env : LowerEnv) (void : Nat → Bool) (os : List Occurrence) (x : LowerM α) : Prop :=
  ∀ ⦃s a s'⦄, x env s = .ok (a, s') → s.Receives void → Emissions env void s os s'

namespace Pushes

variable {x : LowerM α} {f : α → LowerM β} {y : LowerM Unit}

theorem quiet (hx : Retaining void x) : Pushes env void [] x := fun _ _ _ h _ => .rest (hx h)

theorem bind (hx : Pushes env void os x) (hf : ∀ a, Pushes env void os' (f a)) :
    Pushes env void (os ++ os') (x >>= f) := by
  intro s b s' h hs
  obtain ⟨a, s₁, h₁, h₂⟩ := bind_ok.1 h
  have hfirst := hx h₁ hs
  exact hfirst.append (hf a h₂ (hfirst.retains.receives hs))

/-- A step before the occurrences, which are those for the results of the step. -/
theorem beforeOf (hx : Retaining void x) (hf : ∀ a, MayGive x a → Pushes env void os (f a)) :
    Pushes env void os (x >>= f) := by
  intro s b s' h hs
  obtain ⟨a, s₁, h₁, h₂⟩ := bind_ok.1 h
  exact (hf a ⟨env, s, s₁, h₁⟩ h₂ ((hx h₁).receives hs)).before (hx h₁)

/-- A step before the occurrences. -/
theorem before (hx : Retaining void x) (hf : ∀ a, Pushes env void os (f a)) :
    Pushes env void os (x >>= f) :=
  beforeOf hx fun a _ => hf a

/-- Steps behind the occurrences. -/
theorem after (hx : Pushes env void os x) (hf : ∀ a, Retaining void (f a)) :
    Pushes env void os (x >>= f) := by
  have hquiet : ∀ a, Pushes env void [] (f a) := fun a => quiet (hf a)
  simpa using hx.bind hquiet

theorem failing (h : ∀ s a s', x env s ≠ .ok (a, s')) : Pushes env void os x :=
  fun _ _ _ hx => absurd hx (h _ _ _)

theorem unsupported {e : Unsupported} : Pushes env void os (unsupported e : LowerM α) :=
  failing fun _ _ _ => by simp [unsupported_ok]

theorem error {e : CompileError} : Pushes env void os (error e : LowerM α) :=
  failing fun _ _ _ => by simp [error_ok]

theorem ite {c : Prop} [Decidable c] {x y : LowerM α} (hx : Pushes env void os x)
    (hy : Pushes env void os y) : Pushes env void os (if c then x else y) := by
  split
  · exact hx
  · exact hy

/-- A step that is taken on a condition, before the occurrences. -/
theorem guard {c : Prop} [Decidable c] {f : Unit → LowerM α} (hy : Retaining void y)
    (hf : ∀ a, Pushes env void os (f a)) : Pushes env void os (if c then y >>= f else f ()) :=
  ite (before hy hf) (hf ())

/-- The surroundings are the given ones. -/
theorem read {f : LowerEnv → LowerM α} (hf : Pushes env void os (f env)) :
    Pushes env void os ((MonadReader.read : LowerM LowerEnv) >>= f) := fun _ _ _ h => hf h

end Pushes

end Lower

/-- The code of a node pushes the occurrences in it whose value is used, whatever is done
with its own value. -/
structure Expr.Pushes (env : LowerEnv) (void : Nat → Bool) (e : Expr) : Prop where
  emit : ∀ f, Lower.Pushes env void (e.pushed (Use.of f)) (e.part.emit f)
  branch : ∀ r w f, Lower.Pushes env void (e.pushed .tested) (e.part.branch r w f)

/-- So does the code for what stands in the target of an assignment. -/
def Expr.PlacePushes (env : LowerEnv) (void : Nat → Bool) : Expr → Prop
  | .member o _ => o.Pushes env void
  | .index _ o _ args => o.Pushes env void ∧ ∀ e ∈ args, e.Pushes env void
  | _ => True

namespace Lower

/-! ## Steps between the occurrences -/

namespace Retaining

theorem ite {c : Prop} [Decidable c] {x y : LowerM α} (hx : Retaining void x)
    (hy : Retaining void y) : Retaining void (if c then x else y) :=
  Routine.ite (P := fun x => Retaining void x) hx hy

theorem freshLabel : Retaining void freshLabel := loose.addLabel

theorem conversion {a b : Ty} : Retaining void (conversion a b) :=
  (retaining_rule void).conversion (D := []) (J := []) (I := []) (Γ := [])

theorem asKind {a : Ty} {k : NumKind} {f : Usage} : Retaining void (asKind a k f) :=
  (retaining_rule void).asKind (D := []) (J := []) (I := []) (Γ := [])

theorem applyUnaryLifted {op : UnaryOp} {a : Ty} : Retaining void (applyUnaryLifted op a) :=
  (retaining_rule void).applyUnaryLifted (D := []) (J := []) (I := []) (Γ := [])

theorem load {h : Home} {b : Bool} : Retaining void (load h b) := emit

theorem store {h : Home} : Retaining void (store h) := emit

theorem dropWhen {b : Bool} : Retaining void (dropWhen b) := ite emit loose.pure

theorem callMethod {m : Method} {b : Bool} : Retaining void (callMethod m b) :=
  loose.methodEntry.bind fun _ => emit

theorem callSetter {m : Method} : Retaining void (callSetter m) := callMethod.bind fun _ => dropWhen

theorem setterOf {q : Property} : Retaining void (setterOf q) :=
  (retaining_rule void).setterOf (D := []) (J := []) (I := []) (Γ := [])

theorem throwAgain {a : Ty} {f : Usage} : Retaining void (throwAgain a f) :=
  (retaining_rule void).throwAgain (D := []) (J := []) (I := []) (Γ := [])

theorem subscriptSetter {ix : Option Indexer} : Retaining void (subscriptSetter ix) :=
  (retaining_rule void).subscriptSetter (D := []) (J := []) (I := []) (Γ := [])

theorem assumeValue {a : Ty} {f : Usage} : Retaining void (assumeValue a f) :=
  ite loose.assumePushed loose.pure

theorem skipIfNull {slot : Nat} {a : Ty} {r : Nat} : Retaining void (skipIfNull slot a r) :=
  ite (emit.bind fun _ => loose.jumpTo rfl) loose.pure

/-- What follows the load of a variable that is stepped. -/
theorem stepped {step : UnaryOp} {k : NumKind} {h : Home} {c : Prop} [Decidable c] :
    Retaining void (do
      Lower.pushValue (Operator.one k)
      Lower.emit (.arith step.stepArith k)
      if c then Lower.emit .dup
      Lower.store h) :=
  loose.pushValue.bind fun _ => emit.bind fun _ => ite (emit.bind fun _ => store) store

theorem pushCarried {r : Nat} {a : Ty} {f : Usage} : Retaining void (pushCarried r a f) := by
  refine ite loose.pure (loose.labelAt.bind fun l => ?_)
  cases l.valueSlot with
  | none => exact loose.pure
  | some _ => exact emit

theorem labelled {cs : List (List Part × Part)} : Retaining void (labelled cs) := by
  induction cs with
  | nil => exact loose.pure
  | cons c cs ih => exact freshLabel.bind fun _ => ih.bind fun _ => loose.pure

end Retaining

/-! ## Operators -/

namespace Pushes

variable {e l r : Expr} {f : Usage} {ty : Ty} {op : BinaryOp}

theorem constant {v : Value} (h : (Mention.constant v).Ready env void) :
    Pushes env void ((Expr.constant ty v).pushed (Use.of f)) (pushConstant v f) := by
  by_cases hnone : Use.of f = .ignored ∨ v.identity? = none
  · rw [show (Expr.constant ty v).pushed (Use.of f) = [] from if_pos hnone]
    exact quiet Retaining.loose.pushConstant
  · rw [show (Expr.constant ty v).pushed (Use.of f) = [.constant v] from if_neg hnone]
    rw [not_or] at hnone
    have hid : v.identity?.isSome := Option.isSome_iff_ne_none.2 hnone.2
    exact fun s _ s' hpush _ => .push (.refl s) ⟨hid, h hid⟩
      (by simpa [Use.of] using hnone.1) hpush (.rest (.refl s'))

theorem lambda {k : Lambda} :
    Pushes env void ((Expr.lambda k).pushed (Use.of f)) (pushLambda k f) := by
  by_cases hnone : Use.of f = .ignored
  · rw [show (Expr.lambda k).pushed (Use.of f) = [] from if_pos hnone]
    exact quiet Retaining.loose.pushLambda
  · rw [show (Expr.lambda k).pushed (Use.of f) = [.lambda k] from if_neg hnone]
    exact fun s _ s' hpush _ => .push (.refl s) trivial (by simpa [Use.of] using hnone) hpush
      (.rest (.refl s'))

/-- The value of a node is taken. -/
theorem taken (he : e.Pushes env void) : Pushes env void (e.pushed .taken) (e.part.emit f.operand) :=
  he.emit f.operand

theorem operandOf {k : NumKind} (he : e.Pushes env void) :
    Pushes env void (e.pushed .taken) (operandOf e.part k f) := by
  unfold Lower.operandOf
  split
  · next v hfold =>
    -- A constant that is a number has no identity.
    have hnone : e.pushed .taken = [] := by
      rw [e.part_expr] at hfold
      unfold foldedConstant? at hfold
      split at hfold <;> simp [Expr.pushed, Value.identity?] at hfold ⊢
    rw [hnone]
    exact quiet Retaining.loose.pushValue
  · exact (taken he).after fun _ => Retaining.asKind

theorem binaryByMethod {m : Method} (hr : r.Pushes env void) :
    Pushes env void (r.pushed .taken) (binaryByMethod op m ty r.part f) :=
  guard Retaining.loose.error fun _ => guard Retaining.loose.unsupported fun _ =>
    (taken hr).after fun _ => Retaining.callMethod.bind fun _ => Retaining.loose.pure

theorem lifted {i : Instr} {k : NumKind} (hr : r.Pushes env void) :
    Pushes env void (r.pushed .taken) (lifted op i k ty r.part f) := by
  refine before Retaining.loose.newSlot fun _ => before Retaining.emit fun _ =>
    (taken hr).after fun _ => ?_
  refine Retaining.loose.newSlot.bind fun _ => Retaining.emit.bind fun _ =>
    Retaining.freshLabel.bind fun _ => Retaining.freshLabel.bind fun _ =>
    Retaining.skipIfNull.bind fun _ => Retaining.skipIfNull.bind fun _ =>
    Retaining.emit.bind fun _ => Retaining.asKind.bind fun _ => Retaining.emit.bind fun _ =>
    Retaining.asKind.bind fun _ => Retaining.emit.bind fun _ =>
    (Retaining.loose.jumpTo rfl).bind fun _ => Retaining.loose.placeLabel.bind fun _ =>
    Retaining.emit.bind fun _ => Retaining.loose.placeLabel

theorem numeric (hr : r.Pushes env void) :
    Pushes env void (r.pushed .taken) (numeric op ty r.part f) := by
  unfold Lower.numeric
  split
  · exact error
  · split
    · exact error
    · exact ite ((lifted hr).after fun _ => Retaining.loose.pure) (before Retaining.asKind fun _ =>
        (operandOf hr).after fun _ => Retaining.emit.bind fun _ => Retaining.loose.pure)

theorem equality (hr : r.Pushes env void) :
    Pushes env void (r.pushed .taken) (equality op ty r.part f) := by
  have hlast : ∀ _ : Unit, Retaining void (do
      Lower.emit (if op == .equal then .eq else .notEq)
      return Ty.bool) := fun _ => Retaining.emit.bind fun _ => Retaining.loose.pure
  unfold Lower.equality
  cases op.kind? ty r.part.ty with
  | some k => exact before Retaining.asKind fun _ => (operandOf hr).after hlast
  | none => exact (taken hr).after hlast

theorem primitive (hr : r.Pushes env void) :
    Pushes env void (r.pushed .taken) (primitive op ty r.part f) := by
  unfold Lower.primitive
  split
  case h_2 | h_3 | h_4 =>
    -- a logical operator, if the operands are not numbers
    refine ite ?_ (numeric hr)
    split
    · exact (taken hr).after fun _ => Retaining.emit.bind fun _ => Retaining.loose.pure
    · exact error
  · exact ite ((taken hr).after fun _ => Retaining.emit.bind fun _ => Retaining.loose.pure)
      (numeric hr)
  · exact equality hr
  · exact equality hr
  · exact numeric hr

theorem withRight {m : Option Method} (hr : r.Pushes env void) :
    Pushes env void (r.pushed .taken) (withRight op ty r.part m f) := by
  refine read ?_
  split
  · exact binaryByMethod hr
  · exact primitive hr

/-! What an assignment sees of its left side tells what stands there. -/

theorem eq_var_of_target {v : Var} (h : e.part.target = .var v) : e = .var v := by
  rw [e.part_target] at h
  cases e <;> cases h
  rfl

theorem eq_member_of_target {o : Part} {m : Member} (h : e.part.target = .member o m) :
    ∃ x, e = .member x m ∧ x.part = o := by
  rw [e.part_target] at h
  cases e <;> cases h
  exact ⟨_, rfl, rfl⟩

theorem eq_index_of_target {o : Part} {ix : Option Indexer} {ps : List Part}
    (h : e.part.target = .index o ix ps) :
    ∃ x t args, e = .index t x ix args ∧ x.part = o ∧ Expr.parts args = ps := by
  rw [e.part_target] at h
  cases e <;> cases h
  exact ⟨_, _, _, rfl, rfl, rfl⟩

/-- A variable is stepped in place, and nothing else is. -/
theorem stepVariable {step : UnaryOp} :
    Pushes env void (e.pushed .taken) (stepVariable step e.part f) := by
  unfold Lower.stepVariable
  split
  · next v hv =>
    obtain rfl := eq_var_of_target hv
    split
    · exact error
    · refine quiet (Retaining.loose.homeOf.bind fun _ => Retaining.load.bind fun _ => ?_)
      exact Retaining.ite (Retaining.emit.bind fun _ => Retaining.stepped) Retaining.stepped
  · exact unsupported

theorem unary {m : Option Method} {step : UnaryOp} (he : e.Pushes env void) :
    Pushes env void (e.pushed ((Use.of f).operand ty step m)) (unary ty step e.part m f) := by
  unfold Lower.unary
  split
  · unfold Lower.unaryByMethod
    refine guard Retaining.loose.unsupported fun _ => ?_
    cases step <;> exact (taken he).after fun _ => Retaining.callMethod.bind fun _ => Retaining.dropWhen
  · have hnot : (Use.of f).operand ty .not none = .taken := by
      unfold Use.of Use.operand
      cases f.discarded <;> simp
    split
    · exact (taken he).after fun _ => Retaining.emit.bind fun _ => Retaining.assumeValue
    · have huse : (Use.of f).operand ty .unaryPlus none =
          Use.of { f.operand with discarded := f.discarded } := by
        unfold Use.of Use.operand
        cases f.discarded <;> rfl
      rw [huse]
      exact he.emit _
    · exact (taken he).after fun _ => Retaining.conversion.bind fun _ => Retaining.dropWhen
    · exact (taken he).after fun _ => Retaining.emit.bind fun _ => Retaining.dropWhen
    · exact (taken he).after fun _ => Retaining.applyUnaryLifted.bind fun _ => Retaining.dropWhen
    · rw [hnot]
      exact (taken he).after fun _ => Retaining.applyUnaryLifted.bind fun _ => Retaining.dropWhen
    · exact (taken he).after fun _ => Retaining.applyUnaryLifted.bind fun _ => Retaining.dropWhen
    · exact (taken he).after fun _ => Retaining.applyUnaryLifted.bind fun _ => Retaining.dropWhen
    all_goals exact stepVariable

theorem shortCircuit {isAnd : Bool} (hl : l.Pushes env void) (hr : r.Pushes env void) :
    Pushes env void (if Use.of f = .ignored then l.pushed .tested ++ r.pushed .ignored else
      match l.constantBool? with
      | some b => if b == isAnd then r.pushed (Use.of f) else []
      | none => l.pushed (Use.of f) ++ r.pushed (Use.of f))
      (shortCircuit isAnd l.part r.part f) := by
  unfold Lower.shortCircuit
  cases hf : f.discarded with
  | true =>
    have huse : Use.of f = .ignored := by simp [Use.of, hf]
    simp only [huse, if_true]
    exact before Retaining.freshLabel fun _ => (hl.branch _ _ _).bind fun _ =>
      (hr.emit f.effect).after fun _ => Retaining.loose.placeLabel
  | false =>
    have huse : Use.of f = .taken := by simp [Use.of, hf]
    simp only [huse, reduceCtorEq, if_false, Bool.false_eq_true, l.part_expr]
    cases l.constantBool? with
    | some b =>
      dsimp only
      split
      · exact taken hr
      · exact quiet Retaining.loose.pushValue
    | none =>
      exact before Retaining.freshLabel fun _ => (taken hl).bind fun _ =>
        before Retaining.emit fun _ =>
          before (Retaining.loose.jumpTo (by cases isAnd <;> rfl)) fun _ =>
            before Retaining.emit fun _ => (taken hr).after fun _ => Retaining.loose.placeLabel

theorem branchBoth {isAnd w : Bool} {k : Nat} (hl : l.Pushes env void) (hr : r.Pushes env void) :
    Pushes env void (match l.constantBool? with
      | some b => if b == isAnd then r.pushed .tested else []
      | none => l.pushed .tested ++ r.pushed .tested)
      (branchBoth isAnd l.part r.part k w f) := by
  unfold Lower.branchBoth
  rw [l.part_expr]
  cases l.constantBool? with
  | some b =>
    dsimp only
    split
    · exact hr.branch _ _ _
    · exact quiet (Retaining.ite (Retaining.loose.jumpTo rfl) Retaining.loose.pure)
  | none =>
    exact ite (before Retaining.freshLabel fun _ => (hl.branch _ _ _).bind fun _ =>
      (hr.branch _ _ _).after fun _ => Retaining.loose.placeLabel)
      ((hl.branch _ _ _).bind fun _ => hr.branch _ _ _)

theorem coalesce (hl : l.Pushes env void) (hr : r.Pushes env void) :
    Pushes env void (l.pushed .taken ++ r.pushed .taken) (coalesce ty l.part r.part f) :=
  before Retaining.freshLabel fun _ => (taken hl).bind fun _ => before Retaining.emit fun _ =>
    before (Retaining.loose.jumpTo rfl) fun _ => before Retaining.emit fun _ =>
      (taken hr).after fun _ => Retaining.conversion.bind fun _ =>
        Retaining.loose.placeLabel.bind fun _ => Retaining.dropWhen

/-! ## Calls and members -/

variable {es args : List Expr} {m : Method} {member : Member}

theorem pushAll (hes : ∀ e ∈ es, e.Pushes env void) :
    Pushes env void (Expr.pushedAll es) (Part.pushAll (Expr.parts es) f) := by
  induction es with
  | nil => exact quiet Retaining.loose.pure
  | cons e es ih =>
    exact (taken (hes e (by simp))).bind fun _ => ih fun x hx => hes x (by simp [hx])

/-- The receiver of a method is taken, by its address or not. -/
theorem receiver {t : Ty} (he : e.Pushes env void) :
    Pushes env void (e.pushed .taken) (e.part.emit (receiverUse m t f)) := by
  unfold receiverUse
  split
  · exact he.emit { f.operand with byAddress := true }
  · exact taken he

theorem methodCall {o : Option Expr} (ho : ∀ e, o = some e → e.Pushes env void)
    (ha : ∀ e ∈ args, e.Pushes env void) :
    Pushes env void (Expr.pushedOption o .taken ++ Expr.pushedAll args)
      (methodCall (Expr.partOption o) m (Expr.parts args) f) := by
  cases o with
  | none =>
    exact (pushAll ha).after fun _ => Retaining.callMethod.bind fun _ => Retaining.dropWhen
  | some e =>
    exact (receiver (ho e rfl)).bind fun _ => (pushAll ha).after fun _ =>
      Retaining.callMethod.bind fun _ => Retaining.dropWhen

theorem newInstance {d : StructDef} {factory : Option Method} (ha : ∀ e ∈ args, e.Pushes env void) :
    Pushes env void (Expr.pushedAll args) (newInstance d factory (Expr.parts args) f) := by
  refine (pushAll ha).after fun _ => ?_
  cases factory with
  | some m => exact Retaining.callMethod
  | none => exact Retaining.loose.structEntry.bind fun _ => Retaining.emit

theorem storeMember (he : e.Pushes env void) :
    Pushes env void (e.pushed .taken) (storeMember member e.part f) := by
  cases member with
  | field _ _ _ _ => exact (taken he).after fun _ => Retaining.emit
  | property _ _ =>
    exact before Retaining.setterOf fun _ => (taken he).after fun _ => Retaining.callSetter

theorem setMembers {load : LowerM Unit} {bs : List Binding} (hload : Retaining void load)
    (hbs : ∀ b ∈ bs, b.value.Pushes env void) :
    Pushes env void (Expr.pushedBindings bs) (setMembers load f (Expr.partBindings bs)) := by
  induction bs with
  | nil => exact quiet Retaining.loose.pure
  | cons b bs ih =>
    obtain ⟨n, e⟩ := b
    exact before hload fun _ => (storeMember (hbs (.mk n e) (by simp))).bind fun _ =>
      ih fun x hx => hbs x (by simp [hx])

theorem initialised {d : StructDef} {bs : List Binding} (ha : ∀ e ∈ args, e.Pushes env void)
    (hbs : ∀ b ∈ bs, b.value.Pushes env void) :
    Pushes env void (Expr.pushedAll args ++ Expr.pushedBindings bs)
      (initialised d (Expr.parts args) (Expr.partBindings bs) f) := by
  refine (newInstance ha).bind fun _ => ?_
  cases d.kind with
  | reference => exact (setMembers Retaining.emit hbs).after fun _ => Retaining.dropWhen
  | value =>
    exact before Retaining.loose.newSlot fun _ => before Retaining.emit fun _ =>
      (setMembers Retaining.emit hbs).after fun _ => Retaining.ite Retaining.emit Retaining.loose.pure

theorem readMember (he : e.Pushes env void) :
    Pushes env void (e.pushed (.receiver member)) (readMember e.part member f) := by
  cases member with
  | field _ _ _ _ =>
    exact (he.emit { f.operand with byAddress := true }).after fun _ =>
      Retaining.emit.bind fun _ => Retaining.dropWhen
  | property d q =>
    have hreceiver : Pushes env void (e.pushed (.receiver (.property d q)))
        (e.part.emit (if q.getter.isStatic then f.effect else receiverUse q.getter e.part.ty f)) := by
      cases hstatic : q.getter.isStatic with
      | true =>
        simp only [Use.receiver, hstatic, if_true]
        exact he.emit f.effect
      | false =>
        simp only [Use.receiver, hstatic, Bool.false_eq_true, if_false]
        exact receiver he
    exact hreceiver.after fun _ => Retaining.callMethod.bind fun _ => Retaining.dropWhen

theorem assignMember (hl : l.Pushes env void) (hr : r.Pushes env void) :
    Pushes env void (l.pushed .taken ++ r.pushed .taken) (assignMember l.part member r.part f) := by
  refine (hl.emit { f.operand with byAddress := true }).bind fun _ => ite (storeMember hr)
    (before Retaining.loose.newSlot fun _ => ?_)
  cases member with
  | field _ _ _ _ =>
    exact (taken hr).after fun _ => Retaining.emit.bind fun _ => Retaining.emit.bind fun _ =>
      Retaining.emit.bind fun _ => Retaining.emit
  | property _ _ =>
    exact before Retaining.setterOf fun _ => (taken hr).after fun _ => Retaining.emit.bind fun _ =>
      Retaining.emit.bind fun _ => Retaining.callSetter.bind fun _ => Retaining.emit

theorem subscript {ix : Option Indexer} (he : e.Pushes env void)
    (ha : ∀ e ∈ args, e.Pushes env void) :
    Pushes env void (e.pushed .taken ++ Expr.pushedAll args)
      (subscript e.part ix (Expr.parts args) f) := by
  cases ix with
  | none =>
    exact (taken he).bind fun _ => (pushAll ha).after fun _ => Retaining.emit.bind fun _ =>
      Retaining.dropWhen
  | some _ =>
    exact (receiver he).bind fun _ => (pushAll ha).after fun _ => Retaining.callMethod.bind fun _ =>
      Retaining.dropWhen

theorem assignSubscript {ix : Option Indexer} (hl : l.Pushes env void)
    (ha : ∀ e ∈ args, e.Pushes env void) (hr : r.Pushes env void) :
    Pushes env void (l.pushed .taken ++ Expr.pushedAll args ++ r.pushed .taken)
      (assignSubscript l.part ix (Expr.parts args) r.part f) := by
  rw [List.append_assoc]
  refine before Retaining.subscriptSetter fun setter => bind ?_ fun _ =>
    (pushAll ha).bind fun _ => (taken hr).after fun _ => ?_
  · cases setter with
    | none => exact taken hl
    | some _ => exact receiver hl
  · -- The value is stored, and loaded again if it was kept.
    refine Retaining.ite (Retaining.loose.pure.bind fun k => ?_) (Retaining.loose.newSlot.bind fun _ =>
      Retaining.emit.bind fun _ => Retaining.emit.bind fun _ => Retaining.loose.pure.bind fun k => ?_) <;>
    cases setter with
    | none =>
      cases k with
      | none => exact Retaining.emit.bind fun _ => Retaining.loose.pure
      | some _ => exact Retaining.emit.bind fun _ => Retaining.emit
    | some m =>
      cases k with
      | none => exact Retaining.callSetter.bind fun _ => Retaining.loose.pure
      | some _ => exact Retaining.callSetter.bind fun _ => Retaining.emit

theorem arrayOf (hes : ∀ e ∈ es, e.Pushes env void) :
    Pushes env void (Expr.pushedAll es) (arrayOf (Expr.parts es) f) :=
  (pushAll hes).after fun _ => Retaining.emit.bind fun _ => Retaining.dropWhen

theorem arrayOfLength (he : e.Pushes env void) :
    Pushes env void (e.pushed .taken) (arrayOfLength ty e.part f) :=
  (taken he).after fun _ => Retaining.literal.bind fun _ => Retaining.emit.bind fun _ =>
    Retaining.dropWhen

theorem invocation (he : e.Pushes env void) (ha : ∀ e ∈ args, e.Pushes env void) :
    Pushes env void (e.pushed .taken ++ Expr.pushedAll args)
      (invocation ty e.part (Expr.parts args) f) :=
  (taken he).bind fun _ => (pushAll ha).after fun _ => Retaining.emit.bind fun _ => Retaining.dropWhen

/-! ## Assignment -/

/-- The value of an assignment, behind what its target consists of. -/
theorem assign (hl : l.PlacePushes env void) (hr : r.Pushes env void) :
    Pushes env void (l.pushedPlace ++ r.pushed .taken) (assign l.part r.part f) := by
  unfold Lower.assign
  split
  · next v hv =>
    obtain rfl := eq_var_of_target hv
    exact before Retaining.loose.homeOf fun _ => (taken hr).after fun _ =>
      Retaining.ite (Retaining.emit.bind fun _ => Retaining.store) Retaining.store
  · next o m ho =>
    obtain ⟨x, rfl, rfl⟩ := eq_member_of_target ho
    exact assignMember hl hr
  · next o ix args ho =>
    obtain ⟨x, t, xs, rfl, rfl, rfl⟩ := eq_index_of_target ho
    exact assignSubscript hl.1 hl.2 hr
  · exact unsupported

theorem applyAndConvert {base : BinaryOp} {method : Option Method} (hr : r.Pushes env void) :
    Pushes env void (r.pushed .taken) (applyAndConvert base ty r.part method f) :=
  (withRight (f := f.operand) hr).after fun _ => Retaining.conversion

theorem assignApplied {base : BinaryOp} {method : Option Method} (hl : l.PlacePushes env void)
    (hr : r.Pushes env void) :
    Pushes env void (l.pushedPlace ++ r.pushed .taken)
      (assignApplied base l.part r.part method f) := by
  unfold Lower.assignApplied
  split
  · next v hv =>
    obtain rfl := eq_var_of_target hv
    exact before Retaining.loose.homeOf fun _ => before Retaining.load fun _ =>
      (applyAndConvert hr).after fun _ =>
        Retaining.ite (Retaining.emit.bind fun _ => Retaining.store) Retaining.store
  · next o _ index _ _ ho =>
    obtain ⟨x, rfl, rfl⟩ := eq_member_of_target ho
    have hkeep : Retaining void (if f.discarded then Lower.emit (.storeField index) else do
        let value ← Lower.newSlot
        Lower.emit .dup
        Lower.emit (.storeLocal value)
        Lower.emit (.storeField index)
        Lower.emit (.loadLocal value)) :=
      Retaining.ite Retaining.emit (Retaining.loose.newSlot.bind fun _ => Retaining.emit.bind fun _ =>
        Retaining.emit.bind fun _ => Retaining.emit.bind fun _ => Retaining.emit)
    exact (hl.emit { f.operand with byAddress := true }).bind fun _ =>
      before Retaining.loose.newSlot fun _ => before Retaining.emit fun _ =>
        before Retaining.emit fun _ => before Retaining.emit fun _ => before Retaining.emit fun _ =>
          (applyAndConvert hr).after fun _ => hkeep
  · exact unsupported

theorem binary {method : Option Method} (hl : l.Pushes env void) (hplace : l.PlacePushes env void)
    (hr : r.Pushes env void) : Pushes env void ((Expr.binary ty op l r method).pushed (Use.of f))
      (binary ty op l.part r.part method f) := by
  have hplain : Pushes env void (l.pushed .taken ++ r.pushed .taken) (do
      l.part.emit f.operand
      let _ ← Lower.withRight op l.part.ty r.part method f.operand
      Lower.dropWhen f.discarded) :=
    (taken hl).bind fun _ => (withRight hr).after fun _ => Retaining.dropWhen
  have happlied : ∀ base, Pushes env void (l.pushedPlace ++ r.pushed .taken)
      (Lower.assignApplied base l.part r.part method f) := fun _ => assignApplied hplace hr
  cases op with
  | assign => exact assign hplace hr
  | andAlso => exact shortCircuit hl hr
  | orElse => exact shortCircuit hl hr
  | coalesce => exact coalesce hl hr
  | addAssign | subtractAssign | multiplyAssign | divideAssign | moduloAssign => exact happlied _
  | _ => exact hplain

/-! ## Control flow -/

/-- A node gives the value of its parent. -/
theorem result (he : e.Pushes env void) :
    Pushes env void (e.pushed ((Use.of f).result ty)) (e.part.emit (f.result ty)) :=
  Use.of_result f ty ▸ he.emit _

theorem conditional (he : e.Pushes env void) (hl : l.Pushes env void) (hr : r.Pushes env void) :
    Pushes env void (e.pushed .tested ++ (l.pushed ((Use.of f).result ty) ++
      r.pushed ((Use.of f).result ty))) (conditional ty e.part l.part r.part f) :=
  before Retaining.freshLabel fun _ => before Retaining.freshLabel fun _ =>
    (he.branch _ _ _).bind fun _ => (result hl).bind fun _ =>
      before (Retaining.loose.jumpTo rfl) fun _ => before Retaining.loose.placeLabel fun _ =>
        (result hr).after fun _ => Retaining.loose.placeLabel

theorem statements {last : Usage} (hes : ∀ e ∈ es, e.Pushes env void) :
    Pushes env void (Expr.pushedInOrder es (Use.of last)) (statements f last (Expr.parts es)) := by
  induction es with
  | nil => exact quiet Retaining.loose.pure
  | cons e es ih =>
    have he := hes e (by simp)
    cases es with
    | nil => exact he.emit last
    | cons x xs => exact (he.emit f.effect).bind fun _ => ih fun y hy => hes y (by simp [hy])

theorem block {vars : List Var} (hes : ∀ e ∈ es, e.Pushes env void) :
    Pushes env void (Expr.pushedInOrder es ((Use.of f).result ty))
      (block ty vars (Expr.parts es) f) := by
  refine before Retaining.bringInAll fun _ => after ?_ fun _ => Retaining.takeOutAll
  exact Use.of_result f ty ▸ statements hes

theorem loop {breakLabel continueLabel : Option Label} (he : e.Pushes env void)
    (hb : ∀ l, breakLabel = some l → void l.id = l.ty.isVoid)
    (hc : ∀ l, continueLabel = some l → void l.id = l.ty.isVoid) :
    Pushes env void (e.pushed .ignored) (loop e.part breakLabel continueLabel f) := by
  have hround : ∀ {rest : LowerM Unit} (top : Nat), Retaining void rest →
      Pushes env void (e.pushed .ignored) (do
        Lower.placeLabel top
        e.part.emit f.effect
        Lower.jumpTo (.jump 0) top
        rest) := fun _ hrest =>
    before Retaining.loose.placeLabel fun _ => (he.emit f.effect).after fun _ =>
      (Retaining.loose.jumpTo rfl).bind fun _ => hrest
  have hexit : ∀ (r : Nat) (a : Ty), Retaining void (do
      Lower.placeLabel r
      Lower.pushCarried r a f) := fun _ _ =>
    Retaining.loose.placeLabel.bind fun _ => Retaining.pushCarried
  unfold Lower.loop
  cases continueLabel with
  | none =>
    refine before Retaining.freshLabel fun top => ?_
    cases breakLabel with
    | none => exact hround top Retaining.loose.pure
    | some l => exact before (Retaining.programLabel (hb l rfl)) fun r => hround top (hexit r _)
  | some k =>
    refine before (Retaining.programLabel (hc k rfl)) fun top => ?_
    cases breakLabel with
    | none => exact hround top Retaining.loose.pure
    | some l => exact before (Retaining.programLabel (hb l rfl)) fun r => hround top (hexit r _)

/-- The value that a jump to a label carries is taken if the label receives one. -/
theorem carried {k : Label} {o : Option Expr} {rest : Nat → LowerM Unit}
    (hk : void k.id = k.ty.isVoid) (ho : ∀ e, o = some e → e.Pushes env void)
    (hrest : ∀ r, Retaining void (rest r)) :
    Pushes env void (Expr.pushedOption o (.carried k)) (do
      let r ← programLabel k
      storeCarried r (Expr.partOption o) f
      rest r) := by
  intro s a s' h hs
  simp only [bind_ok] at h
  obtain ⟨r, s₁, h₁, _, s₂, h₂, h₃⟩ := h
  have hkeep := Retaining.programLabel hk h₁
  obtain ⟨x, hx, hvoid⟩ := hkeep.receives hs k.id r (programLabel_named h₁).lookup
  refine Emissions.before hkeep ?_
  cases o with
  | none =>
    obtain ⟨-, rfl⟩ := pure_ok.1 h₂
    exact .rest (hrest r h₃)
  | some e =>
    have he := ho e rfl
    obtain ⟨y, s₃, hy, h₂⟩ := bind_ok.1 h₂
    obtain ⟨rfl, rfl⟩ := labelAt_ok.1 hy
    simp only [hx, Option.getD_some] at h₂
    -- Whether the label receives a value decides how the value is emitted, and so what counts.
    have hvalue : Emissions env void s₁ (e.pushed (.carried k)) s₂ := by
      cases hslot : x.valueSlot with
      | none =>
        have huse : Use.carried k = .ignored := by simp [Use.carried, ← hk, ← hvoid, hslot]
        rw [hslot] at h₂
        exact huse ▸ he.emit f.effect h₂ (hkeep.receives hs)
      | some slot =>
        have huse : Use.carried k = .taken := by simp [Use.carried, ← hk, ← hvoid, hslot]
        rw [hslot] at h₂
        exact huse ▸ (taken he).after (fun _ => Retaining.emit) h₂ (hkeep.receives hs)
    simpa [Expr.pushedOption] using hvalue.append (.rest (hrest r h₃))

theorem label {k : Label} {o : Option Expr} (hk : void k.id = k.ty.isVoid)
    (ho : ∀ e, o = some e → e.Pushes env void) :
    Pushes env void (Expr.pushedOption o (.carried k)) (label k (Expr.partOption o) f) :=
  carried hk ho fun _ => Retaining.loose.placeLabel.bind fun _ => Retaining.pushCarried

theorem goto {k : Label} {o : Option Expr} (hk : void k.id = k.ty.isVoid)
    (ho : ∀ e, o = some e → e.Pushes env void) :
    Pushes env void (Expr.pushedOption o (.carried k)) (goto ty k (Expr.partOption o) f) :=
  carried hk ho fun _ => (Retaining.loose.jumpTo (by cases f.guarded <;> rfl)).bind fun _ =>
    Retaining.assumeValue

/-! ## Switches -/

variable {slot done : Nat} {comparison : Option Method} {cs : List SwitchCase}
  {ls : List (Nat × List Part × Part)}

theorem caseTests {k : Nat} (hes : ∀ e ∈ es, e.Pushes env void) :
    Pushes env void (Expr.pushedAll es) (caseTests slot ty comparison f k (Expr.parts es)) := by
  induction es with
  | nil => exact quiet Retaining.loose.pure
  | cons e es ih =>
    exact before Retaining.emit fun _ => (withRight (hes e (by simp))).bind fun _ =>
      before (Retaining.loose.jumpTo rfl) fun _ => ih fun x hx => hes x (by simp [hx])

theorem allTests (hcs : ∀ c ∈ cs, ∀ e ∈ c.tests, e.Pushes env void)
    (hls : ls.map (·.2) = Expr.partCases cs) :
    Pushes env void (Expr.pushedTests cs) (allTests slot ty comparison f ls) := by
  induction cs generalizing ls with
  | nil =>
    obtain rfl : ls = [] := by simpa [Expr.partCases] using hls
    exact quiet Retaining.loose.pure
  | cons c cs ih =>
    obtain ⟨tests, body⟩ := c
    obtain ⟨⟨k, x⟩, rest, rfl, rfl, hrest⟩ := List.map_eq_cons_iff.1 hls
    exact (caseTests (hcs (.mk tests body) (by simp))).bind fun _ =>
      ih (fun d hd => hcs d (by simp [hd])) hrest

theorem caseBodies (hcs : ∀ c ∈ cs, c.body.Pushes env void)
    (hls : ls.map (·.2) = Expr.partCases cs) :
    Pushes env void (Expr.pushedBodies cs (Use.of f)) (caseBodies f done ls) := by
  induction cs generalizing ls with
  | nil =>
    obtain rfl : ls = [] := by simpa [Expr.partCases] using hls
    exact quiet Retaining.loose.pure
  | cons c cs ih =>
    obtain ⟨tests, body⟩ := c
    obtain ⟨⟨k, x⟩, rest, rfl, rfl, hrest⟩ := List.map_eq_cons_iff.1 hls
    exact before Retaining.loose.placeLabel fun _ =>
      ((hcs (.mk tests body) (by simp)).emit f).bind fun _ =>
        guard (Retaining.loose.jumpTo rfl) fun _ => ih (fun d hd => hcs d (by simp [hd])) hrest

/-- Labels are made for the cases that there are. -/
theorem map_labelled {cs : List (List Part × Part)} (h : MayGive (labelled cs) ls) :
    ls.map (·.2) = cs := by
  obtain ⟨env, s, s', h⟩ := h
  induction cs generalizing s s' ls with
  | nil =>
    obtain ⟨rfl, -⟩ := pure_ok.1 h
    rfl
  | cons c cs ih =>
    obtain ⟨r, s₁, -, h⟩ := bind_ok.1 h
    obtain ⟨rest, s₂, hrest, h⟩ := bind_ok.1 h
    obtain ⟨rfl, -⟩ := pure_ok.1 h
    rw [List.map_cons, ih s₁ s₂ hrest]

theorem switch {o : Option Expr} (he : e.Pushes env void)
    (htests : ∀ c ∈ cs, ∀ e ∈ c.tests, e.Pushes env void)
    (hbodies : ∀ c ∈ cs, c.body.Pushes env void) (ho : ∀ e, o = some e → e.Pushes env void) :
    Pushes env void (e.pushed .taken ++ (Expr.pushedTests cs ++
      (Expr.pushedOption o ((Use.of f).result ty) ++ Expr.pushedBodies cs ((Use.of f).result ty))))
      (switch ty e.part (Expr.partCases cs) (Expr.partOption o) comparison f) := by
  unfold Lower.switch
  refine guard Retaining.loose.unsupported fun _ => (taken he).bind fun _ =>
    before Retaining.loose.newSlot fun _ => before Retaining.emit fun _ =>
      before Retaining.freshLabel fun done => beforeOf Retaining.labelled fun ls hls => ?_
  have hmap := map_labelled hls
  have hlast : Pushes env void (Expr.pushedBodies cs ((Use.of f).result ty)) (do
      Lower.jumpTo (.jump 0) done
      Lower.caseBodies (f.result ty) done ls
      Lower.placeLabel done) := by
    rw [← Use.of_result]
    exact before (Retaining.loose.jumpTo rfl) fun _ => (caseBodies hbodies hmap).after fun _ =>
      Retaining.loose.placeLabel
  refine (allTests htests hmap).bind fun _ => ?_
  cases o with
  | none => exact hlast
  | some x => exact (result (ho x rfl)).bind fun _ => hlast

/-! ## Protected regions -/

variable {hs : List CatchClause} {c : Cleanup} {result : Option Nat}

theorem catchBody {test : Ty} {v : Option Var} (he : e.Pushes env void) :
    Pushes env void (e.pushed (Use.of f)) (catchBody ⟨test, v, e.part⟩ slot f) := by
  have hbody : Pushes env void (e.pushed (Use.of f)) (do
      modify fun s => { s with caught := slot :: s.caught }
      e.part.emit f
      modify fun s => { s with caught := s.caught.tail }) :=
    before Retaining.scope fun _ => (he.emit f).after fun _ => Retaining.scope
  cases v with
  | none => exact hbody
  | some v =>
    exact before Retaining.bringIn fun _ => before Retaining.emit fun _ =>
      before Retaining.loose.initialise fun _ => hbody.after fun _ => Retaining.takeOut

theorem catches {start stop depth : Nat} (hhs : ∀ h ∈ hs, h.body.Pushes env void) :
    Pushes env void (Expr.pushedHandlers hs (Use.of f))
      (catches start stop depth result done f (Expr.partHandlers hs)) := by
  induction hs with
  | nil => exact quiet Retaining.loose.pure
  | cons h hs ih =>
    obtain ⟨test, v, filter, body⟩ := h
    have hrest := ih fun k hk => hhs k (by simp [hk])
    exact before Retaining.loose.resumeAt fun _ => before Retaining.loose.position fun _ =>
      before Retaining.loose.newSlot fun _ => (catchBody (hhs (.mk test v filter body) (by simp))).bind
        fun _ => before Retaining.loose.keepResult fun _ => before (Retaining.loose.jumpTo rfl) fun _ =>
          hrest.after fun _ => Retaining.loose.pure

/-- Only effects are emitted of a cleanup block. -/
theorem cleanupBlock {start stop depth : Nat} (hc : ∀ e, c.block? = some e → e.Pushes env void) :
    Pushes env void (Expr.pushedCleanup c)
      (cleanupBlock start stop depth f (Expr.partCleanup c)) := by
  have hblock : ∀ (e : Expr) (b : Bool), e.Pushes env void → Pushes env void (e.pushed .ignored)
      (Lower.cleanupBlock start stop depth f (some ⟨b, e.part⟩)) := fun e b he =>
    before Retaining.loose.resumeAt fun _ => before Retaining.loose.position fun _ =>
      before (Retaining.loose.redraw fun s => .aside s _ _ _ _ _ _) fun _ =>
        (he.emit f.effect).after fun _ =>
          (Retaining.loose.redraw fun s => .aside s _ _ _ _ _ _).bind fun _ =>
            Retaining.emit.bind fun _ => Retaining.loose.position.bind fun _ => Retaining.loose.pure
  cases c with
  | none => exact quiet Retaining.loose.pure
  | «finally» e => exact hblock e true (hc e rfl)
  | fault e => exact hblock e false (hc e rfl)

theorem regionWith (he : e.Pushes env void) (hhs : ∀ h ∈ hs, h.body.Pushes env void)
    (hc : ∀ e, c.block? = some e → e.Pushes env void) :
    Pushes env void (e.pushed (if result.isNone then .ignored else .taken) ++
      (Expr.pushedHandlers hs (if result.isNone then .ignored else .taken) ++ Expr.pushedCleanup c))
      (regionWith e.part (Expr.partHandlers hs) (Expr.partCleanup c) f result) := by
  refine before Retaining.loose.get fun _ => before Retaining.freshLabel fun _ =>
    before Retaining.emit fun _ => before Retaining.loose.position fun _ => (he.emit _).bind fun _ =>
      before Retaining.loose.keepResult fun _ => before (Retaining.loose.jumpTo rfl) fun _ =>
        before Retaining.loose.position fun _ => (catches hhs).bind fun _ =>
          before Retaining.loose.position fun _ => (cleanupBlock hc).after fun _ =>
            (Retaining.loose.redraw fun s => .aside s _ _ _ _ _ _).bind fun _ =>
              Retaining.loose.placeLabel.bind fun _ => Retaining.ite ?_ Retaining.loose.pure
  -- the result is loaded again if it was kept
  cases result with
  | none => exact Retaining.loose.pure
  | some _ => exact Retaining.emit

/-- The values of a region and of its handlers are taken if it has a slot for them. -/
theorem protect {hasReturn : Bool} (hsup : env.supplied = none) (he : e.Pushes env void)
    (hhs : ∀ h ∈ hs, h.body.Pushes env void) (hc : ∀ e, c.block? = some e → e.Pushes env void) :
    Pushes env void (e.pushed ((Use.of f).guarded e.ty hasReturn) ++
      (Expr.pushedHandlers hs ((Use.of f).guarded e.ty hasReturn) ++ Expr.pushedCleanup c))
      (protect hasReturn e.part (Expr.partHandlers hs) (Expr.partCleanup c) f) := by
  rw [protect_eq]
  refine read ?_
  have hguarded : (Use.of f).guarded e.ty hasReturn = if !e.part.ty.isVoid &&
      (!f.discarded && !e.part.ty.isVoid || hasReturn && env.supplied.isNone) then .taken
        else .ignored := by
    rw [e.part_ty, hsup]
    unfold Use.guarded Use.of
    cases e.ty.isVoid <;> cases f.discarded <;> cases hasReturn <;> rfl
  rw [hguarded]
  split
  · rw [map_eq_pure_bind, bind_assoc]
    refine before Retaining.loose.newSlot fun k => ?_
    rw [pure_bind]
    exact regionWith he hhs hc
  · rw [pure_bind]
    exact regionWith he hhs hc

end Pushes

end Lower

/-! ## Nodes -/

namespace Expr.Pushes

variable {e l r : Expr} {ty : Ty}

theorem assignable {x : Expr} {emit : Usage → LowerM Unit} {place : TargetPart}
    (hpart : x.part = .assignable x emit place)
    (h : ∀ f, Lower.Pushes env void (x.pushed (Use.of f)) (emit f))
    (htested : x.pushed .tested = x.pushed .taken) : x.Pushes env void := by
  refine ⟨fun f => ?_, fun r w f => ?_⟩
  · rw [hpart]
    exact h f
  · -- Without code of its own for a test the node jumps on its value.
    rw [hpart, htested]
    exact (h f.operand).after fun _ => Retaining.loose.jumpTo (by cases w <;> rfl)

theorem plain {x : Expr} {emit : Usage → LowerM Unit} (hpart : x.part = .plain x emit)
    (h : ∀ f, Lower.Pushes env void (x.pushed (Use.of f)) (emit f))
    (htested : x.pushed .tested = x.pushed .taken) : x.Pushes env void :=
  have hpart : x.part = .assignable x emit .other := hpart
  assignable hpart h htested

theorem unary {op : UnaryOp} {m : Option Method} (he : e.Pushes env void) :
    (Expr.unary ty op e m).Pushes env void := by
  have hcode : ∀ f, Lower.Pushes env void (e.pushed ((Use.of f).operand ty op m))
      (Lower.unary ty op e.part m f) := fun f => .unary he
  by_cases hspecial : op = .not ∧ m.isNone ∧ ty = .bool
  · obtain ⟨rfl, hm, rfl⟩ := hspecial
    obtain rfl : m = none := by simpa using hm
    have hpart : (Expr.unary .bool .not e none).part = .mk (.unary .bool .not e none)
        (Lower.unary .bool .not e.part none) (fun r w f => e.part.branch r (!w) f) .other := by
      simp [Expr.part]
    refine ⟨fun f => ?_, fun r w f => ?_⟩
    · rw [hpart]
      exact hcode f
    · rw [hpart]
      have htest : (Expr.unary .bool .not e none).pushed .tested = e.pushed .tested := by
        simp [Expr.pushed, Use.operand]
      rw [htest]
      exact he.branch r (!w) f
  · refine plain ?_ hcode ?_
    · simp only [Expr.part]
      rw [if_neg (by simpa [and_assoc] using hspecial)]
    · -- Only a negation hands a test down to its operand.
      simp only [Expr.pushed]
      congr 1
      unfold Use.operand
      split
      · rfl
      · rw [if_neg fun h => hspecial ⟨rfl, rfl, h.1⟩, if_neg (by simp)]
      · rfl

theorem binary {op : BinaryOp} {m : Option Method} (hl : l.Pushes env void)
    (hplace : l.PlacePushes env void) (hr : r.Pushes env void) :
    (Expr.binary ty op l r m).Pushes env void := by
  have hcode : ∀ f, Lower.Pushes env void ((Expr.binary ty op l r m).pushed (Use.of f))
      (Lower.binary ty op l.part r.part m f) := fun f => .binary hl hplace hr
  cases op with
  | andAlso => exact ⟨hcode, fun _ _ _ => Lower.Pushes.branchBoth hl hr⟩
  | orElse => exact ⟨hcode, fun _ _ _ => Lower.Pushes.branchBoth hl hr⟩
  | _ => exact plain rfl hcode rfl

end Expr.Pushes

mutual

/-- **The code of every tree pushes the occurrences whose value is used**, in the order in
which it is emitted, if the constants of the tree are planned and ids tell its labels apart. -/
theorem Expr.part_pushes (hsup : env.supplied = none) : ∀ (e : Expr) (D : List Nat),
    (∀ m ∈ e.mentions D, m.Ready env void) → e.Pushes env void
  | .constant t v, D, h => .plain rfl (fun f => .constant (h _ (by simp [Expr.mentions])))
    (by simp [Expr.pushed])
  | .var v, D, _ => .assignable rfl (fun f => .quiet (Retaining.loose.homeOf.bind fun _ =>
    Retaining.ite Retaining.loose.pure Retaining.load)) rfl
  | .default t, D, _ => .plain rfl
    (fun f => .quiet (Retaining.ite Retaining.loose.pushValue Retaining.loose.pure)) rfl
  | .rethrow t, D, _ => .plain rfl (fun f => .quiet Retaining.throwAgain) rfl
  | .lambda l, D, _ => .plain rfl (fun f => .lambda) rfl
  | .unary t op e m, D, h => .unary (Expr.part_pushes hsup e D h)
  | .binary t op l r m, D, h => by
    simp only [Expr.mentions, List.forall_mem_append] at h
    exact .binary (Expr.part_pushes hsup l D h.1) (Expr.place_pushes hsup l D h.1)
      (Expr.part_pushes hsup r D h.2)
  | .call t o m args, D, h => by
    simp only [Expr.mentions, List.forall_mem_append] at h
    exact .plain rfl (fun f => .methodCall (Expr.pushes_of_option hsup o D h.1)
      (Expr.pushes_of_all hsup args D h.2)) rfl
  | .new d m args, D, h => .plain rfl
    (fun f => (Lower.Pushes.newInstance (Expr.pushes_of_all hsup args D h)).after fun _ =>
      Retaining.dropWhen) rfl
  | .member o m, D, h => .assignable rfl (fun f => .readMember (Expr.part_pushes hsup o D h)) rfl
  | .index t o ix args, D, h => by
    simp only [Expr.mentions, List.forall_mem_append] at h
    exact .assignable rfl (fun f => .subscript (Expr.part_pushes hsup o D h.1)
      (Expr.pushes_of_all hsup args D h.2)) rfl
  | .newArray t items, D, h => .plain rfl
    (fun f => .arrayOf (Expr.pushes_of_all hsup items D h)) rfl
  | .newArrayBounds t n, D, h => .plain rfl
    (fun f => .arrayOfLength (Expr.part_pushes hsup n D h)) rfl
  | .memberInit d args bs, D, h => by
    simp only [Expr.mentions, List.forall_mem_append] at h
    exact .plain rfl (fun f => .initialised (Expr.pushes_of_all hsup args D h.1)
      (Expr.pushes_of_bindings hsup bs D h.2)) rfl
  | .conditional t p a b, D, h => by
    simp only [Expr.mentions, List.forall_mem_append] at h
    exact .plain rfl (fun f => .conditional (Expr.part_pushes hsup p D h.1)
      (Expr.part_pushes hsup a D h.2.1) (Expr.part_pushes hsup b D h.2.2))
      (by simp [Expr.pushed, Use.result])
  | .block t vars es, D, h => by
    simp only [Expr.mentions, List.forall_mem_cons] at h
    exact .plain rfl (fun f => .block (Expr.pushes_of_all hsup es _ h.2))
      (by simp [Expr.pushed, Use.result])
  | .loop b breakLabel continueLabel, D, h => by
    simp only [Expr.mentions, List.forall_mem_append, List.forall_mem_map,
      Option.mem_toList] at h
    exact .plain rfl (fun f => .loop (Expr.part_pushes hsup b D h.2.2) h.1 h.2.1) rfl
  | .protect b hs c, D, h => by
    simp only [Expr.mentions, List.forall_mem_append] at h
    exact .plain rfl (fun f => .protect hsup (Expr.part_pushes hsup b D h.1)
      (Expr.pushes_of_handlers hsup hs D h.2.1) (Expr.pushes_of_cleanup hsup c D h.2.2)) rfl
  | .label l e, D, h => by
    simp only [Expr.mentions, List.forall_mem_cons] at h
    exact .plain rfl (fun f => .label h.1 (Expr.pushes_of_option hsup e D h.2)) rfl
  | .goto t kind l e, D, h => by
    simp only [Expr.mentions, List.forall_mem_cons] at h
    exact .plain rfl (fun f => .goto h.1 (Expr.pushes_of_option hsup e D h.2)) rfl
  | .switch t v cs e m, D, h => by
    simp only [Expr.mentions, List.forall_mem_append] at h
    have hcs := Expr.pushes_of_cases hsup cs D h.2.1
    exact .plain rfl (fun f => .switch (Expr.part_pushes hsup v D h.1) (fun c hc => (hcs c hc).1)
      (fun c hc => (hcs c hc).2) (Expr.pushes_of_option hsup e D h.2.2))
      (by simp [Expr.pushed, Use.result])
  | .invoke t e args, D, h => by
    simp only [Expr.mentions, List.forall_mem_append] at h
    exact .plain rfl (fun f => .invocation (Expr.part_pushes hsup e D h.1)
      (Expr.pushes_of_all hsup args D h.2)) rfl
termination_by structural x => x

theorem Expr.place_pushes (hsup : env.supplied = none) : ∀ (e : Expr) (D : List Nat),
    (∀ m ∈ e.mentions D, m.Ready env void) → e.PlacePushes env void
  | .member o m, D, h => Expr.part_pushes hsup o D h
  | .index t o ix args, D, h => by
    simp only [Expr.mentions, List.forall_mem_append] at h
    exact ⟨Expr.part_pushes hsup o D h.1, Expr.pushes_of_all hsup args D h.2⟩
  | .constant .., _, _ | .var _, _, _ | .default _, _, _ | .rethrow _, _, _ | .unary .., _, _
  | .binary .., _, _ | .call .., _, _ | .new .., _, _ | .newArray .., _, _ | .newArrayBounds .., _, _
  | .memberInit .., _, _ | .conditional .., _, _ | .block .., _, _ | .loop .., _, _
  | .protect .., _, _ | .label .., _, _ | .goto .., _, _ | .switch .., _, _ | .lambda _, _, _
  | .invoke .., _, _ => trivial
termination_by structural x => x

theorem Expr.pushes_of_option (hsup : env.supplied = none) : ∀ (o : Option Expr) (D : List Nat),
    (∀ m ∈ Expr.mentionsOption D o, m.Ready env void) → ∀ e, o = some e → e.Pushes env void
  | some e, D, h, _, he => by
    have hpushes := Expr.part_pushes hsup e D h
    cases he
    exact hpushes
termination_by structural x => x

theorem Expr.pushes_of_all (hsup : env.supplied = none) : ∀ (es : List Expr) (D : List Nat),
    (∀ m ∈ Expr.mentionsAll D es, m.Ready env void) → ∀ e ∈ es, e.Pushes env void
  | e :: es, D, h, x, hx => by
    simp only [Expr.mentionsAll, List.forall_mem_append] at h
    have hpushes := Expr.part_pushes hsup e D h.1
    rcases List.mem_cons.1 hx with rfl | hx
    · exact hpushes
    · exact Expr.pushes_of_all hsup es D h.2 x hx
termination_by structural x => x

theorem Expr.pushes_of_bindings (hsup : env.supplied = none) : ∀ (bs : List Binding) (D : List Nat),
    (∀ m ∈ Expr.mentionsBindings D bs, m.Ready env void) → ∀ b ∈ bs, b.value.Pushes env void
  | .mk n e :: bs, D, h, b, hb => by
    simp only [Expr.mentionsBindings, List.forall_mem_append] at h
    rcases List.mem_cons.1 hb with rfl | hb
    · exact Expr.part_pushes hsup e D h.1
    · exact Expr.pushes_of_bindings hsup bs D h.2 b hb
termination_by structural x => x

theorem Expr.pushes_of_handlers (hsup : env.supplied = none) : ∀ (hs : List CatchClause)
    (D : List Nat), (∀ m ∈ Expr.mentionsHandlers D hs, m.Ready env void) →
      ∀ k ∈ hs, k.body.Pushes env void
  | .mk _ v _ body :: hs, D, h, k, hk => by
    simp only [Expr.mentionsHandlers, List.forall_mem_append] at h
    rcases List.mem_cons.1 hk with rfl | hk
    · exact Expr.part_pushes hsup body _ h.1
    · exact Expr.pushes_of_handlers hsup hs D h.2 k hk
termination_by structural x => x

theorem Expr.pushes_of_cleanup (hsup : env.supplied = none) : ∀ (c : Cleanup) (D : List Nat),
    (∀ m ∈ Expr.mentionsCleanup D c, m.Ready env void) → ∀ e, c.block? = some e → e.Pushes env void
  | .finally e, D, h, _, he | .fault e, D, h, _, he => by
    have hpushes := Expr.part_pushes hsup e D h
    cases he
    exact hpushes
termination_by structural x => x

theorem Expr.pushes_of_cases (hsup : env.supplied = none) : ∀ (cs : List SwitchCase) (D : List Nat),
    (∀ m ∈ Expr.mentionsCases D cs, m.Ready env void) →
      ∀ c ∈ cs, (∀ e ∈ c.tests, e.Pushes env void) ∧ c.body.Pushes env void
  | .mk tests body :: cs, D, h, c, hc => by
    simp only [Expr.mentionsCases, List.forall_mem_append] at h
    rcases List.mem_cons.1 hc with rfl | hc
    · exact ⟨Expr.pushes_of_all hsup tests D h.1, Expr.part_pushes hsup body D h.2.1⟩
    · exact Expr.pushes_of_cases hsup cs D h.2.2 c hc
termination_by structural x => x

end

end TreeCode

import TreeCode.Proofs.Operator.Emission

/-!
# Operations on variables and constants

A primitive operator applied to variables and constants, or applied to a variable and
assigned to it: what running its code leaves is what direct evaluation computes. One
machine is followed, and nothing is cut off by a bound.

Main definitions:

* `Expr.Leaves` — what carrying out an operation leaves in the two runs.

Main results:

* `Pact.meets_compound` — an operator applied to a variable and assigned to it.
* `operators_exact` — **primitive operators are lowered exactly**.
-/

namespace TreeCode

open Draft Lower

/-- Evaluation after a variable was assigned. -/
def EvalState.putCell (σ : EvalState) (ref : Nat) (v : Value) : EvalState :=
  { σ with world := { σ.world with store := σ.world.store.setCell ref v } }

/-- A node leaves its value if it is wanted. -/
theorem Usage.pushed_eq (f : Usage) (v : Value) (st : List Value) :
    f.pushed v st = if !f.discarded then v :: st else st := by
  cases hd : f.discarded <;> simp [Usage.pushed, hd]

namespace Pact

variable {P : Pact} {σ σ' : EvalState} {G : P.Frame} {a b : P.State} {μ μ' : MachineState}
  {s s' t t' : Draft} {st : List Value} {f : Usage} {n : Nat}

/-! ## Operators applied to operands -/

/-- What an operation on the stack of one machine performs. -/
theorem Meets.of_performs {m : Machine} {x : Except OpError Value} {q : Nat}
    (hm : ∀ k, P.machines k = m) (h : m.Performs μ q st (RunM.ofOp x μ.world))
    (hold : P.holds G a σ μ) :
    P.Meets a μ (EvalM.ofRun (RunM.ofOp x) σ) fun v σ' μ' =>
      x = .ok v ∧ σ' = σ ∧ μ' = μ.movedTo q (v :: st) := by
  cases x with
  | ok v =>
    obtain ⟨j, hgo⟩ := h
    exact ⟨0, j, _, fun k _ => hm k ▸ hgo, rfl, rfl, rfl⟩
  | error e =>
    obtain ⟨f, j, hfail⟩ := RunM.ofOp_error e σ.world.store.stamps
    have heval : EvalM.ofRun (RunM.ofOp (α := Value) (.error e)) σ =
        .error (.fault f) { σ with world := σ.world.stamped j } := by
      simp only [EvalM.ofRun, hfail _ _ rfl]
    rw [hfail _ _ (P.stamps hold)] at h
    obtain ⟨i, μ₁, μ₂, hgo, hstep, hworld⟩ := h
    obtain ⟨b, hab, hb⟩ := P.broken_stamped j hold
    rw [heval]
    exact .inr ⟨0, i, μ₁, fun k _ => hm k ▸ hgo, 0, μ₂, fun k _ => hm k ▸ hstep, b, hab, hworld ▸ hb⟩

/-- The value on top is copied before the code goes on, or not. -/
theorem copy_ok {d : Bool} {x : LowerM Unit} {u : Unit} (h : (if d then do
      emit .dup
      x
    else x : LowerM Unit) P.env s = .ok (u, s')) :
    ∃ t, Step True .blank [] [] s t ∧ x P.env t = .ok (u, s') ∧
      ∀ (v : Value) (st : List Value) (μ : MachineState), t.Leads P.final →
        Comes P.machines (μ.movedTo s.instrs.size (v :: st))
          (· = μ.movedTo t.instrs.size (v :: if d then v :: st else st)) := by
  simp only [ite_ok, bind_ok, emit_ok] at h
  rcases h with ⟨rfl, _, _, rfl, hx⟩ | ⟨hd, hx⟩
  · exact ⟨_, .emitted .., hx, fun v st μ hF => dup_comes P.follows hF⟩
  · refine ⟨s, .refl _, hx, fun v st μ _ => ?_⟩
    rw [if_neg hd]
    exact .here rfl

variable {v : Var} {c : Expr} {base : BinaryOp} {w : Ty}

/-- The variable was assigned `x` where the two runs stood as the pact says. -/
def Assigned (P : Pact) (G : P.Frame) (v : Var) (s s' : Draft) (f : Usage) (st : List Value)
    (scopes : Scopes Nat Nat) (x : Value) (σ : EvalState) (μ : MachineState) : Prop :=
  ∃ b σ₁ μ₁ ref home, homeOf v P.env s = .ok (home, s) ∧ scopes.get? v.id = some ref ∧
    P.holds G b σ₁ μ₁ ∧ σ = σ₁.putCell ref x ∧
      μ = (μ₁.put P.record x home).movedTo s'.instrs.size (f.pushed x st)

/-- An operator is applied to a variable and an operand, the value is converted back to the
type of the variable, and the variable is assigned. -/
theorem meets_compound {m : Machine} (hm : ∀ k, P.machines k = m) (hread : P.Reads v)
    (hexv : P.Exact v.ty) (A : P.Agrees c) (hex : P.Exact c.ty) (hneat : c.Neat)
    (ht : v.ty.Scalar) (hc : c.ty.Scalar) (hw : Build.primitiveType? base v.ty c.ty = some w)
    (hop : base.isPrimitive = true)
    (hback : w = v.ty ∨ w.liftedNumKind?.isSome = true ∧ v.ty.liftedNumKind?.isSome = true)
    (hlow : assignApplied base (Expr.var v).part c.part none f P.env s = .ok ((), s'))
    (S : P.Spans G s s') (hroom : P.Room n σ c.height) (hold : P.holds G a σ μ) :
    P.Meets a (μ.movedTo s.instrs.size st) ((P.walk n).assignApplied base (.var v) c none σ)
      (P.Assigned G v s s' f st σ.scopes) := by
  have hs : Walk.isStrict base = true := by cases base <;> first | rfl | cases hop
  replace hlow : (do
      let home ← homeOf v
      load home false
      let result ← withRight base v.ty c.part none f.operand
      conversion result v.ty
      if !f.discarded then do
        emit .dup
        store home
      else store home : LowerM Unit) P.env s = .ok ((), s') := by
    simp only [assignApplied, applyAndConvert, bind_assoc] at hlow
    exact hlow
  simp only [bind_ok] at hlow
  -- The variable has one home while the code runs, and the value it has there is the left operand.
  obtain ⟨home, _, hhome, _, s₁, hload, ty, s₂, hright, _, s₃, hconv, hlow⟩ := hlow
  obtain rfl := homeOf_same hhome
  obtain ⟨ref, l, href, hl, hfit⟩ := hread S.suits hold hhome
  obtain ⟨rfl, hfits⟩ := hexv.1 hfit
  have hnode : (P.walk n).assignApplied base (.var v) c none σ =
      (((P.walk n).valueOf c >>= fun r => EvalM.ofRun ((P.walk n).combine base v.ty
        (σ.world.store.cellAt ref) c.ty r none)) >>= fun p =>
        EvalM.ofRun ((P.walk n).cast p.1 p.2 v.ty) >>= fun x =>
          EvalM.ofRun (RunM.writeCell ref x) >>= fun _ => pure x) σ := by
    simp only [Walk.assignApplied, Walk.placeOf, bind_assoc]
    show EStateM.bind (EvalM.cellOf v) _ σ = _
    simp only [EStateM.bind, EvalM.cellOf_eq href]
    rfl
  have h₁ : Step True .blank [] [] s s₁ := by
    obtain rfl := emit_ok.1 hload
    exact .emitted ..
  have hs₁ := h₁.stage.sound S.sound
  have h₂ := withRight_step hs₁ hneat hright
  have hs₂ := h₂.stage.sound hs₁
  have h₃ : Step True .blank [] [] s₂ s₃ :=
    ((acts_rule True .blank []).conversion (D := []) (J := []) (Γ := [])).stepped hconv hs₂ trivial
  obtain ⟨s₄, h₄, hstore, hkeep⟩ := copy_ok hlow
  have h₅ : Step True .blank [] [] s₄ s' := by
    obtain rfl := emit_ok.1 hstore
    exact .emitted ..
  have hF₄ := h₅.stage.leads.trans S.leads
  have hF₃ := h₄.stage.leads.trans hF₄
  rw [hnode]
  refine Meets.of_comes (load_comes P.follows P.recorded hload
    ((h₂.comp (h₃.comp (h₄.comp h₅))).stage.leads.trans S.leads) hl) ?_
  rintro _ rfl
  refine (meets_withRight A hex hneat hc.not_void ⟨ht.plain, hc.plain⟩ hw hs hfits hright
    ((S.rest h₁).start (h₃.comp (h₄.comp h₅))) hroom hold).bind ?_
  rintro ⟨y, ty'⟩ σ₁ μ₁ - hy
  obtain ⟨b, hab, rfl, rfl, hy, hold₁, hμ⟩ := hy.typed hw hs hfits
  have hyw : y.Inhabits ty' := (Build.primitiveType?_scalar hw hop).inhabits hy
  -- Casts of scalars do not look at the store, so that of the machines may be taken.
  have hcast : EvalM.ofRun ((P.walk n).cast y ty' v.ty) σ₁ =
      EvalM.ofRun (RunM.ofOp (Operator.cast μ₁.world.store m.fuel y ty' v.ty)) σ₁ := by
    rw [Operator.cast_scalar μ₁.world.store σ₁.world.store m.fuel n hback]
    rfl
  have hconverted : P.Meets b (μ₁.movedTo s₂.instrs.size (y :: st))
      (EvalM.ofRun ((P.walk n).cast y ty' v.ty) σ₁) fun x σ' μ' =>
        Operator.cast μ₁.world.store m.fuel y ty' v.ty = .ok x ∧ σ' = σ₁ ∧
          μ' = μ₁.movedTo s₃.instrs.size (x :: st) := by
    rw [hcast]
    exact .of_performs hm (emittedConversion_performs hyw hs₂ hconv hF₃ (hm 0 ▸ P.follows 0))
      (P.holds_moved _ _ hold₁)
  rw [hμ]
  refine (hconverted.weaken hab).bind ?_
  rintro x σ₂ μ₂ - ⟨-, rfl, rfl⟩
  -- The value is copied if it is used, and then stored.
  refine Meets.of_comes (hkeep x st μ₁ hF₄) ?_
  rintro _ rfl
  obtain ⟨_, _, -, hx, -⟩ := hread S.suits hold₁ hhome
  show P.Meets a _ (.ok x (σ₂.putCell ref x)) _
  rw [← f.pushed_eq]
  refine (store_comes P.follows P.recorded hstore S.leads hx).mono ?_
  rintro _ rfl
  exact ⟨b, σ₂, μ₁, ref, home, hhome, href, hold₁, rfl, rfl⟩

end Pact

/-- The variable that an operation assigns. -/
def Expr.assigned? : Expr → Option Var
  | .binary _ op (.var v) _ _ => if op.base?.isSome then some v else none
  | _ => none

/-- Carrying out an operation with the value `x` leads from `σ₀` and `μ₀` to `σ` and `μ`: the
variables are as they were, but for the one that is assigned, which has the value `x`. -/
def Expr.Leaves (e : Expr) (record : ClosureRecord) (env : LowerEnv) (s : Draft) (σ₀ : EvalState)
    (μ₀ : MachineState) (x : Value) (σ : EvalState) (μ : MachineState) : Prop :=
  ∃ σ₁ μ₁, Kept s.numLocals σ₀ μ₀ σ₁ μ₁ ∧
    match e.assigned? with
    | none => σ = σ₁ ∧ μ = μ₁
    | some v => ∃ ref home, σ₀.scopes.get? v.id = some ref ∧ homeOf v env s = .ok (home, s) ∧
        σ = σ₁.putCell ref x ∧ μ = μ₁.put record x home

namespace Scene

variable {X : Scene} {known : Var → Prop} {catalog : Catalog} {e : Expr} {t : Ty} {s' : Draft}
  {f : Usage} {n : Nat} {st : List Value}

/-- Only a value itself stands for it, if it is of a scalar type. -/
theorem exact_scalar (hform : ∀ v t, X.form v t ↔ Typing.bare.Fits v t) (ht : t.Scalar) :
    X.pact.Exact t := by
  intro a v v'
  constructor
  · rintro (⟨rfl, h⟩ | rfl)
    · exact ⟨rfl, (hform _ _).1 h⟩
    · cases ht
  · rintro ⟨rfl, h⟩
    exact .inl ⟨rfl, (hform _ _).2 h⟩

theorem agrees_operand (hform : ∀ v t, X.form v t ↔ Typing.bare.Fits v t)
    (hknown : ∀ v, known v → X.Knows v) (he : e.Operand known) : X.pact.Agrees e := by
  cases he with
  | var hv _ => exact Pact.agrees_var (reads (hknown _ hv))
  | constant ht hv =>
    obtain ⟨hid, hfaithful⟩ := ht.literal hv
    exact Pact.agrees_constant hid hfaithful fun _ => .inl ⟨rfl, (hform _ _).2 hv⟩

/-- An operation that assigns nothing leaves the variables as they were. -/
theorem leaves_of_agrees (hL : X.leeway = .none)
    (hform : ∀ v t, X.form v t ↔ Typing.bare.Fits v t) (A : X.pact.Agrees e) (hty : e.ty.Scalar)
    (hnone : e.assigned? = none) (haddr : f.byAddress = false)
    (hlow : e.part.emit f X.env X.code = .ok ((), s')) (S : X.pact.Spans [] X.code s')
    (hroom : X.pact.Room n X.source e.height) (hold : X.Holds [] X.source X.target) :
    X.pact.Meets () (X.target.movedTo X.code.instrs.size st)
      (eval X.host X.call X.gauge n e X.source) fun x σ μ =>
        ∃ μ', μ = μ'.movedTo s'.instrs.size (f.pushed x st) ∧
          e.Leaves X.record X.env X.code X.source X.target x σ μ' := by
  refine (A (a := ()) hlow S haddr (by simp [hty.not_void]) hroom hold).mono fun x σ μ hx => ?_
  obtain ⟨_, x', -, hfit, hold', hp, hst⟩ := hx
  have hpushed : f.pushed x' st = f.pushed x st := by
    cases hd : f.discarded with
    | true => simp [Usage.pushed, hd]
    | false => rw [((exact_scalar hform hty).1 (hfit (by simp [hd]))).1]
  refine ⟨μ, (Pact.movedTo_eq hp (hst.trans hpushed)).symm, σ, μ, hold'.kept_of_none hL, ?_⟩
  rw [hnone]
  exact ⟨rfl, rfl⟩

theorem meets_operation {m : Machine} (hm : ∀ k, X.machines k = m) (hL : X.leeway = .none)
    (hform : ∀ v t, X.form v t ↔ Typing.bare.Fits v t) (hknown : ∀ v, known v → X.Knows v)
    (he : e.Operation catalog known) (hlow : e.part.emit f X.env X.code = .ok ((), s'))
    (S : X.pact.Spans [] X.code s') (hroom : X.pact.Room n X.source e.height)
    (hold : X.Holds [] X.source X.target) :
    X.pact.Meets () (X.target.movedTo X.code.instrs.size st)
      (eval X.host X.call X.gauge n e X.source) fun x σ μ =>
        ∃ μ', μ = μ'.movedTo s'.instrs.size (f.pushed x st) ∧
          e.Leaves X.record X.env X.code X.source X.target x σ μ' := by
  -- The value of an operation is never emitted for its address.
  have hemit := he.emit_operand f
  have hpushed : ∀ x, f.pushed x st = { f with byAddress := false }.pushed x st := fun _ => rfl
  rw [hemit] at hlow
  simp only [hpushed]
  cases he with
  | @unary op x e hop hx he =>
    obtain ⟨t, ht, rfl⟩ := Build.unary_ok he
    have A := agrees_operand hform hknown hx
    -- Neither kind of operator changes the type of its operand.
    have hty : x.ty = t := by
      rcases hop with hop | rfl
      · exact (Build.unaryType_primitive hop ht).1.symm
      · simp only [Build.unaryType] at ht
        split at ht <;> cases ht
        rfl
    have hscalar : t.Scalar := hty ▸ hx.scalar
    refine leaves_of_agrees hL hform ?_ hscalar rfl rfl hlow S hroom hold
    rcases hop with hop | rfl
    · exact Pact.agrees_unary A (exact_scalar hform hx.scalar) hx.neat hop ht
    · exact Pact.agrees_unaryPlus A hty hscalar.not_void
  | @binary op x y e hop hx hy he =>
    obtain ⟨t, ht, rfl⟩ := Build.binary_ok he
    have A := agrees_operand hform hknown hx
    have B := agrees_operand hform hknown hy
    rcases Build.binaryNodeType_ok hx.scalar.plain hy.scalar.plain ht with
      ⟨base, w, hbase, hwrite, hw, -, rfl⟩ | ⟨rfl, -⟩ | ⟨hbase, -, hw⟩
    · -- Only a variable can be assigned.
      cases hx with
      | constant => cases hwrite
      | @var v hv hty =>
        rw [hbase] at hop
        replace hlow : assignApplied base (Expr.var v).part y.part none
            { f with byAddress := false } X.env X.code = .ok ((), s') := by
          cases op <;> cases hbase <;> exact hlow
        have hassigned : (Expr.binary (Expr.var v).ty op (.var v) y none).assigned? = some v := by
          simp [Expr.assigned?, hbase]
        refine Pact.Meets.ofNode hroom (Expr.height_pos _) (fun j hj => ?_) ?_
          (Q := X.pact.Assigned [] v X.code s' { f with byAddress := false } st X.source.scopes)
        · have hnode : (X.pact.walk j).node (.binary (Expr.var v).ty op (.var v) y none) =
              (X.pact.walk j).assignApplied base (.var v) y none := by
            cases op <;> cases hbase <;> rfl
          rw [hnode]
          subst hj
          exact Pact.meets_compound hm (reads (hknown _ hv)) (exact_scalar hform hty) B
            (exact_scalar hform hy.scalar) hy.neat hty hy.scalar hw hop
            (Build.primitiveType?_back hbase hw) hlow S
            (hroom.part (Nat.lt_succ_of_le (Nat.le_max_right _ _))) (X.pact.holds_depth _ hold)
        · rintro x σ μ ⟨_, σ₁, μ₁, ref, home, hhome, href, hold', rfl, rfl⟩
          -- The depth of evaluation is as before, and no cell was made.
          refine ⟨_, rfl, σ₁.atDepth X.gauge (X.source.world.depthAt X.gauge), μ₁,
            Holds.kept_of_none (X.pact.holds_depth _ hold') hL, ?_⟩
          rw [hassigned]
          exact ⟨ref, home, href, hhome, rfl, rfl⟩
    -- A plain assignment is no operation.
    · cases hop
    · rw [hbase] at hop
      replace hop : op.isPrimitive = true := hop
      have hs : Walk.isStrict op = true := by cases op <;> first | rfl | cases hop
      have hty := Build.primitiveType?_scalar hw hop
      refine leaves_of_agrees hL hform ?_ hty ?_ rfl hlow S hroom hold
      · exact Pact.agrees_binary A B (exact_scalar hform hx.scalar) (exact_scalar hform hy.scalar)
          (exact_scalar hform hty) hx.neat hy.neat ⟨hx.scalar.plain, hy.scalar.plain⟩
          ⟨hx.scalar.not_void, hy.scalar.not_void⟩ hw hs
      · cases x <;> simp [Expr.assigned?, hbase]

end Scene

/-- **Primitive operators are lowered exactly.** Let `e` be an arithmetic, bitwise or shift
operator, an ordering or a test for equality, a sign, a negation, a step, or a compound
assignment to a variable, on variables and constants of scalar types as the builder accepts
it. Where its variables have a place, and there is room for two literals and two slots, it can
be emitted. If evaluating it gives a value, running the emitted code leaves this value on the
stack, and the variables as they were but for the one that is assigned, which has the value in
both runs; if evaluating it fails, running the code fails in the same way. -/
theorem operators_exact {catalog : Catalog} {known : Var → Prop} {e : Expr}
    (he : e.Operation catalog known) (env : LowerEnv) (s : Draft) (f : Usage) :
    (Housed known env s → s.HasRoom 2 2 → ∃ s', e.part.emit f env s = .ok ((), s')) ∧
      ∀ (s' F : Draft) (m : Machine) (σ : EvalState) (μ : MachineState),
        e.part.emit f env s = .ok ((), s') → s'.Leads F →
        Poised (fun _ => m) m.record (fun _ => True) Typing.bare.Fits known env s F σ μ →
        ∀ (host : Host) (call : Caller) (gauge : Gauge) (n : Nat) (st : List Value),
          σ.world.depthAt gauge + e.height ≤ gauge.max → e.height ≤ n →
          match eval host call gauge n e σ with
          | .ok x σ' => ∃ c μ', m.Goes c (μ.movedTo s.instrs.size st)
              (μ'.movedTo s'.instrs.size (f.pushed x st)) ∧ e.Leaves m.record env s σ μ x σ' μ'
          | .error (.fault x) σ' => ∃ c μ₁ μ₂, m.Goes c (μ.movedTo s.instrs.size st) μ₁ ∧
              m.step μ₁ = .error x μ₂ ∧
                μ₂.world = σ'.world.recast μ.world.store.cells μ.world.depth
          | .error (.jump ..) _ => False := by
  refine ⟨fun hp h => operation_emits he hp h f, ?_⟩
  intro s' F m σ μ hlow hF H host call gauge n st hdepth hn
  -- Truth values are all that fits their type.
  have hbool : ∀ {v}, Typing.bare.Fits v .bool ↔ ∃ b, v = .bool b :=
    ⟨fun h => h.bool_inv, by rintro ⟨b, rfl⟩; exact .bool b⟩
  -- No host code is called, so it makes no cells.
  have hnone : ¬∃ new, Leeway.none.fresh new ∧ new ≠ #[] := by
    rintro ⟨_, hnew, hne⟩
    exact hne hnew
  let X := H.scene host call gauge .none (fun _ => False) (fun _ _ _ => trivial)
    (fun _ _ => trivial) hbool .void (fun h => absurd h hnone) fun _ h => h.elim
  have h : X.pact.Meets () (μ.movedTo s.instrs.size st) (eval host call gauge n e σ) _ :=
    Scene.meets_operation (X := X) (fun _ => rfl) rfl (fun _ _ => Iff.rfl) H.known he hlow
      ⟨H.sound, hF, Scene.suits_start⟩ ⟨.inr hdepth, .inr hn⟩ (Scene.holds_start H)
  unfold Pact.Meets at h
  split at h
  · rename_i x σ' heval
    rw [heval]
    obtain ⟨c, _, hgo, μ', rfl, hleaves⟩ := h.goes
    exact ⟨c, μ', hgo, hleaves⟩
  · rename_i x σ' heval
    rw [heval]
    obtain ⟨c, μ₁, μ₂, hgo, hstep, _, -, hb⟩ := (h.resolve_left id).step
    obtain ⟨-, _, rfl, hworld⟩ := hb
    rw [Array.append_empty] at hworld
    exact ⟨c, μ₁, μ₂, hgo, hstep, hworld⟩
  · exact h.elim

/-- A variable that holds a byte. -/
def Var.byte : Var := ⟨0, "n", .num (.int .u8)⟩

/-- It is increased, and brought back to its kind. -/
def Expr.increase : Expr := .binary (.num (.int .u8)) .addAssign (.var .byte) (Build.int 10) none

/-- Code in which the variable has the only slot. -/
def Draft.entered : Draft where
  slots := { entries := [(0, 0)] }
  numLocals := 1

/-- The code that increases it. -/
def Draft.increase : Draft where
  instrs := #[.loadLocal 0, .convert .i32, .constI32 10, .arith .add .i32, .convert (.int .u8), .dup,
    .storeLocal 0]
  slots := { entries := [(0, 0)] }
  numLocals := 1
  depth := 1
  maxDepth := 2

/-- A machine that runs it; it calls nothing. -/
def Machine.increase : Machine where
  host := ⟨.empty, fun _ _ _ => .done (.ok .unit) none, fun _ _ => .done (.ok .unit) none⟩
  fuel := 0
  call _ _ := RunM.defect .halted
  code := Draft.increase.toCode default false
  record := .empty

/-- Evaluation where the variable has a value. -/
def EvalState.byte (n : BitVec 8) : EvalState where
  world := { store := { cells := #[.num (.int .u8 n)] } }
  scopes := { base := [(0, 0)] }

/-- So does the machine. -/
def MachineState.byte (n : BitVec 8) : MachineState := { world := {}, locals := #[.num (.int .u8 n)] }

theorem Machine.increase_poised (n : BitVec 8) :
    Poised (fun _ => Machine.increase) .empty (fun _ => True) Typing.bare.Fits (· = .byte)
      { catalog := .empty, plan := {} } .entered .increase (.byte n) (.byte n) where
  sound := by constructor <;> simp [Draft.entered]
  slots_lt id k h := by
    obtain rfl : k = 0 := by
      simp only [Draft.entered, Slots.get?, List.lookup] at h
      split at h <;> cases h
      rfl
    exact Nat.zero_lt_one
  follows _ := ⟨⟨default, false, rfl⟩, fun _ _ hl => by simp [Draft.increase] at hl⟩
  recorded _ := rfl
  size := Nat.le_refl _
  good := trivial
  world := rfl
  known := by
    rintro v rfl home hhome
    cases hhome
    exact ⟨0, rfl, rfl, .num rfl⟩

theorem operators_exact_increase :
    Expr.increase.part.emit {} { catalog := .empty, plan := {} } .entered = .ok ((), .increase) ∧
      eval Machine.increase.host Machine.increase.call ⟨10, 0⟩ 10 .increase (.byte 250) =
        .ok (.num (.int .u8 4)) (.byte 4) ∧
      ∃ c μ, Machine.increase.Goes c (.byte 250) μ ∧ μ.pointer = 7 ∧
        μ.stack = [.num (.int .u8 4)] ∧ μ.locals[0]? = some (.num (.int .u8 4)) := by
  have he : Expr.increase.Operation .empty (· = .byte) :=
    @Expr.Operation.binary _ _ .addAssign (.var .byte) (Build.int 10) _ rfl (.var rfl (.num _))
      (.constant (.num _) (.num rfl)) (by cbv)
  have hlow : Expr.increase.part.emit {} { catalog := .empty, plan := {} } .entered =
      .ok ((), .increase) := by
    show assignApplied .add (Expr.var .byte).part (Build.int 10).part none {}
      { catalog := .empty, plan := {} } .entered = .ok ((), .increase)
    cbv
  have heval : eval Machine.increase.host Machine.increase.call ⟨10, 0⟩ 10 .increase (.byte 250) =
      .ok (.num (.int .u8 4)) (.byte 4) := by
    cbv
  have h := (operators_exact he { catalog := .empty, plan := {} } .entered {}).2 .increase .increase
    .increase (.byte 250) (.byte 250) hlow (.refl _) (Machine.increase_poised 250)
    Machine.increase.host Machine.increase.call ⟨10, 0⟩ 10 [] (by decide) (by decide)
  rw [heval] at h
  obtain ⟨c, μ, hgo, σ₁, μ₁, hkept, hassigned⟩ := h
  obtain ⟨ref, home, -, hhome, -, rfl⟩ := hassigned
  have hhome' : homeOf .byte { catalog := .empty, plan := {} } .entered = .ok (.slot 0, .entered) :=
    rfl
  obtain rfl : Home.slot 0 = home := by simpa [hhome'] using hhome
  have hslot : μ₁.locals[0]? = some (.num (.int .u8 250)) := hkept.locals 0 Nat.zero_lt_one
  have hlt : 0 < μ₁.locals.size := (Array.getElem?_eq_some_iff.1 hslot).1
  exact ⟨hlow, heval, c, _, hgo, rfl, rfl, by
    simp [MachineState.put, MachineState.putSlot, MachineState.movedTo, hlt]⟩

end TreeCode

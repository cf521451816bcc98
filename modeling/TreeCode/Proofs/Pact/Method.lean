import TreeCode.Proofs.Agree.Operator
import TreeCode.Proofs.Pact.Elementary

/-!
# Operators that methods implement

The code of an operator that a host method implements is the code of a call of the method.
Evaluation asks first whether an operand is null where the parameter cannot hold null: if
one is, it gives a result of its own and does not call the method. Code that could meet such
an operand should not be made, but only operands of nullable types are asked about, and not
those of classes, strings, arrays and the other types whose values may be null. So the two
runs agree as long as no null operand reaches a parameter that cannot hold it; where one
does, the machine calls the method and evaluation does not.

Main definitions:

* `Expr.Applies` — a node applies a method to operands.
* `Scene.CodeMeets` — running the code of a node meets a result of evaluation.

Main results:

* `Expr.Applies.emit_call` — the code is that of a call.
* `Expr.Applies.node_present`, `Expr.Applies.node_missed` — evaluation is that of the call, or
  ends without one.
* `operator_calls_method` — **running the code is calling the method, whatever the operands**.
* `operator_method_exact` — **both runs agree unless a null operand is passed on**.
-/

namespace TreeCode

open Draft Lower

/-- The node applies the method to the operands, by an operator that assigns nothing. -/
inductive Expr.Applies (catalog : Catalog) (m : Method) : Expr → List Expr → Prop
  | unary {op : UnaryOp} {x : Expr} (hop : op.isAssignment = false) :
      Applies catalog m (.unary m.ret op x (some m)) [x]
  | binary {op : BinaryOp} {l r : Expr} {method : Option Method} (hop : op.isStrict = true)
      (hm : method.or (op.methodNamed? catalog l.ty r.ty) = some m) :
      Applies catalog m (.binary m.ret op l r method) [l, r]

/-- What follows a step need only be the same for results that the step has. -/
theorem EvalM.bind_congr {α β : Type} {x : EvalM α} {f g : α → EvalM β} {σ : EvalState}
    (h : ∀ a σ', x σ = .ok a σ' → f a σ' = g a σ') : (x >>= f) σ = (x >>= g) σ := by
  show EStateM.bind x f σ = EStateM.bind x g σ
  unfold EStateM.bind
  cases hx : x σ with
  | ok a σ' => exact h a σ' hx
  | error e σ' => rfl

/-- What the evaluation of a node may use, at a bound. -/
def Walk.within (host : Host) (call : Caller) (gauge : Gauge) (n : Nat) : Walk :=
  { host, gauge, fuel := n, call, valueOf := eval host call gauge n }

namespace Expr.Applies

variable {catalog : Catalog} {m : Method} {e : Expr} {args : List Expr} {env : LowerEnv}
  {s s' : Draft} {f : Usage} {u : Unit}

theorem height_eq (h : e.Applies catalog m args) :
    (Expr.call m.ret none m args).height = e.height := by
  cases h <;> simp [Expr.height, Expr.heightOption, Expr.heightAll]

/-- **The code of the node is that of a call of the method**, and no operand of a nullable
type stands at a parameter that cannot hold null. -/
theorem emit_call (h : e.Applies env.catalog m args) (hret : m.ret.isVoid = false)
    (hlow : e.part.emit f env s = .ok (u, s')) :
    (Expr.call m.ret none m args).part.emit f env s = .ok (u, s') ∧
      mayMiss m (args.map (·.ty)) = false := by
  show (do
    Part.pushAll (Expr.parts args) f
    callMethod m false
    dropWhen (f.discarded && !m.ret.isVoid) : LowerM Unit) env s = .ok (u, s') ∧ _
  simp only [hret, Bool.not_false, Bool.and_true]
  cases h with
  | @unary op x hop =>
    replace hlow : unaryByMethod m x.part f env s = .ok (u, s') := by
      rw [Expr.part] at hlow
      split at hlow
      · rename_i hnot
        simp at hnot
      · exact hlow
    simp only [unaryByMethod, Expr.part_ty, hret, Bool.not_false, Bool.and_true] at hlow
    simp only [Expr.parts, Part.pushAll, bind_assoc, pure_bind]
    split at hlow
    · exact absurd (bind_ok.1 hlow) (by simp [unsupported_ok])
    · next hmiss => exact ⟨hlow, by simpa using hmiss⟩
  | @binary op l r method hop hm =>
    rw [Expr.emit_strict hop] at hlow
    simp only [withRight, Expr.part_ty, bind_ok, read_ok] at hlow
    obtain ⟨_, t, hl, _, t', ⟨_, _, ⟨rfl, rfl⟩, hright⟩, hdrop⟩ := hlow
    simp only [hm, binaryByMethod, Expr.part_ty] at hright
    split at hright
    · exact absurd (bind_ok.1 hright) (by simp [error_ok])
    split at hright
    · exact absurd (bind_ok.1 hright) (by simp [unsupported_ok])
    next hmiss =>
      -- Left to right: both operands, the call, and what drops its value.
      simp only [bind_ok, pure_ok] at hright
      obtain ⟨_, t₁, hr, _, _, hcall, -, rfl⟩ := hright
      simp only [Expr.parts, Part.pushAll, bind_assoc, pure_bind, bind_ok]
      exact ⟨⟨_, t, hl, _, t₁, hr, _, _, hcall, hdrop⟩, by simpa using hmiss⟩

variable {c : Walk} {σ σ' : EvalState} {vs : List Value}

/-- The node evaluates its operands; if one of them is null where the parameter cannot hold
null, it gives a value of its own, and else the one of the method. -/
theorem node_eq (h : e.Applies c.host.catalog m args) :
    ∃ missing : List Value → Value, c.node e = (do
      let vs ← c.valuesOf args
      if Walk.misses m vs then pure (missing vs) else c.callStatic m vs) := by
  cases h with
  | @unary op x hop =>
    refine ⟨fun _ => .null, ?_⟩
    show c.unary m.ret op x (some m) = _
    simp only [Walk.unary, hop, Bool.false_eq_true, if_false, Walk.unaryByMethod, Walk.valuesOf,
      bind_assoc, pure_bind]
    refine congrArg _ (funext fun v => ?_)
    split <;> rfl
  | @binary op l r method hop hm =>
    refine ⟨fun vs => Walk.methodMissing op (vs.getD 0 .null) (vs.getD 1 .null), ?_⟩
    simp only [c.node_strict hop, Walk.combine, hm, Walk.combineByMethod, Walk.valuesOf, bind_assoc, pure_bind]
    refine congrArg _ (funext fun x => congrArg _ (funext fun y => funext fun σ => ?_))
    cases hmiss : Walk.misses m [x, y] with
    | true => rfl
    | false =>
      show EStateM.bind (EvalM.ofRun (do return (← c.callStatic m [x, y], m.ret)))
        (fun p => pure p.1) σ = EvalM.ofRun (c.callStatic m [x, y]) σ
      simp only [EStateM.bind, EvalM.ofRun, bind]
      cases c.callStatic m [x, y] σ.world <;> rfl

/-- Without such an operand, evaluating the node is evaluating the call. -/
theorem node_present (h : e.Applies c.host.catalog m args)
    (hpresent : ∀ vs σ', c.valuesOf args σ = .ok vs σ' → Walk.misses m vs = false) :
    c.node e σ = c.node (.call m.ret none m args) σ := by
  obtain ⟨missing, hnode⟩ := h.node_eq
  rw [hnode]
  show _ = (c.valuesOf args >>= fun vs => EvalM.ofRun (c.callStatic m vs)) σ
  refine EvalM.bind_congr fun vs σ' hvs => ?_
  rw [hpresent vs σ' hvs]
  rfl

/-- With one, the method is not called: the node leaves the state that its operands left. -/
theorem node_missed (h : e.Applies c.host.catalog m args) (hvs : c.valuesOf args σ = .ok vs σ')
    (hmiss : Walk.misses m vs = true) : ∃ v, c.node e σ = .ok v σ' := by
  obtain ⟨missing, hnode⟩ := h.node_eq
  refine ⟨missing vs, ?_⟩
  rw [hnode]
  show EStateM.bind (c.valuesOf args) _ σ = _
  simp only [EStateM.bind, hvs, hmiss, if_true]
  rfl

variable {host : Host} {caller : Caller} {gauge : Gauge} {n : Nat}

theorem eval_present (h : e.Applies host.catalog m args)
    (hpresent : ∀ vs σ', (Walk.within host caller gauge (n - 1)).valuesOf args (σ.deeper gauge) =
      .ok vs σ' → Walk.misses m vs = false) :
    eval host caller gauge n e σ = eval host caller gauge n (.call m.ret none m args) σ := by
  cases n with
  | zero => rfl
  | succ n =>
    show EvalM.deeper gauge ((Walk.within host caller gauge n).node e) σ =
      EvalM.deeper gauge ((Walk.within host caller gauge n).node _) σ
    have hnode := node_present (c := .within host caller gauge n) h hpresent
    by_cases hd : σ.world.depthAt gauge < gauge.max
    · rw [EvalM.deeper_eq _ hd, EvalM.deeper_eq _ hd, hnode]
    · rw [EvalM.deeper_full _ hd, EvalM.deeper_full _ hd]

end Expr.Applies

/-! ## Both runs -/

/-- Machines that run the code between two drafts, from a state `μ` with the operand stack
`st`, meet a result of direct evaluation from the state `σ`: they come to the end of the code
with the value, if it is wanted, or fail in the same way, in worlds that agree. -/
def CodeMeets (leeway : Leeway) (machines : Nat → Machine) (s s' : Draft) (f : Usage) (st : List Value)
    (σ : EvalState) (μ : MachineState) : EStateM.Result Exit EvalState Value → Prop
  | .ok v σ' => Comes machines (μ.movedTo s.instrs.size st) fun μ' =>
      μ'.pointer = s'.instrs.size ∧ μ'.stack = f.pushed v st ∧
        ∃ new new', leeway.fresh new ∧ leeway.fresh new' ∧
          Kept s.numLocals (σ.grown new) (μ.grown new') σ' μ'
  | .error (.fault x) σ' => x = .outOfFuel ∨ Fails machines (μ.movedTo s.instrs.size st) x fun μ' =>
      leeway.Sees μ.world.store.cells μ.world.depth σ'.world μ'.world
  | .error (.jump ..) _ => False

variable {host : Host} {good : World → Prop} {callable : Method → Prop} {leeway : Leeway}
  {known : Var → Prop}
  {env : LowerEnv} {s s' F : Draft} {code : Code} {record : ClosureRecord} {σ : EvalState}
  {μ : MachineState} {m : Method} {e : Expr} {args : List Expr} {f : Usage} {gauge : Gauge} {n : Nat}

/-- Code of an elementary expression for its value. -/
theorem elementary_exact (serves : host.Serves good callable leeway)
    (H : Poised (host.running code record) record good (fun v t => v.suits t = true) known env s F
      σ μ) (he : e.Elementary known callable) (haddr : f.byAddress = false)
    (hused : e.ty.isVoid = true → f.discarded = true)
    (hlow : e.part.emit f env s = .ok ((), s')) (hF : s'.Leads F) (bound : Nat)
    (hdepth : σ.world.depthAt gauge + e.height ≤ gauge.max)
    (hcounted : ∀ i, leeway.counted i →
      i ≠ gauge.counter ∧ μ.world.depth.get i = σ.world.depth.get i) (st : List Value) :
    CodeMeets leeway (host.running code record) s s' f st σ μ
      (eval host (call host bound) gauge n e σ) := by
  have hbool {v : Value} : v.suits .bool = true ↔ ∃ b, v = .bool b := by
    refine ⟨Value.bool_of_suits, ?_⟩
    rintro ⟨b, rfl⟩
    rfl
  -- The pact of scenes in which host code may call functions, started at this state.
  let X := H.scene host (call host bound) gauge leeway (· = .outOfFuel) serves.good_recast
    serves.good_stamped hbool (fun _ => rfl) (fun _ _ => Value.void_of_suits_unit) hcounted
  have hanswers : ∀ m, callable m → X.Answers m := fun m hm =>
    serves.answers rfl rfl rfl rfl rfl (fun _ _ => Iff.rfl) rfl hm
  have A := (Scene.agrees_elementary (X := X) (fun _ _ => Iff.rfl) H.known hanswers he).1
  have h : X.pact.Meets () (μ.movedTo s.instrs.size st)
      (eval host (call host bound) gauge n e σ) _ :=
    A (G := []) (a := ()) hlow ⟨H.sound, hF, Scene.suits_start⟩ haddr hused
      ⟨.inr hdepth, .inl rfl⟩ (Scene.holds_start (X := X) H)
  unfold Pact.Meets at h
  split at h
  · rename_i v σ' heval
    rw [heval]
    refine h.mono ?_
    rintro μ' ⟨_, v', -, hfit, hold, hp, hst⟩
    refine ⟨hp, hst.trans ?_, Scene.Holds.kept hold⟩
    cases hd : f.discarded with
    | true => simp [Usage.pushed, hd]
    | false =>
      rcases hfit (by simp [hd]) with ⟨rfl, -⟩ | hvoid
      · rfl
      · cases hd.symm.trans (hused (by rw [hvoid]; rfl))
  · rename_i x σ' heval
    rw [heval]
    refine h.imp_right fun h => h.mono ?_
    rintro μ' ⟨_, _, hb⟩
    exact hb.2
  · exact h.elim

/-- **Running the code of an operator method is calling the method**, whatever the operands
are. -/
theorem operator_calls_method (serves : host.Serves good callable leeway)
    (H : Poised (host.running code record) record good (fun v t => v.suits t = true) known env s F
      σ μ) (he : e.Applies env.catalog m args) (hargs : ∀ x ∈ args, x.Elementary known callable)
    (hm : callable m) (hstatic : m.isStatic = true) (hret : m.ret.isVoid = false)
    (hfit : List.Forall₂ (fun (t : Ty) (x : Expr) => x.ty.isVoid = false ∧ t.accepts x.ty = true)
      m.params args) (haddr : f.byAddress = false) (hlow : e.part.emit f env s = .ok ((), s'))
    (hF : s'.Leads F) (bound : Nat) (hdepth : σ.world.depthAt gauge + e.height ≤ gauge.max)
    (hcounted : ∀ i, leeway.counted i →
      i ≠ gauge.counter ∧ μ.world.depth.get i = σ.world.depth.get i) (st : List Value) :
    CodeMeets leeway (host.running code record) s s' f st σ μ
      (eval host (call host bound) gauge n (.call m.ret none m args) σ) :=
  elementary_exact serves H (.call hm hstatic hargs hfit) haddr
    (fun h => by rw [show (Expr.call m.ret none m args).ty = m.ret from rfl, hret] at h; cases h)
    (he.emit_call hret hlow).1 hF bound (by rw [he.height_eq]; exact hdepth) hcounted st

/-- **Operator methods mean the same on both paths unless a null operand is passed on.** Let a
node apply a static method to constants, variables, calls, and tests of these. When no
operand is null where the parameter cannot hold null, running the code of the node meets what
direct evaluation gives: the same value or failure, in worlds that agree, so that the method
was called with the same operands. -/
theorem operator_method_exact (serves : host.Serves good callable leeway)
    (H : Poised (host.running code record) record good (fun v t => v.suits t = true) known env s F
      σ μ) (hcatalog : env.catalog = host.catalog) (he : e.Applies env.catalog m args)
    (hargs : ∀ x ∈ args, x.Elementary known callable)
    (hm : callable m) (hstatic : m.isStatic = true) (hret : m.ret.isVoid = false)
    (hfit : List.Forall₂ (fun (t : Ty) (x : Expr) => x.ty.isVoid = false ∧ t.accepts x.ty = true)
      m.params args) (haddr : f.byAddress = false) (hlow : e.part.emit f env s = .ok ((), s'))
    (hF : s'.Leads F) (bound : Nat) (hdepth : σ.world.depthAt gauge + e.height ≤ gauge.max)
    (hcounted : ∀ i, leeway.counted i →
      i ≠ gauge.counter ∧ μ.world.depth.get i = σ.world.depth.get i) (st : List Value)
    (hpresent : ∀ vs σ', (Walk.within host (call host bound) gauge (n - 1)).valuesOf args
      (σ.deeper gauge) = .ok vs σ' → Walk.misses m vs = false) :
    CodeMeets leeway (host.running code record) s s' f st σ μ
      (eval host (call host bound) gauge n e σ) := by
  rw [Expr.Applies.eval_present (hcatalog ▸ he) hpresent]
  exact operator_calls_method serves H he hargs hm hstatic hret hfit haddr hlow hF bound hdepth hcounted st

end TreeCode

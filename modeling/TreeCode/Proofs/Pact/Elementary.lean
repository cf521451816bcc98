import TreeCode.Proofs.Agree.Form
import TreeCode.Proofs.Pact.Primitive
import TreeCode.Proofs.Pact.Scene

/-!
# Tests that jump

A test that is made of negations, conjunctions and disjunctions is lowered to jumps: the
code for it goes to a label if the test has a given value, and falls through otherwise.
Here such code is compared with evaluation of the test, which calls the same methods of
the host in the same order.

Main definitions:

* `Expr.Elementary` — constants, variables, calls of static methods, and tests of these.
* `Scene.Answers` — the host answers both runs alike.
* `Host.running` — the machines that run a unit.

Main results:

* `Scene.agrees_call` — calls of static methods.
* `Scene.agrees_elementary` — all such expressions, for their values and as tests.
* `branch_exact` — **the code for a test jumps exactly when the test has the given value**.
-/

namespace TreeCode

open Draft Lower

/-- What tests are made of: constants, variables, calls of static methods of the host, and
negations, conjunctions and disjunctions. -/
inductive Expr.Elementary (known : Var → Prop) (callable : Method → Prop) : Expr → Prop
  | constant {t : Ty} {v : Value} (hv : v.Literal t) (hid : v.identity? = none) :
      Elementary known callable (.constant t v)
  | default {t : Ty} : Elementary known callable (.default t)
  | var {v : Var} (hv : known v) : Elementary known callable (.var v)
  | call {m : Method} {args : List Expr} (hm : callable m) (hstatic : m.isStatic = true)
      (hargs : ∀ e ∈ args, e.Elementary known callable)
      (hfit : List.Forall₂ (fun (t : Ty) (e : Expr) => e.ty.isVoid = false ∧ t.accepts e.ty = true)
        m.params args) : Elementary known callable (.call m.ret none m args)
  | not {e : Expr} (he : e.Elementary known callable) (hty : e.ty = .bool) :
      Elementary known callable (.unary .bool .not e none)
  | both {l r : Expr} (isAnd : Bool) (hl : l.Elementary known callable)
      (hr : r.Elementary known callable) (htyl : l.ty = .bool) (htyr : r.ty = .bool) :
      Elementary known callable (.binary .bool (.both isAnd) l r none)

theorem Expr.Elementary.neat {known : Var → Prop} {callable : Method → Prop} {e : Expr}
    (h : e.Elementary known callable) : e.Neat := by
  induction h with
  | constant _ _ => simp [Expr.Neat, Expr.mentions, Mention.Suits]
  | default => simp [Expr.Neat, Expr.mentions]
  | var _ => simp [Expr.Neat, Expr.mentions, Mention.Suits]
  | call _ _ _ _ ih =>
    intro D m hm
    simp only [Expr.mentions, Expr.mentionsOption, List.nil_append, Expr.mem_mentionsAll] at hm
    obtain ⟨e, he, hm⟩ := hm
    exact ih e he D m hm
  | not _ _ ih => exact ih
  | both _ _ _ _ _ ihl ihr =>
    intro D m hm
    exact (List.mem_append.1 hm).elim (ihl D m) (ihr D m)

theorem Value.Literal.suits {t : Ty} {v : Value} (h : v.Literal t) : v.suits t = true := by
  cases h with
  | num n => simp [Value.suits, Value.numKind?]
  | null ht => exact Value.suits_null ht
  | _ => rfl

theorem Value.Literal.faithful {t : Ty} {v : Value} (h : v.Literal t) (hid : v.identity? = none) :
    v.Faithful := by
  cases h with
  | str s => exact Value.faithful_str s
  | num n => exact Value.faithful_num n
  | bool b => exact Value.faithful_bool b
  | exception stamp e => cases hid
  | null _ => exact Value.faithful_null

/-! ## Calls -/

namespace Scene

variable {X : Scene}

/-- The host answers calls of the method in both runs alike: with the same value or the same
failure, in worlds that agree. -/
def Answers (X : Scene) (m : Method) : Prop :=
  ∀ ⦃n : Nat⦄ ⦃vs : List Value⦄ ⦃w w₁ : World⦄, X.good w → X.Sees w w₁ →
    (∀ i, X.leeway.counted i → X.target.world.depth.get i = w.depth.get i) →
    List.Forall₂ X.form vs m.params →
    match X.host.callStatic X.call n m vs w with
    | .ok v w' => X.good w' ∧ X.leeway.Keeps w w' ∧ X.form v m.ret ∧ ∃ w₂, X.Sees w' w₂ ∧
        ∃ N, ∀ k, N ≤ k → (X.machines k).host.callStatic (X.machines k).call (X.machines k).fuel m vs
          w₁ = .ok v w₂
    | .error f w' => X.excused f ∨ X.good w' ∧ ∃ w₂, X.Sees w' w₂ ∧
        ∃ N, ∀ k, N ≤ k → (X.machines k).host.callStatic (X.machines k).call (X.machines k).fuel m vs
          w₁ = .error f w₂

/-- Values that stand for each other in a scene are equal. -/
theorem fitsAll {a : X.pact.State} {params : List Ty} {es : List Expr} {vs vs' : List Value}
    (h : X.pact.FitsAll a (es.map (·.ty)) vs vs')
    (hfit : List.Forall₂ (fun (t : Ty) (e : Expr) => e.ty.isVoid = false ∧
      ∀ v, X.form v e.ty → X.form v t) params es) : vs' = vs ∧ List.Forall₂ X.form vs params := by
  induction hfit generalizing vs vs' with
  | nil =>
    cases h
    exact ⟨rfl, .nil⟩
  | @cons t e params es hte _ ih =>
    cases h with
    | cons hv hrest =>
      obtain ⟨rfl, hall⟩ := ih hrest
      rcases hv with ⟨rfl, hv⟩ | hvoid
      · exact ⟨rfl, .cons (hte.2 _ hv) hall⟩
      · simp [hvoid, Ty.isVoid] at hte

theorem called_step {m : Method} {d : Bool} {u : Unit} {env : LowerEnv} {s s' : Draft}
    (hs : s.Sound) (h : (do
      callMethod m false
      dropWhen d : LowerM Unit) env s = .ok (u, s')) : Step True .blank [] [] s s' :=
  (Acts.bind (x := callMethod m false) (Acts.methodEntry.bind fun _ => .emit) fun _ =>
    dropWhen_acts).stepped h hs trivial

/-- The call of a static method whose arguments are on the stack: the machines are answered as
evaluation is, and the result is dropped if it is not wanted. -/
theorem meets_called {m : Method} {G : List (Nat × Value)} {a : X.pact.State} {f : Usage}
    {s s' : Draft} {n : Nat} {σ : EvalState} {μ : MachineState} {vs st : List Value}
    (hm : X.Answers m) (hstatic : m.isStatic = true) (hform : List.Forall₂ X.form vs m.params)
    (hused : m.ret.isVoid = true → f.discarded = true)
    (hlow : (do
      callMethod m false
      dropWhen (f.discarded && !m.ret.isVoid) : LowerM Unit) X.env s = .ok ((), s'))
    (S : X.pact.Spans G s s') (hold : X.Holds G σ μ) :
    X.pact.Meets a (μ.movedTo s.instrs.size (vs.reverse ++ st))
      (EvalM.ofRun (X.host.callStatic X.call n m vs) σ) (X.pact.Gives G a f m.ret s' st) := by
  simp only [callMethod, bind_ok, emit_ok, Bool.false_eq_true, if_false] at hlow
  obtain ⟨_, _, ⟨index, s₁, hentry, rfl⟩, hdrop⟩ := hlow
  obtain ⟨htab, hmethod⟩ := methodEntry_ok hentry
  have h₁ : Step True .blank [] [] s s₁ := htab.quiet.step htab.same
  have h₂ := Step.emitted (c := True) (N := .blank) s₁ (.call index)
  have h₃ : Step True .blank [] [] (s₁.emitted (.call index)) s' :=
    dropWhen_acts.stepped hdrop (h₂.stage.sound (h₁.stage.sound S.sound)) trivial
  have hF := h₃.stage.leads.trans S.leads
  have hsize : s.instrs.size = s₁.instrs.size := by rw [htab.instrs]
  -- The instruction hands the arguments to the host, as evaluation does.
  have hexec : ∀ k p, (X.machines k).exec (.call index) (μ.movedTo p (vs.reverse ++ st)) =
      (μ.movedTo p (vs.reverse ++ st)).acted (fun v => if m.ret.isVoid then [] else [v]) st
        ((X.machines k).host.callStatic (X.machines k).call (X.machines k).fuel m vs
          μ.world) := by
    intro k p
    refine Machine.exec_call ?_ hstatic hform.length_eq rfl
    rw [(X.follows k).methods]
    exact hF.methods _ _ hmethod
  rw [hsize]
  -- Both runs go on as the host answers.
  have hanswer := hm hold.good hold.world hold.counted hform (n := n)
  cases hr : X.host.callStatic X.call n m vs σ.world with
  | ok v w =>
    rw [hr] at hanswer
    obtain ⟨hgood, ⟨⟨new, hnew, hcells⟩, hdepth⟩, hv, w', hw', N, hmachine⟩ := hanswer
    have heval : EvalM.ofRun (X.host.callStatic X.call n m vs) σ = .ok v { σ with world := w } := by
      simp only [EvalM.ofRun, hr]
    rw [heval]
    have hold₂ : X.Holds G { σ with world := w } { μ with world := w' } := by
      obtain ⟨made, hmade, hbefore⟩ := hold.cells
      refine { hold with cells := ?_, counted := fun i hi => ?_, good := hgood, world := hw' }
      · exact ⟨made ++ new, X.leeway.fresh_append hmade hnew,
          by rw [hcells, hbefore, Array.append_assoc]⟩
      · rw [hold.counted i hi]
        exact congrArg (·.get i) hdepth.symm
    have hcall : Comes X.machines (μ.movedTo s₁.instrs.size (vs.reverse ++ st))
        (· = ({ μ with world := w' } : MachineState).movedTo
          (s₁.emitted (.call index)).instrs.size (if m.ret.isVoid then st else v :: st)) := by
      refine .instrFrom X.follows hF rfl N (fun k hk => ?_) (.here rfl)
      rw [hexec, hmachine k hk]
      simp only [MachineState.acted]
      cases m.ret.isVoid <;> rfl
    refine Comes.bind hcall ?_
    rintro _ rfl
    cases hmvoid : m.ret.isVoid with
    | true =>
      -- A call without a result has pushed nothing, so there is nothing to drop.
      simp only [hmvoid, hused hmvoid, Bool.not_true, Bool.and_false, dropWhen, Bool.false_eq_true,
        if_false, if_true, pure_ok] at hdrop ⊢
      obtain ⟨-, rfl⟩ := hdrop
      refine .here ⟨(), v, trivial, fun _ => .inl ⟨rfl, hv⟩, X.pact.holds_moved _ _ hold₂, rfl, ?_⟩
      simp [Usage.pushed, hused hmvoid]
    | false =>
      simp only [hmvoid, Bool.not_false, Bool.and_true, Bool.false_eq_true, if_false] at hdrop ⊢
      refine (dropWhen_comes X.follows hdrop S.leads).mono ?_
      rintro _ rfl
      exact ⟨(), v, trivial, fun _ => .inl ⟨rfl, hv⟩, X.pact.holds_moved _ _ hold₂, rfl, rfl⟩
  | error f w =>
    rw [hr] at hanswer
    have heval : EvalM.ofRun (X.host.callStatic X.call n m vs) σ =
        .error (.fault f) { σ with world := w } := by
      simp only [EvalM.ofRun, hr]
    rw [heval]
    refine hanswer.imp_right ?_
    rintro ⟨hgood, w', hw', N, hmachine⟩
    have hfails : Fails X.machines (μ.movedTo s₁.instrs.size (vs.reverse ++ st)) f
        (·.world = w') :=
      .instrFrom X.follows hF rfl N (fun k hk => (hexec k _).trans (by rw [hmachine k hk]; rfl)) rfl
    exact hfails.mono fun μ' hμ => ⟨(), trivial, hgood, hμ ▸ hw'⟩

theorem agrees_call {m : Method} {args : List Expr} (hm : X.Answers m) (hstatic : m.isStatic = true)
    (A : ∀ e ∈ args, X.pact.Agrees e) (hneat : ∀ e ∈ args, e.Neat)
    (hfit : List.Forall₂ (fun (t : Ty) (e : Expr) => e.ty.isVoid = false ∧
      ∀ v, X.form v e.ty → X.form v t) m.params args) :
    X.pact.Agrees (.call m.ret none m args) := by
  refine Pact.agrees_of_node ?_
  intro f s s' G a n σ μ st hlow S _ hused hroom hold
  have hlow : (do
      Part.pushAll (Expr.parts args) f
      callMethod m false
      dropWhen (f.discarded && !m.ret.isVoid) : LowerM Unit) X.pact.env s = .ok ((), s') := by
    rw [Expr.part, Part.emit_plain] at hlow
    exact hlow
  obtain ⟨_, s₁, hargs, hcall⟩ := bind_ok.1 hlow
  have h₁ := Pact.pushAll_step hargs hneat S.sound
  have h₂ := called_step (h₁.stage.sound S.sound) hcall
  have hvoid : ∀ e ∈ args, e.ty.isVoid = false := by
    intro e he
    obtain ⟨i, hi, rfl⟩ := List.getElem_of_mem he
    have hlen := hfit.length_eq
    exact (hfit.get (by omega) hi).1
  have hroom : X.pact.Room n σ (Expr.heightAll args) := by
    refine hroom _ ?_
    simp [Expr.height, Expr.heightOption]
  refine (Pact.meets_values (fun e he => ⟨A e he, hvoid e he⟩) hneat hargs (S.start h₂)
    (fun e he => hroom.le (Expr.height_le_heightAll he)) hold).bind ?_
  rintro vs σ₁ μ₁ - ⟨b, vs', -, hfits, hold₁, hμ₁⟩
  obtain ⟨rfl, hform⟩ := fitsAll hfits hfit
  rw [hμ₁]
  exact meets_called hm hstatic hform hused hcall (S.rest h₁) hold₁

/-! ## Tests -/

/-- Truth values stand for themselves. -/
theorem exact_bool : X.pact.Exact .bool := by
  intro a v v'
  rw [X.pact.fits_bool]
  constructor
  · rintro ⟨b, rfl, rfl⟩
    exact ⟨rfl, .bool b⟩
  · rintro ⟨rfl, hv⟩
    obtain ⟨b, rfl⟩ := hv.bool_inv
    exact ⟨b, rfl, rfl⟩

/-- The code for an expression of this kind does what evaluating the expression does, for
its value and as a test. -/
theorem agrees_elementary {known : Var → Prop} {callable : Method → Prop} {e : Expr}
    (hform : ∀ v t, X.form v t ↔ v.suits t = true) (hknown : ∀ v, known v → X.Knows v)
    (hanswers : ∀ m, callable m → X.Answers m) (h : e.Elementary known callable) :
    X.pact.Agrees e ∧ (e.ty = .bool → X.pact.Tests e) := by
  have hfit : ∀ {a : X.pact.State} {v : Value} {t : Ty}, v.suits t = true → X.pact.fits a t v v :=
    fun hv => .inl ⟨rfl, (hform _ _).2 hv⟩
  -- A node without code of its own for tests is tested by its value.
  have hleaf : ∀ {e : Expr}, X.pact.Agrees e → e.Elementary known callable →
      e.part.branch = Part.branchOnValue e.part.emit → e.ty = .bool → X.pact.Tests e :=
    fun A he hbranch hty => .of_value A hty he.neat hbranch
  induction h with
  | constant hv hid =>
    have A := Pact.agrees_constant hid (hv.faithful hid) fun _ => hfit hv.suits
    exact ⟨A, fun hty => hleaf A (.constant hv hid) rfl hty⟩
  | @default t =>
    have A := Pact.agrees_default (P := X.pact) fun _ => hfit (Value.suits_default t)
    exact ⟨A, fun hty => hleaf A .default rfl hty⟩
  | var hv =>
    have A := Pact.agrees_var (reads (hknown _ hv))
    exact ⟨A, fun hty => hleaf A (.var hv) rfl hty⟩
  | @call m args hm hstatic hargs hfits ih =>
    have A : X.pact.Agrees (.call m.ret none m args) := by
      refine agrees_call (hanswers m hm) hstatic (fun e he => (ih e he).1)
        (fun e he => (hargs e he).neat) (hfits.imp fun t e h => ⟨h.1, fun v hv => ?_⟩)
      exact (hform _ _).2 (Value.suits_of_accepts h.2 h.1 ((hform _ _).1 hv))
    exact ⟨A, fun hty => hleaf A (.call hm hstatic hargs hfits) rfl hty⟩
  | @not e he hty ih =>
    have hex : X.pact.Exact e.ty := by
      rw [hty]
      exact X.exact_bool
    exact ⟨Pact.agrees_unary ih.1 hex he.neat rfl (by simp [Build.unaryType, hty, Ty.underlying]),
      fun _ => Pact.tests_not (ih.2 hty)⟩
  | both isAnd hl hr htyl htyr ihl ihr =>
    exact ⟨Pact.agrees_both ihl.1 (ihl.2 htyl) ihr.1 htyl htyr hl.neat hr.neat,
      fun _ => Pact.tests_both (ihl.2 htyl) (ihr.2 htyr) hl.neat hr.neat⟩

end Scene

/-! ## Hosts -/

/-- The machines that run a unit, by their bound. -/
def Host.running (host : Host) (code : Code) (record : ClosureRecord) (k : Nat) : Machine :=
  { host, fuel := k, call := call host k, code, record }

variable {host : Host} {good : World → Prop} {callable : Method → Prop} {leeway : Leeway}

/-- A host that does not see what the two runs differ in answers them alike. -/
theorem Host.Serves.answers (serves : host.Serves good callable leeway) {X : Scene} {code : Code}
    {bound : Nat} {m : Method} (hhost : X.host = host) (hcall : X.call = TreeCode.call host bound)
    (hmachines : X.machines = host.running code X.record) (hgood : X.good = good)
    (hleeway : X.leeway = leeway) (hform : ∀ v t, X.form v t ↔ v.suits t = true)
    (hexc : X.excused .outOfFuel) (hm : callable m) : X.Answers m := by
  rintro n vs w _ hw ⟨made, hmade, rfl⟩ hcounted hvs
  subst hgood hleeway hhost
  rw [hcall, hmachines]
  replace hvs : List.Forall₂ (fun v t => v.suits t = true) vs m.params :=
    hvs.imp fun v t => (hform v t).1
  have hkeeps := serves.keeps (n := bound) (k := n) hm hw hvs
  -- A machine with a higher bound gives the same, unless evaluation was cut off.
  have hmachine : ¬Bench.CutShort (X.host.callStatic (TreeCode.call X.host bound) n m vs w) →
      ∃ new, X.leeway.fresh new ∧ ∀ k, max bound n ≤ k →
        X.host.callStatic (TreeCode.call X.host k) k m vs
            (w.recast (X.target.world.store.cells ++ made) X.target.world.depth) =
          recast (X.target.world.store.cells ++ new) X.target.world.depth
            (X.host.callStatic (TreeCode.call X.host bound) n m vs w) := by
    intro hcut
    obtain ⟨new, hnew, hr⟩ := serves.impartial bound n (X.target.world.store.cells ++ made)
      X.target.world.depth hm hw hvs hcounted
    rw [Array.append_assoc] at hr
    refine ⟨made ++ new, X.leeway.fresh_append hmade hnew, fun k hk => ?_⟩
    rw [← hr]
    refine (X.host.callStatic_outlasts X.host (by omega : bound ≤ k) (by omega : n ≤ k) m vs
      _).resolve_left ?_
    rw [hr]
    exact cutShort_recast.not.2 hcut
  cases hr : X.host.callStatic (TreeCode.call X.host bound) n m vs w with
  | ok v w' =>
    obtain ⟨hw', hv⟩ := serves.gives hm hw hvs hr
    rw [hr] at hmachine
    obtain ⟨new, hnew, hsame⟩ := hmachine (by simp [Bench.CutShort])
    exact ⟨hw', hkeeps.1 v w' hr, (hform v m.ret).2 hv, _, ⟨new, hnew, rfl⟩, max bound n, hsame⟩
  | error f w' =>
    by_cases hf : f = .outOfFuel
    · exact .inl (hf ▸ hexc)
    · rw [hr] at hmachine
      obtain ⟨new, hnew, hsame⟩ := hmachine (by simpa [Bench.CutShort] using hf)
      exact .inr ⟨serves.fails hm hw hvs hr, _, ⟨new, hnew, rfl⟩, max bound n, hsame⟩

/-- **The code for a test jumps exactly when the test has the given value.** Let a test be made
of negations, conjunctions and disjunctions of constants, variables and calls of static
methods. If evaluating it gives a value, running the code for it ends at the label when this
is the value `w`, and else behind the code, with the operand stack and the variables as they
were; if it fails, running the code fails in the same way. The worlds agree in either case,
but for cells that methods of the host have made: what the host was asked was asked in the
same order. -/
theorem branch_exact (serves : host.Serves good callable leeway) {known : Var → Prop} {env : LowerEnv}
    {s s' F : Draft} {code : Code} {record : ClosureRecord} {σ : EvalState} {μ : MachineState}
    (H : Poised (host.running code record) record good (fun v t => v.suits t = true) known env s F
      σ μ) {e : Expr} (he : e.Elementary known callable) (hty : e.ty = .bool) {r : Nat}
    (hr : r < s.labels.size) (w : Bool) {f : Usage}
    (hlow : e.part.branch r w f env s = .ok ((), s')) (hF : s'.Leads F) (bound : Nat)
    {gauge : Gauge} {n : Nat} (hdepth : σ.world.depthAt gauge + e.height ≤ gauge.max)
    (hcounted : ∀ i, leeway.counted i →
      i ≠ gauge.counter ∧ μ.world.depth.get i = σ.world.depth.get i) (st : List Value) :
    match eval host (call host bound) gauge n e σ with
    | .ok v σ' => ∃ x, v = .bool x ∧
        Comes (host.running code record) (μ.movedTo s.instrs.size st) fun μ' =>
          (if x = w then F.Places r μ'.pointer else μ'.pointer = s'.instrs.size) ∧ μ'.stack = st ∧
            ∃ new new', leeway.fresh new ∧ leeway.fresh new' ∧
              Kept s.numLocals (σ.grown new) (μ.grown new') σ' μ'
    | .error (.fault x) σ' => x = .outOfFuel ∨
        Fails (host.running code record) (μ.movedTo s.instrs.size st) x fun μ' =>
          leeway.Sees μ.world.store.cells μ.world.depth σ'.world μ'.world
    | .error (.jump ..) _ => False := by
  -- The pact of scenes in which host code may call functions, started at these states.
  let X := H.scene host (call host bound) gauge leeway (· = .outOfFuel) serves.good_recast
    serves.good_stamped ⟨Value.bool_of_suits, fun ⟨_, hb⟩ => hb ▸ rfl⟩ (fun _ => rfl)
    (fun _ _ => Value.void_of_suits_unit) hcounted
  have hanswers : ∀ m, callable m → X.Answers m := fun m hm =>
    serves.answers rfl rfl rfl rfl rfl (fun _ _ => Iff.rfl) rfl hm
  have htests := (Scene.agrees_elementary (X := X) (fun _ _ => Iff.rfl) H.known hanswers he).2 hty
  have h : X.pact.Meets () (μ.movedTo s.instrs.size st)
      (eval host (call host bound) gauge n e σ) _ :=
    htests (G := []) (a := ()) hlow ⟨H.sound, hF, Scene.suits_start⟩ hr ⟨.inr hdepth, .inl rfl⟩
      (Scene.holds_start (X := X) H)
  unfold Pact.Meets at h
  split at h
  · rename_i v σ' heval
    rw [heval]
    obtain ⟨N, j, μ', hgo, _, x, -, rfl, hold, hst, hat⟩ := h
    exact ⟨x, rfl, N, j, μ', hgo, hat, hst, Scene.Holds.kept hold⟩
  · rename_i x σ' heval
    rw [heval]
    exact h.imp_right fun h => h.mono fun μ' ⟨_, _, hb⟩ => hb.2
  · exact h.elim

/-- A method that notes a question and says whether there was one. -/
def Method.ask : Method := ⟨0, "ask", [.str], .bool, true, false, false⟩

/-- A host with this method only. -/
def Host.asking : Host where
  catalog := .empty
  method _ _ args := match args with
    | [.str question] => .ask (.log question) fun _ => .done (.ok (.bool (question != ""))) none
    | _ => .done (.ok (.bool false)) none
  native _ _ := .done (.ok .unit) none

/-- A test that calls the method twice if the variable holds. -/
def Expr.wavering : Expr :=
  let ask (question : String) : Expr := .call .bool none .ask [.constant .str (.str question)]
  .binary .bool (.both false)
    (.unary .bool .not (.binary .bool (.both true) (ask "open") (.var ⟨0, "sure", .bool⟩) none) none)
    (ask "") none

/-- The head of a loop; the variable has the only slot. -/
def Draft.head : Draft where
  slots := { entries := [(0, 0)] }
  numLocals := 1
  labels := #[{ position := some 0, depth := some 0, cleanup := some none }]

/-- The code that goes back there unless the test holds. -/
def Draft.wavering : Draft where
  instrs := #[.constLiteral 0, .call 0, .jumpIfFalse 8, .loadLocal 0, .jumpIfFalse 8,
    .constLiteral 1, .call 0, .jumpIfFalse 0]
  literals := #[.str "open", .str ""]
  methods := #[.ask]
  slots := { entries := [(0, 0)] }
  numLocals := 1
  labels := #[{ position := some 0, depth := some 0, cleanup := some none },
    { position := some 8, depth := some 0, cleanup := some none }]
  maxDepth := 1

/-- Evaluation of the test begins where the variable holds. -/
def EvalState.sure (log : Array String) : EvalState where
  world := { store := { cells := #[.bool true] }, log }
  scopes := { base := [(0, 0)] }

/-- So do the machines. -/
def MachineState.sure : MachineState := { world := {}, locals := #[.bool true] }

theorem Host.asking_serves : Host.asking.Serves (fun _ => True) (· = .ask) .none where
  good_recast _ _ _ := trivial
  good_stamped _ _ := trivial
  impartial := by
    rintro m args w n k cells depth rfl - - -
    refine ⟨#[], rfl, ?_⟩
    simp only [Host.callStatic, Host.asking, Array.append_empty]
    split <;> rfl
  gives := by
    rintro m args w w' n k v rfl - hargs hr
    refine ⟨trivial, ?_⟩
    simp only [Host.callStatic, Host.asking] at hr
    split at hr <;> cases hr <;> rfl
  fails _ _ _ _ := trivial

theorem Expr.wavering_elementary {known : Var → Prop} (h : known ⟨0, "sure", .bool⟩) :
    Expr.wavering.Elementary known (· = .ask) := by
  have hask : ∀ question : String, Expr.Elementary known (· = .ask)
      (.call .bool none .ask [.constant .str (.str question)]) := fun question =>
    .call (m := .ask) rfl rfl (by simpa using .constant (.str question) rfl)
      (.cons ⟨rfl, by simp [Ty.accepts, Expr.ty]⟩ .nil)
  exact .both false (.not (.both true (hask "open") (.var h) rfl rfl) rfl) (hask "") rfl rfl

theorem Draft.head_label {r : Nat} {l : DraftLabel} (h : Draft.head.labels[r]? = some l) :
    r = 0 ∧ l = { position := some 0, depth := some 0, cleanup := some none } := by
  obtain ⟨hr, rfl⟩ := Array.getElem?_eq_some_iff.1 h
  obtain rfl : r = 0 := by simpa [head] using hr
  exact ⟨rfl, rfl⟩

theorem Draft.head_sound : Draft.head.Sound where
  named_lt _ _ h := by cases h
  named_inj _ _ _ h := by cases h
  slot_lt r l k hl hk := by
    obtain ⟨-, rfl⟩ := head_label hl
    cases hk
  slot_inj r r' l l' k hl _ hk := by
    obtain ⟨-, rfl⟩ := head_label hl
    cases hk
  fixup_lt r l hl x hx := by
    obtain ⟨-, rfl⟩ := head_label hl
    cases hx
  stop_le _ h := by cases h

theorem Host.asking_poised :
    Poised (Host.asking.running (Draft.wavering.toCode default false) .empty) .empty (fun _ => True)
      (fun v t => v.suits t = true) (· = ⟨0, "sure", .bool⟩) { catalog := .empty, plan := {} }
      .head .wavering (.sure #[]) .sure where
  sound := Draft.head_sound
  slots_lt id k h := by
    obtain rfl : k = 0 := by
      simp only [Draft.head, Slots.get?, List.lookup] at h
      split at h <;> cases h
      rfl
    exact Nat.zero_lt_one
  follows k := by
    refine ⟨⟨default, false, rfl⟩, fun r l hl hpos => ?_⟩
    have hr : r < 2 := (Array.getElem?_eq_some_iff.1 hl).1
    interval_cases r <;> cases hl <;> cases hpos
  recorded _ := rfl
  size := Nat.le_refl _
  good := trivial
  world := rfl
  known := by
    rintro v rfl home hhome
    cases hhome
    exact ⟨0, rfl, rfl, rfl⟩

theorem branch_exact_wavering :
    Expr.wavering.part.branch 0 false {} { catalog := .empty, plan := {} } .head =
        .ok ((), .wavering) ∧
      eval .asking (call .asking 0) ⟨10, 0⟩ 10 .wavering (.sure #[]) =
        .ok (.bool false) (.sure #["open", ""]) ∧
      Comes (Host.asking.running (Draft.wavering.toCode default false) .empty) .sure fun μ =>
        μ.pointer = 0 ∧ μ.stack = [] ∧ μ.world = { log := #["open", ""] } := by
  have hlow : Expr.wavering.part.branch 0 false {} { catalog := .empty, plan := {} } .head =
      .ok ((), .wavering) := by
    cbv
  have heval : eval .asking (call .asking 0) ⟨10, 0⟩ 10 .wavering (.sure #[]) =
      .ok (.bool false) (.sure #["open", ""]) := by
    cbv
  have hdepth : (EvalState.sure #[]).world.depthAt ⟨10, 0⟩ + Expr.wavering.height ≤
      (⟨10, 0⟩ : Gauge).max := by
    decide
  have h := branch_exact Host.asking_serves Host.asking_poised (Expr.wavering_elementary rfl) rfl
    (by decide : 0 < Draft.head.labels.size) false hlow (.refl _) 0 (n := 10) hdepth
    (fun _ h => h.elim) []
  rw [heval] at h
  obtain ⟨x, hx, hcomes⟩ := h
  cases hx
  refine ⟨hlow, heval, hcomes.mono ?_⟩
  rintro μ ⟨hat, hst, _, _, rfl, rfl, hkept⟩
  rw [if_pos rfl] at hat
  exact ⟨hat.unique ⟨_, rfl, rfl⟩, hst, hkept.world⟩

end TreeCode

import TreeCode.Proofs.Agree.Entry
import TreeCode.Proofs.Agree.Tame
import TreeCode.Proofs.Compile.Closed

/-!
# Compiled and evaluated calls

A lambda whose body is tame is called in two ways: by evaluating its body, and by
running its code. Both calls come to the same result, whatever the nesting of protected
regions, jumps and exceptions.

Main definitions:

* `Lambda.Tame` — what is asked of a lambda.
* `Lambda.Single` — how a lambda becomes a single unit.
* `Host.Returns` — a call of a function comes to a result.

Main results:

* `compiled_call_agrees` — **a call of the compiled lambda and one of the lambda
  itself come to the same result**.
-/

namespace TreeCode

open Draft Lower

/-! ## Units -/

/-- What is asked of a lambda. Constants are told apart by identity, and each label is
placed once. -/
structure Lambda.Tame (types : Nat → Ty) (label : Nat → Label) (callable : Method → Prop)
    (l : Lambda) : Prop where
  body : l.body.Tame types label callable []
  ret : l.ret.Takes l.body.ty
  params : ∀ v ∈ l.params, types v.id = v.ty
  placed : l.body.placed.Nodup
  constants : ∀ u v, .constant u ∈ l.mentions → .constant v ∈ l.mentions →
    u.identity? = v.identity? → u.identity? ≠ none → u = v

/-- The code of a lambda: after the prologue comes the code of the body, and a void
lambda returns unit. -/
theorem Lower.unit_ok {l : Lambda} {env : LowerEnv} {t : Draft} {u : Unit}
    (h : Lower.unit l env {} = .ok (u, t)) : ∃ s t₁,
      (do
        bringInParams l.params
        Lower.prologue l.params) env {} = .ok ((), s) ∧
      l.body.part.emit { discarded := l.ret.isVoid } env s = .ok ((), t₁) ∧
      t = (if l.ret.isVoid then t₁.emitted .constUnit else t₁).emitted .ret := by
  unfold Lower.unit at h
  obtain ⟨_, s₁, h₁, h⟩ := bind_ok.1 h
  obtain ⟨_, s, h₂, h⟩ := bind_ok.1 h
  have hpro : (do
      bringInParams l.params
      Lower.prologue l.params) env {} = .ok ((), s) := bind_ok.2 ⟨_, s₁, h₁, h₂⟩
  have hend : ∀ {t' : Draft}, (do
      emit .ret
      checkPlaced (← get).labels.toList) env t' = .ok (u, t) → t = t'.emitted .ret := fun h => by
    rw [emit_bind, get_bind] at h
    exact (checkPlaced_ok h).1
  split at h
  · rename_i hvoid
    obtain ⟨_, t₁, hbody, h⟩ := bind_ok.1 h
    rw [emit_bind] at h
    exact ⟨s, t₁, hpro, by rw [hvoid]; exact hbody, by rw [if_pos hvoid]; exact hend h⟩
  · rename_i hvoid
    obtain ⟨_, t₁, hbody, h⟩ := bind_ok.1 h
    exact ⟨s, t₁, hpro, by rw [eq_false_of_ne_true hvoid]; exact hbody, by
      rw [if_neg hvoid]; exact hend h⟩

/-- A lambda becomes a single unit: `s` is the draft after the prologue, `t` the one after
the body. -/
structure Lambda.Single (l : Lambda) (env : LowerEnv) (s t : Draft) (c : BoundUnit) : Prop where
  prologue : (do
    bringInParams l.params
    Lower.prologue l.params) env {} = .ok ((), s)
  body : l.body.part.emit { discarded := l.ret.isVoid } env s = .ok ((), t)
  unit : Lower.unit l env {} =
    .ok ((), (if l.ret.isVoid then t.emitted .constUnit else t).emitted .ret)
  code : c.code = ((if l.ret.isVoid then t.emitted .constUnit else t).emitted .ret).toCode l
    env.hasRecord
  regions : c.code.Nested
  supplied : env.supplied = none ∨ l.constants = []
  boxed : env.plan.boxed = []
  captures : env.plan.captures = []
  nested : env.plan.nested = []
  constants : env.plan.constants.map (·.value) = l.constants
  record : env.supplied = none → c.record.values = l.constants

theorem compileLambda_single {catalog : Catalog} {l : Lambda} {w w' : World} {c : BoundUnit}
    (h : compileLambda catalog l w = .ok (.compiled c, w')) (hl : ∀ D k, .lambda D k ∉ l.mentions) :
    ∃ env s t, env.catalog = catalog ∧ l.Single env s t c := by
  obtain ⟨plan, units, forms, values, hplan, -, hboth, hrecord⟩ :=
    CompileM.boundUnit_ok (CompileM.settle_ok h)
  obtain ⟨hcode, hvalues⟩ := CompileM.codeAndEntries_ok hboth
  obtain ⟨-, hnested, hboxed, hconstants⟩ := planLambda_single hplan hl
  obtain ⟨vs, rfl, hvs⟩ := CompileM.recordEntries_ok hvalues
  rw [hnested] at hvs
  cases hvs
  obtain ⟨_, _, hcourse, hc⟩ := Lambda.toCode_course hcode
  obtain ⟨s, t, hpro, hbody, ht⟩ := Lower.unit_ok hcourse.unit
  refine ⟨_, s, t, rfl, hpro, hbody, ht ▸ hcourse.unit, ht ▸ hc, Lambda.toCode_nested hcode,
    .inl rfl, hboxed, planLambda_captures hplan, hnested, hconstants, fun _ => ?_⟩
  rw [hrecord, ClosureRecord.values_ofConstants, hconstants, List.append_nil]

/-! ## Ends of a run -/

/-- The value that a call of a lambda gives for the value of its body. -/
def Lambda.result (l : Lambda) (v : Value) : Value := if l.ret.isVoid then .unit else v

/-- The result of a run of the machine, as seen from outside. -/
def inWorld : EStateM.Result Fault MachineState Value → EStateM.Result Fault World Value
  | .ok v μ => .ok v μ.world
  | .error f μ => .error f μ.world

theorem runUnit_eq (host : Host) (call : Caller) (fuel : Nat) (code : Code)
    (record : ClosureRecord) (args : List Value) (w : World) :
    runUnit host call fuel code record args w =
      inWorld (Machine.run { host, fuel, call, code, record } fuel
        { world := w, locals := code.initialLocals args }) := by
  simp only [runUnit]
  cases Machine.run _ fuel _ <;> rfl

section Ends

variable {J : Discipline} {X : Bench J} {G : Frame} {a : J.State} {σ : EvalState}
  {μ : MachineState} {s : Draft} {pd : List Pending}

/-- The machine gets the result `r'` where evaluation gets the result `r`: the same, in a
world that it sees as its own. -/
def Bench.Yields (X : Bench J) (r r' : EStateM.Result Fault World Value) : Prop :=
  ∃ new, X.leeway.fresh new ∧ r' = recast (X.cells ++ new) X.depth r

/-- The next turn of the machine ends the run, in the way of a result of evaluation. -/
def Bench.Ends (X : Bench J) (r : EStateM.Result Fault World Value) (μ : MachineState) : Prop :=
  ∃ r', X.machine.turn μ = .ends r' ∧ X.Yields r (inWorld r')

/-- The value on the stack is returned. -/
theorem Bench.Ready.returns (R : X.Ready) {v : Value} (h : Stands X G a σ s [v] pd μ)
    (hF : (s.emitted .ret).Leads X.final) : X.Ends (.ok v σ.world) μ := by
  have hstep := R.step (by rw [h.place.pointer]; exact emitted hF rfl)
  obtain ⟨new, hnew, hworld⟩ := h.holds.world
  obtain ⟨w, p, stack, locals, q⟩ := μ
  obtain rfl : stack = [v] := h.place.stack
  refine ⟨.ok v ⟨w, p + 1, [], locals, q⟩, by rw [Machine.turn, hstep]; rfl, new, hnew, ?_⟩
  exact congrArg (EStateM.Result.ok v) hworld

/-- A failure that no entry takes ends the run. -/
theorem Bench.Ready.fails (R : X.Ready) {f : Fault} {t : Draft} {st hi : List Value}
    {blocks : List Pending} (h : Breakdown X s t G pd st f σ a hi blocks μ) {μ₀ : MachineState}
    (hstep : X.machine.step μ₀ = .error f μ) (ht : X.final.handlers = t.handlers) :
    X.Ends (.error f σ.world) μ₀ := by
  refine ⟨.error f μ, Machine.turn_of_untaken hstep fun v hv k hk => ?_, ?_⟩
  · rw [R.handlers, ht] at hk
    exact h.thrown v hv k hk
  · obtain ⟨new, hnew, hworld⟩ := h.holds.world
    exact ⟨new, hnew, congrArg (EStateM.Result.error f) hworld⟩

end Ends

/-! ## The bench of a call -/

section Bench

variable {host : Host} {good : World → Prop} {callable : Method → Prop} {leeway : Leeway}
  {types : Nat → Ty} {label : Nat → Label} {l : Lambda} {env : LowerEnv} {s t : Draft}
  {c : BoundUnit}

/-- The bench on which a call of a lambda and a run of its code are compared: evaluation
has the bound `n`, the machine the bound `k`. -/
def Lambda.Single.bench (_ : l.Single env s t c) (serves : host.Serves good callable leeway)
    (types : Nat → Ty) (label : Nat → Label) (gauge : Gauge) (n k : Nat) (w : World) (back : Bool) :
    Bench serves.discipline where
  env
  final := (if l.ret.isVoid then t.emitted .constUnit else t).emitted .ret
  machine := { host, fuel := k, call := call host k, code := c.code, record := c.record }
  call := call host n
  gauge
  leeway
  cells := w.store.cells
  depth := w.depth
  back
  types
  names := ⟨label, fun v => .constant v ∈ l.mentions⟩
  callable

/-- The constant that a place of the record holds is the one that is mentioned. -/
theorem Lambda.Tame.constant_eq (T : l.Tame types label callable) {v v' : Value}
    (hv : .constant v ∈ l.mentions) (hv' : v' ∈ l.constants) (hid : v'.identity? = v.identity?)
    (hne : v.identity? ≠ none) : v' = v := by
  obtain ⟨m, hm, hmv⟩ := List.mem_filterMap.1 (mem_of_mem_eraseDupsBy hv')
  cases m with
  | constant x =>
    simp only [Mention.constant?] at hmv
    split at hmv
    · obtain rfl := Option.some.inj hmv
      exact T.constants x v hm hv hid (hid ▸ hne)
    · cases hmv
  | _ => cases hmv

namespace Lambda.Single

variable {serves : host.Serves good callable leeway} {gauge : Gauge} {n k : Nat} {w : World} {back : Bool}

theorem constants_ne_nil (S : l.Single env s t c) {v : Value} (hv : .constant v ∈ l.mentions)
    (hne : v.identity? ≠ none) : l.constants ≠ [] := by
  intro hnil
  obtain ⟨i, hi⟩ := Option.ne_none_iff_exists'.1 hne
  obtain ⟨j, v', -, hget, -⟩ := Plan.constantPlace?_of_mem S.constants hv hi
  simp [S.constants, hnil] at hget

theorem ready (S : l.Single env s t c) (T : l.Tame types label callable)
    (hcat : env.catalog = host.catalog) (hapart : ¬leeway.counted gauge.counter)
    (hbound : (S.bench serves types label gauge n k w back).Fuelled n) :
    (S.bench serves types label gauge n k w back).Ready where
  code := ⟨l, env.hasRecord, S.code⟩
  catalog := hcat
  sound :=
    (unit_laysOut (J := []) env {} _ _ S.unit (begun_empty env).fit.sound (by simp)).sound
  nested := S.regions
  placed r x hx := unit_placed S.unit x (Array.mem_of_getElem? hx)
  supplied := S.supplied.imp_right fun hnil v hv => by
    by_contra hne
    exact S.constants_ne_nil hv hne hnil
  boxed := S.boxed
  captures := S.captures
  constant v hv hne := by
    have hsup : env.supplied = none := S.supplied.resolve_right (S.constants_ne_nil hv hne)
    obtain ⟨i, hi⟩ := Option.ne_none_iff_exists'.1 hne
    obtain ⟨j, v', hplace, hget, hid⟩ := Plan.constantPlace?_of_mem S.constants hv hi
    rw [S.constants] at hget
    have hv' := T.constant_eq hv (List.mem_of_getElem? hget) (hid.trans hi.symm) hne
    refine ⟨j, hplace, ?_⟩
    show c.record.values[j]? = some v
    rw [S.record hsup, hget, hv']
  static hm hn hw hdepth hsees hargs :=
    serves.static rfl rfl rfl rfl hapart hbound hn hm hw hdepth hsees hargs

theorem lays (S : l.Single env s t c) : s.Lays t :=
  (lays_rule.part l.body [] fun _ _ => trivial).emit [] [] [] _ env s _ t S.body
    (prologue_begun S.prologue).1.fit.sound (by simp)

theorem leads (S : l.Single env s t c) :
    t.Leads (S.bench serves types label gauge n k w back).final := by
  simp only [bench]
  split
  · exact (Quiet.emitted t _).leads.trans (Quiet.emitted _ _).leads
  · exact (Quiet.emitted t _).leads

theorem final_handlers (S : l.Single env s t c) :
    (S.bench serves types label gauge n k w back).final.handlers = t.handlers := by
  simp only [bench]
  split <;> rfl

/-- The stretch of code of the body. -/
theorem site (S : l.Single env s t c) (T : l.Tame types label callable) {G : Frame}
    (R : (S.bench serves types label gauge n k w back).Ready)
    (hfits : Suits (S.bench serves types label gauge n k w back) G s) :
    Site (S.bench serves types label gauge n k w back) [] l.body { discarded := l.ret.isVoid } s t
      G [] := by
  have hplain : l.body.Plain (S.bench serves types label gauge n k w back).names :=
    (T.body.plain _).2 _ fun v hv => hv
  have hbegun := (prologue_begun S.prologue).1
  have hdrop : (S.bench serves types label gauge n k w back).final.handlers.drop
      t.handlers.length = [] := by
    rw [S.final_handlers, List.drop_length]
  refine ⟨S.body, hplain, ⟨R, hbegun.fit.sound, ?_, Expr.emit_step S.body hplain hbegun.fit.sound,
    S.leads, hfits, T.placed, ?_, ?_, ?_, ?_, l.body.opens_nil s t⟩, ?_, ?_⟩
  · intro id r x _ hx
    simp [hbegun.labels] at hx
  · rintro id - ⟨r, x, -, hx, -⟩
    simp [hbegun.labels] at hx
  · simp [hdrop]
  · simp [hdrop]
  · simp
  · intro h
    cases h
  · intro hvoid
    cases hret : l.ret.isVoid with
    | true => rfl
    | false => simp [(T.ret hret).1] at hvoid

/-- Evaluating the body and running its code come to the same end. -/
theorem meets (S : l.Single env s t c) (T : l.Tame types label callable) {G : Frame}
    (R : (S.bench serves types label gauge n k w back).Ready)
    (hfits : Suits (S.bench serves types label gauge n k w back) G s) {σ : EvalState}
    {μ : MachineState} (hst : Stands (S.bench serves types label gauge n k w back) G () σ s [] [] μ)
    (hpace : (S.bench serves types label gauge n k w back).Paced n l.body)
    (hdepth : G.depth + l.body.height ≤ gauge.max) :
    (S.bench serves types label gauge n k w back).Meets μ
      (eval host (call host n) gauge n l.body σ)
      (fun v σ' => (S.bench serves types label gauge n k w back).Ends (.ok (l.result v) σ'.world))
      fun x σ' μ' => ∃ f, x = .fault f ∧
        (S.bench serves types label gauge n k w back).Ends (.error f σ'.world) μ' := by
  have hagree := (Expr.Tame.agrees (X := S.bench serves types label gauge n k w back) T.body).1
    (S.site T R hfits) hst hpace hdepth
  refine (hagree.mono (fun _ _ _ h => h) fun x σ' μ' hout => ?_).after fun v σ' μ' h => ?_
  -- No label is open around the body, so no jump leaves it, and a failure finds no handler.
  · cases x with
    | jump l v =>
      obtain ⟨_, _, _, _, _, -, hd, -⟩ := hout
      exact absurd hd.mem (by simp)
    | fault f =>
      obtain ⟨_, _, _, μ₁, -, hbreak, hstep⟩ := hout
      exact ⟨f, rfl, R.fails hbreak hstep S.final_handlers⟩
  · obtain ⟨_, -, -, hst'⟩ := h
    -- The value is on the stack, or the unit is pushed in its place, and returned.
    cases hret : l.ret.isVoid with
    | true =>
      have hfinal : (S.bench serves types label gauge n k w back).final =
          (t.emitted .constUnit).emitted .ret := by simp [bench, hret]
      simp only [Usage.pushed, hret, if_true] at hst'
      refine (R.push hst' (hfinal ▸ (Quiet.emitted _ _).leads) rfl rfl rfl fun μ _ => rfl).mono
        fun μ₁ h₁ => ?_
      simpa [Lambda.result, hret] using R.returns h₁ (hfinal ▸ .refl _)
    | false =>
      have hfinal : (S.bench serves types label gauge n k w back).final = t.emitted .ret := by
        simp [bench, hret]
      simp only [Usage.pushed, hret, Bool.false_eq_true, if_false] at hst'
      refine .here ?_
      simpa [Lambda.result, hret] using R.returns hst' (hfinal ▸ .refl _)

end Lambda.Single

end Bench

/-! ## Calls -/

/-- The result of a call for that of evaluating the body. -/
def Lambda.outcome (l : Lambda) :
    EStateM.Result Exit EvalState Value → EStateM.Result Fault World Value
  | .ok v σ => .ok (l.result v) σ.world
  | .error (.fault f) σ => .error f σ.world
  | .error (.jump target v) σ =>
    if l.body.isLabelOf target then .ok (l.result v) σ.world
    else .error (.lostJump target.shown) σ.world

theorem callLambda_eq {host : Host} {call : Caller} {fuel : Nat} {gauge : Gauge} {l : Lambda}
    {captured : List (Nat × Nat)} {args : List Value} {w w' : World} {bindings : List (Nat × Nat)}
    (hlen : l.params.length = args.length)
    (h : freshArguments l.params args w = .ok bindings w') :
    callLambda host call fuel l captured gauge args w =
      l.outcome (eval host call gauge fuel l.body
        { world := w', scopes := (Scopes.ofList captured).enter.bindAll bindings }) := by
  have harity : RunM.requireArity l.params.length args.length w = .ok () w := by
    simp [RunM.requireArity, hlen]
    rfl
  simp only [callLambda, bind, EStateM.bind, harity, h, bodyValue, Lambda.outcome, Lambda.result]
  cases eval host call gauge fuel l.body
      { world := w', scopes := (Scopes.ofList captured).enter.bindAll bindings } with
  | ok v σ => rfl
  | error x σ =>
    cases x with
    | fault f => rfl
    | jump target v =>
      by_cases htarget : l.body.isLabelOf target = true
      · simp only [if_pos htarget]
      · simp only [if_neg htarget]

theorem Draft.argShapes_toCode (t : Draft) (l : Lambda) (b : Bool) :
    (t.toCode l b).argShapes = l.params.map fun v => Shape.of v.ty := by
  have hparams : l.signature.params.map Shape.of = l.params.map fun v => Shape.of v.ty := by
    simp [Lambda.signature]
  cases b with
  | true => simp [Code.argShapes, Draft.toCode, hparams]
  | false =>
    simp only [Code.argShapes, Draft.toCode, Bool.false_eq_true, if_false, List.nil_append, hparams]
    split
    · -- No parameter has the shape of a record.
      rename_i shapes heq
      obtain ⟨v, vs, -, hv, -⟩ := List.map_eq_cons_iff.1 heq
      cases hty : v.ty <;> simp only [hty, Shape.of] at hv <;> first | cases hv | skip
      split at hv <;> cases hv
    · rfl

theorem requireShapes_eq {vs : List Var} {args : List Value} {w : World}
    (h : List.Forall₂ (fun v x => x.fits (Shape.of v.ty) = true) vs args) :
    requireShapes (vs.map fun v => Shape.of v.ty) args w = .ok () w := by
  induction h with
  | nil => rfl
  | cons hv _ ih => simpa only [List.map_cons, requireShapes, hv, if_true] using ih

theorem callUnit_eq {host : Host} {call : Caller} {fuel : Nat} {l : Lambda} {t : Draft} {b : Bool}
    {record : ClosureRecord} {args : List Value} {w : World}
    (h : List.Forall₂ (fun v x => x.fits (Shape.of v.ty) = true) l.params args) :
    callUnit host call fuel (t.toCode l b) record args w =
      runUnit host call fuel (t.toCode l b) record args w := by
  have harity : RunM.requireArity (t.toCode l b).argShapes.length args.length w = .ok () w := by
    simp [RunM.requireArity, Draft.argShapes_toCode, h.length_eq]
    rfl
  have hshapes : requireShapes (t.toCode l b).argShapes args w = .ok () w := by
    rw [Draft.argShapes_toCode]
    exact requireShapes_eq h
  simp only [callUnit, bind, EStateM.bind, harity, hshapes]

/-! ## Results -/

theorem cutShort_inWorld {r : EStateM.Result Fault MachineState Value} :
    Bench.CutShort (inWorld r) ↔ Machine.CutOff r := by
  constructor
  · rintro ⟨w, h⟩
    cases r with
    | ok v μ => cases h
    | error f μ =>
      cases h
      exact ⟨_, rfl⟩
  · rintro ⟨μ, rfl⟩
    exact ⟨_, rfl⟩

namespace Bench

variable {J : Discipline} {X : Bench J} {μ : MachineState} {r : EStateM.Result Fault World Value}

/-- The machine reaches the end of its run, whatever bound above some is given. -/
theorem Reaches.run (h : X.Reaches μ (X.Ends r)) :
    (∃ j r', X.Yields r r' ∧ ∀ i, inWorld (X.machine.run (i + j) μ) = r') ∨
      X.back = true ∧ X.machine.Stalls μ := by
  rcases h with ⟨j, μ', hgo, r', hturn, hr⟩ | hs
  · refine .inl ⟨1 + j, inWorld r', hr, fun i => ?_⟩
    rw [← Nat.add_assoc, hgo (i + 1), Machine.run_succ, hturn]
  · exact .inr hs

/-- The machine meets the result of a call. -/
theorem Meets.outcome {l : Lambda} {x : EStateM.Result Exit EvalState Value}
    (h : X.Meets μ x (fun v σ => X.Ends (.ok (l.result v) σ.world))
      fun e σ μ' => ∃ f, e = .fault f ∧ X.Ends (.error f σ.world) μ') :
    (CutShort (l.outcome x) ∧ (X.back = true → X.machine.Lingers X.machine.fuel μ)) ∨
      X.Reaches μ (X.Ends (l.outcome x)) := by
  cases x with
  | ok v σ => exact .inr (h.ends v σ rfl)
  | error e σ =>
    by_cases he : e = .fault .outOfFuel
    · subst he
      exact .inl ⟨⟨_, rfl⟩, h.isCut σ rfl⟩
    · refine .inr ((h.leaves e σ rfl he).mono fun μ' hμ => ?_)
      obtain ⟨f, rfl, hends⟩ := hμ
      exact hends

end Bench

/-- A call of a function comes to a result, given fuel enough. -/
def Host.Returns (host : Host) (f : Nat) (args : List Value) (w : World)
    (r : EStateM.Result Fault World Value) : Prop :=
  ¬Bench.CutShort r ∧ ∃ n, call host n f args w = r

/-- A call has one result at most. -/
theorem Host.Returns.unique {host : Host} {f : Nat} {args : List Value} {w : World}
    {r r' : EStateM.Result Fault World Value} (h : host.Returns f args w r)
    (h' : host.Returns f args w r') : r = r' := by
  obtain ⟨hcut, n, rfl⟩ := h
  obtain ⟨hcut', k, rfl⟩ := h'
  rcases Nat.le_total n k with hle | hle
  · exact ((call_outlasts host hle f args w).resolve_left hcut).symm
  · exact (call_outlasts host hle f args w).resolve_left hcut'

section Agreement

variable {host : Host} {good : World → Prop} {callable : Method → Prop} {leeway : Leeway}
  {serves : host.Serves good callable leeway} {types : Nat → Ty} {label : Nat → Label} {l : Lambda}
  {env : LowerEnv} {s t : Draft} {c : BoundUnit} {gauge : Gauge} {n k : Nat} {w : World}
  {args : List Value} {back : Bool}

namespace Lambda.Single

theorem numLocals_le (S : l.Single env s t c) : l.params.length ≤ c.code.numLocals := by
  have hcode : c.code.numLocals = t.numLocals := by
    rw [S.code]
    simp only [Draft.toCode]
    split <;> rfl
  rw [hcode]
  exact Nat.le_trans (prologue_begun S.prologue).2 S.lays.leads.numLocals_le

theorem bench_numLocals (S : l.Single env s t c) :
    (S.bench serves types label gauge n k w back).final.numLocals = c.code.numLocals := by
  rw [S.code]
  rfl

/-- The call and the run of the code, from their beginnings on. -/
theorem starts (S : l.Single env s t c) (T : l.Tame types label callable)
    (serves : host.Serves good callable leeway) (n k : Nat) (back : Bool)
    (hcat : env.catalog = host.catalog) (hapart : ¬leeway.counted gauge.counter) (hw : good w)
    (hargs : List.Forall₂ (fun v x => x.fits (Shape.of v.ty) = true) l.params args)
    (hdepth : w.depthAt gauge + l.body.height ≤ gauge.max)
    (hbound : (S.bench serves types label gauge n k w back).Fuelled n)
    (hpace : (S.bench serves types label gauge n k w back).Paced n l.body) :
    ∃ x, callLambda host (call host n) n l [] gauge args w = l.outcome x ∧
      (S.bench serves types label gauge n k w back).Meets
        { world := w, locals := c.code.initialLocals args } x
        (fun v σ => (S.bench serves types label gauge n k w back).Ends (.ok (l.result v) σ.world))
        fun e σ μ => ∃ f, e = .fault f ∧
          (S.bench serves types label gauge n k w back).Ends (.error f σ.world) μ := by
  have R : (S.bench serves types label gauge n k w back).Ready := S.ready T hcat hapart hbound
  have hlen := hargs.length_eq
  have hle := S.numLocals_le
  have hhas : List.Forall₂ (fun (v : Var) x => serves.discipline.has () x (types v.id)) l.params
      args := by
    refine List.forall₂_iff_get.2 ⟨hlen, fun i hi hi' => ?_⟩
    rw [T.params _ (List.get_mem _ _)]
    exact Value.suits_of_fits (hargs.get hi hi')
  have hrecord (hsup : env.supplied = none) :
      c.record.values.length = env.plan.constants.length + env.plan.nested.length := by
    simp [S.record hsup, ← S.constants, S.nested]
  -- at the beginning both runs are in the world that the call is made in
  obtain ⟨bindings, w', G, hfresh, hfits, hd, hreach⟩ := R.enters S.prologue
    (S.lays.leads.trans S.leads) hw hhas rfl ⟨#[], leeway.fresh_empty, by simp [bench]; rfl⟩ hrecord
    (c.code.initialLocals args) (by
      rw [S.bench_numLocals]
      simp [Code.initialLocals]
      omega) fun i x hx => by
        have hlt := (List.getElem?_eq_some_iff.1 hx).1
        simpa [Code.initialLocals, Array.getElem?_append, hlt] using hx
  refine ⟨_, callLambda_eq hlen hfresh, hreach.meets fun μ hst => ?_⟩
  exact S.meets T R hfits hst hpace (hd ▸ hdepth)

/-- What evaluation finds the machine finds. -/
theorem found (S : l.Single env s t c) (T : l.Tame types label callable)
    (serves : host.Serves good callable leeway) (hcat : env.catalog = host.catalog)
    (hapart : ¬leeway.counted gauge.counter) (hw : good w)
    (hargs : List.Forall₂ (fun v x => x.fits (Shape.of v.ty) = true) l.params args)
    (hdepth : w.depthAt gauge + l.body.height ≤ gauge.max)
    (hcut : ¬Bench.CutShort (callLambda host (call host n) n l [] gauge args w)) :
    ∃ k new, leeway.fresh new ∧ callUnit host (call host k) k c.code c.record args w =
      recast (w.store.cells ++ new) w.depth
        (callLambda host (call host n) n l [] gauge args w) := by
  obtain ⟨x, hx, hmeets⟩ := S.starts T serves n n false hcat hapart hw
    hargs hdepth (Nat.le_refl n) (Nat.le_refl n)
  rw [hx] at hcut ⊢
  rcases hmeets.outcome with ⟨h, -⟩ | hreach
  · exact absurd h hcut
  · rcases hreach.run with ⟨j, _, ⟨new, hnew, rfl⟩, hj⟩ | ⟨hback, -⟩
    · -- The run of `j` turns may be longer than the bound of evaluation.
      have hle : n ≤ max n j := Nat.le_max_left n j
      refine ⟨max n j, new, hnew, ?_⟩
      rw [S.code, callUnit_eq hargs, ← S.code, runUnit_eq]
      rcases Machine.run_outlasts c.code c.record hle (Nat.le_max_right n j)
        { world := w, locals := c.code.initialLocals args } with ⟨μ, hμ⟩ | hμ
      · refine absurd ?_ hcut
        have hrun := hj 0
        rw [Nat.zero_add] at hrun
        exact cutShort_recast.1 ⟨μ.world, hrun.symm.trans (congrArg inWorld hμ)⟩
      · have hrun := hj 0
        rw [Nat.zero_add] at hrun
        exact (congrArg inWorld hμ).trans hrun
    · cases hback

/-- What the machine finds evaluation finds. -/
theorem sought (S : l.Single env s t c) (T : l.Tame types label callable)
    (serves : host.Serves good callable leeway) (hcat : env.catalog = host.catalog)
    (hapart : ¬leeway.counted gauge.counter) (hw : good w)
    (hargs : List.Forall₂ (fun v x => x.fits (Shape.of v.ty) = true) l.params args)
    (hdepth : w.depthAt gauge + l.body.height ≤ gauge.max)
    (hcut : ¬Bench.CutShort (callUnit host (call host k) k c.code c.record args w)) :
    ∃ n new, leeway.fresh new ∧ callUnit host (call host k) k c.code c.record args w =
      recast (w.store.cells ++ new) w.depth
        (callLambda host (call host n) n l [] gauge args w) := by
  have hpos : 1 ≤ sizeOf l.body := by cases l.body <;> simp <;> omega
  have hle : k ≤ (k + 1) * sizeOf l.body :=
    Nat.le_trans (Nat.le_succ k) (Nat.le_mul_of_pos_right (k + 1) hpos)
  obtain ⟨x, hx, hmeets⟩ := S.starts T serves ((k + 1) * sizeOf l.body) k true hcat hapart hw
    hargs hdepth hle (Nat.le_refl _)
  refine ⟨(k + 1) * sizeOf l.body, ?_⟩
  rw [S.code, callUnit_eq hargs, ← S.code, runUnit_eq] at hcut ⊢
  rw [cutShort_inWorld] at hcut
  rw [hx]
  rcases hmeets.outcome with ⟨-, h⟩ | hreach
  · exact absurd (h rfl) hcut
  · rcases hreach.run with ⟨j, _, ⟨new, hnew, rfl⟩, hj⟩ | ⟨-, hstalls⟩
    · exact ⟨new, hnew, (congrArg inWorld (Machine.run_add hcut j)).symm.trans (hj k)⟩
    · exact absurd (hstalls k) hcut

/-- The function that runs the code and the one that evaluates the lambda return the same
result. -/
theorem returns_iff (S : l.Single env s t c) (T : l.Tame types label callable)
    (serves : host.Serves good callable leeway) (hcat : env.catalog = host.catalog)
    {f g maxDepth : Nat} {counter : Option Nat} (hf : w.functions[f]? = some c.callable)
    (hg : w.functions[g]? = some (.interpreted l [] maxDepth counter))
    (hapart : ¬leeway.counted (counter.getD g)) (hw : good w)
    (hargs : List.Forall₂ (fun v x => x.fits (Shape.of v.ty) = true) l.params args)
    (hdepth : w.depthAt ⟨maxDepth, counter.getD g⟩ + l.body.height ≤ maxDepth) :
    ∃ new, leeway.fresh new ∧ ∀ r, host.Returns f args w r ↔
      ∃ r', host.Returns g args w r' ∧ r = recast (w.store.cells ++ new) w.depth r' := by
  have hunit : ∀ n, call host (n + 1) f args w =
      callUnit host (call host n) n c.code c.record args w := fun n => by
    simp only [call, hf, BoundUnit.callable]
  have hlambda : ∀ n, call host (n + 1) g args w =
      callLambda host (call host n) n l [] ⟨maxDepth, counter.getD g⟩ args w := fun n => by
    simp only [call, hg]
  by_cases hreturns : ∃ r', host.Returns g args w r'
  · -- Either function has one result only, so that of the code is the one found here.
    obtain ⟨_, hcut, _ | n, rfl⟩ := hreturns
    · exact absurd ⟨w, rfl⟩ hcut
    rw [hlambda] at hcut
    obtain ⟨m, new, hnew, hm⟩ := S.found T serves hcat hapart hw hargs hdepth hcut
    have hg : host.Returns g args w (callLambda host (call host n) n l []
      ⟨maxDepth, counter.getD g⟩ args w) := ⟨hcut, n + 1, hlambda n⟩
    have hf : host.Returns f args w (recast (w.store.cells ++ new) w.depth (callLambda host
        (call host n) n l [] ⟨maxDepth, counter.getD g⟩ args w)) :=
      ⟨cutShort_recast.not.2 hcut, m + 1, (hunit m).trans hm⟩
    refine ⟨new, hnew, fun r => ⟨fun hr => ⟨_, hg, hr.unique hf⟩, ?_⟩⟩
    rintro ⟨r', hr', rfl⟩
    exact hr'.unique hg ▸ hf
  -- Without a result of evaluation the code has none either.
  · refine ⟨#[], leeway.fresh_empty, fun r => ⟨?_, ?_⟩⟩
    · rintro ⟨hcut, _ | n, rfl⟩
      · exact absurd ⟨w, rfl⟩ hcut
      · rw [hunit] at hcut
        obtain ⟨m, new, -, hm⟩ := S.sought T serves hcat hapart hw hargs hdepth hcut
        rw [hm, cutShort_recast] at hcut
        exact absurd ⟨_, hcut, m + 1, hlambda m⟩ hreturns
    · rintro ⟨r', hr', -⟩
      exact absurd ⟨r', hr'⟩ hreturns

end Lambda.Single

/-- **A call of the compiled lambda and one of the lambda itself come to the same
result**: the same value or the same failure, in worlds that differ only in the cells of
variables. To the cells that there were before the call, the code adds none but those that
methods of the host have made. -/
theorem compiled_call_agrees (serves : host.Serves good callable leeway)
    (T : l.Tame types label callable) {w₀ w₁ : World}
    (hcompiled : compileLambda host.catalog l w₀ = .ok (.compiled c, w₁)) {f g maxDepth : Nat}
    {counter : Option Nat} (hf : w.functions[f]? = some c.callable)
    (hg : w.functions[g]? = some (.interpreted l [] maxDepth counter))
    (hapart : ¬leeway.counted (counter.getD g)) (hw : good w)
    (hargs : List.Forall₂ (fun v x => x.fits (Shape.of v.ty) = true) l.params args)
    (hdepth : w.depthAt ⟨maxDepth, counter.getD g⟩ + l.body.height ≤ maxDepth) :
    ∃ new, leeway.fresh new ∧ ∀ r, host.Returns f args w r ↔
      ∃ r', host.Returns g args w r' ∧ r = recast (w.store.cells ++ new) w.depth r' := by
  obtain ⟨env, s, t, hcat, S⟩ := compileLambda_single hcompiled (T.body.plain _).1
  exact S.returns_iff T serves hcat hf hg hapart hw hargs hdepth

end Agreement

/-- A method that writes a line to the log and hands it to a listener. -/
def Method.note : Method := ⟨0, "note", [.str], .void, true, false, false⟩

/-- The listener: a function with a variable of its own. -/
def Lambda.listener : Lambda :=
  let line : Var := ⟨1, "line", .str⟩
  .mk 1 none [line] .str (.var line)

/-- What it does with a line. The listener is the function 2. -/
def HostProg.noting (line : String) : HostProg :=
  .ask (.log line) fun _ => .ask (.call 2 [.str line]) fun heard =>
    .done (heard.map fun _ => .unit) none

/-- A host with this method only. -/
def Host.noting : Host where
  catalog := .empty
  method _ _ args := match args with
    | [.str line] => .noting line
    | _ => .done (.ok .unit) none
  native _ _ := .done (.ok .unit) none

/-- The host makes variables that hold lines, and depends on the depth of the listener. -/
def Leeway.lines : Leeway where
  fresh cells := ∀ v ∈ cells, v.suits .str = true
  counted := (· = 2)
  fresh_empty := by simp
  fresh_append h h' v hv := (Array.mem_append.1 hv).elim (h v) (h' v)

/-- A lambda that leaves two protected regions by jumps and exceptions. -/
def Lambda.crossing : Lambda :=
  let x : Var := ⟨0, "x", .i32⟩
  let done : Label := ⟨0, none, .i32⟩
  let int (n : Int) : Expr := .constant .i32 (.i32 n)
  let note (line : String) : Expr := .call .void none .note [.constant .str (.str line)]
  .mk 0 none [x] .i32 (.block .i32 [] [
    .protect
      (.protect
        (.conditional .void
          (.binary .bool .equal (.binary .i32 .divide (int 10) (.var x) none) (int 5) none)
          (.goto .void .ret done (some (int 7))) (.default .void))
        [] (.finally (note "inner")))
      [.mk .exception none none (.goto .void .ret done (some (int (-1))))] (.finally (note "outer")),
    .label done (some (.var x))])

/-- Its code. Both finally blocks end the regions that jumps to 26 cross. -/
def Code.crossing : Code where
  signature := Lambda.crossing.signature
  shapes := [.num .i32]
  literals := #[.str "inner", .str "outer"]
  methods := #[.note]
  instrs := #[.nop, .nop, .constI32 10, .loadLocal 0, .arith .div .i32, .constI32 5, .eq,
    .jumpIfFalse 12, .constI32 7, .storeLocal 1, .leave 26, .jump 12, .leave 16, .constLiteral 0,
    .call 0, .endFinally, .leave 24, .constI32 (-1), .storeLocal 1, .leave 26, .leave 24,
    .constLiteral 1, .call 0, .endFinally, .loadLocal 0, .storeLocal 1, .loadLocal 1, .ret]
  handlers := [⟨2, 13, 0, .finally 13 16⟩, ⟨1, 17, 0, .catching .exception 2 17⟩,
    ⟨1, 21, 0, .finally 21 24⟩]
  numParams := 1
  numLocals := 3
  maxStack := 2

theorem Host.call_listener {n : Nat} {v : Value} {w : World}
    (hf : w.functions[2]? = some (.interpreted .listener [] 10 none)) :
    call .noting n 2 [v] w =
      if n = 0 then .error .outOfFuel w
      else if n = 1 then .error .outOfFuel (w.grown #[v])
      else if w.depth.get 2 < 10 then .ok v (w.grown #[v])
      else .error (.tooDeep (w.depth.get 2) 10) (w.grown #[v]) := by
  have hfresh : freshArguments Lambda.listener.params [v] w =
      .ok [(1, w.store.cells.size)] (w.grown #[v]) := rfl
  have hread : (w.grown #[v]).store.cellAt w.store.cells.size = v := by
    simp [World.grown, Store.cellAt]
  cases n with
  | zero => rfl
  | succ n =>
    let σ : EvalState :=
      { world := w.grown #[v], scopes := (Scopes.ofList []).enter.bindAll [(1, w.store.cells.size)] }
    have hcall : call .noting (n + 1) 2 [v] w = Lambda.listener.outcome
        (eval .noting (call .noting n) ⟨10, 2⟩ n (.var ⟨1, "line", .str⟩) σ) := by
      simp only [call, hf]
      exact callLambda_eq rfl hfresh
    rw [hcall]
    cases n with
    | zero => rfl
    | succ n =>
      rw [if_neg (by omega), if_neg (by omega), eval]
      split
      · next hd =>
        replace hd : σ.world.depthAt ⟨10, 2⟩ < 10 := hd
        rw [EvalM.deeper_eq _ hd]
        show EStateM.Result.ok _ ((σ.deeper _).atDepth _ _).world = _
        rw [EvalState.deeper_atDepth]
        exact congrArg (EStateM.Result.ok · σ.world) hread
      · next hd =>
        replace hd : ¬σ.world.depthAt ⟨10, 2⟩ < 10 := hd
        rw [EvalM.deeper_full _ hd]
        rfl

/-- What noting a line comes to, by the bound and by the depth that the listener has got to. -/
def Host.noted (n : Nat) (line : String) (w : World) : EStateM.Result Fault World Value :=
  let w := { w with log := w.log.push line }
  if n = 0 then .error .outOfFuel w
  else if n = 1 then .error .outOfFuel (w.grown #[.str line])
  else if w.depth.get 2 < 10 then .ok .unit (w.grown #[.str line])
  else .error (.tooDeep (w.depth.get 2) 10) (w.grown #[.str line])

theorem Host.callStatic_note {n k : Nat} {line : String} {w : World}
    (hf : w.functions[2]? = some (.interpreted .listener [] 10 none)) :
    Host.noting.callStatic (call .noting n) k .note [.str line] w = noted n line w := by
  show (HostProg.noting line).runStatic _ _ _ = _
  simp only [HostProg.noting, HostProg.runStatic, HostProg.run, HostOp.run, noted]
  rw [call_listener (w := { w with log := w.log.push line }) hf]
  by_cases h₀ : n = 0
  · simp only [if_pos h₀]
  by_cases h₁ : n = 1
  · simp only [if_neg h₀, if_pos h₁]
  by_cases hd : w.depth.get 2 < 10
  · simp only [if_neg h₀, if_neg h₁, if_pos hd]
    rfl
  · simp only [if_neg h₀, if_neg h₁, if_neg hd]
    rfl

theorem Host.noted_recast {n : Nat} {line : String} {w : World} (cells : Array Value)
    {depth : Depths} (hdepth : depth.get 2 = w.depth.get 2) :
    noted n line (w.recast cells depth) =
      recast (cells ++ if n = 0 then #[] else #[.str line]) depth (noted n line w) := by
  have hget : (w.recast cells depth).depth.get 2 = w.depth.get 2 := hdepth
  by_cases h₀ : n = 0
  · simp [noted, h₀, recast, World.recast]
  · simp only [noted, if_neg h₀, hget]
    split
    · rfl
    · split <;> rfl

theorem Host.noted_cases (n : Nat) (line : String) (w : World) :
    ∃ w', (noted n line w = .ok .unit w' ∨ ∃ f, noted n line w = .error f w') ∧
      w'.functions = w.functions := by
  simp only [noted]
  split
  · exact ⟨_, .inr ⟨_, rfl⟩, rfl⟩
  split
  · exact ⟨_, .inr ⟨_, rfl⟩, rfl⟩
  split
  · exact ⟨_, .inl rfl, rfl⟩
  · exact ⟨_, .inr ⟨_, rfl⟩, rfl⟩

theorem Method.note_args {args : List Value}
    (h : List.Forall₂ (fun v t => v.suits t = true) args Method.note.params) :
    (∃ line, args = [.str line]) ∨ args = [.null] := by
  cases h with
  | @cons v _ _ _ hv hrest =>
    cases hrest
    cases v with
    | str line => exact .inl ⟨line, rfl⟩
    | null => exact .inr rfl
    | _ => cases hv

/-- A line is noted and heard alike in worlds that differ in other cells and depths. -/
theorem Host.noting_serves : Host.noting.Serves
    (fun w => w.functions[2]? = some (.interpreted .listener [] 10 none)) (· = .note) .lines where
  good_recast _ _ h := h
  good_stamped _ h := h
  impartial := by
    rintro m args w n k cells depth rfl hf hargs hcounted
    obtain ⟨line, rfl⟩ | rfl := Method.note_args hargs
    · refine ⟨if n = 0 then #[] else #[.str line], ?_, ?_⟩
      · split <;> simp [Leeway.lines, Value.suits]
      · rw [callStatic_note hf, callStatic_note (w := w.recast cells depth) hf]
        exact noted_recast cells (hcounted 2 rfl)
    · exact ⟨#[], Leeway.lines.fresh_empty, by rw [Array.append_empty]; rfl⟩
  gives := by
    rintro m args w w' n k v rfl hf hargs hr
    obtain ⟨line, rfl⟩ | rfl := Method.note_args hargs
    · obtain ⟨w₁, hok | ⟨f, herr⟩, hsame⟩ := noted_cases n line w
      · rw [callStatic_note hf, hok] at hr
        cases hr
        exact ⟨hsame ▸ hf, rfl⟩
      · rw [callStatic_note hf, herr] at hr
        cases hr
    · cases hr
      exact ⟨hf, rfl⟩
  fails := by
    rintro m args w w' n k f rfl hf hargs hr
    obtain ⟨line, rfl⟩ | rfl := Method.note_args hargs
    · obtain ⟨w₁, hok | ⟨f, herr⟩, hsame⟩ := noted_cases n line w
      · rw [callStatic_note hf, hok] at hr
        cases hr
      · rw [callStatic_note hf, herr] at hr
        cases hr
        exact hsame ▸ hf
    · cases hr

theorem Lambda.crossing_tame :
    Lambda.crossing.Tame (fun _ => .i32) (fun _ => ⟨0, none, .i32⟩) (· = .note) where
  body := by
    -- What the tree is built from: numbers, lines for the log, and jumps to its label.
    have hint : ∀ {L : List Nat} (n : Int), Expr.Tame (fun _ => .i32) (fun _ => ⟨0, none, .i32⟩)
        (· = .note) L (.constant .i32 (.i32 n)) := fun n =>
      .constant (.num (.int .i32 (BitVec.ofInt _ n)))
    have hnote : ∀ {L : List Nat} (line : String), Expr.Tame (fun _ => .i32)
        (fun _ => ⟨0, none, .i32⟩) (· = .note) L
        (.call .void none .note [.constant .str (.str line)]) := fun line => by
      refine .call (m := .note) rfl rfl ?_ (.cons ⟨rfl, ?_⟩ .nil)
      · simpa using .constant (.str line)
      · simp [Ty.accepts, Expr.ty]
    have hjump : ∀ {L : List Nat} (n : Int), 0 ∈ L → Expr.Tame (fun _ => .i32)
        (fun _ => ⟨0, none, .i32⟩) (· = .note) L
        (.goto .void .ret ⟨0, none, .i32⟩ (some (.constant .i32 (.i32 n)))) := fun n h =>
      .goto h rfl (fun _ => ⟨rfl, by simp [Ty.accepts, Expr.ty]⟩) (by simpa using hint n)
    have hvar : ∀ {L : List Nat}, Expr.Tame (fun _ => .i32) (fun _ => ⟨0, none, .i32⟩) (· = .note)
        L (.var ⟨0, "x", .i32⟩) := .var rfl
    have hvoid : ∀ t, Ty.void.Takes t := fun _ h => by cases h
    have htest : Expr.Tame (fun _ => .i32) (fun _ => ⟨0, none, .i32⟩) (· = .note) [] (.binary .bool
        .equal (.binary .i32 .divide (.constant .i32 (.i32 10)) (.var ⟨0, "x", .i32⟩) none)
        (.constant .i32 (.i32 5)) none) :=
      .binary rfl (.binary rfl (hint 10) hvar rfl rfl (by cbv)) (hint 5) rfl rfl (by cbv)
    have hcleanup : ∀ {L : List Nat} (line : String) (c : Expr),
        Cleanup.finally (.call .void none .note [.constant .str (.str line)]) = .finally c ∨
          Cleanup.finally (.call .void none .note [.constant .str (.str line)]) = .fault c →
            c.Tame (fun _ => .i32) (fun _ => ⟨0, none, .i32⟩) (· = .note) L := by
      rintro L line c (h | h) <;> cases h
      exact hnote line
    refine .block (by simp) (by simp) ?_ (fun e he => ?_) (by simp)
    · simp only [List.mem_cons, List.not_mem_nil, or_false, forall_eq_or_imp, forall_eq]
      constructor
      · refine .protect (.protect ?_ (by simp) (by simp) (by simp) (by simp) (hcleanup "inner")) ?_
          (fun _ _ => hvoid _) (by simp [CatchClause.filter]) (by simp [CatchClause.var])
          (hcleanup "outer")
        · exact .conditional htest rfl (hjump 7 (by simp [Expr.ownLabels])) .default (hvoid _) (hvoid _)
        · simpa [CatchClause.body] using hjump (-1) (by simp [Expr.ownLabels])
      · exact .label rfl (fun _ => ⟨rfl, by simp [Ty.accepts, Expr.ty]⟩) (by simpa using hvar)
    · obtain rfl : _ = e := by simpa using he
      exact fun _ => ⟨rfl, by simp [Ty.accepts, Expr.ty]⟩
  ret := fun _ => ⟨rfl, by simp [Ty.accepts, Lambda.crossing, Lambda.ret, Lambda.body, Expr.ty]⟩
  params := by simp [Lambda.crossing, Lambda.params]
  placed := by decide
  constants := by
    rintro u v hu - - hne
    simp [Lambda.crossing, Lambda.mentions, Lambda.body, Expr.mentions, Expr.mentionsAll,
      Expr.mentionsHandlers, Expr.mentionsCleanup, Expr.mentionsOption] at hu
    rcases hu with rfl | rfl | rfl | rfl | rfl | rfl <;> exact absurd rfl hne

/-- The lambda and its compiled form, as functions, with the listener. -/
def World.crossing : World where
  functions := #[.compiled .crossing .empty, .interpreted .crossing [] 10 none,
    .interpreted .listener [] 10 none]

theorem compiled_call_agrees_crossing :
    compileLambda Host.noting.catalog .crossing {} = .ok (.compiled ⟨.crossing, .empty⟩, {}) ∧
      Host.noting.Returns 1 [.i32 0] .crossing (.ok (.i32 (-1))
        { World.crossing with
          log := #["inner", "outer"]
          store := { cells := #[.i32 0, .str "inner", .str "outer"], stamps := 1 } }) ∧
      ∃ lines : Array Value, (∀ v ∈ lines, v.suits .str = true) ∧
        Host.noting.Returns 0 [.i32 0] .crossing (.ok (.i32 (-1))
          { World.crossing with
            log := #["inner", "outer"]
            store := { cells := lines, stamps := 1 } }) := by
  have hcompiled : compileLambda Host.noting.catalog .crossing {} =
      .ok (.compiled ⟨.crossing, .empty⟩, {}) := by
    cbv
  have hevaluated : Host.noting.Returns 1 [.i32 0] .crossing (.ok (.i32 (-1))
      { World.crossing with
        log := #["inner", "outer"]
        store := { cells := #[.i32 0, .str "inner", .str "outer"], stamps := 1 } }) :=
    ⟨by simp [Bench.CutShort], 30, by cbv⟩
  refine ⟨hcompiled, hevaluated, ?_⟩
  have hargs : List.Forall₂ (fun (v : Var) (x : Value) => x.fits (Shape.of v.ty) = true)
      Lambda.crossing.params [.i32 0] := .cons rfl .nil
  obtain ⟨lines, hlines, hagree⟩ := compiled_call_agrees (w := .crossing) (f := 0) (g := 1)
    Host.noting_serves Lambda.crossing_tame hcompiled rfl rfl (by simp [Leeway.lines]) rfl hargs
    (by decide)
  have hreturns := (hagree _).2 ⟨_, hevaluated, rfl⟩
  rw [show World.crossing.store.cells ++ lines = lines by simp [World.crossing]] at hreturns
  exact ⟨lines, hlines, hreturns⟩

end TreeCode

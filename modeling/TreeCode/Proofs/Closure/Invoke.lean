import TreeCode.Proofs.Closure.Nested

/-!
# Calls in a unit

A function that evaluation calls is linked to one that the machines call. Where calls of
linked functions come to the same, up to a bound of evaluation, so does code that calls
them. Bounds of the machines only have to be large enough.

Main definitions:

* `Link.Passes` — arguments that stand for each other.
* `Answered` — calls of the machines come to what a call of evaluation comes to.
* `Answers` — linked functions do so, for a bound of evaluation.

Main results:

* `Loom.meets_called`, `Loom.agrees_invoke` — calls of function values agree.
* `Loom.agrees_woven` — **the code of woven code does what evaluating it does**.
-/

namespace TreeCode

open Draft Lower

namespace Machine

variable {m : Machine} {μ : MachineState} {n ref : Nat} {sig : Signature} {xs rest : List Value}

/-- A call of a function value, as an instruction. -/
theorem exec_invoke (hn : xs.length = n) (hμ : μ.stack = xs.reverse ++ .function ref sig :: rest) :
    m.exec (.invoke n) μ = μ.acted (fun v => [v]) rest (m.call ref xs μ.world) := by
  obtain ⟨w, p, stack, locals, q⟩ := μ
  have hpop := popMany_eq hn hμ
  show EStateM.bind (m.invoke n) _ _ = _
  simp only [EStateM.bind, invoke, bind, hpop, MachineM.pop, MachineM.ofRun]
  cases m.call ref xs w <;> rfl

/-- No function is there to be called. -/
theorem exec_invoke_null (hn : xs.length = n) (hμ : μ.stack = xs.reverse ++ .null :: rest) :
    m.exec (.invoke n) μ =
      μ.acted (fun v => [v]) rest ((RunM.raise .nullReference : RunM Value) μ.world) := by
  have hpop := popMany_eq hn hμ
  show EStateM.bind (m.invoke n) _ _ = _
  simp only [EStateM.bind, invoke, bind, hpop, MachineM.pop]
  rfl

end Machine

/-- A strict operator with a primitive form is primitive. -/
theorem Build.isPrimitive_of_strict {op : BinaryOp} {l r t : Ty} (hop : Walk.isStrict op = true)
    (h : primitiveType? op l r = some t) : op.isPrimitive = true := by
  cases op <;> first | rfl | simp [primitiveType?, Walk.isStrict] at h hop

/-- The type of woven code is woven. -/
theorem Expr.Woven.ty_woven {types : Nat → Ty} {e : Expr} (h : e.Woven types) : e.ty.Woven := by
  induction h with
  | constant ht _ => exact .scalar ht
  | default ht => exact ht
  | var _ ht => exact ht
  | unary _ hs hop hty _ =>
    obtain ⟨rfl, -, -⟩ := Build.unaryType_primitive hop hty
    exact .scalar hs
  | plus _ hty _ ih => exact hty ▸ ih
  | step _ _ hk => exact .scalar (hk ▸ .num _)
  | @binary t op l r _ _ _ _ hop hty _ _ =>
    exact .scalar (Build.primitiveType?_scalar hty (Build.isPrimitive_of_strict hop hty))
  | both _ _ _ _ _ _ _ => exact .scalar .bool
  | assign _ ht _ _ _ _ => exact ht
  | conditional _ _ _ _ ht _ _ _ _ _ => exact ht
  | block ht _ _ _ _ _ => exact ht
  | lambda hparams hret _ _ _ =>
    refine .function (fun p hp => ?_) hret
    obtain ⟨v, hv, rfl⟩ := List.mem_map.1 hp
    exact (hparams v hv).2
  | invoke _ hty _ _ ih _ =>
    rw [hty] at ih
    cases ih with
    | scalar h => cases h
    | function _ hr => exact hr

namespace Closure

/-! ## Calls of linked functions -/

/-- Arguments for parameters of some types stand for each other, and have the shapes that the
machines ask for. -/
inductive Link.Passes (a : Link) : List Ty → List Value → List Value → Prop
  | nil : a.Passes [] [] []
  | cons {t : Ty} {ts : List Ty} {x x' : Value} {xs xs' : List Value} (h : a.Fits t x x')
    (hshape : x'.fits (Shape.of t) = true) (hs : a.Passes ts xs xs') :
    a.Passes (t :: ts) (x :: xs) (x' :: xs')

/-- Calls of the machines come to what a call of evaluation in the world `w` comes to, bounds
above some given. Nothing is said where evaluation meets its limits. -/
def Answered (Z : Setting) (a : Link) (w : World) (t : Ty) (r : EStateM.Result Fault World Value)
    (calls : Nat → EStateM.Result Fault World Value) : Prop :=
  match r with
  | .ok v w₁ => ∃ b v' w₁', a.Le b ∧ (b.Same v v' ∧ v.Sits t) ∧ Agree Z b w₁ w₁' ∧ a.Keeps w w₁ ∧
    ∃ N, ∀ k, N ≤ k → calls k = .ok v' w₁'
  | .error f w₁ => (f = .outOfFuel ∨ ∃ d m, f = .tooDeep d m) ∨
    ∃ b w₁', a.Le b ∧ Agree Z b w₁ w₁' ∧ ∃ N, ∀ k, N ≤ k → calls k = .error f w₁'

/-- Calls of functions that are linked come to the same, for a bound of evaluation. -/
def Answers (Z : Setting) (n : Nat) : Prop :=
  ∀ ⦃a w w' f f' sig xs xs'⦄, Agree Z a w w' → a.functions f = some (f', sig) →
    a.Passes sig.params xs xs' →
    Answered Z a w sig.ret (call Z.host n f xs w) fun k => call Z.host k f' xs' w'

namespace Loom

variable {Z : Setting} {X : Loom Z} {G : Frame} {a : Link} {σ : EvalState} {μ : MachineState}
  {s s' : Draft} {st : List Value}

/-- What the parts of a call evaluate to may be passed. -/
theorem passes {ps : List Ty} {es : List Expr} {xs xs' : List Value}
    (h : X.pact.FitsAll a (es.map (·.ty)) xs xs') (hps : ∀ p ∈ ps, p.Woven)
    (hfits : List.Forall₂ (fun p e => e.ty.isVoid = false ∧ p.accepts e.ty = true) ps es) :
    a.Passes ps xs xs' := by
  induction hfits generalizing xs xs' with
  | nil =>
    cases h
    exact .nil
  | @cons p e ps es hpe _ ih =>
    cases h with
    | cons hx hs =>
      obtain ⟨hvoid, hacc⟩ := hpe
      have hp : p.isVoid = false := by
        cases p with
        | void => cases hty : e.ty <;> simp_all [Ty.accepts, Ty.isVoid]
        | _ => rfl
      have hfit : a.Fits p _ _ := Link.Fits.accepts hx (hps p (by simp)) hvoid hacc
      exact .cons hfit (hfit.shape (hps p (by simp)) hp) (ih hs fun p hp => hps p (by simp [hp]))

/-- Calls of linked functions agree. The machines have the function on the stack, below the
arguments; they leave the result, or drop it as the usage says. -/
theorem meets_called {ps : List Ty} {t : Ty} {f : Usage} {g g' : Nat} {xs xs' : List Value}
    (hcall : Answers Z X.bound) (hF : (s.emitted (.invoke xs'.length)).Leads X.final)
    (hdrop : dropWhen (f.discarded || t.isVoid) X.env (s.emitted (.invoke xs'.length)) = .ok ((), s'))
    (hF' : s'.Leads X.final) (hused : t.isVoid = true → f.discarded = true)
    (hlink : a.functions g = some (g', ⟨ps, t⟩)) (hpass : a.Passes ps xs xs')
    (hold : X.Holds G a σ μ) :
    X.pact.Meets a (μ.movedTo s.instrs.size (xs'.reverse ++ .function g' ⟨ps, t⟩ :: st))
      (EvalM.ofRun (call Z.host X.bound g xs) σ) (X.pact.Gives G a f t s' st) := by
  have hanswer := hcall hold.agree hlink hpass
  cases hr : call Z.host X.bound g xs σ.world with
  | error e w =>
    rw [hr] at hanswer
    rw [show EvalM.ofRun (call Z.host X.bound g xs) σ = .error (.fault e) { σ with world := w } by
      simp only [EvalM.ofRun, hr]]
    refine hanswer.imp_right ?_
    rintro ⟨b, w', hab, hagree, N, hmachine⟩
    -- The instruction fails as the call does.
    have hfails : Fails X.pact.machines
        (μ.movedTo s.instrs.size (xs'.reverse ++ .function g' ⟨ps, t⟩ :: st)) e (·.world = w') := by
      refine .instrFrom X.follows hF rfl N (fun k hk => ?_)
        (rfl : (({ μ with world := w' } : MachineState).movedTo
          (s.emitted (.invoke xs'.length)).instrs.size st).world = w')
      exact (Machine.exec_invoke rfl rfl).trans (congrArg (MachineState.acted _ _ st) (hmachine k hk))
    exact hfails.mono fun μ' hμ' => ⟨b, hab, hμ' ▸ hagree⟩
  | ok v w =>
    rw [hr] at hanswer
    rw [show EvalM.ofRun (call Z.host X.bound g xs) σ = .ok v { σ with world := w } by
      simp only [EvalM.ofRun, hr]]
    obtain ⟨b, v', w', hab, hfit, hagree, hkeeps, N, hmachine⟩ := hanswer
    have hcalled : Comes X.pact.machines (μ.movedTo s.instrs.size (xs'.reverse ++ .function g' ⟨ps, t⟩ :: st))
        (· = ({ μ with world := w' } : MachineState).movedTo
          (s.emitted (.invoke xs'.length)).instrs.size (v' :: st)) := by
      refine .instrFrom X.follows hF rfl N (fun k hk => ?_) (.here rfl)
      exact (Machine.exec_invoke rfl rfl).trans (congrArg (MachineState.acted _ _ st) (hmachine k hk))
    refine Comes.bind hcalled ?_
    rintro _ rfl
    refine (dropWhen_comes X.follows hdrop hF').mono ?_
    rintro _ rfl
    refine ⟨b, v', hab, fun _ => .inr hfit,
      X.pact.holds_moved _ _ (hold.grow hab hagree hkeeps), rfl, ?_⟩
    cases hd : f.discarded with
    | true => simp [Usage.pushed, hd]
    | false =>
      -- Unit is always dropped, so there is a value.
      have hvoid : t.isVoid = false := by
        rw [← Bool.not_eq_true]
        intro hvoid
        rw [hused hvoid] at hd
        cases hd
      simp [Usage.pushed, hd, hvoid]

theorem agrees_invoke {ps : List Ty} {t : Ty} {target : Expr} {args : List Expr}
    (hcall : Answers Z X.bound) (At : X.pact.Agrees target) (hty : target.ty = .function ps t)
    (Aa : ∀ e ∈ args, X.pact.Agrees e) (hneatt : target.Neat) (hneata : ∀ e ∈ args, e.Neat)
    (hps : ∀ p ∈ ps, p.Woven)
    (hfits : List.Forall₂ (fun p e => e.ty.isVoid = false ∧ p.accepts e.ty = true) ps args) :
    X.pact.Agrees (.invoke t target args) := by
  refine Pact.agrees_of_node ?_
  intro f s s' G a n σ μ st hlow S _ hused hroom hold
  -- The code pushes the function and the arguments, calls, and drops what is not used.
  have hlow : (do
      target.part.emit f.operand
      Part.pushAll (Expr.parts args) f
      emit (.invoke (Expr.parts args).length)
      dropWhen (f.discarded || t.isVoid) : LowerM Unit) X.pact.env s = .ok ((), s') := hlow
  replace hused : t.isVoid = true → f.discarded = true := hused
  simp only [bind_ok, emit_ok, Expr.parts_length] at hlow
  obtain ⟨_, s₁, htarget, _, s₂, hargs, _, _, rfl, hdrop⟩ := hlow
  have h₁ := Pact.emit_step htarget hneatt S.sound
  have hs₁ := h₁.stage.sound S.sound
  have h₂ := Pact.pushAll_step hargs hneata hs₁
  have h₃ := Step.emitted (c := True) (N := .blank) s₂ (.invoke args.length)
  have h₄ := Pact.dropWhen_step hdrop (h₃.stage.sound (h₂.stage.sound hs₁))
  have hF : (s₂.emitted (.invoke args.length)).Leads X.final := h₄.stage.leads.trans S.leads
  have hvoid : ∀ e ∈ args, e.ty.isVoid = false := by
    intro e he
    obtain ⟨i, hi, rfl⟩ := List.getElem_of_mem he
    have hlen := hfits.length_eq
    exact (hfits.get (by omega) hi).1
  show X.pact.Meets a _ (((X.pact.walk n).valueOf target >>= fun callee =>
    (X.pact.walk n).valuesOf args >>= fun xs => _) σ) _
  refine (At htarget (S.start (h₂.comp (h₃.comp h₄))) rfl (by simp [hty, Ty.isVoid])
    (hroom _ (by simp [Expr.height])) hold).bind fun callee σ₁ μ₁ hx hcallee => ?_
  obtain ⟨b, callee', hab, hfit, hold₁, hp, hst⟩ := hcallee
  rw [← Pact.movedTo_eq hp hst]
  refine ((Pact.meets_values (fun e he => ⟨Aa e he, hvoid e he⟩) hneata hargs
    ((S.rest h₁).start (h₃.comp h₄)) (fun e he => ((hroom (Expr.heightAll args)
      (by simp [Expr.height])).le (Expr.height_le_heightAll he)).later (Pact.eval_depth hx))
    hold₁).weaken hab).bind ?_
  rintro xs σ₂ μ₂ - ⟨c, xs', hbc, hfits', hold₂, hμ₂⟩
  rw [hμ₂]
  replace hold₂ : X.Holds G c σ₂ μ₂ := hold₂
  have hlen : xs'.length = args.length := by simpa using hfits'.length.2
  rw [← hlen] at hF hdrop
  have hfit : c.Fits (.function ps t) callee callee' := hty ▸ Link.Fits.mono (hfit fun h => by cases h) hbc
  refine Pact.Meets.weaken ?_ (Link.Le.trans hab hbc)
  rcases hfit.function_cases with ⟨rfl, rfl⟩ | ⟨g, g', rfl, rfl, hlink⟩
  · -- There is no function to call.
    show X.pact.Meets c (μ₂.movedTo s₂.instrs.size (xs'.reverse ++ .null :: st))
      (EvalM.ofRun (RunM.ofOp (id <$> .error (.raises .nullReference))) σ₂) _
    refine (Pact.meets_operated id hF rfl (fun k p => Machine.exec_invoke_null rfl rfl) hold₂).mono ?_
    rintro _ _ _ ⟨v, hv, -⟩
    cases hv
  · refine (meets_called hcall hF hdrop S.leads hused hlink (passes hfits' hps hfits) hold₂).mono ?_
    rintro v σ₃ μ₃ ⟨d, v', hcd, hgiven⟩
    exact ⟨d, v', Link.Le.trans (Link.Le.trans hab hbc) hcd, hgiven⟩

/-! ## Woven code -/

section Woven

variable {t u : Ty} {e : Expr}

/-- Scalars stand for themselves only. -/
theorem exact_scalar (ht : t.Scalar) : X.pact.Exact t := fun _ _ _ => Link.Fits.scalar_iff ht

theorem takes (ht : t.Woven) (h : t.Takes u) : X.pact.Takes t u := by
  intro hvoid
  obtain ⟨hu, hacc⟩ := h hvoid
  exact ⟨hu, Ty.Takes.isReference ht hacc, fun _ _ _ hfit => Link.Fits.accepts hfit ht hu hacc⟩

/-- **The code of woven code does what evaluating it does**, for its value and as a test, if
calls of linked functions do. The lambdas that it mentions are those of the setting. -/
theorem agrees_woven (hcall : Answers Z X.bound) (h : e.Woven Z.types) {D : List Nat}
    (hin : ∀ D' l, .lambda D' l ∈ e.mentions D → Z.root.Nests l) :
    X.pact.Agrees e ∧ (e.ty = .bool → X.pact.Tests e) := by
  -- A node without code of its own for tests is tested by its value.
  have hleaf : ∀ {e : Expr}, e.Woven Z.types → e.part.branch = Part.branchOnValue e.part.emit →
      X.pact.Agrees e → X.pact.Agrees e ∧ (e.ty = .bool → X.pact.Tests e) :=
    fun he hbranch A => ⟨A, fun hty => .of_value A hty he.neat hbranch⟩
  induction h generalizing D with
  | @constant t v ht hv =>
    obtain ⟨hid, hfaithful⟩ := ht.literal hv
    exact hleaf (.constant ht hv) rfl (Pact.agrees_constant hid hfaithful fun _ =>
      (exact_scalar ht).2 ⟨rfl, hv⟩)
  | default ht => exact hleaf (.default ht) rfl (Pact.agrees_default fun _ => .default ht)
  | var hv ht => exact hleaf (.var hv ht) rfl (Pact.agrees_var (reads hv))
  | @unary t op e he hs hop hty ih =>
    obtain ⟨A, T⟩ := ih hin
    have A' : X.pact.Agrees (.unary t op e none) :=
      Pact.agrees_unary A (exact_scalar hs) he.neat hop hty
    by_cases hnot : op = .not ∧ t = .bool
    · -- A negation is the test of its operand the other way round.
      obtain ⟨rfl, rfl⟩ := hnot
      obtain ⟨hte, -, -⟩ := Build.unaryType_primitive hop hty
      exact ⟨A', fun _ => Pact.tests_not (T hte.symm)⟩
    · refine hleaf (.unary he hs hop hty) ?_ A'
      have hplain : ¬(decide (op = .not) && (none : Option Method).isNone && decide (t = .bool)) = true := by
        simpa using hnot
      rw [Expr.part]
      simp only [if_neg hplain, Part.plain, Part.branch, Part.emit]
  | plus he hty hvoid ih =>
    exact hleaf (.plus he hty hvoid) rfl (Pact.agrees_unaryPlus (ih hin).1 hty hvoid)
  | @step v op k hop hv hk =>
    have hex : X.pact.Exact v.ty := exact_scalar (hk ▸ .num k)
    refine hleaf (.step hop hv hk) ?_ (Pact.agrees_step hop (writes hv) (reads hv) hex hk)
    cases op <;> first | rfl | cases hop
  | @binary t op l r hl hr hsl hsr hop hty ihl ihr =>
    have hsub := fun D' k hk => hin D' k (List.mem_append.2 hk)
    -- A strict operator is primitive, so its result is a scalar and held exactly.
    have hprim := Build.isPrimitive_of_strict hop hty
    have hex : X.pact.Exact t := exact_scalar (Build.primitiveType?_scalar hty hprim)
    refine hleaf (.binary hl hr hsl hsr hop hty) ?_ (Pact.agrees_binary (ihl fun D' k hk => hsub D' k (.inl hk)).1
      (ihr fun D' k hk => hsub D' k (.inr hk)).1 (exact_scalar hsl) (exact_scalar hsr) hex hl.neat
      hr.neat ⟨hsl.plain, hsr.plain⟩ ⟨hsl.not_void, hsr.not_void⟩ hty hop)
    cases op <;> first | rfl | cases hprim
  | both isAnd hl hr htyl htyr ihl ihr =>
    have hsub := fun D' k hk => hin D' k (List.mem_append.2 hk)
    obtain ⟨Al, Tl⟩ := ihl fun D' k hk => hsub D' k (.inl hk)
    obtain ⟨Ar, Tr⟩ := ihr fun D' k hk => hsub D' k (.inr hk)
    exact ⟨Pact.agrees_both Al (Tl htyl) Ar htyl htyr hl.neat hr.neat,
      fun _ => Pact.tests_both (Tl htyl) (Tr htyr) hl.neat hr.neat⟩
  | assign hv ht he hvoid hty ih =>
    have A := (ih fun D' k hk => hin D' k (List.mem_append.2 (.inr hk))).1
    exact hleaf (.assign hv ht he hvoid hty) rfl
      (Pact.agrees_assign (writes hv) A (takes ht hty) hvoid he.neat)
  | conditional hc hl hr hty ht htyl htyr ihc ihl ihr =>
    have hsub := fun D' k hk => hin D' k (List.mem_append.2 hk)
    have Tc := (ihc fun D' k hk => hsub D' k (.inl hk)).2 hty
    have Al := (ihl fun D' k hk => hsub D' k (.inr (List.mem_append.2 (.inl hk)))).1
    have Ar := (ihr fun D' k hk => hsub D' k (.inr (List.mem_append.2 (.inr hk)))).1
    exact hleaf (.conditional hc hl hr hty ht htyl htyr) rfl (Pact.agrees_conditional Tc Al Ar
      (takes ht htyl) (takes ht htyr) hc.neat hl.neat hr.neat)
  | @block t vars body ht hvars hdistinct hbody hty ih =>
    have A : ∀ e ∈ body, X.pact.Agrees e := fun e he => (ih e he fun D' k hk =>
      hin D' k (List.mem_cons_of_mem _ (Expr.mem_mentionsAll.2 ⟨e, he, hk⟩))).1
    have hlast := fun hvoid => (hty hvoid).imp fun e (he : _ ∧ _) => And.intro he.1 (takes (X := X) ht he.2)
    exact hleaf (.block ht hvars hdistinct hbody hty) rfl (Pact.agrees_block (opens hvars) A
      (fun e he => (hbody e he).neat) (.inl rfl) hlast)
  | @lambda l hparams hret hty hbody _ =>
    exact hleaf (.lambda hparams hret hty hbody) rfl (agrees_lambda (hin D l (.head _)))
  | @invoke ps t target args htarget hty hargs hfits iht iha =>
    have hsub := fun D' k hk => hin D' k (List.mem_append.2 hk)
    have At := (iht fun D' k hk => hsub D' k (.inl hk)).1
    have Aa : ∀ e ∈ args, X.pact.Agrees e := fun e he =>
      (iha e he fun D' k hk => hsub D' k (.inr (Expr.mem_mentionsAll.2 ⟨e, he, hk⟩))).1
    -- What is invoked is woven, and so are the types of its parameters.
    have hps : ∀ p ∈ ps, p.Woven := by
      have hwoven := htarget.ty_woven
      rw [hty] at hwoven
      cases hwoven with
      | scalar h => cases h
      | function hps _ => exact hps
    exact hleaf (.invoke htarget hty hargs hfits) rfl (agrees_invoke hcall At hty Aa htarget.neat
      (fun e he => (hargs e he).neat) hps hfits)

end Woven

end Loom

end Closure

end TreeCode

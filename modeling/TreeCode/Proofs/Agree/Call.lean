import TreeCode.Proofs.Agree.Operator

/-!
# Calls of static methods

Both runs hand the same arguments to the same method of the host; what the host
does with them is for `Bench.Ready.static` to say.

Main results:

* `Span.pushAll` — arguments are evaluated from left to right.
* `agrees_call` — calls of methods without a receiver.
-/

namespace TreeCode

open Draft Lower

variable {J : Discipline} {X : Bench J} {G G' : Frame} {a b : J.State} {σ σ' : EvalState}
  {μ μ' : MachineState} {s s' t t' : Draft} {st st' : List Value} {pd : List Pending}
  {L L' P P₁ P₂ P₃ I₁ I₃ : List Nat} {g : Bool} {u : Unit} {f : Usage} {n : Nat} {ty : Ty}

/-! ## Arguments -/

theorem pushAll_step {args : List Expr} (hs : s.Sound) (hplain : Expr.PlainAll X.names args)
    (h : Part.pushAll (Expr.parts args) f X.env s = .ok (u, s')) :
    Step True X.names (Expr.placedAll args) [] s s' :=
  ((acts_rule (Expr.PlainAll X.names args) X.names _).pushAll (J := []) (Γ := [])
    ((acts_rule _ _ _).parts args [] (Expr.mentionsAll_suit X.names args []))).stepped h hs hplain

/-- An argument may be handed to a parameter. -/
structure Argument (X : Bench J) (t : Ty) (e : Expr) : Prop where
  agrees : Agrees X [] e
  valued : e.ty.isVoid = false
  fits : t.accepts e.ty = true

/-- The arguments of a call are evaluated above operands that are pending. -/
theorem Span.pushAll {args : List Expr} {params : List Ty} {o : List Value}
    (S : Span X P L g s s' G pd)
    (hlow : Part.pushAll (Expr.parts args) f X.env t = .ok (u, t')) (hg : f.guarded = g)
    (A : List.Forall₂ (Argument X) params args) (hplain : Expr.PlainAll X.names args)
    (h₁ : Step True X.names P₁ I₁ s t) (h₃ : Step True X.names P₃ I₃ t' s')
    (hsub : (P₁ ++ Expr.placedAll args).Sublist P)
    (hdepth : ∀ e ∈ args, G.depth + e.height ≤ X.gauge.max) (hpace : ∀ e ∈ args, X.Paced n e)
    (hst : Stands X G b σ t (o ++ st) pd μ) (hab : J.le a b) :
    X.Meets μ ((X.walk n).valuesOf args σ) (fun vs σ' μ' => ∃ d, J.le b d ∧
      List.Forall₂ (J.has d) vs params ∧ Stands X G d σ' t' (vs.reverse ++ (o ++ st)) pd μ')
      (Out X L' s s' G pd st a) := by
  -- By induction on the arguments: those evaluated so far are below, in reverse.
  induction A generalizing t b σ μ o P₁ I₁ with
  | nil =>
    obtain ⟨-, rfl⟩ := pure_ok.1 hlow
    exact .pure ⟨b, J.le_refl b, .nil, hst⟩
  | @cons ty e params args hArg A ih =>
    simp only [Expr.parts, Part.pushAll, bind_ok] at hlow
    obtain ⟨_, t₁, he, hrest⟩ := hlow
    have hs := h₁.stage.sound S.sound
    have h₂ := Expr.emit_step he hplain.1 hs
    have h₄ := pushAll_step (h₂.stage.sound hs) hplain.2 hrest
    have hsub' : (P₁ ++ (e.placed ++ Expr.placedAll args)).Sublist P := hsub
    have O : OperandAt X P L g s s' G pd P₁ t G n e :=
      S.operand hArg.agrees hplain.1 hArg.valued h₁
        (((List.Sublist.refl P₁).append (List.sublist_append_left _ _)).trans hsub')
        (hdepth e (by simp)) (hpace e (by simp))
    show X.Meets μ (((X.walk n).valueOf e >>= fun v =>
      (X.walk n).valuesOf args >>= fun vs => pure (v :: vs)) σ) _ _
    refine (O.eval he hg (h₄.comp h₃) hst hab).bind (fun _ _ _ h => h) fun v σ₁ μ₁ hv => ?_
    obtain ⟨d, hbd, hhas, hst₁⟩ := hv
    -- The value stays on the stack while the rest is evaluated.
    have hrun := ih (o := v :: o) hrest hplain.2 (h₁.comp h₂) (by simpa using hsub')
      (fun e he => hdepth e (by simp [he])) (fun e he => hpace e (by simp [he])) hst₁
      (J.le_trans hab hbd)
    refine hrun.bind (fun _ _ _ h => h) fun vs σ₂ μ₂ hvs => ?_
    obtain ⟨d', hdd, hall, hst₂⟩ := hvs
    refine .pure ⟨d', J.le_trans hbd hdd, .cons ?_ hall, by simpa using hst₂⟩
    exact J.has_mono hdd (J.accepts_has hArg.fits hArg.valued hhas)

/-! ## Calls -/

/-- The instruction of a call stands for the call. -/
theorem Bench.Ready.exec_call (R : X.Ready) {m : Method} {index : Nat} {args rest : List Value}
    (hm : X.final.methods[index]? = some m) (hstatic : m.isStatic = true)
    (hlen : args.length = m.arity) (hμ : μ.stack = args.reverse ++ rest) :
    X.machine.exec (.call index) μ =
      μ.acted (fun v => if m.ret.isVoid then [] else [v]) rest
        (X.machine.host.callStatic X.machine.call X.machine.fuel m args μ.world) :=
  Machine.exec_call (R.methods ▸ hm) hstatic hlen hμ

theorem agrees_call {m : Method} {args : List Expr} (hcall : X.callable m)
    (hstatic : m.isStatic = true) (A : List.Forall₂ (Argument X) m.params args)
    (hty : ty = m.ret) : Agrees X L (.call ty none m args) := by
  subst hty
  refine Agrees.of_node ?_
  intro f s s' G pd st a n σ μ S hst hpace hdepth
  have R := S.span.ready
  have hlow : (do
      Part.pushAll (Expr.parts args) f
      callMethod m false
      dropWhen (f.discarded && !m.ret.isVoid) : LowerM Unit) X.env s = .ok ((), s') := S.lowered
  simp only [callMethod, bind_ok, emit_ok, Bool.false_eq_true, if_false] at hlow
  obtain ⟨_, s₁, hargs, _, _, ⟨index, s₂, hentry, rfl⟩, hdrop⟩ := hlow
  have hplain : True ∧ Expr.PlainAll X.names args := S.plain
  -- The code: arguments, entry of the method table, call, and the drop of an unused value.
  have h₁ := pushAll_step S.span.sound hplain.2 hargs
  have hs₁ := h₁.stage.sound S.span.sound
  obtain ⟨htab, hmethod⟩ := methodEntry_ok hentry
  have h₂ : Step True X.names [] [] s₁ s₂ := htab.quiet.step htab.same
  have h₃ : Step True X.names [] [] s₂ (s₂.emitted (.call index)) := .emitted ..
  have hdrop' : Step True X.names [] [] (s₂.emitted (.call index)) s' :=
    dropWhen_acts.stepped hdrop (h₃.stage.sound (h₂.stage.sound hs₁)) trivial
  have hh : (Expr.call m.ret none m args).height = Expr.heightAll args + 1 := by
    simp [Expr.height, Expr.heightOption]
  show X.Meets μ (((X.walk n).valuesOf args >>= fun vs =>
    EvalM.ofRun ((X.walk n).callStatic m vs)) σ) _ _
  refine (S.span.pushAll (o := []) hargs rfl A hplain.2 (.nil s) (h₂.comp (h₃.comp hdrop'))
    (by simp [Expr.placed, Expr.placedOption])
    (fun e he => by have := Expr.height_le_heightAll he; omega)
    (fun e he => hpace.part (by
      have := List.sizeOf_lt_of_mem he
      simp only [Expr.call.sizeOf_spec]
      omega)) hst (J.le_refl a)).bind (fun _ _ _ h => h) fun vs σ₁ μ₁ hvs => ?_
  obtain ⟨b, hab, hall, hst₁⟩ := hvs
  have hst₂ : Stands X G b σ₁ s₂ (vs.reverse ++ ([] ++ st)) pd μ₁ :=
    -- The arguments are on the stack, the last one on top, where the call finds them.
    ⟨hst₁.holds, hst₁.place.tabled htab⟩
  have hmethod' := (h₃.comp hdrop').stage.leads.trans S.span.leads |>.methods index m hmethod
  have hlen : vs.length = m.arity := hall.length_eq
  refine (S.span.act (i := .call index) (o := []) (T := fun d v => J.has d v m.ret) _
    (fun v => if m.ret.isVoid then [] else [v]) (h₁.comp h₂) hdrop' hst₂ hab
    (fun _ _ _ h => h) rfl (fun _ _ _ => rfl)
    (R.static hcall hpace.fuelled hst₁.holds.good hst₁.holds.depth hst₁.holds.world hall)
    (fun μ hμ => R.exec_call hmethod' hstatic hlen hμ) (fun v => ?_)).after
    fun v σ' μ' hv => ?_
  · cases hv : m.ret.isVoid with
    | true => simp [effectOf, hmethod, hstatic, hv, hlen]
    | false =>
      simp [effectOf, hmethod, hstatic, hv, hlen]
      omega
  · obtain ⟨d, hbd, hhas, hst'⟩ := hv
    -- A method without a value leaves nothing to drop, and its node is never used.
    have hfinish : X.Reaches μ' (Stands X G d σ' s' (f.pushed v st) pd) := by
      cases hv : m.ret.isVoid with
      | true =>
        have hd : f.discarded = true := S.used hv
        simp only [hv, Bool.not_true, Bool.and_false] at hdrop
        obtain ⟨-, rfl⟩ := pure_ok.1 hdrop
        simpa [hv, Usage.pushed, hd] using Bench.Reaches.here hst'
      | false =>
        simp only [hv, Bool.false_eq_true, if_false] at hst'
        simpa [hv, Usage.pushed] using R.dropWhen hst' hdrop S.span.leads
    exact hfinish.mono fun μ' h => ⟨d, J.le_trans hab hbd, hhas, h⟩

end TreeCode

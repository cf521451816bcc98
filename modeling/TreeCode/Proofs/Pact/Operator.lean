import TreeCode.Proofs.Agree.Conversion
import TreeCode.Proofs.Operator.Typing
import TreeCode.Proofs.Pact.Value

/-!
# Operators

Values of exact types stand for themselves, so both runs apply a primitive operator to
the same operands. The machine converts the left operand before the right one is
evaluated, direct evaluation converts both afterwards; conversions of numbers never fail,
so the order does not show.

Main definitions:

* `Pact.Exact` — only a value itself stands for it.
* `Pact.Combined` — the operator was applied.

Main results:

* `Pact.meets_operandOf` — an operand in the kind of an operation.
* `Pact.meets_direct`, `Pact.meets_converted` — operators on operands as they are, and on
  operands in the kind of the operation.
-/

namespace TreeCode

open Draft Lower

/-! ## Instructions -/

/-- A failure of an operator depends on the number of the next exception only. -/
theorem RunM.ofOp_error (e : OpError) (k : Nat) : ∃ f n, ∀ (α : Type) (w : World),
    w.store.stamps = k → RunM.ofOp (α := α) (.error e) w = .error f (w.stamped n) := by
  cases e with
  | raises e =>
    refine ⟨.thrown (.exception k e), k + 1, fun α w hw => ?_⟩
    subst hw
    rfl
  | defect d => exact ⟨.defect d, k, fun α w hw => by subst hw; rfl⟩
  | outOfTable => exact ⟨.outOfTable, k, fun α w hw => by subst hw; rfl⟩
  | outOfFuel => exact ⟨.outOfFuel, k, fun α w hw => by subst hw; rfl⟩

section Families

variable {M : Nat → Machine} {F s s' : Draft} {env : LowerEnv} {μ : MachineState} {u : Unit}
  {v : Value} {w : List Value} {k k' : NumKind} {ty : Ty} {f : Usage}

/-- An operand is converted to the kind of an operation. -/
theorem asKind_comes (R : ∀ k, (M k).Follows F) (hs : s.Sound)
    (hlow : asKind ty k f env s = .ok (u, s')) (hF : s'.Leads F)
    (hk : ty.liftedNumKind? = some k') (hv : Typing.bare.Fits v ty)
    (hchecked : f.checked = true → v.isNull = false) :
    ∃ v', Operator.asKind v k = .ok v' ∧
      Comes M (μ.movedTo s.instrs.size (v :: w)) (· = μ.movedTo s'.instrs.size (v' :: w)) := by
  have hcases := hv.lifted_inv hk
  simp only [asKind, ite_ok, pure_ok, emit_ok] at hlow
  rcases hlow with ⟨heq, -, rfl⟩ | ⟨hne, ⟨hnull, hlow⟩ | ⟨hnull, rfl⟩⟩
  · obtain rfl : k' = k := by simpa [hk] using heq
    refine ⟨v, ?_, .here rfl⟩
    rcases hcases with ⟨rfl, -⟩ | ⟨n, rfl, rfl⟩
    · rfl
    · rw [Operator.asKind_num_eq, Num.convert_self]
  · exact convertUnlessNull_comes R hs hlow hF (hcases.imp And.left fun ⟨n, h, _⟩ => ⟨n, h⟩)
  · rcases hcases with ⟨rfl, hn⟩ | ⟨n, rfl, -⟩
    · simp only [hn, Bool.true_and, Bool.not_eq_true', Bool.not_eq_false] at hnull
      cases hchecked hnull
    · exact ⟨_, Operator.asKind_num_eq n k, convert_comes R hF n⟩

end Families

namespace Pact

variable {P : Pact} {σ σ' : EvalState} {G : P.Frame} {a b : P.State} {μ μ' : MachineState}
  {s s' t t' : Draft} {st st₀ : List Value} {i : Instr}

/-- An instruction that stands for an operator. -/
theorem meets_operated {β : Type} {x : Except OpError Value} (g : Value → β)
    (hF : (t.emitted i).Leads P.final) (hi : i.target? = none)
    (hexec : ∀ k p, (P.machines k).exec i (μ.movedTo p st₀) =
      (μ.movedTo p st₀).acted (fun v => [v]) st (RunM.ofOp x μ.world))
    (hold : P.holds G a σ μ) :
    P.Meets a (μ.movedTo t.instrs.size st₀) (EvalM.ofRun (RunM.ofOp (g <$> x)) σ)
      fun y σ' μ' => ∃ v, x = .ok v ∧ y = g v ∧ σ' = σ ∧
        μ' = μ.movedTo (t.emitted i).instrs.size (v :: st) := by
  cases x with
  | ok v =>
    have hcomes : Comes P.machines (μ.movedTo t.instrs.size st₀)
        (· = μ.movedTo (t.emitted i).instrs.size (v :: st)) := .carry P.follows hF hi hexec
    exact hcomes.mono fun _ hμ => ⟨v, rfl, rfl, rfl, hμ⟩
  | error e =>
    obtain ⟨f, n, hfail⟩ := RunM.ofOp_error e σ.world.store.stamps
    have heval : EvalM.ofRun (RunM.ofOp (g <$> Except.error e)) σ =
        .error (.fault f) { σ with world := σ.world.stamped n } := by
      show EvalM.ofRun (RunM.ofOp (.error e)) σ = _
      simp only [EvalM.ofRun, hfail _ _ rfl]
    rw [heval]
    obtain ⟨b, hab, hb⟩ := P.broken_stamped n hold
    have hfails : Fails P.machines (μ.movedTo t.instrs.size st₀) f
        (·.world = μ.world.stamped n) :=
      .instr P.follows hF hi (fun k => (hexec k _).trans (by rw [hfail _ _ (P.stamps hold)]; rfl)) rfl
    exact .inr (hfails.mono fun μ' hμ => ⟨b, hab, by rw [hμ]; exact hb⟩)

/-! ## Operands -/

variable (P) in
/-- Only a value itself stands for it. -/
def Exact (t : Ty) : Prop :=
  ∀ ⦃a : P.State⦄ ⦃v v' : Value⦄, P.fits a t v v' ↔ v = v' ∧ Typing.bare.Fits v t

variable {c : Expr} {n : Nat} {f : Usage} {u : Unit} {k k' : NumKind} {ty : Ty} {env : LowerEnv}

theorem asKind_step (hs : s.Sound) (h : asKind ty k f env s = .ok (u, s')) :
    Step True .blank [] [] s s' :=
  ((acts_rule True .blank []).asKind (D := []) (J := []) (Γ := [])).stepped h hs trivial

theorem operandOf_step {c : Expr} (hs : s.Sound) (hneat : c.Neat)
    (h : operandOf c.part k f env s = .ok (u, s')) : Step True .blank [] [] s s' :=
  ((acts_rule True .blank []).operandOf (J := []) (Γ := [])
    ((acts_rule True .blank []).part c [] (hneat [])).emit).stepped h hs trivial

/-- A part of an exact type leaves its own value on the stack. -/
theorem Agrees.exact (A : P.Agrees c) (hex : P.Exact c.ty) (hvoid : c.ty.isVoid = false)
    (hlow : c.part.emit f.operand P.env s = .ok (u, s')) (S : P.Spans G s s')
    (hroom : P.Room n σ c.height) (hold : P.holds G a σ μ) :
    P.Meets a (μ.movedTo s.instrs.size st) ((P.walk n).valueOf c σ) fun v σ' μ' =>
      ∃ b, P.le a b ∧ Typing.bare.Fits v c.ty ∧ P.holds G b σ' μ' ∧
        μ' = μ'.movedTo s'.instrs.size (v :: st) := by
  refine (A hlow S rfl (by simp [hvoid]) hroom hold).mono fun v σ' μ' hv => ?_
  obtain ⟨b, v', hab, hfit, hold', hp, hst⟩ := hv
  obtain ⟨rfl, hv⟩ := hex.1 (hfit nofun)
  exact ⟨b, hab, hv, hold', (movedTo_eq hp hst).symm⟩

/-- The operand of an operation in its kind; constants are converted in advance. -/
theorem meets_operandOf (A : P.Agrees c) (hex : P.Exact c.ty) (hneat : c.Neat)
    (hk : c.ty.liftedNumKind? = some k')
    (hlow : operandOf c.part k f.operand P.env s = .ok (u, s')) (S : P.Spans G s s')
    (hroom : P.Room n σ c.height) (hold : P.holds G a σ μ) :
    P.Meets a (μ.movedTo s.instrs.size st) ((P.walk n).valueOf c σ) fun v σ' μ' =>
      ∃ b v', P.le a b ∧ Typing.bare.Fits v c.ty ∧ Operator.asKind v k = .ok v' ∧
        P.holds G b σ' μ' ∧ μ' = μ'.movedTo s'.instrs.size (v' :: st) := by
  have hvoid : c.ty.isVoid = false := by
    rcases Ty.eq_of_liftedNumKind? hk with h | h <;> rw [h] <;> rfl
  have href : c.ty.isReference = false := by
    rcases Ty.eq_of_liftedNumKind? hk with h | h <;> rw [h] <;> rfl
  unfold operandOf at hlow
  cases hfold : foldedConstant? c.part.expr k with
  | some x =>
    simp only [hfold] at hlow
    obtain ⟨ty, m, rfl, rfl⟩ : ∃ ty m, c = .constant ty (.num m) ∧ x = .num (m.convert k) := by
      rw [Expr.part_expr] at hfold
      unfold foldedConstant? at hfold
      split at hfold
      · rename_i ty m
        exact ⟨ty, m, rfl, (Option.some.inj hfold).symm⟩
      · cases hfold
    -- The constant itself is not lowered; it would add no code if its value were ignored.
    have hnone : (Expr.constant ty (.num m)).part.emit { discarded := true } P.env s =
        .ok ((), s) := rfl
    have hpush : Step True .blank [] [] s s' :=
      ((acts_rule True .blank []).pushValue (D := []) (J := []) (Γ := [])).stepped hlow S.sound trivial
    refine (A hnone (S.start hpush) rfl (fun _ => rfl) hroom hold).known.after fun v σ' μ' hv => ?_
    obtain ⟨heval, b, v', hab, hfit, hold', hp, hst⟩ := hv
    obtain ⟨rfl, hv⟩ := hex.1 (hfit fun _ => href)
    obtain rfl := eval_constant heval
    rw [← movedTo_eq hp hst]
    refine (pushValue_comes P.follows hlow S.leads (Value.faithful_num _)).mono ?_
    rintro _ rfl
    exact ⟨b, _, hab, hv, Operator.asKind_num_eq m k, P.holds_moved _ _ hold', rfl⟩
  | none =>
    simp only [hfold, bind_ok, Expr.part_ty] at hlow
    obtain ⟨_, t, he, hc⟩ := hlow
    have h₁ := emit_step he hneat S.sound
    have h₂ := asKind_step (h₁.stage.sound S.sound) hc
    refine (A.exact hex hvoid he (S.start h₂) hroom hold).after ?_
    rintro v σ' μ' ⟨b, hab, hv, hold', hμ⟩
    obtain ⟨v', hv', hcomes⟩ := asKind_comes P.follows (S.rest h₁).sound hc S.leads hk hv
      (by simp [Usage.operand])
    rw [hμ]
    refine hcomes.mono ?_
    rintro _ rfl
    exact ⟨b, v', hab, hv, hv', P.holds_moved _ _ hold', rfl⟩

/-! ## Binary operators -/

variable {op : BinaryOp} {lty w : Ty} {l : Value} {x : Except OpError Value}

variable (P) in
/-- The operator was applied to the left value `l` and one of the type `rty`; its value is on
the stack, and its type is `ty`. -/
def Combined (G : P.Frame) (a : P.State) (op : BinaryOp) (lty rty : Ty) (l : Value) (s' : Draft)
    (st : List Value) (ty : Ty) (p : Value × Ty) (σ : EvalState) (μ : MachineState) : Prop :=
  ∃ b r, P.le a b ∧ Typing.bare.Fits r rty ∧ Walk.primitive op lty l rty r = .ok p ∧ p.2 = ty ∧
    P.holds G b σ μ ∧ μ = μ.movedTo s'.instrs.size (p.1 :: st)

/-- The instruction of a binary operator is carried out. -/
theorem meets_combined {l' r r' : Value} (hF : (t.emitted i).Leads P.final) (hold : P.holds G b σ μ)
    (hab : P.le a b) (hr : Typing.bare.Fits r c.ty) (hx : i.combine? l' r' = some x)
    (hprim : Walk.primitive op lty l c.ty r = (·, ty) <$> x) :
    P.Meets b (μ.movedTo t.instrs.size (r' :: l' :: st))
      (EvalM.ofRun (RunM.ofOp (Walk.primitive op lty l c.ty r)) σ)
      (P.Combined G a op lty c.ty l (t.emitted i) st ty) := by
  rw [hprim]
  refine (meets_operated (·, ty) hF (Instr.plain_of_combine? (s := t) hx).1
    (fun k p => Machine.exec_combine hx rfl) hold).mono ?_
  rintro p σ' μ' ⟨v, rfl, rfl, rfl, rfl⟩
  exact ⟨b, r, hab, hr, hprim, rfl, P.holds_moved _ _ hold, rfl⟩

/-- An operator on operands as they are. -/
theorem meets_direct (A : P.Agrees c) (hex : P.Exact c.ty) (hvoid : c.ty.isVoid = false)
    (hlow : c.part.emit f.operand P.env s = .ok (u, t)) (S : P.Spans G s (t.emitted i))
    (hroom : P.Room n σ c.height) (hold : P.holds G a σ μ)
    (hop : ∀ r, Typing.bare.Fits r c.ty → ∃ x, i.combine? l r = some x ∧
      Walk.primitive op lty l c.ty r = (·, ty) <$> x) :
    P.Meets a (μ.movedTo s.instrs.size (l :: st)) (((P.walk n).valueOf c >>= fun r =>
      EvalM.ofRun (RunM.ofOp (Walk.primitive op lty l c.ty r))) σ)
      (P.Combined G a op lty c.ty l (t.emitted i) st ty) := by
  refine (A.exact hex hvoid hlow (S.start (.emitted ..)) hroom hold).bind ?_
  rintro r σ' μ' - ⟨b, hab, hr, hold', hμ⟩
  obtain ⟨x, hx, hprim⟩ := hop r hr
  rw [hμ]
  exact (meets_combined S.leads hold' hab hr hx hprim).weaken hab

/-- An operator on operands in the kind of the operation. -/
theorem meets_converted {k₁ k₂ : NumKind} (A : P.Agrees c) (hex : P.Exact c.ty) (hneat : c.Neat)
    (hkl : lty.liftedNumKind? = some k₁) (hkr : c.ty.liftedNumKind? = some k₂)
    (hl : Typing.bare.Fits l lty)
    (hlow : asKind lty k f.operand P.env s = .ok (u, s'))
    (hlow' : operandOf c.part k' f.operand P.env s' = .ok (u, t))
    (S : P.Spans G s (t.emitted i)) (hroom : P.Room n σ c.height) (hold : P.holds G a σ μ)
    (hop : ∀ r l' r', Typing.bare.Fits r c.ty → Operator.asKind l k = .ok l' →
      Operator.asKind r k' = .ok r' → ∃ x, i.combine? l' r' = some x ∧
        Walk.primitive op lty l c.ty r = (·, ty) <$> x) :
    P.Meets a (μ.movedTo s.instrs.size (l :: st)) (((P.walk n).valueOf c >>= fun r =>
      EvalM.ofRun (RunM.ofOp (Walk.primitive op lty l c.ty r))) σ)
      (P.Combined G a op lty c.ty l (t.emitted i) st ty) := by
  have h₁ := asKind_step S.sound hlow
  have h₂ := operandOf_step (h₁.stage.sound S.sound) hneat hlow'
  obtain ⟨l', hl', hcomes⟩ := asKind_comes P.follows S.sound hlow
    (h₂.stage.leads.trans ((Quiet.emitted t i).leads.trans S.leads)) hkl hl (by simp [Usage.operand])
  refine Meets.of_comes hcomes ?_
  rintro _ rfl
  refine (meets_operandOf A hex hneat hkr hlow' ((S.rest h₁).start (.emitted ..)) hroom hold).bind ?_
  rintro r σ' μ' - ⟨b, r', hab, hr, hr', hold', hμ⟩
  obtain ⟨x, hx, hprim⟩ := hop r l' r' hr hl' hr'
  rw [hμ]
  exact (meets_combined S.leads hold' hab hr hx hprim).weaken hab

end Pact

end TreeCode

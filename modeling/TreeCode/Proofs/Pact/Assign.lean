import TreeCode.Proofs.Pact.Operation

/-!
# Assignments to variables

A variable that both runs know how to write may be assigned, and moved by one. What the
writing does to the two runs is left to the pact: a variable may live in a slot, in a cell
of its own, or in one that other units share.

Main definitions:

* `Pact.Writes` — a variable takes values that stand for each other.

Main results:

* `Pact.agrees_assign` — assignments agree.
* `Pact.agrees_step` — so do operators that add one to a variable or subtract one.
-/

namespace TreeCode

open Draft Lower

namespace Pact

variable {P : Pact} {σ σ' : EvalState} {G : P.Frame} {a b : P.State} {μ μ' : MachineState}
  {s s' t t' : Draft} {st : List Value} {f : Usage} {n : Nat} {v : Var} {c : Expr}

variable (P) in
/-- Wherever the variable lives, it may be assigned values that stand for each other. The cell
that evaluation has for it does not change while it is in scope. -/
def Writes (v : Var) : Prop :=
  ∀ ⦃G : P.Frame⦄ ⦃s : Draft⦄ ⦃home : Home⦄, P.suits G s → homeOf v P.env s = .ok (home, s) →
    ∃ ref, (∀ ⦃a σ μ⦄, P.holds G a σ μ → σ.scopes.get? v.id = some ref) ∧
      ∀ ⦃a σ μ x x'⦄, P.holds G a σ μ → P.fits a v.ty x x' →
        (∃ y, μ.at? P.record home = some y) ∧
          P.holds G a (σ.putCell ref x) (μ.put P.record x' home)

/-- The value on top is stored where the variable lives. -/
theorem stores {home : Home} {ref : Nat} {x x' y : Value} {u : Unit}
    (hlow : store home P.env s = .ok (u, s')) (hF : s'.Leads P.final)
    (hy : μ.at? P.record home = some y)
    (hold : P.holds G a (σ.putCell ref x) (μ.put P.record x' home)) :
    Comes P.machines (μ.movedTo s.instrs.size (x' :: st)) fun μ' =>
      P.holds G a (σ.putCell ref x) μ' ∧ μ' = μ'.movedTo s'.instrs.size st := by
  refine (store_comes P.follows P.recorded hlow hF hy).mono ?_
  rintro _ rfl
  exact ⟨P.holds_moved _ _ hold, rfl⟩

theorem store_step {home : Home} {u : Unit} (hlow : store home P.env s = .ok (u, s')) :
    Step True .blank [] [] s s' := by
  obtain rfl := emit_ok.1 hlow
  exact .emitted ..

theorem agrees_assign (hv : P.Writes v) (A : P.Agrees c) (hty : P.Takes v.ty c.ty)
    (hvoid : v.ty.isVoid = false) (hneat : c.Neat) :
    P.Agrees (.binary v.ty .assign (.var v) c none) := by
  refine agrees_of_node ?_
  intro f s s' G a n σ μ st hlow S _ _ hroom hold
  have hlow : (do
      let home ← homeOf v
      c.part.emit f.operand
      if !f.discarded then do
        emit .dup
        store home
      else store home : LowerM Unit) P.env s = .ok ((), s') := hlow
  simp only [bind_ok] at hlow
  obtain ⟨home, _, hhome, _, s₁, hright, hlow⟩ := hlow
  obtain rfl := homeOf_same hhome
  obtain ⟨s₂, h₂, hstore, hkeep⟩ := copy_ok hlow
  obtain ⟨ref, href, hput⟩ := hv S.suits hhome
  have h₁ := emit_step hright hneat S.sound
  have h₃ := store_step hstore
  rw [Walk.node_assign (href hold)]
  refine (A hright (S.start (h₂.comp h₃)) rfl (by simp [(hty hvoid).1])
    (hroom _ (Nat.lt_succ_of_le (Nat.le_max_right _ _))) hold).bind fun x σ₁ μ₁ _ hx => ?_
  obtain ⟨b, x', hab, hfit, hold₁, hp, hst⟩ := hx
  have hfit : P.fits b v.ty x x' := (hty hvoid).2.2 (hfit nofun)
  obtain ⟨⟨y, hy⟩, hold₂⟩ := hput hold₁ hfit
  rw [← movedTo_eq hp hst]
  refine Meets.of_comes (hkeep x' st μ₁ (h₃.stage.leads.trans S.leads)) ?_
  rintro _ rfl
  show P.Meets a _ (.ok x (σ₁.putCell ref x)) _
  rw [← f.pushed_eq]
  refine (stores hstore S.leads hy hold₂).mono ?_
  rintro μ₂ ⟨hold₃, hμ⟩
  rw [hμ]
  exact ⟨b, x', hab, fun _ => hfit, P.holds_moved _ _ hold₃, rfl, rfl⟩

/-! ## Steps -/

/-- A number is moved by one, and assigned to where it came from. -/
theorem agrees_step {op : UnaryOp} {k : NumKind} (hop : op.isAssignment = true) (hv : P.Writes v)
    (hread : P.Reads v) (hex : P.Exact v.ty) (hk : v.ty = .num k) :
    P.Agrees (.unary v.ty op (.var v) none) := by
  refine agrees_of_node ?_
  intro f s s' G a n σ μ st hlow S _ _ hroom hold
  have hlow : (do
      let home ← homeOf v
      load home false
      let rest : LowerM Unit := do
        pushValue (Operator.one k)
        emit (.arith op.stepArith k)
        if !f.discarded && !op.isPost then do
          emit .dup
          store home
        else store home
      if !f.discarded && op.isPost then do
        emit .dup
        rest
      else rest : LowerM Unit) P.env s = .ok ((), s') := by
    have hlow : stepVariable op (Expr.var v).part f P.env s = .ok ((), s') := by
      cases op <;> first | exact hlow | cases hop
    simp only [stepVariable, Expr.part, Part.target, Part.assignable, Part.ty, Part.expr, Expr.ty,
      hk, Ty.numKind?] at hlow
    exact hlow
  simp only [bind_ok] at hlow
  obtain ⟨home, _, hhome, _, s₁, hload, hlow⟩ := hlow
  obtain rfl := homeOf_same hhome
  obtain ⟨s₂, h₂, hlow, hkeep⟩ := copy_ok hlow
  simp only [bind_ok, emit_ok] at hlow
  obtain ⟨_, s₃, hone, _, _, rfl, hlow⟩ := hlow
  obtain ⟨s₅, h₅, hstore, hkeep'⟩ := copy_ok hlow
  obtain ⟨ref, href, hput⟩ := hv S.suits hhome
  obtain ⟨ref', x, href', hx, hfit⟩ := hread S.suits hold hhome
  obtain rfl : ref = ref' := Option.some.inj ((href hold).symm.trans href')
  obtain ⟨rfl, hnum⟩ := hex.1 hfit
  rw [hk] at hnum
  obtain ⟨m, hm, rfl⟩ := hnum.num_inv
  have hnode : (P.walk n).node (.unary v.ty op (.var v) none) σ =
      (EvalM.ofRun (RunM.ofOp (Operator.step op (.num m))) >>= fun y =>
        EvalM.ofRun (RunM.writeCell ref y) >>= fun _ =>
          pure (if op.isPost then .num m else y)) σ := by
    show (if op.isAssignment = true then _ else _ : EvalM Value) σ = _
    rw [if_pos hop]
    show EStateM.bind ((P.walk n).placeOf (.var v)) _ σ = _
    simp only [EStateM.bind, Walk.placeOf_var href']
    have hread : EvalM.ofRun ((P.walk n).read (.cell ref)) σ = .ok (.num m) σ := by
      show EStateM.Result.ok (σ.world.store.cellAt ref) σ = _
      rw [hm]
    show EStateM.bind (EvalM.ofRun ((P.walk n).read (.cell ref))) _ σ = _
    simp only [EStateM.bind, hread]
    rfl
  have h₁ : Step True .blank [] [] s s₁ := by
    obtain rfl := emit_ok.1 hload
    exact .emitted ..
  have h₃ : Step True .blank [] [] s₂ s₃ :=
    ((acts_rule True .blank []).pushValue (D := []) (J := []) (Γ := [])).stepped hone
      (h₂.stage.sound (h₁.stage.sound S.sound)) trivial
  have h₄ := Step.emitted (c := True) (N := .blank) s₃ (.arith op.stepArith m.kind)
  have h₆ := store_step hstore
  have hF₅ := h₆.stage.leads.trans S.leads
  have hF₄ := h₅.stage.leads.trans hF₅
  have hF₃ := h₄.stage.leads.trans hF₄
  have hF₂ := h₃.stage.leads.trans hF₃
  have hadd : ∀ st, P.Meets a
      (μ.movedTo s₃.instrs.size (Operator.one m.kind :: .num m :: st))
      (EvalM.ofRun (RunM.ofOp (Operator.step op (.num m))) σ) fun y σ' μ' =>
        Operator.step op (.num m) = .ok y ∧ σ' = σ ∧
          μ' = μ.movedTo (s₃.emitted (.arith op.stepArith m.kind)).instrs.size (y :: st) := by
    intro st
    have h : P.Meets a (μ.movedTo s₃.instrs.size (Operator.one m.kind :: .num m :: st))
        (EvalM.ofRun (RunM.ofOp (id <$> Operator.step op (.num m))) σ) fun y σ' μ' =>
          ∃ v, Operator.step op (.num m) = .ok v ∧ y = id v ∧ σ' = σ ∧
            μ' = μ.movedTo (s₃.emitted (.arith op.stepArith m.kind)).instrs.size (v :: st) :=
      meets_operated id hF₄ rfl (fun k p => Machine.exec_combine (l := .num m)
        (r := Operator.one m.kind) rfl rfl) hold
    rw [id_map] at h
    refine h.mono ?_
    rintro _ σ' μ' ⟨y, hy, rfl, hσ, hμ⟩
    exact ⟨hy, hσ, hμ⟩
  rw [hnode]
  refine Meets.of_comes (load_comes P.follows P.recorded hload (h₂.stage.leads.trans hF₂) hx) ?_
  rintro _ rfl
  rw [hm]
  refine Meets.of_comes (hkeep (.num m) st μ hF₂) ?_
  rintro _ rfl
  refine Meets.of_comes (pushValue_comes P.follows hone hF₃ (Value.faithful_num _)) ?_
  rintro _ rfl
  refine (hadd _).bind ?_
  rintro y σ₁ μ₁ - ⟨hy, rfl, rfl⟩
  -- The number is of the same kind as before.
  have hfit' : P.fits a v.ty y y := by
    refine hex.2 ⟨rfl, ?_⟩
    rw [hm] at hnum
    have hyields := Walk.step_yields op hnum rfl rfl
    rw [hy] at hyields
    cases hyields with
    | ok h => exact hk ▸ h _ le_rfl
  obtain ⟨-, hold'⟩ := hput hold hfit'
  refine Meets.of_comes (hkeep' y _ μ hF₅) ?_
  rintro _ rfl
  show P.Meets a _ (.ok _ (σ₁.putCell ref y)) _
  refine (stores hstore S.leads hx hold').mono ?_
  rintro μ₂ ⟨hold₂, hμ⟩
  rw [hμ]
  refine ⟨a, if op.isPost then .num m else y, P.le_refl a, fun _ => ?_, P.holds_moved _ _ hold₂, rfl, ?_⟩
  · show P.fits a v.ty _ _
    split
    · exact hm ▸ hfit
    · exact hfit'
  · rw [f.pushed_eq]
    cases f.discarded <;> cases op.isPost <;> rfl

end Pact

end TreeCode

import TreeCode.Compile.Unit

/-!
# Reading compilation steps

Compiling changes the world and can fail. The lemmas here read a compilation that succeeded
backwards: what was lowered, which entries its record got, and what was made of it. Those about
nested units are for any list of units and forms.

Main results:

* `CompileM.codeAndEntries_ok`, `CompileM.recordEntries_ok` — the code and the record of a unit.
* `CompileM.nestedForm_ok`, `CompileM.boundUnit_ok` — what a unit and a lambda are compiled to.
* `CompileM.nestedForms_induct` — what each nested unit preserves holds after all of them.
-/

namespace TreeCode

namespace CompileM

variable {catalog : Catalog} {l : Lambda} {plan : Plan} {units : Array UnitPlan}
  {compiled : Array NestedForm} {w w' : World} {code : Code} {values : List Value}

theorem codeAndEntries_ok (h : codeAndEntries catalog l plan units compiled = .ok (code, values)) :
    l.toCode { catalog, plan, units, compiled } = .ok code ∧
      recordEntries plan units compiled = .ok values := by
  unfold codeAndEntries at h
  cases hcode : l.toCode { catalog, plan, units, compiled } with
  | error f => simp [hcode, bind, Except.bind] at h
  | ok code' =>
    cases hvalues : recordEntries plan units compiled with
    | error f => simp [hcode, hvalues, bind, Except.bind] at h
    | ok values' =>
      simp only [hcode, hvalues, bind, Except.bind, pure, Except.pure, Except.ok.injEq,
        Prod.mk.injEq] at h
      exact ⟨by rw [h.1], by rw [h.2]⟩

theorem nestedEntries_ok {ns : List NestedUse} {vs : List Value}
    (h : nestedEntries units compiled ns = .ok vs) : vs.length = ns.length ∧
      ∀ (j : Nat) (n : NestedUse), ns[j]? = some n → ∃ form, compiled[n.unit]? = some form ∧
        vs[j]? = some form.value := by
  induction ns generalizing vs with
  | nil =>
    cases h
    simp
  | cons n ns ih =>
    simp only [nestedEntries] at h
    cases hform : compiled[n.unit]? with
    | none => simp [hform] at h
    | some form =>
      cases hrest : nestedEntries units compiled ns with
      | error f => simp [hform, hrest, bind, Except.bind] at h
      | ok rest =>
        simp only [hform, hrest, bind, Except.bind, pure, Except.pure, Except.ok.injEq] at h
        subst h
        obtain ⟨hlen, hget⟩ := ih hrest
        refine ⟨by simp [hlen], fun j n' hj => ?_⟩
        cases j with
        | zero =>
          obtain rfl : n = n' := by simpa using hj
          exact ⟨form, hform, rfl⟩
        | succ j => exact hget j n' (by simpa using hj)

/-- The record of a unit: its constants, then the forms of the lambdas it mentions. -/
theorem recordEntries_ok (h : recordEntries plan units compiled = .ok values) :
    ∃ forms, values = plan.constants.map (·.value) ++ forms ∧
      nestedEntries units compiled plan.nested = .ok forms := by
  unfold recordEntries at h
  cases hforms : nestedEntries units compiled plan.nested with
  | error f => simp [hforms, bind, Except.bind] at h
  | ok forms =>
    simp only [hforms, bind, Except.bind, pure, Except.pure, Except.ok.injEq] at h
    exact ⟨forms, h.symm, rfl⟩

/-- How a nested unit is compiled: to a function if it captures nothing. -/
theorem nestedForm_ok {u : UnitPlan} {form : NestedForm}
    (h : nestedForm catalog units compiled u w = .ok (form, w')) :
    ∃ code values, codeAndEntries catalog u.lambda u.plan units compiled = .ok (code, values) ∧
      ((u.plan.captures = [] ∧
          form = .bound (w.newFunction (.compiled code (.ofConstants values))).1 ∧
          w' = (w.newFunction (.compiled code (.ofConstants values))).2) ∨
        (form = .opened (w.newOpenUnit ⟨code, values⟩).1 u.plan.captures ∧
          w' = (w.newOpenUnit ⟨code, values⟩).2)) := by
  unfold nestedForm at h
  cases hcode : codeAndEntries catalog u.lambda u.plan units compiled with
  | error f => simp [hcode, bind, StateT.bind, Except.bind, liftM, monadLift,
      MonadLift.monadLift, StateT.lift] at h
  | ok r =>
    obtain ⟨code, values⟩ := r
    rw [hcode] at h
    refine ⟨code, values, rfl, ?_⟩
    cases hcap : u.plan.captures with
    | nil =>
      rw [hcap] at h
      cases h
      exact .inl ⟨rfl, rfl, rfl⟩
    | cons v vs =>
      rw [hcap] at h
      cases h
      exact .inr ⟨rfl, rfl⟩

theorem nestedForms_cons {u : UnitPlan} {us : List UnitPlan} {forms : Array NestedForm}
    (h : nestedForms catalog units compiled (u :: us) w = .ok (forms, w')) :
    ∃ form w₁, nestedForm catalog units compiled u w = .ok (form, w₁) ∧
      nestedForms catalog units (compiled.push form) us w₁ = .ok (forms, w') := by
  have hbind : nestedForms catalog units compiled (u :: us) w =
      (nestedForm catalog units compiled u w >>= fun p =>
        nestedForms catalog units (compiled.push p.1) us p.2) := rfl
  rw [hbind] at h
  cases hform : nestedForm catalog units compiled u w with
  | error f =>
    rw [hform] at h
    cases h
  | ok r =>
    rw [hform] at h
    exact ⟨r.1, r.2, rfl, h⟩

theorem boundUnit_ok {c : BoundUnit} (h : boundUnit catalog l w = .ok (c, w')) :
    ∃ plan units forms values, planLambda l = .ok (plan, units) ∧
      nestedForms catalog units #[] units.toList w = .ok (forms, w') ∧
      codeAndEntries catalog l plan units forms = .ok (c.code, values) ∧
      c.record = .ofConstants values := by
  unfold boundUnit at h
  cases hplan : planLambda l with
  | error f =>
    rw [hplan] at h
    cases h
  | ok r =>
    rw [hplan] at h
    obtain ⟨plan, units⟩ := r
    cases hforms : nestedForms catalog units #[] units.toList w with
    | error f => simp [hforms, bind, StateT.bind, Except.bind, liftM, monadLift,
        MonadLift.monadLift, StateT.lift, pure, Except.pure] at h
    | ok r =>
      obtain ⟨forms, w₁⟩ := r
      cases hcode : codeAndEntries catalog l plan units forms with
      | error f => simp [hforms, hcode, bind, StateT.bind, Except.bind, liftM, monadLift,
          MonadLift.monadLift, StateT.lift, pure, Except.pure] at h
      | ok r =>
        simp only [hforms, hcode, bind, StateT.bind, Except.bind, liftM, monadLift,
          MonadLift.monadLift, StateT.lift, pure, Except.pure] at h
        cases h
        exact ⟨plan, units, forms, r.2, rfl, hforms, hcode, rfl⟩

/-- Nested units are compiled in order, each at its place. -/
theorem nestedForms_induct {Q : Array NestedForm → World → Prop}
    (hstep : ∀ {compiled : Array NestedForm} {w w' : World} {u : UnitPlan} {form : NestedForm},
      units[compiled.size]? = some u → nestedForm catalog units compiled u w = .ok (form, w') →
      Q compiled w → Q (compiled.push form) w') {forms : Array NestedForm}
    (h : nestedForms catalog units #[] units.toList w = .ok (forms, w')) (hw : Q #[] w) :
    Q forms w' := by
  -- What is left to compile are the units behind those that are compiled.
  have hall : ∀ (us : List UnitPlan) (compiled : Array NestedForm) (w : World),
      us = units.toList.drop compiled.size →
      nestedForms catalog units compiled us w = .ok (forms, w') → Q compiled w → Q forms w' := by
    intro us
    induction us with
    | nil =>
      intro compiled w _ h hw
      cases h
      exact hw
    | cons u us ih =>
      intro compiled w hus h hw
      obtain ⟨form, w₁, hform, hrest⟩ := nestedForms_cons h
      have hu : units[compiled.size]? = some u := by
        have hget : (units.toList.drop compiled.size)[0]? = some u := by simp [← hus]
        simpa using hget
      refine ih (compiled.push form) w₁ ?_ hrest (hstep hu hform hw)
      have htail := congrArg List.tail hus
      simpa using htail
  exact hall _ _ _ rfl h hw

theorem settle_ok {x : CompileM BoundUnit} {c : BoundUnit}
    (h : settle x w = .ok (.compiled c, w')) : x w = .ok (c, w') := by
  unfold settle at h
  cases hx : x w with
  | error f => cases f <;> simp [hx] at h
  | ok r =>
    simp only [hx, Except.ok.injEq, Prod.mk.injEq, Attempt.compiled.injEq] at h
    obtain ⟨rfl, rfl⟩ := h
    rfl

end CompileM

theorem compileWith_ok {catalog : Catalog} {l : Lambda} {constants : List Value} {w w' : World}
    {c : BoundUnit} (h : compileWith catalog l constants w = .ok (.compiled c, w')) :
    l.toCode { catalog, plan := {}, supplied := some constants } = .ok c.code ∧
      c.record = .ofConstants constants ∧ w' = w := by
  have h := CompileM.settle_ok h
  cases hcode : l.toCode { catalog, plan := {}, supplied := some constants } with
  | error f =>
    rw [hcode] at h
    cases h
  | ok code =>
    rw [hcode] at h
    cases h
    exact ⟨rfl, rfl, rfl⟩

end TreeCode

import TreeCode.Proofs.Pact.Basic

/-!
# Tests

A node whose value is a truth value may be lowered to a test, which jumps when the value
is a given one and falls through otherwise. Negation, conjunction and disjunction are
tests made of tests.

Main results:

* `Pact.Tests.of_value` — nodes without a special form.
* `Pact.tests_not`, `Pact.tests_both` — tests made of tests.
-/

namespace TreeCode.Pact

open Draft Lower

variable {P : Pact} {e : Expr} {σ σ' : EvalState} {G : P.Frame} {a b : P.State}
  {μ μ' : MachineState} {s s' t t' : Draft} {st : List Value}

/-- A node whose value decides a conditional jump. -/
theorem Tests.of_value (A : P.Agrees e) (hty : e.ty = .bool) (hneat : e.Neat)
    (hbranch : e.part.branch = Part.branchOnValue e.part.emit) : P.Tests e := by
  intro r w f s s' G a n σ μ st hlow S hr hroom hold
  simp only [hbranch, Part.branchOnValue, bind_ok] at hlow
  obtain ⟨_, t, he, hj⟩ := hlow
  have hstep := emit_step he hneat S.sound
  have hjump := jumpTo_jumped hj
  have hj' : Step True .blank [] [] t s' := hjump.quiet.step hjump.same
  refine (A he (S.start hj') rfl (by simp [hty, Ty.isVoid]) hroom hold).after fun v σ' μ' hv => ?_
  obtain ⟨b, v', hab, hfit, hold', hp, hst⟩ := hv
  replace hfit := hfit nofun
  rw [hty, P.fits_bool] at hfit
  obtain ⟨x, rfl, rfl⟩ := hfit
  have hr' := Nat.lt_of_lt_of_le hr hstep.stage.leads.labels_le
  -- The value is tested and taken off the stack, whether control jumps or not.
  have hgo : Comes P.machines (μ'.movedTo t.instrs.size (.bool x :: st)) fun μ'' =>
      if x == w then ∃ q, P.final.Places r q ∧ μ'' = μ'.movedTo q st
      else μ'' = μ'.movedTo s'.instrs.size st :=
    .jump P.follows (x == w) hj (S.rest hstep).sound hr' S.leads
      fun k p q => by cases x <;> cases w <;> rfl
  have hμ : μ'.movedTo t.instrs.size (.bool x :: st) = μ' := by
    rw [← hp, ← MachineState.movedTo_self μ', hst]
    rfl
  rw [hμ] at hgo
  refine hgo.mono fun μ'' h => ?_
  cases hx : x == w with
  | true =>
    rw [hx] at h
    obtain ⟨q, hq, rfl⟩ := h
    exact ⟨b, x, hab, rfl, P.holds_moved _ _ hold', rfl, by rw [if_pos (by simpa using hx)]; exact hq⟩
  | false =>
    rw [hx] at h
    obtain rfl := h
    exact ⟨b, x, hab, rfl, P.holds_moved _ _ hold', rfl, by rw [if_neg (by simpa using hx)]; rfl⟩

theorem tests_not (A : P.Tests e) : P.Tests (.unary .bool .not e none) := by
  refine tests_of_node ?_
  intro r w f s s' G a n σ μ st hlow S hr hroom hold
  replace hlow : e.part.branch r (!w) f P.env s = .ok ((), s') := by
    rw [Expr.part] at hlow
    simpa [Part.branch] using hlow
  show P.Meets a _ (((P.walk n).valueOf e >>= fun v =>
    EvalM.ofRun ((P.walk n).unaryPrimitive .not v e.ty .bool)) σ) _
  refine (A hlow S hr (hroom _ (Nat.lt_succ_self _)) hold).bind fun v σ' μ' _ hv => ?_
  obtain ⟨b, x, hab, rfl, hold', hst, hat⟩ := hv
  refine Comes.here ⟨b, !x, hab, rfl, hold', hst, ?_⟩
  cases x <;> cases w <;> exact hat

/-! ## Short-circuit operators -/

/-- A constant as a truth value; no code is needed for it. -/
theorem truthOf_constant {n : Nat} {ty : Ty} {x : Bool} (hroom : P.Room n σ 1)
    (hold : P.holds G a σ μ) :
    P.Meets a μ ((P.walk n).truthOf (.constant ty (.bool x)) σ) fun y σ' μ' =>
      y = x ∧ P.holds G a σ' μ' ∧ σ'.world.depthAt P.gauge = σ.world.depthAt P.gauge ∧ μ' = μ := by
  refine Meets.bind (Q := fun v σ' μ' => v = .bool x ∧ P.holds G a σ' μ' ∧
    σ'.world.depthAt P.gauge = σ.world.depthAt P.gauge ∧ μ' = μ)
    (Meets.ofNode (Q := fun v σ' μ' => v = .bool x ∧ P.holds G a σ' μ' ∧ μ' = μ) hroom
      (Nat.le_refl 1) (fun j _ => ?_) ?_) ?_
  · exact Meets.pure ⟨rfl, P.holds_depth _ hold, rfl⟩
  · rintro v σ' μ' ⟨rfl, h, rfl⟩
    exact ⟨rfl, P.holds_depth _ h, World.depthAt_atDepth _ _ _, rfl⟩
  · rintro v σ' μ' - ⟨rfl, h⟩
    exact Meets.pure ⟨rfl, h⟩

/-- A jump that is always made. -/
theorem jump_comes {r : Nat} {u : Unit} (hj : jumpTo (.jump 0) r P.env s = .ok (u, s'))
    (hs : s.Sound) (hr : r < s.labels.size) (hF : s'.Leads P.final) :
    Comes P.machines (μ.movedTo s.instrs.size st) fun μ' =>
      ∃ q, P.final.Places r q ∧ μ' = μ.movedTo q st :=
  Comes.jump P.follows true hj hs hr hF fun _ _ _ => rfl

/-- A state is one that stands at its own position with its own stack. -/
theorem movedTo_eq {p : Nat} (hp : μ.pointer = p) (hst : μ.stack = st) : μ.movedTo p st = μ := by
  rw [← hp, ← hst]
  rfl

theorem tests_both {ty : Ty} {isAnd : Bool} {l r : Expr} {m : Option Method}
    (hl : P.Tests l) (hr : P.Tests r) (hneatl : l.Neat) (hneatr : r.Neat) :
    P.Tests (.binary ty (.both isAnd) l r m) := by
  refine tests_of_node ?_
  intro q w f s s' G a n σ μ st hlow S hq hroom hold
  replace hlow : branchBoth isAnd l.part r.part q w f P.env s = .ok ((), s') := by
    cases isAnd <;> exact hlow
  have hroom : P.Room n σ (max l.height r.height) := hroom _ (Nat.lt_succ_self _)
  have hrooml := hroom.le (Nat.le_max_left _ _)
  have hroomr := hroom.le (Nat.le_max_right _ _)
  rw [Walk.node_both]
  simp only [branchBoth, Expr.part_expr] at hlow
  cases hc : l.constantBool? with
  | some x =>
    -- A constant on the left is not tested: the code is that of the right operand, or a jump that
    -- is made always or never.
    obtain ⟨ty', rfl⟩ := Expr.constantBool?_eq hc
    simp only [hc] at hlow
    refine (truthOf_constant hrooml (P.holds_moved _ _ hold)).bind ?_
    rintro y σ' μ' - ⟨rfl, hold', hdepth, rfl⟩
    by_cases hx : y = isAnd
    · simp only [hx, beq_self_eq_true, if_true] at hlow ⊢
      exact hr (μ := μ.movedTo s.instrs.size st) hlow S hq (hroomr.later hdepth) hold'
    · have hne : (y == isAnd) = false := by simpa using hx
      simp only [hne, Bool.false_eq_true, if_false, ite_ok, pure_ok] at hlow ⊢
      rcases hlow with ⟨hw, hj⟩ | ⟨hw, -, rfl⟩
      · refine Meets.of_comes (jump_comes (μ := μ.movedTo s.instrs.size st) hj S.sound hq S.leads) ?_
        rintro μ' ⟨p, hp, rfl⟩
        refine .pure ⟨a, y, P.le_refl a, rfl, P.holds_moved p st hold', rfl, ?_⟩
        rw [if_pos (by simpa using hw)]
        exact hp
      · refine .pure ⟨a, y, P.le_refl a, rfl, hold', rfl, ?_⟩
        rw [if_neg (by simpa using hw)]
        rfl
  | none =>
    simp only [hc, ite_ok, bind_ok] at hlow
    rcases hlow with ⟨hw, skip, s₁, hskip, _, s₂, hleft, _, s₃, hright, hplace⟩ |
      ⟨hw, _, s₂, hleft, hright⟩
    · -- The left operand may skip the right one.
      obtain rfl : isAnd = w := by simpa using hw
      have h₁ : Step True .blank [] [] s s₁ := freshLabel_step hskip
      have hs₁ := h₁.stage.sound S.sound
      have h₂ := branch_step hleft hneatl hs₁
      have h₃ := branch_step hright hneatr (h₂.stage.sound hs₁)
      obtain ⟨hplaced, h₄⟩ := (h₂.comp h₃).placing S.sound hskip (by simp) hplace
      have hle := (h₁.stage.leads.trans h₂.stage.leads).labels_le
      have hsize : s₁.instrs.size = s.instrs.size := by
        obtain ⟨-, rfl⟩ := freshLabel_ok.1 hskip
        rfl
      rw [← hsize]
      have S₁ := (S.rest h₁).start (h₃.comp h₄)
      have S₂ := (S.rest (h₁.comp h₂)).start h₄
      refine (hl.truth hleft S₁ (freshLabel_internal S.sound hskip).lt hrooml hold).bind ?_
      rintro x σ' μ' hx' ⟨b, _, hab, ⟨⟩, hold', hst, hat⟩
      by_cases hx : x = isAnd
      · rw [if_neg (by simp [hx])] at hat
        simp only [hx, beq_self_eq_true, if_true]
        rw [← movedTo_eq hat hst]
        refine ((hr hright S₂ (Nat.lt_of_lt_of_le hq hle) (hroomr.later (truthOf_depth hx'))
          hold').weaken hab).mono fun v σ'' μ'' hv => ?_
        obtain ⟨d, y, hbd, rfl, hold'', hst', hat'⟩ := hv
        refine ⟨d, y, P.le_trans hab hbd, rfl, hold'', hst', ?_⟩
        split at hat'
        · rwa [if_pos ‹_›]
        · rw [if_neg ‹_›, hplaced.size]
          exact hat'
      · have hne : (x == isAnd) = false := by simpa using hx
        rw [if_pos (by cases x <;> cases isAnd <;> simp_all)] at hat
        simp only [hne, Bool.false_eq_true, if_false]
        refine .pure ⟨b, x, hab, rfl, hold', hst, ?_⟩
        rw [if_neg hx]
        exact hat.unique (hplaced.places S.leads)
    · -- Both operands jump to the label.
      have h₂ := branch_step hleft hneatl S.sound
      have h₃ := branch_step hright hneatr (h₂.stage.sound S.sound)
      refine (hl.truth hleft (S.start h₃) hq hrooml hold).bind ?_
      rintro x σ' μ' hx' ⟨b, _, hab, ⟨⟩, hold', hst, hat⟩
      by_cases hx : x = isAnd
      · rw [if_neg (by cases x <;> cases isAnd <;> cases w <;> simp_all)] at hat
        simp only [hx, beq_self_eq_true, if_true]
        rw [← movedTo_eq hat hst]
        refine ((hr hright (S.rest h₂) (Nat.lt_of_lt_of_le hq h₂.stage.leads.labels_le)
          (hroomr.later (truthOf_depth hx')) hold').weaken hab).mono fun v σ'' μ'' hv => ?_
        obtain ⟨d, y, hbd, hrest⟩ := hv
        exact ⟨d, y, P.le_trans hab hbd, hrest⟩
      · have hne : (x == isAnd) = false := by simpa using hx
        have hxw : x = w := by cases x <;> cases isAnd <;> cases w <;> simp_all
        simp only [hne, Bool.false_eq_true, if_false]
        refine .pure ⟨b, x, hab, rfl, hold', hst, ?_⟩
        rw [if_pos hxw]
        rwa [if_pos hxw] at hat

end TreeCode.Pact

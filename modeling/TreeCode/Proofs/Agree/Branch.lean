import TreeCode.Proofs.Agree.Operator

/-!
# Tests and conditionals

A node whose value is a truth value may be lowered to a test, which jumps when
the value is a given one and falls through otherwise. Short-circuit operators
are tests made of tests.

Main definitions:

* `Fork` — a test in the finished unit.
* `AgreesAsTest` — evaluating a node and running its test agree.

Main results:

* `AgreesAsTest.of_value` — nodes without a special form.
* `agreesAsTest_not`, `agreesAsTest_both` — tests made of tests.
* `agrees_both`, `agrees_conditional` — short-circuit operators, conditionals.
-/

namespace TreeCode

open Draft Lower

variable {J : Discipline} {X : Bench J} {G G' : Frame} {a b : J.State} {σ σ' : EvalState}
  {μ μ' : MachineState} {s s' t t' : Draft} {st st' : List Value} {pd : List Pending}
  {L L' P P₁ P₂ P₃ I₁ I₃ : List Nat} {g : Bool} {i : Instr} {u : Unit}

/-! ## Tests -/

/-- The code of a node as a test in the finished unit; it jumps to the label `r`
when the value is `w`. -/
structure Fork (X : Bench J) (e : Expr) (r : Nat) (w : Bool) (f : Usage) (s s' : Draft)
    (G : Frame) (pd : List Pending) : Prop where
  lowered : e.part.branch r w f X.env s = .ok ((), s')
  plain : e.Plain X.names
  span : Span X e.placed [] f.guarded s s' G pd
  known : r < s.labels.size

/-- The test has come to a value. -/
def Decides (X : Bench J) (G : Frame) (r : Nat) (w : Bool) (s : Draft) (st : List Value)
    (pd : List Pending) (a : J.State) (v : Value) (σ : EvalState) (μ : MachineState) : Prop :=
  ∃ b x, J.le a b ∧ v = .bool x ∧ Holds X G b σ μ ∧
    if x = w then Landed X.final r st pd μ else At s st pd μ

/-- Evaluating a node and running its test agree. -/
def AgreesAsTest (X : Bench J) (e : Expr) : Prop :=
  ∀ ⦃r : Nat⦄ ⦃w : Bool⦄ ⦃f : Usage⦄ ⦃s s' : Draft⦄ ⦃G : Frame⦄ ⦃pd : List Pending⦄
    ⦃st : List Value⦄ ⦃a : J.State⦄ ⦃n : Nat⦄ ⦃σ : EvalState⦄ ⦃μ : MachineState⦄,
    Fork X e r w f s s' G pd → Stands X G a σ s st pd μ → X.Paced n e →
    G.depth + e.height ≤ X.gauge.max →
    X.Meets μ ((X.walk n).valueOf e σ) (Decides X G r w s' st pd a) (Out X [] s s' G pd st a)

theorem AgreesAsTest.of_node {e : Expr}
    (h : ∀ ⦃r : Nat⦄ ⦃w : Bool⦄ ⦃f : Usage⦄ ⦃s s' : Draft⦄ ⦃G : Frame⦄ ⦃pd : List Pending⦄
      ⦃st : List Value⦄ ⦃a : J.State⦄ ⦃n : Nat⦄ ⦃σ : EvalState⦄ ⦃μ : MachineState⦄,
      Fork X e r w f s s' G pd → Stands X G a σ s st pd μ → X.Paced (n + 1) e →
      G.depth + e.height ≤ X.gauge.max + 1 →
      X.Meets μ ((X.walk n).node e σ) (Decides X G r w s' st pd a) (Out X [] s s' G pd st a)) :
    AgreesAsTest X e := by
  intro r w f s s' G pd st a n σ μ S hst hpace hdepth
  cases n with
  | zero => exact .cut fun hb => absurd hb (by simp [hpace.not_zero])
  | succ n =>
    have hpos := e.height_pos
    have hd := hst.holds.depthAt
    have hfits : Suits X G.deeper s := { S.span.fits with }
    have hnode := h { S with span := S.span.reframe (fun _ h => h) hfits } hst.deeper hpace
      (by simp only [Frame.deeper]; omega)
    show X.Meets μ (EvalM.deeper X.gauge ((X.walk n).node e) σ) _ _
    refine hnode.deeper (by omega) (fun v σ' μ' hv => ?_) fun x σ' μ' hout => ?_
    · obtain ⟨b, x, hab, hx, hold, hat⟩ := hv
      exact ⟨b, x, hab, hx, hd ▸ hold.backAt, hat⟩
    · exact hout.imp fun b μ _ hold => hd ▸ hold.backAt

theorem Expr.branch_step {e : Expr} {r : Nat} {w : Bool} {f : Usage}
    (h : e.part.branch r w f X.env s = .ok (u, s')) (hp : e.Plain X.names) (hs : s.Sound) :
    Step True X.names e.placed [] s s' :=
  ((e.part_acts X.names).branch [r] [] [] r w f (by simp)).stepped h hs hp

/-- A test that is a part of a node. -/
theorem AgreesAsTest.part {c : Expr} {r n : Nat} {w : Bool} {f : Usage} (A : AgreesAsTest X c)
    (S : Span X P L g s s' G pd) (hlow : c.part.branch r w f X.env t = .ok ((), t'))
    (hg : f.guarded = g) (hplain : c.Plain X.names) (hr : r < t.labels.size)
    (h₁ : Step True X.names P₁ I₁ s t) (h₃ : Step True X.names P₃ I₃ t' s')
    (hsub : (P₁ ++ c.placed).Sublist P) (hdepth : G.depth + c.height ≤ X.gauge.max)
    (hst : Stands X G b σ t st pd μ) (hab : J.le a b) (hpace : X.Paced n c) :
    X.Meets μ ((X.walk n).valueOf c σ) (Decides X G r w t' st pd b) (Out X L' s s' G pd st a) := by
  subst hg
  have hs : t.Sound := h₁.stage.sound S.sound
  have hspan := S.sub h₁ (Expr.branch_step hlow hplain hs) h₃ (S.placedIn hsub)
  have hfits : Suits X G t := S.fits.step h₁
  refine (A ⟨hlow, hplain, hspan.reframe (List.nil_subset L) hfits, hr⟩ hst hpace hdepth).mono
    (fun _ _ _ h => h) fun x σ' μ' hout => ?_
  exact Out.widen (o := []) hout (.inl rfl) (List.nil_subset L') hab h₁ h₃

/-- A value that is a truth value. -/
theorem Bench.Meets.truthOf {c : Expr} {n : Nat} {Q : Value → EvalState → MachineState → Prop}
    {E : Exit → EvalState → MachineState → Prop} (h : X.Meets μ ((X.walk n).valueOf c σ) Q E)
    (hQ : ∀ v σ' μ', Q v σ' μ' → ∃ x, v = .bool x) :
    X.Meets μ ((X.walk n).truthOf c σ) (fun x => Q (.bool x)) E := by
  refine h.bind (fun _ _ _ h => h) fun v σ' μ' hv => ?_
  obtain ⟨x, rfl⟩ := hQ v σ' μ' hv
  exact .pure hv

/-- The same, for the truth value. -/
theorem AgreesAsTest.truth {c : Expr} {r n : Nat} {w : Bool} {f : Usage} (A : AgreesAsTest X c)
    (S : Span X P L g s s' G pd) (hlow : c.part.branch r w f X.env t = .ok ((), t'))
    (hg : f.guarded = g) (hplain : c.Plain X.names) (hr : r < t.labels.size)
    (h₁ : Step True X.names P₁ I₁ s t) (h₃ : Step True X.names P₃ I₃ t' s')
    (hsub : (P₁ ++ c.placed).Sublist P) (hdepth : G.depth + c.height ≤ X.gauge.max)
    (hst : Stands X G b σ t st pd μ) (hab : J.le a b) (hpace : X.Paced n c) :
    X.Meets μ ((X.walk n).truthOf c σ) (fun x => Decides X G r w t' st pd b (.bool x))
      (Out X L' s s' G pd st a) := by
  refine (A.part S hlow hg hplain hr h₁ h₃ hsub hdepth hst hab hpace).truthOf ?_
  rintro v σ' μ' ⟨b, x, -, rfl, -⟩
  exact ⟨x, rfl⟩

/-- A node whose value decides a conditional jump. -/
theorem AgreesAsTest.of_value {e : Expr} (A : Agrees X [] e) (hty : e.ty = .bool)
    (hbranch : e.part.branch = Part.branchOnValue e.part.emit) : AgreesAsTest X e := by
  intro r w f s s' G pd st a n σ μ S hst hpace hdepth
  have hlow := S.lowered
  simp only [hbranch, Part.branchOnValue, bind_ok] at hlow
  obtain ⟨_, t, he, hj⟩ := hlow
  have hjump := jumpTo_jumped hj
  have hstep := Expr.emit_step he S.plain S.span.sound
  have O : OperandAt X _ _ _ s s' G pd [] s G n e :=
    S.span.operand A S.plain (by rw [hty]; rfl) (.nil s) (List.Sublist.refl _) hdepth hpace
  refine (O.eval (o := []) he rfl (hjump.quiet.step (P := []) (I := []) hjump.same) hst
    (J.le_refl a)).after fun v σ' μ' hv => ?_
  obtain ⟨b, hab, hhas, hst'⟩ := hv
  obtain ⟨x, rfl⟩ := J.bool_of (hty ▸ hhas)
  have hr := Nat.lt_of_lt_of_le S.known hstep.stage.leads.labels_le
  refine (S.span.ready.branch (x == w) st hst' hj
    (hstep.stage.sound S.span.sound) hr S.span.leads (fun _ => by cases w <;> rfl)
    (fun q μ hμ => ?_) (by cases w <;> simp [effectOf])).mono fun μ' h => ⟨b, x, hab, rfl, ?_⟩
  · obtain ⟨w', p, stack, locals, q'⟩ := μ
    obtain rfl : stack = _ := hμ
    cases x <;> cases w <;> rfl
  · cases x <;> cases w <;> exact h

theorem agreesAsTest_not {e : Expr} (A : AgreesAsTest X e) :
    AgreesAsTest X (.unary .bool .not e none) := by
  refine AgreesAsTest.of_node ?_
  intro r w f s s' G pd st a n σ μ S hst hpace hdepth
  have hlow : e.part.branch r (!w) f X.env s = .ok ((), s') := by
    have h := S.lowered
    rw [Expr.part] at h
    simpa [Part.branch] using h
  have hh : (Expr.unary .bool .not e none).height = e.height + 1 := rfl
  show X.Meets μ (((X.walk n).valueOf e >>= fun v =>
    EvalM.ofRun ((X.walk n).unaryPrimitive .not v e.ty .bool)) σ) _ _
  refine (A.part S.span hlow rfl S.plain S.known (.nil s) (.nil s') (List.Sublist.refl _) (by omega)
    hst (J.le_refl a) (hpace.part (by simp))).bind (fun _ _ _ h => h) fun v σ' μ' hv => ?_
  obtain ⟨b, x, hab, rfl, hold, hat⟩ := hv
  refine .ok (.here ⟨b, !x, hab, rfl, hold, ?_⟩)
  cases x <;> cases w <;> exact hat

/-! ## Jumps within a node -/

/-- A jump that is always made. -/
theorem Bench.Ready.jump (R : X.Ready) {r : Nat} (h : Stands X G a σ s st pd μ)
    (hj : jumpTo (.jump 0) r X.env s = .ok (u, s')) (hs : s.Sound) (hr : r < s.labels.size)
    (hF : s'.Leads X.final) : X.Reaches μ fun μ' => Holds X G a σ μ' ∧ Landed X.final r st pd μ' :=
  R.branch true st h hj hs hr hF (fun h => by cases h) (fun _ _ hμ => by rw [← hμ]; rfl)
    (by simp [effectOf])

theorem At.fresh {r : Nat} (h : At s st pd μ) (hr : freshLabel X.env s = .ok (r, s')) :
    At s' st pd μ := by
  obtain ⟨rfl, rfl⟩ := freshLabel_ok.1 hr
  exact ⟨h.pointer, h.reachable, h.stack, h.height, h.pending⟩

theorem Stands.fresh {r : Nat} (h : Stands X G a σ s st pd μ)
    (hr : freshLabel X.env s = .ok (r, s')) : Stands X G a σ s' st pd μ :=
  ⟨h.holds, h.place.fresh hr⟩

/-! ## Short-circuit operators -/

/-- A constant as a truth value. -/
theorem Bench.truthOf_constant {n : Nat} {ty : Ty} {x : Bool}
    {E : Exit → EvalState → MachineState → Prop} (hpace : X.Paced n (.constant ty (.bool x)))
    (hdepth : σ.world.depthAt X.gauge < X.gauge.max) :
    X.Meets μ ((X.walk n).truthOf (.constant ty (.bool x)) σ)
      (fun y σ' μ' => y = x ∧ σ' = σ ∧ μ' = μ) E := by
  refine (Bench.walk_constant hpace hdepth).bind (fun _ _ _ h => h) ?_
  rintro v σ' μ' ⟨rfl, rfl, rfl⟩
  exact .pure ⟨rfl, rfl, rfl⟩

theorem agreesAsTest_both {ty : Ty} {isAnd : Bool} {l r : Expr} {m : Option Method}
    (hl : AgreesAsTest X l) (hr : AgreesAsTest X r) :
    AgreesAsTest X (.binary ty (.both isAnd) l r m) := by
  refine AgreesAsTest.of_node ?_
  intro q w f s s' G pd st a n σ μ S hst hpace hdepth
  have hlow : branchBoth isAnd l.part r.part q w f X.env s = .ok ((), s') := by
    cases isAnd <;> exact S.lowered
  have hh : (Expr.binary ty (.both isAnd) l r m).height = max l.height r.height + 1 := rfl
  have hplain : l.Plain X.names ∧ r.Plain X.names := by cases isAnd <;> exact S.plain
  have hpl : X.Paced n l := hpace.part (by simp; omega)
  have hpr : X.Paced n r := hpace.part (by simp; omega)
  have R := S.span.ready
  rw [Walk.node_both]
  simp only [branchBoth, Expr.part_expr] at hlow
  cases hc : l.constantBool? with
  | some x =>
    -- A constant on the left is not tested: the code is that of the right operand, or a jump that
    -- is made always or never.
    obtain ⟨ty', rfl⟩ := Expr.constantBool?_eq hc
    simp only [hc] at hlow
    have hd := hst.holds.depthAt
    have hpos := (Expr.constant ty' (.bool x)).height_pos
    refine (Bench.truthOf_constant hpl (by omega)).bind (fun _ _ _ h => h) ?_
    rintro y σ' μ' ⟨rfl, rfl, rfl⟩
    by_cases hx : y = isAnd
    · simp only [hx, beq_self_eq_true, if_true] at hlow ⊢
      exact hr.part S.span hlow rfl hplain.2 S.known (.nil s) (.nil s')
        (List.sublist_append_right _ _) (by omega) hst (J.le_refl a) hpr
    · have hne : (y == isAnd) = false := by simpa using hx
      simp only [hne, Bool.false_eq_true, if_false, ite_ok, pure_ok] at hlow ⊢
      rcases hlow with ⟨hw, hj⟩ | ⟨hw, -, rfl⟩
      · refine .ok ((R.jump hst hj S.span.sound S.known S.span.leads).mono fun μ' h =>
          ⟨a, y, J.le_refl a, rfl, h.1, ?_⟩)
        rw [if_pos (by simpa using hw)]
        exact h.2
      · refine .ok (.here ⟨a, y, J.le_refl a, rfl, hst.holds, ?_⟩)
        rw [if_neg (by simpa using hw)]
        exact hst.place
  | none =>
    simp only [hc, ite_ok, bind_ok] at hlow
    rcases hlow with ⟨hw, skip, s₁, hskip, _, s₂, hleft, _, s₃, hright, hplace⟩ |
      ⟨hw, _, s₂, hleft, hright⟩
    · obtain rfl : isAnd = w := by simpa using hw
      have h₁ : Step True X.names [] [] s s₁ := freshLabel_step hskip
      have hs₁ := h₁.stage.sound S.span.sound
      have h₂ := Expr.branch_step hleft hplain.1 hs₁
      have h₃ := Expr.branch_step hright hplain.2 (h₂.stage.sound hs₁)
      have hle := (h₁.stage.leads.trans h₂.stage.leads).labels_le
      obtain ⟨hplaced, h₄⟩ := (h₂.comp h₃).placing S.span.sound hskip (by simp) hplace
      refine (hl.truth S.span hleft rfl hplain.1 (freshLabel_internal S.span.sound hskip).lt h₁
        (h₃.comp h₄) (List.sublist_append_left _ _) (by omega) (hst.fresh hskip) (J.le_refl a)
        hpl).bind (fun _ _ _ h => h) fun x σ' μ' hx => ?_
      obtain ⟨b, _, hab, ⟨⟩, hold, hat⟩ := hx
      by_cases hx : x = isAnd
      · rw [if_neg (by simp [hx])] at hat
        simp only [hx, beq_self_eq_true, if_true]
        refine (hr.part S.span hright rfl hplain.2 (Nat.lt_of_lt_of_le S.known hle) (h₁.comp h₂) h₄
          (List.Sublist.refl _) (by omega) ⟨hold, hat⟩ hab hpr).mono (fun v σ' μ' hv => ?_)
          fun _ _ _ h => h
        obtain ⟨d, y, hbd, rfl, hold', hat'⟩ := hv
        refine ⟨d, y, J.le_trans hab hbd, rfl, hold', ?_⟩
        split at hat'
        · rwa [if_pos ‹_›]
        · rw [if_neg ‹_›]
          exact hat'.placed hplaced
      · have hne : (x == isAnd) = false := by simpa using hx
        rw [if_pos (Bool.eq_not_of_ne hx)] at hat
        simp only [hne, Bool.false_eq_true, if_false]
        refine .pure ⟨b, x, hab, rfl, hold, ?_⟩
        rw [if_neg hx]
        exact hat.place hplaced S.span.leads
    · have h₂ := Expr.branch_step hleft hplain.1 S.span.sound
      have h₃ := Expr.branch_step hright hplain.2 (h₂.stage.sound S.span.sound)
      refine (hl.truth S.span hleft rfl hplain.1 S.known (.nil s) h₃ (List.sublist_append_left _ _)
        (by omega) hst (J.le_refl a) hpl).bind (fun _ _ _ h => h) fun x σ' μ' hx => ?_
      obtain ⟨b, _, hab, ⟨⟩, hold, hat⟩ := hx
      have hother : isAnd = !w := Bool.eq_not_of_ne (by simpa using hw)
      by_cases hx : x = isAnd
      · rw [if_neg (by simp [hx, hother])] at hat
        simp only [hx, beq_self_eq_true, if_true]
        refine (hr.part S.span hright rfl hplain.2
          (Nat.lt_of_lt_of_le S.known h₂.stage.leads.labels_le) h₂ (.nil s')
          (List.Sublist.refl _) (by omega) ⟨hold, hat⟩ hab hpr).mono (fun v σ' μ' hv => ?_)
          fun _ _ _ h => h
        obtain ⟨d, y, hbd, hrest⟩ := hv
        exact ⟨d, y, J.le_trans hab hbd, hrest⟩
      · have hne : (x == isAnd) = false := by simpa using hx
        have hxw : x = w := by simpa [hother] using Bool.eq_not_of_ne hx
        simp only [hne, Bool.false_eq_true, if_false]
        rw [if_pos hxw] at hat
        exact .pure ⟨b, x, hab, rfl, hold, by rwa [if_pos hxw]⟩

/-- The value of a short-circuit operator, as code that leaves it on the stack. -/
theorem agrees_both {ty : Ty} {isAnd : Bool} {l r : Expr} {m : Option Method}
    (hty : ty = .bool) (hlty : l.ty = .bool) (hrty : r.ty = .bool) (hl : Agrees X [] l)
    (hl' : AgreesAsTest X l) (hr : Agrees X [] r) :
    Agrees X L (.binary ty (.both isAnd) l r m) := by
  refine Agrees.of_node ?_
  intro f s s' G pd st a n σ μ S hst hpace hdepth
  have R := S.span.ready
  have hlow : shortCircuit isAnd l.part r.part f X.env s = .ok ((), s') := by
    cases isAnd <;> exact S.lowered
  have hh : (Expr.binary ty (.both isAnd) l r m).height = max l.height r.height + 1 := rfl
  have hplain : l.Plain X.names ∧ r.Plain X.names := by cases isAnd <;> exact S.plain
  have hpl : X.Paced n l := hpace.part (by simp; omega)
  have hpr : X.Paced n r := hpace.part (by simp; omega)
  have hvoid : r.ty.isVoid = false := by rw [hrty]; rfl
  rw [Walk.node_both]
  subst hty
  simp only [shortCircuit, ite_ok, Expr.part_expr] at hlow
  rcases hlow with ⟨hd, hlow⟩ | ⟨hd, hlow⟩
  · simp only [bind_ok] at hlow
    obtain ⟨done, s₁, hdone, _, s₂, hleft, _, s₃, hright, hplace⟩ := hlow
    have h₁ : Step True X.names [] [] s s₁ := freshLabel_step hdone
    have hs₁ := h₁.stage.sound S.span.sound
    have h₂ := Expr.branch_step hleft hplain.1 hs₁
    have h₃ := Expr.emit_step hright hplain.2 (h₂.stage.sound hs₁)
    obtain ⟨hplaced, h₄⟩ := (h₂.comp h₃).placing S.span.sound hdone (by simp) hplace
    refine (hl'.truth S.span hleft rfl hplain.1 (freshLabel_internal S.span.sound hdone).lt h₁
      (h₃.comp h₄) (List.sublist_append_left _ _) (by omega) (hst.fresh hdone) (J.le_refl a)
      hpl).bind (fun _ _ _ h => h) fun x σ' μ' hx => ?_
    obtain ⟨b, _, hab, ⟨⟩, hold, hat⟩ := hx
    by_cases hx : x = isAnd
    · rw [if_neg (by simp [hx])] at hat
      simp only [hx, beq_self_eq_true, if_true]
      refine (hr.closed S.span hright rfl hplain.2 (h₁.comp h₂) h₄ rfl (fun _ => rfl)
        (List.Sublist.refl _) (by omega) ⟨hold, hat⟩ hab hpr).mono (fun v σ' μ' hv => ?_)
        fun _ _ _ h => h
      obtain ⟨d, hbd, hhas, hst'⟩ := hv
      refine ⟨d, J.le_trans hab hbd, hrty ▸ hhas, hst'.holds, ?_⟩
      simpa [Usage.pushed, Usage.effect, hd] using hst'.place.placed hplaced
    · have hne : (x == isAnd) = false := by simpa using hx
      rw [if_pos (Bool.eq_not_of_ne hx)] at hat
      simp only [hne, Bool.false_eq_true, if_false]
      refine .pure ⟨b, hab, J.bool_has b x, hold, ?_⟩
      simpa [Usage.pushed, hd] using hat.place hplaced S.span.leads
  · have hpush : ∀ v, f.pushed v st = v :: st := by simp_all [Usage.pushed]
    cases hc : l.constantBool? with
    | some x =>
      obtain ⟨ty', rfl⟩ := Expr.constantBool?_eq hc
      simp only [hc, ite_ok] at hlow
      have hdep := hst.holds.depthAt
      have hpos := (Expr.constant ty' (.bool x)).height_pos
      refine (Bench.truthOf_constant hpl (by omega)).bind (fun _ _ _ h => h) ?_
      rintro y σ' μ' ⟨rfl, rfl, rfl⟩
      rcases hlow with ⟨hx, hright⟩ | ⟨hx, hv⟩
      · simp only [hx, if_true]
        refine (hr.closed S.span hright rfl hplain.2 (.nil s) (.nil s') rfl (by simp [hvoid])
          (List.sublist_append_right _ _) (by omega) hst (J.le_refl a) hpr).mono (fun v σ' μ' hv => ?_)
          fun _ _ _ h => h
        obtain ⟨d, hbd, hhas, hst'⟩ := hv
        exact ⟨d, hbd, hrty ▸ hhas, by rw [hpush]; exact hst'⟩
      · simp only [hx, if_false, Bool.false_eq_true]
        refine .ok ((R.pushValue hst hv S.span.leads (Value.faithful_bool y)).mono fun μ' h => ?_)
        exact ⟨a, J.le_refl a, J.bool_has a y, by rwa [hpush]⟩
    | none =>
      simp only [hc, bind_ok, emit_ok] at hlow
      obtain ⟨done, s₁, hdone, _, s₂, hleft, _, _, rfl, _, s₃, hj, _, _, rfl, _, s₄, hright,
        hplace⟩ := hlow
      have h₁ : Step True X.names [] [] s s₁ := freshLabel_step hdone
      have hs₁ := h₁.stage.sound S.span.sound
      have h₂ := Expr.emit_step hleft hplain.1 hs₁
      have hjump := jumpTo_jumped hj
      have h₃ : Step True X.names [] [] s₂ (s₃.emitted .pop) :=
        ((Quiet.emitted s₂ .dup).trans (hjump.quiet.trans (.emitted _ _))).step
          ((Same.emitted s₂ .dup).trans (hjump.same.trans (.emitted _ _)))
      have hs₃ := h₃.stage.sound (h₂.stage.sound hs₁)
      have h₄ := Expr.emit_step hright hplain.2 hs₃
      obtain ⟨hplaced, h₅⟩ := (h₂.comp (h₃.comp h₄)).placing S.span.sound hdone (by simp) hplace
      have hint := freshLabel_internal S.span.sound hdone
      have hF₃ := h₄.stage.leads.trans (h₅.stage.leads.trans S.span.leads)
      have hF₂ := (Quiet.emitted s₃ .pop).leads.trans hF₃
      refine ((hl.closed S.span hleft rfl hplain.1 h₁ (h₃.comp (h₄.comp h₅)) rfl
        (by simp [hlty, Ty.isVoid]) (List.sublist_append_left _ _) (by omega) (hst.fresh hdone)
        (J.le_refl a) hpl).truthOf fun v _ _ hv => ?_).bind (fun _ _ _ h => h)
        fun x σ' μ' hx => ?_
      · obtain ⟨_, _, hhas, _⟩ := hv
        exact J.bool_of (hlty ▸ hhas)
      obtain ⟨b, hab, hhas, hst₂⟩ := hx
      -- The test takes the copy on top; the value itself stays when it decides.
      have htest : X.Reaches μ' fun μ' => Holds X G b σ' μ' ∧
          if x = isAnd then At s₃ (.bool x :: st) pd μ' else Landed X.final done (.bool x :: st) pd μ' := by
        refine (R.dup hst₂ (hjump.quiet.leads.trans hF₂)).bind fun μ₁ hst₃ => ?_
        refine (R.branch (x != isAnd) (.bool x :: st) hst₃ hj ?_ ?_ hF₂
          (fun _ => by cases isAnd <;> rfl) (fun q μ hμ => ?_)
          (by cases isAnd <;> simp [effectOf])).mono fun μ' h => ?_
        · exact (Step.emitted (c := True) (N := X.names) s₂ .dup).stage.sound (h₂.stage.sound hs₁)
        · exact Nat.lt_of_lt_of_le hint.lt h₂.stage.leads.labels_le
        · obtain ⟨w', p, stack, locals, q'⟩ := μ
          obtain rfl : stack = _ := hμ
          cases x <;> cases isAnd <;> rfl
        · cases x <;> cases isAnd <;> exact h
      refine htest.meets fun μ' hμ => ?_
      obtain ⟨hold, hat⟩ := hμ
      by_cases hx : x = isAnd
      · rw [if_pos hx] at hat
        simp only [hx, beq_self_eq_true, if_true]
        refine (R.pop ⟨hold, hat⟩ hF₃).meets fun μ' hst₃ => ?_
        refine (hr.closed S.span hright rfl hplain.2 (h₁.comp (h₂.comp h₃)) h₅ rfl (by simp [hvoid])
          (by simp [Expr.placed]) (by omega) hst₃ hab hpr).mono (fun v σ' μ' hv => ?_) fun _ _ _ h => h
        obtain ⟨d, hbd, hhas, hst'⟩ := hv
        refine ⟨d, J.le_trans hab hbd, hrty ▸ hhas, hst'.holds, ?_⟩
        rw [hpush]
        exact hst'.place.placed hplaced
      · have hne : (x == isAnd) = false := by simpa using hx
        rw [if_neg hx] at hat
        simp only [hne, Bool.false_eq_true, if_false]
        refine .pure ⟨b, hab, J.bool_has b x, hold, ?_⟩
        rw [hpush]
        exact hat.place hplaced S.span.leads

/-! ## Conditionals -/

namespace Usage

variable {f : Usage} {t : Ty}

/-- A part that gives the value of its parent leaves what the parent leaves. -/
theorem result_pushed (h : t.isVoid = true → f.discarded = true) (v : Value) (st : List Value) :
    (f.result t).pushed v st = f.pushed v st := by
  cases hd : f.discarded <;> cases ht : t.isVoid <;>
    simp_all [Usage.pushed, Usage.result, Usage.effect, Usage.operand]

theorem result_guarded : (f.result t).guarded = f.guarded := by
  unfold result
  split <;> rfl

theorem result_byAddress : (f.result t).byAddress = false := by
  unfold result
  split <;> rfl

theorem result_discarded (h : t.isVoid = true) : (f.result t).discarded = true := by
  simp [result, h, effect]

end Usage

/-- A node of type `t` may take its value from a part of type `u`. -/
def Ty.Takes (t u : Ty) : Prop := t.isVoid = false → u.isVoid = false ∧ t.accepts u = true

theorem Ty.Takes.used {t u : Ty} {f : Usage} (h : t.Takes u) (hu : u.isVoid = true) :
    (f.result t).discarded = true := by
  cases ht : t.isVoid with
  | true => exact Usage.result_discarded ht
  | false => simp [(h ht).1] at hu

theorem Discipline.takes_has (J : Discipline) {a : J.State} {v : Value} {t u : Ty} (h : t.Takes u)
    (hv : J.has a v u) : J.has a v t := by
  cases ht : t.isVoid with
  | true =>
    obtain rfl : t = .void := by cases t <;> simp_all [Ty.isVoid]
    exact J.void_has a v
  | false => exact J.accepts_has (h ht).2 (h ht).1 hv

theorem agrees_conditional {ty : Ty} {c l r : Expr} (hc : AgreesAsTest X c)
    (hl : Agrees X L l) (hr : Agrees X L r)
    (hlty : ty.Takes l.ty) (hrty : ty.Takes r.ty) :
    Agrees X L (.conditional ty c l r) := by
  refine Agrees.of_node ?_
  intro f s s' G pd st a n σ μ S hst hpace hdepth
  have R := S.span.ready
  have hlow := S.lowered
  rw [Expr.part, Part.emit_plain] at hlow
  simp only [Lower.conditional, bind_ok] at hlow
  obtain ⟨other, s₁, hother, done, s₂, hdone, _, s₃, htest, _, s₄, hleft, _, s₅, hj, _, s₆, hplace,
    _, s₇, hright, hplace'⟩ := hlow
  have hh : (Expr.conditional ty c l r).height = max c.height (max l.height r.height) + 1 := rfl
  obtain ⟨hpc, hpl, hpr⟩ : c.Plain X.names ∧ l.Plain X.names ∧ r.Plain X.names := S.plain
  -- The test, the first part, a jump over the second part, and the second part; the labels are placed
  -- before and behind the last.
  have h₁ : Step True X.names [] [] s s₁ := freshLabel_step hother
  have hs₁ := h₁.stage.sound S.span.sound
  have h₂ : Step True X.names [] [] s₁ s₂ := freshLabel_step hdone
  have hs₂ := h₂.stage.sound hs₁
  have h₃ := Expr.branch_step htest hpc hs₂
  have hs₃ := h₃.stage.sound hs₂
  have h₄ := Expr.emit_step hleft hpl hs₃
  have hs₄ := h₄.stage.sound hs₃
  have hjump := jumpTo_jumped hj
  have h₅ : Step True X.names [] [] s₄ s₅ := hjump.quiet.step hjump.same
  obtain ⟨hplaced, h₆⟩ := (h₂.comp (h₃.comp (h₄.comp h₅))).placing S.span.sound hother (by simp)
    hplace
  have hs₆ := h₆.stage.sound (h₅.stage.sound hs₄)
  have h₇ := Expr.emit_step hright hpr hs₆
  have hne : done ≠ other := by
    obtain ⟨rfl, rfl⟩ := freshLabel_ok.1 hother
    obtain ⟨rfl, -⟩ := freshLabel_ok.1 hdone
    simp
  obtain ⟨hplaced', h₈⟩ := (h₃.comp (h₄.comp (h₅.comp (h₆.comp h₇)))).placing hs₁ hdone
    (by simpa using hne) hplace'
  have hF₆ := h₇.stage.leads.trans (h₈.stage.leads.trans S.span.leads)
  have hdone₄ : done < s₄.labels.size := Nat.lt_of_lt_of_le (freshLabel_internal hs₁ hdone).lt
    (h₃.stage.leads.trans h₄.stage.leads).labels_le
  have hother' : other < s₂.labels.size :=
    Nat.lt_of_lt_of_le (freshLabel_internal S.span.sound hother).lt h₂.stage.leads.labels_le
  show X.Meets μ (((X.walk n).truthOf c >>= fun x =>
    if x then (X.walk n).valueOf l else (X.walk n).valueOf r) σ) _ _
  refine (hc.truth S.span htest rfl hpc hother' (h₁.comp h₂)
    (h₄.comp (h₅.comp (h₆.comp (h₇.comp h₈)))) (by simp [Expr.placed]) (by omega)
    ((hst.fresh hother).fresh hdone) (J.le_refl a) (hpace.part (by simp; omega))).bind
    (fun _ _ _ h => h) fun x σ' μ' hx => ?_
  obtain ⟨b, _, hab, ⟨⟩, hold, hat⟩ := hx
  have hused : ty.isVoid = true → f.discarded = true := S.used
  cases x with
  | true =>
    refine (hl.part S.span hleft Usage.result_guarded hpl (h₁.comp (h₂.comp h₃))
      (h₅.comp (h₆.comp (h₇.comp h₈))) Usage.result_byAddress hlty.used (by simp [Expr.placed])
      (l.around_subset L) (by omega) ⟨hold, hat⟩ hab
      (hpace.part (by simp; omega))).after fun v σ' μ' hv => ?_
    obtain ⟨d, hbd, hhas, hst'⟩ := hv
    refine (R.jump hst' hj hs₄ hdone₄ (h₆.stage.leads.trans hF₆)).mono fun μ' hμ => ?_
    obtain ⟨hold', hland⟩ := hμ
    refine ⟨d, J.le_trans hab hbd, J.takes_has hlty hhas, hold', ?_⟩
    rw [← Usage.result_pushed hused]
    exact hland.place hplaced' S.span.leads
  | false =>
    refine (hr.part S.span hright Usage.result_guarded hpr
      (h₁.comp (h₂.comp (h₃.comp (h₄.comp (h₅.comp h₆))))) h₈ Usage.result_byAddress hrty.used
      (by simp [Expr.placed]) (r.around_subset L) (by omega) ⟨hold, hat.place hplaced hF₆⟩ hab
      (hpace.part (by simp))).mono (fun v σ' μ' hv => ?_) fun _ _ _ h => h
    obtain ⟨d, hbd, hhas, hst'⟩ := hv
    refine ⟨d, J.le_trans hab hbd, J.takes_has hrty hhas, hst'.holds, ?_⟩
    rw [← Usage.result_pushed hused]
    exact hst'.place.placed hplaced'

end TreeCode

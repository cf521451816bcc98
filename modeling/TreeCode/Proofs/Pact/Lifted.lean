import TreeCode.Proofs.Pact.Operator

/-!
# Lifted operators

When an operand may be null, both operands go to slots of their own. If one of them is
null there the result is null, or false for a comparison; else the operator is applied to
the numbers.

Main definitions:

* `Lower.guarded` — the code behind the stores of the operands.

Main results:

* `Walk.numeric_eq` — a numeric operator is its instruction on converted operands.
* `Pact.meets_guarded`, `Pact.meets_lifted` — the lifted form of a numeric operator.
-/

namespace TreeCode

open Draft Lower

/-! ## Numeric operators -/

/-- The type of the result of a numeric operator of kind `k`. -/
def BinaryOp.numericTy (op : BinaryOp) (k : NumKind) (l r : Ty) : Ty :=
  if op.isRelational then .bool else if isLifted l r then .nullable (.num k) else .num k

/-- A numeric operator is its instruction on operands in its kind, unless it passes null
through. -/
theorem Walk.numeric_eq {op : BinaryOp} {lty rty : Ty} {k : NumKind} {i : Instr} {l r l' r' : Value}
    (hk : op.kind? lty rty = some k) (hi : numericInstr? op k = some i)
    (hl : Operator.asKind l k = .ok l') (hr : Operator.asKind r (op.rightKind k) = .ok r')
    (hmiss : (isLifted lty rty && (l.isNull || r.isNull)) = false) :
    ∃ x, i.combine? l' r' = some x ∧
      Walk.numeric op lty l rty r = (·, op.numericTy k lty rty) <$> x := by
  have hty : op.numericTy k lty rty =
      if op.isRelational then .bool else if isLifted lty rty then .nullable (.num k) else .num k := rfl
  unfold numericInstr? at hi
  simp only [Walk.numeric, hk, hmiss, Bool.false_eq_true, if_false, hl, hr, bind, Except.bind]
  cases hcmp : op.cmp? with
  | some cmp =>
    simp only [hcmp, Option.some.injEq] at hi
    subst hi
    refine ⟨_, rfl, ?_⟩
    cases hc : Operator.compare cmp l' r' <;> simp [hc, hty, pure, Except.pure]
  | none =>
    cases harith : op.arith? with
    | none => simp [hcmp, harith] at hi
    | some arith =>
      simp only [hcmp, harith, Option.some.injEq] at hi
      subst hi
      refine ⟨_, rfl, ?_⟩
      cases hc : Operator.arith arith l' r' <;> simp [hc, hty, pure, Except.pure]

/-- A lifted operator with a missing operand. -/
theorem Walk.numeric_missing {op : BinaryOp} {lty rty : Ty} {k : NumKind} {l r : Value}
    (hk : op.kind? lty rty = some k) (hlift : isLifted lty rty = true)
    (hnull : (l.isNull || r.isNull) = true) :
    Walk.numeric op lty l rty r = .ok (Operator.missing op, op.numericTy k lty rty) := by
  simp only [Walk.numeric, BinaryOp.numericTy, hk, hlift, hnull, Bool.and_self, if_true]

/-! ## The code behind the stores -/

/-- The code of a lifted operator whose operands are in slots. -/
def Lower.guarded (op : BinaryOp) (i : Instr) (k : NumKind) (leftSlot rightSlot : Nat)
    (leftTy rightTy : Ty) (f : Usage) : LowerM Unit := do
  let missing ← freshLabel
  let done ← freshLabel
  skipIfNull leftSlot leftTy missing
  skipIfNull rightSlot rightTy missing
  emit (.loadLocal leftSlot)
  asKind leftTy k { f.operand with checked := true }
  emit (.loadLocal rightSlot)
  asKind rightTy (op.rightKind k) { f.operand with checked := true }
  emit i
  jumpTo (.jump 0) done
  placeLabel missing
  emit (if op.isRelational then .constBool false else .constNull)
  placeLabel done

theorem Lower.lifted_eq (op : BinaryOp) (i : Instr) (k : NumKind) (leftTy : Ty) (right : Part)
    (f : Usage) : lifted op i k leftTy right f = (do
      let leftSlot ← newSlot
      emit (.storeLocal leftSlot)
      right.emit f.operand
      let rightSlot ← newSlot
      emit (.storeLocal rightSlot)
      guarded op i k leftSlot rightSlot leftTy right.ty f) := rfl

theorem Lower.Rule.guarded {K : Mention → Prop}
    {R : List Nat → List Nat → List Nat → List Ref → {α : Type} → LowerM α → Prop} (hR : Rule K R)
    {D J I : List Nat} {Γ : List Ref} {op : BinaryOp} {i : Instr} {k : NumKind} {ls rs : Nat}
    {lty rty : Ty} {f : Usage} (hi : numericInstr? op k = some i) (hl : .slot ls ∈ Γ)
    (hr : .slot rs ∈ Γ) : R D J I Γ (guarded op i k ls rs lty rty f) := by
  have hplain : i.isStraight = true ∧ i.refs = [] := by
    unfold numericInstr? at hi
    split at hi <;> cases hi <;> exact ⟨rfl, rfl⟩
  refine hR.fresh fun _ => hR.fresh fun _ => ?_
  refine hR.bind (hR.skipIfNull hl (by simp)) fun _ =>
    hR.bind (hR.skipIfNull hr (by simp)) fun _ =>
    hR.bind (hR.naming rfl rfl rfl hl) fun _ => hR.bind hR.asKind fun _ =>
    hR.bind (hR.naming rfl rfl rfl hr) fun _ => hR.bind hR.asKind fun _ => ?_
  refine hR.bind (hR.bare hplain.1 hplain.2) fun _ => hR.bind (hR.jump rfl (by simp)) fun _ =>
    hR.bind (hR.place (by simp) (by simp)) fun _ => hR.bind ?_ fun _ =>
    hR.place (by simp) (by simp)
  cases op.isRelational <;> exact hR.bare rfl rfl

section Families

variable {M : Nat → Machine} {F s s' : Draft} {env : LowerEnv} {μ : MachineState} {u : Unit}
  {v : Value} {w : List Value} {ty : Ty} {slot r : Nat}

/-- The value of a slot is pushed. -/
theorem loadLocal_comes (R : ∀ k, (M k).Follows F) (hF : (s.emitted (.loadLocal slot)).Leads F)
    (hv : μ.locals[slot]? = some v) :
    Comes M (μ.movedTo s.instrs.size w)
      (· = μ.movedTo (s.emitted (.loadLocal slot)).instrs.size (v :: w)) := by
  refine .carry R hF rfl fun n p => ?_
  simp only [Machine.exec, MachineM.readSlot, bind, EStateM.bind, get, getThe, MonadStateOf.get,
    EStateM.get, MachineState.movedTo_locals, hv]
  rfl

/-- The top of the stack is put into a slot. -/
theorem storeLocal_comes (R : ∀ k, (M k).Follows F) (hF : (s.emitted (.storeLocal slot)).Leads F)
    (hslot : slot < μ.locals.size) :
    Comes M (μ.movedTo s.instrs.size (v :: w))
      (· = (μ.putSlot slot v).movedTo (s.emitted (.storeLocal slot)).instrs.size w) := by
  refine .instr R hF rfl (fun n => ?_) (.here rfl)
  simp only [Machine.exec, bind, EStateM.bind, MachineM.pop, MachineState.movedTo_stack,
    MachineM.writeSlot, MachineState.movedTo_locals, hslot, if_true]
  rfl

/-- A null in a slot is skipped; types without null need no test. -/
theorem skipIfNull_comes (R : ∀ k, (M k).Follows F) (hs : s.Sound) (hr : r < s.labels.size)
    (hlow : skipIfNull slot ty r env s = .ok (u, s')) (hF : s'.Leads F)
    (hv : μ.locals[slot]? = some v) (hnull : v.isNull = true → ty.hasNull = true) :
    Comes M (μ.movedTo s.instrs.size w) fun μ' =>
      if v.isNull then ∃ q, F.Places r q ∧ μ' = μ.movedTo q w
      else μ' = μ.movedTo s'.instrs.size w := by
  simp only [skipIfNull, ite_ok, emit_bind, pure_ok] at hlow
  rcases hlow with ⟨-, hj⟩ | ⟨hty, -, rfl⟩
  · have hload := Step.emitted (c := True) (N := .blank) s (.loadLocal slot)
    refine (loadLocal_comes R ((jumpTo_jumped hj).quiet.leads.trans hF) hv).bind ?_
    rintro _ rfl
    exact .jump R v.isNull hj (hload.stage.sound hs)
      (Nat.lt_of_lt_of_le hr hload.stage.leads.labels_le) hF fun k p q => by cases v <;> rfl
  · exact .here (by rw [if_neg fun h => hty (hnull h)])

theorem skipIfNull_step (hs : s.Sound) (hlow : skipIfNull slot ty r env s = .ok (u, s')) :
    Step True .blank [] [] s s' :=
  ((acts_rule True .blank []).skipIfNull (D := []) (J := [r]) (Γ := [.slot slot]) (by simp)
    (by simp)).stepped hlow hs trivial

/-- The code behind the stores places its own labels only. -/
theorem guarded_step {op : BinaryOp} {i : Instr} {k : NumKind} {ls rs : Nat} {lty rty : Ty} {f : Usage}
    (hs : s.Sound) (hi : numericInstr? op k = some i)
    (h : guarded op i k ls rs lty rty f env s = .ok (u, s')) : Step True .blank [] [] s s' :=
  ((acts_rule True .blank []).guarded (D := []) (J := []) (Γ := [.slot ls, .slot rs]) hi (by simp)
    (by simp)).stepped h hs trivial

end Families

namespace Pact

variable {P : Pact} {σ σ' : EvalState} {G : P.Frame} {a b : P.State} {μ μ' : MachineState}
  {s s' t t' : Draft} {st : List Value} {i : Instr} {op : BinaryOp} {lty rty : Ty} {k k₁ k₂ : NumKind}
  {l r : Value} {ls rs : Nat} {f : Usage} {u : Unit}

/-- Numbers in slots are combined, or a missing one makes the result null. -/
theorem meets_guarded (hk : op.kind? lty rty = some k) (hi : numericInstr? op k = some i)
    (hlift : isLifted lty rty = true) (hkl : lty.liftedNumKind? = some k₁)
    (hkr : rty.liftedNumKind? = some k₂) (hl : Typing.bare.Fits l lty) (hr : Typing.bare.Fits r rty)
    (hlow : guarded op i k ls rs lty rty f P.env s = .ok (u, s')) (hs : s.Sound)
    (hF : s'.Leads P.final) (hls : μ.locals[ls]? = some l) (hrs : μ.locals[rs]? = some r)
    (hold : P.holds G a σ μ) :
    P.Meets a (μ.movedTo s.instrs.size st) (EvalM.ofRun (RunM.ofOp (Walk.numeric op lty l rty r)) σ)
      fun p σ' μ' => Walk.numeric op lty l rty r = .ok p ∧ p.2 = op.numericTy k lty rty ∧ σ' = σ ∧
        μ' = μ.movedTo s'.instrs.size (p.1 :: st) := by
  simp only [guarded, bind_ok, emit_ok] at hlow
  obtain ⟨missing, s₁, hm, done, s₂, hd, _, s₃, hskip₁, _, s₄, hskip₂, _, _, rfl, _, s₅, has₁, _, _,
    rfl, _, s₆, has₂, _, _, rfl, _, s₇, hj, _, s₈, hp₁, _, _, rfl, hp₂⟩ := hlow
  have h₁ : Step True .blank [] [] s s₁ := freshLabel_step hm
  have hs₁ := h₁.stage.sound hs
  have h₂ : Step True .blank [] [] s₁ s₂ := freshLabel_step hd
  have hs₂ := h₂.stage.sound hs₁
  have h₃ := skipIfNull_step hs₂ hskip₁
  have hs₃ := h₃.stage.sound hs₂
  have h₄ := skipIfNull_step hs₃ hskip₂
  have hs₄ := h₄.stage.sound hs₃
  have h₄' := Step.emitted (c := True) (N := .blank) s₄ (.loadLocal ls)
  have hs₄' := h₄'.stage.sound hs₄
  have h₅ := asKind_step hs₄' has₁
  have hs₅ := h₅.stage.sound hs₄'
  have h₅' := Step.emitted (c := True) (N := .blank) s₅ (.loadLocal rs)
  have hs₅' := h₅'.stage.sound hs₅
  have h₆ := asKind_step hs₅' has₂
  have hs₆ := h₆.stage.sound hs₅'
  have h₆' := Step.emitted (c := True) (N := .blank) s₆ i
  have hs₆' := h₆'.stage.sound hs₆
  have hjump := jumpTo_jumped hj
  have h₇ : Step True .blank [] [] (s₆.emitted i) s₇ := hjump.quiet.step hjump.same
  -- Both labels are free where they are placed.
  have hmid := h₃.comp (h₄.comp (h₄'.comp (h₅.comp (h₅'.comp (h₆.comp (h₆'.comp h₇))))))
  have hfree := Free.fresh hs hm
  have hfree' := Free.fresh hs₁ hd
  have hne : done ≠ missing := by
    obtain ⟨rfl, rfl⟩ := freshLabel_ok.1 hm
    obtain ⟨rfl, -⟩ := freshLabel_ok.1 hd
    simp
  obtain ⟨hplaced₁, h₈⟩ := (hfree.step (h₂.comp hmid) (by simp)).place (c := True) (N := .blank) hp₁
  have h₈' := Step.emitted (c := True) (N := .blank) s₈
    (if op.isRelational then .constBool false else .constNull)
  obtain ⟨hplaced₂, h₉⟩ := (hfree'.step (hmid.comp (h₈.comp h₈')) (by simpa using hne)).place
    (c := True) (N := .blank) hp₂
  have hF₈' := h₉.stage.leads.trans hF
  have hF₈ := h₈'.stage.leads.trans hF₈'
  have hF₇ := h₈.stage.leads.trans hF₈
  have hF₆' := h₇.stage.leads.trans hF₇
  have hF₆ := h₆'.stage.leads.trans hF₆'
  have hF₅' := h₆.stage.leads.trans hF₆
  have hF₅ := h₅'.stage.leads.trans hF₅'
  have hF₄' := h₅.stage.leads.trans hF₅
  have hF₄ := h₄'.stage.leads.trans hF₄'
  have hF₃ := h₄.stage.leads.trans hF₄
  have hsize : s₂.instrs.size = s.instrs.size := by
    obtain ⟨-, rfl⟩ := freshLabel_ok.1 hm
    obtain ⟨-, rfl⟩ := freshLabel_ok.1 hd
    rfl
  rw [← hsize]
  have hnull : ∀ {v : Value} {ty : Ty} {k : NumKind}, Typing.bare.Fits v ty →
      ty.liftedNumKind? = some k → v.isNull = true → ty.hasNull = true := by
    intro v ty k hv hty hnull
    rcases hv.lifted_inv hty with ⟨-, h⟩ | ⟨n, rfl, -⟩
    · simp [Ty.hasNull, h]
    · cases hnull
  have htest₁ := skipIfNull_comes (w := st) P.follows hs₂
    (Nat.lt_of_lt_of_le hfree.internal.lt h₂.stage.leads.labels_le) hskip₁ hF₃ hls (hnull hl hkl)
  have htest₂ := skipIfNull_comes (w := st) P.follows hs₃
    (Nat.lt_of_lt_of_le hfree.internal.lt (h₂.comp h₃).stage.leads.labels_le) hskip₂ hF₄ hrs
    (hnull hr hkr)
  cases hmiss : l.isNull || r.isNull with
  | true =>
    rw [Walk.numeric_missing hk hlift hmiss]
    have hat : Comes P.machines (μ.movedTo s₂.instrs.size st) (· = μ.movedTo s₈.instrs.size st) := by
      refine htest₁.bind fun μ₁ hμ₁ => ?_
      cases hln : l.isNull with
      | true =>
        rw [hln, if_pos rfl] at hμ₁
        obtain ⟨q, hq, rfl⟩ := hμ₁
        exact .here (by rw [hq.unique (hplaced₁.places hF₈)])
      | false =>
        rw [hln, if_neg Bool.false_ne_true] at hμ₁
        subst hμ₁
        refine htest₂.mono fun μ₂ hμ₂ => ?_
        rw [if_pos (by simpa [hln] using hmiss)] at hμ₂
        obtain ⟨q, hq, rfl⟩ := hμ₂
        rw [hq.unique (hplaced₁.places hF₈)]
    refine Comes.bind hat ?_
    rintro _ rfl
    have hconst : Comes P.machines (μ.movedTo s₈.instrs.size st)
        (· = μ.movedTo (s₈.emitted (if op.isRelational then .constBool false else .constNull)).instrs.size
          (Operator.missing op :: st)) := by
      refine .carry P.follows hF₈' (by split <;> rfl) fun n p => ?_
      cases hrel : op.isRelational <;> simp only [Operator.missing, hrel] <;> rfl
    refine hconst.mono ?_
    rintro _ rfl
    exact ⟨rfl, rfl, rfl, by rw [hplaced₂.size]⟩
  | false =>
    simp only [Bool.or_eq_false_iff] at hmiss
    have hat : Comes P.machines (μ.movedTo s₂.instrs.size st) (· = μ.movedTo s₄.instrs.size st) := by
      refine htest₁.bind fun μ₁ hμ₁ => ?_
      rw [hmiss.1, if_neg Bool.false_ne_true] at hμ₁
      subst hμ₁
      refine htest₂.mono fun μ₂ hμ₂ => ?_
      rwa [hmiss.2, if_neg Bool.false_ne_true] at hμ₂
    obtain ⟨l', hl', hconv₁⟩ := asKind_comes (μ := μ) (w := st) P.follows hs₄' has₁ hF₅ hkl hl
      fun _ => hmiss.1
    obtain ⟨r', hr', hconv₂⟩ := asKind_comes (μ := μ) (w := l' :: st) P.follows hs₅' has₂ hF₆ hkr hr
      fun _ => hmiss.2
    obtain ⟨x, hx, hnum⟩ := Walk.numeric_eq hk hi hl' hr' (by simp [hmiss])
    have hloads : Comes P.machines (μ.movedTo s₂.instrs.size st)
        (· = μ.movedTo s₆.instrs.size (r' :: l' :: st)) := by
      refine hat.bind ?_
      rintro _ rfl
      refine (loadLocal_comes P.follows hF₄' hls).bind ?_
      rintro _ rfl
      refine hconv₁.bind ?_
      rintro _ rfl
      refine (loadLocal_comes P.follows hF₅' hrs).bind ?_
      rintro _ rfl
      exact hconv₂
    refine Meets.of_comes hloads ?_
    rintro _ rfl
    rw [hnum]
    refine (meets_operated (·, op.numericTy k lty rty) hF₆' (Instr.plain_of_combine? (s := s₆) hx).1
      (fun k p => Machine.exec_combine hx rfl) hold).after ?_
    rintro p σ' μ' ⟨v, rfl, rfl, rfl, rfl⟩
    refine (jump_comes hj hs₆' (Nat.lt_of_lt_of_le hfree'.internal.lt
      (h₃.comp (h₄.comp (h₄'.comp (h₅.comp (h₅'.comp (h₆.comp h₆')))))).stage.leads.labels_le) hF₇).mono ?_
    rintro _ ⟨q, hq, rfl⟩
    exact ⟨rfl, rfl, rfl, by rw [hq.unique (hplaced₂.places hF)]⟩

variable {c : Expr} {n : Nat}

/-- The operands of a lifted operator are put into slots before they are looked at. -/
theorem meets_lifted (A : P.Agrees c) (hex : P.Exact c.ty) (hneat : c.Neat)
    (hk : op.kind? lty c.ty = some k) (hi : numericInstr? op k = some i)
    (hlift : isLifted lty c.ty = true) (hkl : lty.liftedNumKind? = some k₁)
    (hkr : c.ty.liftedNumKind? = some k₂) (hl : Typing.bare.Fits l lty)
    (hlow : lifted op i k lty c.part f P.env s = .ok (u, s')) (S : P.Spans G s s')
    (hroom : P.Room n σ c.height) (hold : P.holds G a σ μ)
    (hprim : ∀ r, Walk.primitive op lty l c.ty r = Walk.numeric op lty l c.ty r) :
    P.Meets a (μ.movedTo s.instrs.size (l :: st)) (((P.walk n).valueOf c >>= fun r =>
      EvalM.ofRun (RunM.ofOp (Walk.primitive op lty l c.ty r))) σ)
      (P.Combined G a op lty c.ty l s' st (op.numericTy k lty c.ty)) := by
  have hvoid : c.ty.isVoid = false := by
    rcases Ty.eq_of_liftedNumKind? hkr with h | h <;> rw [h] <;> rfl
  simp only [lifted_eq, bind_ok, emit_ok, Expr.part_ty] at hlow
  obtain ⟨ls, s₁, hls, _, _, rfl, _, s₂, he, rs, s₃, hrs, _, _, rfl, hrest⟩ := hlow
  have h₁ : Step True .blank [] [] s s₁ := (newSlot_quiet hls).step (newSlot_same hls)
  have h₁' := Step.emitted (c := True) (N := .blank) s₁ (.storeLocal ls)
  have hs₁ := (h₁.comp h₁').stage.sound S.sound
  have h₂ := emit_step he hneat hs₁
  have h₃ : Step True .blank [] [] s₂ s₃ := (newSlot_quiet hrs).step (newSlot_same hrs)
  have h₃' := Step.emitted (c := True) (N := .blank) s₃ (.storeLocal rs)
  have hs₃ := (h₃.comp h₃').stage.sound (h₂.stage.sound hs₁)
  have h₄ := guarded_step hs₃ hi hrest
  have hF₃ := h₄.stage.leads.trans S.leads
  have hF₂ := (h₃.comp h₃').stage.leads.trans hF₃
  have hF₁ := h₂.stage.leads.trans hF₂
  obtain ⟨-, rfl, hs₁eq⟩ := newSlot_ok.1 hls
  obtain ⟨-, rfl, hs₃eq⟩ := newSlot_ok.1 hrs
  -- The left operand is kept while the right one is evaluated.
  have hlt : s.numLocals < s₁.numLocals := by rw [← hs₁eq]; exact Nat.lt_succ_self _
  obtain ⟨hsize, hold₁⟩ := P.holds_freeze l hold S.suits (Nat.le_refl _)
    (Nat.lt_of_lt_of_le hlt (h₁'.stage.leads.trans hF₁).numLocals_le)
  have hstore : Comes P.machines (μ.movedTo s.instrs.size (l :: st))
      (· = (μ.putSlot s.numLocals l).movedTo
        (s₁.emitted (.storeLocal s.numLocals)).instrs.size st) := by
    have : s.instrs.size = s₁.instrs.size := by rw [← hs₁eq]
    rw [this]
    exact storeLocal_comes P.follows hF₁ hsize
  refine Meets.of_comes hstore ?_
  rintro _ rfl
  have S₁ : P.Spans (P.freeze G s.numLocals l) (s₁.emitted (.storeLocal s.numLocals)) s₂ :=
    ⟨hs₁, hF₂, P.suits_freeze l (P.suits_step S.suits (h₁.comp h₁')) hlt⟩
  refine (A.exact hex hvoid he S₁ hroom hold₁).bind ?_
  rintro r σ' μ' - ⟨b, hab, hr, hold₂, hμ⟩
  have hlt' : s₂.numLocals < s₃.numLocals := by rw [← hs₃eq]; exact Nat.lt_succ_self _
  obtain ⟨hsize', hold₃⟩ := P.holds_freeze r hold₂ (P.suits_step S₁.suits h₂) (Nat.le_refl _)
    (Nat.lt_of_lt_of_le hlt' (h₃'.stage.leads.trans hF₃).numLocals_le)
  have hstore' : Comes P.machines (μ'.movedTo s₂.instrs.size (r :: st))
      (· = (μ'.putSlot s₂.numLocals r).movedTo
        (s₃.emitted (.storeLocal s₂.numLocals)).instrs.size st) := by
    have : s₂.instrs.size = s₃.instrs.size := by rw [← hs₃eq]
    rw [this]
    exact storeLocal_comes P.follows hF₃ hsize'
  rw [hμ]
  refine Meets.of_comes hstore' ?_
  rintro _ rfl
  obtain ⟨hrs', hold₄⟩ := P.holds_frozen hold₃
  obtain ⟨hls', hold₅⟩ := P.holds_frozen hold₄
  rw [hprim]
  refine ((meets_guarded hk hi hlift hkl hkr hl hr hrest hs₃ S.leads hls' hrs' hold₅).weaken hab).mono ?_
  rintro p σ'' μ'' ⟨hp, hty, rfl, rfl⟩
  exact ⟨b, r, hab, hr, (hprim r).trans hp, hty, P.holds_moved _ _ hold₅, rfl⟩

end Pact

end TreeCode

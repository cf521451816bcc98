import TreeCode.Proofs.Agree.Leaf
import TreeCode.Proofs.Operator.Kind
import TreeCode.Proofs.Operator.Typing

/-!
# Assignment and operators

Operands are evaluated from left to right on both sides. The machine converts
the left operand before the right one is evaluated, direct evaluation converts
both afterwards; conversions of numbers never fail, so the order does not show.

Main results:

* `agrees_assign` — assignment to a variable.
* `Bench.Ready.asKind` — conversion of an operand.
* `Span.withRight` — the right operand and the operator.
* `agrees_binary`, `agrees_not` — operators.
-/

namespace TreeCode

open Draft Lower

variable {J : Discipline} {X : Bench J} {G G' : Frame} {a b : J.State} {σ σ' : EvalState}
  {μ μ' : MachineState} {s s' t t' : Draft} {st st' : List Value} {pd : List Pending}
  {L L' P P₁ P₂ P₃ I₁ I₃ : List Nat} {g : Bool} {i : Instr} {u : Unit}

/-! ## Slots -/

namespace Bench.Ready

/-- A store to a slot, as an instruction. -/
theorem storeLocal (R : X.Ready) {x : Value} {k : Nat} (h : Stands X G a σ s (x :: st) pd μ)
    (hF : (s.emitted (.storeLocal k)).Leads X.final) (hk : k < X.final.numLocals)
    (hold : ∀ μ, Holds X G a σ μ →
      Holds X G' a σ' { μ with locals := μ.locals.setIfInBounds k x }) :
    X.Reaches μ (Stands X G' a σ' (s.emitted (.storeLocal k)) st pd) := by
  have hat := h.place
  have hsize : k < μ.locals.size := h.holds.size ▸ hk
  have hexec : X.machine.exec (.storeLocal k) { μ with pointer := μ.pointer + 1 } =
      .ok none { μ with
        pointer := μ.pointer + 1, stack := st, locals := μ.locals.setIfInBounds k x } := by
    obtain ⟨w, p, stack, locals, q⟩ := μ
    obtain rfl : stack = _ := hat.stack
    have hsize : k < locals.size := hsize
    simp only [Machine.exec, MachineM.pop, MachineM.writeSlot, bind, EStateM.bind, if_pos hsize]
    rfl
  refine .of_goes (R.goes (by rw [hat.pointer]; exact emitted hF rfl) hexec) (.here ⟨?_, ?_⟩)
  · exact (hold μ h.holds).moved rfl rfl
  · have hh := hat.height
    simp only [List.length_cons] at hh
    exact ⟨by simp [hat.pointer, Draft.emitted], by simp [Draft.emitted, hat.reachable,
      Instr.transfersControl], rfl, by simp [Draft.emitted, effectOf, ← hh], hat.pending⟩

/-- A value is put aside in a new slot. -/
theorem putAside (R : X.Ready) {x : Value} {k : Nat} (h : Stands X G a σ s (x :: st) pd μ)
    (hF : (s.emitted (.storeLocal k)).Leads X.final) (hc : G.Clear k)
    (hk : k < X.final.numLocals) :
    X.Reaches μ (Stands X (G.freeze k x) a σ (s.emitted (.storeLocal k)) st pd) :=
  R.storeLocal h hF hk fun _ hold => hold.freeze x hc hk

/-- A variable is assigned. -/
theorem assignTwin (R : X.Ready) {x : Value} {t : Twin} (h : Stands X G a σ s (x :: st) pd μ)
    (hF : (s.emitted (.storeLocal t.slot)).Leads X.final) (hf : Suits X G s) (ht : t ∈ G.twins)
    (hx : J.has a x t.ty) :
    X.Reaches μ (Stands X G a
      { σ with world := { σ.world with store := σ.world.store.setCell t.ref x } }
      (s.emitted (.storeLocal t.slot)) st pd) := by
  refine R.storeLocal h hF ?_ fun _ hold => hold.assign ht hx hf.refs hf.slots fun p => hf.apart t ht p
  exact Nat.lt_of_lt_of_le (hf.twin_lt t ht) hF.numLocals_le

end Bench.Ready

/-! ## Assignment -/

theorem agrees_assign {ty : Ty} {v : Var} {e : Expr} {m : Option Method} (A : Agrees X [] e)
    (hty : X.types v.id = v.ty) (ht : ty = v.ty) (hfit : v.ty.accepts e.ty = true)
    (hvoid : e.ty.isVoid = false) : Agrees X L (.binary ty .assign (.var v) e m) := by
  refine Agrees.of_node ?_
  intro f s s' G pd st a n σ μ S hst hpace hdepth
  have R := S.span.ready
  have hlow : (do
      let ref ← homeOf v
      e.part.emit f.operand
      if !f.discarded then emit .dup
      store ref : LowerM Unit) X.env s = .ok ((), s') := S.lowered
  simp only [bind_ok] at hlow
  obtain ⟨home, s₀, hhome, ⟨⟩, s₁, he, hlow⟩ := hlow
  obtain ⟨rfl, k, rfl, hk⟩ := R.homeOf hhome
  obtain ⟨ref, -, href, hmem, -⟩ := hst.holds.lookup S.span.fits hk
  rw [Walk.node_assign href]
  have hstep : Step True X.names [] [] s₁ s' := by
    simp only [ite_ok, emit_bind, store, emit_ok] at hlow
    rcases hlow with ⟨-, rfl⟩ | ⟨-, rfl⟩
    · exact ((Quiet.emitted _ _).trans (.emitted _ _)).step
        ((Same.emitted _ _).trans (.emitted _ _))
    · exact (Quiet.emitted _ _).step (.emitted _ _)
  have hnd : e.placed.Nodup := S.span.nodup
  have O : OperandAt X e.placed _ _ s s' G pd [] s G n e :=
    { span := S.span, agrees := A, plain := S.plain.2, valued := hvoid, before := ⟨[], .refl s⟩
      placed := ⟨hnd, List.Subset.refl _, by simp⟩, fits := S.span.fits, weaker := fun _ _ _ h => h
      depth := by simp [Expr.height] at hdepth; omega
      paced := hpace.part (by simp; omega) }
  refine (O.eval (o := []) he rfl hstep hst (J.le_refl a)).bind (fun _ _ _ h => h)
    fun x σ' μ' hx => ?_
  obtain ⟨b, hab, hhas, hst'⟩ := hx
  have hhas := J.accepts_has hfit hvoid hhas
  -- The cell and the slot are written together: they are twins.
  have hmem' : Twin.ty ⟨ref, k, X.types v.id⟩ = v.ty := hty
  have hfits := S.span.fits.step (Expr.emit_step he S.plain.2 S.span.sound)
  refine .ok (Bench.Reaches.mono (P := Stands X G b
    { σ' with world := { σ'.world with store := σ'.world.store.setCell ref x } } s'
      (f.pushed x st) pd) ?_ fun μ' h => ⟨b, hab, ht ▸ hhas, h⟩)
  simp only [ite_ok, emit_bind, store, emit_ok] at hlow
  rcases hlow with ⟨hd, rfl⟩ | ⟨hd, rfl⟩
  · have hpush : f.pushed x st = x :: st := by simp_all [Usage.pushed]
    rw [hpush]
    refine (R.dup hst' ((Quiet.emitted _ _).leads.trans S.span.leads)).bind fun μ₁ h₁ => ?_
    exact R.assignTwin h₁ S.span.leads (hfits.step
      ((Quiet.emitted _ _).step (P := []) (I := []) (.emitted _ _))) hmem (hmem' ▸ hhas)
  · have hpush : f.pushed x st = st := by simp_all [Usage.pushed]
    rw [hpush]
    exact R.assignTwin hst' S.span.leads hfits hmem (hmem' ▸ hhas)

/-! ## Conversions -/

/-- Values of the type are numbers of a kind, or null if the type has null. -/
def Discipline.Lifted (J : Discipline) (t : Ty) (k : NumKind) : Prop :=
  t.liftedNumKind? = some k ∧ ∀ a v, J.has a v t →
    (v = .null ∧ t.isNullable = true) ∨ ∃ n, v = .num n ∧ n.kind = k

theorem Discipline.lifted_num (J : Discipline) (k : NumKind) : J.Lifted (.num k) k :=
  ⟨rfl, fun _ _ h => .inr (J.num_of h)⟩

namespace Bench.Ready

/-- An instruction that replaces the value on top of the stack. -/
theorem replace (R : X.Ready) {v : Value} (v' : Value) (h : Stands X G a σ s (v :: st) pd μ)
    (hF : (s.emitted i).Leads X.final) (hi : i.target? = none) (ht : i.transfersControl = false)
    (heff : effectOf s.methods i = (1, 1))
    (hexec : ∀ (w : World) (p : Nat) (l : Array Value) (q : List Pending),
      X.machine.exec i ⟨w, p, v :: st, l, q⟩ = .ok none ⟨w, p, v' :: st, l, q⟩) :
    X.Reaches μ (Stands X G a σ (s.emitted i) (v' :: st) pd) := by
  refine R.carry h hF hi ht (fun μ hμ _ => ?_) (by simp [heff])
  obtain ⟨w, p, stack, locals, q⟩ := μ
  obtain rfl : stack = _ := hμ
  exact hexec w p locals q

theorem convertUnlessNull (R : X.Ready) {v : Value} {k : NumKind} (hs : s.Sound)
    (h : Stands X G a σ s (v :: st) pd μ) (hc : Lower.convertUnlessNull k X.env s = .ok (u, s'))
    (hF : s'.Leads X.final) (hv : v = .null ∨ ∃ n, v = .num n) :
    ∃ v', Operator.asKind v k = .ok v' ∧ X.Reaches μ (Stands X G a σ s' (v' :: st) pd) := by
  simp only [Lower.convertUnlessNull, bind_ok, emit_ok] at hc
  obtain ⟨r, s₁, hr, _, _, rfl, _, s₃, hj, _, _, rfl, hp⟩ := hc
  have st₁ : Step True X.names [] [] s s₁ := freshLabel_step hr
  have hs₁ := st₁.stage.sound hs
  have hlt : r < s₁.labels.size := (freshLabel_internal hs hr).lt
  have hjump := jumpTo_jumped hj
  have hq : Quiet s₁ (s₃.emitted (.convert k)) :=
    (Quiet.emitted s₁ .dup).trans (hjump.quiet.trans (.emitted _ _))
  have hq₃ : Quiet (s₁.emitted .dup) s₃ := hjump.quiet
  obtain ⟨hplaced, st₄⟩ := (hq.step (c := True) (N := X.names) (P := []) (I := [])
    ((Same.emitted _ _).trans (hjump.same.trans (.emitted _ _)))).placing hs hr (by simp) hp
  have hF₄ := st₄.stage.leads.trans hF
  have hF₃ := (Quiet.emitted s₃ (.convert k)).leads.trans hF₄
  have hF₂ := hq₃.leads.trans hF₃
  have h₁ : Stands X G a σ s₁ (v :: st) pd μ := by
    obtain ⟨rfl, rfl⟩ := freshLabel_ok.1 hr
    exact ⟨h.holds, h.place.pointer, h.place.reachable, h.place.stack, h.place.height,
      h.place.pending⟩
  -- The test takes the copy that is on top.
  have htest : X.Reaches μ fun μ' => Holds X G a σ μ' ∧
      if v.isNull then Landed X.final r (v :: st) pd μ' else At s₃ (v :: st) pd μ' := by
    refine (R.dup h₁ hF₂).bind fun μ₂ h₂ => ?_
    refine R.branch v.isNull (v :: st) h₂ hj ((Quiet.emitted s₁ .dup).sound hs₁) hlt hF₃
      (fun _ => rfl) (fun q μ hμ => ?_) (by simp [effectOf])
    obtain ⟨w, p, stack, locals, q'⟩ := μ
    obtain rfl : stack = _ := hμ
    cases v <;> rfl
  rcases hv with rfl | ⟨n, rfl⟩
  · refine ⟨.null, rfl, htest.mono fun μ' hμ => ⟨hμ.1, ?_⟩⟩
    exact Landed.place (by simpa [Value.isNull] using hμ.2) hplaced hF
  · refine ⟨_, Operator.asKind_num_eq n k, htest.bind fun μ' hμ => ?_⟩
    refine (R.replace (i := .convert k) (.num (n.convert k))
      ⟨hμ.1, by simpa [Value.isNull] using hμ.2⟩ hF₄ rfl rfl rfl
      fun _ _ _ _ => rfl).mono fun μ'' h'' => ?_
    exact ⟨h''.holds, h''.place.placed hplaced⟩

/-- An operand is converted to the kind of an operation. -/
theorem asKind (R : X.Ready) {v : Value} {ty : Ty} {k k' : NumKind} {f : Usage} (hs : s.Sound)
    (h : Stands X G a σ s (v :: st) pd μ) (hc : Lower.asKind ty k f X.env s = .ok (u, s'))
    (hF : s'.Leads X.final) (hf : f.checked = false) (hv : J.has a v ty)
    (hk : J.Lifted ty k') :
    ∃ v', Operator.asKind v k = .ok v' ∧ X.Reaches μ (Stands X G a σ s' (v' :: st) pd) := by
  simp only [Lower.asKind, ite_ok, pure_ok, emit_ok, hf] at hc
  have hcases := hk.2 _ _ hv
  rcases hc with ⟨heq, -, rfl⟩ | ⟨hne, ⟨hnull, hc⟩ | ⟨hnull, rfl⟩⟩
  · obtain rfl : k' = k := by simpa [hk.1] using heq
    refine ⟨v, ?_, .here h⟩
    rcases hcases with ⟨rfl, -⟩ | ⟨n, rfl, rfl⟩
    · rfl
    · rw [Operator.asKind_num_eq, Num.convert_self]
  · refine R.convertUnlessNull hs h hc hF ?_
    rcases hcases with ⟨rfl, -⟩ | ⟨n, rfl, -⟩
    · exact .inl rfl
    · exact .inr ⟨n, rfl⟩
  · rcases hcases with ⟨-, hn⟩ | ⟨n, rfl, -⟩
    · simp [hn] at hnull
    · exact ⟨_, Operator.asKind_num_eq n k, R.replace _ h hF rfl rfl rfl fun _ _ _ _ => rfl⟩

end Bench.Ready

/-! ## Binary operators -/

/-- A constant evaluates to itself. -/
theorem Bench.walk_constant {n : Nat} {ty : Ty} {v : Value}
    {E : Exit → EvalState → MachineState → Prop} (hpace : X.Paced n (.constant ty v))
    (hdepth : σ.world.depthAt X.gauge < X.gauge.max) :
    X.Meets μ ((X.walk n).valueOf (.constant ty v) σ) (fun x σ' μ' => x = v ∧ σ' = σ ∧ μ' = μ)
      E := by
  cases n with
  | zero => exact .cut fun hb => absurd hb (by simp [hpace.not_zero])
  | succ n =>
    have : (X.walk (n + 1)).valueOf (.constant ty v) σ = .ok v σ := by
      show EvalM.deeper X.gauge ((X.walk n).node (.constant ty v)) σ = _
      rw [EvalM.deeper_eq _ hdepth]
      exact congrArg (EStateM.Result.ok v) EvalState.deeper_atDepth
    rw [this]
    exact .ok (.here ⟨rfl, rfl, rfl⟩)

theorem asKind_step {ty : Ty} {k : NumKind} {f : Usage} (hs : s.Sound)
    (h : asKind ty k f X.env s = .ok (u, s')) : Step True X.names [] [] s s' :=
  ((acts_rule True X.names []).asKind (D := []) (J := []) (Γ := [])).stepped h hs trivial

/-- The right operand of an operation is evaluated and converted to its kind. -/
theorem OperandAt.convert {c : Expr} {f : Usage} {n : Nat} {k k' : NumKind} {o : List Value}
    (O : OperandAt X P L g s s' G pd P₁ t G' n c)
    (hlow : operandOf c.part k f.operand X.env t = .ok ((), t')) (hg : f.guarded = g)
    (h₃ : Step True X.names P₃ I₃ t' s') (hst : Stands X G' b σ t (o ++ st) pd μ)
    (hab : J.le a b) (hk : J.Lifted c.ty k') :
    X.Meets μ ((X.walk n).valueOf c σ) (fun v σ' μ' => ∃ d v', J.le b d ∧
      (v = .null ∧ c.ty.isNullable = true ∨ ∃ m, v = .num m) ∧
      Operator.asKind v k = .ok v' ∧ Stands X G' d σ' t' (v' :: (o ++ st)) pd μ')
      (Out X L' s s' G pd st a) := by
  have R := O.span.ready
  have hF := h₃.stage.leads.trans O.span.leads
  unfold operandOf at hlow
  cases hfold : foldedConstant? c.part.expr k with
  -- The constant was converted when it was emitted: what is pushed is what conversion gives.
  | some x =>
    simp only [hfold] at hlow
    obtain ⟨ty, m, rfl, rfl⟩ : ∃ ty m, c = .constant ty (.num m) ∧ x = .num (m.convert k) := by
      rw [Expr.part_expr] at hfold
      unfold foldedConstant? at hfold
      split at hfold
      · rename_i ty m
        exact ⟨ty, m, rfl, (Option.some.inj hfold).symm⟩
      · cases hfold
    have hd : σ.world.depthAt X.gauge < X.gauge.max := by
      have := O.depth
      rw [hst.holds.depthAt]
      simp only [Expr.height] at this
      omega
    refine (Bench.walk_constant O.paced hd).after ?_
    rintro v σ' μ' ⟨rfl, rfl, rfl⟩
    exact (R.pushValue hst hlow hF (Value.faithful_num _)).mono fun μ' h =>
      ⟨b, _, J.le_refl b, .inr ⟨m, rfl⟩, Operator.asKind_num_eq m k, h⟩
  | none =>
    simp only [hfold, bind_ok, Expr.part_ty] at hlow
    obtain ⟨_, t₁, he, hc⟩ := hlow
    have hs₁ := (Expr.emit_step he O.plain O.sound).stage.sound O.sound
    have hstep : Step True X.names ([] ++ P₃) ([] ++ I₃) t₁ s' := (asKind_step hs₁ hc).comp h₃
    refine (O.eval (f := f.operand) he hg hstep hst hab).after ?_
    rintro v σ' μ' ⟨d, hbd, hhas, hst'⟩
    obtain ⟨v', hv', hreach⟩ := R.asKind hs₁ hst' hc hF rfl hhas hk
    have hnum : v = .null ∧ c.ty.isNullable = true ∨ ∃ m, v = .num m :=
      (hk.2 _ _ hhas).imp_right fun h => h.imp fun _ hm => hm.1
    exact hreach.mono fun μ' h => ⟨d, v', hbd, hnum, hv', h⟩

/-- A numeric operator on two numbers. -/
theorem Walk.numeric_of_nums {op : BinaryOp} {lty rty : Ty} {k : NumKind}
    (hk : op.kind? lty rty = some k) (hlift : isLifted lty rty = false) (m m' : Num) :
    Walk.numeric op lty (.num m) rty (.num m') =
      match op.cmp?, op.arith? with
      | some cmp, _ => (fun v => (v, if op.isRelational then .bool else .num k)) <$>
        (Value.bool <$> Operator.compare cmp (.num (m.convert k)) (.num (m'.convert (op.rightKind k))))
      | none, some arith => (fun v => (v, if op.isRelational then .bool else .num k)) <$>
        Operator.arith arith (.num (m.convert k)) (.num (m'.convert (op.rightKind k)))
      | none, none => .error (.defect (.binaryOperator op)) := by
  rw [Walk.numeric, hk]
  simp only [hlift, Operator.asKind_num_eq, Bool.false_and, Bool.false_eq_true, if_false]
  cases op.cmp? with
  | some cmp =>
    cases hc : Operator.compare cmp (.num (m.convert k)) (.num (m'.convert (op.rightKind k))) <;>
      simp [bind, Except.bind, pure, Except.pure, hc]
  | none =>
    cases op.arith? with
    | some arith =>
      cases hc : Operator.arith arith (.num (m.convert k)) (.num (m'.convert (op.rightKind k))) <;>
        simp [bind, Except.bind, pure, Except.pure, hc]
    | none => rfl

/-- An instruction of a binary operator is carried out. -/
theorem Span.combine (S : Span X P L g s s' G pd) {T : J.State → Value → Prop} {l r : Value}
    {x : Except OpError Value} {o : List Value}
    (h₁ : Step True X.names P₁ I₁ s t) (h₃ : Step True X.names P₃ I₃ (t.emitted i) s')
    (hst : Stands X G' b σ t (r :: l :: (o ++ st)) pd μ) (hab : J.le a b)
    (hhold : ∀ σ b μ, Holds X G' b σ μ → Holds X G b σ μ)
    (hx : i.combine? l r = some x) (hT : ∀ v, x = .ok v → T b v) :
    X.Meets μ (EvalM.ofRun (RunM.ofOp x) σ) (fun v σ' μ' => ∃ c, J.le b c ∧ T c v ∧
      Stands X G' c σ' (t.emitted i) (v :: (o ++ st)) pd μ') (Out X L' s s' G pd st a) := by
  have hstatic := Instr.plain_of_combine? (s := t) hx
  exact S.act [r, l] (fun v => [v]) h₁ h₃ hst hab hhold hstatic.1
    (fun _ _ _ => hstatic.2.1) (Bench.answers_op hst.holds.good hst.holds.world x hT)
    (fun μ hμ => Machine.exec_combine hx hμ) (by simp [hstatic.2.2]; omega)

/-- Arithmetic keeps the kind of its left operand. -/
theorem Operator.arith_kind {op : ArithOp} {m n : Num} {v : Value}
    (h : Operator.arith op (.num m) (.num n) = .ok v) : ∃ k : Num, v = .num k ∧ k.kind = m.kind := by
  unfold Operator.arith at h
  split at h
  · cases hs : Num.shift (op == .shl) m n with
    | ok k =>
      simp only [hs, Except.ok.injEq] at h
      refine ⟨k, h.symm, ?_⟩
      unfold Num.shift at hs
      split at hs <;> simp_all
      rw [← hs]
      rfl
    | error e => simp [hs] at h
  · cases hs : Num.arith op m n with
    | ok k =>
      simp only [hs, Except.ok.injEq] at h
      refine ⟨k, h.symm, ?_⟩
      unfold Num.arith at hs
      split at hs
      · split at hs
        · split at hs <;> simp_all
          rw [← hs]
          rfl
        · simp at hs
      all_goals
        cases op <;> simp at hs <;> rw [← hs] <;> rfl
    | error e => cases e <;> simp [hs] at h

/-- A value that an operator gives may be tagged. -/
theorem EvalM.ofRun_ofOp_map {α β : Type} (f : α → β) (x : Except OpError α) :
    EvalM.ofRun (RunM.ofOp (f <$> x)) = (EvalM.ofRun (RunM.ofOp x) >>= fun v => pure (f v)) := by
  funext σ
  rcases x with (e | d | _ | _) | v <;> rfl

/-- Operand types that a primitive operator without null can be applied to:
numbers, and for equality all types that are not taken for numbers. -/
def BinaryOp.Primitive (op : BinaryOp) (l r : Ty) : Prop :=
  ((op = .equal ∨ op = .notEqual) ∧ op.kind? l r = none) ∨ ∃ k k', l = .num k ∧ r = .num k'

/-- The instruction of an operator is carried out, both operands being converted. -/
theorem Span.apply {n : Nat} {b₀ : J.State} (S : Span X P L g s s' G pd) {l r l' r' : Value}
    {lty rty ty : Ty} {op : BinaryOp} {method : Option Method} {x : Except OpError Value}
    {o : List Value} (h₁ : Step True X.names P₁ I₁ s t)
    (h₃ : Step True X.names P₃ I₃ (t.emitted i) s')
    (hst : Stands X G' b σ t (r' :: l' :: (o ++ st)) pd μ) (hab : J.le a b₀) (hb₀ : J.le b₀ b)
    (hhold : ∀ σ b μ, Holds X G' b σ μ → Holds X G b σ μ)
    (hm : method.or (op.methodNamed? X.env.catalog lty rty) = none)
    (hx : i.combine? l' r' = some x)
    (hop : Walk.primitive op lty l rty r = (fun v => (v, ty)) <$> x)
    (hT : ∀ v, x = .ok v → J.has b v ty) :
    X.Meets μ (EvalM.ofRun ((X.walk n).combine op lty l rty r method) σ) (fun p σ' μ' =>
      ∃ c, J.le b₀ c ∧ p.2 = ty ∧ J.has c p.1 ty ∧
        Stands X G' c σ' (t.emitted i) (p.1 :: (o ++ st)) pd μ') (Out X L' s s' G pd st a) := by
  have hcat : (X.walk n).host.catalog = X.env.catalog := S.ready.catalog.symm
  have hcombine : (X.walk n).combine op lty l rty r method =
      RunM.ofOp ((fun v => (v, ty)) <$> x) := by
    simp only [Walk.combine, hcat, hm, hop]
  rw [hcombine, EvalM.ofRun_ofOp_map]
  refine (S.combine (T := fun c v => J.has c v ty) h₁ h₃ hst (J.le_trans hab hb₀) hhold hx hT).bind
    (fun _ _ _ h => h) fun v σ' μ' hv => ?_
  obtain ⟨c, hbc, hhas, hst'⟩ := hv
  exact .pure ⟨c, J.le_trans hb₀ hbc, rfl, hhas, hst'⟩

namespace OperandAt

variable {c : Expr} {f : Usage} {n : Nat} {op : BinaryOp} {lty ty : Ty} {method : Option Method}
  {l : Value} {o : List Value} {k k' k₁ k₂ : NumKind}

theorem operandOf_step (hs : t.Sound) (hp : c.Plain X.names)
    (h : operandOf c.part k f X.env t = .ok (u, t')) : Step True X.names c.placed [] t t' :=
  ((acts_rule _ X.names _).operandOf (J := []) (Γ := []) (c.part_acts X.names).emit).stepped h hs hp

/-- The left operand is converted, then the right one is evaluated and converted. -/
theorem converted (O : OperandAt X P L g s s' G pd P₁ t G' n c) (hg : f.guarded = g)
    (hlow : (do Lower.asKind lty k f.operand; operandOf c.part k' f.operand : LowerM Unit) X.env t =
      .ok ((), t'))
    (h₃ : Step True X.names P₃ I₃ t' s') (hst : Stands X G' b σ t (l :: (o ++ st)) pd μ)
    (hl : J.has b l lty) (hab : J.le a b) (hlk : J.Lifted lty k₁)
    (hrk : J.Lifted c.ty k₂) :
    ∃ l', Operator.asKind l k = .ok l' ∧ Step True X.names c.placed [] t t' ∧
    X.Meets μ ((X.walk n).valueOf c σ) (fun r σ' μ' => ∃ d r', J.le b d ∧
      (r = .null ∧ c.ty.isNullable = true ∨ ∃ m, r = .num m) ∧
      Operator.asKind r k' = .ok r' ∧ Stands X G' d σ' t' (r' :: l' :: (o ++ st)) pd μ')
      (Out X L' s s' G pd st a) := by
  simp only [bind_ok] at hlow
  obtain ⟨_, t₁, hleft, hright⟩ := hlow
  have O₁ := O.later (asKind_step O.sound hleft)
  have hstep := operandOf_step O₁.sound O.plain hright
  have hF := hstep.stage.leads.trans (h₃.stage.leads.trans O.span.leads)
  obtain ⟨l', hl', hreach⟩ := O.span.ready.asKind O.sound hst hleft hF rfl hl hlk
  refine ⟨l', hl', (asKind_step O.sound hleft).comp hstep, hreach.meets fun μ' hst' => ?_⟩
  exact O₁.convert (o := l' :: o) hright hg h₃ hst' hab hrk

/-- The draft after the operand. -/
theorem reached (O : OperandAt X P L g s s' G pd P₁ t G' n c) (h : Step True X.names P₂ I₃ t t') :
    ∃ I, Step True X.names (P₁ ++ P₂) I s t' := by
  obtain ⟨I, hb⟩ := O.before
  exact ⟨_, hb.comp h⟩

/-- Equality with a right operand. -/
theorem equality (O : OperandAt X P L g s s' G pd P₁ t G' n c) (hg : f.guarded = g)
    (hop : op = .equal ∨ op = .notEqual)
    (hnum : op.kind? lty c.ty = none ∨ ∃ k k', J.Lifted lty k ∧ J.Lifted c.ty k')
    (hlow : Lower.equality op lty c.part f X.env t = .ok (ty, t'))
    (h₃ : Step True X.names P₃ I₃ t' s') (hst : Stands X G' b σ t (l :: (o ++ st)) pd μ)
    (hl : J.has b l lty) (hab : J.le a b)
    (hm : method.or (op.methodNamed? X.env.catalog lty c.ty) = none) :
    X.Meets μ ((do
        let r ← (X.walk n).valueOf c
        EvalM.ofRun ((X.walk n).combine op lty l c.ty r method)) σ) (fun p σ' μ' =>
      ∃ d, J.le b d ∧ p.2 = ty ∧ J.has d p.1 ty ∧ Stands X G' d σ' t' (p.1 :: (o ++ st)) pd μ')
      (Out X L' s s' G pd st a) := by
  have hprim : ∀ r, Walk.primitive op lty l c.ty r = Walk.equality op lty l c.ty r := by
    intro r
    rcases hop with rfl | rfl <;> rfl
  have hinstr : ∀ l' r', (if op == .equal then Instr.eq else .notEq).combine? l' r' =
      some (.ok (.bool (l'.equals r' == (op == .equal)))) := by
    intro l' r'
    rcases hop with rfl | rfl
    · simp [Instr.combine?]
    · have : (BinaryOp.notEqual == BinaryOp.equal) = false := rfl
      simp [Instr.combine?, this]
  unfold Lower.equality at hlow
  cases hk : op.kind? lty c.ty with
  | none =>
    simp only [Expr.part_ty, hk, bind_ok, emit_ok, pure_ok] at hlow
    obtain ⟨_, t₁, he, _, _, rfl, rfl, rfl⟩ := hlow
    obtain ⟨I, hb⟩ := O.reached (Expr.emit_step he O.plain O.sound)
    refine (O.eval (o := l :: o) he hg h₃.ofEmitted hst hab).bind (fun _ _ _ h => h)
      fun r σ' μ' hr => ?_
    obtain ⟨d, hbd, hhas, hst'⟩ := hr
    refine O.span.apply hb h₃ hst' hab hbd O.weaker hm (hinstr l r) ?_ ?_
    · rw [hprim, Walk.equality, hk]
      rfl
    · rintro _ ⟨⟩
      exact J.bool_has d _
  | some k =>
    simp only [Expr.part_ty, hk, bind_ok, emit_ok, pure_ok] at hlow
    obtain ⟨_, t₀, hleft, _, t₁, hright, _, _, rfl, rfl, rfl⟩ := hlow
    obtain ⟨k₁, k₂, hlk, hrk⟩ := hnum.resolve_left (by simp [hk])
    obtain ⟨l', hl', hstep, hmeets⟩ := O.converted hg (bind_ok.2 ⟨_, t₀, hleft, hright⟩) h₃.ofEmitted hst hl hab
      hlk hrk
    obtain ⟨I, hb⟩ := O.reached hstep
    refine hmeets.bind (fun _ _ _ h => h) fun r σ' μ' hr => ?_
    obtain ⟨d, r', hbd, -, hr', hst'⟩ := hr
    refine O.span.apply hb h₃ hst' hab hbd O.weaker hm (hinstr l' r') ?_ ?_
    · rw [hprim, Walk.equality, hk]
      simp only [hl', hr']
      rfl
    · rintro _ ⟨⟩
      exact J.bool_has d _

/-- A numeric operator with a right operand. -/
theorem numeric (O : OperandAt X P L g s s' G pd P₁ t G' n c) (hg : f.guarded = g)
    (hlty : lty = .num k₁) (hrty : c.ty = .num k₂) (hop : op ≠ .equal ∧ op ≠ .notEqual)
    (hlow : Lower.numeric op lty c.part f X.env t = .ok (ty, t'))
    (h₃ : Step True X.names P₃ I₃ t' s') (hst : Stands X G' b σ t (l :: (o ++ st)) pd μ)
    (hl : J.has b l lty) (hab : J.le a b)
    (hm : method.or (op.methodNamed? X.env.catalog lty c.ty) = none) :
    X.Meets μ ((do
        let r ← (X.walk n).valueOf c
        EvalM.ofRun ((X.walk n).combine op lty l c.ty r method)) σ) (fun p σ' μ' =>
      ∃ d, J.le b d ∧ p.2 = ty ∧ J.has d p.1 ty ∧ Stands X G' d σ' t' (p.1 :: (o ++ st)) pd μ')
      (Out X L' s s' G pd st a) := by
  have hprim := BinaryOp.TakesNumbers.primitive (r := c.ty) (.of_num hlty (not_or.2 hop)) l
  have hlift : isLifted lty c.ty = false := by simp [hlty, hrty, isLifted, Ty.isNullable]
  unfold Lower.numeric at hlow
  simp only [Expr.part_ty] at hlow
  cases hk : op.kind? lty c.ty with
  | none => simp [hk, error_ok] at hlow
  | some k =>
    simp only [hk] at hlow
    cases o : numericInstr? op k with
    | none => simp [o, error_ok] at hlow
    | some i =>
      simp only [o, hlift, if_false, Bool.false_eq_true, bind_ok, emit_ok, pure_ok] at hlow
      obtain ⟨_, t₀, hleft, _, t₁, hright, _, _, rfl, rfl, rfl⟩ := hlow
      obtain ⟨l', hl', hstep, hmeets⟩ := O.converted hg (bind_ok.2 ⟨_, t₀, hleft, hright⟩)
        h₃.ofEmitted hst hl hab (hlty ▸ J.lifted_num k₁) (hrty ▸ J.lifted_num k₂)
      obtain ⟨I, hb⟩ := O.reached hstep
      refine hmeets.bind (fun _ _ _ h => h) fun r σ' μ' hr => ?_
      obtain ⟨d, r', hbd, hnum, hr', hst'⟩ := hr
      obtain ⟨m, rfl, -⟩ := J.num_of (hlty ▸ hl)
      obtain ⟨m', rfl⟩ : ∃ m', r = .num m' :=
        hnum.resolve_left fun h => by simp [hrty, Ty.isNullable] at h
      -- Both operands are of the kind now that the operator works on.
      rw [Operator.asKind_num_eq, Except.ok.injEq] at hl' hr'
      subst hl' hr'
      have happly := (hprim (.num m')).trans (Walk.numeric_of_nums hk hlift m m')
      unfold numericInstr? at o
      cases hcmp : op.cmp? with
      | some cmp =>
        simp only [hcmp, Option.some.injEq] at o happly
        subst o
        refine O.span.apply hb h₃ hst' hab hbd O.weaker hm rfl happly fun v hv => ?_
        have hrel := BinaryOp.isRelational_of_cmp? hcmp
        cases hc : Operator.compare cmp (.num (m.convert k)) (.num (m'.convert (op.rightKind k))) with
        | error e => simp [hc] at hv
        | ok x =>
          simp only [hc] at hv
          cases hv
          simpa [hrel] using J.bool_has d x
      | none =>
        cases harith : op.arith? with
        | none => simp [hcmp, harith] at o
        | some arith =>
          simp only [hcmp, harith, Option.some.injEq] at o happly
          subst o
          refine O.span.apply hb h₃ hst' hab hbd O.weaker hm rfl happly fun v hv => ?_
          have hrel := BinaryOp.isRelational_of_arith? harith
          obtain ⟨q, rfl, hq⟩ := Operator.arith_kind hv
          rw [Num.kind_convert] at hq
          simpa [hrel, hq] using J.num_has d q

/-- The right operand of an operator is evaluated, and the operator is applied. -/
theorem withRight (O : OperandAt X P L g s s' G pd P₁ t G' n c) (hg : f.guarded = g)
    (hlow : Lower.withRight op lty c.part method f X.env t = .ok (ty, t'))
    (hop : op.Primitive lty c.ty) (h₃ : Step True X.names P₃ I₃ t' s')
    (hst : Stands X G' b σ t (l :: (o ++ st)) pd μ) (hl : J.has b l lty) (hab : J.le a b)
    (hm : method.or (op.methodNamed? X.env.catalog lty c.ty) = none) :
    X.Meets μ ((do
        let r ← (X.walk n).valueOf c
        EvalM.ofRun ((X.walk n).combine op lty l c.ty r method)) σ) (fun p σ' μ' =>
      ∃ d, J.le b d ∧ p.2 = ty ∧ J.has d p.1 ty ∧ Stands X G' d σ' t' (p.1 :: (o ++ st)) pd μ')
      (Out X L' s s' G pd st a) := by
  simp only [Lower.withRight, read_bind, Expr.part_ty, hm] at hlow
  by_cases heq : op = .equal ∨ op = .notEqual
  · have : Lower.primitive op lty c.part f = Lower.equality op lty c.part f := by
      rcases heq with rfl | rfl <;> rfl
    refine O.equality hg heq ?_ (this ▸ hlow) h₃ hst hl hab hm
    rcases hop with ⟨-, hk⟩ | ⟨k, k', hlty, hrty⟩
    · exact .inl hk
    · exact .inr ⟨k, k', hlty ▸ J.lifted_num k, hrty ▸ J.lifted_num k'⟩
  · obtain ⟨k₁, k₂, hlty, hrty⟩ := hop.resolve_left fun h => heq h.1
    have hne : op ≠ .equal ∧ op ≠ .notEqual := not_or.1 heq
    rw [BinaryOp.TakesNumbers.lower (.of_num hlty heq)] at hlow
    exact O.numeric hg hlty hrty hne hlow h₃ hst hl hab hm

end OperandAt

/-! ## Operators as nodes -/

/-- The type of the result of an operator without null. -/
def BinaryOp.resultTy? (op : BinaryOp) (l r : Ty) : Option Ty :=
  if op.isRelational then some .bool else (op.kind? l r).map .num

/-- Lowering finds the type of the result. -/
theorem Lower.withRight_ty {op : BinaryOp} {lty ty : Ty} {c : Expr} {method : Option Method}
    {f : Usage} (h : Lower.withRight op lty c.part method f X.env t = .ok (ty, t'))
    (hop : op.Primitive lty c.ty)
    (hm : method.or (op.methodNamed? X.env.catalog lty c.ty) = none) :
    op.resultTy? lty c.ty = some ty := by
  have hnum : ∀ {k k' : NumKind}, lty = .num k → c.ty = .num k' →
      Lower.numeric op lty c.part f X.env t = .ok (ty, t') → op.resultTy? lty c.ty = some ty := by
    intro k k' hl hr h
    have hlift : isLifted lty c.ty = false := by simp [hl, hr, isLifted, Ty.isNullable]
    simp only [Lower.numeric, Expr.part_ty, hlift] at h
    cases hk : op.kind? lty c.ty with
    | none => simp [hk, error_ok] at h
    | some k =>
      cases hi : numericInstr? op k with
      | none => simp [hk, hi, error_ok] at h
      | some i =>
        simp only [hk, hi, Bool.false_eq_true, if_false, bind_ok, pure_ok] at h
        obtain ⟨-, -, -, -, -, -, -, -, -, rfl, -⟩ := h
        rw [BinaryOp.resultTy?, hk]
        cases op.isRelational <;> rfl
  have heq : op.isRelational = true → Lower.equality op lty c.part f X.env t = .ok (ty, t') →
      op.resultTy? lty c.ty = some ty := by
    intro hrel h
    simp only [Lower.equality, Expr.part_ty] at h
    rw [BinaryOp.resultTy?, if_pos hrel]
    cases hk : op.kind? lty c.ty with
    | none =>
      simp only [hk, bind_ok, pure_ok] at h
      obtain ⟨-, -, -, -, -, -, rfl, -⟩ := h
      rfl
    | some k =>
      simp only [hk, bind_ok, pure_ok] at h
      obtain ⟨-, -, -, -, -, -, -, -, -, rfl, -⟩ := h
      rfl
  simp only [Lower.withRight, read_bind, Expr.part_ty, hm] at h
  rcases hop with ⟨rfl | rfl, -⟩ | ⟨k, k', rfl, hr⟩
  · exact heq rfl h
  · exact heq rfl h
  · cases op with
    | equal => exact heq rfl h
    | notEqual => exact heq rfl h
    | _ => exact hnum rfl hr (by simpa [Lower.primitive] using h)

theorem agrees_binary {ty : Ty} {op : BinaryOp} {l r : Expr} {method : Option Method}
    (hstrict : op.isStrict = true) (hl : Agrees X [] l) (hr : Agrees X [] r)
    (hvoid : l.ty.isVoid = false ∧ r.ty.isVoid = false) (hop : op.Primitive l.ty r.ty)
    (hm : method.or (op.methodNamed? X.env.catalog l.ty r.ty) = none)
    (hty : op.resultTy? l.ty r.ty = some ty) :
    Agrees X L (.binary ty op l r method) := by
  refine Agrees.of_node ?_
  intro f s s' G pd st a n σ μ S hst hpace hdepth
  have hlow := S.lowered
  rw [Expr.emit_strict hstrict] at hlow
  simp only [bind_ok, Expr.part_ty] at hlow
  obtain ⟨_, t, hleft, ty', t', hright, hdrop⟩ := hlow
  have hplain : l.Plain X.names ∧ r.Plain X.names := S.plain
  have hh : (Expr.binary ty op l r method).height = max l.height r.height + 1 := rfl
  have Ol : OperandAt X _ _ _ s s' G pd [] s G n l :=
    S.span.operand hl hplain.1 hvoid.1 (.nil s) (List.sublist_append_left _ _) (by omega)
      (hpace.part (by simp; omega))
  have hstep := Expr.emit_step hleft hplain.1 S.span.sound
  have hs := hstep.stage.sound S.span.sound
  have hstep' := ((acts_rule _ X.names _).withRight (J := []) (Γ := []) (r.part_acts X.names).emit).stepped
    hright hs hplain.2
  have hdrop' : Step True X.names [] [] t' s' :=
    dropWhen_acts.stepped hdrop (hstep'.stage.sound hs) trivial
  have Or : OperandAt X _ _ _ s s' G pd _ t G n r :=
    S.span.operand hr hplain.2 hvoid.2 hstep (List.Sublist.refl _) (by omega)
      (hpace.part (by simp; omega))
  rw [Walk.node_right _ hstrict]
  refine (Ol.eval (o := []) hleft rfl (hstep'.comp hdrop') hst (J.le_refl a)).bind (fun _ _ _ h => h)
    fun x σ' μ' hx => ?_
  obtain ⟨b, hab, hhas, hst'⟩ := hx
  refine (Or.withRight (o := []) rfl hright hop hdrop' hst' hhas hab hm).bind
    (fun _ _ _ h => h) fun p σ' μ' hp => ?_
  obtain ⟨d, hbd, -, hhas', hst''⟩ := hp
  obtain rfl : ty' = ty := by simpa [Lower.withRight_ty hright hop hm] using hty
  refine .ok ((S.span.ready.dropWhen hst'' hdrop S.span.leads).mono fun μ' h => ?_)
  exact ⟨d, J.le_trans hab hbd, hhas', h⟩

/-- Not gives a truth value for a truth value, a number of the kind for a number. -/
theorem Discipline.not_has (J : Discipline) {a : J.State} {v v' : Value} {t : Ty}
    (ht : t = .bool ∨ ∃ k, t = .num k) (hv : J.has a v t) (h : Operator.not v = .ok v') :
    J.has a v' t := by
  rcases ht with rfl | ⟨k, rfl⟩
  · obtain ⟨x, rfl⟩ := J.bool_of hv
    cases h
    exact J.bool_has a _
  · obtain ⟨m, rfl, rfl⟩ := J.num_of hv
    cases m with
    | int k x =>
      cases h
      exact J.num_has a (.int k (~~~x))
    | f32 x => cases h
    | f64 x => cases h

theorem agrees_not {ty : Ty} {e : Expr} (A : Agrees X [] e) (hty : e.ty = ty)
    (ht : ty = .bool ∨ ∃ k, ty = .num k) : Agrees X L (.unary ty .not e none) := by
  refine Agrees.of_node ?_
  intro f s s' G pd st a n σ μ S hst hpace hdepth
  have R := S.span.ready
  have hnull : ty.isNullable = false := by rcases ht with rfl | ⟨k, rfl⟩ <;> rfl
  have hvoid : e.ty.isVoid = false := by rw [hty]; rcases ht with rfl | ⟨k, rfl⟩ <;> rfl
  have hlow : (do
      e.part.emit f.operand
      applyUnaryLifted .not ty
      dropWhen f.discarded : LowerM Unit) X.env s = .ok ((), s') := by
    have h := S.lowered
    rw [Expr.part] at h
    split at h <;> exact h
  simp only [applyUnaryLifted, hnull, Bool.false_eq_true, if_false, applyUnary, bind_ok,
    emit_ok] at hlow
  obtain ⟨_, t, he, _, _, rfl, hdrop⟩ := hlow
  have hstep := Expr.emit_step he S.plain S.span.sound
  have hs := (Step.emitted (c := True) (N := X.names) t .not).stage.sound
    (hstep.stage.sound S.span.sound)
  have hdrop' : Step True X.names [] [] (t.emitted .not) s' :=
    dropWhen_acts.stepped hdrop hs trivial
  have hh : (Expr.unary ty .not e none).height = e.height + 1 := rfl
  have O : OperandAt X _ _ _ s s' G pd [] s G n e :=
    S.span.operand A S.plain hvoid (.nil s) (List.Sublist.refl _) (by omega)
      (hpace.part (by simp))
  show X.Meets μ (((X.walk n).valueOf e >>= fun v =>
    EvalM.ofRun ((X.walk n).unaryPrimitive .not v e.ty ty)) σ) _ _
  refine (O.eval (o := []) he rfl hdrop'.ofEmitted hst (J.le_refl a)).bind (fun _ _ _ h => h)
    fun v σ' μ' hv => ?_
  obtain ⟨b, hab, hhas, hst'⟩ := hv
  rw [hty] at hhas
  have hprim : (X.walk n).unaryPrimitive .not v e.ty ty = RunM.ofOp (Operator.not v) := by
    rcases ht with rfl | ⟨k, rfl⟩
    · obtain ⟨x, rfl⟩ := J.bool_of hhas
      rfl
    · obtain ⟨m, rfl, -⟩ := J.num_of hhas
      rfl
  rw [hprim]
  refine (S.span.act (i := .not) (T := fun c v => J.has c v ty) (o := []) [v] (fun v => [v])
    hstep hdrop' hst' hab (fun _ _ _ h => h) rfl (fun _ _ _ => rfl)
    (Bench.answers_op hst'.holds.good hst'.holds.world _ fun _ hv' => J.not_has ht hhas hv') (fun μ hμ => ?_)
    (by simp [effectOf]; omega)).after fun v' σ'' μ'' hv' => ?_
  · obtain ⟨w, p, stack, locals, q⟩ := μ
    obtain rfl : stack = _ := hμ
    rw [Machine.exec]
    rcases hnot : Operator.not v with (e | d | _ | _) | v' <;>
      simp [MachineM.pop, bind, EStateM.bind, pure, EStateM.pure, hnot] <;> rfl
  · obtain ⟨c, hbc, hhas', hst''⟩ := hv'
    exact (R.dropWhen hst'' hdrop S.span.leads).mono fun _ h =>
      ⟨c, J.le_trans hab hbc, hhas', h⟩

end TreeCode

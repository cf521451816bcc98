import TreeCode.Proofs.Eval.Sound
import TreeCode.Proofs.Pact.Lifted

/-!
# Primitive operators

Operators on truth values, numbers and strings as nodes: how the instruction is found for
the types of the operands, and that it computes what direct evaluation computes.

Main results:

* `Pact.meets_withRight` — the right operand and the operator.
* `Pact.agrees_binary`, `Pact.agrees_unary` — primitive operators agree.
-/

namespace TreeCode

open Draft Lower

/-! ## Types of operands -/

/-- A strict operator that is not one of equality, concatenation or logic has numeric
operands. -/
theorem Build.primitiveType?_numeric {op : BinaryOp} {l r w : Ty}
    (hw : primitiveType? op l r = some w) (hs : Walk.isStrict op = true)
    (hop : op.TakesNumbers l r) :
    ∃ k k', l.liftedNumKind? = some k ∧ r.liftedNumKind? = some k' := by
  obtain ⟨heq, hconcat, hlogic⟩ := hop
  cases hl : l.liftedNumKind? <;> cases hr : r.liftedNumKind? <;>
    cases op <;> simp_all [primitiveType?, Walk.isStrict]

/-- Equality of values, as an instruction. -/
theorem Instr.combine?_equality {op : BinaryOp} (hop : op = .equal ∨ op = .notEqual) (l r : Value) :
    (if op == .equal then Instr.eq else .notEq).combine? l r =
      some (.ok (.bool (l.equals r == (op == .equal)))) := by
  rcases hop with rfl | rfl
  · simp [Instr.combine?]
  · have : (BinaryOp.notEqual == BinaryOp.equal) = false := rfl
    simp [Instr.combine?, this]

/-- Numbers have an operation in the kind that an operator finds for them. -/
theorem BinaryOp.kind?_lifted {op : BinaryOp} {l r : Ty} {k : NumKind} (h : op.kind? l r = some k)
    (hop : op.isShift = false) :
    ∃ k₁ k₂, l.liftedNumKind? = some k₁ ∧ r.liftedNumKind? = some k₂ := by
  simp only [kind?, hop, Bool.false_eq_true, if_false, Option.bind_eq_some_iff,
    Option.map_eq_some_iff] at h
  obtain ⟨k₁, h₁, k₂, h₂, -⟩ := h
  exact ⟨k₁, k₂, h₁, h₂⟩

/-- Unary operators on numbers and truth values. -/
def UnaryOp.isPrimitive : UnaryOp → Bool
  | .negate | .not | .increment | .decrement => true
  | _ => false

/-- Operators that move a number by one and assign nothing. -/
def UnaryOp.isStep : UnaryOp → Bool
  | .increment | .decrement => true
  | _ => false

/-- A primitive unary operator on a value other than null. -/
def Operator.unary (op : UnaryOp) (v : Value) : Except OpError Value :=
  match op with
  | .negate => negate v
  | .not => not v
  | _ => step op v

/-- Primitive unary operators keep the type of their operand, and pass null through only if the
type is nullable. -/
theorem Build.unaryType_primitive {op : UnaryOp} {e : Expr} {t : Ty} (hop : op.isPrimitive = true)
    (h : unaryType op e = .ok t) :
    t = e.ty ∧ (∀ {v : Value}, Typing.bare.Fits v e.ty → v.isNull = true → e.ty.isNullable = true) ∧
      ∀ {v y : Value}, Typing.bare.Fits v e.ty → v.isNull = false → Operator.unary op v = .ok y →
        Typing.bare.Fits y e.ty := by
  -- Only a nullable type of numbers has null among its values.
  have hnull : ∀ {k : NumKind} {v : Value}, e.ty.liftedNumKind? = some k → Typing.bare.Fits v e.ty →
      v.isNull = true → e.ty.isNullable = true := by
    intro k v hk hv hn
    rcases hv.lifted_inv hk with ⟨-, h⟩ | ⟨n, rfl, -⟩
    · exact h
    · cases hn
  -- That the operator gives a value of the type is known for every typing above the bare one.
  have hof : ∀ {y : Value} {x : Except OpError Value},
      Operator.Yields (fun z => ∀ τ, Typing.bare ≤ τ → τ.Fits z e.ty) x → x = .ok y →
      Typing.bare.Fits y e.ty := by
    rintro y x hx rfl
    cases hx with
    | ok hz => exact hz _ (le_refl _)
  cases op with
  | negate =>
    simp only [unaryType] at h
    split at h
    · rename_i k hk
      split at h
      · rename_i hsigned
        obtain rfl : e.ty = t := by simpa using h
        exact ⟨rfl, hnull hk, fun hv hn hy => hof (Walk.negate_yields hv hk hsigned hn) hy⟩
      · cases h
    · cases h
  | not =>
    simp only [unaryType] at h
    split at h
    · rename_i hbool
      obtain rfl : e.ty = t := by simpa using h
      refine ⟨rfl, fun {v} hv hn => ?_, fun hv hn hy => hof (Walk.not_yields hv (.inl hbool) hn) hy⟩
      cases hty : e.ty with
      | nullable u => rfl
      | _ =>
        rw [hty] at hbool hv
        cases hbool
        all_goals
          obtain ⟨b, rfl⟩ := hv.bool_inv
          cases hn
    · rename_i k hk
      split at h
      · rename_i hint
        obtain rfl : e.ty = t := by simpa using h
        exact ⟨rfl, hnull (k := k) (by simp [Ty.liftedNumKind?, hk, Ty.numKind?]),
          fun hv hn hy => hof (Walk.not_yields hv (.inr ⟨k, hk, hint⟩) hn) hy⟩
      · cases h
    · cases h
  | increment | decrement =>
    simp only [unaryType] at h
    split at h
    · rename_i hk
      obtain rfl : e.ty = t := by simpa using h
      obtain ⟨k, hk⟩ := Option.isSome_iff_exists.1 hk
      exact ⟨rfl, hnull hk, fun hv hn hy => hof (Walk.step_yields _ hv hk hn) hy⟩
    · cases h
  | _ => cases hop

namespace Pact

variable {P : Pact} {σ σ' : EvalState} {G : P.Frame} {a b : P.State} {μ μ' : MachineState}
  {s s' t t' : Draft} {st : List Value} {op : BinaryOp} {lty ty w : Ty} {l : Value} {c : Expr}
  {f : Usage} {n : Nat}

/-! ## Binary operators -/

/-- A test for equality. -/
theorem meets_equality (A : P.Agrees c) (hex : P.Exact c.ty) (hneat : c.Neat)
    (hvoid : c.ty.isVoid = false) (hop : op = .equal ∨ op = .notEqual)
    (hl : Typing.bare.Fits l lty)
    (hlow : Lower.equality op lty c.part f.operand P.env s = .ok (ty, s')) (S : P.Spans G s s')
    (hroom : P.Room n σ c.height) (hold : P.holds G a σ μ) :
    P.Meets a (μ.movedTo s.instrs.size (l :: st)) (((P.walk n).valueOf c >>= fun r =>
      EvalM.ofRun (RunM.ofOp (Walk.primitive op lty l c.ty r))) σ)
      (P.Combined G a op lty c.ty l s' st ty) := by
  have hprim : ∀ r, Walk.primitive op lty l c.ty r = Walk.equality op lty l c.ty r := by
    intro r
    rcases hop with rfl | rfl <;> rfl
  have hshift : op.isShift = false := by rcases hop with rfl | rfl <;> rfl
  unfold Lower.equality at hlow
  cases hk : op.kind? lty c.ty with
  | none =>
    simp only [Expr.part_ty, hk, bind_ok, emit_ok, pure_ok] at hlow
    obtain ⟨_, t, he, _, _, rfl, rfl, rfl⟩ := hlow
    refine meets_direct A hex hvoid he S hroom hold fun r _ =>
      ⟨_, Instr.combine?_equality hop l r, ?_⟩
    rw [hprim, Walk.equality, hk]
    rfl
  | some k =>
    simp only [Expr.part_ty, hk, bind_ok, emit_ok, pure_ok] at hlow
    obtain ⟨_, t₀, hleft, _, t₁, hright, _, _, rfl, rfl, rfl⟩ := hlow
    obtain ⟨k₁, k₂, hkl, hkr⟩ := BinaryOp.kind?_lifted hk hshift
    refine meets_converted A hex hneat hkl hkr hl hleft hright S hroom hold fun r l' r' _ hl' hr' =>
      ⟨_, Instr.combine?_equality hop l' r', ?_⟩
    rw [hprim, Walk.equality, hk]
    simp only [hl', hr']
    rfl

/-- A numeric operator, in its plain form or lifted. -/
theorem meets_numeric {k₁ k₂ : NumKind} (A : P.Agrees c) (hex : P.Exact c.ty) (hneat : c.Neat)
    (hkl : lty.liftedNumKind? = some k₁) (hkr : c.ty.liftedNumKind? = some k₂)
    (hl : Typing.bare.Fits l lty)
    (hprim : ∀ r, Walk.primitive op lty l c.ty r = Walk.numeric op lty l c.ty r)
    (hlow : Lower.numeric op lty c.part f.operand P.env s = .ok (ty, s')) (S : P.Spans G s s')
    (hroom : P.Room n σ c.height) (hold : P.holds G a σ μ) :
    P.Meets a (μ.movedTo s.instrs.size (l :: st)) (((P.walk n).valueOf c >>= fun r =>
      EvalM.ofRun (RunM.ofOp (Walk.primitive op lty l c.ty r))) σ)
      (P.Combined G a op lty c.ty l s' st ty) := by
  unfold Lower.numeric at hlow
  simp only [Expr.part_ty] at hlow
  cases hk : op.kind? lty c.ty with
  | none => simp [hk, error_ok] at hlow
  | some k =>
    cases hi : numericInstr? op k with
    | none => simp [hk, hi, error_ok] at hlow
    | some i =>
      simp only [hk, hi, ite_ok, bind_ok, emit_ok, pure_ok] at hlow
      rcases hlow with ⟨hlift, _, t, hlow, rfl, rfl⟩ |
        ⟨hlift, _, t₀, hleft, _, t₁, hright, _, _, rfl, rfl, rfl⟩
      · have hty : op.numericTy k lty c.ty = if op.isRelational then .bool else .nullable (.num k) := by
          rw [BinaryOp.numericTy, if_pos hlift]
        rw [← hty]
        exact meets_lifted A hex hneat hk hi hlift hkl hkr hl hlow S hroom hold hprim
      · have hty : op.numericTy k lty c.ty = if op.isRelational then .bool else .num k := by
          rw [BinaryOp.numericTy, if_neg hlift]
        rw [← hty]
        refine meets_converted A hex hneat hkl hkr hl hleft hright S hroom hold
          fun r l' r' _ hl' hr' => ?_
        obtain ⟨x, hx, hnum⟩ := Walk.numeric_eq hk hi hl' hr' (by simp [hlift])
        exact ⟨x, hx, (hprim r).trans hnum⟩

/-- The right operand of a primitive operator is evaluated, and the operator is applied. -/
theorem meets_withRight (A : P.Agrees c) (hex : P.Exact c.ty) (hneat : c.Neat)
    (hvoid : c.ty.isVoid = false) (hplain : lty.Plain ∧ c.ty.Plain)
    (hw : Build.primitiveType? op lty c.ty = some w) (hs : Walk.isStrict op = true)
    (hl : Typing.bare.Fits l lty)
    (hlow : withRight op lty c.part none f.operand P.env s = .ok (ty, s')) (S : P.Spans G s s')
    (hroom : P.Room n σ c.height) (hold : P.holds G a σ μ) :
    P.Meets a (μ.movedTo s.instrs.size (l :: st)) (((P.walk n).valueOf c >>= fun r =>
      EvalM.ofRun ((P.walk n).combine op lty l c.ty r none)) σ)
      (P.Combined G a op lty c.ty l s' st ty) := by
  have hno : ∀ catalog, (none : Option Method).or (op.methodNamed? catalog lty c.ty) = none :=
    fun catalog => Build.methodNamed?_plain op hplain.1 hplain.2
  have hcombine : ∀ r, (P.walk n).combine op lty l c.ty r none =
      RunM.ofOp (Walk.primitive op lty l c.ty r) := by
    intro r
    rw [Walk.combine, hno]
  simp only [hcombine]
  simp only [withRight, read_bind, Expr.part_ty, hno] at hlow
  by_cases heq : op = .equal ∨ op = .notEqual
  · refine meets_equality (f := f) A hex hneat hvoid heq hl ?_ S hroom hold
    rcases heq with rfl | rfl <;> exact hlow
  by_cases hconcat : op = .add ∧ lty = .str ∧ c.ty = .str
  · obtain ⟨rfl, rfl, hr⟩ := hconcat
    simp only [Lower.primitive, Expr.part_ty, hr, beq_self_eq_true, Bool.and_self, if_true, bind_ok,
      emit_ok, pure_ok] at hlow
    obtain ⟨_, t, he, _, _, rfl, rfl, rfl⟩ := hlow
    refine meets_direct A hex hvoid he S hroom hold fun r _ => ⟨_, rfl, ?_⟩
    simp only [Walk.primitive, hr, beq_self_eq_true, Bool.and_self, if_true]
    cases Operator.concat l r <;> rfl
  by_cases hlogic : (op = .and ∨ op = .or ∨ op = .exclusiveOr) ∧ lty = .bool ∧ c.ty = .bool
  · obtain ⟨hop, rfl, hr⟩ := hlogic
    obtain ⟨o, ho⟩ : ∃ o, op.arith? = some o := by rcases hop with rfl | rfl | rfl <;> exact ⟨_, rfl⟩
    have hlower : Lower.primitive op .bool c.part f.operand = (do
        c.part.emit f.operand.operand
        emit (.logical o)
        return .bool) := by
      rcases hop with rfl | rfl | rfl <;> cases ho <;>
        simp [Lower.primitive, Expr.part_ty, hr, BinaryOp.arith?]
    have hprim : ∀ r, Walk.primitive op .bool l .bool r = (·, .bool) <$> Operator.arith o l r := by
      intro r
      rcases hop with rfl | rfl | rfl <;> cases ho <;> simp only [Walk.primitive, beq_self_eq_true,
        Bool.and_self, if_true, BinaryOp.arith?, bind, Except.bind] <;>
        cases Operator.arith _ l r <;> rfl
    rw [hlower] at hlow
    simp only [bind_ok, emit_ok, pure_ok] at hlow
    obtain ⟨_, t, he, _, _, rfl, rfl, rfl⟩ := hlow
    exact meets_direct A hex hvoid he S hroom hold fun r _ => ⟨_, rfl, by rw [hr]; exact hprim r⟩
  have htakes : op.TakesNumbers lty c.ty := ⟨heq, hconcat, hlogic⟩
  obtain ⟨k₁, k₂, hkl, hkr⟩ := Build.primitiveType?_numeric hw hs htakes
  rw [BinaryOp.TakesNumbers.lower (Expr.part_ty c ▸ htakes)] at hlow
  exact meets_numeric A hex hneat hkl hkr hl (htakes.primitive l) hlow S hroom hold

/-- What the operator gives is of the type that the builder computed, and is known by that
type. -/
theorem Combined.typed {v : Value} {t : Ty} (h : P.Combined G a op lty c.ty l s' st ty (v, t) σ μ)
    (hw : Build.primitiveType? op lty c.ty = some w) (hs : Walk.isStrict op = true)
    (hl : Typing.bare.Fits l lty) :
    ∃ b, P.le a b ∧ t = ty ∧ t = w ∧ Typing.bare.Fits v w ∧ P.holds G b σ μ ∧
      μ = μ.movedTo s'.instrs.size (v :: st) := by
  obtain ⟨b, r, hab, hr, hp, hty, hold, hμ⟩ := h
  have hyields := Walk.primitive_yields hw hs hl hr
  rw [hp] at hyields
  cases hyields with
  | ok hv => exact ⟨b, hab, hty, hv.1, hv.2, hold, hμ⟩

theorem withRight_step {method : Option Method} (hs : s.Sound) (hneat : c.Neat)
    (h : withRight op lty c.part method f P.env s = .ok (ty, s')) :
    Step True .blank [] [] s s' :=
  ((acts_rule True .blank []).withRight (J := []) (Γ := [])
    ((acts_rule True .blank []).part c [] (hneat [])).emit).stepped h hs trivial

theorem dropWhen_step {d : Bool} {u : Unit} (h : dropWhen d P.env s = .ok (u, s')) (hs : s.Sound) :
    Step True .blank [] [] s s' := dropWhen_acts.stepped h hs trivial

/-- A value that stays on the stack, or is dropped as the usage says. -/
theorem Gives.dropped {v v' : Value} {u : Unit} (hlow : dropWhen f.discarded P.env s = .ok (u, s'))
    (hF : s'.Leads P.final) (hab : P.le a b) (hfit : P.fits b ty v v') (hold : P.holds G b σ μ)
    (hμ : μ = μ.movedTo s.instrs.size (v' :: st)) :
    Comes P.machines μ (P.Gives G a f ty s' st v σ) := by
  rw [hμ]
  refine (dropWhen_comes P.follows hlow hF).mono ?_
  rintro _ rfl
  exact ⟨b, v', hab, fun _ => hfit, P.holds_moved _ _ hold, rfl, rfl⟩

theorem agrees_binary {left right : Expr} (A : P.Agrees left) (B : P.Agrees right)
    (hexl : P.Exact left.ty) (hexr : P.Exact right.ty) (hex : P.Exact ty)
    (hneatl : left.Neat) (hneatr : right.Neat) (hplain : left.ty.Plain ∧ right.ty.Plain)
    (hvoid : left.ty.isVoid = false ∧ right.ty.isVoid = false)
    (hty : Build.primitiveType? op left.ty right.ty = some ty) (hs : Walk.isStrict op = true) :
    P.Agrees (.binary ty op left right none) := by
  refine agrees_of_node ?_
  intro f s s' G a n σ μ st hlow S _ _ hroom hold
  have hstrict : op.isStrict = true := by
    cases op <;> first | rfl | simp [Walk.isStrict, Build.primitiveType?] at hs hty
  rw [Expr.emit_strict hstrict] at hlow
  have hroom : P.Room n σ (max left.height right.height) := hroom _ (Nat.lt_succ_self _)
  simp only [bind_ok, Expr.part_ty] at hlow
  obtain ⟨_, t, hleft, ty', t', hright, hdrop⟩ := hlow
  have h₁ := emit_step hleft hneatl S.sound
  have h₂ := withRight_step (h₁.stage.sound S.sound) hneatr hright
  have h₃ := dropWhen_step hdrop (h₂.stage.sound (h₁.stage.sound S.sound))
  rw [Walk.node_right _ hstrict]
  -- The left operand, then the right one with the operator, then the drop of an unused value.
  refine (A.exact hexl hvoid.1 hleft (S.start (h₂.comp h₃)) (hroom.le (Nat.le_max_left _ _)) hold).bind ?_
  rintro x σ₁ μ₁ hx ⟨b, hab, hl, hold₁, hμ₁⟩
  rw [hμ₁]
  refine ((meets_withRight B hexr hneatr hvoid.2 hplain hty hs hl hright ((S.rest h₁).start h₃)
    ((hroom.le (Nat.le_max_right _ _)).later (eval_depth hx)) hold₁).weaken hab).bind ?_
  rintro ⟨v, tv⟩ σ₂ μ₂ - hp
  obtain ⟨d, hbd, -, -, hv, hold₂, hμ₂⟩ := hp.typed hty hs hl
  exact Meets.pure_of_comes (Gives.dropped hdrop S.leads (P.le_trans hab hbd) (hex.2 ⟨rfl, hv⟩) hold₂ hμ₂)

/-! ## Unary operators -/

theorem applyUnary_step {op : UnaryOp} {u : Unit} (hs : s.Sound)
    (h : applyUnary op ty P.env s = .ok (u, s')) : Step True .blank [] [] s s' :=
  ((acts_rule True .blank []).applyUnary (D := []) (J := []) (Γ := [])).stepped h hs trivial

theorem applyUnaryLifted_step {op : UnaryOp} {u : Unit} (hs : s.Sound)
    (h : applyUnaryLifted op ty P.env s = .ok (u, s')) : Step True .blank [] [] s s' :=
  ((acts_rule True .blank []).applyUnaryLifted (D := []) (J := []) (Γ := [])).stepped h hs trivial

/-- What the instructions of an operator make of a value other than null. -/
theorem meets_applyUnary {op : UnaryOp} {v : Value} {u : Unit} (hop : op.isPrimitive = true)
    (hlow : applyUnary op ty P.env s = .ok (u, s')) (hF : s'.Leads P.final)
    (hv : Typing.bare.Fits v ty) (hnull : v.isNull = false) (hold : P.holds G a σ μ) :
    P.Meets a (μ.movedTo s.instrs.size (v :: st)) (EvalM.ofRun (RunM.ofOp (Operator.unary op v)) σ)
      fun y σ' μ' => Operator.unary op v = .ok y ∧ σ' = σ ∧ μ' = μ.movedTo s'.instrs.size (y :: st) := by
  -- Of the instructions only the last one does something that can fail.
  have hlast : ∀ {t : Draft} {i : Instr} {st₀ : List Value}, s' = t.emitted i → i.target? = none →
      (∀ k p, (P.machines k).exec i (μ.movedTo p st₀) =
        (μ.movedTo p st₀).acted (fun v => [v]) st (RunM.ofOp (Operator.unary op v) μ.world)) →
      P.Meets a (μ.movedTo t.instrs.size st₀) (EvalM.ofRun (RunM.ofOp (Operator.unary op v)) σ)
        fun y σ' μ' => Operator.unary op v = .ok y ∧ σ' = σ ∧
          μ' = μ.movedTo s'.instrs.size (y :: st) := by
    rintro t i st₀ rfl hi hexec
    have h := meets_operated id hF hi hexec hold
    rw [id_map] at h
    refine h.mono ?_
    rintro y σ' μ' ⟨v, hv, rfl, hσ, hμ⟩
    exact ⟨hv, hσ, hμ⟩
  have hstep : ∀ k, ty.liftedNumKind? = some k → op.isStep = true →
      (do pushValue (Operator.one k); emit (.arith op.stepArith k) : LowerM Unit) P.env s = .ok (u, s') →
      P.Meets a (μ.movedTo s.instrs.size (v :: st)) (EvalM.ofRun (RunM.ofOp (Operator.unary op v)) σ)
        fun y σ' μ' => Operator.unary op v = .ok y ∧ σ' = σ ∧
          μ' = μ.movedTo s'.instrs.size (y :: st) := by
    intro k hk hop hlow
    simp only [bind_ok, emit_ok] at hlow
    obtain ⟨_, t, hone, hs'⟩ := hlow
    obtain ⟨n, rfl, rfl⟩ := (hv.lifted_inv hk).resolve_left fun h => by simp [h.1, Value.isNull] at hnull
    have hunary : Operator.unary op (.num n) =
        Operator.arith op.stepArith (.num n) (Operator.one n.kind) := by
      cases op <;> first | rfl | cases hop
    have hpush : Comes P.machines (μ.movedTo s.instrs.size (.num n :: st))
        (· = μ.movedTo t.instrs.size (Operator.one n.kind :: .num n :: st)) :=
      pushValue_comes P.follows hone (by rw [← hs'] at hF; exact (Quiet.emitted t _).leads.trans hF)
        (Value.faithful_num _)
    refine Meets.of_comes hpush ?_
    rintro _ rfl
    exact hlast hs'.symm rfl fun k p => Machine.exec_combine (by rw [hunary]; rfl) rfl
  cases op with
  | negate =>
    cases hk : ty.liftedNumKind? with
    | none => simp [applyUnary, hk, error_ok] at hlow
    | some k =>
      simp only [applyUnary, hk, emit_ok] at hlow
      refine hlast hlow.symm rfl fun k p => ?_
      rw [Machine.exec]
      rcases hx : Operator.negate v with (e | d | _ | _) | y <;>
        simp [MachineM.pop, bind, EStateM.bind, hx, Operator.unary] <;> rfl
  | not =>
    simp only [applyUnary, emit_ok] at hlow
    refine hlast hlow.symm rfl fun k p => ?_
    rw [Machine.exec]
    rcases hx : Operator.not v with (e | d | _ | _) | y <;>
      simp [MachineM.pop, bind, EStateM.bind, hx, Operator.unary] <;> rfl
  | increment | decrement =>
    cases hk : ty.liftedNumKind? with
    | none => simp [applyUnary, hk, error_ok] at hlow
    | some k =>
      simp only [applyUnary, hk] at hlow
      exact hstep k hk rfl hlow
  | _ => cases hop

/-- A primitive operator passes null through. -/
theorem meets_applyUnaryLifted {op : UnaryOp} {v : Value} {u : Unit} (hop : op.isPrimitive = true)
    (hlow : applyUnaryLifted op ty P.env s = .ok (u, s')) (hs : s.Sound) (hF : s'.Leads P.final)
    (hv : Typing.bare.Fits v ty) (hnull : v.isNull = true → ty.isNullable = true)
    (hold : P.holds G a σ μ) :
    P.Meets a (μ.movedTo s.instrs.size (v :: st))
      (EvalM.ofRun (if v.isNull then pure .null else RunM.ofOp (Operator.unary op v)) σ)
      fun y σ' μ' => (if v.isNull then y = .null else Operator.unary op v = .ok y) ∧ σ' = σ ∧
        μ' = μ.movedTo s'.instrs.size (y :: st) := by
  simp only [applyUnaryLifted, ite_ok, bind_ok, emit_ok] at hlow
  rcases hlow with ⟨hty, r, s₁, hr, _, _, rfl, _, s₃, hj, _, s₄, happly, hp⟩ | ⟨hty, hlow⟩
  · have h₁ : Step True .blank [] [] s s₁ := freshLabel_step hr
    have hs₁ := h₁.stage.sound hs
    have hfree := Free.fresh hs hr
    have hjump := jumpTo_jumped hj
    have h₂ := Step.emitted (c := True) (N := .blank) s₁ .dup
    have h₃ : Step True .blank [] [] (s₁.emitted .dup) s₃ := hjump.quiet.step hjump.same
    have hs₃ := h₃.stage.sound (h₂.stage.sound hs₁)
    have h₄ := applyUnary_step hs₃ happly
    obtain ⟨hplaced, h₅⟩ := (hfree.step (h₂.comp (h₃.comp h₄)) (by simp)).place
      (c := True) (N := .blank) hp
    have hF₄ := h₅.stage.leads.trans hF
    have hF₃ := h₄.stage.leads.trans hF₄
    have hsize : s₁.instrs.size = s.instrs.size := by
      obtain ⟨-, rfl⟩ := freshLabel_ok.1 hr
      rfl
    rw [← hsize]
    -- The copy on top is tested; the value itself stays below.
    have htest : Comes P.machines (μ.movedTo s₁.instrs.size (v :: st)) fun μ' =>
        if v.isNull then ∃ q, P.final.Places r q ∧ μ' = μ.movedTo q (v :: st)
        else μ' = μ.movedTo s₃.instrs.size (v :: st) := by
      refine (dup_comes P.follows (h₃.stage.leads.trans hF₃)).bind ?_
      rintro _ rfl
      exact .jump P.follows v.isNull hj (h₂.stage.sound hs₁)
        (Nat.lt_of_lt_of_le hfree.internal.lt h₂.stage.leads.labels_le) hF₃
        fun k p q => by cases v <;> rfl
    refine Meets.of_comes htest fun μ' hμ' => ?_
    cases hn : v.isNull with
    | true =>
      rw [hn, if_pos rfl] at hμ'
      obtain ⟨q, hq, rfl⟩ := hμ'
      obtain rfl : v = .null := by cases v <;> first | rfl | cases hn
      rw [hq.unique (hplaced.places hF)]
      exact Comes.here ⟨rfl, rfl, rfl⟩
    | false =>
      rw [hn, if_neg Bool.false_ne_true] at hμ'
      subst hμ'
      simp only [Bool.false_eq_true, if_false]
      refine (meets_applyUnary hop happly hF₄ hv hn hold).mono ?_
      rintro y σ' μ' ⟨hy, hσ, hμ⟩
      exact ⟨hy, hσ, by rw [hμ, hplaced.size]⟩
  · have hn : v.isNull = false := by
      cases hn : v.isNull with
      | true => exact absurd (hnull hn) hty
      | false => rfl
    simp only [hn, Bool.false_eq_true, if_false]
    exact meets_applyUnary hop hlow hF hv hn hold

theorem agrees_unaryPlus {e : Expr} (A : P.Agrees e) (hty : e.ty = ty) (hvoid : ty.isVoid = false) :
    P.Agrees (.unary ty .unaryPlus e none) := by
  refine agrees_of_node ?_
  intro f s s' G a n σ μ st hlow S _ _ hroom hold
  replace hlow : e.part.emit { f.operand with discarded := f.discarded } P.env s = .ok ((), s') := hlow
  refine (A hlow S rfl (by simp [hty, hvoid]) (hroom _ (Nat.lt_succ_self _)) hold).bind
    fun v σ' μ' _ hv => ?_
  obtain ⟨b, v', hab, hfit, hold', hp, hst⟩ := hv
  exact .pure ⟨b, v', hab, fun href => hty ▸ hfit (hty ▸ href), hold', hp, hst⟩

theorem agrees_unary {op : UnaryOp} {e : Expr} (A : P.Agrees e) (hex : P.Exact e.ty)
    (hneat : e.Neat) (hop : op.isPrimitive = true) (hty : Build.unaryType op e = .ok ty) :
    P.Agrees (.unary ty op e none) := by
  obtain ⟨rfl, hnull, htyped⟩ := Build.unaryType_primitive hop hty
  -- The type of the operand has a value that is not the unit, so it is not void.
  have hvoid : e.ty.isVoid = false := by
    cases he : e.ty with
    | void => exact absurd (hnull (v := .null) (by rw [he]; exact .void _) rfl) (by simp [he, Ty.isNullable])
    | _ => rfl
  refine agrees_of_node ?_
  intro f s s' G a n σ μ st hlow S _ _ hroom hold
  have hlow : (do
      e.part.emit f.operand
      applyUnaryLifted op e.ty
      dropWhen f.discarded : LowerM Unit) P.env s = .ok ((), s') := by
    have h : Lower.unary e.ty op e.part none f P.env s = .ok ((), s') := by
      rw [Expr.part] at hlow
      split at hlow <;> exact hlow
    cases op <;> first | exact h | cases hop
  simp only [bind_ok] at hlow
  obtain ⟨_, t, he, _, t', happly, hdrop⟩ := hlow
  have h₁ := emit_step he hneat S.sound
  have hs₁ := h₁.stage.sound S.sound
  have h₂ := applyUnaryLifted_step hs₁ happly
  have h₃ := dropWhen_step hdrop (h₂.stage.sound hs₁)
  have hnode : (P.walk n).node (.unary e.ty op e none) = ((P.walk n).valueOf e >>= fun v =>
      EvalM.ofRun (if v.isNull then pure .null else RunM.ofOp (Operator.unary op v))) := by
    cases op <;> first | rfl | cases hop
  rw [hnode]
  refine (A.exact hex hvoid he (S.start (h₂.comp h₃)) (hroom _ (Nat.lt_succ_self _)) hold).bind ?_
  rintro v σ₁ μ₁ - ⟨b, hab, hv, hold₁, hμ₁⟩
  rw [hμ₁]
  -- The operator is applied unless the operand is null.
  refine ((meets_applyUnaryLifted hop happly hs₁ (h₃.stage.leads.trans S.leads) hv (hnull hv)
    hold₁).weaken hab).after ?_
  rintro y σ₂ μ₂ ⟨hy, rfl, rfl⟩
  refine Gives.dropped hdrop S.leads hab (hex.2 ⟨rfl, ?_⟩) (P.holds_moved _ _ hold₁) rfl
  cases hn : v.isNull with
  | true =>
    rw [hn, if_pos rfl] at hy
    subst hy
    exact .null (by simp [Ty.hasNull, hnull hv hn])
  | false =>
    rw [hn, if_neg Bool.false_ne_true] at hy
    exact htyped hv hn hy

end Pact

end TreeCode

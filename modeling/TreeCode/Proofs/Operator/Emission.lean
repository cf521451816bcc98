import TreeCode.Proofs.Lower.Emission
import TreeCode.Proofs.Operator.Scalar
import TreeCode.Proofs.Pact.Scene

/-!
# Operations can be emitted

Every operator on variables and constants that the builder accepts can be emitted where its
variables have a place, while there is room for two literals and two slots: lowering finds
an instruction for it, and its labels are reached at one height.

Main results:

* `operation_emits` — operations can be emitted.
-/

namespace TreeCode

open Draft Lower

namespace Lower

variable {s t : Draft} {env : LowerEnv} {f : Usage} {k : NumKind} {ty lty : Ty} {e c : Expr}
  {known : Var → Prop} {op : BinaryOp}

/-! ## Operands -/

/-- The variables have a place. -/
def Housed (known : Var → Prop) (env : LowerEnv) (s : Draft) : Prop :=
  ∀ v, known v → ∃ home, homeOf v env s = .ok (home, s)

theorem Housed.after {n m : Nat} (h : Housed known env s) (ht : Takes n m s t) : Housed known env t :=
  fun v hv => (h v hv).imp fun _ hhome => homeOf_of_slots hhome (ht.slots v.id).symm

theorem operand_emits (he : e.Operand known) (hp : Housed known env s) (h : s.HasRoom 1 0)
    (f : Usage) : ∃ t, e.part.emit f env s = .ok ((), t) ∧ Takes 1 0 s t ∧ t.labels = s.labels := by
  have hnone : Takes 1 0 s s := (Takes.refl s).mono (Nat.zero_le _) (Nat.le_refl _)
  cases he with
  | @var v hv _ =>
    obtain ⟨home, hhome⟩ := hp v hv
    show ∃ t, pushVar v f env s = .ok ((), t) ∧ _
    simp only [pushVar, bind_ok, hhome]
    by_cases hd : f.discarded = true
    · exact ⟨s, ⟨home, s, rfl, by simp [hd, pure_ok]⟩, hnone, rfl⟩
    · have hload : ∃ i, load home (f.byAddress && v.ty.isValueStruct) env s =
          .ok ((), s.emitted i) := ⟨_, rfl⟩
      obtain ⟨i, hload⟩ := hload
      exact ⟨_, ⟨home, s, rfl, by simpa [hd] using hload⟩,
        (Takes.emitted s i).mono (Nat.zero_le _) (Nat.le_refl _), rfl⟩
  | @constant u v ht hv =>
    show ∃ t, pushConstant v f env s = .ok ((), t) ∧ _
    simp only [pushConstant, (ht.literal hv).1, Option.isNone_none, if_true]
    by_cases hd : f.discarded = true
    · exact ⟨s, by simp [hd, pure_ok], hnone, rfl⟩
    · obtain ⟨t, hlow, htakes, hl, -⟩ := pushValue_emits env v h
      exact ⟨t, by simpa [hd] using hlow, htakes, hl⟩

/-- The guarded conversion of a nullable number. -/
theorem convertUnlessNull_takes (k : NumKind) : Affords (convertUnlessNull k) env 0 0 s := by
  obtain ⟨r, s₀, hfresh, h₀, -, hawaits, -⟩ := freshLabel_emits env s
  obtain ⟨s₁, hj, h₁, hd₁, -, ha, -⟩ := jumpTo_emits env (i := .jumpIfNull 0)
    (hawaits.congr (t := s₀.emitted .dup) rfl rfl) (.inl rfl)
  have hheight : (s₁.emitted (.convert k)).depth = s₁.depth := by
    simp only [Draft.emitted, effectOf] at hd₁ ⊢
    omega
  obtain ⟨s₂, hplace, h₂, -⟩ := placeLabel_arrives env
    (ha.congr (t := s₁.emitted (.convert k)) rfl rfl) fun _ => hheight
  refine ⟨(), s₂, ?_, h₀.trans ((Takes.emitted ..).trans (h₁.trans ((Takes.emitted ..).trans h₂)))⟩
  simp only [convertUnlessNull, bind_ok, emit_ok]
  exact ⟨r, s₀, hfresh, (), _, rfl, (), s₁, hj, (), _, rfl, hplace⟩

theorem asKind_emits : Affords (asKind ty k f) env 0 0 s :=
  .ite (fun _ => .pure) fun _ => .ite (fun _ => convertUnlessNull_takes k) fun _ => .emit _

/-- A checked operand is converted by one instruction, if at all. -/
theorem asKind_checked (env : LowerEnv) (ty : Ty) (k : NumKind) (hf : f.checked = true) :
    ∃ t, asKind ty k f env s = .ok ((), t) ∧
    Takes 0 0 s t ∧ t.labels = s.labels ∧ (1 ≤ s.depth → t.depth = s.depth) ∧
      t.reachable = s.reachable := by
  unfold asKind
  split
  · exact ⟨s, rfl, .refl s, rfl, fun _ => rfl, rfl⟩
  · rw [if_neg (by simp [hf])]
    refine ⟨_, rfl, .emitted s (.convert k), rfl, fun h => ?_, by simp [Instr.transfersControl]⟩
    simp only [effectOf]
    omega

theorem operandOf_emits (he : e.Operand known) (hp : Housed known env s) (h : s.HasRoom 1 0) :
    Affords (operandOf e.part k f) env 1 0 s := by
  unfold operandOf
  split
  · obtain ⟨t, hlow, ht, -⟩ := pushValue_emits env _ h
    exact ⟨(), t, hlow, ht⟩
  · obtain ⟨t, hlow, ht, -⟩ := operand_emits he hp h f.operand
    exact Affords.followed ⟨(), t, hlow, ht⟩ fun _ _ => asKind_emits

/-! ## Unary operators -/

theorem applyUnary_emits (env : LowerEnv) {op : UnaryOp} (hop : op.isPrimitive = true)
    (hty : op = .not ∨ ty.liftedNumKind?.isSome = true) (h : s.HasRoom 1 0) :
    ∃ t, applyUnary op ty env s = .ok ((), t) ∧ Takes 1 0 s t ∧ t.labels = s.labels ∧
      (1 ≤ s.depth → t.depth = s.depth) := by
  have hplain : ∀ i : Instr, effectOf s.methods i = (1, 1) → ∃ t, emit i env s = .ok ((), t) ∧
      Takes 1 0 s t ∧ t.labels = s.labels ∧ (1 ≤ s.depth → t.depth = s.depth) := by
    intro i hi
    refine ⟨_, rfl, (Takes.emitted s i).mono (Nat.zero_le _) (Nat.le_refl _), rfl, fun hd => ?_⟩
    simp only [hi]
    omega
  have hstep : ∀ k o, ∃ t, (do pushValue (Operator.one k); emit (.arith o k) : LowerM Unit) env s =
      .ok ((), t) ∧ Takes 1 0 s t ∧ t.labels = s.labels ∧ (1 ≤ s.depth → t.depth = s.depth) := by
    intro k o
    obtain ⟨t, hlow, ht, hl, hd⟩ := pushValue_emits env (Operator.one k) h
    refine ⟨_, bind_ok.2 ⟨(), t, hlow, rfl⟩, ht.trans (.emitted t (.arith o k)), hl, fun _ => ?_⟩
    simp only [effectOf, hd]
    omega
  cases op with
  | not => exact hplain _ rfl
  | negate | increment | decrement =>
    obtain ⟨k, hk⟩ := Option.isSome_iff_exists.1 (hty.resolve_left (by simp))
    simp only [applyUnary, hk]
    first | exact hplain _ rfl | exact hstep _ _
  | _ => cases hop

theorem applyUnaryLifted_emits {op : UnaryOp} (hop : op.isPrimitive = true)
    (hty : op = .not ∨ ty.liftedNumKind?.isSome = true) (h : s.HasRoom 1 0) :
    Affords (applyUnaryLifted op ty) env 1 0 s := by
  unfold applyUnaryLifted
  refine .ite (fun _ => ?_) fun _ => ?_
  · obtain ⟨r, s₀, hfresh, h₀, -, hawaits, -⟩ := freshLabel_emits env s
    obtain ⟨s₁, hj, h₁, hd₁, -, ha, -⟩ := jumpTo_emits env (i := .jumpIfNull 0)
      (hawaits.congr (t := s₀.emitted .dup) rfl rfl) (.inl rfl)
    have htakes := h₀.trans ((Takes.emitted s₀ .dup).trans h₁)
    obtain ⟨s₂, happly, h₂, hl₂, hd₂⟩ := applyUnary_emits env hop hty (h.after htakes)
    have hheight : s₂.depth = s₁.depth := hd₂ <| by
      simp only [Draft.emitted, effectOf] at hd₁
      omega
    obtain ⟨s₃, hplace, h₃, -⟩ := placeLabel_arrives env (ha.congr hl₂ h₂.cleanups)
      fun _ => hheight
    refine ⟨(), s₃, ?_, htakes.trans (h₂.trans h₃)⟩
    simp only [bind_ok, emit_ok]
    exact ⟨r, s₀, hfresh, (), _, rfl, (), s₁, hj, (), s₂, happly, hplace⟩
  · obtain ⟨t, hlow, ht, -⟩ := applyUnary_emits env hop hty h
    exact ⟨(), t, hlow, ht⟩

/-! ## Binary operators -/

/-- An operand in a slot is tested, if it may be null. -/
theorem skipIfNull_emits (env : LowerEnv) (ty : Ty) {r : Nat} {d : Option Nat} (slot : Nat)
    (hr : s.Awaits r d)
    (hd : d = none ∨ d = some s.depth) :
    ∃ t, skipIfNull slot ty r env s = .ok ((), t) ∧ Takes 0 0 s t ∧ t.depth = s.depth ∧
      t.Awaits r (if ty.hasNull then some s.depth else d) ∧
        ∀ r' d', r' ≠ r → s.Awaits r' d' → t.Awaits r' d' := by
  unfold skipIfNull
  by_cases hnull : ty.hasNull = true
  · simp only [hnull, if_true, bind_ok, emit_ok]
    have hheight : ((s.emitted (.loadLocal slot)).emitted (.jumpIfNull 0)).depth = s.depth := by
      simp only [Draft.emitted, effectOf]
      omega
    obtain ⟨t, hj, ht, hdt, -, ha, hothers⟩ := jumpTo_emits env (i := .jumpIfNull 0)
      (hr.congr (t := s.emitted (.loadLocal slot)) rfl rfl) (by rwa [hheight])
    rw [hheight] at hdt
    exact ⟨t, ⟨(), _, rfl, hj⟩, (Takes.emitted s _).trans ht, hdt, hdt ▸ ha,
      fun r' d' hne h => hothers r' d' hne (h.congr rfl rfl)⟩
  · simp only [hnull]
    exact ⟨s, rfl, .refl s, rfl, hr, fun _ _ _ h => h⟩

/-- A numeric operator takes two values and gives one. -/
theorem effectOf_numericInstr {i : Instr} (hi : numericInstr? op k = some i) (ms : Array Method) :
    effectOf ms i = (2, 1) := by
  unfold numericInstr? at hi
  split at hi <;> cases hi <;> rfl

theorem lifted_emits {i : Instr} (hi : numericInstr? op k = some i) (he : c.Operand known)
    (hp : Housed known env s) (h : s.HasRoom 1 2) (hlift : isLifted lty c.ty = true) :
    Affords (lifted op i k lty c.part f) env 1 2 s := by
  have hlift : lty.hasNull = true ∨ c.ty.hasNull = true := by
    simp only [isLifted, Bool.or_eq_true] at hlift
    exact hlift.imp (fun h => by simp [Ty.hasNull, h]) fun h => by simp [Ty.hasNull, h]
  -- The operands go to slots of their own.
  have hslot : ∀ {s : Draft}, Takes 0 1 s { s with numLocals := s.numLocals + 1 } := fun {s} =>
    ⟨fun _ => rfl, rfl, Nat.le_refl _, Nat.le_refl _⟩
  have h₁ : Takes 0 1 s ({ s with numLocals := s.numLocals + 1 }.emitted (.storeLocal s.numLocals)) :=
    hslot.trans (.emitted ..)
  obtain ⟨s₁, hs₁⟩ : ∃ s₁, s₁ = { s with numLocals := s.numLocals + 1 }.emitted
    (.storeLocal s.numLocals) := ⟨_, rfl⟩
  rw [← hs₁] at h₁
  obtain ⟨s₂, hright, h₂, -⟩ := operand_emits he (hp.after h₁) ((h.after (m := 1) (j := 1)
    h₁).mono (Nat.le_refl _) (Nat.zero_le _)) f.operand
  have hroom₂ : s₂.HasRoom 0 1 := (h.after (m := 1) (j := 1) h₁).after h₂
  obtain ⟨s₃, hs₃⟩ : ∃ s₃, s₃ = { s₂ with numLocals := s₂.numLocals + 1 }.emitted
    (.storeLocal s₂.numLocals) := ⟨_, rfl⟩
  have h₃ : Takes 0 1 s₂ s₃ := hs₃ ▸ hslot.trans (.emitted ..)
  -- Both tests jump with the same operands on the stack.
  obtain ⟨missing, s₄, hmissing, h₄, -, hawaits, -⟩ := freshLabel_emits env s₃
  obtain ⟨done, s₅, hdone, h₅, -, hawaits', hothers₅⟩ := freshLabel_emits env s₄
  obtain ⟨hne, hawaits⟩ := hothers₅ _ _ hawaits
  obtain ⟨s₆, hskip, h₆, hd₆, hawaits, hothers₆⟩ := skipIfNull_emits env lty
    s.numLocals hawaits (.inl rfl)
  obtain ⟨s₇, hskip', h₇, hd₇, hawaits, hothers₇⟩ := skipIfNull_emits env c.ty
    s₂.numLocals hawaits (by rw [hd₆]; split <;> simp)
  have hmiss : s₇.Awaits missing (some s₇.depth) := by
    rw [hd₇, hd₆]
    rcases hlift with hl | hr
    · cases hr : c.ty.hasNull <;> simpa [hl, hr, hd₆] using hawaits
    · simpa [hr, hd₆] using hawaits
  have hwait := hothers₇ _ _ hne.symm (hothers₆ _ _ hne.symm hawaits')
  -- The operation leaves one value more than there was at the tests.
  have hf : ({ f.operand with checked := true } : Usage).checked = true := rfl
  obtain ⟨s₈, hleft, h₈, hl₈, hd₈, -⟩ := asKind_checked env lty k (f := { f.operand with checked := true })
    (s := s₇.emitted (.loadLocal s.numLocals)) hf
  obtain ⟨s₉, hright', h₉, hl₉, hd₉, -⟩ := asKind_checked env c.ty (op.rightKind k)
    (f := { f.operand with checked := true }) (s := s₈.emitted (.loadLocal s₂.numLocals)) hf
  have hd₁₀ : (s₉.emitted i).depth = s₇.depth + 1 := by
    have hload : ∀ (t : Draft) slot, (t.emitted (.loadLocal slot)).depth = t.depth + 1 :=
      fun _ _ => rfl
    rw [hload] at hd₈ hd₉
    show s₉.depth - (effectOf s₉.methods i).1 + (effectOf s₉.methods i).2 = _
    rw [effectOf_numericInstr hi, hd₉ (by omega), hd₈ (by omega)]
    omega
  have hkeep : ∀ {r d}, s₇.Awaits r d → (s₉.emitted i).Awaits r d := fun {r d} hr =>
    ((hr.congr (t := s₈) hl₈ h₈.cleanups).congr (t := s₉) hl₉ h₉.cleanups).congr rfl rfl
  obtain ⟨s₁₁, hj, h₁₁, hd₁₁, hreach, hdone', hothers₁₁⟩ := jumpTo_emits env
    (i := .jump 0) (hkeep hwait) (.inl rfl)
  obtain ⟨s₁₂, hplace, h₁₂, hd₁₂, hothers₁₂⟩ := placeLabel_arrives env
    (hothers₁₁ _ _ hne (hkeep hmiss)) (by simp [hreach, Instr.transfersControl])
  obtain ⟨last, hlast⟩ : ∃ last, last = if op.isRelational then Instr.constBool false else .constNull :=
    ⟨_, rfl⟩
  have heffect : ∀ ms, effectOf ms last = (0, 1) := by
    intro ms
    rw [hlast]
    split <;> rfl
  have hheight : (s₁₂.emitted last).depth = s₁₁.depth := by
    show s₁₂.depth - (effectOf s₁₂.methods last).1 + (effectOf s₁₂.methods last).2 = _
    have hjump : ((s₉.emitted i).emitted (.jump 0)).depth = (s₉.emitted i).depth := rfl
    rw [heffect, hd₁₁, hd₁₂, hjump, hd₁₀]
    omega
  obtain ⟨s₁₃, hplace', h₁₃, -⟩ := placeLabel_arrives env
    ((hothers₁₂ _ _ hne.symm hdone').congr (t := s₁₂.emitted last) rfl rfl) fun _ => hheight
  refine ⟨(), s₁₃, ?_, (h₁.trans (h₂.trans (h₃.trans (h₄.trans (h₅.trans (h₆.trans (h₇.trans
    ((Takes.emitted ..).trans (h₈.trans ((Takes.emitted ..).trans (h₉.trans ((Takes.emitted ..).trans
    (h₁₁.trans (h₁₂.trans ((Takes.emitted ..).trans h₁₃)))))))))))))))⟩
  simp only [lifted, bind_ok, emit_ok, Expr.part_ty, newSlot_emits (h.mono (Nat.zero_le _) (by omega))]
  exact ⟨_, _, rfl, (), _, rfl, (), s₂, hs₁ ▸ hright, _, _, newSlot_emits hroom₂, (), s₃, hs₃.symm,
    missing, s₄, hmissing, done, s₅, hdone, (), s₆, hskip, (), s₇, hskip', (), _, rfl, (), s₈, hleft,
    (), _, rfl, (), s₉, hright', (), _, rfl, (), s₁₁, hj, (), s₁₂, hplace, (), _, hlast ▸ rfl, hplace'⟩

/-- There is an instruction for every numeric operator. -/
theorem numericInstr_of_primitiveType {w : Ty} {k₁ k₂ : NumKind}
    (hw : Build.primitiveType? op lty c.ty = some w) (hop : op.isPrimitive = true)
    (heq : ¬(op = .equal ∨ op = .notEqual)) (hl : lty.liftedNumKind? = some k₁)
    (hr : c.ty.liftedNumKind? = some k₂) :
    ∃ k i, op.kind? lty c.ty = some k ∧ numericInstr? op k = some i := by
  have hk : ∃ k, op.kind? lty c.ty = some k := by
    simp only [BinaryOp.kind?, hl, hr, Option.bind_some, Option.map_some]
    split <;> exact ⟨_, rfl⟩
  obtain ⟨k, hk⟩ := hk
  refine ⟨k, ?_⟩
  cases op <;>
    first | exact ⟨_, hk, rfl⟩ | exact absurd hop (by decide) | exact absurd (by simp) heq

theorem numeric_emits {w : Ty} {k₁ k₂ : NumKind} (hw : Build.primitiveType? op lty c.ty = some w)
    (hop : op.isPrimitive = true) (heq : ¬(op = .equal ∨ op = .notEqual))
    (hl : lty.liftedNumKind? = some k₁) (hr : c.ty.liftedNumKind? = some k₂)
    (he : c.Operand known) (hp : Housed known env s) (h : s.HasRoom 1 2) :
    Affords (numeric op lty c.part f) env 1 2 s := by
  obtain ⟨k, i, hk, hi⟩ := numericInstr_of_primitiveType hw hop heq hl hr
  simp only [numeric, Expr.part_ty, hk, hi]
  refine .ite (fun hlift => ?_) fun _ => ?_
  · exact (lifted_emits hi he hp h hlift).followed fun _ _ => .pure
  · have hroom : s.HasRoom 1 0 := h.mono (Nat.le_refl _) (Nat.zero_le _)
    refine Affords.mono (n := 1) (k := 0) ?_ (Nat.le_refl _) (Nat.zero_le _)
    exact asKind_emits.before fun _ t ht =>
      (operandOf_emits he (hp.after ht) (hroom.still ht)).followed fun _ _ =>
        (Affords.emit i).followed fun _ _ => .pure

/-- An operand and an instruction behind it. -/
theorem operand_then_emits {α : Type} (i : Instr) (a : α) (he : c.Operand known)
    (hp : Housed known env s) (h : s.HasRoom 1 0) :
    Affords (do c.part.emit f.operand; emit i; return a : LowerM α) env 1 0 s := by
  obtain ⟨t, hlow, ht, -⟩ := operand_emits he hp h f.operand
  exact Affords.followed ⟨(), t, hlow, ht⟩ fun _ _ => (Affords.emit i).followed fun _ _ => .pure

theorem equality_emits (he : c.Operand known) (hp : Housed known env s) (h : s.HasRoom 1 0) :
    Affords (equality op lty c.part f) env 1 0 s := by
  unfold equality
  cases op.kind? lty c.part.ty with
  | none => exact operand_then_emits _ _ he hp h
  | some k =>
    exact asKind_emits.before fun _ t ht => (operandOf_emits he (hp.after ht) (h.still ht)).followed
      fun _ _ => (Affords.emit _).followed fun _ _ => .pure

/-- The right operand and a primitive operator. -/
theorem withRight_emits {w : Ty} (hw : Build.primitiveType? op lty c.ty = some w)
    (hop : op.isPrimitive = true) (hl : lty.Scalar) (he : c.Operand known)
    (hp : Housed known env s) (h : s.HasRoom 1 2) :
    Affords (withRight op lty c.part none f) env 1 2 s := by
  have hs : Walk.isStrict op = true := by cases op <;> first | rfl | cases hop
  have hno : (none : Option Method).or (op.methodNamed? env.catalog lty c.ty) = none :=
    Build.methodNamed?_plain op hl.plain he.scalar.plain
  have hlow : withRight op lty c.part none f env s = primitive op lty c.part f env s := by
    simp only [withRight, read_bind, Expr.part_ty, hno]
  suffices hprim : Affords (primitive op lty c.part f) env 1 2 s by
    obtain ⟨a, t, hok, ht⟩ := hprim
    exact ⟨a, t, hlow.trans hok, ht⟩
  have hroom : s.HasRoom 1 0 := h.mono (Nat.le_refl _) (Nat.zero_le _)
  by_cases heq : op = .equal ∨ op = .notEqual
  · refine Affords.mono (n := 1) (k := 0) ?_ (Nat.le_refl _) (Nat.zero_le _)
    rcases heq with rfl | rfl <;> exact equality_emits he hp hroom
  by_cases hconcat : op = .add ∧ lty = .str ∧ c.ty = .str
  · obtain ⟨rfl, rfl, hr⟩ := hconcat
    simp only [primitive, Expr.part_ty, hr, beq_self_eq_true, Bool.and_self, if_true]
    exact (operand_then_emits _ _ he hp hroom).mono (Nat.le_refl _) (Nat.zero_le _)
  by_cases hlogic : (op = .and ∨ op = .or ∨ op = .exclusiveOr) ∧ lty = .bool ∧ c.ty = .bool
  · obtain ⟨hop, rfl, hr⟩ := hlogic
    rcases hop with rfl | rfl | rfl <;>
      simp only [primitive, Expr.part_ty, hr, beq_self_eq_true, Bool.and_self, if_true,
        BinaryOp.arith?] <;>
      exact (operand_then_emits _ _ he hp hroom).mono (Nat.le_refl _) (Nat.zero_le _)
  have htakes : op.TakesNumbers lty c.ty := ⟨heq, hconcat, hlogic⟩
  obtain ⟨k₁, k₂, hkl, hkr⟩ := Build.primitiveType?_numeric hw hs htakes
  rw [BinaryOp.TakesNumbers.lower (Expr.part_ty c ▸ htakes)]
  exact numeric_emits hw hop heq hkl hkr he hp h

/-- Lowering finds the type that the builder computed for an arithmetic operator. -/
theorem withRight_type {w : Ty} {base : BinaryOp} (hbase : op.base? = some base)
    (hw : Build.primitiveType? base lty c.ty = some w) (hl : lty.Scalar) (he : c.Operand known)
    (hlow : withRight base lty c.part none f env s = .ok (ty, t)) : ty = w := by
  have hno : (none : Option Method).or (base.methodNamed? env.catalog lty c.ty) = none :=
    Build.methodNamed?_plain base hl.plain he.scalar.plain
  simp only [withRight, read_bind, Expr.part_ty, hno] at hlow
  -- Strings are concatenated; everything else is an operation on numbers.
  by_cases hconcat : base = .add ∧ lty = .str ∧ c.ty = .str
  · obtain ⟨rfl, rfl, hr⟩ := hconcat
    simp only [primitive, Expr.part_ty, hr, beq_self_eq_true, Bool.and_self, if_true, bind_ok,
      pure_ok] at hlow
    obtain ⟨-, -, -, -, -, -, rfl, -⟩ := hlow
    simpa [Build.primitiveType?, hr] using hw
  have hstr : base = .add → (lty == .str && c.ty == .str) = false := by
    intro hadd
    simpa using fun hl hr => hconcat ⟨hadd, hl, hr⟩
  have hnumeric : numeric base lty c.part f env s = .ok (ty, t) := by
    cases op <;> cases hbase <;>
      simpa only [primitive, Expr.part_ty, hstr, Bool.false_eq_true, if_false] using hlow
  have hkinds : ∃ k₁ k₂, lty.liftedNumKind? = some k₁ ∧ c.ty.liftedNumKind? = some k₂ ∧
      w = Build.liftedType (.promote k₁ k₂) lty c.ty := by
    cases op <;> cases hbase <;> cases hk₁ : lty.liftedNumKind? <;> cases hk₂ : c.ty.liftedNumKind? <;>
      simp_all only [Build.primitiveType?, Bool.false_eq_true, if_false, reduceCtorEq, forall_const,
        Option.some.injEq, exists_and_left, exists_eq_left']
  obtain ⟨k₁, k₂, hk₁, hk₂, rfl⟩ := hkinds
  have hplain : base.isShift = false ∧ base.isRelational = false := by
    cases op <;> cases hbase <;> exact ⟨rfl, rfl⟩
  have hk : base.kind? lty c.ty = some (.promote k₁ k₂) := by
    simp [BinaryOp.kind?, hk₁, hk₂, hplain.1]
  simp only [numeric, Expr.part_ty, hk] at hnumeric
  cases hi : numericInstr? base (.promote k₁ k₂) with
  | none => simp [hi, error_ok] at hnumeric
  | some i =>
    simp only [hi, ite_ok, bind_ok, pure_ok, hplain.2] at hnumeric
    rcases hnumeric with ⟨hlift, -, -, -, rfl, -⟩ | ⟨hlift, -, -, -, -, -, -, -, -, -, rfl, -⟩ <;>
      simp [Build.liftedType, hlift]

/-- Conversions among numeric types, and of a type to itself, need no entry in a table. -/
theorem conversion_takes {target : Ty}
    (h : ty = target ∨ ty.liftedNumKind?.isSome = true ∧ target.liftedNumKind?.isSome = true) :
    Affords (conversion ty target) env 0 0 s := by
  unfold conversion
  refine .ite (fun _ => .pure) fun hne => ?_
  obtain ⟨hs, ht⟩ := h.resolve_left hne
  obtain ⟨k, hk⟩ := Option.isSome_iff_exists.1 hs
  obtain ⟨k', hk'⟩ := Option.isSome_iff_exists.1 ht
  simp only [hk, hk']
  cases ty.isNullable <;> cases target.isNullable
  · exact .ite (fun _ => .emit _) fun _ => .pure
  · exact .ite (fun _ => .emit _) fun _ => .pure
  · exact Affords.before (.emit _) fun _ _ _ => .ite (fun _ => .emit _) fun _ => .pure
  · exact .ite (fun _ => convertUnlessNull_takes k') fun _ => .pure

theorem dropWhen_emits {d : Bool} : Affords (dropWhen d) env 0 0 s :=
  .ite (fun _ => .emit .pop) fun _ => .pure

/-- An operator is applied to a variable, which is assigned. -/
theorem assignApplied_emits {v : Var} {w : Ty} {op base : BinaryOp} (hbase : op.base? = some base)
    (hw : Build.primitiveType? base v.ty c.ty = some w) (hop : base.isPrimitive = true)
    (hv : known v) (ht : v.ty.Scalar) (he : c.Operand known) (hp : Housed known env s)
    (h : s.HasRoom 1 2) : Affords (assignApplied base (Expr.var v).part c.part none f) env 1 2 s := by
  obtain ⟨home, hhome⟩ := hp v hv
  show Affords (do
    let ref ← homeOf v
    load ref false
    applyAndConvert base v.ty c.part none f
    if !f.discarded then emit .dup
    store ref) env 1 2 s
  have hright : ∀ {t}, Takes 0 0 s t → Affords (applyAndConvert base v.ty c.part none f) env 1 2 t := by
    intro t htakes
    have hemits := withRight_emits (f := f.operand) hw hop ht he (hp.after htakes) (h.still htakes)
    refine Affords.bind (m := 0) (j := 0) hemits fun ty u hlow _ => ?_
    obtain rfl := withRight_type hbase hw ht he hlow
    exact conversion_takes (Build.primitiveType?_back hbase hw)
  refine Affords.before ⟨home, s, hhome, .refl s⟩ fun home t h₁ => ?_
  refine Affords.before (.emit _) fun _ u h₂ => ?_
  refine (hright (h₁.trans h₂)).followed fun _ _ => ?_
  exact .ite (fun _ => Affords.before (.emit _) fun _ _ _ => .emit _) fun _ => .emit _

end Lower

/-- **Operations can be emitted.** -/
theorem operation_emits {catalog : Catalog} {known : Var → Prop} {e : Expr} {env : LowerEnv} {s : Draft}
    (he : e.Operation catalog known) (hp : Housed known env s) (h : s.HasRoom 2 2) (f : Usage) :
    ∃ s', e.part.emit f env s = .ok ((), s') := by
  suffices hemits : Affords (e.part.emit f) env 2 2 s by
    obtain ⟨_, s', hlow, -⟩ := hemits
    exact ⟨s', hlow⟩
  cases he with
  | @unary op x e hop hx he =>
    obtain ⟨t, ht, rfl⟩ := Build.unary_ok he
    have hemit : (Expr.unary t op x none).part.emit f = Lower.unary t op x.part none f := by
      simp only [Expr.part]
      split <;> rfl
    rw [hemit]
    obtain ⟨s₁, hlow, h₁, -⟩ := operand_emits hx hp (h.mono (by decide) (by decide)) f.operand
    -- A primitive operator needs room for a value; a plus sign adds no code.
    rcases hop with hop | rfl
    · have hlower : Lower.unary t op x.part none f = (do
          x.part.emit f.operand
          applyUnaryLifted op t
          dropWhen f.discarded) := by
        cases op <;> first | rfl | cases hop
      have hty : op = .not ∨ t.liftedNumKind?.isSome = true := by
        obtain ⟨rfl, -⟩ := Build.unaryType_primitive hop ht
        cases op with
        | not => exact .inl rfl
        | negate | increment | decrement =>
          simp only [Build.unaryType] at ht
          split at ht <;> simp_all
        | _ => cases hop
      rw [hlower]
      refine Affords.mono (n := 1 + 1) (k := 0 + 0) ?_ (Nat.le_refl _) (Nat.zero_le _)
      exact Affords.bind ⟨(), s₁, hlow, h₁⟩ fun _ t _ ht => (applyUnaryLifted_emits hop hty
        ((h.mono (m := 1 + 1) (j := 0 + 0) (Nat.le_refl _) (Nat.zero_le _)).after ht)).followed
          fun _ _ => dropWhen_emits
    · obtain ⟨s₁, hlow, h₁, -⟩ := operand_emits hx hp (h.mono (by decide) (by decide))
        { f.operand with discarded := f.discarded }
      exact ⟨(), s₁, hlow, h₁.mono (by decide) (by decide)⟩
  | @binary op x y e hop hx hy he =>
    obtain ⟨t, ht, rfl⟩ := Build.binary_ok he
    rcases Build.binaryNodeType_ok hx.scalar.plain hy.scalar.plain ht with
      ⟨base, w, hbase, hwrite, hw, -, rfl⟩ | ⟨rfl, -⟩ | ⟨hbase, -, hw⟩
    -- An assignment with an operator: only a variable is assigned.
    · cases hx with
      | constant => cases hwrite
      | @var v hv hty =>
        rw [hbase] at hop
        have hlower : (Expr.binary (Expr.var v).ty op (.var v) y none).part.emit f =
            assignApplied base (Expr.var v).part y.part none f := by
          cases op <;> cases hbase <;> rfl
        rw [hlower]
        exact (assignApplied_emits hbase hw hop hv hty hy hp (h.mono (by decide) (by decide))).mono
          (by decide) (by decide)
    · cases hop
    · rw [hbase] at hop
      replace hop : op.isPrimitive = true := hop
      obtain ⟨s₁, hlow, h₁, -⟩ := operand_emits hx hp (h.mono (by decide) (by decide)) f.operand
      have hlower : (Expr.binary t op x y none).part.emit f = (do
          x.part.emit f.operand
          let _ ← withRight op x.part.ty y.part none f.operand
          dropWhen f.discarded) := by
        cases op <;> first | rfl | exact absurd hop (by decide)
      rw [hlower]
      refine Affords.mono (n := 1 + 1) (k := 0 + 2) ?_ (by decide) (by decide)
      refine Affords.bind ⟨(), s₁, hlow, h₁⟩ fun _ t _ ht => ?_
      rw [Expr.part_ty]
      exact (withRight_emits hw hop hx.scalar hy (hp.after ht) ((h.mono (m := 1 + 1) (j := 0 + 2)
        (by decide) (by decide)).after ht)).followed fun _ _ => dropWhen_emits

end TreeCode

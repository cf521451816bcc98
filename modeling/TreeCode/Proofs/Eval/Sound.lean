import Mathlib
import TreeCode.Proofs.Eval.Tidy
import TreeCode.Proofs.Expr.Typing
import TreeCode.Proofs.Operator.Typing

/-!
# Well-typed expressions do not go wrong

Evaluation of an expression that the checked constructors built over plain
types gives a value of its type, throws, or meets a limit; it reports no
defect and makes no jump. The variables and arrays that fitted their types
before do so afterwards.

Typings grow while an expression is evaluated, as arrays and variables are
made. An action is *sound* when from every store that follows a typing it ends
in one that follows a larger typing, with a result that fits there.

Main results:

* `Walk.node_sound` — a node is sound when its parts are.
* `eval_sound` — **built expressions do not go wrong**.
-/

namespace TreeCode

variable {α β : Type}

/-! ## Sound actions on the world -/

/-- The failures that a well-typed expression may end with. -/
inductive Fault.Regular : Fault → Prop
  | thrown (v : Value) : Regular (.thrown v)
  | tooDeep (depth limit : Nat) : Regular (.tooDeep depth limit)
  | outOfFuel : Regular .outOfFuel

namespace RunM

/-- The end of an action that began with a store that follows `τ`. -/
inductive Ends (τ : Typing) (P : Typing → α → Prop) : EStateM.Result Fault World α → Prop
  | ok {τ' : Typing} {a : α} {w : World} (hτ : τ ≤ τ') (hw : τ'.Follows w.store) (h : P τ' a) :
    Ends τ P (.ok a w)
  | error {τ' : Typing} {f : Fault} {w : World} (hτ : τ ≤ τ') (hw : τ'.Follows w.store)
    (hf : f.Regular) : Ends τ P (.error f w)

/-- The action keeps stores fitting and gives a result with the property `P`, or
fails regularly. -/
def Sound (τ : Typing) (P : Typing → α → Prop) (x : RunM α) : Prop :=
  ∀ τ', τ ≤ τ' → ∀ w : World, τ'.Follows w.store → Ends τ' P (x w)

variable {τ τ' : Typing} {P : Typing → α → Prop} {Q : Typing → β → Prop}

theorem Ends.of_le {r : EStateM.Result Fault World α} (h : Ends τ' P r) (hτ : τ ≤ τ') :
    Ends τ P r := by
  cases h with
  | ok h hw ha => exact .ok (hτ.trans h) hw ha
  | error h hw hf => exact .error (hτ.trans h) hw hf

namespace Sound

theorem pure {a : α} (h : ∀ τ', τ ≤ τ' → P τ' a) : Sound τ P (pure a) :=
  fun τ' hτ _ hw => .ok (le_refl τ') hw (h τ' hτ)

theorem bind {x : RunM α} {f : α → RunM β} (hx : Sound τ P x)
    (hf : ∀ τ', τ ≤ τ' → ∀ a, P τ' a → Sound τ' Q (f a)) : Sound τ Q (x >>= f) := by
  intro τ₁ h₁ w hw
  show Ends τ₁ Q (EStateM.bind x f w)
  unfold EStateM.bind
  have h := hx τ₁ h₁ w hw
  revert h
  cases x w with
  | ok a w' =>
    rintro (⟨h₂, hw', ha⟩ | _)
    exact (hf _ (h₁.trans h₂) a ha _ (le_refl _) w' hw').of_le h₂
  | error f w' =>
    rintro (_ | ⟨h₂, hw', hr⟩)
    exact .error h₂ hw' hr

theorem raise (e : Exception) : Sound τ P (raise e : RunM α) :=
  fun τ' _ _ hw => .error (le_refl τ') (hw.newException e) (.thrown _)

theorem throw {f : Fault} (hf : f.Regular) : Sound τ P (throw f : RunM α) :=
  fun τ' _ _ hw => .error (le_refl τ') hw hf

theorem ofOp {x : Except OpError α} (h : Operator.Yields (fun a => ∀ τ', τ ≤ τ' → P τ' a) x) :
    Sound τ P (ofOp x) := by
  cases h with
  | ok h => exact pure h
  | error h =>
    cases h with
    | raises e => exact raise e
    | outOfFuel => exact throw .outOfFuel

/-- An operator that looks at the store. -/
theorem ofStore {g : Store → Except OpError α}
    (h : ∀ τ' st, τ ≤ τ' → τ'.Follows st → Operator.Yields (P τ') (g st))
    (hP : ∀ τ' τ'' a, τ' ≤ τ'' → P τ' a → P τ'' a) :
    Sound τ P (do RunM.ofOp (← readStore g)) := by
  intro τ₁ h₁ w hw
  have hy := (h τ₁ w.store h₁ hw).imp fun a ha τ' hτ => hP τ₁ τ' a hτ ha
  exact ofOp hy τ₁ (le_refl _) w hw

end Sound

/-! ### The store -/

/-- The results that fit a type. -/
abbrev OfTy (t : Ty) : Typing → Value → Prop := fun τ v => τ.Fits v t

variable {t : Ty} {v a i : Value} {k : NumKind} {ref : Nat}

theorem newArray_sound {items : Array Value} (h : ∀ x ∈ items, τ.Fits x t) :
    Sound τ (OfTy (.array t)) (newArray items) := by
  intro τ' hτ w hw
  have hi : ∀ x ∈ items, τ'.Fits x t := fun x hx => (h x hx).mono hτ
  exact .ok (hw.le_withArray t) (hw.newArray hi) (.array Typing.withArray_self)

theorem newCell_sound (h : τ.Fits v t) :
    Sound τ (fun τ' ref => τ'.cells ref = some t) (newCell v) := by
  intro τ' hτ w hw
  exact .ok (hw.le_withCell t) (hw.newCell (h.mono hτ)) Typing.withCell_self

theorem readCell_sound (h : τ.cells ref = some t) : Sound τ (OfTy t) (readCell ref) :=
  fun τ' hτ _ hw => .ok (le_refl τ') hw (hw.cellAt (hτ.2 _ _ h))

theorem writeCell_sound (h : τ.cells ref = some t) (hv : τ.Fits v t) :
    Sound τ (fun _ _ => True) (writeCell ref v) :=
  fun τ' hτ _ hw => .ok (le_refl τ') (hw.setCell (hτ.2 _ _ h) (hv.mono hτ)) trivial

/-- An integer is an index. -/
theorem index?_of_fits (hi : τ.Fits i (.num k)) (hk : k.isInteger = true) : ∃ n, i.index? = some n := by
  obtain ⟨n, rfl, rfl⟩ := hi.num_inv
  exact Num.toIndex?_kind hk

/-- A subscript denotes an element that is there, or raises. -/
theorem elementAt_yields (st : Store) (ha : τ.Fits a (.array t)) (hi : τ.Fits i (.num k))
    (hk : k.isInteger = true) :
    Operator.Yields (fun p => τ.arrays p.1 = some t ∧ p.2 < (st.arrayAt p.1).size)
      (st.elementAt a i) := by
  rcases ha.array_inv with rfl | ⟨r, rfl, hr⟩
  · exact .error (.raises _)
  obtain ⟨n, hn⟩ := index?_of_fits hi hk
  simp only [Store.elementAt, hn]
  split
  · exact .error (.raises _)
  · next h =>
    simp only [Bool.or_eq_true, decide_eq_true_eq, not_or, not_lt, ge_iff_le, not_le] at h
    refine .ok ⟨hr, ?_⟩
    show n.toNat < (st.arrayAt r).size
    omega

theorem element_sound (ha : τ.Fits a (.array t)) (hi : τ.Fits i (.num k))
    (hk : k.isInteger = true) : Sound τ (OfTy t) (element a i) := by
  intro τ' hτ w hw
  have hy := elementAt_yields w.store (ha.mono hτ) (hi.mono hτ) hk
  show Ends τ' (OfTy t) (EStateM.bind (ofOp (w.store.elementAt a i)) _ w)
  revert hy
  cases w.store.elementAt a i with
  | ok p =>
    rintro (⟨hr, hlt⟩ | _)
    refine .ok (le_refl τ') hw (hw.arrayAt hr _ ?_)
    show (w.store.arrayAt p.1)[p.2]?.getD .unit ∈ w.store.arrayAt p.1
    rw [Array.getElem?_eq_getElem hlt]
    exact Array.getElem_mem hlt
  | error e =>
    rintro (_ | ⟨he⟩)
    cases he with
    | raises e => exact Sound.raise (P := OfTy t) e τ' (le_refl _) w hw
    | outOfFuel => exact .error (le_refl τ') hw .outOfFuel

theorem setElement_sound (ha : τ.Fits a (.array t)) (hi : τ.Fits i (.num k))
    (hk : k.isInteger = true) (hv : τ.Fits v t) :
    Sound τ (fun _ _ => True) (setElement a i v) := by
  intro τ' hτ w hw
  have hy := elementAt_yields w.store (ha.mono hτ) (hi.mono hτ) hk
  show Ends τ' (fun _ _ => True) (EStateM.bind (ofOp (w.store.elementAt a i)) _ w)
  revert hy
  cases w.store.elementAt a i with
  | ok p =>
    rintro (⟨hr, -⟩ | _)
    exact .ok (le_refl τ') (hw.setElement hr (hv.mono hτ)) trivial
  | error e =>
    rintro (_ | ⟨he⟩)
    cases he with
    | raises e => exact Sound.raise (P := fun _ _ => True) e τ' (le_refl _) w hw
    | outOfFuel => exact .error (le_refl τ') hw .outOfFuel

theorem arrayLength_sound (ha : τ.Fits a (.array t)) : Sound τ (OfTy .i32) (arrayLength a) := by
  rcases ha.array_inv with rfl | ⟨r, rfl, -⟩
  · exact Sound.raise _
  · exact fun τ' _ w hw => .ok (le_refl τ') hw (.num rfl)

theorem newArrayOf_sound (ht : t.Plain) (hi : τ.Fits i (.num k)) (hk : k.isInteger = true) :
    Sound τ (OfTy (.array t)) (newArrayOf t.default i) := by
  obtain ⟨n, hn⟩ := index?_of_fits hi hk
  refine Sound.bind (P := fun _ _ => True) (Sound.ofOp ?_) fun τ' _ m _ => ?_
  · simp only [Store.lengthBy, hn]
    split
    · exact .error (.raises _)
    · exact .ok fun _ _ => trivial
  · refine newArray_sound fun x hx => ?_
    rw [(Array.mem_replicate.1 hx).2]
    exact .default ht

/-- The text of a value may be cut off; else it is there. -/
theorem describe_sound (fuel : Nat) (v : Value) : Sound τ (fun _ _ => True) (describe fuel v) := by
  intro τ' _ w hw
  simp only [describe, bind, EStateM.bind, readStore]
  cases w.store.detailed fuel v with
  | some s => exact .ok (le_refl τ') hw trivial
  | none => exact .error (le_refl τ') hw .outOfFuel

end RunM

/-! ## Sound evaluation -/

/-- Each variable in scope has a cell of its type. -/
def Context.Bound (Γ : Context) (τ : Typing) (scopes : Scopes Nat Nat) : Prop :=
  ∀ id t, Γ id = some t → ∃ ref, scopes.get? id = some ref ∧ τ.cells ref = some t

theorem Context.Bound.mono {Γ : Context} {τ τ' : Typing} {scopes : Scopes Nat Nat}
    (h : Γ.Bound τ scopes) (hτ : τ ≤ τ') : Γ.Bound τ' scopes := by
  intro id t ht
  obtain ⟨ref, hr, hc⟩ := h id t ht
  exact ⟨ref, hr, hτ.2 _ _ hc⟩

namespace EvalM

/-- The end of an evaluation that began with a store that follows `τ`. -/
inductive Ends (τ : Typing) (scopes : Scopes Nat Nat) (P : Typing → α → Prop) :
    EStateM.Result Exit EvalState α → Prop
  | ok {τ' : Typing} {a : α} {s : EvalState} (hτ : τ ≤ τ') (hw : τ'.Follows s.world.store)
    (hs : s.scopes = scopes) (h : P τ' a) : Ends τ scopes P (.ok a s)
  | error {τ' : Typing} {f : Fault} {s : EvalState} (hτ : τ ≤ τ')
    (hw : τ'.Follows s.world.store) (hs : s.scopes = scopes) (hf : f.Regular) :
    Ends τ scopes P (.error (.fault f) s)

/-- The action keeps stores fitting and gives a result with the property `P`, or
fails regularly, when the variables in scope fit. -/
def Sound (Γ : Context) (τ : Typing) (P : Typing → α → Prop) (x : EvalM α) : Prop :=
  ∀ τ', τ ≤ τ' → ∀ s : EvalState, τ'.Follows s.world.store → Γ.Bound τ' s.scopes →
    Ends τ' s.scopes P (x s)

variable {Γ : Context} {τ τ' : Typing} {P : Typing → α → Prop} {Q : Typing → β → Prop}
  {scopes : Scopes Nat Nat}

theorem Ends.of_le {r : EStateM.Result Exit EvalState α} (h : Ends τ' scopes P r) (hτ : τ ≤ τ') :
    Ends τ scopes P r := by
  cases h with
  | ok h hw hs ha => exact .ok (hτ.trans h) hw hs ha
  | error h hw hs hf => exact .error (hτ.trans h) hw hs hf

namespace Sound

theorem mono {x : EvalM α} (h : Sound Γ τ P x) (hτ : τ ≤ τ') : Sound Γ τ' P x :=
  fun _ h' s hw hb => h _ (hτ.trans h') s hw hb

theorem pure {a : α} (h : ∀ τ', τ ≤ τ' → P τ' a) : Sound Γ τ P (pure a) :=
  fun τ' hτ _ hw _ => .ok (le_refl τ') hw rfl (h τ' hτ)

theorem ofRun {x : RunM α} (h : x.Sound τ P) : Sound Γ τ P (EvalM.ofRun x) := by
  intro τ' hτ s hw _
  have he := h τ' hτ s.world hw
  simp only [EvalM.ofRun]
  revert he
  cases x s.world with
  | ok a w =>
    rintro (⟨hτ, hw, ha⟩ | _)
    exact .ok hτ hw rfl ha
  | error f w =>
    rintro (_ | ⟨hτ, hw, hf⟩)
    exact .error hτ hw rfl hf

theorem bind {x : EvalM α} {f : α → EvalM β} (hx : Sound Γ τ P x)
    (hf : ∀ τ', τ ≤ τ' → ∀ a, P τ' a → Sound Γ τ' Q (f a)) : Sound Γ τ Q (x >>= f) := by
  intro τ₁ h₁ s hw hb
  show Ends τ₁ s.scopes Q (EStateM.bind x f s)
  unfold EStateM.bind
  have h := hx τ₁ h₁ s hw hb
  revert h
  cases x s with
  | ok a s' =>
    rintro (⟨h₂, hw', hs, ha⟩ | _)
    have hb' := hb.mono h₂
    rw [← hs] at hb' ⊢
    exact (hf _ (h₁.trans h₂) a ha _ (le_refl _) s' hw' hb').of_le h₂
  | error e s' =>
    rintro (_ | ⟨h₂, hw', hs, hr⟩)
    exact .error h₂ hw' hs hr

theorem imp {P' : Typing → α → Prop} {x : EvalM α} (h : Sound Γ τ P x)
    (hP : ∀ τ' a, P τ' a → P' τ' a) : Sound Γ τ P' x := by
  intro τ' hτ s hw hb
  have he := h τ' hτ s hw hb
  revert he
  cases x s with
  | ok a s' =>
    rintro (⟨hτ, hw, hs, ha⟩ | _)
    exact .ok hτ hw hs (hP _ _ ha)
  | error e s' =>
    rintro (_ | ⟨hτ, hw, hs, hf⟩)
    exact .error hτ hw hs hf

theorem fault {f : Fault} (hf : f.Regular) : Sound Γ τ P (EvalM.fault f : EvalM α) :=
  fun τ' _ _ hw _ => .error (le_refl τ') hw rfl hf

/-- The cell of a variable in scope. -/
theorem cellOf {v : Var} (hv : Γ v.id = some v.ty) :
    Sound Γ τ (fun τ' ref => τ'.cells ref = some v.ty) (EvalM.cellOf v) := by
  intro τ' _ s hw hb
  obtain ⟨ref, hr, hc⟩ := hb v.id v.ty hv
  simp only [EvalM.cellOf, Bind.bind, EStateM.bind, get, getThe, MonadStateOf.get, EStateM.get, hr]
  exact .ok (le_refl τ') hw rfl hc

theorem deeper {x : EvalM α} (h : Sound Γ τ P x) (gauge : Gauge) :
    Sound Γ τ P (EvalM.deeper gauge x) := by
  intro τ' hτ s hw hb
  by_cases hd : s.world.depthAt gauge < gauge.max
  swap
  · rw [EvalM.deeper_full x hd]
    exact .error (le_refl τ') hw rfl (.tooDeep _ _)
  · rw [EvalM.deeper_eq x hd]
    have he := h τ' hτ (s.deeper gauge) hw hb
    revert he
    cases x (s.deeper gauge) with
    | ok a s' =>
      rintro (⟨hτ, hw, hs, ha⟩ | _)
      exact .ok hτ hw hs ha
    | error e s' =>
      rintro (_ | ⟨hτ, hw, hs, hf⟩)
      exact .error hτ hw hs hf

/-- An action in a scope with new variables. -/
theorem inScope {Δ : Context} {x : EvalM α} {bindings : List (Nat × Nat)} (h : Sound Δ τ P x)
    (hb : ∀ τ' scopes, τ ≤ τ' → Γ.Bound τ' scopes → Δ.Bound τ' (scopes.enter.bindAll bindings)) :
    Sound Γ τ P (EvalM.inScope bindings x) := by
  intro τ' hτ s hw hbound
  have he := h τ' hτ { s with scopes := s.scopes.enter.bindAll bindings } hw (hb _ _ hτ hbound)
  simp only [EvalM.inScope]
  revert he
  cases x { s with scopes := s.scopes.enter.bindAll bindings } with
  | ok a s' =>
    rintro (⟨hτ, hw, hs, ha⟩ | _)
    simp only [EvalM.closeScope, hs, Scopes.leave?_bindAll, Option.map_some]
    exact .ok hτ hw rfl ha
  | error e s' =>
    rintro (_ | ⟨hτ, hw, hs, hf⟩)
    simp only [EvalM.closeScope, hs, Scopes.leave?_bindAll, Option.map_some]
    exact .error hτ hw rfl hf

end Sound

end EvalM

/-! ## Nodes -/

namespace Walk

open RunM (OfTy)

/-- The parts of a node are sound when they are well typed. -/
def Sound (c : Walk) : Prop :=
  ∀ {Γ : Context} {τ : Typing} {e : Expr}, Typed τ Γ e →
    EvalM.Sound Γ τ (OfTy e.ty) (c.valueOf e)

variable {c : Walk} {Γ : Context} {τ τ' : Typing} {e a b : Expr} {t u w : Ty}

theorem truthOf_sound (hv : c.Sound) (he : Typed τ Γ e) (ht : e.ty = .bool) :
    EvalM.Sound Γ τ (fun _ _ => True) (c.truthOf e) := by
  refine (hv he).bind fun τ' _ v hfit => ?_
  rw [OfTy, ht] at hfit
  obtain ⟨b, rfl⟩ := hfit.bool_inv
  exact .pure fun _ _ => trivial

theorem valuesOf_sound (hv : c.Sound) {es : List Expr} (he : ∀ e ∈ es, Typed τ Γ e)
    (ht : t.Plain) (hacc : ∀ e ∈ es, t.accepts e.ty = true) :
    EvalM.Sound Γ τ (fun τ' vs => ∀ v ∈ vs, τ'.Fits v t) (c.valuesOf es) := by
  induction es generalizing τ with
  | nil => exact .pure (by simp)
  | cons e es ih =>
    rw [List.forall_mem_cons] at he hacc
    refine (hv he.1).bind fun τ₁ h₁ v hfit => ?_
    refine ((ih he.2 hacc.2).mono h₁).bind fun τ₂ h₂ vs hfits => ?_
    refine .pure fun τ₃ h₃ => List.forall_mem_cons.2 ⟨?_, fun x hx => (hfits x hx).mono h₃⟩
    exact ((hfit.of_accepts ht hacc.1).mono h₂).mono h₃

/-! ### Operators -/

theorem combine_sound {op : BinaryOp} {l r : Value} (ht : t.Plain) (hu : u.Plain)
    (hw : Build.primitiveType? op t u = some w) (hs : isStrict op = true) (hl : τ.Fits l t)
    (hr : τ.Fits r u) :
    RunM.Sound τ (fun τ' p => IsOf τ' w p) (c.combine op t l u r none) := by
  simp only [combine, Option.none_or, Build.methodNamed?_plain op ht hu]
  refine .ofOp ((primitive_yields hw hs hl hr).imp fun p hp τ' hτ => ?_)
  exact ⟨hp.1, hp.2.mono hτ⟩

theorem cast_sound {v : Value} (ht : t.Plain) (hu : u.Plain)
    (hc : Build.isConvertible t u = true) (hv : τ.Fits v t) :
    RunM.Sound τ (OfTy u) (c.cast v t u) :=
  .ofStore (fun _ _ hτ _ => Operator.cast_yields ht hu (hv.mono hτ) hc) fun _ _ _ hτ h => h.mono hτ

/-- A unary operator passes null through. -/
theorem lifted_sound {v : Value} {x : Except OpError Value} (hv : τ.Fits v t)
    (hx : v.isNull = false → Operator.Yields (fun y => ∀ τ', τ ≤ τ' → τ'.Fits y t) x) :
    RunM.Sound τ (OfTy t) (if v.isNull then pure .null else RunM.ofOp x) := by
  split
  · next hn =>
    cases v <;> simp only [Value.isNull, Bool.false_eq_true] at hn
    exact .pure fun _ hτ => hv.mono hτ
  · next hn => exact .ofOp (hx (by simpa using hn))

/-- A step keeps a number in its type. -/
theorem step_yields (op : UnaryOp) {k : NumKind} {v : Value} (hv : τ.Fits v t)
    (ht : t.liftedNumKind? = some k) (hn : v.isNull = false) :
    Operator.Yields (fun x => ∀ τ', τ ≤ τ' → τ'.Fits x t) (Operator.step op v) := by
  rcases hv.lifted_inv ht with ⟨rfl, -⟩ | ⟨n, rfl, rfl⟩
  · simp [Value.isNull] at hn
  · refine Operator.step_yields.imp ?_
    rintro x ⟨m, rfl, hm⟩ τ' _
    exact .of_lifted ht hm

theorem negate_yields {k : NumKind} {v : Value} (hv : τ.Fits v t)
    (ht : t.liftedNumKind? = some k) (hk : k.isSigned = true) (hn : v.isNull = false) :
    Operator.Yields (fun x => ∀ τ', τ ≤ τ' → τ'.Fits x t) (Operator.negate v) := by
  rcases hv.lifted_inv ht with ⟨rfl, -⟩ | ⟨n, rfl, rfl⟩
  · simp [Value.isNull] at hn
  · obtain ⟨m, hm, hkind⟩ := Num.negate?_kind hk
    simp only [Operator.negate, hm]
    exact .ok fun _ _ => .of_lifted ht hkind

/-- Truth values are negated, integers complemented. -/
theorem not_yields {v : Value} (hv : τ.Fits v t)
    (ht : t.underlying = .bool ∨ ∃ k, t.underlying = .num k ∧ k.isInteger = true)
    (hn : v.isNull = false) :
    Operator.Yields (fun x => ∀ τ', τ ≤ τ' → τ'.Fits x t) (Operator.not v) := by
  have hu := hv.underlying hn
  rcases ht with ht | ⟨k, ht, hk⟩
  · rw [ht] at hu
    obtain ⟨b, rfl⟩ := hu.bool_inv
    refine .ok fun _ _ => .of_underlying ?_
    rw [ht]
    exact .bool _
  · rw [ht] at hu
    obtain ⟨n, rfl, rfl⟩ := hu.num_inv
    obtain ⟨m, hm, hkind⟩ := Num.complement?_kind hk
    simp only [Operator.not, hm]
    refine .ok fun _ _ => .of_underlying ?_
    rw [ht]
    exact .num hkind

/-- Unary operators that assign nothing. -/
theorem unaryPrimitive_sound {op : UnaryOp} {v : Value} (h : Build.unaryType op e = .ok t)
    (hop : op.isAssignment = false) (hv : τ.Fits v e.ty) :
    RunM.Sound τ (OfTy t) (c.unaryPrimitive op v e.ty t) := by
  cases op with
  | negate =>
    simp only [Build.unaryType] at h
    split at h
    · next k hk =>
      split at h
      · next hs =>
        obtain rfl : e.ty = t := by simpa using h
        exact lifted_sound hv (negate_yields hv hk hs)
      · cases h
    · cases h
  | not =>
    simp only [Build.unaryType] at h
    split at h
    · next hu =>
      obtain rfl : e.ty = t := by simpa using h
      exact lifted_sound hv (not_yields hv (.inl hu))
    · next k hu =>
      split at h
      · next hk =>
        obtain rfl : e.ty = t := by simpa using h
        exact lifted_sound hv (not_yields hv (.inr ⟨k, hu, hk⟩))
      · cases h
    · cases h
  | unaryPlus =>
    simp only [Build.unaryType] at h
    split at h
    · obtain rfl : e.ty = t := by simpa using h
      exact .pure fun _ hτ => hv.mono hτ
    · cases h
  | increment | decrement =>
    simp only [Build.unaryType] at h
    split at h
    · next hk =>
      obtain rfl : e.ty = t := by simpa using h
      obtain ⟨k, hk⟩ := Option.isSome_iff_exists.1 hk
      exact lifted_sound hv (step_yields _ hv hk)
    · cases h
  | arrayLength =>
    simp only [Build.unaryType] at h
    split at h
    · next u hu =>
      obtain rfl : Ty.i32 = t := by simpa using h
      rw [hu] at hv
      exact RunM.arrayLength_sound hv
    · cases h
  | throw =>
    -- What is thrown may be null, which raises an exception of its own.
    simp only [unaryPrimitive]
    split
    · exact .raise _
    · exact .throw (.thrown v)
  | convert => simp [Build.unaryType] at h
  | preIncrementAssign | preDecrementAssign | postIncrementAssign | postDecrementAssign =>
    simp [UnaryOp.isAssignment] at hop

/-! ### Places -/

/-- The place holds values of the type. -/
inductive PlaceFits (τ : Typing) : Place → Ty → Prop
  | cell {ref : Nat} {t : Ty} (h : τ.cells ref = some t) : PlaceFits τ (.cell ref) t
  | element {a i : Value} {t : Ty} {k : NumKind} (ha : τ.Fits a (.array t))
    (hi : τ.Fits i (.num k)) (hk : k.isInteger = true) : PlaceFits τ (.element a i) t

theorem PlaceFits.mono {p : Place} (h : PlaceFits τ p t) (hτ : τ ≤ τ') : PlaceFits τ' p t := by
  cases h with
  | cell h => exact .cell (hτ.2 _ _ h)
  | element ha hi hk => exact .element (ha.mono hτ) (hi.mono hτ) hk

theorem subscriptOf_sound (hv : c.Sound) {i : Expr} {k : NumKind} (ha : Typed τ Γ a)
    (hi : Typed τ Γ i) (hat : a.ty = .array t) (hit : i.ty = .num k) (hk : k.isInteger = true)
    (store : Bool) :
    EvalM.Sound Γ τ (fun τ' p => PlaceFits τ' p t) (c.subscriptOf a none [i] store) := by
  refine (hv ha).bind fun τ₁ h₁ x hx => ((hv hi).mono h₁).bind fun τ₂ h₂ y hy => ?_
  rw [OfTy, hat] at hx
  rw [OfTy, hit] at hy
  exact .pure fun τ₃ h₃ => .element (hx.mono (h₂.trans h₃)) (hy.mono h₃) hk

/-- What can be stored to is a place of its type. -/
theorem placeOf_sound (hv : c.Sound) (ha : Typed τ Γ a) (hw : Build.requireWritable a = .ok ()) :
    EvalM.Sound Γ τ (fun τ' p => PlaceFits τ' p a.ty) (c.placeOf a) := by
  cases ha with
  | var hid ht =>
    exact (EvalM.Sound.cellOf hid).bind fun _ _ ref hr =>
      .pure fun _ hτ => .cell (hτ.2 _ _ hr)
  | index ha hi hat hit hk => exact subscriptOf_sound hv ha hi hat hit hk true
  | _ => cases hw

theorem read_sound {p : Place} (h : PlaceFits τ p t) : RunM.Sound τ (OfTy t) (c.read p) := by
  cases h with
  | cell h => exact RunM.readCell_sound h
  | element ha hi hk => exact RunM.element_sound ha hi hk

theorem write_sound {p : Place} {x : Value} (h : PlaceFits τ p t) (hx : τ.Fits x t) :
    RunM.Sound τ (fun _ _ => True) (c.write p x) := by
  cases h with
  | cell h => exact RunM.writeCell_sound h hx
  | element ha hi hk => exact RunM.setElement_sound ha hi hk hx

/-- Writes a value and gives it. -/
theorem store_sound {p : Place} {x y : Value} (h : PlaceFits τ p t) (hx : τ.Fits x t)
    (hy : τ.Fits y t) :
    EvalM.Sound Γ τ (OfTy t) (do EvalM.ofRun (c.write p x); return y) :=
  (EvalM.Sound.ofRun (write_sound h hx)).bind fun _ h₁ _ _ => .pure fun _ h₂ =>
    hy.mono (h₁.trans h₂)

theorem assign_sound (hv : c.Sound) (ha : Typed τ Γ a) (hb : Typed τ Γ b)
    (hw : Build.requireWritable a = .ok ()) (h : a.ty.accepts b.ty = true) :
    EvalM.Sound Γ τ (OfTy a.ty) (c.assign a b) := by
  refine (placeOf_sound hv ha hw).bind fun τ₁ h₁ p hp => ?_
  refine ((hv hb).mono h₁).bind fun τ₂ h₂ v hfit => ?_
  have hx := hfit.of_accepts ha.plain h
  exact store_sound (hp.mono h₂) hx hx

/-- Increments and decrements of a place. -/
theorem stepAssign_sound (hv : c.Sound) {op : UnaryOp} {k : NumKind} (ha : Typed τ Γ a)
    (hw : Build.requireWritable a = .ok ()) (hk : a.ty.liftedNumKind? = some k) :
    EvalM.Sound Γ τ (OfTy a.ty) (c.stepAssign op a) := by
  refine (placeOf_sound hv ha hw).bind fun τ₁ _ p hp => ?_
  refine (EvalM.Sound.ofRun (read_sound hp)).bind fun τ₂ h₂ old hold => ?_
  have hstore : ∀ τ₃, τ₂ ≤ τ₃ → ∀ new, τ₃.Fits new a.ty → EvalM.Sound Γ τ₃ (OfTy a.ty)
      (do EvalM.ofRun (c.write p new); return if op.isPost then old else new) := by
    intro τ₃ h₃ new hn
    refine store_sound (hp.mono (h₂.trans h₃)) hn ?_
    split
    · exact hold.mono h₃
    · exact hn
  dsimp only
  split
  · next hn =>
    -- null stays null
    cases old <;> simp only [Value.isNull, Bool.false_eq_true] at hn
    exact hstore τ₂ (le_refl _) .null hold
  · next hn =>
    have hstep := step_yields op hold hk (by simpa using hn)
    exact (EvalM.Sound.ofRun (.ofOp hstep)).bind hstore

/-- A compound assignment applies an arithmetic operator, whose numeric result
converts to the type of a numeric place. -/
theorem isConvertible_back {op base : BinaryOp} (hop : op.base? = some base)
    (h : Build.primitiveType? base t u = some w)
    (hback : w.liftedNumKind?.isSome = true ∨ w = t) :
    isStrict base = true ∧ Build.isConvertible w t = true := by
  have hbase : base = .add ∨ base = .subtract ∨ base = .multiply ∨ base = .divide ∨
      base = .modulo := by
    cases op <;> simp_all [BinaryOp.base?]
  refine ⟨by rcases hbase with rfl | rfl | rfl | rfl | rfl <;> rfl, ?_⟩
  rcases hback with hw | rfl
  · have ht : t.liftedNumKind?.isSome = true := by
      rcases hbase with rfl | rfl | rfl | rfl | rfl <;> simp only [Build.primitiveType?] at h <;>
        grind [Ty.liftedNumKind?, Ty.underlying, Ty.numKind?]
    simp [Build.isConvertible, hw, ht]
  · simp [Build.isConvertible]

/-- The result of a compound assignment is converted back to the type of its
place. -/
theorem assignApplied_sound (hv : c.Sound) {op base : BinaryOp} (ha : Typed τ Γ a)
    (hb : Typed τ Γ b) (hop : op.base? = some base) (hw : Build.requireWritable a = .ok ())
    (h : Build.primitiveType? base a.ty b.ty = some w)
    (hback : w.liftedNumKind?.isSome = true ∨ w = a.ty) :
    EvalM.Sound Γ τ (OfTy a.ty) (c.assignApplied base a b none) := by
  refine (placeOf_sound hv ha hw).bind fun τ₁ h₁ p hp => ?_
  refine (EvalM.Sound.ofRun (read_sound hp)).bind fun τ₂ h₂ x hx => ?_
  refine ((hv hb).mono (h₁.trans h₂)).bind fun τ₃ h₃ y hy => ?_
  obtain ⟨hstrict, hconv⟩ := isConvertible_back hop h hback
  have hc := combine_sound (c := c) ha.plain hb.plain h hstrict (hx.mono h₃) hy
  refine (EvalM.Sound.ofRun hc).bind fun τ₄ h₄ q hq => ?_
  obtain ⟨rfl, hfit⟩ := hq
  have hplain := Build.primitiveType?_plain hb.plain h
  refine (EvalM.Sound.ofRun (cast_sound hplain ha.plain hconv hfit)).bind fun τ₅ h₅ z hz => ?_
  exact store_sound (hp.mono (h₂.trans (h₃.trans (h₄.trans h₅)))) hz hz

/-! ### Operator nodes -/

/-- The value of the left operand, when there is one, is one of the type of the
right operand. -/
theorem coalesce_fits {v : Value} (ht : t.Plain) (h : Build.primitiveType? .coalesce t u = some w)
    (hv : τ.Fits v t) (hn : v.isNull = false) : τ.Fits v u := by
  simp only [Build.primitiveType?] at h
  split at h
  · next hc =>
    simp only [Bool.and_eq_true, Bool.or_eq_true] at hc
    rcases hc.2 with hacc | hacc
    · exact (hv.underlying hn).of_accepted ht.underlying hacc hn
    · exact hv.of_accepted ht hacc hn
  · cases h

theorem binary_sound (hv : c.Sound) {op : BinaryOp} (ha : Typed τ Γ a) (hb : Typed τ Γ b)
    (hop : op.base? = none ∧ op ≠ .assign) (h : Build.primitiveType? op a.ty b.ty = some t) :
    EvalM.Sound Γ τ (OfTy t) (c.binary t op a b none) := by
  cases op with
  | andAlso =>
    simp only [Build.primitiveType?, Option.ite_none_right_eq_some, Bool.and_eq_true, beq_iff_eq,
      Option.some.injEq] at h
    obtain ⟨⟨hat, hbt⟩, rfl⟩ := h
    refine (truthOf_sound hv ha hat).bind fun τ' hτ x _ => ?_
    split
    · have hb := (hv hb).mono hτ
      rwa [hbt] at hb
    · exact .pure fun _ _ => .bool false
  | orElse =>
    simp only [Build.primitiveType?, Option.ite_none_right_eq_some, Bool.and_eq_true, beq_iff_eq,
      Option.some.injEq] at h
    obtain ⟨⟨hat, hbt⟩, rfl⟩ := h
    refine (truthOf_sound hv ha hat).bind fun τ' hτ x _ => ?_
    split
    · exact .pure fun _ _ => .bool true
    · have hb := (hv hb).mono hτ
      rwa [hbt] at hb
  | coalesce =>
    obtain rfl : b.ty = t := by
      simp only [Build.primitiveType?, Option.ite_none_right_eq_some, Option.some.injEq] at h
      exact h.2
    refine (hv ha).bind fun τ₁ h₁ x hx => ?_
    cases hn : x.isNull with
    | false =>
      exact .pure fun _ hτ => (coalesce_fits ha.plain h hx hn).mono hτ
    | true =>
      refine ((hv hb).mono h₁).bind fun τ₂ h₂ y hy => ?_
      exact .ofRun (cast_sound hb.plain hb.plain (by simp [Build.isConvertible]) hy)
  | assign => exact absurd rfl hop.2
  | addAssign | subtractAssign | multiplyAssign | divideAssign | moduloAssign =>
    simp [BinaryOp.base?] at hop
  -- Both operands are evaluated, and their values combined.
  | _ =>
    refine (hv ha).bind fun τ₁ h₁ x hx => ?_
    refine ((hv hb).mono h₁).bind fun τ₂ h₂ y hy => ?_
    refine (EvalM.Sound.ofRun (combine_sound ha.plain hb.plain h rfl (hx.mono h₂) hy)).bind ?_
    exact fun τ₃ h₃ p hp => .pure fun _ hτ => hp.2.mono hτ

theorem compound_eq {op base : BinaryOp} (hop : op.base? = some base) :
    c.binary t op a b none = c.assignApplied base a b none := by
  cases op <;> cases hop <;> rfl

/-- Increments and decrements of a place are for numbers. -/
theorem assigning_ok {op : UnaryOp} (hop : op.isAssignment = true)
    (h : Build.unaryType op e = .ok t) :
    ∃ k, e.ty = .num k ∧ Build.requireWritable e = .ok () ∧ t = e.ty := by
  have hcheck : (if e.ty.numKind?.isSome then do
      Build.requireWritable e
      .ok e.ty
    else .error (.unaryOperand op e.ty) : Build.Result Ty) = .ok t := by
    cases op <;> simp only [UnaryOp.isAssignment, Bool.false_eq_true] at hop <;> exact h
  split at hcheck
  · next hk =>
    obtain ⟨_, hw, ht⟩ := Build.bind_ok.1 hcheck
    have ht : t = e.ty := by simpa using ht.symm
    cases hty : e.ty <;> simp only [hty, Ty.numKind?, Option.isSome_none, Bool.false_eq_true] at hk
    exact ⟨_, rfl, hw, hty ▸ ht⟩
  · cases hcheck

theorem unary_sound (hv : c.Sound) {op : UnaryOp} (he : Typed τ Γ e)
    (h : Build.unaryType op e = .ok t) : EvalM.Sound Γ τ (OfTy t) (c.unary t op e none) := by
  unfold unary
  cases hop : op.isAssignment with
  | true =>
    obtain ⟨k, hk, hw, rfl⟩ := assigning_ok hop h
    have hlifted : e.ty.liftedNumKind? = some k := by
      rw [hk]
      rfl
    exact stepAssign_sound hv he hw hlifted
  | false =>
    refine (hv he).bind fun τ' _ v hfit => ?_
    exact .ofRun (unaryPrimitive_sound h hop hfit)

/-- Outside a handler there is nothing to throw again, which is an exception too. -/
theorem throwAgain_sound {P : Typing → β → Prop} : EvalM.Sound Γ τ P (throwAgain : EvalM β) := by
  intro τ' _ s hw _
  simp only [throwAgain, bind, EStateM.bind, get, getThe, MonadStateOf.get, EStateM.get]
  cases s.caught with
  | nil => exact .error (le_refl τ') (hw.newException .nothingCaught) rfl (.thrown _)
  | cons v _ => exact .error (le_refl τ') hw rfl (.thrown v)

/-! ### Control flow -/

/-- Nothing jumps out of a well-typed part, so it is enough to say what is done
after its value and its failures. -/
theorem sound_of_part (hv : c.Sound) (he : Typed τ Γ e) (hτ : τ ≤ τ') {P : Typing → β → Prop}
    {x : EvalM β} {f : Value → EvalM β}
    (hx : ∀ s, (∀ v s', c.valueOf e s = .ok v s' → x s = f v s') ∧
      ∀ d s', c.valueOf e s = .error (.fault d) s' → x s = .error (.fault d) s')
    (hf : ∀ τ'', τ' ≤ τ'' → ∀ v, τ''.Fits v e.ty → EvalM.Sound Γ τ'' P (f v)) :
    EvalM.Sound Γ τ' P x := by
  intro τ₁ h₁ s hw hb
  have hpart := hv he τ₁ (hτ.trans h₁) s hw hb
  cases hr : c.valueOf e s with
  | ok v s' =>
    rw [hr] at hpart
    cases hpart with
    | ok h₂ hw' hs hfit =>
      rw [(hx s).1 v s' hr, ← hs]
      have hb' := hb.mono h₂
      rw [← hs] at hb'
      exact (hf _ (h₁.trans h₂) v hfit _ (le_refl _) s' hw' hb').of_le h₂
  | error d s' =>
    rw [hr] at hpart
    cases hpart with
    | error h₂ hw' hs hreg =>
      rw [(hx s).2 _ s' hr]
      exact .error h₂ hw' hs hreg

/-- Without jumps the statements of a block run one after the other, and the last
gives the value. -/
theorem statements_sound (hv : c.Sound) {all : List Expr} {n : Nat} {rest : List Expr}
    {v : Value} (hτ : τ ≤ τ') (hrest : ∀ e ∈ rest, Typed τ Γ e) (hnil : rest = [] → τ'.Fits v t)
    (hlast : ∀ last, rest.getLast? = some last →
      ∀ (τ'' : Typing) (x : Value), τ''.Fits x last.ty → τ''.Fits x t) :
    EvalM.Sound Γ τ' (OfTy t) (c.statements all n rest v) := by
  induction rest generalizing τ' n v with
  | nil =>
    cases n <;> exact .pure fun _ h => (hnil rfl).mono h
  | cons e rest ih =>
    cases n with
    | zero => exact .fault .outOfFuel
    | succ n =>
      rw [List.forall_mem_cons] at hrest
      refine sound_of_part hv hrest.1 hτ (f := c.statements all n rest) (fun s => ⟨?_, ?_⟩)
        fun τ₁ h₁ x hx => ?_
      · intro x s' h
        simp only [statements, h]
      · intro d s' h
        simp only [statements, h]
      · refine ih (hτ.trans h₁) hrest.2 (fun hr => ?_) fun last hl => ?_
        · exact hlast e (by simp [hr]) τ₁ x hx
        · refine hlast last ?_
          cases rest with
          | nil => simp at hl
          | cons y ys => simpa [List.getLast?_cons_cons] using hl

/-- Variables of a block start with the defaults of their types. -/
theorem freshVariables_sound {vars : List Var} (h : ∀ v ∈ vars, v.ty.Plain) :
    EvalM.Sound Γ τ
      (fun τ' bs => List.Forall₂ (fun v b => b.1 = v.id ∧ τ'.cells b.2 = some v.ty) vars bs)
      (freshVariables vars) := by
  induction vars generalizing τ with
  | nil => exact .pure fun _ _ => .nil
  | cons v vars ih =>
    rw [List.forall_mem_cons] at h
    have hcell : RunM.Sound τ (fun τ' ref => τ'.cells ref = some v.ty)
        (RunM.newCell v.ty.default) := RunM.newCell_sound (.default h.1)
    refine (EvalM.Sound.ofRun hcell).bind fun τ₁ h₁ ref hr => ?_
    refine (ih h.2).bind fun τ₂ h₂ bs hbs => .pure fun τ₃ h₃ => ?_
    refine .cons ⟨rfl, h₃.2 _ _ (h₂.2 _ _ hr)⟩ (hbs.imp fun v b hb => ⟨hb.1, h₃.2 _ _ hb.2⟩)

/-- The variables of a block are bound in its scope. -/
theorem bound_declare {vars : List Var} {bs : List (Nat × Nat)} {scopes : Scopes Nat Nat}
    (h : List.Forall₂ (fun (v : Var) b => b.1 = v.id ∧ τ.cells b.2 = some v.ty) vars bs)
    (hb : Γ.Bound τ scopes) : (Γ.declare vars).Bound τ (scopes.bindAll bs) := by
  induction h generalizing Γ scopes with
  | nil => exact hb
  | @cons v b vars bs hvb _ ih =>
    refine @ih (Function.update Γ v.id (some v.ty)) (scopes.bind b.1 b.2) ?_
    intro id t ht
    rw [Scopes.get?_bind, hvb.1]
    by_cases hid : v.id = id
    · subst hid
      obtain rfl : v.ty = t := by simpa using ht
      exact ⟨b.2, by simp, hvb.2⟩
    · rw [Function.update_of_ne (Ne.symm hid)] at ht
      rw [if_neg hid]
      exact hb id t ht

theorem block_sound (hv : c.Sound) {vars : List Var} {body : List Expr} (ht : t.Plain)
    (hvars : ∀ v ∈ vars, v.ty.Plain) (hb : ∀ e ∈ body, Typed τ (Γ.declare vars) e)
    (h : Build.Closes t body) : EvalM.Sound Γ τ (OfTy t) (c.block vars body) := by
  refine (freshVariables_sound hvars).bind fun τ₁ h₁ bs hbs => ?_
  refine EvalM.Sound.inScope (Δ := Γ.declare vars) ?_ fun τ₂ scopes h₂ hbound => ?_
  · refine statements_sound hv h₁ hb (fun hnil => ?_) fun last hl τ' v hfit => ?_
    · rcases h with rfl | ⟨last, hl, -⟩
      · exact .void _
      · simp [hnil] at hl
    · rcases h with rfl | ⟨last', hl', hacc⟩
      · exact .void _
      · obtain rfl : last' = last := by simpa [hl'] using hl
        exact hfit.of_accepts ht hacc
  · refine bound_declare (hbs.imp fun v b hb => ⟨hb.1, h₂.2 _ _ hb.2⟩) ?_
    simpa [Context.Bound] using hbound

/-- A loop without jumps does not end by itself. -/
theorem loop_sound (hv : c.Sound) {breakLabel continueLabel : Option Label} {n : Nat}
    (hτ : τ ≤ τ') (he : Typed τ Γ e) :
    EvalM.Sound Γ τ' (OfTy t) (c.loop e breakLabel continueLabel n) := by
  induction n generalizing τ' with
  | zero => exact .fault .outOfFuel
  | succ n ih =>
    refine sound_of_part hv he hτ (f := fun _ => c.loop e breakLabel continueLabel n)
      (fun s => ⟨?_, ?_⟩) fun τ₁ h₁ _ _ => ih (hτ.trans h₁)
    · intro x s' h
      simp only [loop, h]
    · intro d s' h
      simp only [loop, h]

theorem matchesTest_sound (hv : c.Sound) {v : Value} {tests : List Expr} (hu : u.Plain)
    (htests : ∀ e ∈ tests, Typed τ Γ e)
    (hequal : ∀ e ∈ tests, ∃ w, Build.primitiveType? .equal u e.ty = some w) (hτ : τ ≤ τ')
    (hfit : τ'.Fits v u) : EvalM.Sound Γ τ' (fun _ _ => True) (c.matchesTest u v none tests) := by
  induction tests with
  | nil => exact .pure fun _ _ => trivial
  | cons test rest ih =>
    rw [List.forall_mem_cons] at htests hequal
    obtain ⟨w, hw⟩ := hequal.1
    refine ((hv htests.1).mono hτ).bind fun τ₁ h₁ x hx => ?_
    have hc := combine_sound (c := c) hu htests.1.plain hw rfl (hfit.mono h₁) hx
    refine (EvalM.Sound.ofRun hc).bind fun τ₂ h₂ p hp => ?_
    obtain ⟨matched, ty⟩ := p
    dsimp only
    split
    · exact .pure fun _ _ => trivial
    · exact (ih htests.2 hequal.2).mono (h₁.trans h₂)

theorem caseFor_sound (hv : c.Sound) {v : Value} {cases : List SwitchCase} (hu : u.Plain)
    (htests : ∀ k ∈ cases, ∀ e ∈ k.tests, Typed τ Γ e)
    (hequal : ∀ k ∈ cases, ∀ e ∈ k.tests, ∃ w, Build.primitiveType? .equal u e.ty = some w)
    (hτ : τ ≤ τ') (hfit : τ'.Fits v u) :
    EvalM.Sound Γ τ' (fun _ r => ∀ body ∈ r, ∃ k ∈ cases, body = k.body)
      (c.caseFor u v none cases) := by
  induction cases with
  | nil => exact .pure (by simp)
  | cons k rest ih =>
    obtain ⟨tests, body⟩ := k
    rw [List.forall_mem_cons] at htests hequal
    refine (matchesTest_sound hv hu htests.1 hequal.1 hτ hfit).bind fun τ₁ h₁ b _ => ?_
    split
    · refine .pure fun _ _ x hx => ⟨.mk tests body, by simp, ?_⟩
      obtain rfl : body = x := by simpa using hx
      rfl
    · refine ((ih htests.2 hequal.2).mono h₁).imp fun _ r hr x hx => ?_
      obtain ⟨k, hk, rfl⟩ := hr x hx
      exact ⟨k, by simp [hk], rfl⟩

/-- A part whose value may be the result of the whole. -/
theorem valueOf_gives (hv : c.Sound) (ht : t.Plain) (he : Typed τ Γ e) (h : Build.Gives t e.ty) :
    EvalM.Sound Γ τ (OfTy t) (c.valueOf e) :=
  (hv he).imp fun _ _ hfit => h.fits ht hfit

theorem switch_sound (hv : c.Sound) {cases : List SwitchCase} {fallback : Option Expr}
    (ht : t.Plain) (he : Typed τ Γ e) (htests : ∀ k ∈ cases, ∀ x ∈ k.tests, Typed τ Γ x)
    (hbodies : ∀ k ∈ cases, Typed τ Γ k.body) (hf : ∀ x ∈ fallback, Typed τ Γ x)
    (hequal : ∀ k ∈ cases, ∀ x ∈ k.tests, ∃ w, Build.primitiveType? .equal e.ty x.ty = some w)
    (hgives : ∀ k ∈ cases, Build.Gives t k.body.ty) (hfgives : ∀ x ∈ fallback, Build.Gives t x.ty) :
    EvalM.Sound Γ τ (OfTy t) (c.switch t e cases fallback none) := by
  refine (hv he).bind fun τ₁ h₁ v hfit => ?_
  have hcase := caseFor_sound hv he.plain htests hequal h₁ hfit
  refine hcase.bind fun τ₂ h₂ chosen hchosen => ?_
  cases chosen with
  | some body =>
    obtain ⟨k, hk, rfl⟩ := hchosen body rfl
    exact (valueOf_gives hv ht (hbodies k hk) (hgives k hk)).mono (h₁.trans h₂)
  | none =>
    cases fallback with
    | some x => exact (valueOf_gives hv ht (hf x rfl) (hfgives x rfl)).mono (h₁.trans h₂)
    | none =>
      dsimp only
      split
      · next hvoid =>
        rw [Build.isVoid_iff.1 hvoid]
        exact .pure fun _ _ => .void _
      · exact .ofRun ((RunM.describe_sound _ _).bind fun _ _ _ _ => .raise _)

/-- A node is sound when its parts are. -/
theorem node_sound (hv : c.Sound) (h : Typed τ Γ e) : EvalM.Sound Γ τ (OfTy e.ty) (c.node e) := by
  cases h with
  | constant _ hfit => exact .pure fun _ hτ => hfit.mono hτ
  | var hid _ =>
    exact (EvalM.Sound.cellOf hid).bind fun _ _ ref hr => .ofRun (RunM.readCell_sound hr)
  | default ht => exact .pure fun _ _ => .default ht
  | rethrow ht => exact throwAgain_sound
  | unary he h => exact unary_sound hv he h
  | throwing ht he =>
    refine (hv he).bind fun _ _ v _ => .ofRun ?_
    simp only [unaryPrimitive]
    split
    · exact .raise _
    · exact .throw (.thrown v)
  | convert ht he h =>
    exact (hv he).bind fun _ _ v hfit => .ofRun (cast_sound he.plain ht h hfit)
  | @compound _ op base a b w ha hb hop hw h hback =>
    have hnode : c.node (.binary a.ty op a b none) = c.assignApplied base a b none :=
      compound_eq hop
    rw [hnode]
    exact assignApplied_sound hv ha hb hop hw h hback
  | assign ha hb hw h => exact assign_sound hv ha hb hw h
  | binary ha hb hop h => exact binary_sound hv ha hb hop h
  | index ha hi hat hit hk =>
    exact (subscriptOf_sound hv ha hi hat hit hk false).bind fun _ _ p hp =>
      .ofRun (read_sound hp)
  | newArray ht hi h =>
    refine (valuesOf_sound hv hi ht h).bind fun _ _ vs hvs => .ofRun (RunM.newArray_sound ?_)
    simpa using hvs
  | newArrayBounds ht hn hnt hk =>
    refine (hv hn).bind fun _ _ v hfit => .ofRun ?_
    rw [OfTy, hnt] at hfit
    exact RunM.newArrayOf_sound ht hfit hk
  | conditional ht hc ha hb hct hat hbt =>
    refine (truthOf_sound hv hc hct).bind fun τ' hτ x _ => ?_
    split
    · exact (valueOf_gives hv ht ha hat).mono hτ
    · exact (valueOf_gives hv ht hb hbt).mono hτ
  | block ht hvars hb h => exact block_sound hv ht hvars hb h
  | loop hl hb => exact loop_sound hv (le_refl τ) hb
  | @label _ l fallback hl hf h hn =>
    cases fallback with
    | none =>
      simp only [node]
      exact .pure fun _ _ => .default hl
    | some x => exact valueOf_gives hv hl (hf x rfl) (.inr (h x rfl))
  | switch ht hval htests hbodies hf hequal hgives hfgives =>
    exact switch_sound hv ht hval htests hbodies hf hequal hgives hfgives

end Walk

/-! ## Evaluation -/

/-- Every well-typed expression is sound, by induction on the fuel. -/
theorem eval_typed (host : Host) (call : Caller) (gauge : Gauge) (fuel : Nat) {Γ : Context} {τ : Typing}
    {e : Expr} (h : Typed τ Γ e) :
    EvalM.Sound Γ τ (RunM.OfTy e.ty) (eval host call gauge fuel e) := by
  induction fuel generalizing Γ τ e with
  | zero => exact .fault .outOfFuel
  | succ fuel ih => exact .deeper (Walk.node_sound (fun he => ih he) h) gauge

/-- **Built expressions do not go wrong.** Take an expression that the checked
constructors built over plain types, and a state in which the variables in
scope, the arrays and the elements of arrays fit their types. However far
evaluation is followed, a value that it gives fits the type of the expression,
and if it fails, it has thrown, exceeded the depth limit, or not ended yet.
Variables and arrays still fit the types they had. -/
theorem eval_built_sound (host : Host) (call : Caller) (gauge : Gauge) (fuel : Nat) {catalog : Catalog}
    {τ : Typing} {Γ : Context} {e : Expr} {s : EvalState} (he : Built catalog τ Γ e)
    (hstore : τ.Follows s.world.store) (hscopes : Γ.Bound τ s.scopes) :
    ∃ τ', τ ≤ τ' ∧
      τ'.Follows (EvalM.endOf (eval host call gauge fuel e s)).world.store ∧
      Γ.Bound τ' (EvalM.endOf (eval host call gauge fuel e s)).scopes ∧
      ((∃ v s', eval host call gauge fuel e s = .ok v s' ∧ τ'.Fits v e.ty) ∨
        ∃ f s', eval host call gauge fuel e s = .error (.fault f) s' ∧ f.Regular) := by
  have hends := eval_typed host call gauge fuel he.typed τ (le_refl τ) s hstore hscopes
  revert hends
  cases eval host call gauge fuel e s with
  | ok v s' =>
    rintro (⟨hτ, hw, hs, hfit⟩ | _)
    refine ⟨_, hτ, hw, ?_, .inl ⟨v, s', rfl, hfit⟩⟩
    show Context.Bound Γ _ s'.scopes
    rw [hs]
    exact hscopes.mono hτ
  | error e s' =>
    rintro (_ | ⟨hτ, hw, hs, hf⟩)
    refine ⟨_, hτ, hw, ?_, .inr ⟨_, s', rfl, hf⟩⟩
    show Context.Bound Γ _ s'.scopes
    rw [hs]
    exact hscopes.mono hτ

/-- The view of a store with one variable, which holds an array of integers. -/
def Typing.oneArray : Typing where
  arrays r := if r = 0 then some .i32 else none
  cells r := if r = 0 then some (.array .i32) else none

/-- A state with one variable, which holds an array of one integer. -/
def EvalState.oneArray : EvalState where
  world := { store := { arrays := #[#[.i32 7]], cells := #[.array 0] } }
  scopes := { base := [(0, 0)] }

/-- The first element of the array. -/
def Expr.firstElement : Expr :=
  .index .i32 (.var ⟨0, "xs", .array .i32⟩) none [Build.int 0]

/-- Adds a wide integer to the element; the sum is narrowed back. -/
def Expr.addWide : Expr := .binary .i32 .addAssign .firstElement (Build.int64 5) none

/-- The context of the variable alone. -/
def Context.oneArray : Context := Context.declare (fun _ => none) [⟨0, "xs", .array .i32⟩]

theorem Typing.oneArray_follows : Typing.oneArray.Follows EvalState.oneArray.world.store := by
  refine ⟨fun {r t} h => ?_, fun {r t} h => ?_⟩
  · simp only [oneArray, Option.ite_none_right_eq_some, Option.some.injEq] at h
    obtain ⟨rfl, rfl⟩ := h
    refine ⟨#[.i32 7], rfl, fun v hv => ?_⟩
    obtain rfl : v = .i32 7 := by simpa using hv
    exact .num rfl
  · simp only [oneArray, Option.ite_none_right_eq_some, Option.some.injEq] at h
    obtain ⟨rfl, rfl⟩ := h
    exact ⟨.array 0, rfl, .array rfl⟩

theorem Context.oneArray_bound : Context.oneArray.Bound .oneArray EvalState.oneArray.scopes := by
  intro id t h
  obtain rfl : id = 0 := by
    by_contra hne
    simp [oneArray, declare, Function.update_of_ne hne] at h
  obtain rfl : Ty.array .i32 = t := by simpa [oneArray, declare] using h
  exact ⟨0, rfl, rfl⟩

theorem Expr.addWide_built : Built .empty .oneArray .oneArray .addWide := by
  have hint : ∀ i ∈ [Build.int 0], Built .empty .oneArray .oneArray i := by
    intro i hi
    obtain rfl : i = Build.int 0 := by simpa using hi
    exact .constant (.num _) (.num rfl)
  have hindex : Build.index .empty (.var ⟨0, "xs", .array .i32⟩) [Build.int 0] =
      .ok .firstElement := rfl
  have hadd : Build.binary .empty .addAssign .firstElement (Build.int64 5) = .ok .addWide := by
    cbv
  have hwide : Built .empty .oneArray .oneArray (Build.int64 5) := .constant (.num _) (.num rfl)
  exact .binary (.index (.var rfl (.array (.num _))) hint hindex) hwide hadd

theorem eval_built_sound_narrowing :
    Built .empty .oneArray .oneArray .addWide ∧
      Typing.oneArray.Follows EvalState.oneArray.world.store ∧
      Context.oneArray.Bound .oneArray EvalState.oneArray.scopes ∧
      ∀ host call gauge fuel, ∃ τ', Typing.oneArray ≤ τ' ∧
        τ'.Follows (EvalM.endOf (eval host call gauge fuel .addWide .oneArray)).world.store ∧
        ((∃ v s', eval host call gauge fuel .addWide .oneArray = .ok v s' ∧ τ'.Fits v .i32) ∨
          ∃ f s', eval host call gauge fuel .addWide .oneArray = .error (.fault f) s' ∧
            f.Regular) := by
  refine ⟨Expr.addWide_built, Typing.oneArray_follows, Context.oneArray_bound, ?_⟩
  intro host call gauge fuel
  obtain ⟨τ', hτ, hstore, -, hend⟩ := eval_built_sound host call gauge fuel
    Expr.addWide_built Typing.oneArray_follows Context.oneArray_bound
  exact ⟨τ', hτ, hstore, hend⟩

end TreeCode

import Mathlib
import TreeCode.Expr.Build
import TreeCode.Proofs.Value.Typing

/-!
# Trees of plain types

The expressions that the checked constructors build over plain types: there
are no structs, objects, functions or host methods in them, no jumps and no
protected regions. A `Context` holds the types of the variables in scope; a
block adds its own.

`Built` says how an expression is made, `Typed` what holds of the expression
that is made: one rule for each kind of node, with what the check of its
constructor established about the types of its parts.

Main results:

* `Typed.plain` — the type of every node is plain.
* `Built.typed` — **what the checked constructors build is well typed**.
-/

namespace TreeCode

/-! ## Contexts -/

/-- The types of the variables in scope, by their ids. -/
abbrev Context := Nat → Option Ty

/-- The context in a block: of variables with one id the last one counts, as in
a scope. -/
def Context.declare (Γ : Context) (vars : List Var) : Context :=
  vars.foldl (fun Γ v => Function.update Γ v.id (some v.ty)) Γ

/-! ## Trees -/

/-- The expression is built with the checked constructors over plain types.
Constants fit the type written with them; a variable is mentioned where it is
in scope. -/
inductive Built (catalog : Catalog) (τ : Typing) : Context → Expr → Prop
  | constant {Γ : Context} {t : Ty} {v : Value} (ht : t.Plain) (hv : τ.Fits v t) :
    Built catalog τ Γ (.constant t v)
  | var {Γ : Context} {v : Var} (hv : Γ v.id = some v.ty) (ht : v.ty.Plain) :
    Built catalog τ Γ (.var v)
  | default {Γ : Context} {t : Ty} (ht : t.Plain) : Built catalog τ Γ (.default t)
  | rethrow {Γ : Context} {t : Ty} (ht : t.Plain) : Built catalog τ Γ (.rethrow t)
  | unary {Γ : Context} {op : UnaryOp} {e r : Expr} (he : Built catalog τ Γ e)
    (h : Build.unary op e = .ok r) : Built catalog τ Γ r
  | throwing {Γ : Context} {e : Expr} {t : Ty} (ht : t.Plain) (he : Built catalog τ Γ e) :
    Built catalog τ Γ (Build.throwing e t)
  | convert {Γ : Context} {e r : Expr} {t : Ty} (ht : t.Plain) (he : Built catalog τ Γ e)
    (h : Build.convert e t = .ok r) : Built catalog τ Γ r
  | binary {Γ : Context} {op : BinaryOp} {a b r : Expr} (ha : Built catalog τ Γ a)
    (hb : Built catalog τ Γ b) (h : Build.binary catalog op a b = .ok r) : Built catalog τ Γ r
  | index {Γ : Context} {a r : Expr} {args : List Expr} (ha : Built catalog τ Γ a)
    (hargs : ∀ i ∈ args, Built catalog τ Γ i) (h : Build.index catalog a args = .ok r) :
    Built catalog τ Γ r
  | arrayOf {Γ : Context} {t : Ty} {items : List Expr} {r : Expr} (ht : t.Plain)
    (hi : ∀ i ∈ items, Built catalog τ Γ i) (h : Build.arrayOf t items = .ok r) :
    Built catalog τ Γ r
  | arrayOfLength {Γ : Context} {t : Ty} {n r : Expr} (ht : t.Plain) (hn : Built catalog τ Γ n)
    (h : Build.arrayOfLength t n = .ok r) : Built catalog τ Γ r
  | ifThenElseAs {Γ : Context} {c a b r : Expr} {t : Ty} (ht : t.Plain) (hc : Built catalog τ Γ c)
    (ha : Built catalog τ Γ a) (hb : Built catalog τ Γ b)
    (h : Build.ifThenElseAs c a b t = .ok r) : Built catalog τ Γ r
  | block {Γ : Context} {vars : List Var} {body : List Expr} (hv : ∀ v ∈ vars, v.ty.Plain)
    (hb : ∀ e ∈ body, Built catalog τ (Γ.declare vars) e) :
    Built catalog τ Γ (Build.block vars body)
  | blockAs {Γ : Context} {t : Ty} {vars : List Var} {body : List Expr} {r : Expr} (ht : t.Plain)
    (hv : ∀ v ∈ vars, v.ty.Plain) (hb : ∀ e ∈ body, Built catalog τ (Γ.declare vars) e)
    (h : Build.blockAs t vars body = .ok r) : Built catalog τ Γ r
  | loop {Γ : Context} {body r : Expr} {breakLabel continueLabel : Option Label}
    (hl : ∀ l ∈ breakLabel, l.ty.Plain) (hb : Built catalog τ Γ body)
    (h : Build.loop body breakLabel continueLabel = .ok r) : Built catalog τ Γ r
  | label {Γ : Context} {l : Label} {fallback : Option Expr} {r : Expr} (hl : l.ty.Plain)
    (hf : ∀ e ∈ fallback, Built catalog τ Γ e) (h : Build.label l fallback = .ok r) :
    Built catalog τ Γ r
  | switch {Γ : Context} {t : Ty} {value r : Expr} {cases : List SwitchCase}
    {fallback : Option Expr} (ht : t.Plain) (hv : Built catalog τ Γ value)
    (htests : ∀ k ∈ cases, ∀ e ∈ k.tests, Built catalog τ Γ e)
    (hbodies : ∀ k ∈ cases, Built catalog τ Γ k.body)
    (hf : ∀ e ∈ fallback, Built catalog τ Γ e)
    (h : Build.switch catalog t value cases fallback none = .ok r) : Built catalog τ Γ r

/-! ## What the checks of the constructors say -/

namespace Build

variable {catalog : Catalog} {a b c e r : Expr} {t u w : Ty}

theorem bind_ok {α β : Type} {x : Result α} {f : α → Result β} {y : β} :
    (x >>= f) = .ok y ↔ ∃ v, x = .ok v ∧ f v = .ok y := by
  cases x with
  | error e => simp [bind, Except.bind]
  | ok v => simp [bind, Except.bind]

theorem pure_ok {α : Type} {x y : α} : (pure x : Result α) = .ok y ↔ x = y := by
  simp [pure, Except.pure]

/-- A check of each element of a list. -/
theorem forM_ok {α : Type} {xs : List α} {f : α → Result Unit} (h : xs.forM f = .ok ()) :
    ∀ x ∈ xs, f x = .ok () := by
  induction xs with
  | nil => simp
  | cons x xs ih =>
    simp only [List.forM_eq_forM, List.forM_cons, bind_ok] at h ih
    obtain ⟨_, hx, hrest⟩ := h
    exact List.forall_mem_cons.2 ⟨hx, ih hrest⟩

/-- A value of type `u` may be the result where `t` is asked for: any may when
`t` is void. -/
def Gives (t u : Ty) : Prop := t = .void ∨ t.accepts u = true

theorem Gives.fits {τ : Typing} {v : Value} (h : Gives t u) (ht : t.Plain) (hv : τ.Fits v u) :
    τ.Fits v t := by
  rcases h with rfl | h
  · exact .void v
  · exact hv.of_accepts ht h

theorem isVoid_iff : t.isVoid = true ↔ t = .void := by
  cases t <;> simp [Ty.isVoid]

theorem requireFits_ok : requireFits t u = .ok () ↔ t.accepts u = true := by
  unfold requireFits
  split <;> simp_all

theorem requireInteger_ok (h : requireInteger t = .ok ()) :
    ∃ k, t = .num k ∧ k.isInteger = true := by
  unfold requireInteger at h
  cases t <;> simp [Ty.numKind?] at h
  exact ⟨_, rfl, h⟩

theorem unary_ok {op : UnaryOp} (h : unary op e = .ok r) :
    ∃ t, unaryType op e = .ok t ∧ r = .unary t op e none := by
  simp only [unary, bind_ok, pure_ok] at h
  obtain ⟨t, ht, rfl⟩ := h
  exact ⟨t, ht, rfl⟩

theorem convert_ok (h : convert e t = .ok r) :
    isConvertible e.ty t = true ∧ r = .unary t .convert e none := by
  unfold convert at h
  split at h
  · next hc => exact ⟨hc, by simpa using h.symm⟩
  · cases h

theorem binary_ok {op : BinaryOp} (h : binary catalog op a b = .ok r) :
    ∃ t, binaryNodeType catalog op a b = .ok t ∧ r = .binary t op a b none := by
  simp only [binary, bind_ok, pure_ok] at h
  obtain ⟨t, ht, rfl⟩ := h
  exact ⟨t, ht, rfl⟩

/-- Among plain types only arrays are subscripted, with one integer. -/
theorem index_ok {args : List Expr} (hp : a.ty.Plain) (h : index catalog a args = .ok r) :
    ∃ t i k, a.ty = .array t ∧ args = [i] ∧ i.ty = .num k ∧ k.isInteger = true ∧
      r = .index t a none [i] := by
  unfold index at h
  split at h
  · next t ht =>
    split at h
    · next i =>
      simp only [bind_ok, pure_ok] at h
      obtain ⟨_, hi, rfl⟩ := h
      obtain ⟨k, hk, hki⟩ := requireInteger_ok hi
      exact ⟨t, i, k, ht, rfl, hk, hki, rfl⟩
    · cases h
  · next d hd =>
    rw [hd] at hp
    cases hp
  · cases h

theorem arrayOf_ok {items : List Expr} (h : arrayOf t items = .ok r) :
    (∀ i ∈ items, t.accepts i.ty = true) ∧ r = .newArray t items := by
  simp only [arrayOf, bind_ok, pure_ok] at h
  obtain ⟨_, hi, rfl⟩ := h
  exact ⟨fun i hm => requireFits_ok.1 (forM_ok hi i hm), rfl⟩

theorem arrayOfLength_ok (h : arrayOfLength t e = .ok r) :
    ∃ k, e.ty = .num k ∧ k.isInteger = true ∧ r = .newArrayBounds t e := by
  simp only [arrayOfLength, bind_ok, pure_ok] at h
  obtain ⟨_, hi, rfl⟩ := h
  obtain ⟨k, hk, hki⟩ := requireInteger_ok hi
  exact ⟨k, hk, hki, rfl⟩

theorem ifThenElseAs_ok (h : ifThenElseAs c a b t = .ok r) :
    c.ty = .bool ∧ Gives t a.ty ∧ Gives t b.ty ∧ r = .conditional t c a b := by
  simp only [ifThenElseAs, bind_ok] at h
  obtain ⟨_, hc, h⟩ := h
  have hc : c.ty = .bool := by
    have := requireFits_ok.1 hc
    simp only [Ty.accepts, Bool.or_false, beq_iff_eq] at this
    exact this.symm
  cases ht : t.isVoid with
  | true =>
    rw [isVoid_iff] at ht
    simp only [ht, Ty.isVoid, Bool.not_true, Bool.false_eq_true, ↓reduceIte, pure_ok] at h
    exact ⟨hc, .inl ht, .inl ht, by rw [← h, ht]⟩
  | false =>
    simp only [ht, Bool.not_false, ↓reduceIte, bind_ok, pure_ok] at h
    obtain ⟨_, ha, _, hb, rfl⟩ := h
    exact ⟨hc, .inr (requireFits_ok.1 ha), .inr (requireFits_ok.1 hb), rfl⟩

/-- The last expression of a block gives its result; without one there is
none. -/
def Closes (t : Ty) (body : List Expr) : Prop :=
  t = .void ∨ ∃ last, body.getLast? = some last ∧ t.accepts last.ty = true

theorem block_closes (vars : List Var) (body : List Expr) :
    ∃ t, block vars body = .block t vars body ∧ Closes t body ∧
      (t = .void ∨ ∃ last ∈ body, t = last.ty) := by
  cases hl : body.getLast? with
  | none => exact ⟨.void, by simp [block, hl], .inl rfl, .inl rfl⟩
  | some last =>
    exact ⟨last.ty, by simp [block, hl], .inr ⟨last, hl, by simp [Ty.accepts]⟩,
      .inr ⟨last, List.mem_of_getLast? hl, rfl⟩⟩

theorem blockAs_ok {vars : List Var} {body : List Expr} (h : blockAs t vars body = .ok r) :
    Closes t body ∧ r = .block t vars body := by
  unfold blockAs at h
  cases ht : t.isVoid with
  | true =>
    rw [isVoid_iff] at ht
    simp only [ht, Ty.isVoid, Bool.not_true, Bool.false_eq_true, ↓reduceIte, pure_ok] at h
    exact ⟨.inl ht, by rw [← h, ht]⟩
  | false =>
    simp only [ht, Bool.not_false, ↓reduceIte] at h
    cases hl : body.getLast? with
    | none => simp [hl, bind, Except.bind] at h
    | some last =>
      simp only [hl, bind_ok, pure_ok] at h
      obtain ⟨_, hf, rfl⟩ := h
      exact ⟨.inr ⟨last, hl, requireFits_ok.1 hf⟩, rfl⟩

theorem loop_ok {breakLabel continueLabel : Option Label}
    (h : loop e breakLabel continueLabel = .ok r) : r = .loop e breakLabel continueLabel := by
  unfold loop at h
  split at h
  · split at h
    · simpa using h.symm
    · cases h
  · simpa using h.symm

theorem label_ok {l : Label} {fallback : Option Expr} (h : label l fallback = .ok r) :
    (∀ e ∈ fallback, l.ty.accepts e.ty = true) ∧ (fallback = none → l.ty = .void) ∧
      r = .label l fallback := by
  simp only [label, bind_ok, pure_ok] at h
  obtain ⟨_, hc, rfl⟩ := h
  cases fallback with
  | none =>
    simp only [requireCarried] at hc
    split at hc
    · next hv => exact ⟨by simp, fun _ => isVoid_iff.1 hv, rfl⟩
    · cases hc
  | some e => exact ⟨by simpa using requireFits_ok.1 hc, by simp, rfl⟩

/-- No operator method is found on plain types, so the operator is a primitive
one. -/
theorem methodNamed?_plain (op : BinaryOp) (ht : t.Plain) (hu : u.Plain) :
    op.methodNamed? catalog t u = none := by
  cases h : op.methodName? <;> simp [BinaryOp.methodNamed?, h, ht.struct?, hu.struct?]

theorem binaryType?_plain (op : BinaryOp) (ht : t.Plain) (hu : u.Plain) :
    binaryType? catalog op t u = primitiveType? op t u := by
  simp only [binaryType?, methodNamed?_plain op ht hu]

/-- A binary node is a compound assignment, an assignment, or an operator
applied to values. -/
theorem binaryNodeType_ok {op : BinaryOp} (ha : a.ty.Plain) (hb : b.ty.Plain)
    (h : binaryNodeType catalog op a b = .ok t) :
    (∃ base w, op.base? = some base ∧ requireWritable a = .ok () ∧
      primitiveType? base a.ty b.ty = some w ∧ (w.liftedNumKind?.isSome = true ∨ w = a.ty) ∧
      t = a.ty) ∨
    (op = .assign ∧ requireWritable a = .ok () ∧ a.ty.accepts b.ty = true ∧ t = a.ty) ∨
    (op.base? = none ∧ op ≠ .assign ∧ primitiveType? op a.ty b.ty = some t) := by
  unfold binaryNodeType at h
  simp only [binaryType?_plain _ ha hb] at h
  cases hbase : op.base? with
  -- A compound assignment: its operator is typed first, and has to give what can be assigned.
  | some base =>
    simp only [hbase, bind_ok] at h
    obtain ⟨_, hw, h⟩ := h
    cases hp : primitiveType? base a.ty b.ty with
    | none => simp [hp] at h
    | some w =>
      simp only [hp] at h
      split at h
      · cases h
      · next hc =>
        simp only [Bool.and_eq_true, Option.isNone_iff_eq_none, bne_iff_ne, not_and, not_not] at hc
        refine .inl ⟨base, w, rfl, hw, hp, ?_, by simpa using h.symm⟩
        cases hk : w.liftedNumKind? with
        | none => exact .inr (hc hk)
        | some _ => exact .inl rfl
  -- A plain assignment, or an operator on two values.
  | none =>
    simp only [hbase] at h
    split at h
    · next hop =>
      simp only [bind_ok] at h
      obtain ⟨_, hw, _, hf, h⟩ := h
      exact .inr (.inl ⟨hop, hw, requireFits_ok.1 hf, by simpa using h.symm⟩)
    · next hop =>
      split at h
      · next hp => exact .inr (.inr ⟨rfl, hop, by simpa [hp] using h⟩)
      · cases h

theorem requireTests_ok {tests : List Expr} (hv : e.ty.Plain) (ht : ∀ x ∈ tests, x.ty.Plain)
    (h : requireTests catalog e none tests = .ok ()) :
    ∀ x ∈ tests, ∃ w, primitiveType? .equal e.ty x.ty = some w := by
  induction tests with
  | nil => simp
  | cons x tests ih =>
    rw [List.forall_mem_cons] at ht ⊢
    simp only [requireTests, binaryType?_plain _ hv ht.1] at h
    cases hp : primitiveType? .equal e.ty x.ty with
    | none => simp [hp, bind, Except.bind] at h
    | some w =>
      simp only [hp, Option.isNone_some, Bool.false_eq_true, ↓reduceIte] at h
      exact ⟨⟨w, rfl⟩, ih ht.2 h⟩

/-- The tests of a switch compare with its value, and every branch gives a
result. -/
theorem switch_ok {cases : List SwitchCase} {fallback : Option Expr} (hv : e.ty.Plain)
    (ht : ∀ k ∈ cases, ∀ x ∈ k.tests, x.ty.Plain)
    (h : switch catalog t e cases fallback none = .ok r) :
    (∀ k ∈ cases, ∀ x ∈ k.tests, ∃ w, primitiveType? .equal e.ty x.ty = some w) ∧
      (∀ k ∈ cases, Gives t k.body.ty) ∧ (∀ x ∈ fallback, Gives t x.ty) ∧
      r = .switch t e cases fallback none := by
  simp only [switch, bind_ok] at h
  obtain ⟨_, hc, h⟩ := h
  have hcase : ∀ k ∈ cases, (∀ x ∈ k.tests, ∃ w, primitiveType? .equal e.ty x.ty = some w) ∧
      Gives t k.body.ty := by
    intro k hk
    have hchecks := forM_ok hc k hk
    simp only [bind_ok] at hchecks
    obtain ⟨_, htests, hbody⟩ := hchecks
    refine ⟨requireTests_ok hv (ht k hk) htests, ?_⟩
    split at hbody
    · exact .inr (requireFits_ok.1 hbody)
    · next hvoid => exact .inl (isVoid_iff.1 (by simpa using hvoid))
  refine ⟨fun k hk => (hcase k hk).1, fun k hk => (hcase k hk).2, ?_⟩
  cases hvoid : t.isVoid with
  | true =>
    simp only [hvoid, Bool.not_true, Bool.false_eq_true, ↓reduceIte, pure_ok] at h
    exact ⟨fun x _ => .inl (isVoid_iff.1 hvoid), h.symm⟩
  | false =>
    simp only [hvoid, Bool.not_false, ↓reduceIte] at h
    cases fallback with
    | none =>
      simp only [pure_ok] at h
      exact ⟨by simp, h.symm⟩
    | some x =>
      simp only [bind_ok, pure_ok] at h
      obtain ⟨_, hf, rfl⟩ := h
      exact ⟨by simpa using .inr (requireFits_ok.1 hf), rfl⟩

end Build

/-! ## Well-typed trees -/

/-- The expression is well typed. -/
inductive Typed (τ : Typing) : Context → Expr → Prop
  | constant {Γ : Context} {t : Ty} {v : Value} (ht : t.Plain) (hv : τ.Fits v t) :
    Typed τ Γ (.constant t v)
  | var {Γ : Context} {v : Var} (hv : Γ v.id = some v.ty) (ht : v.ty.Plain) : Typed τ Γ (.var v)
  | default {Γ : Context} {t : Ty} (ht : t.Plain) : Typed τ Γ (.default t)
  | rethrow {Γ : Context} {t : Ty} (ht : t.Plain) : Typed τ Γ (.rethrow t)
  | unary {Γ : Context} {op : UnaryOp} {e : Expr} {t : Ty} (he : Typed τ Γ e)
    (h : Build.unaryType op e = .ok t) : Typed τ Γ (.unary t op e none)
  | throwing {Γ : Context} {e : Expr} {t : Ty} (ht : t.Plain) (he : Typed τ Γ e) :
    Typed τ Γ (.unary t .throw e none)
  | convert {Γ : Context} {e : Expr} {t : Ty} (ht : t.Plain) (he : Typed τ Γ e)
    (h : Build.isConvertible e.ty t = true) : Typed τ Γ (.unary t .convert e none)
  | compound {Γ : Context} {op base : BinaryOp} {a b : Expr} {w : Ty} (ha : Typed τ Γ a)
    (hb : Typed τ Γ b) (hop : op.base? = some base) (hw : Build.requireWritable a = .ok ())
    (h : Build.primitiveType? base a.ty b.ty = some w)
    (hback : w.liftedNumKind?.isSome = true ∨ w = a.ty) : Typed τ Γ (.binary a.ty op a b none)
  | assign {Γ : Context} {a b : Expr} (ha : Typed τ Γ a) (hb : Typed τ Γ b)
    (hw : Build.requireWritable a = .ok ()) (h : a.ty.accepts b.ty = true) :
    Typed τ Γ (.binary a.ty .assign a b none)
  | binary {Γ : Context} {op : BinaryOp} {a b : Expr} {t : Ty} (ha : Typed τ Γ a)
    (hb : Typed τ Γ b) (hop : op.base? = none ∧ op ≠ .assign)
    (h : Build.primitiveType? op a.ty b.ty = some t) : Typed τ Γ (.binary t op a b none)
  | index {Γ : Context} {a i : Expr} {t : Ty} {k : NumKind} (ha : Typed τ Γ a)
    (hi : Typed τ Γ i) (hat : a.ty = .array t) (hit : i.ty = .num k)
    (hk : k.isInteger = true) : Typed τ Γ (.index t a none [i])
  | newArray {Γ : Context} {t : Ty} {items : List Expr} (ht : t.Plain)
    (hi : ∀ i ∈ items, Typed τ Γ i) (h : ∀ i ∈ items, t.accepts i.ty = true) :
    Typed τ Γ (.newArray t items)
  | newArrayBounds {Γ : Context} {t : Ty} {n : Expr} {k : NumKind} (ht : t.Plain)
    (hn : Typed τ Γ n) (hnt : n.ty = .num k) (hk : k.isInteger = true) :
    Typed τ Γ (.newArrayBounds t n)
  | conditional {Γ : Context} {c a b : Expr} {t : Ty} (ht : t.Plain) (hc : Typed τ Γ c)
    (ha : Typed τ Γ a) (hb : Typed τ Γ b) (hct : c.ty = .bool) (hat : Build.Gives t a.ty)
    (hbt : Build.Gives t b.ty) : Typed τ Γ (.conditional t c a b)
  | block {Γ : Context} {t : Ty} {vars : List Var} {body : List Expr} (ht : t.Plain)
    (hv : ∀ v ∈ vars, v.ty.Plain) (hb : ∀ e ∈ body, Typed τ (Γ.declare vars) e)
    (h : Build.Closes t body) : Typed τ Γ (.block t vars body)
  | loop {Γ : Context} {body : Expr} {breakLabel continueLabel : Option Label}
    (hl : ∀ l ∈ breakLabel, l.ty.Plain) (hb : Typed τ Γ body) :
    Typed τ Γ (.loop body breakLabel continueLabel)
  | label {Γ : Context} {l : Label} {fallback : Option Expr} (hl : l.ty.Plain)
    (hf : ∀ e ∈ fallback, Typed τ Γ e) (h : ∀ e ∈ fallback, l.ty.accepts e.ty = true)
    (hn : fallback = none → l.ty = .void) : Typed τ Γ (.label l fallback)
  | switch {Γ : Context} {t : Ty} {value : Expr} {cases : List SwitchCase}
    {fallback : Option Expr} (ht : t.Plain) (hv : Typed τ Γ value)
    (htests : ∀ k ∈ cases, ∀ e ∈ k.tests, Typed τ Γ e)
    (hbodies : ∀ k ∈ cases, Typed τ Γ k.body) (hf : ∀ e ∈ fallback, Typed τ Γ e)
    (hequal : ∀ k ∈ cases, ∀ e ∈ k.tests, ∃ w, Build.primitiveType? .equal value.ty e.ty = some w)
    (hgives : ∀ k ∈ cases, Build.Gives t k.body.ty) (hfgives : ∀ e ∈ fallback, Build.Gives t e.ty) :
    Typed τ Γ (.switch t value cases fallback none)

/-! ## Types of nodes -/

namespace Build

variable {e : Expr} {t u w : Ty}

/-- A unary operator keeps the type of its operand, gives a length, or throws. -/
theorem unaryType_plain {op : UnaryOp} (he : e.ty.Plain) (h : unaryType op e = .ok t) :
    t.Plain := by
  have hcases : t = e.ty ∨ t = .i32 ∨ t = .void := by
    cases op <;> simp only [unaryType] at h <;> grind [bind_ok]
  rcases hcases with rfl | rfl | rfl
  · exact he
  · exact .num .i32
  · exact .void

theorem liftedType_plain (k : NumKind) (t u : Ty) : (liftedType k t u).Plain := by
  unfold liftedType
  split
  · exact .nullable (.num k)
  · exact .num k

theorem primitiveType?_plain {op : BinaryOp} (hu : u.Plain) (h : primitiveType? op t u = some w) :
    w.Plain := by
  have hcases : w = .str ∨ w = .bool ∨ w = u ∨ ∃ k, w = liftedType k t u := by
    cases op <;> simp only [primitiveType?] at h <;> grind
  rcases hcases with rfl | rfl | rfl | ⟨k, rfl⟩
  · exact .str
  · exact .bool
  · exact hu
  · exact liftedType_plain k t u

end Build

variable {catalog : Catalog} {τ : Typing} {Γ : Context} {e : Expr}

/-- The type of every node is plain. -/
theorem Typed.plain (h : Typed τ Γ e) : e.ty.Plain := by
  induction h with
  | constant ht _ => exact ht
  | var _ ht => exact ht
  | default ht => exact ht
  | rethrow ht => exact ht
  | unary _ h ih => exact Build.unaryType_plain ih h
  | throwing ht _ _ => exact ht
  | convert ht _ _ _ => exact ht
  | compound _ _ _ _ _ _ ih _ => exact ih
  | assign _ _ _ _ ih _ => exact ih
  | binary _ _ _ h _ ih => exact Build.primitiveType?_plain ih h
  | index _ _ hat _ _ ih _ =>
    rw [hat] at ih
    exact ih.element
  | newArray ht _ _ _ => exact .array ht
  | newArrayBounds ht _ _ _ _ => exact .array ht
  | conditional ht _ _ _ _ _ _ _ _ _ => exact ht
  | block ht _ _ _ _ => exact ht
  | @loop _ _ breakLabel _ hl _ _ =>
    cases breakLabel with
    | none => exact .void
    | some l => exact hl l rfl
  | label hl _ _ _ _ => exact hl
  | switch ht _ _ _ _ _ _ _ _ _ _ _ => exact ht

/-- **What the checked constructors build is well typed.** -/
theorem Built.typed (h : Built catalog τ Γ e) : Typed τ Γ e := by
  -- The builder computed what the rules of typing ask for, node by node.
  induction h with
  | constant ht hv => exact .constant ht hv
  | var hv ht => exact .var hv ht
  | default ht => exact .default ht
  | rethrow ht => exact .rethrow ht
  | unary _ h ih =>
    obtain ⟨t, ht, rfl⟩ := Build.unary_ok h
    exact .unary ih ht
  | throwing ht _ ih => exact .throwing ht ih
  | convert ht _ h ih =>
    obtain ⟨hc, rfl⟩ := Build.convert_ok h
    exact .convert ht ih hc
  | binary _ _ h iha ihb =>
    obtain ⟨t, ht, rfl⟩ := Build.binary_ok h
    rcases Build.binaryNodeType_ok iha.plain ihb.plain ht with
      ⟨base, w, hop, hw, hp, hback, rfl⟩ | ⟨rfl, hw, hacc, rfl⟩ | ⟨hbase, hne, hp⟩
    · exact .compound iha ihb hop hw hp hback
    · exact .assign iha ihb hw hacc
    · exact .binary iha ihb ⟨hbase, hne⟩ hp
  | index _ _ h iha ihargs =>
    obtain ⟨t, i, k, hat, rfl, hit, hk, rfl⟩ := Build.index_ok iha.plain h
    exact .index iha (ihargs i (by simp)) hat hit hk
  | arrayOf ht _ h ih =>
    obtain ⟨hacc, rfl⟩ := Build.arrayOf_ok h
    exact .newArray ht ih hacc
  | arrayOfLength ht _ h ih =>
    obtain ⟨k, hnt, hk, rfl⟩ := Build.arrayOfLength_ok h
    exact .newArrayBounds ht ih hnt hk
  | ifThenElseAs ht _ _ _ h ihc iha ihb =>
    obtain ⟨hct, hat, hbt, rfl⟩ := Build.ifThenElseAs_ok h
    exact .conditional ht ihc iha ihb hct hat hbt
  | @block _ vars body hv _ ih =>
    obtain ⟨t, heq, hc, ht⟩ := Build.block_closes vars body
    rw [heq]
    refine .block ?_ hv ih hc
    rcases ht with rfl | ⟨last, hl, rfl⟩
    · exact .void
    · exact (ih last hl).plain
  | blockAs ht hv _ h ih =>
    obtain ⟨hc, rfl⟩ := Build.blockAs_ok h
    exact .block ht hv ih hc
  | loop hl _ h ih =>
    obtain rfl := Build.loop_ok h
    exact .loop hl ih
  | label hl _ h ih =>
    obtain ⟨hacc, hn, rfl⟩ := Build.label_ok h
    exact .label hl ih hacc hn
  | switch ht _ _ _ _ h ihv ihtests ihbodies ihf =>
    obtain ⟨hequal, hgives, hfgives, rfl⟩ :=
      Build.switch_ok ihv.plain (fun k hk x hx => (ihtests k hk x hx).plain) h
    exact .switch ht ihv ihtests ihbodies ihf hequal hgives hfgives

end TreeCode

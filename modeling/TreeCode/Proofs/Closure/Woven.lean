import TreeCode.Proofs.Compile.Tally
import TreeCode.Proofs.Lower.Order
import TreeCode.Proofs.Operator.Scalar
import TreeCode.Proofs.Pact.Block

/-!
# Woven code

Code that works on scalars and functions only: constants and primitive operators,
variables that are read, assigned and moved by one, conditionals, blocks, lambdas and calls
of functions. A lambda may stand at several places and may be nested to any depth. Such
code neither jumps nor catches anything, and asks nothing of the host.

Main definitions:

* `Ty.Woven`, `Value.Sits` — the types, and the values that they have.
* `Expr.Woven`, `Lambda.Woven` — woven code. Variables have the types that a table says.
* `Steady` — lowering that leaves the table of handlers alone.

Main results:

* `Expr.Woven.ruled` — woven code keeps every rule of lowering outside of protected regions.
* `Lambda.Woven.nested` — lambdas inside woven ones are woven.
-/

namespace TreeCode

open Draft Lower

/-- Void, scalars, objects, and functions on these. -/
inductive Ty.Woven : Ty → Prop
  | void : Woven .void
  | scalar {t : Ty} (h : t.Scalar) : Woven t
  | object : Woven .object
  | function {ps : List Ty} {r : Ty} (hps : ∀ p ∈ ps, Woven p) (hr : Woven r) : Woven (.function ps r)

/-- The value is one of a woven type. Void says nothing, and no other type has the unit value. -/
def Value.Sits (v : Value) : Ty → Prop
  | .void => True
  | .object => v ≠ .unit
  | .function ps r => v = .null ∨ ∃ ref, v = .function ref ⟨ps, r⟩
  | t => Typing.bare.Fits v t ∧ v ≠ .unit

/-- Code that works on scalars and functions only. The type of a variable is the one that
`types` has for its id. -/
inductive Expr.Woven (types : Nat → Ty) : Expr → Prop
  | constant {t : Ty} {v : Value} (ht : t.Scalar) (hv : Typing.bare.Fits v t) :
      Woven types (.constant t v)
  | default {t : Ty} (ht : t.Woven) : Woven types (.default t)
  | var {v : Var} (hv : types v.id = v.ty) (ht : v.ty.Woven) : Woven types (.var v)
  | unary {t : Ty} {op : UnaryOp} {e : Expr} (he : Woven types e) (hs : e.ty.Scalar)
      (hop : op.isPrimitive = true) (hty : Build.unaryType op e = .ok t) :
      Woven types (.unary t op e none)
  | plus {t : Ty} {e : Expr} (he : Woven types e) (hty : e.ty = t) (hvoid : t.isVoid = false) :
      Woven types (.unary t .unaryPlus e none)
  | step {v : Var} {op : UnaryOp} {k : NumKind} (hop : op.isAssignment = true)
      (hv : types v.id = v.ty) (hk : v.ty = .num k) : Woven types (.unary v.ty op (.var v) none)
  | binary {t : Ty} {op : BinaryOp} {l r : Expr} (hl : Woven types l) (hr : Woven types r)
      (hsl : l.ty.Scalar) (hsr : r.ty.Scalar) (hop : Walk.isStrict op = true)
      (hty : Build.primitiveType? op l.ty r.ty = some t) : Woven types (.binary t op l r none)
  | both (isAnd : Bool) {l r : Expr} (hl : Woven types l) (hr : Woven types r) (htyl : l.ty = .bool)
      (htyr : r.ty = .bool) : Woven types (.binary .bool (.both isAnd) l r none)
  | assign {v : Var} {e : Expr} (hv : types v.id = v.ty) (ht : v.ty.Woven) (he : Woven types e)
      (hvoid : v.ty.isVoid = false) (hty : v.ty.Takes e.ty) :
      Woven types (.binary v.ty .assign (.var v) e none)
  | conditional {t : Ty} {c l r : Expr} (hc : Woven types c) (hl : Woven types l) (hr : Woven types r)
      (hty : c.ty = .bool) (ht : t.Woven) (htyl : t.Takes l.ty) (htyr : t.Takes r.ty) :
      Woven types (.conditional t c l r)
  | block {t : Ty} {vars : List Var} {body : List Expr} (ht : t.Woven)
      (hvars : ∀ v ∈ vars, types v.id = v.ty ∧ v.ty.Woven) (hdistinct : (Var.ids vars).Nodup)
      (hbody : ∀ e ∈ body, Woven types e)
      (hty : t.isVoid = false → ∃ e, body.getLast? = some e ∧ t.Takes e.ty) :
      Woven types (.block t vars body)
  | lambda {l : Lambda} (hparams : ∀ v ∈ l.params, types v.id = v.ty ∧ v.ty.Woven)
      (hret : l.ret.Woven) (hty : l.ret.Takes l.body.ty) (hbody : Woven types l.body) :
      Woven types (.lambda l)
  | invoke {ps : List Ty} {t : Ty} {target : Expr} {args : List Expr} (htarget : Woven types target)
      (hty : target.ty = .function ps t) (hargs : ∀ e ∈ args, Woven types e)
      (hfits : List.Forall₂ (fun p e => e.ty.isVoid = false ∧ p.accepts e.ty = true) ps args) :
      Woven types (.invoke t target args)

/-- A lambda of woven code. -/
structure Lambda.Woven (types : Nat → Ty) (l : Lambda) : Prop where
  params : ∀ v ∈ l.params, types v.id = v.ty ∧ v.ty.Woven
  ret : l.ret.Woven
  takes : l.ret.Takes l.body.ty
  body : l.body.Woven types

/-- What woven code may mention: no labels, blocks of distinct variables and woven lambdas. -/
def Mention.Woven (types : Nat → Ty) : Mention → Prop
  | .constant _ | .var _ _ => True
  | .label _ | .place _ => False
  | .lambda _ l => l.Woven types
  | .block vars => (Var.ids vars).Nodup

/-! ## Values -/

namespace Value.Sits

variable {v : Value} {t u : Ty}

theorem scalar_iff (h : t.Scalar) : v.Sits t ↔ Typing.bare.Fits v t := by
  have hunit : Typing.bare.Fits v t → v ≠ .unit := by
    rintro hv rfl
    rcases h.fits_cases hv with ⟨h, -⟩ | ⟨⟨_, h⟩, -⟩ | ⟨_, h, -⟩ | ⟨⟨_, h⟩, -⟩ <;> cases h
  have hiff : Typing.bare.Fits v t ∧ v ≠ .unit ↔ Typing.bare.Fits v t :=
    and_iff_left_of_imp hunit
  cases h <;> exact hiff

theorem ne_unit (ht : t.isVoid = false) (h : v.Sits t) : v ≠ .unit := by
  cases t with
  | void => cases ht
  | object => exact h
  | function =>
    rcases h with rfl | ⟨_, rfl⟩ <;> nofun
  | _ => exact h.2

/-- What can be stored without a conversion fits. -/
theorem of_accepts (ht : t.Woven) (hu : u.isVoid = false) (h : t.accepts u = true) (hv : v.Sits u) :
    v.Sits t := by
  cases ht with
  | void => trivial
  | object => exact hv.ne_unit hu
  | function =>
    obtain rfl : _ = u := by simpa [Ty.accepts] using h
    exact hv
  | scalar hs =>
    rw [scalar_iff hs]
    rcases hs.plain.accepts_iff.1 h with rfl | rfl
    · exact (scalar_iff hs).1 hv
    · cases hs with
      | maybeBool => exact .present ((scalar_iff .bool).1 hv)
      | maybeNum k => exact .present ((scalar_iff (.num k)).1 hv)

theorem default (ht : t.Woven) : t.default.Sits t := by
  cases ht with
  | void => trivial
  | object => nofun
  | function => exact .inl rfl
  | scalar hs => exact (scalar_iff hs).2 (.default hs.plain)

/-- A value of a type other than void has the shape of the type. -/
theorem shape (ht : t.Woven) (hvoid : t.isVoid = false) (h : v.Sits t) :
    v.fits (Shape.of t) = true := by
  cases ht with
  | void => cases hvoid
  | object =>
    cases v with
    | unit => exact absurd rfl h
    | _ => rfl
  | function =>
    rcases h with rfl | ⟨_, rfl⟩ <;> rfl
  | scalar hs =>
    have hne := h.ne_unit hvoid
    rw [scalar_iff hs] at h
    cases hs with
    | bool =>
      obtain ⟨b, rfl⟩ := h.bool_inv
      rfl
    | num k =>
      obtain ⟨n, rfl, rfl⟩ := h.num_inv
      simp [Shape.of, Value.fits]
    | str => cases h <;> rfl
    | maybeBool | maybeNum =>
      cases v with
      | unit => exact absurd rfl hne
      | _ => rfl

end Value.Sits

theorem Ty.Takes.isReference {t u : Ty} (ht : t.Woven) (h : t.accepts u = true)
    (hr : t.isReference = false) : u.isReference = false := by
  cases ht with
  | void =>
    obtain rfl : _ = u := by simpa [Ty.accepts] using h
    rfl
  | object => cases hr
  | function => cases hr
  | scalar hs =>
    rcases hs.plain.accepts_iff.1 h with rfl | rfl
    · exact hr
    · cases hs <;> rfl

/-! ## Mentions -/

namespace Expr.Woven

variable {types : Nat → Ty} {e : Expr}

theorem lambda_iff {l : Lambda} : (Expr.lambda l).Woven types ↔ l.Woven types := by
  constructor
  · intro h
    cases h with
    | lambda hparams hret hty hbody => exact ⟨hparams, hret, hty, hbody⟩
  · exact fun h => .lambda h.params h.ret h.takes h.body

/-- Whatever woven code mentions is woven. -/
theorem mentions (h : e.Woven types) (D : List Nat) : ∀ m ∈ e.mentions D, m.Woven types := by
  induction h generalizing D with
  | constant _ _ => simp [Expr.mentions, Mention.Woven]
  | default _ => simp [Expr.mentions]
  | var _ _ => simp [Expr.mentions, Mention.Woven]
  | step _ _ _ => simp [Expr.mentions, Mention.Woven]
  | lambda hparams hret hty hbody _ =>
    simp only [Expr.mentions, List.mem_singleton, forall_eq]
    exact ⟨hparams, hret, hty, hbody⟩
  | unary _ _ _ _ ih => exact ih D
  | plus _ _ _ ih => exact ih D
  | binary _ _ _ _ _ _ ihl ihr => exact List.forall_mem_append.2 ⟨ihl D, ihr D⟩
  | both _ _ _ _ _ ihl ihr => exact List.forall_mem_append.2 ⟨ihl D, ihr D⟩
  | assign _ _ _ _ _ ih =>
    exact List.forall_mem_append.2 ⟨by simp [Expr.mentions, Mention.Woven], ih D⟩
  | conditional _ _ _ _ _ _ _ ihc ihl ihr =>
    exact List.forall_mem_append.2 ⟨ihc D, List.forall_mem_append.2 ⟨ihl D, ihr D⟩⟩
  | block _ _ hdistinct _ _ ih =>
    refine List.forall_mem_cons.2 ⟨hdistinct, fun m hm => ?_⟩
    obtain ⟨e, he, hm⟩ := mem_mentionsAll.1 hm
    exact ih e he _ m hm
  | invoke _ _ _ _ iht iha =>
    refine List.forall_mem_append.2 ⟨iht D, fun m hm => ?_⟩
    obtain ⟨e, he, hm⟩ := mem_mentionsAll.1 hm
    exact iha e he D m hm

theorem neat (h : e.Woven types) : e.Neat := by
  intro D m hm
  have hwoven := h.mentions D m hm
  cases m with
  | constant _ | var _ _ | lambda _ _ => trivial
  | block _ => exact fun _ => hwoven
  | label _ | place _ => exact hwoven.elim

/-- The lambdas that woven code mentions are woven. -/
theorem mentioned (h : e.Woven types) {D D' : List Nat} {l : Lambda}
    (hl : .lambda D' l ∈ e.mentions D) : l.Woven types := h.mentions D _ hl

end Expr.Woven

/-- Lambdas inside woven ones are woven. -/
theorem Lambda.Woven.nested {types : Nat → Ty} {l k : Lambda} (h : l.Woven types)
    (hk : l.Nests k) : k.Woven types := by
  induction hk with
  | refl => exact h
  | tail _ hlast ih =>
    obtain ⟨D, hmem⟩ := hlast
    exact ih.body.mentioned hmem

/-! ## Rules -/

section Rules

variable {types : Nat → Ty} {e : Expr}
  {R : (D J I : List Nat) → List Ref → ∀ {α : Type}, LowerM α → Prop}

theorem Expr.parts_emits {D : List Nat} {es : List Expr} (h : ∀ e ∈ es, e.part.Ruled R D) :
    ∀ p ∈ Expr.parts es, p.Emits R D := by
  induction es with
  | nil => simp [Expr.parts]
  | cons e es ih =>
    intro p hp
    rcases List.mem_cons.1 hp with rfl | hp
    · exact (h e (by simp)).emit
    · exact ih (fun e he => h e (by simp [he])) p hp

/-- The code of woven code keeps every rule of lowering outside of protected regions. -/
theorem Expr.Woven.ruled (hR : StepRule (fun _ => True) R) (h : e.Woven types) (D : List Nat) :
    e.part.Ruled R D := by
  induction h generalizing D with
  | constant _ _ => exact hR.plain fun _ _ _ _ => hR.constant trivial
  | default _ => exact hR.plain fun _ _ _ _ => hR.ite hR.pushValue (hR.pure ())
  | var _ _ => exact hR.varNode trivial
  | unary _ _ _ _ ih => exact hR.unaryNode (ih D)
  | plus _ _ _ ih => exact hR.unaryNode (ih D)
  | step _ _ _ => exact hR.unaryNode (hR.varNode trivial)
  | binary _ _ _ _ _ _ ihl ihr => exact hR.binaryNode (ihl D) (ihr D)
  | both _ _ _ _ _ ihl ihr => exact hR.binaryNode (ihl D) (ihr D)
  | assign _ _ _ _ _ ih => exact hR.binaryNode (hR.varNode trivial) (ih D)
  | conditional _ _ _ _ _ _ _ ihc ihl ihr =>
    exact hR.plain fun _ _ _ _ => hR.conditional (ihc D) (ihl D).emit (ihr D).emit
  | block _ _ _ _ _ ih =>
    exact hR.plain fun _ _ _ _ => hR.block trivial
      (hR.statements (Expr.parts_emits fun e he => ih e he _))
  | lambda _ _ _ _ _ => exact hR.plain fun _ _ _ _ => hR.lambda trivial
  | invoke _ _ _ _ iht iha =>
    exact hR.plain fun _ _ _ _ => hR.invocation (iht D).emit
      (Expr.parts_emits fun e he => iha e he D)

end Rules

/-! ## Handlers -/

variable {α β : Type}

/-- The step leaves the table of handlers alone. -/
def Steady (x : LowerM α) : Prop := ∀ ⦃env s a s'⦄, x env s = .ok (a, s') → s'.handlers = s.handlers

namespace Steady

theorem bindOf {x : LowerM α} {f : α → LowerM β} (hx : Steady x)
    (hf : ∀ a, MayGive x a → Steady (f a)) : Steady (x >>= f) := by
  intro env s b s' h
  obtain ⟨a, t, h₁, h₂⟩ := bind_ok.1 h
  exact (hf a ⟨env, s, t, h₁⟩ h₂).trans (hx h₁)

theorem change {g : Draft → Draft} (h : ∀ s, (g s).handlers = s.handlers) :
    Steady (modify g : LowerM Unit) :=
  fun _ s _ _ hx => modify_ok.1 hx ▸ h s

theorem programLabel {l : Label} : Steady (programLabel l) := by
  intro env s r s' h
  rcases programLabel_cases h with ⟨-, rfl⟩ | ⟨-, -, k, n, -, rfl⟩ <;> rfl

end Steady

theorem steady_scoped : Scoped fun x => Steady x where
  pure {_ _} := fun _ _ _ _ h => (pure_ok.1 h).2 ▸ rfl
  bind := .bindOf
  get := fun _ _ _ _ h => (get_ok.1 h).2 ▸ rfl
  read := fun _ _ _ _ h => (read_ok.1 h).2 ▸ rfl
  unsupported {_ _} := fun _ _ _ _ h => absurd h (by simp [unsupported_ok])
  error {_ _} := fun _ _ _ _ h => absurd h (by simp [error_ok])
  emit {_} _ _ := .change fun _ => rfl
  newSlot := fun _ _ _ _ h => (newSlot_quiet h).handlers
  literal {_ _} _ := .bindOf (fun _ _ _ _ h => (literal_ok h).1.quiet.handlers)
    fun _ _ => .change fun _ => rfl
  typeEntry {_} := fun _ _ _ _ h => (typeEntry_ok h).1.quiet.handlers
  methodEntry {_} := fun _ _ _ _ h => (methodEntry_ok h).1.quiet.handlers
  structEntry {_} := fun _ _ _ _ h => (structEntry_ok h).1.quiet.handlers
  slots {_} := .change fun _ => rfl
  hoisted {_} := .change fun _ => rfl
  caught {_} := .change fun _ => rfl
  assumePushed := .change fun _ => rfl

/-- Leaving the table of handlers alone is a rule of lowering outside of protected regions. -/
theorem steady_rule : StepRule (fun _ => True) fun _ _ _ _ _ x => Steady x :=
  Labelled.rule (Q := fun _ _ _ x => Steady x) {
    routine := steady_scoped
    mono := fun h _ _ => h
    jump := fun _ _ _ _ _ _ h => (jumpTo_jumped h).quiet.handlers
    place := fun _ _ _ _ _ _ h => (placeLabel_still h).2.1
    fresh := steady_scoped.andThen fun _ _ _ _ h => by
      obtain ⟨-, rfl⟩ := freshLabel_ok.1 h
      rfl
    program := steady_scoped.andThen Steady.programLabel }

end TreeCode

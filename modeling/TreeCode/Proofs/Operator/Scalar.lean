import TreeCode.Proofs.Eval.Sound
import TreeCode.Proofs.Pact.Primitive

/-!
# Operators on scalars

Truth values, numbers, nullable ones of these and strings are the types of primitive
operators. An operation is such an operator on variables and constants, as the builder
accepts it.

Main definitions:

* `Ty.Scalar` — truth values, numbers, nullable ones and strings.
* `Expr.Operand` — variables and constants of these types.
* `Expr.Operation` — operators on operands.

Main results:

* `Build.primitiveType?_scalar` — primitive operators on scalars give scalars.
-/

namespace TreeCode

open Draft Lower

/-! ## Operands -/

/-- Truth values, numbers, nullable ones of these, and strings. -/
inductive Ty.Scalar : Ty → Prop
  | bool : Scalar .bool
  | num (k : NumKind) : Scalar (.num k)
  | maybeBool : Scalar (.nullable .bool)
  | maybeNum (k : NumKind) : Scalar (.nullable (.num k))
  | str : Scalar .str

namespace Ty.Scalar

variable {t : Ty}

theorem plain (h : t.Scalar) : t.Plain := by
  cases h with
  | bool => exact .bool
  | num k => exact .num k
  | maybeBool => exact .nullable .bool
  | maybeNum k => exact .nullable (.num k)
  | str => exact .str

theorem not_void (h : t.Scalar) : t.isVoid = false := by
  cases h <;> rfl

/-- A value of a scalar type is null, a truth value, a number or a string. -/
theorem fits_cases {v : Value} (h : t.Scalar) (hv : Typing.bare.Fits v t) :
    v = .null ∧ t.hasNull = true ∨ (∃ b, v = .bool b) ∧ t.underlying = .bool ∨
      (∃ n : Num, v = .num n ∧ t.underlying = .num n.kind) ∨ (∃ s, v = .str s) ∧ t = .str := by
  -- A type of numbers has numbers of its kind, and null if it is nullable.
  have hnum : ∀ {k : NumKind}, t.liftedNumKind? = some k → v = .null ∧ t.hasNull = true ∨
      ∃ n : Num, v = .num n ∧ n.kind = k := by
    intro k hk
    rcases hv.lifted_inv hk with ⟨rfl, ht⟩ | hn
    · exact .inl ⟨rfl, by simp [Ty.hasNull, ht]⟩
    · exact .inr hn
  cases h with
  | bool =>
    obtain ⟨b, rfl⟩ := hv.bool_inv
    exact .inr (.inl ⟨⟨b, rfl⟩, rfl⟩)
  | num k =>
    obtain ⟨n, rfl, rfl⟩ := hv.num_inv
    exact .inr (.inr (.inl ⟨n, rfl, rfl⟩))
  | maybeBool =>
    cases hn : v.isNull with
    | true =>
      cases v <;> cases hn
      exact .inl ⟨rfl, rfl⟩
    | false =>
      obtain ⟨b, rfl⟩ := (hv.underlying hn).bool_inv
      exact .inr (.inl ⟨⟨b, rfl⟩, rfl⟩)
  | maybeNum k =>
    rcases hnum rfl with h | ⟨n, rfl, rfl⟩
    · exact .inl h
    · exact .inr (.inr (.inl ⟨n, rfl, rfl⟩))
  | str =>
    rcases hv.str_inv with rfl | ⟨s, rfl⟩
    · exact .inl ⟨rfl, rfl⟩
    · exact .inr (.inr (.inr ⟨⟨s, rfl⟩, rfl⟩))

/-- Constants of a scalar type are literals. -/
theorem literal {v : Value} (h : t.Scalar) (hv : Typing.bare.Fits v t) :
    v.identity? = none ∧ v.Faithful := by
  rcases h.fits_cases hv with ⟨rfl, -⟩ | ⟨⟨b, rfl⟩, -⟩ | ⟨n, rfl, -⟩ | ⟨⟨s, rfl⟩, -⟩
  · exact ⟨rfl, Value.faithful_null⟩
  · exact ⟨rfl, Value.faithful_bool b⟩
  · exact ⟨rfl, Value.faithful_num n⟩
  · exact ⟨rfl, Value.faithful_str s⟩

theorem inhabits {v : Value} (h : t.Scalar) (hv : Typing.bare.Fits v t) : v.Inhabits t := by
  rcases h.fits_cases hv with hnull | ⟨⟨b, rfl⟩, ht⟩ | ⟨n, rfl, ht⟩ | ⟨⟨s, rfl⟩, rfl⟩
  · exact .inr hnull
  · exact .inl (by rw [ht]; rfl)
  · exact .inl (by simp [ht, Shape.of, Value.fits])
  · exact .inl rfl

end Ty.Scalar

/-- Variables and constants of scalar types. -/
inductive Expr.Operand (known : Var → Prop) : Expr → Prop
  | var {v : Var} (hv : known v) (ht : v.ty.Scalar) : Operand known (.var v)
  | constant {t : Ty} {v : Value} (ht : t.Scalar) (hv : Typing.bare.Fits v t) :
      Operand known (.constant t v)

theorem Expr.Operand.scalar {known : Var → Prop} {e : Expr} (h : e.Operand known) :
    e.ty.Scalar := by
  cases h with
  | var _ ht => exact ht
  | constant ht _ => exact ht

theorem Expr.Operand.neat {known : Var → Prop} {e : Expr} (h : e.Operand known) : e.Neat := by
  cases h <;> simp [Expr.Neat, Expr.mentions, Mention.Suits]

/-- Arithmetic, bitwise and shift operators, orderings and equality. -/
def BinaryOp.isPrimitive : BinaryOp → Bool
  | .add | .subtract | .multiply | .divide | .modulo | .and | .or | .exclusiveOr | .leftShift
  | .rightShift | .lessThan | .lessThanOrEqual | .greaterThan | .greaterThanOrEqual | .equal
  | .notEqual => true
  | _ => false

/-- Primitive operators on scalars give scalars. -/
theorem Build.primitiveType?_scalar {op : BinaryOp} {l r t : Ty} (h : primitiveType? op l r = some t)
    (hop : op.isPrimitive = true) : t.Scalar := by
  have hlifted : ∀ k, (liftedType k l r).Scalar := by
    intro k
    unfold liftedType
    split
    · exact .maybeNum k
    · exact .num k
  cases op <;> cases hop <;> simp only [primitiveType?] at h
  all_goals
    repeat' split at h
  all_goals
    cases h <;> first | exact .bool | exact .str | exact hlifted _

/-- Conversions among numeric types, and of a type to itself, do not look at the store. -/
theorem Operator.cast_scalar {v : Value} {source target : Ty} (st st' : Store) (fuel fuel' : Nat)
    (h : source = target ∨ source.liftedNumKind?.isSome = true ∧ target.liftedNumKind?.isSome = true) :
    cast st fuel v source target = cast st' fuel' v source target := by
  unfold cast
  split
  · rfl
  · rename_i hne
    obtain ⟨hs, ht⟩ := h.resolve_left hne
    obtain ⟨k, hk⟩ := Option.isSome_iff_exists.1 hs
    obtain ⟨k', hk'⟩ := Option.isSome_iff_exists.1 ht
    simp only [hk, hk']

/-! ## Operators as the builder makes them -/

/-- The value of an arithmetic operator goes back to the type of its left operand. -/
theorem Build.primitiveType?_back {op base : BinaryOp} {l r w : Ty} (hop : op.base? = some base)
    (h : primitiveType? base l r = some w) :
    w = l ∨ w.liftedNumKind?.isSome = true ∧ l.liftedNumKind?.isSome = true := by
  have hlifted : ∀ k, (liftedType k l r).liftedNumKind?.isSome = true := by
    intro k
    unfold liftedType
    split <;> rfl
  cases op <;> cases hop <;> simp only [primitiveType?] at h
  all_goals
    repeat' split at h
  all_goals
    cases h <;> simp_all

/-- A variable or constant `x` under an operator, or two of them, as the builder accepts
them. -/
inductive Expr.Operation (catalog : Catalog) (known : Var → Prop) : Expr → Prop
  | unary {op : UnaryOp} {x e : Expr} (hop : op.isPrimitive = true ∨ op = .unaryPlus)
      (hx : x.Operand known) (he : Build.unary op x = .ok e) : Operation catalog known e
  | binary {op : BinaryOp} {x y e : Expr} (hop : (op.base?.getD op).isPrimitive = true)
      (hx : x.Operand known) (hy : y.Operand known) (he : Build.binary catalog op x y = .ok e) :
      Operation catalog known e

/-- An operator takes its operands from the stack, even if its parent asks for an address. -/
theorem Expr.Operation.emit_operand {catalog : Catalog} {known : Var → Prop} {e : Expr}
    (h : e.Operation catalog known) (f : Usage) :
    e.part.emit f = e.part.emit { f with byAddress := false } := by
  cases h with
  | @unary op x e hop hx he =>
    obtain ⟨t, -, rfl⟩ := Build.unary_ok he
    cases op with
    | not => by_cases ht : t = .bool <;> simp only [Expr.part, ht] <;> rfl
    | _ => rfl
  | @binary op x y e hop hx hy he =>
    obtain ⟨t, -, rfl⟩ := Build.binary_ok he
    cases op <;> first | rfl | cases hop

end TreeCode

import Mathlib
import TreeCode.Eval.Operator
import TreeCode.Expr.Build
import TreeCode.Proofs.Value.Typing

/-!
# Operators on operands of their types

The type of an operator is computed when its node is built, from the types of
the operands alone; its value is computed when the node is evaluated, from the
operands and their types. The two rules are separate. Here they agree: on
operands that fit their types, an operator that has a type gives a value of
that type, or raises an exception.

Main results:

* `Operator.cast_yields` — conversions give a value of the target type.
* `Walk.primitive_yields` — **binary operators give a value of the type that
  the builder computed**, and report that type with it.
-/

namespace TreeCode

/-! ## Outcomes of operators -/

/-- The operator raises an exception, or the text of one is cut off. -/
inductive OpError.Regular : OpError → Prop
  | raises (e : Exception) : Regular (.raises e)
  | outOfFuel : Regular .outOfFuel

/-- An operator gives a value with the property `P`, or fails regularly. -/
inductive Operator.Yields {α : Type} (P : α → Prop) : Except OpError α → Prop
  | ok {a : α} (h : P a) : Yields P (.ok a)
  | error {e : OpError} (h : e.Regular) : Yields P (.error e)

namespace Operator.Yields

variable {α β : Type} {P : α → Prop} {Q : β → Prop} {x : Except OpError α}

theorem bind {f : α → Except OpError β} (hx : Yields P x) (hf : ∀ a, P a → Yields Q (f a)) :
    Yields Q (x >>= f) := by
  cases hx with
  | ok h => exact hf _ h
  | error h => exact .error h

theorem map {f : α → β} (hx : Yields P x) (hf : ∀ a, P a → Q (f a)) : Yields Q (x.map f) := by
  cases hx with
  | ok h => exact .ok (hf _ h)
  | error h => exact .error h

theorem imp {P' : α → Prop} (hx : Yields P x) (h : ∀ a, P a → P' a) : Yields P' x := by
  cases hx with
  | ok ha => exact .ok (h _ ha)
  | error he => exact .error he

end Operator.Yields

/-! ## Numbers -/

namespace NumKind

theorem isInteger_promote {a b : NumKind} (ha : a.isInteger = true) (hb : b.isInteger = true) :
    (promote a b).isInteger = true := by
  cases a <;> cases b <;> simp_all [promote, isInteger, isFloat]

end NumKind

namespace ArithOp

/-- The operators that floating point numbers do not have. -/
def isBitwise : ArithOp → Bool
  | bitAnd | bitOr | bitXor => true
  | _ => false

end ArithOp

namespace Num

variable {a b : Num}

@[simp] theorem kind_convert (n : Num) (k : NumKind) : (n.convert k).kind = k := by
  cases n <;> cases k <;> rfl

@[simp] theorem kind_ofInt64 (k : NumKind) (n : Int) : (ofInt64 k n).kind = k :=
  kind_convert _ k

/-- Numbers of one kind combine within it, but for a division by zero. -/
theorem arith_kind {op : ArithOp} (h : a.kind = b.kind) (hs : op.isShift = false)
    (hb : op.isBitwise = true → a.kind.isInteger = true) :
    (∃ n, arith op a b = .ok n ∧ n.kind = a.kind) ∨ arith op a b = .error .divideByZero := by
  cases a with
  | int k x =>
    cases b with
    | int k' y =>
      obtain rfl : k' = k := by simpa [kind] using h.symm
      simp only [arith, ↓reduceDIte]
      cases k'.arith op x y with
      | some v => exact .inl ⟨_, rfl, rfl⟩
      | none => exact .inr rfl
    | f32 y => simp [kind] at h
    | f64 y => simp [kind] at h
  | f32 x =>
    cases b with
    | f32 y =>
      refine .inl ?_
      cases op <;>
        first
        | exact ⟨_, rfl, rfl⟩
        | simp [ArithOp.isShift, ArithOp.isBitwise, kind, NumKind.isInteger, NumKind.isFloat] at hs hb
    | int k' y => simp [kind] at h
    | f64 y => simp [kind] at h
  | f64 x =>
    cases b with
    | f64 y =>
      refine .inl ?_
      cases op <;>
        first
        | exact ⟨_, rfl, rfl⟩
        | simp [ArithOp.isShift, ArithOp.isBitwise, kind, NumKind.isInteger, NumKind.isFloat] at hs hb
    | int k' y => simp [kind] at h
    | f32 y => simp [kind] at h

theorem shift_kind (left : Bool) (ha : a.kind.isInteger = true) (hb : b.kind = .i32) :
    ∃ n, shift left a b = .ok n ∧ n.kind = a.kind := by
  cases a with
  | int k x =>
    cases b with
    | int k' y =>
      obtain rfl : k' = .i32 := by simpa [kind] using hb
      exact ⟨_, rfl, rfl⟩
    | f32 y => simp [kind] at hb
    | f64 y => simp [kind] at hb
  | f32 x => simp [kind, NumKind.isInteger, NumKind.isFloat] at ha
  | f64 x => simp [kind, NumKind.isInteger, NumKind.isFloat] at ha

theorem compare?_kind (op : CmpOp) (h : a.kind = b.kind) : ∃ r, compare? op a b = some r := by
  cases a <;> cases b <;> simp_all [kind, compare?]

theorem negate?_kind (h : a.kind.isSigned = true) : ∃ n, a.negate? = some n ∧ n.kind = a.kind := by
  cases a <;> simp_all [kind, negate?, NumKind.isSigned]

theorem complement?_kind (h : a.kind.isInteger = true) :
    ∃ n, a.complement? = some n ∧ n.kind = a.kind := by
  cases a <;> simp_all [kind, complement?, NumKind.isInteger, NumKind.isFloat]

theorem toIndex?_kind (h : a.kind.isInteger = true) : ∃ i, a.toIndex? = some i := by
  cases a <;> simp_all [kind, toIndex?, NumKind.isInteger, NumKind.isFloat]

end Num

/-! ## Operators -/

/-- A conversion that neither keeps the type nor goes between numbers adds null
or takes it away: checked casts are for structs and objects. -/
theorem nullable_of_isConvertible {t u : Ty} (ht : t.Plain) (hu : u.Plain) (hne : t ≠ u)
    (hk : t.liftedNumKind? = none ∨ u.liftedNumKind? = none)
    (hc : Build.isConvertible t u = true) : u = .nullable t ∨ t = .nullable u := by
  have hcast : Build.isCheckedCast t u = false := by
    cases ht <;> cases hu <;> rfl
  have hnum : (t.liftedNumKind?.isSome && u.liftedNumKind?.isSome) = false := by
    rcases hk with hk | hk <;> simp [hk]
  simp only [Build.isConvertible, hcast, hnum, Bool.or_false, Bool.or_eq_true, Bool.and_eq_true,
    beq_iff_eq, hne, false_or] at hc
  rcases hc with ⟨hn, h⟩ | ⟨hn, h⟩
  · left
    cases u <;> simp_all [Ty.isNullable, Ty.underlying]
  · right
    cases t <;> simp_all [Ty.isNullable, Ty.underlying]

namespace Operator

variable {τ : Typing} {v : Value} {t u : Ty} {k : NumKind}

/-- A number is brought to a kind. -/
theorem asKind_num (n : Num) (k : NumKind) : ∃ m, asKind (.num n) k = .ok (.num m) ∧ m.kind = k := by
  unfold asKind
  split
  · next h =>
    simp only [Value.isNull, Value.numKind?, Bool.false_or, beq_iff_eq, Option.some.injEq] at h
    exact ⟨n, rfl, h⟩
  · exact ⟨n.convert k, rfl, n.kind_convert k⟩

theorem one_eq (k : NumKind) : ∃ n, one k = .num n ∧ n.kind = k :=
  ⟨_, rfl, Num.kind_ofInt64 k 1⟩

/-- Arithmetic on numbers of one kind. -/
theorem arith_yields {op : ArithOp} {a b : Num} (ha : a.kind = k) (hb : b.kind = k)
    (hs : op.isShift = false) (hi : op.isBitwise = true → k.isInteger = true) :
    Yields (fun v => ∃ n, v = .num n ∧ n.kind = k) (arith op (.num a) (.num b)) := by
  subst ha
  simp only [arith, hs, Bool.false_eq_true, ↓reduceIte]
  rcases Num.arith_kind hb.symm hs hi with ⟨n, hn, hk⟩ | hz
  · rw [hn]
    exact .ok ⟨n, rfl, hk⟩
  · rw [hz]
    exact .error (.raises _)

/-- A shift of an integer by a 32-bit count. -/
theorem shift_yields {op : ArithOp} {a b : Num} (ha : a.kind = k) (hi : k.isInteger = true)
    (hb : b.kind = .i32) (hs : op.isShift = true) :
    Yields (fun v => ∃ n, v = .num n ∧ n.kind = k) (arith op (.num a) (.num b)) := by
  subst ha
  obtain ⟨n, hn, hk⟩ := Num.shift_kind (op == .shl) hi hb
  simp only [arith, hs, ↓reduceIte, hn]
  exact .ok ⟨n, rfl, hk⟩

theorem compare_yields {op : CmpOp} {a b : Num} (h : a.kind = b.kind) :
    Yields (fun _ => True) (compare op (.num a) (.num b)) := by
  obtain ⟨r, hr⟩ := Num.compare?_kind op h
  simp only [compare, hr]
  exact .ok trivial

theorem concat_yields {x y : Value} (hx : τ.Fits x .str) (hy : τ.Fits y .str) :
    Yields (fun v => τ.Fits v .str) (concat x y) := by
  rcases hx.str_inv with rfl | ⟨a, rfl⟩ <;> rcases hy.str_inv with rfl | ⟨b, rfl⟩ <;>
    exact .ok (.str _)

theorem step_yields {op : UnaryOp} {n : Num} :
    Yields (fun v => ∃ m, v = .num m ∧ m.kind = n.kind) (step op (.num n)) := by
  obtain ⟨m, hm, hk⟩ := one_eq n.kind
  simp only [step, Value.numKind?, hm]
  -- a step adds or subtracts
  refine arith_yields rfl hk ?_ ?_ <;> cases op <;>
    simp [UnaryOp.stepArith, ArithOp.isShift, ArithOp.isBitwise]

/-- Conversion between numeric types; null is kept or refused. -/
theorem cast_numeric {st : Store} {fuel : Nat} {l : NumKind} (hne : t ≠ u)
    (ht : t.liftedNumKind? = some k) (hu : u.liftedNumKind? = some l) (hv : τ.Fits v t) :
    Yields (fun v => τ.Fits v u) (cast st fuel v t u) := by
  simp only [cast, hne, ↓reduceIte, ht, hu]
  rcases hv.lifted_inv ht with ⟨rfl, -⟩ | ⟨n, rfl, -⟩
  · simp only [Value.isNull, ↓reduceIte]
    split
    · next hn => exact .ok (.null_of_isNullable hn)
    · exact .error (.raises _)
  · obtain ⟨m, hm, hkind⟩ := asKind_num n l
    simp only [Value.isNull, Bool.false_eq_true, ↓reduceIte, hm]
    exact .ok (.of_lifted hu hkind)

/-- Conversion to a nullable type or from one. -/
theorem cast_nullable {st : Store} {fuel : Nat} (hne : t ≠ u)
    (hk : t.liftedNumKind? = none ∨ u.liftedNumKind? = none)
    (hc : u = .nullable t ∨ t = .nullable u) (hv : τ.Fits v t) :
    Yields (fun v => τ.Fits v u) (cast st fuel v t u) := by
  have hcast : cast st fuel v t u =
      if u.isNullable && u.underlying = t then .ok v
      else if t.isNullable && t.underlying = u then
        if v.isNull then .error (.raises .noValue) else .ok v
      else if !u.accepts t && !v.isNull && !v.isA u then .error (invalidCast st fuel v u)
      else .ok v := by
    unfold cast
    rw [if_neg hne]
    rcases hk with hk | hk
    · rw [hk]
    · rw [hk]
      cases t.liftedNumKind? <;> rfl
  rw [hcast]
  rcases hc with rfl | rfl
  · simp only [Ty.isNullable, Ty.underlying, decide_true, Bool.and_self, ↓reduceIte]
    exact .ok (.present hv)
  · split
    · next h =>
      -- no type is nullable over a nullable type of itself
      simp only [Bool.and_eq_true, decide_eq_true_eq] at h
      cases u with
      | nullable w =>
        have hs := congrArg sizeOf h.2
        simp only [Ty.underlying, Ty.nullable.sizeOf_spec] at hs
        omega
      | _ => simp [Ty.isNullable] at h
    · simp only [Ty.isNullable, Ty.underlying, decide_true, Bool.and_self, ↓reduceIte]
      cases hn : v.isNull with
      | true => exact .error (.raises _)
      | false => exact .ok (hv.underlying hn)

/-- Conversions between plain types give a value of the target type. -/
theorem cast_yields {st : Store} {fuel : Nat} (ht : t.Plain) (hu : u.Plain) (hv : τ.Fits v t)
    (hc : Build.isConvertible t u = true) : Yields (fun v => τ.Fits v u) (cast st fuel v t u) := by
  by_cases hne : t = u
  · subst hne
    simp only [cast, ↓reduceIte]
    exact .ok hv
  cases hk : t.liftedNumKind? with
  | some k =>
    cases hl : u.liftedNumKind? with
    | some l => exact cast_numeric hne hk hl hv
    | none => exact cast_nullable hne (.inr hl) (nullable_of_isConvertible ht hu hne (.inr hl) hc) hv
  | none => exact cast_nullable hne (.inl hk) (nullable_of_isConvertible ht hu hne (.inl hk) hc) hv

end Operator

/-! ## Binary operators -/

namespace Walk

open Operator (Yields)

variable {τ : Typing} {op : BinaryOp} {t u w : Ty} {l r : Value} {a b k : NumKind}

/-- The result is of the type and is reported with it. -/
def IsOf (τ : Typing) (w : Ty) (p : Value × Ty) : Prop := p.2 = w ∧ τ.Fits p.1 w

theorem kind?_eq (ht : t.liftedNumKind? = some a) (hu : u.liftedNumKind? = some b)
    (hs : op.isShift = false) : op.kind? t u = some (.promote a b) := by
  simp [BinaryOp.kind?, ht, hu, hs]

theorem kind?_shift (ht : t.liftedNumKind? = some a) (hs : op.isShift = true) :
    op.kind? t u = some (.promote a a) := by
  simp [BinaryOp.kind?, ht, hs]

/-- Without a missing operand, both are brought to the kind of the operation and
compared or combined there. -/
theorem numeric_num (n m : Num) (hk : op.kind? t u = some k)
    (hw : w = if op.isRelational then .bool else Build.liftedType k t u) :
    ∃ n' m' : Num, n'.kind = k ∧ m'.kind = op.rightKind k ∧
      (∀ cmp, op.cmp? = some cmp → numeric op t (.num n) u (.num m) =
        (Operator.compare cmp (.num n') (.num m')).map fun v => (.bool v, w)) ∧
      (∀ o, op.cmp? = none → op.arith? = some o → numeric op t (.num n) u (.num m) =
        (Operator.arith o (.num n') (.num m')).map fun v => (v, w)) := by
  obtain ⟨n', hn, hnk⟩ := Operator.asKind_num n k
  obtain ⟨m', hm, hmk⟩ := Operator.asKind_num m (op.rightKind k)
  subst hw
  refine ⟨n', m', hnk, hmk, fun cmp hcmp => ?_, fun o hcmp ho => ?_⟩
  · simp only [numeric, hk, Value.isNull, Bool.or_self, Bool.and_false, Bool.false_eq_true,
      ↓reduceIte, hn, hm, bind, Except.bind, hcmp]
    cases Operator.compare cmp (.num n') (.num m') <;> rfl
  · simp only [numeric, hk, Value.isNull, Bool.or_self, Bool.and_false, Bool.false_eq_true,
      ↓reduceIte, hn, hm, bind, Except.bind, hcmp, ho]
    cases Operator.arith o (.num n') (.num m') <;> rfl

/-- A numeric operator gives what its rule on numbers of one kind gives; a
missing operand gives null, or false in a comparison. -/
theorem numeric_yields (hk : op.kind? t u = some k) (ht : t.liftedNumKind? = some a)
    (hu : u.liftedNumKind? = some b) (hl : τ.Fits l t) (hr : τ.Fits r u)
    (hw : w = if op.isRelational then .bool else Build.liftedType k t u)
    (hop : ∀ n m : Num, Yields (IsOf τ w) (numeric op t (.num n) u (.num m))) :
    Yields (IsOf τ w) (numeric op t l u r) := by
  -- a missing operand makes the operator a lifted one
  have hmissing : isLifted t u = true → (l.isNull || r.isNull) = true →
      Yields (IsOf τ w) (numeric op t l u r) := by
    intro hlift hnull
    simp only [numeric, hk, hlift, hnull, Bool.and_self, ↓reduceIte]
    refine .ok ⟨?_, ?_⟩
    · simp [hw, Build.liftedType, hlift]
    · subst hw
      cases hrel : op.isRelational with
      | true => simpa [Operator.missing, hrel] using Typing.Fits.bool false
      | false => simpa [Operator.missing, hrel, Build.liftedType, hlift] using .null rfl
  rcases hl.lifted_inv ht with ⟨rfl, hn⟩ | ⟨n, rfl, -⟩
  · exact hmissing (by simp [isLifted, hn]) rfl
  rcases hr.lifted_inv hu with ⟨rfl, hn⟩ | ⟨m, rfl, -⟩
  · exact hmissing (by simp [isLifted, hn]) rfl
  exact hop n m

/-- A number of the kind fits the lifted type of the kind. -/
theorem fits_liftedType {n : Num} (hn : n.kind = k) : τ.Fits (.num n) (Build.liftedType k t u) := by
  unfold Build.liftedType
  split
  · exact .present (.num hn)
  · exact .num hn

/-- Arithmetic. -/
theorem numeric_arith {o : ArithOp} (ht : t.liftedNumKind? = some a)
    (hu : u.liftedNumKind? = some b) (hl : τ.Fits l t) (hr : τ.Fits r u)
    (hop : op.cmp? = none ∧ op.arith? = some o ∧ op.isRelational = false ∧ op.isShift = false)
    (ho : o.isShift = false) (hi : o.isBitwise = true → a.isInteger = true ∧ b.isInteger = true) :
    Yields (IsOf τ (Build.liftedType (.promote a b) t u)) (numeric op t l u r) := by
  obtain ⟨hcmp, harith, hrel, hs⟩ := hop
  have hk := kind?_eq ht hu hs
  refine numeric_yields hk ht hu hl hr (by simp [hrel]) fun n m => ?_
  obtain ⟨n', m', hn, hm, -, heq⟩ := numeric_num n m hk rfl
  simp only [BinaryOp.rightKind, hs, Bool.false_eq_true, ↓reduceIte] at hm
  rw [heq o hcmp harith, hrel]
  refine Yields.map (Operator.arith_yields hn hm ho fun h => ?_) ?_
  · exact NumKind.isInteger_promote (hi h).1 (hi h).2
  · rintro v ⟨x, rfl, hx⟩
    exact ⟨rfl, fits_liftedType hx⟩

/-- Shifts keep the kind of the left operand. -/
theorem numeric_shift {o : ArithOp} (ht : t.liftedNumKind? = some a)
    (hu : u.liftedNumKind? = some b) (hl : τ.Fits l t) (hr : τ.Fits r u)
    (hop : op.cmp? = none ∧ op.arith? = some o ∧ op.isRelational = false ∧ op.isShift = true)
    (ho : o.isShift = true) (hi : a.isInteger = true) :
    Yields (IsOf τ (Build.liftedType (.promote a a) t u)) (numeric op t l u r) := by
  obtain ⟨hcmp, harith, hrel, hs⟩ := hop
  have hk := kind?_shift (u := u) ht hs
  refine numeric_yields hk ht hu hl hr (by simp [hrel]) fun n m => ?_
  obtain ⟨n', m', hn, hm, -, heq⟩ := numeric_num n m hk rfl
  simp only [BinaryOp.rightKind, hs, ↓reduceIte] at hm
  rw [heq o hcmp harith, hrel]
  refine Yields.map (Operator.shift_yields hn (NumKind.isInteger_promote hi hi) hm ho) ?_
  rintro v ⟨x, rfl, hx⟩
  exact ⟨rfl, fits_liftedType hx⟩

/-- Orderings. -/
theorem numeric_compare {o : CmpOp} (ht : t.liftedNumKind? = some a)
    (hu : u.liftedNumKind? = some b) (hl : τ.Fits l t) (hr : τ.Fits r u)
    (hop : op.cmp? = some o ∧ op.isRelational = true ∧ op.isShift = false) :
    Yields (IsOf τ .bool) (numeric op t l u r) := by
  obtain ⟨hcmp, hrel, hs⟩ := hop
  have hk := kind?_eq ht hu hs
  refine numeric_yields hk ht hu hl hr (by simp [hrel]) fun n m => ?_
  obtain ⟨n', m', hn, hm, heq, -⟩ := numeric_num n m hk rfl
  simp only [BinaryOp.rightKind, hs, Bool.false_eq_true, ↓reduceIte] at hm
  rw [heq o hcmp, hrel]
  exact Yields.map (Operator.compare_yields (hn.trans hm.symm)) fun v _ => ⟨rfl, .bool v⟩

/-- An operand of a numeric type can be brought to any kind. -/
theorem asKind_ok {v : Value} (hv : τ.Fits v t) (ht : t.liftedNumKind? = some a) (k : NumKind) :
    ∃ x, Operator.asKind v k = .ok x := by
  rcases hv.lifted_inv ht with ⟨rfl, -⟩ | ⟨n, rfl, -⟩
  · exact ⟨.null, rfl⟩
  · obtain ⟨m, hm, -⟩ := Operator.asKind_num n k
    exact ⟨.num m, hm⟩

/-- Equality compares any two values; numbers are brought to one kind first. -/
theorem equality_yields (hs : op.isShift = false) (hl : τ.Fits l t) (hr : τ.Fits r u) :
    Yields (IsOf τ .bool) (equality op t l u r) := by
  unfold equality
  cases hk : op.kind? t u with
  | none => exact .ok ⟨rfl, .bool _⟩
  | some k =>
    -- both types are numeric, else there would be no kind
    simp only [BinaryOp.kind?, hs, Bool.false_eq_true, ↓reduceIte, Option.bind_eq_some_iff,
      Option.map_eq_some_iff] at hk
    obtain ⟨a, ht, b, hu, -⟩ := hk
    obtain ⟨x, hx⟩ := asKind_ok hl ht k
    obtain ⟨y, hy⟩ := asKind_ok hr hu k
    simp only [hx, hy, bind, Except.bind]
    exact .ok ⟨rfl, .bool _⟩

/-- Bitwise operators on truth values. -/
theorem arith_bool {o : ArithOp} (ho : o.isBitwise = true) (hl : τ.Fits l .bool)
    (hr : τ.Fits r .bool) : Yields (fun v => τ.Fits v .bool) (Operator.arith o l r) := by
  obtain ⟨x, rfl⟩ := hl.bool_inv
  obtain ⟨y, rfl⟩ := hr.bool_inv
  cases o <;> simp only [ArithOp.isBitwise, Bool.false_eq_true] at ho <;> exact .ok (.bool _)

/-- Both operands of the operator are evaluated before it is applied; the other
operators decide first whether to look at the right one. -/
def isStrict : BinaryOp → Bool
  | .andAlso | .orElse | .coalesce => false
  | _ => true

/-- **Binary operators give a value of the type that the builder computed.** -/
theorem primitive_yields (hw : Build.primitiveType? op t u = some w) (hs : isStrict op = true)
    (hl : τ.Fits l t) (hr : τ.Fits r u) : Yields (IsOf τ w) (primitive op t l u r) := by
  cases op with
  | add =>
    simp only [Build.primitiveType?] at hw
    simp only [primitive]
    split at hw
    · next h =>
      obtain rfl : Ty.str = w := by simpa using hw
      simp only [Bool.and_eq_true, beq_iff_eq] at h
      obtain ⟨rfl, rfl⟩ := h
      rw [if_pos (by simp)]
      refine Yields.bind (Operator.concat_yields hl hr) ?_
      exact fun v hv => .ok ⟨rfl, hv⟩
    · next h =>
      cases ht : t.liftedNumKind? <;> cases hu : u.liftedNumKind? <;> simp [ht, hu] at hw
      subst hw
      rw [if_neg h]
      exact numeric_arith ht hu hl hr ⟨rfl, rfl, rfl, rfl⟩ rfl (by simp [ArithOp.isBitwise])
  | and | or | exclusiveOr =>
    simp only [Build.primitiveType?] at hw
    simp only [primitive]
    split at hw
    · next h =>
      obtain rfl : Ty.bool = w := by simpa using hw
      simp only [Bool.and_eq_true, beq_iff_eq] at h
      obtain ⟨rfl, rfl⟩ := h
      rw [if_pos (by simp)]
      refine Yields.bind (arith_bool ?_ hl hr) ?_
      · rfl
      · exact fun v hv => .ok ⟨rfl, hv⟩
    -- Operands that are not both truth values are integers.
    · next h =>
      cases ht : t.liftedNumKind? <;> cases hu : u.liftedNumKind? <;> simp [ht, hu] at hw
      obtain ⟨hi, rfl⟩ := hw
      rw [if_neg h]
      exact numeric_arith ht hu hl hr ⟨rfl, rfl, rfl, rfl⟩ rfl fun _ => hi
  | subtract | multiply | divide | modulo =>
    simp only [Build.primitiveType?] at hw
    cases ht : t.liftedNumKind? <;> cases hu : u.liftedNumKind? <;> simp [ht, hu] at hw
    subst hw
    exact numeric_arith ht hu hl hr ⟨rfl, rfl, rfl, rfl⟩ rfl (by simp [ArithOp.isBitwise])
  | leftShift | rightShift =>
    simp only [Build.primitiveType?] at hw
    cases ht : t.liftedNumKind? <;> cases hu : u.liftedNumKind? <;> simp [ht, hu] at hw
    obtain ⟨⟨-, hi⟩, rfl⟩ := hw
    exact numeric_shift ht hu hl hr ⟨rfl, rfl, rfl, rfl⟩ rfl hi
  | equal | notEqual =>
    simp only [Build.primitiveType?, Option.ite_none_right_eq_some, Option.some.injEq] at hw
    obtain ⟨-, rfl⟩ := hw
    exact equality_yields rfl hl hr
  | lessThan | lessThanOrEqual | greaterThan | greaterThanOrEqual =>
    simp only [Build.primitiveType?, Option.ite_none_right_eq_some, Option.some.injEq,
      Bool.and_eq_true, Option.isSome_iff_exists] at hw
    obtain ⟨⟨⟨a, ht⟩, b, hu⟩, rfl⟩ := hw
    exact numeric_compare ht hu hl hr ⟨rfl, rfl, rfl⟩
  -- What is left is not strict, or not an operator on two values.
  | andAlso | orElse | coalesce => simp [isStrict] at hs
  | assign | addAssign | subtractAssign | multiplyAssign | divideAssign | moduloAssign =>
    simp [Build.primitiveType?] at hw

end Walk

end TreeCode

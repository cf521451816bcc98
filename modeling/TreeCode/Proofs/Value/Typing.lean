import Mathlib
import TreeCode.World

/-!
# Values of a type

When a value is one of a static type. Arrays are shared, so what their
elements are is not seen in the value: a `Typing` says at which element type
each array is viewed, and likewise what each variable holds. A store follows a
typing when its contents are what the typing says.

Types here are the plain ones, without structs, functions, exceptions and
objects.

Main results:

* `Typing.Fits.of_accepts` — what can be stored without a conversion fits.
* `Typing.Follows.newArray`, `newCell` — a new array or variable is added to a
  typing; what fitted before still fits.
* `Typing.Follows.setElement`, `setCell` — a store of a fitting value.
-/

namespace TreeCode

/-! ## Plain types -/

/-- Void, truth values, numbers, strings, and nullable types and arrays of
these. -/
inductive Ty.Plain : Ty → Prop
  | void : Plain .void
  | bool : Plain .bool
  | num (k : NumKind) : Plain (.num k)
  | str : Plain .str
  | nullable {t : Ty} (h : Plain t) : Plain (.nullable t)
  | array {t : Ty} (h : Plain t) : Plain (.array t)

namespace Ty

theorem Plain.underlying {t : Ty} (h : t.Plain) : t.underlying.Plain := by
  cases h with
  | nullable h => exact h
  | void => exact .void
  | bool => exact .bool
  | num k => exact .num k
  | str => exact .str
  | array h => exact .array h

theorem Plain.element {t : Ty} (h : (Ty.array t).Plain) : t.Plain := by
  cases h with
  | array h => exact h

/-- No operator method is looked up on a plain type. -/
@[simp] theorem Plain.struct? {t : Ty} (h : t.Plain) : t.struct? = none := by
  cases h <;> rfl

/-- A plain type accepts itself, and a nullable one the type under it. -/
theorem Plain.accepts_iff {t u : Ty} (h : t.Plain) :
    t.accepts u = true ↔ t = u ∨ t = .nullable u := by
  unfold accepts
  rw [Bool.or_eq_true, beq_iff_eq]
  cases h with
  | nullable h => simp
  | void | bool | num _ | str | array _ => simp

/-- A numeric type is a number or a nullable number. -/
theorem eq_of_liftedNumKind? {t : Ty} {k : NumKind} (h : t.liftedNumKind? = some k) :
    t = .num k ∨ t = .nullable (.num k) := by
  have hu : t.underlying = .num k := by
    unfold liftedNumKind? at h
    cases hu : t.underlying <;> simp_all [numKind?]
  cases t <;> simp_all [underlying]

end Ty

/-! ## Values of a type -/

/-- The static types at which shared contents are viewed. -/
structure Typing where
  /-- The element type of an array. -/
  arrays : Nat → Option Ty
  /-- The type of the variable that a cell is. -/
  cells : Nat → Option Ty

namespace Typing

/-- Nothing shared is viewed. -/
def bare : Typing := ⟨fun _ => none, fun _ => none⟩

/-- Typings grow as arrays and variables are made. -/
instance : Preorder Typing where
  le τ τ' := (∀ r t, τ.arrays r = some t → τ'.arrays r = some t) ∧
    ∀ r t, τ.cells r = some t → τ'.cells r = some t
  le_refl _ := ⟨fun _ _ h => h, fun _ _ h => h⟩
  le_trans _ _ _ h h' := ⟨fun r t hr => h'.1 r t (h.1 r t hr), fun r t hr => h'.2 r t (h.2 r t hr)⟩

/-- The value is one of the type. Void has every value: nothing looks at it. -/
inductive Fits (τ : Typing) : Value → Ty → Prop
  | void (v : Value) : Fits τ v .void
  | bool (b : Bool) : Fits τ (.bool b) .bool
  | num {n : Num} {k : NumKind} (h : n.kind = k) : Fits τ (.num n) (.num k)
  | str (s : String) : Fits τ (.str s) .str
  | null {t : Ty} (h : t.hasNull = true) : Fits τ .null t
  | present {v : Value} {t : Ty} (h : Fits τ v t) : Fits τ v (.nullable t)
  | array {r : Nat} {t : Ty} (h : τ.arrays r = some t) : Fits τ (.array r) (.array t)

variable {τ τ' : Typing} {v : Value} {t u : Ty} {k : NumKind}

namespace Fits

theorem mono (h : τ.Fits v t) (hτ : τ ≤ τ') : τ'.Fits v t := by
  induction h with
  | void v => exact .void v
  | bool b => exact .bool b
  | num h => exact .num h
  | str s => exact .str s
  | null h => exact .null h
  | present _ ih => exact .present ih
  | array h => exact .array (hτ.1 _ _ h)

/-- A value other than null is one of the type under a nullable one. -/
theorem underlying (h : τ.Fits v t) (hv : v.isNull = false) : τ.Fits v t.underlying := by
  cases h with
  | present h => exact h
  | null h => simp [Value.isNull] at hv
  | void v => exact .void v
  | bool b => exact .bool b
  | num h => exact .num h
  | str s => exact .str s
  | array h => exact .array h

theorem of_underlying (h : τ.Fits v t.underlying) : τ.Fits v t := by
  cases t with
  | nullable t => exact .present h
  | _ => exact h

theorem bool_inv (h : τ.Fits v .bool) : ∃ b, v = .bool b := by
  cases h with
  | bool b => exact ⟨b, rfl⟩
  | null h => simp [Ty.hasNull, Ty.isNullable, Ty.isReference] at h

theorem num_inv (h : τ.Fits v (.num k)) : ∃ n, v = .num n ∧ n.kind = k := by
  cases h with
  | num h => exact ⟨_, rfl, h⟩
  | null h => simp [Ty.hasNull, Ty.isNullable, Ty.isReference] at h

theorem str_inv (h : τ.Fits v .str) : v = .null ∨ ∃ s, v = .str s := by
  cases h with
  | str s => exact .inr ⟨s, rfl⟩
  | null h => exact .inl rfl

theorem array_inv (h : τ.Fits v (.array t)) : v = .null ∨ ∃ r, v = .array r ∧ τ.arrays r = some t := by
  cases h with
  | array h => exact .inr ⟨_, rfl, h⟩
  | null h => exact .inl rfl

/-- An operand of a numeric operator is a number of the kind of its type, or a
missing one. -/
theorem lifted_inv (h : τ.Fits v t) (hk : t.liftedNumKind? = some k) :
    (v = .null ∧ t.isNullable = true) ∨ ∃ n, v = .num n ∧ n.kind = k := by
  rcases Ty.eq_of_liftedNumKind? hk with rfl | rfl
  · exact .inr h.num_inv
  · cases hv : v.isNull with
    | true =>
      cases v <;> simp [Value.isNull] at hv
      exact .inl ⟨rfl, rfl⟩
    | false => exact .inr (h.underlying hv).num_inv

/-- A number fits every numeric type of its kind. -/
theorem of_lifted {n : Num} (hk : t.liftedNumKind? = some k) (hn : n.kind = k) :
    τ.Fits (.num n) t := by
  rcases Ty.eq_of_liftedNumKind? hk with rfl | rfl
  · exact .num hn
  · exact .present (.num hn)

theorem null_of_isNullable (h : t.isNullable = true) : τ.Fits .null t :=
  .null (by simp [Ty.hasNull, h])

/-- What can be stored without a conversion fits. -/
theorem of_accepts (ht : t.Plain) (h : t.accepts u = true) (hv : τ.Fits v u) : τ.Fits v t := by
  rcases ht.accepts_iff.1 h with rfl | rfl
  · exact hv
  · exact .present hv

/-- A value other than null is one of each type that can be stored where it
is. -/
theorem of_accepted (ht : t.Plain) (h : t.accepts u = true) (hv : τ.Fits v t)
    (hn : v.isNull = false) : τ.Fits v u := by
  rcases ht.accepts_iff.1 h with rfl | rfl
  · exact hv
  · exact hv.underlying hn

/-- The default of a plain type is one of its values. -/
theorem default (ht : t.Plain) : τ.Fits t.default t := by
  cases ht with
  | void => exact .void _
  | bool => exact .bool false
  | num k => exact .num (by cases k <;> rfl)
  | str | nullable _ | array _ => exact .null rfl

end Fits

/-! ## Stores -/

/-- The contents of a store are what a typing says. -/
structure Follows (τ : Typing) (st : Store) : Prop where
  arrays : ∀ {r t}, τ.arrays r = some t →
    ∃ items, st.arrays[r]? = some items ∧ ∀ v ∈ items, τ.Fits v t
  cells : ∀ {r t}, τ.cells r = some t → ∃ v, st.cells[r]? = some v ∧ τ.Fits v t

/-- The typing with an array of a given element type added. -/
def withArray (τ : Typing) (r : Nat) (t : Ty) : Typing :=
  { τ with arrays := Function.update τ.arrays r (some t) }

/-- The typing with a variable of a given type added. -/
def withCell (τ : Typing) (r : Nat) (t : Ty) : Typing :=
  { τ with cells := Function.update τ.cells r (some t) }

@[simp] theorem withArray_self {r : Nat} : (τ.withArray r t).arrays r = some t := by
  simp [withArray]

@[simp] theorem withCell_self {r : Nat} : (τ.withCell r t).cells r = some t := by
  simp [withCell]

namespace Follows

variable {st : Store} {r i : Nat}

theorem arrayAt (h : τ.Follows st) (hr : τ.arrays r = some t) :
    ∀ v ∈ st.arrayAt r, τ.Fits v t := by
  obtain ⟨items, hi, hf⟩ := h.arrays hr
  simpa [Store.arrayAt, hi] using hf

theorem cellAt (h : τ.Follows st) (hr : τ.cells r = some t) : τ.Fits (st.cellAt r) t := by
  obtain ⟨v, hv, hf⟩ := h.cells hr
  simpa [Store.cellAt, hv] using hf

theorem le_withArray (h : τ.Follows st) (t : Ty) : τ ≤ τ.withArray st.arrays.size t := by
  refine ⟨fun r u hr => ?_, fun _ _ hr => hr⟩
  obtain ⟨items, hi, -⟩ := h.arrays hr
  obtain ⟨hlt, -⟩ := Array.getElem?_eq_some_iff.1 hi
  simpa [withArray, Function.update_of_ne (Nat.ne_of_lt hlt)] using hr

theorem le_withCell (h : τ.Follows st) (t : Ty) : τ ≤ τ.withCell st.cells.size t := by
  refine ⟨fun _ _ hr => hr, fun r u hr => ?_⟩
  obtain ⟨v, hv, -⟩ := h.cells hr
  obtain ⟨hlt, -⟩ := Array.getElem?_eq_some_iff.1 hv
  simpa [withCell, Function.update_of_ne (Nat.ne_of_lt hlt)] using hr

/-- A new array of fitting elements. -/
theorem newArray (h : τ.Follows st) {items : Array Value} (hi : ∀ v ∈ items, τ.Fits v t) :
    (τ.withArray st.arrays.size t).Follows (st.newArray items).2 := by
  have hle := h.le_withArray t
  refine ⟨fun {r u} hr => ?_, fun {r u} hr => ?_⟩
  · by_cases hrs : r = st.arrays.size
    · subst hrs
      obtain rfl : t = u := by simpa using hr
      exact ⟨items, by simp [Store.newArray], fun v hv => (hi v hv).mono hle⟩
    · have hr' : τ.arrays r = some u := by
        simpa [withArray, Function.update_of_ne hrs] using hr
      obtain ⟨items', hi', hf⟩ := h.arrays hr'
      obtain ⟨hlt, -⟩ := Array.getElem?_eq_some_iff.1 hi'
      refine ⟨items', ?_, fun v hv => (hf v hv).mono hle⟩
      simpa [Store.newArray, Array.getElem?_push, hrs] using hi'
  · obtain ⟨v, hv, hf⟩ := h.cells hr
    exact ⟨v, hv, hf.mono hle⟩

/-- A new variable with a fitting value. -/
theorem newCell (h : τ.Follows st) (hv : τ.Fits v t) :
    (τ.withCell st.cells.size t).Follows (st.newCell v).2 := by
  have hle := h.le_withCell t
  refine ⟨fun {r u} hr => ?_, fun {r u} hr => ?_⟩
  · obtain ⟨items, hi, hf⟩ := h.arrays hr
    exact ⟨items, hi, fun x hx => (hf x hx).mono hle⟩
  · by_cases hrs : r = st.cells.size
    · subst hrs
      obtain rfl : t = u := by simpa using hr
      exact ⟨v, by simp [Store.newCell], hv.mono hle⟩
    · have hr' : τ.cells r = some u := by
        simpa [withCell, Function.update_of_ne hrs] using hr
      obtain ⟨x, hx, hf⟩ := h.cells hr'
      refine ⟨x, ?_, hf.mono hle⟩
      simpa [Store.newCell, Array.getElem?_push, hrs] using hx

theorem newException (h : τ.Follows st) (e : Exception) : τ.Follows (st.newException e).2 :=
  ⟨h.arrays, h.cells⟩

/-- A variable is set to a value of its type. -/
theorem setCell (h : τ.Follows st) (hr : τ.cells r = some t) (hv : τ.Fits v t) :
    τ.Follows (st.setCell r v) := by
  refine ⟨h.arrays, fun {r' u} hr' => ?_⟩
  obtain ⟨x, hx, hf⟩ := h.cells hr'
  obtain ⟨hlt, -⟩ := Array.getElem?_eq_some_iff.1 hx
  by_cases hrr : r = r'
  · subst hrr
    obtain rfl : t = u := by simpa [hr] using hr'
    exact ⟨v, by simp [Store.setCell, hlt], hv⟩
  · exact ⟨x, by simpa [Store.setCell, Array.getElem?_setIfInBounds, hrr] using hx, hf⟩

/-- An element is set to a value of the element type. -/
theorem setElement (h : τ.Follows st) (hr : τ.arrays r = some t) (hv : τ.Fits v t) :
    τ.Follows (st.setElement r i v) := by
  refine ⟨fun {r' u} hr' => ?_, h.cells⟩
  obtain ⟨items, hi, hf⟩ := h.arrays hr'
  by_cases hrr : r = r'
  · subst hrr
    obtain rfl : t = u := by simpa [hr] using hr'
    refine ⟨items.setIfInBounds i v, by simp [Store.setElement, Array.getElem?_modify, hi], ?_⟩
    intro x hx
    rcases Array.mem_or_eq_of_mem_setIfInBounds hx with hx | rfl
    · exact hf x hx
    · exact hv
  · exact ⟨items, by simpa [Store.setElement, Array.getElem?_modify, hrr] using hi, hf⟩

end Follows

end Typing

end TreeCode

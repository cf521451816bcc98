import Mathlib
import TreeCode.Num.Basic

/-!
# Equality of numbers

Two integers are equal when they are one word of one kind. Two floating point numbers are
equal when they stand for one number, the zeros of both signs being one; a NaN stands for
none. So equality compares what each of the two stands for, where that is anything, and it
is symmetric and transitive. Only a NaN differs from itself.

Main definitions:

* `Num.isNaN` — the number is a NaN.
* `Num.Comparand`, `Num.comparand?` — what a number is compared by.

Main results:

* `Num.equals_iff` — numbers are equal when they are compared by the same.
* `Num.equals_comm`, `Num.equals_trans`, `Num.equals_self`.
-/

namespace TreeCode

open Float.Model (UnpackedFloat)

/-! ## Floating point numbers -/

namespace Binary

/-- What an unpacked number is compared by: nothing for NaN, and one and the same for the
zeros of both signs. -/
def comparand? : UnpackedFloat → Option UnpackedFloat
  | .notANumber => none
  | .zero _ => some (.zero .positive)
  | x => some x

theorem isSome_comparand? (x : UnpackedFloat) : (comparand? x).isSome = !x.isNaN := by
  cases x <;> rfl

/-- Unpacked numbers are equal when they are compared by the same. -/
theorem beq_iff {x y : UnpackedFloat} :
    x.beq y = true ↔ (comparand? x).isSome = true ∧ comparand? x = comparand? y := by
  rw [UnpackedFloat.beq, beq_iff_eq]
  -- The order looks at signs first, so signs are told apart wherever both numbers have one.
  cases x with
  | notANumber => simp [UnpackedFloat.compare, comparand?]
  | infinity s =>
    cases y with
    | infinity s' => cases s <;> cases s' <;> simp [UnpackedFloat.compare, comparand?] <;> rfl
    | _ => cases s <;> simp [UnpackedFloat.compare, comparand?]
  | zero s =>
    cases y with
    | infinity s' | finite s' => cases s' <;> simp [UnpackedFloat.compare, comparand?]
    | _ => simp [UnpackedFloat.compare, comparand?]
  | finite s m e hm =>
    cases y with
    | infinity s' => cases s' <;> simp [UnpackedFloat.compare, comparand?]
    | finite s' m' e' hm' =>
      -- Numbers of one sign come in the order of exponents, then of mantissas.
      cases s <;> cases s' <;> simp [UnpackedFloat.compare, comparand?, and_comm]
    | _ => cases s <;> simp [UnpackedFloat.compare, comparand?]

end Binary

/-! ## Numbers -/

namespace Num

/-- The number is a NaN. -/
def isNaN : Num → Bool
  | int .. => false
  | f32 x => x.isNaN
  | f64 x => x.isNaN

/-- What numbers are compared by: their kind, with the word or the number that they
stand for. -/
inductive Comparand where
  | word (k : IntKind) (v : BitVec k.bits)
  | float (k : NumKind) (x : UnpackedFloat)

/-- What a number is compared by; nothing for NaN. -/
def comparand? : Num → Option Comparand
  | int k v => some (.word k v)
  | f32 x => (Binary.comparand? x.toFloat.toModel.unpack).map (.float .f32)
  | f64 x => (Binary.comparand? x.toFloat.toModel.unpack).map (.float .f64)

theorem isSome_comparand? (m : Num) : m.comparand?.isSome = !m.isNaN := by
  cases m with
  | int k v => rfl
  | f32 x | f64 x => rw [comparand?, Option.isSome_map, Binary.isSome_comparand?]; rfl

/-- Floating point numbers are compared by the same when they are of one kind and their
unpacked forms are. -/
theorem map_float_iff {k k' : NumKind} {x y : Option UnpackedFloat} :
    (x.map (Comparand.float k)).isSome = true ∧
        x.map (Comparand.float k) = y.map (Comparand.float k') ↔
      k = k' ∧ x.isSome = true ∧ x = y := by
  cases x <;> cases y <;> simp

variable {m n k : Num}

/-- Numbers are equal when they are compared by the same. -/
theorem equals_iff :
    m.equals n = true ↔ m.comparand?.isSome = true ∧ m.comparand? = n.comparand? := by
  cases m with
  | int k v =>
    cases n with
    | int k' v' =>
      simp only [equals, comparand?, Bool.and_eq_true, beq_iff_eq, Option.isSome_some, true_and]
      constructor
      · rintro ⟨rfl, h⟩
        rw [BitVec.eq_of_toNat_eq h]
      · rintro ⟨⟩
        exact ⟨rfl, rfl⟩
    | f32 y | f64 y => simp [equals, comparand?]
  | f32 x =>
    cases n with
    | int k v => simp [equals, comparand?]
    | f32 y => exact Binary.beq_iff.trans (map_float_iff.trans (and_iff_right rfl)).symm
    | f64 y => rw [comparand?, comparand?, map_float_iff]; simp [equals]
  | f64 x =>
    cases n with
    | int k v => simp [equals, comparand?]
    | f32 y => rw [comparand?, comparand?, map_float_iff]; simp [equals]
    | f64 y => exact Binary.beq_iff.trans (map_float_iff.trans (and_iff_right rfl)).symm

theorem equals_comm (m n : Num) : m.equals n = n.equals m := by
  rw [Bool.eq_iff_iff, equals_iff, equals_iff]
  constructor <;> exact fun ⟨hsome, h⟩ => ⟨h ▸ hsome, h.symm⟩

theorem equals_trans (h : m.equals n = true) (h' : n.equals k = true) : m.equals k = true := by
  rw [equals_iff] at h h' ⊢
  exact ⟨h.1, h.2.trans h'.2⟩

/-- Only a NaN differs from itself. -/
theorem equals_self (m : Num) : m.equals m = !m.isNaN := by
  rw [← isSome_comparand?, Bool.eq_iff_iff, equals_iff]
  exact and_iff_left rfl

end Num

end TreeCode

import Mathlib
import TreeCode.Eval.Node
import TreeCode.Lower.Node

/-!
# Numbers in the kind of an operation

An operator converts its operands to the kind that it runs in. A number that has
the kind already is left as it is, and no conversion of a number fails. An operator
whose result is a Boolean compares, and one whose result is a number computes. The
evaluator and the lowering agree on which operands an operator takes as numbers, and
on which operators take the values of both operands.
-/

namespace TreeCode

theorem BinaryOp.isRelational_of_cmp? {op : BinaryOp} {cmp : CmpOp} (h : op.cmp? = some cmp) :
    op.isRelational = true := by
  cases op <;> first | rfl | cases h

theorem BinaryOp.isRelational_of_arith? {op : BinaryOp} {o : ArithOp} (h : op.arith? = some o) :
    op.isRelational = false := by
  cases op <;> first | rfl | cases h

@[simp] theorem IntKind.ofInt_toInt (k : IntKind) (v : BitVec k.bits) : k.ofInt (k.toInt v) = v := by
  unfold IntKind.ofInt IntKind.toInt
  split
  · exact BitVec.ofInt_toInt
  · simp

/-- An operator that takes operands of two types as numbers: it is not one of equality, and
it neither concatenates them nor is one of logic on them. -/
structure BinaryOp.TakesNumbers (op : BinaryOp) (l r : Ty) : Prop where
  equality : ¬(op = .equal ∨ op = .notEqual)
  concat : ¬(op = .add ∧ l = .str ∧ r = .str)
  logic : ¬((op = .and ∨ op = .or ∨ op = .exclusiveOr) ∧ l = .bool ∧ r = .bool)

namespace BinaryOp.TakesNumbers

variable {op : BinaryOp} {l r : Ty}

theorem of_num {k : NumKind} (hl : l = .num k) (h : ¬(op = .equal ∨ op = .notEqual)) :
    op.TakesNumbers l r := ⟨h, by simp [hl], by simp [hl]⟩

theorem primitive (h : op.TakesNumbers l r) (v v' : Value) :
    Walk.primitive op l v r v' = Walk.numeric op l v r v' := by
  obtain ⟨heq, hconcat, hlogic⟩ := h
  cases op with
  | add => exact if_neg (by simpa using hconcat)
  | and | or | exclusiveOr => exact if_neg (by simpa using hlogic)
  | equal | notEqual => simp at heq
  | _ => rfl

theorem lower {p : Part} (h : op.TakesNumbers l p.ty) (f : Usage) :
    Lower.primitive op l p f = Lower.numeric op l p f := by
  obtain ⟨heq, hconcat, hlogic⟩ := h
  cases op with
  | add => exact if_neg (by simpa using hconcat)
  | and | or | exclusiveOr => exact if_neg (by simpa using hlogic)
  | equal | notEqual => simp at heq
  | _ => rfl

end BinaryOp.TakesNumbers

/-! ## Strict operators -/

/-- Operators that evaluate both operands and assign nothing. -/
def BinaryOp.isStrict (op : BinaryOp) : Bool :=
  op != .assign && op != .andAlso && op != .orElse && op != .coalesce && op.base?.isNone

section Strict

variable {op : BinaryOp} {ty : Ty} {l r : Expr} {method : Option Method}

/-- Both operands are evaluated, and their values combined. -/
theorem Walk.node_strict (c : Walk) (h : op.isStrict = true) :
    c.node (.binary ty op l r method) = (do
      let x ← c.valueOf l
      let y ← c.valueOf r
      let p ← c.combine op l.ty x r.ty y method
      return p.1 : EvalM Value) := by
  cases op <;> first | rfl | cases h

/-- The same, with what follows the left operand taken together. -/
theorem Walk.node_right (c : Walk) (h : op.isStrict = true) :
    c.node (.binary ty op l r method) = (do
      let x ← c.valueOf l
      let p ← (do
        let y ← c.valueOf r
        EvalM.ofRun (c.combine op l.ty x r.ty y method))
      return p.1 : EvalM Value) := by
  rw [c.node_strict h]
  simp only [bind_assoc]
  rfl

/-- The code of both operands comes one after the other, and then that of the operator. -/
theorem Expr.emit_strict (h : op.isStrict = true) (f : Usage) :
    (Expr.binary ty op l r method).part.emit f = (do
      l.part.emit f.operand
      let _ ← Lower.withRight op l.part.ty r.part method f.operand
      Lower.dropWhen f.discarded) := by
  cases op <;> first | rfl | cases h

end Strict

/-! ## Conversion to a kind -/

theorem Num.convert_self (n : Num) : n.convert n.kind = n := by
  cases n with
  | int k v => simp [Num.convert, Num.kind]
  | f32 x => rfl
  | f64 x => rfl

theorem Operator.asKind_num_eq (n : Num) (k : NumKind) :
    Operator.asKind (.num n) k = .ok (.num (n.convert k)) := by
  simp only [Operator.asKind, Value.isNull, Value.numKind?, Bool.false_or]
  split
  · rename_i h
    have hk : n.kind = k := by simpa using h
    rw [← hk, Num.convert_self]
  · rfl

end TreeCode

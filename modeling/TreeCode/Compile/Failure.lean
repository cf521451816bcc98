import TreeCode.Expr.Basic

/-!
# Why a lambda is not compiled

A tree may use something the compiler does not lower (`Unsupported`), in which
case it can still be evaluated; or it may be malformed (`CompileError`).
-/

namespace TreeCode

/-- What the compiler does not lower. -/
inductive Unsupported where
  | filteredCatch
  | unbalancedJump (label : String)
  | jumpOutOfFinally (label : String)
  | assignTarget (kind : String)
  | switchWithoutDefault
  | nestedLambdaWithSuppliedClosure
  | missingSuppliedConstant
  | liftedOperatorMethod (method : String)
  | rethrowOutsideCatch
  deriving DecidableEq, Repr

/-- Name of the class of a refusal. -/
def Unsupported.tag : Unsupported → String
  | filteredCatch => "FilteredCatch"
  | unbalancedJump _ => "UnbalancedJump"
  | jumpOutOfFinally _ => "JumpOutOfFinally"
  | assignTarget _ => "CompoundAssignTarget"
  | switchWithoutDefault => "SwitchWithoutDefault"
  | nestedLambdaWithSuppliedClosure => "NestedLambdaWithSuppliedClosure"
  | missingSuppliedConstant => "MissingSuppliedConstant"
  | liftedOperatorMethod _ => "LiftedOperatorMethod"
  | rethrowOutsideCatch => "RethrowOutsideCatch"

/-- Wording of a refusal. -/
def Unsupported.message : Unsupported → String
  | filteredCatch => "catch blocks with filters"
  | unbalancedJump l => "jump to '" ++ l ++ "' with an unbalanced operand stack"
  | jumpOutOfFinally l => "jump to '" ++ l ++ "' out of a finally or fault block"
  | assignTarget k => "assignment to a " ++ k ++ " target"
  | switchWithoutDefault => "valued switch without a default case"
  | nestedLambdaWithSuppliedClosure => "nested lambda with a supplied closure"
  | missingSuppliedConstant => "constant not present in the supplied closure"
  | liftedOperatorMethod m => "lifted call to operator method " ++ m
  | rethrowOutsideCatch => "rethrow outside of a catch block"

/-- What is wrong with a tree. -/
inductive CompileError where
  | undefinedVariable (name : String)
  | labelNotRegistered (label : String)
  | labelNotPlaced (label : String)
  | missingOperator (op : BinaryOp) (t : Ty)
  | missingUnaryOperator (op : UnaryOp) (t : Ty)
  | labelsWithSuppliedClosure
  | unresolvedNestedUnit (name : String)
  | unboxedCapture (name : String)
  | tooManyLocals (limit : Nat)
  | tooManyConstants (limit : Nat)
  deriving DecidableEq

/-- Name of the class of an error. -/
def CompileError.tag : CompileError → String
  | undefinedVariable _ => "UndefinedVariable"
  | labelNotRegistered _ => "LabelNotRegistered"
  | labelNotPlaced _ => "LabelNotPlaced"
  | missingOperator .. => "MissingOperator"
  | missingUnaryOperator .. => "MissingUnaryOperator"
  | labelsWithSuppliedClosure => "LabelsWithSuppliedClosure"
  | unresolvedNestedUnit _ => "UnresolvedNestedUnit"
  | unboxedCapture _ => "UnboxedCapture"
  | tooManyLocals _ => "TooManyLocals"
  | tooManyConstants _ => "TooManyConstants"

/-- Wording of an error. -/
def CompileError.message : CompileError → String
  | undefinedVariable n => "variable '" ++ n ++ "' is not defined in any enclosing scope"
  | labelNotRegistered l => "label '" ++ l ++ "' was not registered by the collector"
  | labelNotPlaced l => "label '" ++ l ++ "' is jumped to but never placed"
  | missingOperator op t => "no operator " ++ op.tag ++ " for operands of type " ++ t.shown
  | missingUnaryOperator op t => "no operator " ++ op.tag ++ " for an operand of type " ++ t.shown
  | labelsWithSuppliedClosure => "labels cannot be used with a supplied closure"
  | unresolvedNestedUnit n => "nested lambda '" ++ n ++ "' was not compiled before its use"
  | unboxedCapture n =>
    "captured variable '" ++ n ++ "' has no shared cell in the enclosing unit"
  | tooManyLocals limit => s!"too many local variables (limit: {limit})"
  | tooManyConstants limit => s!"too many constants (limit: {limit})"

/-- Why a pass of the compiler stops. -/
inductive Failure where
  | unsupported (u : Unsupported)
  | error (e : CompileError)
  deriving DecidableEq

end TreeCode

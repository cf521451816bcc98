import TreeCode.Call
import TreeCode.Compile.Unit

/-!
# Programs

A lambda is made callable in one of two ways: it is compiled, or it is
evaluated directly. `makeCallable` tries the first and falls back to the
second for what the compiler does not lower.

## Main definitions

* `Options` — which of the two ways are open.
* `makeCallable` — the function that a lambda is.
* `evaluated`, `evaluatedText` — a lambda that is evaluated.
-/

namespace TreeCode

/-- Which ways of running a lambda are open. -/
structure Options where
  /-- Compile the lambda first. -/
  compileFirst : Bool := true
  /-- Evaluate what is not compiled. -/
  fallback : Bool := true
  /-- Greatest nesting of expressions under evaluation. -/
  maxDepth : Nat := 1000
  deriving DecidableEq, Repr

/-- A lambda that is evaluated on every call. -/
def evaluated (l : Lambda) (maxDepth : Nat) : Callable := .interpreted l [] maxDepth none

/-- An evaluated lambda as listings show it. -/
def evaluatedText (l : Lambda) (captured : Nat) : String :=
  Text.record "InterpretedLambda"
    [("name", Text.someOrNone (l.name.map Text.quoted)), ("captured", toString captured)]

/-- The function that a lambda is; none when no way is open to run it. -/
def makeCallable (catalog : Catalog) (o : Options) (l : Lambda) (w : World) :
    Except CompileError (Option Callable × World) := do
  let fallback : Option Callable := if o.fallback then some (evaluated l o.maxDepth) else none
  if !o.compileFirst then return (fallback, w)
  match ← compileLambda catalog l w with
  | (.compiled c, w) => return (some c.callable, w)
  | (.unsupported _, w) => return (fallback, w)

/-- Wording of a failure of `makeCallable`. -/
def failureText (e : CompileError) : String := "compilation failed: " ++ e.message

end TreeCode

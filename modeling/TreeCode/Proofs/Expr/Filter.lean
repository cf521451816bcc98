import Mathlib
import TreeCode.Expr.Basic

/-!
# Trees without filters

A filter decides whether a handler takes an exception, and a filter that fails declines
it. So a filter is the one place where a failure other than an exception is dropped, and
a tree without filters is one that drops none.

Main definitions:

* `Expr.children` — the trees right below a node.
* `Expr.Unfiltered` — no handler has a filter, in the tree or in a lambda inside it.
-/

namespace TreeCode

/-- The block of a cleanup. -/
def Cleanup.block? : Cleanup → Option Expr
  | none => .none
  | «finally» e => some e
  | fault e => some e

namespace Expr

/-- The trees right below a node; the body of a lambda and filters are among them. -/
def children : Expr → List Expr
  | constant .. | var _ | default _ | rethrow _ => []
  | unary _ _ e _ => [e]
  | binary _ _ l r _ => [l, r]
  | call _ o _ args => o.toList ++ args
  | new _ _ args => args
  | member o _ => [o]
  | index _ o _ args => o :: args
  | newArray _ items => items
  | newArrayBounds _ n => [n]
  | memberInit _ args bs => args ++ bs.map (·.value)
  | conditional _ t a b => [t, a, b]
  | block _ _ es => es
  | loop b _ _ => [b]
  | protect b hs c =>
    b :: ((hs.flatMap fun h => h.filter.toList ++ [h.body]) ++ c.block?.toList)
  | label _ e => e.toList
  | goto _ _ _ e => e.toList
  | switch _ v cs e _ => v :: ((cs.flatMap fun c => c.tests ++ [c.body]) ++ e.toList)
  | lambda l => [l.body]
  | invoke _ t args => t :: args

/-- The handlers of a node. -/
def handlers : Expr → List CatchClause
  | protect _ hs _ => hs
  | _ => []

/-- No handler has a filter, in the tree or in a lambda inside it. -/
inductive Unfiltered : Expr → Prop where
  | mk {e : Expr} (filter : ∀ h ∈ e.handlers, h.filter = none)
      (child : ∀ d ∈ e.children, Unfiltered d) : Unfiltered e

theorem Unfiltered.filter {e : Expr} (h : e.Unfiltered) {k : CatchClause}
    (hk : k ∈ e.handlers) : k.filter = none := by
  cases h with
  | mk hfilter _ => exact hfilter k hk

theorem Unfiltered.child {e d : Expr} (h : e.Unfiltered) (hd : d ∈ e.children) :
    d.Unfiltered := by
  cases h with
  | mk _ hchild => exact hchild d hd

end Expr

end TreeCode

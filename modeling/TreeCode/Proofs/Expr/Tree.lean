import Mathlib
import TreeCode.Expr.Basic

/-!
# Measures of trees

Facts about a tree that the theorems on running it speak of: how deep its
evaluation nests, which labels it places, and whether it stays within the
trees that are compiled to a single unit.

Main definitions:

* `Expr.height` — the depth that evaluation reaches.
* `Expr.placed` — the labels placed in the tree, by id.
* `Expr.Plain` — no lambda inside, blocks of distinct variables, labels and
  constants as a list of names allows.
-/

namespace TreeCode

mutual

/-- The number of nodes on the longest path down from the root. -/
def Expr.height : Expr → Nat
  | .constant .. | .var _ | .default _ | .rethrow _ | .lambda _ => 1
  | .unary _ _ e _ => e.height + 1
  | .binary _ _ l r _ => max l.height r.height + 1
  | .call _ o _ args => max (Expr.heightOption o) (Expr.heightAll args) + 1
  | .new _ _ args => Expr.heightAll args + 1
  | .member o _ => o.height + 1
  | .index _ o _ args => max o.height (Expr.heightAll args) + 1
  | .newArray _ items => Expr.heightAll items + 1
  | .newArrayBounds _ n => n.height + 1
  | .memberInit _ args bs => max (Expr.heightAll args) (Expr.heightBindings bs) + 1
  | .conditional _ t a b => max t.height (max a.height b.height) + 1
  | .block _ _ es => Expr.heightAll es + 1
  | .loop b _ _ => b.height + 1
  | .protect b hs c => max b.height (max (Expr.heightHandlers hs) (Expr.heightCleanup c)) + 1
  | .label _ e => Expr.heightOption e + 1
  | .goto _ _ _ e => Expr.heightOption e + 1
  | .switch _ v cs e _ => max v.height (max (Expr.heightCases cs) (Expr.heightOption e)) + 1
  | .invoke _ t args => max t.height (Expr.heightAll args) + 1

def Expr.heightOption : Option Expr → Nat
  | none => 0
  | some e => e.height

def Expr.heightAll : List Expr → Nat
  | [] => 0
  | e :: es => max e.height (Expr.heightAll es)

def Expr.heightBindings : List Binding → Nat
  | [] => 0
  | .mk _ e :: bs => max e.height (Expr.heightBindings bs)

def Expr.heightHandlers : List CatchClause → Nat
  | [] => 0
  | .mk _ _ f body :: hs =>
    max (max (Expr.heightOption f) body.height) (Expr.heightHandlers hs)

def Expr.heightCleanup : Cleanup → Nat
  | .none => 0
  | .finally e => e.height
  | .fault e => e.height

def Expr.heightCases : List SwitchCase → Nat
  | [] => 0
  | .mk tests body :: cs => max (max (Expr.heightAll tests) body.height) (Expr.heightCases cs)

end

theorem Expr.height_pos (e : Expr) : 1 ≤ e.height := by cases e <;> exact Nat.le_add_left 1 _

theorem Expr.height_le_heightAll {es : List Expr} {e : Expr} (h : e ∈ es) :
    e.height ≤ Expr.heightAll es := by
  induction h with
  | head => exact Nat.le_max_left _ _
  | tail _ _ ih => exact Nat.le_trans ih (Nat.le_max_right _ _)

/-- The ids of optional labels. -/
def labelIds (l : Option Label) : List Nat := l.toList.map (·.id)

mutual

/-- The labels that a tree places, in the order in which they are met. The
labels of a nested lambda are its own. -/
def Expr.placed : Expr → List Nat
  | .constant .. | .var _ | .default _ | .rethrow _ | .lambda _ => []
  | .unary _ _ e _ => e.placed
  | .binary _ _ l r _ => l.placed ++ r.placed
  | .call _ o _ args => Expr.placedOption o ++ Expr.placedAll args
  | .new _ _ args => Expr.placedAll args
  | .member o _ => o.placed
  | .index _ o _ args => o.placed ++ Expr.placedAll args
  | .newArray _ items => Expr.placedAll items
  | .newArrayBounds _ n => n.placed
  | .memberInit _ args bs => Expr.placedAll args ++ Expr.placedBindings bs
  | .conditional _ t a b => t.placed ++ (a.placed ++ b.placed)
  | .block _ _ es => Expr.placedAll es
  | .loop b breakLabel continueLabel =>
    labelIds continueLabel ++ (b.placed ++ labelIds breakLabel)
  | .protect b hs c => b.placed ++ (Expr.placedHandlers hs ++ Expr.placedCleanup c)
  | .label l e => Expr.placedOption e ++ [l.id]
  | .goto _ _ _ e => Expr.placedOption e
  | .switch _ v cs e _ =>
    v.placed ++ (Expr.placedTests cs ++ (Expr.placedOption e ++ Expr.placedBodies cs))
  | .invoke _ t args => t.placed ++ Expr.placedAll args

def Expr.placedOption : Option Expr → List Nat
  | none => []
  | some e => e.placed

def Expr.placedAll : List Expr → List Nat
  | [] => []
  | e :: es => e.placed ++ Expr.placedAll es

def Expr.placedBindings : List Binding → List Nat
  | [] => []
  | .mk _ e :: bs => e.placed ++ Expr.placedBindings bs

def Expr.placedHandlers : List CatchClause → List Nat
  | [] => []
  | .mk _ _ f body :: hs => body.placed ++ (Expr.placedOption f ++ Expr.placedHandlers hs)

def Expr.placedCleanup : Cleanup → List Nat
  | .none => []
  | .finally e => e.placed
  | .fault e => e.placed

def Expr.placedTests : List SwitchCase → List Nat
  | [] => []
  | .mk tests _ :: cs => Expr.placedAll tests ++ Expr.placedTests cs

def Expr.placedBodies : List SwitchCase → List Nat
  | [] => []
  | .mk _ body :: cs => body.placed ++ Expr.placedBodies cs

end

/-- What the names and constants of a tree may be: the label that an id stands
for, and the constants that may be mentioned. -/
structure Names where
  label : Nat → Label
  constant : Value → Prop

namespace Names

/-- A label is the one that its id stands for. -/
def Knows (N : Names) (l : Label) : Prop := N.label l.id = l

def KnowsOption (N : Names) (l : Option Label) : Prop := ∀ x, l = some x → N.Knows x

end Names

mutual

/-- Trees that become a single unit: no lambda inside, catches without filters,
blocks of distinct variables, and labels and constants that `N` allows. -/
def Expr.Plain (N : Names) : Expr → Prop
  | .constant _ v => N.constant v
  | .var _ | .default _ | .rethrow _ => True
  | .lambda _ => False
  | .unary _ _ e _ => e.Plain N
  | .binary _ _ l r _ => l.Plain N ∧ r.Plain N
  | .call _ o _ args => Expr.PlainOption N o ∧ Expr.PlainAll N args
  | .new _ _ args => Expr.PlainAll N args
  | .member o _ => o.Plain N
  | .index _ o _ args => o.Plain N ∧ Expr.PlainAll N args
  | .newArray _ items => Expr.PlainAll N items
  | .newArrayBounds _ n => n.Plain N
  | .memberInit _ args bs => Expr.PlainAll N args ∧ Expr.PlainBindings N bs
  | .conditional _ t a b => t.Plain N ∧ a.Plain N ∧ b.Plain N
  | .block _ vars es => (vars.map (·.id)).Nodup ∧ Expr.PlainAll N es
  | .loop b breakLabel continueLabel =>
    N.KnowsOption breakLabel ∧ N.KnowsOption continueLabel ∧ b.Plain N
  | .protect b hs c => b.Plain N ∧ Expr.PlainHandlers N hs ∧ Expr.PlainCleanup N c
  | .label l e => N.Knows l ∧ Expr.PlainOption N e
  | .goto _ _ l e => N.Knows l ∧ Expr.PlainOption N e
  | .switch _ v cs e _ => v.Plain N ∧ Expr.PlainCases N cs ∧ Expr.PlainOption N e
  | .invoke _ t args => t.Plain N ∧ Expr.PlainAll N args

def Expr.PlainOption (N : Names) : Option Expr → Prop
  | none => True
  | some e => e.Plain N

def Expr.PlainAll (N : Names) : List Expr → Prop
  | [] => True
  | e :: es => e.Plain N ∧ Expr.PlainAll N es

def Expr.PlainBindings (N : Names) : List Binding → Prop
  | [] => True
  | .mk _ e :: bs => e.Plain N ∧ Expr.PlainBindings N bs

def Expr.PlainHandlers (N : Names) : List CatchClause → Prop
  | [] => True
  | .mk _ _ f body :: hs => f = none ∧ body.Plain N ∧ Expr.PlainHandlers N hs

def Expr.PlainCleanup (N : Names) : Cleanup → Prop
  | .none => True
  | .finally e => e.Plain N
  | .fault e => e.Plain N

def Expr.PlainCases (N : Names) : List SwitchCase → Prop
  | [] => True
  | .mk tests body :: cs => Expr.PlainAll N tests ∧ body.Plain N ∧ Expr.PlainCases N cs

end

theorem Expr.constantBool?_eq {e : Expr} {x : Bool} (h : e.constantBool? = some x) :
    ∃ ty, e = .constant ty (.bool x) := by
  unfold Expr.constantBool? at h
  split at h
  · rename_i ty y
    exact ⟨ty, by simpa using h⟩
  · cases h

end TreeCode

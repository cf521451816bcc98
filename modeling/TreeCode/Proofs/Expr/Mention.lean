import Mathlib
import TreeCode.Expr.Basic

/-!
# What a tree mentions

The walk that plans a unit and the one that lowers it meet the same nodes. What
they ask of their surroundings is asked at a mention: of a constant, a
variable, a label or a lambda, each in the scope of the blocks around it.

Main definitions:

* `Mention`, `Expr.mentions` — the mentions in a tree, in the order in which they
  are met; those in the body of a nested lambda are the lambda's own.
* `Expr.lambdas` — every lambda in a tree, those nested in others included.
-/

namespace TreeCode

/-- A mention, with the ids of the variables in scope where they matter. -/
inductive Mention where
  | constant (v : Value)
  | var (scope : List Nat) (v : Var)
  /-- A jump to a label. -/
  | label (l : Label)
  /-- The place of a label. -/
  | place (l : Label)
  | lambda (scope : List Nat) (l : Lambda)
  /-- A block that declares variables. -/
  | block (vars : List Var)

/-- The ids of variables. -/
def Var.ids (vars : List Var) : List Nat := vars.map (·.id)

mutual

/-- The mentions in a tree that stands in a scope. -/
def Expr.mentions (D : List Nat) : Expr → List Mention
  | .constant _ v => [.constant v]
  | .var v => [.var D v]
  | .default _ | .rethrow _ => []
  | .unary _ _ e _ => e.mentions D
  | .binary _ _ l r _ => l.mentions D ++ r.mentions D
  | .call _ o _ args => Expr.mentionsOption D o ++ Expr.mentionsAll D args
  | .new _ _ args => Expr.mentionsAll D args
  | .member o _ => o.mentions D
  | .index _ o _ args => o.mentions D ++ Expr.mentionsAll D args
  | .newArray _ items => Expr.mentionsAll D items
  | .newArrayBounds _ n => n.mentions D
  | .memberInit _ args bs => Expr.mentionsAll D args ++ Expr.mentionsBindings D bs
  | .conditional _ t a b => t.mentions D ++ (a.mentions D ++ b.mentions D)
  | .block _ vars es => .block vars :: Expr.mentionsAll (Var.ids vars ++ D) es
  | .loop b breakLabel continueLabel =>
    breakLabel.toList.map .place ++ (continueLabel.toList.map .place ++ b.mentions D)
  | .protect b hs c =>
    b.mentions D ++ (Expr.mentionsHandlers D hs ++ Expr.mentionsCleanup D c)
  | .label l e => .place l :: Expr.mentionsOption D e
  | .goto _ _ l e => .label l :: Expr.mentionsOption D e
  | .switch _ v cs e _ =>
    v.mentions D ++ (Expr.mentionsCases D cs ++ Expr.mentionsOption D e)
  | .lambda l => [.lambda D l]
  | .invoke _ t args => t.mentions D ++ Expr.mentionsAll D args

def Expr.mentionsOption (D : List Nat) : Option Expr → List Mention
  | none => []
  | some e => e.mentions D

def Expr.mentionsAll (D : List Nat) : List Expr → List Mention
  | [] => []
  | e :: es => e.mentions D ++ Expr.mentionsAll D es

def Expr.mentionsBindings (D : List Nat) : List Binding → List Mention
  | [] => []
  | .mk _ e :: bs => e.mentions D ++ Expr.mentionsBindings D bs

/-- Filters are not lowered. -/
def Expr.mentionsHandlers (D : List Nat) : List CatchClause → List Mention
  | [] => []
  | .mk _ v _ body :: hs =>
    body.mentions (Var.ids v.toList ++ D) ++ Expr.mentionsHandlers D hs

def Expr.mentionsCleanup (D : List Nat) : Cleanup → List Mention
  | .none => []
  | .finally e => e.mentions D
  | .fault e => e.mentions D

def Expr.mentionsCases (D : List Nat) : List SwitchCase → List Mention
  | [] => []
  | .mk tests body :: cs =>
    Expr.mentionsAll D tests ++ (body.mentions D ++ Expr.mentionsCases D cs)

end

/-- The mentions in the body of a lambda. -/
def Lambda.mentions (l : Lambda) : List Mention := l.body.mentions (Var.ids l.params)

mutual

/-- Every lambda in a tree, at any depth. -/
def Expr.lambdas : Expr → List Lambda
  | .constant .. | .var _ | .default _ | .rethrow _ => []
  | .unary _ _ e _ => e.lambdas
  | .binary _ _ l r _ => l.lambdas ++ r.lambdas
  | .call _ o _ args => Expr.lambdasOption o ++ Expr.lambdasAll args
  | .new _ _ args => Expr.lambdasAll args
  | .member o _ => o.lambdas
  | .index _ o _ args => o.lambdas ++ Expr.lambdasAll args
  | .newArray _ items => Expr.lambdasAll items
  | .newArrayBounds _ n => n.lambdas
  | .memberInit _ args bs => Expr.lambdasAll args ++ Expr.lambdasBindings bs
  | .conditional _ t a b => t.lambdas ++ (a.lambdas ++ b.lambdas)
  | .block _ _ es => Expr.lambdasAll es
  | .loop b _ _ => b.lambdas
  | .protect b hs c => b.lambdas ++ (Expr.lambdasHandlers hs ++ Expr.lambdasCleanup c)
  | .label _ e => Expr.lambdasOption e
  | .goto _ _ _ e => Expr.lambdasOption e
  | .switch _ v cs e _ =>
    v.lambdas ++ (Expr.lambdasCases cs ++ Expr.lambdasOption e)
  | .lambda l => l.withNested
  | .invoke _ t args => t.lambdas ++ Expr.lambdasAll args

def Expr.lambdasOption : Option Expr → List Lambda
  | none => []
  | some e => e.lambdas

def Expr.lambdasAll : List Expr → List Lambda
  | [] => []
  | e :: es => e.lambdas ++ Expr.lambdasAll es

def Expr.lambdasBindings : List Binding → List Lambda
  | [] => []
  | .mk _ e :: bs => e.lambdas ++ Expr.lambdasBindings bs

def Expr.lambdasHandlers : List CatchClause → List Lambda
  | [] => []
  | .mk _ _ _ body :: hs => body.lambdas ++ Expr.lambdasHandlers hs

def Expr.lambdasCleanup : Cleanup → List Lambda
  | .none => []
  | .finally e => e.lambdas
  | .fault e => e.lambdas

def Expr.lambdasCases : List SwitchCase → List Lambda
  | [] => []
  | .mk tests body :: cs =>
    Expr.lambdasAll tests ++ (body.lambdas ++ Expr.lambdasCases cs)

/-- A lambda and every lambda nested in it. -/
def Lambda.withNested : Lambda → List Lambda
  | .mk id name params ret body => .mk id name params ret body :: body.lambdas

end

theorem Expr.mem_mentionsAll {D : List Nat} {m : Mention} {es : List Expr} :
    m ∈ Expr.mentionsAll D es ↔ ∃ e ∈ es, m ∈ e.mentions D := by
  induction es with
  | nil => simp [Expr.mentionsAll]
  | cons e es ih => simp [Expr.mentionsAll, ih]

end TreeCode

import Mathlib
import TreeCode.Lower.Unit

/-!
# Reading lowering steps

Lowering is a state monad with failure. A successful step determines the draft
it leaves, so the lemmas here read a step backwards: from `x env s = .ok (a, s')`
they give what `a` and `s'` are. A composite step is taken apart with `bind_ok`.

Main results:

* `bind_ok`, `pure_ok`, `get_ok`, `read_ok`, `modify_ok` — the monad itself.
* `emit_ok`, `newSlot_ok`, `addLabel_ok`, … — the primitive steps.
-/

namespace TreeCode

/-- The draft after an instruction was appended. -/
def Draft.emitted (s : Draft) (i : Instr) : Draft :=
  let effect := Lower.effectOf s.methods i
  { s with
    instrs := s.instrs.push i
    depth := s.depth - effect.1 + effect.2
    maxDepth := max s.maxDepth (s.depth - effect.1 + effect.2)
    reachable := s.reachable && !i.transfersControl }

namespace Lower

variable {α β : Type} {env : LowerEnv} {s s' : Draft}

/-! ## The monad -/

theorem bind_ok {x : LowerM α} {f : α → LowerM β} {b : β} :
    (x >>= f) env s = .ok (b, s') ↔
      ∃ a s₁, x env s = .ok (a, s₁) ∧ f a env s₁ = .ok (b, s') := by
  show (x env s >>= fun p => f p.1 env p.2) = _ ↔ _
  cases x env s with
  | error e => simp [bind, Except.bind]
  | ok p =>
    obtain ⟨a, s₁⟩ := p
    constructor
    · intro h
      exact ⟨a, s₁, rfl, h⟩
    · rintro ⟨_, _, h₁, h₂⟩
      cases h₁
      exact h₂

theorem bind_error {x : LowerM α} {f : α → LowerM β} {e : Failure} :
    (x >>= f) env s = .error e ↔
      x env s = .error e ∨ ∃ a s₁, x env s = .ok (a, s₁) ∧ f a env s₁ = .error e := by
  show (x env s >>= fun p => f p.1 env p.2) = _ ↔ _
  cases x env s with
  | error e => simp [bind, Except.bind]
  | ok p =>
    obtain ⟨a, s₁⟩ := p
    constructor
    · intro h
      exact .inr ⟨a, s₁, rfl, h⟩
    · rintro (h | ⟨_, _, h₁, h₂⟩)
      · cases h
      · cases h₁
        exact h₂

theorem pure_ok {a b : α} : (pure a : LowerM α) env s = .ok (b, s') ↔ a = b ∧ s = s' := by
  show Except.ok (a, s) = .ok (b, s') ↔ _
  simp

theorem get_ok {a : Draft} : (get : LowerM Draft) env s = .ok (a, s') ↔ s = a ∧ s = s' := by
  show Except.ok (s, s) = .ok (a, s') ↔ _
  simp

theorem read_ok {a : LowerEnv} :
    (read : LowerM LowerEnv) env s = .ok (a, s') ↔ env = a ∧ s = s' := by
  show Except.ok (env, s) = .ok (a, s') ↔ _
  simp

theorem modify_ok {g : Draft → Draft} {u : Unit} :
    (modify g : LowerM Unit) env s = .ok (u, s') ↔ g s = s' := by
  show Except.ok ((), g s) = .ok (u, s') ↔ _
  simp

theorem unsupported_ok {u : Unsupported} {a : α} :
    (unsupported u : LowerM α) env s = .ok (a, s') ↔ False := by
  show (Except.error (Failure.unsupported u) : Except Failure (α × Draft)) = .ok (a, s') ↔ _
  simp

theorem error_ok {e : CompileError} {a : α} :
    (error e : LowerM α) env s = .ok (a, s') ↔ False := by
  show (Except.error (Failure.error e) : Except Failure (α × Draft)) = .ok (a, s') ↔ _
  simp

theorem ite_ok {c : Prop} [Decidable c] {x y : LowerM α} {a : α} :
    (if c then x else y) env s = .ok (a, s') ↔
      (c ∧ x env s = .ok (a, s')) ∨ (¬c ∧ y env s = .ok (a, s')) := by
  by_cases h : c <;> simp [h]

theorem map_ok {x : LowerM α} {f : α → β} {b : β} :
    (f <$> x) env s = .ok (b, s') ↔ ∃ a, x env s = .ok (a, s') ∧ f a = b := by
  show ((fun p : α × Draft => (f p.1, p.2)) <$> x env s) = _ ↔ _
  cases x env s with
  | error e => simp [Functor.map, Except.map]
  | ok p =>
    obtain ⟨a, s₁⟩ := p
    constructor
    · intro h
      cases h
      exact ⟨a, rfl, rfl⟩
    · rintro ⟨_, h₁, rfl⟩
      cases h₁
      rfl

/-! Steps that cannot fail are carried out at the front of a sequence. -/

theorem get_bind {f : Draft → LowerM β} : (get >>= f) env s = f s env s := rfl

theorem read_bind {f : LowerEnv → LowerM β} : (read >>= f) env s = f env env s := rfl

theorem modify_bind {g : Draft → Draft} {f : Unit → LowerM β} :
    (modify g >>= f) env s = f () env (g s) := rfl

theorem emit_bind {i : Instr} {f : Unit → LowerM β} :
    (emit i >>= f) env s = f () env (s.emitted i) := rfl

theorem position_bind {f : Nat → LowerM β} :
    (position >>= f) env s = f s.instrs.size env s := rfl

theorem labelAt_bind {r : Nat} {f : DraftLabel → LowerM β} :
    (labelAt r >>= f) env s = f (s.labels[r]?.getD {}) env s := rfl

theorem cleanupHere_bind {f : Option Nat → LowerM β} :
    (cleanupHere >>= f) env s = f s.cleanups.head? env s := rfl

theorem addLabel_bind {l : DraftLabel} {f : Nat → LowerM β} :
    (addLabel l >>= f) env s = f s.labels.size env { s with labels := s.labels.push l } := rfl

theorem freshLabel_bind {f : Nat → LowerM β} :
    (freshLabel >>= f) env s = f s.labels.size env { s with labels := s.labels.push {} } := rfl

theorem unsupported_bind {e : Unsupported} {f : α → LowerM β} :
    (unsupported e >>= f) env s = .error (.unsupported e) := rfl

theorem error_bind {e : CompileError} {f : α → LowerM β} :
    (error e >>= f) env s = .error (.error e) := rfl

theorem position_ok {p : Nat} : position env s = .ok (p, s') ↔ s.instrs.size = p ∧ s = s' := by
  simp only [position, bind_ok, get_ok, pure_ok]
  grind

/-! ## Primitive steps -/

theorem emit_ok {i : Instr} {u : Unit} : emit i env s = .ok (u, s') ↔ s.emitted i = s' :=
  modify_ok

theorem newSlot_ok {k : Nat} :
    newSlot env s = .ok (k, s') ↔
      s.numLocals < localLimit ∧ s.numLocals = k ∧ { s with numLocals := s.numLocals + 1 } = s' := by
  simp only [newSlot, bind_ok, get_ok, ite_ok, error_ok, modify_ok, pure_ok]
  grind

theorem addLabel_ok {l : DraftLabel} {r : LabelRef} :
    addLabel l env s = .ok (r, s') ↔
      s.labels.size = r ∧ { s with labels := s.labels.push l } = s' := by
  simp only [addLabel, bind_ok, get_ok, modify_ok, pure_ok]
  grind

theorem labelAt_ok {r : LabelRef} {l : DraftLabel} :
    labelAt r env s = .ok (l, s') ↔ s.labels[r]?.getD {} = l ∧ s = s' := by
  simp only [labelAt, bind_ok, get_ok, pure_ok]
  grind

theorem cleanupHere_ok {c : Option Nat} :
    cleanupHere env s = .ok (c, s') ↔ s.cleanups.head? = c ∧ s = s' := by
  simp only [cleanupHere, bind_ok, get_ok, pure_ok]
  grind

end Lower

/-- The code of a lambda is what its unit leaves. -/
theorem Lambda.toCode_ok {l : Lambda} {env : LowerEnv} {code : Code} :
    l.toCode env = .ok code ↔
      ∃ t, Lower.unit l env {} = .ok ((), t) ∧ t.toCode l env.hasRecord = code := by
  unfold Lambda.toCode
  cases Lower.unit l env {} with
  | error f => simp [bind, Except.bind]
  | ok r =>
    obtain ⟨⟨⟩, t⟩ := r
    simp [bind, Except.bind, pure, Except.pure]

theorem Lambda.toCode_error {l : Lambda} {env : LowerEnv} {f : Failure} :
    l.toCode env = .error f ↔ Lower.unit l env {} = .error f := by
  unfold Lambda.toCode
  cases Lower.unit l env {} with
  | error f => simp [bind, Except.bind]
  | ok r => simp [bind, Except.bind, pure, Except.pure]

end TreeCode

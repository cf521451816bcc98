import TreeCode.Proofs.Likeness.Machine

/-!
# What evaluation leaves behind

Evaluation opens scopes, notes the exceptions being handled and counts its depth, and
undoes all of that however it ends. So a call leaves nothing behind but what it did to
the store and the functions and units it made: a later call cannot tell whether it came
to pass, nor what lines it wrote.

Its own depth an evaluation puts back whatever the functions do that it calls. The depths
that are counted for other functions are put back by the calls of those, so that all of
them are kept is an induction on calls. It is the likeness of a run with itself.

Main definitions:

* `EvalState.Restored` — the state of evaluation is what it was, the world aside.
* `Likeness.relogged` — two runs whose logs begin differently.

Main results:

* `eval_restored` — an expression leaves the state of evaluation as it was.
* `eval_level` — an expression leaves the depths of all functions as they were.
* `later_calls_unaffected` — **a call affects a later one through shared values only**.
-/

namespace TreeCode

/-! ## The state of evaluation -/

/-- The state of an evaluation is what it was: the bindings and open scopes, the exceptions
being handled, and the depth. -/
structure EvalState.Restored (gauge : Gauge) (σ σ' : EvalState) : Prop extends σ.Kept σ' where
  depth : σ'.world.depthAt gauge = σ.world.depthAt gauge

/-- An expression leaves the state of evaluation as it was, however it ends. -/
theorem eval_restored (host : Host) (caller : Caller) (gauge : Gauge) (n : Nat) (e : Expr)
    (σ : EvalState) : σ.Restored gauge (EvalM.endOf (eval host caller gauge n e σ)) :=
  ⟨eval_tidy host caller gauge n e σ, eval_depthAt host caller gauge n e σ⟩

/-! ## Logs that begin differently -/

/-- Two runs whose logs begin with different lines. -/
def Likeness.relogged (before before' : Array String) (depth : Depths) : Likeness :=
  ⟨False, False, id, before, before', depth⟩

namespace Likeness

variable {before before' : Array String} {d : Depths}

theorem relogged_stops (f : Fault) : ¬(relogged before before' d).stops f := by
  intro hf
  rcases stops_cases hf with ⟨-, hb⟩ | ⟨-, hl⟩
  · exact hb
  · exact hl

theorem worlds_relogged {w w' : World} : (relogged before before' d).Worlds w w' ↔
    w.depth = d ∧ ∃ added, w.log = before ++ added ∧ w' = { w with log := before' ++ added } :=
  worlds_iff id

theorem callers_relogged (host : Host) (n : Nat) (depth : Depths) :
    (relogged before before' depth).Callers (call host n) (call host n) :=
  callers (L := relogged before before' depth) (fun h => h.elim) (.inl rfl) depth

end Likeness

/-- An expression leaves the depths of all functions as they were, however it ends. -/
theorem eval_level (host : Host) (gauge : Gauge) (n k : Nat) (e : Expr) (σ : EvalState) :
    (EvalM.endOf (eval host (call host k) gauge n e σ)).world.depth = σ.world.depth := by
  let L := Likeness.relogged #[] #[] σ.world.depth
  have hself : L.Worlds σ.world σ.world :=
    Likeness.worlds_relogged.2 ⟨rfl, σ.world.log, Array.empty_append.symm,
      by rw [Array.empty_append]⟩
  have hrun : L.Evals (eval host (call host k) gauge n e) (eval host (call host k) gauge n e) :=
    Likeness.Callers.eval (L := L) (fun h => h.elim)
      (fun d => Likeness.callers_relogged host k d) ⟨.inl rfl, rfl⟩ (.inl rfl) (fun h => h.elim) _
  have hends := hrun σ σ ⟨hself, rfl, rfl⟩
  generalize eval host (call host k) gauge n e σ = r at hends ⊢
  cases hends with
  | ok h => exact h.world.depth
  | error h => exact h.world.depth
  | @stopped x _ _ hx =>
    cases x with
    | fault f => exact absurd hx (Likeness.relogged_stops f)
    | jump l v => exact hx.elim

/-! ## Calls -/

/-- The world in which a run ends. -/
def RunM.endOf {α : Type} : EStateM.Result Fault World α → World
  | .ok _ w => w
  | .error _ w => w

/-- Lines that were written before do not matter to a call, nor does it change them, and it
leaves the depths as they were. -/
theorem callLambda_relogged (host : Host) (n : Nat) (l : Lambda) (captured : List (Nat × Nat))
    (gauge : Gauge) (args : List Value) (w : World) (log : Array String) :
    Mirrored (fun _ => False)
      (fun w₁ w₂ => w₁.depth = w.depth ∧
        ∃ added, w₁.log = w.log ++ added ∧ w₂ = { w₁ with log := log ++ added })
      (callLambda host (call host n) n l captured gauge args w)
      (callLambda host (call host n) n l captured gauge args { w with log }) := by
  let L := Likeness.relogged w.log log w.depth
  have hstart : L.Worlds w { w with log } :=
    Likeness.worlds_relogged.2 ⟨rfl, #[], Array.append_empty.symm, by rw [Array.append_empty]⟩
  have hrun : Mirrors L.stops L.Worlds (callLambda host (call host n) n l captured gauge args)
      (callLambda host (call host n) n l captured gauge args) :=
    Likeness.Callers.lambda (L := L) (fun h => h.elim)
      (fun d => Likeness.callers_relogged host n d) ⟨.inl rfl, rfl⟩ (.inl rfl) (fun h => h.elim)
      captured args
  exact (hrun _ _ hstart).imp Likeness.relogged_stops fun _ _ => Likeness.worlds_relogged.1

/-- A call of a lambda leaves the depths as they were, however it ends. -/
theorem callLambda_level (host : Host) (n : Nat) (l : Lambda) (captured : List (Nat × Nat))
    (gauge : Gauge) (args : List Value) (w : World) :
    (RunM.endOf (callLambda host (call host n) n l captured gauge args w)).depth = w.depth := by
  have hrun := callLambda_relogged host n l captured gauge args w w.log
  generalize callLambda host (call host n) n l captured gauge args w = r at hrun ⊢
  cases hrun with
  | ok h => exact h.1
  | error h => exact h.1
  | stopped hf => exact hf.elim

/-- **A call affects a later one through shared values only.** An expression leaves the
bindings and open scopes, the exceptions being handled and its depth as they were, however
it ends and whatever the functions do that it calls; with calls as they are made in a run
it leaves the depths of all functions as they were. So after any call of a lambda, a later
call of it does what it would do at the depths before the first and with any lines in the
log, the store, functions and units being those that the first left: it comes to the same
value or failure, changes them in the same way, and writes the same lines. -/
theorem later_calls_unaffected (host : Host) :
    (∀ (caller : Caller) (gauge : Gauge) (n : Nat) (e : Expr) (σ : EvalState),
      σ.Restored gauge (EvalM.endOf (eval host caller gauge n e σ))) ∧
    (∀ (gauge : Gauge) (n k : Nat) (e : Expr) (σ : EvalState),
      (EvalM.endOf (eval host (call host k) gauge n e σ)).world.depth = σ.world.depth) ∧
    ∀ (l : Lambda) (captured : List (Nat × Nat)) (gauge : Gauge) (n k : Nat)
      (args args' : List Value) (w : World) (log : Array String),
      let run (n : Nat) := callLambda host (call host n) n l captured gauge
      let w₁ := RunM.endOf (run n args w)
      Mirrored (fun _ => False)
        (fun w₂ w₃ => ∃ added, w₂.log = w₁.log ++ added ∧ w₃ = { w₂ with log := log ++ added })
        (run k args' w₁) (run k args' { w₁ with log, depth := w.depth }) := by
  refine ⟨eval_restored host, eval_level host, ?_⟩
  intro l captured gauge n k args args' w log run w₁
  have hdepth : w₁.depth = w.depth := callLambda_level host n l captured gauge args w
  rw [← hdepth]
  exact (callLambda_relogged host k l captured gauge args' w₁ log).imp (fun _ => id)
    fun _ _ h => h.2

end TreeCode

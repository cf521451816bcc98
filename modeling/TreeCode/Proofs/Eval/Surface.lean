import TreeCode.Proofs.Eval.Tidy

/-!
# Failures that surface

Failures other than exceptions are not caught: they pass by every handler and every cleanup
block. To say so of all of an evaluation at once, compare it with one in which such failures
of sub-evaluations are tampered with, in any way at all (`evalWith`). If no construct looks
at the failure of a part, the tampering changes nothing but evaluations that fail themselves,
and these fail in the same way as the part, in the world that the part left. Filters are the
one exception: a filter that fails declines, whatever its failure. So the tree must have none.

Main definitions:

* `EvalM.SameUnless` — two actions are the same, except where the first one fails in a way
  that may be tampered with.
* `evalWith` — evaluation with something done to the outcome of every sub-evaluation.

Main results:

* `Walk.surface_rule` — sameness in this sense is a rule of evaluation.
* `eval_surfaces` — **a failure that is not an exception surfaces from a tree without filters**.
-/

namespace TreeCode

variable {α β : Type}

/-- The action `x'` does what `x` does, except where `x` ends in a failure, and a world, as
`P` says. -/
def EvalM.SameUnless (P : Fault → World → Prop) (x x' : EvalM α) : Prop :=
  ∀ σ, x' σ = x σ ∨ ∃ f σ', P f σ'.world ∧ x σ = .error (.fault f) σ'

namespace EvalM.SameUnless

variable {P : Fault → World → Prop}

theorem refl (x : EvalM α) : SameUnless P x x := fun _ => .inl rfl

theorem trans {x x' x'' : EvalM α} (h : SameUnless P x x') (h' : SameUnless P x' x'') :
    SameUnless P x x'' := by
  intro σ
  rcases h σ with hx | hx
  · rw [← hx]
    exact h' σ
  · exact .inr hx

theorem bind {x x' : EvalM α} {f f' : α → EvalM β} (hx : SameUnless P x x')
    (hf : ∀ a, SameUnless P (f a) (f' a)) : SameUnless P (x >>= f) (x' >>= f') := by
  intro σ
  show EStateM.bind x' f' σ = EStateM.bind x f σ ∨
    ∃ e σ', P e σ'.world ∧ EStateM.bind x f σ = .error (.fault e) σ'
  simp only [EStateM.bind]
  rcases hx σ with hx | ⟨e, σ', hP, hx⟩
  · rw [hx]
    cases x σ with
    | ok a σ₁ => exact hf a σ₁
    | error e σ₁ => exact .inl rfl
  · exact .inr ⟨e, σ', hP, by rw [hx]⟩

/-- Scopes are closed on the way out of a failure, for which the action must leave them as it
found them. -/
theorem inScope {x x' : EvalM α} {bindings : List (Nat × Nat)} (ht : EvalM.Tidy x)
    (hx : SameUnless P x x') :
    SameUnless P (EvalM.inScope bindings x) (EvalM.inScope bindings x') := by
  intro σ
  simp only [EvalM.inScope]
  rcases hx { σ with scopes := σ.scopes.enter.bindAll bindings } with hx | ⟨f, σ', hP, hx⟩
  · exact .inl (by rw [hx])
  · have hs : σ'.scopes = σ.scopes.enter.bindAll bindings := by
      simpa only [hx, EvalM.endOf] using (ht { σ with scopes := σ.scopes.enter.bindAll bindings }).scopes
    refine .inr ⟨f, { σ' with scopes := σ.scopes }, hP, ?_⟩
    simp only [hx, EvalM.closeScope, hs, Scopes.leave?_bindAll, Option.map_some]

theorem whileCaught {x x' : EvalM α} {v : Value} (hx : SameUnless P x x') :
    SameUnless P (EvalM.whileCaught v x) (EvalM.whileCaught v x') := by
  intro σ
  simp only [EvalM.whileCaught]
  rcases hx { σ with caught := v :: σ.caught } with hx | ⟨f, σ', hP, hx⟩
  · exact .inl (by rw [hx])
  · exact .inr ⟨f, { σ' with caught := σ'.caught.tail }, hP, by rw [hx]⟩

/-- Failures other than exceptions are passed on. -/
theorem resume {x x' : EvalM α} {next next' : α → EvalM β}
    {jumped jumped' : Label → Value → EvalM β} {thrown thrown' : Value → EvalM β}
    (hP : ∀ v w, ¬ P (.thrown v) w) (hx : SameUnless P x x')
    (hnext : ∀ a, SameUnless P (next a) (next' a))
    (hjumped : ∀ l v σ σ', x σ = .error (.jump l v) σ' → SameUnless P (jumped l v) (jumped' l v))
    (hthrown : ∀ v, SameUnless P (thrown v) (thrown' v)) :
    SameUnless P (x.resume next jumped thrown) (x'.resume next' jumped' thrown') := by
  intro σ
  simp only [EvalM.resume]
  rcases hx σ with hx | ⟨f, σ', hf, hx⟩
  · rw [hx]
    cases hr : x σ with
    | ok a σ₁ => exact hnext a σ₁
    | error e σ₁ =>
      cases e with
      | jump l v => exact hjumped l v σ σ₁ hr σ₁
      | fault f =>
        cases f with
        | thrown v => exact hthrown v σ₁
        | _ => exact .inl rfl
  · refine .inr ⟨f, σ', hf, ?_⟩
    rw [hx]
    cases f with
    | thrown v => exact absurd hf (hP v _)
    | _ => rfl

theorem deeper {x x' : EvalM α} {gauge : Gauge}
    (hP : ∀ f w d, P f w → P f { w with depth := d }) (hx : SameUnless P x x') :
    SameUnless P (EvalM.deeper gauge x) (EvalM.deeper gauge x') := by
  intro σ
  by_cases hd : σ.world.depthAt gauge < gauge.max
  · rw [EvalM.deeper_eq x hd, EvalM.deeper_eq x' hd]
    rcases hx (σ.deeper gauge) with hx | ⟨f, σ', hf, hx⟩
    · exact .inl (by rw [hx])
    · exact .inr ⟨f, σ'.atDepth gauge (σ.world.depthAt gauge), hP f _ _ hf, by rw [hx]⟩
  · rw [EvalM.deeper_full x hd, EvalM.deeper_full x' hd]
    exact .inl rfl

end EvalM.SameUnless

open EvalM (Tidy JumpsTo SameUnless)

section

variable {P : Fault → World → Prop} (hthrown : ∀ v w, ¬ P (.thrown v) w)
include hthrown

/-- Evaluation of a tree without filters looks at no failure of its parts that `P` describes. -/
theorem Walk.surface_rule : Walk.Rule Expr.Unfiltered
    fun I _ x x' => (Tidy x ∧ JumpsTo I x) ∧ SameUnless P x x' where
  child he hd := he.child hd
  mono h hI := ⟨⟨h.1.1, h.1.2.mono hI⟩, h.2⟩
  pure a := ⟨Walk.tidy_rule.pure a, .refl _⟩
  bind hx hf := ⟨⟨hx.1.1.bind fun a => (hf a).1.1, hx.1.2.bind fun a => (hf a).1.2⟩,
    hx.2.bind fun a => (hf a).2⟩
  get := ⟨Walk.tidy_rule.get, .refl _⟩
  fault f := ⟨Walk.tidy_rule.fault f, .refl _⟩
  jump v hl := ⟨Walk.tidy_rule.jump v hl, .refl _⟩
  ofRun x := ⟨Walk.tidy_rule.ofRun x, .refl _⟩
  inScope _ hx := ⟨⟨hx.1.1.inScope, hx.1.2.inScope⟩, hx.2.inScope hx.1.1⟩
  whileCaught _ hx := ⟨⟨hx.1.1.whileCaught, hx.1.2.whileCaught⟩, hx.2.whileCaught⟩
  resume hx hn hj ht :=
    ⟨⟨hx.1.1.resume (fun a => (hn a).1.1)
          (fun l v σ σ' hr => (hj l v (hx.1.2 σ l v σ' hr)).1.1) fun v => (ht v).1.1,
        hx.1.2.resume (fun a => (hn a).1.2) (fun l v hl => (hj l v hl).1.2)
          fun v => (ht v).1.2⟩,
      hx.2.resume hthrown (fun a => (hn a).2)
        (fun l v σ σ' hr => (hj l v (hx.1.2 σ l v σ' hr)).2) fun v => (ht v).2⟩
  filter he hk hf _ := by simp [he.filter hk] at hf

omit hthrown

/-! ## Whole evaluations -/

/-- Evaluation in which `sub` is done to the outcome of every sub-evaluation, that of the tree
itself included. -/
def evalWith (sub : Expr → EvalM Value → EvalM Value) (host : Host) (call : Caller)
    (gauge : Gauge) : Nat → Expr → EvalM Value
  | 0, _ => EvalM.fault .outOfFuel
  | fuel + 1, e =>
    let c : Walk :=
      { host, gauge, fuel, call, valueOf := evalWith sub host call gauge fuel }
    sub e (EvalM.deeper gauge (c.node e))

/-- Where nothing is done, it is evaluation. -/
theorem evalWith_id (host : Host) (call : Caller) (gauge : Gauge) (n : Nat) :
    evalWith (fun _ x => x) host call gauge n = eval host call gauge n := by
  induction n with
  | zero => rfl
  | succ n ih =>
    funext e
    rw [evalWith, eval, ih]

/-- **Failures other than exceptions surface.** Tamper with an evaluation of a tree without
filters wherever a sub-evaluation ends in a failure and a world as `P` says, of which the
failure is not an exception. If this changes how the evaluation ends, the evaluation itself
ends in such a failure and such a world: nothing has caught the failure, and nothing was done
after it. In an evaluation that ends in another way, no sub-evaluation has failed so. -/
theorem eval_surfaces (hthrown : ∀ v w, ¬ P (.thrown v) w)
    (hdepth : ∀ f w d, P f w → P f { w with depth := d })
    {sub : Expr → EvalM Value → EvalM Value} (hsub : ∀ e x, SameUnless P x (sub e x))
    (host : Host) (call : Caller) (gauge : Gauge) (n : Nat) {e : Expr} (he : e.Unfiltered) :
    SameUnless P (eval host call gauge n e) (evalWith sub host call gauge n e) := by
  suffices h : (Tidy (eval host call gauge n e) ∧ JumpsTo e.escapes (eval host call gauge n e)) ∧
      SameUnless P (eval host call gauge n e) (evalWith sub host call gauge n e) from h.2
  refine ⟨eval_contained host call gauge n e, ?_⟩
  induction n generalizing e with
  | zero => exact .refl _
  | succ n ih =>
    let c : Walk := { host, gauge, fuel := n, call, valueOf := eval host call gauge n }
    have hnode := (Walk.surface_rule hthrown).node (c := c)
      (fun d hd => ⟨eval_contained host call gauge n d, ih hd⟩) he
    -- the node itself is evaluated alike, and then its own outcome is tampered with
    exact (hnode.2.deeper hdepth).trans (hsub e _)

end

end TreeCode

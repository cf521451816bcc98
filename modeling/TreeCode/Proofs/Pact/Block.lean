import TreeCode.Proofs.Agree.Block
import TreeCode.Proofs.Pact.Value

/-!
# Blocks in a pact

A block without labels among its statements brings variables into scope, carries out its
statements one after the other, and leaves the scope again. How the variables come into
scope is left to the pact.

Main definitions:

* `Pact.Opens` — variables come into scope in both runs.

Main results:

* `Pact.meets_statements` — statements agree when each of them does.
* `Pact.agrees_block` — so do blocks.
-/

namespace TreeCode.Pact

open Draft Lower

variable {P : Pact} {σ σ' : EvalState} {G : P.Frame} {a b : P.State} {μ μ' : MachineState}
  {s s' t t' : Draft} {st : List Value} {f last : Usage} {n : Nat}

variable (P) in
/-- The variables come into scope in both runs: in a frame of their own, which gives the outer
one back when evaluation has its scopes back. -/
def Opens (vars : List Var) : Prop :=
  ∀ ⦃G : P.Frame⦄ ⦃a : P.State⦄ ⦃s t : Draft⦄ ⦃hidden : List (Option Nat)⦄ ⦃σ : EvalState⦄
    ⦃μ : MachineState⦄ (st : List Value), s.Sound → P.suits G s →
    bringInAll vars P.env s = .ok (hidden, t) → t.Leads P.final → P.holds G a σ μ →
    ∃ bindings w G' b, Walk.freshVariables vars σ = .ok bindings { σ with world := w } ∧
      w.depthAt P.gauge = σ.world.depthAt P.gauge ∧ P.le a b ∧ P.suits G' t ∧
      (Comes P.machines (μ.movedTo s.instrs.size st) fun μ' =>
        P.holds G' b { σ with world := w, scopes := σ.scopes.enter.bindAll bindings } μ' ∧
          μ' = μ'.movedTo t.instrs.size st) ∧
      ∀ ⦃c σ' μ'⦄, P.holds G' c σ' μ' → P.holds G c { σ' with scopes := σ.scopes } μ'

/-- An action in a scope of its own is met when it is met inside. -/
theorem Meets.inScope {α : Type} {x : EvalM α} {bindings : List (Nat × Nat)}
    {Q Q' : α → EvalState → MachineState → Prop} (hx : x.Tidy)
    (h : P.Meets a μ (x { σ with scopes := σ.scopes.enter.bindAll bindings }) Q)
    (hQ : ∀ v σ' μ', Q v σ' μ' → Q' v { σ' with scopes := σ.scopes } μ') :
    P.Meets a μ (EvalM.inScope bindings x σ) Q' := by
  have hkept := hx { σ with scopes := σ.scopes.enter.bindAll bindings }
  simp only [EvalM.inScope]
  unfold Meets at h
  split at h
  · rename_i v σ' hr
    rw [hr] at hkept
    have hsc : σ'.scopes = σ.scopes.enter.bindAll bindings := hkept.scopes
    simp only [hr, EvalM.closeScope, hsc, Scopes.leave?_bindAll, Option.map_some]
    exact h.mono fun μ' => hQ v σ' μ'
  · rename_i f σ' hr
    rw [hr] at hkept
    have hsc : σ'.scopes = σ.scopes.enter.bindAll bindings := hkept.scopes
    simp only [hr, EvalM.closeScope, hsc, Scopes.leave?_bindAll, Option.map_some]
    exact h
  · exact h.elim

/-! ## Statements -/

theorem statements_step {es : List Expr} {u : Unit} (hs : s.Sound) (hneat : ∀ e ∈ es, e.Neat)
    (h : Lower.statements f last (Expr.parts es) P.env s = .ok (u, s')) :
    Step True .blank [] [] s s' := by
  induction es generalizing s with
  | nil =>
    obtain ⟨-, rfl⟩ := pure_ok.1 h
    exact .refl s
  | cons e es ih =>
    obtain ⟨t, he, hes⟩ := Lower.statements_cons.1 h
    have h₁ := emit_step he (hneat e (by simp)) hs
    exact h₁.comp (ih (h₁.stage.sound hs) (fun e he => hneat e (by simp [he])) hes)

/-- Statements are carried out one after the other; the value is that of the last one. -/
theorem meets_statements {all es : List Expr} {u : Unit} (A : ∀ e ∈ es, P.Agrees e)
    (hneat : ∀ e ∈ es, e.Neat) (hcut : P.excused .outOfFuel)
    (hlow : Lower.statements f last (Expr.parts es) P.env s = .ok (u, s')) (S : P.Spans G s s')
    (haddr : last.byAddress = false)
    (hused : ∀ e, es.getLast? = some e → e.ty.isVoid = true → last.discarded = true)
    (hroom : ∀ e ∈ es, P.Room n σ e.height) (hold : P.holds G a σ μ) (k : Nat) (v : Value)
    (hempty : es = [] → last.discarded = true) :
    P.Meets a (μ.movedTo s.instrs.size st) ((P.walk n).statements all k es v σ) fun w σ' μ' =>
      ∃ ty, (∀ e, es.getLast? = some e → e.ty = ty) ∧ P.Gives G a last ty s' st w σ' μ' := by
  induction es generalizing s a σ μ k v with
  | nil =>
    obtain ⟨-, rfl⟩ := pure_ok.1 hlow
    have hnode : (P.walk n).statements all k [] v σ = .ok v σ := by
      cases k <;> rfl
    rw [hnode]
    refine .here ⟨.void, fun e he => by simp at he, a, v, P.le_refl a, fun _ => P.fits_void,
      P.holds_moved _ _ hold, rfl, ?_⟩
    simp [Usage.pushed, hempty rfl]
  | cons e es ih =>
    cases k with
    | zero => exact .inl hcut
    | succ k =>
      obtain ⟨t, he, hes⟩ := Lower.statements_cons.1 hlow
      have h₁ := emit_step he (hneat e (by simp)) S.sound
      have h₂ := statements_step (h₁.stage.sound S.sound) (fun e he => hneat e (by simp [he])) hes
      have haddr' : (f.among last es).byAddress = false := by
        unfold Usage.among
        split
        · exact haddr
        · rfl
      have hused' : e.ty.isVoid = true → (f.among last es).discarded = true := by
        cases es with
        | nil => exact hused e rfl
        | cons => exact fun _ => rfl
      have hmeet : P.Meets a (μ.movedTo s.instrs.size st) ((P.walk n).valueOf e σ) _ :=
        A e (by simp) he (S.start h₂) haddr' hused' (hroom e (by simp)) hold
      rw [Walk.statements_succ]
      -- A jump does not occur here, so a statement gives a value or fails; the last value is kept.
      unfold Meets at hmeet
      split at hmeet
      · rename_i x σ₁ hx
        simp only [hx]
        refine Meets.of_comes hmeet fun μ₁ hgives => ?_
        cases es with
        | nil =>
          obtain ⟨-, rfl⟩ := pure_ok.1 hes
          have hnode : (P.walk n).statements all k [] x σ₁ = .ok x σ₁ := by
            cases k <;> rfl
          rw [hnode]
          exact .here ⟨e.ty, fun e' he' => by simp at he'; rw [he'], hgives⟩
        | cons e' es =>
          obtain ⟨b, x', hab, hfit₁, hold₁, hp, hst⟩ := hgives
          rw [← movedTo_eq hp (hst.trans (by rfl : _ = st))]
          refine ((ih (fun e he => A e (by simp [he])) (fun e he => hneat e (by simp [he])) hes
            (S.rest h₁) (fun e he => hused e (by simpa using he))
            (fun e he => (hroom e (by simp [he])).later (eval_depth hx)) hold₁ k x
            (fun h => by simp at h)).weaken hab).mono ?_
          rintro w σ₂ μ₂ ⟨ty, hlast, c, w', hbc, hrest⟩
          exact ⟨ty, fun e he => hlast e (by simpa using he), c, w', P.le_trans hab hbc, hrest⟩
      · rename_i g σ₁ hx
        simp only [hx]
        exact hmeet
      · exact hmeet.elim

/-! ## Blocks -/

theorem agrees_block {ty : Ty} {vars : List Var} {body : List Expr} (O : P.Opens vars)
    (A : ∀ e ∈ body, P.Agrees e) (hneat : ∀ e ∈ body, e.Neat) (hcut : P.excused .outOfFuel)
    (hty : ty.isVoid = false → ∃ e, body.getLast? = some e ∧ P.Takes ty e.ty) :
    P.Agrees (.block ty vars body) := by
  refine agrees_of_node ?_
  intro f s s' G a n σ μ st hlow S _ hused hroom hold
  rw [Expr.part, Part.emit_plain] at hlow
  simp only [Lower.block, bind_ok] at hlow
  obtain ⟨hidden, s₁, hin, _, s₂, hbody, hout⟩ := hlow
  replace hused : ty.isVoid = true → f.discarded = true := hused
  obtain ⟨hq₁, -⟩ := bringInAll_quiet hin
  obtain ⟨hq₃, -, -, -, hinstrs, -⟩ := takeOutAll_quiet hout
  have hs₁ := hq₁.sound S.sound
  have h₂ := statements_step hs₁ hneat hbody
  have hF₂ := hq₃.leads.trans S.leads
  -- The variables are opened, in the evaluator and in the machine.
  obtain ⟨bindings, w, G', b, hfresh, hdepth, hab, hsuits, hcomes, hback⟩ :=
    O st S.sound S.suits hin (h₂.stage.leads.trans hF₂) hold
  have hnode : (P.walk n).node (.block ty vars body) σ =
      EvalM.inScope bindings ((P.walk n).statements body n body .unit) { σ with world := w } :=
    Walk.node_block hfresh
  have hlast : ∀ e, body.getLast? = some e → P.Takes ty e.ty := by
    intro e he hv
    obtain ⟨e', he', htakes⟩ := hty hv
    obtain rfl := Option.some.inj (he.symm.trans he')
    exact htakes hv
  rw [hnode]
  -- The body runs in the new scope, which it leaves again however it ends.
  refine Meets.of_comes hcomes ?_
  rintro μ₁ ⟨hold₁, hμ₁⟩
  rw [hμ₁]
  refine Meets.inScope (σ := { σ with world := w })
    (Walk.statements_tidy (fun e => eval_tidy _ _ _ _ e) n body .unit) ((meets_statements A hneat hcut
      hbody ⟨hs₁, hF₂, hsuits⟩ Usage.result_byAddress ?_ (fun e he => ?_) hold₁ n .unit ?_).weaken
      hab) ?_
  · exact fun e he => (hlast e he).used
  · refine (hroom _ ?_).later hdepth
    rw [Expr.height]
    exact Nat.lt_succ_of_le (Expr.height_le_heightAll he)
  -- Only a block without a value may be empty.
  · rintro rfl
    cases hty' : ty.isVoid with
    | true => exact Usage.result_discarded hty'
    | false =>
      obtain ⟨_, he, -⟩ := hty hty'
      cases he
  · rintro v σ' μ' ⟨ty', hlast', c, v', hbc, hfit, hold', hp, hst⟩
    refine Gives.result ⟨c, v', P.le_trans hab hbc, hfit, hback hold', ?_, hst⟩ (fun hv => ?_) hused
    · rw [hp, hinstrs]
    · obtain ⟨e, he, -⟩ := hty hv
      exact hlast' e he ▸ hlast e he hv

end TreeCode.Pact

import TreeCode.Proofs.Eval.Tidy

/-!
# Jumps that find their labels

Evaluation takes a jump outwards, to the nearest block with the label among its statements,
loop with the label as one of its own, or lambda with the label as its body. It does not look
for the label anywhere else: a label inside a block that does not hold the jump is not found,
and the jump is lost. So whether a jump may be lost shows in the tree (`Expr.escapes`).

Main results:

* `bodyValue_of_home` — no jump is lost by a lambda whose body lets none out.
* `lost_jump_escapes` — **a call of a lambda made of jumps and branches loses a jump only to a
  label that its body does not hold**.
-/

namespace TreeCode

/-- No jump leaves the body of the lambda, except to the label that is the body. -/
def Lambda.KeepsJumps (l : Lambda) : Prop :=
  ∀ id ∈ l.body.escapes, l.body.labelId? = some id

instance (l : Lambda) : Decidable l.KeepsJumps :=
  inferInstanceAs (Decidable (∀ id ∈ l.body.escapes, l.body.labelId? = some id))

section

variable {host : Host} {call : Caller} {gauge : Gauge} {fuel : Nat} {l : Lambda} {σ σ' : EvalState}

/-- A jump that ends the evaluation of a body which lets none out is to the body itself, and
returns from the lambda. -/
theorem bodyValue_of_home (hl : l.KeepsJumps) :
    bodyValue host call gauge fuel l σ =
      match eval host call gauge fuel l.body σ with
      | .ok v σ' | .error (.jump _ v) σ' => .ok (if l.ret.isVoid then .unit else v) σ'
      | .error exit σ' => .error exit σ' := by
  simp only [bodyValue]
  cases hr : eval host call gauge fuel l.body σ with
  | ok v σ' => rfl
  | error exit σ' =>
    cases exit with
    | fault f => rfl
    | jump t v =>
      have ht : l.body.labelId? = some t.id := hl t.id (eval_jumps _ _ _ _ _ σ t v σ' hr)
      simp only [if_pos (Expr.isLabelOf_iff.2 ht)]

/-! ## Branches and jumps -/

/-- Trees made of constants, variables, conditionals, blocks, labels and jumps. -/
inductive Expr.Jumping : Expr → Prop
  | constant {t : Ty} {v : Value} : Jumping (.constant t v)
  | var {v : Var} : Jumping (.var v)
  | conditional {t : Ty} {test a b : Expr} (htest : test.Jumping) (ha : a.Jumping)
      (hb : b.Jumping) : Jumping (.conditional t test a b)
  | block {t : Ty} {vars : List Var} {body : List Expr} (hbody : ∀ e ∈ body, e.Jumping) :
      Jumping (.block t vars body)
  | label {l : Label} {o : Option Expr} (ho : ∀ e, o = some e → e.Jumping) :
      Jumping (.label l o)
  | goto {t : Ty} {kind : JumpKind} {l : Label} {o : Option Expr}
      (ho : ∀ e, o = some e → e.Jumping) : Jumping (.goto t kind l o)

/-- The action does not fail with a lost jump. -/
def EvalM.Loses {α : Type} (x : EvalM α) : Prop :=
  ∃ σ name σ', x σ = .error (.fault (.lostJump name)) σ'

end

variable {α β : Type}

namespace EvalM

theorem not_loses_pure {a : α} : ¬ Loses (pure a : EvalM α) := by
  rintro ⟨σ, name, σ', h⟩
  cases h

theorem not_loses_jump {l : Label} {v : Value} : ¬ Loses (throw (.jump l v) : EvalM α) := by
  rintro ⟨σ, name, σ', h⟩
  cases h

theorem not_loses_fault {f : Fault} (hf : ∀ name, f ≠ .lostJump name) :
    ¬ Loses (EvalM.fault f : EvalM α) := by
  rintro ⟨σ, name, σ', h⟩
  cases h
  exact hf name rfl

theorem not_loses_bind {x : EvalM α} {f : α → EvalM β} (hx : ¬ Loses x)
    (hf : ∀ a, ¬ Loses (f a)) : ¬ Loses (x >>= f) := by
  rintro ⟨σ, name, σ', h : EStateM.bind x f σ = _⟩
  simp only [EStateM.bind] at h
  cases hr : x σ with
  | ok a σ₁ => exact hf a ⟨σ₁, name, σ', by simpa only [hr] using h⟩
  | error e σ₁ =>
    rw [hr] at h
    obtain ⟨rfl, rfl⟩ : e = _ ∧ σ₁ = σ' := by simpa using h
    exact hx ⟨σ, name, _, hr⟩

/-- An action on the store does not fail. -/
theorem not_loses_withStore {f : Store → α × Store} : ¬ Loses (ofRun (RunM.withStore f)) := by
  rintro ⟨σ, name, σ', h⟩
  simp [ofRun, RunM.withStore] at h

theorem not_loses_readStore {f : Store → α} : ¬ Loses (ofRun (RunM.readStore f)) := by
  rintro ⟨σ, name, σ', h⟩
  simp [ofRun, RunM.readStore] at h

theorem not_loses_cellOf {v : Var} : ¬ Loses (cellOf v) := by
  refine not_loses_bind (by rintro ⟨σ, name, σ', h⟩; cases h) fun s => ?_
  cases s.scopes.get? v.id with
  | some ref => exact not_loses_pure
  | none => exact not_loses_fault nofun

theorem not_loses_inScope {x : EvalM α} {bindings : List (Nat × Nat)} (hx : ¬ Loses x) :
    ¬ Loses (inScope bindings x) := by
  rintro ⟨σ, name, σ', h⟩
  simp only [inScope] at h
  cases hr : x { σ with scopes := σ.scopes.enter.bindAll bindings } with
  | ok a σ₁ =>
    rw [hr] at h
    cases hs : closeScope σ₁ <;> simp [hs] at h
  | error e σ₁ =>
    rw [hr] at h
    cases hs : closeScope σ₁ with
    | none => simp [hs] at h
    | some σ₂ =>
      obtain ⟨rfl, -⟩ : e = _ ∧ σ₂ = _ := by simpa [hs] using h
      exact hx ⟨_, name, _, hr⟩

theorem not_loses_deeper {x : EvalM α} {gauge : Gauge} (hx : ¬ Loses x) :
    ¬ Loses (deeper gauge x) := by
  rintro ⟨σ, name, σ', h⟩
  by_cases hd : σ.world.depthAt gauge < gauge.max
  swap
  · rw [deeper_full x hd] at h
    cases h
  · rw [deeper_eq x hd] at h
    cases hr : x (σ.deeper gauge) with
    | ok b σ₁ => simp [hr] at h
    | error e σ₁ =>
      rw [hr] at h
      obtain ⟨rfl, -⟩ : e = _ ∧ _ := by simpa using h
      exact hx ⟨_, name, _, hr⟩

end EvalM

namespace Walk

open EvalM

variable {c : Walk}

theorem statements_keep {all : List Expr} (hall : ∀ e ∈ all, ¬ Loses (c.valueOf e)) (n : Nat)
    (rest : List Expr) (hrest : rest ⊆ all) (v : Value) : ¬ Loses (c.statements all n rest v) := by
  induction n generalizing rest v with
  | zero =>
    cases rest with
    | nil => exact not_loses_pure
    | cons => exact not_loses_fault nofun
  | succ n ih =>
    cases rest with
    | nil => exact not_loses_pure
    | cons e rest =>
      rintro ⟨σ, name, σ', h⟩
      simp only [statements] at h
      cases hr : c.valueOf e σ with
      | ok v σ₁ =>
        exact ih rest (fun _ h => hrest (by simp [h])) v ⟨σ₁, name, σ', by simpa only [hr] using h⟩
      | error x σ₁ =>
        rw [hr] at h
        cases x with
        | fault f => exact hall e (hrest (by simp)) ⟨σ, name, _, hr.trans h⟩
        | jump l v =>
          dsimp only at h
          cases hi : all.findIdx? (·.isLabelOf l) with
          | none => simp [hi] at h
          | some i =>
            exact ih _ (List.drop_subset _ _) v ⟨σ₁, name, σ', by simpa only [hi] using h⟩

theorem node_keeps {e : Expr} (he : e.Jumping) (hv : ∀ d, d.Jumping → ¬ Loses (c.valueOf d)) :
    ¬ Loses (c.node e) := by
  cases he with
  | constant => exact not_loses_pure
  | var => exact not_loses_bind not_loses_cellOf fun ref => not_loses_readStore (f := (·.cellAt ref))
  | conditional htest ha hb =>
    have truth : ¬ Loses (c.truthOf _) := not_loses_bind (hv _ htest) fun v => by
      cases v.bool? with
      | some b => exact not_loses_pure
      | none => exact not_loses_fault nofun
    refine not_loses_bind truth fun b => ?_
    cases b with
    | true => exact hv _ ha
    | false => exact hv _ hb
  | @block _ vars body hbody =>
    have fresh : ∀ vars, ¬ Loses (freshVariables vars) := by
      intro vars
      induction vars with
      | nil => exact not_loses_pure
      | cons v vs ih =>
        exact not_loses_bind not_loses_withStore fun _ => not_loses_bind ih fun _ => not_loses_pure
    exact not_loses_bind (fresh vars) fun _ => not_loses_inScope <|
      statements_keep (fun e he => hv e (hbody e he)) _ _ (fun _ h => h) _
  | @label l o ho =>
    cases o with
    | some e => exact hv e (ho e rfl)
    | none => exact not_loses_pure
  | @goto _ _ l o ho =>
    cases o with
    | some e => exact not_loses_bind (hv e (ho e rfl)) fun _ => not_loses_jump
    | none => exact not_loses_bind not_loses_pure fun _ => not_loses_jump

end Walk

variable {host : Host} {call : Caller} {gauge : Gauge} {fuel : Nat} {l : Lambda}

theorem Expr.Jumping.keeps {e : Expr} (he : e.Jumping) :
    ¬ EvalM.Loses (eval host call gauge fuel e) := by
  induction fuel generalizing e with
  | zero => exact EvalM.not_loses_fault nofun
  | succ n ih => exact EvalM.not_loses_deeper (Walk.node_keeps he fun d hd => ih hd)

theorem freshArguments_ok (vars : List Var) (args : List Value) (w : World) :
    ∃ bindings w', freshArguments vars args w = .ok bindings w' := by
  induction vars generalizing args w with
  | nil => exact ⟨[], w, rfl⟩
  | cons v vs ih =>
    cases args with
    | nil => exact ⟨[], w, rfl⟩
    | cons a args =>
      obtain ⟨bindings, w', h⟩ := ih args { w with store := (w.store.newCell a).2 }
      refine ⟨(v.id, (w.store.newCell a).1) :: bindings, w', ?_⟩
      rw [freshArguments]
      simp only [bind, EStateM.bind, RunM.newCell, RunM.withStore, h]
      rfl

/-- **If a call of a lambda made of jumps and branches loses a jump, its body does not keep
its jumps**: a label is placed where no block around the jump has it among its statements. A
body that keeps its jumps loses none, whatever its arguments. -/
theorem lost_jump_escapes (hbody : l.body.Jumping) {captured : List (Nat × Nat)}
    {args : List Value} {w w' : World} {name : String}
    (h : callLambda host call fuel l captured gauge args w = .error (.lostJump name) w') :
    ¬ l.KeepsJumps := by
  intro hl
  by_cases hlen : l.params.length = args.length
  · obtain ⟨bindings, w₁, hargs⟩ := freshArguments_ok l.params args w
    simp only [callLambda, RunM.requireArity, if_pos hlen, bind, EStateM.bind] at h
    simp only [pure, EStateM.pure, hargs, bodyValue_of_home hl] at h
    cases hr : eval host call gauge fuel l.body
        { world := w₁, scopes := (Scopes.ofList captured).enter.bindAll bindings } with
    | ok v σ => simp [hr] at h
    | error exit σ =>
      cases exit with
      | jump t v => simp [hr] at h
      | fault f =>
        obtain ⟨rfl, -⟩ : f = .lostJump name ∧ σ.world = w' := by simpa [hr] using h
        exact hbody.keeps ⟨_, name, σ, hr⟩
  · simp only [callLambda, RunM.requireArity, if_neg hlen, bind, EStateM.bind] at h
    cases h

/-- A jump into a block that does not hold it. -/
def Lambda.jumpingIn : Lambda :=
  let l : Label := ⟨0, "l", .void⟩
  .mk 0 none [] .i32 (.block .i32 []
    [.goto .void .plain l none, .block .i32 [] [.label l none, .constant .i32 (.i32 1)]])

/-- A jump into a block that does not hold it leaves the lambda. -/
example : ¬ Lambda.jumpingIn.KeepsJumps := by decide +kernel

end TreeCode

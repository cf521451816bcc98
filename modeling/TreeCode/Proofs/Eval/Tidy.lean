import TreeCode.Proofs.Eval.Depth
import TreeCode.Proofs.Eval.Rule

/-!
# Evaluation is tidy

However evaluation of an expression ends, with a value, by a jump, by a
failure or cut off, it leaves the scopes and the exceptions being handled as
it found them, and a jump by which it ends is one that may leave the tree.
Both are rules of evaluation (`Walk.Rule`).

Main results:

* `EvalM.Tidy.inScope` — a scope that an action opens is closed again.
* `eval_tidy` — **evaluation leaves scopes as it found them**.
* `eval_jumps` — **jumps out of a tree go to labels that it does not hold**.
-/

namespace TreeCode

/-! ## Scopes -/

namespace Scopes

variable {K V : Type} (s : Scopes K V)

@[simp] theorem leave?_enter : s.enter.leave? = some s := rfl

/-- Binding in an open scope does not reach the scopes around it. -/
@[simp] theorem leave?_bindAll (bindings : List (K × V)) :
    (s.enter.bindAll bindings).leave? = some s := by
  suffices h : ∀ (t : Scopes K V), t.leave? = some s → (t.bindAll bindings).leave? = some s from
    h s.enter rfl
  induction bindings with
  | nil => exact fun t h => h
  | cons b rest ih =>
    intro t ht
    refine ih (t.bind b.1 b.2) ?_
    cases hf : t.frames with
    | nil => simp [leave?, hf] at ht
    | cons frame frames => simpa [bind, leave?, hf] using ht

theorem newestFirst_bind (k : K) (v : V) : (s.bind k v).newestFirst = (k, v) :: s.newestFirst := by
  obtain ⟨base, frames⟩ := s
  cases frames <;> rfl

@[simp] theorem get?_enter [BEq K] (k : K) : s.enter.get? k = s.get? k := rfl

/-- The newest binding of a key hides the others. -/
@[simp] theorem get?_bind [DecidableEq K] (k k' : K) (v : V) :
    (s.bind k v).get? k' = if k = k' then some v else s.get? k' := by
  unfold get?
  rw [newestFirst_bind, List.find?_cons]
  by_cases h : k = k'
  · simp [h]
  · simp [h, show (k == k') = false by simpa using h]

end Scopes

/-! ## Tidy actions -/

variable {α β : Type}

/-- The state in which an action ends. -/
def EvalM.endOf : EStateM.Result Exit EvalState α → EvalState
  | .ok _ σ => σ
  | .error _ σ => σ

/-- The state `σ'` has the scopes and the exceptions of `σ`. -/
structure EvalState.Kept (σ σ' : EvalState) : Prop where
  scopes : σ'.scopes = σ.scopes
  caught : σ'.caught = σ.caught

theorem EvalState.Kept.trans {σ σ' σ'' : EvalState} (h : σ.Kept σ') (h' : σ'.Kept σ'') : σ.Kept σ'' :=
  ⟨h'.scopes.trans h.scopes, h'.caught.trans h.caught⟩

/-- The action leaves scopes and exceptions as it finds them. -/
def EvalM.Tidy (x : EvalM α) : Prop :=
  ∀ σ : EvalState, σ.Kept (EvalM.endOf (x σ))

namespace EvalM.Tidy

theorem pure {v : α} : Tidy (pure v : EvalM α) := fun _ => ⟨rfl, rfl⟩

theorem throw {e : Exit} : Tidy (throw e : EvalM α) := fun _ => ⟨rfl, rfl⟩

theorem fault {f : Fault} : Tidy (EvalM.fault f : EvalM α) := throw

theorem defect {d : Defect} : Tidy (EvalM.defect d : EvalM α) := throw

theorem get : Tidy (get : EvalM EvalState) := fun _ => ⟨rfl, rfl⟩

theorem ofRun {x : RunM α} : Tidy (EvalM.ofRun x) := by
  intro σ
  simp only [EvalM.ofRun]
  cases x σ.world <;> exact ⟨rfl, rfl⟩

theorem bind {x : EvalM α} {f : α → EvalM β} (hx : Tidy x) (hf : ∀ v, Tidy (f v)) :
    Tidy (x >>= f) := by
  intro σ
  have h := hx σ
  show σ.Kept (endOf (EStateM.bind x f σ))
  unfold EStateM.bind
  cases hr : x σ with
  | ok v σ' =>
    rw [hr] at h
    exact h.trans (hf v σ')
  | error e σ' =>
    rw [hr] at h
    exact h

theorem ite {b : Prop} [Decidable b] {x y : EvalM α} (hx : Tidy x) (hy : Tidy y) :
    Tidy (if b then x else y) := by
  split
  · exact hx
  · exact hy

/-- A scope that an action opens is closed again. -/
theorem inScope {x : EvalM α} {bindings : List (Nat × Nat)} (hx : Tidy x) :
    Tidy (EvalM.inScope bindings x) := by
  intro σ
  have h := hx { σ with scopes := σ.scopes.enter.bindAll bindings }
  simp only [EvalM.inScope]
  cases hr : x { σ with scopes := σ.scopes.enter.bindAll bindings } with
  | ok v σ' =>
    rw [hr] at h
    have hs : σ'.scopes = _ := h.scopes
    simp only [EvalM.closeScope, hs, Scopes.leave?_bindAll, Option.map_some]
    exact ⟨rfl, h.caught⟩
  | error e σ' =>
    rw [hr] at h
    have hs : σ'.scopes = _ := h.scopes
    simp only [EvalM.closeScope, hs, Scopes.leave?_bindAll, Option.map_some]
    exact ⟨rfl, h.caught⟩

theorem whileCaught {x : EvalM α} {v : Value} (hx : Tidy x) : Tidy (EvalM.whileCaught v x) := by
  intro σ
  have h := hx { σ with caught := v :: σ.caught }
  simp only [EvalM.whileCaught]
  cases hr : x { σ with caught := v :: σ.caught } with
  | ok v' σ' =>
    rw [hr] at h
    have hc : σ'.caught = v :: σ.caught := h.caught
    exact ⟨h.scopes, by simp [endOf, hc]⟩
  | error e σ' =>
    rw [hr] at h
    have hc : σ'.caught = v :: σ.caught := h.caught
    exact ⟨h.scopes, by simp [endOf, hc]⟩

theorem deeper {x : EvalM α} {gauge : Gauge} (hx : Tidy x) : Tidy (EvalM.deeper gauge x) := by
  intro σ
  have h := hx (σ.deeper gauge)
  by_cases hd : σ.world.depthAt gauge < gauge.max
  swap
  · rw [EvalM.deeper_full x hd]
    exact ⟨rfl, rfl⟩
  · rw [EvalM.deeper_eq x hd]
    cases hr : x (σ.deeper gauge) with
    | ok v σ' =>
      rw [hr] at h
      exact ⟨h.scopes, h.caught⟩
    | error e σ' =>
      rw [hr] at h
      exact ⟨h.scopes, h.caught⟩

theorem resume {x : EvalM α} {next : α → EvalM β} {jumped : Label → Value → EvalM β}
    {thrown : Value → EvalM β} (hx : Tidy x) (hnext : ∀ v, Tidy (next v))
    (hjumped : ∀ l v σ σ', x σ = .error (.jump l v) σ' → Tidy (jumped l v))
    (hthrown : ∀ v, Tidy (thrown v)) : Tidy (x.resume next jumped thrown) := by
  intro σ
  have h := hx σ
  simp only [EvalM.resume]
  cases hr : x σ with
  | ok v σ' =>
    rw [hr] at h
    exact h.trans (hnext v σ')
  | error e σ' =>
    rw [hr] at h
    cases e with
    | jump l v => exact h.trans (hjumped l v σ σ' hr σ')
    | fault f =>
      cases f with
      | thrown v => exact h.trans (hthrown v σ')
      | _ => exact h

theorem asFilter {x : EvalM Value} (hx : Tidy x) : Tidy x.asFilter := by
  intro σ
  have h := hx σ
  simp only [EvalM.asFilter]
  cases hr : x σ with
  | ok v σ' =>
    rw [hr] at h
    split <;> simp_all [EvalM.endOf]
  | error e σ' =>
    rw [hr] at h
    split <;> simp_all [EvalM.endOf]

end EvalM.Tidy

namespace Walk

open EvalM (Tidy)

variable {c : Walk} (hv : ∀ e, Tidy (c.valueOf e))
include hv

theorem statements_tidy {all : List Expr} (n : Nat) (es : List Expr) (v : Value) :
    Tidy (c.statements all n es v) := by
  induction n generalizing es v with
  | zero =>
    cases es with
    | nil => exact .pure
    | cons e es => exact .fault
  | succ n ih =>
    cases es with
    | nil => exact .pure
    | cons e es =>
      rw [statements_eq]
      refine (hv e).resume (fun v => ih es v) (fun l v _ _ _ => ?_) fun v => .fault
      cases all.findIdx? (·.isLabelOf l) with
      | some i => exact ih _ v
      | none => exact .throw

theorem accepts_tidy {filter : Option Expr} : Tidy (c.accepts filter) := by
  cases filter with
  | none => exact .pure
  | some e => exact (hv e).asFilter

end Walk

/-! ## Jumps -/

/-- The action jumps to the labels `I` only. -/
def EvalM.JumpsTo (I : List Nat) (x : EvalM α) : Prop :=
  ∀ σ l v σ', x σ = .error (.jump l v) σ' → l.id ∈ I

namespace EvalM.JumpsTo

variable {I J : List Nat}

theorem mono {x : EvalM α} (h : JumpsTo I x) (hI : I ⊆ J) : JumpsTo J x :=
  fun σ l v σ' hr => hI (h σ l v σ' hr)

/-- An action that ends without a jump. -/
theorem of_never {x : EvalM α} (h : ∀ σ l v σ', x σ ≠ .error (.jump l v) σ') : JumpsTo I x :=
  fun σ l v σ' hr => absurd hr (h σ l v σ')

/-- Filters do not jump out. -/
theorem asFilter {x : EvalM Value} : JumpsTo I x.asFilter := .of_never fun σ l v σ' h => by
  simp only [EvalM.asFilter] at h
  split at h <;> simp at h

theorem resume {x : EvalM α} {next : α → EvalM β} {jumped : Label → Value → EvalM β}
    {thrown : Value → EvalM β} (hx : JumpsTo J x) (hnext : ∀ v, JumpsTo I (next v))
    (hjumped : ∀ l v, l.id ∈ J → JumpsTo I (jumped l v)) (hthrown : ∀ v, JumpsTo I (thrown v)) :
    JumpsTo I (x.resume next jumped thrown) := by
  intro σ l v σ' h
  simp only [EvalM.resume] at h
  cases hr : x σ with
  | ok a σ₁ => exact hnext a σ₁ l v σ' (by simpa only [hr] using h)
  | error e σ₁ =>
    rw [hr] at h
    cases e with
    | jump t a => exact hjumped t a (hx σ t a σ₁ hr) σ₁ l v σ' h
    | fault f =>
      cases f with
      | thrown a => exact hthrown a σ₁ l v σ' h
      | _ => simp at h

theorem bind {x : EvalM α} {f : α → EvalM β} (hx : JumpsTo I x) (hf : ∀ v, JumpsTo I (f v)) :
    JumpsTo I (x >>= f) := by
  intro σ l v σ' (h : EStateM.bind x f σ = _)
  simp only [EStateM.bind] at h
  cases hr : x σ with
  | ok a σ₁ => exact hf a σ₁ l v σ' (by simpa only [hr] using h)
  | error e σ₁ =>
    rw [hr] at h
    obtain ⟨rfl, rfl⟩ : e = _ ∧ σ₁ = _ := by simpa using h
    exact hx σ l v _ hr

theorem inScope {x : EvalM α} {bindings : List (Nat × Nat)} (hx : JumpsTo I x) :
    JumpsTo I (EvalM.inScope bindings x) := by
  intro σ l v σ' h
  simp only [EvalM.inScope] at h
  cases hr : x { σ with scopes := σ.scopes.enter.bindAll bindings } with
  | ok a σ₁ =>
    rw [hr] at h
    cases hs : EvalM.closeScope σ₁ <;> simp [hs] at h
  | error e σ₁ =>
    rw [hr] at h
    cases hs : EvalM.closeScope σ₁ with
    | none => simp [hs] at h
    | some σ₂ =>
      obtain ⟨rfl, rfl⟩ : e = _ ∧ σ₂ = _ := by simpa [hs] using h
      exact hx _ l v _ hr

theorem whileCaught {x : EvalM α} {a : Value} (hx : JumpsTo I x) :
    JumpsTo I (EvalM.whileCaught a x) := by
  intro σ l v σ' h
  simp only [EvalM.whileCaught] at h
  cases hr : x { σ with caught := a :: σ.caught } with
  | ok b σ₁ => simp [hr] at h
  | error e σ₁ =>
    rw [hr] at h
    obtain ⟨rfl, -⟩ : e = _ ∧ _ := by simpa using h
    exact hx _ l v _ hr

theorem deeper {x : EvalM α} {gauge : Gauge} (hx : JumpsTo I x) :
    JumpsTo I (EvalM.deeper gauge x) := by
  intro σ l v σ' h
  by_cases hd : σ.world.depthAt gauge < gauge.max
  swap
  · rw [EvalM.deeper_full x hd] at h
    cases h
  · rw [EvalM.deeper_eq x hd] at h
    cases hr : x (σ.deeper gauge) with
    | ok b σ₁ => simp [hr] at h
    | error e σ₁ =>
      rw [hr] at h
      obtain ⟨rfl, -⟩ : e = _ ∧ _ := by simpa using h
      exact hx _ l v _ hr

end EvalM.JumpsTo

/-! ## Evaluation -/

open EvalM (Tidy JumpsTo)

/-- That actions jump only where the tree says is a rule of evaluation. -/
theorem Walk.jumps_rule : Walk.Rule (fun _ => True) fun I _ x _ => JumpsTo I x where
  child _ _ := trivial
  mono := .mono
  pure _ := .of_never fun _ _ _ _ => nofun
  bind := .bind
  get := .of_never fun _ _ _ _ => nofun
  fault _ := .of_never fun _ _ _ _ => nofun
  jump v hl σ l' v' σ' h := by
    obtain ⟨⟨rfl, rfl⟩, rfl⟩ : (_ = l' ∧ v = v') ∧ σ = σ' := by
      simpa [EvalM.jumpOn, throw, throwThe, MonadExceptOf.throw, EStateM.throw] using h
    exact hl
  ofRun x := .of_never fun σ l v σ' h => by
    simp only [EvalM.ofRun] at h
    cases hr : x σ.world <;> simp [hr] at h
  inScope _ := .inScope
  whileCaught _ := .whileCaught
  resume := .resume
  filter _ _ _ _ := .asFilter

/-- That actions are tidy is a rule of evaluation. -/
theorem Walk.tidy_rule :
    Walk.Rule (fun _ => True) fun I _ x _ => Tidy x ∧ JumpsTo I x where
  child _ _ := trivial
  mono h hI := ⟨h.1, h.2.mono hI⟩
  pure _ := ⟨.pure, jumps_rule.pure _⟩
  bind hx hf := ⟨hx.1.bind fun a => (hf a).1, hx.2.bind fun a => (hf a).2⟩
  get := ⟨.get, jumps_rule.get⟩
  fault _ := ⟨.fault, jumps_rule.fault _⟩
  jump _ hl := ⟨.throw, jumps_rule.jump _ hl⟩
  ofRun _ := ⟨.ofRun, jumps_rule.ofRun _⟩
  inScope _ hx := ⟨hx.1.inScope, hx.2.inScope⟩
  whileCaught _ hx := ⟨hx.1.whileCaught, hx.2.whileCaught⟩
  resume hx hnext hjumped hthrown :=
    ⟨hx.1.resume (fun a => (hnext a).1)
        (fun l v σ σ' hr => (hjumped l v (hx.2 σ l v σ' hr)).1) fun v => (hthrown v).1,
      hx.2.resume (fun a => (hnext a).2) (fun l v hl => (hjumped l v hl).2)
        fun v => (hthrown v).2⟩
  filter _ _ _ hx := ⟨hx.1.asFilter, JumpsTo.asFilter⟩

/-- An expression is evaluated tidily, and jumps at most to the labels it escapes to. -/
theorem eval_contained (host : Host) (call : Caller) (gauge : Gauge) (n : Nat) (e : Expr) :
    Tidy (eval host call gauge n e) ∧ JumpsTo e.escapes (eval host call gauge n e) := by
  induction n generalizing e with
  | zero => exact ⟨.fault, Walk.jumps_rule.fault _⟩
  | succ n ih =>
    have h := Walk.tidy_rule.node_self
      (c := { host, gauge, fuel := n, call, valueOf := eval host call gauge n }) (e := e)
      (fun d _ => ih d) trivial
    exact ⟨h.1.deeper, h.2.deeper⟩

/-- Evaluation leaves scopes and exceptions being handled as it found them,
however it ends. -/
theorem eval_tidy (host : Host) (call : Caller) (gauge : Gauge) (n : Nat) (e : Expr) :
    Tidy (eval host call gauge n e) := (eval_contained host call gauge n e).1

/-- A jump by which evaluation ends goes to a label that the tree does not hold. -/
theorem eval_jumps (host : Host) (call : Caller) (gauge : Gauge) (n : Nat) (e : Expr) :
    JumpsTo e.escapes (eval host call gauge n e) := (eval_contained host call gauge n e).2

/-- An action one level deeper leaves its depth as it was, even where it calls functions
that do not. -/
theorem EvalM.deeper_depthAt {α : Type} (gauge : Gauge) (x : EvalM α) (σ : EvalState) :
    (EvalM.endOf (EvalM.deeper gauge x σ)).world.depthAt gauge = σ.world.depthAt gauge := by
  by_cases hd : σ.world.depthAt gauge < gauge.max
  · rw [deeper_eq x hd]
    cases x (σ.deeper gauge) <;> exact World.depthAt_atDepth _ _ _
  · rw [deeper_full x hd]
    rfl

/-- Evaluation leaves its depth as it was, however it ends. -/
theorem eval_depthAt (host : Host) (call : Caller) (gauge : Gauge) (n : Nat) (e : Expr)
    (σ : EvalState) :
    (EvalM.endOf (eval host call gauge n e σ)).world.depthAt gauge = σ.world.depthAt gauge := by
  cases n with
  | zero => rfl
  | succ n => exact EvalM.deeper_depthAt gauge _ σ

/-! ## Variables and blocks -/

section Variables

variable {c : Walk} {σ : EvalState} {v : Var} {ref : Nat}

theorem EvalM.cellOf_eq (h : σ.scopes.get? v.id = some ref) : EvalM.cellOf v σ = .ok ref σ := by
  simp only [EvalM.cellOf, bind, EStateM.bind, get, getThe, MonadStateOf.get, EStateM.get, h]
  rfl

/-- A variable gives what is in its cell. -/
theorem Walk.node_var (h : σ.scopes.get? v.id = some ref) :
    c.node (.var v) σ = .ok (σ.world.store.cellAt ref) σ := by
  show EStateM.bind (EvalM.cellOf v) _ σ = _
  simp only [EStateM.bind, EvalM.cellOf_eq h]
  rfl

/-- The place of a variable is its cell. -/
theorem Walk.placeOf_var (h : σ.scopes.get? v.id = some ref) :
    c.placeOf (.var v) σ = .ok (.cell ref) σ := by
  show EStateM.bind (EvalM.cellOf v) _ σ = _
  simp only [EStateM.bind, EvalM.cellOf_eq h]
  rfl

/-- The cell of a variable is found before the value that it is assigned. -/
theorem Walk.node_assign {ty : Ty} {e : Expr} {method : Option Method}
    (h : σ.scopes.get? v.id = some ref) :
    c.node (.binary ty .assign (.var v) e method) σ = (do
      let x ← c.valueOf e
      EvalM.ofRun (RunM.writeCell ref x)
      return x : EvalM Value) σ := by
  show EStateM.bind (c.placeOf (.var v)) _ σ = _
  simp only [EStateM.bind, placeOf_var h]
  rfl

/-- The cells of a block are made before its scope is opened. -/
theorem Walk.node_block {ty : Ty} {vars : List Var} {body : List Expr}
    {bindings : List (Nat × Nat)} {w : World}
    (h : freshVariables vars σ = .ok bindings { σ with world := w }) :
    c.node (.block ty vars body) σ =
      EvalM.inScope bindings (c.statements body c.fuel body .unit) { σ with world := w } := by
  show (freshVariables vars >>= fun bs =>
    EvalM.inScope bs (c.statements body c.fuel body .unit)) σ = _
  simp only [bind, EStateM.bind, h]

end Variables

/-! ## Short-circuit operators -/

/-- The operator that stops at the first operand that differs from `isAnd`. -/
def BinaryOp.both (isAnd : Bool) : BinaryOp := if isAnd then .andAlso else .orElse

theorem Walk.node_both {c : Walk} {ty : Ty} {isAnd : Bool} {l r : Expr} {m : Option Method} :
    c.node (.binary ty (.both isAnd) l r m) = (do
      let x ← c.truthOf l
      if x == isAnd then c.valueOf r else return .bool x : EvalM Value) := by
  cases isAnd
  · show (do if ← c.truthOf l then return .bool true else c.valueOf r : EvalM Value) = _
    congr 1
    funext x
    cases x <;> rfl
  · show (do if ← c.truthOf l then c.valueOf r else return .bool false : EvalM Value) = _
    congr 1
    funext x
    cases x <;> rfl

end TreeCode

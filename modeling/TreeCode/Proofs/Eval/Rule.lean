import Mathlib
import TreeCode.Eval.Node
import TreeCode.Proofs.Expr.Filter

/-!
# Rules of evaluation

Evaluation of a node is put together from evaluation of its parts by a few steps: one action
after the other, scopes, handlers, and what goes on after an action that ended by a value, by
a jump or by an exception. A `Rule` is a relation between two actions that these steps keep,
indexed by the labels that the actions may jump to. If it relates the evaluation of the parts
in two walks, it relates the evaluation of the node. A property of one action is a rule that
does not look at the other one.

Main definitions:

* `Expr.escapes` — the labels to which jumps may leave a tree.
* `EvalM.resume`, `EvalM.asFilter` — how an action goes on that may have ended by a jump or an
  exception, and an action as a filter.
* `Walk.Rule` — a relation that the steps of evaluation keep.

Main results:

* `Walk.statements_eq`, `Walk.loop_eq`, `Walk.handled_eq`, `Walk.protect_finally`, … — control
  flow in terms of `EvalM.resume`.
* `Walk.Rule.node` — **evaluation of every node keeps a rule**.
-/

namespace TreeCode

/-! ## Jumps that leave a tree -/

/-- The id of the label that is placed here. -/
def Expr.labelId? : Expr → Option Nat
  | .label l _ => some l.id
  | _ => none

theorem Expr.isLabelOf_iff {e : Expr} {l : Label} : e.isLabelOf l = true ↔ e.labelId? = some l.id := by
  cases e <;> simp [isLabelOf, labelId?]

mutual

/-- The ids of the labels to which jumps may leave a tree: a block keeps jumps to its own
statements, a loop those to its labels, and a lambda keeps all. Jumps out of filters count as
declining. -/
def Expr.escapes : Expr → List Nat
  | .constant .. | .var _ | .default _ | .rethrow _ | .lambda _ => []
  | .unary _ _ e _ => e.escapes
  | .binary _ _ l r _ => l.escapes ++ r.escapes
  | .call _ o _ args => Expr.escapesOption o ++ Expr.escapesAll args
  | .new _ _ args => Expr.escapesAll args
  | .member o _ => o.escapes
  | .index _ o _ args => o.escapes ++ Expr.escapesAll args
  | .newArray _ items => Expr.escapesAll items
  | .newArrayBounds _ n => n.escapes
  | .memberInit _ args bs => Expr.escapesAll args ++ Expr.escapesBindings bs
  | .conditional _ t a b => t.escapes ++ (a.escapes ++ b.escapes)
  | .block _ _ es => (Expr.escapesAll es).filter fun id => some id ∉ es.map (·.labelId?)
  | .loop b breakLabel continueLabel => b.escapes.filter fun id =>
    some id ≠ breakLabel.map (·.id) ∧ some id ≠ continueLabel.map (·.id)
  | .protect b hs c => b.escapes ++ (Expr.escapesHandlers hs ++ Expr.escapesCleanup c)
  | .label _ e => Expr.escapesOption e
  | .goto _ _ l e => l.id :: Expr.escapesOption e
  | .switch _ v cs e _ => v.escapes ++ (Expr.escapesCases cs ++ Expr.escapesOption e)
  | .invoke _ t args => t.escapes ++ Expr.escapesAll args

def Expr.escapesOption : Option Expr → List Nat
  | none => []
  | some e => e.escapes

def Expr.escapesAll : List Expr → List Nat
  | [] => []
  | e :: es => e.escapes ++ Expr.escapesAll es

def Expr.escapesBindings : List Binding → List Nat
  | [] => []
  | .mk _ e :: bs => e.escapes ++ Expr.escapesBindings bs

def Expr.escapesHandlers : List CatchClause → List Nat
  | [] => []
  | .mk _ _ _ body :: hs => body.escapes ++ Expr.escapesHandlers hs

def Expr.escapesCleanup : Cleanup → List Nat
  | .none => []
  | .finally e => e.escapes
  | .fault e => e.escapes

def Expr.escapesCases : List SwitchCase → List Nat
  | [] => []
  | .mk tests body :: cs => Expr.escapesAll tests ++ (body.escapes ++ Expr.escapesCases cs)

end

theorem Expr.mem_escapesAll {es : List Expr} {id : Nat} :
    id ∈ Expr.escapesAll es ↔ ∃ e ∈ es, id ∈ e.escapes := by
  induction es with
  | nil => simp [Expr.escapesAll]
  | cons e es ih => simp [Expr.escapesAll, ih]

theorem Expr.filter_mem_children {e f : Expr} {k : CatchClause} (hk : k ∈ e.handlers)
    (hf : k.filter = some f) : f ∈ e.children := by
  cases e with
  | protect b hs c =>
    refine List.mem_cons_of_mem _ (List.mem_append_left _ (List.mem_flatMap.2 ⟨k, hk, ?_⟩))
    simp [hf]
  | _ => simp [Expr.handlers] at hk

theorem Expr.body_mem_children {e : Expr} {k : CatchClause} (hk : k ∈ e.handlers) :
    k.body ∈ e.children := by
  cases e with
  | protect b hs c =>
    refine List.mem_cons_of_mem _ (List.mem_append_left _ (List.mem_flatMap.2 ⟨k, hk, ?_⟩))
    simp
  | _ => simp [Expr.handlers] at hk

/-! ## How actions go on -/

variable {α β : Type}

namespace EvalM

/-- Goes on after an action that ended by a value, by a jump or by an exception. After any
other failure nothing more happens. -/
def resume (x : EvalM α) (next : α → EvalM β) (jumped : Label → Value → EvalM β)
    (thrown : Value → EvalM β) : EvalM β := fun s =>
  match x s with
  | .ok a s => next a s
  | .error (.jump l v) s => jumped l v s
  | .error (.fault (.thrown v)) s => thrown v s
  | .error exit s => .error exit s

/-- Whether an action, as a filter, accepts. -/
def asFilter (x : EvalM Value) : EvalM Bool := fun s =>
  match x s with
  | .ok (.bool true) s => .ok true s
  | .ok _ s => .ok false s
  | .error (.fault .outOfFuel) s => .error (.fault .outOfFuel) s
  | .error (.fault .outOfTable) s => .error (.fault .outOfTable) s
  | .error _ s => .ok false s

/-- A jump goes on outwards. -/
abbrev jumpOn (l : Label) (v : Value) : EvalM β := throw (.jump l v)

/-- An exception goes on outwards. -/
abbrev throwOn (v : Value) : EvalM β := fault (.thrown v)

end EvalM

namespace Walk

open EvalM

variable {c : Walk}

/-- A block goes on behind the label that a jump names, if the label is one of its own. -/
theorem statements_eq {all : List Expr} {n : Nat} {e : Expr} {rest : List Expr} {v : Value} :
    c.statements all (n + 1) (e :: rest) v = (c.valueOf e).resume (c.statements all n rest)
      (fun l v => match all.findIdx? (·.isLabelOf l) with
        | some i => c.statements all n (all.drop (i + 1)) v
        | none => jumpOn l v) throwOn := by
  funext s
  simp only [statements, resume]
  cases c.valueOf e s with
  | ok v s => rfl
  | error x s =>
    cases x with
    | jump l v =>
      dsimp only
      cases all.findIdx? (·.isLabelOf l) <;> rfl
    | fault f => cases f <;> rfl

theorem loop_eq {body : Expr} {breakLabel continueLabel : Option Label} {n : Nat} :
    c.loop body breakLabel continueLabel (n + 1) = (c.valueOf body).resume
      (fun _ => c.loop body breakLabel continueLabel n)
      (fun l v => if isTargetOf breakLabel l then pure v
        else if isTargetOf continueLabel l then c.loop body breakLabel continueLabel n
        else jumpOn l v) throwOn := by
  funext s
  simp only [loop, resume]
  cases c.valueOf body s with
  | ok v s => rfl
  | error x s =>
    cases x with
    | jump l v =>
      dsimp only
      split
      · rfl
      · split <;> rfl
    | fault f => cases f <;> rfl

theorem handled_eq {body : Expr} {hs : List CatchClause} :
    c.handled body hs = (c.valueOf body).resume pure jumpOn
      (fun v => c.firstHandler v hs >>= (·.elim (throwOn v) pure)) := by
  funext s
  simp only [handled, resume]
  cases c.valueOf body s with
  | ok v s => rfl
  | error x s =>
    cases x with
    | jump l v => rfl
    | fault f =>
      cases f with
      | thrown v =>
        show _ = EStateM.bind (c.firstHandler v hs) _ s
        simp only [EStateM.bind]
        cases c.firstHandler v hs s with
        | ok o s => cases o <;> rfl
        | error x s => rfl
      | _ => rfl

theorem protect_finally {body block : Expr} {hs : List CatchClause} :
    c.protect body hs (.finally block) = (c.handled body hs).resume
      (fun v => c.valueOf block >>= fun _ => pure v) (fun l v => c.thenLeave block (.jump l v))
      (fun v => c.thenLeave block (.fault (.thrown v))) := by
  funext s
  simp only [protect, resume]
  cases c.handled body hs s with
  | ok v s =>
    show _ = EStateM.bind (c.valueOf block) _ s
    simp only [EStateM.bind]
    cases c.valueOf block s <;> rfl
  | error x s =>
    cases x with
    | jump l v => rfl
    | fault f => cases f <;> rfl

theorem protect_fault {body block : Expr} {hs : List CatchClause} :
    c.protect body hs (.fault block) = (c.handled body hs).resume pure jumpOn
      (fun v => c.thenLeave block (.fault (.thrown v))) := by
  funext s
  simp only [protect, resume]
  cases c.handled body hs s with
  | ok v s => rfl
  | error x s =>
    cases x with
    | jump l v => rfl
    | fault f => cases f <;> rfl

end Walk

/-! ## Rules -/

open EvalM in
/-- A relation between two actions that is kept by the steps of which evaluation is made. In
`R I x x'`, the actions jump at most to the labels `I`. Trees are fit for the rule if they
satisfy `K`. -/
structure Walk.Rule (K : Expr → Prop)
    (R : List Nat → ∀ {α : Type}, EvalM α → EvalM α → Prop) : Prop where
  child {e d : Expr} : K e → d ∈ e.children → K d
  mono {I J : List Nat} {α : Type} {x x' : EvalM α} : R I x x' → I ⊆ J → R J x x'
  pure {I : List Nat} {α : Type} (a : α) : R I (Pure.pure a) (Pure.pure a)
  bind {I : List Nat} {α β : Type} {x x' : EvalM α} {f f' : α → EvalM β} :
    R I x x' → (∀ a, R I (f a) (f' a)) → R I (x >>= f) (x' >>= f')
  get {I : List Nat} : R I (get : EvalM EvalState) get
  fault {I : List Nat} {α : Type} (f : Fault) : R I (fault f : EvalM α) (EvalM.fault f)
  jump {I : List Nat} {α : Type} {l : Label} (v : Value) :
    l.id ∈ I → R I (jumpOn l v : EvalM α) (jumpOn l v)
  ofRun {I : List Nat} {α : Type} (x : RunM α) : R I (ofRun x) (EvalM.ofRun x)
  inScope {I : List Nat} {α : Type} {x x' : EvalM α} (bindings : List (Nat × Nat)) :
    R I x x' → R I (inScope bindings x) (EvalM.inScope bindings x')
  whileCaught {I : List Nat} {α : Type} {x x' : EvalM α} (v : Value) :
    R I x x' → R I (whileCaught v x) (EvalM.whileCaught v x')
  resume {I J : List Nat} {α β : Type} {x x' : EvalM α} {f f' : α → EvalM β}
    {g g' : Label → Value → EvalM β} {h h' : Value → EvalM β} : R J x x' →
    (∀ a, R I (f a) (f' a)) → (∀ l v, l.id ∈ J → R I (g l v) (g' l v)) →
      (∀ v, R I (h v) (h' v)) → R I (x.resume f g h) (x'.resume f' g' h')
  /-- Filters may jump to any labels. -/
  filter {I J : List Nat} {e f : Expr} {k : CatchClause} {x x' : EvalM Value} : K e →
    k ∈ e.handlers → k.filter = some f → R J x x' → R I x.asFilter x'.asFilter

namespace Walk.Rule

open EvalM

variable {K : Expr → Prop} {R : List Nat → ∀ {α : Type}, EvalM α → EvalM α → Prop}
  (hR : Walk.Rule K R) {c : Walk} {val : Expr → EvalM Value}
  (hv : ∀ d, K d → R d.escapes (c.valueOf d) (val d)) {I : List Nat}

include hR

theorem defect (d : Defect) : R I (EvalM.defect d : EvalM α) (EvalM.defect d) := hR.fault _

omit hR in
theorem ite {b : Prop} [Decidable b] {x x' y y' : EvalM α} (hx : R I x x') (hy : R I y y') :
    R I (if b then x else y) (if b then x' else y') := by
  split
  · exact hx
  · exact hy

theorem cellOf {v : Var} : R I (EvalM.cellOf v) (EvalM.cellOf v) := by
  refine hR.bind hR.get fun s => ?_
  cases s.scopes.get? v.id with
  | some ref => exact hR.pure ref
  | none => exact hR.defect _

theorem throwAgain : R I (Walk.throwAgain : EvalM α) Walk.throwAgain := by
  refine hR.bind hR.get fun s => ?_
  cases s.caught with
  | nil => exact hR.ofRun _
  | cons v _ => exact hR.fault _

include hv

/-! ### Operands -/

theorem valueOf {d : Expr} (hd : K d) (hI : d.escapes ⊆ I) : R I (c.valueOf d) (val d) :=
  hR.mono (hv d hd) hI

theorem truthOf {d : Expr} (hd : K d) (hI : d.escapes ⊆ I) :
    R I (c.truthOf d) (Walk.truthOf { c with valueOf := val } d) := by
  refine hR.bind (hR.valueOf hv hd hI) fun v => ?_
  cases v.bool? with
  | some b => exact hR.pure b
  | none => exact hR.defect _

theorem valuesOf {es : List Expr} (hes : ∀ e ∈ es, K e) (hI : Expr.escapesAll es ⊆ I) :
    R I (c.valuesOf es) (Walk.valuesOf { c with valueOf := val } es) := by
  induction es with
  | nil => exact hR.pure []
  | cons e es ih =>
    simp only [Expr.escapesAll, List.append_subset] at hI
    exact hR.bind (hR.valueOf hv (hes e (by simp)) hI.1) fun _ =>
      hR.bind (ih (fun e he => hes e (by simp [he])) hI.2) fun _ => hR.pure _

theorem receiverOf {d : Expr} {b : Bool} (hd : K d) (hI : d.escapes ⊆ I) :
    R I (c.receiverOf d b) (Walk.receiverOf { c with valueOf := val } d b) := by
  unfold Walk.receiverOf
  split
  · exact ite (hR.bind hR.cellOf fun _ => hR.pure _)
      (hR.bind (hR.valueOf hv hd hI) fun _ => hR.pure _)
  · exact hR.bind (hR.valueOf hv hd hI) fun _ => hR.pure _

theorem subscriptOf {d : Expr} {ix : Option Indexer} {args : List Expr} {b : Bool} (hd : K d)
    (hargs : ∀ e ∈ args, K e) (hI : d.escapes ⊆ I) (hI' : Expr.escapesAll args ⊆ I) :
    R I (c.subscriptOf d ix args b) (Walk.subscriptOf { c with valueOf := val } d ix args b) := by
  unfold Walk.subscriptOf
  cases ix with
  | none =>
    refine hR.bind (hR.valueOf hv hd hI) fun _ => ?_
    split
    · simp only [Expr.escapesAll, List.append_nil] at hI'
      exact hR.bind (hR.valueOf hv (hargs _ (by simp)) hI') fun _ => hR.pure _
    · exact hR.defect _
  | some ix =>
    exact hR.bind (hR.receiverOf hv hd hI) fun _ =>
      hR.bind (hR.valuesOf hv hargs hI') fun _ => hR.pure _

theorem placeOf {d : Expr} (hd : K d) (hI : d.escapes ⊆ I) :
    R I (c.placeOf d) (Walk.placeOf { c with valueOf := val } d) := by
  cases d with
  | var v => exact hR.bind hR.cellOf fun _ => hR.pure _
  | member o m =>
    exact hR.bind (hR.receiverOf hv (hR.child hd (by simp [Expr.children])) hI) fun _ => hR.pure _
  | index t o ix args =>
    simp only [Expr.escapes, List.append_subset] at hI
    exact hR.subscriptOf hv (hR.child hd (by simp [Expr.children]))
      (fun e he => hR.child hd (by simp [Expr.children, he])) hI.1 hI.2
  | _ => exact hR.defect _

theorem setMembers {ref : Nat} {bs : List Binding} (hbs : ∀ b ∈ bs, K b.value)
    (hI : Expr.escapesBindings bs ⊆ I) :
    R I (c.setMembers ref bs) (Walk.setMembers { c with valueOf := val } ref bs) := by
  induction bs with
  | nil => exact hR.pure ()
  | cons b bs ih =>
    obtain ⟨m, e⟩ := b
    simp only [Expr.escapesBindings, List.append_subset] at hI
    exact hR.bind (hR.valueOf hv (hbs (.mk m e) (by simp)) hI.1) fun _ =>
      hR.bind (hR.ofRun _) fun _ => ih (fun b hb => hbs b (by simp [hb])) hI.2

/-! ### Control flow -/

/-- A block takes the jumps to its own statements. -/
theorem statements {all : List Expr} (hall : ∀ e ∈ all, K e)
    (hI : ∀ id ∈ Expr.escapesAll all, some id ∉ all.map (·.labelId?) → id ∈ I) (n : Nat)
    (rest : List Expr) (hrest : rest ⊆ all) (v : Value) :
    R I (c.statements all n rest v)
      (Walk.statements { c with valueOf := val } all n rest v) := by
  induction n generalizing rest v with
  | zero =>
    cases rest with
    | nil => exact hR.pure v
    | cons => exact hR.fault _
  | succ n ih =>
    cases rest with
    | nil => exact hR.pure v
    | cons e rest =>
      rw [statements_eq, statements_eq]
      have he : e ∈ all := hrest (by simp)
      refine hR.resume (hv e (hall e he)) (fun v => ih rest (fun _ h => hrest (by simp [h])) v)
        (fun l v hl => ?_) fun v => hR.fault _
      cases hi : all.findIdx? (·.isLabelOf l) with
      | some i => exact ih _ (List.drop_subset _ _) v
      | none =>
        -- a label that no statement places is one the block does not hold
        refine hR.jump v (hI l.id (Expr.mem_escapesAll.2 ⟨e, he, hl⟩) fun h => ?_)
        obtain ⟨d, hd, hl⟩ := List.mem_map.1 h
        have := List.findIdx?_eq_none_iff.1 hi d hd
        simp [Expr.isLabelOf_iff.2 hl] at this

omit hv in
theorem freshVariables (vars : List Var) :
    R I (Walk.freshVariables vars) (Walk.freshVariables vars) := by
  induction vars with
  | nil => exact hR.pure []
  | cons v vs ih => exact hR.bind (hR.ofRun _) fun _ => hR.bind ih fun _ => hR.pure _

theorem block {t : Ty} {vars : List Var} {es : List Expr} (h : K (.block t vars es))
    (hI : (Expr.block t vars es).escapes ⊆ I) :
    R I (c.block vars es) (Walk.block { c with valueOf := val } vars es) := by
  have hes : ∀ e ∈ es, K e := fun e he => hR.child h he
  refine hR.bind (hR.freshVariables vars) fun bindings => hR.inScope bindings ?_
  refine hR.statements hv hes (fun id hid hl => hI ?_) _ es (fun _ h => h) .unit
  rw [Expr.escapes, List.mem_filter]
  exact ⟨hid, decide_eq_true hl⟩

theorem loop {b : Expr} {breakLabel continueLabel : Option Label}
    (h : K (.loop b breakLabel continueLabel))
    (hI : (Expr.loop b breakLabel continueLabel).escapes ⊆ I) (n : Nat) :
    R I (c.loop b breakLabel continueLabel n)
      (Walk.loop { c with valueOf := val } b breakLabel continueLabel n) := by
  have target : ∀ {o : Option Label} {l : Label}, isTargetOf o l = false →
      some l.id ≠ o.map (·.id) := by
    intro o l ho
    cases o with
    | none => simp
    | some t => simpa [isTargetOf] using Ne.symm (by simpa [isTargetOf] using ho)
  induction n with
  | zero => exact hR.fault _
  | succ n ih =>
    rw [loop_eq, loop_eq]
    refine hR.resume (hv b (hR.child h (by simp [Expr.children]))) (fun _ => ih)
      (fun l v hl => ?_) fun v => hR.fault _
    cases hbreak : isTargetOf breakLabel l with
    | true => exact hR.pure v
    | false =>
      cases hcontinue : isTargetOf continueLabel l with
      | true => exact ih
      | false =>
        refine hR.jump v (hI ?_)
        rw [Expr.escapes, List.mem_filter]
        exact ⟨hl, decide_eq_true ⟨target hbreak, target hcontinue⟩⟩

theorem accepts {e : Expr} {k : CatchClause} (he : K e) (hk : k ∈ e.handlers) :
    R I (c.accepts k.filter) (Walk.accepts { c with valueOf := val } k.filter) := by
  cases hf : k.filter with
  | none => exact hR.pure true
  | some f => exact hR.filter he hk hf (hv f (hR.child he (Expr.filter_mem_children hk hf)))

theorem handler {e : Expr} {k : CatchClause} (he : K e) (hk : k ∈ e.handlers)
    (hI : k.body.escapes ⊆ I) (v : Value) :
    R I (c.handler v k) (Walk.handler { c with valueOf := val } v k) := by
  have body : ∀ bindings, R I (EvalM.inScope bindings (do
      if ← c.accepts k.filter then
        return some (← EvalM.whileCaught v (c.valueOf k.body))
      else return none)) (EvalM.inScope bindings (do
      if ← Walk.accepts { c with valueOf := val } k.filter then
        return some (← EvalM.whileCaught v (val k.body))
      else return none)) := fun bindings =>
    hR.inScope bindings <| hR.bind (hR.accepts hv he hk) fun _ => ite
      (hR.bind (hR.whileCaught v (hR.valueOf hv (hR.child he (Expr.body_mem_children hk)) hI))
        fun _ => hR.pure _) (hR.pure none)
  unfold Walk.handler
  cases k.var with
  | none => exact hR.bind (hR.pure []) body
  | some x => exact hR.bind (hR.ofRun _) fun _ => hR.bind (hR.pure _) body

theorem firstHandler {e : Expr} (he : K e) (hs : List CatchClause) (hhs : hs ⊆ e.handlers)
    (hI : Expr.escapesHandlers hs ⊆ I) (v : Value) :
    R I (c.firstHandler v hs) (Walk.firstHandler { c with valueOf := val } v hs) := by
  induction hs with
  | nil => exact hR.pure none
  | cons k hs ih =>
    obtain ⟨t, x, f, b⟩ := k
    simp only [Expr.escapesHandlers, List.append_subset] at hI
    have ih := ih (fun _ h => hhs (by simp [h])) hI.2
    refine ite (hR.bind (hR.handler hv he (hhs (by simp)) hI.1 v) fun o => ?_) ih
    cases o with
    | some x => exact hR.pure (some x)
    | none => exact ih

theorem handled {b : Expr} {hs : List CatchClause} {k : Cleanup} (h : K (.protect b hs k))
    (hI : b.escapes ⊆ I) (hI' : Expr.escapesHandlers hs ⊆ I) :
    R I (c.handled b hs) (Walk.handled { c with valueOf := val } b hs) := by
  rw [handled_eq, handled_eq]
  refine hR.resume (hR.valueOf hv (hR.child h (by simp [Expr.children])) hI) hR.pure
    (fun l v hl => hR.jump v hl) fun v => ?_
  refine hR.bind (hR.firstHandler hv h hs (fun _ h => h) hI' v) fun o => ?_
  cases o with
  | some x => exact hR.pure x
  | none => exact hR.fault _

theorem protect {b : Expr} {hs : List CatchClause} {k : Cleanup} (h : K (.protect b hs k))
    (hI : (Expr.protect b hs k).escapes ⊆ I) :
    R I (c.protect b hs k) (Walk.protect { c with valueOf := val } b hs k) := by
  simp only [Expr.escapes, List.append_subset] at hI
  obtain ⟨hb, hhs, hk⟩ := hI
  have handled := hR.handled hv h hb hhs
  -- what a cleanup block ends with happens after the block
  have leave : ∀ e, k.block? = some e → e.escapes ⊆ I → ∀ {β : Type} {y : Value → EvalM β},
      (∀ v, R I (y v) (y v)) → R I (c.valueOf e >>= y) (val e >>= y) := fun e he heI _ _ hy =>
    hR.bind (hR.valueOf hv (hR.child h (by simp [Expr.children, he])) heI) hy
  cases k with
  | none => exact handled
  | «finally» e =>
    rw [protect_finally, protect_finally]
    exact hR.resume handled (fun v => leave e rfl hk fun _ => hR.pure v)
      (fun l v hl => leave e rfl hk fun _ => hR.jump v hl)
      fun v => leave e rfl hk fun _ => hR.fault _
  | fault e =>
    rw [protect_fault, protect_fault]
    exact hR.resume handled hR.pure (fun l v hl => hR.jump v hl)
      fun v => leave e rfl hk fun _ => hR.fault _

theorem matchesTest {ty : Ty} {v : Value} {m : Option Method} {tests : List Expr}
    (htests : ∀ e ∈ tests, K e) (hI : Expr.escapesAll tests ⊆ I) :
    R I (c.matchesTest ty v m tests)
      (Walk.matchesTest { c with valueOf := val } ty v m tests) := by
  induction tests with
  | nil => exact hR.pure false
  | cons e es ih =>
    simp only [Expr.escapesAll, List.append_subset] at hI
    refine hR.bind (hR.valueOf hv (htests e (by simp)) hI.1) fun _ =>
      hR.bind (hR.ofRun _) fun p => ?_
    have ih := ih (fun e he => htests e (by simp [he])) hI.2
    dsimp only
    split
    · exact hR.pure true
    · exact ih

/-- What is done with the body of a case is done with the body of one of the cases. -/
theorem caseFor {ty : Ty} {v : Value} {m : Option Method} {cs : List SwitchCase}
    {next next' : Option Expr → EvalM Value} (hcs : ∀ k ∈ cs, ∀ e ∈ k.tests, K e)
    (hI : Expr.escapesCases cs ⊆ I) (hnone : R I (next none) (next' none))
    (hsome : ∀ k ∈ cs, k.body.escapes ⊆ I → R I (next (some k.body)) (next' (some k.body))) :
    R I (c.caseFor ty v m cs >>= next)
      (Walk.caseFor { c with valueOf := val } ty v m cs >>= next') := by
  induction cs with
  | nil => exact hnone
  | cons k cs ih =>
    obtain ⟨tests, body⟩ := k
    simp only [Expr.escapesCases, List.append_subset] at hI
    obtain ⟨htests, hbody, hcases⟩ := hI
    rw [Walk.caseFor, Walk.caseFor, bind_assoc, bind_assoc]
    refine hR.bind (hR.matchesTest hv (hcs (.mk tests body) (by simp)) htests) fun b => ?_
    cases b with
    | true => exact hsome (.mk tests body) (by simp) hbody
    | false => exact ih (fun k hk => hcs k (by simp [hk])) hcases fun k hk => hsome k (by simp [hk])

theorem switch {t : Ty} {e : Expr} {cs : List SwitchCase} {o : Option Expr} {m : Option Method}
    (h : K (.switch t e cs o m)) (hI : (Expr.switch t e cs o m).escapes ⊆ I) :
    R I (c.switch t e cs o m) (Walk.switch { c with valueOf := val } t e cs o m) := by
  simp only [Expr.escapes, List.append_subset] at hI
  obtain ⟨he, hcs, ho⟩ := hI
  have child : ∀ k ∈ cs, ∀ d ∈ k.tests ++ [k.body], K d := fun k hk d hd =>
    hR.child h (by simpa [Expr.children] using .inr (.inl ⟨k, hk, by simpa using hd⟩))
  refine hR.bind (hR.valueOf hv (hR.child h (by simp [Expr.children])) he) fun v =>
    hR.caseFor hv (fun k hk d hd => child k hk d (by simp [hd])) hcs ?_ fun k hk hb =>
      hR.valueOf hv (child k hk _ (by simp)) hb
  cases o with
  | some d => exact hR.valueOf hv (hR.child h (by simp [Expr.children])) ho
  | none => exact ite (hR.pure _) (hR.ofRun _)

/-! ### Operators -/

theorem assignApplied {t : Ty} {op base : BinaryOp} {l r : Expr} {m : Option Method}
    (h : K (.binary t op l r m)) (hl : l.escapes ⊆ I) (hr : r.escapes ⊆ I) :
    R I (c.assignApplied base l r m)
      (Walk.assignApplied { c with valueOf := val } base l r m) :=
  hR.bind (hR.placeOf hv (hR.child h (by simp [Expr.children])) hl) fun _ =>
    hR.bind (hR.ofRun _) fun _ =>
      hR.bind (hR.valueOf hv (hR.child h (by simp [Expr.children])) hr) fun _ =>
        hR.bind (hR.ofRun _) fun _ => hR.bind (hR.ofRun _) fun _ =>
          hR.bind (hR.ofRun _) fun _ => hR.pure _

theorem binary {t : Ty} {op : BinaryOp} {l r : Expr} {m : Option Method}
    (h : K (.binary t op l r m)) (hI : (Expr.binary t op l r m).escapes ⊆ I) :
    R I (c.binary t op l r m) (Walk.binary { c with valueOf := val } t op l r m) := by
  simp only [Expr.escapes, List.append_subset] at hI
  obtain ⟨hl, hr⟩ := hI
  have hlK : K l := hR.child h (by simp [Expr.children])
  have left := hR.valueOf hv hlK hl
  have right := hR.valueOf hv (hR.child h (by simp [Expr.children])) hr
  have truth := hR.truthOf hv hlK hl
  cases op with
  | assign =>
    exact hR.bind (hR.placeOf hv hlK hl) fun _ => hR.bind right fun _ =>
      hR.bind (hR.ofRun _) fun _ => hR.pure _
  | andAlso => exact hR.bind truth fun _ => ite right (hR.pure _)
  | orElse => exact hR.bind truth fun _ => ite (hR.pure _) right
  | coalesce =>
    exact hR.bind left fun _ => ite (hR.pure _) (hR.bind right fun _ => hR.ofRun _)
  | addAssign | subtractAssign | multiplyAssign | divideAssign | moduloAssign =>
    exact hR.assignApplied hv h hl hr
  | _ =>
    exact hR.bind left fun _ => hR.bind right fun _ => hR.bind (hR.ofRun _) fun _ => hR.pure _

theorem unary {t : Ty} {op : UnaryOp} {e : Expr} {m : Option Method}
    (h : K (.unary t op e m)) (hI : e.escapes ⊆ I) :
    R I (c.unary t op e m) (Walk.unary { c with valueOf := val } t op e m) := by
  have he : K e := hR.child h (by simp [Expr.children])
  have step : R I (c.stepAssign op e) (Walk.stepAssign { c with valueOf := val } op e) := by
    refine hR.bind (hR.placeOf hv he hI) fun _ => hR.bind (hR.ofRun _) fun _ => ite ?_ ?_
    · exact hR.bind (hR.pure _) fun _ => hR.bind (hR.ofRun _) fun _ => hR.pure _
    · exact hR.bind (hR.ofRun _) fun _ => hR.bind (hR.ofRun _) fun _ => hR.pure _
  refine ite step (hR.bind (hR.valueOf hv he hI) fun v => ?_)
  cases m with
  | some m => exact hR.ofRun _
  | none => exact hR.ofRun _

/-! ### Nodes -/

/-- Evaluation of every node keeps a rule: what holds of the evaluation of its parts holds of
its own. -/
theorem node {e : Expr} (he : K e) :
    R e.escapes (c.node e) (Walk.node { c with valueOf := val } e) := by
  -- What is known of a node is known of its parts.
  have child : ∀ d ∈ e.children, K d := fun d hd => hR.child he hd
  cases e with
  | constant t v => exact hR.pure v
  | var v => exact hR.bind hR.cellOf fun _ => hR.ofRun _
  | default t => exact hR.pure _
  | rethrow t => exact hR.throwAgain
  | unary t op e m => exact hR.unary hv he (fun _ h => h)
  | binary t op l r m => exact hR.binary hv he (fun _ h => h)
  | call t o m args =>
    cases o with
    | none =>
      exact hR.bind (hR.valuesOf hv child (by simp [Expr.escapes])) fun _ => hR.ofRun _
    | some o =>
      exact hR.bind (hR.receiverOf hv (child o (by simp [Expr.children]))
        (by simp [Expr.escapes, Expr.escapesOption])) fun _ =>
          hR.bind (hR.valuesOf hv (fun d hd => child d (by simp [Expr.children, hd]))
            (by simp [Expr.escapes])) fun _ => hR.ofRun _
  | new d factory args =>
    refine hR.bind (hR.valuesOf hv child (fun _ h => h)) fun _ => ?_
    cases factory <;> exact hR.ofRun _
  | member o m =>
    have ho := child o (by simp [Expr.children])
    cases m with
    | field => exact hR.bind (hR.valueOf hv ho (fun _ h => h)) fun _ => hR.ofRun _
    | property _ p =>
      exact ite (hR.bind (hR.valueOf hv ho (fun _ h => h)) fun _ => hR.ofRun _)
        (hR.bind (hR.receiverOf hv ho (fun _ h => h)) fun _ => hR.ofRun _)
  | index t o ix args =>
    exact hR.bind (hR.subscriptOf hv (child o (by simp [Expr.children]))
      (fun d hd => child d (by simp [Expr.children, hd])) (by simp [Expr.escapes])
      (by simp [Expr.escapes])) fun _ => hR.ofRun _
  | newArray t items => exact hR.bind (hR.valuesOf hv child (fun _ h => h)) fun _ => hR.ofRun _
  | newArrayBounds t n =>
    exact hR.bind (hR.valueOf hv (child n (by simp [Expr.children])) (fun _ h => h)) fun _ =>
      hR.ofRun _
  | memberInit d args bs =>
    have made : R (Expr.memberInit d args bs).escapes (c.valuesOf args) _ :=
      hR.valuesOf hv (fun d hd => child d (by simp [Expr.children, hd])) (by simp [Expr.escapes])
    have set : ∀ ref, R (Expr.memberInit d args bs).escapes (c.setMembers ref bs) _ := fun ref =>
      hR.setMembers hv (fun b hb => child b.value
        (by simpa [Expr.children] using .inr ⟨b, hb, rfl⟩)) (by simp [Expr.escapes])
    exact hR.bind (hR.bind made fun _ => hR.ofRun _) fun _ => hR.bind (hR.ofRun _) fun _ =>
      hR.bind (set _) fun _ => hR.ofRun _
  | conditional t a b k =>
    refine hR.bind (hR.truthOf hv (child a (by simp [Expr.children])) (by simp [Expr.escapes]))
      fun _ => ite ?_ ?_
    · exact hR.valueOf hv (child b (by simp [Expr.children])) (by simp [Expr.escapes])
    · exact hR.valueOf hv (child k (by simp [Expr.children])) (by simp [Expr.escapes])
  | block t vars es => exact hR.block hv he (fun _ h => h)
  | loop body b k => exact hR.loop hv he (fun _ h => h) _
  | protect body hs k => exact hR.protect hv he (fun _ h => h)
  | label l o =>
    cases o with
    | some e => exact hR.valueOf hv (child e (by simp [Expr.children])) (fun _ h => h)
    | none => exact hR.pure _
  | goto t kind l o =>
    have hl : l.id ∈ (Expr.goto t kind l o).escapes := by simp [Expr.escapes]
    cases o with
    | some e =>
      exact hR.bind (hR.valueOf hv (child e (by simp [Expr.children]))
        (by simp [Expr.escapes, Expr.escapesOption])) fun v => hR.jump v hl
    | none => exact hR.bind (hR.pure _) fun v => hR.jump v hl
  | switch t e cs o m => exact hR.switch hv he (fun _ h => h)
  | lambda l => exact hR.bind hR.get fun _ => hR.ofRun _
  | invoke t e args =>
    refine hR.bind (hR.valueOf hv (child e (by simp [Expr.children])) (by simp [Expr.escapes]))
      fun v => hR.bind (hR.valuesOf hv (fun d hd => child d (by simp [Expr.children, hd]))
        (by simp [Expr.escapes])) fun _ => ?_
    -- Anything but a function is a defect when it is invoked.
    cases v <;> first | exact hR.ofRun _ | exact hR.defect _

omit hv in
/-- A rule about one action at a time. -/
theorem node_self {e : Expr} (hv : ∀ d, K d → R d.escapes (c.valueOf d) (c.valueOf d))
    (he : K e) : R e.escapes (c.node e) (c.node e) := hR.node hv he

end Walk.Rule

end TreeCode

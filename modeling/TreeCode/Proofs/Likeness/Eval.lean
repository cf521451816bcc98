import TreeCode.Proofs.Eval.Tidy
import TreeCode.Proofs.Likeness.Host

/-!
# Evaluation side by side

Two evaluations of one expression are alike when the functions they call are. A failure
of a part for want of what the second run has more of is a failure of the whole: no
handler takes it, no cleanup block runs on it, and a filter, which would drop it, is not
there when limits differ.

Main definitions:

* `Likeness.States` — what the states of two evaluations share.
* `Likeness.Walks` — what the evaluation of a node may use, in two runs.

Main results:

* `Likeness.Walks.node` — evaluation of a node.
* `Likeness.Callers.lambda` — **two calls of a lambda are alike**.
-/

namespace TreeCode

namespace Likeness

variable {L : Likeness} {α β : Type}

variable (L) in
/-- The states of the two evaluations. -/
structure States (σ σ' : EvalState) : Prop where
  world : L.Worlds σ.world σ'.world
  scopes : σ'.scopes = σ.scopes
  caught : σ'.caught = σ.caught

variable (L) in
/-- The failures among exits after which nothing is said of the second run. -/
def Ends : Exit → Prop
  | .fault f => L.stops f
  | .jump .. => False

variable (L) in
/-- Two actions of evaluation. -/
abbrev Evals (x x' : EvalM α) : Prop := Mirrors L.Ends L.States x x'

theorem ends_cases {e : Exit} (h : L.Ends e) :
    e = .fault .outOfFuel ∧ L.bounds ∨ (∃ d m, e = .fault (.tooDeep d m)) ∧ L.limits := by
  cases e with
  | jump l v => exact h.elim
  | fault f =>
    rcases stops_cases h with ⟨rfl, hb⟩ | ⟨⟨d, m, rfl⟩, hl⟩
    · exact .inl ⟨rfl, hb⟩
    · exact .inr ⟨⟨d, m, rfl⟩, hl⟩

namespace Evals

theorem ofRun {x x' : RunM α} (h : Mirrors L.stops L.Worlds x x') :
    L.Evals (EvalM.ofRun x) (EvalM.ofRun x') := by
  intro σ σ' hσ
  have hr := h _ _ hσ.world
  simp only [EvalM.ofRun]
  generalize x σ.world = r, x' σ'.world = r' at hr ⊢
  cases hr with
  | ok hw => exact .ok ⟨hw, hσ.scopes, hσ.caught⟩
  | error hw => exact .error ⟨hw, hσ.scopes, hσ.caught⟩
  | stopped hf => exact .stopped hf

theorem inScope {x x' : EvalM α} (bindings : List (Nat × Nat)) (hx : x.Tidy) (h : L.Evals x x') :
    L.Evals (EvalM.inScope bindings x) (EvalM.inScope bindings x') := by
  intro σ σ' hσ
  have hkept := hx { σ with scopes := σ.scopes.enter.bindAll bindings }
  have hr := h { σ with scopes := σ.scopes.enter.bindAll bindings }
    { σ' with scopes := σ.scopes.enter.bindAll bindings } ⟨hσ.world, rfl, hσ.caught⟩
  simp only [EvalM.inScope, hσ.scopes]
  generalize x { σ with scopes := σ.scopes.enter.bindAll bindings } = r,
    x' { σ' with scopes := σ.scopes.enter.bindAll bindings } = r' at hkept hr ⊢
  -- The scope that was opened is there to be closed.
  cases hr with
  | ok h =>
    have hsc := hkept.scopes
    simp only [EvalM.endOf] at hsc
    simp only [EvalM.closeScope, h.scopes, hsc, Scopes.leave?_bindAll, Option.map_some]
    exact .ok ⟨h.world, rfl, h.caught⟩
  | error h =>
    have hsc := hkept.scopes
    simp only [EvalM.endOf] at hsc
    simp only [EvalM.closeScope, h.scopes, hsc, Scopes.leave?_bindAll, Option.map_some]
    exact .error ⟨h.world, rfl, h.caught⟩
  | stopped he =>
    have hsc := hkept.scopes
    simp only [EvalM.endOf] at hsc
    simp only [EvalM.closeScope, hsc, Scopes.leave?_bindAll, Option.map_some]
    exact .stopped he

theorem whileCaught {x x' : EvalM α} {v : Value} (h : L.Evals x x') :
    L.Evals (EvalM.whileCaught v x) (EvalM.whileCaught v x') := by
  intro σ σ' hσ
  have hr := h { σ with caught := v :: σ.caught } { σ' with caught := v :: σ'.caught }
    ⟨hσ.world, hσ.scopes, by rw [hσ.caught]⟩
  simp only [EvalM.whileCaught]
  generalize x { σ with caught := v :: σ.caught } = r,
    x' { σ' with caught := v :: σ'.caught } = r' at hr ⊢
  cases hr with
  | ok h => exact .ok ⟨h.world, h.scopes, by rw [h.caught]⟩
  | error h => exact .error ⟨h.world, h.scopes, by rw [h.caught]⟩
  | stopped he => exact .stopped he

/-- One level deeper the two runs are alike at the depths that they have there, and
afterwards at those that they had. -/
theorem deeper {x x' : EvalM α} {g g' : Gauge} (hg : L.Gauges g g')
    (h : ∀ d, (L.atDepth d).Evals x x') :
    L.Evals (EvalM.deeper g x) (EvalM.deeper g' x') := by
  intro σ σ' hσ
  have hdepth : σ'.world.depthAt g' = σ.world.depthAt g := hσ.world.depthAt hg
  by_cases hlow : σ.world.depthAt g < g.max
  swap
  · -- The first run is at its limit. The second one is, too, unless its limit is higher.
    rw [EvalM.deeper_full x hlow]
    rcases hg.max with hm | ⟨hl, -⟩
    · rw [EvalM.deeper_full x' (by rwa [hdepth, ← hm]), hdepth, ← hm]
      exact .error hσ
    · exact .stopped hl
  -- A limit that the first run keeps is kept by the second one.
  have hlow' : σ'.world.depthAt g' < g'.max := by
    rw [hdepth]
    rcases hg.max with hm | ⟨-, hle⟩ <;> omega
  have hback : ∀ {τ τ' : EvalState},
      (L.atDepth (L.depth.set g.counter (σ.world.depthAt g + 1))).States τ τ' →
        L.States (τ.atDepth g (σ.world.depthAt g)) (τ'.atDepth g' (σ.world.depthAt g)) := by
    intro τ τ' hτ
    have hsame : (L.depth.set g.counter (σ.world.depthAt g + 1)).set g.counter
        (σ.world.depthAt g) = L.depth := by
      rw [Depths.set_set, World.depthAt, hσ.world.depth, Depths.set_get]
    exact ⟨hτ.world.atDepth ⟨hg.max, hg.counter⟩ hsame, hτ.scopes, hτ.caught⟩
  have hr := h _ (σ.deeper g) (σ'.deeper g')
    ⟨by rw [EvalState.deeper, EvalState.deeper, hdepth]; exact hσ.world.atDepth hg rfl,
      hσ.scopes, hσ.caught⟩
  rw [EvalM.deeper_eq x hlow, EvalM.deeper_eq x' hlow', hdepth]
  generalize x (σ.deeper g) = r, x' (σ'.deeper g') = r' at hr ⊢
  cases hr with
  | ok hτ => exact .ok (hback hτ)
  | error hτ => exact .error (hback hτ)
  | stopped he => exact .stopped he

theorem cellOf (v : Var) : L.Evals (EvalM.cellOf v) (EvalM.cellOf v) := by
  refine Mirrors.get_bind fun σ σ' hσ => ?_
  rw [hσ.scopes]
  cases σ.scopes.get? v.id with
  | some ref => exact .pure ref
  | none => exact .throw _

end Evals

variable (L) in
/-- What the evaluation of a node may use, in the two runs. -/
structure Walks (c c' : Walk) : Prop where
  host : c'.host = c.host
  relays : L.limits → c.host.Relays
  gauge : L.Gauges c.gauge c'.gauge
  fuel : L.Bound c.fuel c'.fuel
  call : L.Callers c.call c'.call
  valueOf : ∀ e, L.Clear e → L.Evals (c.valueOf e) (c'.valueOf e)
  tidy : ∀ e, (c.valueOf e).Tidy

namespace Walks

open Evals (ofRun)

variable {c c' : Walk}

/-! ## Actions on the world -/

theorem callStatic (h : L.Walks c c') (m : Method) (args : List Value) :
    Mirrors L.stops L.Worlds (c.callStatic m args) (c'.callStatic m args) := by
  simp only [Walk.callStatic, h.host]
  exact h.call.callStatic h.relays h.fuel m args

theorem readReceiver (r : Receiver) : Mirrors L.stops L.Worlds r.read r.read := by
  cases r with
  | cell ref => exact RunM.readCell_mirrors ref
  | copy v => exact .pure v

theorem saveReceiver {w w' : World} (hw : L.Worlds w w') (r : Receiver) (v : Value) :
    L.Worlds (r.save v w) (r.save v w') := by
  cases r with
  | cell ref =>
    simp only [Receiver.save, hw.store]
    exact hw.withStore _
  | copy u => exact hw

theorem callAt (h : L.Walks c c') (r : Receiver) (m : Method) (args : List Value) (b : Bool) :
    Mirrors L.stops L.Worlds (c.callAt r m args b) (c'.callAt r m args b) := by
  refine Mirrors.ite (h.callStatic m args) ((readReceiver r).bind fun v => ?_)
  refine Mirrors.ite ((RunM.raise_mirrors _).bind fun _ => ?_) ?_
  -- What follows the check for null is the same with and without it.
  all_goals
    intro w w' hw
    have ho := h.call.callOn h.relays h.fuel (c.host.resolve b m v) v args hw
    simp only [h.host]
    generalize c.host.callOn c.call c.fuel (c.host.resolve b m v) v args w = o,
      c.host.callOn c'.call c'.fuel (c.host.resolve b m v) v args w' = o' at ho ⊢
    cases ho with
    | @same o _ _ hw =>
      obtain ⟨result, left⟩ := o
      cases result with
      | ok x => exact .ok (saveReceiver hw r _)
      | error f => exact .error (saveReceiver hw r _)
    | @stopped f o _ _ he hf =>
      obtain ⟨result, left⟩ := o
      obtain rfl : result = .error f := he
      exact .stopped hf

theorem combine (h : L.Walks c c') {op : BinaryOp} {lt rt : Ty} {l r : Value}
    {m : Option Method} :
    Mirrors L.stops L.Worlds (c.combine op lt l rt r m) (c'.combine op lt l rt r m) := by
  simp only [Walk.combine, h.host]
  cases m.or (op.methodNamed? c.host.catalog lt rt) with
  | none => exact RunM.ofOp_mirrors _
  | some m => exact Mirrors.ite (.pure _) ((h.callStatic m _).bind fun _ => .pure _)

theorem cast (h : L.Walks c c') {v : Value} {t u : Ty} :
    Mirrors L.stops L.Worlds (c.cast v t u) (c'.cast v t u) :=
  RunM.cast_mirrors h.fuel id v t u

theorem unaryPrimitive (h : L.Walks c c') (op : UnaryOp) (v : Value) (t u : Ty) :
    Mirrors L.stops L.Worlds (c.unaryPrimitive op v t u) (c'.unaryPrimitive op v t u) := by
  cases op with
  | throw => exact Mirrors.ite (RunM.raise_mirrors _) (.throw _)
  | unaryPlus => exact .pure v
  | convert => exact h.cast
  | arrayLength => exact RunM.arrayLength_mirrors v
  | negate | not | increment | decrement =>
    exact Mirrors.ite (.pure _) (RunM.ofOp_mirrors _)
  | _ => exact Mirrors.ite (.pure _) (.throw _)

theorem read (h : L.Walks c c') (p : Place) :
    Mirrors L.stops L.Worlds (c.read p) (c'.read p) := by
  cases p with
  | cell ref => exact RunM.readCell_mirrors ref
  | member r m =>
    cases m with
    | field _ i _ _ => exact (readReceiver r).bind fun v => RunM.field_mirrors v i
    | property _ p => exact h.callAt r p.getter [] false
  | element a i => exact RunM.element_mirrors a i
  | indexed r ix args => exact h.callAt r ix.getter args false

theorem write (h : L.Walks c c') (p : Place) (x : Value) :
    Mirrors L.stops L.Worlds (c.write p x) (c'.write p x) := by
  have hset : ∀ r args (setter : Method), Mirrors L.stops L.Worlds
      (discard (c.callAt r setter args false)) (discard (c'.callAt r setter args false)) :=
    fun r args setter => (h.callAt r setter args false).map _
  cases p with
  | cell ref => exact RunM.writeCell_mirrors ref x
  | member r m =>
    cases m with
    | field _ i _ _ =>
      exact (readReceiver r).bind fun v => (RunM.setField_mirrors v i x).bind fun v =>
        Mirrors.modify fun _ _ hw => saveReceiver hw r v
    | property _ p =>
      simp only [Walk.write]
      cases p.setter with
      | none => exact .throw _
      | some setter => exact hset r [x] setter
  | element a i => exact RunM.setElement_mirrors a i x
  | indexed r ix args =>
    simp only [Walk.write]
    cases ix.setter with
    | none => exact .throw _
    | some setter => exact hset r (args ++ [x]) setter

/-! ## Parts of nodes -/

theorem truthOf (h : L.Walks c c') {e : Expr} (he : L.Clear e) :
    L.Evals (c.truthOf e) (c'.truthOf e) := by
  refine (h.valueOf e he).bind fun v => ?_
  cases v.bool? with
  | some b => exact .pure b
  | none => exact .throw _

theorem valuesOf (h : L.Walks c c') {es : List Expr} (hes : ∀ e ∈ es, L.Clear e) :
    L.Evals (c.valuesOf es) (c'.valuesOf es) := by
  induction es with
  | nil => exact .pure []
  | cons e es ih =>
    exact (h.valueOf e (hes e (by simp))).bind fun _ =>
      (ih fun e he => hes e (by simp [he])).bind fun _ => .pure _

theorem receiverOf (h : L.Walks c c') {e : Expr} (he : L.Clear e) (b : Bool) :
    L.Evals (c.receiverOf e b) (c'.receiverOf e b) := by
  cases e with
  | var v =>
    exact Mirrors.ite ((Evals.cellOf v).bind fun _ => .pure _)
      ((h.valueOf _ he).bind fun _ => .pure _)
  | _ => exact (h.valueOf _ he).bind fun _ => .pure _

theorem subscriptOf (h : L.Walks c c') {e : Expr} (he : L.Clear e) (ix : Option Indexer)
    {args : List Expr} (hargs : ∀ a ∈ args, L.Clear a) (b : Bool) :
    L.Evals (c.subscriptOf e ix args b) (c'.subscriptOf e ix args b) := by
  cases ix with
  | none =>
    refine (h.valueOf e he).bind fun _ => ?_
    split
    · exact (h.valueOf _ (hargs _ (by simp))).bind fun _ => .pure _
    · exact .throw _
  | some ix =>
    exact (h.receiverOf he _).bind fun _ => (h.valuesOf hargs).bind fun _ => .pure _

theorem placeOf (h : L.Walks c c') {e : Expr} (he : L.Clear e) :
    L.Evals (c.placeOf e) (c'.placeOf e) := by
  cases e with
  | var v => exact (Evals.cellOf v).bind fun _ => .pure _
  | member o m =>
    exact (h.receiverOf (he.child (by simp [Expr.children])) true).bind fun _ => .pure _
  | index t o ix args =>
    exact h.subscriptOf (he.child (by simp [Expr.children])) ix
      (fun a ha => he.child (by simp [Expr.children, ha])) true
  | _ => exact .throw _

theorem setMembers (h : L.Walks c c') (ref : Nat) {bs : List Binding}
    (hbs : ∀ b ∈ bs, L.Clear b.value) :
    L.Evals (c.setMembers ref bs) (c'.setMembers ref bs) := by
  induction bs with
  | nil => exact .pure ()
  | cons b bs ih =>
    obtain ⟨m, e⟩ := b
    exact (h.valueOf e (hbs (.mk m e) (by simp))).bind fun v => (ofRun (h.write _ v)).bind fun _ =>
      ih fun b hb => hbs b (by simp [hb])

/-! ## Control flow -/

theorem statements (h : L.Walks c c') {all : List Expr} (hall : ∀ e ∈ all, L.Clear e) {n k : Nat}
    (hle : L.Bound n k) {es : List Expr} (hes : ∀ e ∈ es, L.Clear e) (v : Value) :
    L.Evals (c.statements all n es v) (c'.statements all k es v) := by
  induction n generalizing es v k with
  | zero =>
    cases es with
    | nil => cases k <;> exact .pure v
    | cons e es =>
      -- The first run is cut off: so is the second one, or nothing is said of it.
      rcases hle.zero with rfl | hb
      · exact .throw _
      · exact .stop hb
  | succ n ih =>
    obtain ⟨k, rfl, hn⟩ := hle.pred
    cases es with
    | nil => exact .pure v
    | cons e es =>
      intro σ σ' hσ
      have hr := h.valueOf e (hes e (by simp)) σ σ' hσ
      rw [Walk.statements, Walk.statements]
      dsimp only
      generalize c.valueOf e σ = r, c'.valueOf e σ' = r' at hr ⊢
      cases hr with
      | ok hσ => exact ih hn (fun e he => hes e (by simp [he])) _ _ _ hσ
      | @error x σ σ' hσ =>
        cases x with
        | fault f => exact .error hσ
        | jump l v =>
          dsimp only
          -- A jump to a label of the block goes on there; any other one leaves the block.
          cases all.findIdx? (·.isLabelOf l) with
          | some i => exact ih hn (fun e he => hall e (List.mem_of_mem_drop he)) v σ σ' hσ
          | none => exact .error hσ
      | stopped he =>
        rcases ends_cases he with ⟨rfl, hb⟩ | ⟨⟨d, m, rfl⟩, hl⟩ <;> exact .stopped he

theorem freshVariables (vars : List Var) :
    L.Evals (Walk.freshVariables vars) (Walk.freshVariables vars) := by
  induction vars with
  | nil => exact .pure []
  | cons v vs ih =>
    exact (ofRun (RunM.newCell_mirrors _)).bind fun _ => ih.bind fun _ => .pure _

theorem block (h : L.Walks c c') (vars : List Var) {es : List Expr} (hes : ∀ e ∈ es, L.Clear e) :
    L.Evals (c.block vars es) (c'.block vars es) :=
  (freshVariables vars).bind fun bindings =>
    Evals.inScope bindings (Walk.statements_tidy h.tidy _ _ _) (h.statements hes h.fuel hes .unit)

theorem loop (h : L.Walks c c') {body : Expr} (hbody : L.Clear body) (b d : Option Label) {n k : Nat}
    (hle : L.Bound n k) : L.Evals (c.loop body b d n) (c'.loop body b d k) := by
  induction n generalizing k with
  | zero =>
    rcases hle.zero with rfl | hb
    · exact .throw _
    · exact .stop hb
  | succ n ih =>
    obtain ⟨k, rfl, hn⟩ := hle.pred
    intro σ σ' hσ
    have hr := h.valueOf body hbody σ σ' hσ
    rw [Walk.loop, Walk.loop]
    dsimp only
    generalize c.valueOf body σ = r, c'.valueOf body σ' = r' at hr ⊢
    cases hr with
    | ok hσ => exact ih hn _ _ hσ
    | @error x σ σ' hσ =>
      cases x with
      | fault f => exact .error hσ
      | jump l v =>
        dsimp only
        split
        · -- The jump ends the loop.
          exact .ok hσ
        · split
          · -- The jump ends the round.
            exact ih hn σ σ' hσ
          · exact .error hσ
    | stopped he =>
      rcases ends_cases he with ⟨rfl, hb⟩ | ⟨⟨d, m, rfl⟩, hl⟩ <;> exact .stopped he

/-- A filter that is cut off does not count as declining; one that met a limit would. -/
theorem accepts (h : L.Walks c c') {filter : Option Expr} (hf : ∀ e ∈ filter, L.Clear e)
    (hnone : L.limits → filter = none) : L.Evals (c.accepts filter) (c'.accepts filter) := by
  cases filter with
  | none => exact .pure true
  | some e =>
    intro σ σ' hσ
    have hr := h.valueOf e (hf e rfl) σ σ' hσ
    simp only [Walk.accepts]
    generalize c.valueOf e σ = r, c'.valueOf e σ' = r' at hr ⊢
    cases hr with
    | @ok v σ σ' hσ => split <;> simp_all [Mirrored.ok]
    | @error x σ σ' hσ => split <;> simp_all [Mirrored.ok, Mirrored.error]
    | stopped he =>
      rcases ends_cases he with ⟨rfl, hb⟩ | ⟨-, hl⟩
      · exact .stopped he
      · cases hnone hl

theorem handler (h : L.Walks c c') (v : Value) {k : CatchClause} (hf : ∀ e ∈ k.filter, L.Clear e)
    (hnone : L.limits → k.filter = none) (hbody : L.Clear k.body) :
    L.Evals (c.handler v k) (c'.handler v k) := by
  have htidy : EvalM.Tidy (do
      if ← c.accepts k.filter then
        return some (← EvalM.whileCaught v (c.valueOf k.body))
      else return none : EvalM (Option Value)) :=
    (Walk.accepts_tidy h.tidy).bind fun _ =>
      EvalM.Tidy.ite ((h.tidy _).whileCaught.bind fun _ => .pure) .pure
  have hscoped : ∀ bindings, L.Evals (EvalM.inScope bindings (do
      if ← c.accepts k.filter then
        return some (← EvalM.whileCaught v (c.valueOf k.body))
      else return none)) (EvalM.inScope bindings (do
      if ← c'.accepts k.filter then
        return some (← EvalM.whileCaught v (c'.valueOf k.body))
      else return none)) := fun bindings =>
    Evals.inScope bindings htidy ((h.accepts hf hnone).bind fun _ =>
      Mirrors.ite ((Evals.whileCaught (h.valueOf _ hbody)).bind fun _ => .pure _) (.pure _))
  unfold Walk.handler
  cases k.var with
  | none => exact Mirrors.bind (.pure _) hscoped
  | some x =>
    exact (ofRun (RunM.newCell_mirrors v)).bind fun _ => Mirrors.bind (.pure _) hscoped

variable (L) in
/-- Filters and bodies of handlers, of which none drops that a limit was met. -/
def ClearHandlers (ks : List CatchClause) : Prop :=
  ∀ k ∈ ks, (∀ e ∈ k.filter, L.Clear e) ∧ (L.limits → k.filter = none) ∧ L.Clear k.body

theorem firstHandler (h : L.Walks c c') (v : Value) {ks : List CatchClause}
    (hks : ClearHandlers L ks) : L.Evals (c.firstHandler v ks) (c'.firstHandler v ks) := by
  induction ks with
  | nil => exact .pure none
  | cons k ks ih =>
    obtain ⟨hf, hnone, hbody⟩ := hks k (by simp)
    have ih := ih fun k hk => hks k (by simp [hk])
    refine Mirrors.ite ((h.handler v hf hnone hbody).bind fun r => ?_) ih
    cases r with
    | some x => exact .pure _
    | none => exact ih

theorem handled (h : L.Walks c c') {body : Expr} (hbody : L.Clear body) {ks : List CatchClause}
    (hks : ClearHandlers L ks) : L.Evals (c.handled body ks) (c'.handled body ks) := by
  intro σ σ' hσ
  have hr := h.valueOf body hbody σ σ' hσ
  simp only [Walk.handled]
  generalize c.valueOf body σ = r, c'.valueOf body σ' = r' at hr ⊢
  cases hr with
  | ok hσ => exact .ok hσ
  | @error x σ σ' hσ =>
    cases x with
    | jump l v => exact .error hσ
    | fault f =>
      -- Handlers are asked about exceptions only.
      cases f with
      | thrown v =>
        have hk := h.firstHandler v hks σ σ' hσ
        dsimp only
        generalize c.firstHandler v ks σ = r, c'.firstHandler v ks σ' = r' at hk ⊢
        cases hk with
        | @ok o _ _ hσ =>
          cases o with
          | some x => exact .ok hσ
          | none => exact .error hσ
        | error hσ => exact .error hσ
        | stopped he => exact .stopped he
      | _ => exact .error hσ
  | stopped he =>
    rcases ends_cases he with ⟨rfl, hb⟩ | ⟨⟨d, m, rfl⟩, hl⟩ <;> exact .stopped he

theorem protect (h : L.Walks c c') {body : Expr} (hbody : L.Clear body) {ks : List CatchClause}
    (hks : ClearHandlers L ks) {cl : Cleanup} (hcl : ∀ e ∈ cl.block?, L.Clear e) :
    L.Evals (c.protect body ks cl) (c'.protect body ks cl) := by
  intro σ σ' hσ
  have hr := h.handled hbody hks σ σ' hσ
  have hleave : ∀ e, L.Clear e → ∀ x, L.Evals (c.thenLeave e x) (c'.thenLeave e x) :=
    fun e he x => (h.valueOf e he).bind fun _ => .throw x
  simp only [Walk.protect]
  generalize c.handled body ks σ = r, c'.handled body ks σ' = r' at hr ⊢
  cases hr with
  | @ok v σ σ' hσ =>
    cases cl with
    | «finally» e =>
      have hk := h.valueOf e (hcl e rfl) σ σ' hσ
      dsimp only
      generalize c.valueOf e σ = r, c'.valueOf e σ' = r' at hk ⊢
      cases hk with
      | ok hσ => exact .ok hσ
      | error hσ => exact .error hσ
      | stopped he => exact .stopped he
    | _ => exact .ok hσ
  | @error x σ σ' hσ =>
    cases cl with
    | none => exact .error hσ
    -- The block runs on exceptions and jumps, and what was under way goes on after it.
    | «finally» e =>
      rcases x with (_ | _ | _ | _ | _ | _ | _) | ⟨l, v⟩ <;>
        first | exact hleave e (hcl e rfl) _ σ σ' hσ | exact .error hσ
    | fault e =>
      rcases x with (_ | _ | _ | _ | _ | _ | _) | ⟨l, v⟩ <;>
        first | exact hleave e (hcl e rfl) _ σ σ' hσ | exact .error hσ
  | stopped he =>
    -- No cleanup block runs on a failure that is not an exception.
    rcases ends_cases he with ⟨rfl, hb⟩ | ⟨⟨d, m, rfl⟩, hl⟩ <;> cases cl <;> exact .stopped he

/-- The case that is found is one of the cases. -/
theorem caseFor_mem {ty : Ty} {v : Value} {m : Option Method} {ks : List SwitchCase} {body : Expr}
    {σ σ' : EvalState} (h : c.caseFor ty v m ks σ = .ok (some body) σ') :
    ∃ k ∈ ks, k.body = body := by
  induction ks generalizing σ with
  | nil => cases h
  | cons k ks ih =>
    obtain ⟨tests, b⟩ := k
    rw [Walk.caseFor] at h
    simp only [bind, EStateM.bind] at h
    cases hr : c.matchesTest ty v m tests σ with
    | error e σ₁ =>
      rw [hr] at h
      cases h
    | ok matched σ₁ =>
      rw [hr] at h
      cases matched with
      | true =>
        cases h
        exact ⟨_, List.mem_cons_self, rfl⟩
      | false =>
        obtain ⟨k, hk, rfl⟩ := ih h
        exact ⟨k, List.mem_cons_of_mem _ hk, rfl⟩

theorem switch (h : L.Walks c c') (t : Ty) {e : Expr} (he : L.Clear e) {ks : List SwitchCase}
    (hks : ∀ k ∈ ks, (∀ e ∈ k.tests, L.Clear e) ∧ L.Clear k.body) {o : Option Expr}
    (ho : ∀ e ∈ o, L.Clear e) (m : Option Method) :
    L.Evals (c.switch t e ks o m) (c'.switch t e ks o m) := by
  have htests : ∀ ty v (tests : List Expr), (∀ e ∈ tests, L.Clear e) →
      L.Evals (c.matchesTest ty v m tests) (c'.matchesTest ty v m tests) := by
    intro ty v tests hts
    induction tests with
    | nil => exact .pure false
    | cons e es ih =>
      refine (h.valueOf e (hts e (by simp))).bind fun _ => (ofRun h.combine).bind fun p => ?_
      dsimp only
      split
      · exact .pure true
      · exact ih fun e he => hts e (by simp [he])
  -- The tests are tried in order, and what they lead to is a body of the switch.
  have hcases : ∀ ty v, L.Evals (c.caseFor ty v m ks) (c'.caseFor ty v m ks) := by
    intro ty v
    induction ks with
    | nil => exact .pure none
    | cons k ks ih =>
      obtain ⟨tests, body⟩ := k
      exact (htests ty v tests (hks (.mk tests body) (by simp)).1).bind fun _ =>
        Mirrors.ite (.pure _) (ih fun k hk => hks k (by simp [hk]))
  refine (h.valueOf e he).bind fun v => (hcases e.ty v).bind_of
    (P := fun r => ∀ b ∈ r, ∃ k ∈ ks, k.body = b) (fun σ r σ' hr b hb => ?_) fun r hr => ?_
  · obtain rfl : r = some b := hb
    exact caseFor_mem hr
  · -- What is evaluated next is the body of a case, or the default, if there is one.
    cases r with
    | some body =>
      obtain ⟨k, hk, rfl⟩ := hr body rfl
      exact h.valueOf _ (hks k hk).2
    | none =>
      cases o with
      | some e => exact h.valueOf e (ho e rfl)
      | none =>
        refine Mirrors.ite (.pure _) (ofRun ?_)
        exact (RunM.describe_mirrors h.fuel id v).bind fun _ => RunM.raise_mirrors _

/-! ## Nodes -/

theorem binary (h : L.Walks c c') (ty : Ty) (op : BinaryOp) {l r : Expr} (hl : L.Clear l)
    (hr : L.Clear r) (m : Option Method) :
    L.Evals (c.binary ty op l r m) (c'.binary ty op l r m) := by
  have happlied : ∀ base, L.Evals (c.assignApplied base l r m) (c'.assignApplied base l r m) :=
    fun base => (h.placeOf hl).bind fun p => (ofRun (h.read p)).bind fun _ =>
      (h.valueOf r hr).bind fun _ => (ofRun h.combine).bind fun _ => (ofRun h.cast).bind fun x =>
        (ofRun (h.write p x)).bind fun _ => .pure _
  cases op with
  | assign =>
    exact (h.placeOf hl).bind fun p => (h.valueOf r hr).bind fun x =>
      (ofRun (h.write p x)).bind fun _ => .pure _
  | andAlso => exact (h.truthOf hl).bind fun _ => Mirrors.ite (h.valueOf r hr) (.pure _)
  | orElse => exact (h.truthOf hl).bind fun _ => Mirrors.ite (.pure _) (h.valueOf r hr)
  | coalesce =>
    exact (h.valueOf l hl).bind fun _ => Mirrors.ite (.pure _)
      ((h.valueOf r hr).bind fun _ => ofRun h.cast)
  | addAssign | subtractAssign | multiplyAssign | divideAssign | moduloAssign => exact happlied _
  | _ =>
    exact (h.valueOf l hl).bind fun _ => (h.valueOf r hr).bind fun _ =>
      (ofRun h.combine).bind fun _ => .pure _

theorem unary (h : L.Walks c c') (ty : Ty) (op : UnaryOp) {e : Expr} (he : L.Clear e)
    (m : Option Method) : L.Evals (c.unary ty op e m) (c'.unary ty op e m) := by
  have hstep : L.Evals (c.stepAssign op e) (c'.stepAssign op e) := by
    -- The value of the node is the one that is written, or the one from before.
    have hlast : ∀ p x v, L.Evals
        (do EvalM.ofRun (c.write p x); return if op.isPost then v else x)
        (do EvalM.ofRun (c'.write p x); return if op.isPost then v else x) :=
      fun p x v => (ofRun (h.write p x)).bind fun _ => .pure _
    refine (h.placeOf he).bind fun p => (ofRun (h.read p)).bind fun v => ?_
    exact Mirrors.ite (Mirrors.bind (.pure _) fun x => hlast p x v)
      ((ofRun (RunM.ofOp_mirrors _)).bind fun x => hlast p x v)
  refine Mirrors.ite hstep ((h.valueOf e he).bind fun v => ?_)
  cases m with
  | some m => exact ofRun (Mirrors.ite (.pure _) (h.callStatic m [v]))
  | none => exact ofRun (h.unaryPrimitive op v e.ty ty)

theorem newInstance (h : L.Walks c c') (d : StructDef) (factory : Option Method)
    {args : List Expr} (hargs : ∀ a ∈ args, L.Clear a) :
    L.Evals (c.newInstance d factory args) (c'.newInstance d factory args) := by
  refine (h.valuesOf hargs).bind fun vs => ?_
  cases factory with
  | some m => exact ofRun (h.callStatic m vs)
  | none => exact ofRun (RunM.newStruct_mirrors d vs)

theorem throwAgain : L.Evals (Walk.throwAgain : EvalM α) Walk.throwAgain := by
  refine Mirrors.get_bind fun σ σ' hσ => ?_
  rw [hσ.caught]
  cases σ.caught with
  | nil => exact ofRun (RunM.raise_mirrors _)
  | cons v _ => exact .throw _

theorem lambda (h : L.Walks c c') {l : Lambda} (hl : L.Clear l.body) :
    L.Evals (c.lambda l) (c'.lambda l) := by
  refine Mirrors.get_bind fun σ σ' hσ => ?_
  rw [hσ.scopes, h.gauge.counter]
  exact ofRun (RunM.newFunction_mirrors (.interpreted h.gauge.max hl))

theorem invocation (h : L.Walks c c') {e : Expr} (he : L.Clear e) {args : List Expr}
    (hargs : ∀ a ∈ args, L.Clear a) : L.Evals (c.invocation e args) (c'.invocation e args) := by
  refine (h.valueOf e he).bind fun v => (h.valuesOf hargs).bind fun vs => ?_
  cases v with
  | function ref sig => exact ofRun (h.call ref vs)
  | null => exact ofRun (RunM.raise_mirrors _)
  | _ => exact .throw _

/-- Evaluation of a node. -/
theorem node (h : L.Walks c c') {e : Expr} (he : L.Clear e) :
    L.Evals (c.node e) (c'.node e) := by
  -- The parts of a clear tree are clear, so each node is put together from what is known of its parts.
  have child : ∀ d, d ∈ e.children → L.Clear d := fun d hd => he.child hd
  cases e with
  | constant t v => exact .pure v
  | var v => exact (Evals.cellOf v).bind fun ref => ofRun (RunM.readCell_mirrors ref)
  | default t => exact .pure _
  | rethrow t => exact throwAgain
  | unary t op e m => exact h.unary t op (child e (by simp [Expr.children])) m
  | binary t op l r m =>
    exact h.binary t op (child l (by simp [Expr.children])) (child r (by simp [Expr.children])) m
  | call t o m args =>
    cases o with
    | none =>
      exact (h.valuesOf fun a ha => child a (by simp [Expr.children, ha])).bind fun vs =>
        ofRun (h.callStatic m vs)
    | some o =>
      exact (h.receiverOf (child o (by simp [Expr.children])) _).bind fun r =>
        (h.valuesOf fun a ha => child a (by simp [Expr.children, ha])).bind fun vs =>
          ofRun (h.callAt r m vs _)
  | new d factory args =>
    exact h.newInstance d factory fun a ha => child a (by simp [Expr.children, ha])
  | member o m =>
    have ho := child o (by simp [Expr.children])
    cases m with
    | field _ i _ _ => exact (h.valueOf o ho).bind fun v => ofRun (RunM.field_mirrors v i)
    | property _ p =>
      exact Mirrors.ite ((h.valueOf o ho).bind fun _ => ofRun (h.callStatic p.getter []))
        ((h.receiverOf ho _).bind fun r => ofRun (h.callAt r p.getter [] false))
  | index t o ix args =>
    exact (h.subscriptOf (child o (by simp [Expr.children])) ix
      (fun a ha => child a (by simp [Expr.children, ha])) false).bind fun p => ofRun (h.read p)
  | newArray t items =>
    exact (h.valuesOf fun a ha => child a (by simp [Expr.children, ha])).bind fun vs =>
      ofRun (RunM.newArray_mirrors _)
  | newArrayBounds t n =>
    exact (h.valueOf n (child n (by simp [Expr.children]))).bind fun v =>
      ofRun (RunM.newArrayOf_mirrors _ v)
  | memberInit d args bs =>
    refine (h.newInstance d none fun a ha => child a (by simp [Expr.children, ha])).bind
      fun x => (ofRun (RunM.newCell_mirrors x)).bind fun ref =>
        (h.setMembers ref fun b hb => child _ ?_).bind fun _ => ofRun (RunM.readCell_mirrors ref)
    exact List.mem_append_right _ (List.mem_map_of_mem hb)
  | conditional t a b k =>
    exact (h.truthOf (child a (by simp [Expr.children]))).bind fun _ =>
      Mirrors.ite (h.valueOf b (child b (by simp [Expr.children])))
        (h.valueOf k (child k (by simp [Expr.children])))
  | block t vars es => exact h.block vars fun e he => child e (by simp [Expr.children, he])
  | loop body b k => exact h.loop (child body (by simp [Expr.children])) b k h.fuel
  | protect body ks cl =>
    refine h.protect (child body (by simp [Expr.children])) (fun k hk => ⟨fun e hf => ?_,
      fun hl => (he hl).filter hk, ?_⟩) fun e hcl => ?_
    · refine child e (List.mem_cons_of_mem _ (List.mem_append_left _ (List.mem_flatMap.2 ⟨k, hk, ?_⟩)))
      exact List.mem_append_left _ (Option.mem_toList.2 hf)
    · refine child _ (List.mem_cons_of_mem _ (List.mem_append_left _ (List.mem_flatMap.2 ⟨k, hk, ?_⟩)))
      simp
    · exact child e (List.mem_cons_of_mem _ (List.mem_append_right _ (Option.mem_toList.2 hcl)))
  | label l o =>
    cases o with
    | some e => exact h.valueOf e (child e (by simp [Expr.children]))
    | none => exact .pure _
  | goto t kind l o =>
    cases o with
    | some e => exact (h.valueOf e (child e (by simp [Expr.children]))).bind fun _ => .throw _
    | none => exact Mirrors.bind (.pure _) fun _ => .throw _
  | switch t e ks o m =>
    refine h.switch t (child e (by simp [Expr.children])) (fun k hk => ⟨fun d hd => ?_, ?_⟩)
      (fun d hd => ?_) m
    · refine child d (List.mem_cons_of_mem _ (List.mem_append_left _ (List.mem_flatMap.2 ⟨k, hk, ?_⟩)))
      simp [hd]
    · refine child _ (List.mem_cons_of_mem _ (List.mem_append_left _ (List.mem_flatMap.2 ⟨k, hk, ?_⟩)))
      simp
    · exact child d (List.mem_cons_of_mem _ (List.mem_append_right _ (Option.mem_toList.2 hd)))
  | lambda l => exact h.lambda (child _ (by simp [Expr.children]))
  | invoke t e args =>
    exact h.invocation (child e (by simp [Expr.children]))
      fun a ha => child a (by simp [Expr.children, ha])

end Walks

theorem freshArguments_mirrors (vars : List Var) (args : List Value) :
    Mirrors L.stops L.Worlds (freshArguments vars args) (freshArguments vars args) := by
  induction vars generalizing args with
  | nil => exact .pure []
  | cons v vs ih =>
    cases args with
    | nil => exact .pure []
    | cons a args =>
      exact (RunM.newCell_mirrors a).bind fun _ => (ih args).bind fun _ => .pure _

section Call

variable {host : Host} {call call' : Caller} {n k : Nat} {g g' : Gauge}
  (hhost : L.limits → host.Relays) (hcall : ∀ d, (L.atDepth d).Callers call call')
include hhost hcall

/-- Two evaluations of an expression are alike, at whatever depths they are. -/
theorem Callers.eval (hg : L.Gauges g g') (hle : L.Bound n k) {e : Expr} (he : L.Clear e)
    (d : Depths) : (L.atDepth d).Evals (eval host call g n e) (eval host call' g' k e) := by
  induction n generalizing k e d with
  | zero =>
    rcases hle.zero with rfl | hb
    · exact .throw _
    · exact .stop (e := Exit.fault .outOfFuel) hb
  | succ n ih =>
    obtain ⟨k, rfl, hn⟩ := hle.pred
    have hwalks : ∀ d, (L.atDepth d).Walks
        { host, gauge := g, fuel := n, call, valueOf := TreeCode.eval host call g n }
        { host, gauge := g', fuel := k, call := call', valueOf := TreeCode.eval host call' g' k } :=
      fun d => ⟨rfl, hhost, ⟨hg.max, hg.counter⟩, hn, hcall d, fun e he => ih hn he d,
        eval_tidy host call g n⟩
    exact Evals.deeper (L := L.atDepth d) ⟨hg.max, hg.counter⟩ fun d => (hwalks d).node he

theorem Callers.bodyValue (hg : L.Gauges g g') (hle : L.Bound n k) {l : Lambda}
    (hl : L.Clear l.body) : L.Evals (bodyValue host call g n l) (bodyValue host call' g' k l) := by
  intro σ σ' hσ
  have hr := Callers.eval hhost hcall hg hle hl L.depth σ σ' hσ
  simp only [TreeCode.bodyValue]
  generalize TreeCode.eval host call g n l.body σ = r,
    TreeCode.eval host call' g' k l.body σ' = r' at hr ⊢
  cases hr with
  | ok hσ => exact .ok hσ
  | @error x _ _ hσ =>
    cases x with
    | fault f => exact .error hσ
    | jump target v =>
      dsimp only
      split
      · -- The jump returns from the lambda.
        exact .ok hσ
      · exact .error hσ
  | stopped he =>
    rcases ends_cases he with ⟨rfl, hb⟩ | ⟨⟨d, i, rfl⟩, hl⟩ <;> exact .stopped he

/-- **Two calls of a lambda are alike.** -/
theorem Callers.lambda (hg : L.Gauges g g') (hle : L.Bound n k) {l : Lambda} (hl : L.Clear l.body)
    (captured : List (Nat × Nat)) (args : List Value) :
    Mirrors L.stops L.Worlds (callLambda host call n l captured g args)
      (callLambda host call' k l captured g' args) := by
  refine (RunM.requireArity_mirrors _ _).bind fun _ =>
    (freshArguments_mirrors _ _).bind fun bindings w w' hw => ?_
  have hr := Callers.bodyValue hhost hcall hg hle hl
    { world := w, scopes := (Scopes.ofList captured).enter.bindAll bindings }
    { world := w', scopes := (Scopes.ofList captured).enter.bindAll bindings } ⟨hw, rfl, rfl⟩
  generalize TreeCode.bodyValue host call g n l
      { world := w, scopes := (Scopes.ofList captured).enter.bindAll bindings } = r,
    TreeCode.bodyValue host call' g' k l
      { world := w', scopes := (Scopes.ofList captured).enter.bindAll bindings } = r' at hr ⊢
  cases hr with
  | ok hσ => exact .ok hσ.world
  | @error x _ _ hσ =>
    cases x with
    | fault f => exact .error hσ.world
    | jump target v => exact .error hσ.world
  | stopped he =>
    rcases ends_cases he with ⟨rfl, hb⟩ | ⟨⟨d, i, rfl⟩, hl⟩
    · exact .stopped (e := Fault.outOfFuel) hb
    · exact .stopped (e := Fault.tooDeep d i) hl

end Call

end Likeness

end TreeCode

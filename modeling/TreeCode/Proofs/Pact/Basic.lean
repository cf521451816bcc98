import TreeCode.Proofs.Eval.Tidy
import TreeCode.Proofs.Lower.Node
import TreeCode.Proofs.Machine.Home

/-!
# Pacts

A pact relates direct evaluation to the machines that run the code of a unit. It says
when two states agree, in a frame that stays the same while a node is carried out and
with a state of knowledge that only grows. What a node is to the two runs is then said
once, and how nodes are put together does not depend on what the pact relates.

Main definitions:

* `Pact` — how the two runs are related.
* `Pact.Meets` — the machines meet a result of evaluation.
* `Pact.Agrees`, `Pact.Tests` — the code of a node for its value, or as a test, does
  what evaluating the node does.

Main results:

* `Pact.Meets.bind` — evaluation goes on with a value that the machines have met.
* `Pact.agrees_of_node`, `Pact.tests_of_node` — a node one level deeper.
-/

namespace TreeCode

open Draft Lower

/-- The world with another number for the next exception. -/
def World.stamped (w : World) (n : Nat) : World := { w with store := { w.store with stamps := n } }

/-- How direct evaluation and machines that run a finished draft are related. -/
structure Pact where
  host : Host
  /-- How direct evaluation calls functions. -/
  call : Caller
  gauge : Gauge
  /-- The machines, by their bound. -/
  machines : Nat → Machine
  env : LowerEnv
  final : Draft
  record : ClosureRecord
  /-- What stays while a node is carried out. -/
  Frame : Type
  /-- What is known of the two runs. -/
  State : Type
  le : State → State → Prop
  /-- Two states agree. -/
  holds : Frame → State → EvalState → MachineState → Prop
  /-- Two worlds agree after a failure. -/
  broken : State → World → World → Prop
  /-- The frame has what code behind a draft may use. -/
  suits : Frame → Draft → Prop
  /-- Two values of a type stand for each other. -/
  fits : State → Ty → Value → Value → Prop
  /-- Failures of evaluation that the machines need not meet. -/
  excused : Fault → Prop
  follows : ∀ k, (machines k).Follows final
  recorded : ∀ k, (machines k).record = record
  le_refl : ∀ a, le a a
  le_trans : ∀ {a b c}, le a b → le b c → le a c
  holds_moved : ∀ {G a σ μ} (p : Nat) (st : List Value), holds G a σ μ → holds G a σ (μ.movedTo p st)
  holds_depth : ∀ {G a} {σ : EvalState} {μ} (d : Nat), holds G a σ μ →
    holds G a (σ.atDepth gauge d) μ
  broken_depth : ∀ {a} {w w' : World} (d : Depths), broken a w w' → broken a { w with depth := d } w'
  suits_step : ∀ {G s t P I}, suits G s → Step True .blank P I s t → suits G t
  fits_mono : ∀ {a b t v v'}, le a b → fits a t v v' → fits b t v v'
  fits_bool : ∀ {a v v'}, fits a .bool v v' ↔ ∃ b, v = .bool b ∧ v' = .bool b
  fits_void : ∀ {a v v'}, fits a .void v v'
  /-- Exceptions are numbered alike. -/
  stamps : ∀ {G a σ μ}, holds G a σ μ → μ.world.store.stamps = σ.world.store.stamps
  /-- A failure may leave another number. -/
  broken_stamped : ∀ {G a σ μ} (n : Nat), holds G a σ μ →
    ∃ b, le a b ∧ broken b (σ.world.stamped n) (μ.world.stamped n)
  /-- The frame with a slot that keeps its value. -/
  freeze : Frame → Nat → Value → Frame
  /-- A slot that the code has not used yet may be frozen. -/
  holds_freeze : ∀ {G a σ μ s k} (v : Value), holds G a σ μ → suits G s → s.numLocals ≤ k →
    k < final.numLocals → k < μ.locals.size ∧ holds (freeze G k v) a σ (μ.putSlot k v)
  holds_frozen : ∀ {G a σ μ k v}, holds (freeze G k v) a σ μ →
    μ.locals[k]? = some v ∧ holds G a σ μ
  suits_freeze : ∀ {G s k} (v : Value), suits G s → k < s.numLocals → suits (freeze G k v) s

/-- The tree places no label and jumps to none, and its blocks list distinct variables. -/
def Expr.Neat (e : Expr) : Prop := ∀ D, ∀ m ∈ e.mentions D, m.Suits True .blank []

namespace Pact

variable (P : Pact)

/-- What evaluation of a node may use, at a bound. -/
def walk (n : Nat) : Walk where
  host := P.host
  gauge := P.gauge
  fuel := n
  call := P.call
  valueOf := eval P.host P.call P.gauge n

/-- There is room to evaluate a tree of height `h` at a bound, as far as cuts matter. -/
structure Room (n : Nat) (σ : EvalState) (h : Nat) : Prop where
  depth : (∀ d m, P.excused (.tooDeep d m)) ∨ σ.world.depthAt P.gauge + h ≤ P.gauge.max
  bound : P.excused .outOfFuel ∨ h ≤ n

/-- The machines meet a result of evaluation: they come to a state as `Q` says for a value,
and fail in the same way. -/
def Meets {α : Type} (a : P.State) (μ : MachineState) (r : EStateM.Result Exit EvalState α)
    (Q : α → EvalState → MachineState → Prop) : Prop :=
  match r with
  | .ok v σ => Comes P.machines μ (Q v σ)
  | .error (.fault f) σ => P.excused f ∨
      Fails P.machines μ f fun μ' => ∃ b, P.le a b ∧ P.broken b σ.world μ'.world
  | .error (.jump ..) _ => False

variable {P}

namespace Meets

variable {α β : Type} {a b : P.State} {μ μ' : MachineState} {r : EStateM.Result Exit EvalState α}
  {Q Q' : α → EvalState → MachineState → Prop}

theorem of_comes {R : MachineState → Prop} (h : Comes P.machines μ R)
    (h' : ∀ μ', R μ' → P.Meets a μ' r Q) : P.Meets a μ r Q := by
  obtain ⟨N, c, μ', hgo, hR⟩ := h
  have hcomes : Comes P.machines μ (· = μ') := ⟨N, c, μ', hgo, rfl⟩
  have h' := h' μ' hR
  unfold Meets at h' ⊢
  split at h'
  · exact hcomes.bind fun _ hμ => hμ ▸ h'
  · exact h'.imp_right fun h' => Fails.of_comes hcomes fun _ hμ => hμ ▸ h'
  · exact h'

theorem weaken (h : P.Meets b μ r Q) (hab : P.le a b) : P.Meets a μ r Q := by
  unfold Meets at h ⊢
  split at h
  · exact h
  · exact h.imp_right fun h => h.mono fun μ' ⟨c, hbc, hc⟩ => ⟨c, P.le_trans hab hbc, hc⟩
  · exact h

/-- The machines go on after a value. -/
theorem after (h : P.Meets a μ r Q)
    (hQ : ∀ v σ μ', Q v σ μ' → Comes P.machines μ' (Q' v σ)) : P.Meets a μ r Q' := by
  unfold Meets at h ⊢
  split at h
  · exact h.bind (hQ _ _)
  · exact h
  · exact h

theorem mono (h : P.Meets a μ r Q) (hQ : ∀ v σ μ', Q v σ μ' → Q' v σ μ') : P.Meets a μ r Q' :=
  h.after fun v σ μ' hv => .here (hQ v σ μ' hv)

/-- What the machines have met is the result of evaluation. -/
theorem known (h : P.Meets a μ r Q) : P.Meets a μ r fun v σ μ' => r = .ok v σ ∧ Q v σ μ' := by
  unfold Meets at h ⊢
  split at h
  · exact h.mono fun _ hμ => ⟨rfl, hμ⟩
  · exact h
  · exact h

/-- Evaluation goes on with `f` after a value that the machines have met. -/
theorem bind {x : EvalM α} {f : α → EvalM β} {σ : EvalState}
    {Q' : β → EvalState → MachineState → Prop} (h : P.Meets a μ (x σ) Q)
    (hf : ∀ v σ' μ', x σ = .ok v σ' → Q v σ' μ' → P.Meets a μ' (f v σ') Q') :
    P.Meets a μ ((x >>= f) σ) Q' := by
  show P.Meets a μ (EStateM.bind x f σ) Q'
  unfold EStateM.bind
  cases hr : x σ with
  | ok v σ' =>
    rw [hr] at h
    exact of_comes h fun μ' hμ => hf v σ' μ' hr hμ
  | error e σ' =>
    rw [hr] at h
    cases e with
    | fault f => exact h
    | jump l v => exact h

theorem pure_of_comes {v : α} {σ : EvalState} (h : Comes P.machines μ (Q v σ)) :
    P.Meets a μ ((Pure.pure v : EvalM α) σ) Q := h

theorem pure {v : α} {σ : EvalState} (h : Q v σ μ) : P.Meets a μ ((Pure.pure v : EvalM α) σ) Q :=
  pure_of_comes (.here h)

end Meets

/-! ## Nodes -/

variable (P)

/-- The node has given its value: the machine stands at the end of the draft `s'`. A shared
value that is ignored need not be there for the machine. -/
def Gives (G : P.Frame) (a : P.State) (f : Usage) (t : Ty) (s' : Draft) (st : List Value)
    (v : Value) (σ : EvalState) (μ : MachineState) : Prop :=
  ∃ b v', P.le a b ∧ ((f.discarded = true → t.isReference = false) → P.fits b t v v') ∧
    P.holds G b σ μ ∧ μ.pointer = s'.instrs.size ∧ μ.stack = f.pushed v' st

/-- The test has come to a value: the machine stands at the label `r` if it is `w`, and else
at the end of the draft `s'`. -/
def Decides (G : P.Frame) (a : P.State) (r : Nat) (w : Bool) (s' : Draft) (st : List Value)
    (v : Value) (σ : EvalState) (μ : MachineState) : Prop :=
  ∃ b x, P.le a b ∧ v = .bool x ∧ P.holds G b σ μ ∧ μ.stack = st ∧
    if x = w then P.final.Places r μ.pointer else μ.pointer = s'.instrs.size

/-- Code of the finished draft that starts behind `s` and ends with `s'`, in a frame. -/
structure Spans (G : P.Frame) (s s' : Draft) : Prop where
  sound : s.Sound
  leads : s'.Leads P.final
  suits : P.suits G s

/-- The code of the node does what evaluating the node does, wherever the code stands. -/
def Agrees (e : Expr) : Prop :=
  ∀ ⦃f : Usage⦄ ⦃s s' : Draft⦄ ⦃G : P.Frame⦄ ⦃a : P.State⦄ ⦃n : Nat⦄ ⦃σ : EvalState⦄
    ⦃μ : MachineState⦄ ⦃st : List Value⦄, e.part.emit f P.env s = .ok ((), s') → P.Spans G s s' →
    f.byAddress = false → (e.ty.isVoid = true → f.discarded = true) → P.Room n σ e.height →
    P.holds G a σ μ → P.Meets a (μ.movedTo s.instrs.size st)
      (eval P.host P.call P.gauge n e σ) (P.Gives G a f e.ty s' st)

/-- The code of the node as a test does what evaluating the node does. -/
def Tests (e : Expr) : Prop :=
  ∀ ⦃r : Nat⦄ ⦃w : Bool⦄ ⦃f : Usage⦄ ⦃s s' : Draft⦄ ⦃G : P.Frame⦄ ⦃a : P.State⦄ ⦃n : Nat⦄
    ⦃σ : EvalState⦄ ⦃μ : MachineState⦄ ⦃st : List Value⦄,
    e.part.branch r w f P.env s = .ok ((), s') → P.Spans G s s' → r < s.labels.size →
    P.Room n σ e.height → P.holds G a σ μ → P.Meets a (μ.movedTo s.instrs.size st)
      (eval P.host P.call P.gauge n e σ) (P.Decides G a r w s' st)

variable {P} {e : Expr} {h h' : Nat} {σ σ' : EvalState} {G : P.Frame} {a b : P.State}
  {μ μ' : MachineState} {s s' t t' : Draft} {st : List Value}

theorem Room.part {n : Nat} (H : P.Room (n + 1) σ h) (hlt : h' < h) :
    P.Room n (σ.deeper P.gauge) h' where
  depth := H.depth.imp_right fun H => by
    rw [EvalState.depthAt_deeper]
    omega
  bound := H.bound.imp_right fun H => by omega

theorem Room.later {n : Nat} (H : P.Room n σ h) 
    (hd : σ'.world.depthAt P.gauge = σ.world.depthAt P.gauge) : P.Room n σ' h :=
  ⟨hd ▸ H.depth, H.bound⟩

theorem Room.le {n : Nat} (H : P.Room n σ h) (hle : h' ≤ h) : P.Room n σ h' :=
  ⟨H.depth.imp_right fun H => by omega, H.bound.imp_right fun H => by omega⟩

/-- Evaluation of a node is evaluation of the node itself, one level deeper. -/
theorem Meets.ofNode {n : Nat} {Q Q' : Value → EvalState → MachineState → Prop}
    (H : P.Room n σ h) (hpos : 1 ≤ h)
    (hnode : ∀ j, n = j + 1 → P.Meets a μ ((P.walk j).node e (σ.deeper P.gauge)) Q)
    (hQ : ∀ v σ' μ', Q v σ' μ' → Q' v (σ'.atDepth P.gauge (σ.world.depthAt P.gauge)) μ') :
    P.Meets a μ (eval P.host P.call P.gauge n e σ) Q' := by
  cases n with
  | zero => exact .inl (H.bound.resolve_right (by omega))
  | succ n =>
    show P.Meets a μ (EvalM.deeper P.gauge ((P.walk n).node e) σ) Q'
    by_cases hd : σ.world.depthAt P.gauge < P.gauge.max
    · have hnode := hnode n rfl
      rw [EvalM.deeper_eq _ hd]
      unfold Meets at hnode ⊢
      cases hr : (P.walk n).node e (σ.deeper P.gauge) with
      | ok v σ' =>
        rw [hr] at hnode
        exact hnode.mono fun μ' => hQ v σ' μ'
      | error x σ' =>
        rw [hr] at hnode
        cases x with
        | jump l v => exact hnode
        | fault f =>
          exact hnode.imp_right fun hf => hf.mono fun μ' ⟨b, hab, hb⟩ =>
            ⟨b, hab, P.broken_depth _ hb⟩
    · rw [EvalM.deeper_full _ hd]
      exact .inl (H.depth.resolve_right (by omega) _ _)

/-- Evaluation that gives a value ends at the depth where it began. -/
theorem eval_depth {host : Host} {call : Caller} {gauge : Gauge} {n : Nat} {v : Value}
    (h : eval host call gauge n e σ = .ok v σ') :
    σ'.world.depthAt gauge = σ.world.depthAt gauge := by
  have hd := eval_depthAt host call gauge n e σ
  rwa [h] at hd

/-- A constant evaluates to itself. -/
theorem eval_constant {host : Host} {call : Caller} {gauge : Gauge} {n : Nat} {ty : Ty} {v w : Value}
    (h : eval host call gauge n (.constant ty v) σ = .ok w σ') : w = v := by
  cases n with
  | zero => cases h
  | succ n =>
    replace h : EvalM.deeper gauge (Pure.pure v) σ = .ok w σ' := h
    by_cases hd : σ.world.depthAt gauge < gauge.max
    · rw [EvalM.deeper_eq _ hd] at h
      cases h
      rfl
    · rw [EvalM.deeper_full _ hd] at h
      cases h

theorem truthOf_depth {n : Nat} {x : Bool} (h : (P.walk n).truthOf e σ = .ok x σ') :
    σ'.world.depthAt P.gauge = σ.world.depthAt P.gauge := by
  replace h : EStateM.bind (eval P.host P.call P.gauge n e) _ σ = .ok x σ' := h
  unfold EStateM.bind at h
  split at h
  · rename_i v σ₁ hv
    rw [← eval_depth hv]
    cases v <;> cases h
    rfl
  · cases h

/-! ## Steps -/

theorem emit_step {f : Usage} {u : Unit} {env : LowerEnv} (h : e.part.emit f env s = .ok (u, s'))
    (hneat : e.Neat) (hs : s.Sound) : Step True .blank [] [] s s' :=
  (((acts_rule True .blank []).part e [] (hneat [])).emit [] [] [] f).stepped h hs trivial

theorem branch_step {f : Usage} {u : Unit} {env : LowerEnv} {r : Nat} {w : Bool}
    (h : e.part.branch r w f env s = .ok (u, s')) (hneat : e.Neat) (hs : s.Sound) :
    Step True .blank [] [] s s' :=
  (((acts_rule True .blank []).part e [] (hneat [])).branch [r] [] [] r w f (by simp)).stepped
    h hs trivial

namespace Spans

/-- The code ends before it did. -/
theorem start {P₁ I₁ : List Nat} (S : P.Spans G s s') (h : Step True .blank P₁ I₁ t s') :
    P.Spans G s t :=
  { S with leads := h.stage.leads.trans S.leads }

/-- The code starts later. -/
theorem rest {P₁ I₁ : List Nat} (S : P.Spans G s s') (h : Step True .blank P₁ I₁ s t) :
    P.Spans G t s' where
  sound := h.stage.sound S.sound
  leads := S.leads
  suits := P.suits_step S.suits h

end Spans

/-! ## One level deeper -/

/-- Agreement on a node follows from agreement on the node itself, one level deeper. -/
theorem agrees_of_node
    (hnode : ∀ ⦃f : Usage⦄ ⦃s s' : Draft⦄ ⦃G : P.Frame⦄ ⦃a : P.State⦄ ⦃n : Nat⦄ ⦃σ : EvalState⦄
      ⦃μ : MachineState⦄ ⦃st : List Value⦄, e.part.emit f P.env s = .ok ((), s') →
      P.Spans G s s' → f.byAddress = false → (e.ty.isVoid = true → f.discarded = true) →
      (∀ h < e.height, P.Room n σ h) → P.holds G a σ μ →
      P.Meets a (μ.movedTo s.instrs.size st) ((P.walk n).node e σ) (P.Gives G a f e.ty s' st)) :
    P.Agrees e := by
  intro f s s' G a n σ μ st hlow S haddr hused hroom hold
  refine Meets.ofNode hroom e.height_pos (fun j hj => hnode hlow S haddr hused
    (fun h hlt => (hj ▸ hroom).part hlt) (P.holds_depth _ hold)) fun v σ' μ' hv => ?_
  obtain ⟨b, v', hab, hfit, hold', hat⟩ := hv
  exact ⟨b, v', hab, hfit, P.holds_depth _ hold', hat⟩

/-- The same for a test. -/
theorem tests_of_node
    (hnode : ∀ ⦃r : Nat⦄ ⦃w : Bool⦄ ⦃f : Usage⦄ ⦃s s' : Draft⦄ ⦃G : P.Frame⦄ ⦃a : P.State⦄ ⦃n : Nat⦄
      ⦃σ : EvalState⦄ ⦃μ : MachineState⦄ ⦃st : List Value⦄,
      e.part.branch r w f P.env s = .ok ((), s') → P.Spans G s s' → r < s.labels.size →
      (∀ h < e.height, P.Room n σ h) → P.holds G a σ μ →
      P.Meets a (μ.movedTo s.instrs.size st) ((P.walk n).node e σ) (P.Decides G a r w s' st)) :
    P.Tests e := by
  intro r w f s s' G a n σ μ st hlow S hr hroom hold
  refine Meets.ofNode hroom e.height_pos (fun j hj => hnode hlow S hr
    (fun h hlt => (hj ▸ hroom).part hlt) (P.holds_depth _ hold)) fun v σ' μ' hv => ?_
  obtain ⟨b, x, hab, hx, hold', hat⟩ := hv
  exact ⟨b, x, hab, hx, P.holds_depth _ hold', hat⟩

/-- A test that is a part of a node, as a truth value. -/
theorem Tests.truth {c : Expr} {r n : Nat} {w : Bool} {f : Usage} (A : P.Tests c)
    (hlow : c.part.branch r w f P.env s = .ok ((), s')) (S : P.Spans G s s')
    (hr : r < s.labels.size) (hroom : P.Room n σ c.height) (hold : P.holds G a σ μ) :
    P.Meets a (μ.movedTo s.instrs.size st) ((P.walk n).truthOf c σ) fun x =>
      P.Decides G a r w s' st (.bool x) := by
  refine (A hlow S hr hroom hold).bind fun v σ' μ' _ hv => ?_
  obtain ⟨b, x, hab, rfl, hrest⟩ := hv
  exact .pure ⟨b, x, hab, rfl, hrest⟩

end Pact

end TreeCode

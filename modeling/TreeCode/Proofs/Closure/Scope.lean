import TreeCode.Proofs.Agree.Entry
import TreeCode.Proofs.Closure.Frame

/-!
# Variables of a unit

Both runs make a variable anew whenever a block or a call begins. Evaluation makes a cell.
The machines store to a slot, and make a cell of their own first if a lambda captures the
variable.

Main definitions:

* `Frame.declare` — the frame with one more variable.

Main results:

* `Loom.Holds.declare` — a new variable.
* `Loom.opens` — the variables of a block come into scope in both runs.
-/

namespace TreeCode.Closure

open Draft Lower

/-- The link with one more cell of evaluation, for which `r'` stands if the machines have made
one, too. -/
def Link.declare (a : Link) (boxed : Bool) (r' : Nat) (t : Ty) : Link :=
  if boxed then a.pair r' t else a.own

/-- The machines with a new variable in a slot. -/
def declared (μ : MachineState) (boxed : Bool) (slot : Nat) (x : Value) : MachineState :=
  if boxed then
    { μ with world := μ.world.pushCell x }.putSlot slot (.cell μ.world.store.cells.size)
  else μ.putSlot slot x

theorem declared_locals {μ : MachineState} {boxed : Bool} {slot : Nat} {x : Value} :
    (declared μ boxed slot x).locals =
      μ.locals.setIfInBounds slot (if boxed then .cell μ.world.store.cells.size else x) := by
  cases boxed <;> rfl

namespace Frame

/-- The frame in a new scope. -/
def enter (G : Frame) : Frame := { G with scopes := G.scopes.enter }

/-- The frame with one more variable. -/
def declare (G : Frame) (id : Nat) (x : Lodging) : Frame :=
  { G with vars := x :: G.vars, scopes := G.scopes.bind id x.ref }

end Frame

theorem Link.le_declare (a : Link) (boxed : Bool) (r' : Nat) (t : Ty) :
    a.Le (a.declare boxed r' t) := by
  cases boxed with
  | true => exact a.le_pair r' t
  | false => exact a.le_own

namespace Loom

variable {Z : Setting} {X : Loom Z} {G : Frame} {a b : Link} {σ : EvalState} {μ : MachineState}
  {s s' t : Draft} {st : List Value} {v : Var} {x x' : Value} {u : Unit}

/-! ## One variable -/

theorem Holds.ref_lt (h : X.Holds G a σ μ) : ∀ y ∈ G.vars, y.ref < a.bound := by
  intro y hy
  cases hb : y.boxed with
  | false => exact (h.plain y hy hb).1
  | true =>
    obtain ⟨r', -, hlink⟩ := h.boxed y hy hb
    exact (h.agree.cells hlink).1

/-- A variable comes into scope. -/
theorem Suits.declare {slot : Nat} {hidden : Option Nat} (hs : X.Suits G s) (h : X.Holds G a σ μ)
    (hin : bringIn v X.env s = .ok ((slot, hidden), t)) :
    X.Suits (G.declare v.id ⟨slot, a.bound, Z.types v.id, X.unit.plan.isBoxed v.id⟩) t := by
  obtain ⟨-, rfl, -, rfl⟩ := bringIn_ok.1 hin
  exact
    { vars := fun id k hk => by
        simp only [Frame.declare, Slots.get?_insert, Scopes.get?_bind] at hk ⊢
        by_cases hid : id = v.id
        · subst hid
          simp only [if_true, Option.some.injEq] at hk ⊢
          exact ⟨_, .head _, hk, rfl, rfl, rfl⟩
        · -- Any other variable is found where it was.
          rw [if_neg hid] at hk
          obtain ⟨y, hy, hslot, hboxed, hty, href⟩ := hs.vars id k hk
          exact ⟨y, .tail _ hy, hslot, hboxed, hty, by rw [if_neg (Ne.symm hid), href]⟩
      captured := fun id i hnone hi => by
        simp only [Frame.declare, Slots.get?_insert, Scopes.get?_bind] at hnone ⊢
        by_cases hid : id = v.id
        · simp [hid] at hnone
        · rw [if_neg hid] at hnone
          obtain ⟨r, r', hr, hrest⟩ := hs.captured id i hnone hi
          exact ⟨r, r', by rw [if_neg (Ne.symm hid), hr], hrest⟩
      -- The new slot and the new cell are those that no variable has.
      slots := by
        simp only [Frame.declare, List.map_cons, List.nodup_cons, List.mem_map, not_exists, not_and]
        exact ⟨fun y hy => Nat.ne_of_lt (hs.slot_lt y hy), hs.slots⟩
      refs := by
        simp only [Frame.declare, List.map_cons, List.nodup_cons, List.mem_map, not_exists, not_and]
        exact ⟨fun y hy => Nat.ne_of_lt (h.ref_lt y hy), hs.refs⟩
      own := fun y hy => by
        rcases List.mem_cons.1 hy with rfl | hy
        · exact h.start.bound
        · exact hs.own y hy
      slot_lt := fun y hy => by
        rcases List.mem_cons.1 hy with rfl | hy
        · exact Nat.lt_succ_self _
        · exact Nat.lt_succ_of_lt (hs.slot_lt y hy)
      frozen_lt := fun p hp => Nat.lt_succ_of_lt (hs.frozen_lt p hp)
      hoisted := hs.hoisted }

/-- Both runs make a variable, with values that stand for each other. -/
theorem Holds.declare {slot : Nat} {ty : Ty} (id : Nat) (boxed : Bool) (h : X.Holds G a σ μ)
    (hs : X.Suits G s) (hslot : s.numLocals ≤ slot) (hF : slot < X.final.numLocals)
    (hx : a.Fits ty x x') :
    X.Holds (G.declare id ⟨slot, a.bound, ty, boxed⟩)
      (a.declare boxed μ.world.store.cells.size ty) (σ.declare id x) (declared μ boxed slot x') := by
  have hlt : slot < μ.locals.size := h.size ▸ hF
  have hle := a.le_declare boxed μ.world.store.cells.size ty
  -- Both worlds get a cell if the variable is captured, else the evaluator alone does.
  have hagree : Agree Z (a.declare boxed μ.world.store.cells.size ty) (σ.world.pushCell x)
      (declared μ boxed slot x').world := by
    cases boxed with
    | true => exact h.agree.pushCells hx
    | false => exact h.agree.pushOwn x
  have hnew : (declared μ boxed slot x').locals[slot]? =
      some (if boxed then .cell μ.world.store.cells.size else x') := by
    simp [declared_locals, hlt]
  have hold : ∀ k, slot ≠ k → (declared μ boxed slot x').locals[k]? = μ.locals[k]? := fun k hk => by
    rw [declared_locals, Array.getElem?_setIfInBounds_ne hk]
  -- The slot is a fresh one: no variable and no frozen value is in it.
  have hvar := hs.vars_ne hslot
  have hfrozen := hs.frozen_ne hslot
  refine ⟨?_, hagree, h.start.trans hle, ?_, ?_, ?_, ?_, ?_, ?_⟩
  · simp only [EvalState.declare, Frame.declare, h.scopes, h.agree.bound]
  · exact h.keeps.pushCell (h.agree.bound ▸ h.start.bound)
  · -- Variables that are in their slots: the new one, if no lambda captures it, and the old ones.
    intro y hy hb
    rcases List.mem_cons.1 hy with rfl | hy
    · obtain rfl : boxed = false := hb
      refine ⟨Nat.lt_succ_self _, h.agree.unlinked (Nat.le_refl _), x', by simpa using hnew, ?_⟩
      show a.own.Fits ty ((σ.world.pushCell x).store.cellAt a.bound) x'
      rw [h.agree.bound]
      simp only [World.pushCell, Store.cellAt_newCell]
      exact hx.mono a.le_own
    · obtain ⟨hlt', hnone, v', hv', hfits⟩ := h.plain y hy hb
      refine ⟨Nat.lt_of_lt_of_le hlt' hle.bound, (hle.cells _ hlt').trans hnone, v', ?_, ?_⟩
      · rw [hold _ (hvar y hy)]
        exact hv'
      · show Link.Fits _ y.ty ((σ.world.pushCell x).store.cellAt y.ref) v'
        simp only [World.pushCell, Store.cellAt_newCell_of_lt (h.agree.bound ▸ hlt')]
        exact hfits.mono hle
  · -- Variables that have cells of the machines.
    intro y hy hb
    rcases List.mem_cons.1 hy with rfl | hy
    · obtain rfl : boxed = true := hb
      exact ⟨_, by simpa using hnew, by simp [Link.declare, Link.pair]⟩
    · obtain ⟨r', hr', hlink⟩ := h.boxed y hy hb
      refine ⟨r', ?_, (hle.cells _ (h.agree.cells hlink).1).trans hlink⟩
      rw [hold _ (hvar y hy)]
      exact hr'
  · intro p hp
    rw [hold _ (hfrozen p hp)]
    exact h.frozen p hp
  · intro p hp y hy
    rcases List.mem_cons.1 hy with rfl | hy
    · exact (hfrozen p hp).symm
    · exact h.apart p hp y hy
  · rw [declared_locals]
    simpa using h.size

/-- The value on top of the stack goes into a new cell, which a slot holds from then on. -/
theorem newCell_comes {slot : Nat} (hF : (s.emitted (.newCell slot)).Leads X.final)
    (hlt : slot < μ.locals.size) :
    Comes X.pact.machines (μ.movedTo s.instrs.size (x :: st))
      (· = (declared μ true slot x).movedTo (s.emitted (.newCell slot)).instrs.size st) := by
  refine .instr X.follows hF rfl (fun n => ?_) (.here rfl)
  simp only [Machine.exec, bind, EStateM.bind, MachineM.pop, MachineState.movedTo_stack, liftM,
    monadLift, MonadLift.monadLift, MachineM.ofRun, RunM.newCell, RunM.withStore, MachineM.writeSlot,
    MachineState.movedTo_locals, hlt]
  rfl

/-- The value on top of the stack becomes that of a new variable. -/
theorem initialise_comes {slot : Nat} (hi : initialise v slot X.env s = .ok (u, s'))
    (hF : s'.Leads X.final) (hlt : slot < μ.locals.size) :
    Comes X.pact.machines (μ.movedTo s.instrs.size (x' :: st))
      (· = (declared μ (X.unit.plan.isBoxed v.id) slot x').movedTo s'.instrs.size st) := by
  simp only [initialise, read_bind, emit_ok] at hi
  subst hi
  cases hb : X.unit.plan.isBoxed v.id with
  | true =>
    rw [show X.env.plan.isBoxed v.id = true from hb] at hF ⊢
    exact newCell_comes hF hlt
  | false =>
    rw [show X.env.plan.isBoxed v.id = false from hb] at hF ⊢
    exact storeLocal_comes X.follows hF hlt

/-! ## Blocks -/

/-- The variables of a block come into scope. The state `σ` is that of evaluation in the new
scope; cells are made before the scope is opened. -/
theorem bringInAll {vars : List Var} {hidden : List (Option Nat)} (sc : Scopes Nat Nat)
    (st : List Value) (hsound : s.Sound) (hs : X.Suits G s)
    (hin : Lower.bringInAll vars X.env s = .ok (hidden, s')) (hF : s'.Leads X.final)
    (hty : ∀ v ∈ vars, Z.types v.id = v.ty ∧ v.ty.Woven) (h : X.Holds G a σ μ) :
    ∃ bindings w new b, Walk.freshVariables vars { σ with scopes := sc } =
        .ok bindings { σ with world := w, scopes := sc } ∧
      w.depth = σ.world.depth ∧ a.Le b ∧
      X.Suits { G with vars := new ++ G.vars, scopes := G.scopes.bindAll bindings } s' ∧
      Comes X.pact.machines (μ.movedTo s.instrs.size st) fun μ' =>
        X.Holds { G with vars := new ++ G.vars, scopes := G.scopes.bindAll bindings } b
          { σ with world := w, scopes := σ.scopes.bindAll bindings } μ' ∧
        μ' = μ'.movedTo s'.instrs.size st := by
  induction vars generalizing G a σ μ s hidden with
  | nil =>
    obtain ⟨-, rfl⟩ := pure_ok.1 hin
    exact ⟨[], σ.world, [], a, rfl, rfl, .refl a, hs, .here ⟨{ h with }, rfl⟩⟩
  | cons v vs ih =>
    simp only [Lower.bringInAll, bind_ok, pure_ok] at hin
    obtain ⟨⟨slot, hid⟩, s₁, hv, _, s₂, hpush, _, s₃, hinit, rest, _, hrest, -, rfl⟩ := hin
    obtain ⟨hqr, -⟩ := bringInAll_quiet hrest
    obtain ⟨hqi, hsi⟩ := initialise_quiet hinit
    obtain ⟨hqp, hsp⟩ := pushValue_quiet hpush
    have hqv := bringIn_quiet hv
    have hF₃ := hqr.leads.trans hF
    have hF₂ := hqi.leads.trans hF₃
    obtain ⟨hvty, hwoven⟩ := hty v (by simp)
    have hs₃ := (hs.declare h hv).of_same (hsp.trans hsi) (hqp.trans hqi).leads.numLocals_le
    obtain ⟨-, rfl, -, rfl⟩ := bringIn_ok.1 hv
    have hlt : s.numLocals < X.final.numLocals := (hqp.leads.trans hF₂).numLocals_le
    have hx : a.Fits (Z.types v.id) v.ty.default v.ty.default := by
      rw [hvty]
      exact .default hwoven
    have hold := h.declare v.id (X.unit.plan.isBoxed v.id) hs (Nat.le_refl _) hlt hx
    -- The other variables follow, with one more in the frame.
    obtain ⟨bindings, w, new, b, hfresh, hd, hab, hs', hcomes⟩ :=
      ih ((hqv.trans (hqp.trans hqi)).sound hsound) hs₃ hrest (fun v hv => hty v (.tail _ hv)) hold
    refine ⟨(v.id, σ.world.store.cells.size) :: bindings, w,
      new ++ [⟨s.numLocals, a.bound, Z.types v.id, X.unit.plan.isBoxed v.id⟩], b,
      Walk.freshVariables_cons hfresh, hd, (a.le_declare _ _ _).trans hab, ?_, ?_⟩
    · simpa [Frame.declare, Scopes.bindAll, h.agree.bound] using hs'
    · refine (pushValue_comes X.follows hpush hF₂ v.ty.default_faithful).bind ?_
      rintro _ rfl
      refine (initialise_comes hinit hF₃ (h.size ▸ hlt)).bind ?_
      rintro _ rfl
      simpa [Frame.declare, EvalState.declare, Scopes.bindAll, h.agree.bound] using hcomes

/-- The frame around a scope is left as it was. -/
theorem Holds.leave {new : List Lodging} {sc : Scopes Nat Nat}
    (h : X.Holds { G with vars := new ++ G.vars, scopes := sc } a σ μ) :
    X.Holds G a { σ with scopes := G.scopes } μ where
  scopes := rfl
  agree := h.agree
  start := h.start
  keeps := h.keeps
  plain y hy := h.plain y (List.mem_append_right _ hy)
  boxed y hy := h.boxed y (List.mem_append_right _ hy)
  frozen := h.frozen
  apart p hp y hy := h.apart p hp y (List.mem_append_right _ hy)
  size := h.size

theorem opens {vars : List Var} (hty : ∀ v ∈ vars, Z.types v.id = v.ty ∧ v.ty.Woven) :
    X.pact.Opens vars := by
  intro G a s t hidden σ μ st hsound hs hin hF hold
  have hscopes : σ.scopes = G.scopes := Holds.scopes hold
  obtain ⟨bindings, w, new, b, hfresh, hd, hab, hs', hcomes⟩ := bringInAll (X := X) (G := G.enter)
    (σ := { σ with scopes := σ.scopes.enter }) σ.scopes st hsound { (hs : X.Suits G s) with } hin hF
    hty { (hold : X.Holds G a σ μ) with scopes := congrArg Scopes.enter hscopes }
  refine ⟨bindings, w, _, b, hfresh, World.depthAt_congr _ hd, hab, hs', hcomes, fun c σ' μ' h => ?_⟩
  rw [hscopes]
  exact { Holds.leave (G := G.enter) h with scopes := rfl }

end Loom

end TreeCode.Closure

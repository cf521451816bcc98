import TreeCode.Proofs.Agree.Bench
import TreeCode.Proofs.Lower.Scope
import TreeCode.Proofs.Pact.Value

/-!
# Code that assigns no variable

Code that only reads variables leaves both runs as it found them, but for what the host
does and for slots that the code takes for itself. A `Scene` is what such code starts
from: direct evaluation in some state and machines in another one, in worlds that may
differ in the cells of variables and in depth. Methods of the host may add cells in either
run.

Main definitions:

* `Scene`, `Scene.pact` — a scene, and the pact that code keeps there.
* `Scene.Knows` — a variable has the same value in both runs, wherever it lives.
* `Poised`, `Kept` — where the two runs stand before code, and what it leaves.

Main results:

* `Scene.reads` — variables that are known are read alike.
-/

namespace TreeCode

open Draft Lower

/-- What code that assigns no variable starts from. -/
structure Scene where
  host : Host
  call : Caller
  gauge : Gauge
  machines : Nat → Machine
  env : LowerEnv
  final : Draft
  record : ClosureRecord
  /-- The code that comes before. -/
  code : Draft
  /-- Direct evaluation and the machines, at the beginning. -/
  source : EvalState
  target : MachineState
  /-- What is relied on in worlds, and in the values of a type. -/
  good : World → Prop
  form : Value → Ty → Prop
  leeway : Leeway
  excused : Fault → Prop
  follows : ∀ k, (machines k).Follows final
  recorded : ∀ k, (machines k).record = record
  size : final.numLocals ≤ target.locals.size
  slots_lt : ∀ id k, code.slots.get? id = some k → k < code.numLocals
  good_recast : ∀ {w : World} cells depth, good w → good (w.recast cells depth)
  good_stamped : ∀ {w : World} n, good w → good (w.stamped n)
  form_bool : ∀ {v}, form v .bool ↔ ∃ b, v = .bool b
  form_void : ∀ v, form v .void
  /-- Variables that have a value have a cell, if the host may make one. -/
  form_unit : (∃ new, leeway.fresh new ∧ new ≠ #[]) → ∀ {t}, form .unit t → t = .void
  /-- Depths that methods depend on are the same in both runs, and evaluation of the code
  does not change them. -/
  counted : ∀ i, leeway.counted i →
    i ≠ gauge.counter ∧ target.world.depth.get i = source.world.depth.get i

/-! ## Cells that the host makes -/

/-- The state of evaluation with more cells. -/
def EvalState.grown (σ : EvalState) (new : Array Value) : EvalState :=
  { σ with world := σ.world.grown new }

/-- The state of the machine with more cells. -/
def MachineState.grown (μ : MachineState) (new : Array Value) : MachineState :=
  { μ with world := μ.world.grown new }

@[simp] theorem EvalState.grown_empty (σ : EvalState) : σ.grown #[] = σ := by
  simp [EvalState.grown]

@[simp] theorem MachineState.grown_empty (μ : MachineState) : μ.grown #[] = μ := by
  simp [MachineState.grown]

namespace Scene

variable (X : Scene)

/-- The machines see the world `w` of direct evaluation as `w'`. -/
def Sees (w w' : World) : Prop :=
  X.leeway.Sees X.target.world.store.cells X.target.world.depth w w'

/-- The two runs stand as at the beginning. -/
structure Holds (G : List (Nat × Value)) (σ : EvalState) (μ : MachineState) : Prop where
  scopes : σ.scopes = X.source.scopes
  caught : σ.caught = X.source.caught
  cells : ∃ new, X.leeway.fresh new ∧
    σ.world.store.cells = X.source.world.store.cells ++ new
  counted : ∀ i, X.leeway.counted i → X.target.world.depth.get i = σ.world.depth.get i
  good : X.good σ.world
  world : X.Sees σ.world μ.world
  pending : μ.pending = X.target.pending
  size : μ.locals.size = X.target.locals.size
  locals : ∀ k < X.code.numLocals, μ.locals[k]? = X.target.locals[k]?
  frozen : ∀ p ∈ G, μ.locals[p.1]? = some p.2

/-- The slots of variables are as at the beginning, and those that the code took are its
own. -/
structure Suits (G : List (Nat × Value)) (s : Draft) : Prop where
  numLocals : X.code.numLocals ≤ s.numLocals
  slots : ∀ id, s.slots.get? id = X.code.slots.get? id
  own : ∀ p ∈ G, p.1 < s.numLocals

/-- The code leaves variables as they are. -/
def pact : Pact where
  host := X.host
  call := X.call
  gauge := X.gauge
  machines := X.machines
  env := X.env
  final := X.final
  record := X.record
  Frame := List (Nat × Value)
  State := Unit
  le _ _ := True
  holds G _ := X.Holds G
  broken _ w w' := X.good w ∧ X.Sees w w'
  suits := X.Suits
  fits _ t v v' := v = v' ∧ X.form v t ∨ t = .void
  excused := X.excused
  follows := X.follows
  recorded := X.recorded
  le_refl _ := trivial
  le_trans _ _ := trivial
  holds_moved _ _ h := { h with }
  holds_depth d h :=
    { h with
      counted := fun i hi => by
        rw [h.counted i hi]
        exact (Depths.get_set _ _ _ _).trans (if_neg (X.counted i hi).1) |>.symm
      good := X.good_recast _ _ h.good
      world := h.world }
  broken_depth d h := ⟨X.good_recast _ d h.1, h.2⟩
  suits_step h st :=
    ⟨Nat.le_trans h.numLocals st.stage.leads.numLocals_le,
      fun id => ((st.same trivial).slots id).trans (h.slots id),
      fun p hp => Nat.lt_of_lt_of_le (h.own p hp) st.stage.leads.numLocals_le⟩
  fits_mono _ h := h
  fits_bool := by
    simp only [X.form_bool, reduceCtorEq, or_false]
    exact ⟨fun ⟨h, b, hb⟩ => ⟨b, hb, h ▸ hb⟩, fun ⟨b, h, h'⟩ => ⟨h.trans h'.symm, b, h⟩⟩
  fits_void := .inr rfl
  stamps h := by
    obtain ⟨new, -, hw⟩ := h.world
    rw [hw]
    rfl
  broken_stamped n h := by
    obtain ⟨new, hnew, hw⟩ := h.world
    exact ⟨(), trivial, X.good_stamped n h.good, new, hnew, by rw [hw]; rfl⟩
  freeze G k v := (k, v) :: G
  holds_freeze {G a σ μ s k} v h hs hk hF := by
    have hlt : k < μ.locals.size := by
      rw [h.size]
      exact Nat.lt_of_lt_of_le hF X.size
    have hget : ∀ j, (μ.putSlot k v).locals[j]? = if k = j then some v else μ.locals[j]? := by
      intro j
      simp [MachineState.putSlot, Array.getElem?_setIfInBounds, hlt]
    refine ⟨hlt, { h with size := ?_, locals := fun j hj => ?_, frozen := fun p hp => ?_ }⟩
    · simpa [MachineState.putSlot] using h.size
    · rw [hget, if_neg (by have := hs.numLocals; omega)]
      exact h.locals j hj
    · rw [hget]
      rcases List.mem_cons.1 hp with rfl | hp
      · simp
      · rw [if_neg (by have := hs.own p hp; omega)]
        exact h.frozen p hp
  holds_frozen h := ⟨h.frozen _ (.head _), { h with frozen := fun p hp => h.frozen p (.tail _ hp) }⟩
  suits_freeze v h hk :=
    { h with own := fun p hp => (List.mem_cons.1 hp).elim (fun h => h ▸ hk) (h.own p) }

/-- The variable has the same value in both runs. -/
def Knows (v : Var) : Prop :=
  ∀ home, homeOf v X.env X.code = .ok (home, X.code) →
    ∃ ref, X.source.scopes.get? v.id = some ref ∧
      X.target.at? X.record home = some (X.source.world.store.cellAt ref) ∧
      X.form (X.source.world.store.cellAt ref) v.ty

variable {X} {v : Var}

/-- A variable still has a value where the two runs stand as at the beginning: the same one,
if it had one that is there. -/
theorem Holds.at? {G : List (Nat × Value)} {σ : EvalState} {μ : MachineState} {home : Home}
    (h : X.Holds G σ μ) (hhome : homeOf v X.env X.code = .ok (home, X.code)) {x : Value}
    (hx : X.target.at? X.record home = some x) :
    ∃ x', μ.at? X.record home = some x' ∧
      ((x = .unit → ∀ new, X.leeway.fresh new → new = #[]) → x' = x) := by
  obtain ⟨new, hnew, hworld⟩ := h.world
  -- A cell keeps what it holds, unless it was made since and had held nothing.
  have hcell : ∀ ref, X.target.world.store.cellAt ref = x →
      (x = .unit → ∀ new, X.leeway.fresh new → new = #[]) → μ.world.store.cellAt ref = x := by
    rintro ref rfl hunit
    rw [hworld]
    exact World.cellAt_grown fun hu => hunit hu new hnew
  have hslot : ∀ k, X.code.slots.get? v.id = some k → μ.locals[k]? = X.target.locals[k]? :=
    fun k hk => h.locals k (X.slots_lt _ k hk)
  simp only [homeOf, read_bind, get_bind] at hhome
  cases hk : X.code.slots.get? v.id with
  | some k =>
    simp only [hk, pure_ok, and_true] at hhome
    cases hb : X.env.plan.isBoxed v.id <;> simp only [hb, Bool.false_eq_true, if_true, if_false] at hhome <;>
      subst hhome
    · exact ⟨x, (hslot k hk).trans hx, fun _ => rfl⟩
    · simp only [MachineState.at?, hslot k hk] at hx ⊢
      split at hx
      · exact ⟨_, rfl, hcell _ (Option.some.inj hx)⟩
      · cases hx
  | none =>
    cases hi : X.env.plan.capturePlace? v.id with
    | some i =>
      simp only [hk, hi, pure_ok, and_true] at hhome
      subst hhome
      simp only [MachineState.at?, Option.map_eq_some_iff] at hx ⊢
      obtain ⟨ref, href, hx⟩ := hx
      exact ⟨_, ⟨ref, href, rfl⟩, hcell ref hx⟩
    | none => simp [hk, hi, error_ok] at hhome

/-- Variables that are known are read alike. -/
theorem reads (hv : X.Knows v) : X.pact.Reads v := by
  intro G a σ μ s home hs hold hhome
  have hhome' := homeOf_of_slots hhome (hs.slots v.id)
  obtain ⟨ref, href, hat, hform⟩ := hv home hhome'
  obtain ⟨x, hx, hsame⟩ := hold.at? hhome' hat
  refine ⟨ref, x, by rw [hold.scopes]; exact href, hx, ?_⟩
  by_cases hunit : X.source.world.store.cellAt ref = .unit → ∀ new, X.leeway.fresh new → new = #[]
  · obtain ⟨new, hnew, hcells⟩ := hold.cells
    have hcell : σ.world.store.cellAt ref = X.source.world.store.cellAt ref :=
      (congrArg (fun cells : Array Value => cells[ref]?.getD .unit) hcells).trans
        (World.cellAt_grown fun hu => hunit hu new hnew)
    rw [hsame hunit, hcell]
    exact .inl ⟨rfl, hform⟩
  · -- a variable without a cell is one of no value
    simp only [not_forall] at hunit
    obtain ⟨hu, new, hnew, hne⟩ := hunit
    exact .inr (X.form_unit ⟨new, hnew, hne⟩ (hu ▸ hform))

end Scene

/-! ## Before and after -/

/-- Direct evaluation in the state `σ` and machines in the state `μ` stand before the code
behind a draft: in the same world but for cells and depth, with the same values of the
variables that are `known`. -/
structure Poised (machines : Nat → Machine) (record : ClosureRecord) (good : World → Prop)
    (form : Value → Ty → Prop) (known : Var → Prop) (env : LowerEnv) (s F : Draft) (σ : EvalState)
    (μ : MachineState) : Prop where
  sound : s.Sound
  slots_lt : ∀ id k, s.slots.get? id = some k → k < s.numLocals
  follows : ∀ k, (machines k).Follows F
  recorded : ∀ k, (machines k).record = record
  size : F.numLocals ≤ μ.locals.size
  good : good σ.world
  world : μ.world = σ.world.recast μ.world.store.cells μ.world.depth
  known : ∀ v, known v → ∀ home, homeOf v env s = .ok (home, s) → ∃ ref,
    σ.scopes.get? v.id = some ref ∧ μ.at? record home = some (σ.world.store.cellAt ref) ∧
      form (σ.world.store.cellAt ref) v.ty

/-- Direct evaluation in the state `σ` and a machine in the state `μ` are left with the
variables that `σ₀` and `μ₀` have, in the same world otherwise. -/
structure Kept (numLocals : Nat) (σ₀ : EvalState) (μ₀ : MachineState) (σ : EvalState)
    (μ : MachineState) : Prop where
  scopes : σ.scopes = σ₀.scopes
  cells : σ.world.store.cells = σ₀.world.store.cells
  world : μ.world = σ.world.recast μ₀.world.store.cells μ₀.world.depth
  pending : μ.pending = μ₀.pending
  locals : ∀ k < numLocals, μ.locals[k]? = μ₀.locals[k]?

namespace Poised

variable {machines : Nat → Machine} {record : ClosureRecord} {good : World → Prop}
  {form : Value → Ty → Prop} {known : Var → Prop} {env : LowerEnv} {s F : Draft} {σ : EvalState}
  {μ : MachineState}

/-- What code starts from there. -/
def scene (H : Poised machines record good form known env s F σ μ) (host : Host) (call : Caller)
    (gauge : Gauge) (leeway : Leeway) (excused : Fault → Prop)
    (good_recast : ∀ {w : World} cells depth, good w → good (w.recast cells depth))
    (good_stamped : ∀ {w : World} n, good w → good (w.stamped n))
    (form_bool : ∀ {v}, form v .bool ↔ ∃ b, v = .bool b) (form_void : ∀ v, form v .void)
    (form_unit : (∃ new, leeway.fresh new ∧ new ≠ #[]) → ∀ {t}, form .unit t → t = .void)
    (counted : ∀ i, leeway.counted i →
      i ≠ gauge.counter ∧ μ.world.depth.get i = σ.world.depth.get i) : Scene where
  host := host
  call := call
  gauge := gauge
  machines := machines
  env := env
  final := F
  record := record
  code := s
  source := σ
  target := μ
  good := good
  form := form
  leeway := leeway
  excused := excused
  follows := H.follows
  recorded := H.recorded
  size := H.size
  slots_lt := H.slots_lt
  good_recast := good_recast
  good_stamped := good_stamped
  form_bool := form_bool
  form_void := form_void
  form_unit := form_unit
  counted := counted

end Poised

namespace Scene

variable {X : Scene} {σ : EvalState} {μ : MachineState}

/-- The variables are as at the beginning, whatever cells the host has made. -/
theorem Holds.kept {G : List (Nat × Value)} (h : X.Holds G σ μ) :
    ∃ new new', X.leeway.fresh new ∧ X.leeway.fresh new' ∧
      Kept X.code.numLocals (X.source.grown new) (X.target.grown new') σ μ := by
  obtain ⟨new, hnew, hcells⟩ := h.cells
  obtain ⟨new', hnew', hworld⟩ := h.world
  exact ⟨new, new', hnew, hnew', h.scopes, hcells, hworld, h.pending, h.locals⟩

/-- If methods make no variables, no cells are added. -/
theorem Holds.kept_of_none {G : List (Nat × Value)} (h : X.Holds G σ μ) (hL : X.leeway = .none) :
    Kept X.code.numLocals X.source X.target σ μ := by
  obtain ⟨new, new', hnew, hnew', hkept⟩ := h.kept
  rw [hL] at hnew hnew'
  obtain rfl : new = #[] := hnew
  obtain rfl : new' = #[] := hnew'
  simpa using hkept

/-- The two runs hold where they begin. -/
theorem holds_start {known : Var → Prop}
    (H : Poised X.machines X.record X.good X.form known X.env X.code X.final X.source X.target) :
    X.Holds [] X.source X.target :=
  ⟨rfl, rfl, ⟨#[], X.leeway.fresh_empty, by simp⟩, fun i hi => (X.counted i hi).2, H.good,
    ⟨#[], X.leeway.fresh_empty, by simpa using H.world⟩, rfl, rfl, fun _ _ => rfl, by simp⟩

theorem suits_start : X.Suits [] X.code := ⟨Nat.le_refl _, fun _ => rfl, by simp⟩

end Scene

end TreeCode

import TreeCode.Proofs.Closure.Link
import TreeCode.Proofs.Pact.Assign
import TreeCode.Proofs.Pact.Elementary

/-!
# A unit at work

Machines run the code of a unit while direct evaluation runs its lambda. Evaluation has a cell
for every variable in scope. The machines have a slot for each: it holds the value, or a cell
that is linked to the one of evaluation when the variable is captured. The variables that the
unit captures itself are in cells of its record.

Main definitions:

* `Loom` — a unit at work.
* `Frame`, `Loom.Holds`, `Loom.Suits` — the variables of the unit, and how the two runs agree
  on them.
* `Loom.pact` — the pact that woven code keeps.
* `Loom.Lodges` — where a variable lives in the two runs.

Main results:

* `Loom.lodges` — every variable that the code finds lives somewhere in both runs.
* `Loom.reads`, `Loom.writes` — variables are read and written alike, wherever they live.
-/

namespace TreeCode.Closure

open Draft Lower

/-- A variable of a unit: its slot, the cell that evaluation has for it, and whether the slot
holds a cell, too. -/
structure Lodging where
  slot : Nat
  ref : Nat
  ty : Ty
  boxed : Bool

/-- What stays while a node of a unit is carried out. -/
structure Frame where
  /-- The variables of the unit; some may be hidden. -/
  vars : List Lodging
  /-- Slots that keep their values. -/
  frozen : List (Nat × Value)
  scopes : Scopes Nat Nat
  /-- What stood for what when the unit was called, and the world of evaluation then. -/
  start : Link
  world : World

/-- A unit at work: machines run its code and evaluation its lambda. -/
structure Loom (Z : Setting) where
  /-- Bounds the calls of evaluation. -/
  bound : Nat
  unit : UnitPlan
  /-- The units that were compiled before. -/
  compiled : Array NestedForm
  code : Code
  record : ClosureRecord
  final : Draft
  nests : Z.root.Nests unit.lambda
  forms : ∀ (k : Nat) form, compiled[k]? = some form → Z.forms[k]? = some form
  values : CompileM.recordEntries unit.plan Z.units compiled = .ok record.values
  follows : ∀ k, (Z.host.running code record k).Follows final

namespace Loom

variable {Z : Setting} (X : Loom Z)

def env : LowerEnv where
  catalog := Z.host.catalog
  plan := X.unit.plan
  units := Z.units
  compiled := X.compiled

/-- The two runs agree on the variables of the unit. -/
structure Holds (G : Frame) (a : Link) (σ : EvalState) (μ : MachineState) : Prop where
  scopes : σ.scopes = G.scopes
  agree : Agree Z a σ.world μ.world
  start : G.start.Le a
  keeps : G.start.Keeps G.world σ.world
  plain : ∀ x ∈ G.vars, x.boxed = false → x.ref < a.bound ∧ a.cells x.ref = none ∧
    ∃ v', μ.locals[x.slot]? = some v' ∧ a.Fits x.ty (σ.world.store.cellAt x.ref) v'
  boxed : ∀ x ∈ G.vars, x.boxed = true → ∃ r', μ.locals[x.slot]? = some (.cell r') ∧
    a.cells x.ref = some (r', x.ty)
  frozen : ∀ p ∈ G.frozen, μ.locals[p.1]? = some p.2
  apart : ∀ p ∈ G.frozen, ∀ x ∈ G.vars, p.1 ≠ x.slot
  size : μ.locals.size = X.final.numLocals

/-- The variables in scope behind a draft have their slots in the frame, and those that the unit
captures are in the cells of its record. -/
structure Suits (G : Frame) (s : Draft) : Prop where
  vars : ∀ id k, s.slots.get? id = some k → ∃ x ∈ G.vars, x.slot = k ∧
    x.boxed = X.unit.plan.isBoxed id ∧ x.ty = Z.types id ∧ G.scopes.get? id = some x.ref
  captured : ∀ id i, s.slots.get? id = none → X.unit.plan.capturePlace? id = some i →
    ∃ r r', G.scopes.get? id = some r ∧ X.record.cells[i]? = some r' ∧ r < G.start.bound ∧
      G.start.cells r = some (r', Z.types id)
  slots : (G.vars.map (·.slot)).Nodup
  refs : (G.vars.map (·.ref)).Nodup
  own : ∀ x ∈ G.vars, G.start.bound ≤ x.ref
  slot_lt : ∀ x ∈ G.vars, x.slot < s.numLocals
  frozen_lt : ∀ p ∈ G.frozen, p.1 < s.numLocals
  hoisted : ∀ i k, s.hoisted.lookup i = some k →
    ∃ v, X.record.values[i]? = some v ∧ (k, v) ∈ G.frozen

variable {X} {G : Frame} {a b : Link} {σ : EvalState} {μ : MachineState} {s t : Draft}

theorem Suits.of_same (h : X.Suits G s) (hst : Same s t) (hle : s.numLocals ≤ t.numLocals) :
    X.Suits G t where
  vars id k hk := h.vars id k (hst.slots id ▸ hk)
  captured id i hk := h.captured id i (hst.slots id ▸ hk)
  slots := h.slots
  refs := h.refs
  own := h.own
  slot_lt x hx := Nat.lt_of_lt_of_le (h.slot_lt x hx) hle
  frozen_lt p hp := Nat.lt_of_lt_of_le (h.frozen_lt p hp) hle
  hoisted i k hk := h.hoisted i k (hst.hoisted ▸ hk)

/-- A slot that is still free is no variable's. -/
theorem Suits.vars_ne {k : Nat} (hs : X.Suits G s) (hk : s.numLocals ≤ k) :
    ∀ x ∈ G.vars, k ≠ x.slot := by
  intro x hx
  have hlt := hs.slot_lt x hx
  omega

theorem Suits.frozen_ne {k : Nat} (hs : X.Suits G s) (hk : s.numLocals ≤ k) :
    ∀ p ∈ G.frozen, k ≠ p.1 := by
  intro p hp
  have hlt := hs.frozen_lt p hp
  omega

/-- A free slot takes a value that it keeps from then on. -/
theorem Holds.freeze {k : Nat} (v : Value) (h : X.Holds G a σ μ) (hs : X.Suits G s)
    (hk : s.numLocals ≤ k) (hF : k < X.final.numLocals) :
    k < μ.locals.size ∧ X.Holds { G with frozen := (k, v) :: G.frozen } a σ (μ.putSlot k v) := by
  have hlt : k < μ.locals.size := h.size ▸ hF
  have hget : ∀ j, k ≠ j → (μ.putSlot k v).locals[j]? = μ.locals[j]? := fun j hj => by
    simp [MachineState.putSlot, hj]
  have hvar := hs.vars_ne hk
  have hfrozen := hs.frozen_ne hk
  refine ⟨hlt, { h with plain := ?_, boxed := ?_, frozen := ?_, apart := ?_, size := ?_ }⟩
  · intro x hx hb
    rw [hget _ (hvar x hx)]
    exact h.plain x hx hb
  · intro x hx hb
    rw [hget _ (hvar x hx)]
    exact h.boxed x hx hb
  · intro p hp
    rcases List.mem_cons.1 hp with rfl | hp
    · simp [MachineState.putSlot, hlt]
    · rw [hget _ (hfrozen p hp)]
      exact h.frozen p hp
  · intro p hp x hx
    rcases List.mem_cons.1 hp with rfl | hp
    · exact hvar x hx
    · exact h.apart p hp x hx
  · simpa [MachineState.putSlot] using h.size

variable (X) in
/-- The pact that woven code keeps. -/
def pact : Pact where
  host := Z.host
  call := TreeCode.call Z.host X.bound
  gauge := Z.gauge
  machines := Z.host.running X.code X.record
  env := X.env
  final := X.final
  record := X.record
  Frame := Frame
  State := Link
  le := Link.Le
  holds := X.Holds
  broken := Agree Z
  suits := X.Suits
  fits := Link.Fits
  excused f := f = .outOfFuel ∨ ∃ d m, f = .tooDeep d m
  follows := X.follows
  recorded _ := rfl
  le_refl := Link.Le.refl
  le_trans := Link.Le.trans
  holds_moved _ _ h := { h with }
  holds_depth _ h := { h with agree := h.agree.depth _, keeps := h.keeps.same rfl }
  broken_depth d h := h.depth d
  suits_step h hst := h.of_same (hst.same trivial) hst.stage.leads.numLocals_le
  fits_mono hab h := h.mono hab
  fits_bool := Link.Fits.bool_iff
  fits_void := .inl rfl
  stamps h := h.agree.stamps
  broken_stamped {_ a _ _} n h := ⟨a, .refl a, h.agree.stamped n⟩
  freeze G k v := { G with frozen := (k, v) :: G.frozen }
  holds_freeze v h hs hk hF := h.freeze v hs hk hF
  holds_frozen h := ⟨h.frozen _ (.head _), { h with
    frozen := fun p hp => h.frozen p (.tail _ hp)
    apart := fun p hp => h.apart p (.tail _ hp) }⟩
  suits_freeze _ h hk := { h with
    frozen_lt := fun p hp => (List.mem_cons.1 hp).elim (fun h => h ▸ hk) (h.frozen_lt p)
    hoisted := fun i k hi => (h.hoisted i k hi).imp fun _ h => h.imp_right (.tail _) }

/-! ## Variables -/

variable (X) in
/-- A variable of a type lives somewhere in the two runs: evaluation has the cell `ref` for it. -/
def Lodges (G : Frame) (t : Ty) (ref : Nat) : Home → Prop
  | .slot k => ⟨k, ref, t, false⟩ ∈ G.vars
  | .boxed k => ⟨k, ref, t, true⟩ ∈ G.vars
  | .captured i => ref < G.start.bound ∧
    ∃ r', X.record.cells[i]? = some r' ∧ G.start.cells ref = some (r', t)

variable {v : Var} {home : Home} {ref : Nat} {t : Ty} {x x' : Value}

/-- Every variable that the code finds lives somewhere. -/
theorem lodges (hs : X.Suits G s) (h : homeOf v X.env s = .ok (home, s)) :
    ∃ ref, G.scopes.get? v.id = some ref ∧ X.Lodges G (Z.types v.id) ref home := by
  simp only [homeOf, read_bind, get_bind] at h
  cases hk : s.slots.get? v.id with
  | some k =>
    obtain ⟨⟨k', ref, t, boxed⟩, hmem, hslot, hboxed, hty, href⟩ := hs.vars _ _ hk
    obtain rfl : k' = k := hslot
    obtain rfl : t = _ := hty
    obtain rfl : boxed = _ := hboxed
    simp only [hk, pure_ok, and_true] at h
    refine ⟨ref, href, ?_⟩
    cases hb : X.unit.plan.isBoxed v.id <;> rw [hb] at hmem <;>
      rw [show X.env.plan.isBoxed v.id = _ from hb] at h <;> subst h <;> exact hmem
  | none =>
    cases hi : X.env.plan.capturePlace? v.id with
    | some i =>
      simp only [hk, hi, pure_ok, and_true] at h
      subst h
      obtain ⟨ref, r', href, hr', hlt, hlink⟩ := hs.captured _ _ hk hi
      exact ⟨ref, href, hlt, r', hr', hlink⟩
    | none => simp [hk, hi, error_ok] at h

/-- A variable that lives in a cell of the machines has one that is linked. -/
theorem Holds.linked (h : X.Holds G a σ μ) {i : Nat}
    (hl : X.Lodges G t ref (.captured i)) : ∃ r', X.record.cells[i]? = some r' ∧
      a.cells ref = some (r', t) := by
  obtain ⟨hlt, r', hr', hlink⟩ := hl
  exact ⟨r', hr', (h.start.cells ref hlt).trans hlink⟩

/-- The machines have a value for a variable that stands for the one that evaluation has. -/
theorem Holds.at? (h : X.Holds G a σ μ) (hl : X.Lodges G t ref home) :
    ∃ x', μ.at? X.record home = some x' ∧ a.Fits t (σ.world.store.cellAt ref) x' := by
  cases home with
  | slot k =>
    obtain ⟨-, -, x', hx', hfits⟩ := h.plain _ hl rfl
    exact ⟨x', hx', hfits⟩
  | boxed k =>
    obtain ⟨r', hr', hlink⟩ := h.boxed _ hl rfl
    exact ⟨_, by simp only [MachineState.at?, hr'], (h.agree.cells hlink).2.2⟩
  | captured i =>
    obtain ⟨r', hr', hlink⟩ := h.linked hl
    exact ⟨_, by simp only [MachineState.at?, hr', Option.map_some], (h.agree.cells hlink).2.2⟩

theorem reads (hv : Z.types v.id = v.ty) : X.pact.Reads v := by
  intro G a σ μ s home hs hold hhome
  obtain ⟨ref, href, hl⟩ := lodges hs hhome
  obtain ⟨x, hx, hfits⟩ := Holds.at? hold hl
  exact ⟨ref, x, (congrArg (·.get? v.id) (Holds.scopes hold)).trans href, hx, hv ▸ hfits⟩

/-- A write to a cell that is linked. -/
theorem Holds.putCell {r' : Nat} (h : X.Holds G a σ μ) (hlink : a.cells ref = some (r', t))
    (hx : a.Fits t x x') : X.Holds G a (σ.putCell ref x) (μ.putCell r' x') where
  scopes := h.scopes
  agree := h.agree.put hlink hx
  start := h.start
  keeps := h.keeps.putCell fun hlt => by
    rw [← h.start.cells ref hlt, hlink]
    exact Option.some_ne_none _
  plain y hy hb := by
    obtain ⟨hlt, hnone, v', hv', hfits⟩ := h.plain y hy hb
    refine ⟨hlt, hnone, v', hv', ?_⟩
    -- The cell is linked, and those of variables that live in slots are not.
    have hne : ref ≠ y.ref := fun heq => by simp [← heq, hlink] at hnone
    have hsame : (σ.putCell ref x).world.store.cellAt y.ref = σ.world.store.cellAt y.ref := by
      simp [EvalState.putCell, Store.cellAt, Store.setCell, Array.getElem?_setIfInBounds_ne hne]
    rwa [hsame]
  boxed := h.boxed
  frozen := h.frozen
  apart := h.apart
  size := h.size

/-- A write to a cell that only evaluation has, and to the slot that the machines have for it. -/
theorem Holds.putSlot {k : Nat} (h : X.Holds G a σ μ) (hs : X.Suits G s)
    (hmem : ⟨k, ref, t, false⟩ ∈ G.vars) (hx : a.Fits t x x') :
    X.Holds G a (σ.putCell ref x) (μ.putSlot k x') := by
  obtain ⟨hlt, hnone, y, hy, -⟩ := h.plain _ hmem rfl
  have hk : k < μ.locals.size := (Array.getElem?_eq_some_iff.1 hy).1
  have hget : ∀ j, k ≠ j → (μ.putSlot k x').locals[j]? = μ.locals[j]? := fun j hj => by
    simp [MachineState.putSlot, hj]
  refine { h with
    agree := h.agree.putOwn hnone
    keeps := h.keeps.putCell fun hlt' => absurd hlt' (Nat.not_lt.2 (hs.own _ hmem))
    plain := ?_
    boxed := ?_
    frozen := ?_
    size := ?_ }
  -- Among the variables in slots only the one that was written changes.
  · intro z hz hb
    obtain ⟨hzlt, hznone, v', hv', hfits⟩ := h.plain z hz hb
    refine ⟨hzlt, hznone, ?_⟩
    by_cases hzk : k = z.slot
    · -- Slots are those of one variable each.
      obtain rfl := List.inj_on_of_nodup_map hs.slots hmem hz hzk
      refine ⟨x', by simp [MachineState.putSlot, hk], ?_⟩
      have hin : ref < σ.world.store.cells.size := h.agree.bound ▸ hlt
      simpa [EvalState.putCell, Store.cellAt_setCell hin] using hx
    · refine ⟨v', by rw [hget _ hzk]; exact hv', ?_⟩
      have hne : ref ≠ z.ref := fun heq => hzk
        (congrArg Lodging.slot (List.inj_on_of_nodup_map hs.refs hmem hz heq))
      have hsame : (σ.putCell ref x).world.store.cellAt z.ref = σ.world.store.cellAt z.ref := by
        simp [EvalState.putCell, Store.cellAt, Store.setCell, Array.getElem?_setIfInBounds_ne hne]
      rwa [hsame]
  · -- The slot does not hold a cell, since its variable has none of the machines.
    intro z hz hb
    have hne : k ≠ z.slot := fun heq => by
      obtain rfl := List.inj_on_of_nodup_map hs.slots hmem hz heq
      cases hb
    rw [hget _ hne]
    exact h.boxed z hz hb
  -- A frozen value is in another slot.
  · intro p hp
    rw [hget _ (h.apart p hp _ hmem).symm]
    exact h.frozen p hp
  · simpa [MachineState.putSlot] using h.size

theorem writes (hv : Z.types v.id = v.ty) : X.pact.Writes v := by
  intro G s home hs hhome
  obtain ⟨ref, href, hl⟩ := lodges hs hhome
  refine ⟨ref, fun a σ μ hold => (congrArg (·.get? v.id) (Holds.scopes hold)).trans href,
    fun a σ μ x x' hold hx => ?_⟩
  obtain ⟨y, hy, -⟩ := Holds.at? hold hl
  refine ⟨⟨y, hy⟩, ?_⟩
  replace hx : a.Fits (Z.types v.id) x x' := hv ▸ hx
  cases home with
  | slot k => exact Holds.putSlot hold hs hl hx
  | boxed k =>
    obtain ⟨r', hr', hlink⟩ := Holds.boxed hold _ hl rfl
    show X.Holds G a _ (μ.put X.record x' (.boxed k))
    simp only [MachineState.put, hr']
    exact Holds.putCell hold hlink hx
  | captured i =>
    obtain ⟨r', hr', hlink⟩ := Holds.linked hold hl
    show X.Holds G a _ (μ.put X.record x' (.captured i))
    simp only [MachineState.put, hr']
    exact Holds.putCell hold hlink hx

end Loom

end TreeCode.Closure

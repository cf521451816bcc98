import TreeCode.Proofs.Agree.Bench
import TreeCode.Proofs.Eval.Depth
import TreeCode.Proofs.Machine.Place

/-!
# Related states

Direct evaluation keeps a variable in a cell, the machine keeps it in a slot.
A `Frame` lists the variables that are alive on both sides, hidden ones
included, and the slots whose contents are not to change for now: exceptions
being handled, constants loaded in advance, and operands put aside.

Main definitions:

* `Frame`, `Holds` — the two states agree on what a frame lists.
* `Stands` — both runs stand where a draft ends.
* `Bench.Ready.carry`, `Bench.Ready.branch` — an instruction is carried out.
-/

namespace TreeCode

open Draft Lower

/-- A variable: its cell, its slot and its type. -/
structure Twin where
  ref : Nat
  slot : Nat
  ty : Ty

/-- What two related states agree on. -/
structure Frame where
  twins : List Twin
  /-- Slots that keep a value. -/
  frozen : List (Nat × Value)
  scopes : Scopes Nat Nat
  caught : List Value
  depth : Nat

namespace Frame

/-- The frame with one more slot that keeps a value. -/
def freeze (G : Frame) (slot : Nat) (v : Value) : Frame :=
  { G with frozen := (slot, v) :: G.frozen }

/-- The frame one level deeper in the tree. -/
def deeper (G : Frame) : Frame := { G with depth := G.depth + 1 }

/-- The frame does not mention a slot. -/
structure Clear (G : Frame) (slot : Nat) : Prop where
  twin : ∀ t ∈ G.twins, t.slot ≠ slot
  frozen : ∀ p ∈ G.frozen, p.1 ≠ slot

end Frame

variable {J : Discipline} {X : Bench J} {G : Frame} {a b : J.State} {σ σ' : EvalState}
  {μ μ' : MachineState} {s s' : Draft} {st st' : List Value} {pd : List Pending}

/-- The states of both runs agree on the frame. -/
structure Holds (X : Bench J) (G : Frame) (a : J.State) (σ : EvalState) (μ : MachineState) :
    Prop where
  scopes : σ.scopes = G.scopes
  caught : σ.caught = G.caught
  depth : σ.world.depth = X.depth.set X.gauge.counter G.depth
  world : X.Sees σ.world μ.world
  good : J.good a σ.world
  twin : ∀ t ∈ G.twins, ∃ v, σ.world.store.cells[t.ref]? = some v ∧
    μ.locals[t.slot]? = some v ∧ J.has a v t.ty
  frozen : ∀ p ∈ G.frozen, μ.locals[p.1]? = some p.2
  size : μ.locals.size = X.final.numLocals

namespace Holds

/-- The depth that the evaluation has got to. -/
theorem depthAt (h : Holds X G a σ μ) : σ.world.depthAt X.gauge = G.depth := by
  rw [World.depthAt, h.depth, Depths.get_set_self]

/-- Stack, position and blocks being run are of no concern. -/
theorem moved (h : Holds X G a σ μ) (hw : μ'.world = μ.world) (hl : μ'.locals = μ.locals) :
    Holds X G a σ μ' where
  scopes := h.scopes
  caught := h.caught
  depth := h.depth
  world := hw ▸ h.world
  good := h.good
  twin := hl ▸ h.twin
  frozen := hl ▸ h.frozen
  size := hl ▸ h.size

/-- A frame that lists less. -/
theorem weaken (h : Holds X G a σ μ) {G' : Frame} (ht : G'.twins ⊆ G.twins)
    (hf : G'.frozen ⊆ G.frozen) (hs : G'.scopes = G.scopes) (hc : G'.caught = G.caught)
    (hd : G'.depth = G.depth) : Holds X G' a σ μ :=
  { h with
    scopes := h.scopes.trans hs.symm
    caught := h.caught.trans hc.symm
    depth := hd ▸ h.depth
    twin := fun t h' => h.twin t (ht h')
    frozen := fun p h' => h.frozen p (hf h') }

theorem thaw {slot : Nat} {v : Value} (h : Holds X (G.freeze slot v) a σ μ) : Holds X G a σ μ :=
  h.weaken (fun _ h => h) (fun _ h => .tail _ h) rfl rfl rfl

/-- A value is put in a slot that the frame does not mention. -/
theorem freeze (h : Holds X G a σ μ) {slot : Nat} (v : Value) (hc : G.Clear slot)
    (hlt : slot < X.final.numLocals) :
    Holds X (G.freeze slot v) a σ { μ with locals := μ.locals.setIfInBounds slot v } where
  scopes := h.scopes
  caught := h.caught
  depth := h.depth
  world := h.world
  good := h.good
  twin t ht := by
    have := hc.twin t ht
    simpa [Array.getElem?_setIfInBounds, Ne.symm this] using h.twin t ht
  frozen p hp := by
    rcases List.mem_cons.1 hp with rfl | hp
    · simp [h.size, hlt]
    · have := hc.frozen p hp
      simpa [Array.getElem?_setIfInBounds, Ne.symm this] using h.frozen p hp
  size := by simpa using h.size

/-- A variable is assigned on both sides. -/
theorem assign (h : Holds X G a σ μ) {t : Twin} {v : Value} (ht : t ∈ G.twins) (hv : J.has a v t.ty)
    (hrefs : (G.twins.map (·.ref)).Nodup) (hslots : (G.twins.map (·.slot)).Nodup)
    (hf : ∀ p ∈ G.frozen, p.1 ≠ t.slot) :
    Holds X G a { σ with world := { σ.world with store := σ.world.store.setCell t.ref v } }
      { μ with locals := μ.locals.setIfInBounds t.slot v } where
  scopes := h.scopes
  caught := h.caught
  depth := h.depth
  world := h.world
  good := J.good_recast (σ.world.store.cells.setIfInBounds t.ref v) σ.world.depth h.good
  twin u hu := by
    obtain ⟨x, hx, hx', hxt⟩ := h.twin u hu
    by_cases heq : u = t
    · subst heq
      have h₁ := (Array.getElem?_eq_some_iff.1 hx).1
      have h₂ := (Array.getElem?_eq_some_iff.1 hx').1
      exact ⟨v, by simp [Store.setCell, h₁], by simp [h₂], hv⟩
    · have hr : t.ref ≠ u.ref := fun he =>
        heq (List.inj_on_of_nodup_map hrefs hu ht he.symm)
      have hs : t.slot ≠ u.slot := fun he =>
        heq (List.inj_on_of_nodup_map hslots hu ht he.symm)
      exact ⟨x, by simpa [Store.setCell, Array.getElem?_setIfInBounds, hr] using hx,
        by simpa [Array.getElem?_setIfInBounds, hs] using hx', hxt⟩
  frozen p hp := by
    have := hf p hp
    simpa [Array.getElem?_setIfInBounds, Ne.symm this] using h.frozen p hp
  size := by simpa using h.size

/-- Both worlds change alike, outside cells. -/
theorem ofWorld (h : Holds X G a σ μ) {w w' : World} (hab : J.le a b) (hg : J.good b w)
    (hk : X.leeway.Keeps σ.world w) (hw : X.Sees w w') :
    Holds X G b { σ with world := w } { μ with world := w' } where
  scopes := h.scopes
  caught := h.caught
  depth := hk.2.trans h.depth
  world := hw
  good := hg
  twin t ht := by
    obtain ⟨v, hv, hv', hvt⟩ := h.twin t ht
    obtain ⟨⟨new, -, hcells⟩, -⟩ := hk
    have hlt := (Array.getElem?_eq_some_iff.1 hv).1
    refine ⟨v, ?_, hv', J.has_mono hab hvt⟩
    rw [hcells, Array.getElem?_append_left hlt]
    exact hv
  frozen := h.frozen
  size := h.size

end Holds

/-! ## Positions -/

/-- Both runs stand at the end of the code of a draft. -/
structure Stands (X : Bench J) (G : Frame) (a : J.State) (σ : EvalState) (s : Draft)
    (st : List Value) (pd : List Pending) (μ : MachineState) : Prop where
  holds : Holds X G a σ μ
  place : At s st pd μ

theorem Bench.Ready.aimed (R : X.Ready) {p r : Nat} {i : Instr} {c : Option Nat}
    (h : s.Aims p i r c) (hF : s.Leads X.final) :
    ∃ l q, X.final.labels[r]? = some l ∧ l.position = some q ∧ l.cleanup = some c ∧
      X.final.instrs[p]? = some (i.withTarget q) :=
  Draft.Finished.aimed R.placed h hF

/-! ## Instructions -/

namespace Bench.Ready

variable {i : Instr}

theorem instrs (R : X.Ready) : X.machine.code.instrs = X.final.instrs := by
  obtain ⟨l, b, h⟩ := R.code
  rw [h]
  rfl

theorem handlers (R : X.Ready) : X.machine.code.handlers = X.final.handlers := by
  obtain ⟨l, b, h⟩ := R.code
  rw [h]
  rfl

theorem literals (R : X.Ready) : X.machine.code.literals = X.final.literals := by
  obtain ⟨l, b, h⟩ := R.code
  rw [h]
  rfl

theorem methods (R : X.Ready) : X.machine.code.methods = X.final.methods := by
  obtain ⟨l, b, h⟩ := R.code
  rw [h]
  rfl

/-- The step at an instruction that is known. -/
theorem step (R : X.Ready) (hi : X.final.instrs[μ.pointer]? = some i) :
    X.machine.step μ = X.machine.exec i { μ with pointer := μ.pointer + 1 } :=
  Machine.step_of_some (by rw [R.instrs, hi])

theorem goes (R : X.Ready) (hi : X.final.instrs[μ.pointer]? = some i)
    (h : X.machine.exec i { μ with pointer := μ.pointer + 1 } = .ok none μ') :
    X.machine.Goes 1 μ μ' :=
  Machine.goes_of_exec (by rw [R.instrs, hi]) h

theorem emitted (hF : (s.emitted i).Leads X.final) (hi : i.target? = none) :
    X.final.instrs[s.instrs.size]? = some i :=
  Draft.Leads.emitted hF hi

/-- An instruction that only works on the stack is carried out. -/
theorem carry (R : X.Ready) (h : Stands X G a σ s st pd μ) (hF : (s.emitted i).Leads X.final)
    (hi : i.target? = none) (ht : i.transfersControl = false)
    (hexec : ∀ μ : MachineState, μ.stack = st → Holds X G a σ μ →
      X.machine.exec i μ = .ok none { μ with stack := st' })
    (hlen : st'.length = st.length - (effectOf s.methods i).1 + (effectOf s.methods i).2) :
    X.Reaches μ (Stands X G a σ (s.emitted i) st' pd) := by
  have hat := h.place
  have hold : Holds X G a σ { μ with pointer := μ.pointer + 1 } := h.holds.moved rfl rfl
  have hgo := R.goes (by rw [hat.pointer]; exact emitted hF hi) (hexec _ hat.stack hold)
  exact .of_goes hgo (.here ⟨hold.moved rfl rfl, hat.carried ht rfl rfl rfl hlen⟩)

/-- A jump takes one turn; `taken` tells whether it goes to its label. -/
theorem turn (R : X.Ready) {r : Nat} {u : Unit} (taken : Bool) (st' : List Value)
    (h : Stands X G a σ s st pd μ)
    (hj : jumpTo i r X.env s = .ok (u, s')) (hs : s.Sound) (hr : r < s.labels.size)
    (hF : s'.Leads X.final) (ht : taken = false → i.transfersControl = false)
    (hexec : ∀ (q : Nat) (μ : MachineState), μ.stack = st →
      X.machine.exec (i.withTarget q) μ =
        .ok none { μ with stack := st', pointer := if taken then q else μ.pointer })
    (hlen : st'.length = st.length - (effectOf s.methods i).1 + (effectOf s.methods i).2) :
    ∃ μ', X.machine.Goes 1 μ μ' ∧ Holds X G a σ μ' ∧
      if taken then Landed X.final r st' pd μ' else At s' st' pd μ' := by
  have hat := h.place
  obtain ⟨q, hi, hend⟩ := Draft.Finished.jump R.placed taken st' hat hj hs hr hF ht hlen
  refine ⟨_, R.goes hi (hexec q { μ with pointer := μ.pointer + 1 } hat.stack),
    h.holds.moved rfl rfl, ?_⟩
  cases taken <;> exact hend

/-- A jump is carried out; `taken` tells whether it goes to its label. -/
theorem branch (R : X.Ready) {r : Nat} {u : Unit} (taken : Bool) (st' : List Value)
    (h : Stands X G a σ s st pd μ)
    (hj : jumpTo i r X.env s = .ok (u, s')) (hs : s.Sound) (hr : r < s.labels.size)
    (hF : s'.Leads X.final) (ht : taken = false → i.transfersControl = false)
    (hexec : ∀ (q : Nat) (μ : MachineState), μ.stack = st →
      X.machine.exec (i.withTarget q) μ =
        .ok none { μ with stack := st', pointer := if taken then q else μ.pointer })
    (hlen : st'.length = st.length - (effectOf s.methods i).1 + (effectOf s.methods i).2) :
    X.Reaches μ fun μ' => Holds X G a σ μ' ∧
      if taken then Landed X.final r st' pd μ' else At s' st' pd μ' := by
  obtain ⟨μ', hgo, h'⟩ := R.turn taken st' h hj hs hr hF ht hexec hlen
  exact .of_goes hgo (.here h')

end Bench.Ready

end TreeCode

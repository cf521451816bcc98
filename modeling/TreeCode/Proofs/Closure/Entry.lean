import TreeCode.Proofs.Closure.Invoke

/-!
# Entering a unit with captured variables

A call of a lambda makes a cell for each argument. A call of its code finds the arguments in
the first slots, moves those that are captured into cells, and loads the entries of the
record that are mentioned more than once. After that both runs agree on the parameters, and
on the variables that the unit captures.

Main definitions:

* `Frame.atCall`, `Loom.Sees` — where a call starts, and what the record must have then.

Main results:

* `Loom.bringInParams` — the parameters come into scope in both runs.
* `Loom.hoistAll` — entries of the record are loaded into slots that keep them.
* `Loom.enters` — **both runs reach the body of a lambda in states that agree**.
-/

namespace TreeCode.Closure

open Draft Lower

theorem Link.Passes.mono {a b : Link} {ts : List Ty} {xs xs' : List Value} (h : a.Passes ts xs xs')
    (hab : a.Le b) : b.Passes ts xs xs' := by
  induction h with
  | nil => exact .nil
  | cons hx hshape _ ih => exact .cons (hx.mono hab) hshape ih

/-- No code is emitted for parameters that come into scope. -/
theorem bringInParams_instrs {env : LowerEnv} {vs : List Var} {s s' : Draft} {u : Unit}
    (h : Lower.bringInParams vs env s = .ok (u, s')) : s'.instrs = s.instrs := by
  induction vs generalizing s with
  | nil =>
    obtain ⟨-, rfl⟩ := pure_ok.1 h
    rfl
  | cons v vs ih =>
    obtain ⟨slot, hidden, t, hv, h⟩ := Lower.bringInParams_cons h
    obtain ⟨-, rfl, -, rfl⟩ := bringIn_ok.1 hv
    have hrest := ih h
    exact hrest

/-- Moving arguments into cells leaves the scope as it is. -/
theorem boxParams_same {env : LowerEnv} {slot : Nat} {vs : List Var} {s s' : Draft} {u : Unit}
    (h : Lower.boxParams slot vs env s = .ok (u, s')) : Same s s' := by
  induction vs generalizing slot s with
  | nil =>
    obtain ⟨-, rfl⟩ := pure_ok.1 h
    exact .refl s
  | cons v vs ih =>
    rw [Lower.boxParams, read_bind] at h
    split at h
    · rw [emit_bind, emit_bind] at h
      exact ((Same.emitted _ _).trans (.emitted _ _)).trans (ih h)
    · exact ih h

/-- The frame in which a call of a unit starts. -/
def Frame.atCall (captured : List (Nat × Nat)) (a : Link) (w : World) : Frame where
  vars := []
  frozen := []
  scopes := (Scopes.ofList captured).enter
  start := a
  world := w

/-- For each variable that the unit captures its record has the cell that is linked to the one
among those that the evaluated function sees. -/
def Loom.Sees {Z : Setting} (X : Loom Z) (a : Link) (captured : List (Nat × Nat)) : Prop :=
  ∀ (i : Nat) v, X.unit.plan.captures[i]? = some v → ∃ r r',
    (Scopes.ofList captured).get? v.id = some r ∧ X.record.cells[i]? = some r' ∧
      a.cells r = some (r', Z.types v.id)

namespace Loom

variable {Z : Setting} {X : Loom Z} {G : Frame} {a b : Link} {σ : EvalState} {μ : MachineState}
  {s s' t t' : Draft} {st : List Value} {v : Var} {vs : List Var} {x x' : Value} {xs xs' : List Value}
  {u u' : Unit}

/-! ## Parameters -/

/-- The argument in a slot becomes the value of a variable that lives there, or in a cell. -/
theorem boxParam_comes {slot : Nat} (hbox : Lower.boxParams slot (v :: vs) X.env t = .ok (u, t'))
    (hF : t'.Leads X.final) (hx : μ.locals[slot]? = some x') (ht : t.Sound) :
    ∃ t₁, t₁.Sound ∧ Lower.boxParams (slot + 1) vs X.env t₁ = .ok (u, t') ∧
      Comes X.pact.machines (μ.movedTo t.instrs.size st)
        (· = (declared μ (X.unit.plan.isBoxed v.id) slot x').movedTo t₁.instrs.size st) := by
  rw [Lower.boxParams, read_bind] at hbox
  cases hb : X.unit.plan.isBoxed v.id with
  | false =>
    rw [show X.env.plan.isBoxed v.id = false from hb] at hbox
    refine ⟨t, ht, hbox, .here ?_⟩
    -- The slot has the argument already.
    simp only [declared, Bool.false_eq_true, if_false, MachineState.putSlot]
    rw [setIfInBounds_eq_self hx]
  | true =>
    rw [show X.env.plan.isBoxed v.id = true from hb] at hbox
    simp only [if_true, emit_bind] at hbox
    have hq₁ := Quiet.emitted t (.loadLocal slot)
    have hq₂ := Quiet.emitted (t.emitted (.loadLocal slot)) (.newCell slot)
    have hs₂ := hq₂.sound (hq₁.sound ht)
    have hF₂ := ((laysOut_scoped (J := [])).boxParams X.env _ _ t' hbox hs₂ (by simp)).leads.trans hF
    have hlt : slot < μ.locals.size := (Array.getElem?_eq_some_iff.1 hx).1
    refine ⟨_, hs₂, hbox, ?_⟩
    have hload : Comes X.pact.machines (μ.movedTo t.instrs.size st)
        (· = μ.movedTo (t.emitted (.loadLocal slot)).instrs.size (x' :: st)) := by
      refine .carry X.follows (hq₂.leads.trans hF₂) rfl fun n p => ?_
      simp only [Machine.exec, MachineM.readSlot, bind, EStateM.bind, get, getThe,
        MonadStateOf.get, EStateM.get, MachineState.movedTo_locals, hx]
      rfl
    refine hload.bind ?_
    rintro _ rfl
    exact newCell_comes hF₂ hlt

/-- The parameters come into scope in both runs. The code that moves arguments into cells
starts behind the draft `t`; all parameters have their slots by then. -/
theorem bringInParams (st : List Value) (hin : Lower.bringInParams vs X.env s = .ok (u, s'))
    (hbox : Lower.boxParams s.numLocals vs X.env t = .ok (u', t')) (hsound : s.Sound) (ht : t.Sound)
    (hs : X.Suits G s) (hroom : s'.numLocals ≤ X.final.numLocals) (hF : t'.Leads X.final)
    (hty : ∀ v ∈ vs, Z.types v.id = v.ty) (hpass : a.Passes (vs.map (·.ty)) xs xs')
    (hslots : ∀ (i : Nat) x', xs'[i]? = some x' → μ.locals[s.numLocals + i]? = some x')
    (h : X.Holds G a σ μ) :
    ∃ bindings w new b, freshArguments vs xs σ.world = .ok bindings w ∧ a.Le b ∧
      X.Suits { G with vars := new ++ G.vars, scopes := G.scopes.bindAll bindings } s' ∧
      Comes X.pact.machines (μ.movedTo t.instrs.size st) fun μ' =>
        X.Holds { G with vars := new ++ G.vars, scopes := G.scopes.bindAll bindings } b
          { σ with world := w, scopes := σ.scopes.bindAll bindings } μ' ∧
        μ' = μ'.movedTo t'.instrs.size st := by
  induction vs generalizing G a σ μ s t xs xs' with
  | nil =>
    cases hpass
    obtain ⟨-, rfl⟩ := pure_ok.1 hin
    obtain ⟨-, rfl⟩ := pure_ok.1 hbox
    exact ⟨[], σ.world, [], a, rfl, .refl a, hs, .here ⟨{ h with }, rfl⟩⟩
  | cons v vs ih =>
    rw [List.map_cons] at hpass
    cases hpass with
    | @cons _ _ x x' xs xs' hx _ hrest =>
    obtain ⟨slot, hidden, s₁, hv, hin⟩ := Lower.bringInParams_cons hin
    have hsound₁ := (bringIn_quiet hv).sound hsound
    have hle := ((laysOut_scoped (J := [])).bringInParams X.env s₁ _ s' hin hsound₁
      (by simp)).leads.numLocals_le
    have hs₁ := hs.declare h hv
    obtain ⟨-, rfl, -, rfl⟩ := bringIn_ok.1 hv
    have hlt : s.numLocals < X.final.numLocals := Nat.lt_of_lt_of_le (Nat.lt_of_succ_le hle) hroom
    have hslot : μ.locals[s.numLocals]? = some x' := hslots 0 x' rfl
    obtain ⟨t₁, ht₁, hbox, hcomes⟩ := boxParam_comes hbox hF hslot ht
    rw [← hty v (by simp)] at hx
    have hold := h.declare v.id (X.unit.plan.isBoxed v.id) hs (Nat.le_refl _) hlt hx
    have hab := a.le_declare (X.unit.plan.isBoxed v.id) μ.world.store.cells.size (Z.types v.id)
    obtain ⟨bindings, w, new, b, hfresh, hle', hs', hcomes'⟩ := ih hin hbox hsound₁ ht₁ hs₁
      (fun v hv => hty v (.tail _ hv)) (hrest.mono hab) (fun i y hy => by
        -- Arguments that wait for their turn stay in their slots.
        have hy' := hslots (i + 1) y hy
        rw [declared_locals, Array.getElem?_setIfInBounds_ne (by show _ ≠ s.numLocals + 1 + i; omega)]
        rwa [Nat.add_comm i, ← Nat.add_assoc] at hy') hold
    refine ⟨(v.id, σ.world.store.cells.size) :: bindings, w,
      new ++ [⟨s.numLocals, a.bound, Z.types v.id, X.unit.plan.isBoxed v.id⟩], b,
      freshArguments_cons hfresh, hab.trans hle', ?_, ?_⟩
    · simpa [Frame.declare, Scopes.bindAll, h.agree.bound] using hs'
    · refine hcomes.bind ?_
      rintro _ rfl
      simpa [Frame.declare, EvalState.declare, Scopes.bindAll, h.agree.bound] using hcomes'

/-! ## Entries of the record -/

/-- An entry of the record is loaded into a slot, which keeps it. -/
theorem hoist {index uses : Nat} (h : Lower.hoist index uses X.env s = .ok (u, s')) (hs : X.Suits G s)
    (hF : s'.Leads X.final) (hx : X.record.values[index]? = some x) :
    ∃ more, X.Suits { G with frozen := more ++ G.frozen } s' ∧ ∀ ⦃a σ μ st⦄, X.Holds G a σ μ →
      Comes X.pact.machines (μ.movedTo s.instrs.size st) fun μ' =>
        X.Holds { G with frozen := more ++ G.frozen } a σ μ' ∧ μ' = μ'.movedTo s'.instrs.size st := by
  rcases Lower.hoist_ok h with rfl | ⟨k, t, ht, rfl⟩
  -- An entry that is used only once is not moved.
  · exact ⟨[], hs, fun a σ μ st hold => .here ⟨X.pact.holds_moved _ _ hold, rfl⟩⟩
  have hsame := newSlot_same ht
  obtain ⟨hsize, hstart, rfl⟩ : t.numLocals = s.numLocals + 1 ∧ t.instrs.size = s.instrs.size ∧
      k = s.numLocals := by
    obtain ⟨-, rfl, rfl⟩ := newSlot_ok.1 ht
    exact ⟨rfl, rfl, rfl⟩
  have hq := Quiet.emitted (t.emitted (.loadConstant index)) (.storeLocal s.numLocals)
  have hq' : Quiet ((t.emitted (.loadConstant index)).emitted (.storeLocal s.numLocals))
      { ((t.emitted (.loadConstant index)).emitted (.storeLocal s.numLocals)) with
        hoisted := (index, s.numLocals) :: t.hoisted } :=
    .of_eq rfl rfl rfl rfl (Nat.le_refl _) (Nat.le_refl _) ⟨rfl, rfl, rfl, rfl⟩
  have hF₂ := hq'.leads.trans hF
  have hs₁ : X.Suits G t := hs.of_same hsame (hsize ▸ Nat.le_succ _)
  have hs₂ : X.Suits { G with frozen := (s.numLocals, x) :: G.frozen } t :=
    X.pact.suits_freeze x hs₁ (hsize ▸ Nat.lt_succ_self _)
  have hlt : s.numLocals < X.final.numLocals :=
    Nat.lt_of_lt_of_le (hsize ▸ Nat.lt_succ_self _)
      ((Quiet.emitted t _).leads.trans (hq.leads.trans hF₂)).numLocals_le
  have hs₃ := hs₂.of_same ((Same.emitted t (.loadConstant index)).trans
    (.emitted _ (.storeLocal s.numLocals))) (Nat.le_refl _)
  -- The slot holds the entry, and keeps it: no variable will be put there.
  refine ⟨[(s.numLocals, x)], { hs₃ with hoisted := fun i j hj => ?_ }, fun a σ μ st hold => ?_⟩
  · simp only [List.lookup_cons] at hj
    split at hj
    · rename_i heq
      obtain rfl := eq_of_beq heq
      obtain rfl := Option.some.inj hj
      exact ⟨x, hx, .head _⟩
    · rw [hsame.hoisted] at hj
      exact (hs.hoisted i j hj).imp fun _ h => h.imp_right (.tail _)
  · obtain ⟨hk, hold'⟩ := hold.freeze x hs (Nat.le_refl _) hlt
    rw [← hstart]
    refine (loadConstant_comes (hq.leads.trans hF₂) hx).bind ?_
    rintro _ rfl
    refine (storeLocal_comes X.follows hF₂ hk).mono ?_
    rintro _ rfl
    exact ⟨X.pact.holds_moved _ _ hold', rfl⟩

/-- The entries that are mentioned more than once are loaded. -/
theorem hoistAll {index : Nat} {uses : List Nat} (h : Lower.hoistAll index uses X.env s = .ok (u, s'))
    (hsound : s.Sound) (hs : X.Suits G s) (hF : s'.Leads X.final)
    (hx : ∀ i < uses.length, ∃ x, X.record.values[index + i]? = some x) :
    ∃ more, X.Suits { G with frozen := more ++ G.frozen } s' ∧ ∀ ⦃a σ μ st⦄, X.Holds G a σ μ →
      Comes X.pact.machines (μ.movedTo s.instrs.size st) fun μ' =>
        X.Holds { G with frozen := more ++ G.frozen } a σ μ' ∧ μ' = μ'.movedTo s'.instrs.size st := by
  induction uses generalizing index G s with
  | nil =>
    obtain ⟨-, rfl⟩ := pure_ok.1 h
    exact ⟨[], hs, fun a σ μ st hold => .here ⟨X.pact.holds_moved _ _ hold, rfl⟩⟩
  | cons n uses ih =>
    obtain ⟨⟨⟩, t, h₁, h₂⟩ := bind_ok.1 h
    obtain ⟨x, hx₀⟩ := hx 0 (by simp)
    have hsound₁ : t.Sound := by
      have hone : Lower.hoistAll index [n] X.env s = .ok ((), t) := bind_ok.2 ⟨_, t, h₁, rfl⟩
      exact ((laysOut_scoped (J := [])).hoistAll X.env s _ t hone hsound (by simp)).sound
    have hF₁ := ((laysOut_scoped (J := [])).hoistAll X.env t u s' h₂ hsound₁ (by simp)).leads.trans hF
    obtain ⟨more₁, hs₁, hcomes₁⟩ := hoist h₁ hs hF₁ hx₀
    obtain ⟨more₂, hs₂, hcomes₂⟩ := ih h₂ hsound₁ hs₁ fun i hi => by
      have hxi := hx (i + 1) (by simpa using hi)
      rwa [Nat.add_comm i, ← Nat.add_assoc] at hxi
    refine ⟨more₂ ++ more₁, by simpa using hs₂, fun a σ μ st hold => ?_⟩
    refine (hcomes₁ hold).bind ?_
    rintro μ₁ ⟨hold₁, hμ₁⟩
    rw [hμ₁]
    simpa using hcomes₂ hold₁

/-! ## Entering -/

/-- Before a call the variables that the unit captures are in cells that are linked, and there
are no others. -/
theorem Suits.atCall {captured : List (Nat × Nat)} {w w' : World} (h : Agree Z a w w')
    (hcells : X.Sees a captured) : X.Suits (.atCall captured a w) {} where
  vars := by simp [Slots.get?]
  captured id i _ hi := by
    obtain ⟨hlt, hid, -⟩ := List.findIdx?_eq_some_iff_getElem.1 hi
    obtain ⟨r, r', hr, hr', hlink⟩ := hcells i _ (List.getElem?_eq_getElem hlt)
    rw [show X.unit.plan.captures[i].id = id by simpa using hid] at hr hlink
    exact ⟨r, r', by simpa [Frame.atCall] using hr, hr', (h.cells hlink).1, hlink⟩
  slots := by simp [Frame.atCall]
  refs := by simp [Frame.atCall]
  own := by simp [Frame.atCall]
  slot_lt := by simp [Frame.atCall]
  frozen_lt := by simp [Frame.atCall]
  hoisted := by simp

theorem Holds.atCall {w w' : World} (captured : List (Nat × Nat)) (h : Agree Z a w w') {locals : Array Value}
    (hsize : locals.size = X.final.numLocals) :
    X.Holds (.atCall captured a w) a { world := w, scopes := (Scopes.ofList captured).enter }
      { world := w', locals } where
  scopes := rfl
  agree := h
  start := .refl a
  keeps := .refl a w
  plain := by simp [Frame.atCall]
  boxed := by simp [Frame.atCall]
  frozen := by simp [Frame.atCall]
  apart := by simp [Frame.atCall]
  size := hsize

/-- **Both runs reach the body of a lambda in states that agree**: the arguments are the values
of the parameters. -/
theorem enters {captured : List (Nat × Nat)} {w w' : World} (hpro : (do
      Lower.bringInParams vs
      Lower.prologue vs) X.env {} = .ok (u, s)) (hF : s.Leads X.final) (hagree : Agree Z a w w')
    (hcells : X.Sees a captured)
    (hty : ∀ v ∈ vs, Z.types v.id = v.ty) (hpass : a.Passes (vs.map (·.ty)) xs xs') {locals : Array Value}
    (hsize : locals.size = X.final.numLocals)
    (hlocals : ∀ (i : Nat) x', xs'[i]? = some x' → locals[i]? = some x') :
    ∃ bindings w₁ G b, freshArguments vs xs w = .ok bindings w₁ ∧ G.start = a ∧ G.world = w ∧
      a.Le b ∧ X.Suits G s ∧ Comes X.pact.machines { world := w', locals } fun μ =>
        X.Holds G b { world := w₁, scopes := (Scopes.ofList captured).enter.bindAll bindings } μ ∧
          μ = μ.movedTo s.instrs.size [] := by
  obtain ⟨⟨⟩, s₁, hparams, hrest⟩ := bind_ok.1 hpro
  simp only [Lower.prologue, read_bind] at hrest
  obtain ⟨⟨⟩, s₂, hbox, hhoist⟩ := bind_ok.1 hrest
  replace hhoist : Lower.hoistAll 0 (X.unit.plan.constants.map (·.uses) ++
      X.unit.plan.nested.map (·.uses)) X.env s₂ = .ok (u, s) := hhoist
  have hsound := (begun_empty X.env).fit.sound
  have hsound₁ := ((laysOut_scoped (J := [])).bringInParams X.env {} _ _ hparams hsound (by simp)).sound
  have hlays₂ := (laysOut_scoped (J := [])).boxParams X.env _ _ _ hbox hsound₁ (by simp)
  have hlays₃ := (laysOut_scoped (J := [])).hoistAll X.env _ _ s hhoist hlays₂.sound (by simp)
  have hF₂ := hlays₃.leads.trans hF
  obtain ⟨bindings, w₁, new, b, hfresh, hab, hs₁, hcomes₁⟩ := bringInParams [] hparams hbox hsound
    hsound₁ (.atCall hagree hcells) (hlays₂.leads.trans hF₂).numLocals_le hF₂ hty hpass
    (fun i x' hx => by simpa using hlocals i x' hx) (.atCall captured hagree hsize)
  have hs₂ := hs₁.of_same (boxParams_same hbox) hlays₂.leads.numLocals_le
  -- The record has an entry for each constant and each lambda of the plan.
  obtain ⟨forms, hvalues, hforms⟩ := CompileM.recordEntries_ok X.values
  have hlen := (CompileM.nestedEntries_ok hforms).1
  obtain ⟨more, hs, hcomes₂⟩ := hoistAll hhoist hlays₂.sound hs₂ hF fun i hi => by
    refine ⟨_, List.getElem?_eq_getElem ?_⟩
    simp only [List.length_append, List.length_map] at hi
    rw [hvalues, List.length_append, List.length_map]
    omega
  refine ⟨bindings, w₁, _, b, hfresh, rfl, rfl, hab, hs, ?_⟩
  have hstart : s₁.instrs.size = 0 := by rw [bringInParams_instrs hparams]; rfl
  rw [hstart] at hcomes₁
  refine Comes.bind hcomes₁ ?_
  rintro μ₁ ⟨hold₁, hμ₁⟩
  rw [hμ₁]
  exact hcomes₂ hold₁

end Loom

end TreeCode.Closure

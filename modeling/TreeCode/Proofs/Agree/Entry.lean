import TreeCode.Proofs.Agree.Block
import TreeCode.Proofs.Compile.Tally
import TreeCode.Proofs.Lower.Course

/-!
# Entering a unit

A call of a lambda makes a cell for each argument and then evaluates the body. The code
of the lambda finds the arguments in its first slots, and starts by loading the entries
of its record that are mentioned more than once. After that both runs agree on the
parameters, and the code of the body comes next.

Main results:

* `planLambda_single` — the plan of a lambda without lambdas inside.
* `Bench.Ready.enters` — **both runs reach the body of a lambda in states that agree**.
-/

namespace TreeCode

open Draft Lower

/-! ## Plans -/

theorem Survey.mention_boxed {v : Var} {s t : Survey} (h : Survey.mention v s = .ok ((), t)) :
    t.plan.boxed = s.plan.boxed := by
  obtain ⟨_, _, hget, h⟩ := Survey.bind_ok.1 h
  cases hget
  split at h
  · cases h
    rfl
  · obtain ⟨_, _, hget, h⟩ := Survey.bind_ok.1 h
    cases hget
    split at h
    · cases h
      show (s.plan.noteCapture v).boxed = s.plan.boxed
      unfold Plan.noteCapture
      split <;> rfl
    · cases h

/-- A walk that meets no lambda plans no unit, and puts no variable into a cell. -/
theorem Tour.single {M : List Mention} {s t : Survey} (h : Tour M s t)
    (hM : ∀ D k, .lambda D k ∉ M) :
    t.units = s.units ∧ t.plan.nested = s.plan.nested ∧ t.plan.boxed = s.plan.boxed := by
  induction h with
  | nil => exact ⟨rfl, rfl, rfl⟩
  | append _ _ ih₁ ih₂ =>
    simp only [List.mem_append, not_or] at hM
    obtain ⟨hu₁, hn₁, hb₁⟩ := ih₁ fun D k => (hM D k).1
    obtain ⟨hu₂, hn₂, hb₂⟩ := ih₂ fun D k => (hM D k).2
    exact ⟨hu₂.trans hu₁, hn₂.trans hn₁, hb₂.trans hb₁⟩
  | @constant v s =>
    refine ⟨rfl, Plan.noteConstant_nested s.plan v, ?_⟩
    simp only [Plan.noteConstant]
    split <;> rfl
  | @label l s =>
    refine ⟨rfl, (Plan.noteLabel_same s.plan l.id).2, ?_⟩
    simp only [Plan.noteLabel]
    split <;> rfl
  | @place l s =>
    refine ⟨rfl, (Plan.noteLabel_same s.plan l.id).2, ?_⟩
    simp only [Plan.noteLabel]
    split <;> rfl
  | var h => exact ⟨(Survey.mention_aside h).units, (Survey.mention_aside h).nested,
      Survey.mention_boxed h⟩
  | block _ ih => exact ih fun D k hk => hM D k (.tail _ hk)
  | handler _ ih => exact ih hM
  | again _ _ => exact absurd (.head _) (hM _ _)
  | first _ _ _ _ => exact absurd (.head _) (hM _ _)

/-- The plan of a lambda without lambdas inside. -/
theorem planLambda_single {l : Lambda} {plan : Plan} {units : Array UnitPlan}
    (h : planLambda l = .ok (plan, units)) (hl : ∀ D k, .lambda D k ∉ l.mentions) :
    units = #[] ∧ plan.nested = [] ∧ plan.boxed = [] ∧
      plan.constants.map (·.value) = l.constants := by
  obtain ⟨s, hwalk, rfl, rfl⟩ := planLambda_tour h
  obtain ⟨hu, hn, hb⟩ := hwalk.single hl
  refine ⟨hu, hn, hb, ?_⟩
  rw [Lambda.constants, eraseDupsBy_eq_foldl]
  exact hwalk.constants_eq

/-! ## Parameters -/

variable {J : Discipline} {X : Bench J} {G G' : Frame} {a : J.State} {σ : EvalState}
  {μ : MachineState} {s s' : Draft} {st : List Value} {pd : List Pending} {u : Unit}

/-- The first of the cells that a call makes. -/
theorem freshArguments_cons {v : Var} {vs : List Var} {x : Value} {xs : List Value} {w : World}
    {bindings : List (Nat × Nat)} (h : freshArguments vs xs (σ.declare v.id x).world =
      .ok bindings w) : freshArguments (v :: vs) (x :: xs) σ.world =
      .ok ((v.id, σ.world.store.cells.size) :: bindings) w := by
  have hcell : RunM.newCell x σ.world = .ok σ.world.store.cells.size (σ.declare v.id x).world := rfl
  rw [freshArguments]
  simp only [bind, EStateM.bind, hcell, h]
  rfl

theorem Lower.bringInParams_cons {v : Var} {vs : List Var} {env : LowerEnv}
    (h : bringInParams (v :: vs) env s = .ok (u, s')) :
    ∃ slot hidden t, bringIn v env s = .ok ((slot, hidden), t) ∧
      bringInParams vs env t = .ok (u, s') := by
  simp only [bringInParams, bind_ok, newSlot_ok, modify_ok] at h
  obtain ⟨slot, _, ⟨hroom, rfl, rfl⟩, _, _, rfl, h⟩ := h
  exact ⟨s.numLocals, _, _, bringIn_ok.2 ⟨hroom, rfl, rfl, rfl⟩, h⟩

theorem setIfInBounds_eq_self {xs : Array Value} {i : Nat} {x : Value}
    (h : xs[i]? = some x) : xs.setIfInBounds i x = xs := by
  obtain ⟨hlt, rfl⟩ := Array.getElem?_eq_some_iff.1 h
  simp [Array.setIfInBounds, hlt]

/-- Parameters come into scope; the machine has the arguments in their slots. -/
theorem Stands.bringInParams {vs : List Var} {xs : List Value}
    (hin : Lower.bringInParams vs X.env s = .ok (u, s')) (hs : s.Sound) (hfits : Suits X G s)
    (hF : s'.Leads X.final) (hst : Stands X G a σ s st pd μ)
    (hxs : List.Forall₂ (fun v x => J.has a x (X.types v.id)) vs xs)
    (hslots : ∀ (i : Nat) x, xs[i]? = some x → μ.locals[s.numLocals + i]? = some x) :
    ∃ bindings w G', freshArguments vs xs σ.world = .ok bindings w ∧ Suits X G' s' ∧
      G'.depth = G.depth ∧
      Stands X G' a { σ with world := w, scopes := σ.scopes.bindAll bindings } s' st pd μ := by
  induction hxs generalizing G σ s with
  | nil =>
    obtain ⟨-, rfl⟩ := pure_ok.1 hin
    exact ⟨[], σ.world, G, rfl, hfits, rfl, hst⟩
  | @cons v x vs xs hx hxs ih =>
    obtain ⟨slot, hidden, t, hv, hin⟩ := Lower.bringInParams_cons hin
    have hs₁ := (bringIn_quiet hv).sound hs
    have hF₁ := ((laysOut_scoped (J := [])).bringInParams X.env t u s' hin hs₁ (by simp)).leads.trans hF
    obtain ⟨hfits₁, hclear, hlt⟩ := hfits.declare hs hv hF₁
      fun t ht => Nat.ne_of_lt (hst.holds.ref_lt t ht)
    obtain ⟨-, rfl, -, rfl⟩ := bringIn_ok.1 hv
    have hsame := setIfInBounds_eq_self (hslots 0 x rfl)
    have hold := hst.holds.declare v.id hx hclear hlt
    simp only [Nat.add_zero] at hsame
    rw [hsame] at hold
    obtain ⟨bindings, w, G', hfresh, hfits', hdepth, hst'⟩ := ih hin hs₁ hfits₁
      ⟨hold, (hst.broughtIn hv).place⟩ fun i y hy => by
        have := hslots (i + 1) y hy
        rwa [Nat.add_comm i, ← Nat.add_assoc] at this
    exact ⟨_, w, G', freshArguments_cons hfresh, hfits', hdepth, by
      simpa [Scopes.bindAll, EvalState.declare] using hst'⟩

/-! ## Entries of the record -/

/-- Nothing is moved into cells. -/
theorem Bench.Ready.boxParams (R : X.Ready) {slot : Nat} {vs : List Var}
    (h : Lower.boxParams slot vs X.env s = .ok (u, s')) : s' = s := by
  induction vs generalizing slot with
  | nil =>
    obtain ⟨-, rfl⟩ := pure_ok.1 h
    rfl
  | cons v vs ih =>
    rw [Lower.boxParams, read_bind] at h
    split at h
    · rename_i hboxed
      simp [Plan.isBoxed, R.boxed] at hboxed
    · exact ih h

theorem Lower.hoist_ok {env : LowerEnv} {index uses : Nat}
    (h : hoist index uses env s = .ok (u, s')) : s' = s ∨ ∃ k t, newSlot env s = .ok (k, t) ∧
      s' = { ((t.emitted (.loadConstant index)).emitted (.storeLocal k)) with
        hoisted := (index, k) :: t.hoisted } := by
  simp only [hoist, ite_ok, bind_ok, emit_ok, modify_ok, pure_ok] at h
  rcases h with ⟨-, k, t, ht, _, _, rfl, _, _, rfl, rfl⟩ | ⟨-, -, rfl⟩
  · exact .inr ⟨k, t, ht, rfl⟩
  · exact .inl rfl

/-- An entry of the record is loaded into a slot, which keeps it. -/
theorem Bench.Ready.hoist (R : X.Ready) {index uses : Nat} {v : Value}
    (h : Lower.hoist index uses X.env s = .ok (u, s')) (hs : s.Sound) (hfits : Suits X G s)
    (hF : s'.Leads X.final) (hv : X.machine.record.values[index]? = some v) :
    ∃ G', G'.depth = G.depth ∧ Suits X G' s' ∧
      ∀ μ, Stands X G a σ s st pd μ → X.Reaches μ (Stands X G' a σ s' st pd) := by
  rcases Lower.hoist_ok h with rfl | ⟨k, t, ht, rfl⟩
  -- An entry that is used only once stays where it is.
  · exact ⟨G, rfl, hfits, fun μ hst => .here hst⟩
  · have hq₁ := Quiet.emitted t (.loadConstant index)
    have hq₂ := Quiet.emitted (t.emitted (.loadConstant index)) (.storeLocal k)
    have hq₃ : Quiet ((t.emitted (.loadConstant index)).emitted (.storeLocal k))
        { ((t.emitted (.loadConstant index)).emitted (.storeLocal k)) with
          hoisted := (index, k) :: t.hoisted } :=
      .of_eq rfl rfl rfl rfl (Nat.le_refl _) (Nat.le_refl _) ⟨rfl, rfl, rfl, rfl⟩
    have hF₂ := hq₃.leads.trans hF
    have hF₁ := hq₂.leads.trans hF₂
    obtain ⟨hfits₁, hclear, hlt⟩ := hfits.freeze hs v ht (hq₁.leads.trans hF₁)
    have hfits₂ := (hfits₁.step (.emitted t (.loadConstant index))).step (.emitted _ (.storeLocal k))
    -- The new slot holds the entry and is frozen.
    refine ⟨G.freeze k v, rfl, { hfits₂ with
      hoisted := fun i j hj => ?_
      label := fun r l j hl hj => ⟨(hfits₂.label r l j hl hj).1, fun p hp hpj =>
        ((hfits₂.label r l j hl hj).2 p hp hpj).congr rfl (Nat.le_refl _)⟩ }, fun μ hst => ?_⟩
    · simp only [List.lookup_cons] at hj
      split at hj
      · rename_i heq
        obtain rfl := eq_of_beq heq
        obtain rfl := Option.some.inj hj
        exact ⟨v, hv, .head _⟩
      · exact hfits₂.hoisted i j hj
    · have hst₁ : Stands X G a σ t st pd μ := by
        obtain ⟨-, -, rfl⟩ := newSlot_ok.1 ht
        exact ⟨hst.holds, hst.place.pointer, hst.place.reachable, hst.place.stack,
          hst.place.height, hst.place.pending⟩
      have hload : X.Reaches μ (Stands X G a σ (t.emitted (.loadConstant index)) (v :: st) pd) := by
        refine R.push hst₁ hF₁ rfl rfl rfl fun μ _ => ?_
        simp only [Machine.exec, Machine.constant, hv]
        rfl
      refine hload.bind fun μ₁ h₁ => (R.putAside h₁ hF₂ hclear hlt).mono fun μ₂ h₂ => ?_
      exact ⟨h₂.holds, h₂.place.pointer, h₂.place.reachable, h₂.place.stack, h₂.place.height,
        h₂.place.pending⟩

/-- The entries that are mentioned more than once are loaded. -/
theorem Bench.Ready.hoistAll (R : X.Ready) {index : Nat} {uses : List Nat}
    (h : Lower.hoistAll index uses X.env s = .ok (u, s')) (hs : s.Sound) (hfits : Suits X G s)
    (hF : s'.Leads X.final)
    (hv : ∀ i < uses.length, ∃ v, X.machine.record.values[index + i]? = some v) :
    ∃ G', G'.depth = G.depth ∧ Suits X G' s' ∧
      ∀ μ, Stands X G a σ s st pd μ → X.Reaches μ (Stands X G' a σ s' st pd) := by
  induction uses generalizing index G s with
  | nil =>
    obtain ⟨-, rfl⟩ := pure_ok.1 h
    exact ⟨G, rfl, hfits, fun μ hst => .here hst⟩
  | cons n uses ih =>
    obtain ⟨⟨⟩, t, h₁, h₂⟩ := bind_ok.1 h
    obtain ⟨v, hv₀⟩ := hv 0 (by simp)
    have hs₁ : t.Sound := by
      have : Lower.hoistAll index [n] X.env s = .ok ((), t) := bind_ok.2 ⟨_, t, h₁, rfl⟩
      exact ((laysOut_scoped (J := [])).hoistAll X.env s _ t this hs (by simp)).sound
    have hF₁ := ((laysOut_scoped (J := [])).hoistAll X.env t u s' h₂ hs₁ (by simp)).leads.trans hF
    obtain ⟨G₁, hd₁, hfits₁, hreach₁⟩ := R.hoist h₁ hs hfits hF₁ hv₀
    obtain ⟨G₂, hd₂, hfits₂, hreach₂⟩ := ih h₂ hs₁ hfits₁ fun i hi => by
      have := hv (i + 1) (by simpa using hi)
      rwa [Nat.add_comm i, ← Nat.add_assoc] at this
    exact ⟨G₂, hd₂.trans hd₁, hfits₂, fun μ hst => (hreach₁ μ hst).bind hreach₂⟩

/-! ## Entering -/

/-- The frame in which a call of a lambda starts. -/
def Frame.outermost (depth : Nat) : Frame where
  twins := []
  frozen := []
  scopes := (Scopes.ofList []).enter
  caught := []
  depth := depth

theorem Suits.outermost (depth : Nat) : Suits X (.outermost depth) {} where
  vars := by simp [Slots.get?]
  caught := .nil
  hoisted := by simp
  twin_lt := by simp [Frame.outermost]
  frozen_lt := by simp [Frame.outermost]
  refs := by simp [Frame.outermost]
  slots := by simp [Frame.outermost]
  apart := by simp [Frame.outermost]
  label := by simp [Frame.outermost]
  cleanups := by simp

/-- **Both runs reach the body of a lambda in states that agree**: the arguments are the
values of the parameters. -/
theorem Bench.Ready.enters (R : X.Ready) {vs : List Var} {xs : List Value} {w w₀ : World}
    (hpro : (do
      Lower.bringInParams vs
      Lower.prologue vs) X.env {} = .ok (u, s)) (hF : s.Leads X.final) (hw : J.good a w)
    (hxs : List.Forall₂ (fun v x => J.has a x (X.types v.id)) vs xs)
    (hdepth : w.depth = X.depth) (hsees : X.Sees w w₀)
    (hrecord : X.env.supplied = none → X.machine.record.values.length =
      X.env.plan.constants.length + X.env.plan.nested.length) (locals : Array Value)
    (hsize : locals.size = X.final.numLocals)
    (hlocals : ∀ (i : Nat) x, xs[i]? = some x → locals[i]? = some x) :
    ∃ bindings w' G, freshArguments vs xs w = .ok bindings w' ∧ Suits X G s ∧
      G.depth = w.depthAt X.gauge ∧
      X.Reaches { world := w₀, locals } (Stands X G a
        { world := w', scopes := (Scopes.ofList []).enter.bindAll bindings } s [] []) := by
  obtain ⟨⟨⟩, s₁, hparams, hrest⟩ := bind_ok.1 hpro
  simp only [Lower.prologue, read_bind] at hrest
  obtain ⟨⟨⟩, s₂, hbox, hload⟩ := bind_ok.1 hrest
  obtain rfl := R.boxParams hbox
  have hs₀ := (begun_empty X.env).fit.sound
  have hs₁ := ((laysOut_scoped (J := [])).bringInParams X.env {} _ _ hparams hs₀ (by simp)).sound
  -- a record that is supplied is loaded where it is mentioned, if at all
  obtain ⟨uses, hhoist, huses⟩ : ∃ uses, Lower.hoistAll 0 uses X.env s₂ = .ok (u, s) ∧
      uses.length ≤ X.machine.record.values.length := by
    split at hload
    · rename_i hsup
      exact ⟨_, hload, by simp [hrecord (by simpa using hsup)]⟩
    · exact ⟨[], hload, by simp⟩
  have hF₁ := ((laysOut_scoped (J := [])).hoistAll X.env _ _ s hhoist hs₁ (by simp)).leads.trans hF
  have hcount : w.depth = X.depth.set X.gauge.counter (w.depthAt X.gauge) := by
    rw [World.depthAt, hdepth, Depths.set_get]
  have hstart : Stands X (.outermost (w.depthAt X.gauge)) a
      { world := w, scopes := (Scopes.ofList []).enter } {} [] [] { world := w₀, locals } :=
    ⟨⟨rfl, rfl, hcount, hsees, hw, by simp [Frame.outermost], by simp [Frame.outermost], hsize⟩,
      rfl, rfl, rfl, rfl, rfl⟩
  obtain ⟨bindings, w', G₁, hfresh, hfits₁, hd₁, hst₁⟩ :=
    hstart.bringInParams hparams hs₀ (.outermost (w.depthAt X.gauge)) hF₁ hxs fun i x hx => by
      simpa using hlocals i x hx
  obtain ⟨G, hd, hfits, hreach⟩ := R.hoistAll hhoist hs₁ hfits₁ hF fun i hi => by
    exact ⟨_, List.getElem?_eq_getElem (by omega)⟩
  exact ⟨bindings, w', G, hfresh, hfits, hd.trans hd₁, hreach _ hst₁⟩

end TreeCode

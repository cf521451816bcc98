import TreeCode.Proofs.Closure.Scope

/-!
# Lambdas in a unit

Evaluation makes a function that sees every variable in scope. The machines take the
compiled form of the lambda from the record. If the lambda captures variables, they bind
the form to the cells of these, one after the other, and so make a function, too.

Main results:

* `Loom.Holds.grow` — both runs go on from worlds that agree.
* `Loom.cellLoads_comes` — the cells of captured variables are pushed.
* `Loom.agrees_lambda` — mentions of lambdas agree.
-/

namespace TreeCode

open Draft Lower

/-- What is visible where a list of all bindings is taken is visible in it. -/
theorem Scopes.get?_ofList_toList (sc : Scopes Nat Nat) (k : Nat) :
    (Scopes.ofList sc.toList).get? k = sc.get? k := by
  simp [Scopes.get?, Scopes.ofList, Scopes.toList, Scopes.newestFirst]

namespace Machine

theorem cellRefs_map (refs : List Nat) (μ : MachineState) :
    cellRefs (refs.map .cell) μ = .ok refs μ := by
  induction refs with
  | nil => rfl
  | cons r refs ih =>
    show EStateM.bind (cellRefs (refs.map .cell)) _ μ = _
    simp only [EStateM.bind, ih]
    rfl

/-- An open unit is bound to the cells on top of the stack. -/
theorem exec_curry {m : Machine} {μ : MachineState} {p ref : Nat} {name : Option String}
    {refs : List Nat} {o : OpenUnit} {st : List Value} (ho : μ.world.units[ref]? = some o) :
    m.exec (.curry refs.length) (μ.movedTo p ((refs.map .cell).reverse ++ .openUnit ref name :: st)) =
      .ok none ({ μ with
          world := (μ.world.newFunction (.compiled o.code (.withVariables o.constants refs))).2 }.movedTo p
        ((μ.world.newFunction (.compiled o.code (.withVariables o.constants refs))).1 :: st)) := by
  have hmany : MachineM.popMany refs.length _ = _ := popMany_eq
    (μ := μ.movedTo p ((refs.map .cell).reverse ++ .openUnit ref name :: st)) (by simp) rfl
  show EStateM.bind (Machine.curry refs.length) _ _ = _
  simp only [EStateM.bind, Machine.curry, bind, hmany, MachineM.pop, cellRefs_map, get, getThe,
    MonadStateOf.get, EStateM.get, MachineState.movedTo_world, ho]
  rfl

end Machine

namespace Closure.Loom

variable {Z : Setting} {X : Loom Z} {G : Frame} {a b : Link} {σ : EvalState} {μ : MachineState}
  {w w' : World} {s s' t : Draft} {st : List Value}

/-- Both runs go on from worlds that agree. -/
theorem Holds.grow (h : X.Holds G a σ μ) (hab : a.Le b) (hagree : Agree Z b w w')
    (hkeeps : a.Keeps σ.world w) : X.Holds G b { σ with world := w } { μ with world := w' } where
  scopes := h.scopes
  agree := hagree
  start := h.start.trans hab
  keeps := h.keeps.trans hkeeps h.start
  plain x hx hb := by
    obtain ⟨hlt, hnone, v', hv', hfits⟩ := h.plain x hx hb
    refine ⟨Nat.lt_of_lt_of_le hlt hab.bound, (hab.cells _ hlt).trans hnone, v', hv', ?_⟩
    have hsame : w.store.cellAt x.ref = σ.world.store.cellAt x.ref := by
      simp only [Store.cellAt, hkeeps _ hlt hnone]
    exact hsame ▸ hfits.mono hab
  boxed x hx hb := by
    obtain ⟨r', hr', hlink⟩ := h.boxed x hx hb
    exact ⟨r', hr', (hab.cells _ (h.agree.cells hlink).1).trans hlink⟩
  frozen := h.frozen
  apart := h.apart
  size := h.size

/-! ## Code -/

/-- The record has the form of a unit that the code mentions. -/
theorem entry_of_place {unit j : Nat} {form : NestedForm}
    (hplace : X.unit.plan.nestedPlace? unit = some j) (hform : X.compiled[unit]? = some form) :
    X.record.values[X.unit.plan.constants.length + j]? = some form.value := by
  obtain ⟨forms, hvalues, hforms⟩ := CompileM.recordEntries_ok X.values
  obtain ⟨hlt, hunit, -⟩ := List.findIdx?_eq_some_iff_getElem.1 hplace
  obtain ⟨form', hform', hv⟩ :=
    (CompileM.nestedEntries_ok hforms).2 j _ (List.getElem?_eq_getElem hlt)
  rw [show (X.unit.plan.nested[j]).unit = unit by simpa using hunit, hform] at hform'
  obtain rfl := Option.some.inj hform'
  rw [hvalues, List.getElem?_append_right (by simp)]
  simpa using hv

/-- An entry of the record is pushed. -/
theorem loadConstant_comes {j : Nat} {v : Value} (hF : (s.emitted (.loadConstant j)).Leads X.final)
    (hv : X.record.values[j]? = some v) :
    Comes X.pact.machines (μ.movedTo s.instrs.size st)
      (· = μ.movedTo (s.emitted (.loadConstant j)).instrs.size (v :: st)) := by
  refine .carry X.follows hF rfl fun n p => ?_
  have hconst : (Z.host.running X.code X.record n).constant j = pure v := by
    rw [Machine.constant, show (Z.host.running X.code X.record n).record = X.record from rfl, hv]
  show EStateM.bind (EStateM.bind ((Z.host.running X.code X.record n).constant j) _) _ _ = _
  rw [hconst]
  rfl

/-- An entry of the record is pushed, from wherever it is. -/
theorem load_comes {j : Nat} {i : Instr} {v : Value} (hload : s.Loads j i)
    (hF : (s.emitted i).Leads X.final) (hs : X.Suits G s) (hold : X.Holds G a σ μ)
    (hv : X.record.values[j]? = some v) :
    Comes X.pact.machines (μ.movedTo s.instrs.size st)
      (· = μ.movedTo (s.emitted i).instrs.size (v :: st)) := by
  rcases hload with rfl | ⟨k, hlook, rfl⟩
  · exact loadConstant_comes hF hv
  · obtain ⟨x, hx, hmem⟩ := hs.hoisted j k hlook
    obtain rfl := Option.some.inj (hv.symm.trans hx)
    have hslot := hold.frozen _ hmem
    refine .carry X.follows hF rfl fun n p => ?_
    simp only [Machine.exec, MachineM.readSlot, bind, EStateM.bind, get, getThe,
      MonadStateOf.get, EStateM.get, MachineState.movedTo_locals, hslot]
    rfl

/-- The cells of captured variables are pushed, each of them linked to the one that evaluation
sees. The homes are those behind the draft `s`; the code starts behind `t`. -/
theorem cellLoads_comes {vs : List Var} {is : List Instr}
    (h : cellLoads vs X.env s = .ok (is, s')) (hs : X.Suits G s) (hold : X.Holds G a σ μ)
    (hF : (t.emittedAll is).Leads X.final) :
    s' = s ∧ ∃ refs : List Nat, refs.length = is.length ∧
      (∀ (i : Nat) v, vs[i]? = some v → ∃ r r', G.scopes.get? v.id = some r ∧
        refs[i]? = some r' ∧ a.cells r = some (r', Z.types v.id)) ∧
      ∀ st, Comes X.pact.machines (μ.movedTo t.instrs.size st)
        (· = μ.movedTo (t.emittedAll is).instrs.size ((refs.map .cell).reverse ++ st)) := by
  induction vs generalizing is t s' with
  | nil =>
    obtain ⟨rfl, rfl⟩ := pure_ok.1 h
    exact ⟨rfl, [], rfl, by simp, fun _ => .here rfl⟩
  | cons v vs ih =>
    obtain ⟨home, s₁, hhome, h⟩ := bind_ok.1 h
    obtain rfl := Pact.homeOf_same hhome
    obtain ⟨r, hr, hl⟩ := lodges hs hhome
    -- What is pushed first is the cell of the variable.
    have hrest : ∀ {i : Instr} {r' : Nat}, a.cells r = some (r', Z.types v.id) →
        (∀ {t' : Draft}, (t'.emitted i).Leads X.final → ∀ st, Comes X.pact.machines (μ.movedTo t'.instrs.size st)
          (· = μ.movedTo (t'.emitted i).instrs.size (.cell r' :: st))) →
        (do let is ← cellLoads vs; pure (i :: is)) X.env s = .ok (is, s') →
        s' = s ∧ ∃ refs : List Nat, refs.length = is.length ∧
          (∀ (k : Nat) u, (v :: vs)[k]? = some u → ∃ r r', G.scopes.get? u.id = some r ∧
            refs[k]? = some r' ∧ a.cells r = some (r', Z.types u.id)) ∧
          ∀ st, Comes X.pact.machines (μ.movedTo t.instrs.size st)
            (· = μ.movedTo (t.emittedAll is).instrs.size ((refs.map .cell).reverse ++ st)) := by
      intro i r' hlink hpush h
      obtain ⟨is, s₂, his, h⟩ := bind_ok.1 h
      obtain ⟨rfl, rfl⟩ := pure_ok.1 h
      rw [emittedAll_cons] at hF
      obtain ⟨rfl, refs, hlen, hrefs, hcomes⟩ := ih (t := t.emitted i) his hF
      refine ⟨rfl, r' :: refs, by simp [hlen], fun k u hk => ?_, fun st => ?_⟩
      · cases k with
        | zero =>
          obtain rfl : v = u := by simpa using hk
          exact ⟨r, r', hr, rfl, hlink⟩
        | succ k => exact hrefs k u (by simpa using hk)
      · rw [emittedAll_cons]
        refine (hpush ((Quiet.emittedAll _ _).leads.trans hF) st).bind ?_
        rintro _ rfl
        simpa using hcomes (.cell r' :: st)
    cases home with
    | slot _ => exact absurd (bind_ok.1 h) (by simp [error_ok])
    | boxed k =>
      obtain ⟨r', hr', hlink⟩ := hold.boxed _ hl rfl
      refine hrest hlink (fun hF st => .carry X.follows hF rfl fun n p => ?_) h
      simp only [Machine.exec, MachineM.readSlot, bind, EStateM.bind, get, getThe,
        MonadStateOf.get, EStateM.get, MachineState.movedTo_locals, hr']
      rfl
    | captured k =>
      obtain ⟨r', hr', hlink⟩ := hold.linked hl
      refine hrest hlink (fun hF st => .carry X.follows hF rfl fun n p => ?_) h
      have hcell : (Z.host.running X.code X.record n).captured k = pure r' := by
        rw [Machine.captured, show (Z.host.running X.code X.record n).record = X.record from rfl, hr']
      show EStateM.bind (EStateM.bind ((Z.host.running X.code X.record n).captured k) _) _ _ = _
      rw [hcell]
      rfl

/-! ## Mentions -/

/-- Both runs have a function for a lambda, which stand for each other. -/
theorem Holds.twin {u : UnitPlan} {code : Code} {record : ClosureRecord} {f' : Nat}
    (h : X.Holds G a σ μ) (hw' : μ.world.Extends w') (hstore : w'.store = μ.world.store)
    (htwin : Twin Z a (σ.world.newFunction (Z.closure u.lambda σ.scopes.toList)).2 w'
      σ.world.functions.size f' u σ.scopes.toList code record) :
    X.Holds G (a.twin σ.world.functions.size f' u.lambda.signature)
      { σ with world := (σ.world.newFunction (Z.closure u.lambda σ.scopes.toList)).2 }
      { μ with world := w' } :=
  h.grow (h.agree.le_twin f' _) (h.agree.pushFunctions hw' hstore htwin) ((Link.Keeps.refl a _).same rfl)

/-- Mentions of lambdas agree. -/
theorem agrees_lambda {l : Lambda} (hnests : Z.root.Nests l) : X.pact.Agrees (.lambda l) := by
  refine Pact.agrees_of_node ?_
  intro f s s' G a n σ μ st hlow S _ _ _ hold
  replace hlow : pushLambda l f X.env s = .ok ((), s') := hlow
  replace hold : X.Holds G a σ μ := hold
  have hsuits : X.Suits G s := S.suits
  have hF : s'.Leads X.final := S.leads
  have hnode : (X.pact.walk n).node (.lambda l) σ =
      .ok (.function σ.world.functions.size l.signature) { σ with
        world := (σ.world.newFunction (Z.closure l σ.scopes.toList)).2 } := rfl
  rw [hnode]
  -- The function made last in evaluation is linked to the one that the machine has or makes.
  have hgives : ∀ {f' : Nat}, (a.twin σ.world.functions.size f' l.signature).Fits (Expr.lambda l).ty
      (.function σ.world.functions.size l.signature) (.function f' l.signature) := fun {f'} =>
    .inr ⟨.function (if_pos rfl), .inr ⟨_, rfl⟩⟩
  obtain ⟨-, ⟨hd, rfl⟩ | ⟨hd, unit, j, form, i, hunit, hplace, hform, hload, hcode⟩⟩ :=
    pushLambda_cases hlow
  · -- Nothing is pushed, though evaluation makes a function.
    have hold' := hold.grow (.refl a) (hold.agree.extend rfl rfl (.push _ _) (.refl _))
      ((Link.Keeps.refl a _).same rfl) (w := (σ.world.newFunction
        (Z.closure l σ.scopes.toList)).2)
    refine Comes.here ⟨a, .unit, .refl a, fun h => ?_, X.pact.holds_moved _ _ hold', rfl, ?_⟩
    · cases h hd
    · simp [Usage.pushed, hd]
  obtain ⟨u, code, values, hu, hyields, hstands⟩ := Z.formed unit form (X.forms _ _ hform)
  obtain rfl : u.lambda = l := Z.tallied.unit_of_findIdx? Z.tells hnests hunit hu
  have hentry := entry_of_place hplace hform
  rcases hcode with ⟨v, rfl, rfl⟩ | ⟨v, captures, is, s₁, rfl, hcells, rfl⟩
  · -- The record has the function.
    obtain ⟨hcap, f', rfl, hfun⟩ := hstands
    have htwin : Twin Z a (σ.world.newFunction (Z.closure u.lambda σ.scopes.toList)).2
        μ.world σ.world.functions.size f' u σ.scopes.toList code (.ofConstants values) :=
      { nests := hnests
        evaluated := ⟨some Z.gauge.counter, rfl, Array.getElem?_push_size⟩
        compiled := hold.agree.made.functions _ _ hfun
        yields := by rwa [ClosureRecord.values_ofConstants]
        cells := fun i v hi => by simp [hcap] at hi }
    refine (load_comes hload hF hsuits hold hentry).mono ?_
    rintro _ rfl
    exact ⟨_, .function f' _, hold.agree.le_twin f' _, fun _ => hgives,
      X.pact.holds_moved _ _ (hold.twin (.refl _) rfl htwin), rfl, by simp [Usage.pushed, hd, NestedForm.value]⟩
  · -- The record has an open unit, which is bound to the cells.
    obtain ⟨rfl, ref, name, rfl, hopen⟩ := hstands
    have hF₁ := (Quiet.emitted (s₁.emittedAll is) (.curry is.length)).leads.trans hF
    obtain ⟨rfl, refs, hlen, hrefs, hcomes⟩ := cellLoads_comes (t := s₁) hcells
      (hsuits.of_same (.emitted _ _) (Nat.le_refl _)) hold hF₁
    have hunits : μ.world.units[ref]? = some ⟨code, values⟩ := hold.agree.made.units _ _ hopen
    have htwin : Twin Z a (σ.world.newFunction (Z.closure u.lambda σ.scopes.toList)).2
        (μ.world.newFunction (.compiled code (.withVariables values refs))).2
        σ.world.functions.size μ.world.functions.size u σ.scopes.toList code
        (.withVariables values refs) :=
      { nests := hnests
        evaluated := ⟨some Z.gauge.counter, rfl, Array.getElem?_push_size⟩
        compiled := Array.getElem?_push_size
        yields := hyields
        cells := fun i v hi => by
          obtain ⟨r, r', hr, hr', hlink⟩ := hrefs i v hi
          exact ⟨r, r', by rw [Scopes.get?_ofList_toList, hold.scopes, hr], hr', hlink⟩ }
    have hold' := hold.twin (CompileM.extends_newFunction _ _) rfl htwin
    refine (load_comes hload ((Quiet.emittedAll _ _).leads.trans hF₁) hsuits hold hentry).bind ?_
    rintro _ rfl
    refine (hcomes _).bind ?_
    rintro _ rfl
    rw [← hlen] at hF ⊢
    refine .instr X.follows hF rfl (fun n => Machine.exec_curry hunits) (.here ?_)
    refine ⟨_, .function μ.world.functions.size u.lambda.signature, hold.agree.le_twin _ _,
      fun _ => hgives, X.pact.holds_moved _ _ hold', rfl, ?_⟩
    simp only [Usage.pushed, hd, Bool.false_eq_true, if_false]
    rw [← hyields.signature]
    rfl

end Closure.Loom

end TreeCode

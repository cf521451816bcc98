import TreeCode.Proofs.Agree.Block

/-!
# Exceptions and their handlers

A throw fails on both sides with the same object. In a protected region the
failure of the body is looked for in the list of handlers by direct evaluation,
in the table of entries by the machine; both find the first one that tests for
it.

Main results:

* `agrees_throw`, `agrees_rethrow` — exceptions are thrown, once or again.
-/

namespace TreeCode

open Draft Lower

variable {J : Discipline} {X : Bench J} {G G' : Frame} {a b : J.State} {σ σ' : EvalState}
  {μ μ' : MachineState} {s s' t t' : Draft} {st st' : List Value} {pd : List Pending}
  {L L' P P₁ P₂ P₃ I₁ I₃ : List Nat} {g : Bool} {i : Instr} {u : Unit} {f : Usage} {n r : Nat}

/-! ## Throwing -/

/-- What throwing a value does to the world. -/
def RunM.throwing (v : Value) : RunM Value :=
  if v.isNull then RunM.raise .nullReference else throw (.thrown v)

theorem Bench.answers_throwing {T : J.State → Value → Prop} {w w' : World} (hg : J.good a w)
    (hw : X.Sees w w') (v : Value) :
    X.Answers a w T (RunM.throwing v w) (RunM.throwing v w') := by
  unfold RunM.throwing
  split
  · exact Bench.answers_raise hg hw _
  · exact Bench.answers_fault hg hw (by simp)

theorem Machine.exec_throw {m : Machine} {v : Value} (hμ : μ.stack = v :: st) :
    m.exec .throw μ = μ.acted (fun _ => []) st (RunM.throwing v μ.world) := by
  obtain ⟨w, p, stack, locals, q⟩ := μ
  obtain rfl : stack = _ := hμ
  rw [Machine.exec, RunM.throwing]
  cases hv : v.isNull <;> simp [MachineM.pop, bind, EStateM.bind, hv] <;> rfl

/-- A throw never gives a value. -/
theorem Span.throwing (S : Span X P L g s s' G pd) {v : Value}
    {Q : Value → EvalState → MachineState → Prop} (h₁ : Step True X.names P₁ I₁ s t)
    (h₃ : Step True X.names P₃ I₃ (t.emitted .throw) s')
    (hst : Stands X G b σ t (v :: st) pd μ) (hab : J.le a b) :
    X.Meets μ (EvalM.ofRun (RunM.throwing v) σ) Q (Out X L' s s' G pd st a) := by
  have hno : ∀ w x w', RunM.throwing v w ≠ .ok x w' := by
    intro w x w'
    unfold RunM.throwing
    split <;> exact fun h => by cases h
  refine (S.act (T := fun _ _ => False) (o := []) [v] (fun _ => []) h₁ h₃ hst hab
    (fun _ _ _ h => h) rfl (fun x w h => absurd h (hno _ x w))
    (Bench.answers_throwing hst.holds.good hst.holds.world v) (fun μ hμ => Machine.exec_throw hμ)
    (by simp [effectOf])).mono (fun x σ' μ' h => ?_) fun _ _ _ h => h
  obtain ⟨c, -, h, -⟩ := h
  exact h.elim

theorem agrees_throw {ty : Ty} {e : Expr} (A : Agrees X [] e) (hvoid : e.ty.isVoid = false) :
    Agrees X L (.unary ty .throw e none) := by
  refine Agrees.of_node ?_
  intro f s s' G pd st a n σ μ S hst hpace hdepth
  have hlow := S.lowered
  rw [Expr.part] at hlow
  simp only [reduceCtorEq, decide_false, Bool.false_and, Bool.false_eq_true, if_false,
    Part.emit_plain, Lower.unary, bind_ok, emit_ok] at hlow
  obtain ⟨_, t, he, _, _, rfl, hassume⟩ := hlow
  have h₁ := Expr.emit_step he S.plain S.span.sound
  have h₃ : Step True X.names [] [] (t.emitted .throw) s' := assumeValue_acts.stepped hassume
    ((Quiet.emitted t .throw).sound (h₁.stage.sound S.span.sound)) trivial
  have hh : (Expr.unary ty .throw e none).height = e.height + 1 := rfl
  have O : OperandAt X _ _ _ s s' G pd [] s G n e := S.span.operand A S.plain hvoid (.nil s)
    (List.Sublist.refl _) (by omega) (hpace.part (by simp))
  show X.Meets μ (((X.walk n).valueOf e >>= fun v => EvalM.ofRun (RunM.throwing v)) σ) _ _
  refine (O.eval he rfl h₃.ofEmitted (List.nil_append st ▸ hst) (J.le_refl a)).bind
    (fun _ _ _ h => h) fun v σ' μ' hv => ?_
  obtain ⟨b, hab, -, hst'⟩ := hv
  exact S.span.throwing h₁ h₃ hst' hab

/-- A rethrow throws the exception of the innermost handler, which is never null. -/
theorem agrees_rethrow {ty : Ty} : Agrees X L (.rethrow ty) := by
  refine Agrees.of_node ?_
  intro f s s' G pd st a n σ μ S hst hpace hdepth
  have R := S.span.ready
  have hlow := S.lowered
  rw [Expr.part, Part.emit_plain] at hlow
  simp only [Lower.throwAgain, get_bind] at hlow
  have hcaught := S.span.fits.caught
  rcases hk : s.caught with _ | ⟨slot, rest⟩
  · simp [hk, unsupported_ok] at hlow
  · rw [hk] at hcaught
    simp only [hk, bind_ok, emit_ok] at hlow
    obtain ⟨_, _, rfl, _, _, rfl, hassume⟩ := hlow
    obtain ⟨v, vs, ⟨hmem, hnull⟩, -, hG⟩ := List.forall₂_cons_left_iff.1 hcaught
    have h₁ : Step True X.names [] [] s (s.emitted (.loadLocal slot)) := .emitted s _
    have hs₂ := (Quiet.emitted (s.emitted (.loadLocal slot)) .throw).sound
      (h₁.stage.sound S.span.sound)
    have h₃ : Step True X.names [] [] _ s' := assumeValue_acts.stepped hassume hs₂ trivial
    have hF := h₃.ofEmitted.stage.leads.trans S.span.leads
    have hnode : (X.walk n).node (.rethrow ty) σ = EvalM.ofRun (RunM.throwing v) σ := by
      have hσ : σ.caught = v :: vs := hst.holds.caught.trans hG
      have hget : (get : EvalM EvalState) σ = .ok σ σ := rfl
      show Walk.throwAgain σ = _
      simp only [Walk.throwAgain, bind, EStateM.bind, hget, hσ, RunM.throwing, hnull]
      rfl
    rw [hnode]
    refine (R.loadLocal hst hF fun μ hold => hold.frozen _ hmem).meets fun μ' hst' => ?_
    exact S.span.throwing h₁ h₃ hst' (J.le_refl a)

/-! ## Handlers in direct evaluation -/

namespace EvalM

variable {α β : Type}

/-- The cell of the variable of a handler, if it has one. -/
def cellFor (v : Value) (x : Option Var) : EvalM (List (Nat × Nat)) :=
  x.elim (pure []) fun x => do return [(x.id, ← EvalM.ofRun (RunM.newCell v))]

theorem inScope_map (bindings : List (Nat × Nat)) (x : EvalM α) (h : α → β) :
    inScope bindings (h <$> x) = h <$> inScope bindings x := by
  funext σ
  have hmap : ∀ (y : EvalM α) σ, (h <$> y) σ = EStateM.map h y σ := fun _ _ => rfl
  simp only [inScope, hmap, EStateM.map]
  cases x { σ with scopes := σ.scopes.enter.bindAll bindings } with
  | ok v σ' =>
    dsimp only
    cases closeScope σ' <;> rfl
  | error e σ' =>
    dsimp only
    cases closeScope σ' <;> rfl

end EvalM

namespace Walk

variable {c : Walk} {v : Value}

/-- Evaluates the body of a handler that takes an exception. -/
def handling (c : Walk) (v : Value) (h : CatchClause) : EvalM Value := do
  let bindings ← EvalM.cellFor v h.var
  EvalM.inScope bindings (EvalM.whileCaught v (c.valueOf h.body))

theorem handler_eq {h : CatchClause} (hf : h.filter = none) :
    c.handler v h = some <$> c.handling v h := by
  obtain ⟨test, x, filter, body⟩ := h
  obtain rfl : filter = none := hf
  have hscope : ∀ bindings : List (Nat × Nat), EvalM.inScope bindings (do
      if ← c.accepts none then some <$> EvalM.whileCaught v (c.valueOf body)
      else pure none) =
      some <$> EvalM.inScope bindings (EvalM.whileCaught v (c.valueOf body)) := fun bindings =>
    EvalM.inScope_map bindings (EvalM.whileCaught v (c.valueOf body)) some
  cases x <;> simp [handler, handling, EvalM.cellFor, CatchClause.var, CatchClause.filter,
    CatchClause.body, hscope]

theorem firstHandler_of_none {hs : List CatchClause} (h : ∀ k ∈ hs, v.isA k.test = false) :
    c.firstHandler v hs = pure none := by
  induction hs with
  | nil => rfl
  | cons k hs ih =>
    rw [firstHandler, if_neg (by simp [h k]), ih fun k hk => h k (.tail _ hk)]

theorem firstHandler_of_first {pre post : List CatchClause} {k : CatchClause}
    (hpre : ∀ x ∈ pre, v.isA x.test = false) (hk : v.isA k.test = true) (hf : k.filter = none) :
    c.firstHandler v (pre ++ k :: post) = some <$> c.handling v k := by
  induction pre with
  | nil =>
    rw [List.nil_append, firstHandler, if_pos hk, handler_eq hf]
    simp
  | cons x pre ih =>
    rw [List.cons_append, firstHandler, if_neg (by simp [hpre x]),
      ih fun x hx => hpre x (.tail _ hx)]

section Handled

variable {body : Expr} {hs : List CatchClause}

theorem handled_of_ok {x : Value} (h : c.valueOf body σ = .ok x σ') :
    c.handled body hs σ = .ok x σ' := by
  simp only [handled, h]

theorem handled_of_exit {x : Exit} (h : c.valueOf body σ = .error x σ')
    (hx : ∀ v, x ≠ .fault (.thrown v)) : c.handled body hs σ = .error x σ' := by
  cases x with
  | jump l v => simp only [handled, h]
  | fault f =>
    cases f with
    | thrown v => exact absurd rfl (hx v)
    | _ => simp only [handled, h]

theorem handled_of_untaken (h : c.valueOf body σ = .error (.fault (.thrown v)) σ')
    (hno : ∀ k ∈ hs, v.isA k.test = false) :
    c.handled body hs σ = .error (.fault (.thrown v)) σ' := by
  have hfirst : c.firstHandler v hs σ' = .ok none σ' := by rw [firstHandler_of_none hno]; rfl
  simp only [handled, h, hfirst]

theorem handled_of_taken {pre post : List CatchClause} {k : CatchClause}
    (h : c.valueOf body σ = .error (.fault (.thrown v)) σ')
    (hpre : ∀ x ∈ pre, v.isA x.test = false) (hk : v.isA k.test = true) (hf : k.filter = none) :
    c.handled body (pre ++ k :: post) σ = c.handling v k σ' := by
  have hfirst : c.firstHandler v (pre ++ k :: post) σ' = EStateM.map some (c.handling v k) σ' := by
    rw [firstHandler_of_first hpre hk hf]
    rfl
  simp only [handled, h, hfirst, EStateM.map]
  cases c.handling v k σ' <;> rfl

/-- The first handler that tests for an exception, if there is one. -/
theorem first_taken (v : Value) (hs : List CatchClause) : (∀ k ∈ hs, v.isA k.test = false) ∨
    ∃ pre k post, hs = pre ++ k :: post ∧ (∀ x ∈ pre, v.isA x.test = false) ∧
      v.isA k.test = true := by
  induction hs with
  | nil => exact .inl (by simp)
  | cons x hs ih =>
    cases hx : v.isA x.test with
    | true => exact .inr ⟨[], x, hs, rfl, by simp, hx⟩
    | false =>
      rcases ih with ih | ⟨pre, k, post, rfl, hpre, hk⟩
      · exact .inl (by simpa [hx] using ih)
      · exact .inr ⟨x :: pre, k, post, rfl, by simpa [hx] using hpre, hk⟩

end Handled

end Walk

/-! ## The body of a handler -/

/-- An action as the body of a handler is met when it is met inside. -/
theorem Bench.Meets.whileCaught {α : Type} {x : EvalM α} {v : Value}
    {Q Q' : α → EvalState → MachineState → Prop} {E E' : Exit → EvalState → MachineState → Prop}
    (hx : x.Tidy) (h : X.Meets μ (x { σ with caught := v :: σ.caught }) Q E)
    (hQ : ∀ y σ' μ', Q y σ' μ' → Q' y { σ' with caught := σ.caught } μ')
    (hE : ∀ e σ' μ', E e σ' μ' → E' e { σ' with caught := σ.caught } μ') :
    X.Meets μ (EvalM.whileCaught v x σ) Q' E' := by
  have hkept := hx { σ with caught := v :: σ.caught }
  simp only [EvalM.whileCaught]
  cases hr : x { σ with caught := v :: σ.caught } with
  | ok y σ' =>
    rw [hr] at hkept
    have hc : σ'.caught = _ := hkept.caught
    simp only [hc, List.tail_cons]
    exact .ok ((h.ends y σ' hr).mono fun μ' => hQ y σ' μ')
  | error e σ' =>
    rw [hr] at hkept
    have hc : σ'.caught = _ := hkept.caught
    simp only [hc, List.tail_cons]
    by_cases he : e = .fault .outOfFuel
    · subst he
      exact .cut (h.isCut σ' hr)
    · exact .exit he ((h.leaves e σ' hr he).mono fun μ' => hE e σ' μ')

/-- The frame in a handler of an exception. -/
def Frame.catching (G : Frame) (v : Value) : Frame := { G with caught := v :: G.caught }

theorem Suits.catching {v : Value} {k : Nat} (h : Suits X G s) (hmem : (k, v) ∈ G.frozen)
    (hnull : v.isNull = false) : Suits X (G.catching v) { s with caught := k :: s.caught } :=
  { h with
    caught := .cons ⟨hmem, hnull⟩ h.caught
    label := fun r l k hl hk => ⟨(h.label r l k hl hk).1, fun p hp hpk =>
      ((h.label r l k hl hk).2 p hp hpk).congr rfl (Nat.le_refl _)⟩ }

theorem Holds.catching {v : Value} (h : Holds X G a σ μ) :
    Holds X (G.catching v) a { σ with caught := v :: σ.caught } μ :=
  { h with caught := by simp [Frame.catching, h.caught] }

theorem Holds.uncaught {v : Value} (hc : σ.caught = G.caught)
    (h : Holds X (G.catching v) a σ' μ) : Holds X G a { σ' with caught := σ.caught } μ :=
  { h with caught := hc }

namespace Lower

/-- A step inside a handler whose exception is in the slot `k`. -/
def whileCaught (k : Nat) (x : LowerM Unit) : LowerM Unit := do
  modify fun s => { s with caught := k :: s.caught }
  x
  modify fun s => { s with caught := s.caught.tail }

theorem catchBody_of_none {test : Ty} {p : Part} {k : Nat} :
    catchBody ⟨test, none, p⟩ k f = whileCaught k (p.emit f) := rfl

theorem catchBody_of_some {test : Ty} {x : Var} {p : Part} {k : Nat} :
    catchBody ⟨test, some x, p⟩ k f = (do
      let r ← bringIn x
      emit (.loadLocal k)
      initialise x r.1
      whileCaught k (p.emit f)
      takeOut x r.2) := rfl

end Lower

/-- The body of a handler, the exception being in the slot `k`. -/
theorem Span.whileCaught {c : Expr} {v : Value} {k : Nat} (S : Span X c.placed L f.guarded s s' G pd)
    (hlow : Lower.whileCaught k (c.part.emit f) X.env s = .ok (u, s')) (A : Agrees X L c)
    (hplain : c.Plain X.names) (hmem : (k, v) ∈ G.frozen)
    (hnull : v.isNull = false) (haddr : f.byAddress = false)
    (hused : c.ty.isVoid = true → f.discarded = true) (hdepth : G.depth + c.height ≤ X.gauge.max)
    (hpace : X.Paced n c) (hst : Stands X G a σ s st pd μ) :
    X.Meets μ (EvalM.whileCaught v ((X.walk n).valueOf c) σ) (Gives X G f c.ty s' st pd a)
      (Out X L s s' G pd st a) := by
  simp only [Lower.whileCaught, modify_bind, bind_ok, modify_ok] at hlow
  obtain ⟨_, t, he, rfl⟩ := hlow
  have hq₁ : Quiet s { s with caught := k :: s.caught } := .of_scope s _ _ _ _ _ _ (Nat.le_refl _)
  have hq₃ : Quiet t { t with caught := t.caught.tail } := .of_scope t _ _ _ _ _ _ (Nat.le_refl _)
  have h₂ := Expr.emit_step he hplain (hq₁.sound S.sound)
  have hspan := S.narrow (hq₁.stage []) (hq₁.valued S.valued) h₂ (hq₃.stage [])
    (S.fits.catching hmem hnull) (S.placedIn (by simp))
  have hcσ := hst.holds.caught
  refine Bench.Meets.whileCaught (eval_tidy _ _ _ _ c) (A ⟨he, hplain, hspan.reframe
    (c.around_subset L) hspan.fits, by simp [haddr], hused⟩
    ⟨hst.holds.catching, hst.place.pointer, hst.place.reachable, hst.place.stack,
      hst.place.height, hst.place.pending⟩ hpace hdepth) (fun x σ' μ' hx => ?_) fun x σ' μ' hx => ?_
  · obtain ⟨b, hab, hhas, hst'⟩ := hx
    exact ⟨b, hab, hhas, hst'.holds.uncaught hcσ, hst'.place.pointer, hst'.place.reachable,
      hst'.place.stack, hst'.place.height, hst'.place.pending⟩
  · exact Out.extend (o := []) (hx.imp fun b μ _ hold => hold.uncaught hcσ) (.inl rfl)
      (J.le_refl a) (hq₁.stage []) rfl (hq₃.stage [])

/-- The code of a handler. -/
def CatchClause.part (h : CatchClause) : CatchPart := ⟨h.test, h.var, h.body.part⟩

/-- A handler runs, the exception being in the slot `k`. -/
theorem Span.handling {h : CatchClause} {v : Value} {k : Nat}
    (S : Span X h.body.placed L f.guarded s s' G pd)
    (hlow : catchBody h.part k f X.env s = .ok (u, s')) (A : Agrees X L h.body)
    (hplain : h.body.Plain X.names) (hvar : ∀ x, h.var = some x → X.types x.id = h.test)
    (htest : v.isA h.test = true) (hmem : (k, v) ∈ G.frozen)
    (hnull : v.isNull = false) (haddr : f.byAddress = false)
    (hused : h.body.ty.isVoid = true → f.discarded = true)
    (hdepth : G.depth + h.body.height ≤ X.gauge.max) (hpace : X.Paced n h.body)
    (hst : Stands X G a σ s st pd μ) :
    X.Meets μ ((X.walk n).handling v h σ) (Gives X G f h.body.ty s' st pd a)
      (Out X L s s' G pd st a) := by
  have R := S.ready
  have htidy : (EvalM.whileCaught v ((X.walk n).valueOf h.body)).Tidy :=
    .whileCaught (eval_tidy _ _ _ _ h.body)
  have hsc := hst.holds.scopes
  obtain ⟨test, x, filter, body⟩ := h
  cases x with
  | none =>
    rw [CatchClause.part, CatchClause.var, catchBody_of_none] at hlow
    -- Without a variable the handler opens an empty scope.
    refine Bench.Meets.inScope [] htidy ((S.reframe (List.Subset.refl L) S.fits.enter).whileCaught hlow
      A hplain hmem hnull haddr hused hdepth hpace ⟨hst.holds.enter, hst.place⟩)
      (fun y σ' μ' hy => ?_) fun e σ' μ' he => ?_
    · obtain ⟨b, hab, hhas, hst'⟩ := hy
      exact ⟨b, hab, hhas, hst'.holds.leave [] hsc, hst'.place⟩
    · exact he.imp fun b μ _ hold => hold.leave [] hsc
  | some x =>
    rw [CatchClause.part, CatchClause.var, catchBody_of_some] at hlow
    simp only [bind_ok, emit_ok, takeOut, modify_ok] at hlow
    obtain ⟨⟨slot, hidden⟩, s₁, hin, _, _, rfl, _, s₂, hinit, _, s₃, hbody, rfl⟩ := hlow
    have hq₁ := bringIn_quiet hin
    have hclean : s₁.cleanups = s.cleanups := by
      obtain ⟨-, -, -, rfl⟩ := bringIn_ok.1 hin
      rfl
    obtain ⟨hqi, hsi⟩ := initialise_quiet hinit
    have hq₂ : Quiet s s₂ := hq₁.trans ((Quiet.emitted s₁ _).trans hqi)
    have hq₄ : Quiet s₃ { s₃ with slots := s₃.slots.restore x.id hidden } :=
      .of_scope s₃ _ _ _ _ _ _ (Nat.le_refl _)
    have h₃ : Step True X.names body.placed [] s₂ s₃ :=
      (caught_acts (c := True) (((body.part_acts X.names).emit [] [] [] f).mono (fun _ => hplain)
        (List.Subset.refl _))).stepped hbody (hq₂.sound S.sound) trivial
    have hF₂ := h₃.stage.leads.trans (hq₄.leads.trans S.leads)
    have hF₁ := ((Quiet.emitted s₁ (.loadLocal k)).leads.trans hqi.leads).trans hF₂
    -- The cell that evaluation makes for the variable is new, so no other variable is kept in it.
    have href : ∀ u ∈ G.enter.twins, u.ref ≠ σ.world.store.cells.size := fun u hu =>
      Nat.ne_of_lt (hst.holds.ref_lt u hu)
    obtain ⟨hfits, hclear, hlt⟩ := S.fits.enter.declare S.sound hin hF₁ href
    have hfits₂ := hfits.step (((Quiet.emitted s₁ (.loadLocal k)).trans hqi).step (P := []) (I := [])
      ((Same.emitted s₁ _).trans hsi))
    have hspan := S.narrow (hq₂.stage []) (hq₂.valued S.valued) h₃ (hq₄.stage []) hfits₂
      (S.placedIn (List.Sublist.refl _))
    have hty : X.types x.id = test := hvar x rfl
    have hst₀ : Stands X G.enter a { σ with scopes := σ.scopes.enter } s st pd μ :=
      ⟨hst.holds.enter, hst.place⟩
    -- The machine stores the exception to the variable before the body runs.
    have hreach := (R.loadLocal (hst₀.broughtIn hin) (hqi.leads.trans hF₂) fun μ hold =>
      hold.frozen _ hmem).bind fun μ' hst' =>
        R.initialise hst' hinit hF₂ (J.isA_has (hty ▸ htest)) hclear hlt
    refine hreach.meets fun μ' hst' => ?_
    refine Bench.Meets.inScope (σ := { σ with world := (σ.declare x.id v).world })
      [(x.id, σ.world.store.cells.size)] htidy
      (hspan.whileCaught hbody A hplain hmem hnull haddr hused hdepth hpace hst')
      (fun y σ' μ' hy => ?_) fun e σ' μ' he => ?_
    · obtain ⟨b, hab, hhas, hst'⟩ := hy
      exact ⟨b, hab, hhas, hst'.holds.leave [_] hsc, hst'.place.pointer,
        hst'.place.reachable, hst'.place.stack, hst'.place.height, hst'.place.pending⟩
    · exact Out.extend (o := []) (he.imp fun b μ _ hold => hold.leave [_] hsc) (.inl rfl)
        (J.le_refl a) (hq₂.stage []) (hsi.cleanups.trans hclean) (hq₄.stage [])

end TreeCode

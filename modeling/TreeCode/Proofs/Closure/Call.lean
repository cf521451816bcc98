import TreeCode.Proofs.Agree.Unit
import TreeCode.Proofs.Closure.Entry

/-!
# Calls of linked functions

A call of a compiled function comes to what a call of the evaluated function comes to that it
stands for. Both bodies may call further functions, which are linked, too; evaluation has a
smaller bound left for them, so the induction is on the bound.

Main results:

* `Comes.returns`, `Fails.fails` — how runs end.
* `Loom.answered` — a call of the lambda of a unit, and a run of its code.
* `answers` — **linked functions come to the same, whatever the bound of evaluation**.
-/

namespace TreeCode

open Draft Lower

/-! ## Ends of runs -/

section Ends

variable {M : Nat → Machine} {F s : Draft} {μ μ' : MachineState} {v : Value} {f : Fault}
  {P : MachineState → Prop}

/-- The value on the stack is returned. -/
theorem Comes.returns (R : ∀ k, (M k).Follows F) (hF : (s.emitted .ret).Leads F)
    (h : Comes M μ (· = μ'.movedTo s.instrs.size [v])) :
    ∃ N, ∀ k, N ≤ k → (M k).run k μ = .ok v (μ'.movedTo (s.instrs.size + 1) []) := by
  obtain ⟨N, c, _, hgo, rfl⟩ := h
  refine ⟨max N (c + 1), fun k hk => ?_⟩
  have hstep : (M k).step (μ'.movedTo s.instrs.size [v]) =
      .ok (some v) (μ'.movedTo (s.instrs.size + 1) []) := by
    rw [Machine.step_of_some ((R k).emitted hF rfl)]
    rfl
  -- All turns but the last one lead to the instruction that returns.
  obtain ⟨j, rfl⟩ : ∃ j, k = j + 1 + c := ⟨k - (c + 1), by omega⟩
  rw [hgo _ (by omega), Machine.run_succ, Machine.turn, hstep]

/-- No handler takes a failure. -/
theorem Fails.fails (hh : ∀ k, (M k).code.handlers = []) (h : Fails M μ f P) :
    ∃ μ', P μ' ∧ ∃ N, ∀ k, N ≤ k → (M k).run k μ = .error f μ' := by
  obtain ⟨N, c, μ₁, hgo, N', μ₂, hstep, hP⟩ := h
  refine ⟨μ₂, hP, max (max N N') (c + 1), fun k hk => ?_⟩
  have hturn : (M k).turn μ₁ = .ends (.error f μ₂) :=
    Machine.turn_of_untaken (hstep k (by omega)) fun v _ k' hk' => by simp [hh] at hk'
  obtain ⟨j, rfl⟩ : ∃ j, k = j + 1 + c := ⟨k - (c + 1), by omega⟩
  rw [hgo _ (by omega), Machine.run_succ, hturn]

end Ends

/-- The code of a woven lambda handles nothing. -/
theorem Lambda.Woven.handlers {types : Nat → Ty} {l : Lambda} {env : LowerEnv} {t : Draft} {u : Unit}
    (hl : l.Woven types) (h : Lower.unit l env {} = .ok (u, t)) : t.handlers = [] := by
  obtain ⟨s, t₁, hpro, hbody, rfl⟩ := Lower.unit_ok h
  have hsteady : Steady (l.body.part.emit { discarded := l.ret.isVoid }) :=
    (hl.body.ruled steady_rule []).emit [] [] [] _
  have hbegun := (prologue_begun hpro).1.handlers
  rw [← hsteady hbody] at hbegun
  split
  · exact hbegun
  · exact hbegun

namespace Closure

theorem Link.Passes.shapes {a : Link} {vs : List Var} {xs xs' : List Value}
    (h : a.Passes (vs.map (·.ty)) xs xs') :
    List.Forall₂ (fun (v : Var) x => x.fits (Shape.of v.ty) = true) vs xs' ∧ vs.length = xs.length := by
  induction vs generalizing xs xs' with
  | nil =>
    cases h
    exact ⟨.nil, rfl⟩
  | cons v vs ih =>
    rw [List.map_cons] at h
    cases h with
    | cons _ hshape hs =>
      obtain ⟨hshapes, hlen⟩ := ih hs
      exact ⟨.cons hshape hshapes, by simp [hlen]⟩

namespace Loom

variable {Z : Setting} {X : Loom Z} {a : Link} {w w' : World} {xs xs' : List Value}
  {captured : List (Nat × Nat)}

/-- Behind the code of the body the value is returned, or unit by a void lambda. -/
theorem returned {l : Lambda} {t : Draft} {μ μ' : MachineState} {v : Value}
    (hfinal : X.final = (if l.ret.isVoid then t.emitted .constUnit else t).emitted .ret)
    (hp : μ'.pointer = t.instrs.size) (hst : μ'.stack = Usage.pushed { discarded := l.ret.isVoid } v [])
    (hcomes : Comes X.pact.machines μ (· = μ')) :
    ∃ μ'', μ''.world = μ'.world ∧ ∃ N, ∀ k, N ≤ k →
      (X.pact.machines k).run k μ = .ok (l.result v) μ'' := by
  cases hret : l.ret.isVoid with
  | true =>
    rw [hret, if_pos rfl] at hfinal
    simp only [Usage.pushed, hret, if_true] at hst
    have hpushed : Comes X.pact.machines μ
        (· = μ'.movedTo (t.emitted .constUnit).instrs.size [.unit]) := by
      refine hcomes.bind ?_
      rintro _ rfl
      rw [← Pact.movedTo_eq hp hst]
      exact .carry X.follows (hfinal ▸ (Quiet.emitted _ _).leads) rfl fun _ _ => rfl
    have hruns := hpushed.returns X.follows (hfinal ▸ Leads.refl _)
    refine ⟨μ'.movedTo ((t.emitted .constUnit).instrs.size + 1) [], rfl, ?_⟩
    rw [Lambda.result, if_pos hret]
    exact hruns
  | false =>
    rw [hret] at hfinal
    simp only [Usage.pushed, hret] at hst
    have hpushed : Comes X.pact.machines μ (· = μ'.movedTo t.instrs.size [v]) :=
      hcomes.mono fun _ h => h.trans (Pact.movedTo_eq hp hst).symm
    have hruns := hpushed.returns X.follows (hfinal ▸ Leads.refl _)
    refine ⟨μ'.movedTo (t.instrs.size + 1) [], rfl, ?_⟩
    rw [Lambda.result, if_neg (by simp [hret])]
    exact hruns

/-- Values of the body that stand for each other give results that do so, too. -/
theorem result_same {l : Lambda} {v v' : Value} (hl : l.Woven Z.types)
    (hfit : l.ret.isVoid = false → a.Fits l.body.ty v v') :
    a.Same (l.result v) (l.result v') ∧ (l.result v).Sits l.ret := by
  cases hret : l.ret.isVoid with
  | true =>
    simp only [Lambda.result, Build.isVoid_iff.1 hret]
    exact ⟨.plain rfl, trivial⟩
  | false =>
    obtain ⟨hvoid, hacc⟩ := hl.takes hret
    have hfits := Link.Fits.accepts (hfit hret) hl.ret hvoid hacc
    simp only [Lambda.result, hret, Bool.false_eq_true, if_false]
    exact hfits.resolve_left fun h => by simp [h, Ty.isVoid] at hret

/-- A call of the code of a unit is a run of it, if the arguments have the shapes of the
parameters. -/
theorem callUnit_runs (hcode : X.code = X.final.toCode X.unit.lambda X.env.hasRecord)
    (hshapes : List.Forall₂ (fun (v : Var) x => x.fits (Shape.of v.ty) = true) X.unit.lambda.params xs')
    (k : Nat) : callUnit Z.host (call Z.host k) k X.code X.record xs' w' =
      inWorld ((X.pact.machines k).run k { world := w', locals := X.code.initialLocals xs' }) := by
  have hchecked : callUnit Z.host (call Z.host k) k X.code X.record xs' w' =
      runUnit Z.host (call Z.host k) k X.code X.record xs' w' := by
    rw [hcode]
    exact callUnit_eq hshapes
  rw [hchecked, runUnit_eq]
  rfl

/-- A run starts with a slot for every variable, and with the arguments in the first ones. -/
theorem initialLocals_holds (hcode : X.code = X.final.toCode X.unit.lambda X.env.hasRecord)
    (hle : xs'.length ≤ X.final.numLocals) :
    (X.code.initialLocals xs').size = X.final.numLocals ∧
      ∀ (i : Nat) x', xs'[i]? = some x' → (X.code.initialLocals xs')[i]? = some x' := by
  have hnum : X.code.numLocals = X.final.numLocals := by
    rw [hcode]
    rfl
  constructor
  · simp only [Code.initialLocals, Array.size_append, List.size_toArray, Array.size_replicate, hnum]
    omega
  · intro i x' hx
    have hlt := (List.getElem?_eq_some_iff.1 hx).1
    simpa [Code.initialLocals, Array.getElem?_append, hlt] using hx

/-- A call of the lambda of a unit, and a run of its code. -/
theorem answered (hcall : Answers Z X.bound)
    (hunit : Lower.unit X.unit.lambda X.env {} = .ok ((), X.final))
    (hcode : X.code = X.final.toCode X.unit.lambda X.env.hasRecord) (hagree : Agree Z a w w')
    (hcells : X.Sees a captured)
    (hpass : a.Passes (X.unit.lambda.params.map (·.ty)) xs xs') :
    Answered Z a w X.unit.lambda.ret
      (callLambda Z.host (call Z.host X.bound) X.bound X.unit.lambda captured Z.gauge xs w)
      fun k => callUnit Z.host (call Z.host k) k X.code X.record xs' w' := by
  have hwoven := Z.woven.nested X.nests
  obtain ⟨s, t, hpro, hbody, hfinal⟩ := Lower.unit_ok hunit
  obtain ⟨hshapes, hlen⟩ := hpass.shapes
  obtain ⟨hbegun, hparams⟩ := prologue_begun hpro
  have hlays : s.Lays t :=
    (lays_rule.part X.unit.lambda.body [] fun _ _ => trivial).emit [] [] [] _ X.env s _ t hbody
      hbegun.fit.sound (by simp)
  have hF : t.Leads X.final := by
    rw [hfinal]
    split
    · exact (Quiet.emitted t _).leads.trans (Quiet.emitted _ _).leads
    · exact (Quiet.emitted t _).leads
  have hroom : xs'.length ≤ X.final.numLocals := by
    have hle := hlays.leads.numLocals_le.trans hF.numLocals_le
    have hcount := hshapes.length_eq
    omega
  obtain ⟨hsize, hslots⟩ := initialLocals_holds hcode hroom
  -- The arguments come to their places before the body begins.
  obtain ⟨bindings, w₁, G, b, hfresh, hstart, hworld, hab, hs, hcomes⟩ := enters hpro
    (hlays.leads.trans hF) hagree hcells (fun v hv => (hwoven.params v hv).1) hpass hsize
    hslots
  rw [callLambda_eq hlen hfresh]
  simp only [callUnit_runs hcode hshapes]
  have A := (agrees_woven hcall hwoven.body fun D' l hl => X.nests.tail ⟨D', hl⟩).1
  have hused : X.unit.lambda.body.ty.isVoid = true → X.unit.lambda.ret.isVoid = true := by
    intro hvoid
    cases hret : X.unit.lambda.ret.isVoid with
    | true => rfl
    | false => simp [(hwoven.takes hret).1] at hvoid
  have hmeets : X.pact.Meets b { world := w', locals := X.code.initialLocals xs' }
      (eval Z.host (call Z.host X.bound) Z.gauge X.bound X.unit.lambda.body
        { world := w₁, scopes := (Scopes.ofList captured).enter.bindAll bindings })
      (X.pact.Gives G b { discarded := X.unit.lambda.ret.isVoid } X.unit.lambda.body.ty t []) := by
    refine .of_comes hcomes ?_
    rintro μ ⟨hold, hμ⟩
    rw [hμ]
    exact A hbody ⟨hbegun.fit.sound, hF, hs⟩ rfl hused ⟨.inl fun d m => .inr ⟨d, m, rfl⟩, .inl (.inl rfl)⟩ hold
  unfold Pact.Meets at hmeets
  split at hmeets
  · -- The body has come to a value, which is returned.
    rename_i v σ heval
    rw [heval]
    obtain ⟨N, n, μ, hgo, c, v', hbc, hfit, hold, hp, hst⟩ := hmeets
    have hreach : Comes X.pact.machines { world := w', locals := X.code.initialLocals xs' } (· = μ) :=
      ⟨N, n, μ, hgo, rfl⟩
    have hkeeps : a.Keeps w σ.world := hstart ▸ hworld ▸ Holds.keeps hold
    obtain ⟨μ', hworld', N', hrun⟩ := returned hfinal hp hst hreach
    have hresult := result_same hwoven fun hret => hfit (by simp [hret])
    refine ⟨c, _, μ'.world, hab.trans hbc, hresult, ?_, hkeeps, N', fun k hk => congrArg inWorld (hrun k hk)⟩
    rw [hworld']
    exact Holds.agree hold
  · -- It has failed, and the code has no handler for the failure.
    rename_i f σ heval
    rw [heval]
    refine hmeets.imp_right fun hfails => ?_
    have hhandlers : ∀ k, (X.pact.machines k).code.handlers = [] := fun k => by
      show X.code.handlers = []
      rw [hcode]
      exact hwoven.handlers hunit
    obtain ⟨μ, ⟨c, hbc, hbroken⟩, N, hrun⟩ := hfails.fails hhandlers
    exact ⟨c, μ.world, hab.trans hbc, hbroken, N, fun k hk => congrArg inWorld (hrun k hk)⟩
  · exact hmeets.elim

end Loom

/-- Calls that need a bound one higher come to the same. -/
theorem Answered.later {Z : Setting} {a : Link} {w : World} {t : Ty}
    {r : EStateM.Result Fault World Value} {calls calls' : Nat → EStateM.Result Fault World Value}
    (h : Answered Z a w t r calls) (hcalls : ∀ k, calls' (k + 1) = calls k) :
    Answered Z a w t r calls' := by
  have hlater : ∀ {N y}, (∀ k, N ≤ k → calls k = y) → ∀ k, N + 1 ≤ k → calls' k = y := by
    intro N y hN k hk
    obtain ⟨j, rfl⟩ : ∃ j, k = j + 1 := ⟨k - 1, by omega⟩
    rw [hcalls]
    exact hN j (by omega)
  cases r with
  | ok v w₁ =>
    obtain ⟨b, v', w₁', hab, hfit, hagree, hkeeps, N, hN⟩ := h
    exact ⟨b, v', w₁', hab, hfit, hagree, hkeeps, N + 1, hlater hN⟩
  | error f w₁ =>
    refine h.imp_right ?_
    rintro ⟨b, w₁', hab, hagree, N, hN⟩
    exact ⟨b, w₁', hab, hagree, N + 1, hlater hN⟩

/-! ## Host functions -/

section Native

variable {host : Host} {id n f : Nat} {sig : Signature} {xs : List Value} {w : World}

/-- A host function is called with what it computes. -/
theorem call_native (hf : w.functions[f]? = some (.native id sig))
    (hlen : sig.params.length = xs.length) {p : HostProg} (hp : host.native id xs = p) :
    call host (n + 1) f xs w = p.runStatic (call host n) n w := by
  simp only [call, hf, hp, RunM.requireArity, if_pos hlen]
  rfl

/-- Scalars stand for themselves. -/
theorem Link.Passes.scalars {a : Link} {ts : List Ty} {xs xs' : List Value}
    (h : a.Passes ts xs xs') (hts : ∀ t ∈ ts, t.Scalar) :
    xs' = xs ∧ List.Forall₂ Typing.bare.Fits xs ts := by
  induction h with
  | nil => exact ⟨rfl, .nil⟩
  | cons hx _ _ ih =>
    obtain ⟨rfl, hfits⟩ := (Link.Fits.scalar_iff (hts _ (.head _))).1 hx
    obtain ⟨rfl, hrest⟩ := ih fun t ht => hts t (.tail _ ht)
    exact ⟨rfl, .cons hfits hrest⟩

/-- The same host function comes to the same in both worlds. -/
theorem answered_native {Z : Setting} {a : Link} {w w' : World} {f' : Nat} {xs' : List Value}
    (hcomputes : Z.host.Computes id sig) (hf : w.functions[f]? = some (.native id sig))
    (hf' : w'.functions[f']? = some (.native id sig)) (hagree : Agree Z a w w')
    (hpass : a.Passes sig.params xs xs') :
    Answered Z a w sig.ret (call Z.host (n + 1) f xs w) fun k => call Z.host k f' xs' w' := by
  obtain ⟨rfl, hfits⟩ := hpass.scalars hcomputes.params
  obtain ⟨result, receiver, hdone, hret⟩ := hcomputes.done _ hfits
  have hlen := hfits.length_eq.symm
  have hcall' : ∀ k, 1 ≤ k → call Z.host k f' xs' w' =
      (HostProg.done result receiver).runStatic (call Z.host (k - 1)) (k - 1) w' := by
    rintro (_ | k) hk
    · omega
    · exact call_native hf' hlen hdone
  rw [call_native hf hlen hdone]
  cases result with
  | ok v =>
    have hv := hret v rfl
    exact ⟨a, v, w', .refl a, ⟨.plain (hcomputes.ret.literal hv).1, (Value.Sits.scalar_iff hcomputes.ret).2 hv⟩,
      hagree, .refl a w, 1, hcall'⟩
  | error e => exact .inr ⟨a, w', .refl a, hagree, 1, hcall'⟩

end Native

/-- **Linked functions come to the same**, whatever the bound of evaluation. -/
theorem answers (Z : Setting) (n : Nat) : Answers Z n := by
  induction n with
  | zero =>
    -- Evaluation has reached its bound.
    intro a w w' f f' sig xs xs' _ _ _
    exact .inl (.inl rfl)
  | succ n ih =>
    intro a w w' f f' sig xs xs' hagree hlink hpass
    rcases hagree.functions hlink with
      ⟨u, captured, code, record, rfl, htwin⟩ | ⟨id, hcomputes, hf, hf'⟩
    swap
    · exact answered_native hcomputes hf hf' hagree hpass
    obtain ⟨compiled, hforms, hboth⟩ := htwin.yields
    obtain ⟨hlow, hvalues⟩ := CompileM.codeAndEntries_ok hboth
    obtain ⟨s, t, hcourse, hcode⟩ := Lambda.toCode_course hlow
    let X : Loom Z :=
      { bound := n
        unit := u
        compiled
        code
        record
        final := t.emitted .ret
        nests := htwin.nests
        forms := hforms
        values := hvalues
        follows := fun k => ⟨⟨u.lambda, _, hcode⟩, fun r x hx =>
          unit_placed hcourse.unit x (Array.mem_of_getElem? hx)⟩ }
    have hanswer := X.answered ih hcourse.unit hcode hagree htwin.cells hpass
    have hcall : call Z.host (n + 1) f xs w =
        callLambda Z.host (call Z.host n) n u.lambda captured Z.gauge xs w := by
      obtain ⟨counter, hcounter, hf⟩ := htwin.evaluated
      simp only [call, hf, hcounter]
    rw [hcall]
    refine hanswer.later fun k => ?_
    simp only [call, htwin.compiled]
    rfl

end Closure

end TreeCode

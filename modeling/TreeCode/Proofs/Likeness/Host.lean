import TreeCode.Host.Basic
import TreeCode.Proofs.Likeness.World

/-!
# Host bodies side by side

A host body sees the answers to its requests and nothing else, so two runs of it are
alike when the functions it calls are. A body that is told that a function met its limit
could hide that; one that passes it on does not.

Main definitions:

* `HostProg.Relays`, `Host.Relays` — a limit met in a call is passed on.
* `Likeness.Callers` — two ways of calling functions.

Main results:

* `Likeness.Callers.callStatic`, `Likeness.Callers.callOn` — host methods.
-/

namespace TreeCode

/-! ## Bodies that pass a limit on -/

namespace HostProg

/-- The body ends by a limit met, whatever the answers to its requests are. -/
def Exceeds : HostProg → Prop
  | done (.error (.tooDeep ..)) _ => True
  | done .. => False
  | ask _ next => ∀ answer, (next answer).Exceeds

/-- A function that meets its limit when the body calls it makes the body end so. -/
def Relays : HostProg → Prop
  | done .. => True
  | ask op next => (∀ answer, (next answer).Relays) ∧
      ∀ ref args d m, op = .call ref args → (next (.error (.tooDeep d m))).Exceeds

/-- A run of a body that ends by a limit does so, unless it is cut off. -/
theorem Exceeds.run {p : HostProg} (h : p.Exceeds) (call : Caller) (n : Nat) (w : World) :
    ∃ f, (p.run call n w).1.result = .error f ∧ (f = .outOfFuel ∨ ∃ d m, f = .tooDeep d m) := by
  induction p generalizing w with
  | done result receiver =>
    cases result with
    | ok v => exact h.elim
    | error f =>
      cases f with
      | tooDeep d m => exact ⟨_, rfl, .inr ⟨d, m, rfl⟩⟩
      | _ => exact h.elim
  | ask op next ih =>
    simp only [HostProg.run]
    cases op.run call n w with
    | ok v w => exact ih _ (h _) w
    | error f w =>
      cases f with
      | outOfFuel => exact ⟨_, rfl, .inl rfl⟩
      | _ => exact ih _ (h _) w

end HostProg

/-- The host passes on that a function it calls met its limit. -/
structure Host.Relays (host : Host) : Prop where
  method : ∀ id receiver args, (host.method id receiver args).Relays
  native : ∀ id args, (host.native id args).Relays

namespace Likeness

variable {L : Likeness} {call call' : Caller} {n k : Nat}

variable (L) in
/-- Two ways of calling functions. -/
def Callers (call call' : Caller) : Prop :=
  ∀ ref args, Mirrors L.stops L.Worlds (call ref args) (call' ref args)

variable (L) in
/-- Two ends of a host body. -/
inductive Outcomes : HostOutcome × World → HostOutcome × World → Prop where
  | same {o : HostOutcome} {w w' : World} (h : L.Worlds w w') : Outcomes (o, w) (o, w')
  | stopped {f : Fault} {o : HostOutcome} {w : World} {r : HostOutcome × World}
    (he : o.result = .error f) (h : L.stops f) : Outcomes (o, w) r

/-- A request that is not a call stops only at its bound. -/
theorem run_mirrors {op : HostOp} (hop : ∀ ref args, op ≠ .call ref args) (hle : L.Bound n k) :
    Mirrors (fun f => f = .outOfFuel ∧ L.bounds) L.Worlds (op.run call n) (op.run call' k) := by
  cases op with
  | field v i => exact RunM.field_mirrors v i
  | setField v i x => exact RunM.setField_mirrors v i x
  | element a i => exact RunM.element_mirrors a i
  | setElement a i x => exact (RunM.setElement_mirrors a i x).bind fun _ => .pure _
  | create d fields => exact RunM.newStruct_mirrors d fields
  | exception e => exact RunM.withStore_mirrors fun st => st.newException e
  | describe v => exact (RunM.describe_mirrors hle (⟨rfl, ·⟩) v).bind fun _ => .pure _
  | log line => exact fun w w' h => .ok (h.pushLine line)
  | call ref args => exact absurd rfl (hop ref args)

namespace Callers

/-- What stops a request stops the body, at once or in the end. -/
theorem ask (hcall : L.Callers call call') (hle : L.Bound n k) {op : HostOp}
    {next : Except Fault Value → HostProg} (hp : L.limits → (HostProg.ask op next).Relays) :
    Mirrors (fun f => L.stops f ∧ (f = .outOfFuel ∨ (next (.error f)).Exceeds)) L.Worlds
      (op.run call n) (op.run call' k) := by
  by_cases hop : ∃ ref args, op = .call ref args
  · obtain ⟨ref, args, rfl⟩ := hop
    refine (hcall ref args).mono fun f hf => ⟨hf, ?_⟩
    rcases stops_cases hf with ⟨rfl, -⟩ | ⟨⟨d, m, rfl⟩, hl⟩
    · exact .inl rfl
    · exact .inr ((hp hl).2 ref args d m rfl)
  · refine (run_mirrors (fun ref args h => hop ⟨ref, args, h⟩) hle).mono ?_
    rintro f ⟨rfl, hb⟩
    exact ⟨hb, .inl rfl⟩

theorem body (hcall : L.Callers call call') (hle : L.Bound n k) (p : HostProg)
    (hp : L.limits → p.Relays) {w w' : World} (hw : L.Worlds w w') :
    L.Outcomes (p.run call n w) (p.run call' k w') := by
  induction p generalizing w w' with
  | done result receiver => exact .same hw
  | ask op next ih =>
    have hr := hcall.ask hle hp w w' hw
    have ih := fun answer {w w'} => @ih answer (fun hl => (hp hl).1 answer) w w'
    simp only [HostProg.run]
    generalize op.run call n w = r, op.run call' k w' = r' at hr ⊢
    cases hr with
    | ok hw => exact ih _ hw
    | @error f _ _ hw =>
      cases f with
      | outOfFuel => exact .same hw
      | _ => exact ih _ hw
    | @stopped f w₁ _ hf =>
      rcases stops_cases hf.1 with ⟨rfl, hb⟩ | ⟨⟨d, m, rfl⟩, hl⟩
      · exact .stopped rfl hb
      · -- The body goes on, but it ends by a limit or is cut off.
        obtain ⟨g, hg, hends⟩ := (hf.2.resolve_left (by simp)).run call n w₁
        have hstop : L.stops g := by
          rcases hends with rfl | ⟨d, m, rfl⟩
          · exact L.bounds_of_limits hl
          · exact hl
        exact .stopped hg hstop

theorem static (hcall : L.Callers call call') (hle : L.Bound n k) {p : HostProg}
    (hp : L.limits → p.Relays) :
    Mirrors L.stops L.Worlds (p.runStatic call n) (p.runStatic call' k) := by
  intro w w' hw
  have hr := hcall.body hle p hp hw
  simp only [HostProg.runStatic]
  generalize p.run call n w = r, p.run call' k w' = r' at hr ⊢
  cases hr with
  | @same o _ _ hw =>
    obtain ⟨result, receiver⟩ := o
    cases result with
    | ok v => exact .ok hw
    | error f => exact .error hw
  | @stopped f o _ _ he hf =>
    obtain ⟨result, receiver⟩ := o
    obtain rfl : result = .error f := he
    exact .stopped hf

variable {host : Host} (hhost : L.limits → host.Relays)
include hhost

theorem callStatic (hcall : L.Callers call call') (hle : L.Bound n k) (m : Method)
    (args : List Value) :
    Mirrors L.stops L.Worlds (host.callStatic call n m args) (host.callStatic call' k m args) :=
  hcall.static hle fun hl => (hhost hl).method _ _ _

theorem callOn (hcall : L.Callers call call') (hle : L.Bound n k) (m : Method)
    (receiver : Value) (args : List Value) {w w' : World} (hw : L.Worlds w w') :
    L.Outcomes (host.callOn call n m receiver args w) (host.callOn call' k m receiver args w') :=
  hcall.body hle _ (fun hl => (hhost hl).method _ _ _) hw

theorem native (hcall : L.Callers call call') (hle : L.Bound n k) (id : Nat) (sig : Signature)
    (args : List Value) :
    Mirrors L.stops L.Worlds
      (do RunM.requireArity sig.params.length args.length
          (host.native id args).runStatic call n)
      (do RunM.requireArity sig.params.length args.length
          (host.native id args).runStatic call' k) :=
  (RunM.requireArity_mirrors _ _).bind fun _ =>
    hcall.static hle fun hl => (hhost hl).native _ _

end Callers

end Likeness

end TreeCode

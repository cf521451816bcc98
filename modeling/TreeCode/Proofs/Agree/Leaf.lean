import TreeCode.Proofs.Agree.Instr
import TreeCode.Proofs.Value.Literal

/-!
# Leaves

Constants, variables and defaults. A literal may share a table entry with an
earlier one; the entry is then equal to it (`Value.Faithful`), down to the bits
of floating point numbers.

Main results:

* `Bench.Ready.pushValue` — the code for a literal pushes it.
* `agrees_constant`, `agrees_var`, `agrees_default` — leaves agree.
-/

namespace TreeCode

open Draft Lower

variable {J : Discipline} {X : Bench J} {G G' : Frame} {a b : J.State} {σ σ' : EvalState}
  {μ μ' : MachineState} {s s' t t' : Draft} {st st' : List Value} {pd : List Pending}
  {L L' P P₁ P₂ P₃ : List Nat} {g : Bool} {i : Instr} {u : Unit}

/-! ## Instructions that push -/

theorem At.tabled (h : At s st pd μ) (ht : Tabled s s') : At s' st pd μ where
  pointer := by rw [h.pointer, ht.instrs]
  reachable := by rw [ht.reachable, h.reachable]
  stack := h.stack
  height := by rw [h.height, ht.depth]
  pending := h.pending

namespace Bench.Ready

/-- An instruction that pushes a value. -/
theorem push (R : X.Ready) {v : Value} (h : Stands X G a σ s st pd μ)
    (hF : (s.emitted i).Leads X.final) (hi : i.target? = none) (ht : i.transfersControl = false)
    (heff : effectOf s.methods i = (0, 1))
    (hexec : ∀ μ : MachineState, Holds X G a σ μ →
      X.machine.exec i μ = .ok none { μ with stack := v :: μ.stack }) :
    X.Reaches μ (Stands X G a σ (s.emitted i) (v :: st) pd) :=
  R.carry h hF hi ht (fun μ hμ hold => by rw [hexec μ hold, hμ]) (by simp [heff])

theorem loadLocal (R : X.Ready) {v : Value} {k : Nat} (h : Stands X G a σ s st pd μ)
    (hF : (s.emitted (.loadLocal k)).Leads X.final)
    (hk : ∀ μ, Holds X G a σ μ → μ.locals[k]? = some v) :
    X.Reaches μ (Stands X G a σ (s.emitted (.loadLocal k)) (v :: st) pd) := by
  refine R.push h hF rfl rfl rfl fun μ hold => ?_
  have := hk μ hold
  simp only [Machine.exec, MachineM.readSlot, MachineM.push, MachineM.entry, bind, EStateM.bind,
    get, getThe, MonadStateOf.get, EStateM.get, this]
  rfl

/-- The value on top of the stack is dropped. -/
theorem pop (R : X.Ready) {v : Value} (h : Stands X G a σ s (v :: st) pd μ)
    (hF : (s.emitted .pop).Leads X.final) :
    X.Reaches μ (Stands X G a σ (s.emitted .pop) st pd) := by
  refine R.carry h hF rfl rfl (fun μ hμ _ => ?_) (by simp [effectOf])
  obtain ⟨w, p, stack, locals, q⟩ := μ
  obtain rfl : stack = _ := hμ
  rfl

/-- The value on top of the stack is pushed once more. -/
theorem dup (R : X.Ready) {v : Value} (h : Stands X G a σ s (v :: st) pd μ)
    (hF : (s.emitted .dup).Leads X.final) :
    X.Reaches μ (Stands X G a σ (s.emitted .dup) (v :: v :: st) pd) := by
  refine R.carry h hF rfl rfl (fun μ hμ _ => ?_) (by simp [effectOf])
  obtain ⟨w, p, stack, locals, q⟩ := μ
  obtain rfl : stack = _ := hμ
  rfl

theorem dropWhen (R : X.Ready) {v : Value} {d : Bool} (h : Stands X G a σ s (v :: st) pd μ)
    (hd : Lower.dropWhen d X.env s = .ok (u, s')) (hF : s'.Leads X.final) :
    X.Reaches μ (Stands X G a σ s' (if d then st else v :: st) pd) := by
  simp only [Lower.dropWhen, ite_ok, emit_ok, pure_ok] at hd
  rcases hd with ⟨rfl, rfl⟩ | ⟨hd, -, rfl⟩
  · exact R.pop h hF
  · simpa [hd] using Reaches.here h

/-- The code for a literal pushes it. -/
theorem pushValue (R : X.Ready) {v : Value} (h : Stands X G a σ s st pd μ)
    (hp : Lower.pushValue v X.env s = .ok (u, s')) (hF : s'.Leads X.final) (hv : v.Faithful) :
    X.Reaches μ (Stands X G a σ s' (v :: st) pd) := by
  unfold Lower.pushValue at hp
  split at hp
  case h_5 =>
    simp only [bind_ok, emit_ok] at hp
    obtain ⟨k, s₁, hlit, rfl⟩ := hp
    obtain ⟨htab, w, hw, hshare⟩ := literal_ok hlit
    have hwv : w = v := hshare.elim id (hv w)
    subst hwv
    have hentry : X.machine.code.literals[k]? = some w := by
      rw [R.literals]
      exact hF.literals k w hw
    refine R.push ⟨h.holds, h.place.tabled htab⟩ hF rfl rfl rfl fun μ _ => ?_
    simp only [Machine.exec, hentry]
    rfl
  all_goals
    obtain rfl := emit_ok.1 hp
    exact R.push h hF rfl rfl rfl fun μ _ => rfl

/-- A variable lives in a slot. -/
theorem homeOf (R : X.Ready) {v : Var} {home : Home} (h : Lower.homeOf v X.env s = .ok (home, s')) :
    s = s' ∧ ∃ k, home = .slot k ∧ s.slots.get? v.id = some k := by
  simp only [Lower.homeOf, read_bind, get_bind] at h
  cases hk : s.slots.get? v.id with
  | some k =>
    simp only [hk, Plan.isBoxed, R.boxed, List.contains_nil, pure_ok] at h
    exact ⟨h.2, k, h.1.symm, rfl⟩
  | none =>
    simp [hk, Plan.capturePlace?, R.captures, error_ok] at h

end Bench.Ready

/-! ## Nodes -/

/-- A constant without identity is a literal, one with identity is in the record. -/
theorem agrees_constant {t : Ty} {v : Value} (hv : v.identity? = none → v.Faithful)
    (ht : ∀ a, J.has a v t) : Agrees X L (.constant t v) := by
  refine Agrees.of_node ?_
  intro f s s' G pd st a n σ μ S hst _ _
  have R := S.span.ready
  have hF := S.span.leads
  suffices h : X.Reaches μ (Stands X G a σ s' (f.pushed v st) pd) from
    .ok (h.mono fun μ' h => ⟨a, J.le_refl a, ht a, h⟩)
  have hlow : pushConstant v f X.env s = .ok ((), s') := S.lowered
  simp only [pushConstant, ite_ok, pure_ok, read_bind] at hlow
  rcases hlow with ⟨hd, -, rfl⟩ | ⟨hd, ⟨hid, hpush⟩ | ⟨hid, hload⟩⟩
  · simpa [Usage.pushed, hd] using Bench.Reaches.here hst
  · simpa [Usage.pushed, hd] using R.pushValue hst hpush hF (hv (by simpa using hid))
  · have hne : v.identity? ≠ none := by simpa using hid
    have hsup : X.env.supplied = none := R.supplied.resolve_right fun h => hne (h v S.plain)
    -- The entry of the record is loaded, from its slot if the prologue moved it.
    obtain ⟨k, hk, hval⟩ := R.constant v S.plain hne
    simp only [hsup, hk, pushEntry, get_bind] at hload
    simp only [Usage.pushed, hd, if_false, Bool.false_eq_true]
    cases hhoist : s.hoisted.lookup k with
    | some slot =>
      simp only [hhoist, emit_ok] at hload
      subst hload
      obtain ⟨w, hw, hmem⟩ := S.span.fits.hoisted k slot hhoist
      obtain rfl : w = v := by simpa [hval] using hw.symm
      exact R.loadLocal hst hF fun μ hold => hold.frozen _ hmem
    | none =>
      simp only [hhoist, emit_ok] at hload
      subst hload
      refine R.push hst hF rfl rfl rfl fun μ _ => ?_
      simp only [Machine.exec, Machine.constant, hval]
      rfl

/-- The cell of a variable in scope, its slot and the value they hold. -/
theorem Holds.lookup {v : Var} {k : Nat} (h : Holds X G a σ μ) (hf : Suits X G s)
    (hk : s.slots.get? v.id = some k) :
    ∃ ref x, σ.scopes.get? v.id = some ref ∧ (⟨ref, k, X.types v.id⟩ : Twin) ∈ G.twins ∧
      σ.world.store.cells[ref]? = some x ∧ μ.locals[k]? = some x ∧ J.has a x (X.types v.id) := by
  obtain ⟨ref, href, hmem⟩ := hf.vars v.id k hk
  obtain ⟨x, hx, hx', hhas⟩ := h.twin _ hmem
  exact ⟨ref, x, by rw [h.scopes]; exact href, hmem, hx, hx', hhas⟩

theorem agrees_var {v : Var} (hty : X.types v.id = v.ty) : Agrees X L (.var v) := by
  refine Agrees.of_node ?_
  intro f s s' G pd st a n σ μ S hst _ _
  have R := S.span.ready
  have hF := S.span.leads
  have hlow : pushVar v f X.env s = .ok ((), s') := S.lowered
  simp only [pushVar, bind_ok] at hlow
  obtain ⟨home, s₁, hhome, hlow⟩ := hlow
  obtain ⟨rfl, k, rfl, hk⟩ := R.homeOf hhome
  obtain ⟨ref, x, href, hmem, hcell, -, hhas⟩ := hst.holds.lookup S.span.fits hk
  have hx : σ.world.store.cellAt ref = x := by simp [Store.cellAt, hcell]
  rw [Walk.node_var href, hx]
  rw [hty] at hhas
  suffices h : X.Reaches μ (Stands X G a σ s' (f.pushed x st) pd) from
    .ok (h.mono fun μ' h => ⟨a, J.le_refl a, hhas, h⟩)
  simp only [ite_ok, pure_ok] at hlow
  rcases hlow with ⟨hd, -, rfl⟩ | ⟨hd, hload⟩
  · simpa [Usage.pushed, hd] using Bench.Reaches.here hst
  · have haddr : (f.byAddress && v.ty.isValueStruct) = false := by
      cases hb : f.byAddress with
      | false => rfl
      | true => simp [S.direct hb v rfl]
    simp only [load, haddr, emit_ok] at hload
    subst hload
    simp only [Usage.pushed, hd, if_false, Bool.false_eq_true]
    refine R.loadLocal hst hF fun μ' hold => ?_
    obtain ⟨y, hy, hy', -⟩ := hold.twin _ hmem
    rw [hcell] at hy
    rw [hy', hy]

theorem agrees_default {t : Ty} : Agrees X L (.default t) := by
  refine Agrees.of_node ?_
  intro f s s' G pd st a n σ μ S hst _ _
  suffices h : X.Reaches μ (Stands X G a σ s' (f.pushed t.default st) pd) from
    .ok (h.mono fun μ' h => ⟨a, J.le_refl a, J.default_has a t, h⟩)
  have hlow : (if (!f.discarded && !t.isVoid) = true then Lower.pushValue t.default
    else pure () : LowerM Unit) X.env s = .ok ((), s') := S.lowered
  simp only [ite_ok, pure_ok] at hlow
  have hused : t.isVoid = true → f.discarded = true := S.used
  rcases hlow with ⟨hd, hpush⟩ | ⟨hd, -, rfl⟩
  · have hd : f.discarded = false := by simp_all
    simpa [Usage.pushed, hd] using S.span.ready.pushValue hst hpush S.span.leads t.default_faithful
  · have hd : f.discarded = true := by
      cases hf : f.discarded <;> simp_all
    simpa [Usage.pushed, hd] using Bench.Reaches.here hst

end TreeCode

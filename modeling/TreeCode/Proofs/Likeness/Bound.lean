import TreeCode.Proofs.Likeness.Machine

/-!
# Raised bounds

Every run has a bound, and a run that meets its bound is cut off. A run with a higher
bound outlasts it, that is, it gives the same result unless the first is cut off. So a
function that gives a result within some bound gives the same result within every higher
one.

Main definitions:

* `Likeness.longer` — two runs of which the second may be longer.
* `Outlasts` — an action gives what another one gives, unless that one is cut off.

Main results:

* `call_outlasts` — **raising the bound never changes a finished call**.
* `Host.callStatic_outlasts`, `Machine.run_outlasts` — host methods and units.
-/

namespace TreeCode

/-- Two runs in one world, of which the second may be longer. -/
def Likeness.longer (depth : Depths) : Likeness := ⟨True, False, False.elim, #[], #[], depth⟩

namespace Likeness

variable {d : Depths}

/-- Apart from their length the two runs are the same. -/
theorem worlds_longer {w w' : World} : (longer d).Worlds w w' ↔ w.depth = d ∧ w' = w := by
  rw [worlds_iff fun h => h]
  refine and_congr_right fun _ => ?_
  constructor
  · rintro ⟨added, hlog, rfl⟩
    rw [show (longer d).before' = (longer d).before from rfl, ← hlog]
  · rintro rfl
    exact ⟨w'.log, Array.empty_append.symm,
      by rw [show (longer d).before' = #[] from rfl, Array.empty_append]⟩

theorem stations_longer {μ μ' : MachineState} :
    (longer d).Stations μ μ' ↔ μ.world.depth = d ∧ μ' = μ := by
  constructor
  · intro h
    obtain ⟨world, pointer, stack, locals, pending⟩ := μ
    obtain ⟨world', pointer', stack', locals', pending'⟩ := μ'
    obtain ⟨hw, rfl, rfl, rfl, rfl⟩ := h
    obtain ⟨hdepth, rfl⟩ := worlds_longer.1 hw
    exact ⟨hdepth, rfl⟩
  · rintro ⟨hdepth, rfl⟩
    exact ⟨worlds_longer.2 ⟨hdepth, rfl⟩, rfl, rfl, rfl, rfl⟩

theorem longer_stops {f : Fault} : (longer d).stops f ↔ f = .outOfFuel := by
  constructor
  · intro h
    exact (stops_cases h).elim (·.1) fun h => h.2.elim
  · rintro rfl
    trivial

end Likeness

/-- The action `x'` gives what `x` gives, unless `x` is cut off, which it says by `c`. -/
def Outlasts {ε σ α : Type} (c : ε) (x x' : EStateM ε σ α) : Prop :=
  ∀ s, (∃ s', x s = .error c s') ∨ x' s = x s

/-- An action that mirrors another one with the states the same outlasts it. -/
theorem Outlasts.of_mirrors {σ α : Type} {R : Depths → σ → σ → Prop} (depth : σ → Depths)
    (hR : ∀ d s s', R d s s' ↔ depth s = d ∧ s' = s) {x x' : EStateM Fault σ α}
    (h : ∀ d, Mirrors (Likeness.longer d).stops (R d) x x') : Outlasts .outOfFuel x x' := by
  intro s
  have hr := h (depth s) s s ((hR _ s s).2 ⟨rfl, rfl⟩)
  generalize x s = r, x' s = r' at hr ⊢
  cases hr with
  | ok hs => exact .inr (by rw [((hR _ _ _).1 hs).2])
  | error hs => exact .inr (by rw [((hR _ _ _).1 hs).2])
  | stopped he => exact .inl ⟨_, by rw [Likeness.longer_stops.1 he]⟩

variable {n k : Nat}

theorem Likeness.callers_longer (host : Host) (hle : n ≤ k) (d : Depths) :
    (longer d).Callers (call host n) (call host k) :=
  callers (L := longer d) (fun h => h.elim) (.inr ⟨trivial, hle⟩) d

/-- **Raising the bound never changes a finished call.** -/
theorem call_outlasts (host : Host) (hle : n ≤ k) (ref : Nat) (args : List Value) :
    Outlasts .outOfFuel (call host n ref args) (call host k ref args) :=
  .of_mirrors World.depth (fun _ _ _ => Likeness.worlds_longer) fun d =>
    Likeness.callers_longer host hle d ref args

theorem Host.callStatic_outlasts (h host : Host) (hle : n ≤ k) {i j : Nat} (hsteps : i ≤ j)
    (m : Method) (args : List Value) :
    Outlasts .outOfFuel (h.callStatic (call host n) i m args)
      (h.callStatic (call host k) j m args) :=
  .of_mirrors World.depth (fun _ _ _ => Likeness.worlds_longer) fun d =>
    (Likeness.callers_longer host hle d).callStatic (L := Likeness.longer d) (fun h => h.elim)
      (.inr ⟨trivial, hsteps⟩) m args

/-- A run of a unit with a higher bound outlasts one with a lower bound. -/
theorem Machine.run_outlasts {host : Host} (code : Code) (record : ClosureRecord) (hle : n ≤ k)
    {i j : Nat} (hturns : i ≤ j) :
    Outlasts .outOfFuel
      (Machine.run { host, fuel := n, call := TreeCode.call host n, code, record } i)
      (Machine.run { host, fuel := k, call := TreeCode.call host k, code, record } j) :=
  .of_mirrors (·.world.depth) (fun _ _ _ => Likeness.stations_longer) fun d =>
    have hm : (Likeness.longer d).Machines
        { host, fuel := n, call := TreeCode.call host n, code, record }
        { host, fuel := k, call := TreeCode.call host k, code, record } :=
      ⟨rfl, fun h => h.elim, rfl, rfl, .inr ⟨trivial, hle⟩, Likeness.callers_longer host hle d⟩
    hm.run (.inr ⟨trivial, hturns⟩)

end TreeCode

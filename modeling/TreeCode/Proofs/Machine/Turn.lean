import Mathlib
import TreeCode.Machine.Run

/-!
# Turns of the machine

`Machine.run` counts instructions down. Here a run is taken apart into turns:
a turn carries out one instruction, or moves control to the handler of its
failure. Statements about code are statements about sequences of turns, which
hold whatever number of instructions is left.

Main definitions:

* `Machine.turn` — one turn; `Machine.run_succ` says that a run is made of them.
* `Machine.Goes` — a number of turns leads from one state to another.
* `Machine.Lingers`, `Machine.Stalls` — a run is cut off by its bound, and is cut
  off by any bound.
* `Machine.departed` — the state after leaving towards a position.
-/

namespace TreeCode

/-- Outcome of a turn. -/
inductive Turn where
  | goes (s : MachineState)
  | ends (r : EStateM.Result Fault MachineState Value)

namespace Machine

variable {m : Machine} {μ μ' μ'' : MachineState}

/-- The step at an instruction that is known. -/
theorem step_of_some {i : Instr} (hi : m.code.instrs[μ.pointer]? = some i) :
    m.step μ = m.exec i { μ with pointer := μ.pointer + 1 } := by
  have hget : (get : MachineM MachineState) μ = .ok μ μ := rfl
  simp only [step, bind, EStateM.bind, hget, hi]
  rfl

/-- There is no step behind the code. -/
theorem step_of_none (hi : m.code.instrs[μ.pointer]? = none) :
    m.step μ = .error (.defect (.pointerOutOfRange μ.pointer)) μ := by
  have hget : (get : MachineM MachineState) μ = .ok μ μ := rfl
  simp only [step, bind, EStateM.bind, hget, hi]
  rfl

/-- Carries out one instruction; a failure goes to its handler. -/
def turn (m : Machine) (μ : MachineState) : Turn :=
  match m.step μ with
  | .ok none s => .goes s
  | .ok (some v) s => .ends (.ok v s)
  | .error f s =>
    match m.dispatch f (s.pointer - 1) s with
    | .ok _ s => .goes s
    | .error f s => .ends (.error f s)

theorem run_succ (m : Machine) (n : Nat) (μ : MachineState) :
    m.run (n + 1) μ = match m.turn μ with
      | .goes μ' => m.run n μ'
      | .ends r => r := by
  show (match m.step μ with
    | .ok none s => m.run n s
    | .ok (some v) s => .ok v s
    | .error f s =>
      match m.dispatch f (s.pointer - 1) s with
      | .ok _ s => m.run n s
      | .error f s => .error f s) = _
  rw [turn]
  rcases m.step μ with ⟨_ | v, s⟩ | ⟨f, s⟩
  · rfl
  · rfl
  · dsimp only
    cases m.dispatch f (s.pointer - 1) s <;> rfl

/-- From `μ`, `k` turns lead to `μ'`. -/
def Goes (m : Machine) (k : Nat) (μ μ' : MachineState) : Prop :=
  ∀ n, m.run (n + k) μ = m.run n μ'

theorem Goes.refl (m : Machine) (μ : MachineState) : m.Goes 0 μ μ := fun _ => rfl

theorem Goes.trans {j k : Nat} (h₁ : m.Goes j μ μ') (h₂ : m.Goes k μ' μ'') :
    m.Goes (k + j) μ μ'' := fun n => by
  rw [← Nat.add_assoc, h₁, h₂]

theorem goes_of_turn (h : m.turn μ = .goes μ') : m.Goes 1 μ μ' := fun n => by
  rw [run_succ, h]

/-- The result of a run that was cut off. -/
def CutOff (r : EStateM.Result Fault MachineState Value) : Prop := ∃ s, r = .error .outOfFuel s

/-- A bound that did not cut a run off may be raised. -/
theorem run_add {n : Nat} (h : ¬CutOff (m.run n μ)) (k : Nat) : m.run (n + k) μ = m.run n μ := by
  induction n generalizing μ with
  | zero => exact absurd ⟨μ, rfl⟩ h
  | succ n ih =>
    rw [Nat.add_right_comm, run_succ, run_succ]
    rw [run_succ] at h
    cases ht : m.turn μ with
    | goes s =>
      rw [ht] at h
      exact ih h
    | ends r => rfl

/-- A run of `k` instructions is cut off by its bound. -/
def Lingers (m : Machine) (k : Nat) (μ : MachineState) : Prop := CutOff (m.run k μ)

theorem lingers_zero (m : Machine) (μ : MachineState) : m.Lingers 0 μ := ⟨μ, rfl⟩

theorem Lingers.mono {j k : Nat} (h : m.Lingers k μ) (hjk : j ≤ k) : m.Lingers j μ := by
  by_contra hj
  obtain ⟨d, rfl⟩ := Nat.exists_eq_add_of_le hjk
  exact hj (by rw [Lingers, ← run_add hj d]; exact h)

theorem Lingers.of_goes {j k : Nat} (hg : m.Goes j μ μ') (h : m.Lingers k μ') :
    m.Lingers (k + j) μ := by
  rw [Lingers, hg k]
  exact h

/-- Every run is cut off. -/
def Stalls (m : Machine) (μ : MachineState) : Prop := ∀ k, m.Lingers k μ

theorem Stalls.of_goes {j : Nat} (hg : m.Goes j μ μ') (h : m.Stalls μ') : m.Stalls μ :=
  fun k => (Lingers.of_goes hg (h k)).mono (Nat.le_add_right k j)

/-- A host body that is cut off stalls the run. -/
theorem stalls_of_step {s : MachineState} (h : m.step μ = .error .outOfFuel s) : m.Stalls μ := by
  intro k
  cases k with
  | zero => exact lingers_zero m μ
  | succ k =>
    rw [Lingers, run_succ, turn, h]
    exact ⟨s, rfl⟩

/-! ## Leaving -/

/-- The state after leaving from `origin` towards `target`. -/
def departed (m : Machine) (origin target : Nat) (μ : MachineState) : MachineState :=
  match m.code.handlers.findIdx? (fun h => h.isFinally && h.covers origin && !h.covers target)
      |>.bind fun i => m.code.handlers[i]?.map ((i, ·)) with
  | some (i, h) =>
    { MachineM.cutBack h.depth μ with
      pointer := h.target
      pending := ⟨i, .leave target⟩ :: μ.pending }
  | none => { μ with pointer := target }

theorem leave_eq (m : Machine) (origin target : Nat) (μ : MachineState) :
    m.leave origin target μ = .ok () (m.departed origin target μ) := by
  unfold leave departed
  dsimp only
  rcases (List.findIdx? _ m.code.handlers).bind _ with _ | ⟨i, h⟩ <;> rfl

theorem exec_leave (m : Machine) (target : Nat) (μ : MachineState) :
    m.exec (.leave target) μ = .ok none (m.departed (μ.pointer - 1) target μ) := by
  have hget : (get : MachineM MachineState) μ = .ok μ μ := rfl
  simp only [exec, bind, EStateM.bind, hget, leave_eq]
  rfl

/-- Nothing is crossed on the way. -/
theorem departed_of_none {origin target : Nat}
    (h : ∀ k ∈ m.code.handlers, k.isFinally = true → k.covers origin = true →
      k.covers target = true) (μ : MachineState) :
    m.departed origin target μ = { μ with pointer := target } := by
  have hnone : m.code.handlers.findIdx?
      (fun h => h.isFinally && h.covers origin && !h.covers target) = none := by
    rw [List.findIdx?_eq_none_iff]
    intro k hk
    have := h k hk
    cases hf : k.isFinally <;> cases hc : k.covers origin <;> simp_all
  rw [departed, hnone]
  rfl

/-- The finally block at place `i` is the first that is crossed. -/
theorem departed_of_crossed {origin target i : Nat} {k : Handler}
    (hk : m.code.handlers[i]? = some k)
    (hi : k.isFinally = true ∧ k.covers origin = true ∧ k.covers target = false)
    (hfirst : ∀ j h, j < i → m.code.handlers[j]? = some h → h.isFinally = true →
      h.covers origin = true → h.covers target = true) (μ : MachineState) :
    m.departed origin target μ =
      { MachineM.cutBack k.depth μ with
        pointer := k.target
        pending := ⟨i, .leave target⟩ :: μ.pending } := by
  have hfound : m.code.handlers.findIdx?
      (fun h => h.isFinally && h.covers origin && !h.covers target) = some i := by
    rw [List.findIdx?_eq_some_iff_getElem]
    obtain ⟨hlt, hget⟩ := List.getElem?_eq_some_iff.1 hk
    refine ⟨hlt, by simp [hget, hi], fun j hj => ?_⟩
    have := hfirst j m.code.handlers[j] hj (List.getElem?_eq_getElem _)
    cases hf : m.code.handlers[j].isFinally <;> cases hc : m.code.handlers[j].covers origin <;>
      simp_all
  rw [departed, hfound]
  simp [hk]

/-! ## Failing -/

/-- The state in which the handler at place `i` starts. -/
def handed (m : Machine) (i : Nat) (k : Handler) (v : Value) (origin : Nat) (μ : MachineState) :
    MachineState :=
  let μ' := { MachineM.cutBack k.depth μ with
    pending := μ.pending.filter fun frame => !m.escapes origin k.target frame
    pointer := k.target }
  match k.kind with
  | .catching _ slot _ => { μ' with locals := μ'.locals.setIfInBounds slot v }
  | .finally .. | .fault .. => { μ' with pending := ⟨i, .rethrow (.thrown v)⟩ :: μ'.pending }

/-- An exception goes to the first entry that takes it. -/
theorem dispatch_of_taken {v : Value} {origin i : Nat} {k : Handler}
    (hk : m.code.handlers[i]? = some k) (hi : takes origin v k = true)
    (hfirst : ∀ j h, j < i → m.code.handlers[j]? = some h → takes origin v h = false)
    (hslot : ∀ t slot p, k.kind = .catching t slot p → slot < μ.locals.size) :
    m.dispatch (.thrown v) origin μ = .ok () (m.handed i k v origin μ) := by
  have hfound : m.code.handlers.findIdx? (takes origin v) = some i := by
    rw [List.findIdx?_eq_some_iff_getElem]
    obtain ⟨hlt, hget⟩ := List.getElem?_eq_some_iff.1 hk
    refine ⟨hlt, by simp [hget, hi], fun j hj => ?_⟩
    simpa using hfirst j m.code.handlers[j] hj (List.getElem?_eq_getElem _)
  simp only [dispatch, Fault.thrown?, hfound, Option.bind_some, hk, Option.map_some]
  rcases hkind : k.kind with ⟨t, slot, p⟩ | ⟨p, q⟩ | ⟨p, q⟩
  · have hlt := hslot t slot p hkind
    simp only [handed, hkind]
    simp [modify, modifyGet, MonadStateOf.modifyGet, EStateM.modifyGet, bind, EStateM.bind,
      MachineM.writeSlot, MachineM.continueAt, MachineM.cutBack, hlt]
  · simp only [handed, hkind]
    rfl
  · simp only [handed, hkind]
    rfl

theorem turn_of_taken {s : MachineState} {v : Value} {i : Nat} {k : Handler}
    (hstep : m.step μ = .error (.thrown v) s) (hk : m.code.handlers[i]? = some k)
    (hi : takes (s.pointer - 1) v k = true)
    (hfirst : ∀ j h, j < i → m.code.handlers[j]? = some h → takes (s.pointer - 1) v h = false)
    (hslot : ∀ t slot p, k.kind = .catching t slot p → slot < s.locals.size) :
    m.turn μ = .goes (m.handed i k v (s.pointer - 1) s) := by
  rw [turn, hstep]
  simp only [dispatch_of_taken hk hi hfirst hslot]

/-- A failure that no entry takes ends the run. -/
theorem turn_of_untaken {s : MachineState} {f : Fault} (hstep : m.step μ = .error f s)
    (h : ∀ v, f = .thrown v → ∀ k ∈ m.code.handlers, takes (s.pointer - 1) v k = false) :
    m.turn μ = .ends (.error f s) := by
  rw [turn, hstep]
  cases f with
  | thrown v =>
    have hnone : m.code.handlers.findIdx? (takes (s.pointer - 1) v) = none :=
      List.findIdx?_eq_none_iff.2 (h v rfl)
    simp only [dispatch, Fault.thrown?, hnone, Option.bind_none]
    rfl
  | _ => rfl

end Machine

end TreeCode

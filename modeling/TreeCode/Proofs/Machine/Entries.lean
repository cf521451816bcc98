import TreeCode.Proofs.Machine.Locals

/-!
# Entries of the record that are kept in slots

An entry of the closure record that is mentioned several times is loaded once, into a
slot of its own, and read from there. Control passes the two instructions that do so
before it can jump anywhere, and nothing else is stored in the slot. From then on the
slot holds a value with the identity of the entry, whatever else happens in the run.

Main definitions:

* `Code.KeepsEntry` — a slot is set aside for an entry of the record.
* `Code.LoadsEntry` — an instruction pushes an entry of the record.
* `Code.Pushes` — in every run, the instruction at a position pushes a value of a kind.

Main results:

* `Code.KeepsEntry.reached` — the slot of an entry holds it in every state of a run.
* `Code.LoadsEntry.pushes` — **what is loaded for an entry has the identity of the
  entry**.
-/

namespace TreeCode

/-- A slot is set aside for entry `j` of the record: the instructions at `h` store it
there, after straight code and before anything that jumps or handlers lead to, and
nothing else is stored there. -/
structure Code.KeepsEntry (code : Code) (slot j h : Nat) : Prop where
  loads : code.instrs[h]? = some (.loadConstant j)
  stores : code.instrs[h + 1]? = some (.storeLocal slot)
  straight : ∀ (p : Nat) (i : Instr), p ≤ h + 1 → code.instrs[p]? = some i → i.isStraight = true
  only : ∀ (p : Nat) (i : Instr), code.instrs[p]? = some i → i.writes? = some slot → p = h + 1
  catches : ∀ x ∈ code.handlers, ∀ t k q, x.kind = .catching t k q → k ≠ slot
  lands : code.Lands (h + 2 ≤ ·)
  starts : ∀ x ∈ code.handlers, h + 2 ≤ x.start

/-- The instruction at a position pushes an entry of the record, directly or from the
slot set aside for it. -/
def Code.LoadsEntry (code : Code) (p j : Nat) : Prop :=
  code.instrs[p]? = some (.loadConstant j) ∨
    ∃ slot h, code.instrs[p]? = some (.loadLocal slot) ∧ h + 2 ≤ p ∧ code.KeepsEntry slot j h

/-- In every state of every run in which the instruction at a position is next, it
pushes a value of a kind. The unit is bound to a record with these entries. -/
def Code.Pushes (code : Code) (values : List Value) (p : Nat) (P : Value → Prop) : Prop :=
  ∀ (m : Machine) (w : World) (args : List Value) (μ : MachineState), m.code = code →
    m.record.values = values → m.host.LeavesShared →
    m.Reaches { world := w, locals := code.initialLocals args } μ → μ.pointer = p →
      ∃ v, P v ∧ m.turn μ = .goes { μ with pointer := p + 1, stack := v :: μ.stack }

namespace Machine

variable {m : Machine} {μ : MachineState}

theorem turn_of_step {μ' : MachineState} (h : m.step μ = .ok none μ') : m.turn μ = .goes μ' := by
  simp only [turn, h]

theorem step_loadConstant {j : Nat} {v : Value}
    (hi : m.code.instrs[μ.pointer]? = some (.loadConstant j)) (hv : m.record.values[j]? = some v) :
    m.step μ = .ok none { μ with pointer := μ.pointer + 1, stack := v :: μ.stack } := by
  rw [step_of_some hi]
  simp only [exec, constant, hv]
  rfl

theorem step_loadLocal {k : Nat} {v : Value}
    (hi : m.code.instrs[μ.pointer]? = some (.loadLocal k)) (hv : μ.locals[k]? = some v) :
    m.step μ = .ok none { μ with pointer := μ.pointer + 1, stack := v :: μ.stack } := by
  have hget : ∀ s : MachineState, (get : MachineM MachineState) s = .ok s s := fun _ => rfl
  rw [step_of_some hi]
  simp only [exec, MachineM.readSlot, bind, EStateM.bind, hget, hv]
  rfl

/-- A value that is stored in a slot is there, if the store succeeds. -/
theorem step_storeLocal {k : Nat} {v : Value} {st : List Value} {μ' : MachineState}
    (hi : m.code.instrs[μ.pointer]? = some (.storeLocal k)) (hst : μ.stack = v :: st)
    (h : m.step μ = .ok none μ') : μ'.locals[k]? = some v := by
  rw [step_of_some hi] at h
  simp only [exec, MachineM.pop, MachineM.writeSlot, bind, EStateM.bind, hst] at h
  by_cases hk : k < μ.locals.size
  · simp only [hk, if_true] at h
    cases h
    simp [hk]
  · simp [hk] at h

end Machine

namespace Code.KeepsEntry

variable {code : Code} {slot j h : Nat} {m : Machine} {v : Value} {i : Identity}

/-- What holds of the slot of an entry, depending on how far control has come. -/
structure Held (i : Identity) (v : Value) (slot h : Nat) (μ : MachineState) : Prop where
  awaits : Awaits (h + 2 ≤ ·) μ.pending
  loaded : μ.pointer = h + 1 → ∃ st, μ.stack = v :: st
  stored : h + 2 ≤ μ.pointer → identityAt μ.locals slot = some i

/-- Before the entry is stored, control goes on to the next instruction. -/
theorem passes (hc : code.KeepsEntry slot j h) (hm : m.code = code) {μ μ' : MachineState}
    (hturn : m.turn μ = .goes μ') (hp : μ.pointer ≤ h + 1) :
    μ'.pointer = μ.pointer + 1 ∧ m.step μ = .ok none μ' := by
  have hlt : h + 1 < code.instrs.size := (Array.getElem?_eq_some_iff.1 hc.stores).1
  have hlt' : μ.pointer < code.instrs.size := by omega
  have hi : code.instrs[μ.pointer]? = some code.instrs[μ.pointer] := Array.getElem?_eq_getElem hlt'
  have hsteady := Machine.exec_steady (m := m) (hc.straight _ _ hp hi)
    { μ with pointer := μ.pointer + 1 }
  rw [← Machine.step_of_some (hm ▸ hi)] at hsteady
  rcases Machine.turn_goes hturn with hs | ⟨f, s, hs, hd⟩
  · rw [hs] at hsteady
    exact ⟨hsteady.1, hs⟩
  · -- No region covers the beginning of the code.
    rw [hs] at hsteady
    have hptr : s.pointer - 1 = μ.pointer := by rw [hsteady.1, Nat.add_sub_cancel]
    obtain ⟨_, x, _, hx, -, hcov, -⟩ := Machine.dispatch_ok hd
    rw [hptr] at hcov
    have hstart := hc.starts x (List.mem_of_getElem? (hm ▸ hx))
    simp only [Handler.covers, Bool.and_eq_true, decide_eq_true_eq] at hcov
    omega

theorem held_turn (hc : code.KeepsEntry slot j h) (hm : m.code = code)
    (hhost : m.host.LeavesShared) (hv : m.record.values[j]? = some v)
    (hi : v.identity? = some i) {μ μ' : MachineState} (hturn : m.turn μ = .goes μ')
    (hμ : Held i v slot h μ) : Held i v slot h μ' := by
  obtain ⟨hawaits, -⟩ := Machine.turn_lands (hm ▸ hc.lands) hμ.awaits hturn
  by_cases hp : μ.pointer ≤ h + 1
  · obtain ⟨hnext, hstep⟩ := hc.passes hm hturn hp
    refine ⟨hawaits, fun hp' => ?_, fun hp' => ?_⟩
    · have hload : m.code.instrs[μ.pointer]? = some (.loadConstant j) := by
        rw [hm, show μ.pointer = h by omega]
        exact hc.loads
      rw [Machine.step_loadConstant hload hv] at hstep
      cases hstep
      exact ⟨μ.stack, rfl⟩
    · have hpos : μ.pointer = h + 1 := by omega
      obtain ⟨st, hst⟩ := hμ.loaded hpos
      have hstore : m.code.instrs[μ.pointer]? = some (.storeLocal slot) := by
        rw [hm, hpos]
        exact hc.stores
      simp [identityAt, Machine.step_storeLocal hstore hst hstep, hi]
  · -- The slot is not written any more.
    have hkeeps : Keeps (· ≠ slot) μ.locals μ'.locals := by
      refine Machine.turn_keeps (.inr hhost) (fun x k hx hk hslot => ?_)
        (fun x hx t k q hkind => hc.catches x (hm ▸ hx) t k q hkind) hturn
      have := hc.only μ.pointer x (hm ▸ hx) (hslot ▸ hk)
      omega
    have hid := hkeeps.shared slot i (by simp) (hμ.stored (by omega))
    refine ⟨hawaits, fun hp' => ?_, fun _ => hid⟩
    -- Control does not come back to the beginning of the code.
    obtain ⟨-, hland | ⟨hnext, -⟩⟩ := Machine.turn_lands (hm ▸ hc.lands) hμ.awaits hturn
    · exact absurd hland (by omega)
    · omega

/-- **The slot of an entry holds it in every state of a run** from the place on where it
was stored. -/
theorem reached (hc : code.KeepsEntry slot j h) (hm : m.code = code)
    (hhost : m.host.LeavesShared) (hv : m.record.values[j]? = some v)
    (hi : v.identity? = some i) {w : World} {locals : Array Value} {μ : MachineState}
    (hrun : m.Reaches { world := w, locals } μ) (hp : h + 2 ≤ μ.pointer) :
    identityAt μ.locals slot = some i := by
  have hμ : Held i v slot h μ := by
    clear hp
    induction hrun with
    | refl => exact ⟨by simp [Awaits], fun hp => (by simp at hp), fun hp => (by simp at hp)⟩
    | tail _ hturn ih => exact hc.held_turn hm hhost hv hi hturn ih
  exact hμ.stored hp

end Code.KeepsEntry

/-- **What is loaded for an entry has the identity of the entry.** -/
theorem Code.LoadsEntry.pushes {code : Code} {values : List Value} {p j : Nat} {v : Value}
    {i : Identity} (hload : code.LoadsEntry p j) (hv : values[j]? = some v)
    (hi : v.identity? = some i) : code.Pushes values p (·.identity? = some i) := by
  rintro m w args μ rfl rfl hhost hrun rfl
  rcases hload with hload | ⟨slot, h, hload, hp, hkeeps⟩
  · exact ⟨v, hi, Machine.turn_of_step (Machine.step_loadConstant hload hv)⟩
  · have hid := hkeeps.reached rfl hhost hv hi hrun hp
    obtain ⟨x, hx, hxi⟩ := Option.bind_eq_some_iff.1 hid
    exact ⟨x, hxi, Machine.turn_of_step (Machine.step_loadLocal hload hx)⟩

end TreeCode

import TreeCode.Proofs.Machine.Trail
import TreeCode.Proofs.Value.Literal

/-!
# Values and variables of a machine

Code that pushes a literal, and code that reads or writes a variable where it lives: in
a slot, in a cell that a slot holds, or in a cell of the closure record.

Main definitions:

* `MachineState.at`, `MachineState.put` — the value of a variable, and the state after it
  was assigned.

Main results:

* `pushValue_comes`, `load_comes`, `store_comes` — what the code for them does.
-/

namespace TreeCode

open Draft Lower

namespace MachineState

/-- The value of a variable by where it lives. -/
def at? (μ : MachineState) (record : ClosureRecord) : Home → Option Value
  | .slot k => μ.locals[k]?
  | .boxed k =>
    match μ.locals[k]? with
    | some (.cell ref) => some (μ.world.store.cellAt ref)
    | _ => none
  | .captured i => record.cells[i]?.map μ.world.store.cellAt

/-- The state with another value in a cell. -/
def putCell (μ : MachineState) (ref : Nat) (v : Value) : MachineState :=
  { μ with world := { μ.world with store := μ.world.store.setCell ref v } }

/-- The state with another value in a slot. -/
def putSlot (μ : MachineState) (k : Nat) (v : Value) : MachineState :=
  { μ with locals := μ.locals.setIfInBounds k v }

/-- The state after a variable was assigned. -/
def put (μ : MachineState) (record : ClosureRecord) (v : Value) : Home → MachineState
  | .slot k => μ.putSlot k v
  | .boxed k =>
    match μ.locals[k]? with
    | some (.cell ref) => μ.putCell ref v
    | _ => μ
  | .captured i =>
    match record.cells[i]? with
    | some ref => μ.putCell ref v
    | none => μ

end MachineState

variable {M : Nat → Machine} {F s s' : Draft} {μ : MachineState} {i : Instr} {st : List Value}
  {env : LowerEnv} {u : Unit} {v x : Value} {home : Home} {record : ClosureRecord}

/-! ## Literals -/

/-- The code for a literal pushes it. -/
theorem pushValue_comes (R : ∀ k, (M k).Follows F) (hp : pushValue v env s = .ok (u, s'))
    (hF : s'.Leads F) (hv : v.Faithful) :
    Comes M (μ.movedTo s.instrs.size st) (· = μ.movedTo s'.instrs.size (v :: st)) := by
  unfold pushValue at hp
  split at hp
  case h_5 =>
    simp only [bind_ok, emit_ok] at hp
    obtain ⟨k, s₁, hlit, rfl⟩ := hp
    obtain ⟨htab, w, hw, hshare⟩ := literal_ok hlit
    obtain rfl : w = v := hshare.elim id (hv w)
    rw [← htab.instrs]
    refine .carry R hF rfl fun n p => ?_
    have hentry : (M n).code.literals[k]? = some w := by
      rw [(R n).literals]
      exact hF.literals k w hw
    simp only [Machine.exec, hentry]
    rfl
  all_goals
    obtain rfl := emit_ok.1 hp
    exact .carry R hF rfl fun _ _ => rfl

/-- The top of the stack is dropped, or stays. -/
theorem dropWhen_comes (R : ∀ k, (M k).Follows F) {d : Bool}
    (hd : dropWhen d env s = .ok (u, s')) (hF : s'.Leads F) :
    Comes M (μ.movedTo s.instrs.size (v :: st))
      (· = μ.movedTo s'.instrs.size (if d then st else v :: st)) := by
  simp only [dropWhen, ite_ok, emit_ok, pure_ok] at hd
  rcases hd with ⟨rfl, rfl⟩ | ⟨hd, -, rfl⟩
  · exact .carry R hF rfl fun _ _ => rfl
  · rw [if_neg hd]
    exact .here rfl

/-! ## Variables -/

/-- The code for a variable pushes its value. -/
theorem load_comes (R : ∀ k, (M k).Follows F) (hrecord : ∀ k, (M k).record = record)
    (hl : load home false env s = .ok (u, s')) (hF : s'.Leads F) (hx : μ.at? record home = some x) :
    Comes M (μ.movedTo s.instrs.size st) (· = μ.movedTo s'.instrs.size (x :: st)) := by
  obtain rfl := emit_ok.1 hl
  cases home with
  | slot k =>
    refine .carry R hF rfl fun n p => ?_
    simp only [MachineState.at?] at hx
    simp only [Machine.exec, MachineM.readSlot, bind, EStateM.bind, get, getThe,
      MonadStateOf.get, EStateM.get, MachineState.movedTo_locals, hx]
    rfl
  | boxed k =>
    refine .carry R hF rfl fun n p => ?_
    simp only [MachineState.at?] at hx
    split at hx
    · rename_i ref hk
      cases hx
      simp only [Machine.exec, MachineM.cellIn, MachineM.readSlot, bind, EStateM.bind, get, getThe,
        MonadStateOf.get, EStateM.get, MachineState.movedTo_locals, hk]
      rfl
    · cases hx
  | captured j =>
    refine .carry R hF rfl fun n p => ?_
    obtain ⟨ref, href, rfl⟩ := Option.map_eq_some_iff.1 hx
    simp only [Machine.exec, Machine.captured, hrecord, href]
    rfl

/-- The code that assigns a variable pops the value. -/
theorem store_comes (R : ∀ k, (M k).Follows F) (hrecord : ∀ k, (M k).record = record)
    (hl : store home env s = .ok (u, s')) (hF : s'.Leads F) (hx : μ.at? record home = some x) :
    Comes M (μ.movedTo s.instrs.size (v :: st))
      (· = (μ.put record v home).movedTo s'.instrs.size st) := by
  obtain rfl := emit_ok.1 hl
  refine .instr R hF (by cases home <;> rfl) (fun n => ?_) (.here rfl)
  cases home with
  | slot k =>
    have hk : k < μ.locals.size := (Array.getElem?_eq_some_iff.1 hx).1
    simp only [Machine.exec, bind, EStateM.bind, MachineM.pop, MachineState.movedTo_stack,
      MachineM.writeSlot, MachineState.movedTo_locals, hk, if_true]
    rfl
  | boxed k =>
    simp only [MachineState.at?] at hx
    split at hx
    · rename_i ref hk
      simp only [Machine.exec, bind, EStateM.bind, MachineM.pop, MachineState.movedTo_stack,
        MachineM.cellIn, MachineM.readSlot, get, getThe, MonadStateOf.get, EStateM.get,
        MachineState.movedTo_locals, hk, MachineState.put]
      rfl
    · cases hx
  | captured j =>
    obtain ⟨ref, href, -⟩ := Option.map_eq_some_iff.1 hx
    simp only [Machine.exec, bind, EStateM.bind, MachineM.pop, MachineState.movedTo_stack,
      Machine.captured, hrecord, href, MachineState.put]
    rfl

end TreeCode

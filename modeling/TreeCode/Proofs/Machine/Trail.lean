import TreeCode.Proofs.Lower.Node
import TreeCode.Proofs.Machine.Place

/-!
# Following finished code

A machine that runs finished code is followed through it without regard to what
surrounds the code: a place is the position where a draft ends, and the operand
stack may hold anything below what the code uses. Since a machine calls
functions within a bound, machines come in families with one machine for each
bound; what is said of a family holds from some bound on.

Main definitions:

* `Machine.Follows` — a machine runs the code of a finished draft.
* `MachineState.movedTo` — a state at another position with another stack.
* `Comes`, `Fails` — a family of machines comes to a state, or fails.
-/

namespace TreeCode

open Draft Lower

/-! ## Finished code -/

/-- Names for code in which no label of the program occurs. -/
def Names.blank : Names := ⟨fun _ => default, fun _ => True⟩

/-- The label `r` is placed at `q`. -/
def Draft.Places (F : Draft) (r q : Nat) : Prop :=
  ∃ l, F.labels[r]? = some l ∧ l.position = some q

theorem Draft.Places.unique {F : Draft} {r q q' : Nat} (h : F.Places r q) (h' : F.Places r q') :
    q = q' := by
  obtain ⟨l, hl, hq⟩ := h
  obtain ⟨l', hl', hq'⟩ := h'
  have : l = l' := by simpa [hl] using hl'
  subst this
  simpa [hq] using hq'

/-- Nothing is wrong in a draft that holds nothing. -/
theorem Draft.sound_empty : ({} : Draft).Sound := by
  constructor <;> simp

/-- A label that was waiting and is placed now is where the code ends. -/
theorem Lower.Placed.places {s s' F : Draft} {r : Nat} (h : Placed s s' r) (hF : s'.Leads F) :
    F.Places r s'.instrs.size := by
  obtain ⟨l, hl, hp, -⟩ := h.final hF
  exact ⟨l, hl, by rw [hp, h.size]⟩

namespace Machine

/-- The machine runs the code of a finished draft. -/
structure Follows (m : Machine) (F : Draft) : Prop where
  code : ∃ l hasRecord, m.code = F.toCode l hasRecord
  finished : F.Finished

namespace Follows

variable {m : Machine} {F s s' : Draft} {μ : MachineState} {i : Instr}

theorem instrs (R : m.Follows F) : m.code.instrs = F.instrs := by
  obtain ⟨l, b, h⟩ := R.code
  rw [h]
  rfl

theorem literals (R : m.Follows F) : m.code.literals = F.literals := by
  obtain ⟨l, b, h⟩ := R.code
  rw [h]
  rfl

theorem types (R : m.Follows F) : m.code.types = F.types := by
  obtain ⟨l, b, h⟩ := R.code
  rw [h]
  rfl

theorem methods (R : m.Follows F) : m.code.methods = F.methods := by
  obtain ⟨l, b, h⟩ := R.code
  rw [h]
  rfl

theorem structs (R : m.Follows F) : m.code.structs = F.structs := by
  obtain ⟨l, b, h⟩ := R.code
  rw [h]
  rfl

/-- The instruction that was emitted behind a draft. -/
theorem emitted (R : m.Follows F) (hF : (s.emitted i).Leads F) (hi : i.target? = none) :
    m.code.instrs[s.instrs.size]? = some i := by
  rw [R.instrs]
  exact hF.emitted hi

/-- A jump goes where its label is placed. -/
theorem aimed (R : m.Follows F) {r : Nat} {env : LowerEnv} {u : Unit}
    (hj : jumpTo i r env s = .ok (u, s')) (hs : s.Sound) (hr : r < s.labels.size)
    (hF : s'.Leads F) :
    ∃ q, F.Places r q ∧ m.code.instrs[s.instrs.size]? = some (i.withTarget q) := by
  obtain ⟨l, q, hl, hq, -, hi⟩ := R.finished.aimed ((jumpTo_jumped hj).aims hs hr) hF
  exact ⟨q, ⟨l, hl, hq⟩, by rw [R.instrs, hi]⟩

end Follows

end Machine

/-! ## States -/

namespace MachineState

/-- The state at position `p` with the operand stack `st`. -/
def movedTo (μ : MachineState) (p : Nat) (st : List Value) : MachineState :=
  { μ with pointer := p, stack := st }

variable (μ : MachineState) (p p' : Nat) (st st' : List Value)

@[simp] theorem movedTo_pointer : (μ.movedTo p st).pointer = p := rfl

@[simp] theorem movedTo_stack : (μ.movedTo p st).stack = st := rfl

@[simp] theorem movedTo_world : (μ.movedTo p st).world = μ.world := rfl

@[simp] theorem movedTo_locals : (μ.movedTo p st).locals = μ.locals := rfl

@[simp] theorem movedTo_pending : (μ.movedTo p st).pending = μ.pending := rfl

@[simp] theorem movedTo_movedTo : (μ.movedTo p st).movedTo p' st' = μ.movedTo p' st' := rfl

theorem movedTo_self : μ.movedTo μ.pointer μ.stack = μ := rfl

end MachineState

/-! ## Families of machines -/

variable {M : Nat → Machine} {F s s' : Draft} {μ μ' : MachineState} {P P' : MachineState → Prop}
  {f : Fault} {i : Instr}

/-- From some bound on, the machines come from `μ` to one state, as `P` says. -/
def Comes (M : Nat → Machine) (μ : MachineState) (P : MachineState → Prop) : Prop :=
  ∃ N c μ', (∀ k, N ≤ k → (M k).Goes c μ μ') ∧ P μ'

/-- From some bound on, the machines come from `μ` to an instruction that fails with
`f` and leaves a state as `P` says. -/
def Fails (M : Nat → Machine) (μ : MachineState) (f : Fault) (P : MachineState → Prop) : Prop :=
  Comes M μ fun μ₁ => ∃ N μ₂, (∀ k, N ≤ k → (M k).step μ₁ = .error f μ₂) ∧ P μ₂

namespace Comes

theorem here (h : P μ) : Comes M μ P := ⟨0, 0, μ, fun _ _ => .refl _ μ, h⟩

theorem of_goes {c : Nat} (hg : ∀ k, (M k).Goes c μ μ') (h : Comes M μ' P) : Comes M μ P := by
  obtain ⟨N, j, μ'', hj, hP⟩ := h
  exact ⟨N, j + c, μ'', fun k hk => (hg k).trans (hj k hk), hP⟩

theorem bind (h : Comes M μ P) (h' : ∀ μ', P μ' → Comes M μ' P') : Comes M μ P' := by
  obtain ⟨N, c, μ', hc, hP⟩ := h
  obtain ⟨N', c', μ'', hc', hP'⟩ := h' μ' hP
  exact ⟨max N N', c' + c, μ'', fun k hk => (hc k (by omega)).trans (hc' k (by omega)), hP'⟩

theorem mono (h : Comes M μ P) (h' : ∀ μ', P μ' → P' μ') : Comes M μ P' :=
  h.bind fun μ' hμ => .here (h' μ' hμ)

/-- A run of one machine, whatever the bound. -/
theorem goes {m : Machine} (h : Comes (fun _ => m) μ P) : ∃ c μ', m.Goes c μ μ' ∧ P μ' := by
  obtain ⟨N, c, μ', hc, hP⟩ := h
  exact ⟨c, μ', hc N (Nat.le_refl N), hP⟩

end Comes

namespace Fails

theorem of_comes (h : Comes M μ P) (h' : ∀ μ', P μ' → Fails M μ' f P') : Fails M μ f P' :=
  Comes.bind h h'

theorem mono (h : Fails M μ f P) (h' : ∀ μ', P μ' → P' μ') : Fails M μ f P' :=
  Comes.mono h fun _ ⟨N, μ₂, hstep, hP⟩ => ⟨N, μ₂, hstep, h' μ₂ hP⟩

/-- A run of one machine, whatever the bound. -/
theorem step {m : Machine} (h : Fails (fun _ => m) μ f P) :
    ∃ c μ₁ μ₂, m.Goes c μ μ₁ ∧ m.step μ₁ = .error f μ₂ ∧ P μ₂ := by
  obtain ⟨c, μ₁, hg, N, μ₂, hstep, hP⟩ := Comes.goes h
  exact ⟨c, μ₁, μ₂, hg, hstep N (Nat.le_refl N), hP⟩

end Fails

/-! ## Instructions -/

section Instructions

variable {st st' : List Value}

/-- An instruction is carried out, from some bound on. -/
theorem Comes.instrFrom (R : ∀ k, (M k).Follows F) (hF : (s.emitted i).Leads F)
    (hi : i.target? = none) (N : Nat)
    (hexec : ∀ k, N ≤ k → (M k).exec i (μ.movedTo (s.emitted i).instrs.size st) = .ok none μ')
    (h : Comes M μ' P) : Comes M (μ.movedTo s.instrs.size st) P := by
  have hgo : Comes M (μ.movedTo s.instrs.size st) (· = μ') := by
    refine ⟨N, 1, μ', fun k hk => Machine.goes_of_exec ((R k).emitted hF hi) ?_, rfl⟩
    rw [← hexec k hk]
    simp [Draft.emitted, MachineState.movedTo]
  exact hgo.bind fun _ hμ => hμ ▸ h

/-- An instruction is carried out. -/
theorem Comes.instr (R : ∀ k, (M k).Follows F) (hF : (s.emitted i).Leads F)
    (hi : i.target? = none)
    (hexec : ∀ k, (M k).exec i (μ.movedTo (s.emitted i).instrs.size st) = .ok none μ')
    (h : Comes M μ' P) : Comes M (μ.movedTo s.instrs.size st) P :=
  .instrFrom R hF hi 0 (fun k _ => hexec k) h

/-- An instruction that works on the stack only. -/
theorem Comes.carry (R : ∀ k, (M k).Follows F) (hF : (s.emitted i).Leads F)
    (hi : i.target? = none)
    (hexec : ∀ k p, (M k).exec i (μ.movedTo p st) = .ok none (μ.movedTo p st')) :
    Comes M (μ.movedTo s.instrs.size st) (· = μ.movedTo (s.emitted i).instrs.size st') :=
  .instr R hF hi (fun k => hexec k _) (.here rfl)

/-- An instruction fails, from some bound on. -/
theorem Fails.instrFrom (R : ∀ k, (M k).Follows F) (hF : (s.emitted i).Leads F)
    (hi : i.target? = none) (N : Nat)
    (hexec : ∀ k, N ≤ k → (M k).exec i (μ.movedTo (s.emitted i).instrs.size st) = .error f μ')
    (h : P μ') : Fails M (μ.movedTo s.instrs.size st) f P := by
  refine Comes.here ⟨N, μ', fun k hk => ?_, h⟩
  rw [Machine.step_of_some ((R k).emitted hF hi), ← hexec k hk]
  simp [Draft.emitted, MachineState.movedTo]

/-- An instruction fails. -/
theorem Fails.instr (R : ∀ k, (M k).Follows F) (hF : (s.emitted i).Leads F)
    (hi : i.target? = none)
    (hexec : ∀ k, (M k).exec i (μ.movedTo (s.emitted i).instrs.size st) = .error f μ')
    (h : P μ') : Fails M (μ.movedTo s.instrs.size st) f P :=
  .instrFrom R hF hi 0 (fun k _ => hexec k) h

/-- A jump is carried out; `taken` tells whether it goes to its label. -/
theorem Comes.jump (R : ∀ k, (M k).Follows F) {r : Nat} {env : LowerEnv} {u : Unit} (taken : Bool)
    (hj : jumpTo i r env s = .ok (u, s')) (hs : s.Sound) (hr : r < s.labels.size)
    (hF : s'.Leads F)
    (hexec : ∀ k p q, (M k).exec (i.withTarget q) (μ.movedTo p st) =
      .ok none (μ.movedTo (if taken then q else p) st')) :
    Comes M (μ.movedTo s.instrs.size st) fun μ' =>
      if taken then ∃ q, F.Places r q ∧ μ' = μ.movedTo q st' else μ' = μ.movedTo s'.instrs.size st' := by
  obtain ⟨q, hq, -⟩ := (R 0).aimed hj hs hr hF
  have hgo : ∀ k, (M k).Goes 1 (μ.movedTo s.instrs.size st)
      (μ.movedTo (if taken then q else s.instrs.size + 1) st') := by
    intro k
    obtain ⟨q', hq', hi⟩ := (R k).aimed hj hs hr hF
    obtain rfl := hq.unique hq'
    refine Machine.goes_of_exec hi ?_
    rw [← hexec k]
    rfl
  refine .of_goes hgo (.here ?_)
  cases taken with
  | true => exact ⟨q, hq, rfl⟩
  | false => simp [(jumpTo_jumped hj).size]

end Instructions

end TreeCode

import TreeCode.Call
import TreeCode.Proofs.Lower.Regions
import TreeCode.Proofs.Machine.Turn

/-!
# The bench

Direct evaluation and the machine are compared on a bench: the finished code of
one unit, the machine that runs it, and the bounds that both runs are given.
The bench works in two directions. Forwards the machine has at least the fuel
of the evaluation, so what the evaluation finds the machine reaches. Backwards
the evaluation has more fuel than the machine can use up, so where it is cut
off the machine is cut off too.

Main definitions:

* `World.recast` — a world with other cells: the machine keeps variables in
  slots, so the worlds of the two runs differ in cells and in depths.
* `World.grown` — a world with more cells.
* `Discipline` — what is known of values by their static type.
* `Leeway` — what methods of the host may leave behind and depend on.
* `Bench`, `Bench.Ready` — the unit and the two runs.
* `Bench.Answers` — the host answers both runs alike.
* `Bench.Reaches`, `Bench.Meets` — the machine reaches a state, and does so in
  step with a result of evaluation.
-/

namespace TreeCode

/-- The world with other cells and other depths of evaluation. -/
def World.recast (w : World) (cells : Array Value) (depth : Depths) : World :=
  { w with store := { w.store with cells }, depth }

/-- The world with more cells. -/
def World.grown (w : World) (new : Array Value) : World :=
  { w with store := { w.store with cells := w.store.cells ++ new } }

@[simp] theorem World.grown_empty (w : World) : w.grown #[] = w := by simp [World.grown]

/-- A value that is there stays in its cell. -/
theorem World.cellAt_grown {w : World} {new : Array Value} {ref : Nat}
    (h : w.store.cellAt ref = .unit → new = #[]) :
    (w.grown new).store.cellAt ref = w.store.cellAt ref := by
  by_cases hlt : ref < w.store.cells.size
  · simp [World.grown, Store.cellAt, Array.getElem?_append_left hlt]
  · obtain rfl := h (by simp [Store.cellAt, Array.getElem?_eq_none (Nat.le_of_not_lt hlt)])
    rw [World.grown_empty]

/-- What is known of values by their static type. States only ever grow; they
stand for what is known of the objects and arrays made so far. -/
structure Discipline where
  State : Type
  le : State → State → Prop
  /-- The world is as the state says. -/
  good : State → World → Prop
  /-- The value is one of the type. -/
  has : State → Value → Ty → Prop
  le_refl : ∀ a, le a a
  le_trans : ∀ {a b c}, le a b → le b c → le a c
  has_mono : ∀ {a b v t}, le a b → has a v t → has b v t
  good_recast : ∀ {a w} cells depth, good a w → good a (w.recast cells depth)
  good_stamped : ∀ {a} {w : World} n, good a w →
    good a { w with store := { w.store with stamps := n } }
  /-- A void node may leave any value; nothing uses it. -/
  void_has : ∀ a v, has a v .void
  num_has : ∀ a (n : Num), has a (.num n) (.num n.kind)
  num_of : ∀ {a v k}, has a v (.num k) → ∃ n, v = .num n ∧ n.kind = k
  bool_has : ∀ a b, has a (.bool b) .bool
  bool_of : ∀ {a v}, has a v .bool → ∃ b, v = .bool b
  default_has : ∀ a (t : Ty), has a t.default t
  accepts_has : ∀ {a v} {t u : Ty}, t.accepts u = true → u.isVoid = false → has a v u → has a v t
  isA_has : ∀ {a} {v : Value} {t : Ty}, v.isA t = true → has a v t

/-- What methods of the host may leave behind, and what they may depend on, when they call
functions: cells for the variables of those, and how deep the evaluation of those has got. -/
structure Leeway where
  /-- Cells that methods may make, in their order. -/
  fresh : Array Value → Prop
  /-- The functions, by their counters, whose depth methods may depend on. -/
  counted : Nat → Prop
  fresh_empty : fresh #[]
  fresh_append : ∀ {cells cells'}, fresh cells → fresh cells' → fresh (cells ++ cells')

namespace Leeway

/-- Methods make no variables, and depend on no depth. -/
def none : Leeway where
  fresh cells := cells = #[]
  counted _ := False
  fresh_empty := rfl
  fresh_append := by
    rintro _ _ rfl rfl
    rfl

/-- From the world `w` to the world `w'` cells were made, and all depths are as before. -/
def Keeps (L : Leeway) (w w' : World) : Prop :=
  (∃ new, L.fresh new ∧ w'.store.cells = w.store.cells ++ new) ∧ w'.depth = w.depth

/-- A run that began with these cells and depths sees the world `w` as `w'`: with cells that
the host has made since. -/
def Sees (L : Leeway) (cells : Array Value) (depth : Depths) (w w' : World) : Prop :=
  ∃ new, L.fresh new ∧ w' = w.recast (cells ++ new) depth

theorem Keeps.of_eq {L : Leeway} {w w' : World} (hc : w'.store.cells = w.store.cells)
    (hd : w'.depth = w.depth) : L.Keeps w w' :=
  ⟨⟨#[], L.fresh_empty, by simpa using hc⟩, hd⟩

end Leeway

/-- A unit on the bench. -/
structure Bench (J : Discipline) where
  env : LowerEnv
  /-- The finished draft of the unit. -/
  final : Draft
  machine : Machine
  /-- How direct evaluation calls functions. -/
  call : Caller
  gauge : Gauge
  leeway : Leeway
  /-- Cells and depths in the world that the machine begins in. -/
  cells : Array Value
  depth : Depths
  /-- Whether the machine is the one whose end is known. -/
  back : Bool
  /-- Types of the variables, by id. -/
  types : Nat → Ty
  names : Names
  /-- The host methods that the unit may call. -/
  callable : Method → Prop

namespace Bench

variable {J : Discipline} (X : Bench J)

/-- The machine sees the world `w` as `w'`. -/
def Sees (w w' : World) : Prop := X.leeway.Sees X.cells X.depth w w'

/-- The bound `n` of an action of direct evaluation, seen against the machine's. -/
def Fuelled (n : Nat) : Prop :=
  if X.back then X.machine.fuel ≤ n else n ≤ X.machine.fuel

/-- The bound `n` for evaluating a tree. Backwards it allows more turns at each
node than the machine can make. -/
def Paced (n : Nat) (e : Expr) : Prop :=
  if X.back then (X.machine.fuel + 1) * sizeOf e ≤ n else n ≤ X.machine.fuel

variable {X}

theorem Paced.fuelled {n : Nat} {e : Expr} (h : X.Paced (n + 1) e) : X.Fuelled n := by
  unfold Paced at h
  unfold Fuelled
  split at h
  · rename_i hb
    rw [if_pos hb]
    have hpos : 1 ≤ sizeOf e := by cases e <;> simp <;> omega
    have := Nat.mul_le_mul_left (X.machine.fuel + 1) hpos
    omega
  · rename_i hb
    rw [if_neg hb]
    omega

/-- The parts of a node are paced when the node is. -/
theorem Paced.part {n : Nat} {e e' : Expr} (h : X.Paced (n + 1) e) (hlt : sizeOf e' < sizeOf e) :
    X.Paced n e' := by
  unfold Paced at h ⊢
  split at h
  · rename_i hb
    rw [if_pos hb]
    have := Nat.mul_le_mul_left (X.machine.fuel + 1) (Nat.succ_le_of_lt hlt)
    rw [Nat.succ_eq_add_one, Nat.mul_add, Nat.mul_one] at this
    omega
  · rename_i hb
    rw [if_neg hb]
    omega

/-! ## Calls of the host -/

/-- The result of an action that was cut off. -/
def CutShort {α : Type} (r : EStateM.Result Fault World α) : Prop := ∃ w, r = .error .outOfFuel w

variable (X)

/-- The result `r'` that the machine gets from an action answers the result `r`
that direct evaluation gets from it in the world `w`; a value is as `T` says. -/
structure Answers {α : Type} (a : J.State) (w : World) (T : J.State → α → Prop)
    (r r' : EStateM.Result Fault World α) : Prop where
  ends : ∀ v w₁, r = .ok v w₁ →
    (∃ b, J.le a b ∧ J.good b w₁ ∧ X.leeway.Keeps w w₁ ∧ T b v ∧
      ∃ w₂, X.Sees w₁ w₂ ∧ r' = .ok v w₂) ∨
      X.back = true ∧ CutShort r'
  fails : ∀ f w₁, r = .error f w₁ → f ≠ .outOfFuel →
    (∃ b, J.le a b ∧ J.good b w₁ ∧ X.leeway.Keeps w w₁ ∧
      ∃ w₂, X.Sees w₁ w₂ ∧ r' = .error f w₂) ∨
      X.back = true ∧ CutShort r'
  isCut : ∀ w₁, r = .error .outOfFuel w₁ → X.back = true → CutShort r'

/-- The unit on the bench is finished: the machine runs the finished draft, and
host methods answer it as they answer direct evaluation. -/
structure Ready : Prop where
  code : ∃ l hasRecord, X.machine.code = X.final.toCode l hasRecord
  catalog : X.env.catalog = X.machine.host.catalog
  sound : X.final.Sound
  nested : X.machine.code.Nested
  placed : ∀ (r : Nat) (l : DraftLabel), X.final.labels[r]? = some l → l.position = none →
    l.fixups = []
  /-- A record that the caller supplies is not read: no constant with identity is
  mentioned. -/
  supplied : X.env.supplied = none ∨ ∀ v, X.names.constant v → v.identity? = none
  boxed : X.env.plan.boxed = []
  captures : X.env.plan.captures = []
  constant : ∀ v, X.names.constant v → v.identity? ≠ none →
    ∃ i, X.env.plan.constantPlace? v = some i ∧ X.machine.record.values[i]? = some v
  static : ∀ {n : Nat} {m : Method} {args : List Value} {w w' : World} {a : J.State} {d : Nat},
    X.callable m → X.Fuelled n → J.good a w → w.depth = X.depth.set X.gauge.counter d →
    X.Sees w w' → List.Forall₂ (J.has a) args m.params →
    X.Answers a w (J.has · · m.ret) (X.machine.host.callStatic X.call n m args w)
      (X.machine.host.callStatic X.machine.call X.machine.fuel m args w')

/-! ## Reaching a state -/

/-- The machine reaches a state as described. Backwards it may instead be cut
off on the way, whatever bound it is given. -/
def Reaches (μ : MachineState) (P : MachineState → Prop) : Prop :=
  (∃ k μ', X.machine.Goes k μ μ' ∧ P μ') ∨ (X.back = true ∧ X.machine.Stalls μ)

/-- The machine meets a result of evaluation: it reaches a state as `Q` says for a
value, and as `E` says for another way out; when evaluation is cut off, so is
the machine. -/
structure Meets {α : Type} (μ : MachineState) (r : EStateM.Result Exit EvalState α)
    (Q : α → EvalState → MachineState → Prop) (E : Exit → EvalState → MachineState → Prop) :
    Prop where
  ends : ∀ v σ, r = .ok v σ → X.Reaches μ (Q v σ)
  leaves : ∀ x σ, r = .error x σ → x ≠ .fault .outOfFuel → X.Reaches μ (E x σ)
  isCut : ∀ σ, r = .error (.fault .outOfFuel) σ → X.back = true →
    X.machine.Lingers X.machine.fuel μ

variable {X}

theorem Reaches.here {μ : MachineState} {P : MachineState → Prop} (h : P μ) : X.Reaches μ P :=
  .inl ⟨0, μ, .refl _ μ, h⟩

theorem Reaches.of_goes {μ μ' : MachineState} {P : MachineState → Prop} {k : Nat}
    (hg : X.machine.Goes k μ μ') (h : X.Reaches μ' P) : X.Reaches μ P := by
  rcases h with ⟨j, μ'', hj, hP⟩ | ⟨hb, hs⟩
  · exact .inl ⟨_, μ'', hg.trans hj, hP⟩
  · exact .inr ⟨hb, hs.of_goes hg⟩

theorem Reaches.bind {μ : MachineState} {P P' : MachineState → Prop} (h : X.Reaches μ P)
    (h' : ∀ μ', P μ' → X.Reaches μ' P') : X.Reaches μ P' := by
  rcases h with ⟨k, μ', hg, hP⟩ | hs
  · exact (h' μ' hP).of_goes hg
  · exact .inr hs

theorem Reaches.mono {μ : MachineState} {P P' : MachineState → Prop} (h : X.Reaches μ P)
    (h' : ∀ μ', P μ' → P' μ') : X.Reaches μ P' :=
  h.bind fun μ' hμ => .here (h' μ' hμ)

/-! ## Meeting a result -/

section Meets

variable {α β : Type} {μ μ' : MachineState} {r : EStateM.Result Exit EvalState α}
  {Q Q' : α → EvalState → MachineState → Prop} {E E' : Exit → EvalState → MachineState → Prop}

theorem Meets.of_goes {k : Nat} (hg : X.machine.Goes k μ μ') (h : X.Meets μ' r Q E) :
    X.Meets μ r Q E where
  ends v σ hr := (h.ends v σ hr).of_goes hg
  leaves x σ hr hx := (h.leaves x σ hr hx).of_goes hg
  isCut σ hr hb := ((h.isCut σ hr hb).of_goes hg).mono (Nat.le_add_right _ _)

theorem Meets.of_stalls (hb : X.back = true) (h : X.machine.Stalls μ) : X.Meets μ r Q E :=
  ⟨fun _ _ _ => .inr ⟨hb, h⟩, fun _ _ _ _ => .inr ⟨hb, h⟩, fun _ _ _ => h _⟩

theorem Reaches.meets {P : MachineState → Prop} (h : X.Reaches μ P)
    (h' : ∀ μ', P μ' → X.Meets μ' r Q E) : X.Meets μ r Q E := by
  rcases h with ⟨k, μ', hg, hP⟩ | ⟨hb, hs⟩
  · exact (h' μ' hP).of_goes hg
  · exact .of_stalls hb hs

theorem Meets.ok {v : α} {σ : EvalState} (h : X.Reaches μ (Q v σ)) :
    X.Meets μ (.ok v σ) Q E where
  ends _ _ hr := by
    cases hr
    exact h
  leaves _ _ hr := by cases hr
  isCut _ hr := by cases hr

theorem Meets.exit {x : Exit} {σ : EvalState} (hx : x ≠ .fault .outOfFuel)
    (h : X.Reaches μ (E x σ)) :
    X.Meets μ (.error x σ : EStateM.Result Exit EvalState α) Q E where
  ends _ _ hr := by cases hr
  leaves _ _ hr _ := by
    cases hr
    exact h
  isCut _ hr := by
    cases hr
    exact absurd rfl hx

theorem Meets.cut {σ : EvalState} (h : X.back = true → X.machine.Lingers X.machine.fuel μ) :
    X.Meets μ (.error (.fault .outOfFuel) σ : EStateM.Result Exit EvalState α) Q E where
  ends _ _ hr := by cases hr
  leaves _ _ hr hx := by
    cases hr
    exact absurd rfl hx
  isCut _ _ := h

/-- Evaluation goes on with `g` after a result that the machine has met. -/
theorem Meets.andThen {g : EStateM.Result Exit EvalState α → EStateM.Result Exit EvalState β}
    {Q' : β → EvalState → MachineState → Prop} (h : X.Meets μ r Q E)
    (hok : ∀ v σ μ', Q v σ μ' → X.Meets μ' (g (.ok v σ)) Q' E')
    (hexit : ∀ x σ μ', x ≠ .fault .outOfFuel → E x σ μ' → X.Meets μ' (g (.error x σ)) Q' E')
    (hcut : ∀ σ, ∃ σ', g (.error (.fault .outOfFuel) σ) = .error (.fault .outOfFuel) σ') :
    X.Meets μ (g r) Q' E' := by
  cases r with
  | ok v σ => exact (h.ends v σ rfl).meets (hok v σ)
  | error x σ =>
    by_cases hx : x = .fault .outOfFuel
    · subst hx
      obtain ⟨σ', hσ⟩ := hcut σ
      rw [hσ]
      exact .cut (h.isCut σ rfl)
    · exact (h.leaves x σ rfl hx).meets fun μ' hμ => hexit x σ μ' hx hμ

theorem Meets.mono (h : X.Meets μ r Q E) (hQ : ∀ v σ μ', Q v σ μ' → Q' v σ μ')
    (hE : ∀ x σ μ', E x σ μ' → E' x σ μ') : X.Meets μ r Q' E' :=
  ⟨fun v σ hr => (h.ends v σ hr).mono (hQ v σ), fun x σ hr hx => (h.leaves x σ hr hx).mono (hE x σ),
    h.isCut⟩

/-- The machine goes on after a value. -/
theorem Meets.after (h : X.Meets μ r Q E) (hQ : ∀ v σ μ', Q v σ μ' → X.Reaches μ' (Q' v σ)) :
    X.Meets μ r Q' E :=
  ⟨fun v σ hr => (h.ends v σ hr).bind (hQ v σ), h.leaves, h.isCut⟩

theorem Meets.bind {x : EvalM α} {f : α → EvalM β} {σ : EvalState}
    {Q' : β → EvalState → MachineState → Prop} (h : X.Meets μ (x σ) Q E)
    (hE : ∀ e σ μ', E e σ μ' → E' e σ μ')
    (hf : ∀ v σ μ', Q v σ μ' → X.Meets μ' (f v σ) Q' E') : X.Meets μ ((x >>= f) σ) Q' E' := by
  show X.Meets μ (EStateM.bind x f σ) Q' E'
  unfold EStateM.bind
  cases hr : x σ with
  | ok v σ' => exact (h.ends v σ' hr).meets (hf v σ')
  | error e σ' =>
    refine ⟨fun _ _ hr' => (by cases hr'), fun _ _ hr' hx => ?_, fun _ hr' => ?_⟩
    · cases hr'
      exact (h.leaves e σ' hr hx).mono (hE e σ')
    · cases hr'
      exact h.isCut σ' hr

theorem Meets.pure {v : α} {σ : EvalState} (h : Q v σ μ) :
    X.Meets μ ((Pure.pure v : EvalM α) σ) Q E := .ok (.here h)

/-- Evaluation goes round a loop `F`, counting down. Each round is met at once,
or the machine gets to the next one: by a turn of its own, or with a smaller
`rank`. Backwards the count lasts longer than the turns of the machine. -/
theorem Meets.rounds {ι : Type} (F : Nat → ι → EvalState → EStateM.Result Exit EvalState α)
    (Inv : ι → EvalState → MachineState → Prop) (rank : ι → Nat) (bound : Nat)
    (hrank : ∀ i σ μ, Inv i σ μ → rank i ≤ bound)
    (hzero : ∀ i σ μ, Inv i σ μ → X.Meets μ (F 0 i σ) Q E ∨
      ∃ σ', F 0 i σ = .error (.fault .outOfFuel) σ')
    (hnext : ∀ n i σ μ, Inv i σ μ → X.Meets μ (F (n + 1) i σ) Q E ∨
      ∃ k j σ' μ', X.machine.Goes k μ μ' ∧ Inv j σ' μ' ∧ F (n + 1) i σ = F n j σ' ∧
        (0 < k ∨ rank j < rank i))
    {n : Nat} {i : ι} {σ : EvalState} (hinv : Inv i σ μ)
    (hn : X.back = true → X.machine.fuel * (bound + 1) + rank i ≤ n) :
    X.Meets μ (F n i σ) Q E := by
  -- When the count runs out after `b` rounds, the machine has made `b` turns.
  suffices h : (∀ v σ', F n i σ = .ok v σ' → X.Reaches μ (Q v σ')) ∧
      (∀ x σ', F n i σ = .error x σ' → x ≠ .fault .outOfFuel → X.Reaches μ (E x σ')) ∧
      ∀ σ', F n i σ = .error (.fault .outOfFuel) σ' → X.back = true →
        ∀ b ≤ X.machine.fuel, b * (bound + 1) + rank i ≤ n → X.machine.Lingers b μ from
    ⟨h.1, h.2.1, fun σ' hr hb => h.2.2 σ' hr hb _ (Nat.le_refl _) (hn hb)⟩
  clear hn
  induction n generalizing i σ μ with
  | zero =>
    rcases hzero i σ μ hinv with h | ⟨σ', h⟩
    · exact ⟨h.ends, h.leaves, fun σ' hr hb b hle _ => (h.isCut σ' hr hb).mono hle⟩
    · rw [h]
      refine ⟨fun _ _ hr => (by cases hr), fun _ _ hr hx => absurd ?_ hx, fun _ _ _ b _ hb => ?_⟩
      · cases hr
        rfl
      · obtain rfl : b = 0 := by
          by_contra hne
          have := Nat.mul_le_mul_right (bound + 1) (Nat.one_le_iff_ne_zero.2 hne)
          omega
        exact Machine.lingers_zero _ μ
  | succ n ih =>
    rcases hnext n i σ μ hinv with h | ⟨k, j, σ₁, μ₁, hgo, hinv₁, heq, hless⟩
    · exact ⟨h.ends, h.leaves, fun σ' hr hb b hle _ => (h.isCut σ' hr hb).mono hle⟩
    · obtain ⟨hends, hleaves, hcut⟩ := ih hinv₁
      rw [heq]
      refine ⟨fun v σ' hr => (hends v σ' hr).of_goes hgo,
        fun x σ' hr hx => (hleaves x σ' hr hx).of_goes hgo, fun σ' hr hb b hle hbn => ?_⟩
      have hj := hrank j σ₁ μ₁ hinv₁
      rcases hless with hk | hless
      · cases b with
        | zero => exact Machine.lingers_zero _ μ
        | succ b =>
          rw [Nat.add_mul, Nat.one_mul] at hbn
          exact ((hcut σ' hr hb b (by omega) (by omega)).of_goes hgo).mono (by omega)
      · exact ((hcut σ' hr hb b hle (by omega)).of_goes hgo).mono (Nat.le_add_right b k)

end Meets

end Bench

end TreeCode

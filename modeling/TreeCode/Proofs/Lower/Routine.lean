import TreeCode.Proofs.Lower.Rule
import TreeCode.Proofs.Lower.Step

/-!
# Routine steps of lowering

Most steps of lowering read the draft, append an instruction that neither jumps nor ends
a block, or ask for a slot or an entry of a table. A property that these have and that
composition keeps is one of all that is put together from them: values, constants and
lambdas are pushed, variables come into scope and leave it, and what precedes the body of
a unit is emitted. So what is specific to a rule of lowering are its labels and regions.

Main definitions:

* `Lower.MayGive` — a result that a step may have.
* `Lower.Routine` — a property of the routine steps that composition keeps.
* `Lower.Scoped` — one that changes of what is in scope have, too.
* `Lower.Labelled` — a family of them, with what becomes of labels.

Main results:

* `Lower.Routine.pushConstant`, `Lower.Routine.pushLambda` — what the closure record holds.
* `Lower.Labelled.rule` — **a rule of lowering outside of protected regions**.
* `Lower.Scoped.unit` — a unit has what its body has.
* `Lower.regionWith_ok` — what the emission of a protected region consists of.
-/

namespace TreeCode

namespace Lower

variable {α β : Type} {env : LowerEnv} {s s' : Draft}
  {P : ∀ {α : Type}, LowerM α → Prop}

/-- The step may have the result. -/
def MayGive (x : LowerM α) (a : α) : Prop := ∃ env s s', x env s = .ok (a, s')

/-- A property that the routine steps of lowering have and that composition keeps, where
what follows a step has it for the results of the step. -/
structure Routine (P : ∀ {α : Type}, LowerM α → Prop) : Prop where
  pure {α : Type} {a : α} : P (pure a)
  bind {α β : Type} {x : LowerM α} {f : α → LowerM β} :
    P x → (∀ a, MayGive x a → P (f a)) → P (x >>= f)
  get : P (get : LowerM Draft)
  read : P (read : LowerM LowerEnv)
  unsupported {α : Type} {u : Unsupported} : P (unsupported u : LowerM α)
  error {α : Type} {e : CompileError} : P (error e : LowerM α)
  emit {i : Instr} : i.isStraight = true → i.literal? = none → P (emit i)
  newSlot : P newSlot
  literal {v : Value} {i : Nat → Instr} :
    (∀ k, (i k).literal? = some k) → P (literal v >>= fun k => Lower.emit (i k))
  typeEntry {t : Ty} : P (typeEntry t)
  methodEntry {m : Method} : P (methodEntry m)
  structEntry {d : StructDef} : P (structEntry d)

/-! ## The code that pushes cells -/

theorem cellLoads_straight {vs : List Var} {is : List Instr}
    (h : cellLoads vs env s = .ok (is, s')) :
    ∀ i ∈ is, i.isStraight = true ∧ i.literal? = none := by
  induction vs generalizing s s' is with
  | nil =>
    obtain ⟨rfl, -⟩ := pure_ok.1 h
    simp
  | cons v vs ih =>
    obtain ⟨home, s₁, -, h⟩ := bind_ok.1 h
    have hrest : ∀ {i : Instr}, i.isStraight = true ∧ i.literal? = none →
        (do let is ← cellLoads vs; pure (i :: is)) env s₁ = .ok (is, s') →
          ∀ j ∈ is, j.isStraight = true ∧ j.literal? = none := by
      intro i hi h
      obtain ⟨is, s₂, his, h⟩ := bind_ok.1 h
      obtain ⟨rfl, -⟩ := pure_ok.1 h
      simpa [hi] using ih his
    cases home with
    | slot _ => exact absurd (bind_ok.1 h) (by simp [error_ok])
    | boxed _ => exact hrest ⟨rfl, rfl⟩ h
    | captured _ => exact hrest ⟨rfl, rfl⟩ h

/-! ## Values, constants and lambdas -/

namespace Routine

variable (hP : Routine P)

include hP

/-- A step before others, whatever its result. -/
theorem andThen {x : LowerM α} {f : α → LowerM β} (hx : P x) (hf : ∀ a, P (f a)) :
    P (x >>= f) :=
  hP.bind hx fun a _ => hf a

omit hP in
theorem ite {c : Prop} [Decidable c] {x y : LowerM α} (hx : P x) (hy : P y) :
    P (if c then x else y) := by
  split
  · exact hx
  · exact hy

/-- A step that is taken on a condition, before those that follow. -/
theorem guard {c : Prop} [Decidable c] {x : LowerM Unit} {f : Unit → LowerM α} (hx : P x)
    (hf : ∀ a, P (f a)) : P (if c then x >>= f else f ()) :=
  ite (hP.andThen hx hf) (hf ())

theorem position : P position := hP.andThen hP.get fun _ => hP.pure

theorem labelAt {r : Nat} : P (labelAt r) := hP.andThen hP.get fun _ => hP.pure

theorem emitAll {is : List Instr} (h : ∀ i ∈ is, i.isStraight = true ∧ i.literal? = none) :
    P (is.forM Lower.emit) := by
  induction is with
  | nil => exact hP.pure
  | cons i is ih =>
    exact hP.andThen (hP.emit (h i (by simp)).1 (h i (by simp)).2) fun _ => ih fun i hi => h i (by simp [hi])

theorem pushEntry {k : Nat} : P (pushEntry k) := by
  refine hP.andThen hP.get fun s => ?_
  split
  · exact hP.emit rfl rfl
  · exact hP.emit rfl rfl

theorem pushValue {v : Value} : P (pushValue v) := by
  unfold Lower.pushValue
  split
  case h_5 => exact hP.literal fun _ => rfl
  all_goals exact hP.emit rfl rfl

theorem pushConstant {v : Value} {f : Usage} : P (pushConstant v f) := by
  unfold Lower.pushConstant
  refine ite hP.pure (ite hP.pushValue (hP.andThen hP.read fun env => ?_))
  split
  · split
    · exact hP.emit rfl rfl
    · exact hP.unsupported
  · split
    · exact hP.pushEntry
    · exact hP.literal fun _ => rfl

theorem homeOf {v : Var} : P (homeOf v) := by
  refine hP.andThen hP.read fun env => hP.andThen hP.get fun s => ?_
  split
  · exact hP.pure
  · split
    · exact hP.pure
    · exact hP.error

theorem cellLoads {vs : List Var} : P (cellLoads vs) := by
  induction vs with
  | nil => exact hP.pure
  | cons v vs ih =>
    refine hP.andThen hP.homeOf fun home => ?_
    have hrest : ∀ i, P (do return i :: (← Lower.cellLoads vs)) := fun _ =>
      hP.andThen ih fun _ => hP.pure
    cases home with
    | slot _ => exact hP.andThen hP.error hrest
    | boxed _ => exact hP.andThen hP.pure hrest
    | captured _ => exact hP.andThen hP.pure hrest

theorem pushLambda {l : Lambda} {f : Usage} : P (pushLambda l f) := by
  unfold Lower.pushLambda
  refine hP.andThen hP.read fun env => hP.guard hP.unsupported fun _ => ite hP.pure ?_
  dsimp only
  split
  · exact hP.error
  · refine hP.andThen hP.pushEntry fun _ => ?_
    split
    · exact hP.error
    · exact hP.pure
    · -- Only the code that was made for the cells is known to fall through.
      exact hP.bind hP.cellLoads fun _ ⟨_, _, _, h⟩ =>
        hP.andThen (hP.emitAll (cellLoads_straight h)) fun _ => hP.emit rfl rfl

theorem initialise {v : Var} {slot : Nat} : P (initialise v slot) := by
  refine hP.andThen hP.read fun env => ?_
  cases env.plan.isBoxed v.id <;> exact hP.emit rfl rfl

theorem keepResult {r : Option Nat} : P (keepResult r) := by
  cases r with
  | none => exact hP.pure
  | some _ => exact hP.emit rfl rfl

theorem boxParams {slot : Nat} {vs : List Var} : P (boxParams slot vs) := by
  induction vs generalizing slot with
  | nil => exact hP.pure
  | cons v vs ih =>
    exact hP.andThen hP.read fun _ => ite (hP.andThen (hP.emit rfl rfl) fun _ =>
      hP.andThen (hP.emit rfl rfl) fun _ => ih) ih

theorem checkPlaced {ls : List DraftLabel} : P (checkPlaced ls) := by
  induction ls with
  | nil => exact hP.pure
  | cons l ls ih => exact hP.guard hP.error fun _ => ih

end Routine

/-! ## Scopes -/

/-- A property that changes of what is in scope have, too. -/
structure Scoped (P : ∀ {α : Type}, LowerM α → Prop) : Prop extends Routine P where
  slots {g : Draft → Slots} : P (modify fun s => { s with slots := g s })
  hoisted {g : Draft → List (Nat × Nat)} : P (modify fun s => { s with hoisted := g s })
  caught {g : Draft → List Nat} : P (modify fun s => { s with caught := g s })
  assumePushed : P assumePushed

namespace Scoped

variable (hP : Scoped P)

include hP

theorem bringIn {v : Var} : P (bringIn v) :=
  hP.andThen hP.newSlot fun _ => hP.andThen hP.get fun _ => hP.andThen hP.slots fun _ => hP.pure

theorem takeOut {v : Var} {hidden : Option Nat} : P (takeOut v hidden) := hP.slots

theorem bringInAll {vars : List Var} : P (bringInAll vars) := by
  induction vars with
  | nil => exact hP.pure
  | cons v vs ih =>
    exact hP.andThen hP.bringIn fun _ => hP.andThen hP.pushValue fun _ =>
      hP.andThen hP.initialise fun _ => hP.andThen ih fun _ => hP.pure

theorem takeOutAll {vars : List Var} {hidden : List (Option Nat)} :
    P (takeOutAll vars hidden) := by
  induction vars generalizing hidden with
  | nil => exact hP.pure
  | cons v vs ih =>
    cases hidden with
    | nil => exact hP.pure
    | cons h hs => exact hP.andThen hP.takeOut fun _ => ih

theorem bringInParams {vs : List Var} : P (bringInParams vs) := by
  induction vs with
  | nil => exact hP.pure
  | cons v vs ih => exact hP.andThen hP.newSlot fun _ => hP.andThen hP.slots fun _ => ih

theorem hoistAll {index : Nat} {uses : List Nat} : P (hoistAll index uses) := by
  induction uses generalizing index with
  | nil => exact hP.pure
  | cons n uses ih =>
    exact hP.andThen (Routine.ite (hP.andThen hP.newSlot fun _ => hP.andThen (hP.emit rfl rfl) fun _ =>
      hP.andThen (hP.emit rfl rfl) fun _ => hP.hoisted) hP.pure) fun _ => ih

/-- A unit has what its body has. -/
theorem unit {l : Lambda} (hbody : ∀ f, P (l.body.part.emit f)) : P (unit l) := by
  have hrest : ∀ _ : Unit, P (do
      Lower.emit .ret
      Lower.checkPlaced (← MonadState.get).labels.toList) := fun _ =>
    hP.andThen (hP.emit rfl rfl) fun _ => hP.andThen hP.get fun _ => hP.checkPlaced
  have hprologue : P (prologue l.params) :=
    hP.andThen hP.read fun _ => hP.andThen hP.boxParams fun _ => Routine.ite hP.hoistAll hP.pure
  refine hP.andThen hP.bringInParams fun _ => hP.andThen hprologue fun _ => Routine.ite ?_ ?_
  · exact hP.andThen (hbody _) fun _ => hP.andThen (hP.emit rfl rfl) hrest
  · exact hP.andThen (hbody _) hrest

end Scoped

/-! ## Protected regions -/

/-- What the emission of a protected region consists of: the region with the way out of it,
the handlers, the cleanup block, and the label that follows them all. -/
theorem regionWith_ok {p : Part} {hs : List CatchPart} {o : Option CleanupPart} {f : Usage}
    {result : Option Nat} {u : Unit} (h : regionWith p hs o f result env s = .ok (u, s')) :
    ∃ done s₁ s₂ s₃ s₄ cs s₅ ks s₆ s₇, freshLabel env s = .ok (done, s₁) ∧
      p.emit { guarded := true, discarded := result.isNone } env (s₁.emitted .nop) = .ok ((), s₂) ∧
      keepResult result env s₂ = .ok ((), s₃) ∧ jumpTo (.leave 0) done env s₃ = .ok ((), s₄) ∧
      catches (s₁.emitted .nop).instrs.size s₄.instrs.size s.depth result done
        { guarded := true, discarded := result.isNone } hs env s₄ = .ok (cs, s₅) ∧
      cleanupBlock (s₁.emitted .nop).instrs.size s₅.instrs.size s.depth f o env s₅ = .ok (ks, s₆) ∧
      placeLabel done env { s₆ with handlers := s₆.handlers ++ (cs ++ ks) } = .ok ((), s₇) ∧
      (if !f.discarded && !p.ty.isVoid then
        match result with
        | some slot => emit (.loadLocal slot)
        | none => pure ()
      else pure ()) env s₇ = .ok (u, s') := by
  simp only [regionWith, get_bind, bind_ok, position_ok, modify_ok, emit_ok] at h
  obtain ⟨done, s₁, h₁, _, _, rfl, _, _, ⟨rfl, rfl⟩, _, s₂, h₂, _, s₃, h₃, _, s₄, h₄,
    _, _, ⟨rfl, rfl⟩, cs, s₅, h₅, _, _, ⟨rfl, rfl⟩, ks, s₆, h₆, _, _, rfl, _, s₇, h₇, h⟩ := h
  exact ⟨done, s₁, s₂, s₃, s₄, cs, s₅, ks, s₆, s₇, h₁, h₂, h₃, h₄, h₅, h₆, h₇, h⟩

/-! ## Labels -/

/-- A family of properties of which each is scoped. In `Q J I x`, the labels `J` exist, and
the labels `I` may be placed. -/
structure Labelled (Q : (J I : List Nat) → ∀ {α : Type}, LowerM α → Prop) : Prop where
  routine {J I : List Nat} : Scoped (@Q J I)
  mono {J J' I I' : List Nat} {α : Type} {x : LowerM α} :
    Q J I x → J ⊆ J' → I ⊆ I' → Q J' I' x
  jump {J I : List Nat} {i : Instr} {r : Nat} :
    i.target?.isSome = true → r ∈ J → Q J I (jumpTo i r)
  place {J I : List Nat} {r : Nat} : r ∈ J → r ∈ I → Q J I (placeLabel r)
  fresh {J I : List Nat} {α : Type} {f : Nat → LowerM α} :
    (∀ r, Q (r :: J) (r :: I) (f r)) → Q J I (freshLabel >>= f)
  program {J I : List Nat} {α : Type} {l : Label} {f : Nat → LowerM α} :
    (∀ r, Q (r :: J) (r :: I) (f r)) → Q J I (programLabel l >>= f)

/-- **Such a family is a rule of lowering outside of protected regions.** -/
theorem Labelled.rule {Q : (J I : List Nat) → ∀ {α : Type}, LowerM α → Prop}
    (h : Labelled Q) : StepRule (fun _ => True) fun _ J I _ _ x => Q J I x where
  mono hx hJ hI _ := h.mono hx hJ hI
  pure _ := h.routine.pure
  bind := h.routine.andThen
  read := h.routine.read
  unsupported _ := h.routine.unsupported
  error _ := h.routine.error
  emit hi hl _ := h.routine.emit hi hl
  assumePushed := h.routine.assumePushed
  newSlot := h.routine.andThen h.routine.newSlot
  literal := h.routine.literal
  typeEntry := h.routine.andThen h.routine.typeEntry
  methodEntry := h.routine.andThen h.routine.methodEntry
  structEntry := h.routine.andThen h.routine.structEntry
  jump := h.jump
  place := h.place
  fresh := h.fresh
  program _ := h.program
  mention _ hf := h.program fun r => h.mono (hf r) (List.Subset.refl _) (List.subset_cons_self r _)
  carried hf := h.routine.andThen h.routine.labelAt fun l => hf l.valueSlot
  handling hf := h.routine.andThen h.routine.get fun s => by
    cases s.caught with
    | nil => exact h.routine.unsupported
    | cons k ks => exact hf k
  home _ := h.routine.andThen h.routine.homeOf
  constant _ := h.routine.pushConstant
  lambda _ := h.routine.pushLambda
  block _ hx := h.routine.andThen h.routine.bringInAll fun _ => h.routine.andThen hx fun _ =>
    h.routine.takeOutAll
  caught _ hx := h.routine.andThen h.routine.caught fun _ => h.routine.andThen hx fun _ =>
    h.routine.caught
  handler hx := h.routine.andThen h.routine.bringIn fun a => h.routine.andThen (hx a.1) fun _ =>
    h.routine.takeOut

end Lower

end TreeCode

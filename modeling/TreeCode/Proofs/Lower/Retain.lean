import TreeCode.Proofs.Lower.Jump
import TreeCode.Proofs.Lower.Loose

/-!
# What lowering leaves in place

Code that does not jump stays where it was emitted, entries of the record stay in the slots
that the prologue chose for them, and the label that the program names with an id has a
slot for a value just if jumps to it carry one. Every step of lowering keeps this, whatever
is in scope and whether or not labels are placed. So it is known of a stretch of lowering
without a look at what is lowered.

Main definitions:

* `Draft.Receives` — the labels of the program have slots for the values that they receive.
* `Draft.Retains` — what lowering leaves in place.
* `Lower.Retaining` — a step that leaves it in place.

Main results:

* `retaining_rule` — **every step of lowering leaves it in place**.
-/

namespace TreeCode

/-- The label that the program names with an id has a slot for a value, unless jumps to it
carry none. -/
def Draft.Receives (void : Nat → Bool) (s : Draft) : Prop :=
  ∀ (id r : Nat), s.programLabels.lookup id = some r →
    ∃ l, s.labels[r]? = some l ∧ l.valueSlot.isNone = void id

/-- Straight code and the slots of entries stay, and labels receive what they should. -/
structure Draft.Retains (void : Nat → Bool) (s t : Draft) : Prop where
  size_le : s.instrs.size ≤ t.instrs.size
  instrs : ∀ (p : Nat) (i : Instr), s.instrs[p]? = some i → i.target? = none →
    t.instrs[p]? = some i
  hoisted : t.hoisted = s.hoisted
  receives : s.Receives void → t.Receives void

/-- A label is one that its id stands for, as far as values that it receives go. -/
def Mention.Marked (void : Nat → Bool) : Mention → Prop
  | .label l | .place l => void l.id = l.ty.isVoid
  | _ => True

open Lower Draft

variable {void : Nat → Bool} {s t u : Draft} {i : Instr}

namespace Draft.Retains

theorem refl (s : Draft) : s.Retains void s :=
  ⟨Nat.le_refl _, fun _ _ h _ => h, rfl, fun h => h⟩

theorem trans (h : s.Retains void t) (h' : t.Retains void u) : s.Retains void u where
  size_le := Nat.le_trans h.size_le h'.size_le
  instrs p i hi ht := h'.instrs p i (h.instrs p i hi ht) ht
  hoisted := h'.hoisted.trans h.hoisted
  receives hs := h'.receives (h.receives hs)

/-- Code and labels are left alone. -/
theorem of_eq (hi : t.instrs = s.instrs) (hh : t.hoisted = s.hoisted) (hl : t.labels = s.labels)
    (hp : t.programLabels = s.programLabels) : s.Retains void t where
  size_le := hi ▸ Nat.le_refl _
  instrs _ _ h _ := hi ▸ h
  hoisted := hh
  receives hs id r hr := by
    rw [hl]
    exact hs id r (hp ▸ hr)

theorem emitted (s : Draft) (i : Instr) : s.Retains void (s.emitted i) where
  size_le := by
    show s.instrs.size ≤ (s.instrs.push i).size
    simp
  instrs p j hj _ := by
    show (s.instrs.push i)[p]? = some j
    rw [Array.getElem?_push_lt (Array.getElem?_eq_some_iff.1 hj).1,
      (Array.getElem?_eq_some_iff.1 hj).2]
  hoisted := rfl
  receives hs := hs

theorem of_redrawn (h : s.Redrawn t) : s.Retains void t where
  size_le := h.size_le
  instrs := h.instrs
  hoisted := h.hoisted
  receives hs id r hr := by
    obtain ⟨l, hl, hv⟩ := hs id r (h.programLabels ▸ hr)
    obtain ⟨l', hl', heq⟩ := h.labels r l hl
    exact ⟨l', hl', by rw [heq, hv]⟩

end Draft.Retains

namespace Lower

/-- A step that leaves in place what is there. -/
def Retaining (void : Nat → Bool) {α : Type} (x : LowerM α) : Prop :=
  ∀ ⦃env s a s'⦄, x env s = .ok (a, s') → s.Retains void s'

namespace Retaining

variable {α β : Type}

theorem bind {x : LowerM α} {f : α → LowerM β} (hx : Retaining void x)
    (hf : ∀ a, Retaining void (f a)) : Retaining void (x >>= f) := by
  intro env s b s' h
  obtain ⟨a, s₁, h₁, h₂⟩ := bind_ok.1 h
  exact (hx h₁).trans (hf a h₂)

theorem emit : Retaining void (emit i) := fun _ s _ _ h => emit_ok.1 h ▸ .emitted s i

/-- A step that at most adds to tables other than that of labels. -/
theorem tabled {x : LowerM α} (h : ∀ ⦃env s a s'⦄, x env s = .ok (a, s') → Tabled s s') :
    Retaining void x := fun _ _ _ _ hx =>
  have ht := h hx
  ⟨ht.quiet.size_le, fun p i hi _ => ht.quiet.instrs p i hi, ht.same.hoisted, fun hs id r hr => by
    obtain ⟨l, hl, hv⟩ := hs id r (ht.quiet.programLabels ▸ hr)
    obtain ⟨d, fs, hl', -⟩ := ht.quiet.label r l hl
    exact ⟨_, hl', hv⟩⟩

theorem literal {v : Value} : Retaining void (literal v) := tabled fun _ _ _ _ h => (literal_ok h).1

theorem loose : Loose fun x => Retaining void x where
  pure {_ _} := fun _ s _ _ h => (pure_ok.1 h).2 ▸ .refl s
  bind hx hf := fun _ _ _ _ h => by
    obtain ⟨a, s₁, h₁, h₂⟩ := bind_ok.1 h
    exact (hx h₁).trans (hf a ⟨_, _, _, h₁⟩ h₂)
  get := fun _ s _ _ h => (get_ok.1 h).2 ▸ .refl s
  read := fun _ s _ _ h => (read_ok.1 h).2 ▸ .refl s
  unsupported {_ _} := fun _ _ _ _ h => absurd h (by simp [unsupported_ok])
  error {_ _} := fun _ _ _ _ h => absurd h (by simp [error_ok])
  emit _ _ := emit
  newSlot := fun _ _ _ _ h => (newSlot_ok.1 h).2.2 ▸ .of_eq rfl rfl rfl rfl
  literal _ := literal.bind fun _ => emit
  typeEntry {_} := tabled fun _ _ _ _ h => (typeEntry_ok h).1
  methodEntry {_} := tabled fun _ _ _ _ h => (methodEntry_ok h).1
  structEntry {_} := tabled fun _ _ _ _ h => (structEntry_ok h).1
  redraw hg := fun _ s _ _ h => modify_ok.1 h ▸ .of_redrawn (hg s)

/-- What is in scope is changed. -/
theorem scope {g : Draft → Slots} {k : Draft → List Nat} : Retaining void (modify fun s =>
    { s with slots := g s, caught := k s } : LowerM Unit) :=
  fun _ _ _ _ h => modify_ok.1 h ▸ .of_eq rfl rfl rfl rfl

theorem bringIn {v : Var} : Retaining void (bringIn v) :=
  loose.newSlot.bind fun _ => loose.get.bind fun _ => Retaining.scope.bind fun _ => loose.pure

theorem takeOut {v : Var} {hidden : Option Nat} : Retaining void (takeOut v hidden) := scope

theorem bringInAll {vars : List Var} : Retaining void (bringInAll vars) := by
  induction vars with
  | nil => exact loose.pure
  | cons v vs ih =>
    exact bringIn.bind fun _ => loose.pushValue.bind fun _ => loose.initialise.bind fun _ =>
      ih.bind fun _ => loose.pure

theorem takeOutAll {vars : List Var} {hidden : List (Option Nat)} :
    Retaining void (takeOutAll vars hidden) := by
  induction vars generalizing hidden with
  | nil => exact loose.pure
  | cons v vs ih =>
    cases hidden with
    | nil => exact loose.pure
    | cons h hs => exact takeOut.bind fun _ => ih

/-- A label that a program names for the first time gets a slot if it receives a value. -/
theorem programLabel {l : Label} (hl : void l.id = l.ty.isVoid) :
    Retaining void (programLabel l) := by
  intro env s r s' h
  rcases programLabel_cases h with ⟨-, rfl⟩ | ⟨hnone, rfl, k, n, hk, rfl⟩
  · exact .refl s
  · refine ⟨Nat.le_refl _, fun _ _ h _ => h, rfl, fun hs id r hr => ?_⟩
    simp only [List.lookup_cons] at hr
    split at hr
    · next hid =>
      obtain rfl := Option.some.inj hr
      obtain rfl : id = l.id := by simpa using hid
      refine ⟨_, Array.getElem?_push_size, ?_⟩
      rcases hk with ⟨hv, rfl, -⟩ | ⟨hv, rfl, -⟩
      · exact (hl.trans hv).symm
      · exact (hl.trans hv).symm
    · obtain ⟨l', hl', hv⟩ := hs id r hr
      refine ⟨l', ?_, hv⟩
      rw [Array.getElem?_push_lt (Array.getElem?_eq_some_iff.1 hl').1,
        (Array.getElem?_eq_some_iff.1 hl').2]

end Retaining

/-- **Every step of lowering leaves in place what is there**, if labels are told apart by
their ids. -/
theorem retaining_rule (void : Nat → Bool) :
    Rule (Mention.Marked void) fun _ _ _ _ _ x => Retaining void x :=
  Retaining.loose.rule (fun hl => Retaining.programLabel (hl.elim id id))
    (fun _ hx => Retaining.bringInAll.bind fun _ => hx.bind fun _ => Retaining.takeOutAll)
    (fun hx => Retaining.scope.bind fun _ => hx.bind fun _ => Retaining.scope)
    fun hx => Retaining.bringIn.bind fun a => (hx a.1).bind fun _ => Retaining.takeOut

end Lower

end TreeCode

import TreeCode.Proofs.Lower.Routine

/-!
# Steps that jump, place and protect

Labels, jumps and protected regions change the code, the labels, the heights of the
operand stack and the table of handlers, and nothing else of a draft. A property that says
nothing of these is kept by such steps, so it is a rule of lowering as soon as it is one
for what comes into scope.

Main definitions:

* `Draft.Redrawn` — two drafts differ in code, labels, heights and regions only.
* `Lower.Loose` — a property that says nothing of these.

Main results:

* `Lower.Loose.jumpTo`, `Lower.Loose.placeLabel`, `Lower.Loose.regionWith` — jumps, places
  of labels, and protected regions.
* `Lower.Loose.rule` — **a loose property is a rule of lowering**, given what becomes of
  names and scopes.
-/

namespace TreeCode

/-- The places of the literals that code reads, in order. -/
def Instr.reads (code : Array Instr) : List Nat := code.toList.filterMap (·.literal?)

namespace Instr

theorem reads_push (code : Array Instr) (i : Instr) :
    reads (code.push i) = reads code ++ i.literal?.toList := by
  rw [reads, reads, Array.toList_push, List.filterMap_append]
  cases h : i.literal? <;> simp [h]

@[simp] theorem literal?_withTarget (i : Instr) (q : Nat) : (i.withTarget q).literal? = i.literal? := by
  cases i <;> rfl

/-- Code does not read other literals when a jump gets its target. -/
theorem reads_modify (code : Array Instr) (p q : Nat) :
    reads (code.modify p (·.withTarget q)) = reads code := by
  rw [reads, reads, Array.toList_modify]
  generalize code.toList = is
  induction is generalizing p with
  | nil => cases p <;> rfl
  | cons i is ih => cases p <;> simp [List.filterMap_cons, ih]

theorem literal?_of_target {i : Instr} (h : i.target?.isSome = true) : i.literal? = none := by
  cases i <;> first | rfl | cases h

end Instr

/-- The drafts differ in labels, heights, regions, and code that reads no literals only.
Straight code stays where it is, and labels keep the slots of the values that they receive. -/
structure Draft.Redrawn (s t : Draft) : Prop where
  reads : Instr.reads t.instrs = Instr.reads s.instrs
  size_le : s.instrs.size ≤ t.instrs.size
  instrs : ∀ (p : Nat) (i : Instr), s.instrs[p]? = some i → i.target? = none →
    t.instrs[p]? = some i
  labels : ∀ (r : Nat) (l : DraftLabel), s.labels[r]? = some l →
    ∃ l', t.labels[r]? = some l' ∧ l'.valueSlot = l.valueSlot
  programLabels : t.programLabels = s.programLabels
  literals : t.literals = s.literals
  types : t.types = s.types
  methods : t.methods = s.methods
  structs : t.structs = s.structs
  slots : t.slots = s.slots
  numLocals : t.numLocals = s.numLocals
  hoisted : t.hoisted = s.hoisted
  caught : t.caught = s.caught

namespace Draft.Redrawn

variable (s : Draft)

/-- Heights, regions and cleanup blocks are changed. -/
theorem aside (hs : List Handler) (d m : Nat) (b : Bool) (cs : List Nat) (n : Nat) :
    s.Redrawn { s with
      handlers := hs, depth := d, maxDepth := m, reachable := b, cleanups := cs,
      nextCleanup := n } :=
  ⟨rfl, Nat.le_refl _, fun _ _ h _ => h, fun _ l h => ⟨l, h, rfl⟩, rfl, rfl, rfl, rfl, rfl, rfl,
    rfl, rfl, rfl⟩

theorem emitted {i : Instr} (hi : i.literal? = none) : s.Redrawn (s.emitted i) := by
  have hpush : (s.emitted i).instrs = s.instrs.push i := rfl
  refine ⟨?_, ?_, fun p j hj _ => ?_, fun _ l h => ⟨l, h, rfl⟩, rfl, rfl, rfl, rfl, rfl, rfl, rfl,
    rfl, rfl⟩
  · rw [hpush, Instr.reads_push, hi]
    exact List.append_nil _
  · rw [hpush, Array.size_push]
    exact Nat.le_succ _
  · rw [hpush, Array.getElem?_push_lt (Array.getElem?_eq_some_iff.1 hj).1,
      (Array.getElem?_eq_some_iff.1 hj).2]

/-- A jump gets its target. -/
theorem patched (p q : Nat) :
    s.Redrawn { s with instrs := s.instrs.modify p (·.withTarget q) } := by
  refine ⟨Instr.reads_modify _ _ _, by simp, fun k i hi ht => ?_, fun _ l h => ⟨l, h, rfl⟩, rfl, rfl,
    rfl, rfl, rfl, rfl, rfl, rfl, rfl⟩
  have hsame : i.withTarget q = i := by cases i <;> first | rfl | cases ht
  simp only [Array.getElem?_modify, hi]
  split <;> simp [hsame]

theorem label (r : Nat) {g : DraftLabel → DraftLabel} (hg : ∀ l, (g l).valueSlot = l.valueSlot) :
    s.Redrawn { s with labels := s.labels.modify r g } := by
  refine ⟨rfl, Nat.le_refl _, fun _ _ h _ => h, fun k l hl => ?_, rfl, rfl, rfl, rfl, rfl, rfl, rfl,
    rfl, rfl⟩
  simp only [Array.getElem?_modify, hl]
  split
  · exact ⟨g l, rfl, hg l⟩
  · exact ⟨l, rfl, rfl⟩

theorem newLabel (l : DraftLabel) : s.Redrawn { s with labels := s.labels.push l } := by
  refine ⟨rfl, Nat.le_refl _, fun _ _ h _ => h, fun k l' hl => ⟨l', ?_, rfl⟩, rfl, rfl, rfl, rfl, rfl,
    rfl, rfl, rfl, rfl⟩
  show (s.labels.push l)[k]? = some l'
  rw [Array.getElem?_push_lt (Array.getElem?_eq_some_iff.1 hl).1,
    (Array.getElem?_eq_some_iff.1 hl).2]

end Draft.Redrawn

namespace Lower

open Draft

variable {α : Type} {P : ∀ {α : Type}, LowerM α → Prop}

/-- A property of the routine steps that says nothing of code, labels, heights and
regions. -/
structure Loose (P : ∀ {α : Type}, LowerM α → Prop) : Prop extends Routine P where
  redraw {g : Draft → Draft} : (∀ s, Redrawn s (g s)) → P (modify g : LowerM Unit)

namespace Loose

variable (hP : Loose P)

include hP

/-! ## Labels -/

/-- Instructions that read no literal, jumps and ends of blocks among them. -/
theorem emitAny {i : Instr} (hi : i.literal? = none) : P (Lower.emit i) :=
  hP.redraw fun s => .emitted s hi

theorem assumePushed : P assumePushed := hP.redraw fun s => .aside s _ _ _ _ _ _

theorem modifyLabel {r : LabelRef} {g : DraftLabel → DraftLabel}
    (hg : ∀ l, (g l).valueSlot = l.valueSlot) : P (modifyLabel r g) :=
  hP.redraw fun s => .label s r hg

theorem cleanupHere : P cleanupHere := hP.andThen hP.get fun _ => hP.pure

theorem addLabel {l : DraftLabel} : P (addLabel l) :=
  hP.andThen hP.get fun _ => hP.andThen (hP.redraw fun s => .newLabel s l) fun _ => hP.pure

/-- A label of the program, given that labels can be named. -/
theorem programLabel {l : Label} (hname : ∀ id r : Nat, P (modify fun s =>
    { s with programLabels := (id, r) :: s.programLabels })) : P (programLabel l) := by
  -- A label that is new gets a slot if jumps to it carry a value.
  have hnew : ∀ v, P (do
      let id ← Lower.addLabel { name := some l.shown, valueSlot := v }
      modify fun s => { s with programLabels := (l.id, id) :: s.programLabels }
      return id) := fun v =>
    hP.andThen hP.addLabel fun _ => hP.andThen (hname _ _) fun _ => hP.pure
  refine hP.andThen hP.read fun env => hP.guard hP.error fun _ => hP.guard hP.error fun _ =>
    hP.andThen hP.get fun s => ?_
  split
  · exact hP.pure
  · refine Routine.ite (hP.andThen hP.pure hnew) (hP.andThen ?_ hnew)
    rw [map_eq_pure_bind]
    exact hP.andThen hP.newSlot fun _ => hP.pure

theorem agreeOnHeight {r : LabelRef} : P (agreeOnHeight r) := by
  refine hP.andThen hP.labelAt fun l => hP.andThen hP.get fun s => ?_
  cases l.depth with
  | none => exact hP.modifyLabel fun _ => rfl
  | some d =>
    dsimp only
    split
    · exact hP.unsupported
    · exact hP.pure

theorem jumpTo {i : Instr} {r : LabelRef} (hi : i.literal? = none) : P (jumpTo i r) :=
  hP.andThen hP.cleanupHere fun _ => hP.andThen hP.position fun _ => hP.andThen hP.labelAt fun _ =>
    hP.guard hP.unsupported fun _ =>
      hP.andThen (hP.emitAny ((Instr.literal?_withTarget i _).trans hi)) fun _ =>
        hP.andThen hP.agreeOnHeight fun _ => Routine.ite (hP.modifyLabel fun _ => rfl) hP.pure

theorem arrive {r : LabelRef} {l : DraftLabel} : P (arrive r l) := by
  refine hP.andThen hP.get fun s => Routine.ite hP.agreeOnHeight ?_
  split
  · exact hP.redraw fun s => .aside s _ _ _ _ _ _
  · exact hP.andThen hP.get fun _ => hP.modifyLabel fun _ => rfl

theorem patch {shown : String} {c : Option Nat} {q : Nat} {fixups : List (Nat × Option Nat)} :
    P (patch shown c q fixups) := by
  induction fixups with
  | nil => exact hP.pure
  | cons x rest ih =>
    rw [Lower.patch]
    exact hP.guard hP.unsupported fun _ => hP.andThen (hP.redraw fun s => .patched s _ _) fun _ => ih

theorem placeLabel {r : LabelRef} : P (placeLabel r) :=
  hP.andThen hP.labelAt fun _ => Routine.ite hP.pure (hP.andThen hP.arrive fun _ => hP.andThen
    (hP.redraw fun s => .aside s _ _ _ _ _ _) fun _ =>
      hP.andThen hP.position fun _ => hP.andThen hP.cleanupHere fun _ =>
        hP.andThen hP.patch fun _ => hP.modifyLabel fun _ => rfl)

/-! ## Protected regions -/

theorem resumeAt {d : Nat} : P (resumeAt d) :=
  hP.redraw fun s => .aside s _ _ _ _ _ _

theorem catches {start stop depth : Nat} {result : Option Nat} {done : LabelRef} {f : Usage}
    {ks : List CatchPart} (hk : ∀ k ∈ ks, ∀ slot f, P (catchBody k slot f)) :
    P (catches start stop depth result done f ks) := by
  induction ks with
  | nil => exact hP.pure
  | cons k ks ih =>
    exact hP.andThen hP.resumeAt fun _ => hP.andThen hP.position fun _ =>
      hP.andThen hP.newSlot fun slot => hP.andThen (hk k (by simp) slot f) fun _ =>
        hP.andThen hP.keepResult fun _ => hP.andThen (hP.jumpTo rfl) fun _ =>
          hP.andThen (ih fun k hk' => hk k (by simp [hk'])) fun _ => hP.pure

theorem cleanupBlock {start stop depth : Nat} {f : Usage} {o : Option CleanupPart}
    (ho : ∀ k, o = some k → ∀ f, P (k.block.emit f)) :
    P (cleanupBlock start stop depth f o) := by
  cases o with
  | none => exact hP.pure
  | some k =>
    exact hP.andThen hP.resumeAt fun _ => hP.andThen hP.position fun _ =>
      hP.andThen (hP.redraw fun s => .aside s _ _ _ _ _ _) fun _ =>
        hP.andThen (ho k rfl _) fun _ =>
          hP.andThen (hP.redraw fun s => .aside s _ _ _ _ _ _) fun _ =>
            hP.andThen (hP.emitAny rfl) fun _ => hP.andThen hP.position fun _ => hP.pure

theorem regionWith {p : Part} {ks : List CatchPart} {o : Option CleanupPart} {f : Usage}
    {result : Option Nat} (hp : ∀ f, P (p.emit f))
    (hk : ∀ k ∈ ks, ∀ slot f, P (catchBody k slot f))
    (ho : ∀ k, o = some k → ∀ f, P (k.block.emit f)) : P (regionWith p ks o f result) := by
  refine hP.andThen hP.get fun s => hP.andThen hP.addLabel fun done => hP.andThen (hP.emitAny rfl) fun _ =>
    hP.andThen hP.position fun _ => hP.andThen (hp _) fun _ => hP.andThen hP.keepResult fun _ =>
      hP.andThen (hP.jumpTo rfl) fun _ => hP.andThen hP.position fun _ => hP.andThen (hP.catches hk)
        fun _ => hP.andThen hP.position fun _ => hP.andThen (hP.cleanupBlock ho) fun _ =>
          hP.andThen (hP.redraw fun s => .aside s _ _ _ _ _ _) fun _ =>
            hP.andThen hP.placeLabel fun _ => Routine.ite ?_ hP.pure
  split
  · exact hP.emitAny rfl
  · exact hP.pure

/-! ## Nodes -/

/-- **A loose property is a rule of lowering**, given what becomes of names and scopes. -/
theorem rule {K : Mention → Prop}
    (hlabel : ∀ {l : Label}, K (.place l) ∨ K (.label l) → P (Lower.programLabel l))
    (hblock : ∀ {vars : List Var} {x : LowerM Unit}, K (.block vars) → P x → P (do
      let hidden ← bringInAll vars
      x
      takeOutAll vars hidden))
    (hcaught : ∀ {slot : Nat} {x : LowerM Unit}, P x → P (do
      modify fun s => { s with caught := slot :: s.caught }
      x
      modify fun s => { s with caught := s.caught.tail }))
    (hhandler : ∀ {v : Var} {x : Nat → LowerM Unit}, (∀ slot, P (x slot)) → P (do
      let (slot, hidden) ← bringIn v
      x slot
      takeOut v hidden)) :
    Rule K fun _ _ _ _ _ x => P x where
  mono h _ _ _ := h
  pure _ := hP.pure
  bind := hP.andThen
  read := hP.read
  unsupported _ := hP.unsupported
  error _ := hP.error
  emit _ hi _ := hP.emitAny hi
  assumePushed := hP.assumePushed
  newSlot := hP.andThen hP.newSlot
  literal := hP.literal
  typeEntry := hP.andThen hP.typeEntry
  methodEntry := hP.andThen hP.methodEntry
  structEntry := hP.andThen hP.structEntry
  jump hi _ := hP.jumpTo (Instr.literal?_of_target hi)
  place _ _ := hP.placeLabel
  fresh := hP.andThen hP.addLabel
  program hl := hP.andThen (hlabel (.inl hl))
  mention hl := hP.andThen (hlabel (.inr hl))
  carried hf := hP.andThen hP.labelAt fun l => hf l.valueSlot
  handling hf := hP.andThen hP.get fun s => by
    cases s.caught with
    | nil => exact hP.unsupported
    | cons k ks => exact hf k
  home _ := hP.andThen hP.homeOf
  constant _ := hP.pushConstant
  lambda _ := hP.pushLambda
  block := hblock
  caught _ := hcaught
  handler := hhandler
  region _ hp hh ho := hP.regionWith (fun f => hp [] [] [] f)
    (fun k hk slot f => hh k hk [] [] [.slot slot] slot f (by simp))
    fun k hk f => ho k hk [] [] [] f

end Loose

end Lower

end TreeCode

import TreeCode.Proofs.Lower.Acts
import TreeCode.Proofs.Lower.Loose

/-!
# Scopes are closed again

Code that mentions a variable behind a node must find it where it was before the node. A
block brings its variables in one after the other, each with the slot that it hides, and
gives the hidden slots back in the same order. So what a variable is left with is what its
last mention in the list hid: the slot from before the block if that is its only mention,
and a slot of the block itself otherwise. Handlers declare one variable, and no other node
declares any, so emission restores every scope unless a block lists a variable twice.

Main definitions:

* `Lower.Restores` — a step after which every variable has the slot it had.

Main results:

* `Lower.block_restores_iff` — **a block restores the scope exactly when it lists no
  variable twice**.
* `Expr.part_restores` — **so does the code of any tree whose blocks list distinct
  variables**, for every usage.
* `Expr.homeOf_after_part` — a variable is found behind a node where it was before.
-/

namespace TreeCode

namespace Lower

variable {α β : Type} {env : LowerEnv} {s s₁ s' : Draft} {u : Unit} {vars : List Var}
  {hidden : List (Option Nat)} {x : LowerM Unit}

/-- After the step every variable has the slot that it had. -/
def Restores (x : LowerM α) : Prop :=
  ∀ ⦃env s a s'⦄, x env s = .ok (a, s') → ∀ id, s'.slots.get? id = s.slots.get? id

/-! ## Steps that leave the slots of variables alone -/

namespace Restores

theorem still {x : LowerM α} (h : ∀ ⦃env s a s'⦄, x env s = .ok (a, s') → s'.slots = s.slots) :
    Restores x :=
  fun _ _ _ _ hx id => by rw [h hx]

theorem bindOf {x : LowerM α} {f : α → LowerM β} (hx : Restores x)
    (hf : ∀ a, MayGive x a → Restores (f a)) : Restores (x >>= f) := by
  intro env s b s' h id
  obtain ⟨a, s₁, h₁, h₂⟩ := bind_ok.1 h
  rw [hf a ⟨env, s, s₁, h₁⟩ h₂, hx h₁]

/-- Apart from what opens and closes scopes, no step moves a variable. -/
theorem loose : Loose fun x => Restores x where
  pure {_ _} := still fun _ _ _ _ h => (pure_ok.1 h).2 ▸ rfl
  bind := bindOf
  get := still fun _ _ _ _ h => (get_ok.1 h).2 ▸ rfl
  read := still fun _ _ _ _ h => (read_ok.1 h).2 ▸ rfl
  unsupported {_ _} := fun _ _ _ _ h => absurd h (by simp [unsupported_ok])
  error {_ _} := fun _ _ _ _ h => absurd h (by simp [error_ok])
  emit {_} _ _ := still fun _ _ _ _ h => emit_ok.1 h ▸ rfl
  newSlot := still fun _ _ _ _ h => by
    obtain ⟨-, -, rfl⟩ := newSlot_ok.1 h
    rfl
  literal {_ _} _ := bindOf (fun _ _ _ _ h => (literal_ok h).1.same.slots)
    fun _ _ => still fun _ _ _ _ h => emit_ok.1 h ▸ rfl
  typeEntry {_} := fun _ _ _ _ h => (typeEntry_ok h).1.same.slots
  methodEntry {_} := fun _ _ _ _ h => (methodEntry_ok h).1.same.slots
  structEntry {_} := fun _ _ _ _ h => (structEntry_ok h).1.same.slots
  redraw hg := still fun _ s _ _ h => modify_ok.1 h ▸ (hg s).slots

end Restores

/-! ## Blocks -/

/-- The slot that a variable is left with when the hidden slots are given back in order. -/
def givenBack (id : Nat) (k : Option Nat) (pairs : List (Var × Option Nat)) : Option Nat :=
  pairs.foldl (fun k x => if id = x.1.id then x.2 else k) k

theorem takeOutAll_givenBack (h : takeOutAll vars hidden env s = .ok (u, s')) (id : Nat) :
    s'.slots.get? id = givenBack id (s.slots.get? id) (vars.zip hidden) := by
  induction vars generalizing s hidden with
  | nil =>
    obtain ⟨-, rfl⟩ := pure_ok.1 h
    rfl
  | cons v vs ih =>
    cases hidden with
    | nil =>
      obtain ⟨-, rfl⟩ := pure_ok.1 h
      rfl
    | cons o hidden =>
      simp only [takeOutAll, takeOut, modify_bind] at h
      rw [ih h, Slots.get?_restore]
      rfl

/-- Slots that are given back to distinct variables. -/
theorem givenBack_map (old : Nat → Option Nat) {id : Nat} {k : Option Nat} (hid : id ∈ Var.ids vars) :
    givenBack id k (vars.zip (vars.map fun v => old v.id)) = old id := by
  induction vars generalizing k with
  | nil => simp [Var.ids] at hid
  | cons v vs ih =>
    show givenBack id (if id = v.id then old v.id else k) (vs.zip (vs.map fun v => old v.id)) = _
    by_cases hmem : id ∈ Var.ids vs
    · exact ih hmem
    · -- The last mention of the variable is the one at the head.
      have hlast : ∀ (ws : List Var) (k : Option Nat), id ∉ Var.ids ws →
          givenBack id k (ws.zip (ws.map fun v => old v.id)) = k := by
        intro ws
        induction ws with
        | nil => exact fun _ _ => rfl
        | cons w ws ihw =>
          intro k hw
          simp only [Var.ids, List.map_cons, List.mem_cons, not_or] at hw
          show givenBack id (if id = w.id then old w.id else k) _ = k
          rw [if_neg hw.1]
          exact ihw k hw.2
      have hv : id = v.id := (List.mem_cons.1 hid).resolve_right hmem
      rw [hlast vs _ hmem, if_pos hv, hv]

/-- When a variable is listed twice, one of them is left with a slot of the block. -/
theorem bringInAll_givenBack (h : bringInAll vars env s = .ok (hidden, s'))
    (htwice : ¬(Var.ids vars).Nodup) :
    ∃ id k, s.numLocals ≤ k ∧ ∀ o, givenBack id o (vars.zip hidden) = some k := by
  induction vars generalizing s hidden with
  | nil => simp [Var.ids] at htwice
  | cons v vs ih =>
    simp only [bringInAll, bind_ok, pure_ok] at h
    obtain ⟨⟨slot, hid⟩, s₁, hin, _, s₂, hpush, _, s₃, hinit, rest, _, hrest, rfl, rfl⟩ := h
    obtain ⟨-, rfl, rfl, rfl⟩ := bringIn_ok.1 hin
    have hsame := (pushValue_quiet hpush).2.trans (initialise_quiet hinit).2
    have hle := Nat.le_trans (pushValue_quiet hpush).1.numLocals_le
      (initialise_quiet hinit).1.numLocals_le
    by_cases hvs : (Var.ids vs).Nodup
    · -- The head is listed again, and that mention hid the slot of the head.
      have hmem : v.id ∈ Var.ids vs := by
        by_contra hno
        exact htwice (List.nodup_cons.2 ⟨hno, hvs⟩)
      have hhidden := (bringInAll_quiet hrest).2.2.2.2.2 hvs
      refine ⟨v.id, s.numLocals, Nat.le_refl _, fun o => ?_⟩
      rw [hhidden]
      show givenBack v.id _ (vs.zip (vs.map fun v => s₃.slots.get? v.id)) = _
      rw [givenBack_map (fun id => s₃.slots.get? id) hmem, hsame.slots, Slots.get?_insert,
        if_pos rfl]
    · obtain ⟨id, k, hk, hback⟩ := ih hrest hvs
      refine ⟨id, k, Nat.le_trans ?_ hk, fun o => hback _⟩
      exact Nat.le_trans (Nat.le_succ _) hle

/-- A block of distinct variables restores the scope, if what is inside does. -/
theorem Restores.block (hvars : (Var.ids vars).Nodup) (hx : Restores x) : Restores (do
    let hidden ← bringInAll vars
    x
    takeOutAll vars hidden) := by
  intro env s a s' h id
  simp only [bind_ok] at h
  obtain ⟨hidden, s₁, h₁, _, s₂, h₂, h₃⟩ := h
  obtain ⟨-, -, -, -, hslots, hhidden⟩ := bringInAll_quiet h₁
  rw [hhidden hvars] at h₃
  rw [takeOutAll_get? h₃]
  split
  · rfl
  · rename_i hid
    rw [hx h₂, hslots id hid]

/-- **A block restores the scope exactly when it lists no variable twice**, given that what
is inside restores it, and that slots in use are not handed out again. -/
theorem block_restores_iff (hx : Restores x)
    (hlt : ∀ id k, s.slots.get? id = some k → k < s.numLocals)
    (hrun : (do
      let hidden ← bringInAll vars
      x
      takeOutAll vars hidden) env s = .ok (u, s')) :
    (∀ id, s'.slots.get? id = s.slots.get? id) ↔ (Var.ids vars).Nodup := by
  refine ⟨fun hall => ?_, fun hvars => Restores.block hvars hx hrun⟩
  by_contra htwice
  simp only [bind_ok] at hrun
  obtain ⟨hidden, s₁, h₁, _, s₂, h₂, h₃⟩ := hrun
  obtain ⟨id, k, hk, hback⟩ := bringInAll_givenBack h₁ htwice
  have hafter := hall id
  rw [takeOutAll_givenBack h₃, hback] at hafter
  exact absurd (hlt id k hafter.symm) (Nat.not_lt.2 hk)

/-! ## Handlers -/

theorem Restores.caught {slot : Nat} (hx : Restores x) : Restores (do
    modify fun s => { s with caught := slot :: s.caught }
    x
    modify fun s => { s with caught := s.caught.tail }) := by
  intro env s a s' h id
  simp only [modify_bind, bind_ok, modify_ok] at h
  obtain ⟨_, s₂, h₂, rfl⟩ := h
  exact hx h₂ id

theorem Restores.handler {v : Var} {x : Nat → LowerM Unit} (hx : ∀ slot, Restores (x slot)) :
    Restores (do
      let (slot, hidden) ← bringIn v
      x slot
      takeOut v hidden) := by
  intro env s a s' h id
  simp only [bind_ok, takeOut, modify_ok] at h
  obtain ⟨⟨slot, hidden⟩, s₁, h₁, _, s₂, h₂, rfl⟩ := h
  obtain ⟨-, rfl, rfl, rfl⟩ := bringIn_ok.1 h₁
  rw [Slots.get?_restore, hx _ h₂, Slots.get?_insert]
  split
  · next hid => rw [hid]
  · rfl

/-- Where a variable lives depends on the slots of variables only. -/
theorem homeOf_of_slots {t : Draft} {v : Var} {home : Home}
    (h : homeOf v env s = .ok (home, s)) (hslots : s.slots.get? v.id = t.slots.get? v.id) :
    homeOf v env t = .ok (home, t) := by
  simp only [homeOf, read_bind, get_bind, hslots] at h ⊢
  cases hk : t.slots.get? v.id with
  | some k =>
    simp only [hk, pure_ok, and_true] at h ⊢
    exact h
  | none =>
    cases hi : env.plan.capturePlace? v.id with
    | some i =>
      simp only [hk, hi, pure_ok, and_true] at h ⊢
      exact h
    | none => simp [hk, hi, error_ok] at h

/-! ## Trees -/

/-- A block that is mentioned lists no variable twice. -/
def Distinctly : Mention → Prop
  | .block vars => (Var.ids vars).Nodup
  | _ => True

theorem restores_rule : Rule Distinctly fun _ _ _ _ _ x => Restores x :=
  Restores.loose.rule
    (fun _ => Restores.loose.programLabel fun _ _ => Restores.still fun _ _ _ _ h =>
      modify_ok.1 h ▸ rfl)
    Restores.block Restores.caught Restores.handler

end Lower

open Lower

/-- **Emission restores scopes.** Where no block of a tree lists a variable twice, every
variable has after the code of the tree the slot that it had before, whatever variables
blocks and handlers inside declare again. -/
theorem Expr.part_restores {e : Expr} (h : ∀ vars, .block vars ∈ e.mentions [] → (Var.ids vars).Nodup)
    (f : Usage) : Restores (e.part.emit f) := by
  refine (restores_rule.part e [] fun m hm => ?_).emit [] [] [] f
  cases m with
  | block vars => exact h vars hm
  | _ => trivial

/-- Behind such a tree a variable is found where it was before it. -/
theorem Expr.homeOf_after_part {e : Expr} {f : Usage} {v : Var} {env : LowerEnv} {s s' : Draft}
    {home : Home} {u : Unit}
    (h : ∀ vars, .block vars ∈ e.mentions [] → (Var.ids vars).Nodup)
    (hrun : e.part.emit f env s = .ok (u, s')) (hhome : homeOf v env s = .ok (home, s)) :
    homeOf v env s' = .ok (home, s') :=
  homeOf_of_slots hhome (Expr.part_restores h f hrun v.id).symm

end TreeCode

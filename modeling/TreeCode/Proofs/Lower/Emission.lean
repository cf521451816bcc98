import TreeCode.Proofs.Agree.Conversion

/-!
# Code that can be emitted

Lowering fails when a table is full, when there is no slot left, or when a label is reached
at two heights of the stack. Here it is followed what code takes of the first two, and at
which height labels wait for their place.

Main definitions:

* `Draft.Takes` — what code took of tables and slots.
* `Lower.Affords` — code can be emitted behind a draft.
* `Draft.Awaits` — a label waits for its place.

Main results:

* `jumpTo_emits`, `placeLabel_arrives` — jumps to a label that waits, and its place.
-/

namespace TreeCode

open Draft Lower

/-- From `s` to `t` at most `n` literals and `k` slots were taken. -/
structure Draft.Takes (n k : Nat) (s t : Draft) : Prop where
  slots : ∀ id, t.slots.get? id = s.slots.get? id
  cleanups : t.cleanups = s.cleanups
  literals : t.literals.size ≤ s.literals.size + n
  numLocals : t.numLocals ≤ s.numLocals + k

/-- There is room for `n` literals and `k` slots. -/
structure Draft.HasRoom (n k : Nat) (s : Draft) : Prop where
  literals : s.literals.size + n ≤ tableLimit
  slots : s.numLocals + k ≤ localLimit

/-- The label `r` waits for its place; `d` is the height of the stack that it was reached
with, if it was. -/
def Draft.Awaits (s : Draft) (r : Nat) (d : Option Nat) : Prop :=
  ∃ l, s.labels[r]? = some l ∧ l.position = none ∧ l.depth = d ∧
    ∀ x ∈ l.fixups, x.2 = s.cleanups.head?

variable {s t u : Draft} {n m k j r r' : Nat} {d d' : Option Nat} {i : Instr} {env : LowerEnv}

namespace Draft

namespace Takes

theorem refl (s : Draft) : Takes 0 0 s s := ⟨fun _ => rfl, rfl, Nat.le_refl _, Nat.le_refl _⟩

theorem trans (h : Takes n k s t) (h' : Takes m j t u) : Takes (n + m) (k + j) s u where
  slots id := (h'.slots id).trans (h.slots id)
  cleanups := h'.cleanups.trans h.cleanups
  literals := by
    have := h.literals
    have := h'.literals
    omega
  numLocals := by
    have := h.numLocals
    have := h'.numLocals
    omega

theorem mono (h : Takes n k s t) (hn : n ≤ m) (hk : k ≤ j) : Takes m j s t :=
  { h with
    literals := Nat.le_trans h.literals (by omega)
    numLocals := Nat.le_trans h.numLocals (by omega) }

theorem emitted (s : Draft) (i : Instr) : Takes 0 0 s (s.emitted i) :=
  ⟨fun _ => rfl, rfl, Nat.le_refl _, Nat.le_refl _⟩

end Takes

namespace HasRoom

theorem after (h : s.HasRoom (n + m) (k + j)) (ht : Takes n k s t) : t.HasRoom m j where
  literals := by
    have := h.literals
    have := ht.literals
    omega
  slots := by
    have := h.slots
    have := ht.numLocals
    omega

/-- Nothing was taken. -/
theorem still (h : s.HasRoom n k) (ht : Takes 0 0 s t) : t.HasRoom n k :=
  ⟨Nat.le_trans (Nat.add_le_add_right ht.literals n) h.literals,
    Nat.le_trans (Nat.add_le_add_right ht.numLocals k) h.slots⟩

theorem mono (h : s.HasRoom n k) (hn : m ≤ n) (hk : j ≤ k) : s.HasRoom m j :=
  ⟨Nat.le_trans (by omega) h.literals, Nat.le_trans (by omega) h.slots⟩

end HasRoom

theorem Awaits.congr (h : s.Awaits r d) (hl : t.labels = s.labels) (hc : t.cleanups = s.cleanups) :
    t.Awaits r d := by
  unfold Awaits
  rw [hl, hc]
  exact h

end Draft

namespace Lower

/-- The code can be emitted behind `s`, and takes at most `n` literals and `k` slots. -/
def Affords {α : Type} (x : LowerM α) (env : LowerEnv) (n k : Nat) (s : Draft) : Prop :=
  ∃ a t, x env s = .ok (a, t) ∧ Takes n k s t

namespace Affords

variable {α β : Type} {x : LowerM α} {g : α → LowerM β}

theorem bind (h : Affords x env n k s)
    (hg : ∀ a t, x env s = .ok (a, t) → Takes n k s t → Affords (g a) env m j t) :
    Affords (x >>= g) env (n + m) (k + j) s := by
  obtain ⟨a, t, hx, ht⟩ := h
  obtain ⟨b, u, hb, hu⟩ := hg a t hx ht
  exact ⟨b, u, bind_ok.2 ⟨a, t, hx, hb⟩, ht.trans hu⟩

/-- The first part takes nothing. -/
theorem before (h : Affords x env 0 0 s) (hg : ∀ a t, Takes 0 0 s t → Affords (g a) env n k t) :
    Affords (x >>= g) env n k s := by
  have := h.bind fun a t _ ht => hg a t ht
  rwa [Nat.zero_add, Nat.zero_add] at this

/-- The second part takes nothing. -/
theorem followed (h : Affords x env n k s) (hg : ∀ a t, Affords (g a) env 0 0 t) :
    Affords (x >>= g) env n k s :=
  h.bind fun a t _ _ => hg a t

theorem mono (h : Affords x env n k s) (hn : n ≤ m) (hk : k ≤ j) : Affords x env m j s := by
  obtain ⟨a, t, hx, ht⟩ := h
  exact ⟨a, t, hx, ht.mono hn hk⟩

theorem pure {a : α} : Affords (Pure.pure a) env 0 0 s := ⟨a, s, rfl, .refl s⟩

theorem emit (i : Instr) : Affords (Lower.emit i) env 0 0 s := ⟨(), _, rfl, .emitted s i⟩

theorem ite {c : Prop} [Decidable c] {x y : LowerM α} (hx : c → Affords x env n k s)
    (hy : ¬c → Affords y env n k s) : Affords (if c then x else y) env n k s := by
  split
  · exact hx ‹_›
  · exact hy ‹_›

end Affords

/-! ## Literals -/

/-- A literal can be pushed while there is room in the table. -/
theorem pushValue_emits (env : LowerEnv) (v : Value) (h : s.HasRoom 1 0) :
    ∃ t, pushValue v env s = .ok ((), t) ∧ Takes 1 0 s t ∧ t.labels = s.labels ∧
      t.depth = s.depth + 1 := by
  have hplain : ∀ i : Instr, effectOf s.methods i = (0, 1) → ∃ t, emit i env s = .ok ((), t) ∧
      Takes 1 0 s t ∧ t.labels = s.labels ∧ t.depth = s.depth + 1 := by
    intro i hi
    exact ⟨_, rfl, (Takes.emitted s i).mono (Nat.zero_le _) (Nat.le_refl _), rfl,
      by simp [hi]⟩
  have hlit : ∃ j t, literal v env s = .ok (j, t) ∧ Takes 1 0 s t ∧ t.labels = s.labels ∧
      t.depth = s.depth := by
    unfold literal checkRoom
    simp only [get_bind]
    cases Array.findIdx? (·.sharesLiteral v) s.literals with
    | some j => exact ⟨j, s, rfl, (Takes.refl s).mono (Nat.zero_le _) (Nat.le_refl _), rfl, rfl⟩
    | none =>
      have hroom := h.literals
      simp only [get_bind, if_neg (show ¬tableLimit ≤ s.literals.size by omega)]
      exact ⟨_, _, rfl, ⟨fun _ => rfl, rfl, by simp, Nat.le_refl _⟩, rfl, rfl⟩
  obtain ⟨j, t, hj, ht, hl, hd⟩ := hlit
  have hother : ∃ t, (do emit (.constLiteral (← literal v)) : LowerM Unit) env s = .ok ((), t) ∧
      Takes 1 0 s t ∧ t.labels = s.labels ∧ t.depth = s.depth + 1 :=
    ⟨_, bind_ok.2 ⟨j, t, hj, rfl⟩, ht.trans (.emitted ..), hl, by simp [effectOf, hd]⟩
  unfold pushValue
  split
  case h_5 => exact hother
  all_goals exact hplain _ rfl

/-- A slot can be taken while there is one. -/
theorem newSlot_emits (h : s.HasRoom 0 1) :
    newSlot env s = .ok (s.numLocals, { s with numLocals := s.numLocals + 1 }) := by
  have hroom := h.slots
  simp only [newSlot, get_bind, if_neg (show ¬localLimit ≤ s.numLocals by omega)]
  rfl

/-! ## Labels -/

/-- A new label waits. -/
theorem freshLabel_emits (env : LowerEnv) (s : Draft) :
    ∃ r t, freshLabel env s = .ok (r, t) ∧ Takes 0 0 s t ∧ t.depth = s.depth ∧ t.Awaits r none ∧
      ∀ r' d', s.Awaits r' d' → r' ≠ r ∧ t.Awaits r' d' := by
  refine ⟨_, _, rfl, ⟨fun _ => rfl, rfl, Nat.le_refl _, Nat.le_refl _⟩, rfl,
    ⟨{}, by simp, rfl, rfl, by simp⟩, ?_⟩
  rintro r' d' ⟨l, hl, h⟩
  have hr := Nat.ne_of_lt (Array.getElem?_eq_some_iff.1 hl).1
  exact ⟨hr, l, by simp [Array.getElem?_push, hr, hl], h⟩

/-- A label that waits can be jumped to at one height. -/
theorem jumpTo_emits (env : LowerEnv) (hr : s.Awaits r d) (hd : d = none ∨ d = some (s.emitted i).depth) :
    ∃ t, jumpTo i r env s = .ok ((), t) ∧ Takes 0 0 s t ∧ t.depth = (s.emitted i).depth ∧
      t.reachable = (s.reachable && !i.transfersControl) ∧ t.Awaits r (some t.depth) ∧
      ∀ r' d', r' ≠ r → s.Awaits r' d' → t.Awaits r' d' := by
  obtain ⟨l, hl, hpos, rfl, hfix⟩ := hr
  have hl' : (s.emitted (i.withTarget 0)).labels[r]? = some l := hl
  have hdepth : (s.emitted (i.withTarget 0)).depth = (s.emitted i).depth := by simp [Draft.emitted]
  -- The height of the label is set now, or was set to the same before.
  obtain ⟨ls, hag, hls, hother⟩ : ∃ ls,
      agreeOnHeight r env (s.emitted (i.withTarget 0)) =
        .ok ((), { s.emitted (i.withTarget 0) with labels := ls }) ∧
      ls[r]? = some { l with depth := some (s.emitted i).depth } ∧ ∀ r' ≠ r, ls[r']? = s.labels[r']? := by
    rcases hd with hd | hd
    · refine ⟨_, agreeOnHeight_first hl' hd, by simp [Array.getElem?_modify, hl', hdepth], ?_⟩
      intro r' hne
      simp [Array.getElem?_modify, hne.symm, Draft.emitted]
    · refine ⟨s.labels, agreeOnHeight_again hl' (by rw [hd, hdepth]), ?_, fun _ _ => rfl⟩
      rw [hl, ← hd]
  -- The label has no place, so the jump is emitted without a target and waits.
  have hj : jumpTo i r env s = (agreeOnHeight r >>= fun _ => modifyLabel r fun l =>
      { l with fixups := l.fixups ++ [(s.instrs.size, s.cleanups.head?)] }) env
        (s.emitted (i.withTarget 0)) := by
    simp only [jumpTo, cleanupHere_bind, position_bind, labelAt_bind, hl, Option.getD_some, hpos,
      Option.isSome_none, Bool.false_and, Bool.false_eq_true, if_false, Option.getD_none, emit_bind,
      Option.isNone_none, if_true]
  refine ⟨_, hj.trans (bind_ok.2 ⟨(), _, hag, rfl⟩), ⟨fun _ => rfl, rfl, Nat.le_refl _, Nat.le_refl _⟩,
    hdepth, by simp [Draft.emitted], ⟨{ l with
      depth := some (s.emitted i).depth
      fixups := l.fixups ++ [(s.instrs.size, s.cleanups.head?)] }, ?_, hpos, by rw [← hdepth], ?_⟩, ?_⟩
  · simp [Array.getElem?_modify, hls]
  · intro x hx
    rcases List.mem_append.1 hx with hx | hx
    · exact hfix x hx
    · rw [List.mem_singleton.1 hx]
      rfl
  · rintro r' d' hne ⟨l', hl', h⟩
    exact ⟨l', by simp [Array.getElem?_modify, hne.symm, hother r' hne, hl'], h⟩

/-- A label that was jumped to can be placed; code that runs into it does so at its height. -/
theorem placeLabel_arrives (env : LowerEnv) {h : Nat} (hr : s.Awaits r (some h))
    (hreach : s.reachable = true → s.depth = h) :
    ∃ t, placeLabel r env s = .ok ((), t) ∧ Takes 0 0 s t ∧ t.depth = h ∧
      ∀ r' d', r' ≠ r → s.Awaits r' d' → t.Awaits r' d' := by
  obtain ⟨l, hl, hpos, hd, hfix⟩ := hr
  have harrive : arrive r l env s = .ok ((), { s with depth := h }) := by
    simp only [arrive, get_bind]
    split
    · rename_i hs
      obtain rfl := hreach hs
      exact agreeOnHeight_again hl hd
    · rw [hd]
      rfl
  obtain ⟨t, ht⟩ : ∃ t, placeLabel r env s = .ok ((), t) := by
    simp only [placeLabel, labelAt_bind, hl, hpos, Option.getD_some, Option.isSome_none,
      Bool.false_eq_true, if_false]
    simp only [bind_ok (x := arrive r l), harrive, modify_bind, position_bind, cleanupHere_bind]
    exact ⟨_, (), _, rfl, bind_ok.2 ⟨(), _, patch_ok.2 ⟨hfix, rfl⟩, rfl⟩⟩
  refine ⟨t, ht, ?_⟩
  obtain ⟨hp, -⟩ | ⟨-, s₁, ha, -, rfl⟩ := placeLabel_cases ht hl
  · exact absurd hpos hp
  obtain rfl : { s with depth := h } = s₁ := by simpa [harrive] using ha
  refine ⟨⟨fun _ => rfl, rfl, Nat.le_refl _, Nat.le_refl _⟩, rfl, ?_⟩
  rintro r' d' hne ⟨l', hl', hl''⟩
  exact ⟨l', by simp [Array.getElem?_modify, hne.symm, hl'], hl''⟩

end Lower

end TreeCode

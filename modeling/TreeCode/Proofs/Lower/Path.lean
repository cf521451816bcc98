import TreeCode.Proofs.Lower.Regions

/-!
# The acts of lowering

Whatever tree is lowered, a draft changes in nine ways only. Here each is an `Act`
that states what it relies on: that what an instruction names exists, that a jump
goes to a label that exists, that a closure is bound to as many cells as its unit
captures variables. A stretch of lowering is a `Path` of acts, and what every act
keeps holds of finished code.

Main definitions:

* `Draft.Holds` — code may name something from here on.
* `Draft.Fit` — variables in scope, handled exceptions and labels have slots to name.
* `Act`, `Path` — the acts of lowering, and sequences of them.
* `Draft.Refers` — the instruction at a position names what exists.

Main results:

* `Path.leads`, `Path.fit`, `Path.holds` — a draft only grows, and stays fit.
* `Path.refers` — **whatever an instruction names is inside its table**, and cells are
  pushed for every variable that a closure captures.
* `Path.jump_taken`, `Path.place_taken` — every jump was emitted for a label, and
  labels are where they were placed.
-/

namespace TreeCode

/-- Number of entries of the closure record that a unit is bound to. -/
def LowerEnv.entries (env : LowerEnv) : Nat :=
  match env.supplied with
  | some values => values.length
  | none => env.plan.constants.length + env.plan.nested.length

/-- Entry `k` of the record is an open unit that captures `n` variables. -/
def LowerEnv.Opens (env : LowerEnv) (k n : Nat) : Prop :=
  env.supplied = none ∧ ∃ j u v captures, env.plan.nested[j]? = some u ∧
    env.plan.constants.length + j = k ∧ env.compiled[u.unit]? = some (.opened v captures) ∧
      captures.length = n

/-- Whether an instruction pushes the cell of a variable. -/
def Instr.pushesCell : Instr → Bool
  | .loadLocal _ | .loadCapturedCell _ => true
  | _ => false

/-- The slot that an instruction stores to. -/
def Instr.writes? : Instr → Option Nat
  | .storeLocal k | .newCell k => some k
  | _ => none

namespace Instr

theorem target?_of_isStraight {i : Instr} (h : i.isStraight = true) : i.target? = none := by
  cases i <;> first | rfl | cases h

theorem isStraight_of_pushesCell {i : Instr} (h : i.pushesCell = true) : i.isStraight = true := by
  cases i <;> first | rfl | cases h

@[simp] theorem refs_withTarget (i : Instr) (q : Nat) : (i.withTarget q).refs = i.refs := by
  cases i <;> rfl

theorem refs_of_writes {i : Instr} {k : Nat} (h : i.writes? = some k) : i.refs = [.slot k] := by
  cases i <;> first | (cases h; rfl) | cases h

theorem refs_of_target {i : Instr} (h : i.target?.isSome = true) : i.refs = [] := by
  cases i <;> first | rfl | cases h

end Instr

namespace Draft

variable {env : LowerEnv} {s t u : Draft}

/-- Code may name something from here on. Slots of entries of the record are left to
the code that loads them. -/
def Holds (env : LowerEnv) (s : Draft) : Ref → Prop
  | .slot k => k < s.numLocals ∧ k ∉ s.hoisted.map (·.2)
  | .literal k => k < s.literals.size
  | .type k => k < s.types.size
  | .method k => k < s.methods.size
  | .struct k => k < s.structs.size
  | .captured k => k < env.plan.captures.length
  | .constant _ | .cells _ => False

/-- The instruction loads entry `k` of the record. -/
def Loads (s : Draft) (k : Nat) (i : Instr) : Prop :=
  i = .loadConstant k ∨ ∃ slot, s.hoisted.lookup k = some slot ∧ i = .loadLocal slot

theorem Loads.isStraight {k : Nat} {i : Instr} (h : s.Loads k i) : i.isStraight = true := by
  rcases h with rfl | ⟨slot, -, rfl⟩ <;> rfl

theorem Loads.writes? {k : Nat} {i : Instr} (h : s.Loads k i) : i.writes? = none := by
  rcases h with rfl | ⟨slot, -, rfl⟩ <;> rfl

/-- What has a slot in a draft has one that code may name. -/
structure Fit (env : LowerEnv) (s : Draft) : Prop where
  sound : s.Sound
  slots : ∀ id k, s.slots.get? id = some k → s.Holds env (.slot k)
  caught : ∀ k ∈ s.caught, s.Holds env (.slot k)
  carried : ∀ (r : Nat) (l : DraftLabel) (k : Nat), s.labels[r]? = some l →
    l.valueSlot = some k → s.Holds env (.slot k)
  hoisted : ∀ x ∈ s.hoisted, x.1 < env.entries ∧ x.2 < s.numLocals

/-- A new slot may be named. -/
theorem Fit.new (h : s.Fit env) {k : Nat} (hk : s.numLocals ≤ k) : k ∉ s.hoisted.map (·.2) := by
  intro hmem
  obtain ⟨x, hx, rfl⟩ := List.mem_map.1 hmem
  exact absurd (h.hoisted x hx).2 (Nat.not_lt.2 hk)

theorem Holds.leads {ρ : Ref} (h : s.Holds env ρ) (hst : s.Leads t)
    (hh : t.hoisted = s.hoisted) : t.Holds env ρ := by
  cases ρ with
  | slot k => exact ⟨Nat.lt_of_lt_of_le h.1 hst.numLocals_le, hh ▸ h.2⟩
  | literal k => exact Nat.lt_of_lt_of_le h hst.literals.size_le
  | type k => exact Nat.lt_of_lt_of_le h hst.types.size_le
  | method k => exact Nat.lt_of_lt_of_le h hst.methods.size_le
  | struct k => exact Nat.lt_of_lt_of_le h hst.structs.size_le
  | constant _ => exact h
  | captured _ => exact h
  | cells _ => exact h

/-- A draft that grew stays fit if its scopes are. The slots of new labels are new. -/
theorem Fit.leads (h : s.Fit env) (hst : s.Leads t) (hsound : t.Sound)
    (hh : t.hoisted = s.hoisted)
    (hslots : ∀ id k, t.slots.get? id = some k → t.Holds env (.slot k))
    (hcaught : ∀ k ∈ t.caught, t.Holds env (.slot k)) : t.Fit env where
  sound := hsound
  slots := hslots
  caught := hcaught
  carried r l k hl hk := by
    by_cases hr : r < s.labels.size
    · obtain ⟨l', hl', hb⟩ := hst.label r s.labels[r] (by simp [hr])
      rw [hl, Option.some.injEq] at hl'
      subst hl'
      exact (h.carried r _ k (by simp [hr]) (hb.valueSlot ▸ hk)).leads hst hh
    · refine ⟨hsound.slot_lt r l k hl hk, hh ▸ h.new ?_⟩
      exact hst.slot_new r l k hl hk (Nat.not_lt.1 hr)
  hoisted x hx := by
    have hx' := h.hoisted x (hh ▸ hx)
    exact ⟨hx'.1, Nat.lt_of_lt_of_le hx'.2 hst.numLocals_le⟩

/-! ## Appending several instructions -/

/-- The draft after instructions were appended. -/
def emittedAll (s : Draft) (is : List Instr) : Draft := is.foldl Draft.emitted s

theorem emittedAll_cons (i : Instr) (is : List Instr) :
    s.emittedAll (i :: is) = (s.emitted i).emittedAll is := rfl

theorem emittedAll_append (is is' : List Instr) :
    s.emittedAll (is ++ is') = (s.emittedAll is).emittedAll is' := by
  simp [emittedAll]

theorem emittedAll_instrs (s : Draft) (is : List Instr) :
    (s.emittedAll is).instrs = s.instrs ++ is.toArray := by
  induction is generalizing s with
  | nil => simp [emittedAll]
  | cons i is ih =>
    rw [emittedAll_cons, ih]
    simp [emitted]

theorem Quiet.emittedAll (s : Draft) (is : List Instr) : Quiet s (s.emittedAll is) := by
  induction is generalizing s with
  | nil => exact .refl s
  | cons i is ih => exact (Quiet.emitted s i).trans (ih (s.emitted i))

theorem Same.emittedAll (s : Draft) (is : List Instr) : Same s (s.emittedAll is) := by
  induction is generalizing s with
  | nil => exact .refl s
  | cons i is ih => exact (Same.emitted s i).trans (ih (s.emitted i))

end Draft

open Lower Draft

/-- A way in which lowering changes a draft. -/
inductive Act (env : LowerEnv) : Draft → Draft → Prop
  | emit {s : Draft} {i : Instr} (hi : i.isStraight = true)
      (hrefs : ∀ ρ ∈ i.refs, s.Holds env ρ) : Act env s (s.emitted i)
  /-- An entry of the record is loaded. -/
  | entry {s : Draft} {k : Nat} {i : Instr} (hk : k < env.entries) (hi : s.Loads k i) :
      Act env s (s.emitted i)
  /-- An open unit is loaded and bound to cells. -/
  | closure {s : Draft} {k : Nat} {i : Instr} {is : List Instr} (hk : env.Opens k is.length)
      (hi : s.Loads k i)
      (his : ∀ j ∈ is, j.pushesCell = true ∧ ∀ ρ ∈ j.refs, s.Holds env ρ) :
      Act env s (s.emittedAll (i :: is ++ [.curry is.length]))
  | endFinally {s : Draft} : Act env s (s.emitted .endFinally)
  | jump {s s' : Draft} {i : Instr} {r : Nat} (hi : i.target?.isSome = true)
      (hr : r < s.labels.size) (h : jumpTo i r env s = .ok ((), s')) : Act env s s'
  | place {s s' : Draft} {r : Nat} (hr : r < s.labels.size)
      (h : placeLabel r env s = .ok ((), s')) : Act env s s'
  /-- A label is added that is not placed, with a new slot for its value at most. -/
  | label {s : Draft} {l : DraftLabel} {n : Nat} {names : List (Nat × Nat)}
      (hf : l.fixups = []) (hp : l.position = none)
      (hslot : ∀ k, l.valueSlot = some k → s.numLocals ≤ k ∧ k < n) (hn : s.numLocals ≤ n)
      (hnames : names = s.programLabels ∨ ∃ id, s.programLabels.lookup id = none ∧
        names = (id, s.labels.size) :: s.programLabels) :
      Act env s { s with labels := s.labels.push l, programLabels := names, numLocals := n }
  /-- Slots, tables and scopes change, but no code. -/
  | adjust {s t : Draft} (hq : Quiet s t) (hi : t.instrs = s.instrs) (hh : t.hoisted = s.hoisted)
      (hslots : ∀ id k, t.slots.get? id = some k → t.Holds env (.slot k))
      (hcaught : ∀ k ∈ t.caught, t.Holds env (.slot k)) : Act env s t
  /-- Entries are added to the table of protected regions. -/
  | regions {s : Draft} {hs : List Handler} (hstop : ∀ h ∈ hs, h.stop ≤ s.instrs.size)
      (hslot : ∀ h ∈ hs, ∀ t k q, h.kind = .catching t k q → s.Holds env (.slot k)) :
      Act env s { s with handlers := s.handlers ++ hs }

/-- A sequence of acts. -/
def Path (env : LowerEnv) : Draft → Draft → Prop := Relation.ReflTransGen (Act env)

/-- Any label is internal, or named by the program. -/
theorem Lower.placeLabel_any {env : LowerEnv} {s s' : Draft} {r : Nat} {u : Unit}
    (h : placeLabel r env s = .ok (u, s')) (hr : r < s.labels.size) :
    ∃ P, Step True ⟨default, default⟩ P [r] s s' := by
  by_cases hname : ∃ id, s.programLabels.lookup id = some r
  · obtain ⟨id, hid⟩ := hname
    exact ⟨[id], placeLabel_step h hr (.inr ⟨id, by simp, hid⟩) (by simp)⟩
  · exact ⟨[], placeLabel_step h hr (.inl ⟨hr, fun id hid => hname ⟨id, hid⟩⟩) (by simp)⟩

theorem Lower.placeLabel_size {env : LowerEnv} {s s' : Draft} {r : Nat} {u : Unit}
    (h : placeLabel r env s = .ok (u, s')) (hr : r < s.labels.size) :
    s'.instrs.size = s.instrs.size := by
  have hl : s.labels[r]? = some s.labels[r] := by simp
  rcases placeLabel_cases h hl with ⟨-, rfl⟩ | ⟨-, s₁, ha, -, rfl⟩
  · rfl
  · obtain ⟨-, -, hinstrs, -⟩ := arrive_ok ha hl
    rw [size_patched, hinstrs]

theorem Lower.placeLabel_handlers {env : LowerEnv} {s s' : Draft} {r : Nat} {u : Unit}
    (h : placeLabel r env s = .ok (u, s')) (hr : r < s.labels.size) : s'.handlers = s.handlers := by
  have hl : s.labels[r]? = some s.labels[r] := by simp
  rcases placeLabel_cases h hl with ⟨-, rfl⟩ | ⟨-, s₁, ha, -, rfl⟩
  · rfl
  · exact (arrive_ok ha hl).1.handlers

namespace Act

variable {env : LowerEnv} {s t : Draft}

theorem leads (h : Act env s t) : s.Leads t := by
  cases h with
  | emit _ _ => exact (Quiet.emitted s _).leads
  | entry _ _ => exact (Quiet.emitted s _).leads
  | closure _ _ _ => exact (Quiet.emittedAll s _).leads
  | endFinally => exact (Quiet.emitted s _).leads
  | jump _ _ h => exact (jumpTo_jumped h).quiet.leads
  | place hr h =>
    obtain ⟨P, hst⟩ := placeLabel_any h hr
    exact hst.stage.leads
  | label hf hp hslot hn hnames => exact (stage_push_label hf hp hslot hn hnames []).leads
  | adjust hq _ _ _ _ => exact hq.leads
  | regions _ _ => exact leads_addHandlers s _

theorem sound (h : Act env s t) (hs : s.Sound) : t.Sound := by
  cases h with
  | emit _ _ => exact (Quiet.emitted s _).sound hs
  | entry _ _ => exact (Quiet.emitted s _).sound hs
  | closure _ _ _ => exact (Quiet.emittedAll s _).sound hs
  | endFinally => exact (Quiet.emitted s _).sound hs
  | jump _ _ h => exact (jumpTo_jumped h).quiet.sound hs
  | place hr h =>
    obtain ⟨P, hst⟩ := placeLabel_any h hr
    exact hst.stage.sound hs
  | label hf hp hslot hn hnames => exact (stage_push_label hf hp hslot hn hnames []).sound hs
  | adjust hq _ _ _ _ => exact hq.sound hs
  | regions hstop _ => exact hs.addHandlers hstop

/-- An act leaves scopes as they are, or adjusts them. -/
theorem same_or (h : Act env s t) : Same s t ∨ t.hoisted = s.hoisted ∧
    (∀ id k, t.slots.get? id = some k → t.Holds env (.slot k)) ∧
      ∀ k ∈ t.caught, t.Holds env (.slot k) := by
  cases h with
  | emit _ _ => exact .inl (.emitted s _)
  | entry _ _ => exact .inl (.emitted s _)
  | closure _ _ _ => exact .inl (.emittedAll s _)
  | endFinally => exact .inl (.emitted s _)
  | jump _ _ h => exact .inl (jumpTo_jumped h).same
  | place hr h =>
    obtain ⟨P, hst⟩ := placeLabel_any h hr
    exact .inl (hst.same trivial)
  | label _ _ _ _ _ => exact .inl ⟨fun _ => rfl, rfl, rfl, rfl⟩
  | adjust _ _ hh hslots hcaught => exact .inr ⟨hh, hslots, hcaught⟩
  | regions _ _ => exact .inl ⟨fun _ => rfl, rfl, rfl, rfl⟩

theorem hoisted (h : Act env s t) : t.hoisted = s.hoisted := by
  rcases h.same_or with h | h
  · exact h.hoisted
  · exact h.1

theorem fit (h : Act env s t) (hs : s.Fit env) : t.Fit env := by
  rcases h.same_or with hsame | ⟨-, hslots, hcaught⟩
  · refine hs.leads h.leads (h.sound hs.sound) h.hoisted (fun id k hk => ?_) fun k hk => ?_
    · rw [hsame.slots] at hk
      exact (hs.slots id k hk).leads h.leads h.hoisted
    · rw [hsame.caught] at hk
      exact (hs.caught k hk).leads h.leads h.hoisted
  · exact hs.leads h.leads (h.sound hs.sound) h.hoisted hslots hcaught

end Act

namespace Path

variable {env : LowerEnv} {s t u : Draft}

theorem refl (s : Draft) : Path env s s := Relation.ReflTransGen.refl

theorem trans (h₁ : Path env s t) (h₂ : Path env t u) : Path env s u :=
  Relation.ReflTransGen.trans h₁ h₂

theorem act (h : Act env s t) : Path env s t := .single h

theorem leads (h : Path env s t) : s.Leads t := by
  induction h with
  | refl => exact .refl s
  | tail _ hact ih => exact ih.trans hact.leads

theorem hoisted (h : Path env s t) : t.hoisted = s.hoisted := by
  induction h with
  | refl => rfl
  | tail _ hact ih => exact hact.hoisted.trans ih

theorem fit (h : Path env s t) (hs : s.Fit env) : t.Fit env := by
  induction h with
  | refl => exact hs
  | tail _ hact ih => exact hact.fit ih

theorem holds {ρ : Ref} (h : Path env s t) (hρ : s.Holds env ρ) : t.Holds env ρ :=
  hρ.leads h.leads h.hoisted

end Path

/-! ## What instructions name -/

/-- Cells for the open unit of an entry are pushed before position `p`, and the unit
before them, by code from `lo` on. -/
def Draft.Supplies (env : LowerEnv) (s : Draft) (lo p n : Nat) : Prop :=
  ∃ q k i, lo ≤ q ∧ q + n + 1 = p ∧ env.Opens k n ∧ s.instrs[q]? = some i ∧ s.Loads k i ∧
    ∀ j < n, ∃ i, s.instrs[q + 1 + j]? = some i ∧ i.pushesCell = true

/-- The instruction at a position names what exists. -/
inductive Draft.Refers (env : LowerEnv) (s : Draft) (lo p : Nat) : Instr → Prop
  | held {i : Instr} (h : ∀ ρ ∈ i.refs, s.Holds env ρ) : Refers env s lo p i
  | entry {i : Instr} {k : Nat} (hk : k < env.entries) (h : s.Loads k i) : Refers env s lo p i
  | curry {n : Nat} (h : s.Supplies env lo p n) : Refers env s lo p (.curry n)

theorem LowerEnv.Opens.lt {env : LowerEnv} {k n : Nat} (h : env.Opens k n) : k < env.entries := by
  obtain ⟨hnone, j, u, v, captures, hj, rfl, -⟩ := h
  have := (List.getElem?_eq_some_iff.1 hj).1
  simp only [entries, hnone]
  omega

namespace Draft.Supplies

variable {env : LowerEnv} {s t : Draft} {lo lo' p n : Nat}

theorem leads (h : s.Supplies env lo p n) (hst : s.Leads t) (hh : t.hoisted = s.hoisted)
    (hlo : lo' ≤ lo) : t.Supplies env lo' p n := by
  obtain ⟨q, k, i, hq, hp, hk, hi, hload, hcells⟩ := h
  refine ⟨q, k, i, by omega, hp, hk, ?_, ?_, fun j hj => ?_⟩
  · exact hst.instr hi (Instr.target?_of_isStraight hload.isStraight)
  · rwa [Loads, hh]
  · obtain ⟨i, hi, hcell⟩ := hcells j hj
    exact ⟨i, hst.instr hi (Instr.target?_of_isStraight (Instr.isStraight_of_pushesCell hcell)), hcell⟩

end Draft.Supplies

theorem Draft.Refers.leads {env : LowerEnv} {s t : Draft} {lo lo' p q : Nat} {i : Instr}
    (h : s.Refers env lo p i) (hst : s.Leads t) (hh : t.hoisted = s.hoisted) (hlo : lo' ≤ lo) :
    t.Refers env lo' p (i.withTarget q) := by
  cases h with
  | held h =>
    refine .held fun ρ hρ => ?_
    rw [Instr.refs_withTarget] at hρ
    exact (h ρ hρ).leads hst hh
  | entry hk h =>
    rw [Instr.withTarget_of_target?_none (Instr.target?_of_isStraight h.isStraight)]
    refine .entry hk ?_
    rwa [Loads, hh]
  | curry h => exact .curry (h.leads hst hh hlo)

/-- A slot that an instruction stores to holds no entry of the record. -/
theorem Draft.Refers.holds_of_writes {env : LowerEnv} {s : Draft} {lo p k : Nat} {i : Instr}
    (h : s.Refers env lo p i) (hk : i.writes? = some k) : s.Holds env (.slot k) := by
  cases h with
  | held h => exact h (.slot k) (by simp [Instr.refs_of_writes hk])
  | entry _ h => simp [h.writes?] at hk
  | curry _ => cases hk

/-- The instruction that a single emission adds. -/
theorem getElem?_emitted {s : Draft} {i i' : Instr} {p : Nat} (hp : s.instrs.size ≤ p)
    (h : (s.emitted i).instrs[p]? = some i') : p = s.instrs.size ∧ i' = i := by
  simp only [emitted] at h
  have hlt := (Array.getElem?_eq_some_iff.1 h).1
  simp only [Array.size_push] at hlt
  obtain rfl : p = s.instrs.size := by omega
  simpa [eq_comm] using h

namespace Act

variable {env : LowerEnv} {s t : Draft} {p : Nat} {i : Instr}

/-- The code of a closure: the open unit, the cells, and the instruction that binds
it to them. -/
theorem refers_closure {k : Nat} {i : Instr} {is : List Instr} (hk : env.Opens k is.length)
    (hi : s.Loads k i) (his : ∀ j ∈ is, j.pushesCell = true ∧ ∀ ρ ∈ j.refs, s.Holds env ρ)
    {i' : Instr} (hp : s.instrs.size ≤ p)
    (h : (s.emittedAll (i :: is ++ [Instr.curry is.length])).instrs[p]? = some i') :
    (s.emittedAll (i :: is ++ [Instr.curry is.length])).Refers env s.instrs.size p i' := by
  have hst := (Quiet.emittedAll s (i :: is ++ [Instr.curry is.length])).leads
  have hh := (Same.emittedAll s (i :: is ++ [Instr.curry is.length])).hoisted
  have hget : ∀ j : Nat,
      (s.emittedAll (i :: is ++ [Instr.curry is.length])).instrs[s.instrs.size + j]? =
        (i :: is ++ [Instr.curry is.length])[j]? := fun j => by
    rw [emittedAll_instrs]
    simp [Array.getElem?_append]
  have hcell : ∀ j (hj : j < is.length), (i :: is ++ [Instr.curry is.length])[j + 1]? = some is[j] :=
    fun j hj => by simp [List.getElem?_append, hj]
  obtain ⟨j, rfl⟩ := Nat.exists_eq_add_of_le hp
  rw [hget] at h
  rcases Nat.lt_trichotomy j (is.length + 1) with hj | hj | hj
  · -- The unit comes first, the cells follow.
    cases j with
    | zero =>
      obtain rfl : i = i' := by simpa using h
      refine .entry hk.lt ?_
      rwa [Loads, hh]
    | succ j =>
      rw [hcell j (by omega), Option.some.injEq] at h
      subst h
      exact .held fun ρ hρ => ((his _ (List.getElem_mem _)).2 ρ hρ).leads hst hh
  -- The last instruction finds the unit and the cells below it.
  · subst hj
    obtain rfl : Instr.curry is.length = i' := by simpa using h
    refine .curry ⟨s.instrs.size, k, i, Nat.le_refl _, by omega, hk, ?_, ?_, fun j hj => ?_⟩
    · simpa using hget 0
    · rwa [Loads, hh]
    · have := hget (j + 1)
      rw [hcell j hj] at this
      exact ⟨is[j], by rw [← this]; congr 1; omega, (his _ (List.getElem_mem _)).1⟩
  -- There is nothing behind it.
  · have hlt := (List.getElem?_eq_some_iff.1 h).1
    simp at hlt
    omega

/-- What an act adds to the code names what exists. -/
theorem refers (h : Act env s t) (hs : s.Sound) (hp : s.instrs.size ≤ p)
    (hi : t.instrs[p]? = some i) : t.Refers env s.instrs.size p i := by
  have hst := h.leads
  have hh := h.hoisted
  -- Acts that add no code leave nothing to show.
  have hold : t.instrs.size = s.instrs.size → t.Refers env s.instrs.size p i := fun hsize => by
    have := (Array.getElem?_eq_some_iff.1 hi).1
    omega
  cases h with
  | emit _ hrefs =>
    obtain ⟨-, rfl⟩ := getElem?_emitted hp hi
    exact .held fun ρ hρ => (hrefs ρ hρ).leads hst hh
  | entry hk hload =>
    obtain ⟨-, rfl⟩ := getElem?_emitted hp hi
    exact .entry hk hload
  | closure hk hload his => exact refers_closure hk hload his hp hi
  | endFinally =>
    obtain ⟨-, rfl⟩ := getElem?_emitted hp hi
    exact .held (by simp [Instr.refs])
  | jump hj hr h =>
    have hjump := jumpTo_jumped h
    have hlt := (Array.getElem?_eq_some_iff.1 hi).1
    have hsize := hjump.size
    obtain rfl : p = s.instrs.size := by omega
    obtain ⟨q, hq⟩ := (hjump.aims hs hr).instr
    rw [hi, Option.some.injEq] at hq
    refine .held fun ρ hρ => ?_
    rw [hq, Instr.refs_withTarget, Instr.refs_of_target hj] at hρ
    cases hρ
  | place hr h => exact hold (placeLabel_size h hr)
  | label _ _ _ _ _ => exact hold rfl
  | adjust _ hinstrs _ _ _ => exact hold (by rw [hinstrs])
  | regions _ _ => exact hold rfl

/-- An act that adds a jump emits it for a label. -/
theorem jump_new (h : Act env s t) (hp : s.instrs.size ≤ p) (hi : t.instrs[p]? = some i)
    (hj : i.target?.isSome = true) : ∃ i₀ r, r < s.labels.size ∧ i₀.target?.isSome = true ∧
      jumpTo i₀ r env s = .ok ((), t) ∧ s.instrs.size = p := by
  have hlt := (Array.getElem?_eq_some_iff.1 hi).1
  -- Other acts add straight code, or none.
  have hstraight : ∀ {P : Prop}, i.isStraight = true ∨ i = .endFinally → P := fun h => by
    rcases h with h | rfl
    · rw [Instr.target?_of_isStraight h] at hj
      cases hj
    · cases hj
  have hold : ∀ {P : Prop}, t.instrs.size = s.instrs.size → P := fun hsize => by omega
  cases h with
  | emit h _ =>
    obtain ⟨-, rfl⟩ := getElem?_emitted hp hi
    exact hstraight (.inl h)
  | entry _ h =>
    obtain ⟨-, rfl⟩ := getElem?_emitted hp hi
    exact hstraight (.inl h.isStraight)
  | closure _ h his =>
    rw [emittedAll_instrs, Array.getElem?_append_right hp] at hi
    have hmem := List.mem_of_getElem? (by simpa using hi)
    simp only [List.mem_cons, List.mem_append, List.not_mem_nil, or_false] at hmem
    rcases hmem with rfl | hmem | rfl
    · exact hstraight (.inl h.isStraight)
    · exact hstraight (.inl (Instr.isStraight_of_pushesCell (his i hmem).1))
    · cases hj
  | endFinally =>
    obtain ⟨-, rfl⟩ := getElem?_emitted hp hi
    exact hstraight (.inr rfl)
  | jump hi₀ hr h =>
    have := (jumpTo_jumped h).size
    exact ⟨_, _, hr, hi₀, h, by omega⟩
  | place hr h => exact hold (placeLabel_size h hr)
  | label _ _ _ _ _ => exact hold rfl
  | adjust _ hinstrs _ _ _ => exact hold (by rw [hinstrs])
  | regions _ _ => exact hold rfl

/-- An act that gives a label a place places it. -/
theorem place_new {r q : Nat} {l : DraftLabel} (h : Act env s t) (hl : t.labels[r]? = some l)
    (hq : l.position = some q) : (∃ l₀, s.labels[r]? = some l₀ ∧ l₀.position = some q) ∨
      r < s.labels.size ∧ placeLabel r env s = .ok ((), t) ∧ s.instrs.size = q := by
  have hquiet : Quiet s t → ∃ l₀, s.labels[r]? = some l₀ ∧ l₀.position = some q := fun hq' => by
    obtain ⟨l₀, d, fs, hl₀, rfl, -⟩ := hq'.label_back hl
    exact ⟨l₀, hl₀, hq⟩
  cases h with
  | emit _ _ => exact .inl (hquiet (.emitted s _))
  | entry _ _ => exact .inl (hquiet (.emitted s _))
  | closure _ _ _ => exact .inl (hquiet (.emittedAll s _))
  | endFinally => exact .inl (hquiet (.emitted s _))
  | jump _ _ h => exact .inl (hquiet (jumpTo_jumped h).quiet)
  -- Only placing the label gives it a position.
  | @place _ r' hr h =>
    have hl' : s.labels[r']? = some s.labels[r'] := by simp
    rcases placeLabel_cases h hl' with ⟨-, rfl⟩ | ⟨hp, s₁, ha, -, rfl⟩
    · exact .inl ⟨l, hl, hq⟩
    · obtain ⟨-, -, -, -, -, hback, -⟩ := arrive_ok ha hl'
      simp only [Array.getElem?_modify] at hl
      split at hl
      · rename_i heq
        subst heq
        obtain ⟨l₁, -, rfl⟩ := Option.map_eq_some_iff.1 hl
        exact .inr ⟨hr, h, Option.some.inj hq⟩
      · obtain ⟨l₀, d, hl₀, rfl⟩ := hback r l hl
        exact .inl ⟨l₀, hl₀, hq⟩
  | @label l' _ _ _ hp _ _ _ =>
    by_cases hr : r < s.labels.size
    · exact .inl ⟨l, by grind, hq⟩
    · obtain rfl : l = l' := by grind
      rw [hp] at hq
      cases hq
  | adjust h _ _ _ _ => exact .inl (hquiet h)
  | regions _ _ => exact .inl ⟨l, hl, hq⟩

theorem catch_slot (h : Act env s t) {x : Handler} (hx : x ∈ t.handlers) (hnew : x ∉ s.handlers)
    {ty : Ty} {k q : Nat} (hkind : x.kind = .catching ty k q) : t.Holds env (.slot k) := by
  have hold : ∀ {P : Prop}, t.handlers = s.handlers → P := fun h => absurd (h ▸ hx) hnew
  cases h with
  | emit _ _ => exact hold rfl
  | entry _ _ => exact hold rfl
  | closure _ _ _ => exact hold (Quiet.emittedAll s _).handlers
  | endFinally => exact hold rfl
  | jump _ _ h => exact hold (jumpTo_jumped h).quiet.handlers
  | place hr h => exact hold (placeLabel_handlers h hr)
  | label _ _ _ _ _ => exact hold rfl
  | adjust h _ _ _ _ => exact hold h.handlers
  | regions _ hslot =>
    rcases List.mem_append.1 hx with hx | hx
    · exact absurd hx hnew
    · exact hslot x hx ty k q hkind

end Act

namespace Path

variable {env : LowerEnv} {s t u : Draft} {p : Nat} {i : Instr}

/-- **Whatever an instruction names is inside its table.** -/
theorem refers (h : Path env s t) (hs : s.Fit env) (hp : s.instrs.size ≤ p)
    (hi : t.instrs[p]? = some i) : t.Refers env s.instrs.size p i := by
  induction h generalizing i with
  | refl =>
    have := (Array.getElem?_eq_some_iff.1 hi).1
    omega
  | @tail t u hpath hact ih =>
    by_cases hlt : p < t.instrs.size
    · obtain ⟨q, hq⟩ := hact.leads.kept p t.instrs[p] (by simp [hlt])
      rw [hi, Option.some.injEq] at hq
      rw [hq]
      exact (ih (by simp [hlt])).leads hact.leads hact.hoisted (Nat.le_refl _)
    · have hnew := hact.refers (fit hpath hs).sound (Nat.not_lt.1 hlt) hi
      obtain ⟨q, hq⟩ := i.exists_withTarget
      rw [← hq]
      exact hnew.leads (.refl u) rfl (leads hpath).size_le

/-- A position that the code has on the way ends no closure that starts before it. -/
theorem apart {n : Nat} (h₁ : Path env s t) (h₂ : Path env t u) (hs : s.Fit env)
    (hi : u.instrs[p]? = some (.curry n)) : p < t.instrs.size ∨ t.instrs.size + n + 1 ≤ p := by
  by_cases hlt : p < t.instrs.size
  · exact .inl hlt
  · right
    cases h₂.refers (h₁.fit hs) (Nat.not_lt.1 hlt) hi with
    | held h => exact (h (.cells n) (by simp [Instr.refs])).elim
    | entry _ h => rcases h with h | ⟨_, -, h⟩ <;> cases h
    | curry h =>
      obtain ⟨q, k, i, hq, rfl, -⟩ := h
      omega

/-! ## Jumps and their labels -/

/-- Every jump was emitted for a label. -/
theorem jump_taken (h : Path env s t) (hp : s.instrs.size ≤ p) (hi : t.instrs[p]? = some i)
    (hj : i.target?.isSome = true) : ∃ i₀ r s₁ s₂, Path env s s₁ ∧ r < s₁.labels.size ∧
      i₀.target?.isSome = true ∧ jumpTo i₀ r env s₁ = .ok ((), s₂) ∧ Path env s₂ t ∧
        s₁.instrs.size = p := by
  induction h generalizing i with
  | refl =>
    have := (Array.getElem?_eq_some_iff.1 hi).1
    omega
  | @tail t u hpath hact ih =>
    by_cases hlt : p < t.instrs.size
    · -- The jump is older; the last act may only have directed it elsewhere.
      obtain ⟨q, hq⟩ := hact.leads.kept p t.instrs[p] (by simp [hlt])
      rw [hi, Option.some.injEq] at hq
      rw [hq, Instr.isSome_target?_withTarget] at hj
      obtain ⟨i₀, r, s₁, s₂, h₁, hr, hi₀, hjump, h₂, hsize⟩ := ih (by simp [hlt]) hj
      exact ⟨i₀, r, s₁, s₂, h₁, hr, hi₀, hjump, h₂.tail hact, hsize⟩
    · obtain ⟨i₀, r, hr, hi₀, hjump, hsize⟩ := hact.jump_new (Nat.not_lt.1 hlt) hi hj
      exact ⟨i₀, r, t, u, hpath, hr, hi₀, hjump, refl u, hsize⟩

/-- A label that has a place was placed there. -/
theorem place_taken {r q : Nat} {l : DraftLabel} (h : Path env s t) (hl : t.labels[r]? = some l)
    (hq : l.position = some q) : (∃ l₀, s.labels[r]? = some l₀ ∧ l₀.position = some q) ∨
      ∃ s₁ s₂, Path env s s₁ ∧ r < s₁.labels.size ∧ placeLabel r env s₁ = .ok ((), s₂) ∧
        Path env s₂ t ∧ s₁.instrs.size = q := by
  induction h generalizing l with
  | refl => exact .inl ⟨l, hl, hq⟩
  | @tail t u hpath hact ih =>
    rcases hact.place_new hl hq with ⟨l₀, hl₀, hq₀⟩ | ⟨hr, hplace, hsize⟩
    · rcases ih hl₀ hq₀ with h | ⟨s₁, s₂, h₁, hr, hplace, h₂, hsize⟩
      · exact .inl h
      · exact .inr ⟨s₁, s₂, h₁, hr, hplace, h₂.tail hact, hsize⟩
    · exact .inr ⟨t, u, hpath, hr, hplace, refl u, hsize⟩

/-- In a draft where no jump waits, every jump goes to the place of the label that it
was emitted for. -/
theorem directed {r : Nat} {s₁ s₂ : Draft} (h₁ : Path env s s₁) (hs : s.Fit env)
    (hr : r < s₁.labels.size) (hjump : jumpTo i r env s₁ = .ok ((), s₂)) (h₂ : Path env s₂ t)
    (hplaced : ∀ l ∈ t.labels, l.position = none → l.fixups = []) :
    ∃ l q, t.labels[r]? = some l ∧ l.position = some q ∧
      t.instrs[s₁.instrs.size]? = some (i.withTarget q) := by
  have haims := h₂.leads.aims _ _ _ _ ((jumpTo_jumped hjump).aims (h₁.fit hs).sound hr)
  obtain ⟨l, hl, ⟨hnone, hwaits, -⟩ | ⟨q, hq, -, hi⟩⟩ := haims.known
  · rw [hplaced l (Array.mem_of_getElem? hl) hnone] at hwaits
    cases hwaits
  · exact ⟨l, q, hl, hq, hi⟩

/-- The exceptions that entries of the table take go to slots that code may name. -/
theorem catch_slot (h : Path env s t) {x : Handler} (hx : x ∈ t.handlers) (hnew : x ∉ s.handlers)
    {ty : Ty} {k q : Nat} (hkind : x.kind = .catching ty k q) : t.Holds env (.slot k) := by
  induction h with
  | refl => exact absurd hx hnew
  | @tail t u hpath hact ih =>
    by_cases hold : x ∈ t.handlers
    · exact (ih hold).leads hact.leads hact.hoisted
    · exact hact.catch_slot hx hold hkind

end Path

end TreeCode

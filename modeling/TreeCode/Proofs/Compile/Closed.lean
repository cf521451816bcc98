import TreeCode.Proofs.Compile.Step
import TreeCode.Proofs.Compile.Tour
import TreeCode.Proofs.Lower.Course
import TreeCode.Proofs.Machine.Entries

/-!
# Compiled code is closed

Whatever a compiled unit names by a number exists: positions of jumps and handlers,
slots, entries of its tables and of the record it is bound to, and the cells of the
variables it captures. The last two are supplied by other code: the record when the
unit is compiled, and the cells by the instruction that binds it. A run of the unit
therefore never looks beyond a table.

Main definitions:

* `Code.Closed` — a unit names nothing that does not exist, given the sizes of the
  record and of the cells it is bound to.
* `Code.InBounds` — no run of a unit looks beyond a table.
* `Code.Sealed` — a unit is closed, its jumps go where their labels were placed, and
  the closures it makes get the cells that they name.

Main results:

* `Lambda.Course.closed` — the code of a lambda is closed.
* `Code.Closed.inBounds` — closed code stays in bounds.
* `compiled_sealed` — **all code that compiling makes is sealed**.
-/

namespace TreeCode

open Lower Draft

/-- A number that an instruction names is inside its table. -/
def Code.InRange (code : Code) (entries cells : Nat) : Ref → Prop
  | .slot k => k < code.numLocals
  | .literal k => k < code.literals.size
  | .type k => k < code.types.size
  | .method k => k < code.methods.size
  | .struct k => k < code.structs.size
  | .constant k => k < entries
  | .captured k => k < cells
  -- How many values an instruction takes off the stack names nothing.
  | .cells _ => True

/-- A unit that names only what exists, if it is bound to a record with this number of
entries and to this number of cells. -/
structure Code.Closed (code : Code) (entries cells : Nat) : Prop where
  args : code.argShapes.length ≤ code.numLocals
  /-- Nothing comes after the last return. -/
  last : ∃ p, code.instrs.size = p + 1 ∧ code.instrs[p]? = some .ret
  lands : code.Lands (· < code.instrs.size)
  catches : ∀ h ∈ code.handlers, ∀ t k q, h.kind = .catching t k q → k < code.numLocals
  refs : ∀ (p : Nat) (i : Instr), code.instrs[p]? = some i →
    ∀ ρ ∈ i.refs, code.InRange entries cells ρ

/-! ## Jumps and labels -/

/-- A jump for a label is emitted at a position. -/
def Jumps (env : LowerEnv) (s t : Draft) (p : Nat) (i : Instr) (r : Nat) : Prop :=
  ∃ s₁ s₂, Path env s s₁ ∧ r < s₁.labels.size ∧ i.target?.isSome = true ∧
    jumpTo i r env s₁ = .ok ((), s₂) ∧ Path env s₂ t ∧ s₁.instrs.size = p

/-- A label is placed at a position, and stays there. -/
def Places (env : LowerEnv) (s t : Draft) (r q : Nat) : Prop :=
  (∃ l, t.labels[r]? = some l ∧ l.position = some q) ∧
    ∃ s₁ s₂, Path env s s₁ ∧ r < s₁.labels.size ∧ placeLabel r env s₁ = .ok ((), s₂) ∧
      Path env s₂ t ∧ s₁.instrs.size = q

namespace Lambda.Course

variable {l : Lambda} {env : LowerEnv} {s t : Draft} {p : Nat} {i : Instr}

/-- The instructions of a finished unit. -/
theorem instr_cases (h : l.Course env s t) (hi : (t.emitted .ret).instrs[p]? = some i) :
    (p < s.instrs.size ∧ s.instrs[p]? = some i) ∨
      (s.instrs.size ≤ p ∧ p < t.instrs.size ∧ t.instrs[p]? = some i) ∨
        p = t.instrs.size ∧ i = .ret := by
  have hle := h.runs.path.leads.size_le
  rcases getElem?_emitted_cases hi with hi | ⟨rfl, rfl⟩
  · have hlt := (Array.getElem?_eq_some_iff.1 hi).1
    by_cases hp : p < s.instrs.size
    · -- The prologue has no jumps that could be directed elsewhere.
      have hget : s.instrs[p]? = some s.instrs[p] := by simp [hp]
      have hstraight := Instr.target?_of_isStraight (h.begun.straight p _ hget)
      rw [h.runs.path.leads.instr hget hstraight] at hi
      exact .inl ⟨hp, hget.trans hi⟩
    · exact .inr (.inl ⟨Nat.not_lt.1 hp, hlt, hi⟩)
  · exact .inr (.inr ⟨rfl, rfl⟩)

/-- Every jump is emitted for a label. -/
theorem jumps (h : l.Course env s t) (hi : (t.emitted .ret).instrs[p]? = some i)
    (hj : i.target?.isSome = true) : ∃ i₀ r, Jumps env s t p i₀ r := by
  rcases h.instr_cases hi with ⟨-, hi⟩ | ⟨hle, -, hi⟩ | ⟨-, rfl⟩
  · rw [Instr.target?_of_isStraight (h.begun.straight p i hi)] at hj
    cases hj
  · obtain ⟨i₀, r, s₁, s₂, h₁, hr, hi₀, hjump, h₂, hsize⟩ := h.runs.path.jump_taken hle hi hj
    exact ⟨i₀, r, s₁, s₂, h₁, hr, hi₀, hjump, h₂, hsize⟩
  · cases hj

/-- A jump goes where its label is placed. -/
theorem directed {r : Nat} (h : l.Course env s t) (hj : Jumps env s t p i r) :
    ∃ q, Places env s t r q ∧ (t.emitted .ret).instrs[p]? = some (i.withTarget q) := by
  obtain ⟨s₁, s₂, h₁, hr, -, hjump, h₂, rfl⟩ := hj
  obtain ⟨x, q, hx, hq, hi⟩ := h₁.directed h.begun.fit hr hjump h₂ h.placed
  have hi' := (Quiet.emitted t .ret).leads.kept _ _ hi
  refine ⟨q, ⟨⟨x, hx, hq⟩, ?_⟩, ?_⟩
  · -- The prologue places no labels.
    rcases h.runs.path.place_taken hx hq with ⟨y, hy, -⟩ | hplace
    · simp [h.begun.labels] at hy
    · exact hplace
  · have hlt := (Array.getElem?_eq_some_iff.1 hi).1
    simp only [emitted, Array.getElem?_push_lt hlt]
    rwa [Array.getElem?_eq_getElem hlt] at hi

/-- Jumps and handlers lead to positions that the code has while it is made, after its
prologue. -/
theorem lands (h : l.Course env s t) (b : Bool) : ((t.emitted .ret).toCode l b).Lands fun q =>
    ∃ s₁, Path env s s₁ ∧ Path env s₁ t ∧ s₁.instrs.size = q where
  jumps p i q hi hq := by
    obtain ⟨i₀, r, hj⟩ := h.jumps hi (by simp [hq])
    obtain ⟨q', ⟨-, s₁, s₂, h₁, hr, hplace, h₂, hsize⟩, hi'⟩ := h.directed hj
    rw [show ((t.emitted .ret).toCode l b).instrs = (t.emitted .ret).instrs from rfl, hi',
      Option.some.injEq] at hi
    obtain rfl : q' = q := Instr.target?_of_withTarget (hi ▸ hq)
    exact ⟨s₁, h₁, (Path.act (.place hr hplace)).trans h₂, hsize⟩
  handlers x hx := by
    rcases h.runs.entered x hx with hx | ⟨s₁, s₂, h₁, -, h₁₂, h₂, hsize⟩
    · simp [h.begun.handlers] at hx
    · exact ⟨s₁, h₁, h₁₂.trans h₂, hsize⟩

/-- What a draft names, its code names. -/
theorem inRange {ρ : Ref} (b : Bool) (h : t.InRange env ρ) :
    ((t.emitted .ret).toCode l b).InRange env.entries env.plan.captures.length ρ := by
  cases ρ <;> first | exact h | trivial

theorem argShapes_length (b : Bool) :
    ((t.emitted .ret).toCode l b).argShapes.length = l.params.length := by
  have hparams : l.signature.params.length = l.params.length := by simp [Lambda.signature]
  cases b with
  | true => simp [Code.argShapes, Draft.toCode, hparams]
  | false =>
    simp only [Code.argShapes, Draft.toCode]
    split
    · -- No parameter has the shape of a record.
      rename_i shapes heq
      simp only [Bool.false_eq_true, if_false, List.nil_append] at heq
      obtain ⟨ty, tys, -, hty, -⟩ := List.map_eq_cons_iff.1 heq
      cases ty <;> simp [Shape.of] at hty
      split at hty <;> cases hty
    · simp [hparams]

/-- **The code of a lambda is closed.** -/
theorem closed (h : l.Course env s t) (b : Bool) :
    ((t.emitted .ret).toCode l b).Closed env.entries env.plan.captures.length where
  args := by
    have hparams := (prologue_begun h.prologue).2
    have hle := h.runs.path.leads.numLocals_le
    rw [argShapes_length]
    exact Nat.le_trans hparams hle
  last := ⟨t.instrs.size, by simp [Draft.toCode, emitted], by simp [Draft.toCode, emitted]⟩
  lands := by
    have hsize : ((t.emitted .ret).toCode l b).instrs.size = t.instrs.size + 1 := by
      simp [Draft.toCode, emitted]
    refine ⟨fun p i q hi hq => ?_, fun x hx => ?_⟩
    · obtain ⟨s₁, -, h₂, rfl⟩ := (h.lands b).jumps p i q hi hq
      exact hsize ▸ Nat.lt_succ_of_le h₂.leads.size_le
    · obtain ⟨s₁, -, h₂, heq⟩ := (h.lands b).handlers x hx
      exact hsize ▸ heq ▸ Nat.lt_succ_of_le h₂.leads.size_le
  catches x hx ty k q hkind :=
    (h.runs.path.catch_slot hx (by simp [h.begun.handlers]) hkind).1
  refs p i hi ρ hρ := by
    rcases h.instr_cases hi with ⟨-, hi⟩ | ⟨hle, -, hi⟩ | ⟨-, rfl⟩
    · exact inRange b ((h.begun.refs p i hi ρ hρ).leads h.runs.path.leads)
    · cases h.runs.path.refers h.begun.fit hle hi with
      | held hheld => exact inRange b (hheld ρ hρ).inRange
      | entry hk hload => exact inRange b (h.fit.loads_inRange hk hload hρ)
      | curry _ =>
        obtain rfl := List.mem_singleton.1 hρ
        trivial
    · cases hρ

/-- No region begins in the prologue. -/
theorem starts (h : l.Course env s t) {x : Handler} (hx : x ∈ t.handlers) :
    s.instrs.size ≤ x.start := by
  obtain ⟨-, hs, ident, hspans⟩ := h.lays
  rw [hspans.handlers, h.begun.handlers, List.nil_append] at hx
  exact Nat.le_of_lt (hspans.fits.within x hx).start

/-- An entry of the record that has a slot stays in it. -/
theorem keepsEntry (h : l.Course env s t) (b : Bool) {j slot : Nat} (hx : (j, slot) ∈ t.hoisted) :
    ∃ k, k + 2 ≤ s.instrs.size ∧ ((t.emitted .ret).toCode l b).KeepsEntry slot j k := by
  have hpath := h.runs.path
  have hslot : slot ∈ t.hoisted.map (·.2) := List.mem_map.2 ⟨_, hx, rfl⟩
  rw [hpath.hoisted] at hx
  obtain ⟨k, hload, hstore, honly⟩ := h.begun.hoists _ hx
  have hlt := (Array.getElem?_eq_some_iff.1 hstore).1
  -- The prologue is not changed any more.
  have hprologue : ∀ {p i}, s.instrs[p]? = some i → (t.emitted .ret).instrs[p]? = some i :=
    fun hi => (hpath.leads.trans (Quiet.emitted t .ret).leads).instr hi
      (Instr.target?_of_isStraight (h.begun.straight _ _ hi))
  refine ⟨k, hlt, hprologue hload, hprologue hstore, fun p i hp hi => ?_, fun p i hi hw => ?_,
    fun x hmem ty k' q hkind => ?_, ⟨fun p i q hi hq => ?_, fun x hx => ?_⟩,
    fun x hx => Nat.le_trans hlt (h.starts hx)⟩
  · rcases h.instr_cases hi with ⟨-, hi⟩ | ⟨hle, -⟩ | ⟨rfl, -⟩
    · exact h.begun.straight p i hi
    · omega
    · have := hpath.leads.size_le
      omega
  · rcases h.instr_cases hi with ⟨-, hi⟩ | ⟨hle, -, hi⟩ | ⟨-, rfl⟩
    · exact honly p i hi hw
    · exact absurd hslot ((hpath.refers h.begun.fit hle hi).holds_of_writes hw).2
    · cases hw
  · rintro rfl
    exact (hpath.catch_slot hmem (by simp [h.begun.handlers]) hkind).2 hslot
  · obtain ⟨s₁, h₁, -, rfl⟩ := (h.lands b).jumps p i q hi hq
    exact Nat.le_trans hlt h₁.leads.size_le
  · obtain ⟨s₁, h₁, -, heq⟩ := (h.lands b).handlers x hx
    exact heq ▸ Nat.le_trans hlt h₁.leads.size_le

theorem loadsEntry (h : l.Course env s t) (b : Bool) {j : Nat} (hload : t.Loads j i)
    (hp : s.instrs.size ≤ p) (hi : t.instrs[p]? = some i) :
    ((t.emitted .ret).toCode l b).LoadsEntry p j := by
  have hi' : (t.emitted .ret).instrs[p]? = some i :=
    (Quiet.emitted t .ret).leads.instr hi (Instr.target?_of_isStraight hload.isStraight)
  rcases hload with rfl | ⟨slot, hslot, rfl⟩
  · exact .inl hi'
  · obtain ⟨l₁, l₂, heq, -⟩ := List.lookup_eq_some_iff.1 hslot
    have hmem : (j, slot) ∈ t.hoisted := by simp [heq]
    obtain ⟨k, hk, hkeeps⟩ := h.keepsEntry b hmem
    exact .inr ⟨slot, k, hi', Nat.le_trans hk hp, hkeeps⟩

/-- A closure is made of an open unit that the record holds and of as many cells as it
captures variables. Control comes to its code from the front only. -/
theorem closure {n : Nat} (h : l.Course env s t) (b : Bool)
    (hi : (t.emitted .ret).instrs[p]? = some (.curry n)) :
    ∃ q j, q + n + 1 = p ∧ env.Opens j n ∧ ((t.emitted .ret).toCode l b).LoadsEntry q j ∧
      (∀ x < n, ∃ i, (t.emitted .ret).instrs[q + 1 + x]? = some i ∧ i.pushesCell = true) ∧
      ((t.emitted .ret).toCode l b).Lands fun x => x ≤ q ∨ p < x := by
  have hpath := h.runs.path
  rcases h.instr_cases hi with ⟨-, hi⟩ | ⟨hle, -, hi⟩ | ⟨-, hret⟩
  · -- The prologue makes no closures.
    exact (h.begun.refs p _ hi (.cells n) (by simp [Instr.refs])).elim
  · cases hpath.refers h.begun.fit hle hi with
    | held hheld => exact (hheld (.cells n) (by simp [Instr.refs])).elim
    | entry _ hload => rcases hload with hload | ⟨_, -, hload⟩ <;> cases hload
    | curry hsup =>
      obtain ⟨q, j, i, hlo, hp, hopens, hq, hload, hcells⟩ := hsup
      refine ⟨q, j, hp, hopens, h.loadsEntry b hload hlo hq, fun x hx => ?_, ?_⟩
      · obtain ⟨i, hi, hcell⟩ := hcells x hx
        exact ⟨i, (Quiet.emitted t .ret).leads.instr hi
          (Instr.target?_of_isStraight (Instr.isStraight_of_pushesCell hcell)), hcell⟩
      · have hapart : ∀ s₁, Path env s s₁ → Path env s₁ t →
            s₁.instrs.size ≤ q ∨ p < s₁.instrs.size := fun s₁ h₁ h₂ => by
          have := h₁.apart h₂ h.begun.fit hi
          omega
        refine ⟨fun p i x hi hx => ?_, fun x hx => ?_⟩
        · obtain ⟨s₁, h₁, h₂, rfl⟩ := (h.lands b).jumps p i x hi hx
          exact hapart s₁ h₁ h₂
        · obtain ⟨s₁, h₁, h₂, heq⟩ := (h.lands b).handlers x hx
          exact heq ▸ hapart s₁ h₁ h₂
  · cases hret

end Lambda.Course

/-! ## Runs stay in bounds -/

/-- What an instruction names by a number is there in a state of a run. -/
def Machine.Finds (m : Machine) (μ : MachineState) : Ref → Prop
  | .slot k => k < μ.locals.size
  | .literal k => k < m.code.literals.size
  | .type k => k < m.code.types.size
  | .method k => k < m.code.methods.size
  | .struct k => k < m.code.structs.size
  | .constant k => k < m.record.values.length
  | .captured k => k < m.record.cells.length
  | .cells _ => True

/-- In every state of every run of a unit that is bound to these entries and this
number of cells, there is a next instruction, and what it names is there; so are the
slots of handlers. -/
def Code.InBounds (code : Code) (values : List Value) (cells : Nat) : Prop :=
  ∀ (m : Machine) (w : World) (args : List Value) (μ : MachineState), m.code = code →
    m.record.values = values → m.record.cells.length = cells →
    args.length = code.argShapes.length →
    m.Reaches { world := w, locals := code.initialLocals args } μ →
    (∃ i, code.instrs[μ.pointer]? = some i ∧ ∀ ρ ∈ i.refs, m.Finds μ ρ) ∧
      ∀ h ∈ code.handlers, ∀ t k q, h.kind = .catching t k q → k < μ.locals.size

namespace Code.Closed

variable {code : Code} {entries cells : Nat} {m : Machine}

/-- What a turn keeps: the pointer and the positions that blocks go on to are in the
code, and there are as many slots as the code has. -/
structure Within (code : Code) (μ : MachineState) : Prop where
  pointer : μ.pointer < code.instrs.size
  awaits : Awaits (· < code.instrs.size) μ.pending
  locals : μ.locals.size = code.numLocals

theorem within_turn (hc : code.Closed entries cells) (hm : m.code = code) {μ μ' : MachineState}
    (h : m.turn μ = .goes μ') (hμ : Within code μ) : Within code μ' := by
  obtain ⟨hawaits, hland⟩ := Machine.turn_lands (hm ▸ hc.lands) hμ.awaits h
  have hkeeps : Keeps (fun _ => True) μ.locals μ'.locals :=
    Machine.turn_keeps (.inl fun _ => trivial) (fun _ _ _ _ => trivial)
      (fun _ _ _ _ _ _ => trivial) h
  refine ⟨?_, hawaits, hkeeps.size.trans hμ.locals⟩
  rcases hland with hland | ⟨hnext, hstep⟩
  · exact hland
  · -- Only the last return is followed by nothing, and it goes on to nothing.
    obtain ⟨p, hsize, hret⟩ := hc.last
    by_contra hout
    have hp : μ.pointer = p := by
      have := hμ.pointer
      omega
    exact Machine.step_ret (hm ▸ hp ▸ hret) hstep

/-- **Closed code stays in bounds.** -/
theorem inBounds {values : List Value} (hc : code.Closed values.length cells) :
    code.InBounds values cells := by
  intro m w args μ hm hvalues hcells hargs hrun
  have hstart : Within code { world := w, locals := code.initialLocals args } := by
    obtain ⟨p, hsize, -⟩ := hc.last
    have hle := hc.args
    refine ⟨by simp [hsize], by simp [Awaits], ?_⟩
    simp [Code.initialLocals, hargs]
    omega
  have hμ : Within code μ := by
    induction hrun with
    | refl => exact hstart
    | tail _ hturn ih => exact hc.within_turn hm hturn ih
  have hlt := hμ.pointer
  have hi : code.instrs[μ.pointer]? = some code.instrs[μ.pointer] := Array.getElem?_eq_getElem hlt
  refine ⟨⟨_, hi, fun ρ hρ => ?_⟩, ?_⟩
  · have hρ' := hc.refs μ.pointer _ hi ρ hρ
    subst hm hvalues hcells
    cases ρ with
    | slot k => exact Nat.lt_of_lt_of_eq hρ' hμ.locals.symm
    | _ => exact hρ'
  · intro h hh t k q hkind
    exact hμ.locals ▸ hc.catches h hh t k q hkind

end Code.Closed

/-! ## Sealed code -/

/-- The closure that a unit makes with `n` cells at a position: the open unit comes from
the record, the cells are pushed after it, control comes to the instruction only through
these, and the open unit names no cell beyond them. -/
def Code.Supplies (w : World) (code : Code) (values : List Value) (p n : Nat) : Prop :=
  ∃ q j ref name u, q + n + 1 = p ∧ code.LoadsEntry q j ∧
    (∀ x < n, ∃ i, code.instrs[q + 1 + x]? = some i ∧ i.pushesCell = true) ∧
    (code.Lands fun x => x ≤ q ∨ p < x) ∧ values[j]? = some (.openUnit ref name) ∧
    w.units[ref]? = some u ∧ u.code.Closed u.constants.length n ∧ u.code.InBounds u.constants n

/-- Every jump of a unit goes where the label it was emitted for was placed, and every
entry of the table of protected regions leads to the code of its handler. -/
def Code.Directed (code : Code) : Prop :=
  ∃ (l : Lambda) (env : LowerEnv) (s t : Draft), l.Course env s t ∧
    code = (t.emitted .ret).toCode l env.hasRecord ∧
    (∀ (p : Nat) (i : Instr), code.instrs[p]? = some i → i.target?.isSome = true →
      ∃ i₀ r, Jumps env s t p i₀ r) ∧
    (∀ p i r, Jumps env s t p i r → ∃ q, Places env s t r q ∧
      code.instrs[p]? = some (i.withTarget q)) ∧
    ∀ h ∈ code.handlers, Entered env s t h

/-- A unit that is bound to a record with these entries, and to this number of cells, has
all it needs. -/
structure Code.Sealed (w : World) (code : Code) (values : List Value) (cells : Nat) : Prop where
  closed : code.Closed values.length cells
  directed : code.Directed
  closures : ∀ p n : Nat, code.instrs[p]? = some (.curry n) → code.Supplies w values p n
  inBounds : code.InBounds values cells

/-- Functions and open units stay when others are made. -/
structure World.Extends (w w' : World) : Prop where
  functions : Grows w.functions w'.functions
  units : Grows w.units w'.units

theorem World.Extends.refl (w : World) : w.Extends w := ⟨.refl _, .refl _⟩

theorem World.Extends.trans {w w' w'' : World} (h₁ : w.Extends w') (h₂ : w'.Extends w'') :
    w.Extends w'' :=
  ⟨h₁.functions.trans h₂.functions, h₁.units.trans h₂.units⟩

theorem Code.Sealed.extends {w w' : World} {code : Code} {values : List Value} {cells : Nat}
    (h : code.Sealed w values cells) (hw : w.Extends w') : code.Sealed w' values cells := by
  refine ⟨h.closed, h.directed, fun p n hi => ?_, h.inBounds⟩
  obtain ⟨q, j, ref, name, u, hp, hload, hcells, hlands, hv, hu, hclosed⟩ := h.closures p n hi
  exact ⟨q, j, ref, name, u, hp, hload, hcells, hlands, hv, hw.units ref u hu, hclosed⟩

theorem ClosureRecord.values_ofConstants (vs : List Value) :
    (ClosureRecord.ofConstants vs).values = vs := by
  cases vs <;> rfl

theorem ClosureRecord.cells_ofConstants (vs : List Value) :
    (ClosureRecord.ofConstants vs).cells = [] := by
  cases vs <;> rfl

/-- The open units among compiled forms name no more cells than they capture
variables. -/
def World.Opened (w : World) (compiled : Array NestedForm) : Prop :=
  ∀ (k : Nat) (v : Value) (captures : List Var), compiled[k]? = some (.opened v captures) →
    ∃ ref name u, v = .openUnit ref name ∧ w.units[ref]? = some u ∧
      u.code.Closed u.constants.length captures.length

theorem World.Opened.extends {w w' : World} {compiled : Array NestedForm}
    (h : w.Opened compiled) (hw : w.Extends w') : w'.Opened compiled := by
  intro k v captures hk
  obtain ⟨ref, name, u, hv, hu, hclosed⟩ := h k v captures hk
  exact ⟨ref, name, u, hv, hw.units ref u hu, hclosed⟩

/-- Code that was made in a world is sealed there, given the entries of open units. -/
theorem Lambda.toCode_sealed {l : Lambda} {env : LowerEnv} {w : World} {values : List Value}
    {code : Code} (h : l.toCode env = .ok code) (hlen : values.length = env.entries)
    (hopens : ∀ j n, env.Opens j n → ∃ ref name u, values[j]? = some (.openUnit ref name) ∧
      w.units[ref]? = some u ∧ u.code.Closed u.constants.length n) :
    code.Sealed w values env.plan.captures.length := by
  obtain ⟨s, t, hcourse, rfl⟩ := Lambda.toCode_course h
  have hclosed := hlen ▸ hcourse.closed env.hasRecord
  refine ⟨hclosed, ⟨l, env, s, t, hcourse, rfl, fun p i hi hj => hcourse.jumps hi hj,
    fun p i r hj => hcourse.directed hj, fun x hx => ?_⟩, fun p n hi => ?_, hclosed.inBounds⟩
  · rcases hcourse.runs.entered x hx with hx | hx
    · simp [hcourse.begun.handlers] at hx
    · exact hx
  · obtain ⟨q, j, hp, hj, hload, hcells, hlands⟩ := hcourse.closure env.hasRecord hi
    obtain ⟨ref, name, u, hv, hu, hclosed⟩ := hopens j n hj
    exact ⟨q, j, ref, name, u, hp, hload, hcells, hlands, hv, hu, hclosed, hclosed.inBounds⟩

namespace CompileM

variable {catalog : Catalog} {l : Lambda} {plan : Plan} {units : Array UnitPlan}
  {compiled : Array NestedForm} {w w' : World} {code : Code} {values : List Value}

/-- The code of a unit finds its entries in the record. -/
theorem codeAndEntries_sealed
    (h : codeAndEntries catalog l plan units compiled = .ok (code, values))
    (hw : w.Opened compiled) : code.Sealed w values plan.captures.length := by
  obtain ⟨hcode, hvalues⟩ := codeAndEntries_ok h
  obtain ⟨forms, rfl, hforms⟩ := recordEntries_ok hvalues
  obtain ⟨hlen, hget⟩ := nestedEntries_ok hforms
  refine Lambda.toCode_sealed hcode (by simp [LowerEnv.entries, hlen]) fun j n hj => ?_
  obtain ⟨-, k, u, v, captures, hk, rfl, hform, rfl⟩ := hj
  obtain ⟨form, hform', hv⟩ := hget k u hk
  obtain rfl : form = .opened v captures := Option.some.inj (hform'.symm.trans hform)
  obtain ⟨ref, name, o, rfl, ho, hclosed⟩ := hw u.unit v captures hform
  refine ⟨ref, name, o, ?_, ho, hclosed⟩
  rw [List.getElem?_append_right (by simp)]
  simpa [NestedForm.value] using hv

/-- What was made since a world: functions of one kind and open units of another. -/
structure Made (P : World → Code → ClosureRecord → Prop) (Q : World → OpenUnit → Prop)
    (w₀ w : World) : Prop where
  grown : w₀.Extends w
  functions : ∀ (k : Nat) (f : Callable), w₀.functions.size ≤ k → w.functions[k]? = some f →
    ∃ code record, f = .compiled code record ∧ P w code record
  units : ∀ (k : Nat) (u : OpenUnit), w₀.units.size ≤ k → w.units[k]? = some u → Q w u

/-- An entry of a table with one more. -/
theorem getElem?_push_cases {α : Type} {a : Array α} {x y : α} {k : Nat}
    (h : (a.push x)[k]? = some y) : a[k]? = some y ∨ y = x := by
  grind

theorem extends_newFunction (w : World) (f : Callable) : w.Extends (w.newFunction f).2 :=
  ⟨.push _ _, .refl _⟩

theorem extends_newOpenUnit (w : World) (u : OpenUnit) : w.Extends (w.newOpenUnit u).2 :=
  ⟨.refl _, .push _ _⟩

namespace Made

variable {P : World → Code → ClosureRecord → Prop} {Q : World → OpenUnit → Prop} {w₀ : World}

theorem refl (w : World) : Made P Q w w where
  grown := .refl w
  functions k f hk hf := by
    have := (Array.getElem?_eq_some_iff.1 hf).1
    omega
  units k u hk hu := by
    have := (Array.getElem?_eq_some_iff.1 hu).1
    omega

theorem newFunction (h : Made P Q w₀ w)
    (hP : ∀ {w w' code record}, World.Extends w w' → P w code record → P w' code record)
    (hQ : ∀ {w w' u}, World.Extends w w' → Q w u → Q w' u) {record : ClosureRecord}
    (hnew : P (w.newFunction (.compiled code record)).2 code record) :
    Made P Q w₀ (w.newFunction (.compiled code record)).2 where
  grown := h.grown.trans (extends_newFunction w _)
  functions k f hk hf := by
    rcases getElem?_push_cases hf with hf | rfl
    · obtain ⟨code', record', rfl, hp⟩ := h.functions k f hk hf
      exact ⟨code', record', rfl, hP (extends_newFunction w _) hp⟩
    · exact ⟨code, record, rfl, hnew⟩
  units k u hk hu := hQ (extends_newFunction w _) (h.units k u hk hu)

theorem newOpenUnit (h : Made P Q w₀ w)
    (hP : ∀ {w w' code record}, World.Extends w w' → P w code record → P w' code record)
    (hQ : ∀ {w w' u}, World.Extends w w' → Q w u → Q w' u) {u : OpenUnit}
    (hnew : Q (w.newOpenUnit u).2 u) : Made P Q w₀ (w.newOpenUnit u).2 where
  grown := h.grown.trans (extends_newOpenUnit w u)
  functions k f hk hf := by
    obtain ⟨code', record', rfl, hp⟩ := h.functions k f hk hf
    exact ⟨code', record', rfl, hP (extends_newOpenUnit w u) hp⟩
  units k u' hk hu := by
    rcases getElem?_push_cases hu with hu | rfl
    · exact hQ (extends_newOpenUnit w u) (h.units k u' hk hu)
    · exact hnew

end Made

/-- What compiling makes: sealed functions, which have no cells, and sealed open units. -/
abbrev MadeSealed : World → World → Prop :=
  Made (fun w code record => record.cells = [] ∧ code.Sealed w record.values 0)
    fun w u => ∃ n, u.code.Sealed w u.constants n

theorem nestedForm_sealed {w₀ : World} {u : UnitPlan} {form : NestedForm}
    (h : nestedForm catalog units compiled u w = .ok (form, w')) (hw : w.Opened compiled)
    (hmade : MadeSealed w₀ w) : w'.Opened (compiled.push form) ∧ MadeSealed w₀ w' := by
  obtain ⟨code, values, hcode, hform⟩ := nestedForm_ok h
  have hsealed := codeAndEntries_sealed hcode hw
  rcases hform with ⟨hcap, rfl, rfl⟩ | ⟨rfl, rfl⟩
  · have hext := extends_newFunction w (.compiled code (.ofConstants values))
    refine ⟨fun k v captures hk => ?_, hmade.newFunction (fun hw h => ⟨h.1, h.2.extends hw⟩)
      (fun hw ⟨n, h⟩ => ⟨n, h.extends hw⟩) ⟨ClosureRecord.cells_ofConstants values, ?_⟩⟩
    · rcases getElem?_push_cases hk with hk | hk
      · exact World.Opened.extends hw hext k v captures hk
      · cases hk
    · rw [ClosureRecord.values_ofConstants]
      rw [hcap] at hsealed
      exact hsealed.extends hext
  · have hext := extends_newOpenUnit w ⟨code, values⟩
    refine ⟨fun k v captures hk => ?_, hmade.newOpenUnit (fun hw h => ⟨h.1, h.2.extends hw⟩)
      (fun hw ⟨n, h⟩ => ⟨n, h.extends hw⟩) ⟨_, hsealed.extends hext⟩⟩
    rcases getElem?_push_cases hk with hk | hk
    · exact World.Opened.extends hw hext k v captures hk
    · cases hk
      exact ⟨w.units.size, code.name, ⟨code, values⟩, rfl, Array.getElem?_push_size,
        hsealed.closed⟩

theorem boundUnit_sealed {c : BoundUnit} (h : boundUnit catalog l w = .ok (c, w')) :
    c.code.Sealed w' c.record.values 0 ∧ MadeSealed w w' := by
  obtain ⟨plan, units, forms, values, hplan, hforms, hcode, hrecord⟩ := boundUnit_ok h
  obtain ⟨hw, hmade⟩ : w'.Opened forms ∧ MadeSealed w w' :=
    nestedForms_induct (Q := fun compiled w' => w'.Opened compiled ∧ MadeSealed w w')
      (fun _ hform ⟨hw, hmade⟩ => nestedForm_sealed hform hw hmade) hforms
      ⟨by simp [World.Opened], .refl w⟩
  have hsealed := codeAndEntries_sealed hcode hw
  rw [planLambda_captures hplan] at hsealed
  exact ⟨by rwa [hrecord, ClosureRecord.values_ofConstants], hmade⟩

end CompileM

/-- **All code that compiling makes is sealed**: the code of the lambda itself, bound to
its record and to no cells, the functions made for lambdas nested in it, and the open
units, each for the number of cells that it is bound to. -/
theorem compiled_sealed {catalog : Catalog} {l : Lambda} {w w' : World} {c : BoundUnit}
    (h : compileLambda catalog l w = .ok (.compiled c, w') ∨
      ∃ constants, compileWith catalog l constants w = .ok (.compiled c, w')) :
    c.code.Sealed w' c.record.values 0 ∧
      (∀ (k : Nat) (f : Callable), w.functions.size ≤ k → w'.functions[k]? = some f →
        ∃ code record, f = .compiled code record ∧ record.cells = [] ∧
          code.Sealed w' record.values 0) ∧
      ∀ (k : Nat) (u : OpenUnit), w.units.size ≤ k → w'.units[k]? = some u →
        ∃ n, u.code.Sealed w' u.constants n := by
  rcases h with h | ⟨constants, h⟩
  · obtain ⟨hsealed, hmade⟩ := CompileM.boundUnit_sealed (CompileM.settle_ok h)
    exact ⟨hsealed, hmade.functions, hmade.units⟩
  · obtain ⟨hcode, hrecord, rfl⟩ := compileWith_ok h
    have hmade : CompileM.MadeSealed w' w' := .refl w'
    refine ⟨?_, hmade.functions, hmade.units⟩
    rw [hrecord, ClosureRecord.values_ofConstants]
    refine Lambda.toCode_sealed hcode rfl fun j n hj => ?_
    cases hj.1

/-- A lambda that calls a closure over its parameter, in a protected region of one
branch. -/
def Lambda.enclosing : Lambda :=
  let x : Var := ⟨0, "x", .i32⟩
  let inner : Lambda := .mk 1 none [] .i32 (.var x)
  .mk 0 none [x] .i32 (.conditional .i32 (.constant .bool (.bool true))
    (.protect (.invoke .i32 (.lambda inner) []) [] (.finally (.default .void)))
    (.constant .i32 (.i32 0)))

/-- Its code. -/
def Code.enclosing : Code where
  signature := Lambda.enclosing.signature
  shapes := [.record, .num .i32]
  instrs := #[.loadLocal 0, .newCell 0, .constBool true, .jumpIfFalse 14, .nop, .loadConstant 0,
    .loadLocal 0, .curry 1, .invoke 0, .storeLocal 1, .leave 12, .endFinally, .loadLocal 1,
    .jump 15, .constI32 0, .ret]
  handlers := [⟨5, 11, 0, .finally 11 12⟩]
  numParams := 1
  numLocals := 2
  maxStack := 2

/-- The code of the closure. -/
def Code.enclosed : Code where
  signature := ⟨[], .i32⟩
  shapes := [.record]
  instrs := #[.loadCaptured 0, .ret]
  maxStack := 1

theorem compiled_sealed_enclosing :
    compileLambda .empty .enclosing {} = .ok (.compiled ⟨.enclosing, .constants [.openUnit 0 none]⟩,
      { units := #[⟨.enclosed, []⟩] }) ∧
    Code.enclosing.Sealed { units := #[⟨.enclosed, []⟩] } [.openUnit 0 none] 0 ∧
    ∃ n, Code.enclosed.Sealed { units := #[⟨.enclosed, []⟩] } [] n := by
  have hcompiled : compileLambda .empty .enclosing {} =
      .ok (.compiled ⟨.enclosing, .constants [.openUnit 0 none]⟩,
        { units := #[⟨.enclosed, []⟩] }) := by
    cbv
  obtain ⟨hroot, -, hunits⟩ := compiled_sealed (.inl hcompiled)
  exact ⟨hcompiled, hroot, hunits 0 _ (Nat.le_refl _) rfl⟩

end TreeCode

import TreeCode.Expr.Build
import TreeCode.Proofs.Pact.Value
import TreeCode.Proofs.Ty.Layout

/-!
# Making instances

The arguments for the leading fields of an instance are pushed, and one instruction takes
them. It has sixteen bits for their number, while a definition may have any number of
fields: a number that does not fit is narrowed, and nothing is refused. So the instruction
takes the last arguments, as many as there are modulo `2 ^ 16`, and leaves the others on
the stack below the instance. Construction is exact as long as the number fits.

Main definitions:

* `Construction.taken`, `Construction.stranded` — the arguments that become fields, and
  those that stay on the stack.
* `Construction.Prepared` — the code of an instance up to its instruction.
* `Pact.Constructs` — evaluation and the machines have made an instance.

Main results:

* `Construction.Prepared.step` — what the instruction takes and what it leaves.
* `Construction.Prepared.exact_iff` — all arguments are taken if and only if their number fits.
* `Pact.meets_new` — evaluation makes the instance of all arguments, the machines that of
  the arguments taken.
* `Pact.meets_new_fields` — **while the number fits, the leading fields of both instances
  are the arguments**.
-/

namespace TreeCode

open Draft Lower

/-! ## Instances -/

/-- The world after an instance was made. -/
def World.constructed (w : World) (d : StructDef) (vs : List Value) : World :=
  { w with store := (w.store.newStruct d vs).2 }

/-- The state after an instance was made. -/
def MachineState.constructed (μ : MachineState) (d : StructDef) (vs : List Value) : MachineState :=
  { μ with world := μ.world.constructed d vs }

/-- The state after an instance was made. -/
def EvalState.constructed (σ : EvalState) (d : StructDef) (vs : List Value) : EvalState :=
  { σ with world := σ.world.constructed d vs }

/-- The leading fields of a new instance are the values given for them. -/
theorem World.field_constructed (w : World) {d : StructDef} {vs : List Value} {k : Nat} {x : Value}
    (hvs : vs.length ≤ d.layoutSize) (hx : vs[k]? = some x) :
    (w.constructed d vs).store.field (w.store.newStruct d vs).1 k = .ok x := by
  obtain ⟨hlt, -⟩ := List.getElem?_eq_some_iff.1 hx
  -- A value is given for the position, so the layout has a field there.
  have hin : k < d.layout.length := by
    rw [StructDef.length_layout]
    omega
  have hfield : d.layout[k]? = some d.layout[k] := List.getElem?_eq_getElem hin
  simpa [constructed, hx] using w.store.field_newStruct vs hfield

/-- There is at most one argument for each field. -/
theorem Build.requireFields_ok {d : StructDef} {args : List Expr} {u : Unit}
    (h : Build.requireFields d args = .ok u) : args.length ≤ d.layoutSize := by
  simp only [Build.requireFields, StructDef.length_layout] at h
  split at h
  · cases h
  · omega

/-- What the builder accepts as an instance of a definition. -/
theorem Build.new_ok {d : StructDef} {args : List Expr} {e : Expr} (h : Build.new d args = .ok e) :
    e = .new d none args ∧ args.length ≤ d.layoutSize := by
  cases hfields : Build.requireFields d args with
  | error _ => simp [Build.new, hfields, bind, Except.bind] at h
  | ok _ =>
    simp only [Build.new, hfields, bind, Except.bind, pure, Except.pure, Except.ok.injEq] at h
    exact ⟨h.symm, Build.requireFields_ok hfields⟩

namespace Construction

/-! ## Arguments -/

/-- The arguments that become fields. -/
def taken (vs : List Value) : List Value := vs.drop (vs.length - vs.length % 65536)

/-- The arguments that stay on the stack, below the instance. -/
def stranded (vs : List Value) : List Value := vs.take (vs.length - vs.length % 65536)

variable {vs : List Value}

theorem stranded_append_taken (vs : List Value) : stranded vs ++ taken vs = vs :=
  List.take_append_drop _ vs

@[simp] theorem length_taken : (taken vs).length = vs.length % 65536 := by
  have := Nat.mod_le vs.length 65536
  simp only [taken, List.length_drop]
  omega

theorem length_stranded : (stranded vs).length = vs.length - vs.length % 65536 := by
  simp [stranded]

theorem taken_of_lt (h : vs.length < 65536) : taken vs = vs := by
  simp [taken, Nat.mod_eq_of_lt h]

theorem stranded_of_lt (h : vs.length < 65536) : stranded vs = [] := by
  simp [stranded, Nat.mod_eq_of_lt h]

/-! ## The code of an instance -/

/-- The code of an instance up to its instruction: the arguments are pushed, and `i` is the
entry of the definition. -/
structure Prepared (d : StructDef) (ps : List Part) (f : Usage) (env : LowerEnv) (s t : Draft)
    (i : Nat) : Prop where
  pushed : ∃ t₀, Part.pushAll ps f env s = .ok ((), t₀) ∧ Tabled t₀ t
  entry : t.structs[i]? = some d

variable {d : StructDef} {ps : List Part} {f : Usage} {env : LowerEnv} {s s' t F : Draft} {i : Nat}
  {m : Machine} {μ : MachineState} {rest : List Value}

/-- The number of arguments in the instruction is narrowed to sixteen bits. -/
theorem newInstance_ok {u : Unit} (h : newInstance d none ps f env s = .ok (u, s')) :
    ∃ t i, Prepared d ps f env s t i ∧ s' = t.emitted (.newStruct i (ps.length % 65536)) := by
  simp only [newInstance, bind_ok, emit_ok] at h
  obtain ⟨_, t₀, hpush, i, t, hentry, rfl⟩ := h
  obtain ⟨htab, hd⟩ := structEntry_ok hentry
  exact ⟨t, i, ⟨⟨t₀, hpush, htab⟩, hd⟩, rfl⟩

/-- An instance is made from the operands that the instruction counts. -/
theorem exec_newStruct {n p : Nat} {vs : List Value} (hd : m.code.structs[i]? = some d)
    (hn : vs.length = n) :
    m.exec (.newStruct i n) (μ.movedTo p (vs.reverse ++ rest)) =
      .ok none ((μ.constructed d vs).movedTo p ((μ.world.store.newStruct d vs).1 :: rest)) := by
  have hpop := Machine.popMany_eq (μ := μ.movedTo p (vs.reverse ++ rest)) hn rfl
  show EStateM.bind (MachineM.popMany n >>= fun fields => _) _ _ = _
  simp only [EStateM.bind, bind, hpop, hd, MachineM.entry]
  rfl

namespace Prepared

/-- Lowering counts the instance in place of the arguments taken. -/
theorem depth (H : Prepared d ps f env s t i) :
    ∃ t₀, Part.pushAll ps f env s = .ok ((), t₀) ∧
      (t.emitted (.newStruct i (ps.length % 65536))).depth = t₀.depth - ps.length % 65536 + 1 := by
  obtain ⟨t₀, hpush, htab⟩ := H.pushed
  exact ⟨t₀, hpush, by simp [Draft.emitted, effectOf, htab.depth]⟩

/-- What the instruction of an instance does in finished code. -/
theorem exec (H : Prepared d ps f env s t i) (R : m.Follows F)
    (hF : (t.emitted (.newStruct i (ps.length % 65536))).Leads F) (hvs : vs.length = ps.length)
    (p : Nat) :
    m.exec (.newStruct i (ps.length % 65536)) (μ.movedTo p (vs.reverse ++ rest)) =
      .ok none ((μ.constructed d (taken vs)).movedTo p
        ((μ.world.store.newStruct d (taken vs)).1 :: ((stranded vs).reverse ++ rest))) := by
  have hd : m.code.structs[i]? = some d := by
    rw [R.structs]
    exact hF.structs i d H.entry
  -- The last arguments are on top, so those that are taken lie above those that stay.
  have hsplit : vs.reverse ++ rest = (taken vs).reverse ++ ((stranded vs).reverse ++ rest) := by
    rw [← List.append_assoc, ← List.reverse_append, stranded_append_taken]
  rw [hsplit]
  exact exec_newStruct hd (by rw [length_taken, hvs])

/-- **What the instruction of an instance takes and leaves.** Of the arguments on the stack
it takes the last ones, as many as there are modulo `2 ^ 16`, for the leading fields. The
others stay, and the instance is put on them. -/
theorem step (H : Prepared d ps f env s t i) (R : m.Follows F)
    (hF : (t.emitted (.newStruct i (ps.length % 65536))).Leads F) (hvs : vs.length = ps.length) :
    m.step (μ.movedTo t.instrs.size (vs.reverse ++ rest)) =
      .ok none ((μ.constructed d (taken vs)).movedTo (t.instrs.size + 1)
        ((μ.world.store.newStruct d (taken vs)).1 :: ((stranded vs).reverse ++ rest))) := by
  rw [Machine.step_of_some (R.emitted hF rfl)]
  exact H.exec R hF hvs _

/-- All arguments are taken off the stack if and only if their number fits into sixteen bits. -/
theorem exact_iff (H : Prepared d ps f env s t i) (R : m.Follows F)
    (hF : (t.emitted (.newStruct i (ps.length % 65536))).Leads F) :
    (∀ (μ : MachineState) (vs rest : List Value), vs.length = ps.length →
      ∃ v μ', m.step (μ.movedTo t.instrs.size (vs.reverse ++ rest)) = .ok none μ' ∧
        μ'.stack = v :: rest) ↔ ps.length < 65536 := by
  constructor
  · intro hexact
    -- Whatever the arguments are, as many of them are stranded; units will do.
    have hvs : (List.replicate ps.length Value.unit).length = ps.length := by simp
    obtain ⟨v, μ', hstep, hstack⟩ := hexact ⟨{}, 0, [], #[], []⟩ _ [] hvs
    rw [H.step R hF hvs, EStateM.Result.ok.injEq] at hstep
    obtain ⟨-, rfl⟩ := hstep
    -- Nothing is left below the instance, so nothing was stranded.
    have hnone : (stranded (List.replicate ps.length Value.unit)).length = 0 := by
      simpa using congrArg List.length hstack
    rw [length_stranded, hvs] at hnone
    omega
  · intro hlt μ vs rest hvs
    refine ⟨(μ.world.store.newStruct d (taken vs)).1, _, H.step R hF hvs, ?_⟩
    rw [stranded_of_lt (by omega)]
    rfl

end Prepared

end Construction

/-! ## Evaluation and code -/

namespace Pact

open Construction

variable {P : Pact} {σ : EvalState} {G : P.Frame} {a : P.State} {μ : MachineState}
  {s s' : Draft} {st : List Value} {d : StructDef} {args : List Expr} {f : Usage} {n : Nat}

/-- Evaluation of an instance evaluates its arguments from left to right, and takes them
all. -/
theorem newInstance_eq (c : Walk) (d : StructDef) (args : List Expr) :
    c.newInstance d none args =
      c.valuesOf args >>= fun vs => EvalM.ofRun (RunM.newStruct d vs) := rfl

variable (P) in
/-- Evaluation and the machines have evaluated arguments to values that stand for each
other, and each has made an instance of `d`: evaluation of all of them, the machines of
those that the instruction takes. -/
def Constructs (G : P.Frame) (a : P.State) (n : Nat) (σ : EvalState) (d : StructDef)
    (args : List Expr) (f : Usage) (s' : Draft) (st : List Value) (v : Value) (σ' : EvalState)
    (μ' : MachineState) : Prop :=
  ∃ b vs vs' σ₁ μ₁, (P.walk n).valuesOf args σ = .ok vs σ₁ ∧ P.le a b ∧
    P.FitsAll b (args.map (·.ty)) vs vs' ∧ P.holds G b σ₁ μ₁ ∧
    v = (σ₁.world.store.newStruct d vs).1 ∧ σ' = σ₁.constructed d vs ∧
    μ' = (μ₁.constructed d (taken vs')).movedTo s'.instrs.size
      (f.pushed (μ₁.world.store.newStruct d (taken vs')).1 ((stranded vs').reverse ++ st))

/-- The code of an instance, next to its evaluation. -/
theorem meets_new (A : ∀ e ∈ args, P.Agrees e ∧ e.ty.isVoid = false) (hneat : ∀ e ∈ args, e.Neat)
    (hlow : (Expr.new d none args).part.emit f P.env s = .ok ((), s')) (S : P.Spans G s s')
    (hroom : ∀ e ∈ args, P.Room n σ e.height) (hold : P.holds G a σ μ) :
    P.Meets a (μ.movedTo s.instrs.size st) ((P.walk n).node (.new d none args) σ)
      (P.Constructs G a n σ d args f s' st) := by
  have hlow : (do
      newInstance d none (Expr.parts args) f
      dropWhen f.discarded : LowerM Unit) P.env s = .ok ((), s') := hlow
  obtain ⟨_, s₁, hnew, hdrop⟩ := bind_ok.1 hlow
  obtain ⟨t, i, H, rfl⟩ := newInstance_ok hnew
  obtain ⟨t₀, hargs, htab⟩ := H.pushed
  -- The arguments, the entry of the definition, the instruction, and what drops the instance.
  have h₁ := pushAll_step hargs hneat S.sound
  have hs₀ := h₁.stage.sound S.sound
  have h₂ : Step True .blank [] [] t₀ t := htab.quiet.step htab.same
  have h₃ : Step True .blank [] [] t _ := .emitted t (.newStruct i ((Expr.parts args).length % 65536))
  have h₄ : Step True .blank [] [] _ s' :=
    dropWhen_acts.stepped hdrop (h₃.stage.sound (h₂.stage.sound hs₀)) trivial
  have hF := h₄.stage.leads.trans S.leads
  show P.Meets a _ ((P.walk n).newInstance d none args σ) _
  rw [newInstance_eq]
  refine (meets_values A hneat hargs (S.start (h₂.comp (h₃.comp h₄))) hroom hold).bind
    fun vs σ₁ μ₁ heval hv => ?_
  obtain ⟨b, vs', hab, hfits, hold₁, hμ⟩ := hv
  have hlen : vs'.length = (Expr.parts args).length := by
    simpa [Expr.parts_length] using hfits.length.2
  -- The entry of the definition added no code: the machines stand before the instruction.
  rw [hμ, ← htab.instrs]
  have hmade : Comes P.machines (μ₁.movedTo t.instrs.size (vs'.reverse ++ st)) _ :=
    .instr P.follows hF rfl (fun k => H.exec (P.follows k) hF hlen _) (.here rfl)
  refine Meets.pure_of_comes (v := (σ₁.world.store.newStruct d vs).1)
    (σ := σ₁.constructed d vs) (hmade.bind ?_)
  rintro _ rfl
  refine (dropWhen_comes P.follows hdrop S.leads).mono ?_
  rintro _ rfl
  exact ⟨b, vs, vs', σ₁, μ₁, heval, hab, hfits, hold₁, rfl, rfl, rfl⟩

/-- **While the number of arguments fits, construction takes them all.** The code of an
instance that the builder accepts leaves the instance and nothing else. In the instance that
evaluation makes and in the one that the machines make, the leading fields are the
arguments, in order. -/
theorem meets_new_fields {e : Expr} (hnew : Build.new d args = .ok e) (hlt : args.length < 65536)
    (A : ∀ e ∈ args, P.Agrees e ∧ e.ty.isVoid = false) (hneat : ∀ e ∈ args, e.Neat)
    (hlow : e.part.emit f P.env s = .ok ((), s')) (S : P.Spans G s s')
    (hroom : ∀ e ∈ args, P.Room n σ e.height) (hold : P.holds G a σ μ) :
    P.Meets a (μ.movedTo s.instrs.size st) ((P.walk n).node e σ) fun v σ' μ' =>
      ∃ b vs vs' σ₁ v', (P.walk n).valuesOf args σ = .ok vs σ₁ ∧ P.le a b ∧
        P.FitsAll b (args.map (·.ty)) vs vs' ∧
        μ'.pointer = s'.instrs.size ∧ μ'.stack = f.pushed v' st ∧
        (∀ (k : Nat) (x : Value), vs[k]? = some x → σ'.world.store.field v k = .ok x) ∧
        ∀ (k : Nat) (x : Value), vs'[k]? = some x → μ'.world.store.field v' k = .ok x := by
  obtain ⟨rfl, hfew⟩ := Build.new_ok hnew
  refine (meets_new A hneat hlow S hroom hold).mono ?_
  rintro _ _ _ ⟨b, vs, vs', σ₁, μ₁, heval, hab, hfits, -, rfl, rfl, rfl⟩
  obtain ⟨hlen, hlen'⟩ := hfits.length
  rw [List.length_map] at hlen hlen'
  -- Nothing is stranded, and the builder has seen to it that each argument has a field.
  rw [taken_of_lt (by omega), stranded_of_lt (by omega)]
  exact ⟨b, vs, vs', σ₁, _, heval, hab, hfits, rfl, rfl,
    fun k x hx => σ₁.world.field_constructed (by omega) hx,
    fun k x hx => μ₁.world.field_constructed (by omega) hx⟩

end Pact

end TreeCode

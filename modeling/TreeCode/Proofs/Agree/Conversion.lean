import TreeCode.Proofs.Machine.Trail
import TreeCode.Proofs.Operator.Kind

/-!
# Code for conversions

A conversion is chosen twice: lowering selects instructions from the static types
alone, direct evaluation looks at the value too. Here the two agree on every value
of the source type.

Main definitions:

* `Value.Inhabits` — a value inhabits a type.
* `Machine.Performs` — code does what an action on the world does.

Main results:

* `convertUnlessNull_comes` — the guarded conversion of a nullable number.
* `conversion_performs` — **the code for a conversion computes the conversion**, and
  raises the exception that the conversion raises.
-/

namespace TreeCode

open Draft Lower

/-- The value inhabits the type: it has the shape of the type's instances, or it is
the null that the type has. -/
def Value.Inhabits (v : Value) (t : Ty) : Prop :=
  v.fits (Shape.of t.underlying) = true ∨ v = .null ∧ t.hasNull = true

/-- What inhabits a numeric type is a number of its kind, or null if it is nullable. -/
theorem Value.Inhabits.number {v : Value} {t : Ty} {k : NumKind} (h : v.Inhabits t)
    (ht : t.liftedNumKind? = some k) :
    v = .null ∧ t.isNullable = true ∨ ∃ n, v = .num n ∧ n.kind = k := by
  have hunder : t.underlying = .num k := by
    unfold Ty.liftedNumKind? at ht
    cases hu : t.underlying <;> simp_all [Ty.numKind?]
  rcases h with h | ⟨rfl, h⟩
  · rw [hunder] at h
    cases v <;> simp_all [Value.fits, Shape.of]
  · refine .inl ⟨rfl, ?_⟩
    cases t <;> simp_all [Ty.underlying, Ty.hasNull, Ty.isNullable, Ty.isReference]

/-- From `μ` the machine does what an action on the world does with the result `r`: it
comes to `q` with the value on top of `st`, or raises the same failure. -/
def Machine.Performs (m : Machine) (μ : MachineState) (q : Nat) (st : List Value)
    (r : EStateM.Result Fault World Value) : Prop :=
  match r with
  | .ok v w => ∃ c, m.Goes c μ ({ μ with world := w }.movedTo q (v :: st))
  | .error f w => ∃ c μ₁ μ₂, m.Goes c μ μ₁ ∧ m.step μ₁ = .error f μ₂ ∧ μ₂.world = w

variable {M : Nat → Machine} {m : Machine} {F s s' : Draft} {env : LowerEnv} {μ : MachineState}
  {u : Unit} {v : Value} {st : List Value} {k : NumKind} {source target : Ty}

/-- The value on top of the stack is pushed once more. -/
theorem dup_comes (R : ∀ k, (M k).Follows F) (hF : (s.emitted .dup).Leads F) :
    Comes M (μ.movedTo s.instrs.size (v :: st))
      (· = μ.movedTo (s.emitted .dup).instrs.size (v :: v :: st)) :=
  .carry R hF rfl fun _ _ => rfl

/-- A number is converted. -/
theorem convert_comes (R : ∀ k, (M k).Follows F) (hF : (s.emitted (.convert k)).Leads F) (n : Num) :
    Comes M (μ.movedTo s.instrs.size (.num n :: st))
      (· = μ.movedTo (s.emitted (.convert k)).instrs.size (.num (n.convert k) :: st)) :=
  .carry R hF rfl fun _ _ => rfl

/-- The guarded conversion passes null through. -/
theorem convertUnlessNull_comes (R : ∀ k, (M k).Follows F) (hs : s.Sound)
    (hlow : convertUnlessNull k env s = .ok (u, s')) (hF : s'.Leads F)
    (hv : v = .null ∨ ∃ n, v = .num n) :
    ∃ v', Operator.asKind v k = .ok v' ∧
      Comes M (μ.movedTo s.instrs.size (v :: st)) (· = μ.movedTo s'.instrs.size (v' :: st)) := by
  simp only [convertUnlessNull, bind_ok, emit_ok] at hlow
  obtain ⟨r, s₁, hr, _, _, rfl, _, s₃, hj, _, _, rfl, hp⟩ := hlow
  have hfree := Free.fresh hs hr
  have hjump := jumpTo_jumped hj
  have hdup := Step.emitted (c := True) (N := .blank) s₁ .dup
  have hconv := Step.emitted (c := True) (N := .blank) s₃ (.convert k)
  have hstep : Step True .blank [] [] s₁ (s₃.emitted (.convert k)) :=
    hdup.trans ((hjump.quiet.step hjump.same).trans hconv)
  obtain ⟨hplaced, hplace⟩ := (hfree.step hstep (by simp)).place (c := True) (N := .blank) hp
  have hF₄ := hplace.stage.leads.trans hF
  have hF₃ := hconv.stage.leads.trans hF₄
  have hs₁ : s₁.Sound := (freshLabel_step (c := True) (N := .blank) (P := []) (I := []) hr).stage.sound hs
  have hsize : s₁.instrs.size = s.instrs.size := by
    obtain ⟨-, rfl⟩ := freshLabel_ok.1 hr
    rfl
  rw [← hsize]
  -- A copy of the value is tested.
  have htest : Comes M (μ.movedTo s₁.instrs.size (v :: st)) fun μ' =>
      if v.isNull then ∃ q, F.Places r q ∧ μ' = μ.movedTo q (v :: st)
      else μ' = μ.movedTo s₃.instrs.size (v :: st) := by
    refine (dup_comes R (hjump.quiet.leads.trans hF₃)).bind ?_
    rintro _ rfl
    refine .jump R v.isNull hj (hdup.stage.sound hs₁) hfree.internal.lt hF₃ fun k p q => ?_
    cases v <;> rfl
  rcases hv with rfl | ⟨n, rfl⟩
  -- Null goes past the conversion, and a number through it.
  · refine ⟨.null, rfl, htest.mono ?_⟩
    rintro _ ⟨q, hq, rfl⟩
    rw [hq.unique (hplaced.places hF)]
  · refine ⟨_, Operator.asKind_num_eq n k, htest.bind ?_⟩
    rintro _ rfl
    rw [hplaced.size]
    exact convert_comes R hF₄ n

/-! ## One machine -/

namespace Machine.Performs

variable {q : Nat} {w : World} {v' : Value} {f : Fault}

/-- The value is there. -/
theorem of_comes (h : Comes (fun _ => m) μ (· = μ.movedTo q (v :: st))) :
    m.Performs μ q st (.ok v μ.world) := by
  obtain ⟨c, _, hg, rfl⟩ := h.goes
  exact ⟨c, hg⟩

/-- The action is carried out behind other code. -/
theorem after {r : EStateM.Result Fault World Value} {st₀ : List Value} {p : Nat}
    (h : Comes (fun _ => m) μ (· = μ.movedTo p st₀)) (h' : m.Performs (μ.movedTo p st₀) q st r) :
    m.Performs μ q st r := by
  obtain ⟨c, _, hg, rfl⟩ := h.goes
  cases r with
  | ok v w =>
    obtain ⟨c', hg'⟩ := h'
    exact ⟨_, hg.trans hg'⟩
  | error f w =>
    obtain ⟨c', μ₁, μ₂, hg', hstep⟩ := h'
    exact ⟨_, μ₁, μ₂, hg.trans hg', hstep⟩

/-- An operation is carried out, and another one on its value. -/
theorem bind {q' : Nat} {x : Except OpError Value} {g : Value → Except OpError Value}
    (h : m.Performs μ q st (RunM.ofOp x μ.world))
    (h' : ∀ v', x = .ok v' →
      m.Performs (μ.movedTo q (v' :: st)) q' st (RunM.ofOp (g v') μ.world)) :
    m.Performs μ q' st (RunM.ofOp (x >>= g) μ.world) := by
  cases x with
  | ok v' =>
    obtain ⟨c, hg⟩ := h
    exact .after (.of_goes (fun _ => hg) (.here rfl)) (h' v' rfl)
  | error e => cases e <;> exact h

/-- An instruction that replaces the top of the stack by the value of an operation. -/
theorem instr (R : m.Follows F) {i : Instr} (hF : (s.emitted i).Leads F) (hi : i.target? = none)
    {x : Except OpError Value} {st₀ : List Value}
    (hok : ∀ v' p, x = .ok v' → m.exec i (μ.movedTo p st₀) = .ok none (μ.movedTo p (v' :: st)))
    (herr : ∀ e p, x = .error e → ∃ f μ', m.exec i (μ.movedTo p st₀) = .error f μ' ∧
      RunM.ofOp (α := Value) (.error e) μ.world = .error f μ'.world) :
    m.Performs (μ.movedTo s.instrs.size st₀) (s.emitted i).instrs.size st
      (RunM.ofOp x μ.world) := by
  cases x with
  | ok v' => exact of_comes (.carry (fun _ => R) hF hi fun _ p => hok v' p rfl)
  | error e =>
    obtain ⟨f, μ', hexec, hop⟩ := herr e _ rfl
    rw [hop]
    exact (Fails.instr (P := (·.world = μ'.world)) (fun _ => R) hF hi (fun _ => hexec) rfl).step

end Machine.Performs

/-- A nullable value is unwrapped; a missing one raises. -/
theorem unwrapNullable_performs (R : m.Follows F) (hF : (s.emitted .unwrapNullable).Leads F) :
    m.Performs (μ.movedTo s.instrs.size (v :: st)) (s.emitted .unwrapNullable).instrs.size st
      (RunM.ofOp (if v.isNull then .error (.raises .noValue) else .ok v) μ.world) := by
  refine .instr R hF rfl (fun v' p h => ?_) fun e p h => ?_ <;> split at h
  · cases h
  · rename_i hv
    cases h
    cases v <;> first | rfl | exact absurd rfl hv
  · rename_i hv
    cases h
    obtain rfl : v = .null := by cases v <;> first | rfl | cases hv
    exact ⟨_, _, rfl, rfl⟩
  · cases h

/-- The check of a reference against a type passes, or raises what the cast raises. -/
theorem exec_castClass {i : Nat} (hi : m.code.types[i]? = some target) (p : Nat) :
    m.exec (.castClass i) (μ.movedTo p (v :: st)) =
      if !v.isNull && !v.isA target then
        (MachineM.ofOp (.error (Operator.invalidCast μ.world.store m.fuel v target)) :
          MachineM Unit).bind (fun _ => pure none) (μ.movedTo p (v :: st))
      else .ok none (μ.movedTo p (v :: st)) := by
  simp only [Machine.exec, Machine.checkCast, hi]
  split <;> rename_i hv <;>
    simp only [bind, EStateM.bind, MachineM.entry, pure, EStateM.pure, MachineM.peek,
      MachineState.movedTo_stack, hv, if_true, if_false, Bool.false_eq_true, get, getThe,
      MonadStateOf.get, EStateM.get, MachineState.movedTo_world]

/-- A reference is checked against a type. -/
theorem castClass_performs (R : m.Follows F) {i : Nat}
    (hF : (s.emitted (.castClass i)).Leads F) (hi : m.code.types[i]? = some target) :
    m.Performs (μ.movedTo s.instrs.size (v :: st)) (s.emitted (.castClass i)).instrs.size st
      (RunM.ofOp (if !v.isNull && !v.isA target then
        .error (Operator.invalidCast μ.world.store m.fuel v target) else .ok v) μ.world) := by
  refine .instr R hF rfl (fun v' p h => ?_) fun e p h => ?_ <;> rw [exec_castClass hi] <;>
    split at h
  · cases h
  · rename_i hv
    cases h
    rw [if_neg hv]
  · rename_i hv
    cases h
    rw [if_pos hv]
    unfold Operator.invalidCast
    cases μ.world.store.detailed m.fuel v with
    | some text => exact ⟨_, _, rfl, rfl⟩
    | none => exact ⟨_, _, rfl, rfl⟩
  · cases h

/-! ## Conversions -/

/-- The number on top of the stack gets another kind, if the kinds differ. -/
theorem convertIf_comes (R : ∀ k, (M k).Follows F) {k k' : NumKind}
    (hlow : (if k != k' then emit (.convert k') else pure ()) env s = .ok (u, s'))
    (hF : s'.Leads F) {n : Num} (hn : n.kind = k) :
    Comes M (μ.movedTo s.instrs.size (.num n :: st))
      (· = μ.movedTo s'.instrs.size (.num (n.convert k') :: st)) := by
  simp only [ite_ok, emit_ok, pure_ok, bne_iff_ne, ne_eq, not_not] at hlow
  rcases hlow with ⟨-, rfl⟩ | ⟨rfl, -, rfl⟩
  · exact convert_comes R hF n
  · refine .here ?_
    rw [← hn, Num.convert_self]

/-- How the code for a conversion between types that are not both numeric is chosen. -/
theorem conversion_of_reference (hne : source ≠ target)
    (hkind : source.liftedNumKind? = none ∨ target.liftedNumKind? = none) :
    conversion source target =
      if target.isNullable && target.underlying = source then pure ()
      else if source.isNullable && source.underlying = target then emit .unwrapNullable
      else if !target.accepts source then do emit (.castClass (← typeEntry target))
      else pure () := by
  unfold conversion
  rw [if_neg hne]
  split
  · simp_all
  · rfl

/-- A conversion between types that are not both numeric. -/
theorem Operator.cast_of_reference (hne : source ≠ target)
    (hkind : source.liftedNumKind? = none ∨ target.liftedNumKind? = none) (store : Store)
    (fuel : Nat) :
    Operator.cast store fuel v source target =
      if target.isNullable && target.underlying = source then .ok v
      else if source.isNullable && source.underlying = target then
        if v.isNull then .error (.raises .noValue) else .ok v
      else if !target.accepts source && !v.isNull && !v.isA target then
        .error (invalidCast store fuel v target)
      else .ok v := by
  unfold cast
  rw [if_neg hne]
  split
  · simp_all
  · rfl

/-- The code for a conversion between types that are not both numeric. -/
theorem referenceConversion_performs (hne : source ≠ target)
    (hkind : source.liftedNumKind? = none ∨ target.liftedNumKind? = none)
    (hlow : conversion source target env s = .ok (u, s')) (hF : s'.Leads F) (R : m.Follows F) :
    m.Performs (μ.movedTo s.instrs.size (v :: st)) s'.instrs.size st
      (RunM.ofOp (Operator.cast μ.world.store m.fuel v source target) μ.world) := by
  rw [Operator.cast_of_reference hne hkind]
  rw [conversion_of_reference hne hkind] at hlow
  simp only [ite_ok, bind_ok, pure_ok, emit_ok] at hlow
  rcases hlow with ⟨hwrap, -, rfl⟩ | ⟨hwrap, ⟨hunwrap, rfl⟩ | ⟨hunwrap, hlow⟩⟩
  · rw [if_pos hwrap]
    exact .of_comes (.here rfl)
  · rw [if_neg hwrap, if_pos hunwrap]
    exact unwrapNullable_performs R hF
  rw [if_neg hwrap, if_neg hunwrap]
  rcases hlow with ⟨hup, i, s₁, hi, rfl⟩ | ⟨hup, -, rfl⟩
  · obtain ⟨htab, htype⟩ := typeEntry_ok hi
    rw [hup, Bool.true_and, ← htab.instrs]
    exact castClass_performs R hF (R.types ▸ hF.types _ _ htype)
  · rw [Bool.eq_false_iff.2 hup]
    exact .of_comes (.here rfl)

/-- The code for a conversion between numeric types. -/
theorem numericConversion_performs {k k' : NumKind} (hne : source ≠ target)
    (hk : source.liftedNumKind? = some k) (hk' : target.liftedNumKind? = some k')
    (hv : v.Inhabits source) (hs : s.Sound)
    (hlow : conversion source target env s = .ok (u, s')) (hF : s'.Leads F) (R : m.Follows F) :
    m.Performs (μ.movedTo s.instrs.size (v :: st)) s'.instrs.size st
      (RunM.ofOp (Operator.cast μ.world.store m.fuel v source target) μ.world) := by
  unfold conversion at hlow
  unfold Operator.cast
  simp only [hne, if_false, hk, hk'] at hlow ⊢
  have hv := hv.number hk
  -- There are three cases, by whether the source has null, and whether the target has it then.
  cases hsn : source.isNullable with
  | false =>
    obtain ⟨n, rfl, hn⟩ : ∃ n, v = .num n ∧ n.kind = k := by simpa [hsn] using hv
    rw [hsn] at hlow
    rw [if_neg (by simp [Value.isNull]), Operator.asKind_num_eq]
    exact .of_comes (convertIf_comes (fun _ => R) hlow hF hn)
  | true =>
    cases htn : target.isNullable with
    | true =>
      have hcast : (if v.isNull = true then if true = true then .ok .null
          else .error (.raises .noValue) else Operator.asKind v k') = Operator.asKind v k' := by
        rcases hv with ⟨rfl, -⟩ | ⟨n, rfl, -⟩ <;> rfl
      rw [hcast]
      simp only [hsn, htn, ite_ok, pure_ok, bne_iff_ne, ne_eq, not_not] at hlow
      rcases hlow with ⟨-, hlow⟩ | ⟨rfl, -, rfl⟩
      · obtain ⟨v', hv', hc⟩ := convertUnlessNull_comes (fun _ => R) hs hlow hF
          (hv.imp And.left (Exists.imp fun _ => And.left))
        rw [hv']
        exact .of_comes hc
      · have hsame : Operator.asKind v k = .ok v := by
          rcases hv with ⟨rfl, -⟩ | ⟨n, rfl, rfl⟩
          · rfl
          · rw [Operator.asKind_num_eq, Num.convert_self]
        rw [hsame]
        exact .of_comes (.here rfl)
    | false =>
      simp only [hsn, htn, bind_ok, emit_ok] at hlow
      obtain ⟨-, _, rfl, hlow⟩ := hlow
      have hleads : (s.emitted .unwrapNullable).Leads s' :=
        ((Acts.ite .emit .pure : Acts True .blank [] [] _).stepped hlow
          ((Step.emitted (c := True) (N := .blank) s _).stage.sound hs) trivial).stage.leads
      have hcast : (if v.isNull = true then if false = true then .ok .null
          else .error (.raises .noValue) else Operator.asKind v k') =
          (if v.isNull then .error (.raises .noValue) else .ok v) >>=
            fun v => Operator.asKind v k' := by
        cases v.isNull <;> rfl
      rw [hcast]
      refine (unwrapNullable_performs R (hleads.trans hF)).bind fun v' hv' => ?_
      rcases hv with ⟨rfl, -⟩ | ⟨n, rfl, hn⟩
      · cases hv'
      · cases hv'
        rw [Operator.asKind_num_eq]
        exact .of_comes (convertIf_comes (fun _ => R) hlow hF hn)

/-- The code that was emitted for a conversion. -/
theorem emittedConversion_performs (hv : v.Inhabits source) (hs : s.Sound)
    (hlow : conversion source target env s = .ok (u, s')) (hF : s'.Leads F) (R : m.Follows F) :
    m.Performs (μ.movedTo s.instrs.size (v :: st)) s'.instrs.size st
      (RunM.ofOp (Operator.cast μ.world.store m.fuel v source target) μ.world) := by
  by_cases heq : source = target
  · unfold conversion at hlow
    unfold Operator.cast
    simp only [heq, if_true, pure_ok] at hlow ⊢
    obtain ⟨-, rfl⟩ := hlow
    exact .of_comes (.here rfl)
  cases hk : source.liftedNumKind? with
  | none => exact referenceConversion_performs heq (.inl hk) hlow hF R
  | some k =>
    cases hk' : target.liftedNumKind? with
    | none => exact referenceConversion_performs heq (.inr hk') hlow hF R
    | some k' => exact numericConversion_performs heq hk hk' hv hs hlow hF R

/-! ## Conversions can be emitted -/

section Emits

variable {r : Nat} {l : DraftLabel}

/-- The first arrival at a label sets its height. -/
theorem agreeOnHeight_first (hl : s.labels[r]? = some l) (hd : l.depth = none) :
    agreeOnHeight r env s =
      .ok ((), { s with labels := s.labels.modify r fun l => { l with depth := some s.depth } }) := by
  simp only [agreeOnHeight, labelAt_bind, hl, Option.getD_some, get_bind, hd]
  rfl

/-- Later arrivals at a label are at its height. -/
theorem agreeOnHeight_again (hl : s.labels[r]? = some l) (hd : l.depth = some s.depth) :
    agreeOnHeight r env s = .ok ((), s) := by
  simp only [agreeOnHeight, labelAt_bind, hl, Option.getD_some, get_bind, hd, bne_self_eq_false,
    Bool.false_eq_true, if_false]
  rfl

/-- A jump to a label that is not used yet. -/
theorem jumpTo_fresh (env : LowerEnv) (i : Instr) (hl : s.labels[r]? = some {}) :
    ∃ s', jumpTo i r env s = .ok ((), s') ∧ s'.labels[r]? =
      some { depth := some s'.depth, fixups := [(s.instrs.size, s.cleanups.head?)] } := by
  have hl' : (s.emitted (i.withTarget 0)).labels[r]? = some {} := hl
  have hj : jumpTo i r env s = (agreeOnHeight r >>= fun _ => modifyLabel r fun l =>
      { l with fixups := l.fixups ++ [(s.instrs.size, s.cleanups.head?)] }) env
        (s.emitted (i.withTarget 0)) := by
    simp only [jumpTo, cleanupHere_bind, position_bind, labelAt_bind, hl, Option.getD_some,
      Option.isSome_none, Bool.false_and, Bool.false_eq_true, if_false, Option.getD_none, emit_bind,
      Option.isNone_none, if_true]
  refine ⟨_, hj.trans (bind_ok.2 ⟨(), _, agreeOnHeight_first hl' rfl, rfl⟩), ?_⟩
  simp [Array.getElem?_modify, hl']

/-- A label can be placed where the stack has the height of the jumps to it. -/
theorem placeLabel_emits (env : LowerEnv) (hl : s.labels[r]? = some l) (hpos : l.position = none)
    (hd : l.depth = some s.depth) (hf : ∀ x ∈ l.fixups, x.2 = s.cleanups.head?) :
    ∃ s', placeLabel r env s = .ok ((), s') := by
  have harrive : arrive r l env s = .ok ((), s) := by
    simp only [arrive, get_bind]
    split
    · exact agreeOnHeight_again hl hd
    · rw [hd]
      rfl
  simp only [placeLabel, labelAt_bind, hl, hpos, Option.getD_some, Option.isSome_none,
    Bool.false_eq_true, if_false]
  simp only [bind_ok (x := arrive r l), harrive, modify_bind, position_bind, cleanupHere_bind]
  exact ⟨_, (), s, rfl, bind_ok.2 ⟨(), _, patch_ok.2 ⟨hf, rfl⟩, rfl⟩⟩

/-- The guarded conversion can always be emitted. -/
theorem convertUnlessNull_emits (k : NumKind) (env : LowerEnv) (s : Draft) :
    ∃ s', convertUnlessNull k env s = .ok ((), s') := by
  obtain ⟨s₁, hj, hl⟩ := jumpTo_fresh env (.jumpIfNull 0)
    (s := { s with labels := s.labels.push {} }.emitted .dup) (r := s.labels.size)
    (by simp [Draft.emitted])
  have hjump := jumpTo_jumped hj
  obtain ⟨s', hp⟩ := placeLabel_emits env (s := s₁.emitted (.convert k)) hl rfl
    (by simp [Draft.emitted, effectOf, hjump.depth])
    (by simp [Draft.emitted, hjump.same.cleanups])
  refine ⟨s', ?_⟩
  simp only [convertUnlessNull, freshLabel_bind, emit_bind]
  exact bind_ok.2 ⟨(), s₁, hj, hp⟩

/-- A table with room takes every type. -/
theorem typeEntry_emits (t : Ty) (env : LowerEnv) (h : s.types.size < tableLimit) :
    ∃ i s', typeEntry t env s = .ok (i, s') := by
  unfold typeEntry checkRoom
  simp only [get_bind]
  cases Array.findIdx? (· == t) s.types with
  | some i => exact ⟨i, s, rfl⟩
  | none =>
    simp only [get_bind, Nat.not_le.2 h, if_false]
    exact ⟨_, _, rfl⟩

/-- Every conversion can be emitted while there is room for its type. -/
theorem conversion_emits (h : s.types.size < tableLimit) :
    ∃ s', conversion source target env s = .ok ((), s') := by
  by_cases hne : source = target
  · exact ⟨s, by simp [conversion, hne, pure_ok]⟩
  by_cases hkind : source.liftedNumKind? = none ∨ target.liftedNumKind? = none
  · rw [conversion_of_reference hne hkind]
    obtain ⟨i, s₁, hi⟩ := typeEntry_emits target env h
    split
    · exact ⟨_, rfl⟩
    split
    · exact ⟨_, rfl⟩
    split
    · exact ⟨_, bind_ok.2 ⟨i, s₁, hi, rfl⟩⟩
    · exact ⟨_, rfl⟩
  simp only [not_or, ← ne_eq, Option.ne_none_iff_exists'] at hkind
  obtain ⟨⟨k, hk⟩, k', hk'⟩ := hkind
  simp only [conversion, hne, if_false, hk, hk']
  by_cases hkk : k != k' <;> cases source.isNullable <;> cases target.isNullable <;>
    simp only [hkk, if_true, if_false, Bool.false_eq_true, emit_bind] <;>
    first | exact ⟨_, rfl⟩ | exact convertUnlessNull_emits k' env s
end Emits

/-- **The code for a conversion computes the conversion.** While there is room for a type
the code can be emitted. On a stack with a value that inhabits the source type on top, running
it leaves the converted value in its place and all else as it was, or raises what the
conversion raises. -/
theorem conversion_performs (hs : s.Sound) (source target : Ty) (env : LowerEnv) :
    (s.types.size < tableLimit → ∃ s', conversion source target env s = .ok ((), s')) ∧
      ∀ (s' F : Draft) (m : Machine), conversion source target env s = .ok ((), s') → s'.Leads F → m.Follows F →
        ∀ (v : Value) (μ : MachineState) (st : List Value), v.Inhabits source →
          m.Performs (μ.movedTo s.instrs.size (v :: st)) s'.instrs.size st
            (RunM.ofOp (Operator.cast μ.world.store m.fuel v source target) μ.world) :=
  ⟨conversion_emits, fun _ _ _ hlow hF R _ _ _ hv => emittedConversion_performs hv hs hlow hF R⟩

/-- The code that gives a nullable number a wider kind jumps around the conversion. -/
def Draft.widening : Draft where
  instrs := #[.dup, .jumpIfNull 3, .convert .i64]
  labels := #[{ position := some 3, depth := some 1, cleanup := some none }]
  depth := 1
  maxDepth := 2

/-- A machine that runs it; it calls nothing. -/
def Machine.widening : Machine where
  host := ⟨.empty, fun _ _ _ => .done (.ok .unit) none, fun _ _ => .done (.ok .unit) none⟩
  fuel := 0
  call _ _ := RunM.defect .halted
  code := Draft.widening.toCode default false
  record := .empty

theorem conversion_performs_widening :
    conversion (.nullable .i32) (.nullable (.num .i64)) { catalog := .empty, plan := {} } {} =
        .ok ((), .widening) ∧
      Machine.widening.Follows .widening ∧ Value.Inhabits (.i32 7) (.nullable .i32) ∧
      Machine.widening.Performs { world := {}, stack := [.i32 7] } 3 []
        (.ok (.num (.int .i64 7)) {}) := by
  have hlow : conversion (.nullable .i32) (.nullable (.num .i64))
      { catalog := .empty, plan := {} } {} = .ok ((), .widening) := by
    cbv
  have R : Machine.widening.Follows .widening := by
    refine ⟨⟨default, false, rfl⟩, fun r l hl hpos => ?_⟩
    have hr : r = 0 := by
      have := (Array.getElem?_eq_some_iff.1 hl).1
      simpa [Draft.widening] using this
    subst hr
    cases hl
    cases hpos
  have hv : Value.Inhabits (.i32 7) (.nullable .i32) := .inl rfl
  have hcast : Operator.cast {} 0 (.i32 7) (.nullable .i32) (.nullable (.num .i64)) =
      .ok (.num (.int .i64 7)) := by
    cbv
  have h := (conversion_performs Draft.sound_empty (.nullable .i32) (.nullable (.num .i64))
    { catalog := .empty, plan := {} }).2 .widening .widening .widening hlow (.refl _) R (.i32 7)
    { world := {}, stack := [.i32 7] } [] hv
  have hvalue : RunM.ofOp (Operator.cast {} 0 (.i32 7) (.nullable .i32) (.nullable (.num .i64)))
      {} = .ok (.num (.int .i64 7)) {} := by
    rw [hcast]
    rfl
  exact ⟨hlow, R, hv, hvalue ▸ h⟩

end TreeCode

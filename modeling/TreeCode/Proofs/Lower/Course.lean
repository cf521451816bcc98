import TreeCode.Proofs.Lower.Node
import TreeCode.Proofs.Lower.Path

/-!
# The course of lowering

Lowering any tree takes a `Path` of acts, since the acts make up a rule of lowering.
A unit is a prologue, which brings in the parameters and loads what is mentioned more
than once, and such a path.

Main definitions:

* `Runs` — a path whose new entries of the table each begin at a handler.
* `Traced` — a step of lowering runs, given what it may name.
* `Draft.Begun` — the draft after the prologue of a unit.
* `Lambda.Course` — how the code of a lambda comes about.

Main results:

* `traced_rule` — running is a rule of lowering.
* `Lambda.toCode_course` — **the code of every lambda is a prologue and a path of
  acts**, at the end of which no jump waits.
-/

namespace TreeCode

open Lower Draft

variable {α β : Type} {env : LowerEnv} {s t u : Draft} {J J' : List Nat} {Γ Γ' : List Ref}

/-- Code of a handler or of a cleanup block is emitted, and `h` is the entry for it. -/
inductive Handled (env : LowerEnv) (h : Handler) (s t : Draft) : Prop
  | catching {start stop depth done : Nat} {result : Option Nat} {f : Usage} {k : CatchPart}
      {ks : List CatchPart} {rest : List Handler}
      (h : catches start stop depth result done f (k :: ks) env s = .ok (h :: rest, t))
  | cleanup {start stop depth : Nat} {f : Usage} {c : CleanupPart}
      (h : cleanupBlock start stop depth f (some c) env s = .ok ([h], t))

/-- The entry `h` is for a handler whose code begins where its entry says. -/
def Entered (env : LowerEnv) (s t : Draft) (h : Handler) : Prop :=
  ∃ s₁ s₂, Path env s s₁ ∧ Handled env h s₁ s₂ ∧ Path env s₁ s₂ ∧ Path env s₂ t ∧
    s₁.instrs.size = h.target

theorem Entered.extend {s₀ t' : Draft} {h : Handler} (hh : Entered env s t h)
    (h₁ : Path env s₀ s) (h₂ : Path env t t') : Entered env s₀ t' h := by
  obtain ⟨s₁, s₂, hs₁, hhandled, hs₁₂, hs₂, hsize⟩ := hh
  exact ⟨s₁, s₂, h₁.trans hs₁, hhandled, hs₁₂, hs₂.trans h₂, hsize⟩

/-- A path whose new entries of the table are each for a handler emitted on it. -/
structure Runs (env : LowerEnv) (s t : Draft) : Prop where
  path : Path env s t
  entered : ∀ h ∈ t.handlers, h ∈ s.handlers ∨ Entered env s t h

namespace Runs

theorem of_path (h : Path env s t) (hh : t.handlers = s.handlers) : Runs env s t :=
  ⟨h, fun _ hx => .inl (hh ▸ hx)⟩

theorem of_act (h : Act env s t) (hh : t.handlers = s.handlers) : Runs env s t := of_path (.act h) hh

theorem refl (s : Draft) : Runs env s s := of_path (.refl s) rfl

theorem trans (h₁ : Runs env s t) (h₂ : Runs env t u) : Runs env s u := by
  refine ⟨h₁.path.trans h₂.path, fun x hx => ?_⟩
  rcases h₂.entered x hx with hx | hx
  · exact (h₁.entered x hx).imp_right fun hx => hx.extend (.refl s) h₂.path
  · exact .inr (hx.extend h₁.path (.refl u))

end Runs

/-- A step runs, given that the labels `J` exist and code may name `Γ`. -/
def Traced (env : LowerEnv) (J : List Nat) (Γ : List Ref) (x : LowerM α) : Prop :=
  ∀ s a s', x env s = .ok (a, s') → s.Fit env → (∀ r ∈ J, r < s.labels.size) →
    (∀ ρ ∈ Γ, s.Holds env ρ) → Runs env s s'

namespace Traced

variable {x : LowerM α}

theorem mono (h : Traced env J Γ x) (hJ : J ⊆ J') (hΓ : Γ ⊆ Γ') : Traced env J' Γ' x :=
  fun s a s' hx hs hJ' hΓ' => h s a s' hx hs (fun r hr => hJ' r (hJ hr)) fun ρ hρ => hΓ' ρ (hΓ hρ)

/-- A step before one that may use the labels and names that the first one gives. -/
theorem bindOf {K : α → List Nat} {Δ : α → List Ref} {f : α → LowerM β} (hx : Traced env J Γ x)
    (hgive : ∀ s a s', x env s = .ok (a, s') → s.Fit env →
      (∀ r ∈ K a, r < s'.labels.size) ∧ ∀ ρ ∈ Δ a, s'.Holds env ρ)
    (hf : ∀ a, Traced env (K a ++ J) (Δ a ++ Γ) (f a)) : Traced env J Γ (x >>= f) := by
  intro s b s' h hs hJ hΓ
  obtain ⟨a, s₁, h₁, h₂⟩ := bind_ok.1 h
  have hrun := hx s a s₁ h₁ hs hJ hΓ
  obtain ⟨hK, hΔ⟩ := hgive s a s₁ h₁ hs
  refine hrun.trans (hf a s₁ b s' h₂ (hrun.path.fit hs) (fun r hr => ?_) fun ρ hρ => ?_)
  · rcases List.mem_append.1 hr with hr | hr
    · exact hK r hr
    · exact Nat.lt_of_lt_of_le (hJ r hr) hrun.path.leads.labels_le
  · rcases List.mem_append.1 hρ with hρ | hρ
    · exact hΔ ρ hρ
    · exact hrun.path.holds (hΓ ρ hρ)

theorem bind {f : α → LowerM β} (hx : Traced env J Γ x) (hf : ∀ a, Traced env J Γ (f a)) :
    Traced env J Γ (x >>= f) :=
  hx.bindOf (K := fun _ => []) (Δ := fun _ => []) (by simp) hf

/-- A step before one that may name what the first one gives. -/
theorem bindName {ρ : α → Ref} {f : α → LowerM β} (hx : Traced env J Γ x)
    (hgive : ∀ s a s', x env s = .ok (a, s') → s.Fit env → s'.Holds env (ρ a))
    (hf : ∀ a, Traced env J (ρ a :: Γ) (f a)) : Traced env J Γ (x >>= f) :=
  hx.bindOf (K := fun _ => []) (Δ := fun a => [ρ a]) (by simpa using hgive) hf

/-- A step before one that may jump to the label that the first one gives. -/
theorem bindLabel {x : LowerM Nat} {f : Nat → LowerM β} (hx : Traced env J Γ x)
    (hgive : ∀ s r s', x env s = .ok (r, s') → s.Fit env → r < s'.labels.size)
    (hf : ∀ r, Traced env (r :: J) Γ (f r)) : Traced env J Γ (x >>= f) :=
  hx.bindOf (K := fun r => [r]) (Δ := fun _ => []) (by simpa using hgive) hf

theorem pure {a : α} : Traced env J Γ (pure a) := by
  intro s b s' h _ _ _
  obtain ⟨-, rfl⟩ := pure_ok.1 h
  exact .refl s

theorem read : Traced env J Γ (read : LowerM LowerEnv) := by
  intro s b s' h _ _ _
  obtain ⟨-, rfl⟩ := read_ok.1 h
  exact .refl s

/-- The surroundings are the given ones. -/
theorem read_bind {f : LowerEnv → LowerM β} (hf : Traced env J Γ (f env)) :
    Traced env J Γ ((MonadReader.read : LowerM LowerEnv) >>= f) := fun s b s' h => hf s b s' h

theorem unsupported {e : Unsupported} : Traced env J Γ (unsupported e : LowerM α) :=
  fun _ _ _ h => absurd h (by simp [unsupported_ok])

theorem error {e : CompileError} : Traced env J Γ (error e : LowerM α) :=
  fun _ _ _ h => absurd h (by simp [error_ok])

theorem ite {c : Prop} [Decidable c] {x y : LowerM α} (hx : Traced env J Γ x)
    (hy : Traced env J Γ y) : Traced env J Γ (if c then x else y) := by
  split
  · exact hx
  · exact hy

theorem emit {i : Instr} (hi : i.isStraight = true) (hrefs : i.refs ⊆ Γ) :
    Traced env J Γ (emit i) := by
  intro s a s' h _ _ hΓ
  obtain rfl := emit_ok.1 h
  exact .of_act (.emit hi fun ρ hρ => hΓ ρ (hrefs hρ)) rfl

theorem naming {i : Instr} {ρ : Ref} (hi : i.isStraight = true) (hrefs : i.refs = [ρ])
    (hρ : ρ ∈ Γ) : Traced env J Γ (Lower.emit i) :=
  emit hi (by simp [hrefs, hρ])

/-- A change that the scopes in force survive. -/
theorem quiet (h : ∀ s a s', x env s = .ok (a, s') →
    Quiet s s' ∧ Same s s' ∧ s'.instrs = s.instrs) : Traced env J Γ x := by
  intro s a s' hx hs _ _
  obtain ⟨hq, hsame, hi⟩ := h s a s' hx
  refine .of_act (.adjust hq hi hsame.hoisted (fun id k hk => ?_) fun k hk => ?_) hq.handlers
  · rw [hsame.slots] at hk
    exact (hs.slots id k hk).leads hq.leads hsame.hoisted
  · rw [hsame.caught] at hk
    exact (hs.caught k hk).leads hq.leads hsame.hoisted

theorem newSlot : Traced env J Γ newSlot := quiet fun s k s' h => by
  refine ⟨newSlot_quiet h, newSlot_same h, ?_⟩
  obtain ⟨-, -, rfl⟩ := newSlot_ok.1 h
  rfl

theorem tabled {x : LowerM α} (h : ∀ s a s', x env s = .ok (a, s') → Tabled s s') :
    Traced env J Γ x :=
  quiet fun s a s' hx => ⟨(h s a s' hx).quiet, (h s a s' hx).same, (h s a s' hx).instrs⟩

theorem literal {v : Value} : Traced env J Γ (literal v) := tabled fun _ _ _ h => (literal_ok h).1

end Traced

/-! ## What steps give -/

theorem newSlot_holds {k : Nat} (h : newSlot env s = .ok (k, t)) (hs : s.Fit env) :
    t.Holds env (.slot k) := by
  obtain ⟨-, rfl, rfl⟩ := newSlot_ok.1 h
  exact ⟨Nat.lt_succ_self _, hs.new (Nat.le_refl _)⟩

theorem literal_holds {v : Value} {k : Nat} (h : literal v env s = .ok (k, t)) :
    t.Holds env (.literal k) := by
  obtain ⟨-, w, hw, -⟩ := literal_ok h
  exact (Array.getElem?_eq_some_iff.1 hw).1

theorem homeOf_ok {v : Var} {h : Home} (hx : homeOf v env s = .ok (h, t)) : s = t ∧
    ((∃ k, s.slots.get? v.id = some k ∧
        h = if env.plan.isBoxed v.id then .boxed k else .slot k) ∨
      ∃ k, s.slots.get? v.id = none ∧ env.plan.capturePlace? v.id = some k ∧ h = .captured k) := by
  simp only [homeOf, Lower.read_bind, get_bind] at hx
  cases hget : s.slots.get? v.id with
  | some k =>
    simp only [hget, pure_ok] at hx
    exact ⟨hx.2, .inl ⟨k, rfl, hx.1.symm⟩⟩
  | none =>
    cases hplace : env.plan.capturePlace? v.id with
    | none => simp [hget, hplace, error_ok] at hx
    | some k =>
      simp only [hget, hplace, pure_ok] at hx
      exact ⟨hx.2, .inr ⟨k, rfl, rfl, hx.1.symm⟩⟩

theorem homeOf_holds {v : Var} {h : Home} (hx : homeOf v env s = .ok (h, t)) (hs : s.Fit env) :
    t.Holds env h.ref := by
  obtain ⟨rfl, ⟨k, hk, rfl⟩ | ⟨k, -, hk, rfl⟩⟩ := homeOf_ok hx
  · cases env.plan.isBoxed v.id <;> exact hs.slots v.id k hk
  · exact (List.findIdx?_eq_some_iff_getElem.1 hk).1

theorem homeOf_traced {v : Var} : Traced env J Γ (homeOf v) := by
  intro s h s' hx _ _ _
  obtain ⟨rfl, -⟩ := homeOf_ok hx
  exact .refl s

/-! ## Constants and lambdas -/

theorem pushValue_traced {v : Value} : Traced env J Γ (pushValue v) := by
  unfold pushValue
  split
  case h_5 =>
    exact Traced.literal.bindName (fun _ _ _ h _ => literal_holds h) fun _ =>
      .naming rfl rfl (by simp)
  all_goals exact .emit rfl (by simp [Instr.refs])

theorem pushEntry_ok {k : Nat} {a : Unit} (h : pushEntry k env s = .ok (a, t)) :
    ∃ i, s.Loads k i ∧ s.emitted i = t := by
  simp only [pushEntry, get_bind] at h
  cases hlook : s.hoisted.lookup k with
  | some slot =>
    simp only [hlook, emit_ok] at h
    exact ⟨_, .inr ⟨slot, hlook, rfl⟩, h⟩
  | none =>
    simp only [hlook, emit_ok] at h
    exact ⟨_, .inl rfl, h⟩

theorem pushConstant_traced {v : Value} {f : Usage} : Traced env J Γ (pushConstant v f) := by
  unfold pushConstant
  refine .ite .pure (.ite pushValue_traced (.read_bind ?_))
  cases hsup : env.supplied with
  | some values =>
    dsimp only
    cases hplace : suppliedPlace? values v with
    | none => exact .unsupported
    | some k =>
      intro s a s' h _ _ _
      obtain rfl := emit_ok.1 h
      have hk : k < env.entries := by
        simp only [LowerEnv.entries, hsup]
        exact (List.findIdx?_eq_some_iff_getElem.1 hplace).1
      exact .of_act (.entry hk (.inl rfl)) rfl
  | none =>
    dsimp only
    cases hplace : env.plan.constantPlace? v with
    | none =>
      exact Traced.literal.bindName (fun _ _ _ h _ => literal_holds h) fun _ =>
        .naming rfl rfl (by simp)
    | some k =>
      intro s a s' h _ _ _
      obtain ⟨i, hi, rfl⟩ := pushEntry_ok h
      have hk : k < env.entries := by
        unfold Plan.constantPlace? at hplace
        split at hplace
        · have := (List.findIdx?_eq_some_iff_getElem.1 hplace).1
          simp only [LowerEnv.entries, hsup]
          omega
        · cases hplace
      exact .of_act (.entry hk hi) rfl

/-- The code that pushes cells leaves the draft alone until it is emitted. -/
theorem cellLoads_ok {vs : List Var} {is : List Instr} (h : cellLoads vs env s = .ok (is, t))
    (hs : s.Fit env) : s = t ∧ is.length = vs.length ∧
      ∀ i ∈ is, i.pushesCell = true ∧ ∀ ρ ∈ i.refs, s.Holds env ρ := by
  induction vs generalizing is t with
  | nil =>
    obtain ⟨rfl, rfl⟩ := pure_ok.1 h
    simp
  | cons v vs ih =>
    obtain ⟨home, s₁, hhome, h⟩ := bind_ok.1 h
    have hheld := homeOf_holds hhome hs
    obtain ⟨rfl, -⟩ := homeOf_ok hhome
    have hrest : ∀ {i}, (i.pushesCell = true ∧ ∀ ρ ∈ i.refs, s.Holds env ρ) →
        (do let is ← cellLoads vs; pure (i :: is)) env s = .ok (is, t) →
          s = t ∧ is.length = (v :: vs).length ∧
            ∀ j ∈ is, j.pushesCell = true ∧ ∀ ρ ∈ j.refs, s.Holds env ρ := by
      intro i hi h
      obtain ⟨is, s₂, his, h⟩ := bind_ok.1 h
      obtain ⟨rfl, rfl⟩ := pure_ok.1 h
      obtain ⟨hst, hlen, hall⟩ := ih his
      refine ⟨hst, by simp [hlen], fun j hj => ?_⟩
      rcases List.mem_cons.1 hj with rfl | hj
      · exact hi
      · exact hall j hj
    cases home with
    | slot _ => exact absurd (bind_ok.1 h) (by simp [error_ok])
    | boxed k => exact hrest ⟨rfl, by simpa [Instr.refs, Home.ref] using hheld⟩ h
    | captured k => exact hrest ⟨rfl, by simpa [Instr.refs, Home.ref] using hheld⟩ h

theorem emitAll_ok {is : List Instr} {a : Unit} (h : is.forM emit env s = .ok (a, t)) :
    s.emittedAll is = t := by
  induction is generalizing s with
  | nil => exact (pure_ok.1 h).2
  | cons i is ih =>
    obtain ⟨_, s₁, h₁, h₂⟩ := bind_ok.1 h
    obtain rfl := emit_ok.1 h₁
    exact ih h₂

/-- The place of a lambda in the record, and the form of its unit: an open one is bound to the
cells of the variables that it captures. -/
theorem pushLambda_cases {l : Lambda} {f : Usage} {a : Unit}
    (h : pushLambda l f env s = .ok (a, t)) : env.supplied = none ∧
      (f.discarded = true ∧ s = t ∨ f.discarded = false ∧ ∃ unit j form i,
        env.units.findIdx? (·.lambda.id == l.id) = some unit ∧
        env.plan.nestedPlace? unit = some j ∧ env.compiled[unit]? = some form ∧
        s.Loads (env.plan.constants.length + j) i ∧
        ((∃ v, form = .bound v ∧ s.emitted i = t) ∨
          ∃ v captures is s₁, form = .opened v captures ∧
            cellLoads captures env (s.emitted i) = .ok (is, s₁) ∧
            (s₁.emittedAll is).emitted (.curry is.length) = t)) := by
  simp only [pushLambda, Lower.read_bind, ite_ok, unsupported_bind, reduceCtorEq, and_false,
    false_or, pure_ok] at h
  obtain ⟨hsup, h⟩ := h
  refine ⟨by simpa using hsup, h.imp (fun h => ⟨h.1, h.2.2⟩) fun ⟨hd, h⟩ => ⟨by simpa using hd, ?_⟩⟩
  -- Each lookup that fails is an error, so in code that is made all of them succeed.
  cases hunit : env.units.findIdx? (·.lambda.id == l.id) with
  | none => simp [hunit, error_ok] at h
  | some unit =>
    cases hplace : env.plan.nestedPlace? unit with
    | none => simp [hunit, hplace, error_ok] at h
    | some j =>
      simp only [hunit, hplace, Option.bind_some, Option.map_some, bind_ok] at h
      obtain ⟨_, s₁, hpush, h⟩ := h
      obtain ⟨i, hi, rfl⟩ := pushEntry_ok hpush
      cases hform : env.compiled[unit]? with
      | none => simp [hform, error_ok] at h
      | some form =>
        refine ⟨unit, j, form, i, rfl, hplace, hform, hi, ?_⟩
        rw [hform] at h
        cases form with
        | bound v => exact .inl ⟨v, rfl, (pure_ok.1 h).2⟩
        | opened v captures =>
          simp only [bind_ok, emit_ok] at h
          obtain ⟨is, s₂, hcells, _, s₃, hall, hcurry⟩ := h
          obtain rfl := emitAll_ok hall
          exact .inr ⟨v, captures, is, s₂, rfl, hcells, hcurry⟩

/-- The same where the draft has everything that the cells need. -/
theorem pushLambda_ok {l : Lambda} {f : Usage} {a : Unit} (h : pushLambda l f env s = .ok (a, t))
    (hs : s.Fit env) : env.supplied = none ∧ (f.discarded = true ∧ s = t ∨
      f.discarded = false ∧ ∃ unit j form i, env.units.findIdx? (·.lambda.id == l.id) = some unit ∧
        env.plan.nestedPlace? unit = some j ∧ env.compiled[unit]? = some form ∧
        s.Loads (env.plan.constants.length + j) i ∧
        ((∃ v, form = .bound v ∧ s.emitted i = t) ∨
          ∃ v captures is, form = .opened v captures ∧ is.length = captures.length ∧
            (∀ i ∈ is, i.pushesCell = true ∧ ∀ ρ ∈ i.refs, s.Holds env ρ) ∧
            s.emittedAll (i :: is ++ [.curry is.length]) = t)) := by
  obtain ⟨hsup, h⟩ := pushLambda_cases h
  refine ⟨hsup, h.imp_right fun ⟨hd, unit, j, form, i, hunit, hplace, hform, hi, h⟩ =>
    ⟨hd, unit, j, form, i, hunit, hplace, hform, hi, h.imp_right ?_⟩⟩
  rintro ⟨v, captures, is, s₁, rfl, hcells, rfl⟩
  have hq := Quiet.emitted s i
  -- The cells are found in the draft that has the unit loaded already.
  have hs₁ : (s.emitted i).Fit env := hs.leads hq.leads (hq.sound hs.sound) rfl
    (fun id k hk => (hs.slots id k hk).leads hq.leads rfl)
    fun k hk => (hs.caught k hk).leads hq.leads rfl
  obtain ⟨rfl, hlen, his⟩ := cellLoads_ok hcells hs₁
  refine ⟨v, captures, is, rfl, hlen, fun j hj => ⟨(his j hj).1, fun ρ hρ => ?_⟩, ?_⟩
  · have := (his j hj).2 ρ hρ
    cases ρ <;> exact this
  · rw [List.cons_append, emittedAll_cons, emittedAll_append]
    rfl

theorem pushLambda_traced {l : Lambda} {f : Usage} : Traced env J Γ (pushLambda l f) := by
  intro s a s' h hs _ _
  obtain ⟨hsup, ⟨-, rfl⟩ | ⟨-, unit, j, form, i, -, hplace, hform, hi, hcode⟩⟩ := pushLambda_ok h hs
  · exact .refl s
  obtain ⟨hlt, hunit, -⟩ := List.findIdx?_eq_some_iff_getElem.1 hplace
  have hget : env.plan.nested[j]? = some env.plan.nested[j] := List.getElem?_eq_getElem hlt
  rcases hcode with ⟨v, -, rfl⟩ | ⟨v, captures, is, rfl, hlen, his, rfl⟩
  · have hk : env.plan.constants.length + j < env.entries := by
      simp only [LowerEnv.entries, hsup]
      omega
    exact .of_act (.entry hk hi) rfl
  · have hopens : env.Opens (env.plan.constants.length + j) is.length := by
      refine ⟨hsup, j, _, v, captures, hget, rfl, ?_, hlen.symm⟩
      rw [← hform]
      exact congrArg _ (by simpa using hunit)
    exact .of_act (.closure hopens hi his) (Quiet.emittedAll s _).handlers

/-! ## Scopes -/

/-- Scopes change; every slot that comes into scope may be named. -/
theorem Runs.scope {s t : Draft} (hq : Quiet s t) (hs : s.Fit env) (hi : t.instrs = s.instrs)
    (hh : t.hoisted = s.hoisted)
    (hslots : ∀ id k, t.slots.get? id = some k →
      s.slots.get? id = some k ∨ t.Holds env (.slot k))
    (hcaught : ∀ k ∈ t.caught, k ∈ s.caught ∨ t.Holds env (.slot k)) : Runs env s t := by
  refine .of_act (.adjust hq hi hh (fun id k hk => ?_) fun k hk => ?_) hq.handlers
  · exact (hslots id k hk).elim (fun h => (hs.slots id k h).leads hq.leads hh) fun h => h
  · exact (hcaught k hk).elim (fun h => (hs.caught k h).leads hq.leads hh) fun h => h

theorem bringIn_runs {v : Var} {slot : Nat} {hidden : Option Nat}
    (h : bringIn v env s = .ok ((slot, hidden), t)) (hs : s.Fit env) :
    Runs env s t ∧ t.Holds env (.slot slot) ∧ ∀ k, hidden = some k → t.Holds env (.slot k) := by
  have hq := bringIn_quiet h
  obtain ⟨-, rfl, rfl, rfl⟩ := bringIn_ok.1 h
  have hnew := hs.new (Nat.le_refl s.numLocals)
  refine ⟨.scope hq hs rfl rfl (fun id k hk => ?_) fun k hk => .inl hk, ⟨Nat.lt_succ_self _, hnew⟩,
    fun k hk => ?_⟩
  · by_cases hid : id = v.id
    · obtain rfl : s.numLocals = k := by simpa [hid] using hk
      exact .inr ⟨Nat.lt_succ_self _, hnew⟩
    · exact .inl (by simpa [hid] using hk)
  · exact (hs.slots v.id k hk).leads hq.leads rfl

theorem initialise_traced {v : Var} {slot : Nat} (hslot : .slot slot ∈ Γ) :
    Traced env J Γ (initialise v slot) := by
  refine .read_bind ?_
  cases env.plan.isBoxed v.id <;> exact .naming rfl rfl hslot

theorem bringInAll_runs {vars : List Var} {hidden : List (Option Nat)}
    (h : bringInAll vars env s = .ok (hidden, t)) (hs : s.Fit env) :
    Runs env s t ∧ ∀ k, some k ∈ hidden → t.Holds env (.slot k) := by
  induction vars generalizing s hidden with
  | nil =>
    obtain ⟨rfl, rfl⟩ := pure_ok.1 h
    exact ⟨.refl s, by simp⟩
  | cons v vs ih =>
    simp only [bringInAll, bind_ok, pure_ok] at h
    obtain ⟨⟨slot, hid⟩, s₁, hin, _, s₂, hpush, _, s₃, hinit, rest, _, hrest, rfl, rfl⟩ := h
    obtain ⟨hrun₁, hslot, hhid⟩ := bringIn_runs hin hs
    have hs₁ := hrun₁.path.fit hs
    have hrun₂ := pushValue_traced (J := []) (Γ := []) s₁ _ s₂ hpush hs₁ (by simp) (by simp)
    have hrun₃ := initialise_traced (J := []) (Γ := [.slot slot]) (by simp) s₂ _ s₃ hinit
      (hrun₂.path.fit hs₁) (by simp) (by simpa using hrun₂.path.holds hslot)
    obtain ⟨hrun₄, hheld⟩ := ih hrest (hrun₃.path.fit (hrun₂.path.fit hs₁))
    refine ⟨hrun₁.trans (hrun₂.trans (hrun₃.trans hrun₄)), fun k hk => ?_⟩
    rcases List.mem_cons.1 hk with hk | hk
    · exact (hrun₂.trans (hrun₃.trans hrun₄)).path.holds (hhid k hk.symm)
    · exact hheld k hk

theorem takeOut_runs {v : Var} {hidden : Option Nat} {a : Unit}
    (h : takeOut v hidden env s = .ok (a, t)) (hs : s.Fit env)
    (hheld : ∀ k, hidden = some k → s.Holds env (.slot k)) : Runs env s t := by
  obtain rfl := modify_ok.1 h
  have hq := Quiet.of_scope s (s.slots.restore v.id hidden) s.caught s.cleanups s.depth
    s.nextCleanup s.reachable (Nat.le_refl _)
  refine .scope hq hs rfl rfl (fun id k hk => ?_) fun k hk => .inl hk
  rw [Slots.get?_restore] at hk
  split at hk
  · exact .inr (hheld k hk)
  · exact .inl hk

theorem takeOutAll_runs {vars : List Var} {hidden : List (Option Nat)} {a : Unit}
    (h : takeOutAll vars hidden env s = .ok (a, t)) (hs : s.Fit env)
    (hheld : ∀ k, some k ∈ hidden → s.Holds env (.slot k)) : Runs env s t := by
  induction vars generalizing s hidden with
  | nil =>
    obtain ⟨-, rfl⟩ := pure_ok.1 h
    exact .refl s
  | cons v vs ih =>
    cases hidden with
    | nil =>
      obtain ⟨-, rfl⟩ := pure_ok.1 h
      exact .refl s
    | cons x hidden =>
      obtain ⟨_, s₁, h₁, h₂⟩ := bind_ok.1 h
      have hrun := takeOut_runs h₁ hs fun k hk => hheld k (by simp [hk])
      exact hrun.trans (ih h₂ (hrun.path.fit hs) fun k hk =>
        hrun.path.holds (hheld k (List.mem_cons_of_mem _ hk)))

theorem block_traced {vars : List Var} {x : LowerM Unit} (h : Traced env J Γ x) :
    Traced env J Γ (do
      let hidden ← bringInAll vars
      x
      takeOutAll vars hidden) := by
  intro s a s' hx hs hJ hΓ
  simp only [bind_ok] at hx
  obtain ⟨hidden, s₁, h₁, _, s₂, h₂, h₃⟩ := hx
  obtain ⟨hrun₁, hheld⟩ := bringInAll_runs h₁ hs
  have hs₁ := hrun₁.path.fit hs
  have hrun₂ := h s₁ _ s₂ h₂ hs₁
    (fun r hr => Nat.lt_of_lt_of_le (hJ r hr) hrun₁.path.leads.labels_le)
    fun ρ hρ => hrun₁.path.holds (hΓ ρ hρ)
  exact hrun₁.trans (hrun₂.trans (takeOutAll_runs h₃ (hrun₂.path.fit hs₁) fun k hk =>
    hrun₂.path.holds (hheld k hk)))

theorem handler_traced {v : Var} {x : Nat → LowerM Unit}
    (h : ∀ slot, Traced env J (.slot slot :: Γ) (x slot)) : Traced env J Γ (do
      let (slot, hidden) ← bringIn v
      x slot
      takeOut v hidden) := by
  intro s a s' hx hs hJ hΓ
  simp only [bind_ok] at hx
  obtain ⟨⟨k, hidden⟩, s₁, h₁, _, s₂, h₂, h₃⟩ := hx
  obtain ⟨hrun₁, hslot, hheld⟩ := bringIn_runs h₁ hs
  have hs₁ := hrun₁.path.fit hs
  have hrun₂ := h k s₁ _ s₂ h₂ hs₁
    (fun r hr => Nat.lt_of_lt_of_le (hJ r hr) hrun₁.path.leads.labels_le) fun ρ hρ => by
      rcases List.mem_cons.1 hρ with rfl | hρ
      · exact hslot
      · exact hrun₁.path.holds (hΓ ρ hρ)
  exact hrun₁.trans (hrun₂.trans (takeOut_runs h₃ (hrun₂.path.fit hs₁) fun k hk =>
    hrun₂.path.holds (hheld k hk)))

theorem caught_traced {slot : Nat} {x : LowerM Unit} (hslot : .slot slot ∈ Γ)
    (h : Traced env J Γ x) : Traced env J Γ (do
      modify fun s => { s with caught := slot :: s.caught }
      x
      modify fun s => { s with caught := s.caught.tail }) := by
  intro s a s' hx hs hJ hΓ
  simp only [modify_bind, bind_ok, modify_ok] at hx
  obtain ⟨_, s₂, h₂, rfl⟩ := hx
  have hrun₁ : Runs env s { s with caught := slot :: s.caught } := by
    refine .scope (.of_scope s _ _ _ _ _ _ (Nat.le_refl _)) hs rfl rfl (fun id k hk => .inl hk)
      fun k hk => ?_
    rcases List.mem_cons.1 hk with rfl | hk
    · exact .inr (hΓ _ hslot)
    · exact .inl hk
  have hs₁ := hrun₁.path.fit hs
  have hrun₂ := h _ _ s₂ h₂ hs₁ hJ fun ρ hρ => hrun₁.path.holds (hΓ ρ hρ)
  exact hrun₁.trans (hrun₂.trans (.scope (.of_scope s₂ _ _ _ _ _ _ (Nat.le_refl _))
    (hrun₂.path.fit hs₁) rfl rfl (fun id k hk => .inl hk) fun k hk => .inl (List.mem_of_mem_tail hk)))

/-! ## Labels -/

theorem jumpTo_traced {i : Instr} {r : Nat} (hi : i.target?.isSome = true) (hr : r ∈ J) :
    Traced env J Γ (jumpTo i r) :=
  fun _ _ _ h _ hJ _ => .of_act (.jump hi (hJ r hr) h) (jumpTo_jumped h).quiet.handlers

theorem placeLabel_traced {r : Nat} (hr : r ∈ J) : Traced env J Γ (placeLabel r) :=
  fun _ _ _ h _ hJ _ => .of_act (.place (hJ r hr) h) (placeLabel_handlers h (hJ r hr))

theorem freshLabel_traced : Traced env J Γ freshLabel := by
  intro s r s' h _ _ _
  obtain ⟨rfl, rfl⟩ := freshLabel_ok.1 h
  exact .of_act (.label rfl rfl (by simp) (Nat.le_refl _) (.inl rfl)) rfl

theorem freshLabel_lt {r : Nat} (h : freshLabel env s = .ok (r, t)) : r < t.labels.size := by
  obtain ⟨rfl, rfl⟩ := freshLabel_ok.1 h
  simp

theorem programLabel_traced {l : Label} : Traced env J Γ (programLabel l) := by
  intro s r s' h _ _ _
  rcases programLabel_cases h with ⟨-, rfl⟩ | ⟨hnone, rfl, k, n, hk, rfl⟩
  · exact .refl s
  · exact .of_act (.label rfl rfl (by grind) (by grind) (.inr ⟨l.id, hnone, rfl⟩)) rfl

theorem programLabel_lt {l : Label} {r : Nat} (h : programLabel l env s = .ok (r, t))
    (hs : s.Sound) : r < t.labels.size := by
  rcases programLabel_cases h with ⟨hl, rfl⟩ | ⟨-, rfl, k, n, -, rfl⟩
  · exact hs.named_lt _ _ hl
  · simp

/-! ## Protected regions -/

theorem resumeAt_traced {d : Nat} : Traced env J Γ (resumeAt d) :=
  .quiet fun s _ _ h => modify_ok.1 h ▸
    ⟨.of_scope s _ _ _ _ _ _ (Nat.le_refl _), ⟨fun _ => rfl, rfl, rfl, rfl⟩, rfl⟩

theorem keepResult_traced {r : Option Nat} (hr : ∀ k, r = some k → .slot k ∈ Γ) :
    Traced env J Γ (keepResult r) := by
  cases r with
  | none => exact .pure
  | some k => exact .naming rfl rfl (hr k rfl)

/-- The slots of the results of a region. -/
abbrev resultRefs (result : Option Nat) : List Ref := result.toList.map .slot

theorem catches_runs {start stop depth done : Nat} {result : Option Nat} {f : Usage}
    {ks : List CatchPart} {cs : List Handler}
    (hk : ∀ k ∈ ks, ∀ J Γ slot f, .slot slot ∈ Γ → Traced env J Γ (catchBody k slot f))
    (h : catches start stop depth result done f ks env s = .ok (cs, t)) (hs : s.Fit env)
    (hdone : done < s.labels.size) (hresult : ∀ ρ ∈ resultRefs result, s.Holds env ρ) :
    Runs env s t ∧ ∀ c ∈ cs, Entered env s t c ∧
      ∀ ty k q, c.kind = .catching ty k q → t.Holds env (.slot k) := by
  induction ks generalizing s cs with
  | nil =>
    obtain ⟨rfl, rfl⟩ := pure_ok.1 h
    exact ⟨.refl s, by simp⟩
  | cons k ks ih =>
    have hall := h
    simp only [catches, bind_ok, position_ok, pure_ok] at h
    obtain ⟨_, s₁, h₁, _, _, ⟨rfl, rfl⟩, slot, s₂, h₂, _, s₃, h₃, _, s₄, h₄, _, s₅, h₅, rest, s₆,
      h₆, rfl, rfl⟩ := h
    have hrun₁ := resumeAt_traced (J := []) (Γ := []) s _ s₁ h₁ hs (by simp) (by simp)
    have hs₁ := hrun₁.path.fit hs
    have hrun₂ := Traced.newSlot (J := []) (Γ := []) s₁ _ s₂ h₂ hs₁ (by simp) (by simp)
    have hs₂ := hrun₂.path.fit hs₁
    have hslot := newSlot_holds h₂ hs₁
    -- The body of the handler, the store of its value and the way out.
    have hcode : Traced env [done] (.slot slot :: resultRefs result) (do
        catchBody k slot f
        keepResult result
        jumpTo (.leave 0) done) :=
      (hk k (by simp) _ _ _ _ (by simp)).bind fun _ =>
        (keepResult_traced (by rintro k rfl; simp)).bind fun _ => jumpTo_traced rfl (by simp)
    have hrun₅ : Runs env s₂ s₅ := by
      refine hcode s₂ () s₅ (by simpa only [bind_ok] using ⟨_, s₃, h₃, _, s₄, h₄, h₅⟩) hs₂ ?_ ?_
      · simpa using Nat.lt_of_lt_of_le hdone (hrun₁.trans hrun₂).path.leads.labels_le
      · intro ρ hρ
        rcases List.mem_cons.1 hρ with rfl | hρ
        · exact hslot
        · exact (hrun₁.trans hrun₂).path.holds (hresult ρ hρ)
    have hrun := hrun₁.trans (hrun₂.trans hrun₅)
    obtain ⟨hrun₆, hrest⟩ := ih (fun k hk' => hk k (by simp [hk'])) h₆ (hrun.path.fit hs)
      (Nat.lt_of_lt_of_le hdone hrun.path.leads.labels_le)
      fun ρ hρ => hrun.path.holds (hresult ρ hρ)
    refine ⟨hrun.trans hrun₆, fun c hc => ?_⟩
    rcases List.mem_cons.1 hc with rfl | hc
    · refine ⟨⟨s, s₆, .refl s, .catching hall, (hrun.trans hrun₆).path, .refl s₆, ?_⟩, fun ty k' q hkind => ?_⟩
      · obtain rfl := modify_ok.1 h₁
        rfl
      · cases hkind
        exact (hrun₅.trans hrun₆).path.holds hslot
    · exact ⟨(hrest c hc).1.extend hrun.path (.refl s₆), (hrest c hc).2⟩

theorem cleanupBlock_runs {start stop depth : Nat} {f : Usage} {o : Option CleanupPart}
    {cs : List Handler} (ho : ∀ k, o = some k → ∀ J Γ f, Traced env J Γ (k.block.emit f))
    (h : cleanupBlock start stop depth f o env s = .ok (cs, t)) (hs : s.Fit env) :
    Runs env s t ∧ ∀ c ∈ cs, Entered env s t c ∧ ∀ ty k q, c.kind ≠ .catching ty k q := by
  cases o with
  | none =>
    obtain ⟨rfl, rfl⟩ := pure_ok.1 h
    exact ⟨.refl s, by simp⟩
  | some p =>
    have hall := h
    simp only [cleanupBlock, resumeAt, modify_bind, position_bind, bind_ok, emit_bind,
      pure_ok] at h
    obtain ⟨_, s₂, h₂, rfl, rfl⟩ := h
    have hrun₁ : Runs env s { s with
        depth := depth, reachable := true, cleanups := s.nextCleanup :: s.cleanups
        nextCleanup := s.nextCleanup + 1 } :=
      .scope (.of_scope s _ _ _ _ _ _ (Nat.le_succ _)) hs rfl rfl (fun id k hk => .inl hk)
        fun k hk => .inl hk
    have hs₁ := hrun₁.path.fit hs
    have hrun₂ := ho p rfl [] [] f.effect _ _ s₂ h₂ hs₁ (by simp) (by simp)
    have hrun₃ : Runs env s₂ { s₂ with cleanups := s₂.cleanups.tail } :=
      .scope (.of_scope s₂ _ _ _ _ _ _ (Nat.le_refl _)) (hrun₂.path.fit hs₁) rfl rfl
        (fun id k hk => .inl hk) fun k hk => .inl hk
    have hrun := hrun₁.trans (hrun₂.trans (hrun₃.trans (.of_act .endFinally rfl)))
    refine ⟨hrun, fun c hc => ?_⟩
    obtain rfl := List.mem_singleton.1 hc
    refine ⟨⟨s, _, .refl s, .cleanup hall, hrun.path, .refl _, ?_⟩, fun ty k q hkind => ?_⟩
    · cases p.isFinally <;> rfl
    · cases hfin : p.isFinally <;> simp [hfin] at hkind

theorem regionWith_traced {p : Part} {hs : List CatchPart} {o : Option CleanupPart} {f : Usage}
    {result : Option Nat} (hresult : ∀ k, result = some k → .slot k ∈ Γ)
    (hp : ∀ J Γ f, Traced env J Γ (p.emit f))
    (hh : ∀ k ∈ hs, ∀ J Γ slot f, .slot slot ∈ Γ → Traced env J Γ (catchBody k slot f))
    (ho : ∀ k, o = some k → ∀ J Γ f, Traced env J Γ (k.block.emit f)) :
    Traced env J Γ (regionWith p hs o f result) := by
  intro s a s' hx hs₀ hJ hΓ
  obtain ⟨done, s₁, s₃, s₄, s₅, cs, s₆, ks, s₇, s₉, h₁, h₃, h₄, h₅, h₆, h₇, h₉, h⟩ :=
    regionWith_ok hx
  have hrefs : ∀ ρ ∈ resultRefs result, s.Holds env ρ := fun ρ hρ => by
    obtain ⟨k, hk, rfl⟩ := List.mem_map.1 hρ
    exact hΓ _ (hresult k (by simpa using hk))
  have hrun₁ := freshLabel_traced (J := []) (Γ := []) s _ s₁ h₁ hs₀ (by simp) (by simp)
  have hs₁ := hrun₁.path.fit hs₀
  have hdone := freshLabel_lt h₁
  -- The protected code, the store of its value and the way out.
  have hcode : Traced env [done] (resultRefs result) (do
      emit .nop
      p.emit { guarded := true, discarded := result.isNone }
      keepResult result
      jumpTo (.leave 0) done) :=
    (Traced.emit rfl (by simp [Instr.refs])).bind fun _ => (hp _ _ _).bind fun _ =>
      (keepResult_traced (by rintro k rfl; simp)).bind fun _ => jumpTo_traced rfl (by simp)
  have hrun₅ : Runs env s₁ s₅ := by
    refine hcode s₁ () s₅ ?_ hs₁ (by simpa using hdone) fun ρ hρ => hrun₁.path.holds (hrefs ρ hρ)
    simp only [bind_ok]
    exact ⟨(), _, emit_ok.2 rfl, _, s₃, h₃, _, s₄, h₄, h₅⟩
  have hs₅ := hrun₅.path.fit hs₁
  obtain ⟨hrun₆, hcs⟩ := catches_runs hh h₆ hs₅
    (Nat.lt_of_lt_of_le hdone hrun₅.path.leads.labels_le)
    fun ρ hρ => (hrun₁.trans hrun₅).path.holds (hrefs ρ hρ)
  have hs₆ := hrun₆.path.fit hs₅
  obtain ⟨hrun₇, hks⟩ := cleanupBlock_runs ho h₇ hs₆
  have hs₇ := hrun₇.path.fit hs₆
  have hrun : Runs env s s₇ := hrun₁.trans (hrun₅.trans (hrun₆.trans hrun₇))
  have hle₆ := hrun₆.path.leads.size_le
  have hle₇ := hrun₇.path.leads.size_le
  -- Now the entries are added.
  have hact : Act env s₇ { s₇ with handlers := s₇.handlers ++ (cs ++ ks) } := by
    refine .regions (fun c hc => ?_) fun c hc ty k q hkind => ?_
    · rcases List.mem_append.1 hc with hc | hc
      · have := catches_span h₆ c hc
        omega
      · have := cleanupBlock_span h₇ c hc
        omega
    · rcases List.mem_append.1 hc with hc | hc
      · exact hrun₇.path.holds ((hcs c hc).2 ty k q hkind)
      · exact absurd hkind ((hks c hc).2 ty k q)
  have hrun₈ : Runs env s { s₇ with handlers := s₇.handlers ++ (cs ++ ks) } := by
    refine ⟨hrun.path.tail hact, fun x hx => ?_⟩
    rcases List.mem_append.1 hx with hx | hx
    · exact (hrun.entered x hx).imp_right fun hx => hx.extend (.refl s) (.act hact)
    · right
      rcases List.mem_append.1 hx with hx | hx
      · exact (hcs x hx).1.extend (hrun₁.trans hrun₅).path (hrun₇.path.tail hact)
      · exact (hks x hx).1.extend (hrun₁.trans (hrun₅.trans hrun₆)).path (.act hact)
  have hle := (hrun₅.trans (hrun₆.trans hrun₇)).path.leads.labels_le
  have hrun₉ : Runs env _ s₉ := placeLabel_traced (J := [done]) (Γ := []) (by simp) _ _ s₉ h₉
    (hrun₈.path.fit hs₀) (by simpa using Nat.lt_of_lt_of_le hdone hle) (by simp)
  have hrun₉ := hrun₈.trans hrun₉
  have hs₉ := hrun₉.path.fit hs₀
  -- The value of the region is pushed if it is used.
  refine hrun₉.trans ?_
  cases result with
  | some slot =>
    have hload : Traced env [] [.slot slot] (if !f.discarded && !p.ty.isVoid then
        emit (.loadLocal slot) else Pure.pure ()) := .ite (.naming rfl rfl (by simp)) .pure
    refine hload s₉ a s' h hs₉ (by simp) fun ρ hρ => ?_
    exact hrun₉.path.holds (hrefs ρ (by simpa [eq_comm] using hρ))
  | none =>
    have hload : Traced env [] [] (if !f.discarded && !p.ty.isVoid then
        Pure.pure () else Pure.pure ()) := .ite .pure .pure
    exact hload s₉ a s' h hs₉ (by simp) (by simp)

/-- **Running is a rule of lowering.** -/
theorem traced_rule (env : LowerEnv) :
    Rule (fun _ => True) fun _ J _ Γ _ x => Traced env J Γ x where
  mono h hJ _ hΓ := h.mono hJ hΓ
  pure _ := .pure
  bind := .bind
  read := .read
  unsupported _ := .unsupported
  error _ := .error
  emit hi _ := .emit hi
  assumePushed := .quiet fun s _ _ h => modify_ok.1 h ▸
    ⟨.of_eq rfl rfl rfl rfl (Nat.le_refl _) (Nat.le_refl _) ⟨rfl, rfl, rfl, rfl⟩,
      ⟨fun _ => rfl, rfl, rfl, rfl⟩, rfl⟩
  newSlot := Traced.newSlot.bindName fun _ _ _ h hs => newSlot_holds h hs
  literal hi := Traced.literal.bindName (fun _ _ _ h _ => literal_holds h) fun k =>
    .naming (Instr.isStraight_of_literal (hi k)) (Instr.refs_of_literal (hi k)) (by simp)
  typeEntry := (Traced.tabled fun _ _ _ h => (typeEntry_ok h).1).bindName fun _ _ _ h _ =>
    (Array.getElem?_eq_some_iff.1 (typeEntry_ok h).2).1
  methodEntry := (Traced.tabled fun _ _ _ h => (methodEntry_ok h).1).bindName fun _ _ _ h _ =>
    (Array.getElem?_eq_some_iff.1 (methodEntry_ok h).2).1
  structEntry := (Traced.tabled fun _ _ _ h => (structEntry_ok h).1).bindName fun _ _ _ h _ =>
    (Array.getElem?_eq_some_iff.1 (structEntry_ok h).2).1
  jump := jumpTo_traced
  place hr _ := placeLabel_traced hr
  fresh := freshLabel_traced.bindLabel fun _ _ _ h _ => freshLabel_lt h
  program _ := programLabel_traced.bindLabel fun _ _ _ h hs => programLabel_lt h hs.sound
  mention _ := programLabel_traced.bindLabel fun _ _ _ h hs => programLabel_lt h hs.sound
  carried {_ J _ Γ α r f} hf := by
    intro s b s' h hs hJ hΓ
    obtain ⟨l, s₁, h₁, h₂⟩ := bind_ok.1 h
    obtain ⟨rfl, rfl⟩ := labelAt_ok.1 h₁
    refine hf _ s b s' h₂ hs hJ fun ρ hρ => ?_
    -- A name is that of the slot of the label, or was known before.
    rcases List.mem_append.1 hρ with hρ | hρ
    · obtain ⟨k, hk, rfl⟩ := List.mem_map.1 hρ
      cases hl : s.labels[r]? with
      | none => simp [hl] at hk
      | some l => exact hs.carried r l k hl (by simpa [hl] using hk)
    · exact hΓ ρ hρ
  handling hf := by
    intro s b s' h hs hJ hΓ
    rw [get_bind] at h
    cases hc : s.caught with
    | nil => simp [hc, unsupported_ok] at h
    | cons k ks =>
      rw [hc] at h
      refine hf k s b s' h hs hJ fun ρ hρ => ?_
      -- Only inside a handler there is an exception to name, and its slot is there.
      rcases List.mem_cons.1 hρ with rfl | hρ
      · exact hs.caught k (by simp [hc])
      · exact hΓ ρ hρ
  home _ := homeOf_traced.bindName fun _ _ _ h hs => homeOf_holds h hs
  constant _ := pushConstant_traced
  lambda _ := pushLambda_traced
  block _ := block_traced
  caught := caught_traced
  handler := handler_traced
  region hresult hp hh ho := regionWith_traced hresult (fun J Γ f => hp J [] Γ f)
    (fun k hk J Γ slot f hslot => hh k hk J [] Γ slot f hslot) fun k hk J Γ f => ho k hk J [] Γ f

/-! ## Units -/

/-- A number that an instruction names is inside its table. -/
def Draft.InRange (env : LowerEnv) (s : Draft) : Ref → Prop
  | .slot k => k < s.numLocals
  | .constant k => k < env.entries
  | ρ => s.Holds env ρ

/-- The draft after the prologue of a unit. Each entry of the record that has a slot is
stored there by two instructions that follow one another, and by no other. -/
structure Draft.Begun (env : LowerEnv) (s : Draft) : Prop where
  fit : s.Fit env
  straight : ∀ (p : Nat) (i : Instr), s.instrs[p]? = some i → i.isStraight = true
  refs : ∀ (p : Nat) (i : Instr), s.instrs[p]? = some i → ∀ ρ ∈ i.refs, s.InRange env ρ
  labels : s.labels = #[]
  handlers : s.handlers = []
  cleanups : s.cleanups = []
  hoists : ∀ x ∈ s.hoisted, ∃ h : Nat, s.instrs[h]? = some (.loadConstant x.1) ∧
    s.instrs[h + 1]? = some (.storeLocal x.2) ∧
      ∀ (p : Nat) (i : Instr), s.instrs[p]? = some i → i.writes? = some x.2 → p = h + 1

namespace Draft

theorem begun_empty (env : LowerEnv) : ({} : Draft).Begun env where
  fit := ⟨⟨by simp, by simp, by simp, by simp, by simp, by simp⟩, by simp [Slots.get?], by simp,
    by simp, by simp⟩
  straight := by simp
  refs := by simp
  labels := rfl
  handlers := rfl
  cleanups := rfl
  hoists := by simp

/-- The instructions of a draft and one more. -/
theorem getElem?_emitted_cases {i i' : Instr} {p : Nat} (h : (s.emitted i).instrs[p]? = some i') :
    s.instrs[p]? = some i' ∨ p = s.instrs.size ∧ i' = i := by
  by_cases hp : p < s.instrs.size
  · refine .inl ?_
    simp only [emitted] at h
    rwa [Array.getElem?_push_lt hp, ← Array.getElem?_eq_getElem hp] at h
  · exact .inr (getElem?_emitted (Nat.not_lt.1 hp) h)

theorem Holds.inRange {ρ : Ref} (h : s.Holds env ρ) : s.InRange env ρ := by
  cases ρ with
  | slot _ => exact h.1
  | constant _ => exact h.elim
  | _ => exact h

/-- An entry of the record is loaded from the record, or from a slot. -/
theorem Fit.loads_inRange {k : Nat} {i : Instr} {ρ : Ref} (hs : s.Fit env) (hk : k < env.entries)
    (h : s.Loads k i) (hρ : ρ ∈ i.refs) : s.InRange env ρ := by
  rcases h with rfl | ⟨slot, hslot, rfl⟩
  · obtain rfl := List.mem_singleton.1 hρ
    exact hk
  · obtain rfl := List.mem_singleton.1 hρ
    obtain ⟨l₁, l₂, heq, -⟩ := List.lookup_eq_some_iff.1 hslot
    exact (hs.hoisted (k, slot) (by simp [heq])).2

theorem InRange.leads {ρ : Ref} (h : s.InRange env ρ) (hst : s.Leads t) : t.InRange env ρ := by
  cases ρ with
  | slot k => exact Nat.lt_of_lt_of_le h hst.numLocals_le
  | literal k => exact Nat.lt_of_lt_of_le h hst.literals.size_le
  | type k => exact Nat.lt_of_lt_of_le h hst.types.size_le
  | method k => exact Nat.lt_of_lt_of_le h hst.methods.size_le
  | struct k => exact Nat.lt_of_lt_of_le h hst.structs.size_le
  | constant _ => exact h
  | captured _ => exact h
  | cells _ => exact h

/-- A slot is named that holds no entry of the record. -/
theorem Begun.emitted (h : s.Begun env) {i : Instr} {k : Nat} (hi : i.isStraight = true)
    (hrefs : i.refs = [.slot k]) (hk : s.Holds env (.slot k)) : (s.emitted i).Begun env := by
  have hact : Act env s (s.emitted i) := .emit hi (by simpa [hrefs] using hk)
  refine ⟨hact.fit h.fit, fun p i' hi' => ?_, fun p i' hi' ρ hρ => ?_, h.labels, h.handlers,
    h.cleanups, fun x hx => ?_⟩
  · rcases getElem?_emitted_cases hi' with hi' | ⟨-, rfl⟩
    · exact h.straight p i' hi'
    · exact hi
  · rcases getElem?_emitted_cases hi' with hi' | ⟨-, rfl⟩
    · exact (h.refs p i' hi' ρ hρ).leads hact.leads
    · obtain rfl : ρ = .slot k := by simpa [hrefs] using hρ
      exact hk.1
  · obtain ⟨p, h₁, h₂, hall⟩ := h.hoists x hx
    refine ⟨p, (Quiet.emitted s i).instrs _ _ h₁, (Quiet.emitted s i).instrs _ _ h₂,
      fun q i' hi' hw => ?_⟩
    rcases getElem?_emitted_cases hi' with hi' | ⟨-, rfl⟩
    · exact hall q i' hi' hw
    · -- The instruction would have to name the slot of the entry.
      rw [Instr.refs_of_writes hw] at hrefs
      obtain rfl : x.2 = k := by simpa using hrefs
      exact absurd (List.mem_map_of_mem hx) hk.2

/-- An entry of the record gets a slot, which is stored to by the two instructions that
are added. -/
theorem Begun.hoisted (h : s.Begun env) {k : Nat} (hk : k < env.entries) :
    ({ ((({ s with numLocals := s.numLocals + 1 } : Draft).emitted (.loadConstant k)).emitted
        (.storeLocal s.numLocals)) with
      hoisted := (k, s.numLocals) :: s.hoisted } : Draft).Begun env := by
  -- The slot is new, so it is none of those that are in use already.
  have hold : ∀ {j}, s.Holds env (.slot j) →
      j < s.numLocals + 1 ∧ j ∉ ((k, s.numLocals) :: s.hoisted).map (·.2) := fun hj => by
    refine ⟨Nat.lt_succ_of_lt hj.1, ?_⟩
    simp only [List.map_cons, List.mem_cons, not_or]
    exact ⟨Nat.ne_of_lt hj.1, hj.2⟩
  generalize hs₁ : ({ s with numLocals := s.numLocals + 1 } : Draft) = s₁
  have hq : Quiet s s₁ := hs₁ ▸
    .of_eq rfl rfl rfl rfl (Nat.le_succ _) (Nat.le_refl _) ⟨rfl, rfl, rfl, rfl⟩
  have hq₂ := (hq.trans (Quiet.emitted s₁ (.loadConstant k))).trans
    (Quiet.emitted _ (.storeLocal s.numLocals))
  have hcases : ∀ {p : Nat} {i : Instr},
      ((s₁.emitted (.loadConstant k)).emitted (.storeLocal s.numLocals)).instrs[p]? = some i →
        s.instrs[p]? = some i ∨ p = s.instrs.size ∧ i = .loadConstant k ∨
          p = s.instrs.size + 1 ∧ i = .storeLocal s.numLocals := by
    intro p i hi
    subst hs₁
    rcases getElem?_emitted_cases hi with hi | ⟨rfl, rfl⟩
    · rcases getElem?_emitted_cases hi with hi | ⟨rfl, rfl⟩
      · exact .inl hi
      · exact .inr (.inl ⟨rfl, rfl⟩)
    · exact .inr (.inr ⟨by simp [Draft.emitted], rfl⟩)
  have hsound := hq₂.sound h.fit.sound
  subst hs₁
  refine ⟨⟨⟨hsound.named_lt, hsound.named_inj, hsound.slot_lt, hsound.slot_inj, hsound.fixup_lt,
    hsound.stop_le⟩, fun id j hj => hold (h.fit.slots id j hj), fun j hj => hold (h.fit.caught j hj),
    fun r l j hl hj => hold (h.fit.carried r l j hl hj), fun x hx => ?_⟩, fun p i hi => ?_,
    fun p i hi ρ hρ => ?_, h.labels, h.handlers, h.cleanups, fun x hx => ?_⟩
  · rcases List.mem_cons.1 hx with rfl | hx
    · exact ⟨hk, Nat.lt_succ_self _⟩
    · exact ⟨(h.fit.hoisted x hx).1, Nat.lt_succ_of_lt (h.fit.hoisted x hx).2⟩
  · rcases hcases hi with hi | ⟨-, rfl⟩ | ⟨-, rfl⟩
    · exact h.straight p i hi
    · rfl
    · rfl
  · rcases hcases hi with hi | ⟨-, rfl⟩ | ⟨-, rfl⟩
    · have := (h.refs p i hi ρ hρ).leads hq₂.leads
      cases ρ <;> exact this
    · obtain rfl : ρ = .constant k := by simpa [Instr.refs] using hρ
      exact hk
    · obtain rfl : ρ = .slot s.numLocals := by simpa [Instr.refs] using hρ
      exact Nat.lt_succ_self _
  · rcases List.mem_cons.1 hx with rfl | hx
    · refine ⟨s.instrs.size, by grind [Draft.emitted], by grind [Draft.emitted], fun p i hi hw => ?_⟩
      rcases hcases hi with hi | ⟨-, rfl⟩ | ⟨rfl, -⟩
      · -- Older code stores to older slots.
        have := h.refs p i hi (.slot s.numLocals) (by simp [Instr.refs_of_writes hw])
        exact absurd this (Nat.lt_irrefl _)
      · cases hw
      · rfl
    · obtain ⟨q, h₁, h₂, hall⟩ := h.hoists x hx
      refine ⟨q, hq₂.instrs _ _ h₁, hq₂.instrs _ _ h₂, fun p i hi hw => ?_⟩
      rcases hcases hi with hi | ⟨-, rfl⟩ | ⟨-, rfl⟩
      · exact hall p i hi hw
      · cases hw
      · have heq : s.numLocals = x.2 := by simpa [Instr.writes?] using hw
        exact absurd (heq ▸ (h.fit.hoisted x hx).2) (Nat.lt_irrefl _)

end Draft

namespace Lower

/-- The parameters of a unit get the first slots. -/
theorem bringInParams_begun {vs : List Var} {a : Unit} (h : bringInParams vs env s = .ok (a, t))
    (hs : s.Begun env) (hh : s.hoisted = []) :
    t.Begun env ∧ t.hoisted = [] ∧ t.numLocals = s.numLocals + vs.length := by
  induction vs generalizing s with
  | nil =>
    obtain ⟨-, rfl⟩ := pure_ok.1 h
    exact ⟨hs, hh, rfl⟩
  | cons v vs ih =>
    simp only [bringInParams, bind_ok, newSlot_ok, modify_ok] at h
    obtain ⟨_, _, ⟨-, rfl, rfl⟩, _, _, rfl, h⟩ := h
    generalize hs₁ : ({ s with
        numLocals := s.numLocals + 1, slots := s.slots.insert v.id s.numLocals } : Draft) = s₁ at h
    have hq : Quiet s s₁ := hs₁ ▸
      .of_eq rfl rfl rfl rfl (Nat.le_succ _) (Nat.le_refl _) ⟨rfl, rfl, rfl, rfl⟩
    -- The slot is that of the parameter, so no entry of the record is in it.
    have hheld : s₁.Holds env (.slot s.numLocals) := by
      subst hs₁
      exact ⟨Nat.lt_succ_self _, by simp [hh]⟩
    have hrun : Runs env s s₁ := by
      subst hs₁
      refine .scope hq hs.fit rfl rfl (fun id k hk => ?_) fun k hk => .inl hk
      by_cases hid : id = v.id
      · obtain rfl : s.numLocals = k := by simpa [hid] using hk
        exact .inr hheld
      · exact .inl (by simpa [hid] using hk)
    have hbegun : s₁.Begun env := by
      subst hs₁
      exact ⟨hrun.path.fit hs.fit, hs.straight, fun p i hi ρ hρ => (hs.refs p i hi ρ hρ).leads hq.leads,
        hs.labels, hs.handlers, hs.cleanups, by simp [hh]⟩
    obtain ⟨hbegun', hh', hn⟩ := ih h hbegun (by subst hs₁; exact hh)
    refine ⟨hbegun', hh', ?_⟩
    rw [hn]
    subst hs₁
    simp only [List.length_cons]
    omega

/-- Captured parameters move into cells. -/
theorem boxParams_begun {slot : Nat} {vs : List Var} {a : Unit}
    (h : boxParams slot vs env s = .ok (a, t)) (hs : s.Begun env) (hh : s.hoisted = [])
    (hslot : slot + vs.length ≤ s.numLocals) : t.Begun env := by
  induction vs generalizing s slot with
  | nil =>
    obtain ⟨-, rfl⟩ := pure_ok.1 h
    exact hs
  | cons v vs ih =>
    simp only [List.length_cons] at hslot
    have hheld : s.Holds env (.slot slot) := ⟨by omega, by simp [hh]⟩
    rw [boxParams, Lower.read_bind] at h
    split at h
    · rw [emit_bind, emit_bind] at h
      have hs₁ := hs.emitted (i := .loadLocal slot) rfl rfl hheld
      have hs₂ := hs₁.emitted (i := .newCell slot) rfl rfl hheld
      exact ih h hs₂ hh (by simpa [Draft.emitted] using (by omega : slot + 1 + vs.length ≤ s.numLocals))
    · exact ih h hs hh (by omega)

/-- Entries that are mentioned more than once are loaded into slots. -/
theorem hoistAll_begun {index : Nat} {uses : List Nat} {a : Unit}
    (h : hoistAll index uses env s = .ok (a, t)) (hs : s.Begun env)
    (hle : index + uses.length ≤ env.entries) : t.Begun env := by
  induction uses generalizing s index with
  | nil =>
    obtain ⟨-, rfl⟩ := pure_ok.1 h
    exact hs
  | cons n uses ih =>
    simp only [List.length_cons] at hle
    obtain ⟨_, s₁, h₁, h₂⟩ := bind_ok.1 h
    refine ih h₂ ?_ (by omega)
    simp only [hoist, ite_ok, bind_ok, newSlot_ok, emit_ok, modify_ok, pure_ok] at h₁
    rcases h₁ with ⟨-, _, _, ⟨-, rfl, rfl⟩, _, _, rfl, _, _, rfl, rfl⟩ | ⟨-, -, rfl⟩
    · exact hs.hoisted (by omega)
    · exact hs

theorem prologue_begun {params : List Var} {a : Unit}
    (h : (do
      bringInParams params
      prologue params) env {} = .ok (a, t)) : t.Begun env ∧ params.length ≤ t.numLocals := by
  obtain ⟨_, s₁, h₁, h₂⟩ := bind_ok.1 h
  obtain ⟨hs₁, hh, hn⟩ := bringInParams_begun h₁ (begun_empty env) rfl
  rw [prologue, Lower.read_bind] at h₂
  obtain ⟨_, s₂, hbox, hhoist⟩ := bind_ok.1 h₂
  have hs₂ := boxParams_begun hbox hs₁ hh (by omega)
  have hle :=
    ((laysOut_scoped (J := [])).boxParams env s₁ _ s₂ hbox hs₁.fit.sound (by simp)).leads.numLocals_le
  rcases ite_ok.1 hhoist with ⟨hsup, hhoist⟩ | ⟨-, hpure⟩
  · have hle' :=
      ((laysOut_scoped (J := [])).hoistAll env s₂ _ t hhoist hs₂.fit.sound (by simp)).leads.numLocals_le
    refine ⟨hoistAll_begun hhoist hs₂ ?_, by omega⟩
    simp [LowerEnv.entries, Option.isNone_iff_eq_none.1 hsup]
  · obtain ⟨-, rfl⟩ := pure_ok.1 hpure
    exact ⟨hs₂, by omega⟩

end Lower

/-- How the code of a lambda comes about: the prologue leaves the draft `s`, and acts
lead from there to `t`, where only the return is missing. -/
structure Lambda.Course (l : Lambda) (env : LowerEnv) (s t : Draft) : Prop where
  prologue : (do
    bringInParams l.params
    Lower.prologue l.params) env {} = .ok ((), s)
  unit : Lower.unit l env {} = .ok ((), t.emitted .ret)
  runs : Runs env s t
  lays : s.Lays t

namespace Lambda.Course

variable {l : Lambda}

theorem begun (h : l.Course env s t) : s.Begun env := (prologue_begun h.prologue).1

theorem fit (h : l.Course env s t) : t.Fit env := h.runs.path.fit h.begun.fit

/-- No jump waits at the end. -/
theorem placed (h : l.Course env s t) : ∀ x ∈ t.labels, x.position = none → x.fixups = [] := by
  intro x hx
  exact unit_placed h.unit x hx

end Lambda.Course

/-- **The code of every lambda is a prologue and a path of acts.** -/
theorem Lambda.toCode_course {l : Lambda} {code : Code} (h : l.toCode env = .ok code) :
    ∃ s t, l.Course env s t ∧ code = (t.emitted .ret).toCode l env.hasRecord := by
  obtain ⟨t', hu, rfl⟩ := Lambda.toCode_ok.1 h
  have hunit := hu
  unfold Lower.unit at hu
  obtain ⟨_, s₁, h₁, hu⟩ := bind_ok.1 hu
  obtain ⟨_, s, h₂, hu⟩ := bind_ok.1 hu
  have hprologue : (do
      bringInParams l.params
      Lower.prologue l.params) env {} = .ok ((), s) := bind_ok.2 ⟨_, s₁, h₁, h₂⟩
  have hs := (prologue_begun hprologue).1
  have hbody : ∀ f, Traced env [] [] (l.body.part.emit f) :=
    ((traced_rule env).part l.body [] fun _ _ => trivial).emit [] [] []
  have hlays : ∀ f, LaysOut [] (l.body.part.emit f) :=
    (lays_rule.part l.body [] fun _ _ => trivial).emit [] [] []
  -- A void lambda returns unit after its body.
  have hcode : ∃ t, Runs env s t ∧ s.Lays t ∧ (do
      emit .ret
      checkPlaced (← get).labels.toList) env t = .ok ((), t') := by
    split at hu
    · obtain ⟨_, s₃, h₃, hu⟩ := bind_ok.1 hu
      obtain ⟨_, s₄, h₄, hu⟩ := bind_ok.1 hu
      have hrun₃ := hbody _ s _ s₃ h₃ hs.fit (by simp) (by simp)
      have hlays₃ := hlays _ env s _ s₃ h₃ hs.fit.sound (by simp)
      exact ⟨s₄, hrun₃.trans (Traced.emit (J := []) (Γ := []) rfl (by simp [Instr.refs]) s₃ _ s₄ h₄
        (hrun₃.path.fit hs.fit) (by simp) (by simp)),
        hlays₃.trans (LaysOut.emit (J := []) rfl env s₃ _ s₄ h₄ hlays₃.sound (by simp)), hu⟩
    · obtain ⟨_, s₃, h₃, hu⟩ := bind_ok.1 hu
      exact ⟨s₃, hbody _ s _ s₃ h₃ hs.fit (by simp) (by simp),
        hlays _ env s _ s₃ h₃ hs.fit.sound (by simp), hu⟩
  obtain ⟨t, hrun, hlay, hend⟩ := hcode
  rw [emit_bind, get_bind] at hend
  obtain ⟨rfl, -⟩ := checkPlaced_ok hend
  exact ⟨s, t, ⟨hprologue, hunit, hrun, hlay⟩, rfl⟩

end TreeCode

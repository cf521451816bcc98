import TreeCode.Proofs.Agree.Jump
import TreeCode.Proofs.Eval.Tidy

/-!
# Blocks

A block brings variables into scope: direct evaluation makes a cell for each,
the machine stores to a slot of its own. A jump to a label among the
statements goes on behind it, from wherever in the block it comes.

Main definitions:

* `Frame.declare` — the frame with one more variable.
* `Stop` — a place between two statements.

Main results:

* `Bench.Ready.bringInAll` — the variables of a block come into scope.
* `Bench.Meets.inScope` — they leave it again, however the block ends.
* `agrees_block` — blocks.
-/

namespace TreeCode

open Draft Lower

variable {J : Discipline} {X : Bench J} {G G' : Frame} {a b : J.State} {σ σ' : EvalState}
  {μ μ' : MachineState} {s s' t t' : Draft} {st st' : List Value} {pd : List Pending}
  {L L' P P₁ P₂ P₃ I₁ I₃ : List Nat} {g : Bool} {i : Instr} {u : Unit} {f : Usage} {n r : Nat}

/-! ## Variables -/

namespace Frame

/-- The frame in a new scope. -/
def enter (G : Frame) : Frame := { G with scopes := G.scopes.enter }

/-- The frame with one more variable. -/
def declare (G : Frame) (id ref slot : Nat) (ty : Ty) : Frame :=
  { G with twins := ⟨ref, slot, ty⟩ :: G.twins, scopes := G.scopes.bind id ref }

end Frame

theorem Suits.enter (h : Suits X G s) : Suits X G.enter s := { h with }

/-- A variable comes into scope. -/
theorem Suits.declare {v : Var} {slot ref : Nat} {hidden : Option Nat} (h : Suits X G s)
    (hs : s.Sound) (hin : bringIn v X.env s = .ok ((slot, hidden), t)) (hF : t.Leads X.final)
    (href : ∀ u ∈ G.twins, u.ref ≠ ref) :
    Suits X (G.declare v.id ref slot (X.types v.id)) t ∧ G.Clear slot ∧ slot < X.final.numLocals := by
  have hq := bringIn_quiet hin
  obtain ⟨-, rfl, -, rfl⟩ := bringIn_ok.1 hin
  have hclear : G.Clear s.numLocals :=
    ⟨fun u hu => Nat.ne_of_lt (h.twin_lt u hu), fun p hp => Nat.ne_of_lt (h.frozen_lt p hp)⟩
  -- No label receives its value in the new slot, since the slot is newer than the labels.
  have hno := Suits.noLabel (X := X) hs (Nat.le_refl _) (hq.leads.trans hF)
    fun r l j hl hj hr => hF.slot_new r l j hl hj hr
  refine ⟨?_, hclear, hF.numLocals_le⟩
  exact
    { vars := fun id k hk => by
        simp only [Frame.declare, Slots.get?_insert, Scopes.get?_bind] at hk ⊢
        by_cases hid : id = v.id
        · subst hid
          simp only [if_true, Option.some.injEq] at hk ⊢
          exact ⟨ref, rfl, by simp [hk]⟩
        · rw [if_neg hid] at hk
          obtain ⟨ref', href', hmem⟩ := h.vars id k hk
          exact ⟨ref', by rw [if_neg (Ne.symm hid), href'], .tail _ hmem⟩
      caught := h.caught
      hoisted := h.hoisted
      twin_lt := fun u hu => by
        rcases List.mem_cons.1 hu with rfl | hu
        · exact Nat.lt_succ_self _
        · exact Nat.lt_succ_of_lt (h.twin_lt u hu)
      frozen_lt := fun p hp => Nat.lt_succ_of_lt (h.frozen_lt p hp)
      refs := by
        simp only [Frame.declare, List.map_cons, List.nodup_cons, List.mem_map, not_exists, not_and]
        exact ⟨fun u hu => href u hu, h.refs⟩
      slots := by
        simp only [Frame.declare, List.map_cons, List.nodup_cons, List.mem_map, not_exists, not_and]
        exact ⟨fun u hu => hclear.twin u hu, h.slots⟩
      apart := fun u hu p hp => by
        rcases List.mem_cons.1 hu with rfl | hu
        · exact hclear.frozen p hp
        · exact h.apart u hu p hp
      label := fun r l k hl hk => by
        refine ⟨fun u hu => ?_, fun p hp hpk =>
          ((h.label r l k hl hk).2 p hp hpk).congr rfl (Nat.le_refl _)⟩
        rcases List.mem_cons.1 hu with rfl | hu
        · exact fun heq => hno r l hl (by rw [hk]; exact congrArg some heq.symm)
        · exact (h.label r l k hl hk).1 u hu
      cleanups := h.cleanups }

/-- The state with a new cell for a variable. -/
def EvalState.declare (σ : EvalState) (id : Nat) (x : Value) : EvalState :=
  { σ with
    world := { σ.world with store := { σ.world.store with cells := σ.world.store.cells.push x } }
    scopes := σ.scopes.bind id σ.world.store.cells.size }

theorem Holds.declare (id : Nat) {slot : Nat} {ty : Ty} {x : Value} (h : Holds X G a σ μ)
    (hx : J.has a x ty) (hc : G.Clear slot) (hlt : slot < X.final.numLocals) :
    Holds X (G.declare id σ.world.store.cells.size slot ty) a (σ.declare id x)
      { μ with locals := μ.locals.setIfInBounds slot x } where
  scopes := by simp [EvalState.declare, Frame.declare, h.scopes]
  caught := h.caught
  depth := h.depth
  world := h.world
  good := J.good_recast (σ.world.store.cells.push x) σ.world.depth h.good
  twin t ht := by
    rcases List.mem_cons.1 ht with rfl | ht
    · exact ⟨x, by simp [EvalState.declare], by simp [h.size, hlt], hx⟩
    · obtain ⟨v, hv, hv', hty⟩ := h.twin t ht
      have hlt := (Array.getElem?_eq_some_iff.1 hv).1
      refine ⟨v, ?_, ?_, hty⟩
      · simp only [EvalState.declare]
        rw [Array.getElem?_push_lt hlt, ← hv, Array.getElem?_eq_getElem hlt]
      · rw [Array.getElem?_setIfInBounds_ne (hc.twin t ht).symm]
        exact hv'
  frozen p hp := by
    show (μ.locals.setIfInBounds slot x)[p.1]? = _
    rw [Array.getElem?_setIfInBounds_ne (hc.frozen p hp).symm]
    exact h.frozen p hp
  size := by simpa using h.size

theorem Holds.ref_lt (h : Holds X G a σ μ) : ∀ u ∈ G.twins, u.ref < σ.world.store.cells.size := by
  intro u hu
  obtain ⟨v, hv, -⟩ := h.twin u hu
  exact (Array.getElem?_eq_some_iff.1 hv).1

/-- The value on top of the stack becomes that of a new variable. -/
theorem Bench.Ready.initialise (R : X.Ready) {v : Var} {slot : Nat} {x : Value} {ty : Ty}
    (h : Stands X G a σ s (x :: st) pd μ) (hi : Lower.initialise v slot X.env s = .ok (u, s'))
    (hF : s'.Leads X.final) (hx : J.has a x ty) (hc : G.Clear slot)
    (hlt : slot < X.final.numLocals) :
    X.Reaches μ (Stands X (G.declare v.id σ.world.store.cells.size slot ty) a (σ.declare v.id x) s'
      st pd) := by
  simp only [Lower.initialise, read_bind, Plan.isBoxed, R.boxed, List.contains_nil, emit_ok] at hi
  subst hi
  exact R.storeLocal h hF hlt fun μ hold => hold.declare _ hx hc hlt

theorem Stands.broughtIn {v : Var} {slot : Nat} {hidden : Option Nat}
    (h : Stands X G a σ s st pd μ) (hin : bringIn v X.env s = .ok ((slot, hidden), s')) :
    Stands X G a σ s' st pd μ := by
  obtain ⟨-, rfl, -, rfl⟩ := bringIn_ok.1 hin
  exact ⟨h.holds, h.place.pointer, h.place.reachable, h.place.stack, h.place.height,
    h.place.pending⟩

/-- The first of the cells that a block makes. -/
theorem Walk.freshVariables_cons {v : Var} {vs : List Var} {bindings : List (Nat × Nat)}
    (h : Walk.freshVariables vs { σ with world := (σ.declare v.id v.ty.default).world } =
      .ok bindings σ') :
    Walk.freshVariables (v :: vs) σ = .ok ((v.id, σ.world.store.cells.size) :: bindings) σ' := by
  have hcell : EvalM.ofRun (RunM.newCell v.ty.default) σ = .ok σ.world.store.cells.size
    { σ with world := (σ.declare v.id v.ty.default).world } := rfl
  rw [Walk.freshVariables]
  simp only [bind, EStateM.bind, hcell, h]
  rfl

/-- The variables of a block come into scope. The state `σ` is that of
evaluation in the new scope; cells are made before the scope is opened. -/
theorem Bench.Ready.bringInAll (R : X.Ready) {vars : List Var} {hidden : List (Option Nat)}
    (sc : Scopes Nat Nat) (st : List Value) (pd : List Pending) (hs : s.Sound) (hfits : Suits X G s)
    (href : ∀ u ∈ G.twins, u.ref < σ.world.store.cells.size)
    (hin : Lower.bringInAll vars X.env s = .ok (hidden, s')) (hF : s'.Leads X.final)
    (hty : ∀ v ∈ vars, X.types v.id = v.ty) :
    ∃ bindings w G', Walk.freshVariables vars { σ with scopes := sc } =
        .ok bindings { σ with world := w, scopes := sc } ∧
      Suits X G' s' ∧ (∀ μ, Stands X G a σ s st pd μ → X.Reaches μ (Stands X G' a
        { σ with world := w, scopes := σ.scopes.bindAll bindings } s' st pd)) ∧
      ∃ new, G' = { G with twins := new ++ G.twins, scopes := G.scopes.bindAll bindings } := by
  induction vars generalizing G σ s hidden with
  | nil =>
    obtain ⟨-, rfl⟩ := pure_ok.1 hin
    exact ⟨[], σ.world, G, rfl, hfits, fun μ h => .here h, [], rfl⟩
  | cons v vs ih =>
    simp only [Lower.bringInAll, bind_ok, pure_ok] at hin
    obtain ⟨⟨slot, hid⟩, s₁, hv, _, s₂, hpush, _, s₃, hinit, rest, _, hrest, -, rfl⟩ := hin
    obtain ⟨hqr, -⟩ := bringInAll_quiet hrest
    obtain ⟨hqi, hsi⟩ := initialise_quiet hinit
    obtain ⟨hqp, hsp⟩ := pushValue_quiet hpush
    have hqv := bringIn_quiet hv
    have hF₃ := hqr.leads.trans hF
    have hF₂ := hqi.leads.trans hF₃
    have hF₁ := hqp.leads.trans hF₂
    -- The slot of the variable holds no value that is still needed.
    obtain ⟨hfits₁, hclear, hlt⟩ := hfits.declare hs hv hF₁
      fun u hu => Nat.ne_of_lt (href u hu)
    have hfits₃ : Suits X _ s₃ := hfits₁.step
      ((hqp.trans hqi).step (P := []) (I := []) (hsp.trans hsi))
    have hty₀ : J.has a v.ty.default (X.types v.id) := by
      rw [hty v (by simp)]
      exact J.default_has a v.ty
    -- The default value is pushed and stored, which makes the slot the twin of the new cell.
    have hreach : ∀ μ, Stands X G a σ s st pd μ → X.Reaches μ (Stands X
        (G.declare v.id σ.world.store.cells.size slot (X.types v.id)) a
        (σ.declare v.id v.ty.default) s₃ st pd) := fun μ h =>
      (R.pushValue (h.broughtIn hv) hpush hF₂ v.ty.default_faithful).bind fun μ₁ h₁ =>
        R.initialise h₁ hinit hF₃ hty₀ hclear hlt
    have href' : ∀ u ∈ (G.declare v.id σ.world.store.cells.size slot (X.types v.id)).twins,
        u.ref < (σ.declare v.id v.ty.default).world.store.cells.size := by
      intro u hu
      simp only [EvalState.declare, Array.size_push]
      rcases List.mem_cons.1 hu with rfl | hu
      · exact Nat.lt_succ_self _
      · exact Nat.lt_succ_of_lt (href u hu)
    obtain ⟨bindings, w, G', hfresh, hfits', hreach', new, hG'⟩ :=
      ih ((hqv.trans (hqp.trans hqi)).sound hs) hfits₃ href' hrest fun v hv => hty v (.tail _ hv)
    refine ⟨(v.id, σ.world.store.cells.size) :: bindings, w, G', Walk.freshVariables_cons hfresh,
      hfits', fun μ h => (hreach μ h).bind hreach',
      new ++ [⟨σ.world.store.cells.size, slot, X.types v.id⟩], ?_⟩
    rw [hG']
    simp [Frame.declare, Scopes.bindAll]

/-- An action in a scope of its own is met when it is met inside. -/
theorem Bench.Meets.inScope {α : Type} {x : EvalM α} (bindings : List (Nat × Nat))
    {Q Q' : α → EvalState → MachineState → Prop} {E E' : Exit → EvalState → MachineState → Prop}
    (hx : x.Tidy) (h : X.Meets μ (x { σ with scopes := σ.scopes.enter.bindAll bindings }) Q E)
    (hQ : ∀ v σ' μ', Q v σ' μ' → Q' v { σ' with scopes := σ.scopes } μ')
    (hE : ∀ e σ' μ', E e σ' μ' → E' e { σ' with scopes := σ.scopes } μ') :
    X.Meets μ (EvalM.inScope bindings x σ) Q' E' := by
  have hkept := hx { σ with scopes := σ.scopes.enter.bindAll bindings }
  simp only [EvalM.inScope]
  cases hr : x { σ with scopes := σ.scopes.enter.bindAll bindings } with
  | ok v σ' =>
    rw [hr] at hkept
    have hsc : σ'.scopes = _ := hkept.scopes
    simp only [EvalM.closeScope, hsc, Scopes.leave?_bindAll, Option.map_some]
    exact .ok ((h.ends v σ' hr).mono fun μ' => hQ v σ' μ')
  | error e σ' =>
    rw [hr] at hkept
    have hsc : σ'.scopes = _ := hkept.scopes
    simp only [EvalM.closeScope, hsc, Scopes.leave?_bindAll, Option.map_some]
    by_cases he : e = .fault .outOfFuel
    · subst he
      exact .cut (h.isCut σ' hr)
    · exact .exit he ((h.leaves e σ' hr he).mono fun μ' => hE e σ' μ')

/-! ## Statements -/

/-- The labels among the statements of a block. -/
def Expr.ownLabels (es : List Expr) : List Nat :=
  es.flatMap fun e => match e with
    | .label l _ => [l.id]
    | _ => []

theorem Expr.mem_ownLabels {es : List Expr} {id : Nat} :
    id ∈ Expr.ownLabels es ↔ ∃ l o, .label l o ∈ es ∧ l.id = id := by
  simp only [Expr.ownLabels, List.mem_flatMap]
  constructor
  · rintro ⟨e, he, hid⟩
    cases e <;> simp at hid
    exact ⟨_, _, he, hid.symm⟩
  · rintro ⟨l, o, hmem, rfl⟩
    exact ⟨_, hmem, by simp⟩

/-- Emits statements for their effects. -/
def Lower.effects (f : Usage) : List Part → LowerM Unit
  | [] => pure ()
  | p :: ps => do
    p.emit f.effect
    effects f ps

/-- The usage of a statement that is followed by `rest`. -/
def Usage.among (f last : Usage) (rest : List Expr) : Usage := if rest.isEmpty then last else f.effect

theorem Lower.statements_cons {env : LowerEnv} {last : Usage} {e : Expr} {rest : List Expr} :
    Lower.statements f last (Expr.parts (e :: rest)) env s = .ok (u, s') ↔
      ∃ t, e.part.emit (f.among last rest) env s = .ok ((), t) ∧
        Lower.statements f last (Expr.parts rest) env t = .ok (u, s') := by
  cases rest with
  | nil =>
    simp only [Expr.parts, Lower.statements, Usage.among, List.isEmpty_nil, if_true, pure_ok]
    constructor
    · exact fun h => ⟨s', h, trivial, rfl⟩
    · rintro ⟨t, h, -, rfl⟩
      exact h
  | cons e' rest =>
    simp only [Expr.parts, Lower.statements, Usage.among, List.isEmpty_cons, bind_ok]
    constructor
    · rintro ⟨_, t, h, h'⟩
      exact ⟨t, h, h'⟩
    · rintro ⟨t, h, h'⟩
      exact ⟨(), t, h, h'⟩

/-- One statement of a block. -/
theorem Walk.statements_succ {c : Walk} {all rest : List Expr} {e : Expr} {v : Value} :
    c.statements all (n + 1) (e :: rest) v σ = match c.valueOf e σ with
      | .ok v σ => c.statements all n rest v σ
      | .error (.jump l v) σ =>
        match all.findIdx? (·.isLabelOf l) with
        | some i => c.statements all n (all.drop (i + 1)) v σ
        | none => .error (.jump l v) σ
      | .error x σ => .error x σ :=
  rfl

/-- The code of the statement `e` of a block starts at the end of draft `t`. -/
structure Stop (X : Bench J) (f last : Usage) (body : List Expr) (s s' : Draft) (pre : List Expr)
    (e : Expr) (rest : List Expr) (t : Draft) : Prop where
  split : body = pre ++ e :: rest
  before : Lower.effects f (Expr.parts pre) X.env s = .ok ((), t)
  after : Lower.statements f last (Expr.parts (e :: rest)) X.env t = .ok ((), s')

theorem Expr.parts_append (es es' : List Expr) :
    Expr.parts (es ++ es') = Expr.parts es ++ Expr.parts es' := by
  induction es with
  | nil => rfl
  | cons e es ih => simp [Expr.parts, ih]

theorem Expr.placedAll_append (es es' : List Expr) :
    Expr.placedAll (es ++ es') = Expr.placedAll es ++ Expr.placedAll es' := by
  induction es with
  | nil => rfl
  | cons e es ih => simp [Expr.placedAll, ih]

theorem Expr.plainAll_append {N : Names} (es es' : List Expr) :
    Expr.PlainAll N (es ++ es') ↔ Expr.PlainAll N es ∧ Expr.PlainAll N es' := by
  induction es with
  | nil => simp [Expr.PlainAll]
  | cons e es ih => simp [Expr.PlainAll, ih, and_assoc]

theorem Lower.effects_append {ps ps' : List Part} :
    Lower.effects f (ps ++ ps') X.env s = .ok (u, s') ↔
      ∃ t, Lower.effects f ps X.env s = .ok ((), t) ∧ Lower.effects f ps' X.env t = .ok (u, s') := by
  induction ps generalizing s with
  | nil => simp [Lower.effects, pure_ok]
  | cons p ps ih =>
    simp only [List.cons_append, Lower.effects, bind_ok, ih]
    constructor
    · rintro ⟨_, t, h, t', h', h''⟩
      exact ⟨t', ⟨(), t, h, h'⟩, h''⟩
    · rintro ⟨t', ⟨_, t, h, h'⟩, h''⟩
      exact ⟨(), t, h, t', h', h''⟩

theorem Lower.effects_step {es : List Expr} (hs : s.Sound) (hp : Expr.PlainAll X.names es)
    (h : Lower.effects f (Expr.parts es) X.env s = .ok (u, s')) :
    Step True X.names (Expr.placedAll es) [] s s' := by
  induction es generalizing s with
  | nil =>
    obtain ⟨-, rfl⟩ := pure_ok.1 h
    exact .refl s
  | cons e es ih =>
    simp only [Expr.parts, Lower.effects, bind_ok] at h
    obtain ⟨_, t, he, hes⟩ := h
    have h₁ := Expr.emit_step he hp.1 hs
    exact h₁.comp (ih (h₁.stage.sound hs) hp.2 hes)

theorem Lower.statements_step {last : Usage} {es : List Expr} (hs : s.Sound)
    (hp : Expr.PlainAll X.names es)
    (h : Lower.statements f last (Expr.parts es) X.env s = .ok (u, s')) :
    Step True X.names (Expr.placedAll es) [] s s' := by
  induction es generalizing s with
  | nil =>
    obtain ⟨-, rfl⟩ := pure_ok.1 h
    exact .refl s
  | cons e es ih =>
    obtain ⟨t, he, hes⟩ := Lower.statements_cons.1 h
    have h₁ := Expr.emit_step he hp.1 hs
    exact h₁.comp (ih (h₁.stage.sound hs) hp.2 hes)

namespace Stop

variable {last : Usage} {body pre rest pre' rest' : List Expr} {e : Expr}

/-- Every statement has its place. -/
theorem of_split (h : Lower.statements f last (Expr.parts body) X.env s = .ok ((), s'))
    (hsplit : body = pre ++ e :: rest) : ∃ t, Stop X f last body s s' pre e rest t := by
  subst hsplit
  induction pre generalizing s with
  | nil => exact ⟨s, rfl, rfl, h⟩
  | cons p pre ih =>
    obtain ⟨t₁, hp, h⟩ := Lower.statements_cons.1 h
    obtain ⟨t, K⟩ := ih h
    have hp : p.part.emit f.effect X.env s = .ok ((), t₁) := by
      simpa [Usage.among] using hp
    exact ⟨t, rfl, bind_ok.2 ⟨(), t₁, hp, K.before⟩, K.after⟩

/-- The statement that comes after. -/
theorem next {e' : Expr} (K : Stop X f last body s s' pre e (e' :: rest) t)
    (he : e.part.emit f.effect X.env t = .ok ((), t')) :
    Stop X f last body s s' (pre ++ [e]) e' rest t' := by
  obtain ⟨t₁, he', h⟩ := Lower.statements_cons.1 K.after
  have he' : e.part.emit f.effect X.env t = .ok ((), t₁) := by simpa [Usage.among] using he'
  obtain rfl : t₁ = t' := by simpa [he] using he'.symm
  refine ⟨by simp [K.split], ?_, h⟩
  rw [Expr.parts_append]
  exact Lower.effects_append.2 ⟨t, K.before, bind_ok.2 ⟨(), t₁, he, rfl⟩⟩

/-- Of two statements the code of the first comes first. -/
theorem size_le {l : Expr} {mid : List Expr} (K : Stop X f last body s s' pre e rest t)
    (K' : Stop X f last body s s' (pre ++ e :: mid) l rest' t') (hs : s.Sound)
    (hp : Expr.PlainAll X.names body) {t₁ : Draft}
    (he : e.part.emit (f.among last rest) X.env t = .ok ((), t₁)) :
    t₁.instrs.size ≤ t'.instrs.size := by
  have hrest : rest = mid ++ l :: rest' := by
    have := K.split.symm.trans K'.split
    simpa using this
  have hp' := hp
  rw [K.split, Expr.plainAll_append] at hp'
  have hmid : Expr.PlainAll X.names mid := by
    have := hp'.2.2
    rw [hrest, Expr.plainAll_append] at this
    exact this.1
  have hbefore := K'.before
  rw [Expr.parts_append] at hbefore
  obtain ⟨t₀, h₀, h⟩ := Lower.effects_append.1 hbefore
  obtain rfl : t = t₀ := by simpa [K.before] using h₀
  obtain ⟨_, t₂, he', hm⟩ := bind_ok.1 h
  have hs₀ := (Lower.effects_step hs hp'.1 K.before).stage.sound hs
  have h₁ := Expr.emit_step he' hp'.2.1 hs₀
  have he : e.part.emit f.effect X.env t = .ok ((), t₁) := by simpa [Usage.among, hrest] using he
  obtain rfl : t₁ = t₂ := by simpa [he] using he'
  exact (Lower.effects_step (h₁.stage.sound hs₀) hmid hm).stage.leads.size_le

/-- A statement as a node of its own. -/
theorem site (K : Stop X f last body s s' pre e rest t)
    (S : Span X (Expr.placedAll body) L g s s' G pd) (hp : Expr.PlainAll X.names body)
    (hg : f.guarded = g) (hlast : last.guarded = g ∧ last.byAddress = false)
    (hused : ∀ e, body.getLast? = some e → e.ty.isVoid = true → last.discarded = true)
    (he : e.part.emit (f.among last rest) X.env t = .ok ((), t'))
    (hL : Opens X (e.around L') t t') : Site X L' e (f.among last rest) t t' G pd := by
  have hp' := hp
  rw [K.split, Expr.plainAll_append] at hp'
  have h₁ := Lower.effects_step S.sound hp'.1 K.before
  have hs := h₁.stage.sound S.sound
  obtain ⟨t₁, he', h⟩ := Lower.statements_cons.1 K.after
  obtain rfl : t' = t₁ := by simpa [he] using he'
  have h₂ := Expr.emit_step he hp'.2.1 hs
  have h₃ := Lower.statements_step (h₂.stage.sound hs) hp'.2.2 h
  have hsub : (Expr.placedAll pre ++ e.placed).Sublist (Expr.placedAll body) := by
    rw [K.split, Expr.placedAll_append]
    exact (List.Sublist.refl _).append (List.sublist_append_left _ _)
  have hguard : (f.among last rest).guarded = g := by
    unfold Usage.among
    split
    · exact hlast.1
    · exact hg
  refine ⟨he, hp'.2.1, ?_, ?_, ?_⟩
  · rw [hguard]
    exact { S.sub h₁ h₂ h₃ (S.placedIn hsub) with opens := hL }
  · have : (f.among last rest).byAddress = false := by
      unfold Usage.among
      split
      · exact hlast.2
      · rfl
    simp [this]
  · intro hv
    cases rest with
    | nil => exact hused e (by simp [K.split]) hv
    | cons => rfl

/-- The labels of the block lie outside of each of its other statements. -/
theorem opens (K : Stop X f last body s s' pre e rest t)
    (S : Span X (Expr.placedAll body) L g s s' G pd) (hp : Expr.PlainAll X.names body)
    (hg : f.guarded = g) (hlast : last.guarded = g ∧ last.byAddress = false)
    (hused : ∀ e, body.getLast? = some e → e.ty.isVoid = true → last.discarded = true)
    (hall : Lower.statements f last (Expr.parts body) X.env s = .ok ((), s'))
    (he : e.part.emit (f.among last rest) X.env t = .ok ((), t')) :
    Opens X (e.around (L ++ Expr.ownLabels body)) t t' := by
  intro id hid r d q hr hd hq
  have hp' := hp
  rw [K.split, Expr.plainAll_append] at hp'
  have h₁ := Lower.effects_step S.sound hp'.1 K.before
  rcases List.mem_append.1 (e.around_subset _ hid) with hid' | hid'
  -- A label that was open around the block is open around all of it.
  · obtain ⟨t₁, he', h⟩ := Lower.statements_cons.1 K.after
    obtain rfl : t' = t₁ := by simpa [he] using he'
    have hs := h₁.stage.sound S.sound
    have h₂ := Expr.emit_step he hp'.2.1 hs
    have h₃ := Lower.statements_step (h₂.stage.sound hs) hp'.2.2 h
    exact S.opens.sub (List.Subset.refl L) h₁.stage.leads.size_le h₃.stage.leads.size_le id hid' r d
      q hr hd hq
  · -- The label is a statement of its own, before this one or after it.
    obtain ⟨l, o, hmem, rfl⟩ := Expr.mem_ownLabels.1 hid'
    obtain ⟨pre', rest', hsplit⟩ := List.append_of_mem hmem
    obtain ⟨t₁, K'⟩ := of_split hall hsplit
    obtain ⟨t₂, hl, -⟩ := Lower.statements_cons.1 K'.after
    obtain ⟨r', s₁, s₂, s₃, d', W⟩ :=
      (K'.site S hp hg hlast hused hl (Expr.opens_nil _ _ _)).labelled
    obtain rfl : r' = r := by simpa [hr] using W.lookup.symm
    obtain rfl : d' = d := by simpa [hd] using W.label.symm
    obtain rfl : s₂.instrs.size = q := by simpa [hq] using W.position.symm
    -- The statement stands in front of the labelled one, or behind it.
    rcases List.append_eq_append_iff.1 (K.split.symm.trans K'.split) with
      ⟨as, rfl, has⟩ | ⟨bs, rfl, hbs⟩
    · cases as with
      | nil =>
        obtain rfl : e = .label l o := by simpa using congrArg List.head? has
        simp [Expr.around] at hid
      | cons x as =>
        obtain rfl : e = x := by simpa using congrArg List.head? has
        have hle := K.size_le K' S.sound hp he
        exact .inr (Nat.le_trans hle (W.toName.comp W.toStore).stage.leads.size_le)
    · cases bs with
      | nil =>
        obtain rfl : e = .label l o := by simpa using (congrArg List.head? hbs).symm
        simp [Expr.around] at hid
      | cons x bs =>
        obtain rfl : .label l o = x := by simpa using congrArg List.head? hbs
        have hle := K'.size_le K S.sound hp hl
        exact .inl (Nat.le_trans (W.toPlace.comp W.toPush).stage.leads.size_le hle)

end Stop

/-- What is asked of the statements of a block of type `ty`, whose code goes from
`s` to `s'`. -/
structure Sequence (X : Bench J) (L : List Nat) (f last : Usage) (body : List Expr) (ty : Ty)
    (g : Bool) (s s' : Draft) (G : Frame) (pd : List Pending) (n : Nat) : Prop where
  span : Span X (Expr.placedAll body) L g s s' G pd
  lowered : Lower.statements f last (Expr.parts body) X.env s = .ok ((), s')
  agrees : ∀ e ∈ body, Agrees X (L ++ Expr.ownLabels body) e
  plain : Expr.PlainAll X.names body
  guarded : f.guarded = g
  closing : last.guarded = g ∧ last.byAddress = false
  used : ∀ e, body.getLast? = some e → e.ty.isVoid = true → last.discarded = true
  takes : ∀ e, body.getLast? = some e → ty.Takes e.ty
  empty : body = [] → ty.isVoid = true ∧ last.discarded = true
  depth : ∀ e ∈ body, G.depth + e.height ≤ X.gauge.max
  paced : ∀ e ∈ body, X.Paced n e

namespace Sequence

variable {last : Usage} {body pre rest : List Expr} {ty : Ty} {e : Expr} {v : Value}

/-- Both runs are about to run `rest`, the value so far being `v`. -/
def Before (X : Bench J) (f last : Usage) (body : List Expr) (ty : Ty) (s s' : Draft) (G : Frame)
    (pd : List Pending) (st : List Value) (a : J.State) (p : List Expr × Value) (σ : EvalState)
    (μ : MachineState) : Prop :=
  ∃ b, J.le a b ∧ (p.1 = [] ∧ J.has b p.2 ty ∧ Stands X G b σ s' (last.pushed p.2 st) pd μ ∨
    ∃ pre e rest t, p.1 = e :: rest ∧ Stop X f last body s s' pre e rest t ∧
      Stands X G b σ t st pd μ)

/-- A statement is done. -/
theorem before (Q : Sequence X L f last body ty g s s' G pd n)
    (K : Stop X f last body s s' pre e rest t)
    (he : e.part.emit (f.among last rest) X.env t = .ok ((), t')) (hab : J.le a b)
    (hv : J.has b v e.ty) (hst : Stands X G b σ t' ((f.among last rest).pushed v st) pd μ) :
    Before X f last body ty s s' G pd st a (rest, v) σ μ := by
  cases rest with
  | nil =>
    obtain ⟨t₁, he', h⟩ := Lower.statements_cons.1 K.after
    obtain rfl : t' = t₁ := by simpa [he] using he'
    obtain ⟨-, rfl⟩ := pure_ok.1 h
    exact ⟨b, hab, .inl ⟨rfl, J.takes_has (Q.takes e (by simp [K.split])) hv, hst⟩⟩
  | cons e' rest => exact ⟨b, hab, .inr ⟨pre ++ [e], e', rest, t', rfl, K.next he, hst⟩⟩

/-- A statement as a node of its own. -/
theorem site (Q : Sequence X L f last body ty g s s' G pd n)
    (K : Stop X f last body s s' pre e rest t)
    (he : e.part.emit (f.among last rest) X.env t = .ok ((), t')) :
    Site X (L ++ Expr.ownLabels body) e (f.among last rest) t t' G pd :=
  K.site Q.span Q.plain Q.guarded Q.closing Q.used he
    (K.opens Q.span Q.plain Q.guarded Q.closing Q.used Q.lowered he)

/-- What comes before and after a statement. -/
theorem steps (Q : Sequence X L f last body ty g s s' G pd n)
    (K : Stop X f last body s s' pre e rest t)
    (he : e.part.emit (f.among last rest) X.env t = .ok ((), t')) :
    Step True X.names (Expr.placedAll pre) [] s t ∧
      Step True X.names (Expr.placedAll rest) [] t' s' := by
  have hp := Q.plain
  rw [K.split, Expr.plainAll_append] at hp
  have h₁ := Lower.effects_step Q.span.sound hp.1 K.before
  have hs := h₁.stage.sound Q.span.sound
  obtain ⟨t₁, he', h'⟩ := Lower.statements_cons.1 K.after
  obtain rfl : t' = t₁ := by simpa [he] using he'
  have h₂ := Expr.emit_step he hp.2.1 hs
  exact ⟨h₁, Lower.statements_step (h₂.stage.sound hs) hp.2.2 h'⟩

/-- A jump to a label among the statements goes on behind it. -/
theorem enter {l : Label} {i : Nat} {d : DraftLabel} {origin q : Nat}
    (Q : Sequence X L f last body ty g s s' G pd n)
    (hi : body.findIdx? (·.isLabelOf l) = some i) (hab : J.le a b)
    (D : Departure X L' s s' G pd st l v σ b d origin q μ) :
    X.Reaches (X.machine.departed origin q μ)
      (Before X f last body ty s s' G pd st a (body.drop (i + 1), v) σ) := by
  obtain ⟨hlt, hlabel, -⟩ := List.findIdx?_eq_some_iff_getElem.1 hi
  have hsplit : body = body.take i ++ body[i] :: body.drop (i + 1) := by simp
  generalize body[i] = x at hlabel hsplit
  obtain ⟨l', o, rfl⟩ : ∃ l' o, x = .label l' o := by
    cases x <;> simp [Expr.isLabelOf] at hlabel
    exact ⟨_, _, rfl⟩
  obtain ⟨t, K⟩ := Stop.of_split Q.lowered hsplit
  obtain ⟨t', he, -⟩ := Lower.statements_cons.1 K.after
  have S := Q.site K he
  -- Labels with equal ids are equal.
  obtain rfl : l' = l := by
    have h : X.names.label l'.id = l' := S.plain.1
    have h' : X.names.label l.id = l := D.knows
    rw [← h, ← h']
    exact congrArg _ (by simpa [Expr.isLabelOf] using hlabel)
  obtain ⟨r, s₁, s₂, s₃, d', W⟩ := S.labelled
  obtain ⟨h₁, h₃⟩ := Q.steps K he
  have hle₁ := (h₁.comp (W.toName.comp W.toStore)).stage.leads.size_le
  have hle₃ := ((W.toPlace.comp W.toPush).comp h₃).stage.leads.size_le
  have hq := D.target W.lookup W.label W.position
  obtain ⟨hd, hland, hold, hlocals⟩ := D.lands Q.span (by omega) W.lookup
  refine (S.enter hold W.lookup hd hland (hlocals ▸ D.carried)).mono fun μ' hst => ?_
  exact Q.before K he hab D.has hst

/-- Jumps to labels that are not among the statements leave the block. -/
theorem leaves {l : Label} {es : List Expr} (h : es.findIdx? (·.isLabelOf l) = none)
    (hmem : l.id ∈ L ++ Expr.ownLabels es) : l.id ∈ L := by
  rcases List.mem_append.1 hmem with hmem | hmem
  · exact hmem
  · obtain ⟨l', o, hl', heq⟩ := Expr.mem_ownLabels.1 hmem
    have := List.findIdx?_eq_none_iff.1 h _ hl'
    simp [Expr.isLabelOf, heq] at this

/-- The statements of a block agree. -/
theorem meets (Q : Sequence X L f last body ty g s s' G pd n)
    (hn : X.back = true → X.machine.fuel * (body.length + 1) + body.length ≤ n)
    (hst : Stands X G a σ s st pd μ) :
    X.Meets μ ((X.walk n).statements body n body .unit σ)
      (fun v σ' μ' => ∃ b, J.le a b ∧ J.has b v ty ∧ Stands X G b σ' s' (last.pushed v st) pd μ')
      (Out X L s s' G pd st a) := by
  -- A round is one statement, and `Before` holds ahead of each. A round that the machine passes
  -- without a turn leaves fewer statements; one that jumps to a label takes at least a turn.
  have hstart : Before X f last body ty s s' G pd st a (body, .unit) σ μ := by
    cases hb : body with
    | nil =>
      subst hb
      obtain ⟨-, rfl⟩ := pure_ok.1 Q.lowered
      obtain ⟨hv, hd⟩ := Q.empty rfl
      exact ⟨a, J.le_refl a, .inl ⟨rfl, J.isVoid_has _ hv, by simpa [Usage.pushed, hd] using hst⟩⟩
    | cons e rest =>
      rw [← hb]
      exact ⟨a, J.le_refl a, .inr ⟨[], e, rest, s, hb, ⟨by simp [hb], rfl, hb ▸ Q.lowered⟩, hst⟩⟩
  refine Bench.Meets.rounds (ι := List Expr × Value)
    (fun m p σ => (X.walk n).statements body m p.1 p.2 σ)
    (Before X f last body ty s s' G pd st a) (fun p => p.1.length) body.length ?_ ?_ ?_ hstart hn
  · rintro ⟨rest, v⟩ σ μ ⟨b, -, ⟨hrest, -⟩ | ⟨pre, e, rest', t, hrest, K, -⟩⟩
    · simp_all
    · have := K.split
      simp_all
  · rintro ⟨rest, v⟩ σ μ ⟨b, hab, ⟨hrest, hv, hst⟩ | ⟨pre, e, rest', t, hrest, K, -⟩⟩
    · obtain rfl : rest = [] := hrest
      exact .inl (.ok (.here ⟨b, hab, hv, hst⟩))
    · obtain rfl : rest = e :: rest' := hrest
      exact .inr ⟨σ, rfl⟩
  · rintro m ⟨rest, v⟩ σ μ ⟨b, hab, ⟨hrest, hv, hst⟩ | ⟨pre, e, rest', t, hrest, K, hst⟩⟩
    · obtain rfl : rest = [] := hrest
      exact .inl (.ok (.here ⟨b, hab, hv, hst⟩))
    · obtain rfl : rest = e :: rest' := hrest
      have hmem : e ∈ body := by simp [K.split]
      obtain ⟨t', he, -⟩ := Lower.statements_cons.1 K.after
      obtain ⟨h₁, h₃⟩ := Q.steps K he
      have hmeet := Q.agrees e hmem (Q.site K he) hst (Q.paced e hmem) (Q.depth e hmem)
      show X.Meets μ ((X.walk n).statements body (m + 1) (e :: rest') v σ) _ _ ∨ _
      rw [Walk.statements_succ]
      cases hr : (X.walk n).valueOf e σ with
      | ok v' σ' =>
        rcases hmeet.ends v' σ' hr with ⟨k, μ', hgo, c, hbc, hhas, hst'⟩ | ⟨hb, hs⟩
        · exact .inr ⟨k, (rest', v'), σ', μ', hgo,
            Q.before K he (J.le_trans hab hbc) hhas hst', rfl, .inr (by simp)⟩
        · exact .inl (.of_stalls hb hs)
      | error x σ' =>
        have hleave := fun hx => (hmeet.leaves x σ' hr hx).mono fun μ' hout =>
          (hout.widen (.inl rfl) (List.Subset.refl _) hab h₁ h₃ : Out X _ s s' G pd st a x σ' μ')
        cases x with
        -- A failure ends the block, and so does a jump to a label that is not among its statements.
        | fault g =>
          refine .inl ?_
          by_cases hg : g = .outOfFuel
          · subst hg
            exact .cut (hmeet.isCut σ' hr)
          · exact .exit (by simpa using hg) ((hleave (by simpa using hg)).mono
              fun μ' hout => hout.towards fun l v h => by cases h)
        | jump l v' =>
          dsimp only
          cases hi : body.findIdx? (·.isLabelOf l) with
          | none =>
            refine .inl (.exit (by simp) ((hleave (by simp)).mono fun μ' hout => ?_))
            refine hout.towards ?_
            rintro _ _ ⟨⟩ hmem'
            exact leaves hi hmem'
          | some i =>
            -- Statements go on behind the label, wherever it stands in the block.
            rcases hleave (by simp) with ⟨k, μ', hgo, c, d, origin, q, μ₁, hac, D, hgo'⟩ | ⟨hb, hs⟩
            · rcases Q.enter hi hac D with ⟨k', μ'', hgo'', hinv⟩ | ⟨hb, hs⟩
              · exact .inr ⟨k' + (1 + k), (body.drop (i + 1), v'), σ', μ'',
                  (hgo.trans hgo').trans hgo'', hinv, rfl, .inl (by omega)⟩
              · exact .inl (.of_stalls hb (hs.of_goes (hgo.trans hgo')))
            · exact .inl (.of_stalls hb hs)

end Sequence

/-! ## Blocks -/

theorem Holds.enter (h : Holds X G a σ μ) :
    Holds X G.enter a { σ with scopes := σ.scopes.enter } μ :=
  { h with scopes := by simp [Frame.enter, h.scopes] }

/-- The variables of a block leave their scope. -/
theorem Holds.leave (new : List Twin) {sc : Scopes Nat Nat} (hsc : σ.scopes = G.scopes)
    (h : Holds X { G with twins := new ++ G.twins, scopes := sc } a σ' μ) :
    Holds X G a { σ' with scopes := σ.scopes } μ :=
  { h with
    scopes := hsc
    twin := fun t ht => h.twin t (List.mem_append_right _ ht) }

theorem At.takeOutAll {vars : List Var} {hidden : List (Option Nat)} (h : At s st pd μ)
    (hout : Lower.takeOutAll vars hidden X.env s = .ok (u, s')) : At s' st pd μ := by
  obtain ⟨-, -, -, -, hinstrs, hdepth, hreach⟩ := takeOutAll_quiet hout
  exact ⟨hinstrs ▸ h.pointer, hreach.trans h.reachable, h.stack, h.height.trans hdepth.symm,
    h.pending⟩

/-- The bound of a block lasts for the turns of its statements. -/
theorem Bench.Paced.statements {ty : Ty} {vars : List Var} {body : List Expr}
    (h : X.Paced (n + 1) (.block ty vars body)) (hb : X.back = true) :
    X.machine.fuel * (body.length + 1) + body.length ≤ n := by
  have hlen : ∀ es : List Expr, es.length + 1 ≤ sizeOf es := by
    intro es
    induction es with
    | nil => simp
    | cons e es ih => simp; omega
  have hsize : body.length + 2 ≤ sizeOf (Expr.block ty vars body) := by
    have := hlen body
    simp
    omega
  simp only [Bench.Paced, hb, if_true] at h
  have := Nat.mul_le_mul_left (X.machine.fuel + 1) hsize
  rw [Nat.add_mul, Nat.one_mul, ← Nat.add_assoc body.length 1 1, Nat.mul_add_one] at this
  omega

theorem agrees_block {ty : Ty} {vars : List Var} {body : List Expr}
    (A : ∀ e ∈ body, Agrees X (L ++ Expr.ownLabels body) e)
    (hty : ∀ v ∈ vars, X.types v.id = v.ty)
    (htakes : ∀ e, body.getLast? = some e → ty.Takes e.ty)
    (hempty : body = [] → ty.isVoid = true) : Agrees X L (.block ty vars body) := by
  refine Agrees.of_node ?_
  intro f s s' G pd st a n σ μ S hst hpace hdepth
  have hplain : Expr.PlainAll X.names body := S.plain.2
  have hlow := S.lowered
  rw [Expr.part, Part.emit_plain] at hlow
  simp only [Lower.block, bind_ok] at hlow
  obtain ⟨hidden, s₁, hin, _, s₂, hbody, hout⟩ := hlow
  obtain ⟨hq₁, -, hclean, -⟩ := bringInAll_quiet hin
  obtain ⟨hq₃, -⟩ := takeOutAll_quiet hout
  have h₂ := Lower.statements_step (hq₁.sound S.span.sound) hplain hbody
  have hF₁ := h₂.stage.leads.trans (hq₃.leads.trans S.span.leads)
  -- The variables come in one by one, in the evaluator and in the machine.
  obtain ⟨bindings, w, G', hfresh, hfits, hreach, new, rfl⟩ := S.span.ready.bringInAll
    (G := G.enter) (σ := { σ with scopes := σ.scopes.enter }) (a := a) σ.scopes st pd
    S.span.sound S.span.fits.enter hst.holds.ref_lt hin hF₁ hty
  have hspan := S.span.narrow (hq₁.stage []) (hq₁.valued S.span.valued) h₂ (hq₃.stage []) hfits
    (S.span.placedIn (by simpa only [List.nil_append, Expr.placed] using List.Sublist.refl _))
  have hh : (Expr.block ty vars body).height = Expr.heightAll body + 1 := by simp [Expr.height]
  have Q : Sequence X L f (f.result ty) body ty f.guarded s₁ s₂ _ pd n :=
    { span := hspan
      lowered := hbody
      agrees := A
      plain := hplain
      guarded := rfl
      closing := ⟨Usage.result_guarded, Usage.result_byAddress⟩
      used := fun e he hv => (htakes e he).used hv
      takes := htakes
      empty := fun he => ⟨hempty he, Usage.result_discarded (hempty he)⟩
      depth := fun e he => by
        have := Expr.height_le_heightAll he
        simp only [Frame.enter]
        omega
      paced := fun e he => hpace.part (by
        have := List.sizeOf_lt_of_mem he
        simp
        omega) }
  have hnode : (X.walk n).node (.block ty vars body) σ =
      EvalM.inScope bindings ((X.walk n).statements body n body .unit) { σ with world := w } :=
    Walk.node_block hfresh
  have hused : ty.isVoid = true → f.discarded = true := S.used
  rw [hnode]
  refine (hreach μ ⟨hst.holds.enter, hst.place⟩).meets fun μ₁ hst₁ => ?_
  -- However the statements end, the variables go out of scope again.
  refine Bench.Meets.inScope bindings (Walk.statements_tidy (fun e => eval_tidy _ _ _ _ e) n body .unit)
    (Q.meets hpace.statements hst₁) (fun v σ' μ' hv => ?_) fun x σ' μ' hx => ?_
  · obtain ⟨b, hab, hhas, hst'⟩ := hv
    rw [Usage.result_pushed hused] at hst'
    exact ⟨b, hab, hhas, hst'.holds.leave _ hst.holds.scopes, hst'.place.takeOutAll hout⟩
  · refine Out.extend (o := []) (hx.imp fun b μ _ hold => hold.leave _ hst.holds.scopes) (.inl rfl)
      (J.le_refl a) (hq₁.stage []) hclean (hq₃.stage [])

end TreeCode

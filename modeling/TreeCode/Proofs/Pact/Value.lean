import TreeCode.Proofs.Pact.Test
import TreeCode.Proofs.Value.Literal

/-!
# Values

Nodes that are lowered for their values and do not change what the runs share: constants,
defaults and variables, and the nodes that choose between the values of their parts.

Main definitions:

* `Pact.Reads` — a variable has values that stand for each other.

Main results:

* `Pact.agrees_constant`, `Pact.agrees_default`, `Pact.agrees_var` — leaves agree.
* `Pact.agrees_both`, `Pact.agrees_conditional` — short-circuit operators and conditionals.
* `Pact.meets_values` — expressions from left to right.
-/

namespace TreeCode.Pact

open Draft Lower

variable {P : Pact} {e : Expr} {σ σ' : EvalState} {G : P.Frame} {a b : P.State}
  {μ μ' : MachineState} {s s' t t' : Draft} {st : List Value}

/-! ## Leaves -/

/-- Code that only moves the machine gives the value that evaluation gives. -/
theorem Gives.of_moved {f : Usage} {ty : Ty} {v v' : Value} (hfit : P.fits a ty v v')
    (hold : P.holds G a σ μ) :
    P.Gives G a f ty s' st v σ (μ.movedTo s'.instrs.size (f.pushed v' st)) :=
  ⟨a, v', P.le_refl a, fun _ => hfit, P.holds_moved _ _ hold, rfl, rfl⟩

/-- A constant without identity is a literal. -/
theorem agrees_constant {ty : Ty} {v : Value} (hid : v.identity? = none) (hv : v.Faithful)
    (hfit : ∀ a, P.fits a ty v v) : P.Agrees (.constant ty v) := by
  refine agrees_of_node ?_
  intro f s s' G a n σ μ st hlow S _ _ _ hold
  suffices h : Comes P.machines (μ.movedTo s.instrs.size st)
      (· = μ.movedTo s'.instrs.size (f.pushed v st)) from
    Meets.pure_of_comes (h.mono fun _ hμ => hμ ▸ .of_moved (hfit a) hold)
  replace hlow : pushConstant v f P.env s = .ok ((), s') := hlow
  simp only [pushConstant, hid, Option.isNone_none, if_true, ite_ok, pure_ok] at hlow
  rcases hlow with ⟨hd, -, rfl⟩ | ⟨hd, hlow⟩
  · exact .here (by simp [Usage.pushed, hd])
  · simpa [Usage.pushed, hd] using pushValue_comes P.follows hlow S.leads hv

theorem agrees_default {ty : Ty} (hfit : ∀ a, P.fits a ty ty.default ty.default) :
    P.Agrees (.default ty) := by
  refine agrees_of_node ?_
  intro f s s' G a n σ μ st hlow S _ hused _ hold
  suffices h : Comes P.machines (μ.movedTo s.instrs.size st)
      (· = μ.movedTo s'.instrs.size (f.pushed ty.default st)) from
    Meets.pure_of_comes (h.mono fun _ hμ => hμ ▸ .of_moved (hfit a) hold)
  replace hlow : (if (!f.discarded && !ty.isVoid) = true then pushValue ty.default
    else pure () : LowerM Unit) P.env s = .ok ((), s') := hlow
  replace hused : ty.isVoid = true → f.discarded = true := hused
  simp only [ite_ok, pure_ok] at hlow
  rcases hlow with ⟨hd, hlow⟩ | ⟨hd, -, rfl⟩
  · have hd : f.discarded = false := by simp_all
    simpa [Usage.pushed, hd] using pushValue_comes P.follows hlow S.leads ty.default_faithful
  · have hd : f.discarded = true := by cases hf : f.discarded <;> simp_all
    exact .here (by simp [Usage.pushed, hd])

/-- Finding where a variable lives adds no code. -/
theorem homeOf_same {v : Var} {env : LowerEnv} {home : Home} (h : homeOf v env s = .ok (home, t)) :
    s = t := by
  simp only [homeOf, read_bind, get_bind] at h
  cases hk : s.slots.get? v.id with
  | some k =>
    simp only [hk, pure_ok] at h
    exact h.2
  | none =>
    cases hi : env.plan.capturePlace? v.id with
    | some i =>
      simp only [hk, hi, pure_ok] at h
      exact h.2
    | none => simp [hk, hi, error_ok] at h

variable (P) in
/-- Wherever the variable lives, the machine has a value for it that stands for the one that
evaluation has. -/
def Reads (v : Var) : Prop :=
  ∀ ⦃G : P.Frame⦄ ⦃a : P.State⦄ ⦃σ : EvalState⦄ ⦃μ : MachineState⦄ ⦃s : Draft⦄ ⦃home : Home⦄,
    P.suits G s → P.holds G a σ μ → homeOf v P.env s = .ok (home, s) →
    ∃ ref x, σ.scopes.get? v.id = some ref ∧ μ.at? P.record home = some x ∧
      P.fits a v.ty (σ.world.store.cellAt ref) x

theorem agrees_var {v : Var} (hv : P.Reads v) : P.Agrees (.var v) := by
  refine agrees_of_node ?_
  intro f s s' G a n σ μ st hlow S haddr _ _ hold
  replace hlow : pushVar v f P.env s = .ok ((), s') := hlow
  simp only [pushVar, bind_ok, ite_ok, pure_ok, haddr, Bool.false_and] at hlow
  obtain ⟨home, t, hhome, hlow⟩ := hlow
  obtain rfl := homeOf_same hhome
  obtain ⟨ref, x, href, hx, hfit⟩ := hv S.suits hold hhome
  rw [Walk.node_var href]
  suffices h : Comes P.machines (μ.movedTo s.instrs.size st)
      (· = μ.movedTo s'.instrs.size (f.pushed x st)) from
    Comes.mono h fun _ hμ => hμ ▸ .of_moved hfit hold
  rcases hlow with ⟨hd, -, rfl⟩ | ⟨hd, hlow⟩
  · exact .here (by simp [Usage.pushed, hd])
  · simpa [Usage.pushed, hd] using load_comes P.follows P.recorded hlow S.leads hx

/-! ## Short-circuit operators -/

/-- What a truth value stands for is the same truth value. -/
theorem Gives.bool {f : Usage} {v : Value} (h : P.Gives G a f .bool s' st v σ μ) :
    ∃ b x, P.le a b ∧ v = .bool x ∧ P.holds G b σ μ ∧ μ.pointer = s'.instrs.size ∧
      μ.stack = f.pushed (.bool x) st := by
  obtain ⟨b, v', hab, hfit, hrest⟩ := h
  obtain ⟨x, rfl, rfl⟩ := P.fits_bool.1 (hfit fun _ => rfl)
  exact ⟨b, x, hab, rfl, hrest⟩

/-- A value that is a part of a node, as a truth value. -/
theorem Agrees.truth {c : Expr} {n : Nat} {f : Usage} (A : P.Agrees c) (hty : c.ty = .bool)
    (hlow : c.part.emit f.operand P.env s = .ok ((), s')) (S : P.Spans G s s')
    (hroom : P.Room n σ c.height) (hold : P.holds G a σ μ) :
    P.Meets a (μ.movedTo s.instrs.size st) ((P.walk n).truthOf c σ) fun x σ' μ' =>
      ∃ b, P.le a b ∧ P.holds G b σ' μ' ∧ μ' = μ'.movedTo s'.instrs.size (.bool x :: st) := by
  refine (A hlow S rfl (by simp [hty, Ty.isVoid]) hroom hold).bind fun v σ' μ' _ hv => ?_
  rw [hty] at hv
  obtain ⟨b, x, hab, rfl, hold', hp, hst⟩ := hv.bool
  exact .pure ⟨b, hab, hold', (movedTo_eq hp hst).symm⟩

theorem agrees_both {isAnd : Bool} {l r : Expr} {m : Option Method}
    (hl : P.Agrees l) (hl' : P.Tests l) (hr : P.Agrees r) (htyl : l.ty = .bool)
    (htyr : r.ty = .bool) (hneatl : l.Neat) (hneatr : r.Neat) :
    P.Agrees (.binary .bool (.both isAnd) l r m) := by
  refine agrees_of_node ?_
  intro f s s' G a n σ μ st hlow S _ _ hroom hold
  replace hlow : shortCircuit isAnd l.part r.part f P.env s = .ok ((), s') := by
    cases isAnd <;> exact hlow
  have hroom : P.Room n σ (max l.height r.height) := hroom _ (Nat.lt_succ_self _)
  have hrooml := hroom.le (Nat.le_max_left _ _)
  have hroomr := hroom.le (Nat.le_max_right _ _)
  have hvoid : r.ty.isVoid = false := by rw [htyr]; rfl
  rw [Walk.node_both]
  simp only [shortCircuit, Expr.part_expr, ite_ok] at hlow
  rcases hlow with ⟨hd, hlow⟩ | ⟨hd, hlow⟩
  · -- Only the effects are wanted: the left operand may skip the right one.
    simp only [bind_ok] at hlow
    obtain ⟨done, s₁, hdone, _, s₂, hleft, _, s₃, hright, hplace⟩ := hlow
    have h₁ : Step True .blank [] [] s s₁ := freshLabel_step hdone
    have hs₁ := h₁.stage.sound S.sound
    have h₂ := branch_step hleft hneatl hs₁
    have h₃ := emit_step hright hneatr (h₂.stage.sound hs₁)
    obtain ⟨hplaced, h₄⟩ := (h₂.comp h₃).placing S.sound hdone (by simp) hplace
    have hsize : s₁.instrs.size = s.instrs.size := by
      obtain ⟨-, rfl⟩ := freshLabel_ok.1 hdone
      rfl
    rw [← hsize]
    refine (hl'.truth hleft ((S.rest h₁).start (h₃.comp h₄))
      (freshLabel_internal S.sound hdone).lt hrooml hold).bind ?_
    rintro x σ' μ' hx' ⟨b, _, hab, ⟨⟩, hold', hst, hat⟩
    have hpush : ∀ v : Value, f.pushed v st = st := fun v => by simp [Usage.pushed, hd]
    by_cases hx : x = isAnd
    · rw [if_neg (by simp [hx])] at hat
      simp only [hx, beq_self_eq_true, if_true]
      rw [← movedTo_eq hat hst]
      refine ((hr hright ((S.rest (h₁.comp h₂)).start h₄) rfl (fun _ => rfl)
        (hroomr.later (truthOf_depth hx')) hold').weaken hab).mono fun v σ'' μ'' hv => ?_
      rw [htyr] at hv
      obtain ⟨d, y, hbd, rfl, hold'', hp, hst'⟩ := hv.bool
      exact ⟨d, .bool y, P.le_trans hab hbd, fun _ => P.fits_bool.2 ⟨y, rfl, rfl⟩, hold'',
        hp.trans hplaced.size.symm, hst'.trans (hpush _).symm⟩
    · have hne : (x == isAnd) = false := by simpa using hx
      rw [if_pos (by cases x <;> cases isAnd <;> simp_all)] at hat
      simp only [hne, Bool.false_eq_true, if_false]
      exact .pure ⟨b, .bool x, hab, fun _ => P.fits_bool.2 ⟨x, rfl, rfl⟩, hold',
        hat.unique (hplaced.places S.leads), hst.trans (hpush _).symm⟩
  have hpush : ∀ v : Value, f.pushed v st = v :: st := fun v => by simp [Usage.pushed, hd]
  cases hc : l.constantBool? with
  | some x =>
    obtain ⟨ty', rfl⟩ := Expr.constantBool?_eq hc
    simp only [hc, ite_ok] at hlow
    refine (truthOf_constant hrooml (P.holds_moved _ _ hold)).bind ?_
    rintro y σ' μ' - ⟨rfl, hold', hdepth, rfl⟩
    rcases hlow with ⟨hx, hlow⟩ | ⟨hx, hlow⟩
    · obtain rfl : y = isAnd := by simpa using hx
      simp only [beq_self_eq_true, if_true]
      refine (hr (μ := μ.movedTo s.instrs.size st) hlow S rfl (by simp [hvoid])
        (hroomr.later hdepth) hold').mono fun v σ'' μ'' hv => ?_
      rw [htyr] at hv
      obtain ⟨d, z, hbd, rfl, hold'', hp, hst⟩ := hv.bool
      exact ⟨d, .bool z, hbd, fun _ => P.fits_bool.2 ⟨z, rfl, rfl⟩, hold'', hp,
        hst.trans (hpush _).symm⟩
    · simp only [hx, Bool.false_eq_true, if_false]
      refine Meets.pure_of_comes ((pushValue_comes P.follows hlow S.leads
        (Value.faithful_bool y)).mono ?_)
      rintro _ rfl
      rw [← hpush]
      exact .of_moved (μ := μ.movedTo s.instrs.size st) (P.fits_bool.2 ⟨y, rfl, rfl⟩) hold'
  | none =>
    simp only [hc, bind_ok, emit_ok] at hlow
    obtain ⟨done, s₁, hdone, _, s₂, hleft, _, _, rfl, _, s₃, hj, _, _, rfl, _, s₄, hright, hplace⟩ :=
      hlow
    have h₁ : Step True .blank [] [] s s₁ := freshLabel_step hdone
    have hs₁ := h₁.stage.sound S.sound
    have hlt := (freshLabel_internal S.sound hdone).lt
    have h₂ := emit_step hleft hneatl hs₁
    have hdup := Step.emitted (c := True) (N := .blank) s₂ .dup
    have hjump := jumpTo_jumped hj
    have h₃ : Step True .blank [] [] s₂ s₃ := hdup.trans (hjump.quiet.step hjump.same)
    have hpop := Step.emitted (c := True) (N := .blank) s₃ .pop
    have hs₂ := h₂.stage.sound hs₁
    have h₄ := emit_step hright hneatr (hpop.stage.sound (h₃.stage.sound hs₂))
    obtain ⟨hplaced, h₅⟩ := (((h₂.comp h₃).comp hpop).comp h₄).placing S.sound hdone (by simp) hplace
    have hsize : s₁.instrs.size = s.instrs.size := by
      obtain ⟨-, rfl⟩ := freshLabel_ok.1 hdone
      rfl
    rw [← hsize]
    have S₃ := S.rest (h₁.comp (h₂.comp h₃))
    have hF₃ : s₃.Leads P.final := (hpop.comp (h₄.comp h₅)).stage.leads.trans S.leads
    refine (hl.truth htyl hleft ((S.rest h₁).start (h₃.comp (hpop.comp (h₄.comp h₅)))) hrooml
      hold).bind ?_
    rintro x σ' μ' hx' ⟨b, hab, hold', hμ⟩
    -- The copy on top is tested; the value itself stays below.
    have htest : Comes P.machines μ' fun μ'' =>
        if x != isAnd then ∃ q, P.final.Places done q ∧ μ'' = μ'.movedTo q (.bool x :: st)
        else μ'' = μ'.movedTo s₃.instrs.size (.bool x :: st) := by
      rw [hμ]
      have hcopy : Comes P.machines (μ'.movedTo s₂.instrs.size (.bool x :: st))
          (· = μ'.movedTo (s₂.emitted .dup).instrs.size (.bool x :: .bool x :: st)) :=
        .carry P.follows (hjump.quiet.leads.trans hF₃) rfl fun _ _ => rfl
      refine hcopy.bind ?_
      rintro _ rfl
      exact .jump P.follows (x != isAnd) hj (hdup.stage.sound hs₂)
        (Nat.lt_of_lt_of_le hlt (h₂.comp hdup).stage.leads.labels_le) hF₃
        fun k p q => by cases x <;> cases isAnd <;> rfl
    refine Meets.of_comes htest fun μ'' hat => ?_
    by_cases hx : x = isAnd
    · rw [if_neg (by simp [hx])] at hat
      simp only [hx, beq_self_eq_true, if_true]
      subst hat
      have hdrop : Comes P.machines (μ'.movedTo s₃.instrs.size (.bool x :: st))
          (· = μ'.movedTo (s₃.emitted .pop).instrs.size st) :=
        .carry P.follows ((h₄.comp h₅).stage.leads.trans S.leads) rfl fun _ _ => rfl
      refine Meets.of_comes hdrop ?_
      rintro _ rfl
      refine ((hr hright ((S₃.rest hpop).start h₅) rfl (by simp [hvoid])
        (hroomr.later (truthOf_depth hx')) hold').weaken hab).mono fun v σ'' μ₁ hv => ?_
      rw [htyr] at hv
      obtain ⟨d, y, hbd, rfl, hold'', hp, hst⟩ := hv.bool
      exact ⟨d, .bool y, P.le_trans hab hbd, fun _ => P.fits_bool.2 ⟨y, rfl, rfl⟩, hold'',
        hp.trans hplaced.size.symm, hst.trans (hpush _).symm⟩
    · have hne : (x == isAnd) = false := by simpa using hx
      rw [if_pos (by simpa using hx)] at hat
      obtain ⟨q, hq, rfl⟩ := hat
      simp only [hne, Bool.false_eq_true, if_false]
      rw [hq.unique (hplaced.places S.leads), ← hpush]
      exact .pure ⟨b, .bool x, hab, fun _ => P.fits_bool.2 ⟨x, rfl, rfl⟩, P.holds_moved _ _ hold',
        rfl, rfl⟩

/-! ## Conditionals -/

variable (P) in
/-- A node of type `t` may take its value from a part of type `u`. -/
def Takes (t u : Ty) : Prop :=
  t.isVoid = false → u.isVoid = false ∧ (t.isReference = false → u.isReference = false) ∧
    ∀ ⦃a : P.State⦄ ⦃v v' : Value⦄, P.fits a u v v' → P.fits a t v v'

/-- A void part gives its value to nodes that ignore it only. -/
theorem Takes.used {f : Usage} {t u : Ty} (h : P.Takes t u) (hu : u.isVoid = true) :
    (f.result t).discarded = true := by
  cases ht : t.isVoid with
  | true => simp [Usage.result, ht, Usage.effect]
  | false => simp [(h ht).1] at hu

/-- The value of a part is the value of its node, if the node uses it at all. -/
theorem Gives.result {f : Usage} {ty ty' : Ty} {v : Value} (h : P.Gives G a (f.result ty) ty' s' st v σ μ)
    (htakes : P.Takes ty ty') (hused : ty.isVoid = true → f.discarded = true) :
    P.Gives G a f ty s' st v σ μ := by
  obtain ⟨b, v', hab, hfit, hold, hp, hst⟩ := h
  refine ⟨b, v', hab, fun href => ?_, hold, hp, hst.trans ?_⟩
  · cases hv : ty.isVoid with
    | true =>
      obtain rfl : ty = .void := by cases ty <;> first | rfl | cases hv
      exact P.fits_void
    | false =>
      obtain ⟨-, href', hfits⟩ := htakes hv
      refine hfits (hfit fun hd => href' (href ?_))
      cases hf : f.discarded <;> simp_all [Usage.result, Usage.operand]
  · cases hv : ty.isVoid <;> cases hd : f.discarded <;>
      simp_all [Usage.result, Usage.pushed, Usage.effect, Usage.operand]

theorem agrees_conditional {ty : Ty} {c l r : Expr} (hc : P.Tests c) (hl : P.Agrees l)
    (hr : P.Agrees r) (htyl : P.Takes ty l.ty) (htyr : P.Takes ty r.ty)
    (hneatc : c.Neat) (hneatl : l.Neat) (hneatr : r.Neat) :
    P.Agrees (.conditional ty c l r) := by
  refine agrees_of_node ?_
  intro f s s' G a n σ μ st hlow S haddr hused hroom hold
  rw [Expr.part, Part.emit_plain] at hlow
  replace hused : ty.isVoid = true → f.discarded = true := hused
  simp only [Lower.conditional, bind_ok] at hlow
  obtain ⟨otherwise, s₁, hother, done, s₂, hdone, _, s₃, htest, _, s₄, hleft, _, s₅, hj, _, s₆,
    hplace₁, _, s₇, hright, hplace₂⟩ := hlow
  have hroom : P.Room n σ (max c.height (max l.height r.height)) :=
    hroom _ (by rw [Expr.height]; exact Nat.lt_succ_self _)
  have hroomc := hroom.le (Nat.le_max_left _ _)
  have hrooml := hroom.le (Nat.le_trans (Nat.le_max_left l.height r.height) (Nat.le_max_right _ _))
  have hroomr := hroom.le (Nat.le_trans (Nat.le_max_right l.height r.height) (Nat.le_max_right _ _))
  have husage : (f.result ty).byAddress = false := by
    unfold Usage.result
    split <;> rfl
  -- Both labels are free where they are placed.
  have h₁ : Step True .blank [] [] s s₁ := freshLabel_step hother
  have hs₁ := h₁.stage.sound S.sound
  have h₂ : Step True .blank [] [] s₁ s₂ := freshLabel_step hdone
  have hs₂ := h₂.stage.sound hs₁
  have h₃ := branch_step htest hneatc hs₂
  have hs₃ := h₃.stage.sound hs₂
  have h₄ := emit_step hleft hneatl hs₃
  have hs₄ := h₄.stage.sound hs₃
  have hjump := jumpTo_jumped hj
  have h₅ : Step True .blank [] [] s₄ s₅ := hjump.quiet.step hjump.same
  have hfree := Free.fresh S.sound hother
  have hfree' := Free.fresh hs₁ hdone
  obtain ⟨hplaced₁, h₆⟩ := (hfree.step (h₂.comp (h₃.comp (h₄.comp h₅))) (by simp)).place
    (c := True) (N := .blank) hplace₁
  have hs₆ := h₆.stage.sound (h₅.stage.sound hs₄)
  have h₇ := emit_step hright hneatr hs₆
  have hne : done ≠ otherwise := by
    obtain ⟨rfl, rfl⟩ := freshLabel_ok.1 hother
    obtain ⟨rfl, -⟩ := freshLabel_ok.1 hdone
    simp
  obtain ⟨hplaced₂, h₈⟩ := (hfree'.step (h₃.comp (h₄.comp (h₅.comp (h₆.comp h₇)))) (by simpa using hne)).place
    (c := True) (N := .blank) hplace₂
  have hsize : s₂.instrs.size = s.instrs.size := by
    obtain ⟨-, rfl⟩ := freshLabel_ok.1 hother
    obtain ⟨-, rfl⟩ := freshLabel_ok.1 hdone
    rfl
  show P.Meets a _ (((P.walk n).truthOf c >>= fun x =>
    if x then (P.walk n).valueOf l else (P.walk n).valueOf r) σ) _
  rw [← hsize]
  have S₂ := S.rest (h₁.comp h₂)
  refine (hc.truth htest (S₂.start (h₄.comp (h₅.comp (h₆.comp (h₇.comp h₈)))))
    (Nat.lt_of_lt_of_le hfree.internal.lt h₂.stage.leads.labels_le) hroomc hold).bind ?_
  rintro x σ' μ' hx' ⟨b, _, hab, ⟨⟩, hold', hst, hat⟩
  have S₃ := S₂.rest h₃
  cases x with
  | true =>
    rw [if_neg (by simp)] at hat
    simp only [if_true]
    rw [← movedTo_eq hat hst]
    refine ((hl hleft (S₃.start (h₅.comp (h₆.comp (h₇.comp h₈)))) husage htyl.used
      (hrooml.later (truthOf_depth hx')) hold').weaken hab).after fun v σ'' μ'' hv => ?_
    obtain ⟨d, v', hbd, hfit, hold'', hp, hst'⟩ := hv
    rw [← movedTo_eq hp hst']
    refine (jump_comes hj hs₄ (Nat.lt_of_lt_of_le hfree'.internal.lt (h₃.comp h₄).stage.leads.labels_le)
      ((h₆.comp (h₇.comp h₈)).stage.leads.trans S.leads)).mono ?_
    rintro μ₁ ⟨q, hq, rfl⟩
    exact Gives.result ⟨d, v', P.le_trans hab hbd, hfit, P.holds_moved _ _ hold'',
      hq.unique (hplaced₂.places S.leads), rfl⟩ htyl hused
  | false =>
    rw [if_pos rfl] at hat
    simp only [Bool.false_eq_true, if_false]
    have hat := hat.unique (hplaced₁.places ((h₇.comp h₈).stage.leads.trans S.leads))
    rw [← movedTo_eq hat hst]
    refine ((hr hright ((S₃.rest (h₄.comp (h₅.comp h₆))).start h₈) husage htyr.used
      (hroomr.later (truthOf_depth hx')) hold').weaken hab).mono fun v σ'' μ'' hv => ?_
    obtain ⟨d, v', hbd, hfit, hold'', hp, hst'⟩ := hv
    exact Gives.result ⟨d, v', P.le_trans hab hbd, hfit, hold'', hp.trans hplaced₂.size.symm, hst'⟩
      htyr hused

/-! ## Several values -/

/-- Values of some types stand for each other. -/
inductive FitsAll (P : Pact) (a : P.State) : List Ty → List Value → List Value → Prop
  | nil : FitsAll P a [] [] []
  | cons {t : Ty} {ts : List Ty} {v v' : Value} {vs vs' : List Value} (h : P.fits a t v v')
    (hs : FitsAll P a ts vs vs') : FitsAll P a (t :: ts) (v :: vs) (v' :: vs')

theorem FitsAll.length {ts : List Ty} {vs vs' : List Value} (h : P.FitsAll a ts vs vs') :
    vs.length = ts.length ∧ vs'.length = ts.length := by
  induction h with
  | nil => exact ⟨rfl, rfl⟩
  | cons _ _ ih => exact ⟨congrArg (· + 1) ih.1, congrArg (· + 1) ih.2⟩

theorem pushAll_step {es : List Expr} {f : Usage} {env : LowerEnv} {u : Unit}
    (h : Part.pushAll (Expr.parts es) f env s = .ok (u, s')) (hneat : ∀ e ∈ es, e.Neat)
    (hs : s.Sound) : Step True .blank [] [] s s' := by
  induction es generalizing s with
  | nil =>
    obtain ⟨-, rfl⟩ := pure_ok.1 h
    exact .refl s
  | cons e es ih =>
    simp only [Expr.parts, Part.pushAll, bind_ok] at h
    obtain ⟨_, t, he, hrest⟩ := h
    have hstep := emit_step he (hneat e (by simp)) hs
    exact hstep.trans (ih hrest (fun e he => hneat e (by simp [he])) (hstep.stage.sound hs))

/-- Expressions are evaluated from left to right, and their values are on the stack, the
last one on top. -/
theorem meets_values {es : List Expr} {f : Usage} {n : Nat} {u : Unit}
    (A : ∀ e ∈ es, P.Agrees e ∧ e.ty.isVoid = false) (hneat : ∀ e ∈ es, e.Neat)
    (hlow : Part.pushAll (Expr.parts es) f P.env s = .ok (u, s')) (S : P.Spans G s s')
    (hroom : ∀ e ∈ es, P.Room n σ e.height) (hold : P.holds G a σ μ) :
    P.Meets a (μ.movedTo s.instrs.size st) ((P.walk n).valuesOf es σ) fun vs σ' μ' =>
      ∃ b vs', P.le a b ∧ P.FitsAll b (es.map (·.ty)) vs vs' ∧ P.holds G b σ' μ' ∧
        μ' = μ'.movedTo s'.instrs.size (vs'.reverse ++ st) := by
  induction es generalizing s a σ μ st with
  | nil =>
    obtain ⟨-, rfl⟩ := pure_ok.1 hlow
    exact .pure ⟨a, [], P.le_refl a, .nil, P.holds_moved _ _ hold, rfl⟩
  | cons e es ih =>
    simp only [Expr.parts, Part.pushAll, bind_ok] at hlow
    obtain ⟨_, t, he, hrest⟩ := hlow
    have h₁ := emit_step he (hneat e (by simp)) S.sound
    have h₂ := pushAll_step hrest (fun e he => hneat e (by simp [he])) (h₁.stage.sound S.sound)
    show P.Meets a _ (((P.walk n).valueOf e >>= fun v =>
      (P.walk n).valuesOf es >>= fun vs => pure (v :: vs)) σ) _
    obtain ⟨Ae, hvoid⟩ := A e (by simp)
    refine (Ae he (S.start h₂) rfl (by simp [hvoid]) (hroom e (by simp)) hold).bind
      fun v σ₁ μ₁ hv' hv => ?_
    obtain ⟨b, v', hab, hfit, hold₁, hp, hst⟩ := hv
    rw [← movedTo_eq hp hst]
    refine ((ih (fun e he => A e (by simp [he])) (fun e he => hneat e (by simp [he])) hrest
      (S.rest h₁) (fun e he => (hroom e (by simp [he])).later (eval_depth hv')) hold₁).weaken
      hab).bind ?_
    rintro vs σ₂ μ₂ - ⟨d, vs', hbd, hfits, hold₂, hμ⟩
    have hfit := P.fits_mono hbd (hfit fun h => absurd h Bool.false_ne_true)
    refine .pure ⟨d, v' :: vs', P.le_trans hab hbd, .cons hfit hfits, hold₂, ?_⟩
    rw [List.reverse_cons, List.append_assoc]
    exact hμ

end TreeCode.Pact

import TreeCode.Proofs.Compile.Tally

/-!
# What a unit captures

A variable is free in a lambda when it is mentioned outside the blocks and handlers
that declare it and is not a parameter; a nested lambda mentions its own free variables
where it stands. The walk that plans a unit finds just these, although it keeps the
scope on a stack and plans a nested lambda only once, at the first of its mentions: what
is free in a lambda does not depend on where it stands.

Main definitions:

* `Lambda.freeVars` — the free variables of a lambda, in the order of first mention.
* `Lambda.boxedVars` — the own variables of a lambda that nested ones capture.
* `Lambda.Plannable` — nothing in the tree is ruled out by planning.
* `Survey.Gathers` — what a step of the walk gathers, and when it goes through.

Main results:

* `survey_gathers` — walking a tree gathers what is free in it.
* `planLambda_exact` — **captures are exactly the free variables, boxed are exactly the
  own variables that nested lambdas capture, and planning succeeds exactly for a lambda
  without free variables**.
-/

namespace TreeCode

open Survey

/-! ## Free variables -/

def Var.sameId (v w : Var) : Bool := w.id == v.id

/-- The variables that are free in a lambda, each once, in the order of first mention. A
mention is free if its variable is not in scope there; a nested lambda mentions its own
free variables. -/
def Lambda.freeVars (l : Lambda) : List Var :=
  (l.mentions.attach.flatMap fun m =>
    match m with
    | ⟨.var D v, _⟩ => if v.id ∈ D then [] else [v]
    | ⟨.lambda D k, _⟩ => k.freeVars.filter fun v => v.id ∉ D
    | _ => []).eraseDupsBy Var.sameId
termination_by sizeOf l
decreasing_by exact Lambda.Mentions.sizeOf_lt ⟨D, by assumption⟩

/-- The variables that are free at a mention. -/
def Mention.free : Mention → List Var
  | .var D v => if v.id ∈ D then [] else [v]
  | .lambda D k => k.freeVars.filter fun v => v.id ∉ D
  | _ => []

theorem Lambda.freeVars_eq (l : Lambda) :
    l.freeVars = (l.mentions.flatMap Mention.free).eraseDupsBy Var.sameId := by
  rw [Lambda.freeVars]
  congr 1
  conv_rhs => rw [← List.attach_map_subtype_val l.mentions, List.flatMap_map]
  refine List.flatMap_congr fun ⟨m, hm⟩ _ => ?_
  cases m <;> rfl

/-- The ids of the variables in scope at a mention of a lambda that are free in it. -/
def Mention.boxed : Mention → List Nat
  | .lambda D k => (Var.ids k.freeVars).filter fun id => id ∈ D
  | _ => []

/-- The ids of the own variables of a lambda that are free in a lambda it mentions where
they are in scope. -/
def Lambda.boxedVars (l : Lambda) : List Nat := l.mentions.flatMap Mention.boxed

/-- A plan captures the free variables of its lambda, and boxes the own variables that
nested lambdas capture. -/
structure UnitPlan.Exact (u : UnitPlan) : Prop where
  captures : u.plan.captures = u.lambda.freeVars
  boxed : ∀ id, id ∈ u.plan.boxed ↔ id ∈ u.lambda.boxedVars

/-! ## Trees that can be planned -/

mutual

/-- Nothing in the tree is ruled out: no handler has a filter, and a switch that gives a
value has a fallback. -/
def Expr.Plannable : Expr → Prop
  | .constant .. | .var _ | .default _ | .rethrow _ => True
  | .unary _ _ e _ => e.Plannable
  | .binary _ _ l r _ => l.Plannable ∧ r.Plannable
  | .call _ o _ args => Expr.PlannableOption o ∧ Expr.PlannableAll args
  | .new _ _ args => Expr.PlannableAll args
  | .member o _ => o.Plannable
  | .index _ o _ args => o.Plannable ∧ Expr.PlannableAll args
  | .newArray _ items => Expr.PlannableAll items
  | .newArrayBounds _ n => n.Plannable
  | .memberInit _ args bs => Expr.PlannableAll args ∧ Expr.PlannableBindings bs
  | .conditional _ t a b => t.Plannable ∧ a.Plannable ∧ b.Plannable
  | .block _ _ es => Expr.PlannableAll es
  | .loop b _ _ => b.Plannable
  | .protect b hs c => b.Plannable ∧ Expr.PlannableHandlers hs ∧ Expr.PlannableCleanup c
  | .label _ e => Expr.PlannableOption e
  | .goto _ _ _ e => Expr.PlannableOption e
  | .switch t v cs e _ =>
    (t.isVoid = false → e.isSome = true) ∧ v.Plannable ∧ Expr.PlannableCases cs ∧
      Expr.PlannableOption e
  | .lambda l => l.Plannable
  | .invoke _ t args => t.Plannable ∧ Expr.PlannableAll args

def Expr.PlannableOption : Option Expr → Prop
  | none => True
  | some e => e.Plannable

def Expr.PlannableAll : List Expr → Prop
  | [] => True
  | e :: es => e.Plannable ∧ Expr.PlannableAll es

def Expr.PlannableBindings : List Binding → Prop
  | [] => True
  | .mk _ e :: bs => e.Plannable ∧ Expr.PlannableBindings bs

def Expr.PlannableHandlers : List CatchClause → Prop
  | [] => True
  | .mk _ _ f body :: hs => f = none ∧ body.Plannable ∧ Expr.PlannableHandlers hs

def Expr.PlannableCleanup : Cleanup → Prop
  | .none => True
  | .finally e => e.Plannable
  | .fault e => e.Plannable

def Expr.PlannableCases : List SwitchCase → Prop
  | [] => True
  | .mk tests body :: cs =>
    Expr.PlannableAll tests ∧ body.Plannable ∧ Expr.PlannableCases cs

/-- Neither the lambda nor one nested in it has anything that is ruled out. -/
def Lambda.Plannable : Lambda → Prop
  | .mk _ _ _ _ body => body.Plannable

end

/-! ## Mentions of variables -/

/-- A variable that a nested unit captures is put into a cell, or captured. -/
def Plan.hand (D : List Nat) (p : Plan) (v : Var) : Plan :=
  if v.id ∈ D then p.noteBoxed v.id else p.noteCapture v

namespace Plan

variable {p : Plan} {D : List Nat} {v : Var} {id k : Nat}

theorem noteCapture_captures :
    (p.noteCapture v).captures = addNew Var.sameId p.captures v := by
  unfold noteCapture addNew
  split <;> rename_i h
  · rw [if_pos (by simpa [Var.sameId] using h)]
  · rw [if_neg (by simpa [Var.sameId] using h)]

theorem noteCapture_boxed : (p.noteCapture v).boxed = p.boxed := by
  unfold noteCapture
  split <;> rfl

theorem noteBoxed_captures : (p.noteBoxed k).captures = p.captures := by
  unfold noteBoxed
  split <;> rfl

theorem mem_noteBoxed_iff : id ∈ (p.noteBoxed k).boxed ↔ id ∈ p.boxed ∨ id = k := by
  unfold noteBoxed
  split
  · rename_i h
    have hk : k ∈ p.boxed := by simpa using h
    grind
  · simp [or_comm]

/-- What handing variables on adds to a plan. -/
theorem foldl_hand (vs : List Var) (p : Plan) :
    (vs.foldl (hand D) p).captures =
        (vs.filter fun v => v.id ∉ D).foldl (addNew Var.sameId) p.captures ∧
      ∀ id, id ∈ (vs.foldl (hand D) p).boxed ↔
        id ∈ p.boxed ∨ id ∈ (Var.ids vs).filter fun id => id ∈ D := by
  induction vs generalizing p with
  | nil => simp [Var.ids]
  | cons v vs ih =>
    obtain ⟨hcaptures, hboxed⟩ := ih (p.hand D v)
    by_cases hv : v.id ∈ D
    · have hhand : p.hand D v = p.noteBoxed v.id := if_pos hv
      refine ⟨?_, fun id => ?_⟩
      · rw [List.foldl_cons, hcaptures, hhand, noteBoxed_captures]
        simp [hv]
      · rw [List.foldl_cons, hboxed, hhand, mem_noteBoxed_iff]
        simp only [Var.ids, List.map_cons, List.filter_cons, hv, decide_true, if_true,
          List.mem_cons]
        grind
    · have hhand : p.hand D v = p.noteCapture v := if_neg hv
      refine ⟨?_, fun id => ?_⟩
      · rw [List.foldl_cons, hcaptures, hhand, noteCapture_captures]
        simp [hv]
      · rw [List.foldl_cons, hboxed, hhand, noteCapture_boxed]
        simp [Var.ids, hv]

end Plan

namespace Survey

variable {s s' t : Survey} {v : Var} {vs : List Var}

/-- A variable of an enclosing unit is captured, if there is such a unit. -/
theorem capture_iff : capture v s = .ok ((), t) ↔
    s.isNested = true ∧ t = { s with plan := s.plan.noteCapture v } := by
  obtain ⟨units, plan, params, blocks, isNested⟩ := s
  cases isNested with
  | false => exact ⟨fun h => (nomatch h), fun h => absurd h.1 (by simp)⟩
  | true =>
    constructor
    · intro h
      cases h
      exact ⟨rfl, rfl⟩
    · rintro ⟨-, rfl⟩
      rfl

theorem get_bind (f : Survey → SurveyM Unit) : (get >>= f) s = f s s := rfl

theorem mention_iff : mention v s = .ok ((), t) ↔
    (s.isNested = false → v.id ∈ s.scope) ∧
      t = { s with plan := if v.id ∈ s.scope then s.plan else s.plan.noteCapture v } := by
  rw [mention, get_bind]
  by_cases hv : v.id ∈ s.scope
  · rw [if_pos (isOwn_iff.2 hv), if_pos hv]
    constructor
    · intro h
      cases h
      exact ⟨fun _ => hv, rfl⟩
    · rintro ⟨-, rfl⟩
      rfl
  · rw [if_neg (fun h => hv (isOwn_iff.1 h)), if_neg hv, capture_iff]
    cases s.isNested <;> simp [hv]

/-- Variables are handed on if those that are not in scope can come from further out. -/
theorem passOn_iff : passOn vs s = .ok ((), t) ↔
    (s.isNested = false → ∀ v ∈ vs, v.id ∈ s.scope) ∧
      t = { s with plan := vs.foldl (Plan.hand s.scope) s.plan } := by
  induction vs generalizing s with
  | nil =>
    constructor
    · intro h
      cases h
      exact ⟨by simp, rfl⟩
    · rintro ⟨-, rfl⟩
      rfl
  | cons v vs ih =>
    have hplan : ∀ p, ({ s with plan := p } : Survey).scope = s.scope := fun _ => rfl
    rw [passOn, get_bind, List.foldl_cons]
    by_cases hv : v.id ∈ s.scope
    -- A variable of the unit is boxed; any other is captured, which the root refuses.
    · have hbind : (modifyPlan (·.noteBoxed v.id) >>= fun _ => passOn vs) s =
          passOn vs { s with plan := s.plan.noteBoxed v.id } := rfl
      rw [if_pos (isOwn_iff.2 hv), hbind, ih, Plan.hand, if_pos hv, hplan]
      simp only [List.forall_mem_cons, hv, true_and]
    · rw [if_neg (fun h => hv (isOwn_iff.1 h)), bind_ok, Plan.hand, if_neg hv]
      constructor
      · rintro ⟨⟨⟩, t', hcapture, h⟩
        obtain ⟨hn, rfl⟩ := capture_iff.1 hcapture
        exact ⟨by simp [hn], (ih.1 h).2⟩
      · rintro ⟨hn, rfl⟩
        have hnested : s.isNested = true := by
          by_contra h
          exact hv (hn (by simpa using h) v (by simp))
        exact ⟨(), _, capture_iff.2 ⟨hnested, rfl⟩,
          ih.2 ⟨fun h => absurd (hnested.symm.trans h) (by simp), rfl⟩⟩

end Survey

/-! ## What a walk gathers -/

/-- The units of a survey, all of them nested in one lambda, have exact plans, and what a
lambda with a unit mentions has a unit. -/
structure Survey.Surveyed (root : Lambda) (units : Array UnitPlan) : Prop where
  nests : ∀ u ∈ units, root.Nests u.lambda
  exact : ∀ u ∈ units, u.Exact
  closed : ∀ u ∈ units, ∀ k, u.lambda.Mentions k → ∃ u' ∈ units, u'.lambda = k

/-- What walking a tree with the mentions `M` does. -/
structure Survey.Gathered (root : Lambda) (M : List Mention) (s t : Survey) : Prop where
  params : t.params = s.params
  blocks : t.blocks = s.blocks
  isNested : t.isNested = s.isNested
  units : ∀ u ∈ s.units, u ∈ t.units
  surveyed : Surveyed root t.units
  captures : t.plan.captures = (M.flatMap Mention.free).foldl (addNew Var.sameId) s.plan.captures
  boxed : ∀ id, id ∈ t.plan.boxed ↔ id ∈ s.plan.boxed ∨ id ∈ M.flatMap Mention.boxed
  planned : ∀ D k, .lambda D k ∈ M → ∃ u ∈ t.units, u.lambda = k
  /-- Without an enclosing unit, nothing is free. -/
  closed : s.isNested = false → M.flatMap Mention.free = []

namespace Survey

variable {root : Lambda} {M N : List Mention} {s t u : Survey}

theorem Gathered.scope_eq (h : Gathered root M s t) : t.scope = s.scope := by
  rw [scope, scope, h.blocks, h.params]

theorem Gathered.trans (h₁ : Gathered root M s t) (h₂ : Gathered root N t u) :
    Gathered root (M ++ N) s u where
  params := h₂.params.trans h₁.params
  blocks := h₂.blocks.trans h₁.blocks
  isNested := h₂.isNested.trans h₁.isNested
  units x hx := h₂.units x (h₁.units x hx)
  surveyed := h₂.surveyed
  captures := by rw [h₂.captures, h₁.captures, List.flatMap_append, List.foldl_append]
  boxed id := by rw [h₂.boxed, h₁.boxed, List.flatMap_append, List.mem_append, or_assoc]
  planned D k hk := by
    rcases List.mem_append.1 hk with hk | hk
    · obtain ⟨x, hx, rfl⟩ := h₁.planned D k hk
      exact ⟨x, h₂.units x hx, rfl⟩
    · exact h₂.planned D k hk
  closed hn := by
    rw [List.flatMap_append, h₁.closed hn, h₂.closed (h₁.isNested.trans hn), List.append_nil]

/-- A change of the plan that concerns neither variables nor units. -/
theorem Gathered.of_plan {p : Plan} {m : Mention} (hs : Surveyed root s.units)
    (hcaptures : p.captures = s.plan.captures) (hboxed : p.boxed = s.plan.boxed)
    (hfree : m.free = []) (hm : m.boxed = []) (hlambda : ∀ D k, m ≠ .lambda D k) :
    Gathered root [m] s { s with plan := p } where
  params := rfl
  blocks := rfl
  isNested := rfl
  units _ hx := hx
  surveyed := hs
  captures := by simp [hfree, hcaptures]
  boxed id := by simp [hm, hboxed]
  planned D k hk := absurd (List.mem_singleton.1 hk).symm (hlambda D k)
  closed _ := by simp [hfree]

theorem Gathered.nil (hs : Surveyed root s.units) : Gathered root [] s s where
  params := rfl
  blocks := rfl
  isNested := rfl
  units _ hx := hx
  surveyed := hs
  captures := rfl
  boxed id := by simp
  planned D k hk := by simp at hk
  closed _ := rfl

/-- What a step of the walk gathers in scope `D`, where it meets the mentions `M`; and it
goes through if nothing in the tree is ruled out and what is free can come from further
out. -/
structure Gathers (root : Lambda) (C : Prop) (D : List Nat) (M : List Mention)
    (x : SurveyM Unit) : Prop where
  gathers : ∀ s t, x s = .ok ((), t) → s.scope = D → Surveyed root s.units →
    (∀ D' k, .lambda D' k ∈ M → root.Nests k) → Gathered root M s t
  passes : C → ∀ s, s.scope = D → Surveyed root s.units →
    (∀ D' k, .lambda D' k ∈ M → root.Nests k) →
      (s.isNested = false → M.flatMap Mention.free = []) → ∃ t, x s = .ok ((), t)

namespace Gathers

variable {C C' : Prop} {D : List Nat} {x y : SurveyM Unit} {m : Mention}

theorem pure : Gathers root True D [] (Pure.pure ()) where
  gathers s t h _ hs _ := by
    cases h
    exact .nil hs
  passes _ s _ _ _ _ := ⟨s, rfl⟩

theorem bind (hx : Gathers root C D M x) (hy : Gathers root C' D N y) :
    Gathers root (C ∧ C') D (M ++ N) (x >>= fun _ => y) where
  gathers s u h hD hs hM := by
    obtain ⟨⟨⟩, t, h₁, h₂⟩ := bind_ok.1 h
    have hst := hx.gathers s t h₁ hD hs fun D' k hk => hM D' k (List.mem_append_left _ hk)
    exact hst.trans (hy.gathers t u h₂ (hst.scope_eq.trans hD) hst.surveyed
      fun D' k hk => hM D' k (List.mem_append_right _ hk))
  passes hC s hD hs hM hfree := by
    have hM₁ : ∀ D' k, .lambda D' k ∈ M → root.Nests k := fun D' k hk =>
      hM D' k (List.mem_append_left _ hk)
    have hfree' : s.isNested = false → M.flatMap Mention.free = [] ∧ N.flatMap Mention.free = [] :=
      fun hn => by simpa only [List.flatMap_append, List.append_eq_nil_iff] using hfree hn
    obtain ⟨t, h₁⟩ := hx.passes hC.1 s hD hs hM₁ fun hn => (hfree' hn).1
    have hst := hx.gathers s t h₁ hD hs hM₁
    obtain ⟨u, h₂⟩ := hy.passes hC.2 t (hst.scope_eq.trans hD) hst.surveyed
      (fun D' k hk => hM D' k (List.mem_append_right _ hk))
      fun hn => (hfree' (hst.isNested.symm.trans hn)).2
    exact ⟨u, bind_ok.2 ⟨(), t, h₁, h₂⟩⟩

theorem imp (h : Gathers root C D M x) (hC : C' → C) : Gathers root C' D M x :=
  ⟨h.gathers, fun hC' => h.passes (hC hC')⟩

/-- A tree is walked only if a condition does not rule it out. -/
theorem guarded {c : Prop} [Decidable c] {e : Unsupported} (hx : Gathers root C D M x) :
    Gathers root (¬c ∧ C) D M (do
      if c then unsupported e
      x) where
  gathers s t h hD hs hM := by
    by_cases hc : c
    · simp only [hc, if_true] at h
      cases h
    · simp only [hc, if_false] at h
      exact hx.gathers s t h hD hs hM
  passes hC s hD hs hM hfree := by
    obtain ⟨t, ht⟩ := hx.passes hC.2 s hD hs hM hfree
    refine ⟨t, ?_⟩
    simp only [hC.1, if_false]
    exact ht

theorem inBlock {vars : List Var} (hx : Gathers root C (Var.ids vars ++ D) M x) :
    Gathers root C D M (inBlock vars x) where
  gathers s t h hD hs hM := by
    obtain ⟨t, ht, rfl⟩ := Tours.inBlock_ok h
    have hst := hx.gathers _ t ht (by simp [scope, ← hD]) hs hM
    exact { hst with blocks := by simp [hst.blocks] }
  passes hC s hD hs hM hfree := by
    obtain ⟨t, ht⟩ := hx.passes hC { s with blocks := vars :: s.blocks } (by simp [scope, ← hD])
      hs hM hfree
    exact ⟨_, bind_ok.2 ⟨(), _, rfl, bind_ok.2 ⟨(), t, ht, rfl⟩⟩⟩

/-- Declaring variables asks nothing of the plan. -/
theorem ofBlock {vars : List Var} (hx : Gathers root C D M x) :
    Gathers root C D (.block vars :: M) x where
  gathers s t h hD hs hM := by
    have hst := hx.gathers s t h hD hs fun D' k hk => hM D' k (List.mem_cons_of_mem _ hk)
    exact { hst with
      captures := by simpa [Mention.free] using hst.captures
      boxed := fun id => by simpa [Mention.boxed] using hst.boxed id
      planned := fun D' k hk => hst.planned D' k (by simpa using hk)
      closed := fun hn => by simpa [Mention.free] using hst.closed hn }
  passes hC s hD hs hM hfree := hx.passes hC s hD hs
    (fun D' k hk => hM D' k (List.mem_cons_of_mem _ hk))
    fun hn => by simpa [Mention.free] using hfree hn

/-- A change of the plan that concerns neither variables nor units. -/
theorem ofPlan {f : Plan → Plan} (hf : ∀ p, (f p).captures = p.captures ∧ (f p).boxed = p.boxed)
    (hfree : m.free = []) (hm : m.boxed = []) (hlambda : ∀ D k, m ≠ .lambda D k) :
    Gathers root True D [m] (modifyPlan f) where
  gathers s t h _ hs _ := by
    cases h
    exact .of_plan hs (hf _).1 (hf _).2 hfree hm hlambda
  passes _ s _ _ _ _ := ⟨_, rfl⟩

theorem noteConstant {v : Value} : Gathers root True D [.constant v] (modifyPlan (·.noteConstant v)) :=
  .ofPlan (fun p => by
    unfold Plan.noteConstant
    split <;> exact ⟨rfl, rfl⟩) rfl rfl (by simp)

theorem noteLabel_plan (p : Plan) (id : Nat) :
    (p.noteLabel id).captures = p.captures ∧ (p.noteLabel id).boxed = p.boxed := by
  unfold Plan.noteLabel
  split <;> exact ⟨rfl, rfl⟩

theorem noteLabel {l : Label} : Gathers root True D [.label l] (noteLabel l) :=
  .ofPlan (fun p => noteLabel_plan p l.id) rfl rfl (by simp)

theorem notePlace {l : Label} : Gathers root True D [.place l] (Survey.noteLabel l) :=
  .ofPlan (fun p => noteLabel_plan p l.id) rfl rfl (by simp)

theorem noteLabelOption {o : Option Label} :
    Gathers root True D (o.toList.map .place) (noteLabelOption o) := by
  cases o with
  | none => exact .pure
  | some l => exact notePlace

theorem mention {v : Var} : Gathers root True D [.var D v] (mention v) where
  gathers s t h hD hs _ := by
    obtain ⟨hn, rfl⟩ := mention_iff.1 h
    rw [hD] at hn ⊢
    by_cases hv : v.id ∈ D
    · rw [if_pos hv]
      exact .of_plan hs rfl rfl (by simp [Mention.free, hv]) rfl (by simp)
    · rw [if_neg hv]
      exact { Gathered.nil hs with
        captures := by simp [Mention.free, hv, Plan.noteCapture_captures]
        boxed := fun id => by simp [Mention.boxed, Plan.noteCapture_boxed]
        planned := by simp
        closed := fun h => absurd (hn h) hv }
  passes _ s hD _ _ hfree := by
    refine ⟨_, mention_iff.2 ⟨fun hn => ?_, rfl⟩⟩
    by_contra hv
    rw [hD] at hv
    simpa [Mention.free, hv] using hfree hn

end Gathers

/-! ## Nested lambdas -/

section Nested

variable {l : Lambda} {walk : SurveyM Unit} {C : Prop}

/-- The unit of a lambda. -/
theorem unitFor_gathers (htells : root.Tells) (hroot : root.Nests l)
    (hwalk : Gathers root C (Var.ids l.params) l.mentions walk) {k : Nat}
    (hs : Surveyed root s.units) (h : unitFor l walk s = .ok (k, t)) :
    ∃ units x, t = { s with units } ∧ units[k]? = some x ∧ x.lambda = l ∧
      Surveyed root units ∧ ∀ u ∈ s.units, u ∈ units := by
  unfold unitFor at h
  cases hk : s.units.findIdx? (·.lambda.id == l.id) with
  | some k' =>
    simp only [hk, Except.ok.injEq, Prod.mk.injEq] at h
    obtain ⟨rfl, rfl⟩ := h
    obtain ⟨x, hx, hid⟩ := id_of_findIdx? hk
    -- The lambda was met before, and ids tell lambdas apart.
    exact ⟨s.units, x, rfl, hx,
      htells _ _ (hs.nests x (Array.mem_of_getElem? hx)) hroot hid, hs, fun _ hu => hu⟩
  | none =>
    simp only [hk] at h
    cases hinner : walk { units := s.units, params := l.params, isNested := true } with
    | error f => simp [hinner, Bind.bind, Except.bind] at h
    | ok r =>
      obtain ⟨⟨⟩, inner⟩ := r
      simp only [hinner, Bind.bind, Except.bind, Except.ok.injEq, Prod.mk.injEq] at h
      obtain ⟨rfl, rfl⟩ := h
      have hst := hwalk.gathers _ inner hinner (by simp [scope]) hs fun D' k hk =>
        Relation.ReflTransGen.tail hroot ⟨D', hk⟩
      have hgrows : ∀ u ∈ inner.units, u ∈ inner.units.push ⟨l, inner.plan⟩ := fun u hu =>
        Array.mem_push.2 (.inl hu)
      -- The walk over the body gathered the plan; its unit comes behind those it made itself.
      refine ⟨_, ⟨l, inner.plan⟩, rfl, Array.getElem?_push_size, rfl, ⟨?_, ?_, ?_⟩,
        fun u hu => hgrows u (hst.units u hu)⟩
      · intro u hu
        rcases Array.mem_push.1 hu with hu | rfl
        · exact hst.surveyed.nests u hu
        · exact hroot
      · intro u hu
        rcases Array.mem_push.1 hu with hu | rfl
        · exact hst.surveyed.exact u hu
        · refine ⟨?_, fun id => ?_⟩
          · rw [l.freeVars_eq, eraseDupsBy_eq_foldl]
            exact hst.captures
          · rw [hst.boxed id]
            simp [Lambda.boxedVars]
      · intro u hu k hk
        rcases Array.mem_push.1 hu with hu | rfl
        · obtain ⟨u', hu', rfl⟩ := hst.surveyed.closed u hu k hk
          exact ⟨u', hgrows u' hu', rfl⟩
        · obtain ⟨D', hk⟩ := hk
          obtain ⟨u', hu', rfl⟩ := hst.planned D' k hk
          exact ⟨u', hgrows u' hu', rfl⟩

theorem unitFor_passes (hC : C) (hroot : root.Nests l)
    (hwalk : Gathers root C (Var.ids l.params) l.mentions walk) (hs : Surveyed root s.units) :
    ∃ k t, unitFor l walk s = .ok (k, t) := by
  unfold unitFor
  cases hk : s.units.findIdx? (·.lambda.id == l.id) with
  | some k' => exact ⟨_, _, rfl⟩
  | none =>
    obtain ⟨inner, hinner⟩ := hwalk.passes hC
      { units := s.units, params := l.params, isNested := true } (by simp [scope]) hs
      (fun D' k hk => Relation.ReflTransGen.tail hroot ⟨D', hk⟩) (fun h => absurd h (by simp))
    exact ⟨_, _, by simp only [hinner]; rfl⟩

/-- What is handed on for a mention is decided by what is free there. -/
theorem hands_iff {D : List Nat} : (∀ v ∈ l.freeVars, v.id ∈ D) ↔
    [Mention.lambda D l].flatMap Mention.free = [] := by
  simp [Mention.free, List.filter_eq_nil_iff]

theorem Gathers.mentionLambda {D : List Nat} (htells : root.Tells)
    (hwalk : Gathers root C (Var.ids l.params) l.mentions walk) :
    Gathers root C D [.lambda D l] (mentionLambda l walk) where
  gathers s t h hD hs hM := by
    obtain ⟨k, s₁, h₁, h₂⟩ := bind_ok.1 h
    obtain ⟨⟨⟩, s₂, h₃, h₄⟩ := bind_ok.1 h₂
    cases h₃
    obtain ⟨units, x, rfl, hx, rfl, hunits, hgrows⟩ :=
      unitFor_gathers htells (hM D l (by simp)) hwalk hs h₁
    have hpass : passOn x.plan.captures { s with units, plan := s.plan.noteNested k } =
        .ok ((), t) := by
      simpa only [get_bind, hx] using h₄
    obtain ⟨hn, rfl⟩ := passOn_iff.1 hpass
    have hxmem := Array.mem_of_getElem? hx
    have hexact := (hunits.exact x hxmem).captures
    have hscope : ({ s with units, plan := s.plan.noteNested k } : Survey).scope = D := hD
    -- What the unit captures is handed on by the lambda that mentions it.
    rw [hscope, hexact] at hn ⊢
    obtain ⟨hcaptures, hboxed⟩ := Plan.foldl_hand (D := D) x.lambda.freeVars (s.plan.noteNested k)
    exact {
      params := rfl
      blocks := rfl
      isNested := rfl
      units := hgrows
      surveyed := hunits
      captures := by simpa [Mention.free, Plan.noteNested] using hcaptures
      boxed := fun id => by simpa [Mention.boxed, Plan.noteNested] using hboxed id
      planned := fun D' k' hk' => by
        cases List.mem_singleton.1 hk'
        exact ⟨x, hxmem, rfl⟩
      closed := fun h => hands_iff.1 (hn h) }
  passes hC s hD hs hM hfree := by
    obtain ⟨k, s₁, h₁⟩ := unitFor_passes hC (hM D l (by simp)) hwalk hs
    obtain ⟨units, x, rfl, hx, rfl, hunits, -⟩ :=
      unitFor_gathers htells (hM D l (by simp)) hwalk hs h₁
    have hexact := (hunits.exact x (Array.mem_of_getElem? hx)).captures
    have hn : s.isNested = false → ∀ v ∈ x.plan.captures, v.id ∈ s.scope := fun hn => by
      rw [hexact, hD]
      exact hands_iff.2 (hfree hn)
    have hpass : ∃ t, passOn x.plan.captures { s with units, plan := s.plan.noteNested k } =
        .ok ((), t) := ⟨_, passOn_iff.2 ⟨hn, rfl⟩⟩
    obtain ⟨t, ht⟩ := hpass
    refine ⟨t, bind_ok.2 ⟨k, _, h₁, bind_ok.2 ⟨(), _, rfl, ?_⟩⟩⟩
    simpa only [get_bind, hx] using ht

end Nested

end Survey

/-! ## Trees -/

section Trees

variable {root : Lambda}

mutual

/-- **Walking a tree gathers what is free in it**, and goes through if nothing in the tree
is ruled out and what is free can come from further out. -/
theorem survey_gathers (ht : root.Tells) : ∀ (e : Expr) (D : List Nat),
    Gathers root e.Plannable D (e.mentions D) (survey e)
  | .constant _ _, _ => .noteConstant
  | .var _, _ => .mention
  | .default _, _ | .rethrow _, _ => .pure
  | .unary _ _ e _, D | .member e _, D | .newArrayBounds _ e, D => survey_gathers ht e D
  | .binary _ _ l r _, D => (survey_gathers ht l D).bind (survey_gathers ht r D)
  | .call _ o _ args, D => (surveyOption_gathers ht o D).bind (surveyAll_gathers ht args D)
  | .new _ _ args, D | .newArray _ args, D => surveyAll_gathers ht args D
  | .index _ o _ args, D | .invoke _ o args, D =>
    (survey_gathers ht o D).bind (surveyAll_gathers ht args D)
  | .memberInit _ args bs, D =>
    (surveyAll_gathers ht args D).bind (surveyBindings_gathers ht bs D)
  | .conditional _ t a b, D =>
    (survey_gathers ht t D).bind ((survey_gathers ht a D).bind (survey_gathers ht b D))
  | .block _ vars es, D => .ofBlock (.inBlock (surveyAll_gathers ht es (Var.ids vars ++ D)))
  | .loop b _ _, D =>
    (Gathers.noteLabelOption.bind (Gathers.noteLabelOption.bind (survey_gathers ht b D))).imp
      fun h => ⟨trivial, trivial, h⟩
  | .protect b hs c, D =>
    (survey_gathers ht b D).bind
      ((surveyHandlers_gathers ht hs D).bind (surveyCleanup_gathers ht c D))
  | .label _ e, D =>
    (Gathers.notePlace.bind (surveyOption_gathers ht e D)).imp fun h => ⟨trivial, h⟩
  | .goto _ _ _ e, D =>
    (Gathers.noteLabel.bind (surveyOption_gathers ht e D)).imp fun h => ⟨trivial, h⟩
  | .switch t v cs e _, D =>
    (Gathers.guarded ((survey_gathers ht v D).bind
      ((surveyCases_gathers ht cs D).bind (surveyOption_gathers ht e D)))).imp fun ⟨hd, h⟩ =>
        ⟨by cases e <;> simp_all, h⟩
  | .lambda l, D => surveyLambda_gathers ht l D

theorem surveyOption_gathers (ht : root.Tells) : ∀ (o : Option Expr) (D : List Nat),
    Gathers root (Expr.PlannableOption o) D (Expr.mentionsOption D o) (surveyOption o)
  | none, _ => .pure
  | some e, D => survey_gathers ht e D

theorem surveyAll_gathers (ht : root.Tells) : ∀ (es : List Expr) (D : List Nat),
    Gathers root (Expr.PlannableAll es) D (Expr.mentionsAll D es) (surveyAll es)
  | [], _ => .pure
  | e :: es, D => (survey_gathers ht e D).bind (surveyAll_gathers ht es D)

theorem surveyBindings_gathers (ht : root.Tells) : ∀ (bs : List Binding) (D : List Nat),
    Gathers root (Expr.PlannableBindings bs) D (Expr.mentionsBindings D bs) (surveyBindings bs)
  | [], _ => .pure
  | .mk _ e :: bs, D => (survey_gathers ht e D).bind (surveyBindings_gathers ht bs D)

theorem surveyHandlers_gathers (ht : root.Tells) : ∀ (hs : List CatchClause) (D : List Nat),
    Gathers root (Expr.PlannableHandlers hs) D (Expr.mentionsHandlers D hs) (surveyHandlers hs)
  | [], _ => .pure
  | .mk _ v _ body :: hs, D =>
    (Gathers.guarded ((Gathers.inBlock (survey_gathers ht body (Var.ids v.toList ++ D))).bind
      (surveyHandlers_gathers ht hs D))).imp fun ⟨hf, h⟩ => ⟨by simp [hf], h⟩

theorem surveyCleanup_gathers (ht : root.Tells) : ∀ (c : Cleanup) (D : List Nat),
    Gathers root (Expr.PlannableCleanup c) D (Expr.mentionsCleanup D c) (surveyCleanup c)
  | .none, _ => .pure
  | .finally e, D | .fault e, D => survey_gathers ht e D

theorem surveyCases_gathers (ht : root.Tells) : ∀ (cs : List SwitchCase) (D : List Nat),
    Gathers root (Expr.PlannableCases cs) D (Expr.mentionsCases D cs) (surveyCases cs)
  | [], _ => .pure
  | .mk tests body :: cs, D =>
    (surveyAll_gathers ht tests D).bind
      ((survey_gathers ht body D).bind (surveyCases_gathers ht cs D))

theorem surveyLambda_gathers (ht : root.Tells) : ∀ (l : Lambda) (D : List Nat),
    Gathers root l.Plannable D [.lambda D l] (surveyLambda l)
  | .mk id name params ret body, _ =>
    Gathers.mentionLambda (l := .mk id name params ret body) ht
      (survey_gathers ht body (Var.ids params))

end

end Trees

/-- What is free in a lambda is all that is free at its mentions. -/
theorem Lambda.freeVars_eq_nil {l : Lambda} :
    l.freeVars = [] ↔ l.mentions.flatMap Mention.free = [] := by
  rw [l.freeVars_eq]
  cases l.mentions.flatMap Mention.free with
  | nil => simp
  | cons v vs => simp [List.eraseDupsBy_cons]

/-- **Planning computes captures exactly.** The plan of a lambda, and those of the lambdas
nested in it, of which each has one, capture just the free variables in the order of first
mention, and box just the own variables that are free in a lambda mentioned in their
scope. Where nothing in the tree is ruled out, planning succeeds just if no variable is
free. -/
theorem planLambda_exact (l : Lambda) (htells : l.Tells) :
    (∀ plan units, planLambda l = .ok (plan, units) →
      UnitPlan.Exact ⟨l, plan⟩ ∧ (∀ u ∈ units, l.Nests u.lambda ∧ u.Exact) ∧
        ∀ k, l.Nests k → k = l ∨ ∃ u ∈ units, u.lambda = k) ∧
      (l.Plannable → ((∃ r, planLambda l = .ok r) ↔ l.freeVars = [])) := by
  have hwalk := survey_gathers htells l.body (Var.ids l.params)
  have hM : ∀ D k, .lambda D k ∈ l.mentions → l.Nests k := fun D k hk => .single ⟨D, hk⟩
  have hempty : Surveyed l #[] := ⟨by simp, by simp, by simp⟩
  -- A plan that is made is what the walk over the body gathered.
  have hok : ∀ r, planLambda l = .ok r → ∃ s, survey l.body { params := l.params } = .ok ((), s) ∧
      r = (s.plan, s.units) ∧ Gathered l l.mentions { params := l.params } s := by
    intro r h
    unfold planLambda at h
    cases hs : survey l.body { params := l.params } with
    | error e => simp [hs, bind, Except.bind] at h
    | ok p =>
      obtain ⟨⟨⟩, s⟩ := p
      simp only [hs, bind, Except.bind, pure, Except.pure, Except.ok.injEq] at h
      exact ⟨s, rfl, h.symm, hwalk.gathers _ s hs (by simp [scope]) hempty hM⟩
  refine ⟨fun plan units h => ?_, fun hp => ⟨?_, fun h => ?_⟩⟩
  · obtain ⟨s, -, hr, hst⟩ := hok _ h
    obtain ⟨rfl, rfl⟩ := Prod.mk.inj hr
    refine ⟨⟨?_, fun id => ?_⟩, fun u hu => ⟨hst.surveyed.nests u hu, hst.surveyed.exact u hu⟩,
      fun k hk => ?_⟩
    · rw [l.freeVars_eq, eraseDupsBy_eq_foldl]
      exact hst.captures
    · rw [hst.boxed id]
      simp [Lambda.boxedVars]
    -- By induction on the way to the nested lambda: every step is a mention, which was planned.
    · induction hk with
      | refl => exact .inl rfl
      | tail _ hlast ih =>
        rcases ih with rfl | ⟨u, hu, rfl⟩
        · obtain ⟨D, hmention⟩ := hlast
          exact .inr (hst.planned D _ hmention)
        · exact .inr (hst.surveyed.closed u hu _ hlast)
  · rintro ⟨r, h⟩
    obtain ⟨s, -, -, hst⟩ := hok r h
    exact Lambda.freeVars_eq_nil.2 (hst.closed rfl)
  · have hplan : l.body.Plannable := by
      obtain ⟨id, name, params, ret, body⟩ := l
      exact hp
    obtain ⟨s, hs⟩ := hwalk.passes hplan { params := l.params } (by simp [scope]) hempty hM
      fun _ => Lambda.freeVars_eq_nil.1 h
    exact ⟨(s.plan, s.units), by simp [planLambda, hs, bind, Except.bind, pure, Except.pure]⟩

/-- A lambda that reads a variable of the unit around it and one from further out. -/
def Lambda.inmost : Lambda :=
  .mk 2 none [] .i32 (.binary .i32 .add (.var ⟨2, "z", .i32⟩) (.var ⟨0, "x", .i32⟩) none)

/-- A lambda around it, which mentions it after a variable of the unit further out. -/
def Lambda.between : Lambda :=
  .mk 1 none [⟨2, "z", .i32⟩] .i32
    (.binary .i32 .add (.var ⟨1, "y", .i32⟩) (.invoke .i32 (.lambda .inmost) []) none)

/-- A lambda around both, which mentions the one twice. -/
def Lambda.outmost : Lambda :=
  .mk 0 none [⟨0, "x", .i32⟩] Lambda.between.signature.ty
    (.block Lambda.between.signature.ty [⟨1, "y", .i32⟩] [.lambda .between, .lambda .between])

theorem Lambda.outmost_nests {k : Lambda} (h : Lambda.outmost.Nests k) :
    k = .outmost ∨ k = .between ∨ k = .inmost := by
  induction h with
  | refl => exact .inl rfl
  | tail _ hlast ih =>
    obtain ⟨D, hmem⟩ := hlast
    rcases ih with rfl | rfl | rfl
    · simp [outmost, Lambda.mentions, Lambda.body, Expr.mentions, Expr.mentionsAll] at hmem
      exact .inr (.inl hmem.2)
    · simp [between, Lambda.mentions, Lambda.body, Expr.mentions, Expr.mentionsAll] at hmem
      exact .inr (.inr hmem.2)
    · simp [inmost, Lambda.mentions, Lambda.body, Expr.mentions] at hmem

theorem Lambda.outmost_tells : Lambda.outmost.Tells := by
  intro k k' hk hk' hid
  rcases outmost_nests hk with rfl | rfl | rfl <;> rcases outmost_nests hk' with rfl | rfl | rfl <;>
    first | rfl | simp [outmost, between, inmost, Lambda.id] at hid

theorem planLambda_exact_outmost :
    Lambda.outmost.Tells ∧ Lambda.outmost.freeVars = [] ∧
      Lambda.between.freeVars = [⟨1, "y", .i32⟩, ⟨0, "x", .i32⟩] ∧
        ∀ id, id ∈ Lambda.between.boxedVars ↔ id ∈ [2] := by
  let x : Var := ⟨0, "x", .i32⟩
  let y : Var := ⟨1, "y", .i32⟩
  let z : Var := ⟨2, "z", .i32⟩
  have hplan : planLambda .outmost = .ok ({ nested := [⟨1, 2⟩], boxed := [0, 1] },
      #[⟨.inmost, { captures := [z, x] }⟩,
        ⟨.between, { captures := [y, x], nested := [⟨0, 1⟩], boxed := [2] }⟩]) := by
    cbv
  have hplannable : Lambda.outmost.Plannable := by
    simp [Lambda.outmost, Lambda.between, Lambda.inmost, Lambda.Plannable, Expr.Plannable,
      Expr.PlannableAll]
  obtain ⟨hexact, hsucceeds⟩ := planLambda_exact .outmost Lambda.outmost_tells
  have hbetween := ((hexact _ _ hplan).2.1 ⟨.between, _⟩ (Array.mem_of_getElem? (i := 1) rfl)).2
  exact ⟨Lambda.outmost_tells, (hsucceeds hplannable).1 ⟨_, hplan⟩, hbetween.captures.symm,
    fun id => (hbetween.boxed id).symm⟩

end TreeCode

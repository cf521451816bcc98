import TreeCode.Proofs.Compile.Survey

/-!
# The walk that plans a unit

The walk over a lambda meets its mentions one after the other, and plans a nested
lambda when it is mentioned for the first time. `Tour` is that sequence of meetings;
what a plan holds is read off it without another walk over the kinds of nodes.

Main definitions:

* `Tour` — a walk that meets some mentions.

Main results:

* `survey_tour` — surveying a tree meets its mentions in order.
* `Tour.captures_eq` — a lambda that is nested in no other captures nothing.
-/

namespace TreeCode

open Survey

/-- The variables that unit `k` captures are handed to it. -/
def Survey.Hands (k : Nat) (s s' : Survey) : Prop :=
  ∃ u, s.units[k]? = some u ∧
    passOn u.plan.captures { s with plan := s.plan.noteNested k } = .ok ((), s')

/-- A walk from one state of the survey to another that meets mentions in order. -/
inductive Tour : List Mention → Survey → Survey → Prop
  | nil {s : Survey} : Tour [] s s
  | append {M N : List Mention} {s t u : Survey} (h₁ : Tour M s t) (h₂ : Tour N t u) :
      Tour (M ++ N) s u
  | constant {v : Value} {s : Survey} :
      Tour [.constant v] s { s with plan := s.plan.noteConstant v }
  | label {l : Label} {s : Survey} : Tour [.label l] s { s with plan := s.plan.noteLabel l.id }
  | place {l : Label} {s : Survey} : Tour [.place l] s { s with plan := s.plan.noteLabel l.id }
  | var {D : List Nat} {v : Var} {s t : Survey} (h : mention v s = .ok ((), t)) :
      Tour [.var D v] s t
  | block {vars : List Var} {M : List Mention} {s t : Survey}
      (h : Tour M { s with blocks := vars :: s.blocks } t) :
      Tour (.block vars :: M) s { t with blocks := t.blocks.tail }
  /-- The variable of a handler, which no block declares. -/
  | handler {vars : List Var} {M : List Mention} {s t : Survey}
      (h : Tour M { s with blocks := vars :: s.blocks } t) :
      Tour M s { t with blocks := t.blocks.tail }
  /-- A lambda that was mentioned before. -/
  | again {D : List Nat} {l : Lambda} {k : Nat} {s t : Survey}
      (hk : s.units.findIdx? (·.lambda.id == l.id) = some k) (h : s.Hands k t) :
      Tour [.lambda D l] s t
  /-- A lambda that is mentioned for the first time. -/
  | first {D : List Nat} {l : Lambda} {s inner t : Survey}
      (hk : s.units.findIdx? (·.lambda.id == l.id) = none)
      (hinner : Tour l.mentions { units := s.units, params := l.params, isNested := true } inner)
      (h : Survey.Hands inner.units.size { s with units := inner.units.push ⟨l, inner.plan⟩ } t) :
      Tour [.lambda D l] s t

/-- A step of the survey is a walk that meets some mentions. -/
def Tours (M : List Mention) (x : SurveyM Unit) : Prop := ∀ s t, x s = .ok ((), t) → Tour M s t

namespace Tours

variable {M N : List Mention} {x y : SurveyM Unit}

theorem pure : Tours [] (Pure.pure ()) := by
  intro s t h
  cases h
  exact .nil

theorem bind (hx : Tours M x) (hy : Tours N y) : Tours (M ++ N) (x >>= fun _ => y) := by
  intro s u h
  obtain ⟨⟨⟩, t, h₁, h₂⟩ := bind_ok.1 h
  exact .append (hx s t h₁) (hy t u h₂)

/-- A tree is walked only if a condition does not rule it out. -/
theorem guarded {c : Prop} [Decidable c] {u : Unsupported} (hx : Tours M x) : Tours M (do
    if c then unsupported u
    x) := by
  intro s t h
  by_cases hc : c
  · simp only [hc, if_true] at h
    cases h
  · simp only [hc, if_false] at h
    exact hx s t h

theorem inBlock_ok {vars : List Var} {s s' : Survey} (h : inBlock vars x s = .ok ((), s')) :
    ∃ t, x { s with blocks := vars :: s.blocks } = .ok ((), t) ∧
      s' = { t with blocks := t.blocks.tail } := by
  obtain ⟨⟨⟩, t, h₁, h₂⟩ := bind_ok.1 h
  cases h₁
  obtain ⟨⟨⟩, t, h₁, h₂⟩ := bind_ok.1 h₂
  cases h₂
  exact ⟨t, h₁, rfl⟩

theorem noteConstant {v : Value} : Tours [.constant v] (modifyPlan (·.noteConstant v)) := by
  intro s t h
  cases h
  exact .constant

theorem noteLabel {l : Label} : Tours [.label l] (noteLabel l) := by
  intro s t h
  cases h
  exact .label

theorem notePlace {l : Label} : Tours [.place l] (Survey.noteLabel l) := by
  intro s t h
  cases h
  exact .place

theorem noteLabelOption {o : Option Label} :
    Tours (o.toList.map .place) (noteLabelOption o) := by
  cases o with
  | none => exact pure
  | some l => exact notePlace

theorem mentionLambda {D : List Nat} {l : Lambda} {walk : SurveyM Unit}
    (hwalk : Tours l.mentions walk) : Tours [.lambda D l] (mentionLambda l walk) := by
  intro s t h
  obtain ⟨k, s₁, h₁, h⟩ := bind_ok.1 h
  obtain ⟨⟨⟩, s₂, h₂, h⟩ := bind_ok.1 h
  cases h₂
  obtain ⟨s₃, _, hget, h⟩ := bind_ok.1 h
  cases hget
  -- The unit is in the table by now.
  have hands : ∀ u, s₁.units[k]? = some u → s₁.Hands k t := fun u hu => by
    refine ⟨u, hu, ?_⟩
    simpa [hu] using h
  unfold unitFor at h₁
  cases hk : s.units.findIdx? (·.lambda.id == l.id) with
  | some k' =>
    simp only [hk, Except.ok.injEq, Prod.mk.injEq] at h₁
    obtain ⟨rfl, rfl⟩ := h₁
    obtain ⟨hlt, -⟩ := Array.findIdx?_eq_some_iff_getElem.1 hk
    exact .again hk (hands _ (Array.getElem?_eq_getElem hlt))
  | none =>
    simp only [hk] at h₁
    cases hinner : walk { units := s.units, params := l.params, isNested := true } with
    | error f => simp [hinner, Bind.bind, Except.bind] at h₁
    | ok r =>
      obtain ⟨⟨⟩, inner⟩ := r
      simp only [hinner, Bind.bind, Except.bind, Except.ok.injEq, Prod.mk.injEq] at h₁
      obtain ⟨rfl, rfl⟩ := h₁
      exact .first hk (hwalk _ _ hinner) (hands _ Array.getElem?_push_size)

end Tours

mutual

/-- **Surveying a tree meets its mentions in order.** -/
theorem survey_tour : ∀ (e : Expr) (D : List Nat), Tours (e.mentions D) (survey e)
  | .constant _ _, _ => .noteConstant
  | .var _, _ => fun _ _ h => .var h
  | .default _, _ | .rethrow _, _ => .pure
  | .unary _ _ e _, D | .member e _, D | .newArrayBounds _ e, D => survey_tour e D
  | .binary _ _ l r _, D => (survey_tour l D).bind (survey_tour r D)
  | .call _ o _ args, D => (surveyOption_tour o D).bind (surveyAll_tour args D)
  | .new _ _ args, D | .newArray _ args, D => surveyAll_tour args D
  | .index _ o _ args, D | .invoke _ o args, D => (survey_tour o D).bind (surveyAll_tour args D)
  | .memberInit _ args bs, D => (surveyAll_tour args D).bind (surveyBindings_tour bs D)
  | .conditional _ t a b, D => (survey_tour t D).bind ((survey_tour a D).bind (survey_tour b D))
  | .block _ vars es, D => fun s s' h => by
    obtain ⟨t, ht, rfl⟩ := Tours.inBlock_ok h
    exact .block (surveyAll_tour es _ _ t ht)
  | .loop b _ _, D => Tours.noteLabelOption.bind (Tours.noteLabelOption.bind (survey_tour b D))
  | .protect b hs c, D =>
    (survey_tour b D).bind ((surveyHandlers_tour hs D).bind (surveyCleanup_tour c D))
  | .label _ e, D => Tours.notePlace.bind (surveyOption_tour e D)
  | .goto _ _ _ e, D => Tours.noteLabel.bind (surveyOption_tour e D)
  | .switch _ v cs e _, D =>
    .guarded ((survey_tour v D).bind ((surveyCases_tour cs D).bind (surveyOption_tour e D)))
  | .lambda l, D => surveyLambda_tour l D

theorem surveyOption_tour : ∀ (o : Option Expr) (D : List Nat),
    Tours (Expr.mentionsOption D o) (surveyOption o)
  | none, _ => .pure
  | some e, D => survey_tour e D

theorem surveyAll_tour : ∀ (es : List Expr) (D : List Nat),
    Tours (Expr.mentionsAll D es) (surveyAll es)
  | [], _ => .pure
  | e :: es, D => (survey_tour e D).bind (surveyAll_tour es D)

theorem surveyBindings_tour : ∀ (bs : List Binding) (D : List Nat),
    Tours (Expr.mentionsBindings D bs) (surveyBindings bs)
  | [], _ => .pure
  | .mk _ e :: bs, D => (survey_tour e D).bind (surveyBindings_tour bs D)

theorem surveyHandlers_tour : ∀ (hs : List CatchClause) (D : List Nat),
    Tours (Expr.mentionsHandlers D hs) (surveyHandlers hs)
  | [], _ => .pure
  | .mk _ v _ body :: hs, D => by
    refine .guarded (Tours.bind (fun s s' h => ?_) (surveyHandlers_tour hs D))
    obtain ⟨t, ht, rfl⟩ := Tours.inBlock_ok h
    exact .handler (survey_tour body _ _ t ht)

theorem surveyCleanup_tour : ∀ (c : Cleanup) (D : List Nat),
    Tours (Expr.mentionsCleanup D c) (surveyCleanup c)
  | .none, _ => .pure
  | .finally e, D | .fault e, D => survey_tour e D

theorem surveyCases_tour : ∀ (cs : List SwitchCase) (D : List Nat),
    Tours (Expr.mentionsCases D cs) (surveyCases cs)
  | [], _ => .pure
  | .mk tests body :: cs, D =>
    (surveyAll_tour tests D).bind ((survey_tour body D).bind (surveyCases_tour cs D))

theorem surveyLambda_tour : ∀ (l : Lambda) (D : List Nat), Tours [.lambda D l] (surveyLambda l)
  | .mk id name params ret body, _ =>
    Tours.mentionLambda (l := .mk id name params ret body) (survey_tour body (Var.ids params))

end

/-- The plan of a lambda that is nested in no other comes from a walk over its
mentions. -/
theorem planLambda_tour {l : Lambda} {plan : Plan} {units : Array UnitPlan}
    (h : planLambda l = .ok (plan, units)) :
    ∃ s, Tour l.mentions { params := l.params } s ∧ s.plan = plan ∧ s.units = units := by
  unfold planLambda at h
  cases hs : survey l.body { params := l.params } with
  | error e => simp [hs, bind, Except.bind] at h
  | ok p =>
    obtain ⟨⟨⟩, s⟩ := p
    simp only [hs, bind, Except.bind, pure, Except.pure, Except.ok.injEq, Prod.mk.injEq] at h
    exact ⟨s, survey_tour l.body _ _ s hs, h⟩

/-! ## What steps leave alone -/

/-- Only the captured and the boxed variables of the plan differ. -/
structure Survey.Aside (s t : Survey) : Prop where
  units : t.units = s.units
  params : t.params = s.params
  blocks : t.blocks = s.blocks
  isNested : t.isNested = s.isNested
  constants : t.plan.constants = s.plan.constants
  nested : t.plan.nested = s.plan.nested
  /-- A lambda that is nested in no other captures nothing more. -/
  captures : s.isNested = false → t.plan.captures = s.plan.captures

theorem Survey.Aside.refl (s : Survey) : s.Aside s := ⟨rfl, rfl, rfl, rfl, rfl, rfl, fun _ => rfl⟩

theorem Survey.Aside.trans {s t u : Survey} (h₁ : s.Aside t) (h₂ : t.Aside u) : s.Aside u :=
  ⟨h₂.units.trans h₁.units, h₂.params.trans h₁.params, h₂.blocks.trans h₁.blocks,
    h₂.isNested.trans h₁.isNested, h₂.constants.trans h₁.constants, h₂.nested.trans h₁.nested,
    fun h => (h₂.captures (h₁.isNested.trans h)).trans (h₁.captures h)⟩

theorem Survey.capture_aside {v : Var} {s t : Survey} (h : capture v s = .ok ((), t)) :
    s.Aside t := by
  obtain ⟨_, _, hget, h⟩ := bind_ok.1 h
  cases hget
  cases hn : s.isNested with
  | false =>
    rw [hn] at h
    cases h
  | true =>
    rw [hn] at h
    cases h
    have hplan : ∀ p : Plan, (p.noteCapture v).constants = p.constants ∧
        (p.noteCapture v).nested = p.nested := fun p => by
      unfold Plan.noteCapture
      split <;> exact ⟨rfl, rfl⟩
    exact ⟨rfl, rfl, rfl, rfl, (hplan s.plan).1, (hplan s.plan).2, by simp [hn]⟩

theorem Survey.mention_aside {v : Var} {s t : Survey} (h : mention v s = .ok ((), t)) :
    s.Aside t := by
  obtain ⟨_, _, hget, h⟩ := bind_ok.1 h
  cases hget
  split at h
  · cases h
    exact .refl s
  · exact capture_aside h

theorem Survey.passOn_aside {vs : List Var} {s t : Survey} (h : passOn vs s = .ok ((), t)) :
    s.Aside t := by
  induction vs generalizing s with
  | nil =>
    cases h
    exact .refl _
  | cons v vs ih =>
    obtain ⟨_, _, hget, h⟩ := bind_ok.1 h
    cases hget
    split at h
    · obtain ⟨⟨⟩, _, hmod, h₂⟩ := bind_ok.1 h
      cases hmod
      refine .trans ?_ (ih h₂)
      have hplan : ∀ p : Plan, (p.noteBoxed v.id).constants = p.constants ∧
          (p.noteBoxed v.id).nested = p.nested ∧ (p.noteBoxed v.id).captures = p.captures :=
        fun p => by
          unfold Plan.noteBoxed
          split <;> exact ⟨rfl, rfl, rfl⟩
      exact ⟨rfl, rfl, rfl, rfl, (hplan _).1, (hplan _).2.1, fun _ => (hplan _).2.2⟩
    · obtain ⟨⟨⟩, _, hcap, h₂⟩ := bind_ok.1 h
      exact (capture_aside hcap).trans (ih h₂)

/-- A unit is handed the variables it captures, and counted. -/
theorem Survey.Hands.aside {k : Nat} {s t : Survey} (h : s.Hands k t) :
    Aside { s with plan := s.plan.noteNested k } t := by
  obtain ⟨u, -, h⟩ := h
  exact passOn_aside h

namespace Tour

variable {M : List Mention} {s t : Survey}

theorem isNested_eq (h : Tour M s t) : t.isNested = s.isNested := by
  induction h with
  | nil => rfl
  | append _ _ ih₁ ih₂ => exact ih₂.trans ih₁
  | constant => rfl
  | label => rfl
  | place => rfl
  | var h => exact (mention_aside h).isNested
  | block _ ih => exact ih
  | handler _ ih => exact ih
  | again _ h => exact h.aside.isNested
  | first _ _ h _ => exact h.aside.isNested

/-- **A lambda that is nested in no other captures nothing.** -/
theorem captures_eq (h : Tour M s t) (hs : s.isNested = false) :
    t.plan.captures = s.plan.captures := by
  induction h with
  | nil => rfl
  | append h₁ _ ih₁ ih₂ => exact (ih₂ (h₁.isNested_eq.trans hs)).trans (ih₁ hs)
  | @constant v s =>
    simp only [Plan.noteConstant]
    split <;> rfl
  | @label l s =>
    simp only [Plan.noteLabel]
    split <;> rfl
  | @place l s =>
    simp only [Plan.noteLabel]
    split <;> rfl
  | var h => exact (mention_aside h).captures hs
  | block _ ih => exact ih hs
  | handler _ ih => exact ih hs
  | again _ h => exact h.aside.captures hs
  | first _ _ h _ => exact h.aside.captures hs

end Tour

theorem planLambda_captures {l : Lambda} {plan : Plan} {units : Array UnitPlan}
    (h : planLambda l = .ok (plan, units)) : plan.captures = [] := by
  obtain ⟨s, hwalk, rfl, -⟩ := planLambda_tour h
  exact hwalk.captures_eq rfl

end TreeCode

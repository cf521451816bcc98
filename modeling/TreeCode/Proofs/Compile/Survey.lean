import TreeCode.Proofs.Expr.Mention
import TreeCode.Proofs.Lower.Draft

/-!
# What the planning walk notes

The walk over a lambda meets every mention in it, and leaves in the plan what the
mention asks for: a place in the record for a constant with identity, a capture
for a variable of another unit, an entry for a label, a unit for a nested lambda
together with cells or captures for the variables that this one captures.

Main definitions:

* `Mention.Noted` — the plan has what a mention asks for.
* `Survey.Extends` — what walking a tree does to the state of the walk.
* `Survey.Ordered` — units mention only units before them, and their plans have
  what their lambdas mention.

Main results:

* `survey_notes` — **a walk that succeeds notes every mention of the tree**.
* `planLambda_ordered` — the plans of a lambda and of all those nested in it have
  what their lambdas mention.
-/

namespace TreeCode

/-! ## Plans -/

/-- A plan has everything that another one has. -/
structure Plan.Le (p q : Plan) : Prop where
  constants : ∀ v, (p.constantPlace? v).isSome → (q.constantPlace? v).isSome
  captures : ∀ id, (p.capturePlace? id).isSome → (q.capturePlace? id).isSome
  nested : ∀ unit, (p.nestedPlace? unit).isSome → (q.nestedPlace? unit).isSome
  labels : p.labels ⊆ q.labels
  boxed : p.boxed ⊆ q.boxed

namespace Plan

variable {p q r : Plan} {v : Value} {x : Var} {id unit : Nat}

theorem Le.refl (p : Plan) : p.Le p :=
  ⟨fun _ h => h, fun _ h => h, fun _ h => h, fun _ h => h, fun _ h => h⟩

theorem Le.trans (h₁ : p.Le q) (h₂ : q.Le r) : p.Le r where
  constants v h := h₂.constants v (h₁.constants v h)
  captures id h := h₂.captures id (h₁.captures id h)
  nested unit h := h₂.nested unit (h₁.nested unit h)
  labels := List.Subset.trans h₁.labels h₂.labels
  boxed := List.Subset.trans h₁.boxed h₂.boxed

theorem constantPlace?_isSome :
    (p.constantPlace? v).isSome ↔
      ∃ i, v.identity? = some i ∧ ∃ c ∈ p.constants, c.value.identity? = some i := by
  unfold constantPlace?
  cases v.identity? with
  | none => simp
  | some i => simp

theorem capturePlace?_isSome : (p.capturePlace? id).isSome ↔ ∃ w ∈ p.captures, w.id = id := by
  simp [capturePlace?]

theorem nestedPlace?_isSome : (p.nestedPlace? unit).isSome ↔ ∃ n ∈ p.nested, n.unit = unit := by
  simp [nestedPlace?]

theorem mem_countConstant {i j : Identity} {cs : List ConstantUse} (hv : v.identity? = some i) :
    (∃ c ∈ countConstant v i cs, c.value.identity? = some j) ↔
      j = i ∨ ∃ c ∈ cs, c.value.identity? = some j := by
  induction cs with
  | nil => simp [countConstant, hv, eq_comm]
  | cons c cs ih =>
    unfold countConstant
    split
    · simp only [List.mem_cons, exists_eq_or_imp]
      grind
    · simp only [List.mem_cons, exists_eq_or_imp, ih]
      grind

theorem mem_countNested {ns : List NestedUse} {k : Nat} :
    (∃ n ∈ countNested unit ns, n.unit = k) ↔ k = unit ∨ ∃ n ∈ ns, n.unit = k := by
  induction ns with
  | nil => simp [countNested, eq_comm]
  | cons n ns ih =>
    unfold countNested
    split
    · simp only [List.mem_cons, exists_eq_or_imp]
      grind
    · simp only [List.mem_cons, exists_eq_or_imp, ih]
      grind

theorem le_noteConstant : p.Le (p.noteConstant v) := by
  unfold noteConstant
  split
  · rename_i i hv
    refine { Le.refl p with constants := fun w hw => ?_ }
    simp only [constantPlace?_isSome, mem_countConstant hv] at hw ⊢
    obtain ⟨j, hj, hc⟩ := hw
    exact ⟨j, hj, .inr hc⟩
  · exact .refl p

theorem noteConstant_place (h : v.identity?.isSome) :
    ((p.noteConstant v).constantPlace? v).isSome := by
  obtain ⟨i, hi⟩ := Option.isSome_iff_exists.1 h
  simp only [noteConstant, hi, constantPlace?_isSome, mem_countConstant hi]
  exact ⟨i, rfl, .inl rfl⟩

theorem le_noteNested : p.Le (p.noteNested unit) := by
  refine { Le.refl p with nested := fun k hk => ?_ }
  simp only [nestedPlace?_isSome, noteNested, mem_countNested] at hk ⊢
  exact .inr hk

theorem noteNested_place : ((p.noteNested unit).nestedPlace? unit).isSome := by
  simp [nestedPlace?_isSome, noteNested, mem_countNested]

theorem le_noteCapture : p.Le (p.noteCapture x) := by
  unfold noteCapture
  split
  · exact .refl p
  · refine { Le.refl p with captures := fun id h => ?_ }
    simp only [capturePlace?_isSome, List.mem_append] at h ⊢
    obtain ⟨w, hw, heq⟩ := h
    exact ⟨w, .inl hw, heq⟩

theorem noteCapture_place : ((p.noteCapture x).capturePlace? x.id).isSome := by
  unfold noteCapture
  split
  · rename_i h
    simpa [capturePlace?_isSome] using h
  · simp [capturePlace?_isSome]

theorem le_noteBoxed : p.Le (p.noteBoxed id) := by
  unfold noteBoxed
  split
  · exact .refl p
  · exact { Le.refl p with boxed := fun _ h => List.mem_cons_of_mem _ h }

theorem mem_noteBoxed : id ∈ (p.noteBoxed id).boxed := by
  unfold noteBoxed
  split
  · rename_i h
    simpa using h
  · simp

theorem le_noteLabel : p.Le (p.noteLabel id) := by
  unfold noteLabel
  split
  · exact .refl p
  · exact { Le.refl p with labels := fun _ h => List.mem_cons_of_mem _ h }

theorem mem_noteLabel : id ∈ (p.noteLabel id).labels := by
  unfold noteLabel
  split
  · rename_i h
    simpa using h
  · simp

/-- A variable in scope `D` can be handed to a nested unit: one of the lambda's
own is in a cell, another one is captured. -/
def HandsOn (p : Plan) (D : List Nat) (id : Nat) : Prop :=
  if id ∈ D then id ∈ p.boxed else (p.capturePlace? id).isSome

theorem HandsOn.mono {D : List Nat} (h : p.HandsOn D id) (hle : p.Le q) : q.HandsOn D id := by
  unfold HandsOn at *
  split
  · rename_i hid
    exact hle.boxed (by simpa [hid] using h)
  · rename_i hid
    exact hle.captures id (by simpa [hid] using h)

end Plan

/-! ## Mentions -/

theorem Grows.findIdx? {α : Type} {a b : Array α} {f : α → Bool} {i : Nat} (h : Grows a b)
    (hi : a.findIdx? f = some i) : b.findIdx? f = some i := by
  obtain ⟨xs⟩ := a
  obtain ⟨ys⟩ := b
  have hpre : xs <+: ys := by
    rw [List.prefix_iff_getElem?]
    intro j hj
    simpa using h j xs[j] (by simp [hj])
  rw [List.findIdx?_toArray] at hi ⊢
  exact hpre.findIdx?_eq_some hi

/-- The plan has what a mention asks for. -/
def Mention.Noted (units : Array UnitPlan) (p : Plan) : Mention → Prop
  | .constant v => v.identity?.isSome → (p.constantPlace? v).isSome
  | .var D v => v.id ∉ D → (p.capturePlace? v.id).isSome
  | .label l | .place l => l.id ∈ p.labels
  | .lambda D l => ∃ k u, units.findIdx? (·.lambda.id == l.id) = some k ∧ units[k]? = some u ∧
      (p.nestedPlace? k).isSome ∧ ∀ v ∈ u.plan.captures, p.HandsOn D v.id
  | .block _ => True

theorem Mention.Noted.mono {units units' : Array UnitPlan} {p q : Plan} {m : Mention}
    (h : m.Noted units p) (hu : Grows units units') (hle : p.Le q) : m.Noted units' q := by
  cases m with
  | constant v => exact fun hv => hle.constants v (h hv)
  | var D v => exact fun hv => hle.captures v.id (h hv)
  | label l => exact hle.labels h
  | place l => exact hle.labels h
  | lambda D l =>
    obtain ⟨k, u, hfind, hget, hplace, hcap⟩ := h
    exact ⟨k, u, hu.findIdx? hfind, hu k u hget, hle.nested k hplace,
      fun v hv => (hcap v hv).mono hle⟩
  | block vars => trivial

namespace Survey

/-- The ids of the variables in scope. -/
def scope (s : Survey) : List Nat := s.blocks.flatMap Var.ids ++ Var.ids s.params

theorem isOwn_iff {s : Survey} {id : Nat} : s.isOwn id = true ↔ id ∈ s.scope := by
  simp [isOwn, scope, Var.ids, or_comm]

/-- Units mention only units before them, and have what their lambdas mention. -/
structure Ordered (s : Survey) : Prop where
  noted : ∀ u ∈ s.units, ∀ m ∈ u.lambda.mentions, m.Noted s.units u.plan
  before : ∀ (k : Nat) (u : UnitPlan), s.units[k]? = some u → ∀ n ∈ u.plan.nested, n.unit < k
  nested : ∀ n ∈ s.plan.nested, n.unit < s.units.size

/-- What walking a tree with the mentions `M` and the lambdas `L` does. -/
structure Extends (M : List Mention) (L : List Lambda) (s s' : Survey) : Prop where
  blocks : s'.blocks = s.blocks
  params : s'.params = s.params
  plan : s.plan.Le s'.plan
  units : Grows s.units s'.units
  added : ∀ u ∈ s'.units, u ∈ s.units ∨ u.lambda ∈ L
  noted : ∀ m ∈ M, m.Noted s'.units s'.plan
  ordered : s.Ordered → s'.Ordered

theorem Extends.scope_eq {M : List Mention} {L : List Lambda} {s s' : Survey}
    (h : Extends M L s s') : s'.scope = s.scope := by
  rw [scope, scope, h.blocks, h.params]

theorem Extends.trans {M M' : List Mention} {L L' : List Lambda} {s t u : Survey}
    (h₁ : Extends M L s t) (h₂ : Extends M' L' t u) : Extends (M ++ M') (L ++ L') s u where
  blocks := h₂.blocks.trans h₁.blocks
  params := h₂.params.trans h₁.params
  plan := h₁.plan.trans h₂.plan
  units := h₁.units.trans h₂.units
  added x hx := by
    rcases h₂.added x hx with hx | hx
    · exact (h₁.added x hx).imp_right fun h => List.mem_append_left _ h
    · exact .inr (List.mem_append_right _ hx)
  noted m hm := by
    rcases List.mem_append.1 hm with hm | hm
    · exact (h₁.noted m hm).mono h₂.units h₂.plan
    · exact h₂.noted m hm
  ordered h := h₂.ordered (h₁.ordered h)

/-- A change of the plan that leaves the nested units alone. -/
theorem Extends.of_plan {M : List Mention} {s : Survey} {p : Plan} (hle : s.plan.Le p)
    (hnested : p.nested = s.plan.nested) (hnoted : ∀ m ∈ M, m.Noted s.units p) :
    Extends M [] s { s with plan := p } where
  blocks := rfl
  params := rfl
  plan := hle
  units := .refl _
  added _ h := .inl h
  noted := hnoted
  ordered h := ⟨h.noted, h.before, fun n hn => h.nested n (hnested ▸ hn)⟩

/-- A step of the walk in scope `D`, which meets the mentions `M` and the
lambdas `L`. -/
def Notes (D : List Nat) (M : List Mention) (L : List Lambda) (x : SurveyM Unit) : Prop :=
  ∀ s s', x s = .ok ((), s') → s.scope = D → Extends M L s s'

theorem bind_ok {α β : Type} {x : SurveyM α} {f : α → SurveyM β} {b : β} {s s' : Survey} :
    (x >>= f) s = .ok (b, s') ↔ ∃ a t, x s = .ok (a, t) ∧ f a t = .ok (b, s') := by
  show (x s >>= fun p => f p.1 p.2) = _ ↔ _
  cases x s with
  | error e => simp [bind, Except.bind]
  | ok p =>
    obtain ⟨a, t⟩ := p
    constructor
    · intro h
      exact ⟨a, t, rfl, h⟩
    · rintro ⟨_, _, h₁, h₂⟩
      cases h₁
      exact h₂

variable {D : List Nat} {M M' : List Mention} {L L' : List Lambda} {x y : SurveyM Unit}

theorem Notes.pure : Notes D [] [] (Pure.pure ()) := by
  intro s s' h _
  cases h
  exact .of_plan (.refl _) rfl (by simp)

theorem Notes.bind (hx : Notes D M L x) (hy : Notes D M' L' y) :
    Notes D (M ++ M') (L ++ L') (x >>= fun _ => y) := by
  intro s s' h hD
  obtain ⟨⟨⟩, t, h₁, h₂⟩ := bind_ok.1 h
  have hst := hx s t h₁ hD
  exact hst.trans (hy t s' h₂ (hst.scope_eq.trans hD))

/-- A tree is walked only if a condition does not rule it out. -/
theorem Notes.unless {c : Prop} [Decidable c] {u : Unsupported} (hx : Notes D M L x) :
    Notes D M L (do
      if c then unsupported u
      x) := by
  intro s s' h hD
  by_cases hc : c
  · simp only [hc, if_true] at h
    cases h
  · simp only [hc, if_false] at h
    exact hx s s' h hD

theorem Notes.inBlock {vars : List Var} (hx : Notes (Var.ids vars ++ D) M L x) :
    Notes D M L (inBlock vars x) := by
  intro s s' h hD
  obtain ⟨⟨⟩, t, h₁, h₂⟩ := bind_ok.1 h
  cases h₁
  obtain ⟨⟨⟩, t, h₁, h₂⟩ := bind_ok.1 h₂
  cases h₂
  have hst := hx _ t h₁ (by simp [scope, ← hD])
  refine { hst with blocks := ?_, ordered := fun ho => ?_ }
  · simp [hst.blocks]
  · have := hst.ordered ⟨ho.noted, ho.before, ho.nested⟩
    exact ⟨this.noted, this.before, this.nested⟩

theorem noteConstant_notes {v : Value} :
    Notes D [.constant v] [] (modifyPlan (·.noteConstant v)) := by
  intro s s' h _
  cases h
  refine .of_plan Plan.le_noteConstant ?_ ?_
  · unfold Plan.noteConstant
    split <;> rfl
  · simpa [Mention.Noted] using fun h => Plan.noteConstant_place h

theorem noteLabel_extends (s : Survey) (l : Label) :
    Extends [.label l, .place l] [] s { s with plan := s.plan.noteLabel l.id } := by
  refine .of_plan Plan.le_noteLabel ?_ ?_
  · unfold Plan.noteLabel
    split <;> rfl
  · simpa [Mention.Noted] using Plan.mem_noteLabel

theorem Extends.mono {s s' : Survey} (h : Extends M L s s') (hM : M' ⊆ M) (hL : L ⊆ L') :
    Extends M' L' s s' :=
  { h with
    added := fun u hu => (h.added u hu).imp_right fun hl => hL hl
    noted := fun m hm => h.noted m (hM hm) }

theorem noteLabel_notes {l : Label} : Notes D [.label l] [] (noteLabel l) := by
  intro s s' h _
  cases h
  exact (noteLabel_extends s l).mono (by simp) (by simp)

theorem notePlace_notes {l : Label} : Notes D [.place l] [] (noteLabel l) := by
  intro s s' h _
  cases h
  exact (noteLabel_extends s l).mono (by simp) (by simp)

theorem noteLabelOption_notes {o : Option Label} :
    Notes D (o.toList.map .place) [] (noteLabelOption o) := by
  cases o with
  | none => exact .pure
  | some l => exact notePlace_notes

/-- A variable that is not the lambda's own is captured. -/
theorem capture_extends {v : Var} {s s' : Survey} (h : capture v s = .ok ((), s')) :
    Extends [.var [] v] [] s s' := by
  obtain ⟨_, _, hget, h⟩ := bind_ok.1 h
  cases hget
  split at h
  · cases h
    refine .of_plan Plan.le_noteCapture ?_ ?_
    · show (s.plan.noteCapture v).nested = s.plan.nested
      unfold Plan.noteCapture
      split <;> rfl
    · simpa [Mention.Noted] using Plan.noteCapture_place
  · cases h

theorem mention_notes {v : Var} : Notes D [.var D v] [] (mention v) := by
  intro s s' h hD
  obtain ⟨_, _, hget, h⟩ := bind_ok.1 h
  cases hget
  split at h
  · rename_i hown
    cases h
    rw [isOwn_iff, hD] at hown
    exact .of_plan (.refl _) rfl (by simpa [Mention.Noted] using fun hv => absurd hown hv)
  · have hst := capture_extends h
    have hv := hst.noted _ (List.mem_singleton_self _)
    exact { hst with noted := by simpa [Mention.Noted] using fun _ => hv (by simp) }

/-- The variables that a nested unit captures can be handed to it. -/
theorem passOn_extends {vs : List Var} {s s' : Survey} (h : passOn vs s = .ok ((), s')) :
    Extends [] [] s s' ∧ s'.units = s.units ∧ ∀ v ∈ vs, s'.plan.HandsOn s.scope v.id := by
  induction vs generalizing s with
  | nil =>
    cases h
    exact ⟨.of_plan (.refl _) rfl (by simp), rfl, by simp⟩
  | cons v vs ih =>
    obtain ⟨_, _, hget, h⟩ := bind_ok.1 h
    cases hget
    -- One variable is put into a cell or captured, whichever its owner is.
    have hone : ∃ t, Extends [] [] s t ∧ t.units = s.units ∧ t.plan.HandsOn s.scope v.id ∧
        passOn vs t = .ok ((), s') := by
      split at h
      · rename_i hown
        obtain ⟨⟨⟩, t, h₁, h₂⟩ := bind_ok.1 h
        cases h₁
        refine ⟨_, .of_plan Plan.le_noteBoxed ?_ (by simp), rfl, ?_, h₂⟩
        · unfold Plan.noteBoxed
          split <;> rfl
        · rw [isOwn_iff] at hown
          simpa [Plan.HandsOn, hown] using Plan.mem_noteBoxed
      · rename_i hown
        obtain ⟨⟨⟩, t, h₁, h₂⟩ := bind_ok.1 h
        have hst := capture_extends h₁
        have hv := hst.noted _ (List.mem_singleton_self _)
        have hunits : t.units = s.units := by
          obtain ⟨_, _, hget, h₁⟩ := bind_ok.1 h₁
          cases hget
          split at h₁ <;> cases h₁
          rfl
        refine ⟨t, hst.mono (by simp) (by simp), hunits, ?_, h₂⟩
        rw [isOwn_iff] at hown
        simpa [Plan.HandsOn, hown] using hv (by simp)
    obtain ⟨t, hst, hunits, hv, hrest⟩ := hone
    obtain ⟨hst', hunits', hvs⟩ := ih hrest
    refine ⟨hst.trans hst', hunits'.trans hunits, fun w hw => ?_⟩
    rcases List.mem_cons.1 hw with rfl | hw
    · exact hv.mono hst'.plan
    · exact hst.scope_eq ▸ hvs w hw

/-! ## Nested lambdas -/

/-- The unit of a lambda that is not nested in itself. It is planned at the first
mention, after the lambdas nested in it. -/
theorem unitFor_extends {l : Lambda} {walk : SurveyM Unit} {s s' : Survey} {k : Nat}
    (hwalk : Notes (Var.ids l.params) l.mentions l.body.lambdas walk)
    (hl : ∀ l' ∈ l.body.lambdas, l'.id ≠ l.id) (h : unitFor l walk s = .ok (k, s')) :
    Extends [] (l :: l.body.lambdas) s s' ∧ s'.plan = s.plan ∧
      s'.units.findIdx? (·.lambda.id == l.id) = some k ∧ k < s'.units.size := by
  unfold unitFor at h
  split at h
  -- The lambda has a unit, to which nothing is added.
  · rename_i unit hfind
    cases h
    have hlt := (Array.findIdx?_eq_some_iff_getElem.1 hfind).1
    exact ⟨Extends.mono (.of_plan (M := []) (.refl _) rfl (by simp)) (by simp) (by simp), rfl,
      hfind, hlt⟩
  · rename_i hnone
    obtain ⟨t, hst, h⟩ : ∃ t, Extends l.mentions l.body.lambdas
        { units := s.units, params := l.params, isNested := true } t ∧
          (t.units.size, { s with units := t.units.push ⟨l, t.plan⟩ }) = (k, s') := by
      cases hw : walk { units := s.units, params := l.params, isNested := true } with
      | error e => simp [hw, bind, Except.bind] at h
      | ok p => exact ⟨p.2, hwalk _ _ hw (by simp [scope]), by simpa [hw, bind, Except.bind] using h⟩
    cases h
    -- Its unit is pushed behind those of the lambdas nested in it.
    have hgrow : Grows t.units (t.units.push ⟨l, t.plan⟩) := .push _ _
    have hnew : ∀ u ∈ t.units, u.lambda.id ≠ l.id := by
      intro u hu
      rcases hst.added u hu with hu | hu
      · have := Array.findIdx?_eq_none_iff.1 hnone u hu
        simpa using this
      · exact hl _ hu
    refine ⟨⟨rfl, rfl, .refl _, hst.units.trans hgrow, ?_, by simp, ?_⟩, rfl, ?_, ?_⟩
    · intro u hu
      rcases Array.mem_push.1 hu with hu | rfl
      · exact (hst.added u hu).imp_right fun h => List.mem_cons_of_mem _ h
      · exact .inr (List.mem_cons_self ..)
    · intro ho
      have hot := hst.ordered ⟨ho.noted, ho.before, by simp⟩
      refine ⟨fun u hu m hm => ?_, fun j u hj => ?_, fun n hn => ?_⟩
      · rcases Array.mem_push.1 hu with hu | rfl
        · exact (hot.noted u hu m hm).mono hgrow (.refl _)
        -- The mentions of the lambda itself were noted by the walk over its body.
        · exact (hst.noted m hm).mono hgrow (.refl _)
      · by_cases hjt : j = t.units.size
        · subst hjt
          simp only [Array.getElem?_push_size, Option.some.injEq] at hj
          subst hj
          exact hot.nested
        · exact hot.before j u (by grind)
      · have := ho.nested n hn
        have := hst.units.size_le
        simp only [Array.size_push] at *
        omega
    · rw [Array.findIdx?_eq_some_iff_getElem]
      refine ⟨by simp, by simp, fun j hj => ?_⟩
      have := hnew t.units[j] (by simp)
      simpa [Array.getElem_push_lt hj] using this
    · simp

theorem mentionLambda_notes {l : Lambda} {walk : SurveyM Unit}
    (hwalk : Notes (Var.ids l.params) l.mentions l.body.lambdas walk)
    (hl : ∀ l' ∈ l.body.lambdas, l'.id ≠ l.id) :
    Notes D [.lambda D l] (l :: l.body.lambdas) (mentionLambda l walk) := by
  intro s s' h hD
  obtain ⟨k, t, h₁, h₂⟩ := bind_ok.1 h
  obtain ⟨⟨⟩, t', h₃, h₄⟩ := bind_ok.1 h₂
  cases h₃
  obtain ⟨_, _, hget, h₅⟩ := bind_ok.1 h₄
  cases hget
  obtain ⟨hst, hplan, hfind, hlt⟩ := unitFor_extends hwalk hl h₁
  have hu : t.units[k]? = some t.units[k] := by simp [hlt]
  simp only [hu] at h₅
  obtain ⟨hst', hunits, hcap⟩ := passOn_extends h₅
  have hnote : Extends [] [] t { t with plan := t.plan.noteNested k } := by
    refine ⟨rfl, rfl, Plan.le_noteNested, .refl _, fun _ h => .inl h, by simp, fun ho => ?_⟩
    refine ⟨ho.noted, ho.before, fun n hn => ?_⟩
    rcases Plan.mem_countNested.1 ⟨n, hn, rfl⟩ with hk | ⟨n', hn', heq⟩
    · exact hk ▸ hlt
    · exact heq ▸ ho.nested n' hn'
  have hall := (hst.trans hnote).trans hst'
  have hscope : t.scope = D := hst.scope_eq.trans hD
  have hall' : Extends [] (l :: l.body.lambdas) s s' := hall.mono (by simp) (by simp)
  refine { hall' with noted := ?_ }
  simp only [List.mem_singleton, forall_eq]
  rw [← hscope]
  refine ⟨k, t.units[k], ?_, ?_, hst'.plan.nested k Plan.noteNested_place, hcap⟩
  · rw [hunits]
    exact hfind
  · rw [hunits]
    exact hu

end Survey

/-! ## Trees -/

open Survey

/-- A lambda is not nested in itself. Ids stand for nodes, and trees are finite. -/
def Lambda.Founded (l : Lambda) : Prop := ∀ l' ∈ l.body.lambdas, l'.id ≠ l.id

mutual

/-- **A walk over a tree notes everything that the tree mentions.** -/
theorem survey_notes : ∀ (e : Expr) (D : List Nat), (∀ l ∈ e.lambdas, l.Founded) →
    Notes D (e.mentions D) e.lambdas (survey e)
  | .constant _ _, _, _ => noteConstant_notes
  | .var _, _, _ => mention_notes
  | .default _, _, _ | .rethrow _, _, _ => .pure
  | .unary _ _ e _, D, h | .member e _, D, h | .newArrayBounds _ e, D, h => survey_notes e D h
  | .binary _ _ l r _, D, h => by
    simp only [Expr.lambdas, List.forall_mem_append] at h
    exact (survey_notes l D h.1).bind (survey_notes r D h.2)
  | .call _ o _ args, D, h => by
    simp only [Expr.lambdas, List.forall_mem_append] at h
    exact (surveyOption_notes o D h.1).bind (surveyAll_notes args D h.2)
  | .new _ _ args, D, h | .newArray _ args, D, h => surveyAll_notes args D h
  | .index _ o _ args, D, h | .invoke _ o args, D, h => by
    simp only [Expr.lambdas, List.forall_mem_append] at h
    exact (survey_notes o D h.1).bind (surveyAll_notes args D h.2)
  | .memberInit _ args bs, D, h => by
    simp only [Expr.lambdas, List.forall_mem_append] at h
    exact (surveyAll_notes args D h.1).bind (surveyBindings_notes bs D h.2)
  | .conditional _ t a b, D, h => by
    simp only [Expr.lambdas, List.forall_mem_append] at h
    exact (survey_notes t D h.1).bind ((survey_notes a D h.2.1).bind (survey_notes b D h.2.2))
  | .block _ vars es, D, h => by
    have hes := Notes.inBlock (surveyAll_notes es (Var.ids vars ++ D) h)
    intro s s' hx hD
    have hst := hes s s' hx hD
    -- The walk over the body noted its mentions; the variables of the block are none.
    exact { hst with noted := by simpa [Expr.mentions, Mention.Noted] using hst.noted }
  | .loop b _ _, D, h =>
    noteLabelOption_notes.bind (noteLabelOption_notes.bind (survey_notes b D h))
  | .protect b hs c, D, h => by
    simp only [Expr.lambdas, List.forall_mem_append] at h
    exact (survey_notes b D h.1).bind
      ((surveyHandlers_notes hs D h.2.1).bind (surveyCleanup_notes c D h.2.2))
  | .label _ e, D, h => notePlace_notes.bind (surveyOption_notes e D h)
  | .goto _ _ _ e, D, h => noteLabel_notes.bind (surveyOption_notes e D h)
  | .switch _ v cs e _, D, h => by
    simp only [Expr.lambdas, List.forall_mem_append] at h
    exact .unless ((survey_notes v D h.1).bind
      ((surveyCases_notes cs D h.2.1).bind (surveyOption_notes e D h.2.2)))
  | .lambda l, D, h => surveyLambda_notes l D h

theorem surveyOption_notes : ∀ (o : Option Expr) (D : List Nat),
    (∀ l ∈ Expr.lambdasOption o, l.Founded) →
      Notes D (Expr.mentionsOption D o) (Expr.lambdasOption o) (surveyOption o)
  | none, _, _ => .pure
  | some e, D, h => survey_notes e D h

theorem surveyAll_notes : ∀ (es : List Expr) (D : List Nat),
    (∀ l ∈ Expr.lambdasAll es, l.Founded) →
      Notes D (Expr.mentionsAll D es) (Expr.lambdasAll es) (surveyAll es)
  | [], _, _ => .pure
  | e :: es, D, h => by
    simp only [Expr.lambdasAll, List.forall_mem_append] at h
    exact (survey_notes e D h.1).bind (surveyAll_notes es D h.2)

theorem surveyBindings_notes : ∀ (bs : List Binding) (D : List Nat),
    (∀ l ∈ Expr.lambdasBindings bs, l.Founded) →
      Notes D (Expr.mentionsBindings D bs) (Expr.lambdasBindings bs) (surveyBindings bs)
  | [], _, _ => .pure
  | .mk _ e :: bs, D, h => by
    simp only [Expr.lambdasBindings, List.forall_mem_append] at h
    exact (survey_notes e D h.1).bind (surveyBindings_notes bs D h.2)

theorem surveyHandlers_notes : ∀ (hs : List CatchClause) (D : List Nat),
    (∀ l ∈ Expr.lambdasHandlers hs, l.Founded) →
      Notes D (Expr.mentionsHandlers D hs) (Expr.lambdasHandlers hs) (surveyHandlers hs)
  | [], _, _ => .pure
  | .mk _ v _ body :: hs, D, h => by
    simp only [Expr.lambdasHandlers, List.forall_mem_append] at h
    exact .unless ((Notes.inBlock (survey_notes body _ h.1)).bind (surveyHandlers_notes hs D h.2))

theorem surveyCleanup_notes : ∀ (c : Cleanup) (D : List Nat),
    (∀ l ∈ Expr.lambdasCleanup c, l.Founded) →
      Notes D (Expr.mentionsCleanup D c) (Expr.lambdasCleanup c) (surveyCleanup c)
  | .none, _, _ => .pure
  | .finally e, D, h | .fault e, D, h => survey_notes e D h

theorem surveyCases_notes : ∀ (cs : List SwitchCase) (D : List Nat),
    (∀ l ∈ Expr.lambdasCases cs, l.Founded) →
      Notes D (Expr.mentionsCases D cs) (Expr.lambdasCases cs) (surveyCases cs)
  | [], _, _ => .pure
  | .mk tests body :: cs, D, h => by
    simp only [Expr.lambdasCases, List.forall_mem_append] at h
    exact (surveyAll_notes tests D h.1).bind
      ((survey_notes body D h.2.1).bind (surveyCases_notes cs D h.2.2))

theorem surveyLambda_notes : ∀ (l : Lambda) (D : List Nat), (∀ k ∈ l.withNested, k.Founded) →
    Notes D [.lambda D l] l.withNested (surveyLambda l)
  | .mk id name params ret body, D, h => by
    simp only [Lambda.withNested, List.forall_mem_cons] at h
    exact mentionLambda_notes (l := .mk id name params ret body)
      (survey_notes body (Var.ids params) h.2) h.1

end

/-- The plan of a lambda has what the lambda mentions, and so have the plans of
the lambdas nested in it, which stand in the table before those they are nested
in. -/
theorem planLambda_ordered {l : Lambda} {plan : Plan} {units : Array UnitPlan}
    (hl : ∀ k ∈ l.body.lambdas, k.Founded) (h : planLambda l = .ok (plan, units)) :
    (∀ m ∈ l.mentions, m.Noted units plan) ∧ (∀ n ∈ plan.nested, n.unit < units.size) ∧
      (∀ u ∈ units, u.lambda ∈ l.body.lambdas ∧ ∀ m ∈ u.lambda.mentions, m.Noted units u.plan) ∧
      ∀ (k : Nat) (u : UnitPlan), units[k]? = some u → ∀ n ∈ u.plan.nested, n.unit < k := by
  unfold planLambda at h
  cases hs : survey l.body { params := l.params } with
  | error e => simp [hs, bind, Except.bind] at h
  | ok p =>
    obtain ⟨⟨⟩, s⟩ := p
    simp only [hs, bind, Except.bind, pure, Except.pure, Except.ok.injEq, Prod.mk.injEq] at h
    obtain ⟨rfl, rfl⟩ := h
    have hst := survey_notes l.body (Var.ids l.params) hl _ s hs (by simp [scope])
    have ho := hst.ordered ⟨by simp, by simp, by simp⟩
    refine ⟨hst.noted, ho.nested, fun u hu => ⟨?_, ho.noted u hu⟩, ho.before⟩
    simpa using hst.added u hu

end TreeCode

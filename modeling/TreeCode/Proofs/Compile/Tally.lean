import TreeCode.Proofs.Compile.Tour

/-!
# What a plan records

A plan lists the identity constants and the lambdas that a lambda mentions in its own
body, each once and in the order of first mention. Constants are told apart by
identity, lambdas by id.

Main definitions:

* `Lambda.constants`, `Lambda.mentioned` — the constants and lambdas of a body, without
  repetition.
* `Lambda.Nests`, `Lambda.Tells` — lambdas nested in one, and that ids tell them apart.
* `UnitPlan.Tallies` — a plan records what its lambda mentions.

Main results:

* `Tour.constants_eq`, `Tour.nested_matches` — a walk records what it meets.
* `planLambda_tallies` — **every plan records exactly what its lambda mentions**.
-/

namespace TreeCode

open Survey

/-! ## Lists without repetition -/

/-- Adds what is new to a list. -/
def addNew {α : Type} (same : α → α → Bool) (xs : List α) (a : α) : List α :=
  if xs.any (same a) then xs else xs ++ [a]

/-- Leaving out repetitions is adding what is new, from left to right. -/
theorem eraseDupsBy_eq_foldl {α : Type} (same : α → α → Bool) (xs : List α) :
    xs.eraseDupsBy same = xs.foldl (addNew same) [] := by
  have hloop : ∀ acc, List.eraseDupsBy.loop same xs acc = xs.foldl (addNew same) acc.reverse := by
    induction xs with
    | nil => simp [List.eraseDupsBy.loop]
    | cons a xs ih =>
      intro acc
      simp only [List.eraseDupsBy.loop, List.foldl_cons]
      cases hany : acc.any (same a) with
      | true => simp [ih, addNew, hany]
      | false => simp [ih, addNew, hany]
  exact hloop []

theorem mem_addNew {α : Type} {same : α → α → Bool} {xs : List α} {a b : α}
    (h : b ∈ addNew same xs a) : b ∈ xs ∨ b = a := by
  unfold addNew at h
  split at h
  · exact .inl h
  · simpa using h

theorem mem_of_mem_eraseDupsBy {α : Type} {same : α → α → Bool} {xs : List α} {b : α}
    (h : b ∈ xs.eraseDupsBy same) : b ∈ xs := by
  rw [eraseDupsBy_eq_foldl] at h
  have hfold : ∀ acc, b ∈ xs.foldl (addNew same) acc → b ∈ acc ∨ b ∈ xs := by
    clear h
    induction xs with
    | nil => exact fun acc h => .inl h
    | cons a xs ih =>
      intro acc h
      rcases ih _ h with h | h
      · exact (mem_addNew h).imp_right fun h => by simp [h]
      · exact .inr (List.mem_cons_of_mem _ h)
  exact (hfold [] h).resolve_left (by simp)

theorem subset_foldl_addNew {α : Type} {same : α → α → Bool} (xs acc : List α) :
    acc ⊆ xs.foldl (addNew same) acc := by
  induction xs generalizing acc with
  | nil => exact List.Subset.refl _
  | cons a xs ih =>
    have hsub : acc ⊆ addNew same acc a := by
      unfold addNew
      split
      · exact List.Subset.refl _
      · exact List.subset_append_left _ _
    exact List.Subset.trans hsub (ih _)

/-- What is left out is the same as something that is kept. -/
theorem exists_same_of_mem {α : Type} {same : α → α → Bool} (hrefl : ∀ a, same a a = true)
    {xs : List α} {a : α} (h : a ∈ xs) : ∃ b ∈ xs.eraseDupsBy same, same a b = true := by
  rw [eraseDupsBy_eq_foldl]
  generalize ([] : List α) = acc
  induction xs generalizing acc with
  | nil => cases h
  | cons x xs ih =>
    rcases List.mem_cons.1 h with rfl | h
    · have hx : ∃ b ∈ addNew same acc a, same a b = true := by
        unfold addNew
        split
        · rename_i hany
          simpa using hany
        · exact ⟨a, by simp, hrefl a⟩
      obtain ⟨b, hb, hab⟩ := hx
      exact ⟨b, subset_foldl_addNew xs _ hb, hab⟩
    · exact ih h _

/-! ## Mentions of constants and lambdas -/

/-- The identity constant that is mentioned. -/
def Mention.constant? : Mention → Option Value
  | .constant v => if v.identity?.isSome then some v else none
  | _ => none

/-- The lambda that is mentioned. -/
def Mention.lambda? : Mention → Option Lambda
  | .lambda _ l => some l
  | _ => none

def Value.sameIdentity (v w : Value) : Bool := w.identity? == v.identity?

def Lambda.sameId (k l : Lambda) : Bool := l.id == k.id

/-- The identity constants in the body of a lambda, each once, in the order of first
mention. -/
def Lambda.constants (l : Lambda) : List Value :=
  (l.mentions.filterMap Mention.constant?).eraseDupsBy Value.sameIdentity

/-- The lambdas in the body of a lambda, each once, in the order of first mention. -/
def Lambda.mentioned (l : Lambda) : List Lambda :=
  (l.mentions.filterMap Mention.lambda?).eraseDupsBy Lambda.sameId

/-- A lambda mentions another in its own body. -/
def Lambda.Mentions (l k : Lambda) : Prop := ∃ D, Mention.lambda D k ∈ l.mentions

/-- A lambda is another one, or nested in it. -/
def Lambda.Nests : Lambda → Lambda → Prop := Relation.ReflTransGen Lambda.Mentions

/-- Ids tell a lambda and those nested in it apart. -/
def Lambda.Tells (l : Lambda) : Prop := ∀ k k', l.Nests k → l.Nests k' → k.id = k'.id → k = k'

mutual

/-- A lambda that is mentioned in a tree is smaller than the tree. -/
theorem Expr.sizeOf_mentioned : ∀ (e : Expr) (D : List Nat) {D' : List Nat} {l : Lambda},
    Mention.lambda D' l ∈ e.mentions D → sizeOf l < sizeOf e
  | .constant _ _, _, _, _, h | .var _, _, _, _, h | .default _, _, _, _, h
  | .rethrow _, _, _, _, h => by simp [Expr.mentions] at h
  | .unary _ _ e _, D, _, _, h | .member e _, D, _, _, h | .newArrayBounds _ e, D, _, _, h => by
    have := e.sizeOf_mentioned D (by simpa [Expr.mentions] using h)
    simp only [Expr.unary.sizeOf_spec, Expr.member.sizeOf_spec, Expr.newArrayBounds.sizeOf_spec]
    omega
  | .binary _ _ l r _, D, _, _, h => by
    simp only [Expr.mentions, List.mem_append] at h
    simp only [Expr.binary.sizeOf_spec]
    -- A lambda is smaller than the operand that mentions it, and that is smaller than the node.
    rcases h with h | h
    · have := l.sizeOf_mentioned D h
      omega
    · have := r.sizeOf_mentioned D h
      omega
  | .call _ o _ args, D, _, _, h => by
    simp only [Expr.mentions, List.mem_append] at h
    simp only [Expr.call.sizeOf_spec]
    rcases h with h | h
    · have := Expr.sizeOf_mentionedOption o D h
      omega
    · have := Expr.sizeOf_mentionedAll args D h
      omega
  | .new _ _ args, D, _, _, h | .newArray _ args, D, _, _, h => by
    have := Expr.sizeOf_mentionedAll args D (by simpa [Expr.mentions] using h)
    simp only [Expr.new.sizeOf_spec, Expr.newArray.sizeOf_spec]
    omega
  | .index _ o _ args, D, _, _, h | .invoke _ o args, D, _, _, h => by
    simp only [Expr.mentions, List.mem_append] at h
    simp only [Expr.index.sizeOf_spec, Expr.invoke.sizeOf_spec]
    rcases h with h | h
    · have := o.sizeOf_mentioned D h
      omega
    · have := Expr.sizeOf_mentionedAll args D h
      omega
  | .memberInit _ args bs, D, _, _, h => by
    simp only [Expr.mentions, List.mem_append] at h
    simp only [Expr.memberInit.sizeOf_spec]
    rcases h with h | h
    · have := Expr.sizeOf_mentionedAll args D h
      omega
    · have := Expr.sizeOf_mentionedBindings bs D h
      omega
  | .conditional _ t a b, D, _, _, h => by
    simp only [Expr.mentions, List.mem_append] at h
    simp only [Expr.conditional.sizeOf_spec]
    rcases h with h | h | h
    · have := t.sizeOf_mentioned D h
      omega
    · have := a.sizeOf_mentioned D h
      omega
    · have := b.sizeOf_mentioned D h
      omega
  | .block _ vars es, D, _, _, h => by
    have := Expr.sizeOf_mentionedAll es (Var.ids vars ++ D) (by simpa [Expr.mentions] using h)
    simp only [Expr.block.sizeOf_spec]
    omega
  | .loop b _ _, D, _, _, h => by
    have := b.sizeOf_mentioned D (by simpa [Expr.mentions] using h)
    simp only [Expr.loop.sizeOf_spec]
    omega
  | .protect b hs c, D, _, _, h => by
    simp only [Expr.mentions, List.mem_append] at h
    simp only [Expr.protect.sizeOf_spec]
    rcases h with h | h | h
    · have := b.sizeOf_mentioned D h
      omega
    · have := Expr.sizeOf_mentionedHandlers hs D h
      omega
    · have := Expr.sizeOf_mentionedCleanup c D h
      omega
  | .label _ e, D, _, _, h | .goto _ _ _ e, D, _, _, h => by
    have := Expr.sizeOf_mentionedOption e D (by simpa [Expr.mentions] using h)
    simp only [Expr.label.sizeOf_spec, Expr.goto.sizeOf_spec]
    omega
  | .switch _ v cs e _, D, _, _, h => by
    simp only [Expr.mentions, List.mem_append] at h
    simp only [Expr.switch.sizeOf_spec]
    rcases h with h | h | h
    · have := v.sizeOf_mentioned D h
      omega
    · have := Expr.sizeOf_mentionedCases cs D h
      omega
    · have := Expr.sizeOf_mentionedOption e D h
      omega
  | .lambda l, _, _, _, h => by
    simp only [Expr.mentions, List.mem_singleton, Mention.lambda.injEq] at h
    rw [h.2]
    simp
termination_by structural e => e


theorem Expr.sizeOf_mentionedOption : ∀ (o : Option Expr) (D : List Nat) {D' : List Nat}
    {l : Lambda}, Mention.lambda D' l ∈ Expr.mentionsOption D o → sizeOf l < sizeOf o
  | none, _, _, _, h => by simp [Expr.mentionsOption] at h
  | some e, D, _, _, h => by
    have := e.sizeOf_mentioned D h
    simp only [Option.some.sizeOf_spec]
    omega
termination_by structural o => o


theorem Expr.sizeOf_mentionedAll : ∀ (es : List Expr) (D : List Nat) {D' : List Nat}
    {l : Lambda}, Mention.lambda D' l ∈ Expr.mentionsAll D es → sizeOf l < sizeOf es
  | [], _, _, _, h => by simp [Expr.mentionsAll] at h
  | e :: es, D, _, _, h => by
    simp only [Expr.mentionsAll, List.mem_append] at h
    simp only [List.cons.sizeOf_spec]
    rcases h with h | h
    · have := e.sizeOf_mentioned D h
      omega
    · have := Expr.sizeOf_mentionedAll es D h
      omega
termination_by structural es => es


theorem Expr.sizeOf_mentionedBindings : ∀ (bs : List Binding) (D : List Nat) {D' : List Nat}
    {l : Lambda}, Mention.lambda D' l ∈ Expr.mentionsBindings D bs → sizeOf l < sizeOf bs
  | [], _, _, _, h => by simp [Expr.mentionsBindings] at h
  | .mk _ e :: bs, D, _, _, h => by
    simp only [Expr.mentionsBindings, List.mem_append] at h
    simp only [List.cons.sizeOf_spec, Binding.mk.sizeOf_spec]
    rcases h with h | h
    · have := e.sizeOf_mentioned D h
      omega
    · have := Expr.sizeOf_mentionedBindings bs D h
      omega
termination_by structural bs => bs


theorem Expr.sizeOf_mentionedHandlers : ∀ (hs : List CatchClause) (D : List Nat) {D' : List Nat}
    {l : Lambda}, Mention.lambda D' l ∈ Expr.mentionsHandlers D hs → sizeOf l < sizeOf hs
  | [], _, _, _, h => by simp [Expr.mentionsHandlers] at h
  | .mk _ v _ body :: hs, D, _, _, h => by
    simp only [Expr.mentionsHandlers, List.mem_append] at h
    simp only [List.cons.sizeOf_spec, CatchClause.mk.sizeOf_spec]
    rcases h with h | h
    · have := body.sizeOf_mentioned (Var.ids v.toList ++ D) h
      omega
    · have := Expr.sizeOf_mentionedHandlers hs D h
      omega
termination_by structural hs => hs


theorem Expr.sizeOf_mentionedCleanup : ∀ (c : Cleanup) (D : List Nat) {D' : List Nat}
    {l : Lambda}, Mention.lambda D' l ∈ Expr.mentionsCleanup D c → sizeOf l < sizeOf c
  | .none, _, _, _, h => by simp [Expr.mentionsCleanup] at h
  | .finally e, D, _, _, h | .fault e, D, _, _, h => by
    have := e.sizeOf_mentioned D h
    simp only [Cleanup.finally.sizeOf_spec, Cleanup.fault.sizeOf_spec]
    omega
termination_by structural c => c


theorem Expr.sizeOf_mentionedCases : ∀ (cs : List SwitchCase) (D : List Nat) {D' : List Nat}
    {l : Lambda}, Mention.lambda D' l ∈ Expr.mentionsCases D cs → sizeOf l < sizeOf cs
  | [], _, _, _, h => by simp [Expr.mentionsCases] at h
  | .mk tests body :: cs, D, _, _, h => by
    simp only [Expr.mentionsCases, List.mem_append] at h
    simp only [List.cons.sizeOf_spec, SwitchCase.mk.sizeOf_spec]
    rcases h with h | h | h
    · have := Expr.sizeOf_mentionedAll tests D h
      omega
    · have := body.sizeOf_mentioned D h
      omega
    · have := Expr.sizeOf_mentionedCases cs D h
      omega
termination_by structural cs => cs

end

theorem Lambda.Mentions.sizeOf_lt {l k : Lambda} (h : l.Mentions k) : sizeOf k < sizeOf l := by
  obtain ⟨D, hk⟩ := h
  obtain ⟨id, name, params, ret, body⟩ := l
  have := body.sizeOf_mentioned _ hk
  simp only [Lambda.mk.sizeOf_spec]
  omega

theorem Lambda.Nests.sizeOf_le {l k : Lambda} (h : l.Nests k) : sizeOf k ≤ sizeOf l := by
  induction h with
  | refl => exact Nat.le_refl _
  | tail _ hlast ih =>
    have := hlast.sizeOf_lt
    omega

/-! ## Constants -/

theorem Plan.countConstant_map {v : Value} {i : Identity} (hv : v.identity? = some i)
    (cs : List ConstantUse) :
    (Plan.countConstant v i cs).map (·.value) = addNew Value.sameIdentity (cs.map (·.value)) v := by
  induction cs with
  | nil => rfl
  | cons c cs ih =>
    have hsame : Value.sameIdentity v c.value = (c.value.identity? == some i) := by
      rw [Value.sameIdentity, hv]
    cases hc : c.value.identity? == some i with
    | true => simp [Plan.countConstant, addNew, hsame, hc]
    | false =>
      simp only [Plan.countConstant, hc, Bool.false_eq_true, if_false, List.map_cons, ih]
      simp only [addNew, List.any_cons, hsame, hc, Bool.false_or]
      split <;> rfl

theorem Plan.noteLabel_same (p : Plan) (id : Nat) :
    (p.noteLabel id).constants = p.constants ∧ (p.noteLabel id).nested = p.nested := by
  unfold Plan.noteLabel
  split <;> exact ⟨rfl, rfl⟩

theorem Plan.noteConstant_nested (p : Plan) (v : Value) :
    (p.noteConstant v).nested = p.nested := by
  unfold Plan.noteConstant
  split <;> rfl

/-- A walk records the constants that it meets. -/
theorem Tour.constants_eq {M : List Mention} {s t : Survey} (h : Tour M s t) :
    t.plan.constants.map (·.value) =
      (M.filterMap Mention.constant?).foldl (addNew Value.sameIdentity)
        (s.plan.constants.map (·.value)) := by
  induction h with
  | nil => rfl
  | append _ _ ih₁ ih₂ => rw [ih₂, ih₁, List.filterMap_append, List.foldl_append]
  | @constant v s =>
    cases hv : v.identity? with
    | none => simp [Mention.constant?, Plan.noteConstant, hv]
    | some i => simp [Mention.constant?, Plan.noteConstant, hv, Plan.countConstant_map hv]
  | @label l s => simp [List.filterMap_cons, Mention.constant?, (Plan.noteLabel_same s.plan l.id).1]
  | @place l s => simp [List.filterMap_cons, Mention.constant?, (Plan.noteLabel_same s.plan l.id).1]
  | var h => simp [List.filterMap_cons, Mention.constant?, (mention_aside h).constants]
  | block _ ih => simpa [List.filterMap_cons, Mention.constant?] using ih
  | handler _ ih => simpa using ih
  | again _ h => simp [List.filterMap_cons, Mention.constant?, h.aside.constants, Plan.noteNested]
  | first _ _ h _ => simp [List.filterMap_cons, Mention.constant?, h.aside.constants, Plan.noteNested]

/-- At the place of a constant with identity there is one with the same identity. -/
theorem Plan.constantPlace?_ok {plan : Plan} {v : Value} {i : Identity} {j : Nat}
    (h : plan.constantPlace? v = some j) (hv : v.identity? = some i) :
    ∃ v', (plan.constants.map (·.value))[j]? = some v' ∧ v'.identity? = some i := by
  simp only [Plan.constantPlace?, hv] at h
  obtain ⟨hlt, hid, -⟩ := List.findIdx?_eq_some_iff_getElem.1 h
  exact ⟨plan.constants[j].value, by simp [hlt], by simpa using hid⟩

/-- A constant in the body of a lambda has a place among its constants. -/
theorem Plan.constantPlace?_of_mem {l : Lambda} {plan : Plan} {v : Value} {i : Identity}
    (hplan : plan.constants.map (·.value) = l.constants) (hmem : .constant v ∈ l.mentions)
    (hv : v.identity? = some i) : ∃ j v', plan.constantPlace? v = some j ∧
      (plan.constants.map (·.value))[j]? = some v' ∧ v'.identity? = some i := by
  have hmem' : v ∈ l.mentions.filterMap Mention.constant? :=
    List.mem_filterMap.2 ⟨_, hmem, by simp [Mention.constant?, hv]⟩
  have hrefl : ∀ v, Value.sameIdentity v v = true := by simp [Value.sameIdentity]
  obtain ⟨b, hb, hsame⟩ := exists_same_of_mem hrefl hmem'
  rw [← Lambda.constants, ← hplan] at hb
  obtain ⟨c, hc, rfl⟩ := List.mem_map.1 hb
  have hsome : (plan.constantPlace? v).isSome :=
    Plan.constantPlace?_isSome.2 ⟨i, hv, c, hc, by simpa [Value.sameIdentity, hv] using hsame⟩
  obtain ⟨j, hj⟩ := Option.isSome_iff_exists.1 hsome
  obtain ⟨v', hv', hid⟩ := Plan.constantPlace?_ok hj hv
  exact ⟨j, v', hj, hv', hid⟩

/-! ## Lambdas -/

/-- The units that a list of mentions counts are those of the lambdas of another list. -/
def Matches (units : Array UnitPlan) (ns : List NestedUse) (ls : List Lambda) : Prop :=
  List.Forall₂ (fun n l => units.findIdx? (·.lambda.id == l.id) = some n.unit) ns ls

theorem Matches.grows {units units' : Array UnitPlan} {ns : List NestedUse} {ls : List Lambda}
    (h : Matches units ns ls) (hu : Grows units units') : Matches units' ns ls :=
  h.imp fun _ _ h => hu.findIdx? h

/-- The unit of a lambda has its id. -/
theorem id_of_findIdx? {units : Array UnitPlan} {id k : Nat}
    (h : units.findIdx? (·.lambda.id == id) = some k) :
    ∃ u, units[k]? = some u ∧ u.lambda.id = id := by
  obtain ⟨hlt, hid, -⟩ := Array.findIdx?_eq_some_iff_getElem.1 h
  exact ⟨units[k], Array.getElem?_eq_getElem hlt, by simpa using hid⟩

/-- One more mention of a lambda is counted. -/
theorem Matches.count {units : Array UnitPlan} {ns : List NestedUse} {ls : List Lambda}
    {l : Lambda} {k : Nat} (h : Matches units ns ls)
    (hk : units.findIdx? (·.lambda.id == l.id) = some k) :
    Matches units (Plan.countNested k ns) (addNew Lambda.sameId ls l) := by
  induction h with
  | nil => exact .cons hk .nil
  | @cons n l' ns ls hn hrest ih =>
    -- Units and ids tell lambdas apart alike.
    have hsame : Lambda.sameId l l' = (n.unit == k) := by
      rw [Bool.eq_iff_iff, Lambda.sameId, beq_iff_eq, beq_iff_eq]
      constructor
      · intro hid
        rw [hid, hk] at hn
        exact (Option.some.inj hn).symm
      · rintro rfl
        obtain ⟨u, hu, hid⟩ := id_of_findIdx? hn
        obtain ⟨u', hu', hid'⟩ := id_of_findIdx? hk
        obtain rfl : u = u' := Option.some.inj (hu.symm.trans hu')
        exact hid.symm.trans hid'
    simp only [Plan.countNested, addNew, List.any_cons, hsame]
    cases hc : n.unit == k with
    | true => exact .cons hn hrest
    | false =>
      simp only [Bool.false_eq_true, if_false, Bool.false_or]
      unfold addNew at ih
      split
      · rename_i hany
        rw [if_pos hany] at ih
        exact .cons hn ih
      · rename_i hany
        rw [if_neg hany] at ih
        exact .cons hn ih

/-- A plan records what its lambda mentions: the constants, and the units of the
lambdas. -/
structure UnitPlan.Tallies (units : Array UnitPlan) (u : UnitPlan) : Prop where
  constants : u.plan.constants.map (·.value) = u.lambda.constants
  nested : Matches units u.plan.nested u.lambda.mentioned

theorem UnitPlan.Tallies.grows {units units' : Array UnitPlan} {u : UnitPlan}
    (h : u.Tallies units) (hu : Grows units units') : u.Tallies units' :=
  ⟨h.constants, h.nested.grows hu⟩

/-- A walk only adds units, for the lambdas that it meets and for those nested in
them. -/
theorem Tour.added {M : List Mention} {s t : Survey} (h : Tour M s t) :
    Grows s.units t.units ∧ ∀ u ∈ t.units, u ∈ s.units ∨
      ∃ D l, .lambda D l ∈ M ∧ l.Nests u.lambda := by
  induction h with
  | nil => exact ⟨.refl _, fun u hu => .inl hu⟩
  | append _ _ ih₁ ih₂ =>
    refine ⟨ih₁.1.trans ih₂.1, fun u hu => ?_⟩
    rcases ih₂.2 u hu with hu | ⟨D, l, hl, hn⟩
    · exact (ih₁.2 u hu).imp_right fun ⟨D, l, hl, hn⟩ => ⟨D, l, List.mem_append_left _ hl, hn⟩
    · exact .inr ⟨D, l, List.mem_append_right _ hl, hn⟩
  | constant => exact ⟨.refl _, fun u hu => .inl hu⟩
  | label => exact ⟨.refl _, fun u hu => .inl hu⟩
  | place => exact ⟨.refl _, fun u hu => .inl hu⟩
  | var h => exact (mention_aside h).units ▸ ⟨.refl _, fun u hu => .inl hu⟩
  | block _ ih =>
    exact ⟨ih.1, fun u hu => (ih.2 u hu).imp_right fun ⟨D, l, hl, hn⟩ =>
      ⟨D, l, List.mem_cons_of_mem _ hl, hn⟩⟩
  | handler _ ih => exact ih
  | again _ h => exact h.aside.units ▸ ⟨.refl _, fun u hu => .inl hu⟩
  | @first D l s inner t _ _ h ih =>
    rw [h.aside.units]
    refine ⟨ih.1.trans (.push _ _), fun u hu => ?_⟩
    rcases Array.mem_push.1 hu with hu | rfl
    · refine (ih.2 u hu).imp_right fun ⟨D', k, hk, hn⟩ => ⟨D, l, by simp, ?_⟩
      exact Relation.ReflTransGen.head ⟨D', hk⟩ hn
    · exact .inr ⟨D, l, by simp, .refl⟩

/-- What the units of a survey record, for a lambda that all of them are nested in. Each is for
a lambda of its own. -/
structure Survey.Tallied (root : Lambda) (units : Array UnitPlan) : Prop where
  nests : ∀ u ∈ units, root.Nests u.lambda
  tallies : ∀ u ∈ units, u.Tallies units
  apart : ∀ (j k : Nat) (u v : UnitPlan), units[j]? = some u → units[k]? = some v →
    u.lambda.id = v.lambda.id → j = k

section Tallied

variable {root : Lambda} {M : List Mention} {s t : Survey}

/-- A walk records the lambdas that it meets, in its own plan and in those of units. -/
theorem Tour.nested_matches (htells : root.Tells) (h : Tour M s t)
    (hM : ∀ D l, .lambda D l ∈ M → root.Nests l) (hs : Tallied root s.units) :
    Tallied root t.units ∧ ∀ ls, Matches s.units s.plan.nested ls →
      Matches t.units t.plan.nested
        ((M.filterMap Mention.lambda?).foldl (addNew Lambda.sameId) ls) := by
  induction h with
  | nil => exact ⟨hs, fun ls h => h⟩
  | append _ _ ih₁ ih₂ =>
    obtain ⟨h₁, hm₁⟩ := ih₁ (fun D l hl => hM D l (List.mem_append_left _ hl)) hs
    obtain ⟨h₂, hm₂⟩ := ih₂ (fun D l hl => hM D l (List.mem_append_right _ hl)) h₁
    refine ⟨h₂, fun ls h => ?_⟩
    rw [List.filterMap_append, List.foldl_append]
    exact hm₂ _ (hm₁ ls h)
  | @constant v s =>
    refine ⟨hs, fun ls h => ?_⟩
    simpa [List.filterMap_cons, Mention.lambda?, Plan.noteConstant_nested] using h
  | @label l s =>
    refine ⟨hs, fun ls h => ?_⟩
    simpa [List.filterMap_cons, Mention.lambda?, (Plan.noteLabel_same s.plan l.id).2] using h
  | @place l s =>
    refine ⟨hs, fun ls h => ?_⟩
    simpa [List.filterMap_cons, Mention.lambda?, (Plan.noteLabel_same s.plan l.id).2] using h
  | var h =>
    have ha := mention_aside h
    rw [ha.units, ha.nested]
    exact ⟨hs, fun ls h => h⟩
  | block _ ih =>
    exact ih (fun D l hl => hM D l (List.mem_cons_of_mem _ hl)) hs
  | handler _ ih => exact ih hM hs
  | again hk h =>
    have ha := h.aside
    rw [ha.units, ha.nested]
    exact ⟨hs, fun ls hls => hls.count hk⟩
  | @first D l s inner t hk hwalk h ih =>
    have hroot : root.Nests l := hM D l (by simp)
    -- The lambdas nested in the new one are not the new one.
    obtain ⟨hgrows, hadded⟩ := hwalk.added
    have hsub : ∀ D' k, .lambda D' k ∈ l.mentions → root.Nests k := fun D' k hk =>
      Relation.ReflTransGen.tail hroot ⟨D', hk⟩
    have hnone : ∀ u ∈ inner.units, u.lambda.id ≠ l.id := fun u hu hid => by
      rcases hadded u hu with hu | ⟨D', k, hk', hn⟩
      · have := Array.findIdx?_eq_none_iff.1 hk u hu
        simp [hid] at this
      · have hnests : root.Nests u.lambda := (hsub D' k hk').trans hn
        have hlt := Lambda.Mentions.sizeOf_lt ⟨D', hk'⟩
        have hle := hn.sizeOf_le
        rw [htells u.lambda l hnests hroot hid] at hle
        omega
    obtain ⟨htallied, hmatches⟩ := ih hsub hs
    have hpush : Grows inner.units (inner.units.push ⟨l, inner.plan⟩) := .push _ _
    have hfound : (inner.units.push ⟨l, inner.plan⟩).findIdx? (·.lambda.id == l.id) =
        some inner.units.size := by
      rw [Array.findIdx?_eq_some_iff_getElem]
      refine ⟨by simp, by simp, fun j hj => ?_⟩
      simpa [Array.getElem_push_lt hj] using hnone _ (Array.getElem_mem hj)
    have ha := h.aside
    rw [ha.units, ha.nested]
    refine ⟨⟨fun u hu => ?_, fun u hu => ?_, fun j k u v hj hk hid => ?_⟩, fun ls hls => ?_⟩
    · rcases Array.mem_push.1 hu with hu | rfl
      · exact htallied.nests u hu
      · exact hroot
    · rcases Array.mem_push.1 hu with hu | rfl
      · exact (htallied.tallies u hu).grows hpush
      · refine ⟨?_, (?_ : Matches inner.units _ _).grows hpush⟩
        · rw [Lambda.constants, eraseDupsBy_eq_foldl]
          exact hwalk.constants_eq
        · rw [Lambda.mentioned, eraseDupsBy_eq_foldl]
          exact hmatches [] .nil
    · rw [Array.getElem?_push] at hj hk
      split at hj <;> split at hk
      · omega
      · cases hj
        exact absurd hid.symm (hnone v (Array.mem_of_getElem? hk))
      · cases hk
        exact absurd hid (hnone u (Array.mem_of_getElem? hj))
      · exact htallied.apart j k u v hj hk hid
    · exact (hls.grows (hgrows.trans hpush)).count hfound

end Tallied

/-- **Every plan records exactly what its lambda mentions.** -/
theorem planLambda_tallies {l : Lambda} {plan : Plan} {units : Array UnitPlan}
    (htells : l.Tells) (h : planLambda l = .ok (plan, units)) :
    UnitPlan.Tallies units ⟨l, plan⟩ ∧ Tallied l units := by
  obtain ⟨s, hwalk, rfl, rfl⟩ := planLambda_tour h
  obtain ⟨htallied, hmatches⟩ := hwalk.nested_matches htells
    (fun D k hk => .single ⟨D, hk⟩) ⟨by simp, by simp, by simp⟩
  refine ⟨⟨?_, ?_⟩, htallied⟩
  · rw [Lambda.constants, eraseDupsBy_eq_foldl]
    exact hwalk.constants_eq
  · rw [Lambda.mentioned, eraseDupsBy_eq_foldl]
    exact hmatches [] .nil

end TreeCode

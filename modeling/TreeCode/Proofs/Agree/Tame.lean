import TreeCode.Proofs.Agree.Call
import TreeCode.Proofs.Agree.Cleanup
import TreeCode.Proofs.Agree.Form

/-!
# Tame trees

The trees that the code of a unit is compared on: constants, variables, operators on
numbers and truth values, conditionals, blocks, loops, static calls, exceptions and
protected regions. A jump goes to a label of an enclosing loop or of an enclosing
block, and nothing between the label and the jump waits for a value.

Main definitions:

* `Expr.Tame` — a tree is tame, where jumps may go to certain labels.

Main results:

* `Expr.Tame.plain` — a tame tree becomes a single unit.
* `Expr.Tame.agrees` — **evaluating a tame tree and running its code agree**.
-/

namespace TreeCode

open Lower

/-- Tame trees, in which jumps may go to the labels `L`. Variables have the types that
`types` says, labels are as `label` says, and only host methods as `callable` says are
called. A part whose value is used before the node is done may not jump. -/
inductive Expr.Tame (types : Nat → Ty) (label : Nat → Label) (callable : Method → Prop) :
    List Nat → Expr → Prop
  | constant {L : List Nat} {t : Ty} {v : Value} (hv : v.Literal t) :
      Tame types label callable L (.constant t v)
  | var {L : List Nat} {v : Var} (hv : types v.id = v.ty) : Tame types label callable L (.var v)
  | default {L : List Nat} {t : Ty} : Tame types label callable L (.default t)
  | assign {L : List Nat} {v : Var} {e : Expr} (hv : types v.id = v.ty)
      (he : e.Tame types label callable []) (hvoid : e.ty.isVoid = false)
      (hfit : v.ty.accepts e.ty = true) :
      Tame types label callable L (.binary v.ty .assign (.var v) e none)
  | binary {L : List Nat} {t : Ty} {op : BinaryOp} {l r : Expr} {k k' : NumKind}
      (hop : op.isStrict = true) (hl : l.Tame types label callable [])
      (hr : r.Tame types label callable []) (hlt : l.ty = .num k) (hrt : r.ty = .num k')
      (ht : op.resultTy? l.ty r.ty = some t) :
      Tame types label callable L (.binary t op l r none)
  | both {L : List Nat} {isAnd : Bool} {l r : Expr} (hl : l.Tame types label callable [])
      (hr : r.Tame types label callable []) (hlt : l.ty = .bool) (hrt : r.ty = .bool) :
      Tame types label callable L (.binary .bool (.both isAnd) l r none)
  | not {L : List Nat} {t : Ty} {e : Expr} (he : e.Tame types label callable []) (hty : e.ty = t)
      (ht : t = .bool ∨ ∃ k, t = .num k) : Tame types label callable L (.unary t .not e none)
  | conditional {L : List Nat} {t : Ty} {c l r : Expr} (hc : c.Tame types label callable [])
      (hct : c.ty = .bool) (hl : l.Tame types label callable L) (hr : r.Tame types label callable L)
      (hlt : t.Takes l.ty) (hrt : t.Takes r.ty) : Tame types label callable L (.conditional t c l r)
  | block {L : List Nat} {t : Ty} {vars : List Var} {body : List Expr}
      (hvars : ∀ v ∈ vars, types v.id = v.ty) (hdistinct : (vars.map (·.id)).Nodup)
      (hbody : ∀ e ∈ body, e.Tame types label callable (L ++ Expr.ownLabels body))
      (hlast : ∀ e, body.getLast? = some e → t.Takes e.ty)
      (hempty : body = [] → t.isVoid = true) : Tame types label callable L (.block t vars body)
  | loop {L : List Nat} {body : Expr} {b c : Option Label} (hb : ∀ l, b = some l → label l.id = l)
      (hc : ∀ l, c = some l → label l.id = l)
      (hbody : body.Tame types label callable (L ++ (labelIds b ++ labelIds c))) :
      Tame types label callable L (.loop body b c)
  | label {L : List Nat} {l : Label} {o : Option Expr} (hl : label l.id = l) (hty : l.Takes o)
      (ho : ∀ e, o = some e → e.Tame types label callable L) :
      Tame types label callable L (.label l o)
  | goto {L : List Nat} {t : Ty} {kind : JumpKind} {l : Label} {o : Option Expr} (hmem : l.id ∈ L)
      (hl : label l.id = l) (hty : l.Takes o)
      (ho : ∀ e, o = some e → e.Tame types label callable []) :
      Tame types label callable L (.goto t kind l o)
  | call {L : List Nat} {m : Method} {args : List Expr} (hm : callable m)
      (hstatic : m.isStatic = true) (hargs : ∀ e ∈ args, e.Tame types label callable [])
      (hfit : List.Forall₂ (fun (t : Ty) (e : Expr) => e.ty.isVoid = false ∧ t.accepts e.ty = true)
        m.params args) : Tame types label callable L (.call m.ret none m args)
  | throw {L : List Nat} {t : Ty} {e : Expr} (he : e.Tame types label callable [])
      (hvoid : e.ty.isVoid = false) : Tame types label callable L (.unary t .throw e none)
  | rethrow {L : List Nat} {t : Ty} : Tame types label callable L (.rethrow t)
  | protect {L : List Nat} {body : Expr} {hs : List CatchClause} {cl : Cleanup}
      (hbody : body.Tame types label callable L)
      (hhs : ∀ h ∈ hs, h.body.Tame types label callable L)
      (htakes : ∀ h ∈ hs, body.ty.Takes h.body.ty) (hfilter : ∀ h ∈ hs, h.filter = none)
      (hvars : ∀ h ∈ hs, ∀ x, h.var = some x → types x.id = h.test)
      (hcl : ∀ c, cl = .finally c ∨ cl = .fault c → c.Tame types label callable L) :
      Tame types label callable L (.protect body hs cl)

/-! ## Names -/

section Names

variable {types : Nat → Ty} {label : Nat → Label} {callable : Method → Prop} {N : Names}
  {m : Mention} {D : List Nat}

theorem Expr.plainAll_iff {es : List Expr} : Expr.PlainAll N es ↔ ∀ e ∈ es, e.Plain N := by
  induction es with
  | nil => simp [Expr.PlainAll]
  | cons e es ih => simp [Expr.PlainAll, ih]

theorem Expr.plainHandlers_iff {hs : List CatchClause} :
    Expr.PlainHandlers N hs ↔ ∀ h ∈ hs, h.filter = none ∧ h.body.Plain N := by
  induction hs with
  | nil => simp [Expr.PlainHandlers]
  | cons h hs ih =>
    obtain ⟨t, v, f, body⟩ := h
    simp [Expr.PlainHandlers, ih, CatchClause.filter, CatchClause.body, and_assoc]

theorem Expr.mem_mentionsHandlers {hs : List CatchClause} :
    m ∈ Expr.mentionsHandlers D hs ↔
      ∃ h ∈ hs, m ∈ h.body.mentions (Var.ids h.var.toList ++ D) := by
  induction hs with
  | nil => simp [Expr.mentionsHandlers]
  | cons h hs ih =>
    obtain ⟨t, v, f, body⟩ := h
    simp [Expr.mentionsHandlers, ih, CatchClause.var, CatchClause.body]

/-- A tame tree becomes a single unit: it mentions no lambda, and it is plain, whatever
is asked of the constants it mentions. -/
theorem Expr.Tame.plain {L : List Nat} {e : Expr} (h : e.Tame types label callable L) :
    ∀ D, (∀ D' k, .lambda D' k ∉ e.mentions D) ∧
      ∀ Q : Value → Prop, (∀ v, .constant v ∈ e.mentions D → Q v) → e.Plain ⟨label, Q⟩ := by
  induction h with
  | constant _ => exact fun _ => ⟨by simp [Expr.mentions], fun _ hQ => hQ _ (.head _)⟩
  | var _ => exact fun _ => ⟨by simp [Expr.mentions], fun _ _ => trivial⟩
  | default => exact fun _ => ⟨by simp [Expr.mentions], fun _ _ => trivial⟩
  | rethrow => exact fun _ => ⟨by simp [Expr.mentions], fun _ _ => trivial⟩
  | not _ _ _ ih => exact ih
  | throw _ _ ih => exact ih
  | assign _ _ _ _ ih =>
    -- The mentions of a node are those of its parts, so each part is handed its share.
    intro D
    simp only [Expr.mentions, List.mem_append, Expr.Plain]
    exact ⟨by simpa using (ih D).1, fun Q hQ => ⟨trivial, (ih D).2 Q fun v hv => hQ v (.inr hv)⟩⟩
  | binary _ _ _ _ _ _ ihl ihr =>
    intro D
    simp only [Expr.mentions, List.mem_append, Expr.Plain]
    exact ⟨by simpa using fun D' k => ⟨(ihl D).1 D' k, (ihr D).1 D' k⟩, fun Q hQ =>
      ⟨(ihl D).2 Q fun v hv => hQ v (.inl hv), (ihr D).2 Q fun v hv => hQ v (.inr hv)⟩⟩
  | both _ _ _ _ ihl ihr =>
    intro D
    simp only [Expr.mentions, List.mem_append, Expr.Plain]
    exact ⟨by simpa using fun D' k => ⟨(ihl D).1 D' k, (ihr D).1 D' k⟩, fun Q hQ =>
      ⟨(ihl D).2 Q fun v hv => hQ v (.inl hv), (ihr D).2 Q fun v hv => hQ v (.inr hv)⟩⟩
  | conditional _ _ _ _ _ _ ihc ihl ihr =>
    intro D
    simp only [Expr.mentions, List.mem_append, Expr.Plain]
    exact ⟨by simpa using fun D' k => ⟨(ihc D).1 D' k, (ihl D).1 D' k, (ihr D).1 D' k⟩,
      fun Q hQ => ⟨(ihc D).2 Q fun v hv => hQ v (.inl hv),
        (ihl D).2 Q fun v hv => hQ v (.inr (.inl hv)),
        (ihr D).2 Q fun v hv => hQ v (.inr (.inr hv))⟩⟩
  | block _ hdistinct _ _ _ ih =>
    intro D
    simp only [Expr.mentions, List.mem_cons, Expr.mem_mentionsAll, Expr.Plain, Expr.plainAll_iff]
    -- The variables of the block are mentioned besides, and are no lambdas.
    refine ⟨fun D' k hk => ?_, fun Q hQ => ⟨hdistinct, fun e he => (ih e he _).2 Q fun v hv =>
      hQ v (.inr ⟨e, he, hv⟩)⟩⟩
    obtain ⟨e, he, hk⟩ := hk.resolve_left (by simp)
    exact (ih e he _).1 D' k hk
  | loop hb hc _ ih =>
    intro D
    simp only [Expr.mentions, List.mem_append, Expr.Plain]
    exact ⟨by simpa using (ih D).1, fun Q hQ => ⟨hb, hc, (ih D).2 Q fun v hv =>
      hQ v (.inr (.inr hv))⟩⟩
  | @label L l o hl _ _ ih =>
    intro D
    cases o with
    | none => exact ⟨by simp [Expr.mentions, Expr.mentionsOption], fun _ _ => ⟨hl, trivial⟩⟩
    | some e =>
      exact ⟨by simpa [Expr.mentions, Expr.mentionsOption] using (ih e rfl D).1, fun Q hQ =>
        ⟨hl, (ih e rfl D).2 Q fun v hv => hQ v (.tail _ hv)⟩⟩
  | @goto L t kind l o _ hl _ _ ih =>
    intro D
    cases o with
    | none => exact ⟨by simp [Expr.mentions, Expr.mentionsOption], fun _ _ => ⟨hl, trivial⟩⟩
    | some e =>
      exact ⟨by simpa [Expr.mentions, Expr.mentionsOption] using (ih e rfl D).1, fun Q hQ =>
        ⟨hl, (ih e rfl D).2 Q fun v hv => hQ v (.tail _ hv)⟩⟩
  | call _ _ _ _ ih =>
    intro D
    simp only [Expr.mentions, Expr.mentionsOption, List.nil_append, Expr.mem_mentionsAll,
      Expr.Plain, Expr.plainAll_iff]
    refine ⟨fun D' k hk => ?_, fun Q hQ => ⟨trivial, fun e he => (ih e he D).2 Q fun v hv =>
      hQ v ⟨e, he, hv⟩⟩⟩
    obtain ⟨e, he, hk⟩ := hk
    exact (ih e he D).1 D' k hk
  | @protect L body hs cl _ _ _ hfilter _ _ ih ihs ihc =>
    intro D
    -- A cleanup block, if there is one, is a part like the others.
    have hcleanup : (∀ D' k, .lambda D' k ∉ Expr.mentionsCleanup D cl) ∧ ∀ Q : Value → Prop,
        (∀ v, .constant v ∈ Expr.mentionsCleanup D cl → Q v) →
          Expr.PlainCleanup ⟨label, Q⟩ cl := by
      cases cl with
      | none => exact ⟨by simp [Expr.mentionsCleanup], fun _ _ => trivial⟩
      | «finally» c => exact ihc c (.inl rfl) D
      | fault c => exact ihc c (.inr rfl) D
    simp only [Expr.mentions, List.mem_append, Expr.mem_mentionsHandlers, Expr.Plain,
      Expr.plainHandlers_iff]
    refine ⟨fun D' k hk => ?_, fun Q hQ => ⟨(ih D).2 Q fun v hv => hQ v (.inl hv), fun h hh =>
      ⟨hfilter h hh, (ihs h hh _).2 Q fun v hv => hQ v (.inr (.inl ⟨h, hh, hv⟩))⟩,
      hcleanup.2 Q fun v hv => hQ v (.inr (.inr hv))⟩⟩
    rcases hk with hk | ⟨h, hh, hk⟩ | hk
    · exact (ih D).1 D' k hk
    · exact (ihs h hh _).1 D' k hk
    · exact hcleanup.1 D' k hk

end Names

/-! ## Agreement -/

theorem BinaryOp.methodNamed?_num (op : BinaryOp) (c : Catalog) (k k' : NumKind) :
    op.methodNamed? c (.num k) (.num k') = none := by
  unfold BinaryOp.methodNamed?
  cases op.methodName? <;> rfl

variable {host : Host} {good : World → Prop} {callable : Method → Prop} {leeway : Leeway}
  {serves : host.Serves good callable leeway} {X : Bench serves.discipline}

theorem agrees_literal {L : List Nat} {t : Ty} {v : Value} (h : v.Literal t) :
    Agrees X L (.constant t v) := by
  cases h with
  | str s => exact agrees_constant (fun _ => Value.faithful_str s) fun _ => rfl
  | num n =>
    exact agrees_constant (fun _ => Value.faithful_num n) fun a => serves.discipline.num_has a n
  | bool b => exact agrees_constant (fun _ => Value.faithful_bool b) fun _ => rfl
  | exception stamp e => exact agrees_constant (fun h => by cases h) fun _ => rfl
  | null ht =>
    exact agrees_constant (fun _ => Value.faithful_null) fun _ => Value.suits_null ht

/-- **Evaluating a tame tree and running its code agree**, and so do its value and its
code as a test. -/
theorem Expr.Tame.agrees {L : List Nat} {e : Expr} (h : e.Tame X.types X.names.label X.callable L) :
    Agrees X L e ∧ (L = [] → e.ty = .bool → AgreesAsTest X e) := by
  -- Only negation, conjunction and disjunction have a code of their own as tests.
  have valued : ∀ {L : List Nat} {e : Expr}, e.part.branch = Part.branchOnValue e.part.emit →
      Agrees X L e → Agrees X L e ∧ (L = [] → e.ty = .bool → AgreesAsTest X e) := by
    rintro L e hbranch A
    exact ⟨A, fun hL hty => .of_value (hL ▸ A) hty hbranch⟩
  induction h with
  | constant hv => exact valued rfl (agrees_literal hv)
  | var hv => exact valued rfl (agrees_var hv)
  | default => exact valued rfl agrees_default
  | assign hv he hvoid hfit ih => exact valued rfl (agrees_assign ih.1 hv rfl hfit hvoid)
  | @binary L t op l r k k' hop hl hr hlt hrt ht ihl ihr =>
    refine valued ?_ (agrees_binary hop ihl.1 ihr.1 ?_ (.inr ⟨k, k', hlt, hrt⟩) ?_ ht)
    · cases op <;> first | rfl | cases hop
    · rw [hlt, hrt]
      exact ⟨rfl, rfl⟩
    · rw [hlt, hrt, BinaryOp.methodNamed?_num]
      rfl
  | both hl hr hlt hrt ihl ihr =>
    exact ⟨agrees_both rfl hlt hrt ihl.1 (ihl.2 rfl hlt) ihr.1, fun _ _ =>
      agreesAsTest_both (ihl.2 rfl hlt) (ihr.2 rfl hrt)⟩
  | not he hty ht ih =>
    refine ⟨agrees_not ih.1 hty ht, fun _ hbool => ?_⟩
    obtain rfl : _ = Ty.bool := hbool
    exact agreesAsTest_not (ih.2 rfl hty)
  | conditional hc hct hl hr hlt hrt ihc ihl ihr =>
    exact valued rfl (agrees_conditional (ihc.2 rfl hct) ihl.1 ihr.1 hlt hrt)
  | block hvars hdistinct hbody hlast hempty ih =>
    exact valued rfl (agrees_block (fun e he => (ih e he).1) hvars hlast hempty)
  | loop hb hc hbody ih => exact valued rfl (agrees_loop ih.1)
  | label hl hty ho ih => exact valued rfl (agrees_label hty fun e he => (ih e he).1)
  | goto hmem hl hty ho ih => exact valued rfl (agrees_goto hmem hty fun e he => (ih e he).1)
  | @call L m args hm hstatic hargs hfit ih =>
    refine valued rfl (agrees_call hm hstatic ?_ rfl)
    refine List.forall₂_iff_get.2 ⟨hfit.length_eq, fun i hi hi' => ?_⟩
    obtain ⟨hvoid, haccepts⟩ := hfit.get hi hi'
    exact ⟨(ih _ (List.get_mem _ _)).1, hvoid, haccepts⟩
  | @throw L t e he hvoid ih =>
    refine valued ?_ (agrees_throw ih.1 hvoid)
    simp [Expr.part, Part.plain, Part.branch, Part.emit]
  | rethrow => exact valued rfl agrees_rethrow
  | protect hbody hhs htakes hfilter hvars hcl ih ihs ihc =>
    exact valued rfl (agrees_protect
      ⟨ih.1, fun h hh => ⟨(ihs h hh).1, htakes h hh⟩, hvars, fun c hc => (ihc c hc).1⟩)

end TreeCode

import TreeCode.Proofs.Agree.Catch

/-!
# Protected regions

A protected region is evaluated by a walk over its body, its handlers and its
cleanup block; the machine finds its way through them by the table of entries.

Main definitions:

* `Region`, `Region.Lowers` — the drafts that lowering a protected region passes
  through.

Main results:

* `agrees_protect` — protected regions.
-/

namespace TreeCode

open Draft Lower

variable {J : Discipline} {X : Bench J} {G G' : Frame} {a b : J.State} {σ σ' : EvalState}
  {μ μ' : MachineState} {s s' t t' : Draft} {st st' : List Value} {pd : List Pending}
  {L L' P P₁ P₂ P₃ I₁ I₃ : List Nat} {g : Bool} {i : Instr} {u : Unit} {f : Usage} {n r : Nat}
  {body : Expr} {hs : List CatchClause} {cl : Cleanup}

/-! ## The code of a region -/

/-- The drafts that lowering a protected region passes through, and the entries
of the table that it adds. -/
structure Region where
  /-- Slot of the value of the region. -/
  result : Option Nat
  /-- The label behind the region. -/
  done : Nat
  opened : Draft
  labelled : Draft
  valued : Draft
  kept : Draft
  left : Draft
  catches : List Handler
  caught : Draft
  cleanups : List Handler
  cleaned : Draft
  placed : Draft

namespace Region

variable (D : Region)

/-- The draft at the start of the region. -/
def start : Draft := D.labelled.emitted .nop

/-- Usage of the body and of the handlers. -/
def usage : Usage := { guarded := true, discarded := D.result.isNone }

/-- The draft behind the handlers, with their entries. -/
def inner : Draft := { D.caught with handlers := D.caught.handlers ++ D.catches }

/-- The draft behind the cleanup block, with the entries of the region. -/
def closed : Draft :=
  { D.cleaned with handlers := D.cleaned.handlers ++ (D.catches ++ D.cleanups) }

/-- The region is lowered through these drafts. -/
structure Lowers (X : Bench J) (D : Region) (body : Expr) (hs : List CatchClause) (cl : Cleanup)
    (f : Usage) (s s' : Draft) : Prop where
  slot : D.result = none ∧ s = D.opened ∨
    ∃ k, D.result = some k ∧ newSlot X.env s = .ok (k, D.opened)
  void : body.ty.isVoid = true → D.result = none
  fresh : freshLabel X.env D.opened = .ok (D.done, D.labelled)
  body : body.part.emit D.usage X.env D.start = .ok ((), D.valued)
  keep : keepResult D.result X.env D.valued = .ok ((), D.kept)
  leave : jumpTo (.leave 0) D.done X.env D.kept = .ok ((), D.left)
  catches : Lower.catches D.start.instrs.size D.left.instrs.size D.opened.depth D.result D.done
    D.usage (Expr.partHandlers hs) X.env D.left = .ok (D.catches, D.caught)
  cleanup : cleanupBlock D.start.instrs.size D.caught.instrs.size D.opened.depth f
    (Expr.partCleanup cl) X.env D.caught = .ok (D.cleanups, D.cleaned)
  place : placeLabel D.done X.env D.closed = .ok ((), D.placed)
  load : f.discarded = true ∧ s' = D.placed ∨
    ∃ k, f.discarded = false ∧ D.result = some k ∧ s' = D.placed.emitted (.loadLocal k)

end Region

theorem Site.region (S : Site X L (.protect body hs cl) f s s' G pd) :
    ∃ D : Region, D.Lowers X body hs cl f s s' := by
  have hlow := S.lowered
  have hused : body.ty.isVoid = true → f.discarded = true := S.used
  rw [Expr.part, Part.emit_plain, protect_eq] at hlow
  simp only [read_bind, ite_ok, bind_ok, map_ok, pure_ok, Expr.part_ty] at hlow
  -- The slot for the value is the one choice that is made.
  have key : ∀ (result : Option Nat) (s₀ : Draft),
      (result = none ∧ s = s₀ ∨ ∃ k, result = some k ∧ newSlot X.env s = .ok (k, s₀)) →
      (body.ty.isVoid = true → result = none) →
      (f.discarded = false → body.ty.isVoid = false → result ≠ none) →
      regionWith body.part (Expr.partHandlers hs) (Expr.partCleanup cl) f result X.env s₀ =
        .ok ((), s') → ∃ D : Region, D.Lowers X body hs cl f s s' := by
    intro result s₀ hslot hvoid hneed hlow
    obtain ⟨done, s₁, s₃, s₄, s₅, cs, s₆, ks, s₇, s₉, h₁, h₃, h₄, h₅, h₆, h₇, h₉, h⟩ :=
      regionWith_ok hlow
    rw [Expr.part_ty] at h
    refine ⟨⟨result, done, s₀, s₁, s₃, s₄, s₅, cs, s₆, ks, s₇, s₉⟩, hslot, hvoid, h₁, h₃, h₄, h₅, h₆,
      h₇, h₉, ?_⟩
    cases hd : f.discarded with
    | true =>
      simp only [hd, Bool.not_true, Bool.false_and, Bool.false_eq_true, if_false, pure_ok] at h
      exact .inl ⟨rfl, h.2.symm⟩
    | false =>
      have hv : body.ty.isVoid = false := Bool.eq_false_iff.2 fun hv => by
        simp [hused hv] at hd
      obtain ⟨k, hk⟩ := Option.ne_none_iff_exists'.1 (hneed hd hv)
      simp only [hd, hv, hk, Bool.not_false, Bool.and_self, if_true, emit_ok] at h
      exact .inr ⟨k, rfl, hk, h.symm⟩
  rcases hlow with ⟨hc, _, s₀, ⟨k, hk, rfl⟩, hlow⟩ | ⟨hc, _, _, ⟨rfl, rfl⟩, hlow⟩
  · simp only [Bool.and_eq_true, Bool.not_eq_true'] at hc
    exact key (some k) s₀ (.inr ⟨k, rfl, hk⟩) (by simp [hc.1]) (by simp) hlow
  · refine key none s (.inl ⟨rfl, rfl⟩) (fun _ => rfl) (fun hd hv => ?_) hlow
    simp [hd, hv] at hc

theorem catchBody_step {h : CatchClause} {k : Nat}
    (hlow : catchBody h.part k f X.env s = .ok (u, s')) (hs : s.Sound)
    (hplain : h.body.Plain X.names) : Step True X.names h.body.placed [] s s' := by
  have hR := acts_rule (h.body.Plain X.names) X.names h.body.placed
  exact (hR.catchBody (D := []) (J := []) (Γ := [.slot k]) (by simp) fun J I Γ f =>
    (h.body.part_acts X.names).emit J I Γ f).stepped hlow hs hplain

theorem catches_step {start stop depth done : Nat} {result : Option Nat} {cs : List Handler}
    (hlow : Lower.catches start stop depth result done f (Expr.partHandlers hs) X.env s =
      .ok (cs, s')) (hs' : s.Sound) (hplain : Expr.PlainHandlers X.names hs) :
    Step True X.names (Expr.placedHandlers hs) [] s s' := by
  have hR := acts_rule (Expr.PlainHandlers X.names hs) X.names (Expr.placedHandlers hs)
  exact (catches_acts fun k hk I slot f => hR.catchBody (D := []) (J := []) (Γ := [.slot slot])
    (by simp) (Lower.Rule.partHandlers hR hs [] (Expr.mentionsHandlers_suit X.names hs []) k hk)).stepped
      hlow hs' hplain

theorem cleanupBlock_step {start stop depth : Nat} {ks : List Handler}
    (hlow : cleanupBlock start stop depth f (Expr.partCleanup cl) X.env s = .ok (ks, s'))
    (hs' : s.Sound) (hplain : Expr.PlainCleanup X.names cl) :
    Step True X.names (Expr.placedCleanup cl) [] s s' := by
  have hR := acts_rule (Expr.PlainCleanup X.names cl) X.names (Expr.placedCleanup cl)
  exact (cleanupBlock_acts fun k hk I f => Lower.Rule.partCleanup hR cl []
    (Expr.mentionsCleanup_suit X.names cl []) k hk [] I [] f).stepped hlow hs' hplain

theorem keepResult_step {result : Option Nat} (hlow : keepResult result X.env s = .ok (u, s'))
    (hs : s.Sound) : Step True X.names [] [] s s' :=
  acts_routine.keepResult.stepped hlow hs trivial

section Catches

variable {start stop depth done : Nat} {result : Option Nat} {cs : List Handler}

/-- The entries of handlers cover the body, and take exceptions that a handler
tests for. -/
theorem catches_entries (hlow : Lower.catches start stop depth result done f (Expr.partHandlers hs)
    X.env s = .ok (cs, s')) :
    ∀ x ∈ cs, ∃ h ∈ hs, ∃ k q, x = ⟨start, stop, depth, .catching h.test k q⟩ := by
  induction hs generalizing s cs with
  | nil =>
    obtain ⟨rfl, -⟩ := pure_ok.1 hlow
    simp
  | cons h hs ih =>
    obtain ⟨test, x, filter, body⟩ := h
    simp only [Expr.partHandlers, Lower.catches, bind_ok, pure_ok] at hlow
    obtain ⟨_, _, -, _, _, -, k, _, -, _, _, -, _, _, -, _, _, -, rest, _, hrest, rfl, rfl⟩ := hlow
    intro y hy
    rcases List.mem_cons.1 hy with rfl | hy
    · exact ⟨_, List.mem_cons_self .., k, _, rfl⟩
    · obtain ⟨h, hmem, hentry⟩ := ih hrest y hy
      exact ⟨h, .tail _ hmem, hentry⟩

/-- The code of a handler of a region: `t₁` is the draft after the exception got
its slot, `t₂` the one after the body, `t₃` the one after its value was kept. -/
structure Arm (X : Bench J) (depth : Nat) (result : Option Nat) (done : Nat) (f : Usage)
    (h : CatchClause) (k : Nat) (t t₁ t₂ t₃ t' : Draft) : Prop where
  slot : newSlot X.env { t with depth, reachable := true } = .ok (k, t₁)
  body : catchBody h.part k f X.env t₁ = .ok ((), t₂)
  keep : keepResult result X.env t₂ = .ok ((), t₃)
  leave : jumpTo (.leave 0) done X.env t₃ = .ok ((), t')

/-- One of the handlers of a region, and those around it. -/
theorem catches_split {pre post : List CatchClause} {h : CatchClause}
    (hlow : Lower.catches start stop depth result done f (Expr.partHandlers (pre ++ h :: post))
      X.env s = .ok (cs, s')) :
    ∃ k t t₁ t₂ t₃ t' cs₁ cs₂,
      Lower.catches start stop depth result done f (Expr.partHandlers pre) X.env s = .ok (cs₁, t) ∧
      Arm X depth result done f h k t t₁ t₂ t₃ t' ∧
      Lower.catches start stop depth result done f (Expr.partHandlers post) X.env t' =
        .ok (cs₂, s') ∧
      cs = cs₁ ++ ⟨start, stop, depth, .catching h.test k t.instrs.size⟩ :: cs₂ := by
  induction pre generalizing s cs with
  | nil =>
    obtain ⟨test, x, filter, body⟩ := h
    simp only [List.nil_append, Expr.partHandlers, Lower.catches, resumeAt, modify_bind,
      position_bind, bind_ok, pure_ok] at hlow
    obtain ⟨k, t₁, h₁, _, t₂, h₂, _, t₃, h₃, _, t', h₄, rest, _, hrest, rfl, rfl⟩ := hlow
    exact ⟨k, s, t₁, t₂, t₃, t', [], rest, rfl, ⟨h₁, h₂, h₃, h₄⟩, hrest, rfl⟩
  | cons x pre ih =>
    obtain ⟨test, y, filter, body⟩ := x
    simp only [List.cons_append, Expr.partHandlers, Lower.catches, bind_ok, pure_ok] at hlow ⊢
    obtain ⟨_, u₁, h₁, _, u₂, h₂, _, u₃, h₃, _, u₄, h₄, _, u₅, h₅, _, u₆, h₆, rest, _, hrest, rfl,
      rfl⟩ := hlow
    obtain ⟨k, t, t₁, t₂, t₃, t', cs₁, cs₂, hpre, hcode, hpost, rfl⟩ := ih hrest
    exact ⟨k, t, t₁, t₂, t₃, t', _ :: cs₁, cs₂, ⟨_, u₁, h₁, _, u₂, h₂, _, u₃, h₃, _, u₄, h₄, _, u₅,
      h₅, _, u₆, h₆, cs₁, t, hpre, rfl, rfl⟩, hcode, hpost, rfl⟩

end Catches

namespace Region

variable {D : Region}

/-- What each part of the code of a region does to the draft. -/
structure Steps (X : Bench J) (D : Region) (body : Expr) (hs : List CatchClause) (cl : Cleanup)
    (s s' : Draft) : Prop where
  toStart : Step True X.names [] [] s D.start
  toValue : Step True X.names body.placed [] D.start D.valued
  toKept : Step True X.names [] [] D.valued D.kept
  toLeft : Step True X.names [] [] D.kept D.left
  toCaught : Step True X.names (Expr.placedHandlers hs) [] D.left D.caught
  toCleaned : Step True X.names (Expr.placedCleanup cl) [] D.caught D.cleaned
  toPlaced : Step True X.names [] [D.done] D.closed D.placed
  toEnd : Step True X.names [] [] D.placed s'
  placed : Placed D.closed D.placed D.done
  free : D.start.Free D.done

theorem closed_leads : D.cleaned.Leads D.closed := leads_addHandlers D.cleaned _

theorem Lowers.steps (K : D.Lowers X body hs cl f s s') (hs₀ : s.Sound)
    (hplain : (Expr.protect body hs cl).Plain X.names) : D.Steps X body hs cl s s' := by
  obtain ⟨hb, hh, hc⟩ : body.Plain X.names ∧ Expr.PlainHandlers X.names hs ∧
    Expr.PlainCleanup X.names cl := hplain
  have h₀ : Step True X.names [] [] s D.opened := by
    rcases K.slot with ⟨-, h⟩ | ⟨k, -, hk⟩
    · exact h ▸ .nil s
    · exact (newSlot_quiet hk).step (newSlot_same hk)
  have hs₁ := h₀.stage.sound hs₀
  have h₁ : Step True X.names [] [] D.opened D.labelled := freshLabel_step K.fresh
  have h₂ : Step True X.names [] [] D.labelled D.start := .emitted D.labelled .nop
  have hs₂ := (h₁.comp h₂).stage.sound hs₁
  have hfree := (Free.fresh hs₁ K.fresh).step h₂ (by simp)
  have h₃ := Expr.emit_step K.body hb hs₂
  have hs₃ := h₃.stage.sound hs₂
  have h₄ := keepResult_step K.keep hs₃
  have hjump := jumpTo_jumped K.leave
  have h₅ : Step True X.names [] [] D.kept D.left := hjump.quiet.step hjump.same
  have hs₅ := (h₄.comp h₅).stage.sound hs₃
  have h₆ := catches_step K.catches hs₅ hh
  have hs₆ := h₆.stage.sound hs₅
  have h₇ := cleanupBlock_step K.cleanup hs₆ hc
  have hfree₇ := hfree.step (h₃.comp (h₄.comp (h₅.comp (h₆.comp h₇)))) (by simp)
  have hfree₈ : D.closed.Free D.done := ⟨⟨hfree₇.internal.lt, hfree₇.internal.unnamed⟩, hfree₇.waiting⟩
  obtain ⟨hplaced, h₉⟩ := hfree₈.place K.place
  refine ⟨h₀.comp (h₁.comp h₂), h₃, h₄, h₅, h₆, h₇, h₉, ?_, hplaced, hfree⟩
  rcases K.load with ⟨-, rfl⟩ | ⟨k, -, -, rfl⟩
  · exact .nil _
  · exact .emitted _ _

namespace Steps

theorem closed_leads (T : D.Steps X body hs cl s s') (hF : s'.Leads X.final) :
    D.closed.Leads X.final :=
  (T.toPlaced.comp T.toEnd).stage.leads.trans hF

theorem cleaned_leads (T : D.Steps X body hs cl s s') (hF : s'.Leads X.final) :
    D.cleaned.Leads X.final :=
  Region.closed_leads.trans (T.closed_leads hF)

/-- The entries that follow those of a stretch of the region lie behind it, are
those of the region, or were added later. -/
theorem later (T : D.Steps X body hs cl s s') (hF : s'.Leads X.final) (h : Stage P t D.cleaned) :
    ∀ k ∈ X.final.handlers.drop t.handlers.length, t.instrs.size < k.start ∨
      k ∈ D.catches ++ D.cleanups ∨ k ∈ X.final.handlers.drop s'.handlers.length := by
  intro k hk
  rcases h.later (T.cleaned_leads hF) k hk with hk | hk
  · have hsplit : X.final.handlers.drop D.cleaned.handlers.length =
        (D.catches ++ D.cleanups) ++ X.final.handlers.drop D.closed.handlers.length := by
      obtain ⟨rest, hrest⟩ := (T.closed_leads hF).handlers
      rw [← hrest]
      simp [closed]
    rw [hsplit] at hk
    rcases List.mem_append.1 hk with hk | hk
    · exact .inr (.inl hk)
    · rcases (T.toPlaced.comp T.toEnd).stage.later hF k hk with hk | hk
      · exact .inr (.inr hk)
      · have hle := h.leads.size_le
        have : D.closed.instrs.size = D.cleaned.instrs.size := rfl
        exact .inl (by omega)
  · exact .inl hk

/-- A stretch of the region, in which the entries of the region cover all or
nothing. -/
theorem span {g' : Bool} {pd' : List Pending} (T : D.Steps X body hs cl s s')
    (S : Span X P L g s s' G pd) (h₁ : Stage P₁ s t) (hv : t.Valued X.names)
    (h₂ : Step True X.names P₂ [] t t') (h₃ : Stage P₃ t' D.cleaned)
    (hown : ∀ k ∈ D.catches ++ D.cleanups, ∀ p, t.instrs.size ≤ p → p ≤ t'.instrs.size →
      k.covers p = k.covers t.instrs.size)
    (hbare : g' = false → g = false ∧ ∀ k ∈ D.catches ++ D.cleanups, k.covers t.instrs.size = false)
    (hG : Suits X G' t) (hP : P₂.Nodup ∧ P₂ ⊆ P ∧ ∀ id ∈ P₂, id ∉ P₁)
    (hin : ∀ x ∈ pd', x ∈ pd ∨ ∃ h, X.final.handlers[x.handler]? = some h ∧
      ∀ p, t.instrs.size ≤ p → p ≤ t'.instrs.size → h.blockHolds p = true) :
    Span X P₂ L g' t t' G' pd' := by
  have hle₁ := h₁.leads.size_le
  have hle₂ := h₂.stage.leads.size_le
  have hle₃ : t'.instrs.size ≤ s'.instrs.size := (h₃.leads.trans (Region.closed_leads.trans
    (T.toPlaced.comp T.toEnd).stage.leads)).size_le
  -- A handler of the finished code was made behind this one, belongs to it, or was there before.
  have hlater := T.later S.leads h₃
  refine
    { ready := S.ready
      sound := h₁.sound S.sound
      valued := hv
      step := h₂
      leads := h₃.leads.trans (T.cleaned_leads S.leads)
      fits := hG
      nodup := hP.1
      fresh := fun id hid hset => ?_
      outer := fun k hk p hlo hhi => ?_
      bare := fun hg k hk => ?_
      inside := fun x hx => ?_
      opens := S.opens.sub (List.Subset.refl L) hle₁ hle₃ }
  · rcases h₁.settled S.sound id hset with hset | hmem
    · exact S.fresh id (hP.2.1 hid) hset
    · exact hP.2.2 id hid hmem
  · rcases hlater k hk with hk | hk | hk
    · rw [Handler.covers_of_lt_start (by omega), Handler.covers_of_lt_start (by omega)]
    · exact hown k hk p hlo hhi
    · rw [S.outer k hk p (by omega) (by omega), S.outer k hk t.instrs.size hle₁ (by omega)]
  · rcases hlater k hk with hk | hk | hk
    · exact Handler.covers_of_lt_start (by omega)
    · exact (hbare hg).2 k hk
    · rw [S.outer k hk t.instrs.size hle₁ (by omega)]
      exact S.bare (hbare hg).1 k hk
  · rcases hin x hx with hx | hx
    · obtain ⟨h, hh, hin⟩ := S.inside x hx
      exact ⟨h, hh, fun p hlo hhi => hin p (by omega) (by omega)⟩
    · exact hx

end Steps

end Region

end TreeCode

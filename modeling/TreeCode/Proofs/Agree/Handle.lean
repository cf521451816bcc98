import TreeCode.Proofs.Agree.Protect

/-!
# Bodies and handlers of protected regions

Both runs evaluate the body of a region and hand an exception that escapes from
it to the first handler that tests for it. The machine finds the handler in the
table, cuts the operand stack back, and forgets the blocks that the exception
escapes from.

Main definitions:

* `Region.Scene` — a region in the finished unit, with what is known of its parts.
* `Region.Delivers` — the machine leaves the body or a handler with a value.

Main results:

* `Breakdown.unwound` — of the blocks being run those outside of the region stay.
* `Region.Scene.handled` — the body and its handlers agree.
-/

namespace TreeCode

open Draft Lower

variable {J : Discipline} {X : Bench J} {G G' : Frame} {a b : J.State} {σ σ' : EvalState}
  {μ μ' : MachineState} {s s' t t' : Draft} {st st' : List Value} {pd : List Pending}
  {L L' P P₁ P₂ P₃ I₁ I₃ : List Nat} {g : Bool} {i : Instr} {u : Unit} {f : Usage} {n r : Nat}
  {body : Expr} {hs : List CatchClause} {cl : Cleanup} {v : Value}

/-! ## Unwinding -/

/-- An exception that is handled outside of the stretch it escapes from ends the
blocks of the stretch, and no others. -/
theorem Breakdown.unwound {e : Fault} {hi : List Value} {blocks : List Pending} (target : Nat)
    (B : Breakdown X s s' G pd st e σ b hi blocks μ) (R : X.Ready)
    (hout : s'.instrs.size ≤ target)
    (hin : ∀ x ∈ pd, ∃ h, X.final.handlers[x.handler]? = some h ∧ h.blockHolds target = true) :
    μ.pending.filter (fun x => !X.machine.escapes (μ.pointer - 1) target x) = pd := by
  have hblocks : blocks.filter (fun x => !X.machine.escapes (μ.pointer - 1) target x) = [] := by
    refine List.filter_eq_nil_iff.2 fun x hx => ?_
    obtain ⟨h, hh, hhold, hextent⟩ := B.blocks x hx
    have hno : h.blockHolds target = false := Bool.eq_false_iff.2 fun ht => by
      have := hextent target ht
      omega
    simp [Machine.escapes, R.handlers, hh, hhold, hno]
  have hpd : pd.filter (fun x => !X.machine.escapes (μ.pointer - 1) target x) = pd := by
    refine List.filter_eq_self.2 fun x hx => ?_
    obtain ⟨h, hh, hhold⟩ := hin x hx
    simp [Machine.escapes, R.handlers, hh, hhold]
  rw [B.pending, List.filter_append, hblocks, hpd, List.nil_append]

theorem Value.isNull_of_isA {ty : Ty} (h : v.isA ty = true) : v.isNull = false := by
  cases v <;> first | rfl | simp [Value.isA] at h

namespace Region

variable {D : Region}

/-- What agreement on the parts of a region says. -/
structure Parts (X : Bench J) (L : List Nat) (body : Expr) (hs : List CatchClause) (cl : Cleanup) :
    Prop where
  inBody : Agrees X L body
  inHandler : ∀ h ∈ hs, Agrees X L h.body ∧ body.ty.Takes h.body.ty
  /-- The variable of a handler has the type that the handler tests for. -/
  typed : ∀ h ∈ hs, ∀ x, h.var = some x → X.types x.id = h.test
  inBlock : ∀ c, cl = .finally c ∨ cl = .fault c → Agrees X L c

/-- A region in the finished unit. -/
structure Scene (X : Bench J) (D : Region) (L : List Nat) (body : Expr) (hs : List CatchClause)
    (cl : Cleanup) (f : Usage) (s s' : Draft) (G : Frame) (pd : List Pending) (n : Nat) : Prop where
  lowers : D.Lowers X body hs cl f s s'
  steps : D.Steps X body hs cl s s'
  span : Span X (Expr.protect body hs cl).placed L f.guarded s s' G pd
  plain : (Expr.protect body hs cl).Plain X.names
  parts : Parts X L body hs cl
  depth : G.depth + (Expr.protect body hs cl).height ≤ X.gauge.max + 1
  paced : X.Paced (n + 1) (.protect body hs cl)

/-- The machine leaves the body of the region, or one of its handlers, with the
value of the region. -/
structure Delivers (X : Bench J) (D : Region) (G : Frame) (pd : List Pending) (st : List Value)
    (v : Value) (σ : EvalState) (b : J.State) (origin q : Nat) (μ : MachineState) : Prop where
  label : ∃ d, X.final.labels[D.done]? = some d ∧ d.position = some q ∧ d.depth = some st.length
  kept : ∀ k, D.result = some k → μ.locals[k]? = some v
  ge : D.start.instrs.size ≤ origin
  lt : origin < D.caught.instrs.size
  /-- No finally block within is still to be run. -/
  own : ∀ h ∈ D.inner.handlers, h.isFinally = true → h.covers origin = false
  holds : Holds X G b σ μ
  stack : μ.stack = st
  pending : μ.pending = pd

/-- One turn of the machine leaves the region with its value. -/
def Done (X : Bench J) (D : Region) (G : Frame) (t : Ty) (pd : List Pending) (st : List Value)
    (a : J.State) (v : Value) (σ : EvalState) (μ : MachineState) : Prop :=
  ∃ b origin q μ₁, J.le a b ∧ J.has b v t ∧ Delivers X D G pd st v σ b origin q μ₁ ∧
    X.machine.Goes 1 μ (X.machine.departed origin q μ₁)

/-- A value is kept in the slot of the region, and the region is left. -/
theorem Delivers.reached {t₁ t₂ : Draft} (R : X.Ready)
    (hkeep : keepResult D.result X.env t = .ok ((), t₁))
    (hleave : jumpTo (.leave 0) D.done X.env t₁ = .ok ((), t₂)) (hs : t.Sound)
    (hr : D.done < t.labels.size) (hF : t₂.Leads X.final)
    (hclear : ∀ k, D.result = some k → G.Clear k ∧ k < X.final.numLocals)
    (hge : D.start.instrs.size ≤ t.instrs.size) (hle : t₂.instrs.size ≤ D.caught.instrs.size)
    (hown : ∀ h ∈ D.inner.handlers, h.isFinally = true → h.covers t₁.instrs.size = false)
    (hst : Stands X G b σ t (D.usage.pushed v st) pd μ) :
    X.Reaches μ fun μ' => ∃ origin q μ₁, Delivers X D G pd st v σ b origin q μ₁ ∧
      X.machine.Goes 1 μ' (X.machine.departed origin q μ₁) := by
  have h₁ : Step True X.names [] [] t t₁ := keepResult_step hkeep hs
  have hjump := jumpTo_jumped hleave
  have hs₁ := h₁.stage.sound hs
  have hr₁ := Nat.lt_of_lt_of_le hr h₁.stage.leads.labels_le
  have hF₁ := hjump.quiet.leads.trans hF
  -- The value goes to the slot, if there is one.
  have hstored : X.Reaches μ fun μ' => Stands X G b σ t₁ st pd μ' ∧
      ∀ k, D.result = some k → μ'.locals[k]? = some v := by
    cases hres : D.result with
    | none =>
      rw [hres] at hkeep
      obtain ⟨-, rfl⟩ := pure_ok.1 hkeep
      have hd : D.usage.discarded = true := by simp [usage, hres]
      exact .here ⟨by simpa [Usage.pushed, hd] using hst, by simp⟩
    | some k =>
      rw [hres] at hkeep
      obtain rfl := emit_ok.1 hkeep
      have hd : D.usage.discarded = false := by simp [usage, hres]
      rw [Usage.pushed, hd, if_neg (by simp)] at hst
      obtain ⟨hc, hlt⟩ := hclear k hres
      refine (R.putAside hst hF₁ hc hlt).mono fun μ' h => ⟨⟨h.holds.thaw, h.place⟩, ?_⟩
      rintro _ ⟨⟩
      exact h.holds.frozen (k, v) (List.mem_cons_self ..)
  refine hstored.mono fun μ' hμ => ?_
  obtain ⟨h, hkept⟩ := hμ
  have hat := h.place
  obtain ⟨d, q, hd, hq, -, hi⟩ := R.aimed (hjump.aims hs₁ hr₁) hF
  have hle₁ := h₁.stage.leads.size_le
  have hsize := hjump.size
  rw [← hat.pointer] at hi
  refine ⟨t₁.instrs.size, q, { μ' with pointer := μ'.pointer + 1 },
    ⟨⟨d, hd, hq, ?_⟩, hkept, by omega, by omega, hown, h.holds.moved rfl rfl, hat.stack,
      hat.pending⟩, R.goes hi ?_⟩
  · obtain ⟨d₀, hd₀, hdep⟩ := hjump.level hr₁
    obtain ⟨d₁, hd₁, hb⟩ := hF.label D.done d₀ hd₀
    obtain rfl : d₁ = d := by simpa [hd] using hd₁.symm
    rw [hb.depth _ hdep, hjump.depth, hat.height]
    simp [Draft.emitted, effectOf]
  · rw [Instr.withTarget, Machine.exec_leave, ← hat.pointer]
    rfl

/-! ## The entries of a region -/

/-- The entries of the handlers cover the body. -/
theorem Lowers.catches_covers (K : D.Lowers X body hs cl f s s') :
    ∀ x ∈ D.catches, ∀ p, x.covers p = decide (D.start.instrs.size ≤ p ∧ p < D.left.instrs.size) := by
  intro x hx p
  obtain ⟨h, -, k, q, rfl⟩ := catches_entries K.catches x hx
  simp [Handler.covers]

theorem Lowers.catches_isFinally (K : D.Lowers X body hs cl f s s') :
    ∀ x ∈ D.catches, x.isFinally = false := by
  intro x hx
  obtain ⟨h, -, k, q, rfl⟩ := catches_entries K.catches x hx
  rfl

/-- The entry of a cleanup block covers the body and the handlers. -/
theorem Lowers.cleanups_covers (K : D.Lowers X body hs cl f s s') : ∀ x ∈ D.cleanups, ∀ p,
    x.covers p = decide (D.start.instrs.size ≤ p ∧ p < D.caught.instrs.size) := by
  intro x hx p
  have hlow := K.cleanup
  cases hc : Expr.partCleanup cl with
  | none =>
    rw [hc] at hlow
    obtain ⟨hnil, -⟩ := pure_ok.1 hlow
    simp [← hnil] at hx
  | some c =>
    rw [hc] at hlow
    simp only [cleanupBlock, bind_ok, pure_ok] at hlow
    obtain ⟨_, _, -, _, _, -, _, _, -, _, _, -, _, _, -, _, _, -, _, _, -, hks, -⟩ := hlow
    rw [← hks, List.mem_singleton] at hx
    subst hx
    simp [Handler.covers]

/-- The entries at the end of the table, and those before them. -/
theorem Steps.entryAt (T : D.Steps X body hs cl s s') (hF : s'.Leads X.final) {x : Handler}
    (pre post : List Handler) (hsplit : D.catches ++ D.cleanups = pre ++ x :: post) :
    X.final.handlers[D.cleaned.handlers.length + pre.length]? = some x ∧
      ∀ j h, j < D.cleaned.handlers.length + pre.length → X.final.handlers[j]? = some h →
        h ∈ D.cleaned.handlers ∨ h ∈ pre := by
  obtain ⟨rest, hrest⟩ := (T.closed_leads hF).handlers
  have hall : X.final.handlers = (D.cleaned.handlers ++ pre) ++ x :: (post ++ rest) := by
    rw [← hrest]
    simp [closed, hsplit]
  have hlen : D.cleaned.handlers.length + pre.length = (D.cleaned.handlers ++ pre).length := by simp
  rw [hall, hlen]
  refine ⟨by simp, fun j h hj hh => ?_⟩
  rw [List.getElem?_append_left hj] at hh
  exact List.mem_append.1 (List.mem_of_getElem? hh)

/-- The entries of the table once the region is complete. -/
theorem Steps.entries (T : D.Steps X body hs cl s s') : ∀ h ∈ s'.handlers,
    h ∈ D.cleaned.handlers ∨ h ∈ D.catches ++ D.cleanups ∨ D.cleaned.instrs.size < h.start := by
  obtain ⟨later, hend, hin⟩ := (T.toPlaced.comp T.toEnd).stage.handlers
  intro h hh
  rw [hend] at hh
  rcases List.mem_append.1 hh with hh | hh
  · exact (List.mem_append.1 hh).imp_right .inl
  · exact .inr (.inr (hin h hh).1)

namespace Scene

variable (Z : Scene X D L body hs cl f s s' G pd n)

include Z

/-- The positions of the parts of the region. -/
theorem sizes : s.instrs.size < D.start.instrs.size ∧ D.start.instrs.size ≤ D.valued.instrs.size ∧
    D.valued.instrs.size ≤ D.kept.instrs.size ∧ D.left.instrs.size = D.kept.instrs.size + 1 ∧
    D.left.instrs.size ≤ D.caught.instrs.size ∧ D.caught.instrs.size ≤ D.cleaned.instrs.size ∧
    D.cleaned.instrs.size ≤ s'.instrs.size := by
  have T := Z.steps
  have h₁ : s.instrs.size ≤ D.labelled.instrs.size := by
    have h₀ : s.Leads D.opened := by
      rcases Z.lowers.slot with ⟨-, h⟩ | ⟨k, -, hk⟩
      · exact h ▸ .refl s
      · exact (newSlot_quiet hk).leads
    have h₁ : Step True X.names [] [] D.opened D.labelled := freshLabel_step Z.lowers.fresh
    exact (h₀.trans h₁.stage.leads).size_le
  refine ⟨by simp [start, Draft.emitted]; omega, T.toValue.stage.leads.size_le,
    T.toKept.stage.leads.size_le, (jumpTo_jumped Z.lowers.leave).size, T.toCaught.stage.leads.size_le,
    T.toCleaned.stage.leads.size_le, ?_⟩
  exact (Region.closed_leads.trans (T.toPlaced.comp T.toEnd).stage.leads).size_le

/-- The draft has the height of the operand stack when the region is entered. -/
theorem opened_depth : D.opened.depth = s.depth := by
  rcases Z.lowers.slot with ⟨-, h⟩ | ⟨k, -, hk⟩
  · rw [h]
  · obtain ⟨-, -, h⟩ := newSlot_ok.1 hk
    rw [← h]

theorem toEntries : Step True X.names (Expr.placedHandlers hs ++ Expr.placedCleanup cl) [] D.left
    D.cleaned :=
  Z.steps.toCaught.comp Z.steps.toCleaned

theorem start_leads : D.start.Leads X.final :=
  (Z.steps.toValue.comp (Z.steps.toKept.comp (Z.steps.toLeft.comp Z.toEntries))).stage.leads.trans
    (Z.steps.cleaned_leads Z.span.leads)

theorem left_leads : D.left.Leads X.final :=
  Z.toEntries.stage.leads.trans (Z.steps.cleaned_leads Z.span.leads)

/-- The slot of the region belongs to nothing else. -/
theorem result_clear : ∀ k, D.result = some k → G.Clear k ∧ k < X.final.numLocals := by
  intro k hk
  have hopened : Step True X.names [] [] D.opened D.start :=
    (freshLabel_step Z.lowers.fresh).trans (.emitted D.labelled .nop)
  rcases Z.lowers.slot with ⟨hnone, -⟩ | ⟨k', hk', hslot⟩
  · simp [hnone] at hk
  · obtain rfl : k' = k := by simpa [hk'] using hk
    exact (Z.span.fits.freeze Z.span.sound .unit hslot
      (hopened.stage.leads.trans Z.start_leads)).2

/-- The code of the body. -/
theorem bodySite : Site X L body D.usage D.start D.valued G pd := by
  have T := Z.steps
  obtain ⟨h₀, h₁, h₂, h₃, h₄, h₅, h₆⟩ := Z.sizes
  refine ⟨Z.lowers.body, Z.plain.1, ?_, by simp [usage], fun hv => by simp [usage, Z.lowers.void hv]⟩
  have hfits := Z.span.fits.step T.toStart
  refine Span.reframe (g := true) (T.span Z.span T.toStart.stage
    (T.toStart.valued trivial Z.span.sound Z.span.valued) T.toValue
    (T.toKept.comp (T.toLeft.comp Z.toEntries)).stage (fun k hk p hlo hhi => ?_) (by simp) hfits
    (Z.span.placedIn (by simp [Expr.placed])) fun x hx => .inl hx) (body.around_subset L) hfits
  rcases List.mem_append.1 hk with hk | hk
  · rw [Z.lowers.catches_covers k hk, Z.lowers.catches_covers k hk]
    exact decide_eq_decide.2 (by omega)
  · rw [Z.lowers.cleanups_covers k hk, Z.lowers.cleanups_covers k hk]
    exact decide_eq_decide.2 (by omega)

/-- A way out of the body that no handler takes is a way out of the region. -/
theorem bodyOut {x : Exit} (hout : Out X L D.start D.valued G pd st b x σ μ) (hab : J.le a b)
    (hno : ∀ v, x = .fault (.thrown v) → ∀ h ∈ hs, v.isA h.test = false) :
    Out X L D.start D.inner G pd st a x σ μ := by
  have T := Z.steps
  have h₃ := (T.toKept.comp (T.toLeft.comp T.toCaught)).stage
  obtain ⟨later, hlater, hin⟩ := h₃.handlers
  refine Out.within (o := []) hout (.inl rfl) hab (Nat.le_refl _) h₃.leads.size_le rfl
    h₃.leads.numLocals_le fun k hk => ?_
  rcases List.mem_append.1 hk with hk | hk
  · rw [hlater] at hk
    rcases List.mem_append.1 hk with hk | hk
    · exact .inl hk
    · have := (hin k hk).1
      exact .inr (.inl fun p _ hp => Handler.covers_of_lt_start (by omega))
  · refine .inr (.inr ⟨fun _ _ _ => Z.lowers.catches_isFinally k hk, fun v hv p => ?_⟩)
    obtain ⟨h, hmem, slot, q, rfl⟩ := catches_entries Z.lowers.catches k hk
    simp [Machine.takes, hno v hv h hmem]

end Scene

/-! ## Handlers -/

theorem placedHandlers_append (pre : List CatchClause) (h : CatchClause)
    (post : List CatchClause) : Expr.placedHandlers (pre ++ h :: post) =
      Expr.placedHandlers pre ++ (h.body.placed ++ (Expr.placedOption h.filter ++
        Expr.placedHandlers post)) := by
  induction pre with
  | nil =>
    obtain ⟨test, x, filter, body⟩ := h
    rfl
  | cons x pre ih =>
    obtain ⟨test, y, filter, body⟩ := x
    simp [Expr.placedHandlers, ih]

theorem plainHandlers_append {N : Names} {pre post : List CatchClause} {h : CatchClause} :
    Expr.PlainHandlers N (pre ++ h :: post) ↔
      Expr.PlainHandlers N pre ∧ h.filter = none ∧ h.body.Plain N ∧ Expr.PlainHandlers N post := by
  induction pre with
  | nil =>
    obtain ⟨test, x, filter, body⟩ := h
    simp [Expr.PlainHandlers, CatchClause.filter, CatchClause.body]
  | cons x pre ih =>
    obtain ⟨test, y, filter, body⟩ := x
    simp [Expr.PlainHandlers, ih, and_assoc]

theorem height_le_heightHandlers {h : CatchClause} (hmem : h ∈ hs) :
    h.body.height ≤ Expr.heightHandlers hs := by
  induction hs with
  | nil => simp at hmem
  | cons x hs ih =>
    obtain ⟨test, y, filter, body⟩ := x
    simp only [Expr.heightHandlers]
    rcases List.mem_cons.1 hmem with rfl | hmem
    · simp only [CatchClause.body]
      omega
    · have := ih hmem
      omega

theorem sizeOf_handler_lt {h : CatchClause} (hmem : h ∈ hs) :
    sizeOf h.body < sizeOf (Expr.protect body hs cl) := by
  have hlt := List.sizeOf_lt_of_mem hmem
  obtain ⟨test, x, filter, body⟩ := h
  simp only [CatchClause.mk.sizeOf_spec] at hlt
  simp only [CatchClause.body, Expr.protect.sizeOf_spec]
  omega

/-- A handler of the region in the finished unit: `k` is the slot of the
exception, the drafts are those of `Arm`, and `cs` are the entries before its
own. -/
structure Armed (X : Bench J) (D : Region) (body : Expr) (pre : List CatchClause) (h : CatchClause)
    (s : Draft) (k : Nat) (t t₁ t₂ t₃ t' : Draft) (cs : List Handler) : Prop where
  arm : Arm X D.opened.depth D.result D.done D.usage h k t t₁ t₂ t₃ t'
  filter : h.filter = none
  plain : h.body.Plain X.names
  before : Step True X.names (body.placed ++ Expr.placedHandlers pre) [] s t
  left : D.left.Leads t
  toSlot : Step True X.names [] [] t t₁
  toBody : Step True X.names h.body.placed [] t₁ t₂
  toEnd : Step True X.names [] [] t₂ t'
  after : ∃ P, Step True X.names P [] t' D.caught
  entry : ∃ rest, D.catches =
    cs ++ ⟨D.start.instrs.size, D.left.instrs.size, D.opened.depth,
      .catching h.test k t.instrs.size⟩ :: rest
  earlier : ∀ x ∈ cs, ∃ h ∈ pre, ∃ k q,
    x = ⟨D.start.instrs.size, D.left.instrs.size, D.opened.depth, .catching h.test k q⟩

namespace Scene

variable {pre post : List CatchClause} {h : CatchClause} {k : Nat} {t₁ t₂ t₃ : Draft}
  {cs : List Handler}

theorem armed (Z : Scene X D L body (pre ++ h :: post) cl f s s' G pd n) :
    ∃ k t t₁ t₂ t₃ t' cs, Armed X D body pre h s k t t₁ t₂ t₃ t' cs := by
  obtain ⟨k, t, t₁, t₂, t₃, t', cs₁, cs₂, hpre, W, hpost, hcs⟩ := catches_split Z.lowers.catches
  obtain ⟨hp₁, hfilter, hp₂, hp₃⟩ := plainHandlers_append.1 Z.plain.2.1
  have T := Z.steps
  have h₀ := T.toStart.comp (T.toValue.comp (T.toKept.comp T.toLeft))
  have hs₀ := h₀.stage.sound Z.span.sound
  have h₁ := catches_step hpre hs₀ hp₁
  have hs₁ := h₁.stage.sound hs₀
  have hq : Quiet t { t with depth := D.opened.depth, reachable := true } :=
    .of_scope t _ _ _ _ _ _ (Nat.le_refl _)
  have hsame : Same t { t with depth := D.opened.depth, reachable := true } :=
    ⟨fun _ => rfl, rfl, rfl, rfl⟩
  have h₂ : Step True X.names [] [] t t₁ :=
    (hq.trans (newSlot_quiet W.slot)).step (hsame.trans (newSlot_same W.slot))
  have hs₂ := h₂.stage.sound hs₁
  have h₃ := catchBody_step W.body hs₂ hp₂
  have hs₃ := h₃.stage.sound hs₂
  have h₄ := keepResult_step W.keep hs₃
  have hjump := jumpTo_jumped W.leave
  have h₅ : Step True X.names [] [] t₃ t' := hjump.quiet.step hjump.same
  have h₆ := catches_step hpost ((h₄.comp h₅).stage.sound hs₃) hp₃
  exact ⟨k, t, t₁, t₂, t₃, t', cs₁, W, hfilter, hp₂, by simpa using h₀.comp h₁,
    h₁.stage.leads, h₂, h₃, h₄.comp h₅, ⟨_, h₆⟩, ⟨cs₂, hcs⟩, catches_entries hpre⟩

/-- The frame suits the code of a handler, whose exception is in its slot. -/
theorem armSuits (Z : Scene X D L body hs cl f s s' G pd n)
    (W : Armed X D body pre h s k t t₁ t₂ t₃ t' cs) (v : Value) :
    Suits X (G.freeze k v) t₁ ∧ G.Clear k ∧ k < X.final.numLocals := by
  obtain ⟨P, hafter⟩ := W.after
  have hq : Quiet t { t with depth := D.opened.depth, reachable := true } :=
    .of_scope t _ _ _ _ _ _ (Nat.le_refl _)
  have hst : Step True X.names [] [] t { t with depth := D.opened.depth, reachable := true } :=
    hq.step ⟨fun _ => rfl, rfl, rfl, rfl⟩
  refine ((Z.span.fits.step W.before).step hst).freeze
    (hst.stage.sound (W.before.stage.sound Z.span.sound)) v W.arm.slot ?_
  exact (W.toBody.comp (W.toEnd.comp (hafter.comp Z.steps.toCleaned))).stage.leads.trans
    (Z.steps.cleaned_leads Z.span.leads)

theorem armSpan (Z : Scene X D L body (pre ++ h :: post) cl f s s' G pd n)
    (W : Armed X D body pre h s k t t₁ t₂ t₃ t' cs) (v : Value) :
    Span X h.body.placed L D.usage.guarded t₁ t₂ (G.freeze k v) pd := by
  obtain ⟨P, hafter⟩ := W.after
  have h₁ := W.before.comp W.toSlot
  have hle₁ := W.toSlot.stage.leads.size_le
  have hle₂ := W.toBody.stage.leads.size_le
  have hle₃ := (keepResult_step W.arm.keep (W.toBody.stage.sound
    (h₁.stage.sound Z.span.sound))).stage.leads.size_le
  have hle₄ := (jumpTo_jumped W.arm.leave).size
  have hle₅ := hafter.stage.leads.size_le
  have hbehind := W.left.size_le
  obtain ⟨h₀, h₁', h₂', h₃', h₄', h₅', h₆'⟩ := Z.sizes
  refine Z.steps.span Z.span h₁.stage
    (h₁.valued trivial Z.span.sound Z.span.valued) W.toBody
    (W.toEnd.comp (hafter.comp Z.steps.toCleaned)).stage (fun x hx p hlo hhi => ?_)
    (by simp [usage]) (Z.armSuits W v).1 (Z.span.placedIn ?_) fun x hx => .inl hx
  · rcases List.mem_append.1 hx with hx | hx
    · rw [Z.lowers.catches_covers x hx, Z.lowers.catches_covers x hx]
      exact decide_eq_decide.2 (by omega)
    · rw [Z.lowers.cleanups_covers x hx, Z.lowers.cleanups_covers x hx]
      exact decide_eq_decide.2 (by omega)
  · simp only [Expr.placed, placedHandlers_append, List.append_assoc, List.append_nil]
    exact (List.Sublist.refl _).append ((List.Sublist.refl _).append (List.sublist_append_left _ _))

/-- An exception that escapes from the body goes to the first handler that tests
for it. -/
theorem enterHandler {e : Exit} (Z : Scene X D L body (pre ++ h :: post) cl f s s' G pd n)
    (W : Armed X D body pre h s k t t₁ t₂ t₃ t' cs) (hpre : ∀ x ∈ pre, v.isA x.test = false)
    (htest : v.isA h.test = true) (hheight : st.length = s.depth) (he : e = .fault (.thrown v))
    (hout : Out X L D.start D.valued G pd st b e σ μ) :
    ∃ c μ', J.le b c ∧ X.machine.Goes 1 μ μ' ∧ Stands X (G.freeze k v) c σ t₁ st pd μ' := by
  subst he
  obtain ⟨c, hi, blocks, μ₁, hbc, B, hstep⟩ := hout
  have R := Z.span.ready
  have T := Z.steps
  obtain ⟨hfits, hclear, hlt⟩ := Z.armSuits W v
  obtain ⟨rest, hentry⟩ := W.entry
  obtain ⟨hat, hfirst⟩ := T.entryAt Z.span.leads cs _
    (by rw [hentry, List.append_assoc, List.cons_append])
  obtain ⟨h₀, h₁, h₂, h₃, h₄, h₅, h₆⟩ := Z.sizes
  have hge := B.ge
  have hle := B.le
  have hbehind := W.left.size_le
  have hdepth : D.opened.depth = st.length := Z.opened_depth.trans hheight.symm
  obtain ⟨P, hafter⟩ := W.after
  have hsize : t.instrs.size ≤ s'.instrs.size := by
    have := (W.toSlot.comp (W.toBody.comp (W.toEnd.comp hafter))).stage.leads.size_le
    omega
  -- Entries that come before lie behind the body, or test for something else.
  have hearlier : ∀ j x, j < D.cleaned.handlers.length + cs.length →
      X.machine.code.handlers[j]? = some x → Machine.takes (μ₁.pointer - 1) v x = false := by
    intro j x hj hx
    rw [R.handlers] at hx
    rcases hfirst j x hj hx with hx | hx
    · obtain ⟨later, hlater, hin⟩ :=
        (T.toKept.comp (T.toLeft.comp Z.toEntries)).stage.handlers
      rw [hlater] at hx
      rcases List.mem_append.1 hx with hx | hx
      · exact B.thrown v rfl x hx
      · have := (hin x hx).1
        simp [Machine.takes, Handler.covers_of_lt_start (p := μ₁.pointer - 1) (h := x) (by omega)]
    · obtain ⟨y, hy, k', q, rfl⟩ := W.earlier x hx
      simp [Machine.takes, hpre y hy]
  have hturn := Machine.turn_of_taken hstep (R.handlers ▸ hat)
    (by simp [Machine.takes, Handler.covers, htest]; omega) hearlier
    (fun _ slot _ hkind => by
      obtain rfl : k = slot := (HandlerKind.catching.inj hkind).2.1
      rw [B.holds.size]
      exact hlt)
  refine ⟨c, _, hbc, Machine.goes_of_turn hturn, ?_⟩
  have hpending := B.unwound t.instrs.size R (by omega) fun x hx => by
    obtain ⟨y, hy, hin⟩ := Z.span.inside x hx
    exact ⟨y, hy, hin _ (by omega) hsize⟩
  have hlen : μ₁.stack.length = hi.length + st.length := by simp [B.stack]
  obtain ⟨-, rfl, rfl⟩ := newSlot_ok.1 W.arm.slot
  refine ⟨(B.holds.freeze v hclear hlt).moved rfl rfl, rfl, rfl, ?_, hdepth.symm, hpending⟩
  simp [Machine.handed, MachineM.cutBack, B.stack, hdepth]

/-- A handler agrees. -/
theorem handling (Z : Scene X D L body (pre ++ h :: post) cl f s s' G pd n)
    (W : Armed X D body pre h s k t t₁ t₂ t₃ t' cs) (htest : v.isA h.test = true)
    (hst : Stands X (G.freeze k v) b σ t₁ st pd μ) (hab : J.le a b) :
    X.Meets μ ((X.walk n).handling v h σ) (Done X D G body.ty pd st a)
      (Out X L D.start D.inner G pd st a) := by
  have T := Z.steps
  have R := Z.span.ready
  have hmem : h ∈ pre ++ h :: post := by simp
  obtain ⟨hagrees, htakes⟩ := Z.parts.inHandler h hmem
  obtain ⟨hfits, hclear, hlt⟩ := Z.armSuits W v
  obtain ⟨P, hafter⟩ := W.after
  obtain ⟨h₀, h₁, h₂, h₃, h₄, h₅, h₆⟩ := Z.sizes
  have hbehind := W.left.size_le
  have hle₁ := W.toSlot.stage.leads.size_le
  have hs₁ := (W.before.comp W.toSlot).stage.sound Z.span.sound
  have hs₂ := W.toBody.stage.sound hs₁
  have hkeep := keepResult_step (X := X) W.arm.keep hs₂
  have hle₂ := W.toBody.stage.leads.size_le
  have hle₃ := hkeep.stage.leads.size_le
  have hle₄ := (jumpTo_jumped W.arm.leave).size
  have hle₅ := hafter.stage.leads.size_le
  -- The region's own entries cover its body only, and the handlers stand behind it.
  have hentries : ∀ x ∈ D.inner.handlers, x ∈ D.caught.handlers ∨
      ∀ p, t₁.instrs.size ≤ p → x.covers p = false := by
    intro x hx
    refine (List.mem_append.1 hx).imp_right fun hx p hp => ?_
    rw [Z.lowers.catches_covers x hx]
    exact decide_eq_false (by omega)
  have hused : h.body.ty.isVoid = true → D.usage.discarded = true := fun hv => by
    cases hb : body.ty.isVoid with
    | true => simp [usage, Z.lowers.void hb]
    | false => simp [(htakes hb).1] at hv
  have hheight := height_le_heightHandlers hmem
  have hd := Z.depth
  simp only [Expr.height] at hd
  have hdepth : (G.freeze k v).depth + h.body.height ≤ X.gauge.max := by
    simp only [Frame.freeze]
    omega
  refine ((Z.armSpan W v).handling W.arm.body hagrees W.plain (Z.parts.typed h hmem) htest
    (List.mem_cons_self ..) (Value.isNull_of_isA htest) rfl hused hdepth
    (Z.paced.part (sizeOf_handler_lt hmem)) hst).andThen (g := id) (fun x σ' μ' hx => ?_)
    (fun x σ' μ' hne hx => ?_) fun σ' => ⟨σ', rfl⟩
  · obtain ⟨c, hbc, hhas, hst'⟩ := hx
    have hF := (hafter.comp Z.steps.toCleaned).stage.leads.trans (T.cleaned_leads Z.span.leads)
    -- A handler that comes to a value leaves the region, and its value is delivered there.
    have hr : D.done < t₂.labels.size := Nat.lt_of_lt_of_le T.free.internal.lt
      ((T.toValue.comp (T.toKept.comp T.toLeft)).stage.leads.trans
        (W.left.trans (W.toSlot.comp W.toBody).stage.leads)).labels_le
    refine .ok ((Delivers.reached R W.arm.keep W.arm.leave hs₂ hr hF Z.result_clear (by omega) hle₅
      (fun x hx _ => ?_) ⟨hst'.holds.thaw, hst'.place⟩).mono fun μ'' hμ => ?_)
    on_goal 2 =>
      obtain ⟨origin, q, μ₁, hd, hgo⟩ := hμ
      exact ⟨c, origin, q, μ₁, J.le_trans hab hbc, J.takes_has htakes hhas, hd, hgo⟩
    rcases hentries x hx with hx | hx
    · have hj := jumpTo_jumped W.arm.leave
      exact ((hj.quiet.step (c := True) (N := X.names) (P := []) (I := []) hj.same).comp
        hafter).stage.uncovered (hkeep.stage.sound hs₂) x hx
    · exact hx _ (by omega)
  -- A handler that exits exits the region: no entry of the region is asked again.
  · obtain ⟨later, hlater, hin⟩ := (W.toEnd.comp hafter).stage.handlers
    refine .exit hne (.here (Out.within (o := []) (hx.imp fun _ _ _ hold => hold.thaw) (.inl rfl)
      hab (by omega) (by simp only [inner]; omega) ?_ ?_ fun x hx => ?_))
    · exact ((W.before.comp W.toSlot).same trivial).cleanups.trans
        (T.toStart.same trivial).cleanups.symm
    · exact (W.toEnd.comp hafter).stage.leads.numLocals_le
    · rcases hentries x hx with hx | hx
      · rw [hlater] at hx
        rcases List.mem_append.1 hx with hx | hx
        · exact .inl hx
        · have := (hin x hx).1
          exact .inr (.inl fun p _ hp => Handler.covers_of_lt_start (by omega))
      · exact .inr (.inl fun p hp _ => hx p hp)

/-- The body and its handlers agree. -/
theorem handled (Z : Scene X D L body hs cl f s s' G pd n)
    (hst : Stands X G a σ D.start st pd μ) (hheight : st.length = s.depth) :
    X.Meets μ ((X.walk n).handled body hs σ) (Done X D G body.ty pd st a)
      (Out X L D.start D.inner G pd st a) := by
  have T := Z.steps
  have hd := Z.depth
  simp only [Expr.height] at hd
  have hmeet := Z.parts.inBody Z.bodySite hst (Z.paced.part (by simp; omega)) (by omega)
  obtain ⟨h₀, h₁, h₂, h₃, h₄, h₅, h₆⟩ := Z.sizes
  have hs₁ := (T.toStart.comp T.toValue).stage.sound Z.span.sound
  cases hr : (X.walk n).valueOf body σ with
  | ok x σ' =>
    -- The body ends with a value: it is kept, and the region is left.
    rw [Walk.handled_of_ok hr]
    refine .ok ((hmeet.ends x σ' hr).bind fun μ' hμ => ?_)
    obtain ⟨b, hab, hhas, hst'⟩ := hμ
    refine (Delivers.reached Z.span.ready Z.lowers.keep Z.lowers.leave hs₁ ?_ Z.left_leads
      Z.result_clear h₁ h₄ (fun x hx hfin => ?_) hst').mono fun μ'' hμ => ?_
    · exact Nat.lt_of_lt_of_le T.free.internal.lt T.toValue.stage.leads.labels_le
    · rcases List.mem_append.1 hx with hx | hx
      · exact (T.toLeft.comp T.toCaught).stage.uncovered (T.toKept.stage.sound hs₁) x hx
      · simp [Z.lowers.catches_isFinally x hx] at hfin
    · obtain ⟨origin, q, μ₁, hd, hgo⟩ := hμ
      exact ⟨b, origin, q, μ₁, hab, hhas, hd, hgo⟩
  | error x σ' =>
    by_cases hx : x = .fault .outOfFuel
    · subst hx
      rw [Walk.handled_of_exit hr (by simp)]
      exact .cut (hmeet.isCut σ' hr)
    · have hleave := hmeet.leaves x σ' hr hx
      by_cases hthrown : ∃ v, x = .fault (.thrown v)
      · obtain ⟨v, rfl⟩ := hthrown
        -- The first clause that tests for the exception takes it, if there is one.
        rcases Walk.first_taken v hs with hno | ⟨pre, h, post, rfl, hpre, htest⟩
        · rw [Walk.handled_of_untaken hr hno]
          refine .exit hx (hleave.mono fun μ' hout => Z.bodyOut hout (J.le_refl a) ?_)
          rintro _ ⟨⟩
          exact hno
        · obtain ⟨k, t, t₁, t₂, t₃, t', cs, W⟩ := Z.armed
          rw [Walk.handled_of_taken hr hpre htest W.filter]
          refine hleave.meets fun μ' hout => ?_
          obtain ⟨c, μ'', hac, hgo, hst'⟩ := Z.enterHandler W hpre htest hheight rfl hout
          exact (Z.handling W htest hst' hac).of_goes hgo
      -- No clause takes a jump or another failure.
      · rw [Walk.handled_of_exit hr fun v hv => hthrown ⟨v, hv⟩]
        refine .exit hx (hleave.mono fun μ' hout => Z.bodyOut hout (J.le_refl a) fun v hv => ?_)
        exact absurd ⟨v, hv⟩ hthrown

end Scene

end Region

end TreeCode

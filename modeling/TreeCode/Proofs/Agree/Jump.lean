import TreeCode.Proofs.Agree.Branch

/-!
# Labels, jumps and loops

The value of a jump is stored in the slot of its label before the jump is
made, and loaded where the label is placed. A label is thus entered in two
ways: from above, with the value of its default, and by a jump.

Main results:

* `Span.storeCarried` — the value that a jump or a label carries.
* `agrees_goto` — a jump leaves the stretch of code towards its label.
* `agrees_label`, `Site.enter` — both ways to enter a label.
* `agrees_loop` — loops, with jumps to their labels.
-/

namespace TreeCode

open Draft Lower

variable {J : Discipline} {X : Bench J} {G G' : Frame} {a b : J.State} {σ σ' : EvalState}
  {μ μ' : MachineState} {s s' t t' : Draft} {st st' : List Value} {pd : List Pending}
  {L L' P P₁ P₂ P₃ I₁ I₃ : List Nat} {g : Bool} {i : Instr} {u : Unit} {f : Usage} {n r : Nat}
  {l : Label} {d : DraftLabel}

/-! ## Labels of the program -/

/-- A label of the program, where it is placed in a node. -/
theorem Span.place {id : Nat} (S : Span X P L g s s' G pd) (h₁ : Step True X.names P₁ I₁ s t)
    (hid : id ∈ P) (hid' : id ∉ P₁) (hr : t.programLabels.lookup id = some r)
    (hp : placeLabel r X.env t = .ok (u, t')) :
    Placed t t' r ∧ Step True X.names [id] [r] t t' := by
  have hs := h₁.stage.sound S.sound
  have hlt := hs.named_lt id r hr
  refine ⟨?_, placeLabel_step hp hlt (.inr ⟨id, List.mem_singleton_self id, hr⟩)
    (List.mem_singleton_self r)⟩
  refine placeLabel_placed (l := t.labels[r]) hp (by simp) ?_
  by_contra hne
  rcases h₁.stage.settled S.sound id ⟨r, t.labels[r], hr, by simp, hne⟩ with h | h
  · exact S.fresh id hid h
  · exact hid' h

/-- The slot of a label is the same in the finished draft. -/
theorem Draft.Leads.valueSlot {F : Draft} (h : t.Leads F) (hd : F.labels[r]? = some d)
    (hr : r < t.labels.size) : (t.labels[r]?.getD {}).valueSlot = d.valueSlot := by
  obtain ⟨d', hd', hb⟩ := h.label r t.labels[r] (by simp)
  obtain rfl : d' = d := by simpa [hd] using hd'.symm
  rw [Array.getElem?_eq_getElem hr]
  exact hb.valueSlot.symm

/-- A label is void if and only if it has no slot. -/
theorem Span.slotOf (S : Span X P L g s s' G pd) (h₁ : Step True X.names P₁ I₁ s t)
    (hF : t.Leads X.final) (hN : X.names.Knows l) (hr : t.programLabels.lookup l.id = some r)
    (hd : X.final.labels[r]? = some d) : d.valueSlot = none ↔ l.ty.isVoid = true := by
  have hlt := (h₁.stage.sound S.sound).named_lt l.id r hr
  have hv := h₁.valued trivial S.sound S.valued l.id r t.labels[r] hr (by simp)
  rw [hN] at hv
  rw [← hF.valueSlot hd hlt, Array.getElem?_eq_getElem hlt]
  exact hv

/-- The slot of a label may be written where jumps to the label may stand. -/
theorem Suits.clear {k : Nat} (h : Suits X G s) (hd : X.final.labels[r]? = some d)
    (hk : d.valueSlot = some k) (hc : d.cleanup = some s.cleanups.head?) : G.Clear k :=
  ⟨fun t ht => (h.label r d k hd hk).1 t ht,
    fun p hp heq => ((h.label r d k hd hk).2 p hp heq).cleanup hc⟩

/-! ## Carried values -/

/-- A label may be given the value of an optional node. -/
def Label.Takes (l : Label) (value : Option Expr) : Prop :=
  match value with
  | some e => l.ty.Takes e.ty
  | none => l.ty.isVoid = true

/-- The value that a jump carries. -/
def Walk.carried (c : Walk) (value : Option Expr) : EvalM Value :=
  match value with
  | some e => c.valueOf e
  | none => pure .unit

theorem Discipline.isVoid_has (J : Discipline) {a : J.State} {t : Ty} (v : Value)
    (h : t.isVoid = true) : J.has a v t := by
  obtain rfl : t = .void := by cases t <;> simp_all [Ty.isVoid]
  exact J.void_has a v

theorem storeCarried_step {value : Option Expr}
    (h : Lower.storeCarried r (Expr.partOption value) f X.env s = .ok (u, s')) (hs : s.Sound)
    (hplain : Expr.PlainOption X.names value) :
    Step True X.names (Expr.placedOption value) [] s s' := by
  refine ((acts_rule (Expr.PlainOption X.names value) X.names _).storeCarried (D := []) (J := [])
    (Γ := [])
    fun p hp => ?_).stepped h hs hplain
  cases value with
  | none => cases hp
  | some e =>
    cases hp
    exact (e.part_acts X.names).emit

theorem Span.storeCarried {value : Option Expr} (S : Span X P L g s s' G pd)
    (hlow : Lower.storeCarried r (Expr.partOption value) f X.env t = .ok (u, t'))
    (hg : f.guarded = g) (hN : X.names.Knows l) (hr : t.programLabels.lookup l.id = some r)
    (hd : X.final.labels[r]? = some d) (hc : d.cleanup = some s.cleanups.head?)
    (hplain : Expr.PlainOption X.names value) (hty : l.Takes value)
    (A : ∀ e, value = some e → Agrees X L' e)
    (hL : ∀ e, value = some e → Opens X (e.around L') t t')
    (h₁ : Step True X.names P₁ I₁ s t) (h₃ : Step True X.names P₃ I₃ t' s')
    (hsub : (P₁ ++ Expr.placedOption value).Sublist P)
    (hdepth : G.depth + Expr.heightOption value ≤ X.gauge.max)
    (hpace : ∀ e, value = some e → X.Paced n e) (hst : Stands X G b σ t st pd μ)
    (hab : J.le a b) :
    X.Meets μ ((X.walk n).carried value σ) (fun v σ' μ' => ∃ c, J.le b c ∧ J.has c v l.ty ∧
      Stands X G c σ' t' st pd μ' ∧ ∀ k, d.valueSlot = some k → μ'.locals[k]? = some v)
      (Out X L' s s' G pd st a) := by
  have hF := h₃.stage.leads.trans S.leads
  cases value with
  | none =>
    obtain ⟨-, rfl⟩ := pure_ok.1 hlow
    -- Without a value the label has no slot to fill.
    have hnone := (S.slotOf h₁ hF hN hr hd).2 hty
    exact .ok (.here ⟨b, J.le_refl b, J.isVoid_has _ hty, hst, by simp [hnone]⟩)
  | some e =>
    have hs := h₁.stage.sound S.sound
    have hlt := hs.named_lt l.id r hr
    have hty : l.ty.Takes e.ty := hty
    have hF₀ : t.Leads X.final := (storeCarried_step hlow hs hplain).stage.leads.trans hF
    have hslot := S.slotOf h₁ hF₀ hN hr hd
    simp only [Lower.storeCarried, Expr.partOption, labelAt_bind, hF₀.valueSlot hd hlt] at hlow
    cases hk : d.valueSlot with
    | none =>
      -- The label receives nothing, so the value is emitted for its effect only.
      simp only [hk] at hlow
      have hvoid := hslot.1 hk
      refine (A e rfl).partIn (o := []) S hlow hg hplain h₁ h₃ (by simp [Usage.effect])
        (fun _ => rfl) (S.placedIn hsub) (hL e rfl) (List.Subset.refl L') (.inl rfl)
        (S.fits.step h₁) hdepth (fun _ _ _ h => h) hst hab (hpace e rfl) |>.mono
        (fun v σ' μ' hv => ?_) fun _ _ _ h => h
      obtain ⟨c, hbc, -, hst'⟩ := hv
      exact ⟨c, hbc, J.isVoid_has v hvoid, hst', by simp⟩
    | some k =>
      -- The value is left on the stack and put aside into the slot of the label.
      simp only [hk, bind_ok, emit_ok] at hlow
      obtain ⟨_, t₁, he, rfl⟩ := hlow
      have hvoid : l.ty.isVoid = false := by
        cases h : l.ty.isVoid with
        | false => rfl
        | true => simp [hk] at hslot; simp [h] at hslot
      have hstep := Expr.emit_step he hplain hs
      have hL' : Opens X (e.around L') t t₁ :=
        (hL e rfl).sub (List.Subset.refl _) (Nat.le_refl _) (Quiet.emitted t₁ _).leads.size_le
      refine ((A e rfl).partIn (o := []) S he hg hplain h₁ h₃.ofEmitted (by simp [Usage.operand])
        (by simp [(hty hvoid).1]) (S.placedIn hsub) hL' (List.Subset.refl L') (.inl rfl)
        (S.fits.step h₁) hdepth (fun _ _ _ h => h) hst hab (hpace e rfl)).after
        fun v σ' μ' hv => ?_
      obtain ⟨c, hbc, hhas, hst'⟩ := hv
      have hlt' : k < X.final.numLocals :=
        Nat.lt_of_lt_of_le (hs.slot_lt r t.labels[r] k (by simp) (by
          rw [← hk, ← hF₀.valueSlot hd hlt, Array.getElem?_eq_getElem hlt]; rfl)) hF₀.numLocals_le
      refine (S.ready.putAside hst' hF (S.fits.clear hd hk hc) hlt').mono fun μ'' h => ?_
      refine ⟨c, hbc, J.takes_has hty hhas, ⟨h.holds.thaw, h.place⟩, fun k' hk' => ?_⟩
      obtain rfl : k = k' := by simpa using hk'
      exact h.holds.frozen (k, v) (List.mem_cons_self ..)

/-! ## Jumps -/

theorem Stands.named (h : Stands X G a σ s st pd μ) (hr : programLabel l X.env s = .ok (r, s')) :
    Stands X G a σ s' st pd μ := by
  have hn := programLabel_named hr
  exact ⟨h.holds, h.place.pointer.trans (by rw [hn.instrs]), hn.reachable.trans h.place.reachable,
    h.place.stack, h.place.height.trans hn.depth.symm, h.place.pending⟩

/-- A handler of the finished unit is one of the stretch or was added later. -/
theorem Span.handler (S : Span X P L g s s' G pd) {k : Handler} (hk : k ∈ X.machine.code.handlers) :
    k ∈ s'.handlers ∨ k ∈ X.final.handlers.drop s'.handlers.length := by
  rw [S.ready.handlers] at hk
  obtain ⟨rest, hrest⟩ := S.leads.handlers
  rw [← hrest] at hk ⊢
  simpa using hk

/-- A jump that no region guards crosses none. -/
theorem Span.unguarded (S : Span X P L false s s' G pd) (h₁ : Step True X.names P₁ I₁ s t)
    (h₃ : Step True X.names P₃ I₃ t s') (q : Nat) (μ : MachineState) :
    X.machine.departed t.instrs.size q μ = { μ with pointer := q } := by
  refine Machine.departed_of_none (fun k hk _ hcov => ?_) μ
  rcases S.handler hk with hk | hk
  · simp [h₃.stage.uncovered (h₁.stage.sound S.sound) k hk] at hcov
  · rw [S.outer k hk _ h₁.stage.leads.size_le h₃.stage.leads.size_le, S.bare rfl k hk] at hcov
    cases hcov

/-- A jump stays in the cleanup blocks that it is made in. -/
theorem Bench.Ready.jump_blockHolds (R : X.Ready) {p q : Nat} (hi : X.final.instrs[p]? = some i)
    (hq : i.target? = some q) {k : Handler} (hk : k ∈ X.final.handlers) :
    k.blockHolds q = k.blockHolds p := by
  rw [← R.instrs] at hi
  rw [← R.handlers] at hk
  obtain ⟨j, hj⟩ := List.mem_iff_getElem?.1 hk
  have hmem := congrArg (j ∈ ·) (R.nested.jumps p i q hi hq)
  simp only [mem_blocksAt_iff, hj, Option.some.injEq, exists_eq_left'] at hmem
  exact Bool.eq_iff_iff.2 (by rw [hmem])

theorem agrees_goto {ty : Ty} {kind : JumpKind} {value : Option Expr} (hl : l.id ∈ L)
    (hty : l.Takes value) (A : ∀ e, value = some e → Agrees X [] e) :
    Agrees X L (.goto ty kind l value) := by
  refine Agrees.of_node ?_
  intro f s s' G pd st a n σ μ S hst hpace hdepth
  have R := S.span.ready
  have hlow := S.lowered
  rw [Expr.part, Part.emit_plain] at hlow
  simp only [Lower.goto, bind_ok] at hlow
  obtain ⟨r, s₁, hr, _, s₂, hstore, _, s₃, hj, hassume⟩ := hlow
  obtain ⟨hN, hplain⟩ : X.names.Knows l ∧ Expr.PlainOption X.names value := S.plain
  have hnamed := programLabel_named hr
  have h₁ : Step True X.names [] [] s s₁ := programLabel_step hr fun _ => hN
  have hs₁ := h₁.stage.sound S.span.sound
  have h₂ := storeCarried_step hstore hs₁ hplain
  have hs₂ := h₂.stage.sound hs₁
  have hjump := jumpTo_jumped hj
  have h₃ : Step True X.names [] [] s₂ s₃ := hjump.quiet.step hjump.same
  have h₄ : Step True X.names [] [] s₃ s' :=
    assumeValue_acts.stepped hassume (h₃.stage.sound hs₂) trivial
  have hF₃ := h₄.stage.leads.trans S.span.leads
  have hF₂ := h₃.stage.leads.trans hF₃
  have hr₂ := h₂.stage.leads.named l.id r hnamed.lookup
  have hlt := hs₂.named_lt l.id r hr₂
  -- The jump goes to `q`, where the finished code has the label.
  obtain ⟨d, q, hd, hq, hc, hi⟩ := R.aimed (hjump.aims hs₂ hlt) hF₃
  have hc' : d.cleanup = some s.cleanups.head? := by
    rw [hc, ((h₁.comp h₂).same trivial).cleanups]
  have hh : (Expr.goto ty kind l value).height = Expr.heightOption value + 1 := by
    simp [Expr.height]
  have hnode : (X.walk n).node (.goto ty kind l value) = ((X.walk n).carried value >>= fun v =>
      throw (.jump l v)) := by
    cases value <;> rfl
  rw [hnode]
  refine (S.span.storeCarried hstore rfl hN hnamed.lookup hd hc' hplain hty A
    (fun e _ => e.opens_nil _ _) h₁ (h₃.comp h₄) (by simp [Expr.placed]) (by omega)
    (fun e he => ?_) (hst.named hr) (J.le_refl a)).bind (fun x σ' μ' hout => ?_) fun v σ' μ' hv => ?_
  · subst he
    exact hpace.part (by simp; omega)
  · exact hout.towards fun l v _ hl => by cases hl
  · obtain ⟨b, hab, hhas, hst', hcarried⟩ := hv
    have hat := hst'.place
    have hle₂ := (h₁.comp h₂).stage.leads.size_le
    have hle₄ := h₄.stage.leads.size_le
    have hsize := hjump.size
    have hptr := hat.pointer
    rw [← hptr] at hi
    refine .exit (by simp) (.here ⟨b, d, s₂.instrs.size, q,
      { μ' with pointer := μ'.pointer + 1 }, hab,
      { mem := hl, knows := hN, has := hhas, position := hq, cleanup := hc'
        label := ⟨r, hF₂.named l.id r hr₂, hd⟩
        depth := ?_
        carried := hcarried
        ge := by omega
        lt := by omega
        own := fun k hk _ hcov => ?_
        slot_lt := fun k hk => ?_
        stays := ⟨μ'.pointer, by omega, by omega, fun k hk => R.jump_blockHolds hi ?_ hk⟩
        holds := hst'.holds.moved rfl rfl
        stack := hat.stack
        pending := hat.pending }, R.goes hi ?_⟩)
    -- The stack has the height that the label expects.
    · obtain ⟨d₀, hd₀, hdep⟩ := hjump.level hlt
      obtain ⟨d₁, hd₁, hb⟩ := hF₃.label r d₀ hd₀
      obtain rfl : d₁ = d := by simpa [hd] using hd₁.symm
      rw [hb.depth _ hdep, hjump.depth, hat.height]
      split <;> simp [Draft.emitted, effectOf]
    -- No region opened in the node itself covers the jump.
    · simp [(h₃.comp h₄).stage.uncovered hs₂ k hk] at hcov
    -- The slot of the value was there before the jump.
    · have h₂₄ := (h₃.comp h₄).stage.leads
      refine Nat.lt_of_lt_of_le (hs₂.slot_lt r s₂.labels[r] k (by simp) ?_) h₂₄.numLocals_le
      rw [← hk, ← hF₂.valueSlot hd hlt, Array.getElem?_eq_getElem hlt]
      rfl
    · cases f.guarded <;> rfl
    · cases hg : f.guarded with
      -- A guarded jump leaves the regions around it; any other crosses none.
      | true =>
        rw [if_pos rfl, Instr.withTarget, Machine.exec_leave, ← hat.pointer]
        rfl
      | false =>
        have hspan := S.span
        rw [hg] at hspan
        rw [hspan.unguarded (h₁.comp h₂) (h₃.comp h₄)]
        rfl

/-! ## Labels -/

theorem pushCarried_step {ty : Ty} (h : Lower.pushCarried r ty f X.env s = .ok (u, s'))
    (hs : s.Sound) : Step True X.names [] [] s s' :=
  ((acts_rule True X.names []).pushCarried (D := []) (J := []) (Γ := [])).stepped h hs trivial

/-- The value that a label received is pushed. -/
theorem Bench.Ready.pushCarried (R : X.Ready) {v : Value} {ty : Ty} (hs : s.Sound)
    (h : Stands X G a σ s st pd μ) (hp : Lower.pushCarried r ty f X.env s = .ok (u, s'))
    (hF : s'.Leads X.final) (hr : r < s.labels.size) (hd : X.final.labels[r]? = some d)
    (hvoid : d.valueSlot = none → ty.isVoid = true)
    (hcarried : ∀ k, d.valueSlot = some k → μ.locals[k]? = some v)
    (hused : ty.isVoid = true → f.discarded = true) :
    X.Reaches μ (Stands X G a σ s' (f.pushed v st) pd) := by
  have hF₀ := (pushCarried_step hp hs).stage.leads.trans hF
  simp only [Lower.pushCarried, ite_ok, pure_ok, labelAt_bind, hF₀.valueSlot hd hr,
    Bool.or_eq_true] at hp
  rcases hp with ⟨hskip, -, rfl⟩ | ⟨hskip, hp⟩
  · have hdis : f.discarded = true := hskip.elim id hused
    simpa [Usage.pushed, hdis] using Reaches.here h
  · rw [not_or] at hskip
    cases hk : d.valueSlot with
    | none => exact absurd (hvoid hk) hskip.2
    | some k =>
      simp only [hk, emit_ok] at hp
      subst hp
      have hfrozen : Holds X (G.freeze k v) a σ μ :=
        { h.holds with
          frozen := fun p hp => by
            rcases List.mem_cons.1 hp with rfl | hp
            · exact hcarried k hk
            · exact h.holds.frozen p hp }
      simp only [Usage.pushed, hskip.1]
      refine (R.loadLocal (v := v) ⟨hfrozen, h.place⟩ hF fun μ hold =>
        hold.frozen (k, v) (List.mem_cons_self ..)).mono fun μ' h' => ⟨h'.holds.thaw, h'.place⟩

/-- The code of a label: `s₁` is the draft after the label was looked up, `s₂`
the one after its default, `s₃` the one after its place. -/
structure Labelled (X : Bench J) (l : Label) (o : Option Expr) (f : Usage) (s s' : Draft)
    (r : Nat) (s₁ s₂ s₃ : Draft) (d : DraftLabel) : Prop where
  named : programLabel l X.env s = .ok (r, s₁)
  stored : Lower.storeCarried r (Expr.partOption o) f X.env s₁ = .ok ((), s₂)
  placed : Placed s₂ s₃ r
  pushed : Lower.pushCarried r l.ty f X.env s₃ = .ok ((), s')
  toName : Step True X.names [] [] s s₁
  toStore : Step True X.names (Expr.placedOption o) [] s₁ s₂
  toPlace : Step True X.names [l.id] [r] s₂ s₃
  toPush : Step True X.names [] [] s₃ s'
  sound : s₃.Sound
  lookup : X.final.programLabels.lookup l.id = some r
  label : X.final.labels[r]? = some d
  position : d.position = some s₂.instrs.size
  cleanup : d.cleanup = some s.cleanups.head?
  void : d.valueSlot = none ↔ l.ty.isVoid = true

theorem Site.labelled {o : Option Expr} (S : Site X L (.label l o) f s s' G pd) :
    ∃ r s₁ s₂ s₃ d, Labelled X l o f s s' r s₁ s₂ s₃ d := by
  have hlow := S.lowered
  rw [Expr.part, Part.emit_plain] at hlow
  simp only [Lower.label, bind_ok] at hlow
  obtain ⟨r, s₁, hr, _, s₂, hstore, _, s₃, hplace, hpush⟩ := hlow
  obtain ⟨hN, hplain⟩ : X.names.Knows l ∧ Expr.PlainOption X.names o := S.plain
  have hnamed := programLabel_named hr
  have h₁ : Step True X.names [] [] s s₁ := programLabel_step hr fun _ => hN
  have hs₁ := h₁.stage.sound S.span.sound
  have h₂ := storeCarried_step hstore hs₁ hplain
  have hr₂ := h₂.stage.leads.named l.id r hnamed.lookup
  have hnd : (Expr.placedOption o ++ [l.id]).Nodup := S.span.nodup
  have hnot : l.id ∉ [] ++ Expr.placedOption o := by
    simp only [List.nodup_append, List.mem_singleton] at hnd
    exact fun h => hnd.2.2 l.id h l.id rfl rfl
  obtain ⟨hplaced, h₃⟩ := S.span.place (h₁.comp h₂) (by simp [Expr.placed]) hnot hr₂ hplace
  have hs₃ := h₃.stage.sound (h₂.stage.sound hs₁)
  have h₄ := pushCarried_step hpush hs₃
  have hF₃ := h₄.stage.leads.trans S.span.leads
  obtain ⟨d, hd, hpos, -, hc⟩ := hplaced.final hF₃
  have hF₂ := h₃.stage.leads.trans hF₃
  refine ⟨r, s₁, s₂, s₃, d, hr, hstore, hplaced, hpush, h₁, h₂, h₃, h₄, hs₃,
    hF₂.named l.id r hr₂, hd, hpos, ?_, S.span.slotOf (h₁.comp h₂) hF₂ hN hr₂ hd⟩
  rw [hc, ((h₁.comp h₂).same trivial).cleanups]

/-- A label is entered by a jump. -/
theorem Site.enter {o : Option Expr} {v : Value} (S : Site X L (.label l o) f s s' G pd)
    (hold : Holds X G b σ μ) (hr : X.final.programLabels.lookup l.id = some r)
    (hd : X.final.labels[r]? = some d) (hland : Landed X.final r st pd μ)
    (hcarried : ∀ k, d.valueSlot = some k → μ.locals[k]? = some v) :
    X.Reaches μ (Stands X G b σ s' (f.pushed v st) pd) := by
  obtain ⟨r', s₁, s₂, s₃, d', K⟩ := S.labelled
  obtain rfl : r' = r := by simpa [hr] using K.lookup.symm
  obtain rfl : d' = d := by simpa [hd] using K.label.symm
  have hF₃ := K.toPush.stage.leads.trans S.span.leads
  obtain ⟨l', hl', -⟩ := K.placed.label
  exact S.span.ready.pushCarried K.sound ⟨hold, hland.place K.placed hF₃⟩ K.pushed S.span.leads
    (Array.getElem?_eq_some_iff.1 hl').1 hd K.void.1 hcarried S.used

theorem agrees_label {o : Option Expr} (hty : l.Takes o) (A : ∀ e, o = some e → Agrees X L e) :
    Agrees X L (.label l o) := by
  refine Agrees.of_node ?_
  intro f s s' G pd st a n σ μ S hst hpace hdepth
  obtain ⟨r, s₁, s₂, s₃, d, K⟩ := S.labelled
  obtain ⟨hN, hplain⟩ : X.names.Knows l ∧ Expr.PlainOption X.names o := S.plain
  have hnamed := programLabel_named K.named
  have hh : (Expr.label l o).height = Expr.heightOption o + 1 := by simp [Expr.height]
  have hnode : (X.walk n).node (.label l o) = (X.walk n).carried o := by
    cases o with
    | none =>
      have : l.ty = .void := by
        have hv : l.ty.isVoid = true := hty
        cases h : l.ty <;> simp_all [Ty.isVoid]
      show (pure l.ty.default : EvalM Value) = _
      rw [this]
      rfl
    | some e => rfl
  -- The code for the value stands in front of the place of the label.
  have hopens : ∀ e : Expr, Opens X (e.around L) s₁ s₂ := by
    intro e id hid r' d' q hr' hd' hq
    by_cases hid' : id = l.id
    · subst hid'
      obtain rfl : r = r' := by simpa [K.lookup] using hr'
      obtain rfl : d = d' := by simpa [K.label] using hd'
      have := K.position
      exact .inr (by simp_all)
    · have hle : s₂.instrs.size ≤ s'.instrs.size :=
        (K.toPlace.stage.leads.trans K.toPush.stage.leads).size_le
      refine (S.span.opens.sub (List.Subset.refl _) K.toName.stage.leads.size_le hle) id ?_ r' d' q
        hr' hd' hq
      exact List.mem_filter.2 ⟨e.around_subset L hid, by simpa using hid'⟩
  rw [hnode]
  -- The value is put aside if the label receives one, and pushed again at its place.
  refine (S.span.storeCarried K.stored rfl hN hnamed.lookup K.label K.cleanup hplain hty A
    (fun e _ => hopens e) K.toName (K.toPlace.comp K.toPush) (by simp [Expr.placed]) (by omega)
    (fun e he => ?_) (hst.named K.named) (J.le_refl a)).after fun v σ' μ' hv => ?_
  · subst he
    exact hpace.part (by simp; omega)
  · obtain ⟨b, hab, hhas, hst', hcarried⟩ := hv
    obtain ⟨l', hl', -⟩ := K.placed.label
    exact (S.span.ready.pushCarried K.sound ⟨hst'.holds, hst'.place.placed K.placed⟩ K.pushed
      S.span.leads (Array.getElem?_eq_some_iff.1 hl').1 K.label K.void.1 hcarried S.used).mono
      fun μ' h => ⟨b, hab, hhas, h⟩

/-- A jump goes where its label is placed. -/
theorem Departure.target {v : Value} {origin q q' : Nat} {d' : DraftLabel}
    (D : Departure X L s s' G pd st l v σ b d origin q μ)
    (hr : X.final.programLabels.lookup l.id = some r) (hd : X.final.labels[r]? = some d')
    (hq : d'.position = some q') : q' = q := by
  obtain ⟨r', hr', hd'⟩ := D.label
  obtain rfl : r = r' := by simpa [hr] using hr'
  obtain rfl : d' = d := by simpa [hd] using hd'
  simpa [hq] using D.position

/-- A jump to a label within the stretch lands there. -/
theorem Departure.lands {v : Value} {origin q : Nat} (D : Departure X L' s s' G' pd st l v σ b d origin q μ)
    (S : Span X P L g s s' G pd) (hq : s.instrs.size ≤ q ∧ q ≤ s'.instrs.size)
    (hr : X.final.programLabels.lookup l.id = some r) :
    X.final.labels[r]? = some d ∧ Landed X.final r st pd (X.machine.departed origin q μ) ∧
      Holds X G' b σ (X.machine.departed origin q μ) ∧
      (X.machine.departed origin q μ).locals = μ.locals := by
  obtain ⟨r', hr', hd⟩ := D.label
  obtain rfl : r = r' := by simpa [hr] using hr'
  have hdep : X.machine.departed origin q μ = { μ with pointer := q } := by
    refine Machine.departed_of_none (fun k hk hfin hcov => ?_) μ
    rcases S.handler hk with hk | hk
    · exact D.own k hk hfin hcov
    · rw [S.outer k hk q hq.1 hq.2, ← S.outer k hk origin D.ge (Nat.le_of_lt D.lt)]
      exact hcov
  rw [hdep]
  exact ⟨hd, ⟨⟨d, hd, D.position, D.depth⟩, D.stack, D.pending⟩, D.holds.moved rfl rfl, rfl⟩

/-! ## Loops -/

namespace Lower

/-- The label at the top of a loop. -/
def topOf : Option Label → LowerM Nat
  | some l => programLabel l
  | none => freshLabel

/-- The label behind a loop. -/
def exitOf : Option Label → LowerM (Option (Nat × Ty))
  | some l => do return some (← programLabel l, l.ty)
  | none => return none

/-- The end of a loop. -/
def bottom (f : Usage) : Option (Nat × Ty) → LowerM Unit
  | some (r, t) => do
    placeLabel r
    pushCarried r t f
  | none => pure ()

theorem loop_eq (body : Part) (b c : Option Label) (f : Usage) :
    Lower.loop body b c f = (do
      let top ← topOf c
      let exit ← exitOf b
      placeLabel top
      body.emit f.effect
      jumpTo (.jump 0) top
      bottom f exit) := by
  cases b <;> cases c <;> simp [Lower.loop, topOf, exitOf, bottom]

end Lower

/-- The label at the top of a loop: the label to continue at, or one of the
loop's own. -/
theorem Span.top {c : Option Label} (S : Span X P L g s s' G pd)
    (hlow : topOf c X.env s = .ok (r, t)) (hN : X.names.KnowsOption c) (hP : labelIds c ⊆ P)
    (hst : Stands X G a σ s st pd μ) :
    Step True X.names [] [] s t ∧ Stands X G a σ t st pd μ ∧
      ∀ {t₁ t' : Draft} {u : Unit}, Step True X.names [] [] t t₁ →
        placeLabel r X.env t₁ = .ok (u, t') →
        Placed t₁ t' r ∧ Step True X.names (labelIds c) [r] t₁ t' ∧
        ∀ l, c = some l → t₁.programLabels.lookup l.id = some r := by
  cases c with
  | none =>
    refine ⟨freshLabel_step hlow, hst.fresh hlow, fun h₂ hp => ?_⟩
    obtain ⟨hplaced, hstep⟩ := h₂.placing S.sound hlow (by simp) hp
    exact ⟨hplaced, hstep, by simp⟩
  | some l =>
    have h₁ : Step True X.names [] [] s t := programLabel_step hlow fun _ => hN l rfl
    refine ⟨h₁, hst.named hlow, fun h₂ hp => ?_⟩
    have hr := h₂.stage.leads.named l.id r (programLabel_named hlow).lookup
    obtain ⟨hplaced, hstep⟩ := S.place (h₁.comp h₂) (hP (by simp [labelIds])) (by simp) hr hp
    refine ⟨hplaced, hstep, fun l' hl' => ?_⟩
    cases hl'
    exact hr

/-- The label behind a loop is looked up. -/
theorem Span.exit {c : Option Label} {exit : Option (Nat × Ty)}
    (hlow : exitOf c X.env t = .ok (exit, t')) (hN : X.names.KnowsOption c) (hst : Stands X G a σ t st pd μ) :
    Step True X.names [] [] t t' ∧ Stands X G a σ t' st pd μ ∧
      (c = none ∧ exit = none ∨
        ∃ l r, c = some l ∧ exit = some (r, l.ty) ∧ t'.programLabels.lookup l.id = some r) := by
  cases c with
  | none =>
    obtain ⟨rfl, rfl⟩ := pure_ok.1 hlow
    exact ⟨.nil t, hst, .inl ⟨rfl, rfl⟩⟩
  | some l =>
    simp only [exitOf, bind_ok, pure_ok] at hlow
    obtain ⟨r, t₁, hr, rfl, rfl⟩ := hlow
    exact ⟨programLabel_step hr fun _ => hN l rfl, hst.named hr,
      .inr ⟨l, r, rfl, rfl, (programLabel_named hr).lookup⟩⟩

/-- The label behind a loop is placed; jumps there bring the value of the loop. -/
theorem Span.bottom (S : Span X P L g s s' G pd)
    (hlow : Lower.bottom f (some (r, l.ty)) X.env t = .ok (u, s'))
    (h₁ : Step True X.names P₁ I₁ s t) (hN : X.names.Knows l) (hid : l.id ∈ P) (hid' : l.id ∉ P₁)
    (hr : t.programLabels.lookup l.id = some r)
    (hused : l.ty.isVoid = true → f.discarded = true) :
    Step True X.names [l.id] [r] t s' ∧ X.final.programLabels.lookup l.id = some r ∧
      (∃ d, X.final.labels[r]? = some d ∧ d.position = some t.instrs.size) ∧
      ∀ {a σ μ st d v}, Holds X G a σ μ → Landed X.final r st pd μ → X.final.labels[r]? = some d →
        (∀ k, d.valueSlot = some k → μ.locals[k]? = some v) →
        X.Reaches μ (Stands X G a σ s' (f.pushed v st) pd) := by
  simp only [Lower.bottom, bind_ok] at hlow
  obtain ⟨_, t₁, hp, hpush⟩ := hlow
  obtain ⟨hplaced, h₂⟩ := S.place h₁ hid hid' hr hp
  have hs₁ := h₂.stage.sound (h₁.stage.sound S.sound)
  have h₃ := pushCarried_step hpush hs₁
  have hF₁ := h₃.stage.leads.trans S.leads
  have hF := h₂.stage.leads.trans hF₁
  obtain ⟨d, hd, hpos, -⟩ := hplaced.final hF₁
  refine ⟨h₂.comp h₃, hF.named l.id r hr, ⟨d, hd, hpos⟩, fun {a σ μ st d' v} hold hland hd' hc => ?_⟩
  obtain rfl : d = d' := by simpa [hd] using hd'
  obtain ⟨l', hl', -⟩ := hplaced.label
  exact S.ready.pushCarried hs₁ ⟨hold, hland.place hplaced hF₁⟩ hpush S.leads
    (Array.getElem?_eq_some_iff.1 hl').1 hd (S.slotOf h₁ hF hN hr hd).1 hc hused

/-- One round of a loop. -/
theorem Walk.loop_succ {c : Walk} {body : Expr} {b k : Option Label} {n : Nat} {σ : EvalState} :
    c.loop body b k (n + 1) σ = match c.valueOf body σ with
      | .ok _ σ => c.loop body b k n σ
      | .error (.jump l v) σ =>
        if Walk.isTargetOf b l then .ok v σ
        else if Walk.isTargetOf k l then c.loop body b k n σ
        else .error (.jump l v) σ
      | .error x σ => .error x σ :=
  rfl

theorem Names.mem_labelIds {N : Names} {c : Option Label} {l : Label} (hN : N.KnowsOption c)
    (hl : N.Knows l) : l.id ∈ labelIds c ↔ c = some l := by
  cases c with
  | none => simp [labelIds]
  | some k =>
    have hk : N.label k.id = k := hN k rfl
    have hl : N.label l.id = l := hl
    simp only [labelIds, Option.toList_some, List.map_cons, List.map_nil, List.mem_singleton,
      Option.some.injEq]
    constructor
    · intro h
      rw [← hk, ← h, hl]
    · exact fun h => by rw [h]

theorem Walk.isTargetOf_iff {N : Names} {c : Option Label} {l : Label} (hN : N.KnowsOption c)
    (hl : N.Knows l) : Walk.isTargetOf c l = true ↔ c = some l := by
  rw [← Names.mem_labelIds hN hl]
  cases c with
  | none => simp [Walk.isTargetOf, labelIds]
  | some k => simpa [Walk.isTargetOf, labelIds] using eq_comm

theorem agrees_loop {body : Expr} {b c : Option Label}
    (A : Agrees X (L ++ (labelIds b ++ labelIds c)) body) : Agrees X L (.loop body b c) := by
  refine Agrees.of_node ?_
  intro f s s' G pd st a n σ μ S hst hpace hdepth
  have R := S.span.ready
  obtain ⟨hNb, hNc, hplain⟩ : X.names.KnowsOption b ∧ X.names.KnowsOption c ∧ body.Plain X.names :=
    S.plain
  have hlow := S.lowered
  rw [Expr.part, Part.emit_plain, Lower.loop_eq] at hlow
  simp only [bind_ok] at hlow
  obtain ⟨top, s₁, htop, exit, s₂, hexit, _, s₃, hplace, _, s₄, hbody, _, s₅, hj, hend⟩ := hlow
  obtain ⟨h₁, hst₁, hplace'⟩ := S.span.top htop hNc (by simp [Expr.placed]) hst
  obtain ⟨h₂, hst₂, hexit'⟩ := Span.exit hexit hNb hst₁
  obtain ⟨hplaced, h₃, hnamed⟩ := hplace' h₂ hplace
  have hs₂ := h₂.stage.sound (h₁.stage.sound S.span.sound)
  have hs₃ := h₃.stage.sound hs₂
  have h₄ := Expr.emit_step hbody hplain hs₃
  have hjump := jumpTo_jumped hj
  have h₅ : Step True X.names [] [] s₄ s₅ := hjump.quiet.step hjump.same
  have hs₄ := h₄.stage.sound hs₃
  have h₁₅ := h₁.comp (h₂.comp (h₃.comp (h₄.comp h₅)))
  -- What is known of the label behind the loop.
  obtain ⟨I₆, h₆, hbreak⟩ : ∃ I₆, Step True X.names (labelIds b) I₆ s₅ s' ∧ ∀ l, b = some l →
      ∃ r, X.final.programLabels.lookup l.id = some r ∧
        (∃ d, X.final.labels[r]? = some d ∧ d.position = some s₅.instrs.size) ∧
        ∀ {a σ μ st d v}, Holds X G a σ μ → Landed X.final r st pd μ → X.final.labels[r]? = some d →
          (∀ k, d.valueSlot = some k → μ.locals[k]? = some v) →
          X.Reaches μ (Stands X G a σ s' (f.pushed v st) pd) := by
    rcases hexit' with ⟨rfl, rfl⟩ | ⟨l, r, rfl, rfl, hr⟩
    · obtain ⟨-, rfl⟩ := pure_ok.1 hend
      exact ⟨[], .nil s₅, by simp⟩
    · have hnd : (labelIds c ++ (body.placed ++ [l.id])).Nodup := S.span.nodup
      obtain ⟨h₆, hlook, hd, henter⟩ := S.span.bottom hend h₁₅ (hNb l rfl)
        (by simp [Expr.placed, labelIds]) (by grind)
        ((h₃.comp (h₄.comp h₅)).stage.leads.named l.id r hr) S.used
      refine ⟨[r], h₆, fun l' hl' => ?_⟩
      cases hl'
      exact ⟨r, hlook, hd, henter⟩
  have hF₅ := h₆.stage.leads.trans S.span.leads
  have hF₃ := (h₄.comp h₅).stage.leads.trans hF₅
  have hF₂ := h₃.stage.leads.trans hF₃
  obtain ⟨dt, hdt, hpos, -⟩ := hplaced.final hF₃
  have hcont : ∀ l, c = some l → X.final.programLabels.lookup l.id = some top := fun l hl =>
    hF₂.named l.id top (hnamed l hl)
  have hle₂ := (h₁.comp h₂).stage.leads.size_le
  have hle₃ := hplaced.size
  have hle₄ := h₄.stage.leads.size_le
  have hle₅ := hjump.size
  have hle₆ := h₆.stage.leads.size_le
  have htop₄ : top < s₄.labels.size := by
    obtain ⟨l', hl', -⟩ := hplaced.label
    exact Nat.lt_of_lt_of_le (Array.getElem?_eq_some_iff.1 hl').1 h₄.stage.leads.labels_le
  have hopens : Opens X (body.around (L ++ (labelIds b ++ labelIds c))) s₃ s₄ := by
    intro id hid r d q hr hd hq
    rcases List.mem_append.1 (body.around_subset _ hid) with hid | hid
    · exact S.span.opens.sub (List.Subset.refl _) (by omega) (by omega) id hid r d q hr hd hq
    · rcases List.mem_append.1 hid with hid | hid
      · obtain ⟨l, hl, rfl⟩ : ∃ l, b = some l ∧ l.id = id := by simpa [labelIds] using hid
        obtain ⟨r', hr', ⟨d', hd', hq'⟩, -⟩ := hbreak l hl
        exact .inr (by grind)
      · obtain ⟨l, hl, rfl⟩ : ∃ l, c = some l ∧ l.id = id := by simpa [labelIds] using hid
        have := hcont l hl
        exact .inl (by grind)
  have hh : (Expr.loop body b c).height = body.height + 1 := by simp [Expr.height]
  have hpb : X.Paced n body := hpace.part (by simp; omega)
  show X.Meets μ ((X.walk n).loop body b c n σ) _ _
  -- A round starts where the label at the top is placed.
  refine Bench.Meets.rounds (ι := Unit) (fun m _ σ => (X.walk n).loop body b c m σ)
    (fun _ σ μ => ∃ e, J.le a e ∧ Stands X G e σ s₃ st pd μ) (fun _ => 0) 0
    (fun _ _ _ _ => Nat.le_refl 0) (fun _ σ _ _ => .inr ⟨σ, rfl⟩)
    (fun m _ σ μ hinv => ?_) (i := ()) ⟨a, J.le_refl a, hst₂.holds, hst₂.place.placed hplaced⟩ ?_
  · obtain ⟨e, hae, hst₃⟩ := hinv
    have hmeet := A.partIn (o := []) (f := f.effect) S.span hbody rfl hplain
      (h₁.comp (h₂.comp h₃)) (h₅.comp h₆) (by simp [Usage.effect]) (fun _ => rfl)
      (S.span.placedIn (by simp [Expr.placed])) hopens (List.Subset.refl _) (.inl rfl)
      (S.span.fits.step (h₁.comp (h₂.comp h₃))) (by omega) (fun _ _ _ h => h) hst₃ hae hpb
    rw [Walk.loop_succ]
    cases hr : (X.walk n).valueOf body σ with
    | ok v σ' =>
      rcases hmeet.ends v σ' hr with ⟨k, μ', hgo, e', hee', -, hst₄⟩ | ⟨hb, hs⟩
      · have hst₄ : Stands X G e' σ' s₄ st pd μ' := hst₄
        obtain ⟨μ'', hgo', hold, hland⟩ := R.turn true st hst₄ hj hs₄ htop₄ hF₅
          (fun h => by cases h) (fun _ _ hμ => by rw [← hμ]; rfl) (by simp [effectOf])
        exact .inr ⟨1 + k, (), σ', μ'', hgo.trans hgo', ⟨e', J.le_trans hae hee', hold,
          hland.place hplaced hF₃⟩, rfl, .inl (by omega)⟩
      · exact .inl (.of_stalls hb hs)
    | error x σ' =>
      cases x with
      | fault g =>
        refine .inl ?_
        by_cases hg : g = .outOfFuel
        · subst hg
          exact .cut (hmeet.isCut σ' hr)
        · exact .exit (by simpa using hg) ((hmeet.leaves _ σ' hr (by simpa using hg)).mono
            fun μ' hout => hout.towards fun l v h => by cases h)
      | jump l v =>
        rcases hmeet.leaves _ σ' hr (by simp) with ⟨k, μ', hgo, hout⟩ | ⟨hb, hs⟩
        · obtain ⟨e', d, origin, q, μ₁, hae', D, hgo'⟩ := id hout
          simp only [Walk.isTargetOf_iff hNb D.knows, Walk.isTargetOf_iff hNc D.knows]
          by_cases hlb : b = some l
          · obtain ⟨r, hlook, ⟨d', hd', hq'⟩, henter⟩ := hbreak l hlb
            have hq := D.target hlook hd' hq'
            obtain ⟨hd, hland, hold, hlocals⟩ := D.lands S.span (by omega) hlook
            rw [if_pos hlb]
            refine .inl (.ok (.of_goes (hgo.trans hgo') ?_))
            refine (henter hold hland hd (hlocals ▸ D.carried)).mono fun μ' h => ?_
            have hty : (Expr.loop body b c).ty = l.ty := by rw [hlb]; rfl
            exact ⟨e', hae', hty ▸ D.has, h⟩
          · rw [if_neg hlb]
            by_cases hlc : c = some l
            · rw [if_pos hlc]
              have hq := D.target (hcont l hlc) hdt hpos
              obtain ⟨hd, hland, hold, -⟩ := D.lands S.span (by omega) (hcont l hlc)
              exact .inr ⟨1 + k, (), σ', _, hgo.trans hgo', ⟨e', hae', hold,
                hland.place hplaced hF₃⟩, rfl, .inl (by omega)⟩
            · rw [if_neg hlc]
              refine .inl (.exit (by simp) (.of_goes hgo (.here (hout.towards ?_))))
              rintro _ _ ⟨⟩ hmem
              simp only [List.mem_append] at hmem
              rcases hmem with hmem | hmem | hmem
              · exact hmem
              · exact absurd ((Names.mem_labelIds hNb D.knows).1 hmem) hlb
              · exact absurd ((Names.mem_labelIds hNc D.knows).1 hmem) hlc
        · exact .inl (.of_stalls hb hs)
  · have := hpace.fuelled
    intro hb
    simp only [Bench.Fuelled, hb, if_true] at this
    omega

end TreeCode

import TreeCode.Proofs.Agree.Handle

/-!
# Cleanup blocks of protected regions

A finally block runs on every way out of its region, a fault block when an
exception escapes. The machine notes what to do afterwards in the list of blocks
being run, and carries on from there when the block ends. While the block runs,
the value of the region and the value of a jump wait in slots of their own: no
jump from within the block goes to a label outside, so nothing writes there.

Main results:

* `Region.Chore.run` — the block agrees; it is never left by a jump.
* `Region.Scene.left`, `Region.Scene.jumped`, `Region.Scene.thrown` — the three
  ways through a cleanup block.
* `agrees_protect` — **protected regions agree**.
-/

namespace TreeCode

open Draft Lower

variable {J : Discipline} {X : Bench J} {G G' : Frame} {a b : J.State} {σ σ' : EvalState}
  {μ μ' : MachineState} {s s' t t' : Draft} {st st' : List Value} {pd : List Pending}
  {L L' P P₁ P₂ P₃ I₁ I₃ : List Nat} {g : Bool} {i : Instr} {u : Unit} {f : Usage} {n r : Nat}
  {body block : Expr} {hs : List CatchClause} {cl : Cleanup} {v : Value}

/-- What happens at the end of a cleanup block. -/
theorem Machine.exec_endFinally {m : Machine} {frame : Pending} {rest : List Pending}
    (h : μ.pending = frame :: rest) : m.exec .endFinally μ =
      match frame.after with
      | .leave q => .ok none (m.departed (μ.pointer - 1) q { μ with pending := rest })
      | .rethrow e => .error e { μ with pending := rest } := by
  obtain ⟨w, p, stack, locals, pending⟩ := μ
  obtain rfl : pending = _ := h
  have hrun : m.exec .endFinally ⟨w, p, stack, locals, frame :: rest⟩ =
      (match frame.after with
        | .leave q => (m.leave (p - 1) q >>= fun _ => pure none : MachineM (Option Value))
        | .rethrow e => throw e) ⟨w, p, stack, locals, rest⟩ := by
    obtain ⟨k, q | e⟩ := frame <;> rfl
  rw [hrun]
  obtain ⟨k, q | e⟩ := frame
  · simp only [bind, EStateM.bind, Machine.leave_eq]
    rfl
  · rfl

/-- The draft at the start of a cleanup block. -/
def Draft.tidying (s : Draft) (depth : Nat) : Draft :=
  { s with
    depth, reachable := true, cleanups := s.nextCleanup :: s.cleanups
    nextCleanup := s.nextCleanup + 1 }

/-- In a new cleanup block slots for values of jumps stay shut. -/
theorem Suits.tidying (h : Suits X G s) (depth : Nat) : Suits X G (s.tidying depth) :=
  { h with
    label := fun r l k hl hk => ⟨(h.label r l k hl hk).1, fun p hp hpk => by
      obtain ⟨-, holder⟩ := (h.label r l k hl hk).2 p hp hpk
      refine ⟨fun heq => ?_, fun m hm => Nat.lt_succ_of_lt (holder m hm)⟩
      exact absurd (holder s.nextCleanup heq) (Nat.lt_irrefl _)⟩
    cleanups := fun c hc => by
      rcases List.mem_cons.1 hc with rfl | hc
      · exact Nat.lt_succ_self _
      · exact Nat.lt_succ_of_lt (h.cleanups c hc) }

/-- In a new cleanup block the slot of a label outside may keep its value. -/
theorem Suits.freezeCarried {d : DraftLabel} {k depth : Nat} (h : Suits X G s) (R : X.Ready)
    (v : Value) (hd : X.final.labels[r]? = some d) (hk : d.valueSlot = some k)
    (hlt : k < s.numLocals) (hc : d.cleanup = some s.cleanups.head?) :
    Suits X (G.freeze k v) (s.tidying depth) := by
  have ht := h.tidying (X := X) depth
  have hshut : (s.tidying depth).Shuts d := by
    have hold : ∀ m, d.cleanup = some (some m) → m < s.nextCleanup := fun m hm => by
      rw [hc, Option.some.injEq] at hm
      exact h.cleanups m (List.mem_of_head? hm)
    -- The block that is opened has a number of its own.
    refine ⟨fun heq => ?_, fun m hm => Nat.lt_succ_of_lt (hold m hm)⟩
    exact absurd (hold s.nextCleanup heq) (Nat.lt_irrefl _)
  exact { ht with
    caught := ht.caught.imp fun _ _ h => ⟨.tail _ h.1, h.2⟩
    hoisted := fun i k hk => by
      obtain ⟨x, hx, hmem⟩ := ht.hoisted i k hk
      exact ⟨x, hx, .tail _ hmem⟩
    frozen_lt := fun p hp => by
      rcases List.mem_cons.1 hp with rfl | hp
      · exact hlt
      · exact ht.frozen_lt p hp
    apart := fun u hu p hp => by
      rcases List.mem_cons.1 hp with rfl | hp
      · exact ((h.label r d k hd hk).1 u hu).symm
      · exact ht.apart u hu p hp
    label := fun r' l j hl hj => ⟨(ht.label r' l j hl hj).1, fun p hp hpj => by
      rcases List.mem_cons.1 hp with rfl | hp
      · obtain rfl : k = j := hpj
        obtain rfl := R.sound.slot_inj r r' d l k hd hl hk hj
        obtain rfl : d = l := by simpa [hd] using hl
        exact hshut
      · exact (ht.label r' l j hl hj).2 p hp hpj⟩ }

/-- A cleanup block. -/
def Cleanup.of (isFinally : Bool) (block : Expr) : Cleanup :=
  if isFinally then .finally block else .fault block

namespace Region

variable {D : Region}

/-- The entry of a cleanup block. -/
def cleanupEntry (D : Region) (isFinally : Bool) : Handler :=
  ⟨D.start.instrs.size, D.caught.instrs.size, D.opened.depth,
    if isFinally then .finally D.caught.instrs.size D.cleaned.instrs.size
    else .fault D.caught.instrs.size D.cleaned.instrs.size⟩

/-- The place of that entry in the table. -/
def cleanupIndex (D : Region) : Nat := D.cleaned.handlers.length + D.catches.length

/-- The code of a cleanup block, up to the draft `t'`. -/
structure Chore (X : Bench J) (D : Region) (f : Usage) (block : Expr) (isFinally : Bool)
    (t' : Draft) : Prop where
  emitted : block.part.emit f.effect X.env (D.caught.tidying D.opened.depth) = .ok ((), t')
  cleaned : D.cleaned = ({ t' with cleanups := t'.cleanups.tail } : Draft).emitted .endFinally
  entry : D.cleanups = [D.cleanupEntry isFinally]

namespace Scene

variable {fin : Bool} {after : AfterCleanup} {L₀ : List Nat}

/-- Where the cleanup block of a region is lowered. -/
theorem chore (fin : Bool) (Z : Scene X D L body hs (.of fin block) f s s' G pd n) :
    ∃ t', Chore X D f block fin t' := by
  have hlow := Z.lowers.cleanup
  have hpart : Expr.partCleanup (.of fin block) = some ⟨fin, block.part⟩ := by cases fin <;> rfl
  rw [hpart] at hlow
  simp only [cleanupBlock, resumeAt, modify_bind, position_bind, bind_ok, emit_bind, pure_ok] at hlow
  obtain ⟨_, t', h, hks, hclean⟩ := hlow
  exact ⟨t', h, hclean.symm, by rw [← hks, hclean]; rfl⟩

variable (Z : Scene X D L body hs (.of fin block) f s s' G pd n) (C : Chore X D f block fin t')

include Z C

/-- The entry of the cleanup block in the table. -/
theorem cleanupAt : X.machine.code.handlers[D.cleanupIndex]? = some (D.cleanupEntry fin) ∧
    ∀ j h, j < D.cleanupIndex → X.machine.code.handlers[j]? = some h →
      h ∈ D.inner.handlers ∨ D.caught.instrs.size < h.start := by
  obtain ⟨hat, hfirst⟩ := Z.steps.entryAt Z.span.leads D.catches []
    (by rw [C.entry])
  rw [Z.span.ready.handlers]
  refine ⟨hat, fun j h hj hh => ?_⟩
  obtain ⟨later, hlater, hin⟩ := Z.steps.toCleaned.stage.handlers
  rcases hfirst j h hj hh with hmem | hmem
  · rw [hlater] at hmem
    rcases List.mem_append.1 hmem with hmem | hmem
    · exact .inl (List.mem_append_left _ hmem)
    · exact .inr (hin h hmem).1
  · exact .inl (List.mem_append_right _ hmem)

omit C in
/-- The entries of the region do not cover the block. -/
theorem uncovered : ∀ k ∈ D.catches ++ D.cleanups, ∀ p, D.caught.instrs.size ≤ p →
    k.covers p = false := by
  intro k hk p hp
  have hleft := Z.steps.toCaught.stage.leads.size_le
  rcases List.mem_append.1 hk with hk | hk
  · rw [Z.lowers.catches_covers k hk]
    exact decide_eq_false (by omega)
  · rw [Z.lowers.cleanups_covers k hk]
    exact decide_eq_false (by omega)

omit C in
theorem blockPlain : block.Plain X.names := by
  have := Z.plain.2.2
  cases fin <;> exact this

omit C in
theorem placed_of : (Expr.protect body hs (.of fin block)).placed =
    body.placed ++ (Expr.placedHandlers hs ++ block.placed) := by
  cases fin <;> rfl

/-- What comes before the block, the block, and what comes after it. -/
theorem choreSteps :
    Stage (body.placed ++ Expr.placedHandlers hs) s (D.caught.tidying D.opened.depth) ∧
    Step True X.names block.placed [] (D.caught.tidying D.opened.depth) t' ∧
    Stage [] t' D.cleaned := by
  have T := Z.steps
  have hq : Quiet D.caught (D.caught.tidying D.opened.depth) :=
    .of_scope D.caught _ _ _ _ _ _ (Nat.le_succ _)
  have h₁ := (T.toStart.comp (T.toValue.comp (T.toKept.comp (T.toLeft.comp T.toCaught)))).stage
  have h₂ := Expr.emit_step C.emitted Z.blockPlain (hq.sound (h₁.sound Z.span.sound))
  have hq' : Quiet t' { t' with cleanups := t'.cleanups.tail } :=
    .of_scope t' _ _ _ _ _ _ (Nat.le_refl _)
  refine ⟨h₁.trans (hq.stage []) (by simp) (by simp), h₂, ?_⟩
  rw [C.cleaned]
  exact (hq'.trans (.emitted _ _)).stage []

/-- The positions of the block. -/
theorem choreSizes : D.caught.instrs.size ≤ t'.instrs.size ∧
    D.cleaned.instrs.size = t'.instrs.size + 1 :=
  ⟨(Z.choreSteps C).2.1.stage.leads.size_le, by rw [C.cleaned]; simp [Draft.emitted]⟩

/-- The instruction at the end of the block. -/
theorem endFinally : X.final.instrs[t'.instrs.size]? = some .endFinally := by
  have hF := Z.steps.cleaned_leads Z.span.leads
  rw [C.cleaned] at hF
  exact Bench.Ready.emitted (s := { t' with cleanups := t'.cleanups.tail }) hF rfl

/-- The block in the finished unit, while it is being run. -/
theorem choreSpan (after : AfterCleanup) (hG : Suits X G' (D.caught.tidying D.opened.depth)) :
    Span X block.placed L f.guarded (D.caught.tidying D.opened.depth) t' G'
      (⟨D.cleanupIndex, after⟩ :: pd) := by
  obtain ⟨h₁, h₂, h₃⟩ := Z.choreSteps C
  obtain ⟨hle, hend⟩ := Z.choreSizes C
  have T := Z.steps
  have hq : Quiet D.caught (D.caught.tidying D.opened.depth) :=
    .of_scope D.caught _ _ _ _ _ _ (Nat.le_succ _)
  have hvalued := hq.valued ((T.toStart.comp (T.toValue.comp (T.toKept.comp (T.toLeft.comp
    T.toCaught)))).valued trivial Z.span.sound Z.span.valued)
  have hnone := Z.uncovered
  refine T.span Z.span h₁ hvalued h₂ h₃
    (fun k hk p hlo _ => (hnone k hk p hlo).trans (hnone k hk _ (Nat.le_refl _)).symm)
    (fun hg => ⟨hg, fun k hk => hnone k hk _ (Nat.le_refl _)⟩) hG (Z.span.placedIn ?_) fun x hx => ?_
  · rw [Z.placed_of, List.append_assoc]
  · rcases List.mem_cons.1 hx with rfl | hx
    · refine .inr ⟨_, Z.span.ready.handlers ▸ (Z.cleanupAt C).1, fun p hlo hhi => ?_⟩
      have hlo : D.caught.instrs.size ≤ p := hlo
      cases fin <;> simp [cleanupEntry, Handler.blockHolds] <;> omega
    · exact .inl hx

/-- The block agrees. It is never left by a jump: its labels lie outside of the
region, but jumps stay in the block they are made in. -/
theorem runChore (hG : Suits X G' (D.caught.tidying D.opened.depth)) (hdepth : G'.depth = G.depth)
    (hweak : ∀ σ b μ, Holds X G' b σ μ → Holds X G b σ μ)
    (hst : Stands X G' b σ (D.caught.tidying D.opened.depth) st (⟨D.cleanupIndex, after⟩ :: pd) μ)
    (hab : J.le a b) :
    X.Meets μ ((X.walk n).valueOf block σ) (fun _ σ' μ' => ∃ c, J.le b c ∧
      Stands X G' c σ' t' st (⟨D.cleanupIndex, after⟩ :: pd) μ') (Out X L s s' G pd st a) := by
  have hspan := Z.choreSpan C after hG
  obtain ⟨hle, hend⟩ := Z.choreSizes C
  obtain ⟨h₀, h₁, h₂, h₃, h₄, h₅, h₆⟩ := Z.sizes
  have hentry := Z.span.ready.handlers ▸ (Z.cleanupAt C).1
  have hholds : ∀ p, (D.cleanupEntry fin).blockHolds p = true ↔
      D.caught.instrs.size ≤ p ∧ p < D.cleaned.instrs.size := by
    intro p
    cases fin <;> simp [cleanupEntry, Handler.blockHolds]
  have hagrees : Agrees X L block := Z.parts.inBlock block (by cases fin <;> simp [Cleanup.of])
  have hd := Z.depth
  have hheight : (Expr.protect body hs (.of fin block)).height =
      max body.height (max (Expr.heightHandlers hs) block.height) + 1 := by cases fin <;> rfl
  have hsize : sizeOf block < sizeOf (Expr.protect body hs (.of fin block)) := by
    cases fin <;> simp [Cleanup.of] <;> omega
  refine (hagrees ⟨C.emitted, Z.blockPlain, hspan.reframe (block.around_subset L) hG, by simp [Usage.effect],
    fun _ => rfl⟩ hst (Z.paced.part hsize) (by omega)).mono (fun x σ' μ' hx => ?_)
    fun x σ' μ' hx => ?_
  · obtain ⟨c, hbc, -, hst'⟩ := hx
    exact ⟨c, hbc, hst'⟩
  · cases x with
    -- A jump stays in the block, where no label that encloses the region is placed.
    | jump l v =>
      obtain ⟨c, d, origin, q, μ₁, hbc, hd, hgo⟩ := hx
      obtain ⟨r, hr, hlabel⟩ := hd.label
      obtain ⟨p, hge, hlt, hstays⟩ := hd.stays
      have hge : D.caught.instrs.size ≤ p := hge
      have hq := (hholds q).1 ((hstays _ (List.mem_of_getElem? hentry)).trans
        ((hholds p).2 (by omega)))
      have := Z.span.opens l.id hd.mem r d q hr hlabel hd.position
      omega
    -- A failure drops the block from those being run.
    | fault e =>
      obtain ⟨c, hi, blocks, μ₁, hbc, B, hstep⟩ := hx
      have hge : D.caught.instrs.size < μ₁.pointer := B.ge
      have hle' := B.le
      obtain ⟨hs₁, hafter, hin⟩ := (Z.choreSteps C).2.2.handlers
      refine ⟨c, hi, blocks ++ [⟨D.cleanupIndex, after⟩], μ₁, J.le_trans hab hbc,
        { B with
          ge := by omega
          le := by omega
          holds := hweak σ' c μ₁ B.holds
          pending := by simp [B.pending]
          blocks := fun x hx => ?_
          thrown := fun v hv k hk => ?_ }, hstep⟩
      · rcases List.mem_append.1 hx with hx | hx
        · obtain ⟨h, hh, hhold, hp⟩ := B.blocks x hx
          refine ⟨h, hh, hhold, fun p hp' => ?_⟩
          have hp := hp p hp'
          have hge : D.caught.instrs.size ≤ p := hp.1
          omega
        · obtain rfl := List.mem_singleton.1 hx
          refine ⟨_, hentry, (hholds _).2 (by omega), fun p hp => ?_⟩
          have := (hholds p).1 hp
          omega
      · rcases Z.steps.entries k hk with hk | hk | hk
        · rw [C.cleaned] at hk
          exact B.thrown v hv k hk
        · simp [Machine.takes, Z.uncovered k hk (μ₁.pointer - 1) (by omega)]
        · simp [Machine.takes, Handler.covers_of_lt_start (p := μ₁.pointer - 1) (h := k) (by omega)]

/-- The block is entered by a jump out of the region. -/
theorem departed_chore {origin q : Nat} (hfin : fin = true) (hge : D.start.instrs.size ≤ origin)
    (hlt : origin < D.caught.instrs.size) (hq : q < D.start.instrs.size ∨ D.caught.instrs.size ≤ q)
    (hown : ∀ h ∈ D.inner.handlers, h.isFinally = true → h.covers origin = true → h.covers q = true)
    (hheight : μ.stack.length = s.depth) :
    X.machine.departed origin q μ =
      { μ with
        pointer := D.caught.instrs.size
        pending := ⟨D.cleanupIndex, .leave q⟩ :: μ.pending } := by
  subst hfin
  obtain ⟨hat, hfirst⟩ := Z.cleanupAt C
  have hnone : (D.cleanupEntry true).covers q = false := by
    simp only [cleanupEntry, Handler.covers, Bool.and_eq_false_iff, decide_eq_false_iff_not]
    omega
  rw [Machine.departed_of_crossed hat
    ⟨rfl, by simp [cleanupEntry, Handler.covers]; omega, hnone⟩ fun j h hj hh hf hc => ?_]
  · simp [cleanupEntry, Handler.target, MachineM.cutBack, Z.opened_depth, hheight]
  · rcases hfirst j h hj hh with hmem | hlt'
    · exact hown h hmem hf hc
    · rw [Handler.covers_of_lt_start (by omega)] at hc
      cases hc

/-- An exception that escapes from the region enters the block. -/
theorem enterChore (hheight : st.length = s.depth)
    (hout : Out X L D.start D.inner G pd st a (.fault (.thrown v)) σ μ) :
    ∃ c μ', J.le a c ∧ X.machine.Goes 1 μ μ' ∧
      Stands X G c σ (D.caught.tidying D.opened.depth) st
        (⟨D.cleanupIndex, .rethrow (.thrown v)⟩ :: pd) μ' := by
  obtain ⟨c, hi, blocks, μ₁, hac, B, hstep⟩ := hout
  have R := Z.span.ready
  obtain ⟨hat, hfirst⟩ := Z.cleanupAt C
  obtain ⟨h₀, h₁, h₂, h₃, h₄, h₅, h₆⟩ := Z.sizes
  have hge := B.ge
  have hle : μ₁.pointer ≤ D.caught.instrs.size := B.le
  have htarget : (D.cleanupEntry fin).target = D.caught.instrs.size := by cases fin <;> rfl
  have hdepth : D.opened.depth = st.length := Z.opened_depth.trans hheight.symm
  have hkind : ∀ ty slot p, (D.cleanupEntry fin).kind ≠ .catching ty slot p := by
    cases fin <;> simp [cleanupEntry]
  -- The entry of the cleanup block is the first that takes the exception.
  have hturn := Machine.turn_of_taken hstep hat
    (by cases fin <;> simp [cleanupEntry, Machine.takes, Handler.covers] <;> omega)
    (fun j h hj hh => by
      rcases hfirst j h hj hh with hmem | hlt
      · exact B.thrown v rfl h hmem
      · simp [Machine.takes, Handler.covers_of_lt_start (p := μ₁.pointer - 1) (h := h) (by omega)])
    fun ty slot p hk => absurd hk (hkind ty slot p)
  have hpending := B.unwound D.caught.instrs.size R (Nat.le_refl _) fun x hx => by
    obtain ⟨y, hy, hin⟩ := Z.span.inside x hx
    exact ⟨y, hy, hin _ (by omega) (by omega)⟩
  -- Control goes to the block with the stack as it was at the start of the region.
  have hhanded : X.machine.handed D.cleanupIndex (D.cleanupEntry fin) v (μ₁.pointer - 1) μ₁ =
      { μ₁ with
        pointer := D.caught.instrs.size, stack := st
        pending := ⟨D.cleanupIndex, .rethrow (.thrown v)⟩ :: pd } := by
    have hstack : MachineM.cutBack D.opened.depth μ₁ = { μ₁ with stack := st } := by
      simp [MachineM.cutBack, B.stack, hdepth]
    cases fin <;> simp only [Machine.handed, htarget, hpending] <;> simp [cleanupEntry, hstack]
  rw [hhanded] at hturn
  exact ⟨c, _, hac, Machine.goes_of_turn hturn, B.holds.moved rfl rfl, rfl, rfl, rfl, hdepth.symm, rfl⟩

/-- The block ends, and the jump that entered it goes on. -/
theorem endLeaving {q : Nat} {frames : List Pending}
    (hst : Stands X G' b σ t' st (⟨D.cleanupIndex, .leave q⟩ :: frames) μ) :
    X.machine.Goes 1 μ (X.machine.departed t'.instrs.size q
      { μ with pointer := t'.instrs.size + 1, pending := frames }) := by
  have hat := hst.place
  refine Z.span.ready.goes (i := .endFinally) (by rw [hat.pointer]; exact Z.endFinally C) ?_
  rw [Machine.exec_endFinally (m := X.machine) (μ := { μ with pointer := μ.pointer + 1 }) hat.pending,
    ← hat.pointer]
  rfl

/-- No entry covers the end of the block. -/
theorem uncovered_end : ∀ k ∈ s'.handlers, k.covers t'.instrs.size = false := by
  obtain ⟨hle, hend⟩ := Z.choreSizes C
  intro k hk
  rcases Z.steps.entries k hk with hk | hk | hk
  · obtain ⟨h₁, h₂, h₃⟩ := Z.choreSteps C
    exact h₃.uncovered (h₂.stage.sound (h₁.sound Z.span.sound)) k hk
  · exact Z.uncovered k hk _ hle
  · exact Handler.covers_of_lt_start (by omega)

end Scene

namespace Scene

variable (Z : Scene X D L body hs cl f s s' G pd n)

include Z

/-- The state at the start of the block. -/
theorem startChore (after : AfterCleanup) (hold : Holds X G' b σ μ) (hheight : st.length = s.depth)
    (hstack : μ.stack = st) (hpending : μ.pending = pd) :
    Stands X G' b σ (D.caught.tidying D.opened.depth) st (⟨D.cleanupIndex, after⟩ :: pd)
      { μ with
        pointer := D.caught.instrs.size
        pending := ⟨D.cleanupIndex, after⟩ :: μ.pending } :=
  ⟨hold.moved rfl rfl, rfl, rfl, hstack, hheight.trans Z.opened_depth.symm, by simp [hpending]⟩

/-- Nothing is crossed on the way to the end of the region from where no entry of
the region covers the code. -/
theorem landing {origin : Nat} (hge : s.instrs.size ≤ origin) (hle : origin ≤ s'.instrs.size)
    (hown : ∀ h ∈ s'.handlers, h.isFinally = true → h.covers origin = false) (μ : MachineState) :
    X.machine.departed origin D.closed.instrs.size μ =
      { μ with pointer := D.closed.instrs.size } := by
  have hclosed : D.closed.instrs.size ≤ s'.instrs.size :=
    (Z.steps.toPlaced.comp Z.steps.toEnd).stage.leads.size_le
  obtain ⟨h₀, h₁, h₂, h₃, h₄, h₅, h₆⟩ := Z.sizes
  have hsize : D.closed.instrs.size = D.cleaned.instrs.size := rfl
  refine Machine.departed_of_none (fun k hk hfin hcov => ?_) μ
  rcases Z.span.handler hk with hk | hk
  · simp [hown k hk hfin] at hcov
  · rw [Z.span.outer k hk _ (by omega) hclosed, ← Z.span.outer k hk origin hge hle]
    exact hcov

/-- Jumps to the label behind the region go to the end of its code. -/
theorem done_position {origin q : Nat} (H : Delivers X D G pd st v σ b origin q μ) :
    q = D.closed.instrs.size := by
  obtain ⟨d, hd, hq, -⟩ := H.label
  obtain ⟨d', hd', hq', -⟩ := Z.steps.placed.final (Z.steps.toEnd.stage.leads.trans Z.span.leads)
  obtain rfl : d = d' := by simpa [hd] using hd'
  simpa [hq] using hq'

/-- Behind the region its value is loaded. -/
theorem finish {origin q : Nat} {μ₀ : MachineState}
    (H : Delivers X D G pd st v σ' a origin q μ₀) (hold : Holds X G b σ μ)
    (hkept : ∀ k, D.result = some k → μ.locals[k]? = some v)
    (hpos : μ.pointer = D.closed.instrs.size) (hstack : μ.stack = st) (hpending : μ.pending = pd) :
    X.Reaches μ (Stands X G b σ s' (f.pushed v st) pd) := by
  have R := Z.span.ready
  have hF := Z.steps.toEnd.stage.leads.trans Z.span.leads
  have hland : Landed X.final D.done st pd μ := by
    obtain ⟨d, hd, hq, hdepth⟩ := H.label
    exact ⟨⟨d, hd, by rw [hq, Z.done_position H, hpos], hdepth⟩, hstack, hpending⟩
  have hat := hland.place Z.steps.placed hF
  rcases Z.lowers.load with ⟨hd, rfl⟩ | ⟨k, hd, hk, rfl⟩
  · exact .here ⟨hold, by simpa [Usage.pushed, hd] using hat⟩
  · have hfrozen : Holds X (G.freeze k v) b σ μ :=
      { hold with
        frozen := fun p hp => by
          rcases List.mem_cons.1 hp with rfl | hp
          · exact hkept k hk
          · exact hold.frozen p hp }
    simp only [Usage.pushed, hd]
    exact (R.loadLocal ⟨hfrozen, hat⟩ Z.span.leads fun μ hold =>
      hold.frozen (k, v) (List.mem_cons_self ..)).mono fun μ' h => ⟨h.holds.thaw, h.place⟩

/-- Without a finally block, the value of the region is there at once. -/
theorem valued (hno : ∀ x ∈ D.cleanups, x.isFinally = false)
    (h : Done X D G body.ty pd st a v σ μ) :
    X.Reaches μ (Gives X G f body.ty s' st pd a v σ) := by
  obtain ⟨b, origin, q, μ₁, hab, hhas, H, hgo⟩ := h
  obtain rfl := Z.done_position H
  obtain ⟨h₀, h₁, h₂, h₃, h₄, h₅, h₆⟩ := Z.sizes
  have hge := H.ge
  have hlt := H.lt
  obtain ⟨later, hlater, hin⟩ := Z.steps.toCleaned.stage.handlers
  rw [Z.landing (by omega) (by omega) (fun k hk hfin => ?_)] at hgo
  · refine .of_goes hgo ((Z.finish (μ := { μ₁ with pointer := D.closed.instrs.size }) H
      (H.holds.moved rfl rfl) H.kept rfl H.stack H.pending).mono fun μ' hst => ⟨b, hab, hhas, hst⟩)
  · rcases Z.steps.entries k hk with hk | hk | hk
    · rw [hlater] at hk
      rcases List.mem_append.1 hk with hk | hk
      · exact H.own k (List.mem_append_left _ hk) hfin
      · have := (hin k hk).1
        exact Handler.covers_of_lt_start (by omega)
    · rcases List.mem_append.1 hk with hk | hk
      · exact H.own k (List.mem_append_right _ hk) hfin
      · simp [hno k hk] at hfin
    · exact Handler.covers_of_lt_start (by omega)

/-- A way out of the region that no cleanup block takes. -/
theorem unhandled {x : Exit} (hout : Out X L D.start D.inner G pd st a x σ μ)
    (hno : ∀ k ∈ D.cleanups, (∀ l v, x = .jump l v → k.isFinally = false) ∧
      ∀ v, x ≠ .fault (.thrown v)) : Out X L s s' G pd st a x σ μ := by
  obtain ⟨h₀, h₁, h₂, h₃, h₄, h₅, h₆⟩ := Z.sizes
  obtain ⟨later, hlater, hin⟩ := Z.steps.toCleaned.stage.handlers
  have hcaught : D.caught.Leads s' := Z.steps.toCleaned.stage.leads.trans
    (Region.closed_leads.trans (Z.steps.toPlaced.comp Z.steps.toEnd).stage.leads)
  refine Out.within (o := []) hout (.inl rfl) (J.le_refl a) (by omega) hcaught.size_le
    (Z.steps.toStart.same trivial).cleanups hcaught.numLocals_le fun k hk => ?_
  have hbehind : D.caught.instrs.size < k.start → ∀ p, D.start.instrs.size ≤ p →
      p < D.inner.instrs.size → k.covers p = false := fun hlt p _ hp =>
    Handler.covers_of_lt_start (Nat.lt_trans hp hlt)
  rcases Z.steps.entries k hk with hk | hk | hk
  · rw [hlater] at hk
    rcases List.mem_append.1 hk with hk | hk
    · exact .inl (List.mem_append_left _ hk)
    · exact .inr (.inl (hbehind (hin k hk).1))
  · rcases List.mem_append.1 hk with hk | hk
    · exact .inl (List.mem_append_right _ hk)
    · exact .inr (.inr ⟨(hno k hk).1, fun v hv => absurd hv ((hno k hk).2 v)⟩)
  · exact .inr (.inl (hbehind (by omega)))

end Scene

/-! ## Through a cleanup block -/

/-- The frame in which the value of the region waits. -/
def keeping (D : Region) (G : Frame) (v : Value) : Frame := D.result.elim G (G.freeze · v)

theorem Delivers.keeping {origin q : Nat} (H : Delivers X D G pd st v σ b origin q μ) :
    Holds X (D.keeping G v) b σ μ := by
  unfold Region.keeping
  cases hk : D.result with
  | none => exact H.holds
  | some k =>
    exact
      { H.holds with
        frozen := fun p hp => by
          rcases List.mem_cons.1 hp with rfl | hp
          · exact H.kept k hk
          · exact H.holds.frozen p hp }

theorem keeping_weaken {μ : MachineState} (h : Holds X (D.keeping G v) b σ μ) :
    Holds X G b σ μ ∧ ∀ k, D.result = some k → μ.locals[k]? = some v := by
  unfold Region.keeping at h
  cases hk : D.result with
  | none =>
    rw [hk] at h
    exact ⟨h, by simp⟩
  | some k =>
    rw [hk] at h
    refine ⟨h.thaw, fun k' hk' => ?_⟩
    obtain rfl : k = k' := by simpa using hk'
    exact h.frozen (k, v) (List.mem_cons_self ..)

namespace Scene

variable {fin : Bool} {l : Label}

theorem suits_caught (Z : Scene X D L body hs cl f s s' G pd n) : Suits X G D.caught :=
  Z.span.fits.step (Z.steps.toStart.comp (Z.steps.toValue.comp (Z.steps.toKept.comp
    (Z.steps.toLeft.comp Z.steps.toCaught))))

theorem suits_keeping (Z : Scene X D L body hs cl f s s' G pd n) (v : Value) :
    Suits X (D.keeping G v) D.caught := by
  unfold Region.keeping
  have T := Z.steps
  have hopened : Step True X.names [] [] D.opened D.start :=
    (freshLabel_step Z.lowers.fresh).trans (.emitted D.labelled .nop)
  rcases Z.lowers.slot with ⟨hnone, -⟩ | ⟨k, hk, hslot⟩
  · rw [hnone]
    exact Z.suits_caught
  · rw [hk]
    exact (Z.span.fits.freeze Z.span.sound v hslot
      (hopened.stage.leads.trans Z.start_leads)).1.step (hopened.comp (T.toValue.comp
        (T.toKept.comp (T.toLeft.comp T.toCaught))))

/-- A finally block after the body or a handler gave a value. -/
theorem finallyValue (Z : Scene X D L body hs (.finally block) f s s' G pd n)
    (hheight : st.length = s.depth) (h : Done X D G body.ty pd st a v σ μ) :
    X.Meets μ (match (X.walk n).valueOf block σ with
      | .ok _ σ => .ok v σ
      | .error e σ => .error e σ) (Gives X G f body.ty s' st pd a) (Out X L s s' G pd st a) := by
  obtain ⟨t', C⟩ := Z.chore true
  obtain ⟨b, origin, q, μ₁, hab, hhas, H, hgo⟩ := h
  obtain rfl := Z.done_position H
  obtain ⟨h₀, h₁, h₂, h₃, h₄, h₅, h₆⟩ := Z.sizes
  obtain ⟨hle, hend⟩ := Z.choreSizes C
  have hclosed : D.closed.instrs.size = D.cleaned.instrs.size := rfl
  rw [Z.departed_chore C rfl H.ge H.lt (.inr (by omega))
    (fun k hk hfin hcov => by simp [H.own k hk hfin] at hcov) (by rw [H.stack, hheight])] at hgo
  have hst := Z.startChore (.leave D.closed.instrs.size) H.keeping hheight H.stack H.pending
  have hdepth : (D.keeping G v).depth = G.depth := by
    unfold Region.keeping
    cases D.result <;> rfl
  refine Bench.Meets.of_goes hgo ((Z.runChore C ((Z.suits_keeping v).tidying _) hdepth
    (fun _ _ _ h => (keeping_weaken h).1) hst hab).andThen (g := fun r => match r with
      | .ok _ σ => .ok v σ
      | .error e σ => .error e σ) (fun x σ' μ' hx => ?_) (fun x σ' μ' hne hx => .exit hne (.here hx))
      fun σ => ⟨σ, rfl⟩)
  obtain ⟨c, hbc, hst'⟩ := hx
  obtain ⟨hold, hkept⟩ := keeping_weaken hst'.holds
  have hgo' := Z.endLeaving C hst'
  rw [Z.landing (by omega) (by omega) fun k hk _ => Z.uncovered_end C k hk] at hgo'
  refine .ok (.of_goes hgo' ((Z.finish (μ := { μ' with pointer := _, pending := pd }) H
    (hold.moved rfl rfl) hkept rfl hst'.place.stack rfl).mono fun μ'' hst'' =>
      ⟨c, J.le_trans hab hbc, J.has_mono hbc hhas, hst''⟩))

/-- A finally block on the way of a jump. -/
theorem finallyJump (Z : Scene X D L body hs (.finally block) f s s' G pd n)
    (hheight : st.length = s.depth) (h : Out X L D.start D.inner G pd st a (.jump l v) σ μ) :
    X.Meets μ ((X.walk n).thenLeave block (.jump l v) σ) (Gives X G f body.ty s' st pd a)
      (Out X L s s' G pd st a) := by
  obtain ⟨t', C⟩ := Z.chore true
  obtain ⟨b, d, origin, q, μ₁, hab, E, hgo⟩ := h
  obtain ⟨r, hr, hd⟩ := E.label
  obtain ⟨h₀, h₁, h₂, h₃, h₄, h₅, h₆⟩ := Z.sizes
  obtain ⟨hle, hend⟩ := Z.choreSizes C
  have hq := Z.span.opens l.id E.mem r d q hr hd E.position
  have hinner : D.inner.instrs.size = D.caught.instrs.size := rfl
  rw [Z.departed_chore C rfl E.ge E.lt (by omega) E.own (by rw [E.stack, hheight])] at hgo
  -- The value of the jump waits in the slot of its label.
  obtain ⟨G', hG', hdepth, hweak, hcarried, hhold⟩ : ∃ G',
      Suits X G' (D.caught.tidying D.opened.depth) ∧ G'.depth = G.depth ∧
      (∀ σ b μ, Holds X G' b σ μ → Holds X G b σ μ) ∧
      (∀ σ b μ, Holds X G' b σ μ → ∀ k, d.valueSlot = some k → μ.locals[k]? = some v) ∧
      Holds X G' b σ μ₁ := by
    cases hk : d.valueSlot with
    | none =>
      exact ⟨G, Z.suits_caught.tidying _, rfl, fun _ _ _ h => h, by simp, E.holds⟩
    | some k =>
      have hclean : d.cleanup = some D.caught.cleanups.head? := by
        rw [E.cleanup, ((Z.steps.toValue.comp (Z.steps.toKept.comp (Z.steps.toLeft.comp
          Z.steps.toCaught))).same trivial).cleanups]
      refine ⟨G.freeze k v, Z.suits_caught.freezeCarried Z.span.ready v hd hk (E.slot_lt k hk) hclean,
        rfl, fun _ _ _ h => h.thaw, fun _ _ _ h k' hk' => ?_, ?_⟩
      · obtain rfl : k = k' := by simpa using hk'
        exact h.frozen (k, v) (List.mem_cons_self ..)
      · exact
          { E.holds with
            frozen := fun p hp => by
              rcases List.mem_cons.1 hp with rfl | hp
              · exact E.carried k hk
              · exact E.holds.frozen p hp }
  have hst := Z.startChore (.leave q) hhold hheight E.stack E.pending
  refine Bench.Meets.of_goes hgo ((Z.runChore C hG' hdepth hweak hst hab).bind (fun _ _ _ h => h)
    fun x σ' μ' hx => ?_)
  obtain ⟨c, hbc, hst'⟩ := hx
  obtain ⟨p, hpge, hplt, hstays⟩ := E.stays
  have hcaught : D.caught.Leads s' := Z.steps.toCleaned.stage.leads.trans
    (Region.closed_leads.trans (Z.steps.toPlaced.comp Z.steps.toEnd).stage.leads)
  refine .exit (by simp) (.here ⟨c, d, t'.instrs.size, q,
    { μ' with pointer := t'.instrs.size + 1, pending := pd }, J.le_trans hab hbc,
    { mem := E.mem, knows := E.knows, has := J.has_mono hbc E.has, label := ⟨r, hr, hd⟩
      position := E.position, depth := E.depth
      cleanup := by rw [E.cleanup, (Z.steps.toStart.same trivial).cleanups]
      carried := hcarried _ _ μ' hst'.holds
      ge := by omega
      lt := by omega
      own := fun k hk _ hcov => by simp [Z.uncovered_end C k hk] at hcov
      slot_lt := fun k hk => Nat.lt_of_lt_of_le (E.slot_lt k hk) hcaught.numLocals_le
      stays := ⟨p, by omega, by omega, hstays⟩
      holds := (hweak _ _ _ hst'.holds).moved rfl rfl
      stack := hst'.place.stack
      pending := rfl }, Z.endLeaving C hst'⟩)

/-- A finally or fault block on the way of an exception. -/
theorem cleanupThrown (fin : Bool) (Z : Scene X D L body hs (.of fin block) f s s' G pd n)
    (hheight : st.length = s.depth)
    (h : Out X L D.start D.inner G pd st a (.fault (.thrown v)) σ μ) :
    X.Meets μ ((X.walk n).thenLeave block (.fault (.thrown v)) σ) (Gives X G f body.ty s' st pd a)
      (Out X L s s' G pd st a) := by
  obtain ⟨t', C⟩ := Z.chore fin
  obtain ⟨h₀, h₁, h₂, h₃, h₄, h₅, h₆⟩ := Z.sizes
  obtain ⟨hle, hend⟩ := Z.choreSizes C
  obtain ⟨b, μ₁, hab, hgo, hst⟩ := Z.enterChore C hheight h
  refine Bench.Meets.of_goes hgo ((Z.runChore C (Z.suits_caught.tidying _) rfl
    (fun _ _ _ h => h) hst hab).bind (fun _ _ _ h => h) fun x σ' μ' hx => ?_)
  obtain ⟨c, hbc, hst'⟩ := hx
  have hat := hst'.place
  refine .exit (by simp) (.here ⟨c, [], [], { μ' with pointer := t'.instrs.size + 1, pending := pd },
    J.le_trans hab hbc,
    { ge := by simp only; omega
      le := by simp only; omega
      holds := hst'.holds.moved rfl rfl
      stack := hat.stack
      pending := rfl
      blocks := by simp
      thrown := fun v _ k hk => by simp [Machine.takes, Z.uncovered_end C k hk] }, ?_⟩)
  rw [Z.span.ready.step (i := .endFinally) (by rw [hat.pointer]; exact Z.endFinally C),
    Machine.exec_endFinally (m := X.machine) (μ := { μ' with pointer := μ'.pointer + 1 }) hat.pending,
    ← hat.pointer]

end Scene

end Region

/-- The region is entered. -/
theorem Region.Scene.enter {D : Region} (Z : D.Scene X L body hs cl f s s' G pd n)
    (hst : Stands X G a σ s st pd μ) : X.Reaches μ (Stands X G a σ D.start st pd) := by
  have hopened : Stands X G a σ D.opened st pd μ := by
    rcases Z.lowers.slot with ⟨-, h⟩ | ⟨k, -, hk⟩
    · exact h ▸ hst
    · obtain ⟨-, -, h⟩ := newSlot_ok.1 hk
      rw [← h]
      exact ⟨hst.holds, hst.place.pointer, hst.place.reachable, hst.place.stack, hst.place.height,
        hst.place.pending⟩
  exact Z.span.ready.carry (i := .nop) (hopened.fresh Z.lowers.fresh) Z.start_leads rfl rfl
    (fun μ hμ _ => by rw [← hμ]; rfl) (by simp [effectOf])

/-- What the cleanup block of a region makes of the result `r` of its body and
handlers. -/
def Walk.cleanedUp (c : Walk) (cl : Cleanup) (r : EStateM.Result Exit EvalState Value) :
    EStateM.Result Exit EvalState Value :=
  match cl, r with
  | .finally block, .ok v s =>
    match c.valueOf block s with
    | .ok _ s => .ok v s
    | .error exit s => .error exit s
  | .finally block, .error (.jump target v) s => c.thenLeave block (.jump target v) s
  | .finally block, .error (.fault (.thrown v)) s => c.thenLeave block (.fault (.thrown v)) s
  | .fault block, .error (.fault (.thrown v)) s => c.thenLeave block (.fault (.thrown v)) s
  | _, result => result

theorem Walk.protect_eq (c : Walk) :
    c.protect body hs cl σ = c.cleanedUp cl (c.handled body hs σ) := rfl

/-- Failures other than exceptions pass by cleanup blocks. -/
theorem Walk.cleanedUp_fault (c : Walk) {e : Fault} (he : ∀ v, e ≠ .thrown v) :
    c.cleanedUp cl (.error (.fault e) σ) = .error (.fault e) σ := by
  cases cl <;> cases e <;> first | rfl | exact absurd rfl (he _)

/-- **Protected regions agree**: evaluation walks over the body, the handlers and
the cleanup block, the machine finds the same way by the table of entries. -/
theorem agrees_protect (A : Region.Parts X L body hs cl) : Agrees X L (.protect body hs cl) := by
  refine Agrees.of_node ?_
  intro f s s' G pd st a n σ μ S hst hpace hdepth
  obtain ⟨D, K⟩ := S.region
  have T := K.steps S.span.sound S.plain
  have Z : D.Scene X L body hs cl f s s' G pd n := ⟨K, T, S.span, S.plain, A, hdepth, hpace⟩
  have hheight := hst.place.height
  show X.Meets μ ((X.walk n).protect body hs cl σ) (Gives X G f body.ty s' st pd a) _
  rw [Walk.protect_eq]
  refine (Z.enter hst).meets fun μ hst => ?_
  refine (Z.handled hst hheight).andThen (g := (X.walk n).cleanedUp cl) (fun v σ' μ' h => ?_)
    (fun x σ' μ' hne hout => ?_) fun σ' => ⟨σ', Walk.cleanedUp_fault _ (by simp)⟩
  -- The region and its handlers gave a value.
  · cases cl with
    | none =>
      have hnil : D.cleanups = [] := (pure_ok.1 K.cleanup).1.symm
      exact .ok (Z.valued (by simp [hnil]) h)
    | «finally» block => exact Z.finallyValue hheight h
    | fault block =>
      obtain ⟨t', C⟩ := Z.chore false
      exact .ok (Z.valued (by rw [C.entry]; simp [Region.cleanupEntry, Handler.isFinally]) h)
  -- An exception is left over, and is on its way out.
  · by_cases hthrown : ∃ v, x = .fault (.thrown v)
    · obtain ⟨v, rfl⟩ := hthrown
      cases cl with
      | none =>
        have hnil : D.cleanups = [] := (pure_ok.1 K.cleanup).1.symm
        exact .exit hne (.here (Z.unhandled hout (by simp [hnil])))
      | «finally» block => exact Z.cleanupThrown true hheight hout
      | fault block => exact Z.cleanupThrown false hheight hout
    -- A jump or another failure leaves: only a cleanup block that always runs is in its way.
    · cases x with
      | fault e =>
        rw [Walk.cleanedUp_fault _ fun v hv => hthrown ⟨v, by rw [hv]⟩]
        exact .exit hne (.here (Z.unhandled hout fun k _ =>
          ⟨fun _ _ h => (by cases h), fun v hv => hthrown ⟨v, hv⟩⟩))
      | jump l v =>
        cases cl with
        | none =>
          have hnil : D.cleanups = [] := (pure_ok.1 K.cleanup).1.symm
          exact .exit hne (.here (Z.unhandled hout (by simp [hnil])))
        | «finally» block => exact Z.finallyJump hheight hout
        | fault block =>
          obtain ⟨t', C⟩ := Z.chore false
          exact .exit hne (.here (Z.unhandled hout (by
            rw [C.entry]; simp [Region.cleanupEntry, Handler.isFinally])))

end TreeCode

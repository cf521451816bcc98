import TreeCode.Proofs.Agree.Frame
import TreeCode.Proofs.Eval.Tidy
import TreeCode.Proofs.Lower.Node

/-!
# Sites

A site is a stretch of code that lowering a node gave, seen from the finished
unit. What follows it in the unit is not known when the node is lowered, so a
site states what the rest of the unit does with it: handlers added later cover
the whole stretch or none of it, and the labels that jumps out of it may go to
lie outside.

Main definitions:

* `Suits` — a frame suits the scopes of a draft.
* `Span`, `Site` — a stretch of code in the finished unit, and one that comes
  from a node.
* `Departs`, `Fails`, `Out` — the machine leaves a stretch by a jump or a failure.
* `Agrees` — evaluating a node and running its code agree.
-/

namespace TreeCode

open Draft Lower

variable {J : Discipline} {X : Bench J} {G G' : Frame} {a b : J.State} {σ σ' : EvalState}
  {μ μ' : MachineState} {s s' t t' : Draft} {st st' : List Value} {pd : List Pending}
  {L L' P P₁ P₂ P₃ I₁ I₃ : List Nat} {g : Bool}

/-! ## Frames and drafts -/

/-- The label is placed outside of the cleanup block around the end of the draft,
so that no jump from there on goes to it until the block is over. -/
structure Draft.Shuts (s : Draft) (l : DraftLabel) : Prop where
  cleanup : l.cleanup ≠ some s.cleanups.head?
  older : ∀ n, l.cleanup = some (some n) → n < s.nextCleanup

/-- The frame suits the scopes of a draft. -/
structure Suits (X : Bench J) (G : Frame) (s : Draft) : Prop where
  vars : ∀ id k, s.slots.get? id = some k →
    ∃ ref, G.scopes.get? id = some ref ∧ ⟨ref, k, X.types id⟩ ∈ G.twins
  caught : List.Forall₂ (fun k v => (k, v) ∈ G.frozen ∧ v.isNull = false) s.caught G.caught
  hoisted : ∀ i k, s.hoisted.lookup i = some k →
    ∃ v, X.machine.record.values[i]? = some v ∧ (k, v) ∈ G.frozen
  twin_lt : ∀ t ∈ G.twins, t.slot < s.numLocals
  frozen_lt : ∀ p ∈ G.frozen, p.1 < s.numLocals
  refs : (G.twins.map (·.ref)).Nodup
  slots : (G.twins.map (·.slot)).Nodup
  apart : ∀ t ∈ G.twins, ∀ p ∈ G.frozen, p.1 ≠ t.slot
  /-- A slot for values of jumps is no variable's; it may keep a value only
  while no jump that uses it can be made. -/
  label : ∀ (r : Nat) (l : DraftLabel) (k : Nat), X.final.labels[r]? = some l →
    l.valueSlot = some k → (∀ t ∈ G.twins, t.slot ≠ k) ∧ ∀ p ∈ G.frozen, p.1 = k → s.Shuts l
  cleanups : ∀ c ∈ s.cleanups, c < s.nextCleanup

theorem Draft.Shuts.congr {l : DraftLabel} (h : s.Shuts l) (hc : t.cleanups = s.cleanups)
    (hn : s.nextCleanup ≤ t.nextCleanup) : t.Shuts l where
  cleanup := hc ▸ h.cleanup
  older n hl := Nat.lt_of_lt_of_le (h.older n hl) hn

namespace Suits

theorem step (h : Suits X G s) (hst : Step True X.names P I₁ s t) : Suits X G t := by
  have hsame := hst.same trivial
  have hk := hst.stage.leads.numLocals_le
  exact
    { vars := fun id k hk' => h.vars id k (hsame.slots id ▸ hk')
      caught := hsame.caught ▸ h.caught
      hoisted := hsame.hoisted ▸ h.hoisted
      twin_lt := fun t ht => Nat.lt_of_lt_of_le (h.twin_lt t ht) hk
      frozen_lt := fun p hp => Nat.lt_of_lt_of_le (h.frozen_lt p hp) hk
      refs := h.refs
      slots := h.slots
      apart := h.apart
      label := fun r l k hl hk' => ⟨(h.label r l k hl hk').1, fun p hp hpk =>
        ((h.label r l k hl hk').2 p hp hpk).congr hsame.cleanups hst.stage.leads.nextCleanup_le⟩
      cleanups := fun c hc => Nat.lt_of_lt_of_le (h.cleanups c (hsame.cleanups ▸ hc))
        hst.stage.leads.nextCleanup_le }

/-- A slot that is new belongs to no label. -/
theorem noLabel {k : Nat} (hs : s.Sound) (hle : s.numLocals ≤ k) (hF : s.Leads X.final)
    (hlt : ∀ (r : Nat) (l : DraftLabel) (j : Nat), X.final.labels[r]? = some l →
      l.valueSlot = some j → s.labels.size ≤ r → k < j) :
    ∀ (r : Nat) (l : DraftLabel), X.final.labels[r]? = some l → l.valueSlot ≠ some k := by
  intro r l hl hk
  by_cases hr : s.labels.size ≤ r
  · exact absurd (hlt r l k hl hk hr) (Nat.lt_irrefl k)
  · obtain ⟨l', hl', hb⟩ := hF.label r s.labels[r] (by simp)
    have : l' = l := by simpa [hl] using hl'.symm
    subst this
    have := hs.slot_lt r _ k (by simp) (hb.valueSlot ▸ hk)
    omega

/-- The frame with a new slot that keeps a value. -/
theorem freeze (h : Suits X G s) (hs : s.Sound) {k : Nat} (v : Value)
    (hk : newSlot X.env s = .ok (k, t)) (hF : t.Leads X.final) :
    Suits X (G.freeze k v) t ∧ G.Clear k ∧ k < X.final.numLocals := by
  have hq := newSlot_quiet hk
  have ht : Suits X G t := h.step (hq.step (P := []) (I := []) (newSlot_same hk))
  obtain ⟨-, rfl, rfl⟩ := newSlot_ok.1 hk
  have hclear : G.Clear s.numLocals :=
    ⟨fun u hu => Nat.ne_of_lt (h.twin_lt u hu), fun p hp => Nat.ne_of_lt (h.frozen_lt p hp)⟩
  have hno := noLabel (X := X) hs (Nat.le_refl _) (hq.leads.trans hF)
    fun r l j hl hj hr => hF.slot_new r l j hl hj hr
  refine ⟨{ ht with
    caught := ht.caught.imp fun _ _ h => ⟨.tail _ h.1, h.2⟩
    hoisted := fun i k hk => ?_
    frozen_lt := fun p hp => ?_
    apart := fun u hu p hp => ?_
    label := fun r l k hl hk => ⟨(ht.label r l k hl hk).1, fun p hp hpk => ?_⟩ },
    hclear, hF.numLocals_le⟩
  · obtain ⟨x, hx, hmem⟩ := ht.hoisted i k hk
    exact ⟨x, hx, .tail _ hmem⟩
  · rcases List.mem_cons.1 hp with rfl | hp
    · exact Nat.lt_succ_self _
    · exact ht.frozen_lt p hp
  · rcases List.mem_cons.1 hp with rfl | hp
    · exact (hclear.twin u hu).symm
    · exact ht.apart u hu p hp
  · rcases List.mem_cons.1 hp with rfl | hp
    · obtain rfl : s.numLocals = k := hpk
      exact absurd hk (hno r l hl)
    · exact (ht.label r l k hl hk).2 p hp hpk

end Suits

/-! ## Stretches of code -/

/-- The labels `L` lie outside of the stretch of code from `s` to `s'`. -/
def Opens (X : Bench J) (L : List Nat) (s s' : Draft) : Prop :=
  ∀ id ∈ L, ∀ (r : Nat) (l : DraftLabel) (q : Nat), X.final.programLabels.lookup id = some r →
    X.final.labels[r]? = some l → l.position = some q → q ≤ s.instrs.size ∨ s'.instrs.size ≤ q

theorem Opens.sub (h : Opens X L s s') (hL : L' ⊆ L) (hst : s.instrs.size ≤ t.instrs.size)
    (hts : t'.instrs.size ≤ s'.instrs.size) : Opens X L' t t' := by
  intro id hid r l q hr hl hq
  rcases h id (hL hid) r l q hr hl hq with h | h
  · exact .inl (by omega)
  · exact .inr (by omega)

/-- The stretch of code from the end of draft `s` to the end of draft `s'`, in
the finished unit. Lowering it may place the labels `P` of the program; jumps
out of it may go to the labels `L`. -/
structure Span (X : Bench J) (P L : List Nat) (g : Bool) (s s' : Draft) (G : Frame)
    (pd : List Pending) : Prop where
  ready : X.Ready
  sound : s.Sound
  valued : s.Valued X.names
  step : Step True X.names P [] s s'
  leads : s'.Leads X.final
  fits : Suits X G s
  nodup : P.Nodup
  fresh : ∀ id ∈ P, ¬s.Settled id
  /-- Handlers added later cover the whole stretch or none of it. -/
  outer : ∀ h ∈ X.final.handlers.drop s'.handlers.length, ∀ p, s.instrs.size ≤ p →
    p ≤ s'.instrs.size → h.covers p = h.covers s.instrs.size
  bare : g = false → ∀ h ∈ X.final.handlers.drop s'.handlers.length,
    h.covers s.instrs.size = false
  /-- Blocks being run hold the whole stretch. -/
  inside : ∀ x ∈ pd, ∃ h, X.final.handlers[x.handler]? = some h ∧
    ∀ p, s.instrs.size ≤ p → p ≤ s'.instrs.size → h.blockHolds p = true
  opens : Opens X L s s'

/-- The handlers of a later draft come after those of an earlier one, and what
was added lies past the earlier code. -/
theorem Draft.Stage.later {P : List Nat} {s t : Draft} (h : Stage P s t) {F : Draft}
    (hF : t.Leads F) : ∀ k ∈ F.handlers.drop s.handlers.length,
      k ∈ F.handlers.drop t.handlers.length ∨ s.instrs.size < k.start := by
  obtain ⟨hs, hhs, hin⟩ := h.handlers
  obtain ⟨rest, hrest⟩ := hF.handlers
  intro k hk
  rw [← hrest, hhs] at hk ⊢
  simp only [List.append_assoc, List.drop_left, List.length_append] at hk ⊢
  rcases List.mem_append.1 hk with hk | hk
  · exact .inr (hin k hk).1
  · refine .inl ?_
    rw [← List.append_assoc, List.drop_left' (by simp)]
    exact hk

theorem Handler.covers_of_lt_start {h : Handler} {p : Nat} (hp : p < h.start) :
    h.covers p = false := by
  simp only [Handler.covers, Bool.and_eq_false_iff, decide_eq_false_iff_not]
  omega

theorem Handler.covers_of_stop_le {h : Handler} {p : Nat} (hp : h.stop ≤ p) :
    h.covers p = false := by
  simp only [Handler.covers, Bool.and_eq_false_iff, decide_eq_false_iff_not]
  omega

namespace Span

/-- A stretch within a stretch, with scopes of its own. -/
theorem narrow (S : Span X P L g s s' G pd) (h₁ : Stage P₁ s t) (hv : t.Valued X.names)
    (h₂ : Step True X.names P₂ [] t t') (h₃ : Stage P₃ t' s') (hG : Suits X G' t)
    (hP : P₂.Nodup ∧ P₂ ⊆ P ∧ ∀ id ∈ P₂, id ∉ P₁) : Span X P₂ L g t t' G' pd where
  ready := S.ready
  sound := h₁.sound S.sound
  valued := hv
  step := h₂
  leads := h₃.leads.trans S.leads
  fits := hG
  nodup := hP.1
  fresh id hid hset := by
    rcases h₁.settled S.sound id hset with hset | hmem
    · exact S.fresh id (hP.2.1 hid) hset
    · exact hP.2.2 id hid hmem
  outer h hh p hlo hhi := by
    have hle₁ := h₁.leads.size_le
    have hle₃ := h₃.leads.size_le
    rcases h₃.later S.leads h hh with hh | hlt
    · rw [S.outer h hh p (by omega) (by omega), S.outer h hh t.instrs.size hle₁ (by omega)]
    · rw [Handler.covers_of_lt_start (by omega), Handler.covers_of_lt_start (by omega)]
  bare hg h hh := by
    have hle₁ := h₁.leads.size_le
    have hle₂ := h₂.stage.leads.size_le
    have hle₃ := h₃.leads.size_le
    rcases h₃.later S.leads h hh with hh | hlt
    · rw [S.outer h hh t.instrs.size hle₁ (by omega)]
      exact S.bare hg h hh
    · exact Handler.covers_of_lt_start (by omega)
  inside x hx := by
    obtain ⟨h, hh, hin⟩ := S.inside x hx
    have hle₁ := h₁.leads.size_le
    have hle₃ := h₃.leads.size_le
    exact ⟨h, hh, fun p hlo hhi => hin p (by omega) (by omega)⟩
  opens := S.opens.sub (List.Subset.refl L) h₁.leads.size_le h₃.leads.size_le

/-- A stretch within a stretch. -/
theorem sub (S : Span X P L g s s' G pd) (h₁ : Step True X.names P₁ I₁ s t)
    (h₂ : Step True X.names P₂ [] t t') (h₃ : Step True X.names P₃ I₃ t' s')
    (hP : P₂.Nodup ∧ P₂ ⊆ P ∧ ∀ id ∈ P₂, id ∉ P₁) : Span X P₂ L g t t' G pd :=
  S.narrow h₁.stage (h₁.valued trivial S.sound S.valued) h₂ h₃.stage (S.fits.step h₁) hP

/-- Fewer labels, another frame. -/
theorem reframe (S : Span X P L g s s' G pd) (hL : L' ⊆ L) (hG : Suits X G' s) :
    Span X P L' g s s' G' pd :=
  { S with fits := hG, opens := S.opens.sub hL (Nat.le_refl _) (Nat.le_refl _) }

end Span

/-! ## Ways out -/

/-- The machine leaves the stretch towards the label `l`, whose slot holds the
value; blocks of enclosing regions may be run on the way. -/
structure Departure (X : Bench J) (L : List Nat) (s s' : Draft) (G : Frame) (pd : List Pending)
    (st : List Value) (l : Label) (v : Value) (σ : EvalState) (b : J.State) (d : DraftLabel)
    (origin q : Nat) (μ : MachineState) : Prop where
  mem : l.id ∈ L
  knows : X.names.Knows l
  has : J.has b v l.ty
  label : ∃ r, X.final.programLabels.lookup l.id = some r ∧ X.final.labels[r]? = some d
  position : d.position = some q
  depth : d.depth = some st.length
  cleanup : d.cleanup = some s.cleanups.head?
  carried : ∀ k, d.valueSlot = some k → μ.locals[k]? = some v
  ge : s.instrs.size ≤ origin
  lt : origin < s'.instrs.size
  /-- No finally block of the stretch itself is still to be run. -/
  own : ∀ h ∈ s'.handlers, h.isFinally = true → h.covers origin = true → h.covers q = true
  slot_lt : ∀ k, d.valueSlot = some k → k < s'.numLocals
  /-- The jump was made in the same cleanup blocks that its label is placed in. -/
  stays : ∃ p, s.instrs.size ≤ p ∧ p < s'.instrs.size ∧
    ∀ h ∈ X.final.handlers, h.blockHolds q = h.blockHolds p
  holds : Holds X G b σ μ
  stack : μ.stack = st
  pending : μ.pending = pd

/-- The machine fails at an instruction of the stretch, and no handler of the
stretch takes the failure. -/
structure Breakdown (X : Bench J) (s s' : Draft) (G : Frame) (pd : List Pending) (st : List Value)
    (f : Fault) (σ : EvalState) (b : J.State) (hi : List Value) (blocks : List Pending)
    (μ : MachineState) : Prop where
  ge : s.instrs.size < μ.pointer
  le : μ.pointer ≤ s'.instrs.size
  holds : Holds X G b σ μ
  stack : μ.stack = hi ++ st
  pending : μ.pending = blocks ++ pd
  /-- Blocks of the stretch that were being run hold the instruction. -/
  blocks : ∀ x ∈ blocks, ∃ h, X.final.handlers[x.handler]? = some h ∧
    h.blockHolds (μ.pointer - 1) = true ∧
    ∀ p, h.blockHolds p = true → s.instrs.size ≤ p ∧ p < s'.instrs.size
  thrown : ∀ v, f = .thrown v → ∀ h ∈ s'.handlers, Machine.takes (μ.pointer - 1) v h = false

/-- The machine is about to leave the stretch in the way of an exit of
evaluation: one turn makes the jump, or raises the failure. -/
def Out (X : Bench J) (L : List Nat) (s s' : Draft) (G : Frame) (pd : List Pending)
    (st : List Value) (a : J.State) (x : Exit) (σ : EvalState) (μ : MachineState) : Prop :=
  match x with
  | .jump l v => ∃ b d origin q μ₁, J.le a b ∧
    Departure X L s s' G pd st l v σ b d origin q μ₁ ∧
    X.machine.Goes 1 μ (X.machine.departed origin q μ₁)
  | .fault f => ∃ b hi blocks μ₁, J.le a b ∧ Breakdown X s s' G pd st f σ b hi blocks μ₁ ∧
    X.machine.step μ = .error f μ₁

namespace Out

variable {x : Exit}

/-- Only the states that hold matter. -/
theorem imp (h : Out X L s s' G' pd st a x σ' μ)
    (hold : ∀ b μ, J.le a b → Holds X G' b σ' μ → Holds X G b σ μ) :
    Out X L s s' G pd st a x σ μ := by
  cases x with
  | jump l v =>
    obtain ⟨b, d, origin, q, μ₁, hab, hd, hgo⟩ := h
    exact ⟨b, d, origin, q, μ₁, hab, { hd with holds := hold b μ₁ hab hd.holds }, hgo⟩
  | fault f =>
    obtain ⟨b, hi, blocks, μ₁, hab, hf, hstep⟩ := h
    exact ⟨b, hi, blocks, μ₁, hab, { hf with holds := hold b μ₁ hab hf.holds }, hstep⟩

/-- Only the label of the jump matters. -/
theorem towards (h : Out X L s s' G pd st a x σ μ)
    (hL : ∀ l v, x = .jump l v → l.id ∈ L → l.id ∈ L') : Out X L' s s' G pd st a x σ μ := by
  cases x with
  | jump l v =>
    obtain ⟨b, d, origin, q, μ₁, hab, hd, hgo⟩ := h
    exact ⟨b, d, origin, q, μ₁, hab, { hd with mem := hL l v rfl hd.mem }, hgo⟩
  | fault f => exact h

/-- A way out of a stretch is a way out of a longer one with the same cleanup
block around it, whose other handlers have no part in it. Where operands are
pending there are no jumps. -/
theorem within {o : List Value} (h : Out X L t t' G pd (o ++ st) b x σ μ)
    (hop : o = [] ∨ L = []) (hab : J.le a b) (hlo : s.instrs.size ≤ t.instrs.size)
    (hhi : t'.instrs.size ≤ s'.instrs.size) (hc : t.cleanups = s.cleanups)
    (hn : t'.numLocals ≤ s'.numLocals)
    (hk : ∀ k ∈ s'.handlers, k ∈ t'.handlers ∨
      (∀ p, t.instrs.size ≤ p → p < t'.instrs.size → k.covers p = false) ∨
      (∀ l v, x = .jump l v → k.isFinally = false) ∧
        ∀ v, x = .fault (.thrown v) → ∀ p, Machine.takes p v k = false) :
    Out X L s s' G pd st a x σ μ := by
  cases x with
  | jump l v =>
    obtain ⟨c, d, origin, q, μ₁, hbc, hd, hgo⟩ := h
    -- A jump that leaves keeps nothing on the stack, unless no label is open around it.
    have hnil : o = [] := hop.resolve_right fun hnil => by
      have := hd.mem
      simp [hnil] at this
    subst hnil
    refine ⟨c, d, origin, q, μ₁, J.le_trans hab hbc,
      { hd with
        cleanup := hc ▸ hd.cleanup
        ge := Nat.le_trans hlo hd.ge
        lt := Nat.lt_of_lt_of_le hd.lt hhi
        own := fun k hmem hfin hcov => ?_
        slot_lt := fun k hk' => Nat.lt_of_lt_of_le (hd.slot_lt k hk') hn
        stays := ?_ }, hgo⟩
    · rcases hk k hmem with hmem | hno | ⟨hno, -⟩
      · exact hd.own k hmem hfin hcov
      · simp [hno origin hd.ge hd.lt] at hcov
      · simp [hno l v rfl] at hfin
    · obtain ⟨p, hge, hlt, hp⟩ := hd.stays
      exact ⟨p, by omega, by omega, hp⟩
  | fault f =>
    obtain ⟨c, hi', blocks, μ₁, hbc, hf, hstep⟩ := h
    have hge := hf.ge
    have hle := hf.le
    refine ⟨c, hi' ++ o, blocks, μ₁, J.le_trans hab hbc,
      { hf with
        ge := by omega
        le := by omega
        stack := by rw [hf.stack, List.append_assoc]
        blocks := fun x hx => ?_
        thrown := fun v hv k hmem => ?_ }, hstep⟩
    -- Blocks that were open inside are open outside.
    · obtain ⟨h, hh, hhold, hp⟩ := hf.blocks x hx
      refine ⟨h, hh, hhold, fun p hp' => ?_⟩
      have := hp p hp'
      omega
    -- A handler of the outside that covers the place was there inside, or does not take it.
    · rcases hk k hmem with hmem | hno | ⟨-, hno⟩
      · exact hf.thrown v hv k hmem
      · simp [Machine.takes, hno (μ₁.pointer - 1) (by omega) (by omega)]
      · exact hno v (by rw [hv]) _

/-- The same for a longer stretch of lowering. -/
theorem extend {o : List Value} (h : Out X L t t' G pd (o ++ st) b x σ μ)
    (hop : o = [] ∨ L = []) (hab : J.le a b) (h₁ : Stage P₁ s t) (hc : t.cleanups = s.cleanups)
    (h₃ : Stage P₃ t' s') : Out X L s s' G pd st a x σ μ := by
  obtain ⟨hs, hhs, hin⟩ := h₃.handlers
  refine h.within hop hab h₁.leads.size_le h₃.leads.size_le hc h₃.leads.numLocals_le fun k hk => ?_
  rw [hhs] at hk
  -- Handlers added after the shorter stretch lie behind it.
  rcases List.mem_append.1 hk with hk | hk
  · exact .inl hk
  · have := (hin k hk).1
    exact .inr (.inl fun p _ hp => Handler.covers_of_lt_start (by omega))

/-- The same within the scopes of a node. -/
theorem widen {o : List Value} (h : Out X L t t' G pd (o ++ st) b x σ μ)
    (hop : o = [] ∨ L = []) (hL : L ⊆ L') (hab : J.le a b) (h₁ : Step True X.names P₁ I₁ s t)
    (h₃ : Step True X.names P₃ I₃ t' s') : Out X L' s s' G pd st a x σ μ :=
  (h.extend hop hab h₁.stage (h₁.same trivial).cleanups h₃.stage).towards fun _ _ _ hl => hL hl

end Out

/-! ## Nodes -/

/-- The labels of `L` other than the one that the node itself places last. -/
def Expr.around (e : Expr) (L : List Nat) : List Nat :=
  match e with
  | .label l _ => L.filter (· != l.id)
  | _ => L

theorem Expr.around_subset (e : Expr) (L : List Nat) : e.around L ⊆ L := by
  cases e with
  | label l o => exact List.filter_subset_self L
  | _ => exact fun _ h => h

/-- The code of a node in the finished unit. -/
structure Site (X : Bench J) (L : List Nat) (e : Expr) (f : Usage) (s s' : Draft) (G : Frame)
    (pd : List Pending) : Prop where
  lowered : e.part.emit f X.env s = .ok ((), s')
  plain : e.Plain X.names
  span : Span X e.placed (e.around L) f.guarded s s' G pd
  /-- The value is asked for, not the address of a variable. -/
  direct : f.byAddress = true → ∀ v, e = .var v → v.ty.isValueStruct = false
  /-- No value is asked of a void node. -/
  used : e.ty.isVoid = true → f.discarded = true

/-- The node has given its value. -/
def Gives (X : Bench J) (G : Frame) (f : Usage) (t : Ty) (s : Draft) (st : List Value)
    (pd : List Pending) (a : J.State) (v : Value) (σ : EvalState) (μ : MachineState) : Prop :=
  ∃ b, J.le a b ∧ J.has b v t ∧ Stands X G b σ s (f.pushed v st) pd μ

/-- What evaluation of a node may use, at a bound. -/
def Bench.walk (X : Bench J) (n : Nat) : Walk where
  host := X.machine.host
  gauge := X.gauge
  fuel := n
  call := X.call
  valueOf := eval X.machine.host X.call X.gauge n

/-- Evaluating a node and running its code agree, wherever the code stands. -/
def Agrees (X : Bench J) (L : List Nat) (e : Expr) : Prop :=
  ∀ ⦃f : Usage⦄ ⦃s s' : Draft⦄ ⦃G : Frame⦄ ⦃pd : List Pending⦄ ⦃st : List Value⦄ ⦃a : J.State⦄
    ⦃n : Nat⦄ ⦃σ : EvalState⦄ ⦃μ : MachineState⦄, Site X L e f s s' G pd →
    Stands X G a σ s st pd μ → X.Paced n e → G.depth + e.height ≤ X.gauge.max →
    X.Meets μ ((X.walk n).valueOf e σ) (Gives X G f e.ty s' st pd a) (Out X L s s' G pd st a)

/-- A world at another level holds the same. -/
theorem Holds.atDepth (h : Holds X G a σ μ) (d : Nat) :
    Holds X { G with depth := d } a (σ.atDepth X.gauge d) μ :=
  { h with
    depth := by
      show σ.world.depth.set X.gauge.counter d = _
      rw [h.depth, Depths.set_set]
    good := J.good_recast σ.world.store.cells _ h.good }

theorem Stands.deeper (h : Stands X G a σ s st pd μ) :
    Stands X G.deeper a (σ.deeper X.gauge) s st pd μ := by
  refine ⟨?_, h.place⟩
  have := h.holds.atDepth (σ.world.depthAt X.gauge + 1)
  rwa [show ({ G with depth := σ.world.depthAt X.gauge + 1 } : Frame) = G.deeper by
    rw [h.holds.depthAt]; rfl] at this

theorem Holds.backAt (h : Holds X G.deeper a σ μ) :
    Holds X G a (σ.atDepth X.gauge G.depth) μ := h.atDepth G.depth

/-- Evaluation one level deeper is met when it is met there. -/
theorem Bench.Meets.deeper {α : Type} {x : EvalM α} {Q Q' : α → EvalState → MachineState → Prop}
    {E E' : Exit → EvalState → MachineState → Prop} (hd : σ.world.depthAt X.gauge < X.gauge.max)
    (h : X.Meets μ (x (σ.deeper X.gauge)) Q E)
    (hQ : ∀ v σ' μ', Q v σ' μ' → Q' v (σ'.atDepth X.gauge (σ.world.depthAt X.gauge)) μ')
    (hE : ∀ e σ' μ', E e σ' μ' → E' e (σ'.atDepth X.gauge (σ.world.depthAt X.gauge)) μ') :
    X.Meets μ (EvalM.deeper X.gauge x σ) Q' E' := by
  rw [EvalM.deeper_eq x hd]
  cases hr : x (σ.deeper X.gauge) with
  | ok v σ' => exact .ok ((h.ends v σ' hr).mono (hQ v σ'))
  | error e σ' =>
    by_cases hx : e = .fault .outOfFuel
    · subst hx
      exact .cut (h.isCut σ' hr)
    · exact .exit hx ((h.leaves e σ' hr hx).mono (hE e σ'))

/-- Without fuel nothing is paced backwards. -/
theorem Bench.Paced.not_zero {e : Expr} (h : X.Paced 0 e) : X.back = false := by
  cases hb : X.back with
  | false => rfl
  | true =>
    have hpos : 1 ≤ sizeOf e := by cases e <;> simp <;> omega
    have := Nat.mul_le_mul_left (X.machine.fuel + 1) hpos
    simp only [Bench.Paced, hb, if_true] at h
    omega

/-- Agreement on a node follows from agreement on the evaluation of the node
itself, one level deeper. -/
theorem Agrees.of_node {e : Expr}
    (h : ∀ ⦃f : Usage⦄ ⦃s s' : Draft⦄ ⦃G : Frame⦄ ⦃pd : List Pending⦄ ⦃st : List Value⦄
      ⦃a : J.State⦄ ⦃n : Nat⦄ ⦃σ : EvalState⦄ ⦃μ : MachineState⦄, Site X L e f s s' G pd →
      Stands X G a σ s st pd μ → X.Paced (n + 1) e → G.depth + e.height ≤ X.gauge.max + 1 →
      X.Meets μ ((X.walk n).node e σ) (Gives X G f e.ty s' st pd a) (Out X L s s' G pd st a)) :
    Agrees X L e := by
  intro f s s' G pd st a n σ μ S hst hpace hdepth
  cases n with
  | zero => exact .cut fun hb => absurd hb (by simp [hpace.not_zero])
  | succ n =>
    have hpos := e.height_pos
    have hd := hst.holds.depthAt
    have hfits : Suits X G.deeper s := { S.span.fits with }
    have hnode := h { S with span := S.span.reframe (fun _ h => h) hfits } hst.deeper hpace
      (by simp only [Frame.deeper]; omega)
    show X.Meets μ (EvalM.deeper X.gauge ((X.walk n).node e) σ) _ _
    refine hnode.deeper (by omega) (fun v σ' μ' hv => ?_) fun x σ' μ' hout => ?_
    · obtain ⟨b, hab, hhas, hst'⟩ := hv
      exact ⟨b, hab, hhas, hd ▸ hst'.holds.backAt, hst'.place⟩
    · exact hout.imp fun b μ _ hold => hd ▸ hold.backAt

/-- The step that lowering a node makes. -/
theorem Expr.emit_step {e : Expr} {f : Usage} {u : Unit} (h : e.part.emit f X.env s = .ok (u, s'))
    (hp : e.Plain X.names) (hs : s.Sound) : Step True X.names e.placed [] s s' :=
  ((e.part_acts X.names).emit [] [] [] f).stepped h hs hp

/-- A part of a node is evaluated, in a frame that may list more than that of
the node, above operands that may be pending. -/
theorem Agrees.partIn {c : Expr} {f : Usage} {o : List Value} {n : Nat} {L₁ : List Nat}
    (A : Agrees X L₁ c) (S : Span X P L g s s' G pd)
    (hlow : c.part.emit f X.env t = .ok ((), t')) (hg : f.guarded = g) (hplain : c.Plain X.names)
    (h₁ : Step True X.names P₁ I₁ s t) (h₃ : Step True X.names P₃ I₃ t' s')
    (hdirect : f.byAddress = true → ∀ v, c = .var v → v.ty.isValueStruct = false)
    (hused : c.ty.isVoid = true → f.discarded = true)
    (hP : c.placed.Nodup ∧ c.placed ⊆ P ∧ ∀ id ∈ c.placed, id ∉ P₁)
    (hL : Opens X (c.around L₁) t t') (hL' : L₁ ⊆ L') (hop : o = [] ∨ L₁ = [])
    (hG : Suits X G' t) (hdepth : G'.depth + c.height ≤ X.gauge.max)
    (hhold : ∀ σ b μ, Holds X G' b σ μ → Holds X G b σ μ)
    (hst : Stands X G' b σ t (o ++ st) pd μ) (hab : J.le a b) (hpace : X.Paced n c) :
    X.Meets μ ((X.walk n).valueOf c σ) (Gives X G' f c.ty t' (o ++ st) pd b)
      (Out X L' s s' G pd st a) := by
  subst hg
  have hs : t.Sound := h₁.stage.sound S.sound
  have hspan := S.sub h₁ (Expr.emit_step hlow hplain hs) h₃ hP
  refine (A ⟨hlow, hplain, { hspan with fits := hG, opens := hL }, hdirect, hused⟩ hst hpace
    hdepth).mono (fun _ _ _ h => h) fun x σ' μ' hout => ?_
  exact (hout.imp fun b μ _ => hhold σ' b μ).widen hop hL' hab h₁ h₃

theorem Expr.opens_nil (c : Expr) (s s' : Draft) : Opens X (c.around []) s s' := by
  rw [List.eq_nil_of_subset_nil (c.around_subset [])]
  intro id hid
  simp at hid

/-- An operand of a node whose code starts at the end of draft `t`, in a frame
`G'` that may list more than the frame of the node. The labels `P₁` may be
placed before it. -/
structure OperandAt (X : Bench J) (P L : List Nat) (g : Bool) (s s' : Draft) (G : Frame)
    (pd : List Pending) (P₁ : List Nat) (t : Draft) (G' : Frame) (n : Nat) (e : Expr) : Prop where
  span : Span X P L g s s' G pd
  agrees : Agrees X [] e
  plain : e.Plain X.names
  valued : e.ty.isVoid = false
  before : ∃ I, Step True X.names P₁ I s t
  placed : e.placed.Nodup ∧ e.placed ⊆ P ∧ ∀ id ∈ e.placed, id ∉ P₁
  fits : Suits X G' t
  weaker : ∀ σ b μ, Holds X G' b σ μ → Holds X G b σ μ
  depth : G'.depth + e.height ≤ X.gauge.max
  paced : X.Paced n e

namespace OperandAt

variable {c : Expr} {f : Usage} {n : Nat}

theorem sound (O : OperandAt X P L g s s' G pd P₁ t G' n c) : t.Sound := by
  obtain ⟨I, h⟩ := O.before
  exact h.stage.sound O.span.sound

/-- Code that places no label of the program comes before the operand. -/
theorem later (O : OperandAt X P L g s s' G pd P₁ t G' n c) (h : Step True X.names [] I₁ t t') :
    OperandAt X P L g s s' G pd P₁ t' G' n c := by
  obtain ⟨I, hb⟩ := O.before
  refine { O with before := ⟨I ++ I₁, ?_⟩, fits := O.fits.step h }
  simpa using hb.comp h

/-- The operand is evaluated, above operands that are pending. -/
theorem eval {o : List Value} (O : OperandAt X P L g s s' G pd P₁ t G' n c)
    (hlow : c.part.emit f.operand X.env t = .ok ((), t')) (hg : f.guarded = g)
    (h₃ : Step True X.names P₃ I₃ t' s') (hst : Stands X G' b σ t (o ++ st) pd μ)
    (hab : J.le a b) :
    X.Meets μ ((X.walk n).valueOf c σ) (fun v σ' μ' => ∃ d, J.le b d ∧ J.has d v c.ty ∧
      Stands X G' d σ' t' (v :: (o ++ st)) pd μ') (Out X L' s s' G pd st a) := by
  obtain ⟨I, hb⟩ := O.before
  exact O.agrees.partIn O.span hlow hg O.plain hb h₃ (by simp [Usage.operand])
    (by simp [O.valued]) O.placed (c.opens_nil t t') (List.nil_subset _) (.inr rfl) O.fits O.depth
    O.weaker hst hab O.paced

end OperandAt

/-- The labels of a part of the node that comes after the labels `P₁`. -/
theorem Span.placedIn {Q : List Nat} (S : Span X P L g s s' G pd) (h : (P₁ ++ Q).Sublist P) :
    Q.Nodup ∧ Q ⊆ P ∧ ∀ id ∈ Q, id ∉ P₁ := by
  have hnd := h.nodup S.nodup
  exact ⟨hnd.of_append_right, fun id hid => h.subset (List.mem_append_right _ hid),
    fun id hid hid' => (List.nodup_append.1 hnd).2.2 id hid' id hid rfl⟩

/-- An operand in the frame of the node. -/
theorem Span.operand {c : Expr} {n : Nat} (S : Span X P L g s s' G pd) (A : Agrees X [] c)
    (hplain : c.Plain X.names) (hvoid : c.ty.isVoid = false) (h₁ : Step True X.names P₁ I₁ s t)
    (hsub : (P₁ ++ c.placed).Sublist P) (hdepth : G.depth + c.height ≤ X.gauge.max)
    (hpace : X.Paced n c) : OperandAt X P L g s s' G pd P₁ t G n c where
  span := S
  agrees := A
  plain := hplain
  valued := hvoid
  before := ⟨I₁, h₁⟩
  placed := S.placedIn hsub
  fits := S.fits.step h₁
  weaker _ _ _ h := h
  depth := hdepth
  paced := hpace

/-- A part of a node that stands where no operand is pending is evaluated. -/
theorem Agrees.part {c : Expr} {f : Usage} {n : Nat} (A : Agrees X L' c)
    (S : Span X P L g s s' G pd) (hlow : c.part.emit f X.env t = .ok ((), t'))
    (hg : f.guarded = g) (hplain : c.Plain X.names)
    (h₁ : Step True X.names P₁ I₁ s t) (h₃ : Step True X.names P₃ I₃ t' s')
    (haddr : f.byAddress = false) (hused : c.ty.isVoid = true → f.discarded = true)
    (hsub : (P₁ ++ c.placed).Sublist P) (hL : c.around L' ⊆ L)
    (hdepth : G.depth + c.height ≤ X.gauge.max) (hst : Stands X G b σ t st pd μ)
    (hab : J.le a b) (hpace : X.Paced n c) :
    X.Meets μ ((X.walk n).valueOf c σ) (Gives X G f c.ty t' st pd b)
      (Out X L' s s' G pd st a) :=
  A.partIn (o := []) S hlow hg hplain h₁ h₃ (by simp [haddr]) hused (S.placedIn hsub)
    (S.opens.sub hL h₁.stage.leads.size_le h₃.stage.leads.size_le) (List.Subset.refl L')
    (.inl rfl) (S.fits.step h₁) hdepth (fun _ _ _ h => h) hst hab hpace

/-- The same for a part that does not jump. -/
theorem Agrees.closed {c : Expr} {f : Usage} {n : Nat} (A : Agrees X [] c)
    (S : Span X P L g s s' G pd) (hlow : c.part.emit f X.env t = .ok ((), t'))
    (hg : f.guarded = g) (hplain : c.Plain X.names)
    (h₁ : Step True X.names P₁ I₁ s t) (h₃ : Step True X.names P₃ I₃ t' s')
    (haddr : f.byAddress = false) (hused : c.ty.isVoid = true → f.discarded = true)
    (hsub : (P₁ ++ c.placed).Sublist P) (hdepth : G.depth + c.height ≤ X.gauge.max)
    (hst : Stands X G b σ t st pd μ) (hab : J.le a b) (hpace : X.Paced n c) :
    X.Meets μ ((X.walk n).valueOf c σ) (Gives X G f c.ty t' st pd b)
      (Out X L' s s' G pd st a) :=
  A.partIn (o := []) S hlow hg hplain h₁ h₃ (by simp [haddr]) hused (S.placedIn hsub)
    (c.opens_nil t t') (List.nil_subset L') (.inl rfl) (S.fits.step h₁) hdepth (fun _ _ _ h => h) hst hab hpace

end TreeCode
